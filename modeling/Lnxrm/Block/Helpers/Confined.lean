import Lnxrm.Block.Helpers.Lines

/-!
# The block layer — a cache that stays inside a part of its device

Proof layer. `Confined P s s'`: the lines of `s'` are lines of sectors of
`P`, and the devices differ from those of `s` in sectors of `P` only. A
cache that is used for sectors of `P` stays confined to them, whether or
not the devices fail and the lines are coherent, because a write-back goes
to the sector of its line.
-/

namespace Lnxrm

namespace Block

variable {δ α : Type} [DecidableEq δ] {P : δ → ℕ → Prop} {s s' s'' : Blk δ α}

/-- **Only sectors of `P` have lines, and only those have changed.** -/
structure Confined (P : δ → ℕ → Prop) (s s' : Blk δ α) : Prop where
  lines : LinesIn P s'
  sector : ∀ dev lba, ¬ P dev lba → s'.disks.sector dev lba = s.disks.sector dev lba

namespace Confined

theorem refl (h : LinesIn P s) : Confined P s s := ⟨h, fun _ _ _ => rfl⟩

theorem trans (h : Confined P s s') (h' : Confined P s' s'') : Confined P s s'' :=
  ⟨h'.lines, fun dev lba hP => (h'.sector dev lba hP).trans (h.sector dev lba hP)⟩

theorem of_hits (h : LinesIn P s)
    (hhits : ∀ i dev lba, (s'.cache i).hits dev lba = (s.cache i).hits dev lba)
    (hsec : s'.disks.sector = s.disks.sector) : Confined P s s' :=
  ⟨h.of_hits hhits, fun _ _ _ => by rw [hsec]⟩

theorem sameLines (h : LinesIn P s) (hs : SameLines s s') : Confined P s s' :=
  of_hits h hs.hits (by rw [hs.1])

theorem setLine (h : LinesIn P s) (idx : Fin cacheEntries) {e : CacheEntry δ α} {dev : δ} {lba : ℕ}
    (he : e.hits dev lba = true) (hP : P dev lba) : Confined P s (setLine s idx e) :=
  ⟨h.setLine idx he hP, fun _ _ _ => rfl⟩

/-- **A device write** to a sector of `P`. -/
theorem disk_write (h : LinesIn P s) {dev : δ} {lba : ℕ} (hP : P dev lba) (x : α) :
    Confined P s { s with disks := (s.disks.write dev lba x).2 } := by
  refine ⟨h, fun dev' lba' hP' => ?_⟩
  cases hf : s.disks.writeFault 0 with
  | none =>
    rw [write_ok dev lba x hf]
    refine setSector_of_ne _ _ ?_
    rintro ⟨rfl, rfl⟩
    exact hP' hP
  | some e => rw [write_fails dev lba x hf]

theorem disk_read (h : LinesIn P s) (dev : δ) (lba : ℕ) :
    Confined P s { s with disks := (s.disks.read dev lba).2.2 } := by
  refine ⟨h, fun dev' lba' _ => ?_⟩
  unfold Disks.read
  split <;> rfl

end Confined

/-! ## The cache -/

theorem cacheWriteback_confined (h : LinesIn P s) (idx : Fin cacheEntries) :
    Confined P s (cacheWriteback s idx).2 := by
  refine ⟨h.writeback idx, fun dev' lba' hP => ?_⟩
  by_cases hd : (!(s.cache idx).valid || !(s.cache idx).dirty) = true
  · simp [cacheWriteback, hd]
  cases hdev : (s.cache idx).dev with
  | none => simp [cacheWriteback, hd, hdev]
  | some dev =>
    have hhit : (s.cache idx).hits dev (s.cache idx).lba = true := by
      simp only [Bool.or_eq_true, Bool.not_eq_true', not_or, Bool.not_eq_false] at hd
      exact hits_iff.mpr ⟨hd.1, hdev, rfl⟩
    have hw := (Confined.disk_write h (h idx dev _ hhit) (s.cache idx).data).sector dev' lba' hP
    rw [← hw]
    unfold cacheWriteback
    rw [if_neg hd, hdev]
    dsimp only
    split <;> rfl

theorem cacheEvict_confined (h : LinesIn P s) : Confined P s (cacheEvict s).2.2 := by
  have hv : Confined P s (cacheFindVictim s).2 := .sameLines h (cacheFindVictim_sameLines s)
  unfold cacheEvict
  dsimp only
  split
  · exact hv.trans (cacheWriteback_confined hv.lines _)
  · exact hv

/-- **`blk_cache_read`** of a sector of `P`. -/
theorem blkCacheRead_confined (h : LinesIn P s) {dev : δ} {lba : ℕ} (hP : P dev lba)
    (buf : Option α) : Confined P s (blkCacheRead s dev lba buf).2.2 := by
  cases buf with
  | none => exact .refl h
  | some b =>
    rcases cacheFind_cases s dev lba with ⟨i, s₁, heq, -, hsame⟩ | ⟨heq, -⟩
    · have hrd : (blkCacheRead s dev lba (some b)).2.2 = s₁ := by simp [blkCacheRead, heq]
      rw [hrd]
      exact .sameLines h hsame
    have hev := cacheEvict_confined h
    unfold blkCacheRead
    simp only [heq]
    generalize cacheEvict s = ev at hev
    obtain ⟨ret, idx, s₁⟩ := ev
    split
    · exact hev
    have hrd := Confined.disk_read hev.lines dev lba
    split
    · -- the line keeps its name, whatever the failed read left in it
      refine hev.trans (hrd.trans (Confined.of_hits hrd.lines (fun i dev' lba' => ?_) rfl))
      by_cases hi : i = idx
      · subst hi
        simp [CacheEntry.hits]
      · simp [Function.update_of_ne hi]
    refine hev.trans (hrd.trans ?_)
    refine ⟨fun i dev' lba' hi => ?_, fun _ _ _ => rfl⟩
    by_cases hidx : i = idx
    · subst hidx
      simp only [Function.update_self] at hi
      obtain ⟨-, hdev, hlba⟩ := hits_iff.mp hi
      cases hdev
      cases hlba
      exact hP
    · simp only [Function.update_of_ne hidx] at hi
      exact hev.lines i dev' lba' hi

/-- **`blk_cache_write`** to a sector of `P`. -/
theorem blkCacheWrite_confined (h : LinesIn P s) {dev : δ} {lba : ℕ} (hP : P dev lba)
    (buf : Option α) : Confined P s (blkCacheWrite s dev lba buf).2 := by
  cases buf with
  | none => exact .refl h
  | some x =>
    rcases cacheFind_cases s dev lba with ⟨i, s₁, heq, hhit, hsame⟩ | ⟨heq, -⟩
    · have hwr : (blkCacheWrite s dev lba (some x)).2 =
          Block.setLine s₁ i { s₁.cache i with data := x, dirty := true } := by
        simp [blkCacheWrite, heq, Block.setLine]
      have hhit₁ : CacheEntry.hits { s₁.cache i with data := x, dirty := true } dev lba = true :=
        (hsame.hits i dev lba).trans hhit
      have hc := Confined.sameLines h hsame
      rw [hwr]
      exact hc.trans (.setLine hc.lines i hhit₁ hP)
    have hev := cacheEvict_confined h
    unfold blkCacheWrite
    simp only [heq]
    generalize cacheEvict s = ev at hev
    obtain ⟨ret, idx, s₁⟩ := ev
    split
    · exact hev
    · exact hev.trans (.setLine hev.lines idx (hits_iff.mpr ⟨rfl, rfl, rfl⟩) hP)

theorem blkCacheFlush_confined (h : LinesIn P s) (dev : δ) : Confined P s (blkCacheFlush s dev).2 := by
  have hfold : ∀ (l : List (Fin cacheEntries)) (acc : Int × Blk δ α), Confined P s acc.2 →
      Confined P s (l.foldl (flushOne dev) acc).2 := by
    intro l
    induction l with
    | nil => exact fun _ h => h
    | cons i l ih =>
      intro acc hacc
      refine ih _ ?_
      unfold flushOne
      dsimp only
      split
      · exact hacc.trans (cacheWriteback_confined hacc.lines i)
      · exact hacc
  exact hfold _ (0, s) (.refl h)

/-! ## The journal -/

theorem commitEntries_confined {dev : δ} (es : List (JournalEntry α)) (h : LinesIn P s)
    (hes : ∀ e ∈ es, P dev e.lba) :
    Confined P s { s with disks := (commitEntries dev es s.disks).2 } := by
  induction es generalizing s with
  | nil => exact .refl h
  | cons e es ih =>
    rw [List.forall_mem_cons] at hes
    rw [commitEntries]
    split
    · have hw := Confined.disk_write h hes.1 e.data
      dsimp only
      split
      · exact hw
      · exact hw.trans (ih hw.lines hes.2)
    · exact ih h hes.2

seal blkCacheFlush

theorem LinesIn.commit {st : Storage δ α} (h : LinesIn P st.blk) :
    LinesIn P (fat32JournalCommit st).2.blk := by
  unfold fat32JournalCommit
  dsimp only
  split
  · exact h
  · split
    · exact h
    · exact (blkCacheFlush_confined (s := { st.blk with
        disks := (commitEntries st.journal.dev st.journal.entries st.blk.disks).2 }) h _).lines

/-- **`fat32_journal_commit`** of a transaction that updated sectors of
`P`. -/
theorem fat32JournalCommit_confined {st : Storage δ α} (h : LinesIn P st.blk)
    (hes : ∀ e ∈ st.journal.entries, P st.journal.dev e.lba) :
    Confined P st.blk (fat32JournalCommit st).2.blk := by
  have hc := commitEntries_confined st.journal.entries h hes
  unfold fat32JournalCommit
  dsimp only
  split
  · exact .refl h
  · split
    · exact hc
    · exact hc.trans (blkCacheFlush_confined hc.lines _)

end Block

end Lnxrm
