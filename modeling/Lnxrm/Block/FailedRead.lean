import Lnxrm.Block.Transparent

/-!
# The block layer — calls of the cache that fail

A device read that fails may leave anything in the buffer it was given,
and `blk_cache_read` gives it the victim's own data, still under the
victim's old tag. `FailsCleanly` is what a failing call should leave: the
same answers to every later call, and no unwritten sector lost. It holds
of a call exactly when `Spared` does, and along a whole run when every
step is spared (`failsCleanly_iff`).
-/

namespace Lnxrm

open Function

namespace Block

variable {δ α : Type} [DecidableEq δ]
variable {s : Blk δ α}

/-- The block layer with devices that fail no more. -/
def Blk.healed (s : Blk δ α) : Blk δ α :=
  { s with disks := { s.disks with readFault := fun _ => none, writeFault := fun _ => none } }

/-- **Nothing is corrupted** on the way from `s` to `s'`: with devices that
fail no more, every later sequence of calls is answered as in `s`, and
what a dirty line of `s` held is in a dirty line or on its device. -/
structure Unharmed (s s' : Blk δ α) : Prop where
  later : ∀ ops, (runTrace CacheOp.exec s'.healed ops).1 = (runTrace CacheOp.exec s.healed ops).1
  kept : ∀ i dev lba, (s.cache i).hits dev lba = true → (s.cache i).dirty = true →
    s'.disks.sector dev lba = (s.cache i).data ∨
      ∃ j, (s'.cache j).hits dev lba = true ∧ (s'.cache j).dirty = true ∧
        (s'.cache j).data = (s.cache i).data

/-- A call that returns an error corrupts nothing. -/
def FailsCleanly (s : Blk δ α) (op : CacheOp δ α) : Prop :=
  (op.exec s).1.1 ≠ 0 → Unharmed s (op.exec s).2

/-- **The call spares the victim's data.** Only a read that misses can do
otherwise. It does not when the victim holds nothing, when the write-back
fails first, or when the device leaves the data as it was. -/
def Spared (s : Blk δ α) : CacheOp δ α → Prop
  | .read dev lba (some _) =>
    let e := s.cache (cacheFindVictim s).1
    (∃ i, (s.cache i).hits dev lba = true) ∨ e.valid = false ∨
      (e.dirty = true ∧ s.disks.writeFault 0 ≠ none) ∨
      ∀ err junk, s.disks.readFault 0 = some (err, junk) → junk 0 = e.data
  | _ => True

/-! ## The victim -/

theorem cacheWriteback_line (s : Blk δ α) (idx i : Fin cacheEntries) :
    ((cacheWriteback s idx).2.cache i).data = (s.cache i).data ∧
      ((cacheWriteback s idx).2.cache i).valid = (s.cache i).valid := by
  unfold cacheWriteback
  dsimp only
  split
  · exact ⟨rfl, rfl⟩
  split
  · exact ⟨rfl, rfl⟩
  · split
    · by_cases hi : i = idx
      · subst hi
        simp
      · simp [update_of_ne hi]
    · exact ⟨rfl, rfl⟩

theorem cacheWriteback_eq_zero_iff (hs : CacheInv s) {idx : Fin cacheEntries}
    (hv : (s.cache idx).valid = true) (hd : (s.cache idx).dirty = true) :
    (cacheWriteback s idx).1 = 0 ↔ s.disks.writeFault 0 = none := by
  obtain ⟨dev, hdev⟩ := hs.named idx hv
  cases hf : s.disks.writeFault 0 with
  | none => simp [cacheWriteback, hv, hd, hdev, write_ok _ _ _ hf]
  | some e => simp [cacheWriteback, hv, hd, hdev, write_fails _ _ _ hf, e.2]

/-- The line an eviction frees is the one `cache_find_victim` chose, and
no line loses its data or its tag. -/
theorem cacheEvict_line (s : Blk δ α) : (cacheEvict s).2.1 = (cacheFindVictim s).1 ∧
      ∀ i, ((cacheEvict s).2.2.cache i).data = (s.cache i).data ∧
        ((cacheEvict s).2.2.cache i).valid = (s.cache i).valid := by
  have hv := (cacheFindVictim_sameLines s).fields
  unfold cacheEvict
  dsimp only
  split
  · refine ⟨rfl, fun i => ?_⟩
    obtain ⟨hdata, hvalid⟩ := cacheWriteback_line (cacheFindVictim s).2 (cacheFindVictim s).1 i
    exact ⟨hdata.trans (hv i).1, hvalid.trans (hv i).2.2.1⟩
  · exact ⟨rfl, fun i => ⟨(hv i).1, (hv i).2.2.1⟩⟩

theorem cacheEvict_eq_zero_iff (hs : CacheInv s) :
    (cacheEvict s).1 = 0 ↔ ((s.cache (cacheFindVictim s).1).valid = true →
      (s.cache (cacheFindVictim s).1).dirty = true → s.disks.writeFault 0 = none) := by
  have hsame := cacheFindVictim_sameLines s
  obtain ⟨-, hdirty, hvalid, -, -⟩ := hsame.fields (cacheFindVictim s).1
  unfold cacheEvict
  dsimp only
  split
  · rename_i hvd
    rw [Bool.and_eq_true] at hvd
    rw [cacheWriteback_eq_zero_iff (hsame.inv hs) hvd.1 hvd.2, hsame.1, ← hvalid, ← hdirty]
    exact ⟨fun h _ _ => h, fun h => h hvd.1 hvd.2⟩
  · rename_i hvd
    rw [hvalid, hdirty, Bool.and_eq_true, not_and] at hvd
    exact ⟨fun _ hv hd => absurd hd (hvd hv), fun _ => rfl⟩

/-! ## What is left of the victim -/

/-- The state a failing device read leaves: `x` in the data of the line. -/
def spoiled (s : Blk δ α) (idx : Fin cacheEntries) (x : α) : Blk δ α where
  cache := update s.cache idx { s.cache idx with data := x }
  disks := { s.disks with readFault := fun n => s.disks.readFault (n + 1) }

theorem spoiled_hits (s : Blk δ α) (idx i : Fin cacheEntries) (x : α) (dev : δ) (lba : ℕ) :
    ((spoiled s idx x).cache i).hits dev lba = (s.cache i).hits dev lba := by
  by_cases hi : i = idx
  · subst hi
    simp [spoiled, CacheEntry.hits]
  · simp [spoiled, update_of_ne hi]

/-- **A failing read does no harm** to a line that holds nothing, or when
it leaves the data as it was. -/
theorem spoiled_settles (hs : CacheInv s) {idx : Fin cacheEntries} {x : α}
    (h : (s.cache idx).valid = false ∨ x = (s.cache idx).data) :
    Settles s (spoiled s idx x) := by
  -- a line that holds a sector still holds the same
  have hline : ∀ {i dev lba}, (s.cache i).hits dev lba = true →
      (spoiled s idx x).cache i = s.cache i := by
    intro i dev lba hi
    by_cases hne : i = idx
    · subst hne
      rcases h with h | rfl
      · exact absurd (hits_iff.mp hi).1 (by simp [h])
      · simp [spoiled]
    · simp [spoiled, update_of_ne hne]
  have hinv : CacheInv (spoiled s idx x) := by
    refine ⟨fun hi hj => ?_, fun {i dev lba} hi hd => ?_, fun i hv => ?_⟩
    · rw [spoiled_hits] at hi hj
      exact hs.unique hi hj
    · rw [spoiled_hits] at hi
      rw [hline hi] at hd ⊢
      exact hs.clean hi hd
    · by_cases hne : i = idx
      · subst hne
        simp only [spoiled, update_self] at hv ⊢
        exact hs.named i hv
      · simp only [spoiled, update_of_ne hne] at hv ⊢
        exact hs.named i hv
  refine ⟨hinv, fun dev lba => ?_, fun _ _ => Or.inl rfl, fun i dev lba hi hd => ?_, fun hr => ?_,
    fun hw => hw⟩
  · rcases hit_or_miss s dev lba with ⟨i, hi⟩ | hmiss
    · rw [view_of_hit hs hi, view_of_hit hinv ((spoiled_hits ..).trans hi), hline hi]
    · rw [view_of_miss hmiss, view_of_miss fun i => (spoiled_hits ..).trans (hmiss i)]
      rfl
  · rw [spoiled_hits] at hi
    rw [hline hi] at hd
    exact ⟨hi, hd⟩
  · change (fun n => s.disks.readFault (n + 1)) = _
    rw [hr]

/-- A read the device lets down returns the device's error and spoils the
victim. -/
theorem blkCacheRead_letDown {dev : δ} {lba : ℕ} {e : DevErr} {junk : ℕ → α}
    (h : LetDown s dev lba e junk) (b : α) :
    blkCacheRead s dev lba (some b) =
      (e.1, some b, spoiled (cacheEvict s).2.2 (cacheEvict s).2.1 (junk 0)) := by
  obtain ⟨hmiss, hret, hf⟩ := h
  rcases cacheFind_cases s dev lba with ⟨i, s₁, -, hhit, -⟩ | ⟨heq, -⟩
  · exact absurd hhit (by simp [hmiss i])
  · have hread := read_of_fault (d := (cacheEvict s).2.2.disks)
      ((congrFun (cacheEvict_readFault s) 0).trans hf) dev lba
    simp only [blkCacheRead, heq, hret, hread]
    simp [e.2, spoiled]

/-! ## Later calls -/

theorem blkCacheRead_hit {i : Fin cacheEntries} {dev : δ} {lba : ℕ}
    (hi : (s.cache i).hits dev lba = true)
    (honly : ∀ j, (s.cache j).hits dev lba = true → j = i) (b : α) :
    (blkCacheRead s dev lba (some b)).2.1 = some (s.cache i).data := by
  rcases cacheFind_cases s dev lba with ⟨j, s₁, heq, hj, hsame⟩ | ⟨-, hmiss⟩
  · have hrd : blkCacheRead s dev lba (some b) = (0, some (s₁.cache j).data, s₁) := by
      simp [blkCacheRead, heq]
    rw [hrd, (hsame.fields j).1, honly j hj]
  · exact absurd hi (by simp [hmiss i])

theorem healed_represents (hs : CacheInv s) : Represents s.healed s.view where
  inv := ⟨hs.unique, hs.clean, hs.named⟩
  reads := rfl
  writes := rfl
  view := rfl

theorem Settles.unharmed {s s' : Blk δ α} (hs : CacheInv s) (h : Settles s s') : Unharmed s s' where
  later ops := by
    have hview : s'.view = s.view := by
      funext dev lba
      exact h.view dev lba
    have hrep := healed_represents h.inv
    rw [hview] at hrep
    rw [(runTrace_sim cacheOp_sim ops hrep).1,
      (runTrace_sim cacheOp_sim ops (healed_represents hs)).1]
  kept i dev lba hi _ := by
    have hview := h.view dev lba
    rw [view_of_hit hs hi] at hview
    rcases hit_or_miss s' dev lba with ⟨j, hj⟩ | hmiss
    · rw [view_of_hit h.inv hj] at hview
      by_cases hd : (s'.cache j).dirty = true
      · exact Or.inr ⟨j, hj, hd, hview⟩
      · left
        rw [← h.inv.clean hj (by simpa using hd), hview]
    · left
      rw [← view_of_miss hmiss, hview]

/-- A read the device lets down corrupts nothing when the victim held
nothing or keeps its data, and only then. -/
theorem letDown_unharmed_iff (hs : CacheInv s) {dev : δ} {lba : ℕ} {e : DevErr}
    {junk : ℕ → α} (h : LetDown s dev lba e junk) (b : α) :
    Unharmed s (blkCacheRead s dev lba (some b)).2.2 ↔
      (s.cache (cacheFindVictim s).1).valid = false ∨
        junk 0 = (s.cache (cacheFindVictim s).1).data := by
  obtain ⟨hset, hhits, -, -⟩ := cacheEvict_spec hs
  obtain ⟨hidx, hline⟩ := cacheEvict_line s
  rw [blkCacheRead_letDown h]
  generalize cacheEvict s = ev at hset hhits hidx hline
  obtain ⟨ret, idx, s₁⟩ := ev
  rw [← hidx]
  refine ⟨fun hu => ?_, fun hor => ?_⟩
  · by_contra hno
    rw [not_or, Bool.not_eq_false] at hno
    obtain ⟨hvalid, hne⟩ := hno
    -- read back the sector the victim is still tagged with
    obtain ⟨dev', hdev'⟩ := hs.named idx hvalid
    have hi : (s.cache idx).hits dev' (s.cache idx).lba = true := hits_iff.mpr ⟨hvalid, hdev', rfl⟩
    have hi' : ((spoiled s₁ idx (junk 0)).cache idx).hits dev' (s.cache idx).lba = true := by
      rw [spoiled_hits, hhits]
      exact hi
    have hlater := hu.later [.read dev' (s.cache idx).lba (some b)]
    simp only [runTrace, CacheOp.exec, List.cons.injEq, Prod.mk.injEq, and_true] at hlater
    have hbefore := blkCacheRead_hit (s := s.healed) hi (fun j hj => hs.unique hj hi) b
    have hafter := blkCacheRead_hit (s := (spoiled s₁ idx (junk 0)).healed) hi'
      (fun j hj => hs.unique (by
        change ((spoiled s₁ idx (junk 0)).cache j).hits dev' (s.cache idx).lba = true at hj
        rwa [spoiled_hits, hhits] at hj) hi) b
    rw [hbefore, hafter] at hlater
    refine hne ?_
    simpa [spoiled, Blk.healed] using hlater.2
  · have hor₁ : (s₁.cache idx).valid = false ∨ junk 0 = (s₁.cache idx).data := by
      rw [(hline idx).1, (hline idx).2]
      exact hor
    exact (hset.trans (spoiled_settles hset.inv hor₁)).unharmed hs

/-! ## The calls -/

theorem spared_read_iff (hs : CacheInv s) (dev : δ) (lba : ℕ) (b : α) :
    Spared s (.read dev lba (some b)) ↔ ∀ e junk, LetDown s dev lba e junk →
      (s.cache (cacheFindVictim s).1).valid = false ∨
        junk 0 = (s.cache (cacheFindVictim s).1).data := by
  refine ⟨fun h e junk hdown => ?_, fun h => ?_⟩
  · obtain ⟨hmiss, hret, hf⟩ := hdown
    rcases h with ⟨i, hi⟩ | hv | ⟨hd, hw⟩ | hsame
    · exact absurd hi (by simp [hmiss i])
    · exact Or.inl hv
    · left
      by_contra hv
      exact hw ((cacheEvict_eq_zero_iff hs).mp hret (by simpa using hv) hd)
    · exact Or.inr (hsame e junk hf)
  rcases hit_or_miss s dev lba with hhit | hmiss
  · exact Or.inl hhit
  by_cases hv : (s.cache (cacheFindVictim s).1).valid = true
  · by_cases hw : (s.cache (cacheFindVictim s).1).dirty = true ∧ s.disks.writeFault 0 ≠ none
    · exact Or.inr (Or.inr (Or.inl hw))
    have hret : (cacheEvict s).1 = 0 := by
      refine (cacheEvict_eq_zero_iff hs).mpr fun _ hd => ?_
      by_contra hf
      exact hw ⟨hd, hf⟩
    refine Or.inr (Or.inr (Or.inr fun err junk hf => ?_))
    rcases h err junk ⟨hmiss, hret, hf⟩ with hno | hsame
    · exact absurd hv (by simp [hno])
    · exact hsame
  · exact Or.inr (Or.inl (by simpa using hv))

/-- A spared call leaves the cache as it should be: it has put its sector,
or the cache settles. -/
theorem spared_exec (op : CacheOp δ α) (hs : CacheInv s) (hsp : Spared s op) :
    CacheInv (op.exec s).2 ∧ ((op.exec s).1.1 ≠ 0 → Settles s (op.exec s).2) := by
  cases op with
  | read dev lba buf =>
    cases buf with
    | none => exact ⟨hs, fun _ => Settles.refl hs⟩
    | some b =>
      have hset : Settles s (blkCacheRead s dev lba (some b)).2.2 := by
        rcases blkCacheRead_cases hs dev lba b with ⟨e, junk, hdown⟩ | ⟨hset, -, -⟩
        · obtain ⟨hev, -, -, -⟩ := cacheEvict_spec hs
          obtain ⟨hidx, hline⟩ := cacheEvict_line s
          have hor := (spared_read_iff hs dev lba b).mp hsp e junk hdown
          rw [← hidx, ← (hline _).1, ← (hline _).2] at hor
          rw [blkCacheRead_letDown hdown]
          exact hev.trans (spoiled_settles hev.inv hor)
        · exact hset
      exact ⟨hset.inv, fun _ => hset⟩
  | write dev lba buf =>
    cases buf with
    | none => exact ⟨hs, fun _ => Settles.refl hs⟩
    | some x =>
      obtain ⟨hput, hfail, -⟩ := blkCacheWrite_spec hs dev lba x
      refine ⟨?_, hfail⟩
      by_cases hrc : (blkCacheWrite s dev lba (some x)).1 = 0
      · exact (hput hrc).inv
      · exact (hfail hrc).inv
  | flush dev =>
    obtain ⟨hset, -, -⟩ := blkCacheFlush_spec hs dev
    simp only [CacheOp.exec]
    exact ⟨hset.inv, fun _ => hset⟩

/-- **One call** fails cleanly exactly when it is spared. -/
theorem failsCleanly_step (op : CacheOp δ α) (hs : CacheInv s) :
    FailsCleanly s op ↔ Spared s op := by
  refine ⟨fun h => ?_, fun hsp hfail => ((spared_exec op hs hsp).2 hfail).unharmed hs⟩
  cases op with
  | read dev lba buf =>
    cases buf with
    | none => trivial
    | some b =>
      refine (spared_read_iff hs dev lba b).mpr fun e junk hdown => ?_
      refine (letDown_unharmed_iff hs hdown b).mp (h ?_)
      simp only [CacheOp.exec, blkCacheRead_letDown hdown]
      exact e.2
  | write dev lba buf => trivial
  | flush dev => trivial

/-- **Failing calls of the cache.** Over any sequence of calls from an
empty table, whatever the devices hold and whenever they fail, every call
that fails corrupts nothing exactly when every call is spared. -/
theorem failsCleanly_iff (s₀ : Blk δ α) (calls : List (CacheOp δ α)) :
    EachStep CacheOp.exec FailsCleanly (blkCacheInit s₀) calls ↔
      EachStep CacheOp.exec Spared (blkCacheInit s₀) calls :=
  eachStep_iff (I := CacheInv) (fun _ op hs => failsCleanly_step op hs)
    (fun _ op hs hsp => (spared_exec op hs hsp).1) calls (blkCacheInit_inv s₀)

/-- A device of numbered sectors whose read after the sixty-fourth fails,
leaving 999 behind. -/
def fadingDisk : Blk Unit ℕ where
  cache := fun _ =>
    { lba := 0, data := 0, valid := false, dirty := false, used := false, dev := none }
  disks := {
    sector := fun _ lba => lba
    readFault := fun n => if n = 64 then some (⟨-1, by decide⟩, fun _ => 999) else none
    writeFault := fun _ => none }

/-- Reads of the sectors below `n`. -/
def readBelow (n : ℕ) : List (CacheOp Unit ℕ) :=
  (List.range n).map fun lba => .read () lba (some 0)

/-- **A failed read changes another sector.** With the cache full, the read
of sector 64 fails, and sector 0 reads as what it left behind. -/
theorem failed_read_spoils : ¬ EachStep CacheOp.exec FailsCleanly (blkCacheInit fadingDisk)
      (readBelow 64 ++ [.read () 64 (some 0)]) := by
  intro h
  have hlater := ((h.at (readBelow 64)) (by decide +kernel)).later [.read () 0 (some 0)]
  revert hlater
  decide +kernel

end Block

end Lnxrm
