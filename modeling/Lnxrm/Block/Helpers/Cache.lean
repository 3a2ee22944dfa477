import Lnxrm.Block.Model

/-!
# The block layer — what the cache does to its contents

The contents of the cached devices are read through `Blk.view`: the line
that holds a sector if there is one, the device otherwise. Every cache
operation is made of two kinds of move. Some leave the view alone and
change a device only toward it (`Settles`): marking a line used, writing
one back, filling one. The other kind replaces the line of one sector
(`setLine`), and changes the view there.
-/

namespace Lnxrm

open Function

namespace Block

variable {δ α : Type} [DecidableEq δ]
variable {dev : δ} {lba : ℕ} {d : Disks δ α}

/-- What a sector of a device is known to hold: its line, or the device. -/
def Blk.view (s : Blk δ α) (dev : δ) (lba : ℕ) : α :=
  match firstIdx fun i => (s.cache i).hits dev lba with
  | some i => (s.cache i).data
  | none => s.disks.sector dev lba

/-- **The cache invariant**: a sector has at most one line, a clean line
holds what its device holds, and a valid line names its device. -/
structure CacheInv (s : Blk δ α) : Prop where
  unique : ∀ {i j : Fin cacheEntries} {dev : δ} {lba : ℕ},
    (s.cache i).hits dev lba = true → (s.cache j).hits dev lba = true → i = j
  clean : ∀ {i : Fin cacheEntries} {dev : δ} {lba : ℕ}, (s.cache i).hits dev lba = true →
    (s.cache i).dirty = false → (s.cache i).data = s.disks.sector dev lba
  named : ∀ i, (s.cache i).valid = true → ∃ dev, (s.cache i).dev = some dev

/-! ## Searching the table -/

theorem firstIdx_some {p : Fin cacheEntries → Bool} {i : Fin cacheEntries}
    (h : firstIdx p = some i) : p i = true :=
  List.find?_some h

theorem firstIdx_none {p : Fin cacheEntries → Bool} (h : firstIdx p = none) (i) : p i = false := by
  have := List.find?_eq_none.mp h i (List.mem_finRange i)
  simpa using this

theorem hits_iff {e : CacheEntry δ α} :
    e.hits dev lba = true ↔ e.valid = true ∧ e.dev = some dev ∧ e.lba = lba := by
  simp [CacheEntry.hits, and_assoc]

theorem hits_inj {e : CacheEntry δ α} {dev dev' : δ} {lba lba' : ℕ} (h : e.hits dev lba = true)
    (h' : e.hits dev' lba' = true) : dev' = dev ∧ lba' = lba := by
  obtain ⟨-, hd, hl⟩ := hits_iff.mp h
  obtain ⟨-, hd', hl'⟩ := hits_iff.mp h'
  exact ⟨Option.some.inj (hd'.symm.trans hd), hl'.symm.trans hl⟩

theorem view_of_miss {s : Blk δ α}
    (h : ∀ i, (s.cache i).hits dev lba = false) : s.view dev lba = s.disks.sector dev lba := by
  unfold Blk.view
  cases hf : firstIdx fun i => (s.cache i).hits dev lba with
  | none => rfl
  | some i => exact absurd (firstIdx_some hf) (by simp [h i])

theorem view_of_hit {s : Blk δ α} (hs : CacheInv s) {i : Fin cacheEntries}
    (h : (s.cache i).hits dev lba = true) : s.view dev lba = (s.cache i).data := by
  unfold Blk.view
  cases hf : firstIdx fun j => (s.cache j).hits dev lba with
  | none => exact absurd h (by simp [firstIdx_none hf i])
  | some j => rw [hs.unique (firstIdx_some hf) h]

theorem hit_or_miss (s : Blk δ α) (dev : δ) (lba : ℕ) :
    (∃ i, (s.cache i).hits dev lba = true) ∨ ∀ i, (s.cache i).hits dev lba = false := by
  by_cases h : ∃ i, (s.cache i).hits dev lba = true
  · exact Or.inl h
  · right
    intro i
    simpa using fun hi => h ⟨i, hi⟩

/-! ## Moves that leave the view alone -/

/-- **The cache settles.** The view is kept, a device sector changes only
to what the view says of it, no line becomes dirty, and no operation
still to come starts to fail. -/
structure Settles (s s' : Blk δ α) : Prop where
  inv : CacheInv s'
  view : ∀ dev lba, s'.view dev lba = s.view dev lba
  sector : ∀ dev lba, s'.disks.sector dev lba = s.disks.sector dev lba ∨
    s'.disks.sector dev lba = s.view dev lba
  dirt : ∀ i dev lba, (s'.cache i).hits dev lba = true → (s'.cache i).dirty = true →
    (s.cache i).hits dev lba = true ∧ (s.cache i).dirty = true
  reads : s.disks.ReadsOk → s'.disks.ReadsOk
  writes : s.disks.WritesOk → s'.disks.WritesOk

namespace Settles

variable {s s' s'' : Blk δ α}

theorem refl (hs : CacheInv s) : Settles s s where
  inv := hs
  view _ _ := rfl
  sector _ _ := Or.inl rfl
  dirt _ _ _ h h' := ⟨h, h'⟩
  reads h := h
  writes h := h

theorem trans (h : Settles s s') (h' : Settles s' s'') : Settles s s'' where
  inv := h'.inv
  view dev lba := (h'.view dev lba).trans (h.view dev lba)
  sector dev lba := by
    rcases h'.sector dev lba with h₁ | h₁
    · rw [h₁]; exact h.sector dev lba
    · right; rw [h₁, h.view]
  dirt i dev lba hi hd := by
    obtain ⟨h₁, h₂⟩ := h'.dirt i dev lba hi hd
    exact h.dirt i dev lba h₁ h₂
  reads hr := h'.reads (h.reads hr)
  writes hw := h'.writes (h.writes hw)

end Settles

/-- Two tables that differ in their `used` flags only. -/
def SameLines (s s' : Blk δ α) : Prop :=
  s'.disks = s.disks ∧ ∀ i, ∃ u, s'.cache i = { s.cache i with used := u }

namespace SameLines

variable {s s' : Blk δ α}

omit [DecidableEq δ] in
theorem refl (s : Blk δ α) : SameLines s s := ⟨rfl, fun i => ⟨(s.cache i).used, rfl⟩⟩

theorem hits (h : SameLines s s') (i : Fin cacheEntries) (dev : δ) (lba : ℕ) :
    (s'.cache i).hits dev lba = (s.cache i).hits dev lba := by
  obtain ⟨u, hu⟩ := h.2 i
  rw [hu]; rfl

omit [DecidableEq δ] in
theorem fields (h : SameLines s s') (i : Fin cacheEntries) :
    (s'.cache i).data = (s.cache i).data ∧ (s'.cache i).dirty = (s.cache i).dirty ∧
      (s'.cache i).valid = (s.cache i).valid ∧ (s'.cache i).dev = (s.cache i).dev ∧
      (s'.cache i).lba = (s.cache i).lba := by
  obtain ⟨u, hu⟩ := h.2 i
  rw [hu]
  exact ⟨rfl, rfl, rfl, rfl, rfl⟩

theorem inv (h : SameLines s s') (hs : CacheInv s) : CacheInv s' where
  unique hi hj := by rw [h.hits] at hi hj; exact hs.unique hi hj
  clean hi hd := by
    rw [h.hits] at hi
    rw [(h.fields _).2.1] at hd
    rw [(h.fields _).1, h.1]
    exact hs.clean hi hd
  named i hv := by
    rw [(h.fields i).2.2.1] at hv
    rw [(h.fields i).2.2.2.1]
    exact hs.named i hv

theorem view (h : SameLines s s') (dev : δ) (lba : ℕ) : s'.view dev lba = s.view dev lba := by
  unfold Blk.view
  simp only [h.hits]
  cases firstIdx fun i => (s.cache i).hits dev lba with
  | none => simp only [h.1]
  | some i => exact (h.fields i).1

theorem settles (h : SameLines s s') (hs : CacheInv s) : Settles s s' where
  inv := h.inv hs
  view := h.view
  sector dev lba := Or.inl (by rw [h.1])
  dirt i dev lba hi hd := by
    rw [h.hits] at hi
    rw [(h.fields i).2.1] at hd
    exact ⟨hi, hd⟩
  reads hr := by rw [h.1]; exact hr
  writes hw := by rw [h.1]; exact hw

end SameLines

/-! ## The searches -/

theorem cacheFind_cases (s : Blk δ α) (dev : δ) (lba : ℕ) :
    (∃ i s', cacheFind s dev lba = (some i, s') ∧ (s.cache i).hits dev lba = true ∧
      SameLines s s') ∨
    (cacheFind s dev lba = (none, s) ∧ ∀ i, (s.cache i).hits dev lba = false) := by
  unfold cacheFind
  cases hf : firstIdx fun i => (s.cache i).hits dev lba with
  | none => exact Or.inr ⟨rfl, fun i => firstIdx_none hf i⟩
  | some i =>
    refine Or.inl ⟨i, _, rfl, firstIdx_some hf, rfl, fun j => ?_⟩
    by_cases hj : j = i
    · subst hj
      exact ⟨true, by simp⟩
    · exact ⟨(s.cache j).used, by simp [update_of_ne hj]⟩

omit [DecidableEq δ] in
theorem cacheFindVictim_sameLines (s : Blk δ α) : SameLines s (cacheFindVictim s).2 := by
  unfold cacheFindVictim
  split
  · exact SameLines.refl s
  · split
    · exact SameLines.refl s
    · dsimp only
      split
      · exact ⟨rfl, fun _ => ⟨false, rfl⟩⟩
      · exact ⟨rfl, fun _ => ⟨false, rfl⟩⟩

/-! ## Writing a line back -/

theorem write_ok (dev : δ) (lba : ℕ) (x : α) (h : d.writeFault 0 = none) :
    d.write dev lba x = (0, { d with
      sector := setSector d.sector dev lba x, writeFault := fun n => d.writeFault (n + 1) }) := by
  simp [Disks.write, h]

theorem write_fails (dev : δ) (lba : ℕ) (x : α) {e : DevErr}
    (h : d.writeFault 0 = some e) :
    d.write dev lba x = (e.1, { d with writeFault := fun n => d.writeFault (n + 1) }) := by
  simp [Disks.write, h]

theorem setSector_self (f : δ → ℕ → α) (dev : δ) (lba : ℕ) (x : α) :
    setSector f dev lba x dev lba = x := by
  simp [setSector]

theorem setSector_of_ne (f : δ → ℕ → α) {dev dev' : δ} {lba lba' : ℕ} (x : α)
    (h : ¬ (dev' = dev ∧ lba' = lba)) : setSector f dev lba x dev' lba' = f dev' lba' := by
  simp [setSector, h]

/-- The state after a dirty line is written back. -/
def cleanLine (s : Blk δ α) (idx : Fin cacheEntries) (dev : δ) : Blk δ α where
  cache := update s.cache idx { s.cache idx with dirty := false }
  disks := { s.disks with
    sector := setSector s.disks.sector dev (s.cache idx).lba (s.cache idx).data
    writeFault := fun n => s.disks.writeFault (n + 1) }

theorem cleanLine_hits (s : Blk δ α) (idx : Fin cacheEntries) (dev : δ) (i : Fin cacheEntries)
    (dev' : δ) (lba : ℕ) :
    ((cleanLine s idx dev).cache i).hits dev' lba = (s.cache i).hits dev' lba := by
  by_cases hi : i = idx
  · subst hi
    simp [cleanLine, CacheEntry.hits]
  · simp [cleanLine, update_of_ne hi]

theorem cleanLine_data (s : Blk δ α) (idx : Fin cacheEntries) (dev : δ) (i : Fin cacheEntries) :
    ((cleanLine s idx dev).cache i).data = (s.cache i).data := by
  by_cases hi : i = idx
  · subst hi
    simp [cleanLine]
  · simp [cleanLine, update_of_ne hi]

/-- **Writing a line back settles the cache.** The line's sector now holds
what the line holds, and no other sector has that line. -/
theorem cleanLine_settles {s : Blk δ α} (hs : CacheInv s) {idx : Fin cacheEntries}
    (hidx : (s.cache idx).hits dev (s.cache idx).lba = true) :
    Settles s (cleanLine s idx dev) := by
  have hsec : ∀ i dev' lba, (s.cache i).hits dev' lba = true → i ≠ idx →
      (cleanLine s idx dev).disks.sector dev' lba = s.disks.sector dev' lba := by
    intro i dev' lba hi hne
    refine setSector_of_ne _ _ ?_
    rintro ⟨rfl, rfl⟩
    exact hne (hs.unique hi hidx)
  have hself : (cleanLine s idx dev).disks.sector dev (s.cache idx).lba = (s.cache idx).data :=
    setSector_self ..
  have hinv : CacheInv (cleanLine s idx dev) := by
    refine ⟨fun hi hj => ?_, fun {i dev' lba} hi hd => ?_, fun i hv => ?_⟩
    · rw [cleanLine_hits] at hi hj
      exact hs.unique hi hj
    · rw [cleanLine_hits] at hi
      rw [cleanLine_data]
      by_cases hne : i = idx
      · subst hne
        obtain ⟨rfl, rfl⟩ := hits_inj hidx hi
        exact hself.symm
      · rw [hsec i dev' lba hi hne]
        refine hs.clean hi ?_
        simpa [cleanLine, update_of_ne hne] using hd
    · by_cases hne : i = idx
      · subst hne
        exact ⟨dev, by simpa [cleanLine] using (hits_iff.mp hidx).2.1⟩
      · simp only [cleanLine, update_of_ne hne] at hv ⊢
        exact hs.named i hv
  refine ⟨hinv, fun dev' lba => ?_, fun dev' lba => ?_, fun i dev' lba hi hd => ?_, fun h => h,
    fun h => ?_⟩
  · rcases hit_or_miss s dev' lba with ⟨i, hi⟩ | hmiss
    · rw [view_of_hit hs hi, view_of_hit hinv ((cleanLine_hits ..).trans hi), cleanLine_data]
    · rw [view_of_miss hmiss, view_of_miss fun i => (cleanLine_hits ..).trans (hmiss i)]
      refine setSector_of_ne _ _ ?_
      rintro ⟨rfl, rfl⟩
      simp [hmiss idx] at hidx
  · by_cases hk : dev' = dev ∧ lba = (s.cache idx).lba
    · obtain ⟨rfl, rfl⟩ := hk
      right
      rw [hself, view_of_hit hs hidx]
    · exact Or.inl (setSector_of_ne _ _ hk)
  · rw [cleanLine_hits] at hi
    refine ⟨hi, ?_⟩
    by_cases hne : i = idx
    · subst hne
      simp [cleanLine] at hd
    · simpa [cleanLine, update_of_ne hne] using hd
  · change (fun n => s.disks.writeFault (n + 1)) = _
    rw [h]

theorem settles_shift {s : Blk δ α} (hs : CacheInv s) :
    Settles s { s with disks := { s.disks with
      writeFault := fun n => s.disks.writeFault (n + 1) } } where
  inv := ⟨fun hi hj => hs.unique hi hj, fun hi hd => hs.clean hi hd, hs.named⟩
  view _ _ := rfl
  sector _ _ := Or.inl rfl
  dirt _ _ _ h h' := ⟨h, h'⟩
  reads h := h
  writes h := by
    change (fun n => s.disks.writeFault (n + 1)) = _
    rw [h]

/-- The line needs no write-back: it holds nothing, or what its device
holds. -/
def Idle (s : Blk δ α) (idx : Fin cacheEntries) : Prop :=
  (s.cache idx).valid = false ∨ (s.cache idx).dirty = false

/-- **What `cache_writeback` does**, whether or not the device write
succeeds. -/
theorem cacheWriteback_spec {s : Blk δ α} (hs : CacheInv s) (idx : Fin cacheEntries) :
    Settles s (cacheWriteback s idx).2 ∧
    (∀ i dev lba, ((cacheWriteback s idx).2.cache i).hits dev lba = (s.cache i).hits dev lba) ∧
    ((cacheWriteback s idx).1 = 0 → Idle (cacheWriteback s idx).2 idx) ∧
    (s.disks.WritesOk → (cacheWriteback s idx).1 = 0) := by
  by_cases hid : Idle s idx
  · have heq : cacheWriteback s idx = (0, s) := by
      unfold cacheWriteback
      rcases hid with h | h <;> simp [h]
    rw [heq]
    exact ⟨Settles.refl hs, fun _ _ _ => rfl, fun _ => hid, fun _ => rfl⟩
  simp only [Idle, not_or, Bool.not_eq_false] at hid
  obtain ⟨dev, hdev⟩ := hs.named idx hid.1
  have hidx : (s.cache idx).hits dev (s.cache idx).lba = true :=
    hits_iff.mpr ⟨hid.1, hdev, rfl⟩
  cases hf : s.disks.writeFault 0 with
  | none =>
    have heq : cacheWriteback s idx = (0, cleanLine s idx dev) := by
      simp [cacheWriteback, hid.1, hid.2, hdev, write_ok dev _ _ hf, cleanLine]
    rw [heq]
    refine ⟨cleanLine_settles hs hidx, cleanLine_hits s idx dev, fun _ => ?_, fun _ => rfl⟩
    right
    simp [cleanLine]
  | some e =>
    have heq : cacheWriteback s idx = (e.1, { s with disks := { s.disks with
        writeFault := fun n => s.disks.writeFault (n + 1) } }) := by
      simp [cacheWriteback, hid.1, hid.2, hdev, write_fails dev _ _ hf, e.2]
    rw [heq]
    refine ⟨settles_shift hs, fun _ _ _ => rfl, fun h => absurd h e.2, fun h => ?_⟩
    rw [h] at hf
    simp at hf

/-- **What an eviction does**: the cache settles, no line moves, and on
success the victim is free to be replaced. -/
theorem cacheEvict_spec {s : Blk δ α} (hs : CacheInv s) : Settles s (cacheEvict s).2.2 ∧
    (∀ i dev lba, ((cacheEvict s).2.2.cache i).hits dev lba = (s.cache i).hits dev lba) ∧
    ((cacheEvict s).1 = 0 → Idle (cacheEvict s).2.2 (cacheEvict s).2.1) ∧
    (s.disks.WritesOk → (cacheEvict s).1 = 0) := by
  have hv := cacheFindVictim_sameLines s
  have hset := hv.settles hs
  unfold cacheEvict
  generalize cacheFindVictim s = v at hv hset
  obtain ⟨idx, s₁⟩ := v
  dsimp only at hv hset ⊢
  split
  · obtain ⟨h₁, h₂, h₃, h₄⟩ := cacheWriteback_spec hset.inv idx
    exact ⟨hset.trans h₁, fun i dev lba => (h₂ i dev lba).trans (hv.hits i dev lba), h₃,
      fun h => h₄ (hset.writes h)⟩
  · rename_i hnd
    refine ⟨hset, hv.hits, fun _ => ?_, fun _ => rfl⟩
    simp only [Bool.and_eq_true, not_and, Bool.not_eq_true] at hnd
    by_cases hval : (s₁.cache idx).valid = true
    · exact Or.inr (hnd hval)
    · exact Or.inl (by simpa using hval)

/-! ## Replacing a line -/

/-- The table with one line replaced. -/
def setLine (s : Blk δ α) (idx : Fin cacheEntries) (e : CacheEntry δ α) : Blk δ α :=
  { s with cache := update s.cache idx e }

/-- **Replacing a line changes one sector of the view.** The line must be
the sector's own, or the sector has none and the line is idle. -/
theorem setLine_spec {s : Blk δ α} (hs : CacheInv s) (idx : Fin cacheEntries)
    (e : CacheEntry δ α) (he : e.hits dev lba = true)
    (hother : ∀ i, (s.cache i).hits dev lba = true → i = idx)
    (hidx : Idle s idx ∨ (s.cache idx).hits dev lba = true)
    (hcl : e.dirty = false → e.data = s.disks.sector dev lba) :
    CacheInv (setLine s idx e) ∧
      ∀ dev' lba', (setLine s idx e).view dev' lba' = setSector s.view dev lba e.data dev' lba' := by
  have hself : (setLine s idx e).cache idx = e := by simp [setLine]
  have hne : ∀ {i}, i ≠ idx → (setLine s idx e).cache i = s.cache i := by
    intro i hi
    simp [setLine, update_of_ne hi]
  have hinv : CacheInv (setLine s idx e) := by
    refine ⟨fun {i j dev' lba'} hi hj => ?_, fun {i dev' lba'} hi hd => ?_, fun i hv => ?_⟩
    · by_cases hii : i = idx
      · by_cases hjj : j = idx
        · rw [hii, hjj]
        · rw [hii, hself] at hi
          rw [hne hjj] at hj
          obtain ⟨rfl, rfl⟩ := hits_inj he hi
          exact absurd (hother j hj) hjj
      by_cases hjj : j = idx
      · rw [hne hii] at hi
        rw [hjj, hself] at hj
        obtain ⟨rfl, rfl⟩ := hits_inj he hj
        exact absurd (hother i hi) hii
      · rw [hne hii] at hi
        rw [hne hjj] at hj
        exact hs.unique hi hj
    · by_cases hii : i = idx
      · rw [hii, hself] at hi hd ⊢
        obtain ⟨rfl, rfl⟩ := hits_inj he hi
        exact hcl hd
      · rw [hne hii] at hi hd ⊢
        exact hs.clean hi hd
    · by_cases hii : i = idx
      · rw [hii, hself]
        exact ⟨dev, (hits_iff.mp he).2.1⟩
      · rw [hne hii] at hv ⊢
        exact hs.named i hv
  refine ⟨hinv, fun dev' lba' => ?_⟩
  by_cases hk : dev' = dev ∧ lba' = lba
  · obtain ⟨rfl, rfl⟩ := hk
    rw [setSector_self, view_of_hit hinv (i := idx) (by rw [hself]; exact he), hself]
  rw [setSector_of_ne _ _ hk]
  rcases hit_or_miss s dev' lba' with ⟨i, hi⟩ | hmiss
  · by_cases hii : i = idx
    · -- the replaced line held this sector: it was idle, so the device holds its data
      subst hii
      have hdirty : (s.cache i).dirty = false := by
        rcases hidx with (hv | hd) | hhit
        · rw [(hits_iff.mp hi).1] at hv
          exact absurd hv (by simp)
        · exact hd
        · exact absurd (hits_inj hhit hi) hk
      rw [view_of_hit hs hi, hs.clean hi hdirty]
      refine view_of_miss fun j => ?_
      by_cases hji : j = i
      · rw [hji, hself]
        by_contra h
        exact hk (hits_inj he (by simpa using h))
      · rw [hne hji]
        by_contra h
        exact hji (hs.unique (by simpa using h) hi)
    · rw [view_of_hit hs hi, view_of_hit hinv (i := i) (by rw [hne hii]; exact hi), hne hii]
  rw [view_of_miss hmiss]
  refine view_of_miss fun j => ?_
  by_cases hji : j = idx
  · rw [hji, hself]
    by_contra h
    exact hk (hits_inj he (by simpa using h))
  · rw [hne hji]
    exact hmiss j

/-! ## Reading, writing and flushing -/

omit [DecidableEq δ] in
theorem read_ok (h : d.ReadsOk) (dev : δ) (lba : ℕ) :
    d.read dev lba = (0, fun i => d.sector dev (lba + i), d) := by
  have h0 : d.readFault 0 = none := by rw [h]
  have hsh : (fun n => d.readFault (n + 1)) = d.readFault := by rw [h]
  simp [Disks.read, h0, hsh]

omit [DecidableEq δ] in
theorem read_of_none (h : d.readFault 0 = none) (dev : δ) (lba : ℕ) :
    d.read dev lba = (0, fun i => d.sector dev (lba + i),
      { d with readFault := fun n => d.readFault (n + 1) }) := by
  simp [Disks.read, h]

omit [DecidableEq δ] in
theorem read_of_fault {e : DevErr} {junk : ℕ → α}
    (h : d.readFault 0 = some (e, junk)) (dev : δ) (lba : ℕ) :
    d.read dev lba = (e.1, junk, { d with readFault := fun n => d.readFault (n + 1) }) := by
  simp [Disks.read, h]

theorem cacheWriteback_readFault (s : Blk δ α) (idx : Fin cacheEntries) :
    (cacheWriteback s idx).2.disks.readFault = s.disks.readFault := by
  unfold cacheWriteback
  dsimp only
  split
  · rfl
  · split
    · rfl
    · cases hf : s.disks.writeFault 0 with
      | none => simp [write_ok _ _ _ hf]
      | some e => simp [write_fails _ _ _ hf, e.2]

theorem cacheEvict_readFault (s : Blk δ α) :
    (cacheEvict s).2.2.disks.readFault = s.disks.readFault := by
  have hv := (cacheFindVictim_sameLines s).1
  unfold cacheEvict
  dsimp only
  split
  · rw [cacheWriteback_readFault, hv]
  · rw [hv]

/-- A cache read that the device let down: the sector has no line, the
victim is written back, and the device leaves `junk` in its data. -/
def LetDown (s : Blk δ α) (dev : δ) (lba : ℕ) (e : DevErr) (junk : ℕ → α) : Prop :=
  (∀ i, (s.cache i).hits dev lba = false) ∧ (cacheEvict s).1 = 0 ∧
    s.disks.readFault 0 = some (e, junk)

/-- **What `blk_cache_read` does** unless the device lets it down: the
cache settles, and the buffer is what the view says, unless a write-back
failed. -/
theorem blkCacheRead_cases {s : Blk δ α} (hs : CacheInv s) (dev : δ) (lba : ℕ) (b : α) :
    (∃ e junk, LetDown s dev lba e junk) ∨
    Settles s (blkCacheRead s dev lba (some b)).2.2 ∧
    ((blkCacheRead s dev lba (some b)).1 = 0 →
      (blkCacheRead s dev lba (some b)).2.1 = some (s.view dev lba)) ∧
    (s.disks.WritesOk → (blkCacheRead s dev lba (some b)).1 = 0) := by
  rcases cacheFind_cases s dev lba with ⟨i, s₁, heq, hhit, hsame⟩ | ⟨heq, hmiss⟩
  · have hrd : blkCacheRead s dev lba (some b) = (0, some (s₁.cache i).data, s₁) := by
      simp [blkCacheRead, heq]
    rw [hrd]
    refine Or.inr ⟨hsame.settles hs, fun _ => ?_, fun _ => rfl⟩
    rw [view_of_hit hs hhit, (hsame.fields i).1]
  obtain ⟨hset, hhits, hidle, hok⟩ := cacheEvict_spec hs
  have hrf := cacheEvict_readFault s
  unfold LetDown
  generalize hev : cacheEvict s = ev at hset hhits hidle hok hrf ⊢
  obtain ⟨ret, idx, s₁⟩ := ev
  by_cases hret : ret = 0
  · cases hf : s.disks.readFault 0 with
    | some f => exact Or.inl ⟨f.1, f.2, hmiss, hret, rfl⟩
    | none =>
      have hread := read_of_none (hrf.symm ▸ hf) dev lba
      let e : CacheEntry δ α := { s₁.cache idx with
        data := s₁.disks.sector dev lba, lba := lba, dev := some dev, valid := true,
        dirty := false, used := true }
      have hrd : blkCacheRead s dev lba (some b) =
          (0, some (s₁.disks.sector dev lba), { setLine s₁ idx e with disks := { s₁.disks with
            readFault := fun n => s₁.disks.readFault (n + 1) } }) := by
        simp [blkCacheRead, heq, hev, hret, hread, setLine, e]
      rw [hrd]
      have hmiss₁ : ∀ i, (s₁.cache i).hits dev lba = false :=
        fun i => (hhits i dev lba).trans (hmiss i)
      have hsec : s₁.disks.sector dev lba = s.view dev lba := by
        rw [← hset.view, view_of_miss hmiss₁]
      have he : e.hits dev lba = true := hits_iff.mpr ⟨rfl, rfl, rfl⟩
      obtain ⟨hinv, hview⟩ := setLine_spec hset.inv idx e he
        (fun i hi => absurd hi (by simp [hmiss₁ i])) (Or.inl (hidle hret)) (fun _ => rfl)
      refine Or.inr ⟨hset.trans ⟨⟨hinv.unique, hinv.clean, hinv.named⟩, fun dev' lba' => ?_,
        fun _ _ => Or.inl rfl, fun j dev' lba' hj hd => ?_, fun h => ?_, fun h => h⟩,
        fun _ => by rw [hsec], fun _ => rfl⟩
      · change (setLine s₁ idx e).view dev' lba' = _
        rw [hview]
        by_cases hk : dev' = dev ∧ lba' = lba
        · obtain ⟨rfl, rfl⟩ := hk
          rw [setSector_self, view_of_miss hmiss₁]
        · exact setSector_of_ne _ _ hk
      · by_cases hji : j = idx
        · subst hji
          simp [setLine, e] at hd
        · simp only [setLine, update_of_ne hji] at hj hd
          exact ⟨hj, hd⟩
      · change (fun n => s₁.disks.readFault (n + 1)) = _
        rw [h]
  · have hrd : blkCacheRead s dev lba (some b) = (ret, some b, s₁) := by
      simp [blkCacheRead, heq, hev, hret]
    rw [hrd]
    exact Or.inr ⟨hset, fun h => absurd h hret, hok⟩

theorem blkCacheRead_spec {s : Blk δ α} (hs : CacheInv s) (hr : s.disks.ReadsOk) (dev : δ)
    (lba : ℕ) (b : α) :
    Settles s (blkCacheRead s dev lba (some b)).2.2 ∧
    ((blkCacheRead s dev lba (some b)).1 = 0 →
      (blkCacheRead s dev lba (some b)).2.1 = some (s.view dev lba)) ∧
    (s.disks.WritesOk → (blkCacheRead s dev lba (some b)).1 = 0) := by
  rcases blkCacheRead_cases hs dev lba b with ⟨e, junk, -, -, hf⟩ | h
  · rw [hr] at hf
    exact absurd hf (by simp)
  · exact h

/-- **A sector is put**: the view changes there and nowhere else, devices
change only toward the old view, and no other line becomes dirty. -/
structure Puts (s : Blk δ α) (dev : δ) (lba : ℕ) (x : α) (s' : Blk δ α) : Prop where
  inv : CacheInv s'
  view : ∀ dev' lba', s'.view dev' lba' = setSector s.view dev lba x dev' lba'
  sector : ∀ dev' lba', s'.disks.sector dev' lba' = s.disks.sector dev' lba' ∨
    s'.disks.sector dev' lba' = s.view dev' lba'
  reads : s.disks.ReadsOk → s'.disks.ReadsOk
  writes : s.disks.WritesOk → s'.disks.WritesOk

theorem Settles.puts {s s' s'' : Blk δ α} (h : Settles s s') {x : α}
    (h' : Puts s' dev lba x s'') : Puts s dev lba x s'' where
  inv := h'.inv
  view dev' lba' := by
    rw [h'.view]
    unfold setSector
    split
    · rfl
    · exact h.view dev' lba'
  sector dev' lba' := by
    rcases h'.sector dev' lba' with h₁ | h₁
    · rw [h₁]; exact h.sector dev' lba'
    · right; rw [h₁, h.view]
  reads hr := h'.reads (h.reads hr)
  writes hw := h'.writes (h.writes hw)

/-- **What `blk_cache_write` does**: it puts the sector, or a write-back
failed and the cache only settles. -/
theorem blkCacheWrite_spec {s : Blk δ α} (hs : CacheInv s) (dev : δ) (lba : ℕ) (x : α) :
    ((blkCacheWrite s dev lba (some x)).1 = 0 →
      Puts s dev lba x (blkCacheWrite s dev lba (some x)).2) ∧
    ((blkCacheWrite s dev lba (some x)).1 ≠ 0 → Settles s (blkCacheWrite s dev lba (some x)).2) ∧
    (s.disks.WritesOk → (blkCacheWrite s dev lba (some x)).1 = 0) := by
  rcases cacheFind_cases s dev lba with ⟨i, s₁, heq, hhit, hsame⟩ | ⟨heq, hmiss⟩
  · have hset := hsame.settles hs
    have hhit₁ : (s₁.cache i).hits dev lba = true := (hsame.hits i dev lba).trans hhit
    have hwr : blkCacheWrite s dev lba (some x) =
        (0, setLine s₁ i { s₁.cache i with data := x, dirty := true }) := by
      simp [blkCacheWrite, heq, setLine]
    rw [hwr]
    obtain ⟨hinv, hview⟩ := setLine_spec hset.inv i
      { s₁.cache i with data := x, dirty := true } hhit₁
      (fun j hj => hset.inv.unique hj hhit₁) (Or.inr hhit₁) (fun h => by simp at h)
    exact ⟨fun _ => hset.puts ⟨hinv, hview, fun _ _ => Or.inl rfl, fun h => h, fun h => h⟩,
      fun h => absurd rfl h, fun _ => rfl⟩
  obtain ⟨hset, hhits, hidle, hok⟩ := cacheEvict_spec hs
  generalize hev : cacheEvict s = ev at hset hhits hidle hok
  obtain ⟨ret, idx, s₁⟩ := ev
  by_cases hret : ret = 0
  · let e : CacheEntry δ α := { s₁.cache idx with
      lba := lba, dev := some dev, valid := true, used := true, data := x, dirty := true }
    have hwr : blkCacheWrite s dev lba (some x) = (0, setLine s₁ idx e) := by
      simp [blkCacheWrite, heq, hev, hret, setLine, e]
    rw [hwr]
    have he : e.hits dev lba = true := hits_iff.mpr ⟨rfl, rfl, rfl⟩
    obtain ⟨hinv, hview⟩ := setLine_spec hset.inv idx e he
      (fun i hi => absurd hi (by simp [hhits i dev lba, hmiss i]))
      (Or.inl (hidle hret)) (fun h => by simp [e] at h)
    exact ⟨fun _ => hset.puts ⟨hinv, hview, fun _ _ => Or.inl rfl, fun h => h, fun h => h⟩,
      fun h => absurd rfl h, fun _ => rfl⟩
  · have hwr : blkCacheWrite s dev lba (some x) = (ret, s₁) := by
      simp [blkCacheWrite, heq, hev, hret]
    rw [hwr]
    exact ⟨fun h => absurd h hret, fun _ => hset, hok⟩

theorem cacheWriteback_sector_of_ne {s : Blk δ α} {idx : Fin cacheEntries} {dev dev' : δ}
    (hdev : (s.cache idx).dev = some dev) (hne : dev' ≠ dev) :
    (cacheWriteback s idx).2.disks.sector dev' = s.disks.sector dev' := by
  unfold cacheWriteback
  dsimp only
  split
  · rfl
  rw [hdev]
  cases hf : s.disks.writeFault 0 with
  | none =>
    simp only [write_ok dev _ _ hf, if_true]
    funext lba
    exact setSector_of_ne _ _ fun h => hne h.1
  | some e => simp [write_fails dev _ _ hf, e.2]

/-- One turn of the flush loop settles the cache, leaves its line clean if
the device wrote it, and touches no other device. -/
theorem flushOne_spec (ret : Int) {s : Blk δ α} (hs : CacheInv s) (dev : δ) (i : Fin cacheEntries) :
    Settles s (flushOne dev (ret, s) i).2 ∧
    (∀ dev', dev' ≠ dev → (flushOne dev (ret, s) i).2.disks.sector dev' = s.disks.sector dev') ∧
    (s.disks.WritesOk → ret = 0 → (flushOne dev (ret, s) i).1 = 0 ∧
      ∀ lba, ((flushOne dev (ret, s) i).2.cache i).hits dev lba = true →
        ((flushOne dev (ret, s) i).2.cache i).dirty = false) := by
  unfold flushOne
  dsimp only
  split
  · rename_i h
    simp only [Bool.and_eq_true, decide_eq_true_eq] at h
    obtain ⟨h₁, -, h₃, h₄⟩ := cacheWriteback_spec hs i
    refine ⟨h₁, fun dev' hne => cacheWriteback_sector_of_ne h.2 hne, fun hw hret => ?_⟩
    have hzero := h₄ hw
    refine ⟨by simp [hzero, hret], fun lba hi => ?_⟩
    rcases h₃ hzero with hv | hd
    · rw [(hits_iff.mp hi).1] at hv
      exact absurd hv (by simp)
    · exact hd
  · rename_i h
    refine ⟨Settles.refl hs, fun _ _ => rfl, fun _ hret => ⟨hret, fun lba hi => ?_⟩⟩
    obtain ⟨hv, hd, -⟩ := hits_iff.mp hi
    simp only [Bool.and_eq_true, decide_eq_true_eq, not_and] at h
    by_contra hdirty
    exact h ⟨hv, by simpa using hdirty⟩ hd

theorem foldl_flushOne_spec (dev : δ) (l : List (Fin cacheEntries)) :
    ∀ (ret : Int) {s : Blk δ α}, CacheInv s →
    Settles s (l.foldl (flushOne dev) (ret, s)).2 ∧
    (∀ dev', dev' ≠ dev →
      (l.foldl (flushOne dev) (ret, s)).2.disks.sector dev' = s.disks.sector dev') ∧
    (s.disks.WritesOk → ret = 0 → (l.foldl (flushOne dev) (ret, s)).1 = 0 ∧
      ∀ i ∈ l, ∀ lba, ((l.foldl (flushOne dev) (ret, s)).2.cache i).hits dev lba = true →
        ((l.foldl (flushOne dev) (ret, s)).2.cache i).dirty = false) := by
  induction l with
  | nil => intro ret s hs; exact ⟨Settles.refl hs, fun _ _ => rfl, fun _ h => ⟨h, by simp⟩⟩
  | cons i l ih =>
    intro ret s hs
    obtain ⟨h₁, h₂, h₃⟩ := flushOne_spec ret hs dev i
    simp only [List.foldl_cons]
    generalize flushOne dev (ret, s) i = r at h₁ h₂ h₃
    obtain ⟨r₁, s₁⟩ := r
    obtain ⟨k₁, k₂, k₃⟩ := ih r₁ h₁.inv
    refine ⟨h₁.trans k₁, fun dev' hne => (k₂ dev' hne).trans (h₂ dev' hne), fun hw hret => ?_⟩
    obtain ⟨hr₁, hc₁⟩ := h₃ hw hret
    obtain ⟨hr₂, hc₂⟩ := k₃ (h₁.writes hw) hr₁
    refine ⟨hr₂, fun j hj lba hhit => ?_⟩
    rcases List.mem_cons.mp hj with rfl | hj
    · -- a line the loop has cleaned is not made dirty again
      by_contra hd
      obtain ⟨hb, hb'⟩ := k₁.dirt j dev lba hhit (by simpa using hd)
      rw [hc₁ lba hb] at hb'
      exact absurd hb' (by simp)
    · exact hc₂ j hj lba hhit

/-- **What `blk_cache_flush` does**: the cache settles, no other device is
touched, and if no write fails every line of the device is clean. -/
theorem blkCacheFlush_spec {s : Blk δ α} (hs : CacheInv s) (dev : δ) :
    Settles s (blkCacheFlush s dev).2 ∧
    (∀ dev', dev' ≠ dev → (blkCacheFlush s dev).2.disks.sector dev' = s.disks.sector dev') ∧
    (s.disks.WritesOk → (blkCacheFlush s dev).1 = 0 ∧
      ∀ i lba, ((blkCacheFlush s dev).2.cache i).hits dev lba = true →
        ((blkCacheFlush s dev).2.cache i).dirty = false) := by
  obtain ⟨h₁, h₂, h₃⟩ := foldl_flushOne_spec dev (List.finRange cacheEntries) 0 hs
  unfold blkCacheFlush cacheFlushLocked
  exact ⟨h₁, h₂, fun hw => ⟨(h₃ hw rfl).1, fun i lba => (h₃ hw rfl).2 i (List.mem_finRange i) lba⟩⟩

theorem sector_eq_view_of_clean {s : Blk δ α} (hs : CacheInv s)
    (h : ∀ i lba, (s.cache i).hits dev lba = true → (s.cache i).dirty = false) (lba : ℕ) :
    s.disks.sector dev lba = s.view dev lba := by
  rcases hit_or_miss s dev lba with ⟨i, hi⟩ | hmiss
  · rw [view_of_hit hs hi, hs.clean hi (h i lba hi)]
  · rw [view_of_miss hmiss]

end Block

end Lnxrm
