import Lnxrm.Block.Helpers.Journal

/-!
# The block layer — which sectors have lines

A sector gets a line only when it is read or written through the cache.
A caller that stays inside some part of its device (`LinesIn`) may
therefore write the rest of it directly.
-/

namespace Lnxrm

namespace Block

variable {δ α : Type} [DecidableEq δ] {P : δ → ℕ → Prop}

/-- Every sector with a line is one of `P`. -/
def LinesIn (P : δ → ℕ → Prop) (s : Blk δ α) : Prop :=
  ∀ i dev lba, (s.cache i).hits dev lba = true → P dev lba

theorem LinesIn.of_hits {s s' : Blk δ α} (h : LinesIn P s)
    (hh : ∀ i dev lba, (s'.cache i).hits dev lba = (s.cache i).hits dev lba) : LinesIn P s' :=
  fun i dev lba hi => h i dev lba (by rwa [← hh])

theorem LinesIn.setLine {s : Blk δ α} (h : LinesIn P s) (idx : Fin cacheEntries)
    {e : CacheEntry δ α} {dev : δ} {lba : ℕ} (he : e.hits dev lba = true) (hP : P dev lba) :
    LinesIn P (setLine s idx e) := by
  intro i dev' lba' hi
  by_cases hidx : i = idx
  · subst hidx
    simp only [Block.setLine, Function.update_self] at hi
    obtain ⟨rfl, rfl⟩ := hits_inj he hi
    exact hP
  · simp only [Block.setLine, Function.update_of_ne hidx] at hi
    exact h i dev' lba' hi

theorem LinesIn.writeback {s : Blk δ α} (h : LinesIn P s) (idx : Fin cacheEntries) :
    LinesIn P (cacheWriteback s idx).2 := by
  unfold cacheWriteback
  dsimp only
  split
  · exact h
  split
  · exact h
  split
  · refine h.of_hits fun i dev lba => ?_
    by_cases hi : i = idx
    · subst hi
      simp [CacheEntry.hits]
    · simp [Function.update_of_ne hi]
  · exact h

/-- **A sector without a line may be written on the device.** -/
theorem diskWrite_spec {s : Blk δ α} (hs : CacheInv s) (hw : s.disks.WritesOk) {dev : δ} {lba : ℕ}
    (hmiss : ∀ i, (s.cache i).hits dev lba = false) (x : α) :
    CacheInv { s with disks := (s.disks.write dev lba x).2 } ∧
    (s.disks.write dev lba x).2.WritesOk ∧
    (s.disks.write dev lba x).2.readFault = s.disks.readFault ∧
    (∀ dev' lba', ¬ (dev' = dev ∧ lba' = lba) →
      (s.disks.write dev lba x).2.sector dev' lba' = s.disks.sector dev' lba' ∧
      Blk.view { s with disks := (s.disks.write dev lba x).2 } dev' lba' = s.view dev' lba') := by
  have hwr := write_ok dev lba x (show s.disks.writeFault 0 = none by rw [hw])
  generalize s.disks.write dev lba x = res at hwr
  subst hwr
  have hsec : ∀ dev' lba', ¬ (dev' = dev ∧ lba' = lba) →
      setSector s.disks.sector dev lba x dev' lba' = s.disks.sector dev' lba' :=
    fun _ _ hne => setSector_of_ne _ _ hne
  refine ⟨⟨hs.unique, fun {i dev' lba'} hi hd => ?_, hs.named⟩, ?_, rfl, fun dev' lba' hne =>
    ⟨hsec dev' lba' hne, ?_⟩⟩
  · refine (hs.clean hi hd).trans (hsec dev' lba' ?_).symm
    rintro ⟨rfl, rfl⟩
    exact absurd hi (by simp [hmiss i])
  · show (fun n => s.disks.writeFault (n + 1)) = _
    rw [hw]
  · unfold Blk.view
    dsimp only
    split
    · rfl
    · exact hsec dev' lba' hne

end Block

end Lnxrm
