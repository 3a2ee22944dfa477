import Lnxrm.Fat32.Helpers.LongName
import Lnxrm.Fat32.Helpers.Places

/-!
# FAT32 — the records after an edit

Proof layer. The namespace calls change a volume record by record. Two
things of the records are followed through such an edit: which slots are
still unused (`Filled`), and where the directory records lead (`Leads`).
-/

namespace Lnxrm.Fat32

variable {m : Mount} {data data' data'' : ℕ → Sector} {fat : ℕ → ℕ} {e : Dirent} {p q : DirentPos}
  {l : List ℕ} {W W' : List DirentPos} {S : ℕ → Prop}
variable {ps : List DirentPos}

/-- A place of a record in some sector. -/
def Aligned (p : DirentPos) : Prop := ∃ k, p.off = k * 32

theorem aligned_of_mem_slots (h : p ∈ slots m l) : Aligned p := by
  obtain ⟨-, k, -, hk⟩ := mem_slots.mp h
  exact ⟨k, hk⟩

theorem recOf_putAt (hp : Aligned p) (hq : Aligned q) :
    recOf (putAt data p e) q = if q = p then e else recOf data q := by
  by_cases h : q = p
  · rw [if_pos h, h, recOf_putAt_self]
  · rw [if_neg h, recOf_putAt_of_ne hp hq h]

/-! ## Unused slots -/

/-- The edit fills the slots `W`, and leaves every other slot unused or
not as it was. -/
def Filled (W : List DirentPos) (data data' : ℕ → Sector) : Prop :=
  ∀ q, Aligned q → (recOf data' q 0 = entFree ↔ recOf data q 0 = entFree ∧ q ∉ W)

theorem Filled.refl (data : ℕ → Sector) : Filled [] data data := fun q _ => by simp

theorem Filled.trans (h : Filled W data data') (h' : Filled W' data' data'') :
    Filled (W ++ W') data data'' := by
  intro q hq
  rw [h' q hq, h q hq, List.mem_append, not_or, and_assoc]

theorem Filled.put (hp : Aligned p) (he : e 0 ≠ entFree) : Filled [p] data (putAt data p e) := by
  intro q hq
  rw [recOf_putAt hp hq, List.mem_singleton]
  by_cases h : q = p
  · simp [h, he]
  · simp [h]

theorem Filled.replace (hp : Aligned p) (hold : recOf data p 0 ≠ entFree) (he : e 0 ≠ entFree) :
    Filled [] data (putAt data p e) := by
  intro q hq
  rw [recOf_putAt hp hq]
  by_cases h : q = p
  · simp [h, hold, he]
  · simp [h]

theorem Filled.used (h : Filled W data data') (hq : Aligned q) (hold : recOf data q 0 ≠ entFree) :
    recOf data' q 0 ≠ entFree := fun hz => hold ((h q hq).mp hz).1

theorem Filled.of_used (h : Filled W data data') (hW : ∀ q ∈ W, recOf data q 0 ≠ entFree) :
    Filled [] data data' := by
  intro q hq
  rw [h q hq]
  constructor
  · exact fun hz => ⟨hz.1, by simp⟩
  · exact fun hz => ⟨hz.1, fun hqW => hW q hqW hz.1⟩

theorem freedRecord_zero (e : Dirent) : freedRecord e 0 = entE5 := Function.update_self _ _ _

theorem Filled.freeAt (hp : Aligned p) (hold : recOf data p 0 ≠ entFree) :
    Filled [] data (freeAt data p) :=
  Filled.replace hp hold (by rw [freedRecord_zero]; decide)

theorem Filled.freeAll (ps : List DirentPos) : ∀ {data : ℕ → Sector},
    (∀ p ∈ ps, Aligned p ∧ recOf data p 0 ≠ entFree) → Filled [] data (ps.foldl Fat32.freeAt data) := by
  induction ps with
  | nil => exact fun _ => Filled.refl _
  | cons p ps ih =>
    intro data h
    have hp := h p (by simp)
    have hone := Filled.freeAt hp.1 hp.2
    exact hone.trans (ih fun q hq => ⟨(h q (by simp [hq])).1,
      hone.used (h q (by simp [hq])).1 (h q (by simp [hq])).2⟩)

theorem Filled.freeLoc {loc : DirentLoc} (hpos : Aligned loc.pos ∧ recOf data loc.pos 0 ≠ entFree)
    (hlfn : ∀ p ∈ loc.lfn, Aligned p ∧ recOf data p 0 ≠ entFree) :
    Filled [] data (freeLoc data loc) := by
  have hall := Filled.freeAll loc.lfn hlfn
  exact hall.trans (Filled.freeAt hpos.1 (hall.used hpos.1 hpos.2))

theorem lfnFill_zero {seq : ℕ} (total : ℕ) (sum : UInt8) (nname : Str) (hs : 1 ≤ seq)
    (h : seq ≤ 20) : lfnFill seq total sum nname 0 ≠ entFree := by
  have hall : ∀ seq < 21, seq ≠ 0 → UInt8.ofNat seq ≠ entFree ∧ UInt8.ofNat (seq ||| 0x40) ≠ entFree := by
    decide
  obtain ⟨h₁, h₂⟩ := hall seq (by omega) (by omega)
  show UInt8.ofNat (if seq = total then seq ||| 0x40 else seq) ≠ entFree
  split
  · exact h₂
  · exact h₁

theorem Filled.putLfns (total : ℕ) (sum : UInt8) (nname : Str) (ps : List DirentPos) :
    ∀ {data : ℕ → Sector}, (∀ p ∈ ps, Aligned p) → ps.length ≤ 20 →
      Filled ps data (putLfns total sum nname ps data) := by
  induction ps with
  | nil => exact fun _ _ => Filled.refl _
  | cons p ps ih =>
    intro data h hlen
    simp only [List.length_cons] at hlen
    have hone : Filled [p] data (putAt data p (lfnFill (ps.length + 1) total sum nname)) :=
      Filled.put (h p (by simp)) (lfnFill_zero total sum nname (Nat.le_add_left 1 ps.length) hlen)
    exact hone.trans (ih (fun q hq => h q (by simp [hq])) (by omega))

/-! ## Where directory records lead -/

/-- The directory records at these places lead to `S`. -/
def Leads (ps : List DirentPos) (S : ℕ → Prop) (data : ℕ → Sector) : Prop :=
  ∀ q ∈ ps, (recOf data q).isSubdir = true → S (recOf data q).clus

theorem Leads.put (h : Leads ps S data) (hps : ∀ q ∈ ps, Aligned q)
    (hp : Aligned p) (he : e.isSubdir = true → S e.clus) : Leads ps S (putAt data p e) := by
  intro q hq
  rw [recOf_putAt hp (hps q hq)]
  by_cases hqp : q = p
  · rw [if_pos hqp]
    exact he
  · rw [if_neg hqp]
    exact h q hq

theorem freedRecord_isSubdir (e : Dirent) : (freedRecord e).isSubdir = false := by
  simp [Dirent.isSubdir, entryUsed, freedRecord_zero]

theorem Leads.freeAt (h : Leads ps S data) (hps : ∀ q ∈ ps, Aligned q)
    (hp : Aligned p) : Leads ps S (freeAt data p) :=
  h.put hps hp fun hc => by rw [freedRecord_isSubdir] at hc; cases hc

theorem Leads.freeAll (hps : ∀ q ∈ ps, Aligned q) (fs : List DirentPos) :
    ∀ {data : ℕ → Sector}, Leads ps S data → (∀ p ∈ fs, Aligned p) →
      Leads ps S (fs.foldl Fat32.freeAt data) := by
  induction fs with
  | nil => exact fun h _ => h
  | cons p fs ih =>
    intro data h hfs
    exact ih (h.freeAt hps (hfs p (by simp))) fun q hq => hfs q (by simp [hq])

theorem Leads.freeLoc {loc : DirentLoc} (h : Leads ps S data)
    (hps : ∀ q ∈ ps, Aligned q) (hpos : Aligned loc.pos) (hlfn : ∀ p ∈ loc.lfn, Aligned p) :
    Leads ps S (freeLoc data loc) :=
  (Leads.freeAll hps loc.lfn h hlfn).freeAt hps hpos

theorem Leads.putLfns {total : ℕ} {sum : UInt8} {nname : Str}
    (hps : ∀ q ∈ ps, Aligned q) (fs : List DirentPos) :
    ∀ {data : ℕ → Sector}, Leads ps S data → (∀ p ∈ fs, Aligned p) →
      Leads ps S (putLfns total sum nname fs data) := by
  induction fs with
  | nil => exact fun h _ => h
  | cons p fs ih =>
    intro data h hfs
    refine ih (h.put hps (hfs p (by simp)) fun hc => ?_) fun q hq => hfs q (by simp [hq])
    simp [Dirent.isSubdir, lfnFill_isLfn] at hc

/-! ## The `..` record -/

theorem findDotdot_some {buf : Sector} {off : ℕ} (h : findDotdot buf = some off) :
    (∃ k, off = k * 32) ∧ recAt buf off 0 = 46 := by
  unfold findDotdot at h
  cases hfold : foldExit (dotdotStep buf) () (List.range (sectorSize / direntSize)) with
  | inl u => simp [hfold] at h
  | inr r =>
    rw [hfold] at h
    obtain rfl : r = some off := h
    obtain ⟨l₁, k, l₂, u, -, -, hk⟩ := foldExit_inr hfold
    unfold dotdotStep at hk
    simp only at hk
    split_ifs at hk with h₁ h₂ h₃ h₄
    · cases hk
    · obtain rfl : k * direntSize = off := by simpa using hk
      simp only [isDotdot, Bool.and_eq_true, beq_iff_eq] at h₃
      exact ⟨⟨k, rfl⟩, h₃.1.1⟩
    · cases hk

theorem setDotdot_cases (m : Mount) (data : ℕ → Sector) (clus parent : ℕ) :
    setDotdot m data clus parent = data ∨
      ∃ p : DirentPos, p.lba = clusterLba m clus ∧ Aligned p ∧ recOf data p 0 = 46 ∧
        setDotdot m data clus parent = putAt data p ((recOf data p).setClus parent) := by
  unfold setDotdot
  cases hfind : findDotdot (data (clusterLba m clus)) with
  | none => exact Or.inl rfl
  | some off =>
    obtain ⟨hal, h46⟩ := findDotdot_some hfind
    exact Or.inr ⟨⟨clusterLba m clus, off⟩, rfl, hal, h46, rfl⟩

theorem Filled.repointed (m : Mount) (moved : Option (ℕ × ℕ)) : Filled [] data (repointed m data moved) := by
  cases moved with
  | none => exact Filled.refl _
  | some cp =>
    show Filled [] data (setDotdot m data cp.1 cp.2)
    rcases setDotdot_cases m data cp.1 cp.2 with heq | ⟨p, -, hal, h46, heq⟩
    · rw [heq]
      exact Filled.refl _
    · rw [heq]
      have hused : recOf data p 0 ≠ entFree := by
        rw [h46]
        decide
      exact Filled.replace hal hused hused

theorem Leads.repointed {moved : Option (ℕ × ℕ)} (h : Leads ps S data)
    (hps : ∀ q ∈ ps, Aligned q) (hmoved : ∀ cp, moved = some cp → cp.2 < 2 ^ 32 ∧ S cp.2) :
    Leads ps S (repointed m data moved) := by
  cases moved with
  | none => exact h
  | some cp =>
    obtain ⟨hlt, hS⟩ := hmoved cp rfl
    show Leads ps S (setDotdot m data cp.1 cp.2)
    rcases setDotdot_cases m data cp.1 cp.2 with heq | ⟨p, -, hal, -, heq⟩
    · rw [heq]
      exact h
    · rw [heq]
      refine h.put hps hal fun _ => ?_
      rw [Dirent.clus_setClus hlt]
      exact hS

end Lnxrm.Fat32
