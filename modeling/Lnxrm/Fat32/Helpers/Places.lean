import Lnxrm.Fat32.Effect
import Lnxrm.Fat32.Helpers.FileIo

/-!
# FAT32 — what the directory loops find

Proof layer. What each loop over a directory's records says of the
records it has gone over: the slot `parent_entry_add` takes is the first
that is free, the run `dir_claim_run` takes has no terminator before it,
and what `dirent_locate` finds is the first record with its name, with
the long-name records in front of it.
-/

namespace Lnxrm.Fat32

open List

variable {m : Mount} {data : ℕ → Sector} {fat : ℕ → ℕ} {d : ℕ} {p : DirentPos}

theorem findIn_left {β γ : Type} {f : β → Dirent → β ⊕ γ} {b : β} {P : List DirentPos → β → Prop}
    (h₀ : P [] b)
    (hstep : ∀ {seen b q b'}, P seen b → f b (recOf data q) = .inl b' → P (seen ++ [q]) b')
    {ps : List DirentPos} {r : γ} (h : findIn data f b ps = .inr (r, p)) :
    ∃ l₁ l₂ b', ps = l₁ ++ p :: l₂ ∧ P l₁ b' ∧ f b' (recOf data p) = .inr r := by
  have hgo : ∀ {seen b q b'}, P seen b →
      (f b (recOf data q)).map id (fun r => (r, q)) = .inl b' → P (seen ++ [q]) b' := by
    intro seen b q b' hP hq
    cases hf : f b (recOf data q) with
    | inl b₁ =>
      rw [hf] at hq
      obtain rfl : b₁ = b' := Sum.inl.inj hq
      exact hstep hP hf
    | inr r' =>
      rw [hf] at hq
      cases hq
  obtain ⟨l₁, q, l₂, b', rfl, hP, hq⟩ := foldExit_left (P := P) h₀ hgo h
  cases hf : f b' (recOf data q) with
  | inl b₁ =>
    rw [hf] at hq
    cases hq
  | inr r' =>
    rw [hf] at hq
    obtain ⟨rfl, rfl⟩ := Prod.mk.inj (Sum.inr.inj hq)
    exact ⟨l₁, l₂, b', rfl, hP, hf⟩

/-! ## Slots -/

/-- The first bytes of a slot `parent_entry_add` takes. -/
def IsOpen (b : UInt8) : Prop := b = entEnd ∨ b = entFree ∨ b = entE5

theorem freeSlot_eq_inl {e : Dirent} {u : Unit} (h : freeSlot u e = .inl ()) : ¬ IsOpen (e 0) := by
  unfold freeSlot at h
  split_ifs at h with hc
  rintro (h | h | h) <;> simp_all

theorem freeSlot_eq_inr {e : Dirent} {u : Unit} (h : freeSlot u e = .inr ()) : IsOpen (e 0) := by
  unfold freeSlot at h
  split_ifs at h with hc
  unfold IsOpen
  by_contra hno
  exact hc (by simpa [not_or] using hno)

/-- **The slot for a new record** is the first that is free. -/
theorem freePlace_some (h : freePlace m data fat d = some p) :
    ∃ A B, slots m (chainOf m fat d) = A ++ p :: B ∧ (∀ q ∈ A, ¬ IsOpen (recOf data q 0)) ∧
      IsOpen (recOf data p 0) := by
  unfold freePlace at h
  cases hfind : findIn data freeSlot () (slots m (chainOf m fat d)) with
  | inl u => simp [hfind] at h
  | inr r =>
    obtain ⟨u, q⟩ := r
    rw [hfind] at h
    obtain rfl : q = p := Option.some.inj h
    obtain ⟨A, B, b, hps, hA, hq⟩ := findIn_left
      (P := fun seen _ => ∀ q ∈ seen, ¬ IsOpen (recOf data q 0)) (by simp) (fun hP hq x hx => by
        rcases mem_append.mp hx with hx | hx
        · exact hP x hx
        · rw [mem_singleton.mp hx]
          exact freeSlot_eq_inl hq) hfind
    exact ⟨A, B, hps, hA, freeSlot_eq_inr hq⟩

/-! ## Runs of slots -/

/-- The first bytes of a slot `dir_claim_run` takes. -/
def IsBlank (b : UInt8) : Prop := b = entFree ∨ b = entE5

/-- What `dir_claim_run` has gone over. -/
def Claiming (data : ℕ → Sector) (seen : List DirentPos) (st : List DirentPos × Bool) : Prop :=
  ∃ A, seen = A ++ st.1 ∧ (∀ q ∈ A, recOf data q 0 ≠ entFree) ∧
    (∀ q ∈ st.1, IsBlank (recOf data q 0)) ∧
    (st.2 = false → ∀ q ∈ st.1, recOf data q 0 ≠ entFree)

theorem Claiming.step {need : ℕ} {seen : List DirentPos} {st st' : List DirentPos × Bool}
    (h : Claiming data seen st) (hs : claimStep need st p (recOf data p) = .inl st') :
    Claiming data (seen ++ [p]) st' := by
  obtain ⟨A, rfl, hA, hrun, htail⟩ := h
  obtain ⟨run, inTail⟩ := st
  simp only [claimStep] at hs
  split_ifs at hs with h₁ h₂ h₃
  · -- a record in use: the run starts again after it
    obtain rfl := Sum.inl.inj hs
    refine ⟨A ++ run ++ [p], by simp, fun q hq => ?_, by simp, by simp⟩
    rcases mem_append.mp hq with hq | hq
    · rcases mem_append.mp hq with hq | hq
      · exact hA q hq
      · exact htail (by simpa using h₂.1) q hq
    · rw [mem_singleton.mp hq]
      exact h₂.2.1
  obtain rfl := Sum.inl.inj hs
  have hp : IsBlank (recOf data p 0) := by
    unfold IsBlank
    by_contra hno
    rw [not_or] at hno
    cases inTail with
    | false => exact h₂ ⟨rfl, hno⟩
    | true => exact h₁ ⟨rfl, hno.1⟩
  refine ⟨A, by simp, hA, fun q hq => ?_, fun hin q hq => ?_⟩
  · rcases mem_append.mp hq with hq | hq
    · exact hrun q hq
    · rw [mem_singleton.mp hq]
      exact hp
  · simp only [Bool.or_eq_false_iff, beq_eq_false_iff_ne] at hin
    rcases mem_append.mp hq with hq | hq
    · exact htail hin.1 q hq
    · rw [mem_singleton.mp hq]
      exact hin.2

/-- **A run to claim** among the records at `ps`: consecutive, free, and
with no terminator before it. -/
def Claimable (data : ℕ → Sector) (ps : List DirentPos) (need : ℕ) (run : List DirentPos) : Prop :=
  run.length = need ∧ ∃ A B, ps = A ++ run ++ B ∧ (∀ q ∈ A, recOf data q 0 ≠ entFree) ∧
    ∀ q ∈ run, IsBlank (recOf data q 0)

theorem claimable_of_fold {need : ℕ} {ps run : List DirentPos}
    (h : foldExit (fun st p => claimStep need st p (recOf data p)) ([], false) ps = .inr (.ok run)) :
    Claimable data ps need run := by
  obtain ⟨l₁, p, B, ⟨run', inTail⟩, hps, ⟨A, rfl, hA, hrun, htail⟩, hp⟩ :=
    foldExit_left (P := Claiming data) ⟨[], by simp, by simp, by simp, by simp⟩
      (fun hP hs => hP.step hs) h
  simp only [claimStep] at hp
  split_ifs at hp with h₁ h₂ h₃
  · cases hp
  obtain rfl : run' ++ [p] = run := by simpa using hp
  refine ⟨h₃, A, B, by simpa using hps, hA, fun q hq => ?_⟩
  rcases mem_append.mp hq with hq | hq
  · exact hrun q hq
  rw [mem_singleton.mp hq]
  unfold IsBlank
  by_contra hno
  rw [not_or] at hno
  cases inTail with
  | false => exact h₂ ⟨rfl, hno⟩
  | true => exact h₁ ⟨rfl, hno.1⟩

/-- **The run claimed** can be. -/
theorem claimedRun_ok {need : ℕ} {ps : List DirentPos} (h : claimedRun m data fat d need = .ok ps) :
    Claimable data (slots m (chainOf m fat d)) need ps := by
  unfold claimedRun at h
  split_ifs at h with hneed
  cases hfold : foldExit (fun st p => claimStep need st p (recOf data p)) ([], false)
      (slots m (chainOf m fat d)) with
  | inl st => simp [hfold] at h
  | inr r =>
    rw [hfold] at h
    obtain rfl : r = .ok ps := h
    exact claimable_of_fold hfold

theorem enospc_of_fold {need : ℕ} {ps : List DirentPos} {rc : Int}
    (h : foldExit (fun st p => claimStep need st p (recOf data p)) ([], false) ps = .inr (.error rc)) :
    rc = Errno.enospc := by
  obtain ⟨l₁, p, B, ⟨run, inTail⟩, -, -, hp⟩ := foldExit_inr h
  simp only [claimStep] at hp
  split_ifs at hp
  · simpa using hp.symm
  · cases hp

/-! ## Records -/

/-- What `dirent_locate` has gone over. -/
def Locating (data : ℕ → Sector) (sn : Fin 11 → UInt8) (seen run : List DirentPos) : Prop :=
  ∃ A, seen = A ++ run ∧ (∀ q ∈ seen, recOf data q 0 ≠ entFree ∧
      (entryUsed (recOf data q) = true → (recOf data q).isLfn = false → (recOf data q).name ≠ sn)) ∧
    (∀ q ∈ run, entryUsed (recOf data q) = true ∧ (recOf data q).isLfn = true) ∧
    ∀ q, A.getLast? = some q → ¬ (entryUsed (recOf data q) = true ∧ (recOf data q).isLfn = true)

theorem Locating.step {sn : Fin 11 → UInt8} {seen run run' : List DirentPos}
    (h : Locating data sn seen run) (hs : locateStep sn run p (recOf data p) = .inl run') :
    Locating data sn (seen ++ [p]) run' := by
  obtain ⟨A, rfl, hseen, hrun, hlast⟩ := h
  have hall : ∀ q ∈ A ++ run ++ [p], recOf data q 0 ≠ entFree ∧
      (entryUsed (recOf data q) = true → (recOf data q).isLfn = false → (recOf data q).name ≠ sn) := by
    intro q hq
    rcases mem_append.mp hq with hq | hq
    · exact hseen q hq
    · rw [mem_singleton.mp hq]
      unfold locateStep at hs
      split_ifs at hs with h₁ h₂ h₃ h₄
      · exact ⟨h₁, fun hu => by simp [hu] at h₂⟩
      · exact ⟨h₁, fun _ hl => by simp [hl] at h₃⟩
      · exact ⟨h₁, fun _ _ => h₄⟩
  -- the run starts again after a record that is no long-name record
  have hrestart : ¬ (entryUsed (recOf data p) = true ∧ (recOf data p).isLfn = true) →
      Locating data sn (A ++ run ++ [p]) [] := by
    intro hp
    refine ⟨A ++ run ++ [p], by simp, hall, by simp, fun q hq => ?_⟩
    rw [getLast?_append_of_ne_nil _ (by simp)] at hq
    obtain rfl : p = q := by simpa using hq
    exact hp
  unfold locateStep at hs
  split_ifs at hs with h₁ h₂ h₃ h₄
  · obtain rfl := Sum.inl.inj hs
    exact hrestart fun hc => by simp [hc.1] at h₂
  · obtain rfl := Sum.inl.inj hs
    refine ⟨A, by simp, hall, fun q hq => ?_, hlast⟩
    rcases mem_append.mp hq with hq | hq
    · exact hrun q hq
    · rw [mem_singleton.mp hq]
      exact ⟨by simpa using h₂, h₃⟩
  · obtain rfl := Sum.inl.inj hs
    exact hrestart fun hc => h₃ hc.2

/-- **A located record**: the first one with its name, and the long-name
records in front of it. -/
structure Located (data : ℕ → Sector) (sn : Fin 11 → UInt8) (ps : List DirentPos)
    (loc : DirentLoc) (A run B : List DirentPos) : Prop where
  split : ps = A ++ run ++ loc.pos :: B
  before : ∀ q ∈ A ++ run, recOf data q 0 ≠ entFree ∧
    (entryUsed (recOf data q) = true → (recOf data q).isLfn = false → (recOf data q).name ≠ sn)
  long : ∀ q ∈ run, entryUsed (recOf data q) = true ∧ (recOf data q).isLfn = true
  last : ∀ q, A.getLast? = some q →
    ¬ (entryUsed (recOf data q) = true ∧ (recOf data q).isLfn = true)
  de : loc.de = recOf data loc.pos
  used : entryUsed loc.de = true
  short : loc.de.isLfn = false
  name : loc.de.name = sn
  lfn : loc.lfn = run.take lfnEntriesMax

theorem locateRecord_some {sn : Fin 11 → UInt8} {loc : DirentLoc}
    (h : locateRecord m data fat d sn = some loc) :
    ∃ A run B, Located data sn (slots m (chainOf m fat d)) loc A run B := by
  unfold locateRecord at h
  cases hfold : foldExit (fun run p => locateStep sn run p (recOf data p)) []
      (slots m (chainOf m fat d)) with
  | inl run => simp [hfold] at h
  | inr r =>
    rw [hfold] at h
    obtain rfl : r = some loc := h
    obtain ⟨l₁, p, B, run, hps, ⟨A, rfl, hseen, hrun, hlast⟩, hp⟩ :=
      foldExit_left (P := Locating data sn) ⟨[], by simp, by simp, by simp, by simp⟩
        (fun hP hs => hP.step hs) hfold
    unfold locateStep at hp
    split_ifs at hp with h₁ h₂ h₃ h₄
    · cases hp
    · obtain rfl := Option.some.inj (Sum.inr.inj hp)
      exact ⟨A, run, B, hps, hseen, hrun, hlast, rfl, by simpa using h₂, by simpa using h₃, h₄, rfl⟩

variable {sn : Fin 11 → UInt8} {ps A run B : List DirentPos} {loc : DirentLoc}

theorem Located.pos_mem (h : Located data sn ps loc A run B) : loc.pos ∈ ps := by
  rw [h.split]
  simp

theorem Located.lfn_subset (h : Located data sn ps loc A run B) : ∀ q ∈ loc.lfn, q ∈ run := by
  rw [h.lfn]
  exact fun q hq => mem_of_mem_take hq

theorem Located.lfn_mem (h : Located data sn ps loc A run B) : ∀ q ∈ loc.lfn, q ∈ ps := by
  intro q hq
  rw [h.split]
  simp [h.lfn_subset q hq]

theorem Located.length_le (h : Located data sn ps loc A run B) : loc.lfn.length ≤ lfnEntriesMax := by
  rw [h.lfn, length_take]
  exact Nat.min_le_left _ _

end Lnxrm.Fat32
