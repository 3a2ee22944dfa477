import Lnxrm.Vmm.UserMemory

/-!
# Stores of bytes

Proof layer. What a byte store leaves of physical memory, and what a run of
stores through one translation does.
-/

namespace Lnxrm.Vmm

open Function

variable {A : Type} {s s' : Vm A} {tr : ℕ → Option ℕ}

/-- **A byte is read back**, and every other byte is as it was. -/
theorem byte_setByte (s : Vm A) (pa x : ℕ) (b : UInt8) :
    (s.setByte pa b).byte x = if x = pa then b else s.byte x := by
  unfold Vm.byte Vm.setByte Vm.store
  dsimp only
  by_cases hf : x / 4096 = pa / 4096
  · rw [hf, update_self]
    by_cases hi : x % 4096 / 8 = pa % 4096 / 8
    · rw [hi, update_self, wordByte_setWordByte _ (Nat.mod_lt _ (by decide))]
      by_cases hx : x = pa
      · rw [if_pos (by rw [hx]), if_pos hx]
      · rw [if_neg (by omega), if_neg hx]
    have hne : Fin.ofNat 512 (x % 4096 / 8) ≠ Fin.ofNat 512 (pa % 4096 / 8) := by
      intro h
      have hval : x % 4096 / 8 % 512 = pa % 4096 / 8 % 512 := congrArg Fin.val h
      omega
    rw [update_of_ne hne, if_neg]
    rintro rfl
    exact hi rfl
  · rw [update_of_ne hf, if_neg]
    rintro rfl
    exact hf rfl

theorem setByte_mem {g pa : ℕ} (b : UInt8) (h : g ≠ pa / 4096) : (s.setByte pa b).mem g = s.mem g :=
  update_of_ne h _ _

/-- **The frames a run of stores leaves alone.** -/
theorem storeBytes_mem (bs : List UInt8) : ∀ {va : ℕ} {s : Vm A}, storeBytes tr va bs s = .ok s' →
      s'.pool = s.pool ∧ ∀ g, (∀ a pa, va ≤ a → a < va + bs.length → tr a = some pa →
        g ≠ pa / 4096) → s'.mem g = s.mem g := by
  induction bs with
  | nil =>
    intro va s h
    cases h
    exact ⟨rfl, fun _ _ => rfl⟩
  | cons b bs ih =>
    intro va s h
    rw [List.length_cons]
    cases htr : tr va with
    | none =>
      simp only [storeBytes, htr] at h
      cases h
    | some pa =>
      simp only [storeBytes, htr] at h
      obtain ⟨hpool, hmem⟩ := ih h
      refine ⟨hpool, fun g hg => ?_⟩
      rw [hmem g fun a pa' ha ha' => hg a pa' (by omega) (by omega),
        setByte_mem b (hg va pa (by omega) (by omega) htr)]

theorem storeBytes_mapped (bs : List UInt8) : ∀ {va : ℕ} {s : Vm A},
    storeBytes tr va bs s = .ok s' → ∀ a, va ≤ a → a < va + bs.length → (tr a).isSome := by
  induction bs with
  | nil => intro va s _ a ha ha'; simp only [List.length_nil] at ha'; omega
  | cons b bs ih =>
    intro va s h a ha ha'
    rw [List.length_cons] at ha'
    cases htr : tr va with
    | none =>
      simp only [storeBytes, htr] at h
      cases h
    | some pa =>
      simp only [storeBytes, htr] at h
      by_cases hva : a = va
      · rw [hva, htr]
        rfl
      · exact ih h a (by omega) (by omega)

theorem storeBytes_changed (bs : List UInt8) {x : ℕ} : ∀ {va : ℕ} {s : Vm A},
    storeBytes tr va bs s = .ok s' → s'.byte x ≠ s.byte x →
      ∃ a, va ≤ a ∧ a < va + bs.length ∧ tr a = some x := by
  induction bs with
  | nil =>
    intro va s h hx
    cases h
    exact absurd rfl hx
  | cons b bs ih =>
    intro va s h hx
    rw [List.length_cons]
    cases htr : tr va with
    | none =>
      simp only [storeBytes, htr] at h
      cases h
    | some pa =>
      simp only [storeBytes, htr] at h
      by_cases hpa : x = pa
      · exact ⟨va, by omega, by omega, by rw [htr, hpa]⟩
      · have hsame := byte_setByte s pa x b
        rw [if_neg hpa] at hsame
        obtain ⟨a, ha, ha', htra⟩ := ih h (by rw [hsame]; exact hx)
        exact ⟨a, by omega, by omega, htra⟩

/-- **The bytes a run of stores leaves**, where no two addresses are one
byte. -/
theorem storeBytes_byte (bs : List UInt8) : ∀ {va : ℕ} {s : Vm A},
    (∀ a a' pa, va ≤ a → a < va + bs.length → va ≤ a' → a' < va + bs.length → tr a = some pa →
      tr a' = some pa → a = a') → storeBytes tr va bs s = .ok s' →
      ∀ i pa, i < bs.length → tr (va + i) = some pa → s'.byte pa = bs.getD i 0 := by
  induction bs with
  | nil => intro va s _ _ i pa hi; simp at hi
  | cons b bs ih =>
    intro va s hinj h i pa hi hpa
    rw [List.length_cons] at hinj hi
    cases htr : tr va with
    | none =>
      simp only [storeBytes, htr] at h
      cases h
    | some pa₀ =>
      simp only [storeBytes, htr] at h
      cases i with
      | zero =>
        -- the later stores go elsewhere
        obtain rfl : pa₀ = pa := Option.some.inj (htr.symm.trans hpa)
        have hkeep : s'.byte pa₀ = (s.setByte pa₀ b).byte pa₀ := by
          by_contra hne
          obtain ⟨a, ha, ha', htra⟩ := storeBytes_changed bs h hne
          have := hinj va a pa₀ (by omega) (by omega) (by omega) (by omega) htr htra
          omega
        rw [hkeep, byte_setByte, if_pos rfl]
        rfl
      | succ i =>
        rw [show va + (i + 1) = va + 1 + i by omega] at hpa
        rw [List.getD_cons_succ]
        exact ih (fun a a' p ha ha' hb hb' => hinj a a' p (by omega) (by omega) (by omega)
          (by omega)) h i pa (by omega) hpa

end Lnxrm.Vmm
