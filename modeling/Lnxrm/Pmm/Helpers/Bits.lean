import Lnxrm.Pmm.Model
import Mathlib.Tactic.Ring

/-!
# The bitmaps

The index of a block counts from `base_addr`, which is only page aligned,
while blocks are aligned absolutely. Two aligned blocks of one order are
at least a block apart, so their indices differ (`bitIdx_inj`); an index
stays inside its order's bitmap (`bitIdx_lt`), so the bitmaps of two
orders never share a byte. Hence setting or clearing a bit changes that
bit alone (`bitGet_bitSet`, `bitGet_bitClr`).
-/

namespace Lnxrm.Pmm

theorem blockSize_eq (o : ℕ) : blockSize o = 2 ^ (minOrderBits + o) := by
  unfold blockSize
  rw [Nat.one_shiftLeft]

theorem blockSize_pos (o : ℕ) : 0 < blockSize o := by
  rw [blockSize_eq]
  exact Nat.two_pow_pos _

theorem blockSize_succ (o : ℕ) : blockSize (o + 1) = 2 * blockSize o := by
  rw [blockSize_eq, blockSize_eq, ← Nat.add_assoc, Nat.pow_succ, Nat.mul_comm]

theorem blockSize_zero : blockSize 0 = 4096 := rfl

theorem blockSize_dvd_of_le {o o' : ℕ} (h : o ≤ o') : blockSize o ∣ blockSize o' := by
  rw [blockSize_eq, blockSize_eq]
  exact Nat.pow_dvd_pow 2 (by omega)

variable {w : Window} {s : State} {o o' pa pa' : ℕ}

/-- The addresses that have a bit of order `o`: aligned, in the window. -/
structure Mapped (w : Window) (o pa : ℕ) : Prop where
  aligned : blockSize o ∣ pa
  base : w.base ≤ pa
  top : pa < w.top

theorem add_le_of_dvd {d a b : ℕ} (ha : d ∣ a) (hb : d ∣ b) (h : a < b) : a + d ≤ b := by
  obtain ⟨i, rfl⟩ := ha
  obtain ⟨j, rfl⟩ := hb
  have hij : i + 1 ≤ j := Nat.lt_of_mul_lt_mul_left h
  calc d * i + d = d * (i + 1) := by ring
    _ ≤ d * j := Nat.mul_le_mul_left d hij

theorem bitIdx_lt_of_lt (h : Mapped w o pa) (h' : Mapped w o pa') (hlt : pa < pa') :
    bitIdx w o pa < bitIdx w o pa' := by
  have hapart := add_le_of_dvd h.aligned h'.aligned hlt
  have hb := h.base
  unfold bitIdx
  rw [Nat.shiftRight_eq_div_pow, Nat.shiftRight_eq_div_pow, ← blockSize_eq]
  calc (pa - w.base) / blockSize o < (pa - w.base) / blockSize o + 1 := Nat.lt_succ_self _
    _ = (pa - w.base + blockSize o) / blockSize o := (Nat.add_div_right _ (blockSize_pos o)).symm
    _ ≤ (pa' - w.base) / blockSize o := Nat.div_le_div_right (by omega)

/-- **One bit a block**: at one order, different blocks have different
indices. -/
theorem bitIdx_inj (h : Mapped w o pa) (h' : Mapped w o pa')
    (heq : bitIdx w o pa = bitIdx w o pa') : pa = pa' := by
  rcases Nat.lt_trichotomy pa pa' with hlt | hlt | hlt
  · have := bitIdx_lt_of_lt h h' hlt
    omega
  · exact hlt
  · have := bitIdx_lt_of_lt h' h hlt
    omega

/-- **Indices stay in their bitmap.** -/
theorem bitIdx_lt (h : pa < w.top) : bitIdx w o pa / 8 < bitsBytes w o := by
  have hle : bitIdx w o pa ≤ (w.top - w.base) >>> (minOrderBits + o) := by
    unfold bitIdx
    rw [Nat.shiftRight_eq_div_pow, Nat.shiftRight_eq_div_pow]
    exact Nat.div_le_div_right (by omega)
  unfold bitsBytes
  omega

theorem orderBits_add_le (h : o < o') : orderBits w o + bitsBytes w o ≤ orderBits w o' := by
  induction o' with
  | zero => omega
  | succ k ih =>
    rw [orderBits]
    rcases Nat.lt_succ_iff_lt_or_eq.mp h with hlt | rfl
    · omega
    · exact Nat.le_refl _

theorem bit_inj (h : Mapped w o pa) (h' : Mapped w o' pa')
    (hbyte : orderBits w o + bitIdx w o pa / 8 = orderBits w o' + bitIdx w o' pa' / 8)
    (hbit : bitIdx w o pa % 8 = bitIdx w o' pa' % 8) : o = o' ∧ pa = pa' := by
  have hlt := bitIdx_lt (o := o) h.top
  have hlt' := bitIdx_lt (o := o') h'.top
  have ho : o = o' := by
    rcases Nat.lt_trichotomy o o' with hoo | hoo | hoo
    · have := orderBits_add_le (w := w) hoo
      omega
    · exact hoo
    · have := orderBits_add_le (w := w) hoo
      omega
  subst ho
  exact ⟨rfl, bitIdx_inj h h' (by omega)⟩

theorem bitGet_bitSet (h : Mapped w o pa) (h' : Mapped w o' pa') :
    bitGet w (bitSet w s o pa) o' pa' = (decide (o' = o ∧ pa' = pa) || bitGet w s o' pa') := by
  unfold bitGet bitSet
  simp only [Function.update_apply]
  split
  · rename_i hbyte
    have htwo : (1#8 <<< (bitIdx w o pa % 8)) = BitVec.twoPow 8 (bitIdx w o pa % 8) := rfl
    rw [BitVec.getLsbD_or, htwo, BitVec.getLsbD_twoPow, hbyte, Bool.or_comm]
    congr 1
    rw [decide_eq_true (Nat.mod_lt _ (by omega)), Bool.true_and, decide_eq_decide]
    refine ⟨fun hbit => ?_, fun e => by rw [e.1, e.2]⟩
    obtain ⟨ho, hpa⟩ := bit_inj h h' hbyte.symm hbit
    exact ⟨ho.symm, hpa.symm⟩
  · rename_i hbyte
    rw [decide_eq_false, Bool.false_or]
    rintro ⟨rfl, rfl⟩
    exact hbyte rfl

theorem bitGet_bitClr (h : Mapped w o pa) (h' : Mapped w o' pa') :
    bitGet w (bitClr w s o pa) o' pa' = (!decide (o' = o ∧ pa' = pa) && bitGet w s o' pa') := by
  unfold bitGet bitClr
  simp only [Function.update_apply]
  split
  · rename_i hbyte
    have htwo : (1#8 <<< (bitIdx w o pa % 8)) = BitVec.twoPow 8 (bitIdx w o pa % 8) := rfl
    rw [BitVec.getLsbD_and, BitVec.getLsbD_not, htwo, BitVec.getLsbD_twoPow, hbyte, Bool.and_comm]
    congr 1
    rw [decide_eq_true (Nat.mod_lt _ (by omega)), decide_eq_true (Nat.mod_lt _ (by omega)),
      Bool.true_and, Bool.true_and]
    congr 1
    rw [decide_eq_decide]
    refine ⟨fun hbit => ?_, fun e => by rw [e.1, e.2]⟩
    obtain ⟨ho, hpa⟩ := bit_inj h h' hbyte.symm hbit
    exact ⟨ho.symm, hpa.symm⟩
  · rename_i hbyte
    rw [decide_eq_false, Bool.not_false, Bool.true_and]
    rintro ⟨rfl, rfl⟩
    exact hbyte rfl

end Lnxrm.Pmm
