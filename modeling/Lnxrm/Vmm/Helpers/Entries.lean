import Lnxrm.Vmm.Model

/-!
# Entries and addresses as numbers

Proof layer. An entry is the number of a frame and twelve flag bits; a user
address is three table indices and an offset. The bit operations of the
source are division and remainder here, so that the rest is arithmetic.
-/

namespace Lnxrm.Vmm

variable {a e fl va va' : BitVec 64} {f : ℕ}

theorem toNat_low (e : BitVec 64) : (e &&& 0xfff).toNat = e.toNat % 4096 := by
  rw [BitVec.toNat_and]
  exact Nat.and_two_pow_sub_one_eq_mod e.toNat 12

theorem toNat_cleared (e : BitVec 64) (k : ℕ) :
    (e &&& ~~~BitVec.ofNat 64 (2 ^ k - 1)).toNat = e.toNat / 2 ^ k * 2 ^ k := by
  refine Nat.eq_of_testBit_eq fun i => ?_
  have hmul : (e.toNat / 2 ^ k * 2 ^ k).testBit i = (decide (k ≤ i) && e.toNat.testBit i) := by
    rw [Nat.mul_comm, Nat.testBit_two_pow_mul]
    by_cases hk : k ≤ i
    · rw [Nat.testBit_div_two_pow, Nat.sub_add_cancel hk]
    · simp [hk]
  rw [hmul]
  by_cases hi : i < 64
  · show (e &&& ~~~BitVec.ofNat 64 (2 ^ k - 1)).getLsbD i = _
    rw [BitVec.getLsbD_and, BitVec.getLsbD_not, BitVec.getLsbD_ofNat, Nat.testBit_two_pow_sub_one,
      decide_eq_true hi, Bool.true_and, Bool.true_and, Bool.and_comm, ← decide_not,
      decide_eq_decide.mpr (not_lt (a := i) (b := k))]
    rfl
  · have hbig : ∀ v : BitVec 64, v.toNat.testBit i = false := fun v =>
      Nat.testBit_lt_two_pow (v.isLt.trans_le (Nat.pow_le_pow_right (by decide) (not_lt.mp hi)))
    rw [hbig, hbig, Bool.and_false]

theorem toNat_high (e : BitVec 64) : (e &&& ~~~0xfff#64).toNat = e.toNat / 4096 * 4096 :=
  toNat_cleared e 12

theorem toNat_flags (ha : a.toNat % 4096 = 0) (hfl : fl.toNat < 4096) :
    (a ||| fl).toNat = a.toNat + fl.toNat := by
  have h := Nat.two_pow_add_eq_or_of_lt (i := 12) (b := fl.toNat) hfl (a.toNat / 4096)
  have hmul : 2 ^ 12 * (a.toNat / 4096) = a.toNat := by omega
  rw [hmul] at h
  rw [BitVec.toNat_or, ← h]

theorem toNat_pageByte (e va : BitVec 64) :
    ((e &&& ~~~0xfff#64) ||| (va &&& 0xfff)).toNat = frameOf e * 4096 + va.toNat % 4096 := by
  have hlow := toNat_low va
  have hhigh := toNat_high e
  rw [toNat_flags (by omega) (by omega), hhigh, hlow]
  rfl

theorem present_iff : present e = true ↔ e.toNat % 2 = 1 := by
  have h : (e &&& pgP).toNat = e.toNat % 2 := by
    rw [BitVec.toNat_and]
    exact Nat.and_two_pow_sub_one_eq_mod e.toNat 1
  have hz : e &&& pgP = 0 ↔ e.toNat % 2 = 0 := by
    rw [← h]
    exact ⟨fun e => by rw [e]; rfl, fun e' => BitVec.eq_of_toNat_eq e'⟩
  unfold present
  rw [bne_iff_ne, ne_eq, hz]
  omega

theorem large_iff : large e = true ↔ e.toNat / 128 % 2 = 1 := by
  have hand : e &&& pgPS = if e.getLsbD 7 then BitVec.twoPow 64 7 else 0#64 :=
    BitVec.and_twoPow e 7
  have hbit : e.getLsbD 7 = decide (e.toNat / 128 % 2 = 1) := by
    rw [← BitVec.testBit_toNat, Nat.testBit_eq_decide_div_mod_eq]
  unfold large
  rw [bne_iff_ne, hand, hbit]
  by_cases h : e.toNat / 128 % 2 = 1
  · simp only [h, decide_true, if_true, ne_eq, iff_true]
    decide
  · simp [h]

theorem not_present_zero : present 0 = false := by decide

theorem toNat_addrOf (hf : f * 4096 < 2 ^ 64) : (addrOf f).toNat = f * 4096 := by
  unfold addrOf
  rw [BitVec.toNat_ofNat, Nat.mod_eq_of_lt hf]

/-! ## The entries that the code writes -/

theorem toNat_tableEntry (hf : f * 4096 < 2 ^ 64) :
    (addrOf f ||| pgP ||| pgW ||| pgU).toNat = f * 4096 + 7 := by
  have ha := toNat_addrOf hf
  rw [BitVec.or_assoc, BitVec.or_assoc, toNat_flags (by omega) (by decide), ha]
  rfl

theorem present_tableEntry (hf : f * 4096 < 2 ^ 64) :
    present (addrOf f ||| pgP ||| pgW ||| pgU) = true := by
  rw [present_iff, toNat_tableEntry hf]
  omega

theorem frameOf_tableEntry (hf : f * 4096 < 2 ^ 64) :
    frameOf (addrOf f ||| pgP ||| pgW ||| pgU) = f := by
  unfold frameOf
  rw [toNat_tableEntry hf]
  omega

theorem not_large_tableEntry (hf : f * 4096 < 2 ^ 64) :
    large (addrOf f ||| pgP ||| pgW ||| pgU) = false := by
  rw [← Bool.not_eq_true, large_iff, toNat_tableEntry hf]
  omega

/-- The flags of a leaf -/
def leafFlags (writable user : Bool) : BitVec 64 :=
  pgP ||| (if writable then pgW else 0) ||| (if user then pgU else 0)

theorem leafFlags_toNat (writable user : Bool) :
    (leafFlags writable user).toNat < 4096 ∧ (leafFlags writable user).toNat % 2 = 1 := by
  cases writable <;> cases user <;> decide

theorem leafEntry {pa : BitVec 64} (hpa : pa.toNat % 4096 = 0) (writable user : Bool) :
    let entry := pa ||| pgP ||| (if writable then pgW else 0) ||| (if user then pgU else 0)
    present entry = true ∧ entry &&& ~~~0xfff#64 = pa ∧ frameOf entry = pa.toNat / 4096 := by
  intro entry
  obtain ⟨hlt, hodd⟩ := leafFlags_toNat writable user
  have hentry : entry = pa ||| leafFlags writable user := by
    simp only [entry, leafFlags, BitVec.or_assoc]
  have hn : entry.toNat = pa.toNat + (leafFlags writable user).toNat := by
    rw [hentry, toNat_flags hpa hlt]
  refine ⟨present_iff.mpr (by omega), BitVec.eq_of_toNat_eq ?_, ?_⟩
  · rw [toNat_high]
    omega
  · unfold frameOf
    omega

theorem copiedEntry (hf : f * 4096 < 2 ^ 64) (he : present e = true) :
    present (addrOf f ||| (e &&& 0xfff)) = true ∧ frameOf (addrOf f ||| (e &&& 0xfff)) = f ∧
      (addrOf f ||| (e &&& 0xfff)) &&& 0xfff = e &&& 0xfff := by
  have ha := toNat_addrOf hf
  have hlow := toNat_low e
  have hn : (addrOf f ||| (e &&& 0xfff)).toNat = f * 4096 + e.toNat % 4096 := by
    rw [toNat_flags (by omega) (by omega), ha, hlow]
  rw [present_iff] at he
  refine ⟨present_iff.mpr (by omega), ?_, BitVec.eq_of_toNat_eq ?_⟩
  · unfold frameOf
    omega
  · rw [toNat_low, hn, hlow]
    omega

/-! ## User addresses -/

/-- A user address -/
def IsUser (va : BitVec 64) : Prop := userBase ≤ va.toNat ∧ va.toNat < userMaxVma

instance (va : BitVec 64) : Decidable (IsUser va) := inferInstanceAs (Decidable (_ ∧ _))

theorem index_val (va : BitVec 64) (shift : ℕ) :
    (index va shift).val = va.toNat / 2 ^ shift % 512 := by
  show (va >>> shift).toNat % 512 = _
  rw [BitVec.toNat_ushiftRight, Nat.shiftRight_eq_div_pow]

theorem index_user (h : IsUser va) : index va 39 = userSlot := by
  obtain ⟨hlo, hhi⟩ := h
  simp only [userBase, userMaxVma] at hlo hhi
  refine Fin.ext ?_
  rw [index_val]
  show va.toNat / 2 ^ 39 % 512 = 255
  omega

/-- The path of a user address to its page table, below the user slot, and
the index there. -/
def key (va : BitVec 64) : Fin 512 × Fin 512 × Fin 512 := (index va 30, index va 21, index va 12)

theorem key_eq_iff (h : IsUser va) (h' : IsUser va') :
    key va = key va' ↔ va.toNat / 4096 = va'.toNat / 4096 := by
  obtain ⟨hlo, hhi⟩ := h
  obtain ⟨hlo', hhi'⟩ := h'
  simp only [userBase, userMaxVma] at hlo hhi hlo' hhi'
  simp only [key, Prod.mk.injEq, Fin.ext_iff, index_val]
  constructor
  · rintro ⟨h3, h2, h1⟩
    omega
  · intro h
    omega

/-- The address in the loops of `dup_user_aspace` has the path of its
indices. -/
theorem userVa_key (i3 i2 i1 : Fin 512) :
    index (userVa i3 i2 i1) 39 = userSlot ∧ key (userVa i3 i2 i1) = (i3, i2, i1) ∧
      userVa i3 i2 i1 &&& 0xfff = 0 := by
  have hn : (userVa i3 i2 i1).toNat =
      255 * 2 ^ 39 + i3.val * 2 ^ 30 + i2.val * 2 ^ 21 + i1.val * 2 ^ 12 := by
    have hor : ∀ (k x y : ℕ), y < 2 ^ k → x * 2 ^ k ||| y = x * 2 ^ k + y := by
      intro k x y hy
      rw [Nat.mul_comm, Nat.two_pow_add_eq_or_of_lt hy]
    have hs : ∀ (i : Fin 512) (k : ℕ), k ≤ 39 →
        (BitVec.ofNat 64 i.val <<< k).toNat = i.val * 2 ^ k := by
      intro i k hk
      rw [BitVec.toNat_shiftLeft, BitVec.toNat_ofNat, Nat.shiftLeft_eq, Nat.mod_eq_of_lt
        (a := i.val) (by omega), Nat.mod_eq_of_lt]
      calc i.val * 2 ^ k < 512 * 2 ^ k := Nat.mul_lt_mul_of_pos_right i.isLt (Nat.two_pow_pos k)
        _ ≤ 512 * 2 ^ 39 := Nat.mul_le_mul_left _ (Nat.pow_le_pow_right (by decide) hk)
        _ ≤ 2 ^ 64 := by decide
    unfold userVa
    rw [BitVec.toNat_or, BitVec.toNat_or, BitVec.toNat_or, hs userSlot 39 (by decide),
      hs i3 30 (by decide), hs i2 21 (by decide), hs i1 12 (by decide)]
    rw [Nat.or_assoc, Nat.or_assoc, hor 21 i2.val _ (by omega), hor 30 i3.val _ (by omega),
      hor 39 userSlot.val _ (by omega)]
    show 255 * 2 ^ 39 + _ = _
    omega
  refine ⟨?_, ?_, ?_⟩
  · refine Fin.ext ?_
    rw [index_val, hn]
    show _ = 255
    omega
  · simp only [key, Prod.mk.injEq, Fin.ext_iff, index_val, hn]
    refine ⟨?_, ?_, ?_⟩ <;> omega
  · refine BitVec.eq_of_toNat_eq ?_
    rw [toNat_low, hn]
    show _ = 0
    omega

end Lnxrm.Vmm
