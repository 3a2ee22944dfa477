import Mathlib.Tactic.IntervalCases

/-!
# Byte-addressed memory and its words

Memory is a function from addresses to bytes. `load64` and `store64`,
`load32` and `store32` are the little-endian words of it, at any address,
and `storeWords` lays a
list of words out upward. A word read back is the word stored
(`load64_store64`), and a laid-out list is read back word by word
(`load64_storeWords`). Where memory is an array of words instead,
`wordByte` and `setWordByte` are the bytes of one.
-/

namespace Lnxrm

/-- The 64-bit word at an address, lowest byte first. -/
def load64 (m : ℕ → UInt8) (a : ℕ) : BitVec 64 :=
  BitVec.ofNat 64 ((m a).toNat + 256 * ((m (a + 1)).toNat + 256 * ((m (a + 2)).toNat +
    256 * ((m (a + 3)).toNat + 256 * ((m (a + 4)).toNat + 256 * ((m (a + 5)).toNat +
    256 * ((m (a + 6)).toNat + 256 * (m (a + 7)).toNat)))))))

/-- The memory after a 64-bit word is stored. -/
def store64 (m : ℕ → UInt8) (a : ℕ) (v : BitVec 64) : ℕ → UInt8 :=
  fun x => if a ≤ x ∧ x < a + 8 then UInt8.ofNat (v.toNat / 256 ^ (x - a)) else m x

/-- The memory after a list of words is stored upward from an address. -/
def storeWords (m : ℕ → UInt8) : ℕ → List (BitVec 64) → ℕ → UInt8
  | _, [] => m
  | a, w :: ws => storeWords (store64 m a w) (a + 8) ws

/-- The memory after `n` bytes from an address are set to one value. -/
def memset (m : ℕ → UInt8) (a : ℕ) (c : UInt8) (n : ℕ) : ℕ → UInt8 :=
  fun x => if a ≤ x ∧ x < a + n then c else m x

/-- A word depends on its eight bytes only. -/
theorem load64_congr {m m' : ℕ → UInt8} {a : ℕ} (h : ∀ x, a ≤ x → x < a + 8 → m x = m' x) :
    load64 m a = load64 m' a := by
  unfold load64
  rw [h a (by omega) (by omega), h (a + 1) (by omega) (by omega), h (a + 2) (by omega) (by omega),
    h (a + 3) (by omega) (by omega), h (a + 4) (by omega) (by omega),
    h (a + 5) (by omega) (by omega), h (a + 6) (by omega) (by omega),
    h (a + 7) (by omega) (by omega)]

theorem store64_of_lt {m : ℕ → UInt8} {a x : ℕ} (v : BitVec 64) (h : x < a) :
    store64 m a v x = m x := by
  unfold store64
  rw [if_neg (by omega)]

/-- The bytes a store leaves at its address. -/
theorem store64_byte (m : ℕ → UInt8) (a : ℕ) (v : BitVec 64) {i : ℕ} (hi : i < 8) :
    (store64 m a v (a + i)).toNat = v.toNat / 256 ^ i % 256 := by
  unfold store64
  rw [if_pos (by omega), Nat.add_sub_cancel_left, UInt8.toNat_ofNat']

/-- **A word is read back.** -/
theorem load64_store64 (m : ℕ → UInt8) (a : ℕ) (v : BitVec 64) : load64 (store64 m a v) a = v := by
  have h0 := store64_byte m a v (i := 0) (by omega)
  rw [Nat.add_zero] at h0
  apply BitVec.eq_of_toNat_eq
  unfold load64
  rw [BitVec.toNat_ofNat, h0, store64_byte m a v (by omega), store64_byte m a v (by omega),
    store64_byte m a v (by omega), store64_byte m a v (by omega), store64_byte m a v (by omega),
    store64_byte m a v (by omega), store64_byte m a v (by omega)]
  omega

/-- A store leaves the words it does not touch. -/
theorem load64_store64_of_disjoint (m : ℕ → UInt8) {a b : ℕ} (v : BitVec 64)
    (h : a + 8 ≤ b ∨ b + 8 ≤ a) : load64 (store64 m a v) b = load64 m b := by
  refine load64_congr fun x hx hx' => ?_
  unfold store64
  rw [if_neg (by omega)]

/-- Words are laid out upward: nothing below changes. -/
theorem storeWords_of_lt (ws : List (BitVec 64)) : ∀ {m : ℕ → UInt8} {a x : ℕ}, x < a →
    storeWords m a ws x = m x := by
  induction ws with
  | nil => intro m a x _; rfl
  | cons w ws ih =>
    intro m a x h
    rw [storeWords, ih (by omega), store64_of_lt w h]

/-- **A laid-out list is read back word by word.** -/
theorem load64_storeWords (ws : List (BitVec 64)) : ∀ (m : ℕ → UInt8) (a : ℕ) {i : ℕ}
    (hi : i < ws.length), load64 (storeWords m a ws) (a + 8 * i) = ws[i] := by
  induction ws with
  | nil => intro m a i hi; simp at hi
  | cons w ws ih =>
    intro m a i hi
    cases i with
    | zero =>
      rw [storeWords, Nat.mul_zero, Nat.add_zero]
      rw [load64_congr fun x _ hx => storeWords_of_lt ws (by omega)]
      exact load64_store64 m a w
    | succ i =>
      rw [storeWords, show a + 8 * (i + 1) = a + 8 + 8 * i by omega]
      exact ih _ _ (by simpa using hi)

/-! ## 32-bit words -/

/-- The 32-bit word at an address, lowest byte first. -/
def load32 (m : ℕ → UInt8) (a : ℕ) : ℕ :=
  (m a).toNat + 256 * ((m (a + 1)).toNat + 256 * ((m (a + 2)).toNat + 256 * (m (a + 3)).toNat))

/-- The memory after a 32-bit word is stored. -/
def store32 (m : ℕ → UInt8) (a v : ℕ) : ℕ → UInt8 :=
  fun x => if a ≤ x ∧ x < a + 4 then UInt8.ofNat (v / 256 ^ (x - a)) else m x

theorem load32_congr {m m' : ℕ → UInt8} {a : ℕ} (h : ∀ x, a ≤ x → x < a + 4 → m x = m' x) :
    load32 m a = load32 m' a := by
  unfold load32
  rw [h a (by omega) (by omega), h (a + 1) (by omega) (by omega), h (a + 2) (by omega) (by omega),
    h (a + 3) (by omega) (by omega)]

theorem store32_of_out {m : ℕ → UInt8} {a v x : ℕ} (h : x < a ∨ a + 4 ≤ x) :
    store32 m a v x = m x := by
  unfold store32
  rw [if_neg (by omega)]

theorem store64_of_out {m : ℕ → UInt8} {a x : ℕ} {v : BitVec 64} (h : x < a ∨ a + 8 ≤ x) :
    store64 m a v x = m x := by
  unfold store64
  rw [if_neg (by omega)]

/-- **A 32-bit word is read back.** -/
theorem load32_store32 (m : ℕ → UInt8) (a : ℕ) {v : ℕ} (hv : v < 2 ^ 32) :
    load32 (store32 m a v) a = v := by
  have hbyte : ∀ i, i < 4 → (store32 m a v (a + i)).toNat = v / 256 ^ i % 256 := by
    intro i hi
    unfold store32
    rw [if_pos (by omega), Nat.add_sub_cancel_left, UInt8.toNat_ofNat']
  have h0 := hbyte 0 (by omega)
  rw [Nat.add_zero] at h0
  unfold load32
  rw [h0, hbyte 1 (by omega), hbyte 2 (by omega), hbyte 3 (by omega)]
  omega

/-! ## The bytes of a word -/

/-- Byte `j` of a word, lowest first. -/
def wordByte (w : BitVec 64) (j : ℕ) : UInt8 := UInt8.ofNat (w.toNat / 256 ^ j)

/-- The word with byte `j` replaced. -/
def setWordByte (w : BitVec 64) (j : ℕ) (b : UInt8) : BitVec 64 :=
  BitVec.ofNat 64 (w.toNat % 256 ^ j + 256 ^ j * (b.toNat + 256 * (w.toNat / 256 ^ (j + 1))))

theorem toNat_wordByte (w : BitVec 64) (j : ℕ) : (wordByte w j).toNat = w.toNat / 256 ^ j % 256 := by
  unfold wordByte
  rw [UInt8.toNat_ofNat']

/-- A replaced word has 64 bits. -/
theorem toNat_setWordByte (w : BitVec 64) {j : ℕ} (hj : j < 8) (b : UInt8) :
    (setWordByte w j b).toNat =
      w.toNat % 256 ^ j + 256 ^ j * (b.toNat + 256 * (w.toNat / 256 ^ (j + 1))) := by
  unfold setWordByte
  rw [BitVec.toNat_ofNat, Nat.mod_eq_of_lt]
  have hb := b.toNat_lt
  interval_cases j <;> omega

/-- The digits of a number one of whose digits is replaced. -/
theorem digit_replace (w b : ℕ) (hb : b < 256) (i j : ℕ) :
    (w % 256 ^ j + 256 ^ j * (b + 256 * (w / 256 ^ (j + 1)))) / 256 ^ i % 256 =
      if i = j then b else w / 256 ^ i % 256 := by
  have hpos : ∀ n, 0 < 256 ^ n := fun n => Nat.pow_pos (by decide)
  have hlow : (w % 256 ^ j + 256 ^ j * (b + 256 * (w / 256 ^ (j + 1)))) / 256 ^ j =
      b + 256 * (w / 256 ^ (j + 1)) := by
    rw [Nat.add_mul_div_left _ _ (hpos j), Nat.div_eq_of_lt (Nat.mod_lt _ (hpos j)), Nat.zero_add]
  rcases Nat.lt_trichotomy i j with hij | rfl | hij
  · -- below the digit: what is added is a multiple of the next power
    obtain ⟨d, rfl⟩ : ∃ d, j = i + (d + 1) := ⟨j - i - 1, by omega⟩
    rw [if_neg (by omega), Nat.pow_add 256 i, Nat.mul_assoc, Nat.add_mul_div_left _ _ (hpos i),
      Nat.mod_mul_right_div_self, Nat.pow_succ, Nat.mul_comm (256 ^ d), Nat.mul_assoc,
      Nat.add_mul_mod_self_left, Nat.mod_mod_of_dvd _ (Nat.dvd_mul_right 256 _)]
  · rw [if_pos rfl, hlow, Nat.add_mul_mod_self_left, Nat.mod_eq_of_lt hb]
  · obtain ⟨d, rfl⟩ : ∃ d, i = j + 1 + d := ⟨i - j - 1, by omega⟩
    have hnext : (b + 256 * (w / 256 ^ (j + 1))) / 256 = w / 256 ^ (j + 1) := by omega
    have hsplit : ∀ n, n / 256 ^ (j + 1 + d) = n / 256 ^ j / 256 / 256 ^ d := by
      intro n
      rw [Nat.pow_add, Nat.pow_succ, Nat.div_div_eq_div_mul, Nat.div_div_eq_div_mul, Nat.mul_assoc]
    rw [if_neg (by omega), hsplit, hsplit, hlow, hnext, Nat.pow_succ, ← Nat.div_div_eq_div_mul]

/-- **The bytes of a replaced word.** -/
theorem wordByte_setWordByte (w : BitVec 64) {j : ℕ} (hj : j < 8) (i : ℕ) (b : UInt8) :
    wordByte (setWordByte w j b) i = if i = j then b else wordByte w i := by
  refine UInt8.toNat_inj.mp ?_
  rw [toNat_wordByte, toNat_setWordByte w hj, digit_replace _ _ b.toNat_lt,
    apply_ite UInt8.toNat, toNat_wordByte]

theorem wordByte_zero (j : ℕ) : wordByte 0 j = 0 := by
  unfold wordByte
  simp

end Lnxrm
