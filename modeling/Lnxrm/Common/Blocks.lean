import Mathlib.Algebra.BigOperators.Group.Finset.Basic
import Mathlib.Algebra.Order.BigOperators.Group.List
import Mathlib.Data.Nat.Bitwise
import Mathlib.Tactic.Ring

/-!
# Families of blocks

A family of lists `L o`, one for each order `o < n`, is weighed by a
function of the order and the entry: `total`. With the weight `cov`,
which is `1` where a block covers an address, the total at an address is
the number of blocks there, so **disjoint and covering exactly a set** is
one equation on totals, and adding, taking out, splitting and merging
blocks are additions (`total_push`, `total_erase`, `cov_split`).

`xor_two_pow_of_dvd` is the address of a buddy: the other half of the
aligned block of twice the size.
-/

namespace Lnxrm

open Function List

/-- Whether the block of `size` at `a` covers the address `x`. -/
def cov (size a x : ℕ) : ℕ := if a ≤ x ∧ x < a + size then 1 else 0

theorem cov_self {size : ℕ} (h : 0 < size) (a : ℕ) : cov size a a = 1 := by
  unfold cov
  rw [if_pos (by omega)]

theorem cov_pos_iff {size a x : ℕ} : 0 < cov size a x ↔ a ≤ x ∧ x < a + size := by
  unfold cov
  split <;> simp_all

/-- A block is its two halves. -/
theorem cov_split (size a x : ℕ) : cov (2 * size) a x = cov size a x + cov size (a + size) x := by
  unfold cov
  split <;> split <;> split <;> omega

/-- The buddy of an aligned block is the other half of the block of twice
the size. -/
theorem xor_two_pow_of_dvd {k a : ℕ} (h : 2 ^ k ∣ a) :
    a ^^^ 2 ^ k = if 2 ^ (k + 1) ∣ a then a + 2 ^ k else a - 2 ^ k := by
  obtain ⟨q, rfl⟩ := h
  have hx : 2 ^ k * q ^^^ 2 ^ k = 2 ^ k * (q ^^^ 1) := by
    have h1 := Nat.shiftLeft_xor_distrib (a := q) (b := 1) (i := k)
    simpa [Nat.shiftLeft_eq, Nat.mul_comm] using h1.symm
  have hdvd : 2 ^ (k + 1) ∣ 2 ^ k * q ↔ q % 2 = 0 := by
    rw [pow_succ, Nat.mul_dvd_mul_iff_left (Nat.two_pow_pos k), Nat.dvd_iff_mod_eq_zero]
  rw [hx]
  rcases Nat.mod_two_eq_zero_or_one q with hq | hq
  · rw [if_pos (hdvd.mpr hq), Nat.xor_one_of_even (Nat.even_iff.mpr hq)]
    ring
  · rw [if_neg (by rw [hdvd]; omega), Nat.xor_one_of_odd (Nat.odd_iff.mpr hq)]
    rw [Nat.mul_sub, Nat.mul_one]

/-- The weight of a family of lists. -/
def total (n : ℕ) (f : ℕ → ℕ → ℕ) (L : ℕ → List ℕ) : ℕ :=
  ∑ o ∈ Finset.range n, ((L o).map (f o)).sum

variable {n o a : ℕ} {f : ℕ → ℕ → ℕ} {L : ℕ → List ℕ}

/-- Replacing one list changes the total by the difference. -/
theorem total_update (ho : o < n) (l : List ℕ) : total n f (update L o l) + ((L o).map (f o)).sum =
      total n f L + (l.map (f o)).sum := by
  have hmem : o ∈ Finset.range n := Finset.mem_range.mpr ho
  unfold total
  rw [← Finset.add_sum_erase _ _ hmem, ← Finset.add_sum_erase (Finset.range n) _ hmem]
  rw [update_self, Finset.sum_congr rfl fun x hx => by
    rw [update_of_ne (Finset.ne_of_mem_erase hx)]]
  omega

theorem total_push (ho : o < n) : total n f (update L o (a :: L o)) = total n f L + f o a := by
  have h := total_update (L := L) (f := f) ho (a :: L o)
  rw [map_cons, sum_cons] at h
  omega

theorem total_erase (ho : o < n) (ha : a ∈ L o) :
    total n f (update L o ((L o).erase a)) + f o a = total n f L := by
  have h := total_update (L := L) (f := f) ho ((L o).erase a)
  have hsum : ((L o).map (f o)).sum = f o a + (((L o).erase a).map (f o)).sum := by
    rw [((perm_cons_erase ha).map (f o)).sum_eq, map_cons, sum_cons]
  omega

theorem le_total (ho : o < n) (ha : a ∈ L o) : f o a ≤ total n f L := by
  rw [← total_erase ho ha]
  exact Nat.le_add_left _ _

/-- Two entries at different places weigh together at most the total. -/
theorem add_le_total {o' a' : ℕ} (ho : o < n) (ho' : o' < n) (ha : a ∈ L o) (ha' : a' ∈ L o')
    (hne : o = o' → a' ∈ (L o).erase a) : f o a + f o' a' ≤ total n f L := by
  rw [← total_erase ho ha, Nat.add_comm]
  refine Nat.add_le_add_right (le_total ho' ?_) _
  by_cases h : o' = o
  · subst h
    rw [update_self]
    exact hne rfl
  · rw [update_of_ne h]
    exact ha'

section Cover

variable {size : ℕ → ℕ}

/-- Blocks that cover no address twice are in their list once. -/
theorem nodup_of_total_le_one (hsize : ∀ o, 0 < size o) (ho : o < n)
    (h : ∀ x, total n (fun o a => cov (size o) a x) L ≤ 1) : (L o).Nodup := by
  rw [nodup_iff_count_le_one]
  intro a
  by_contra hc
  have hmem : a ∈ (L o).erase a := by
    rw [← count_pos_iff, count_erase_self]
    omega
  have h2 := add_le_total (f := fun o a' => cov (size o) a' a) ho ho (mem_of_mem_erase hmem)
    (mem_of_mem_erase hmem) fun _ => hmem
  have h1 := h a
  simp only [cov_self (hsize o)] at h2
  omega

/-- An address that is covered once is in one block only. -/
theorem eq_of_total_le_one {o' a' x : ℕ} (ho : o < n) (ho' : o' < n)
    (h : total n (fun o a => cov (size o) a x) L ≤ 1) (ha : a ∈ L o) (ha' : a' ∈ L o')
    (hx : a ≤ x ∧ x < a + size o) (hx' : a' ≤ x ∧ x < a' + size o') : o = o' ∧ a = a' := by
  by_contra hne
  have h2 := add_le_total (f := fun o a => cov (size o) a x) ho ho' ha ha' fun e => by
    subst e
    exact (mem_erase_of_ne fun e => hne ⟨rfl, e.symm⟩).mpr ha'
  have h1 := cov_pos_iff.mpr hx
  have h1' := cov_pos_iff.mpr hx'
  omega

end Cover

/-- The total as one sum over all entries with their orders. -/
theorem total_eq_sum (n : ℕ) (f : ℕ → ℕ → ℕ) (L : ℕ → List ℕ) : total n f L =
      (((List.range n).flatMap fun o => (L o).map fun a => (a, o)).map fun b => f b.2 b.1).sum := by
  unfold total
  induction n with
  | zero => rfl
  | succ n ih =>
    rw [Finset.sum_range_succ, ih, range_succ, flatMap_append, map_append, sum_append]
    simp [Function.comp_def]

section Counting

variable {β : Type*} {c : β → ℕ → ℕ} {bs : List β}

/-- **Counting is disjointness**: entries that count no point twice are
pairwise disjoint. -/
theorem pairwise_of_sum_le_one (h : ∀ x, (bs.map fun b => c b x).sum ≤ 1) :
    bs.Pairwise fun b d => ∀ x, ¬(0 < c b x ∧ 0 < c d x) := by
  induction bs with
  | nil => exact List.Pairwise.nil
  | cons b bs ih =>
    refine List.Pairwise.cons ?_ (ih fun x => ?_)
    · rintro d hd x ⟨hb, hdx⟩
      have hle := single_le_sum (fun _ _ => Nat.zero_le _) _
        (mem_map_of_mem (f := fun b => c b x) hd)
      have hx := h x
      rw [map_cons, sum_cons] at hx
      omega
    · have hx := h x
      rw [map_cons, sum_cons] at hx
      omega

/-- A point counts when some entry counts it. -/
theorem sum_pos_iff (x : ℕ) : 0 < (bs.map fun b => c b x).sum ↔ ∃ b ∈ bs, 0 < c b x := by
  induction bs with
  | nil => simp
  | cons b bs ih =>
    rw [map_cons, sum_cons, exists_mem_cons_iff, ← ih]
    omega

end Counting

end Lnxrm
