import Mathlib.Data.Fintype.BigOperators
import Mathlib.Tactic.Linarith

/-!
# Reference counting

Objects are pointed at from the slots of a finite table, and each object
carries a count; the count of a freed object is `none`. `Books` is the
balance: the count of an object is the number of slots that point at it
plus the references `held` outside the table, which is negative while a
pointer has been copied and not yet been counted.

Each operation moves one reference between the three columns: `Books.alloc`,
`Books.put`, `Books.take`, `Books.acquire`, `Books.release`, and
`Books.copyRow` for a whole row of a table. With nothing held the counts
are exact (`Books.exact`).
-/

namespace Lnxrm

open Function

variable {ι κ α : Type*} [Fintype ι] [Fintype κ] [DecidableEq α]

/-- The number of slots that point at `a`. -/
def refs (slots : ι → Option α) (a : α) : ℕ := (Finset.univ.filter fun i => slots i = some a).card

theorem refs_eq_sum (slots : ι → Option α) (a : α) :
    refs slots a = ∑ i, if slots i = some a then 1 else 0 := by
  rw [refs, Finset.card_filter]

/-- No slot points at `a` if the count of slots is zero. -/
theorem refs_eq_zero {slots : ι → Option α} {a : α} : refs slots a = 0 ↔ ∀ i, slots i ≠ some a := by
  simp [refs, Finset.filter_eq_empty_iff]

/-- **One slot changes**: the old reference is gone, the new one counts. -/
theorem refs_update [DecidableEq ι] (slots : ι → Option α) (i : ι) (x : Option α) (a : α) :
    refs (update slots i x) a + (if slots i = some a then 1 else 0) =
      refs slots a + if x = some a then 1 else 0 := by
  have hrest : ∑ j ∈ Finset.univ.erase i, (if update slots i x j = some a then 1 else 0) =
      ∑ j ∈ Finset.univ.erase i, if slots j = some a then 1 else 0 := by
    refine Finset.sum_congr rfl fun j hj => ?_
    rw [update_of_ne (Finset.ne_of_mem_erase hj)]
  rw [refs_eq_sum, refs_eq_sum, ← Finset.add_sum_erase _ _ (Finset.mem_univ i),
    ← Finset.add_sum_erase (a := i) Finset.univ (fun j => if slots j = some a then 1 else 0)
      (Finset.mem_univ i), hrest, update_self]
  omega

/-- The row `r` in the place of the row `k`. -/
def setRow [DecidableEq κ] (slots : κ × ι → Option α) (k : κ) (r : ι → Option α) : κ × ι → Option α := fun q =>
  if q.1 = k then r q.2 else slots q

/-- **A free row is filled**: the references of the new row are added. -/
theorem refs_setRow [DecidableEq κ] {slots : κ × ι → Option α} {k : κ} (hfree : ∀ i, slots (k, i) = none)
    (r : ι → Option α) (a : α) : refs (setRow slots k r) a = refs slots a + refs r a := by
  have hrow : ∀ j, (∑ i, if setRow slots k r (j, i) = some a then 1 else 0) =
      (∑ i, if slots (j, i) = some a then 1 else 0) + if j = k then refs r a else 0 := by
    intro j
    by_cases hj : j = k
    · subst hj
      simp [setRow, hfree, refs_eq_sum]
    · simp [setRow, hj]
  rw [refs_eq_sum, refs_eq_sum, Fintype.sum_prod_type, Fintype.sum_prod_type]
  simp only [hrow, Finset.sum_add_distrib, Finset.sum_ite_eq', Finset.mem_univ, if_true]

/-- **The balance of the books.** -/
structure Books (count : α → Option ℤ) (slots : ι → Option α) (held : α → ℤ) : Prop where
  live : ∀ a n, count a = some n → n = refs slots a + held a ∧ 1 ≤ n
  freed : ∀ a, count a = none → refs slots a = 0 ∧ held a = 0

namespace Books

variable {count : α → Option ℤ} {slots : ι → Option α} {held : α → ℤ}

/-- **Exact counts.** With nothing held, the count of an object is the
number of slots that point at it, and the freed objects are those that none
points at. -/
theorem exact (h : Books count slots 0) (a : α) :
    count a = if refs slots a = 0 then none else some (refs slots a : ℤ) := by
  cases hc : count a with
  | none => rw [if_pos (h.freed a hc).1]
  | some n =>
    obtain ⟨hn, hpos⟩ := h.live a n hc
    rw [Pi.zero_apply] at hn
    rw [if_neg (by omega), hn, add_zero]

/-- What a slot points at has not been freed. -/
theorem count_of_slot (h : Books count slots held) {i : ι} {a : α} (hi : slots i = some a) :
    ∃ n, count a = some n := by
  cases hc : count a with
  | some n => exact ⟨n, rfl⟩
  | none => exact absurd hi (refs_eq_zero.mp (h.freed a hc).1 i)

/-- A new object, with the reference to it held. -/
theorem alloc (h : Books count slots held) {a : α} (ha : count a = none) :
    Books (update count a (some 1)) slots (held + Pi.single a 1) := by
  obtain ⟨hrefs, hheld⟩ := h.freed a ha
  refine ⟨fun b n hb => ?_, fun b hb => ?_⟩
  · by_cases hba : b = a
    · subst hba
      rw [update_self, Option.some.injEq] at hb
      simp only [Pi.add_apply, Pi.single_eq_same]
      omega
    · rw [update_of_ne hba] at hb
      simpa [Pi.single_eq_of_ne hba] using h.live b n hb
  · by_cases hba : b = a
    · subst hba
      rw [update_self] at hb
      cases hb
    · rw [update_of_ne hba] at hb
      simpa [Pi.single_eq_of_ne hba] using h.freed b hb

/-- A pointer is stored in a free slot. -/
theorem put [DecidableEq ι] (h : Books count slots held) {i : ι} {a : α} {n : ℤ} (hi : slots i = none)
    (ha : count a = some n) :
    Books count (update slots i (some a)) (held - Pi.single a 1) := by
  have hrefs : ∀ b, refs (update slots i (some a)) b = refs slots b + if a = b then 1 else 0 := by
    intro b
    simpa [hi] using refs_update slots i (some a) b
  refine ⟨fun b m hb => ?_, fun b hb => ?_⟩
  · obtain ⟨hm, hpos⟩ := h.live b m hb
    refine ⟨?_, hpos⟩
    by_cases hba : b = a
    · subst hba
      simp only [hrefs, Pi.sub_apply, Pi.single_eq_same, if_true]
      omega
    · simpa [hrefs, Ne.symm hba, Pi.single_eq_of_ne hba] using hm
  · have hba : b ≠ a := by
      rintro rfl
      rw [ha] at hb
      cases hb
    simpa [hrefs, Ne.symm hba, Pi.single_eq_of_ne hba] using h.freed b hb

/-- A pointer is taken out of its slot, and held. -/
theorem take [DecidableEq ι] (h : Books count slots held) {i : ι} {a : α} (hi : slots i = some a) :
    Books count (update slots i none) (held + Pi.single a 1) := by
  have hrefs : ∀ b, refs (update slots i none) b + (if a = b then 1 else 0) =
      refs slots b := by
    intro b
    simpa [hi] using refs_update slots i none b
  refine ⟨fun b m hb => ?_, fun b hb => ?_⟩
  · obtain ⟨hm, hpos⟩ := h.live b m hb
    refine ⟨?_, hpos⟩
    have := hrefs b
    by_cases hba : b = a
    · subst hba
      rw [if_pos rfl] at this
      simp only [Pi.add_apply, Pi.single_eq_same]
      omega
    · rw [if_neg (Ne.symm hba)] at this
      simp only [Pi.add_apply, Pi.single_eq_of_ne hba]
      omega
  · have hba : b ≠ a := by
      rintro rfl
      exact refs_eq_zero.mp (h.freed b hb).1 i hi
    have := hrefs b
    rw [if_neg (Ne.symm hba), add_zero] at this
    simpa [this, Pi.single_eq_of_ne hba] using h.freed b hb

/-- The count goes up by one. -/
theorem acquire (h : Books count slots held) {a : α} {n : ℤ} (ha : count a = some n) :
    Books (update count a (some (n + 1))) slots (held + Pi.single a 1) := by
  obtain ⟨hn, hpos⟩ := h.live a n ha
  refine ⟨fun b m hb => ?_, fun b hb => ?_⟩
  · by_cases hba : b = a
    · subst hba
      rw [update_self, Option.some.injEq] at hb
      simp only [Pi.add_apply, Pi.single_eq_same]
      omega
    · rw [update_of_ne hba] at hb
      simpa [Pi.single_eq_of_ne hba] using h.live b m hb
  · by_cases hba : b = a
    · subst hba
      rw [update_self] at hb
      cases hb
    · rw [update_of_ne hba] at hb
      simpa [Pi.single_eq_of_ne hba] using h.freed b hb

/-- **A held reference is given back**: the count goes down by one, and the
object is freed with its last reference. -/
theorem release {a : α} (h : Books count slots (held + Pi.single a 1)) (hheld : 0 ≤ held a) {n : ℤ}
    (ha : count a = some n) :
    Books (update count a (if 1 < n then some (n - 1) else none)) slots held := by
  obtain ⟨hn, hpos⟩ := h.live a n ha
  rw [Pi.add_apply, Pi.single_eq_same] at hn
  have hother : ∀ b, b ≠ a → (held + Pi.single a 1 : α → ℤ) b = held b := by
    intro b hb
    rw [Pi.add_apply, Pi.single_eq_of_ne hb, add_zero]
  refine ⟨fun b m hb => ?_, fun b hb => ?_⟩
  · by_cases hba : b = a
    · subst hba
      rw [update_self] at hb
      split_ifs at hb with h1
      rw [Option.some.injEq] at hb
      omega
    · rw [update_of_ne hba] at hb
      simpa only [hother b hba] using h.live b m hb
  by_cases hba : b = a
  · subst hba
    rw [update_self] at hb
    split_ifs at hb with h1
    omega
  · rw [update_of_ne hba] at hb
    simpa only [hother b hba] using h.freed b hb

/-- **A row is copied** into a free one: its references are still to be
counted. -/
theorem copyRow [DecidableEq κ] {slots : κ × ι → Option α} (h : Books count slots held) {k : κ}
    (hfree : ∀ i, slots (k, i) = none) (j : κ) :
    Books count (setRow slots k fun i => slots (j, i))
      (held - fun a => (refs (fun i => slots (j, i)) a : ℤ)) := by
  refine ⟨fun b m hb => ?_, fun b hb => ?_⟩
  · obtain ⟨hm, hpos⟩ := h.live b m hb
    refine ⟨?_, hpos⟩
    rw [refs_setRow hfree, Pi.sub_apply]
    omega
  · obtain ⟨hrefs, hheld⟩ := h.freed b hb
    have hrow : refs (fun i => slots (j, i)) b = 0 :=
      refs_eq_zero.mpr fun i => refs_eq_zero.mp hrefs (j, i)
    rw [refs_setRow hfree, Pi.sub_apply, hrow]
    omega

end Books

end Lnxrm
