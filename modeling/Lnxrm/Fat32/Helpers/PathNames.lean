import Lnxrm.Fat32.Model.Name
import Mathlib.Data.List.TakeWhile

/-!
# FAT32 — the parts of a path

Proof layer. A path is its components and slashes: slashes in front and
behind do not matter to the components (`pathComponents_append_slashes`,
`pathComponents_dropWhile`), the last component is what follows the last
slash (`pathComponents_eq`), and together the components are the bytes that
are no slashes (`flatten_pathComponents`), so that a path cut short has the
same components only if nothing but slashes was cut off.
-/

namespace Lnxrm.Fat32

open List

variable {p q r : Str}

/-- Nothing but slashes. -/
def Slashes (p : Str) : Prop := ∀ b ∈ p, b = 47

instance (p : Str) : Decidable (Slashes p) := inferInstanceAs (Decidable (∀ b ∈ p, b = 47))

theorem slashes_nil : Slashes [] := forall_mem_nil _

theorem slashes_cons {b : UInt8} : Slashes (b :: p) ↔ b = 47 ∧ Slashes p := forall_mem_cons

theorem slashes_of_filter (h : p.filter (· != 47) = []) : Slashes p :=
  fun b hb => by simpa using filter_eq_nil_iff.mp h b hb

/-! ## Components -/

@[simp]
theorem pathComponents_nil : pathComponents [] = [] := rfl

theorem pathComponents_append (p q : Str) :
    pathComponents (p ++ 47 :: q) = pathComponents p ++ pathComponents q := by
  unfold pathComponents splitOn
  rw [splitOnP_append_cons p q (by simp), filter_append]

@[simp]
theorem pathComponents_cons_slash (p : Str) : pathComponents (47 :: p) = pathComponents p :=
  pathComponents_append [] p

theorem pathComponents_slashes (h : Slashes p) : pathComponents p = [] := by
  induction p with
  | nil => rfl
  | cons b p ih =>
    rw [slashes_cons] at h
    rw [h.1, pathComponents_cons_slash, ih h.2]

theorem pathComponents_append_slashes (h : Slashes r) :
    pathComponents (p ++ r) = pathComponents p := by
  cases r with
  | nil => rw [append_nil]
  | cons b r =>
    rw [slashes_cons] at h
    rw [h.1, pathComponents_append, pathComponents_slashes h.2, append_nil]

theorem pathComponents_dropWhile (p : Str) :
    pathComponents (p.dropWhile (· == 47)) = pathComponents p := by
  induction p with
  | nil => rfl
  | cons b p ih =>
    by_cases hb : b = 47
    · rw [hb, dropWhile_cons_of_pos (by simp), pathComponents_cons_slash, ih]
    · rw [dropWhile_cons_of_neg (by simpa using hb)]

theorem pathComponents_of_not_mem (h : (47 : UInt8) ∉ p) :
    pathComponents p = if p = [] then [] else [p] := by
  unfold pathComponents splitOn
  rw [splitOnP_eq_singleton fun b hb => beq_false_of_ne (ne_of_mem_of_not_mem hb h)]
  by_cases hp : p = [] <;> simp [hp]

/-- **The components are the bytes that are no slashes.** -/
theorem flatten_pathComponents (p : Str) : (pathComponents p).flatten = p.filter (· != 47) := by
  unfold pathComponents splitOn
  rw [flatten_filter_ne_nil]
  induction p with
  | nil => rfl
  | cons b p ih =>
    rw [splitOnP_cons_eq_if_modifyHead]
    by_cases hb : b = 47
    · rw [if_pos (by simp [hb]), flatten_cons, nil_append, ih,
        filter_cons_of_neg (by simp [hb])]
    · rw [if_neg (by simp [hb]), filter_cons_of_pos (by simp [hb]), ← ih]
      cases hs : p.splitOnP (· == 47) with
      | nil => exact absurd hs (splitOnP_ne_nil _ p)
      | cons a l => simp

theorem pathComponents_ne_nil {c : Str} (h : c ∈ pathComponents p) : c ≠ [] := by
  have := (mem_filter.mp h).2
  simpa using this

theorem mem_of_mem_pathComponents {c : Str} {b : UInt8} (h : c ∈ pathComponents p) (hb : b ∈ c) :
    b ∈ p := by
  have hmem : b ∈ (pathComponents p).flatten := mem_flatten.mpr ⟨c, h, hb⟩
  rw [flatten_pathComponents] at hmem
  exact mem_of_mem_filter hmem

theorem pathComponents_eq_nil_iff : pathComponents p = [] ↔ Slashes p := by
  constructor
  · intro h
    apply slashes_of_filter
    rw [← flatten_pathComponents, h, flatten_nil]
  · exact pathComponents_slashes

/-! ## The last component -/

theorem not_mem_pathTail (p : Str) : (47 : UInt8) ∉ pathTail p := by
  unfold pathTail
  rw [mem_reverse]
  intro h
  have := mem_takeWhile_imp h
  simp at this

theorem bne_slash (h : (47 : UInt8) ∉ p) : ∀ b ∈ p.reverse, (b != 47) = true :=
  fun _ hb => bne_iff_ne.mpr (ne_of_mem_of_not_mem (mem_reverse.mp hb) h)

theorem pathTail_of_not_mem (h : (47 : UInt8) ∉ p) : pathTail p = p := by
  rw [pathTail, takeWhile_eq_self_iff.mpr (bne_slash h), reverse_reverse]

theorem pathTail_append (h : (47 : UInt8) ∉ q) : pathTail (p ++ 47 :: q) = q := by
  have hrev : (p ++ 47 :: q).reverse = q.reverse ++ 47 :: p.reverse := by simp
  rw [pathTail, hrev, takeWhile_append_of_pos (bne_slash h), takeWhile_cons_of_neg (by simp),
    append_nil, reverse_reverse]

theorem pathParent_append (h : (47 : UInt8) ∉ q) : pathParent (p ++ 47 :: q) = p := by
  unfold pathParent
  rw [pathTail_append h, length_append, length_cons,
    show p.length + (q.length + 1) - q.length - 1 = p.length by omega, take_left']
  rfl

theorem pathParent_of_not_mem (h : (47 : UInt8) ∉ p) : pathParent p = [] := by
  unfold pathParent
  rw [pathTail_of_not_mem h, Nat.sub_self, Nat.zero_sub, take_zero]

/-- **A path is its parent, a slash and its last component**, or it has no
slash. -/
theorem path_cases (p : Str) : (47 : UInt8) ∉ p ∨ p = pathParent p ++ 47 :: pathTail p := by
  by_cases h : (47 : UInt8) ∈ p
  · right
    obtain ⟨b, a, hrev, hb⟩ := eq_append_cons_of_mem (mem_reverse.mpr h)
    have hp : p = a.reverse ++ 47 :: b.reverse := by
      rw [← p.reverse_reverse, hrev]
      simp
    rw [← mem_reverse] at hb
    rw [hp, pathTail_append hb, pathParent_append hb]
  · exact Or.inl h

/-- **The components of a path** are those of its parent and the last
one. -/
theorem pathComponents_eq (p : Str) :
    pathComponents p = pathComponents (pathParent p) ++ if pathTail p = [] then [] else [pathTail p] := by
  rcases path_cases p with h | h
  · rw [pathParent_of_not_mem h, pathTail_of_not_mem h, pathComponents_of_not_mem h,
      pathComponents_nil, nil_append]
  · conv_lhs => rw [h]
    rw [pathComponents_append, pathComponents_of_not_mem (not_mem_pathTail p)]

theorem pathTail_eq_nil_iff : pathTail p = [] ↔ p = [] ∨ trailingSlash p = true := by
  unfold trailingSlash pathTail
  rcases eq_nil_or_concat' p with rfl | ⟨q, b, rfl⟩
  · simp
  · by_cases hb : b = 47 <;> simp [hb]

/-! ## Slashes in front and behind -/

/-- A path without the slashes in front does not start with one. -/
theorem head?_dropWhile_slashes (p : Str) : (p.dropWhile (· == 47)).head? ≠ some 47 := by
  intro h
  have := head?_dropWhile_not (· == (47 : UInt8)) p
  rw [h] at this
  cases this

theorem dropWhile_eq_nil_iff : p.dropWhile (· == 47) = [] ↔ Slashes p := by
  rw [List.dropWhile_eq_nil_iff]
  exact forall₂_congr fun b _ => by simp

theorem dropWhile_append (h : ¬ Slashes p) :
    (p ++ r).dropWhile (· == 47) = p.dropWhile (· == 47) ++ r := by
  rw [List.dropWhile_append, if_neg (by rwa [List.isEmpty_iff, dropWhile_eq_nil_iff])]

theorem pathTrim_of_slashes (h : Slashes p) : pathTrim p = p.take 1 := by
  rw [pathTrim, dropWhile_eq_nil_iff.mpr fun b hb => h b (mem_reverse.mp hb)]
  exact if_pos rfl

theorem pathTrim_of_not_slashes (h : ¬ Slashes p) :
    pathTrim p = (p.reverse.dropWhile (· == 47)).reverse := by
  refine if_neg fun hnil => h fun b hb => ?_
  rw [reverse_eq_nil_iff, dropWhile_eq_nil_iff] at hnil
  exact hnil b (mem_reverse.mpr hb)

/-- **What `path_trim` leaves** ends in no slash, unless there is nothing
else. -/
theorem trailingSlash_pathTrim_of_not (h : ¬ Slashes p) : trailingSlash (pathTrim p) = false := by
  have := head?_dropWhile_slashes p.reverse
  rw [pathTrim_of_not_slashes h]
  simpa [trailingSlash] using this

/-- **`path_trim` cuts off slashes.** -/
theorem pathTrim_prefix (p : Str) : ∃ r, p = pathTrim p ++ r ∧ Slashes r := by
  by_cases h : Slashes p
  · refine ⟨p.drop 1, ?_, fun b hb => h b (mem_of_mem_drop hb)⟩
    rw [pathTrim_of_slashes h, take_append_drop]
  · refine ⟨(p.reverse.takeWhile (· == 47)).reverse, ?_, fun b hb => ?_⟩
    · rw [pathTrim_of_not_slashes h, ← reverse_append, takeWhile_append_dropWhile, reverse_reverse]
    · simpa using mem_takeWhile_imp (mem_reverse.mp hb)

theorem pathComponents_pathTrim (p : Str) : pathComponents (pathTrim p) = pathComponents p := by
  obtain ⟨r, hp, hr⟩ := pathTrim_prefix p
  conv_rhs => rw [hp]
  rw [pathComponents_append_slashes hr]

theorem pathTrim_append (h : ¬ Slashes p) (hr : Slashes r) : pathTrim (p ++ r) = pathTrim p := by
  have hr' : r.reverse.dropWhile (· == 47) = [] :=
    dropWhile_eq_nil_iff.mpr fun b hb => hr b (mem_reverse.mp hb)
  have happ : ¬ Slashes (p ++ r) := fun hs => h (forall_mem_append.mp hs).1
  rw [pathTrim_of_not_slashes h, pathTrim_of_not_slashes happ, reverse_append,
    List.dropWhile_append, hr']
  rfl

/-! ## Bytes -/

theorem mem_of_mem_pathTail {b : UInt8} (h : b ∈ pathTail p) : b ∈ p := by
  unfold pathTail at h
  rw [mem_reverse] at h
  simpa using (takeWhile_sublist _).subset h

theorem mem_of_mem_pathTrim {b : UInt8} (h : b ∈ pathTrim p) : b ∈ p := by
  obtain ⟨r, heq, -⟩ := pathTrim_prefix p
  rw [heq]
  exact mem_append_left _ h

end Lnxrm.Fat32
