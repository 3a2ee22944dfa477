import Mathlib.Data.List.Nodup
import Mathlib.Data.List.Perm.Subperm
import Mathlib.Logic.Function.Iterate

/-!
# Walks along a successor function

`Walk next stop c l`: going from `c` along `next`, the nodes before the
first one that stops are `l`. The walk is determined by its start
(`Walk.unique`), so it never meets a node twice (`Walk.nodup`); it depends
on `next` only at its own nodes (`Walk.congr`), and redirecting its last
node prolongs it (`Walk.append`). `walkFrom` computes it, given enough
steps. A walk that has no end comes back to where it was, and meets
nothing new from then on (`walkFrom_subset_of_not_nodup`).
-/

namespace Lnxrm

open List

variable {α : Type*} {next next' : α → α} {stop stop' : α → Prop} {c x : α} {l l' : List α}

/-- The nodes from `c` to the first that stops. -/
def Walk (next : α → α) (stop : α → Prop) : α → List α → Prop
  | c, [] => stop c
  | c, x :: l => x = c ∧ ¬ stop c ∧ Walk next stop (next c) l

instance decidableWalk [DecidableEq α] [DecidablePred stop] :
    (c : α) → (l : List α) → Decidable (Walk next stop c l)
  | c, [] => inferInstanceAs (Decidable (stop c))
  | c, x :: l =>
    have := decidableWalk (next c) l
    inferInstanceAs (Decidable (x = c ∧ ¬ stop c ∧ Walk next stop (next c) l))

namespace Walk

theorem nil_iff : Walk next stop c [] ↔ stop c := Iff.rfl

/-- **A walk is determined by its start.** -/
theorem unique (h : Walk next stop c l) (h' : Walk next stop c l') : l = l' := by
  induction l generalizing c l' with
  | nil =>
    cases l' with
    | nil => rfl
    | cons y l' => exact absurd h h'.2.1
  | cons x l ih =>
    cases l' with
    | nil => exact absurd h' h.2.1
    | cons y l' => rw [h.1, h'.1, ih h.2.2 h'.2.2]

theorem eq_nil_of_stop (h : Walk next stop c l) (hc : stop c) : l = [] :=
  h.unique (nil_iff.mpr hc)

theorem not_stop_of_mem (h : Walk next stop c l) (hx : x ∈ l) : ¬ stop x := by
  induction l generalizing c with
  | nil => simp at hx
  | cons y l ih =>
    rcases mem_cons.mp hx with rfl | hx
    · exact h.1 ▸ h.2.1
    · exact ih h.2.2 hx

/-- The walk from a node of a walk is the rest of it. -/
theorem suffix (h : Walk next stop c (l ++ x :: l')) : Walk next stop x (x :: l') := by
  induction l generalizing c with
  | nil => exact h.1 ▸ ⟨rfl, h.1 ▸ h.2⟩
  | cons y l ih => exact ih h.2.2

/-- Each node but the last is followed by its successor. -/
theorem next_eq {y : α} (h : Walk next stop c (l ++ x :: y :: l')) : next x = y :=
  (suffix h).2.2.1.symm

/-- The successor of the last node stops. -/
theorem stop_last (h : Walk next stop c (l ++ [x])) : stop (next x) :=
  (suffix h).2.2

/-- **A walk meets no node twice**: the walk from a node would be two
different rests. -/
theorem nodup (h : Walk next stop c l) : l.Nodup := by
  induction l generalizing c with
  | nil => exact nodup_nil
  | cons x l ih =>
    refine nodup_cons.mpr ⟨fun hx => ?_, ih h.2.2⟩
    obtain ⟨l₁, l₂, rfl⟩ := append_of_mem hx
    obtain rfl := h.1
    have heq := congrArg length (unique h (suffix h.2.2))
    simp only [length_cons, length_append] at heq
    omega

/-- A walk depends on `next` at its own nodes only. -/
theorem congr (h : Walk next stop c l) (hn : ∀ y ∈ l, next' y = next y) : Walk next' stop c l := by
  induction l generalizing c with
  | nil => exact h
  | cons x l ih =>
    refine ⟨h.1, h.2.1, ?_⟩
    rw [← h.1, hn x mem_cons_self, h.1]
    exact ih h.2.2 fun y hy => hn y (mem_cons_of_mem _ hy)

/-- A walk may be stopped by more, as long as none of its nodes is. -/
theorem mono (h : Walk next stop c l) (himp : ∀ y, stop y → stop' y) (hl : ∀ y ∈ l, ¬ stop' y) :
    Walk next stop' c l := by
  induction l generalizing c with
  | nil => exact himp c h
  | cons x l ih =>
    exact ⟨h.1, h.1 ▸ hl x mem_cons_self, ih h.2.2 fun y hy => hl y (mem_cons_of_mem _ hy)⟩

/-- Two walks that are each other's continuation. -/
theorem append (h : Walk next stop c (l ++ [x])) (h' : Walk next' stop' (next' x) l')
    (hn : ∀ y ∈ l, next' y = next y) (himp : ∀ y ∈ l ++ [x], ¬ stop' y) :
    Walk next' stop' c (l ++ x :: l') := by
  induction l generalizing c with
  | nil =>
    obtain ⟨rfl, -, -⟩ := h
    exact ⟨rfl, himp x (by simp), h'⟩
  | cons y l ih =>
    refine ⟨h.1, h.1 ▸ himp y (by simp), ?_⟩
    rw [← h.1, hn y mem_cons_self, h.1]
    exact ih h.2.2 (fun z hz => hn z (mem_cons_of_mem _ hz))
      fun z hz => himp z (mem_cons_of_mem _ hz)

end Walk

/-- The nodes met in at most `n` steps. -/
def walkFrom (next : α → α) (stop : α → Prop) [DecidablePred stop] : ℕ → α → List α
  | 0, _ => []
  | n + 1, c => if stop c then [] else c :: walkFrom next stop n (next c)

theorem Walk.walkFrom_eq [DecidablePred stop] (h : Walk next stop c l) {n : ℕ}
    (hn : l.length ≤ n) : walkFrom next stop n c = l := by
  induction n generalizing c l with
  | zero => exact (length_eq_zero_iff.mp (Nat.le_zero.mp hn)).symm
  | succ n ih =>
    cases l with
    | nil => exact if_pos h
    | cons x l =>
      obtain ⟨rfl, hns, hrest⟩ := h
      rw [walkFrom, if_neg hns, ih hrest (Nat.le_of_succ_le_succ hn)]

/-- The nodes met are the first iterates; it is fewer than `n` only if the
next one stops. -/
theorem walkFrom_eq_map_range (next : α → α) (stop : α → Prop) [DecidablePred stop] (n : ℕ) (c : α) :
    ∃ k ≤ n, walkFrom next stop n c = (List.range k).map (fun i => next^[i] c) ∧
      (k < n → stop (next^[k] c)) := by
  induction n generalizing c with
  | zero => exact ⟨0, Nat.le_refl _, rfl, fun h => absurd h (Nat.lt_irrefl _)⟩
  | succ n ih =>
    by_cases hc : stop c
    · exact ⟨0, Nat.zero_le _, if_pos hc, fun _ => hc⟩
    · obtain ⟨k, hk, heq, hstop⟩ := ih (next c)
      refine ⟨k + 1, by omega, ?_, fun h => hstop (by omega)⟩
      rw [walkFrom, if_neg hc, heq, range_succ_eq_map, map_cons, map_map]
      rfl

theorem length_walkFrom_le (next : α → α) (stop : α → Prop) [DecidablePred stop] (n : ℕ) (c : α) :
    (walkFrom next stop n c).length ≤ n := by
  obtain ⟨k, hk, heq, -⟩ := walkFrom_eq_map_range next stop n c
  simpa [heq] using hk

theorem not_stop_of_mem_walkFrom [DecidablePred stop] {n : ℕ} (h : x ∈ walkFrom next stop n c) :
    ¬ stop x := by
  induction n generalizing c with
  | zero => exact absurd h not_mem_nil
  | succ n ih =>
    by_cases hc : stop c
    · rw [walkFrom, if_pos hc] at h
      exact absurd h not_mem_nil
    · rw [walkFrom, if_neg hc] at h
      rcases mem_cons.mp h with rfl | h
      · exact hc
      · exact ih h

/-- **A walk that did not use up its steps** has come to its end. -/
theorem walk_walkFrom [DecidablePred stop] {n : ℕ} (h : (walkFrom next stop n c).length < n) :
    Walk next stop c (walkFrom next stop n c) := by
  induction n generalizing c with
  | zero => exact absurd h (Nat.not_lt_zero _)
  | succ n ih =>
    by_cases hc : stop c
    · rw [walkFrom, if_pos hc]
      exact hc
    · rw [walkFrom, if_neg hc] at h ⊢
      exact ⟨rfl, hc, ih (by simpa using h)⟩

/-- More steps meet the same nodes first. -/
theorem walkFrom_add (next : α → α) (stop : α → Prop) [DecidablePred stop] (n j : ℕ) (c : α) :
    ∃ l, walkFrom next stop (n + j) c = walkFrom next stop n c ++ l := by
  induction n generalizing c with
  | zero => exact ⟨_, rfl⟩
  | succ n ih =>
    rw [Nat.succ_add, walkFrom, walkFrom]
    by_cases hc : stop c
    · rw [if_pos hc, if_pos hc]
      exact ⟨[], rfl⟩
    · obtain ⟨l, hl⟩ := ih (next c)
      rw [if_neg hc, if_neg hc, hl]
      exact ⟨l, rfl⟩

/-- **Around a circle nothing new is met**: once a walk has met a node
twice, more steps lead to the same nodes. -/
theorem walkFrom_subset_of_not_nodup [DecidablePred stop] {n : ℕ}
    (h : ¬ (walkFrom next stop n c).Nodup) (j : ℕ) :
    walkFrom next stop j c ⊆ walkFrom next stop n c := by
  obtain ⟨k, -, heq, -⟩ := walkFrom_eq_map_range next stop n c
  obtain ⟨k', -, heq', -⟩ := walkFrom_eq_map_range next stop j c
  -- two of the iterates agree, so every later one is an earlier one again
  obtain ⟨a, b, hab, hb, hsame⟩ : ∃ a b, a < b ∧ b < k ∧ next^[a] c = next^[b] c := by
    by_contra hno
    refine h ?_
    rw [heq]
    refine Nodup.map_on (fun a ha b hb hab => ?_) nodup_range
    rw [mem_range] at ha hb
    rcases Nat.lt_trichotomy a b with hlt | rfl | hlt
    · exact absurd ⟨a, b, hlt, hb, hab⟩ hno
    · rfl
    · exact absurd ⟨b, a, hlt, ha, hab.symm⟩ hno
  have hback : ∀ i, ∃ i' < b, next^[i] c = next^[i'] c := by
    intro i
    induction i using Nat.strongRecOn with
    | _ i ih =>
      by_cases hi : i < b
      · exact ⟨i, hi, rfl⟩
      · obtain ⟨i', hi', heq'⟩ := ih (i - b + a) (by omega)
        refine ⟨i', hi', ?_⟩
        rw [← heq', Function.iterate_add_apply, hsame, ← Function.iterate_add_apply]
        congr 2
        omega
  rw [heq, heq']
  intro x hx
  obtain ⟨i, -, rfl⟩ := mem_map.mp hx
  obtain ⟨i', hi', hi⟩ := hback i
  exact mem_map.mpr ⟨i', mem_range.mpr (by omega), hi.symm⟩

/-- A list of distinct numbers below a bound is no longer than it. -/
theorem length_le_of_nodup_lt {l : List ℕ} {n : ℕ} (hnd : l.Nodup) (h : ∀ x ∈ l, x < n) :
    l.length ≤ n := by
  have hsub : l.Subperm (List.range n) :=
    subperm_of_subset hnd fun x hx => mem_range.mpr (h x hx)
  simpa using hsub.length_le

end Lnxrm
