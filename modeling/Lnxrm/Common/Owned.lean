import Mathlib.Data.List.Nodup

/-!
# Several lists, and the one an item is on

A family of lists in which an item is on at most one, once, and knows
which: `owner t` is the index of that list. Items are put in front of a
list and taken out of theirs.
-/

namespace Lnxrm

open Function

variable {ι α : Type*} [DecidableEq α] {list : ι → List α} {owner : α → Option ι}
  {t : α} {c : ι}

/-- An item is on the list of its owner, and only once. -/
structure Owned (list : ι → List α) (owner : α → Option ι) : Prop where
  link : ∀ c t, t ∈ list c ↔ owner t = some c
  nodup : ∀ c, (list c).Nodup

namespace Owned

theorem push [DecidableEq ι] (h : Owned list owner) (ht : owner t = none) (c : ι) :
    Owned (update list c (t :: list c)) (update owner t (some c)) := by
  have hnot : ∀ d, t ∉ list d := fun d hd => by
    rw [h.link d t, ht] at hd
    cases hd
  refine ⟨fun d x => ?_, fun d => ?_⟩
  · have := h.link d x
    grind
  · simp only [update_apply]
    split
    · exact List.nodup_cons.mpr ⟨hnot c, h.nodup c⟩
    · exact h.nodup d

theorem erase (h : Owned list owner) (t : α) :
    Owned (fun c => (list c).erase t) (update owner t none) := by
  refine ⟨fun d x => ?_, fun d => (h.nodup d).erase t⟩
  rw [(h.nodup d).mem_erase_iff, h.link d x, update_apply]
  split <;> simp_all

/-- Only its own list changes. -/
theorem erase_eq [DecidableEq ι] (h : Owned list owner) (ht : owner t = some c) :
    update list c ((list c).erase t) = fun d => (list d).erase t := by
  funext d
  by_cases hd : d = c
  · rw [hd, update_self]
  · have hnot : t ∉ list d := fun hm => hd (Option.some.inj (((h.link d t).mp hm).symm.trans ht))
    rw [update_of_ne hd, List.erase_of_not_mem hnot]

end Owned

end Lnxrm
