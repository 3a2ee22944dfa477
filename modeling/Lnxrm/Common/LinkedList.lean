import Mathlib.Data.List.Nodup

/-!
# Intrusive singly linked lists

A list whose links lie in a store: `next a` is what the link field of the
node `a` holds, and `Linked next h l` says that from the head `h` the
links run through the nodes of `l` and end in `0`. `findCell` is the
usual search for the cell that points at a node — the head cell or some
node's link field — and storing that node's own link in the cell it
finds takes the node out of the list (`findCell_linked`).
-/

namespace Lnxrm

open Function

variable {next next' : ℕ → ℕ} {h b : ℕ} {l : List ℕ}

/-- The links from the head `h` run through the nodes `l`. -/
def Linked (next : ℕ → ℕ) : ℕ → List ℕ → Prop
  | h, [] => h = 0
  | h, a :: l => h = a ∧ Linked next (next a) l

/-- Only the link fields of the nodes matter. -/
theorem Linked.congr (hl : Linked next h l) (hn : ∀ a ∈ l, next' a = next a) :
    Linked next' h l := by
  induction l generalizing h with
  | nil => exact hl
  | cons a l ih =>
    refine ⟨hl.1, ?_⟩
    rw [hn a (by simp)]
    exact ih hl.2 fun x hx => hn x (by simp [hx])

/-- A node in front: its link is the old head. -/
theorem Linked.cons {a : ℕ} (hl : Linked next h l) (ha : next' a = h)
    (hn : ∀ x ∈ l, next' x = next x) : Linked next' a (a :: l) :=
  ⟨rfl, ha ▸ hl.congr hn⟩

/-- The search for the cell whose value is `b`, from the cell `c` with
value `v`; `none` is the head cell, `some a` the link field of `a`. At
most `n` cells are tried. -/
def findCell (next : ℕ → ℕ) (b : ℕ) : ℕ → Option ℕ → ℕ → Option (Option ℕ)
  | 0, _, _ => none
  | n + 1, c, v => if v = b then some c else findCell next b n (some v) (next v)

/-- **The search finds the node's cell**, and redirecting that cell past
the node leaves the rest of the list linked: either the cell is the one
the search started from, or it is the link field of another node. -/
theorem findCell_linked (hl : Linked next h l) (hd : l.Nodup) (hb : b ∈ l) {n : ℕ}
    (hn : l.length ≤ n) (c : Option ℕ) :
    (findCell next b n c h = some c ∧ Linked next (next b) (l.erase b)) ∨
      ∃ a ∈ l, a ≠ b ∧ findCell next b n c h = some (some a) ∧
        Linked (update next a (next b)) h (l.erase b) := by
  induction l generalizing h n c with
  | nil => simp at hb
  | cons x l ih =>
    obtain ⟨rfl, hl⟩ := hl
    obtain ⟨hx, hd⟩ := List.nodup_cons.mp hd
    obtain ⟨n, rfl⟩ : ∃ m, n = m + 1 := ⟨n - 1, by simp at hn; omega⟩
    rw [findCell]
    by_cases hxb : h = b
    · subst hxb
      left
      rw [if_pos rfl, List.erase_cons_head]
      exact ⟨rfl, hl⟩
    right
    have hbl : b ∈ l := by simpa [Ne.symm hxb] using hb
    rw [if_neg hxb, List.erase_cons_tail (by simpa using hxb)]
    have hnot : ∀ y ∈ l.erase b, y ≠ h := fun y hy e => hx (e ▸ List.mem_of_mem_erase hy)
    rcases ih hl hd hbl (by simpa using hn) (some h) with ⟨hf, hl'⟩ | ⟨a, ha, hab, hf, hl'⟩
    · -- the cell is the link field of `h` itself
      refine ⟨h, by simp, hxb, hf, rfl, ?_⟩
      rw [update_self]
      exact hl'.congr fun y hy => update_of_ne (hnot y hy) _ _
    · have hah : h ≠ a := fun e => hx (e ▸ ha)
      refine ⟨a, by simp [ha], hab, hf, rfl, ?_⟩
      rw [update_of_ne hah]
      exact hl'

end Lnxrm
