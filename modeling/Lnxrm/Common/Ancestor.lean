import Mathlib.Data.Nat.Notation
import Mathlib.Logic.Relation

/-!
# Trees with parent links

A rooted tree is given by its child relation. Where every node but the
root holds a link to its parent, `RootedTree`, a node has one level
(`level_unique`), and whoever walks up the links from a node passes all
nodes it lies below (`exists_parent`), each on a level less than the one
before.
-/

namespace Lnxrm

open Relation (ReflTransGen)

variable {α : Type} {root : α} {child : α → α → Prop} {up : α → α} {p c d : α} {k k' : ℕ}

/-- Every child is linked to its parent, and the root is no child. -/
structure RootedTree (root : α) (child : α → α → Prop) (up : α → α) : Prop where
  up_eq : ∀ {p c}, child p c → up c = p
  top : ∀ {p}, ¬ child p root

/-- How far below the root a node lies. -/
inductive Level (root : α) (child : α → α → Prop) : α → ℕ → Prop
  | root : Level root child root 0
  | child {p c : α} {k : ℕ} : Level root child p k → child p c → Level root child c (k + 1)

/-- A node has one level. -/
theorem RootedTree.level_unique (ht : RootedTree root child up) (h : Level root child c k) :
    ∀ {k'}, Level root child c k' → k = k' := by
  induction h with
  | root =>
    intro k' h'
    cases h' with
    | root => rfl
    | child _ hc => exact absurd hc ht.top
  | child _ hc ih =>
    intro k' h'
    cases h' with
    | root => exact absurd hc ht.top
    | child hp' hc' =>
      obtain rfl := (ht.up_eq hc).symm.trans (ht.up_eq hc')
      rw [ih hp']

/-- **One step up**: a node that lies below another one has a parent that
does, one level up. -/
theorem RootedTree.exists_parent (ht : RootedTree root child up) (h : Level root child c k)
    (hbelow : ReflTransGen child d c) (hne : c ≠ d) :
    ∃ p j, child p c ∧ up c = p ∧ p ≠ c ∧ ReflTransGen child d p ∧ Level root child p j ∧
      k = j + 1 := by
  rcases hbelow.cases_tail with heq | ⟨p, hdp, hpc⟩
  · exact absurd heq hne
  cases h with
  | root => exact absurd hpc ht.top
  | @child p' _ j hp' hc' =>
    obtain rfl := (ht.up_eq hpc).symm.trans (ht.up_eq hc')
    refine ⟨p, j, hpc, ht.up_eq hpc, ?_, hdp, hp', rfl⟩
    rintro rfl
    have hlevel := ht.level_unique hp' (.child hp' hc')
    omega

end Lnxrm
