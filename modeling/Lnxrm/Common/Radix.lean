import Mathlib.Algebra.Order.BigOperators.Group.Finset
import Mathlib.Data.Fintype.BigOperators
import Mathlib.Tactic.Abel

/-!
# Radix trees in memory

A node is a cell of memory, an array of words over `ι`; `child` reads from
a word the node it points at, if it points at one. `nodes mem d a` are the
nodes of the tree of depth `d` below `a`, with the times they are met, and
`reach mem a p` is the node at the end of the path `p`.

A tree without repetition changes at one place when one word of it is
written: `nodes` by what hangs there before and after (`nodes_write`), and
`reach` on the paths that run through the word (`reach_write`).
-/

namespace Lnxrm.Radix

open Function Finset

variable {ι W : Type*} (child : W → Option ℕ)

/-- The node at the end of a path. -/
def reach (mem : ℕ → ι → W) (a : ℕ) : List ι → Option ℕ
  | [] => some a
  | i :: p => (child (mem a i)).bind fun b => reach mem b p

/-- One word is written. -/
def write [DecidableEq ι] (mem : ℕ → ι → W) (a : ℕ) (i : ι) (w : W) : ℕ → ι → W :=
  update mem a (update (mem a) i w)

/-- The nodes of the tree of depth `d` below `a`; the cells at depth `0` are
not read. -/
def nodes [Fintype ι] (mem : ℕ → ι → W) : ℕ → ℕ → Multiset ℕ
  | 0, a => {a}
  | d + 1, a => {a} + ∑ i, (match child (mem a i) with
    | none => 0
    | some b => nodes mem d b)

/-- The nodes below a word. -/
def below [Fintype ι] (mem : ℕ → ι → W) (d : ℕ) (w : W) : Multiset ℕ :=
  match child w with
  | none => 0
  | some b => nodes child mem d b

variable {child} {mem mem' : ℕ → ι → W} {a b c : ℕ} {i : ι} {w : W} {d e : ℕ} {p q : List ι}

theorem reach_append : reach child mem a (p ++ q) = (reach child mem a p).bind (reach child mem · q) := by
  induction p generalizing a with
  | nil => rfl
  | cons i p ih =>
    simp only [List.cons_append, reach]
    cases child (mem a i) with
    | none => rfl
    | some b => exact ih

theorem reach_snoc : reach child mem a (p ++ [i]) =
    (reach child mem a p).bind fun b => child (mem b i) := by
  rw [reach_append]
  congr
  funext b
  simp only [reach]
  cases child (mem b i) <;> rfl

theorem write_of_ne [DecidableEq ι] (h : c ≠ b) : write mem b i w c = mem c := update_of_ne h _ _

theorem write_self [DecidableEq ι] : write mem b i w b i = w := by
  unfold write
  rw [update_self, update_self]

theorem write_of_ne_index [DecidableEq ι] {j : ι} (h : j ≠ i) : write mem b i w c j = mem c j := by
  by_cases e : c = b
  · subst e
    unfold write
    rw [update_self, update_of_ne h]
  · rw [write_of_ne e]

section Nodes

variable [Fintype ι]

theorem nodes_zero : nodes child mem 0 a = {a} := rfl

theorem nodes_succ : nodes child mem (d + 1) a = {a} + ∑ i, below child mem d (mem a i) := rfl

theorem below_some (h : child w = some b) : below child mem d w = nodes child mem d b := by
  unfold below
  rw [h]

theorem below_none (h : child w = none) : below child mem d w = 0 := by
  unfold below
  rw [h]

theorem mem_nodes_self : a ∈ nodes child mem d a := by
  cases d with
  | zero => exact Multiset.mem_singleton_self a
  | succ d => exact Multiset.mem_add.mpr (Or.inl (Multiset.mem_singleton_self a))

theorem mem_nodes_succ :
    c ∈ nodes child mem (d + 1) a ↔ c = a ∨ ∃ i, c ∈ below child mem d (mem a i) := by
  rw [nodes_succ, Multiset.mem_add, Multiset.mem_singleton, Multiset.mem_sum]
  simp

theorem mem_below : c ∈ below child mem d w ↔ ∃ b, child w = some b ∧ c ∈ nodes child mem d b := by
  unfold below
  cases child w with
  | none => simp
  | some b => simp

/-- A deeper tree has more nodes. -/
theorem nodes_le_succ : ∀ (d a : ℕ), nodes child mem d a ≤ nodes child mem (d + 1) a
  | 0, a => Multiset.le_add_right _ _
  | d + 1, a => by
    rw [nodes_succ, nodes_succ (d := d + 1)]
    refine Multiset.add_le_add_left (sum_le_sum fun i _ => ?_)
    unfold below
    cases child (mem a i) with
    | none => exact le_rfl
    | some b => exact nodes_le_succ d b

theorem nodes_mono (h : d ≤ e) : nodes child mem d a ≤ nodes child mem e a := by
  induction h with
  | refl => exact le_rfl
  | step _ ih => exact ih.trans (nodes_le_succ _ a)

/-- **Frame.** Only the nodes above the last level are read. -/
theorem nodes_congr : ∀ {d a : ℕ}, (∀ c ∈ nodes child mem d a, mem' c = mem c) →
    nodes child mem' (d + 1) a = nodes child mem (d + 1) a
  | 0, a, h => by
    have ha : mem' a = mem a := h a mem_nodes_self
    simp only [nodes_succ, ha]
    rfl
  | d + 1, a, h => by
    have ha : mem' a = mem a := h a mem_nodes_self
    rw [nodes_succ (d := d + 1), nodes_succ (d := d + 1), ha]
    congr 1
    refine sum_congr rfl fun i _ => ?_
    unfold below
    cases hc : child (mem a i) with
    | none => rfl
    | some b =>
      refine nodes_congr fun c hcb => h c ?_
      exact mem_nodes_succ.mpr (Or.inr ⟨i, mem_below.mpr ⟨b, hc, hcb⟩⟩)

theorem nodes_congr_of (h : ∀ c ∈ nodes child mem d a, mem' c = mem c) :
    nodes child mem' d a = nodes child mem d a := by
  cases d with
  | zero => rfl
  | succ d => exact nodes_congr fun c hc => h c (Multiset.mem_of_le (nodes_le_succ d a) hc)

theorem below_congr {x : W} (h : ∀ c ∈ below child mem d x, mem' c = mem c) :
    below child mem' (d + 1) x = below child mem (d + 1) x := by
  unfold below at h ⊢
  cases hc : child x with
  | none => rfl
  | some b =>
    rw [hc] at h
    exact nodes_congr h

/-- A cleared node has nothing below it. -/
theorem nodes_of_empty (h : ∀ i, child (mem a i) = none) : nodes child mem d a = {a} := by
  cases d with
  | zero => rfl
  | succ d =>
    rw [nodes_succ, sum_eq_zero fun i _ => below_none (h i), add_zero]

/-- Only the nodes in front of the end of a path are read. -/
theorem reach_congr (h : ∀ c ∈ nodes child mem d a, mem' c = mem c) (hlen : p.length ≤ d + 1) :
    reach child mem' a p = reach child mem a p := by
  induction p generalizing a d with
  | nil => rfl
  | cons i p ih =>
    simp only [reach, h a mem_nodes_self]
    cases hc : child (mem a i) with
    | none => rfl
    | some b =>
      cases d with
      | zero =>
        have hnil : p = [] := List.length_eq_zero_iff.mp (by simpa using hlen)
        rw [hnil]
        rfl
      | succ d =>
        refine ih (fun c hcb => h c ?_) (by simpa using hlen)
        exact mem_nodes_succ.mpr (Or.inr ⟨i, mem_below.mpr ⟨b, hc, hcb⟩⟩)

theorem mem_nodes_of_reach (h : reach child mem a p = some b) (hlen : p.length ≤ d) :
    b ∈ nodes child mem d a := by
  induction p generalizing a d with
  | nil =>
    cases h
    exact mem_nodes_self
  | cons i p ih =>
    cases d with
    | zero => simp at hlen
    | succ d =>
      simp only [reach, Option.bind_eq_some_iff] at h
      obtain ⟨c, hc, hp⟩ := h
      refine mem_nodes_succ.mpr (Or.inr ⟨i, mem_below.mpr ⟨c, hc, ih hp ?_⟩⟩)
      simpa using hlen

theorem exists_reach : ∀ {d a : ℕ}, b ∈ nodes child mem d a →
    ∃ p, reach child mem a p = some b ∧ p.length ≤ d
  | 0, a, h => by
    obtain rfl := Multiset.mem_singleton.mp h
    exact ⟨[], rfl, le_rfl⟩
  | d + 1, a, h => by
    rcases mem_nodes_succ.mp h with rfl | ⟨i, hi⟩
    · exact ⟨[], rfl, Nat.zero_le _⟩
    · obtain ⟨c, hc, hb⟩ := mem_below.mp hi
      obtain ⟨p, hp, hlen⟩ := exists_reach hb
      exact ⟨i :: p, by simp [reach, hc, hp], by simpa using hlen⟩

/-! ## Trees without repetition -/

variable [DecidableEq ι]

/-- In a tree without repetition the root is met once, no two branches
meet, and each branch has no repetition either. -/
theorem nodup_succ (h : (nodes child mem (d + 1) a).Nodup) :
    (∀ i, a ∉ below child mem d (mem a i)) ∧ (∀ i, (below child mem d (mem a i)).Nodup) ∧
      ∀ i j, i ≠ j → ∀ c ∈ below child mem d (mem a i), c ∉ below child mem d (mem a j) := by
  rw [nodes_succ, Multiset.nodup_add] at h
  obtain ⟨-, hsum, hdisj⟩ := h
  have hle : ∀ i, below child mem d (mem a i) ≤ ∑ i, below child mem d (mem a i) := fun i =>
    single_le_sum (f := fun i => below child mem d (mem a i)) (fun _ _ => Multiset.zero_le _)
      (mem_univ i)
  refine ⟨fun i hi => ?_, fun i => Multiset.nodup_of_le (hle i) hsum, fun i j hij c hi hj => ?_⟩
  · exact Multiset.disjoint_left.mp hdisj (Multiset.mem_singleton_self a)
      (Multiset.mem_of_le (hle i) hi)
  have htwo : below child mem d (mem a i) + below child mem d (mem a j) ≤
      ∑ i, below child mem d (mem a i) := by
    rw [← add_sum_erase _ _ (mem_univ i)]
    refine Multiset.add_le_add_left (single_le_sum (f := fun i => below child mem d (mem a i))
      (fun _ _ => Multiset.zero_le _) ?_)
    exact mem_erase.mpr ⟨hij.symm, mem_univ j⟩
  have hnd := Multiset.nodup_of_le htwo hsum
  exact Multiset.disjoint_left.mp (Multiset.nodup_add.mp hnd).2.2 hi hj

/-- In a tree without repetition a node is at the end of one path. -/
theorem reach_inj (h : (nodes child mem d a).Nodup) (hp : reach child mem a p = some b)
    (hq : reach child mem a q = some b) (hpl : p.length ≤ d) (hql : q.length ≤ d) : p = q := by
  induction p generalizing a d q with
  | nil =>
    cases hp
    cases q with
    | nil => rfl
    | cons j q =>
      cases d with
      | zero => simp at hql
      | succ d =>
        simp only [reach, Option.bind_eq_some_iff] at hq
        obtain ⟨c, hc, hq⟩ := hq
        have := mem_nodes_of_reach hq (d := d) (by simpa using hql)
        exact absurd (mem_below.mpr ⟨c, hc, this⟩) ((nodup_succ h).1 j)
  | cons i p ih =>
    cases d with
    | zero => simp at hpl
    | succ d =>
      obtain ⟨hself, hnd, hdisj⟩ := nodup_succ h
      simp only [reach, Option.bind_eq_some_iff] at hp
      obtain ⟨c, hc, hp⟩ := hp
      have hpl' : p.length ≤ d := by simpa using hpl
      have hb := mem_below.mpr ⟨c, hc, mem_nodes_of_reach hp hpl'⟩
      cases q with
      | nil =>
        cases hq
        exact absurd hb (hself i)
      | cons j q =>
        simp only [reach, Option.bind_eq_some_iff] at hq
        obtain ⟨c', hc', hq⟩ := hq
        have hql' : q.length ≤ d := by simpa using hql
        have hij : i = j := by
          by_contra hij
          exact hdisj i j hij b hb (mem_below.mpr ⟨c', hc', mem_nodes_of_reach hq hql'⟩)
        subst hij
        rw [hc] at hc'
        cases hc'
        have hndc := hnd i
        rw [below_some hc] at hndc
        rw [ih hndc hp hq hpl' hql']

/-! ## Writing one word -/

/-- **Writing one word** exchanges what hangs there. -/
theorem nodes_write (h : (nodes child mem (p.length + e) a).Nodup)
    (hp : reach child mem a p = some b) :
    nodes child (write mem b i w) (p.length + e + 1) a + below child mem e (mem b i) =
      nodes child mem (p.length + e + 1) a + below child (write mem b i w) e w := by
  induction p generalizing a with
  | nil =>
    obtain rfl : b = a := (Option.some.inj hp).symm
    simp only [List.length_nil, Nat.zero_add] at h ⊢
    -- the other branches do not contain the root
    have hother : ∀ j ∈ univ.erase i,
        below child (write mem b i w) e (write mem b i w b j) = below child mem e (mem b j) := by
      intro j hj
      rw [write_of_ne_index (ne_of_mem_erase hj)]
      cases e with
      | zero => rfl
      | succ e =>
        refine below_congr fun c hc => write_of_ne ?_
        rintro rfl
        exact (nodup_succ h).1 j hc
    rw [nodes_succ, nodes_succ, ← add_sum_erase _ _ (mem_univ i),
      ← add_sum_erase (univ) (fun j => below child mem e (mem b j)) (mem_univ i),
      sum_congr rfl hother, write_self]
    abel
  | cons j p ih =>
    simp only [reach, Option.bind_eq_some_iff] at hp
    obtain ⟨c, hc, hp⟩ := hp
    have hlen : (j :: p).length + e = (p.length + e) + 1 := by
      simp only [List.length_cons]
      omega
    rw [hlen] at h ⊢
    obtain ⟨hself, hnd, hdisj⟩ := nodup_succ h
    have hb : b ∈ below child mem (p.length + e) (mem a j) :=
      mem_below.mpr ⟨c, hc, mem_nodes_of_reach hp (by omega)⟩
    have hba : a ≠ b := by
      rintro rfl
      exact hself j hb
    have hother : ∀ k ∈ univ.erase j, below child (write mem b i w) (p.length + e + 1) (mem a k) =
        below child mem (p.length + e + 1) (mem a k) := by
      intro k hk
      refine below_congr fun x hx => write_of_ne ?_
      rintro rfl
      exact hdisj k j (ne_of_mem_erase hk) x hx hb
    have hndc := hnd j
    rw [below_some hc] at hndc
    have hih := ih hndc hp
    rw [nodes_succ, nodes_succ, write_of_ne hba, ← add_sum_erase _ _ (mem_univ j),
      ← add_sum_erase (univ)
        (fun k => below child mem (p.length + e + 1) (mem a k)) (mem_univ j),
      sum_congr rfl hother, below_some hc, below_some hc]
    generalize (∑ k ∈ univ.erase j, below child mem (p.length + e + 1) (mem a k)) = rest
    calc {a} + (nodes child (write mem b i w) (p.length + e + 1) c + rest) + below child mem e (mem b i)
        = {a} + rest + (nodes child (write mem b i w) (p.length + e + 1) c +
            below child mem e (mem b i)) := by abel
      _ = {a} + rest + (nodes child mem (p.length + e + 1) c +
            below child (write mem b i w) e w) := by rw [hih]
      _ = _ := by abel

/-- The paths that do not run through the word are as before. -/
theorem reach_write (h : (nodes child mem d a).Nodup) (hp : reach child mem a p = some b)
    (hpl : p.length ≤ d) (hql : q.length ≤ d + 1) (hpq : ¬ (p ++ [i]) <+: q) :
    reach child (write mem b i w) a q = reach child mem a q := by
  induction q using List.reverseRecOn with
  | nil => rfl
  | append_singleton q j ih =>
    have hql' : q.length ≤ d := by simpa using hql
    have hih := ih (by omega) fun hpre => hpq (hpre.trans (List.prefix_append q [j]))
    rw [reach_snoc, reach_snoc, hih]
    cases hq : reach child mem a q with
    | none => rfl
    | some c =>
      simp only [Option.bind_some]
      by_cases hcb : c = b
      · subst hcb
        have hji : j ≠ i := by
          rintro rfl
          rw [reach_inj h hp hq hpl hql'] at hpq
          exact hpq (List.prefix_refl _)
        rw [write_of_ne_index hji]
      · rw [write_of_ne hcb]

/-- The paths that run through the word go where it points now. -/
theorem reach_write_through (h : (nodes child mem d a).Nodup) (hp : reach child mem a p = some b)
    (hpl : p.length ≤ d) (r : List ι) :
    reach child (write mem b i w) a (p ++ i :: r) =
      (child w).bind (reach child (write mem b i w) · r) := by
  have hpre : reach child (write mem b i w) a p = some b := by
    rw [reach_write h hp hpl (by omega), hp]
    intro hpre
    have := hpre.length_le
    simp at this
  rw [reach_append, hpre, Option.bind_some]
  simp only [reach, write_self]

end Nodes

attribute [irreducible] nodes

end Lnxrm.Radix
