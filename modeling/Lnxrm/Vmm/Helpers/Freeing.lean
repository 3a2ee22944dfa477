import Lnxrm.Vmm.Helpers.Mapping
import Mathlib.Algebra.BigOperators.Fin

/-!
# Freeing a tree

Proof layer. `Frees s s' N` says that the frames of `N` were given back and
nothing else changed. Each of the nested loops gives back what hangs below
its table; the words of the table are still there when the loop reads them,
because the table itself is given back after it.
-/

namespace Lnxrm.Vmm

open Multiset

open Radix (nodes below)

variable {A : Type} {B : Buddy A} {F : Finset ℕ} {s s' s'' : Vm A} {N N' : Multiset ℕ} {f t d : ℕ}

/-- The frames that hang below a table. -/
def under (mem : ℕ → Page) (d t : ℕ) : Multiset ℕ := ∑ i, below next mem d (mem t i)

theorem nodes_eq_under {mem : ℕ → Page} : nodes next mem (d + 1) t = {t} + under mem d t :=
  Radix.nodes_succ

theorem under_eq_sum {mem : ℕ → Page} :
    under mem d t = ((List.finRange 512).map fun i => below next mem d (mem t i)).sum :=
  Fin.sum_univ_def _

attribute [irreducible] under

/-- **The frames of `N` are given back.** -/
structure Frees (B : Buddy A) (F : Finset ℕ) (s s' : Vm A) (N : Multiset ℕ) : Prop where
  free : (B.free s'.pool).val = (B.free s.pool).val + N
  mem : ∀ g, g ∉ B.free s'.pool → s'.mem g = s.mem g
  uses : B.Uses F s.pool s'.pool

namespace Frees

theorem refl : Frees B F s s 0 := ⟨(add_zero _).symm, fun _ _ => rfl, .refl _⟩

theorem mem_free (h : Frees B F s s' N) {g : ℕ} :
    g ∈ B.free s'.pool ↔ g ∈ B.free s.pool ∨ g ∈ N := by
  rw [← Finset.mem_val, h.free, mem_add, Finset.mem_val]

theorem trans (h : Frees B F s s' N) (h' : Frees B F s' s'' N') : Frees B F s s'' (N + N') where
  free := by rw [h'.free, h.free, add_assoc]
  mem g hg := by
    have hg' : g ∉ B.free s'.pool := fun hm => hg (h'.mem_free.mpr (Or.inl hm))
    rw [h'.mem g hg, h.mem g hg']
  uses := h.uses.trans h'.uses

theorem pmmFree (hF : F ⊆ B.managed) (hf : f ∈ F) (hfree : f ∉ B.free s.pool) :
    Frees B F s (s.pmmFree B f) {f} := by
  obtain ⟨h, hmem⟩ := B.release_one (m := s.mem) (hF hf) hfree
  have hpool : B.free (s.pmmFree B f).pool = insert f (B.free s.pool) := h
  refine ⟨?_, fun g hg => ?_, B.uses_release_one hf hfree⟩
  · rw [hpool, Finset.insert_val_of_notMem hfree, add_comm, singleton_add]
  · rw [hpool, Finset.mem_insert, not_or] at hg
    exact hmem g hg.2 hg.1

end Frees

/-- **A loop over the words of a table.** -/
theorem foldl_frees {body : Vm A → Fin 512 → Vm A} {N : Fin 512 → Multiset ℕ} (ht : ∀ i, t ∉ N i)
    (hbody : ∀ s' i, (∀ g, g ∉ B.free s'.pool → s'.mem g = s.mem g) → t ∉ B.free s'.pool →
      (N i + (B.free s'.pool).val).Nodup → Frees B F s' (body s' i) (N i)) (l : List (Fin 512)) :
    ∀ {s' : Vm A}, (∀ g, g ∉ B.free s'.pool → s'.mem g = s.mem g) → t ∉ B.free s'.pool →
      ((l.map N).sum + (B.free s'.pool).val).Nodup →
      Frees B F s' (l.foldl body s') (l.map N).sum := by
  induction l with
  | nil =>
    intro s' _ _ _
    exact Frees.refl
  | cons i l ih =>
    intro s' hmem htf hnd
    rw [List.map_cons, List.sum_cons] at hnd ⊢
    have hle : N i + (B.free s'.pool).val ≤ N i + (l.map N).sum + (B.free s'.pool).val :=
      add_le_add_left (Multiset.le_add_right _ _) _
    have hone := hbody s' i hmem htf (nodup_of_le hle hnd)
    refine hone.trans (ih (fun g hg => ?_) (fun hm => ?_) ?_)
    · have hg' : g ∉ B.free s'.pool := fun hm => hg (hone.mem_free.mpr (Or.inl hm))
      rw [hone.mem g hg, hmem g hg']
    · rcases hone.mem_free.mp hm with hm | hm
      · exact htf hm
      · exact ht i hm
    · have hsum : (l.map N).sum + ((B.free s'.pool).val + N i) =
          N i + (l.map N).sum + (B.free s'.pool).val := by abel
      rw [hone.free, hsum]
      exact hnd

theorem level_frees {body : Vm A → Fin 512 → Vm A}
    (hnd : (nodes next s.mem (d + 1) t + (B.free s.pool).val).Nodup)
    (hbody : ∀ s' i, (∀ g, g ∉ B.free s'.pool → s'.mem g = s.mem g) → t ∉ B.free s'.pool →
      (below next s.mem d (s.mem t i) + (B.free s'.pool).val).Nodup →
      Frees B F s' (body s' i) (below next s.mem d (s.mem t i))) :
    Frees B F s ((List.finRange 512).foldl body s) (under s.mem d t) := by
  obtain ⟨hself, -, -⟩ := Radix.nodup_succ (nodup_add.mp hnd).1
  have htf : t ∉ B.free s.pool :=
    disjoint_left.mp (nodup_add.mp hnd).2.2 Radix.mem_nodes_self
  have hle : under s.mem d t + (B.free s.pool).val ≤
      nodes next s.mem (d + 1) t + (B.free s.pool).val := by
    rw [nodes_eq_under]
    exact add_le_add_left (Multiset.le_add_left _ _) _
  have hsum := nodup_of_le hle hnd
  rw [under_eq_sum] at hsum ⊢
  generalize List.finRange 512 = l at hsum ⊢
  exact foldl_frees hself hbody l (fun _ _ => rfl) htf hsum

theorem table_frees (hF : F ⊆ B.managed) (hin : ∀ g ∈ nodes next s.mem (d + 1) t, g ∈ F)
    (hnd : (nodes next s.mem (d + 1) t + (B.free s.pool).val).Nodup)
    (h : Frees B F s s' (under s.mem d t)) :
    Frees B F s (s'.pmmFree B t) (nodes next s.mem (d + 1) t) := by
  have htf : t ∉ B.free s'.pool := by
    intro hm
    rw [nodes_eq_under, add_assoc, singleton_add, nodup_cons, add_comm, ← h.free] at hnd
    exact hnd.1 hm
  rw [nodes_eq_under, add_comm]
  exact h.trans (Frees.pmmFree hF (hin t Radix.mem_nodes_self) htf)

theorem below_some_of {e : BitVec 64} {c : ℕ} {mem : ℕ → Page} (hc : next e = some c)
    (hmem : ∀ g, g ∉ B.free s.pool → s.mem g = mem g)
    (hnd : (below next mem d e + (B.free s.pool).val).Nodup) :
    below next mem d e = nodes next s.mem d c ∧
      (nodes next s.mem d c + (B.free s.pool).val).Nodup := by
  rw [Radix.below_some hc] at hnd ⊢
  have hsame : nodes next s.mem d c = nodes next mem d c := by
    refine Radix.nodes_congr_of fun g hg => hmem g ?_
    exact disjoint_left.mp (nodup_add.mp hnd).2.2 hg
  rw [hsame]
  exact ⟨rfl, hnd⟩

/-- A table below a word of `t`: the loop over it, and then the table, which
the word still names. -/
theorem child_frees {inner : Vm A → ℕ → Vm A} {s₀ : Vm A} {i : Fin 512} (hF : F ⊆ B.managed)
    (hin : ∀ g ∈ nodes next s₀.mem (d + 2) t, g ∈ F)
    (hself : t ∉ below next s₀.mem (d + 1) (s₀.mem t i)) (hp : present (s₀.mem t i) = true)
    (hmem : ∀ g, g ∉ B.free s.pool → s.mem g = s₀.mem g) (htf : t ∉ B.free s.pool)
    (hnd : (below next s₀.mem (d + 1) (s₀.mem t i) + (B.free s.pool).val).Nodup)
    (hinner : (∀ g ∈ nodes next s.mem (d + 1) (frameOf (s₀.mem t i)), g ∈ F) →
      (nodes next s.mem (d + 1) (frameOf (s₀.mem t i)) + (B.free s.pool).val).Nodup →
      Frees B F s (inner s (frameOf (s₀.mem t i))) (under s.mem d (frameOf (s₀.mem t i)))) :
    Frees B F s ((inner s (frameOf (s₀.mem t i))).pmmFree B
        (frameOf ((inner s (frameOf (s₀.mem t i))).mem t i)))
      (below next s₀.mem (d + 1) (s₀.mem t i)) := by
  obtain ⟨hbelow, hndc⟩ := below_some_of (next_of_present hp) hmem hnd
  have hinc : ∀ g ∈ nodes next s.mem (d + 1) (frameOf (s₀.mem t i)), g ∈ F := by
    intro g hg
    rw [← hbelow] at hg
    exact hin g (Radix.mem_nodes_succ.mpr (Or.inr ⟨i, hg⟩))
  have hloop := hinner hinc hndc
  -- the table above is still there after the inner loop
  have htf' : t ∉ B.free (inner s (frameOf (s₀.mem t i))).pool := by
    intro hm
    rcases hloop.mem_free.mp hm with hm | hm
    · exact htf hm
    · refine hself ?_
      rw [hbelow, nodes_eq_under]
      exact mem_add.mpr (Or.inr hm)
  rw [hloop.mem t htf', hmem t htf, hbelow]
  exact table_frees hF hinc hndc hloop

/-! ## The three loops -/

theorem freePt_frees (hF : F ⊆ B.managed) (hin : ∀ g ∈ nodes next s.mem 1 t, g ∈ F)
    (hnd : (nodes next s.mem 1 t + (B.free s.pool).val).Nodup) :
    Frees B F s (freePt B s t) (under s.mem 0 t) := by
  refine level_frees hnd fun s' i hmem htf hndi => ?_
  rw [hmem t htf]
  cases hp : present (s.mem t i) with
  | false =>
    rw [Radix.below_none (next_of_not hp)]
    exact Frees.refl
  | true =>
    have hc := next_of_present hp
    have hf : frameOf (s.mem t i) ∈ below next s.mem 0 (s.mem t i) :=
      Radix.mem_below.mpr ⟨_, hc, Radix.mem_nodes_self⟩
    rw [Radix.below_some hc, Radix.nodes_zero] at hndi ⊢
    refine Frees.pmmFree hF (hin _ (Radix.mem_nodes_succ.mpr (Or.inr ⟨i, hf⟩))) ?_
    rw [singleton_add, nodup_cons] at hndi
    exact hndi.1

/-- A directory has no large pages. -/
def Small (mem : ℕ → Page) (pd : ℕ) : Prop :=
  ∀ i, present (mem pd i) = true → large (mem pd i) = false

theorem freePd_frees (hF : F ⊆ B.managed) (hin : ∀ g ∈ nodes next s.mem 2 t, g ∈ F)
    (hnd : (nodes next s.mem 2 t + (B.free s.pool).val).Nodup) (hsmall : Small s.mem t) :
    Frees B F s (freePd B s t) (under s.mem 1 t) := by
  have hself := (Radix.nodup_succ (nodup_add.mp hnd).1).1
  refine level_frees hnd fun s' i hmem htf hndi => ?_
  rw [hmem t htf]
  cases hp : present (s.mem t i) with
  | false =>
    rw [Radix.below_none (next_of_not hp)]
    exact Frees.refl
  | true =>
    rw [if_neg (by simp), if_neg (by simp [hsmall i hp])]
    exact child_frees hF hin (hself i) hp hmem htf hndi fun hinc hndc => freePt_frees hF hinc hndc

theorem freePdpt_frees (hF : F ⊆ B.managed) (hin : ∀ g ∈ nodes next s.mem 3 t, g ∈ F)
    (hnd : (nodes next s.mem 3 t + (B.free s.pool).val).Nodup)
    (hsmall : ∀ i c, next (s.mem t i) = some c → Small s.mem c) :
    Frees B F s (freePdpt B s t) (under s.mem 2 t) := by
  have hself := (Radix.nodup_succ (nodup_add.mp hnd).1).1
  refine level_frees hnd fun s' i hmem htf hndi => ?_
  rw [hmem t htf]
  cases hp : present (s.mem t i) with
  | false =>
    rw [Radix.below_none (next_of_not hp)]
    exact Frees.refl
  | true =>
    rw [if_neg (by simp)]
    refine child_frees hF hin (hself i) hp hmem htf hndi fun hinc hndc => ?_
    have hcf : frameOf (s.mem t i) ∉ B.free s'.pool :=
      disjoint_left.mp (nodup_add.mp hndc).2.2 Radix.mem_nodes_self
    refine freePd_frees hF hinc hndc fun j => ?_
    rw [hmem _ hcf]
    exact hsmall i _ (next_of_present hp) j

/-! ## The whole tree -/

variable {root : ℕ}

theorem tableAt_userSlot {mem : ℕ → Page} :
    tableAt mem root [userSlot] = next (mem root userSlot) := by
  unfold tableAt
  rw [show [userSlot] = [] ++ [userSlot] from rfl, Radix.reach_snoc]
  show next (view mem root root userSlot) = _
  rw [view_userSlot]

theorem tree_four {mem : ℕ → Page} (hnd : (tree 3 mem root).Nodup) :
    tree 4 mem root = {root} + below next mem 3 (mem root userSlot) := by
  have hself := (Radix.nodup_succ hnd).1 userSlot
  have hother : ∀ i ∈ Finset.univ, i ≠ userSlot →
      below next (view mem root) 3 (view mem root root i) = 0 := by
    intro i _ hi
    refine Radix.below_none ?_
    unfold view
    rw [Function.update_self, if_neg hi]
    exact next_of_not not_present_zero
  have hword : below next (view mem root) 3 (mem root userSlot) =
      below next mem 3 (mem root userSlot) := by
    refine (Radix.below_congr fun c hc => ?_).symm
    refine (view_of_ne ?_).symm
    rintro rfl
    rw [view_userSlot] at hself
    exact hself hc
  unfold tree
  rw [Radix.nodes_succ, Finset.sum_eq_single userSlot hother (by simp), view_userSlot, hword]

theorem Tree.small_of (h : Tree B s root) {pdpt : ℕ}
    (hp : tableAt s.mem root [userSlot] = some pdpt) (i : Fin 512) (c : ℕ)
    (hc : next (s.mem pdpt i) = some c) : Small s.mem c := by
  have hpath : tableAt s.mem root [userSlot, i] = some c :=
    (h.tableAt_snoc hp (by simp) (by simp)).trans hc
  intro j hj
  have hne := h.ne_root hpath (by simp) (by simp)
  have := h.small i c j hpath
  rw [view_of_ne hne] at this
  exact this hj

theorem slot_frees (hF : F ⊆ B.managed) (h : Tree B s root)
    (hin : ∀ g ∈ below next s.mem 3 (s.mem root userSlot), g ∈ F)
    (hnd : (tree 4 s.mem root + (B.free s.pool).val).Nodup)
    (hp : present (s.mem root userSlot) = true) :
    let c := frameOf (s.mem root userSlot)
    root ∉ B.free (freePdpt B s c).pool ∧ (freePdpt B s c).mem root = s.mem root ∧
      Frees B F s ((freePdpt B s c).pmmFree B c) (below next s.mem 3 (s.mem root userSlot)) := by
  intro c
  have hc : next (s.mem root userSlot) = some c := next_of_present hp
  rw [Radix.below_some hc] at hin
  rw [tree_four h.tree_nodup, Radix.below_some hc, add_assoc, singleton_add, nodup_cons] at hnd
  obtain ⟨hroot, hndc⟩ := hnd
  have hloop := freePdpt_frees hF hin hndc (h.small_of (tableAt_userSlot.trans hc))
  have hrootf : root ∉ B.free (freePdpt B s c).pool := by
    intro hm
    refine hroot (mem_add.mpr ?_)
    rcases hloop.mem_free.mp hm with hm | hm
    · exact Or.inr hm
    · refine Or.inl ?_
      rw [nodes_eq_under]
      exact mem_add.mpr (Or.inr hm)
  refine ⟨hrootf, hloop.mem root hrootf, ?_⟩
  rw [Radix.below_some hc]
  exact table_frees hF hin hndc hloop

/-- **`dup_cleanup`** gives back everything below the user slot. -/
theorem dupCleanup_frees (hF : F ⊆ B.managed) (h : Tree B s root)
    (hin : ∀ g ∈ below next s.mem 3 (s.mem root userSlot), g ∈ F)
    (hnd : (tree 4 s.mem root + (B.free s.pool).val).Nodup) :
    (B.free (dupCleanup B s root).pool).val =
        (B.free s.pool).val + below next s.mem 3 (s.mem root userSlot) ∧
      present ((dupCleanup B s root).mem root userSlot) = false ∧
      (∀ j, j ≠ userSlot → (dupCleanup B s root).mem root j = s.mem root j) ∧
      (∀ g, g ∉ B.free (dupCleanup B s root).pool → g ≠ root →
        (dupCleanup B s root).mem g = s.mem g) ∧
      B.Uses F s.pool (dupCleanup B s root).pool := by
  unfold dupCleanup
  cases hp : present (s.mem root userSlot) with
  | false =>
    rw [if_pos (by simp), Radix.below_none (next_of_not hp), add_zero]
    exact ⟨rfl, hp, fun _ _ => rfl, fun _ _ _ => rfl, .refl _⟩
  | true =>
    rw [if_neg (by simp)]
    obtain ⟨-, hsame, hfrees⟩ := slot_frees hF h hin hnd hp
    simp only [hsame]
    generalize (freePdpt B s (frameOf (s.mem root userSlot))).pmmFree B
      (frameOf (s.mem root userSlot)) = s₁ at hfrees
    have hrootf : root ∉ B.free s₁.pool := by
      intro hm
      rw [tree_four h.tree_nodup, add_assoc, singleton_add, nodup_cons, add_comm,
        ← hfrees.free] at hnd
      exact hnd.1 hm
    refine ⟨hfrees.free, ?_, fun j hj => ?_, fun g hg hgr => ?_, hfrees.uses⟩
    · show present (Radix.write s₁.mem root userSlot 0 root userSlot) = false
      rw [Radix.write_self, not_present_zero]
    · rw [← hfrees.mem root hrootf]
      exact Radix.write_of_ne_index hj
    · rw [← hfrees.mem g hg]
      exact Radix.write_of_ne hgr

/-- **`vmm_destroy_user_aspace`** gives back the user tree, where the shared
slots are the first and the last. -/
theorem destroy_frees (hF : F ⊆ B.managed) (h : Tree B s root)
    (hin : ∀ g ∈ tree 4 s.mem root, g ∈ F)
    (hnd : (tree 4 s.mem root + (B.free s.pool).val).Nodup)
    (hslots : ∀ i, i ≠ 0 → i ≠ 511 → i ≠ userSlot → present (s.mem root i) = false) :
    Frees B F s (vmmDestroyUserAspace B s root) (tree 4 s.mem root) := by
  have hnd' := hnd
  rw [tree_four h.tree_nodup, add_assoc, singleton_add, nodup_cons, mem_add, not_or] at hnd'
  obtain ⟨⟨hself, hrootf⟩, hndb⟩ := hnd'
  generalize hN : (fun i => if i = userSlot then below next s.mem 3 (s.mem root userSlot) else 0) = N
  have hsum : ((List.finRange 512).map N).sum = below next s.mem 3 (s.mem root userSlot) := by
    rw [← Fin.sum_univ_def, ← hN, Finset.sum_ite_eq' Finset.univ userSlot, if_pos (Finset.mem_univ _)]
  have hloop : Frees B F s ((List.finRange 512).foldl (fun s i =>
      if !present (s.mem root i) ∨ i = 0 ∨ i = 511 then s
      else
        let s := freePdpt B s (frameOf (s.mem root i))
        s.pmmFree B (frameOf (s.mem root i))) s) (below next s.mem 3 (s.mem root userSlot)) := by
    rw [← hsum]
    refine foldl_frees (t := root) (fun i => ?_) (fun s' i hmem htf hndi => ?_) _ (fun _ _ => rfl) hrootf
      (by rw [hsum]; exact hndb)
    · rw [← hN]
      by_cases hi : i = userSlot
      · simpa only [if_pos hi] using hself
      · simp [if_neg hi]
    have hroot := hmem root htf
    simp only [hroot, ← hN] at hndi ⊢
    by_cases hi : i = userSlot
    · subst hi
      rw [if_pos rfl] at hndi ⊢
      cases hp : present (s.mem root userSlot) with
      | false =>
        rw [if_pos (by simp), Radix.below_none (next_of_not hp)]
        exact Frees.refl
      | true =>
        rw [if_neg (by simp [userSlot])]
        -- the tree is as it was when the loop comes to its slot
        have hnd4 : (tree 4 s.mem root + (B.free s'.pool).val).Nodup := by
          rw [tree_four h.tree_nodup, add_assoc, singleton_add, nodup_cons]
          refine ⟨fun hm => ?_, hndi⟩
          rcases mem_add.mp hm with hm | hm
          · exact hself hm
          · exact htf hm
        have hle : tree 3 s.mem root ≤ tree 4 s.mem root := Radix.nodes_le_succ 3 root
        have hnd3 := nodup_of_le (add_le_add_left hle (B.free s'.pool).val) hnd4
        have hsame : ∀ g ∈ tree 3 s.mem root, s'.mem g = s.mem g := fun g hg =>
          hmem g (disjoint_left.mp (nodup_add.mp hnd3).2.2 hg)
        have hbelow : below next s'.mem 3 (s.mem root userSlot) =
            below next s.mem 3 (s.mem root userSlot) := by
          have h4 := (tree_congr hsame).2
          rw [tree_four h.tree_nodup, tree_four (h.congr hsame hnd3).tree_nodup, hroot] at h4
          exact Multiset.add_right_inj.mp h4
        have hinb : ∀ g ∈ below next s'.mem 3 (s'.mem root userSlot), g ∈ F := by
          intro g hg
          rw [hroot, hbelow] at hg
          refine hin g ?_
          rw [tree_four h.tree_nodup]
          exact mem_add.mpr (Or.inr hg)
        obtain ⟨-, hsame', hfrees⟩ := slot_frees hF (h.congr hsame hnd3) hinb
          (by rw [(tree_congr hsame).2]; exact hnd4) (by rw [hroot]; exact hp)
        rw [hroot] at hsame' hfrees
        rw [hbelow] at hfrees
        rw [hsame']
        exact hfrees
    have hskip : (!present (s.mem root i)) = true ∨ i = 0 ∨ i = 511 := by
      by_cases h0 : i = 0
      · exact Or.inr (Or.inl h0)
      · by_cases h511 : i = 511
        · exact Or.inr (Or.inr h511)
        · exact Or.inl (by simp [hslots i h0 h511 hi])
    rw [if_pos hskip, if_neg hi]
    exact Frees.refl
  have hrootf' : root ∉ B.free ((List.finRange 512).foldl (fun s i =>
      if !present (s.mem root i) ∨ i = 0 ∨ i = 511 then s
      else
        let s := freePdpt B s (frameOf (s.mem root i))
        s.pmmFree B (frameOf (s.mem root i))) s).pool := by
    intro hm
    rcases hloop.mem_free.mp hm with hm | hm
    · exact hrootf hm
    · exact hself hm
  rw [tree_four h.tree_nodup, add_comm]
  exact hloop.trans (Frees.pmmFree hF (hin root Radix.mem_nodes_self) hrootf')

end Lnxrm.Vmm
