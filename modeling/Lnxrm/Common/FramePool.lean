import Mathlib.Data.Finset.Max
import Mathlib.Order.Interval.Finset.Nat
import Mathlib.Tactic.Abel

/-!
# Pools of frames

A pool hands out frames of a memory and takes them back, in blocks of
`2 ^ k` frames. It may keep its own records in the free frames, so both
operations may write there; the frames that are handed out are left alone.
`Uses` is a use of the pool that gives back only what is not free, and
`logged` is the same pool with a record of what was taken and given back:
what was taken and not given back is then what is missing
(`Uses.balanced`).
-/

namespace Lnxrm

open Finset

/-- **A pool of frames** over a memory whose frames hold values of `W`, with
the assumptions its users make. -/
structure FramePool (A W : Type*) where
  /-- the frames the pool is for -/
  managed : Finset ℕ
  /-- the frames that may be handed out -/
  free : A → Finset ℕ
  alloc : A → (ℕ → W) → Option (ℕ × A × (ℕ → W))
  /-- `release a m f k` gives back the block of `2 ^ k` frames at `f` -/
  release : A → (ℕ → W) → ℕ → ℕ → A × (ℕ → W)
  managed_pos : ∀ f ∈ managed, 0 < f
  free_subset : ∀ a, free a ⊆ managed
  alloc_none : ∀ {a m}, alloc a m = none → free a = ∅
  alloc_some : ∀ {a m f a' m'}, alloc a m = some (f, a', m') →
    f ∈ free a ∧ free a' = (free a).erase f ∧ ∀ g ∉ free a, m' g = m g
  release_spec : ∀ {a m f k}, 2 ^ k ∣ f → Ico f (f + 2 ^ k) ⊆ managed →
    Disjoint (Ico f (f + 2 ^ k)) (free a) →
    free (release a m f k).1 = free a ∪ Ico f (f + 2 ^ k) ∧
      ∀ g ∉ free a ∪ Ico f (f + 2 ^ k), (release a m f k).2 g = m g

namespace FramePool

variable {A W : Type*} (P : FramePool A W)

/-- One frame is given back. -/
theorem release_one {a : A} {m : ℕ → W} {f : ℕ} (hf : f ∈ P.managed) (hfree : f ∉ P.free a) :
    P.free (P.release a m f 0).1 = insert f (P.free a) ∧
      ∀ g ∉ P.free a, g ≠ f → (P.release a m f 0).2 g = m g := by
  have hone : Ico f (f + 2 ^ 0) = {f} := by
    rw [pow_zero]
    exact Nat.Ico_succ_singleton f
  obtain ⟨h, hmem⟩ := P.release_spec (a := a) (m := m) (f := f) (k := 0) (one_dvd f)
    (by rw [hone]; exact singleton_subset_iff.mpr hf)
    (by rw [hone]; exact disjoint_singleton_left.mpr hfree)
  rw [hone] at h hmem
  refine ⟨?_, fun g hg hgf => hmem g ?_⟩
  · rw [h, union_comm]
    rfl
  · simp [hg, hgf]

/-- **The pool is used as it should be**: frames are taken, and blocks of
frames of `F` that are not free are given back. -/
inductive Uses (F : Finset ℕ) : A → A → Prop where
  | refl (a : A) : Uses F a a
  | alloc {a b c : A} {m m' : ℕ → W} {f : ℕ} :
    Uses F a b → P.alloc b m = some (f, c, m') → Uses F a c
  | release {a b : A} {m : ℕ → W} {f k : ℕ} : Uses F a b → 2 ^ k ∣ f →
    Ico f (f + 2 ^ k) ⊆ F → Disjoint (Ico f (f + 2 ^ k)) (P.free b) →
    Uses F a (P.release b m f k).1

variable {P} in
theorem Uses.trans {F : Finset ℕ} {a b c : A} (h : P.Uses F a b) (h' : P.Uses F b c) :
    P.Uses F a c := by
  induction h' with
  | refl => exact h
  | alloc _ halloc ih => exact ih.alloc halloc
  | release _ hd hF hfree ih => exact ih.release hd hF hfree

variable {P} in
theorem Uses.mono {F F' : Finset ℕ} {a b : A} (h : P.Uses F a b) (hF : F ⊆ F') : P.Uses F' a b := by
  induction h with
  | refl => exact .refl _
  | alloc _ halloc ih => exact ih.alloc halloc
  | release _ hd hsub hfree ih => exact ih.release hd (hsub.trans hF) hfree

/-- One frame is given back. -/
theorem uses_release_one {F : Finset ℕ} {a : A} {m : ℕ → W} {f : ℕ} (hf : f ∈ F)
    (hfree : f ∉ P.free a) : P.Uses F a (P.release a m f 0).1 := by
  have hone : Ico f (f + 2 ^ 0) = {f} := by
    rw [pow_zero]
    exact Nat.Ico_succ_singleton f
  refine (Uses.refl a).release (one_dvd f) ?_ ?_
  · rw [hone]
    exact singleton_subset_iff.mpr hf
  · rw [hone]
    exact disjoint_singleton_left.mpr hfree

/-- The pool with a record of the frames taken and of those given back. -/
def logged : FramePool (A × List ℕ × List ℕ) W where
  managed := P.managed
  free a := P.free a.1
  alloc a m := (P.alloc a.1 m).map fun r => (r.1, (r.2.1, r.1 :: a.2.1, a.2.2), r.2.2)
  release a m f k :=
    let r := P.release a.1 m f k
    ((r.1, a.2.1, List.range' f (2 ^ k) ++ a.2.2), r.2)
  managed_pos := P.managed_pos
  free_subset a := P.free_subset a.1
  alloc_none h := P.alloc_none (Option.map_eq_none_iff.mp h)
  alloc_some h := by
    obtain ⟨⟨f, a', m'⟩, hr, e⟩ := Option.map_eq_some_iff.mp h
    cases e
    exact P.alloc_some hr
  release_spec hd hm hf := P.release_spec hd hm hf

variable {P} in
/-- **The books balance.** What was taken and what is free is what was given
back and what was free before, and only frames of `F` are on record. -/
theorem Uses.balanced {F : Finset ℕ} (hF : F ⊆ P.managed) {a b : A × List ℕ × List ℕ}
    (h : P.logged.Uses F a b) (ha : P.free a.1 ⊆ F) (hta : ∀ f ∈ a.2.1, f ∈ F) :
    (b.2.1 : Multiset ℕ) + (P.free b.1).val + (a.2.2 : Multiset ℕ) =
        (a.2.1 : Multiset ℕ) + (P.free a.1).val + (b.2.2 : Multiset ℕ) ∧
      P.free b.1 ⊆ F ∧ ∀ f ∈ b.2.1, f ∈ F := by
  induction h with
  | refl => exact ⟨rfl, ha, hta⟩
  | @alloc b c m m' f _ halloc ih =>
    obtain ⟨hbal, hsub, htaken⟩ := ih
    obtain ⟨⟨f', c', m''⟩, hr, e⟩ := Option.map_eq_some_iff.mp halloc
    cases e
    obtain ⟨hf, hfree, -⟩ := P.alloc_some hr
    refine ⟨?_, ?_, ?_⟩
    · rw [hfree, ← hbal, erase_val, ← Multiset.cons_coe, Multiset.cons_add,
        ← Multiset.add_cons, Multiset.cons_erase hf]
    · rw [hfree]
      exact (erase_subset _ _).trans hsub
    · intro g hg
      rcases List.mem_cons.mp hg with rfl | hg
      · exact hsub hf
      · exact htaken g hg
  | @release b m f k _ hd hsubF hdisj ih =>
    obtain ⟨hbal, hsub, htaken⟩ := ih
    have hdisj : Disjoint (Ico f (f + 2 ^ k)) (P.free b.1) := hdisj
    obtain ⟨hfree, -⟩ := P.release_spec (m := m) hd (hsubF.trans hF) hdisj
    refine ⟨?_, ?_, htaken⟩
    · show (b.2.1 : Multiset ℕ) + (P.free (P.release b.1 m f k).1).val + _ =
        _ + ((List.range' f (2 ^ k) ++ b.2.2 : List ℕ) : Multiset ℕ)
      have hblock : (Ico f (f + 2 ^ k)).val = (List.range' f (2 ^ k) : Multiset ℕ) := by
        show ((List.range' f (f + 2 ^ k - f) : List ℕ) : Multiset ℕ) = _
        rw [Nat.add_sub_cancel_left]
      have hunion : (P.free b.1 ∪ Ico f (f + 2 ^ k)).val =
          (P.free b.1).val + (Ico f (f + 2 ^ k)).val := by
        rw [← disjUnion_eq_union _ _ hdisj.symm]
        rfl
      rw [hfree, hunion, hblock, ← Multiset.coe_add, add_left_comm _ _ (b.2.2 : Multiset ℕ), ← hbal]
      abel
    · show P.free (P.release b.1 m f k).1 ⊆ F
      rw [hfree]
      exact union_subset hsub hsubF

end FramePool

/-- **A pool of blocks** of `2 ^ k` frames, aligned to their size. -/
structure BlockPool (A W : Type*) extends FramePool A W where
  allocOrder : A → (ℕ → W) → ℕ → Option (ℕ × A × (ℕ → W))
  allocOrder_some : ∀ {a m k f a' m'}, allocOrder a m k = some (f, a', m') →
    2 ^ k ∣ f ∧ Ico f (f + 2 ^ k) ⊆ free a ∧ free a' = free a \ Ico f (f + 2 ^ k) ∧
      ∀ g ∉ free a, m' g = m g
  alloc_eq : ∀ a m, alloc a m = allocOrder a m 0

namespace FramePool

/-- A pool that is the set of its free frames, and hands out the least. -/
def least (W : Type*) (top : ℕ) : FramePool (Finset ℕ) W where
  managed := Ico 1 top
  free a := a ∩ Ico 1 top
  alloc a m :=
    if h : (a ∩ Ico 1 top).Nonempty then
      let f := (a ∩ Ico 1 top).min' h
      some (f, a.erase f, m)
    else none
  release a m f k := (a ∪ Ico f (f + 2 ^ k), m)
  managed_pos f hf := (mem_Ico.mp hf).1
  free_subset a := inter_subset_right
  alloc_none {a m} h := by
    by_contra hne
    rw [dif_pos (nonempty_iff_ne_empty.mpr hne)] at h
    cases h
  alloc_some {a m f a' m'} h := by
    split at h
    · rename_i hne
      cases h
      exact ⟨min'_mem _ hne, erase_inter .., fun _ _ => rfl⟩
    · cases h
  release_spec {a m f k} _ hm _ := by
    refine ⟨?_, fun _ _ => rfl⟩
    rw [union_inter_distrib_right, inter_eq_left.mpr hm]

end FramePool

/-- A pool of blocks that is the set of its free frames, and hands out the
first block that fits. -/
def BlockPool.first (W : Type*) (top : ℕ) : BlockPool (Finset ℕ) W where
  managed := Ico 1 top
  free a := a ∩ Ico 1 top
  allocOrder a m k :=
    ((List.range top).find? fun f =>
      decide (2 ^ k ∣ f ∧ Ico f (f + 2 ^ k) ⊆ a ∩ Ico 1 top)).map fun f =>
        (f, a \ Ico f (f + 2 ^ k), m)
  alloc a m :=
    ((List.range top).find? fun f =>
      decide (2 ^ 0 ∣ f ∧ Ico f (f + 2 ^ 0) ⊆ a ∩ Ico 1 top)).map fun f =>
        (f, a \ Ico f (f + 2 ^ 0), m)
  release a m f k := (a ∪ Ico f (f + 2 ^ k), m)
  managed_pos f hf := (mem_Ico.mp hf).1
  free_subset a := inter_subset_right
  alloc_none {a m} h := by
    rw [Option.map_eq_none_iff, List.find?_eq_none] at h
    refine eq_empty_of_forall_notMem fun f hf => ?_
    have htop := (mem_Ico.mp (mem_of_mem_inter_right hf)).2
    refine h f (List.mem_range.mpr htop) ?_
    rw [decide_eq_true_eq, pow_zero, Nat.Ico_succ_singleton]
    exact ⟨one_dvd f, singleton_subset_iff.mpr hf⟩
  alloc_some {a m f a' m'} h := by
    obtain ⟨g, hg, e⟩ := Option.map_eq_some_iff.mp h
    cases e
    have hfit := List.find?_some hg
    rw [decide_eq_true_eq, pow_zero, Nat.Ico_succ_singleton] at hfit
    refine ⟨singleton_subset_iff.mp hfit.2, ?_, fun _ _ => rfl⟩
    rw [pow_zero, Nat.Ico_succ_singleton, sdiff_singleton_eq_erase, erase_inter]
  release_spec {a m f k} _ hm _ := by
    refine ⟨?_, fun _ _ => rfl⟩
    rw [union_inter_distrib_right, inter_eq_left.mpr hm]
  allocOrder_some {a m k f a' m'} h := by
    obtain ⟨g, hg, e⟩ := Option.map_eq_some_iff.mp h
    cases e
    have hfit := List.find?_some hg
    rw [decide_eq_true_eq] at hfit
    refine ⟨hfit.1, hfit.2, ?_, fun _ _ => rfl⟩
    rw [inter_comm, inter_comm a, ← inter_sdiff_assoc]
  alloc_eq a m := rfl

end Lnxrm
