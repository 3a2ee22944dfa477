import Lnxrm.Vmm.Helpers.Copying

/-!
# The frames of an address space

Proof layer. `Alive s₀ root s` says that between making an address space in
the state `s₀` and destroying it, the frames that were free in `s₀` are the
free frames and those of the tree: tables, pages and the root. Every
operation that maps fresh frames and frees what it unmaps keeps it.
-/

namespace Lnxrm.Vmm

open Multiset

open Radix (nodes below)

variable {A : Type} {B : Buddy A} {s₀ s s' : Vm A} {root src : ℕ} {va : BitVec 64}

/-- **The frames of an address space**, the root with them. -/
structure Alive (B : Buddy A) (s₀ : Vm A) (root : ℕ) (s : Vm A) : Prop where
  tree : Tree B s root
  frames : Vmm.tree 4 s.mem root + (B.free s.pool).val = (B.free s₀.pool).val
  mem : ∀ g, g ∉ B.free s₀.pool → s.mem g = s₀.mem g
  shared : ∀ j, j ≠ userSlot → s.mem root j = s₀.mem masterPml4 j
  uses : B.Uses (B.free s₀.pool) s₀.pool s.pool

namespace Alive

theorem nodup (h : Alive B s₀ root s) : (Vmm.tree 4 s.mem root + (B.free s.pool).val).Nodup := by
  rw [h.frames]
  exact (B.free s₀.pool).nodup

theorem mem_tree (h : Alive B s₀ root s) {g : ℕ} (hg : g ∈ Vmm.tree 4 s.mem root) :
    g ∈ B.free s₀.pool := by
  rw [← Finset.mem_val, ← h.frames]
  exact mem_add.mpr (Or.inl hg)

theorem free_subset (h : Alive B s₀ root s) : B.free s.pool ⊆ B.free s₀.pool := by
  intro g hg
  rw [← Finset.mem_val, ← h.frames]
  exact mem_add.mpr (Or.inr hg)

theorem outside (h : Alive B s₀ root s) {g : ℕ} (hg : g ∉ B.free s₀.pool) :
    g ∉ B.free s.pool ∧ g ∉ Vmm.tree 3 s.mem root :=
  ⟨fun hm => hg (h.free_subset hm),
    fun hm => hg (h.mem_tree (mem_of_le (Radix.nodes_le_succ 3 root) hm))⟩

theorem page_mem (h : Tree B s root) {k : Key} {e : BitVec 64} (he : leaf s.mem root k = some e) :
    tableAt s.mem root [userSlot, k.1, k.2.1, k.2.2] = some (frameOf e) := by
  cases hpt : tableOf s.mem root k with
  | none =>
    rw [leaf_none hpt] at he
    cases he
  | some pt =>
    rw [leaf_eq h hpt] at he
    split at he
    · rename_i hp
      obtain rfl := Option.some.inj he
      rw [← next_of_present hp]
      exact h.tableAt_snoc hpt (by simp) (by simp)
    · cases he

theorem page_inj (h : Tree B s root) (hnd : (Vmm.tree 4 s.mem root).Nodup) {k k' : Key}
    {e e' : BitVec 64} (he : leaf s.mem root k = some e) (he' : leaf s.mem root k' = some e')
    (hf : frameOf e = frameOf e') : k = k' := by
  have hp := page_mem h he
  have hp' := page_mem h he'
  rw [← hf] at hp'
  have hpath := Radix.reach_inj hnd hp hp' (by simp) (by simp)
  simp only [List.cons.injEq, and_true, true_and] at hpath
  exact Prod.ext hpath.1 (Prod.ext hpath.2.1 hpath.2.2)

theorem frame_mem (h : Alive B s₀ root s) {k : Key} {e : BitVec 64}
    (he : leaf s.mem root k = some e) : frameOf e ∈ B.free s₀.pool ∧ frameOf e ∉ B.free s.pool := by
  have hin : frameOf e ∈ Vmm.tree 4 s.mem root :=
    Radix.mem_nodes_of_reach (page_mem h.tree he) (by simp)
  exact ⟨h.mem_tree hin, disjoint_left.mp (nodup_add.mp h.nodup).2.2 hin⟩

/-- **An address space can be copied** into another one. -/
theorem source {dst : ℕ} (h : Alive B s₀ root s) (hdst : dst ∉ Vmm.tree 4 s.mem root) :
    Source B s root dst where
  tree := h.tree
  apart hm := hdst (mem_of_le (Radix.nodes_le_succ 3 root) hm)
  pages k e he := by
    obtain ⟨hf, hfree⟩ := h.frame_mem he
    have hpos := B.managed_pos _ (B.free_subset _ hf)
    refine ⟨by omega, hfree, ?_⟩
    rintro rfl
    exact hdst (Radix.mem_nodes_of_reach (page_mem h.tree he) (by simp))

/-- **`vmm_new_user_aspace`** -/
theorem new (hmaster : masterPml4 ∉ B.free s₀.pool) :
    (∃ s', vmmNewUserAspace B s₀ = .error s' ∧ B.free s'.pool = ∅) ∨
      ∃ root s', vmmNewUserAspace B s₀ = .ok (root, s') ∧ Alive B s₀ root s' ∧
        present (s'.mem root userSlot) = false := by
  refine (newUserAspace_spec hmaster).imp id ?_
  rintro ⟨root, s', he, hroot, hfree, huses, htree, hnodes, -, hmem, hwords⟩
  refine ⟨root, s', he, ⟨htree, ?_, hmem, fun j hj => ?_, huses _⟩, ?_⟩
  · rw [hnodes, hfree, Finset.erase_val, singleton_add, cons_erase hroot]
  · rw [hwords, if_neg hj]
  · rw [hwords, if_pos rfl, not_present_zero]

theorem leaf_of_translate (h : Alive B s₀ root s) (hva : IsUser va)
    (hz : vmmTranslateIn s root va = 0) : leaf s.mem root (key va) = none := by
  rw [translate_user h.tree (index_user hva)] at hz
  cases hl : leaf s.mem root (key va) with
  | none => rfl
  | some e =>
    have hpos := B.managed_pos _ (B.free_subset _ (h.frame_mem hl).1)
    rw [hl] at hz
    have hn : ((e &&& ~~~0xfff#64) ||| (va &&& 0xfff)).toNat = 0 := congrArg BitVec.toNat hz
    rw [toNat_pageByte] at hn
    omega

/-- **A fresh frame is mapped** where nothing is. -/
theorem map {f : ℕ} {s₁ : Vm A} (h : Alive B s₀ root s) (hva : Accepts va)
    (hz : vmmTranslateIn s root va = 0) (halloc : s.pmmAlloc B = some (f, s₁))
    (writable user : Bool) :
    (∃ s', vmmMapUser B s₁ root va (addrOf f) writable user = .error s' ∧ B.free s'.pool = ∅) ∨
      ∃ s', vmmMapUser B s₁ root va (addrOf f) writable user = .ok (0, s') ∧ Alive B s₀ root s' := by
  have ht : Taken B f s s₁ := Taken.of_alloc halloc
  obtain ⟨-, -, hpage⟩ := mapEntry_addrOf ht.addr writable user
  refine (map_user (ht.tree h.tree) hva (addrOf f) writable user).imp id ?_
  rintro ⟨s', he, hm⟩
  refine ⟨s', he, hm.tree, ?_, fun g hg => ?_, fun j hj => ?_, ?_⟩
  · rw [ht.frames h.tree hm (h.leaf_of_translate hva.1 hz) hpage, h.frames]
  · obtain ⟨hf, hnt⟩ := h.outside hg
    have hf₁ : g ∉ B.free s₁.pool := by
      rw [ht.free]
      exact fun hm => hf (Finset.mem_of_mem_erase hm)
    rw [← (tree_congr (ht.same h.tree)).1] at hnt
    rw [hm.mem g hf₁ hnt, ht.mem g hf, h.mem g hg]
  · rw [hm.shared j hj, ht.mem root h.tree.root_not_free, h.shared j hj]
  · exact (h.uses.trans (ht.uses _)).trans (hm.uses _)

end Alive

/-! ## A page that is given back -/

/-- **A page has left the tree** and its frame is free; or there was none. -/
structure Unmapped (B : Buddy A) (F : Finset ℕ) (root : ℕ) (va : BitVec 64) (s s' : Vm A) : Prop where
  tree : Tree B s' root
  frames : Vmm.tree 4 s'.mem root + (B.free s'.pool).val =
    Vmm.tree 4 s.mem root + (B.free s.pool).val
  leaf : ∀ k, leaf s'.mem root k = if k = key va then none else Vmm.leaf s.mem root k
  mem : ∀ g, g ∉ Vmm.tree 4 s.mem root → g ∉ B.free s.pool → s'.mem g = s.mem g
  shared : ∀ j, j ≠ userSlot → s'.mem root j = s.mem root j
  uses : B.Uses F s.pool s'.pool

/-- **`vmm_unmap_user`, and `pmm_free` of the frame it returns.** -/
theorem unmap_frees {F : Finset ℕ} (h : Tree B s root) (hF : F ⊆ B.managed)
    (hin : ∀ g ∈ Vmm.tree 4 s.mem root, g ∈ F)
    (hnd₀ : (Vmm.tree 4 s.mem root + (B.free s.pool).val).Nodup) (hva : IsUser va) :
    Unmapped B F root va s (if (vmmUnmapUser s root va).1 ≠ 0 then
        (vmmUnmapUser s root va).2.pmmFree B (frameOf (vmmUnmapUser s root va).1)
      else (vmmUnmapUser s root va).2) := by
  rcases unmap_user h (index_user hva) with ⟨hl, he⟩ | ⟨pt, e, hpt, -, hp, hl, he⟩
  · rw [he, if_neg (by simp)]
    refine ⟨h, rfl, fun k => ?_, fun _ _ _ => rfl, fun _ _ => rfl, .refl _⟩
    by_cases hk : k = key va
    · rw [if_pos hk, hk, hl]
    · rw [if_neg hk]
  have hf : frameOf e ∈ F :=
    hin _ (Radix.mem_nodes_of_reach (Alive.page_mem h hl) (by simp))
  have hpos := B.managed_pos _ (hF hf)
  have hne : e &&& ~~~0xfff#64 ≠ 0 := high_ne_zero (by omega)
  rw [he, if_pos hne]
  have hm : Mapped B root (key va) 0 s (s.store pt (key va).2.2 0) := Mapped.store h hpt
  generalize s.store pt (key va).2.2 0 = s₁ at hm
  rw [frameOf_high]
  -- the frame has left the tree and is not free yet
  have hsum : Vmm.tree 4 s₁.mem root + (B.free s₁.pool).val + {frameOf e} =
      Vmm.tree 4 s.mem root + (B.free s.pool).val := by
    have hframes := hm.frames
    have hpage : page e = {frameOf e} := by
      unfold page
      rw [next_of_present hp]
    have hzero : page 0 = 0 := by
      unfold page
      rw [next_of_not not_present_zero]
    rw [hl, hzero, add_zero, Option.map_some, Option.getD_some, hpage] at hframes
    exact hframes
  have hnd : (Vmm.tree 4 s₁.mem root + (B.free s₁.pool).val + {frameOf e}).Nodup := by
    rw [hsum]
    exact hnd₀
  have hff₁ : frameOf e ∉ B.free s₁.pool := fun hm =>
    disjoint_left.mp (nodup_add.mp hnd).2.2
      (mem_add.mpr (Or.inr hm)) (mem_singleton_self _)
  have hfr : Frees B F s₁ (s₁.pmmFree B (frameOf e)) {frameOf e} := Frees.pmmFree hF hf hff₁
  generalize s₁.pmmFree B (frameOf e) = s₂ at hfr
  have hfree₂ : Vmm.tree 4 s₁.mem root + (B.free s₂.pool).val =
      Vmm.tree 4 s.mem root + (B.free s.pool).val := by
    rw [hfr.free, ← add_assoc]
    exact hsum
  have hle : Vmm.tree 3 s₁.mem root ≤ Vmm.tree 4 s₁.mem root := Radix.nodes_le_succ 3 root
  have hnd3 := nodup_of_le (add_le_add_left hle (B.free s₂.pool).val) (hfree₂ ▸ hnd₀)
  have hsame : ∀ g ∈ Vmm.tree 3 s₁.mem root, s₂.mem g = s₁.mem g := fun g hg =>
    hfr.mem g (disjoint_left.mp (nodup_add.mp hnd3).2.2 hg)
  refine ⟨hm.tree.congr hsame hnd3, ?_, fun k => ?_, fun g hgt hgf => ?_, fun j hj => ?_,
    (hm.uses _).trans hfr.uses⟩
  · rw [(tree_congr hsame).2]
    exact hfree₂
  · rw [leaf_congr hsame, hm.leaf, not_present_zero]
    rfl
  · have hnot : g ∉ B.free s₂.pool := fun hg =>
      (mem_add.mp (hfree₂ ▸ mem_add.mpr (Or.inr hg))).elim hgt hgf
    rw [hfr.mem g hnot, hm.mem g hgf fun ht =>
      hgt (mem_of_le (Radix.nodes_le_succ 3 root) ht)]
  · rw [hsame root Tree.root_mem, hm.shared j hj]

namespace Alive

/-- **A page is unmapped** and its frame freed. -/
theorem unmap (h : Alive B s₀ root s) (hva : IsUser va) :
    ((vmmUnmapUser s root va).1 = 0 → Alive B s₀ root (vmmUnmapUser s root va).2) ∧
      ((vmmUnmapUser s root va).1 ≠ 0 → Alive B s₀ root
        ((vmmUnmapUser s root va).2.pmmFree B (frameOf (vmmUnmapUser s root va).1))) := by
  have hu := unmap_frees h.tree (B.free_subset _) (fun _ => h.mem_tree) h.nodup hva
  have halive : ∀ s', Unmapped B (B.free s₀.pool) root va s s' → Alive B s₀ root s' := fun s' hu =>
    ⟨hu.tree, hu.frames.trans h.frames,
      fun g hg => by rw [hu.mem g (fun ht => hg (h.mem_tree ht)) (h.outside hg).1, h.mem g hg],
      fun j hj => by rw [hu.shared j hj, h.shared j hj], h.uses.trans hu.uses⟩
  refine ⟨fun hz => halive _ ?_, fun hne => halive _ ?_⟩
  · rwa [if_neg (not_not.mpr hz)] at hu
  · rwa [if_pos hne] at hu

/-- **Another address space is copied** into one that is still empty. -/
theorem dup (h : Alive B s₀ root s) (hempty : present (s.mem root userSlot) = false)
    (hs : Source B s src root) : Alive B s₀ root (dupUserAspace B s src root).2 := by
  have hd : Empty B s root := ⟨h.tree.root_not_free, hempty⟩
  have hframes := h.frames
  rw [hd.tree_eq] at hframes
  have hne : ∀ g, g ∉ B.free s₀.pool → g ∉ B.free s.pool ∧ g ≠ root := by
    intro g hg
    refine ⟨(h.outside hg).1, ?_⟩
    rintro rfl
    exact hg (h.mem_tree Radix.mem_nodes_self)
  rcases dup_spec hs hd with ⟨-, hc⟩ | ⟨-, hfree, hslot, hshared, hmem, huses⟩
  · refine ⟨hc.tree, by rw [hc.frames]; exact hframes, fun g hg => ?_, fun j hj => ?_, ?_⟩
    · rw [hc.mem g (hne g hg).1 (hne g hg).2, h.mem g hg]
    · rw [hc.shared j hj, h.shared j hj]
    · exact h.uses.trans (hc.uses _)
  · have hd' : Empty B (dupUserAspace B s src root).2 root :=
      ⟨by rw [hfree]; exact hd.used, hslot⟩
    refine ⟨hd'.tree, by rw [hd'.tree_eq, hfree]; exact hframes, fun g hg => ?_, fun j hj => ?_, ?_⟩
    · rw [hmem g (hne g hg).1 (hne g hg).2, h.mem g hg]
    · rw [hshared j hj, h.shared j hj]
    · exact h.uses.trans (huses.mono h.free_subset)

/-- **`vmm_destroy_user_aspace`** gives back every frame. -/
theorem destroy (h : Alive B s₀ root s)
    (hslots : ∀ i, i ≠ 0 → i ≠ 511 → i ≠ userSlot → present (s₀.mem masterPml4 i) = false) :
    B.free (vmmDestroyUserAspace B s root).pool = B.free s₀.pool ∧
      B.Uses (B.free s₀.pool) s₀.pool (vmmDestroyUserAspace B s root).pool := by
  have hfr := destroy_frees (B.free_subset s₀.pool) h.tree (fun g hg => h.mem_tree hg) h.nodup
    (fun i h0 h511 hi => by rw [h.shared i hi]; exact hslots i h0 h511 hi)
  refine ⟨Finset.val_injective ?_, h.uses.trans hfr.uses⟩
  rw [hfr.free, add_comm, h.frames]

end Alive

end Lnxrm.Vmm
