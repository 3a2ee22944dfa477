import Lnxrm.Vmm.Helpers.Tables

/-!
# Mapping, unmapping and translating one page

Proof layer. Each of the operations on a user address, in terms of the
leaf entry that its path leads to.
-/

namespace Lnxrm.Vmm

open Function
open Radix (reach)

variable {A : Type} {B : Buddy A} {s s' : Vm A} {root : ℕ} {va pa : BitVec 64}
  {k : Fin 512 × Fin 512 × Fin 512}

/-- The page table that a page is in, if there is one. -/
def tableOf (mem : ℕ → Page) (root : ℕ) (k : Fin 512 × Fin 512 × Fin 512) : Option ℕ :=
  tableAt mem root [userSlot, k.1, k.2.1]

theorem leaf_eq {pt : ℕ} (h : Tree B s root) (hpt : tableOf s.mem root k = some pt) :
    leaf s.mem root k = if present (s.mem pt k.2.2) then some (s.mem pt k.2.2) else none := by
  unfold leaf
  rw [show tableAt s.mem root [userSlot, k.1, k.2.1] = some pt from hpt, Option.bind_some,
    view_of_ne (h.ne_root hpt (by simp) (by simp))]

theorem leaf_none (hpt : tableOf s.mem root k = none) : leaf s.mem root k = none := by
  unfold leaf
  rw [show tableAt s.mem root [userSlot, k.1, k.2.1] = none from hpt]
  rfl

/-- **`walk`** of a user address ends at its page table. -/
theorem walk_user (h : Tree B s root) (hva : index va 39 = userSlot) :
    walk s root va = match tableOf s.mem root (key va) with
      | none => .fail
      | some pt => .pte pt (key va).2.2 := by
  have hat : ∀ p j, tableAt s.mem root (p ++ [j]) =
      (tableAt s.mem root p).bind fun b => next (view s.mem root b j) := fun p j => Radix.reach_snoc
  have h0 : tableAt s.mem root [] = some root := rfl
  have h1 : tableAt s.mem root [userSlot] = next (s.mem root userSlot) := by
    rw [show [userSlot] = [] ++ [userSlot] from rfl, hat, h0, Option.bind_some, view_userSlot]
  have h2 : tableAt s.mem root [userSlot, (key va).1] =
      (tableAt s.mem root [userSlot]).bind fun b => next (view s.mem root b (key va).1) :=
    hat [userSlot] (key va).1
  have h3 : tableOf s.mem root (key va) =
      (tableAt s.mem root [userSlot, (key va).1]).bind fun b => next (view s.mem root b (key va).2.1) :=
    hat [userSlot, (key va).1] (key va).2.1
  unfold walk
  simp only [hva]
  cases he4 : present (s.mem root userSlot) with
  | false =>
    rw [next_of_not he4] at h1
    rw [h1, Option.bind_none] at h2
    rw [h2, Option.bind_none] at h3
    rw [h3]
    rfl
  | true =>
    rw [next_of_present he4] at h1
    have hne := h.ne_root h1 (by simp) (by simp)
    rw [h1, Option.bind_some, view_of_ne hne] at h2
    generalize frameOf (s.mem root userSlot) = pdpt at h2 ⊢
    rw [if_neg (by simp), show index va 30 = (key va).1 from rfl]
    cases he3 : present (s.mem pdpt (key va).1) with
    | false =>
      rw [next_of_not he3] at h2
      rw [h2, Option.bind_none] at h3
      rw [h3]
      rfl
    | true =>
      rw [next_of_present he3] at h2
      have hne2 := h.ne_root h2 (by simp) (by simp)
      have hsmall := h.small _ _ (key va).2.1 h2
      rw [h2, Option.bind_some] at h3
      rw [view_of_ne hne2] at h3 hsmall
      generalize frameOf (s.mem pdpt (key va).1) = pd at h3 hsmall ⊢
      rw [if_neg (by simp), show index va 21 = (key va).2.1 from rfl]
      cases he2 : present (s.mem pd (key va).2.1) with
      | false =>
        rw [next_of_not he2] at h3
        rw [h3]
        rfl
      | true =>
        rw [next_of_present he2] at h3
        rw [h3, if_neg (by simp), if_neg (by simp [hsmall he2])]
        rfl

theorem not_alias (va : BitVec 64) : ¬ (aliasBase ≤ va ∧ va < aliasBase + 0x100000000) := by
  rintro ⟨hlo, hhi⟩
  have hsum : aliasBase + 0x100000000 = 0x80000000 := by decide
  rw [hsum] at hhi
  have hlo' : aliasBase.toNat ≤ va.toNat := hlo
  have hhi' : va.toNat < (0x80000000 : BitVec 64).toNat := hhi
  have h1 : aliasBase.toNat = 0xffffffff80000000 := by decide
  have h2 : (0x80000000 : BitVec 64).toNat = 0x80000000 := by decide
  omega

/-- **`vmm_translate_in`** of a user address -/
theorem translate_user (h : Tree B s root) (hva : index va 39 = userSlot) :
    vmmTranslateIn s root va = match leaf s.mem root (key va) with
      | none => 0
      | some e => (e &&& ~~~0xfff#64) ||| (va &&& 0xfff) := by
  unfold vmmTranslateIn
  rw [if_neg (not_alias va), walk_user h hva]
  cases hpt : tableOf s.mem root (key va) with
  | none => rw [leaf_none hpt]
  | some pt =>
    rw [leaf_eq h hpt]
    cases hp : present (s.mem pt (key va).2.2) with
    | false => simp [hp]
    | true => simp [hp]

/-- **`vmm_unmap_user`** of a user address clears its leaf. -/
theorem unmap_user (h : Tree B s root) (hva : index va 39 = userSlot) :
    (leaf s.mem root (key va) = none ∧ vmmUnmapUser s root va = (0, s)) ∨
      ∃ pt e, tableOf s.mem root (key va) = some pt ∧ s.mem pt (key va).2.2 = e ∧ present e = true ∧
        leaf s.mem root (key va) = some e ∧
        vmmUnmapUser s root va = (e &&& ~~~0xfff#64, s.store pt (key va).2.2 0) := by
  unfold vmmUnmapUser
  rw [walk_user h hva]
  cases hpt : tableOf s.mem root (key va) with
  | none => exact Or.inl ⟨leaf_none hpt, rfl⟩
  | some pt =>
    rw [leaf_eq h hpt]
    cases hp : present (s.mem pt (key va).2.2) with
    | false => exact Or.inl ⟨by simp, by simp [hp]⟩
    | true => exact Or.inr ⟨pt, _, rfl, rfl, hp, by simp, by simp [hp]⟩

/-! ## Mapping -/

/-- The leaf that `vmm_map_user` writes. -/
def mapEntry (pa : BitVec 64) (writable user : Bool) : BitVec 64 :=
  pa ||| pgP ||| (if writable then pgW else 0) ||| (if user then pgU else 0)

theorem mapEntry_addrOf {f : ℕ} (hf : f * 4096 < 2 ^ 64) (w u : Bool) :
    present (mapEntry (addrOf f) w u) = true ∧ frameOf (mapEntry (addrOf f) w u) = f ∧
      page (mapEntry (addrOf f) w u) = {f} := by
  have haddr := toNat_addrOf hf
  obtain ⟨hpres, -, hframe⟩ := leafEntry (show (addrOf f).toNat % 4096 = 0 by omega) w u
  rw [haddr, Nat.mul_div_cancel _ (by decide)] at hframe
  refine ⟨hpres, hframe, ?_⟩
  unfold page mapEntry
  rw [next_of_present hpres, hframe]

/-- `vmm_map_user` takes the address. -/
def Accepts (va : BitVec 64) : Prop := IsUser va ∧ va.toNat % 4096 = 0

instance (va : BitVec 64) : Decidable (Accepts va) := inferInstanceAs (Decidable (_ ∧ _))

theorem accepts_iff (va : BitVec 64) :
    ¬ (va.toNat < userBase ∨ userMaxVma ≤ va.toNat ∨ va &&& 0xfff ≠ 0) ↔ Accepts va := by
  have hlow : va &&& 0xfff = 0 ↔ va.toNat % 4096 = 0 := by
    rw [← toNat_low]
    exact ⟨fun e => by rw [e]; rfl, fun e => BitVec.eq_of_toNat_eq e⟩
  unfold Accepts IsUser
  rw [not_or, not_or, not_lt, not_le, not_not, hlow]
  tauto

theorem map_rejected (h : ¬ Accepts va) (writable user : Bool) :
    vmmMapUser B s root va pa writable user = .ok (efail, s) := by
  have hc : va.toNat < userBase ∨ userMaxVma ≤ va.toNat ∨ va &&& 0xfff ≠ 0 := by
    by_contra hno
    exact h ((accepts_iff va).mp hno)
  unfold vmmMapUser
  rw [if_pos hc]
  rfl

/-- What the change of one leaf does beside it. -/
structure Mapped (B : Buddy A) (root : ℕ) (k : Fin 512 × Fin 512 × Fin 512) (e : BitVec 64)
    (s s' : Vm A) : Prop where
  tree : Tree B s' root
  tables : Vmm.tree 3 s'.mem root + (B.free s'.pool).val =
    Vmm.tree 3 s.mem root + (B.free s.pool).val
  frames : Vmm.tree 4 s'.mem root + (B.free s'.pool).val + ((leaf s.mem root k).map page).getD 0 =
    Vmm.tree 4 s.mem root + (B.free s.pool).val + page e
  mem : ∀ g, g ∉ B.free s.pool → g ∉ Vmm.tree 3 s.mem root → s'.mem g = s.mem g
  shared : ∀ j, j ≠ userSlot → s'.mem root j = s.mem root j
  leaf : ∀ k', leaf s'.mem root k' = if k' = k then (if present e then some e else none)
    else Vmm.leaf s.mem root k'
  uses : ∀ F, B.Uses F s.pool s'.pool

theorem page_word {pt : ℕ} (h : Tree B s root) (hpt : tableOf s.mem root k = some pt) :
    page (s.mem pt k.2.2) = ((leaf s.mem root k).map page).getD 0 := by
  rw [leaf_eq h hpt]
  cases hp : present (s.mem pt k.2.2) with
  | false =>
    unfold page
    rw [next_of_not hp]
    rfl
  | true => rfl

theorem Mapped.of_store {pt : ℕ} {e : BitVec 64} {s₁ : Vm A} (h₁ : Tree B s₁ root)
    (hg : Grows B root s s₁) (hleaf : ∀ k, Vmm.leaf s₁.mem root k = Vmm.leaf s.mem root k)
    (hpt : tableOf s₁.mem root k = some pt) : Mapped B root k e s (s₁.store pt k.2.2 e) := by
  obtain ⟨htree, h3, h4, hmem, -, hother, hself⟩ := store_leaf (e := e) (k := k) h₁ hpt
  have hptmem : pt ∈ Vmm.tree 3 s₁.mem root := Tree.mem_of_tableAt hpt (by simp)
  have hpool : (s₁.store pt k.2.2 e).pool = s₁.pool := rfl
  refine ⟨htree, ?_, ?_, fun g hgf hgt => ?_, fun j hj => ?_, fun k' => ?_, hg.uses⟩
  · rw [h3, hpool]
    exact hg.tables
  · rw [page_word h₁ hpt, hleaf] at h4
    rw [hpool, add_right_comm, h4, add_right_comm, hg.frames]
  · obtain ⟨hf', ht'⟩ := (hg.mem_iff g).mpr ⟨hgf, hgt⟩
    rw [hmem g fun e => ht' (e ▸ hptmem), hg.mem g hgf hgt]
  · rw [hmem root fun e => h₁.ne_root hpt (by simp) (by simp) e.symm, hg.shared j hj]
  · by_cases hk : k' = k
    · rw [if_pos hk, hk]
      exact hself
    · rw [if_neg hk, hother k' hk, hleaf]

theorem Mapped.store {pt : ℕ} {e : BitVec 64} (h : Tree B s root)
    (hpt : tableOf s.mem root k = some pt) : Mapped B root k e s (s.store pt k.2.2 e) :=
  Mapped.of_store h Grows.refl (fun _ => rfl) hpt

/-- **`vmm_map_user`** of an address it takes sets the leaf, and panics only
when no frame is free. -/
theorem map_user (h : Tree B s root) (hva : Accepts va) (pa : BitVec 64) (writable user : Bool) :
    (∃ s', vmmMapUser B s root va pa writable user = .error s' ∧ B.free s'.pool = ∅) ∨
      ∃ s', vmmMapUser B s root va pa writable user = .ok (0, s') ∧
        Mapped B root (key va) (mapEntry pa writable user) s s' := by
  unfold vmmMapUser
  rw [if_neg ((accepts_iff va).mpr hva)]
  simp only [index_user hva.1]
  rcases ensureTable_spec (i := userSlot) h (p := []) rfl (by simp) (fun _ => rfl) with
    ⟨he, hfree⟩ | ⟨pdpt, s₁, he, h₁, hg₁, hat₁, hl₁⟩
  · exact Or.inl ⟨s, by simp [he, bind, Except.bind], hfree⟩
  have hp₁ : tableAt s₁.mem root [userSlot] = some pdpt := (hat₁ _ (by simp)).trans (if_pos rfl)
  rcases ensureTable_spec (i := index va 30) h₁ hp₁ (by simp) (by simp) with
    ⟨he₂, hfree⟩ | ⟨pd, s₂, he₂, h₂, hg₂, hat₂, hl₂⟩
  · exact Or.inl ⟨s₁, by simp [he, he₂, bind, Except.bind], hfree⟩
  have hp₂ : tableAt s₂.mem root [userSlot, index va 30] = some pd :=
    (hat₂ _ (by simp)).trans (if_pos rfl)
  rcases ensureTable_spec (i := index va 21) h₂ hp₂ (by simp) (by simp) with
    ⟨he₃, hfree⟩ | ⟨pt, s₃, he₃, h₃, hg₃, hat₃, hl₃⟩
  · exact Or.inl ⟨s₂, by simp [he, he₂, he₃, bind, Except.bind], hfree⟩
  · refine Or.inr ⟨_, by simp only [he, he₂, he₃, bind, Except.bind]; rfl, ?_⟩
    exact Mapped.of_store h₃ ((hg₁.trans hg₂).trans hg₃)
      (fun k => ((hl₃ k).trans (hl₂ k)).trans (hl₁ k)) ((hat₃ _ (by simp)).trans (if_pos rfl))

/-! ## Fresh pages -/

/-- A frame is taken; it and the other free frames may be written. -/
structure Taken (B : Buddy A) (f : ℕ) (s s' : Vm A) : Prop where
  was : f ∈ B.free s.pool
  free : B.free s'.pool = (B.free s.pool).erase f
  addr : f * 4096 < 2 ^ 64
  mem : ∀ g, g ∉ B.free s.pool → s'.mem g = s.mem g
  uses : ∀ F, B.Uses F s.pool s'.pool

namespace Taken

variable {f : ℕ}

theorem of_alloc (h : s.pmmAlloc B = some (f, s')) : Taken B f s s' := by
  obtain ⟨hf, hfree, hlt, hmem, huses⟩ := pmmAlloc_some h
  exact ⟨hf, hfree, hlt, hmem, huses⟩

theorem fill (h : Taken B f s s') (page : Page) : Taken B f s (s'.fill f page) where
  was := h.was
  free := h.free
  addr := h.addr
  mem g hg := by
    have hne : g ≠ f := fun e => hg (e ▸ h.was)
    rw [← h.mem g hg]
    exact update_of_ne hne _ _
  uses := h.uses

theorem same (h : Taken B f s s') (ht : Tree B s root) :
    ∀ g ∈ Vmm.tree 3 s.mem root, s'.mem g = s.mem g := fun g hg => h.mem g (ht.not_free hg)

theorem tree (h : Taken B f s s') (ht : Tree B s root) : Tree B s' root := by
  refine ht.congr (h.same ht) (Multiset.nodup_of_le ?_ ht.nodup)
  rw [h.free, Finset.erase_val]
  exact add_le_add_right (Multiset.erase_le _ _) _

/-- **A fresh page is mapped where nothing was.** It moves from the free
frames into the tree. -/
theorem frames {s'' : Vm A} {e : BitVec 64} (h : Taken B f s s') (ht : Tree B s root)
    (hm : Mapped B root k e s' s'') (hk : leaf s.mem root k = none) (he : page e = {f}) :
    Vmm.tree 4 s''.mem root + (B.free s''.pool).val =
      Vmm.tree 4 s.mem root + (B.free s.pool).val := by
  have hframes := hm.frames
  rw [leaf_congr (h.same ht), hk, (tree_congr (h.same ht)).2, h.free, he] at hframes
  have hsum : Vmm.tree 4 s.mem root + ((B.free s.pool).erase f).val + {f} =
      Vmm.tree 4 s.mem root + {f} + ((B.free s.pool).erase f).val := add_right_comm _ _ _
  rw [hsum, add_erase h.was] at hframes
  simpa using hframes

end Taken

/-! ## New address spaces -/

/-- **`vmm_new_user_aspace`** makes an empty user tree. -/
theorem newUserAspace_spec (hmaster : masterPml4 ∉ B.free s.pool) :
    (∃ s', vmmNewUserAspace B s = .error s' ∧ B.free s'.pool = ∅) ∨
      ∃ root s', vmmNewUserAspace B s = .ok (root, s') ∧ root ∈ B.free s.pool ∧
        B.free s'.pool = (B.free s.pool).erase root ∧ (∀ F, B.Uses F s.pool s'.pool) ∧
        Tree B s' root ∧
        (∀ d, tree d s'.mem root = {root}) ∧ (∀ k, leaf s'.mem root k = none) ∧
        (∀ g, g ∉ B.free s.pool → s'.mem g = s.mem g) ∧
        ∀ j, s'.mem root j = if j = userSlot then 0 else s.mem masterPml4 j := by
  unfold vmmNewUserAspace
  cases halloc : s.pmmAlloc B with
  | none => exact Or.inl ⟨s, rfl, pmmAlloc_none halloc⟩
  | some r =>
    obtain ⟨root, s₁⟩ := r
    obtain ⟨hroot, hfree, -, hmem, huses⟩ := pmmAlloc_some halloc
    refine Or.inr ⟨root, _, rfl, hroot, hfree, huses, ?_⟩
    generalize hs' : s₁.fill root (fun i => if i = userSlot then 0 else s₁.mem masterPml4 i) = s'
    have hpool : B.free s'.pool = (B.free s.pool).erase root := by
      rw [← hs']
      exact hfree
    have hwords : ∀ j, s'.mem root j = if j = userSlot then 0 else s.mem masterPml4 j := by
      intro j
      rw [← hmem masterPml4 hmaster, ← hs']
      show update s₁.mem root _ root j = _
      rw [update_self]
    have hview : ∀ j, view s'.mem root root j = 0 := by
      intro j
      unfold view
      rw [update_self, hwords]
      by_cases hj : j = userSlot
      · rw [if_pos hj, if_pos hj]
      · rw [if_neg hj]
    have htree : ∀ d, tree d s'.mem root = {root} := fun d =>
      Radix.nodes_of_empty fun j => by rw [hview j]; exact next_of_not not_present_zero
    have hat : ∀ p, tableAt s'.mem root p = if p = [] then some root else none :=
      fun p => reach_cleared hview p
    refine ⟨⟨?_, fun i3 pd i2 hpd => ?_⟩, htree, fun k => ?_, fun g hg => ?_, hwords⟩
    · rw [htree, hpool, Finset.erase_val, Multiset.singleton_add, Multiset.cons_erase hroot]
      exact (B.free s.pool).nodup
    · rw [hat] at hpd
      cases hpd
    · unfold leaf
      rw [hat]
      rfl
    · rw [← hs', ← hmem g hg]
      have hne : g ≠ root := fun e => hg (by rw [e]; exact hroot)
      exact update_of_ne hne _ _

end Lnxrm.Vmm
