import Lnxrm.Common.Radix
import Lnxrm.Vmm.Helpers.Entries

/-!
# The tables of an address space

Proof layer. The tables below the user slot of a root are a radix tree in
physical memory; `view` hides the other slots of the root, which are shared
with every other address space. What an operation allocates it hangs into
the tree, so the frames of the tree and the free frames together stay the
same (`Grows`), and with them that no frame is met twice.
-/

namespace Lnxrm.Vmm

open Function
open Radix (nodes reach below write)

/-- The frame an entry points at. -/
def next (e : BitVec 64) : Option ℕ := if present e then some (frameOf e) else none

/-- Memory with the shared slots of the root left out. -/
def view (mem : ℕ → Page) (root : ℕ) : ℕ → Page :=
  update mem root fun i => if i = userSlot then mem root i else 0

/-- The frames of the user tree down to depth `d`: tables for `3`, tables
and pages for `4`. -/
def tree (d : ℕ) (mem : ℕ → Page) (root : ℕ) : Multiset ℕ := nodes next (view mem root) d root

/-- The table at the end of a path from the root. -/
def tableAt (mem : ℕ → Page) (root : ℕ) (p : List (Fin 512)) : Option ℕ :=
  reach next (view mem root) root p

/-- The entry of a user page, if it is mapped. -/
def leaf (mem : ℕ → Page) (root : ℕ) (k : Fin 512 × Fin 512 × Fin 512) : Option (BitVec 64) :=
  (tableAt mem root [userSlot, k.1, k.2.1]).bind fun pt =>
    if present (view mem root pt k.2.2) then some (view mem root pt k.2.2) else none

variable {A : Type} {B : Buddy A} {s s' s'' : Vm A} {root : ℕ} {mem mem' : ℕ → Page} {g t : ℕ}
  {i : Fin 512} {e : BitVec 64} {p : List (Fin 512)}

theorem next_of_present (h : present e = true) : next e = some (frameOf e) := if_pos h

theorem next_of_not (h : present e = false) : next e = none := if_neg (by simp [h])

theorem view_of_ne (h : g ≠ root) : view mem root g = mem g := update_of_ne h _ _

theorem view_userSlot : view mem root root userSlot = mem root userSlot := by
  unfold view
  rw [update_self, if_pos rfl]

theorem view_apply (h : g = root → i = userSlot) : view mem root g i = mem g i := by
  by_cases hg : g = root
  · rw [h hg, hg, view_userSlot]
  · rw [view_of_ne hg]

theorem view_congr (h : mem' g = mem g) (hroot : g ≠ root) :
    view mem' root g = view mem root g := by
  rw [view_of_ne hroot, view_of_ne hroot, h]

theorem view_congr_root (h : mem' root userSlot = mem root userSlot) :
    view mem' root root = view mem root root := by
  unfold view
  rw [update_self, update_self]
  funext j
  by_cases hj : j = userSlot
  · rw [if_pos hj, if_pos hj, hj, h]
  · rw [if_neg hj, if_neg hj]

theorem view_write (h : g = root → i = userSlot) :
    view (write mem g i e) root = write (view mem root) g i e := by
  funext x
  by_cases hx : x = root
  · subst hx
    by_cases hg : g = x
    · subst hg
      obtain rfl := h rfl
      funext j
      unfold view write
      simp only [update_self]
      by_cases hj : j = userSlot
      · subst hj
        simp
      · rw [if_neg hj, update_of_ne hj, if_neg hj]
    · have hxg : x ≠ g := Ne.symm hg
      rw [Radix.write_of_ne hxg]
      refine view_congr_root ?_
      rw [Radix.write_of_ne hxg]
  · rw [view_of_ne hx]
    by_cases hg : x = g
    · subst hg
      unfold write
      rw [update_self, update_self, view_of_ne hx]
    · rw [Radix.write_of_ne hg, Radix.write_of_ne hg, view_of_ne hx]

/-- **A user tree in order**: no table is met twice or free, and there are
no large pages in it. -/
structure Tree (B : Buddy A) (s : Vm A) (root : ℕ) : Prop where
  nodup : (tree 3 s.mem root + (B.free s.pool).val).Nodup
  small : ∀ i3 pd i2, tableAt s.mem root [userSlot, i3] = some pd →
    present (view s.mem root pd i2) = true → large (view s.mem root pd i2) = false

namespace Tree

theorem tree_nodup (h : Tree B s root) : (tree 3 s.mem root).Nodup :=
  (Multiset.nodup_add.mp h.nodup).1

theorem not_free (h : Tree B s root) (hg : g ∈ tree 3 s.mem root) : g ∉ B.free s.pool :=
  Multiset.disjoint_left.mp (Multiset.nodup_add.mp h.nodup).2.2 hg

theorem root_mem : root ∈ tree 3 mem root := Radix.mem_nodes_self

theorem root_not_free (h : Tree B s root) : root ∉ B.free s.pool := h.not_free root_mem

theorem mem_of_tableAt (hp : tableAt mem root p = some g) (hlen : p.length ≤ 3) :
    g ∈ tree 3 mem root := Radix.mem_nodes_of_reach hp hlen

theorem ne_root (h : Tree B s root) (hp : tableAt s.mem root p = some g) (hlen : p.length ≤ 3)
    (hne : p ≠ []) : g ≠ root := by
  rintro rfl
  exact hne (Radix.reach_inj h.tree_nodup (q := []) hp rfl hlen (by simp))

theorem tableAt_snoc (h : Tree B s root) (hp : tableAt s.mem root p = some g) (hlen : p.length ≤ 3)
    (hne : p ≠ []) : tableAt s.mem root (p ++ [i]) = next (s.mem g i) := by
  have hg := h.ne_root hp hlen hne
  unfold tableAt at hp ⊢
  rw [Radix.reach_snoc, hp, Option.bind_some, view_of_ne hg]

theorem tableAt_of_prefix {q : List (Fin 512)} (hp : tableAt mem root p = none) (hq : p <+: q) :
    tableAt mem root q = none := by
  obtain ⟨r, rfl⟩ := hq
  unfold tableAt at hp ⊢
  rw [Radix.reach_append, hp]
  rfl

end Tree

/-! ## Frame -/

theorem view_congr_of (h : ∀ g ∈ tree 3 mem root, mem' g = mem g) :
    ∀ g ∈ tree 3 mem root, view mem' root g = view mem root g := by
  intro g hg
  by_cases hgr : g = root
  · subst hgr
    exact view_congr_root (congrFun (h g hg) _)
  · exact view_congr (h g hg) hgr

theorem tree_congr (h : ∀ g ∈ tree 3 mem root, mem' g = mem g) :
    tree 3 mem' root = tree 3 mem root ∧ tree 4 mem' root = tree 4 mem root :=
  ⟨Radix.nodes_congr_of (view_congr_of h), Radix.nodes_congr (view_congr_of h)⟩

theorem tableAt_congr (h : ∀ g ∈ tree 3 mem root, mem' g = mem g) (hp : p.length ≤ 4) :
    tableAt mem' root p = tableAt mem root p :=
  Radix.reach_congr (view_congr_of h) (by omega)

theorem leaf_congr (h : ∀ g ∈ tree 3 mem root, mem' g = mem g)
    (k : Fin 512 × Fin 512 × Fin 512) : leaf mem' root k = leaf mem root k := by
  unfold leaf
  rw [tableAt_congr h (by simp)]
  cases hpt : tableAt mem root [userSlot, k.1, k.2.1] with
  | none => rfl
  | some pt =>
    simp only [Option.bind_some, view_congr_of h pt (Tree.mem_of_tableAt hpt (by simp))]

theorem Tree.congr (h : Tree B s root) (hmem : ∀ g ∈ tree 3 s.mem root, s'.mem g = s.mem g)
    (hnd : (tree 3 s.mem root + (B.free s'.pool).val).Nodup) : Tree B s' root where
  nodup := by rwa [(tree_congr hmem).1]
  small i3 pd i2 hpd := by
    rw [tableAt_congr hmem (by simp)] at hpd
    rw [view_congr_of hmem pd (Tree.mem_of_tableAt hpd (by simp))]
    exact h.small i3 pd i2 hpd

/-- What an operation that only hangs new tables into the tree does. -/
structure Grows (B : Buddy A) (root : ℕ) (s s' : Vm A) : Prop where
  tables : tree 3 s'.mem root + (B.free s'.pool).val = tree 3 s.mem root + (B.free s.pool).val
  frames : tree 4 s'.mem root + (B.free s'.pool).val = tree 4 s.mem root + (B.free s.pool).val
  mem : ∀ g, g ∉ B.free s.pool → g ∉ tree 3 s.mem root → s'.mem g = s.mem g
  shared : ∀ j, j ≠ userSlot → s'.mem root j = s.mem root j
  free : B.free s'.pool ⊆ B.free s.pool
  uses : ∀ F, B.Uses F s.pool s'.pool

namespace Grows

theorem refl : Grows B root s s :=
  ⟨rfl, rfl, fun _ _ _ => rfl, fun _ _ => rfl, Finset.Subset.refl _, fun _ => .refl _⟩

theorem mem_iff (h : Grows B root s s') (g : ℕ) :
    g ∉ B.free s'.pool ∧ g ∉ tree 3 s'.mem root ↔ g ∉ B.free s.pool ∧ g ∉ tree 3 s.mem root := by
  have := congrArg (g ∈ ·) h.tables
  simp only [Multiset.mem_add, Finset.mem_val, eq_iff_iff] at this
  tauto

theorem trans (h : Grows B root s s') (h' : Grows B root s' s'') : Grows B root s s'' where
  tables := h'.tables.trans h.tables
  frames := h'.frames.trans h.frames
  mem g hf ht := by
    obtain ⟨hf', ht'⟩ := (h.mem_iff g).mpr ⟨hf, ht⟩
    rw [h'.mem g hf' ht', h.mem g hf ht]
  shared j hj := (h'.shared j hj).trans (h.shared j hj)
  free := h'.free.trans h.free
  uses F := (h.uses F).trans (h'.uses F)

end Grows

/-! ## A fresh frame -/

theorem pmmAlloc_none (h : s.pmmAlloc B = none) : B.free s.pool = ∅ :=
  B.alloc_none (Option.map_eq_none_iff.mp h)

theorem pmmAlloc_some (h : s.pmmAlloc B = some (t, s')) :
    t ∈ B.free s.pool ∧ B.free s'.pool = (B.free s.pool).erase t ∧ t * 4096 < 2 ^ 64 ∧
      (∀ g ∉ B.free s.pool, s'.mem g = s.mem g) ∧ ∀ F, B.Uses F s.pool s'.pool := by
  obtain ⟨⟨f, a', m'⟩, hr, e⟩ := Option.map_eq_some_iff.mp h
  cases e
  obtain ⟨hf, hfree, hmem⟩ := B.alloc_some hr
  exact ⟨hf, hfree, B.addr_lt f (B.free_subset _ hf), hmem, fun F => (FramePool.Uses.refl _).alloc hr⟩

theorem reach_cleared (h : ∀ j, mem t j = 0) (r : List (Fin 512)) :
    reach next mem t r = if r = [] then some t else none := by
  cases r with
  | nil => rfl
  | cons j r =>
    simp only [reach, h j, next_of_not not_present_zero, Option.bind_none]
    rfl

theorem add_erase {F : Finset ℕ} (ht : t ∈ F) (T : Multiset ℕ) :
    T + {t} + (F.erase t).val = T + F.val := by
  rw [Finset.erase_val, add_assoc, Multiset.singleton_add, Multiset.cons_erase ht]

theorem link_fresh {parent : ℕ} (h : Tree B s root) (hp : tableAt s.mem root p = some parent)
    (hpl : p.length ≤ 2) (hi : p = [] → i = userSlot) (hno : present (s.mem parent i) = false)
    (ht : t ∈ B.free s.pool) (hmem : ∀ g, g ∉ B.free s.pool → s'.mem g = s.mem g)
    (hfree : B.free s'.pool = (B.free s.pool).erase t) (hlt : t * 4096 < 2 ^ 64)
    (huses : ∀ F, B.Uses F s.pool s'.pool) :
    let e := addrOf t ||| pgP ||| pgW ||| pgU
    let s'' := (s'.fill t fun _ => 0).store parent i e
    Tree B s'' root ∧ Grows B root s s'' ∧ (∀ q : List (Fin 512), q.length ≤ 4 →
        tableAt s''.mem root q = if q = p ++ [i] then some t else tableAt s.mem root q) ∧
      ∀ k, leaf s''.mem root k = leaf s.mem root k := by
  intro e s''
  have hpar : parent ∈ tree 3 s.mem root := Tree.mem_of_tableAt hp (by omega)
  have hparf := h.not_free hpar
  have hrootf := h.root_not_free
  have htp : t ≠ parent := fun e => hparf (e ▸ ht)
  have htr : t ≠ root := fun e => hrootf (e ▸ ht)
  have hi' : parent = root → i = userSlot := by
    intro e
    refine hi ?_
    by_contra hne
    exact h.ne_root hp (by omega) hne e
  -- the memory with the fresh frame cleared
  generalize hm2 : update s'.mem t (fun _ => 0) = m2
  have hm2t : m2 t = fun _ => 0 := by rw [← hm2, update_self]
  have hm2g : ∀ g, g ∉ B.free s.pool → m2 g = s.mem g := by
    intro g hg
    rw [← hm2, update_of_ne fun e => hg (by rw [e]; exact ht)]
    exact hmem g hg
  have hs'' : s''.mem = write m2 parent i e := by
    rw [← hm2]
    rfl
  have hm2v : ∀ g ∈ tree 3 s.mem root, m2 g = s.mem g := fun g hg => hm2g g (h.not_free hg)
  have hv := view_congr_of hm2v
  obtain ⟨htree3, htree4⟩ := tree_congr hm2v
  have hat : ∀ q : List (Fin 512), q.length ≤ 4 → tableAt m2 root q = tableAt s.mem root q :=
    fun q hq => tableAt_congr hm2v hq
  have hnd : (nodes next (view m2 root) 3 root).Nodup := by
    show (tree 3 m2 root).Nodup
    rw [htree3]
    exact h.tree_nodup
  have hp2 : reach next (view m2 root) root p = some parent := (hat p (by omega)).trans hp
  have hv'' : view s''.mem root = write (view m2 root) parent i e := by
    rw [hs'', view_write hi']
  have hold : view m2 root parent i = s.mem parent i := by
    rw [view_apply hi', hm2g parent hparf]
  have hnext : next e = some t := by
    rw [next_of_present (present_tableEntry hlt), frameOf_tableEntry hlt]
  have hcleared : ∀ j, view s''.mem root t j = 0 := by
    intro j
    rw [view_of_ne htr, hs'', Radix.write_of_ne htp, hm2t]
  -- what hangs below the word: nothing before, the fresh frame after
  have hnodes : ∀ d, p.length + d ≤ 3 → nodes next (view s''.mem root) (p.length + d + 1) root =
        nodes next (view m2 root) (p.length + d + 1) root + {t} := by
    intro d hd
    have hw := Radix.nodes_write (i := i) (w := e) (e := d)
      (Multiset.nodup_of_le (Radix.nodes_mono hd) hnd) hp2
    have hone : nodes next (view s''.mem root) d t = {t} := by
      refine Radix.nodes_of_empty fun j => ?_
      rw [hcleared j]
      exact next_of_not not_present_zero
    rw [Radix.below_none (by rw [hold]; exact next_of_not hno), add_zero, ← hv'',
      Radix.below_some hnext, hone] at hw
    exact hw
  have h3 : tree 3 s''.mem root = tree 3 s.mem root + {t} := by
    have := hnodes (2 - p.length) (by omega)
    rw [show p.length + (2 - p.length) + 1 = 3 by omega] at this
    rw [← htree3]
    exact this
  have h4 : tree 4 s''.mem root = tree 4 s.mem root + {t} := by
    have := hnodes (3 - p.length) (by omega)
    rw [show p.length + (3 - p.length) + 1 = 4 by omega] at this
    rw [← htree4]
    exact this
  have hfree'' : B.free s''.pool = (B.free s.pool).erase t := hfree
  have hgrows : Grows B root s s'' := by
    refine ⟨?_, ?_, fun g hgf hgt => ?_, fun j hj => ?_, ?_, huses⟩
    · rw [h3, hfree'', add_erase ht]
    · rw [h4, hfree'', add_erase ht]
    · have hgp : g ≠ parent := fun e => hgt (e ▸ hpar)
      rw [hs'', Radix.write_of_ne hgp, hm2g g hgf]
    · rw [hs'']
      by_cases hpr : root = parent
      · rw [Radix.write_of_ne_index (by rw [hi' hpr.symm]; exact hj), hm2g root hrootf]
      · rw [Radix.write_of_ne hpr, hm2g root hrootf]
    · rw [hfree'']
      exact Finset.erase_subset _ _
  have hthrough : ∀ r, tableAt s''.mem root (p ++ i :: r) = if r = [] then some t else none := by
    intro r
    unfold tableAt
    rw [hv'', Radix.reach_write_through hnd hp2 (by omega), hnext, Option.bind_some, ← hv'']
    exact reach_cleared hcleared r
  have hother : ∀ q, q.length ≤ 4 → ¬ (p ++ [i]) <+: q →
      tableAt s''.mem root q = tableAt s.mem root q := by
    intro q hq hpre
    rw [← hat q hq]
    unfold tableAt
    rw [hv'']
    exact Radix.reach_write hnd hp2 (by omega) hq hpre
  have hbefore : ∀ r, tableAt s.mem root (p ++ i :: r) = none := by
    intro r
    have hword : view s.mem root parent i = s.mem parent i := view_apply hi'
    unfold tableAt at hp ⊢
    rw [Radix.reach_append, hp, Option.bind_some]
    simp only [reach, hword, next_of_not hno, Option.bind_none]
  have hall : ∀ q : List (Fin 512), q.length ≤ 4 →
      tableAt s''.mem root q = if q = p ++ [i] then some t else tableAt s.mem root q := by
    intro q hq
    by_cases hpre : (p ++ [i]) <+: q
    · obtain ⟨r, rfl⟩ := hpre
      rw [List.append_assoc, List.singleton_append, hthrough r, hbefore r]
      simp
    · rw [hother q hq hpre, if_neg]
      rintro rfl
      exact hpre (List.prefix_refl _)
  refine ⟨⟨?_, fun i3 pd i2 hpd hpres => ?_⟩, hgrows, hall, fun k => ?_⟩
  · rw [hgrows.tables]
    exact h.nodup
  · rw [hall _ (by simp)] at hpd
    split at hpd
    · cases hpd
      rw [hcleared i2, not_present_zero] at hpres
      cases hpres
    rw [hv''] at hpres ⊢
    by_cases hw : pd = parent ∧ i2 = i
    · obtain ⟨rfl, rfl⟩ := hw
      rw [Radix.write_self]
      exact not_large_tableEntry hlt
    have hsame : write (view m2 root) parent i e pd i2 = view s.mem root pd i2 := by
      rw [← hv pd (Tree.mem_of_tableAt hpd (by simp))]
      by_cases hpp : pd = parent
      · exact Radix.write_of_ne_index fun e => hw ⟨hpp, e⟩
      · rw [Radix.write_of_ne hpp]
    rw [hsame] at hpres ⊢
    exact h.small i3 pd i2 hpd hpres
  unfold leaf
  rw [hall _ (by simp)]
  split
  · rename_i hq
    rw [Option.bind_some, hcleared, not_present_zero, hq, hbefore []]
    rfl
  cases hpt : tableAt s.mem root [userSlot, k.1, k.2.1] with
  | none => rfl
  | some pt =>
    -- a page table is not one of the tables above it
    have hne : pt ≠ parent := by
      rintro rfl
      have := Radix.reach_inj h.tree_nodup hp hpt (by omega) (by simp)
      rw [this] at hpl
      simp at hpl
    have hsame : view s''.mem root pt = view s.mem root pt := by
      rw [hv'', Radix.write_of_ne hne, hv pt (Tree.mem_of_tableAt hpt (by simp))]
    simp only [Option.bind_some, hsame]

/-- **`ensure_table`** finds the table or hangs a new one into the tree,
and panics only when no frame is free. -/
theorem ensureTable_spec {parent : ℕ} (h : Tree B s root) (hp : tableAt s.mem root p = some parent)
    (hpl : p.length ≤ 2) (hi : p = [] → i = userSlot) :
    (ensureTable B s parent i pgU = .error s ∧ B.free s.pool = ∅) ∨
      ∃ t s', ensureTable B s parent i pgU = .ok (t, s') ∧ Tree B s' root ∧ Grows B root s s' ∧
        (∀ q : List (Fin 512), q.length ≤ 4 →
          tableAt s'.mem root q = if q = p ++ [i] then some t else tableAt s.mem root q) ∧
        ∀ k, leaf s'.mem root k = leaf s.mem root k := by
  have hi' : parent = root → i = userSlot := by
    intro e
    refine hi ?_
    by_contra hne
    exact h.ne_root hp (by omega) hne e
  unfold ensureTable
  cases hpres : present (s.mem parent i) with
  | true =>
    refine Or.inr ⟨_, s, by rw [if_pos rfl], h, Grows.refl, fun q _ => ?_, fun _ => rfl⟩
    split
    · rename_i hq
      unfold tableAt at hp ⊢
      rw [hq, Radix.reach_snoc, hp, Option.bind_some, view_apply hi', next_of_present hpres]
    · rfl
  | false =>
    cases halloc : s.pmmAlloc B with
    | none => exact Or.inl ⟨by simp, pmmAlloc_none halloc⟩
    | some r =>
      obtain ⟨t, s₁⟩ := r
      obtain ⟨ht, hfree, hlt, hmem, huses⟩ := pmmAlloc_some halloc
      obtain ⟨htree, hgrows, hat, hleaf⟩ := link_fresh h hp hpl hi hpres ht hmem hfree hlt huses
      exact Or.inr ⟨t, _, by simp, htree, hgrows, hat, hleaf⟩

/-! ## Leaves -/

/-- The page an entry maps, as a multiset of at most one frame. -/
def page (e : BitVec 64) : Multiset ℕ :=
  match next e with
  | none => 0
  | some f => {f}

theorem below_page : below next mem 0 e = page e := by
  unfold page
  cases hn : next e with
  | none => exact Radix.below_none hn
  | some f =>
    rw [Radix.below_some hn]
    exact Radix.nodes_zero

/-- **A word of a page table is written.** -/
theorem store_leaf {k : Fin 512 × Fin 512 × Fin 512} {pt : ℕ} (h : Tree B s root)
    (hpt : tableAt s.mem root [userSlot, k.1, k.2.1] = some pt) :
    Tree B (s.store pt k.2.2 e) root ∧ tree 3 (s.store pt k.2.2 e).mem root = tree 3 s.mem root ∧
      tree 4 (s.store pt k.2.2 e).mem root + page (s.mem pt k.2.2) = tree 4 s.mem root + page e ∧
      (∀ g, g ≠ pt → (s.store pt k.2.2 e).mem g = s.mem g) ∧
      (∀ q : List (Fin 512), q.length ≤ 3 →
        tableAt (s.store pt k.2.2 e).mem root q = tableAt s.mem root q) ∧
      (∀ k', k' ≠ k → leaf (s.store pt k.2.2 e).mem root k' = leaf s.mem root k') ∧
      leaf (s.store pt k.2.2 e).mem root k = if present e then some e else none := by
  have hroot : pt ≠ root := h.ne_root hpt (by simp) (by simp)
  have hmem : (s.store pt k.2.2 e).mem = write s.mem pt k.2.2 e := rfl
  have hv : view (s.store pt k.2.2 e).mem root = write (view s.mem root) pt k.2.2 e := by
    rw [hmem, view_write fun e => absurd e hroot]
  have hnd : (nodes next (view s.mem root) 3 root).Nodup := h.tree_nodup
  -- the tables are read above the last level only
  have habove : ∀ g ∈ nodes next (view s.mem root) 2 root,
      view (s.store pt k.2.2 e).mem root g = view s.mem root g := by
    intro g hg
    rw [hv]
    refine Radix.write_of_ne ?_
    rintro rfl
    obtain ⟨q, hq, hqlen⟩ := Radix.exists_reach hg
    have := Radix.reach_inj hnd hq hpt (by omega) (by simp)
    rw [this] at hqlen
    simp at hqlen
  have h3 : tree 3 (s.store pt k.2.2 e).mem root = tree 3 s.mem root := Radix.nodes_congr habove
  have hat : ∀ q : List (Fin 512), q.length ≤ 3 →
      tableAt (s.store pt k.2.2 e).mem root q = tableAt s.mem root q :=
    fun q hq => Radix.reach_congr habove (by omega)
  have h4 := Radix.nodes_write (i := k.2.2) (w := e) (e := 0)
    (p := [userSlot, k.1, k.2.1]) hnd hpt
  rw [below_page, below_page, ← hv, view_of_ne hroot] at h4
  refine ⟨⟨by rw [h3]; exact h.nodup, fun i3 pd i2 hpd => ?_⟩, h3, h4, fun g hg => ?_,
    hat, fun k' hk' => ?_, ?_⟩
  · rw [hat _ (by simp)] at hpd
    have hne : pd ≠ pt := by
      rintro rfl
      have := Radix.reach_inj hnd hpd hpt (by simp) (by simp)
      simp at this
    rw [hv, Radix.write_of_ne hne]
    exact h.small i3 pd i2 hpd
  · rw [hmem]
    exact Radix.write_of_ne hg
  · unfold leaf
    rw [hat _ (by simp)]
    cases hpt' : tableAt s.mem root [userSlot, k'.1, k'.2.1] with
    | none => rfl
    | some pt' =>
      have hword : write (view s.mem root) pt k.2.2 e pt' k'.2.2 = view s.mem root pt' k'.2.2 := by
        by_cases hpp : pt' = pt
        · subst hpp
          have hpath := Radix.reach_inj hnd hpt' hpt (by simp) (by simp)
          simp only [List.cons.injEq, and_true, true_and] at hpath
          refine Radix.write_of_ne_index fun hi => hk' ?_
          exact Prod.ext hpath.1 (Prod.ext hpath.2 hi)
        · rw [Radix.write_of_ne hpp]
      simp only [Option.bind_some, hv, hword]
  · unfold leaf
    rw [hat _ (by simp), hpt, Option.bind_some, hv, Radix.write_self]

end Lnxrm.Vmm
