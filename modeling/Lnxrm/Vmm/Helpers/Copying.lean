import Lnxrm.Common.Run
import Lnxrm.Vmm.Helpers.Freeing

/-!
# Copying an address space

Proof layer. `Partial` is what holds at every point of `dup_user_aspace`,
also where it breaks off: the frames taken so far hang in the tree of the
destination. `Copied` adds which pages have been copied. Nothing but the
destination and free frames is written, so the source reads the same
throughout.
-/

namespace Lnxrm.Vmm

open List

open Radix (nodes below)

/-- The path of a page below the user slot. -/
abbrev Key := Fin 512 × Fin 512 × Fin 512

variable {A : Type} {B : Buddy A} {s₀ s s' : Vm A} {src dst : ℕ} {D D' : Key → Prop}

/-- **The copy so far.** -/
structure Partial (B : Buddy A) (s₀ : Vm A) (dst : ℕ) (s : Vm A) : Prop where
  used : dst ∉ B.free s₀.pool
  tree : Tree B s dst
  frames : Vmm.tree 4 s.mem dst + (B.free s.pool).val = {dst} + (B.free s₀.pool).val
  free : B.free s.pool ⊆ B.free s₀.pool
  mem : ∀ g, g ∉ B.free s₀.pool → g ≠ dst → s.mem g = s₀.mem g
  shared : ∀ j, j ≠ userSlot → s.mem dst j = s₀.mem dst j
  uses : ∀ F, B.Uses F s₀.pool s.pool

/-- **The source**: a user tree apart from the destination, that maps frames
in use. -/
structure Source (B : Buddy A) (s₀ : Vm A) (src dst : ℕ) : Prop where
  tree : Tree B s₀ src
  apart : dst ∉ Vmm.tree 3 s₀.mem src
  pages : ∀ k e, leaf s₀.mem src k = some e →
    frameOf e ≠ 0 ∧ frameOf e ∉ B.free s₀.pool ∧ frameOf e ≠ dst

/-- The page `k` of the destination holds a copy of the page of `e`. -/
def HasCopy (B : Buddy A) (s₀ : Vm A) (dst : ℕ) (s : Vm A) (k : Key) (e : BitVec 64) : Prop :=
  ∃ f, f ∈ B.free s₀.pool ∧ f ∉ B.free s.pool ∧ f ∉ tree 3 s.mem dst ∧ f * 4096 < 2 ^ 64 ∧
    leaf s.mem dst k = some (addrOf f ||| (e &&& 0xfff)) ∧ s.mem f = s₀.mem (frameOf e)

/-- **The pages of `D` have been copied**, and no others. -/
structure Copied (B : Buddy A) (s₀ : Vm A) (src dst : ℕ) (D : Key → Prop) (s : Vm A) : Prop
    extends Partial B s₀ dst s where
  absent : ∀ k, ¬ D k ∨ leaf s₀.mem src k = none → leaf s.mem dst k = none
  present : ∀ k e, D k → leaf s₀.mem src k = some e → HasCopy B s₀ dst s k e

/-! ## The source is only read -/

namespace Partial

theorem same (h : Partial B s₀ dst s) (hs : Source B s₀ src dst) :
    ∀ g ∈ Vmm.tree 3 s₀.mem src, s.mem g = s₀.mem g := by
  intro g hg
  refine h.mem g (hs.tree.not_free hg) ?_
  rintro rfl
  exact hs.apart hg

theorem source (h : Partial B s₀ dst s) (hs : Source B s₀ src dst) : Tree B s src := by
  refine hs.tree.congr (h.same hs) (Multiset.nodup_of_le ?_ hs.tree.nodup)
  exact add_le_add_right (Finset.val_le_iff.mpr h.free) _

theorem outside (h : Partial B s₀ dst s) {g : ℕ} (hg : g ∉ B.free s₀.pool) (hne : g ≠ dst) :
    g ∉ B.free s.pool ∧ g ∉ Vmm.tree 3 s.mem dst := by
  have hout : g ∉ Vmm.tree 4 s.mem dst + (B.free s.pool).val := by
    rw [h.frames, Multiset.mem_add, Multiset.mem_singleton]
    rintro (e | hm)
    · exact hne e
    · exact hg hm
  rw [Multiset.mem_add, not_or] at hout
  exact ⟨hout.2, fun hm => hout.1 (Multiset.mem_of_le (Radix.nodes_le_succ 3 dst) hm)⟩

end Partial

theorem translate_source {i3 i2 i1 : Fin 512} (h : Tree B s src) :
    vmmTranslateIn s src (userVa i3 i2 i1) =
      match leaf s.mem src (i3, i2, i1) with
      | none => 0
      | some e => e &&& ~~~0xfff#64 := by
  obtain ⟨hslot, hkey, hlow⟩ := userVa_key i3 i2 i1
  rw [translate_user h hslot, hkey, hlow]
  cases leaf s.mem src (i3, i2, i1) with
  | none => rfl
  | some e => exact BitVec.or_zero

theorem frameOf_high (e : BitVec 64) : frameOf (e &&& ~~~0xfff#64) = frameOf e := by
  unfold frameOf
  rw [toNat_high]
  omega

theorem high_ne_zero {e : BitVec 64} (h : frameOf e ≠ 0) : e &&& ~~~0xfff#64 ≠ 0 := by
  intro hz
  have hn := toNat_high e
  rw [hz] at hn
  unfold frameOf at h
  have : (0 : BitVec 64).toNat = 0 := rfl
  omega

/-- The page is below the path. -/
def Below (p : List (Fin 512)) (k : Key) : Prop := p <+: [userSlot, k.1, k.2.1]

theorem below_iff {i3 i2 : Fin 512} {k : Key} :
    Below [userSlot, i3, i2] k ↔ k.1 = i3 ∧ k.2.1 = i2 := by
  unfold Below
  rw [cons_prefix_cons, cons_prefix_cons, cons_prefix_cons]
  simp only [true_and, nil_prefix, and_true]
  exact and_congr eq_comm eq_comm

/-! ## One step of the copy -/

namespace Copied

theorem congr (h : Copied B s₀ src dst D s) (hD : ∀ k, D' k → leaf s₀.mem src k ≠ none → D k)
    (hD' : ∀ k, D k → D' k) : Copied B s₀ src dst D' s where
  toPartial := h.toPartial
  absent k hk := by
    refine h.absent k ?_
    rcases hk with hk | hk
    · exact Or.inl fun hd => hk (hD' k hd)
    · exact Or.inr hk
  present k e hk he := h.present k e (hD k hk (by rw [he]; simp)) he

theorem grows (h : Copied B s₀ src dst D s) (htree : Tree B s' dst) (hg : Grows B dst s s')
    (hleaf : ∀ k, leaf s'.mem dst k = leaf s.mem dst k) : Copied B s₀ src dst D s' where
  used := h.used
  tree := htree
  frames := hg.frames.trans h.frames
  free := hg.free.trans h.free
  mem g hgf hne := by
    obtain ⟨hf, ht⟩ := h.outside hgf hne
    rw [hg.mem g hf ht, h.mem g hgf hne]
  shared j hj := (hg.shared j hj).trans (h.shared j hj)
  uses F := (h.uses F).trans (hg.uses F)
  absent k hk := (hleaf k).trans (h.absent k hk)
  present k e hk he := by
    obtain ⟨f, hf, hfree, htab, hlt, hl, hm⟩ := h.present k e hk he
    obtain ⟨hfree', htab'⟩ := (hg.mem_iff f).mpr ⟨hfree, htab⟩
    exact ⟨f, hf, hfree', htab', hlt, (hleaf k).trans hl, (hg.mem f hfree htab).trans hm⟩

/-- **A new table** is hung into the destination. -/
theorem newTable {p : List (Fin 512)} {i : Fin 512} {parent : ℕ} (h : Copied B s₀ src dst D s)
    (hp : tableAt s.mem dst p = some parent) (hpl : p.length ≤ 2) (hi : p = [] → i = userSlot)
    (hno : tableAt s.mem dst (p ++ [i]) = none) :
    newTable B s parent i = .error s ∨
      ∃ t s', Vmm.newTable B s parent i = .ok (t, s') ∧ Copied B s₀ src dst D s' ∧
        ∀ q : List (Fin 512), q.length ≤ 4 →
          tableAt s'.mem dst q = if q = p ++ [i] then some t else tableAt s.mem dst q := by
  have hi' : parent = dst → i = userSlot := by
    intro e
    refine hi ?_
    by_contra hne
    exact h.tree.ne_root hp (by omega) hne e
  have hword : Vmm.present (s.mem parent i) = false := by
    by_contra hpres
    rw [Bool.not_eq_false] at hpres
    unfold tableAt at hp hno
    rw [Radix.reach_snoc, hp, Option.bind_some, view_apply hi', next_of_present hpres] at hno
    cases hno
  have heq : Vmm.newTable B s parent i = ensureTable B s parent i pgU := by
    unfold Vmm.newTable ensureTable
    rw [if_neg (by simp [hword])]
  rw [heq]
  rcases ensureTable_spec h.tree hp hpl hi with ⟨he, -⟩ | ⟨t, s', he, htree, hgrows, hat, hleaf⟩
  · exact Or.inl he
  · exact Or.inr ⟨t, s', he, h.grows htree hgrows hleaf, hat⟩

/-- **A page** is copied into a fresh frame, which is hung into the
destination with the flags of the source. -/
theorem copyPage {k : Key} {spt dpt npa : ℕ} {e : BitVec 64} {s₁ : Vm A}
    (h : Copied B s₀ src dst D s) (hs : Source B s₀ src dst) (hk : ¬ D k)
    (hdpt : tableOf s.mem dst k = some dpt) (hspt : tableOf s₀.mem src k = some spt)
    (he : leaf s₀.mem src k = some e) (halloc : s.pmmAlloc B = some (npa, s₁)) :
    let s₂ := s₁.fill npa (s₁.mem (frameOf (vmmTranslateIn s₁ src (userVa k.1 k.2.1 k.2.2))))
    let s₃ := s₂.store dpt k.2.2 (addrOf npa ||| (s₂.mem spt k.2.2 &&& 0xfff))
    Copied B s₀ src dst (fun k' => D k' ∨ k' = k) s₃ ∧
      ∀ q : List (Fin 512), q.length ≤ 3 → tableAt s₃.mem dst q = tableAt s.mem dst q := by
  intro s₂ s₃
  have ht₁ : Taken B npa s s₁ := Taken.of_alloc halloc
  have ht₂ : Taken B npa s s₂ := ht₁.fill _
  have hfree₂ : ∀ g, g ∉ B.free s.pool → g ∉ B.free s₂.pool := by
    intro g hg hm
    rw [ht₂.free] at hm
    exact hg (Finset.mem_of_mem_erase hm)
  -- what is read of the source: the page and its entry
  obtain ⟨hpos, hpagef, hpaged⟩ := hs.pages k e he
  have hsrc : Tree B s src := h.source hs
  have hleaf₁ : leaf s₁.mem src k = some e := by
    rw [leaf_congr (ht₁.same hsrc), leaf_congr (h.same hs), he]
  have hcontent : s₂.mem npa = s₀.mem (frameOf e) := by
    have hframe : frameOf (vmmTranslateIn s₁ src (userVa k.1 k.2.1 k.2.2)) = frameOf e := by
      rw [translate_source (ht₁.tree hsrc), hleaf₁]
      exact frameOf_high e
    have hpage : s₁.mem (frameOf e) = s₀.mem (frameOf e) := by
      rw [ht₁.mem _ (h.outside hpagef hpaged).1, h.mem _ hpagef hpaged]
    rw [← hpage, ← hframe]
    exact Function.update_self ..
  have hsptmem : spt ∈ Vmm.tree 3 s₀.mem src := Tree.mem_of_tableAt hspt (by simp)
  have hword : s₂.mem spt k.2.2 = e := by
    have hsptd : spt ≠ dst := fun e => hs.apart (e ▸ hsptmem)
    have hsptf := hs.tree.not_free hsptmem
    rw [ht₂.mem _ (h.outside hsptf hsptd).1, h.mem _ hsptf hsptd]
    have hl := leaf_eq hs.tree hspt
    rw [he] at hl
    split at hl
    · exact (Option.some.inj hl).symm
    · cases hl
  have hpres : Vmm.present e = true := by
    have hl := leaf_eq hs.tree hspt
    rw [he] at hl
    split at hl
    · rename_i hp
      rw [← Option.some.inj hl] at hp
      exact hp
    · cases hl
  -- the entry that is written
  obtain ⟨hpe, hfe, -⟩ := copiedEntry ht₁.addr hpres
  have hs₃ : s₃ = s₂.store dpt k.2.2 (addrOf npa ||| (e &&& 0xfff)) := by
    show s₂.store dpt k.2.2 (addrOf npa ||| (s₂.mem spt k.2.2 &&& 0xfff)) = _
    rw [hword]
  generalize hent : addrOf npa ||| (e &&& 0xfff) = ent at hpe hfe hs₃
  have hpage : page ent = {npa} := by
    unfold page
    rw [next_of_present hpe, hfe]
  have hsame := ht₂.same h.tree
  have htree₂ := ht₂.tree h.tree
  have hdpt₂ : tableOf s₂.mem dst k = some dpt := by
    unfold tableOf at hdpt ⊢
    rw [tableAt_congr hsame (by simp)]
    exact hdpt
  obtain ⟨-, h3, -, hmem₃, hat₃, -, -⟩ := store_leaf (e := ent) (k := k) htree₂ hdpt₂
  have hm : Mapped B dst k ent s₂ s₃ := hs₃ ▸ Mapped.store htree₂ hdpt₂
  rw [← hs₃] at h3 hmem₃ hat₃
  have htree3 : Vmm.tree 3 s₃.mem dst = Vmm.tree 3 s.mem dst := by
    rw [h3, (tree_congr hsame).1]
  have hdst : Vmm.leaf s.mem dst k = none := h.absent k (Or.inl hk)
  have hpool₃ : s₃.pool = s₂.pool := rfl
  have hkeep : ∀ g, g ∉ B.free s.pool → g ∉ Vmm.tree 3 s.mem dst → s₃.mem g = s.mem g := by
    intro g hgf hgt
    rw [← (tree_congr hsame).1] at hgt
    rw [hm.mem g (hfree₂ g hgf) hgt, ht₂.mem g hgf]
  refine ⟨⟨⟨h.used, hm.tree, ?_, ?_, fun g hgf hne => ?_, fun j hj => ?_, fun F => ?_⟩, fun k' hk' => ?_,
    fun k' e' hk' he' => ?_⟩, fun q hq => ?_⟩
  · rw [ht₂.frames h.tree hm hdst hpage, h.frames]
  · rw [hpool₃, ht₂.free]
    exact (Finset.erase_subset _ _).trans h.free
  · obtain ⟨hf, ht⟩ := h.outside hgf hne
    rw [hkeep g hf ht, h.mem g hgf hne]
  · rw [hm.shared j hj, ht₂.mem dst h.tree.root_not_free, h.shared j hj]
  · rw [hpool₃]
    exact (h.uses F).trans (ht₂.uses F)
  · have hne : k' ≠ k := by
      rintro rfl
      rcases hk' with hk' | hk'
      · exact hk' (Or.inr rfl)
      · rw [he] at hk'
        cases hk'
    rw [hm.leaf, if_neg hne, leaf_congr hsame]
    refine h.absent k' ?_
    rcases hk' with hk' | hk'
    · exact Or.inl fun hd => hk' (Or.inl hd)
    · exact Or.inr hk'
  · by_cases hkk : k' = k
    · subst hkk
      rw [he] at he'
      cases he'
      have hnot : npa ∉ Vmm.tree 3 s.mem dst := fun hin => h.tree.not_free hin ht₂.was
      refine ⟨npa, h.free ht₂.was, ?_, by rw [htree3]; exact hnot, ht₂.addr, ?_, ?_⟩
      · rw [hpool₃, ht₂.free]
        exact Finset.notMem_erase _ _
      · rw [hm.leaf, if_pos rfl, if_pos hpe, hent]
      · rw [hmem₃ npa fun e => hnot (e ▸ Tree.mem_of_tableAt hdpt (by simp)), hcontent]
    · have hd : D k' := hk'.resolve_right hkk
      obtain ⟨f, hf, hff, hft, hlt, hl, hc⟩ := h.present k' e' hd he'
      refine ⟨f, hf, hfree₂ f hff, by rw [htree3]; exact hft, hlt, ?_, (hkeep f hff hft).trans hc⟩
      rw [hm.leaf, if_neg hkk, leaf_congr hsame, hl]
  · rw [hat₃ q hq, tableAt_congr hsame (by omega)]

/-! ## The loops -/

/-- **The pages of a page table** -/
theorem dupPt {i3 i2 : Fin 512} {spt dpt : ℕ} (h : Copied B s₀ src dst D s)
    (hs : Source B s₀ src dst) (hdpt : tableAt s.mem dst [userSlot, i3, i2] = some dpt)
    (hspt : tableAt s₀.mem src [userSlot, i3, i2] = some spt) (hD : ∀ i1, ¬ D (i3, i2, i1)) :
    (∃ s', dupPt B src spt dpt i3 i2 s = .error s' ∧ Partial B s₀ dst s') ∨
      ∃ s', Vmm.dupPt B src spt dpt i3 i2 s = .ok s' ∧
        Copied B s₀ src dst (fun k => D k ∨ k.1 = i3 ∧ k.2.1 = i2) s' ∧
        ∀ q : List (Fin 512), q.length ≤ 3 → tableAt s'.mem dst q = tableAt s.mem dst q := by
  have hsptmem : spt ∈ Vmm.tree 3 s₀.mem src := Tree.mem_of_tableAt hspt (by simp)
  let I : List (Fin 512) → Vm A → Prop := fun done s' =>
    Copied B s₀ src dst (fun k => D k ∨ k.1 = i3 ∧ k.2.1 = i2 ∧ k.2.2 ∈ done) s' ∧
      ∀ q : List (Fin 512), q.length ≤ 3 → tableAt s'.mem dst q = tableAt s.mem dst q
  have hinit : I [] s :=
    ⟨h.congr (fun k hk _ => by simpa using hk) (fun k hk => Or.inl hk), fun _ _ => rfl⟩
  unfold Vmm.dupPt
  refine (foldlM_inv (I := I) (P := Partial B s₀ dst) ?_ (finRange 512)
    (nodup_finRange 512) (by simp) hinit).imp id ?_
  rotate_left
  · rintro ⟨s', he, hc, hat⟩
    refine ⟨s', he, hc.congr ?_ ?_, hat⟩
    · rintro k (hd | ⟨h3, h2⟩) -
      · exact Or.inl hd
      · exact Or.inr ⟨h3, h2, by simp⟩
    · rintro k (hd | ⟨h3, h2, -⟩)
      · exact Or.inl hd
      · exact Or.inr ⟨h3, h2⟩
  rintro done i1 s₁ hi1 ⟨hc, hat⟩
  have hword : s₁.mem spt i1 = s₀.mem spt i1 := by rw [hc.same hs spt hsptmem]
  have hleaf : leaf s₀.mem src (i3, i2, i1) =
      if Vmm.present (s₀.mem spt i1) then some (s₀.mem spt i1) else none :=
    leaf_eq (k := (i3, i2, i1)) hs.tree hspt
  have hleaf₁ : leaf s₁.mem src (i3, i2, i1) = leaf s₀.mem src (i3, i2, i1) :=
    leaf_congr (hc.same hs) _
  have hgrow : ∀ k, (D k ∨ k.1 = i3 ∧ k.2.1 = i2 ∧ k.2.2 ∈ i1 :: done) ↔
      (D k ∨ k.1 = i3 ∧ k.2.1 = i2 ∧ k.2.2 ∈ done) ∨ k = (i3, i2, i1) := by
    intro k
    simp only [mem_cons, Prod.ext_iff]
    tauto
  simp only [hword, translate_source (hc.source hs), hleaf₁, hleaf]
  cases hp : Vmm.present (s₀.mem spt i1) with
  | false =>
    rw [hp] at hleaf
    refine Or.inr ⟨s₁, by simp, hc.congr (fun k hk hne => ?_) (fun k hk => ?_), hat⟩
    · rcases (hgrow k).mp hk with hk | rfl
      · exact hk
      · exact absurd hleaf hne
    · exact (hgrow k).mpr (Or.inl hk)
  | true =>
    rw [hp, if_pos rfl] at hleaf
    have hnz := high_ne_zero (hs.pages _ _ hleaf).1
    simp only [Bool.not_true, Bool.false_eq_true, if_false, if_true, if_neg hnz]
    cases halloc : s₁.pmmAlloc B with
    | none => exact Or.inl ⟨s₁, rfl, hc.toPartial⟩
    | some r =>
      have hnot : ¬ (D (i3, i2, i1) ∨ i3 = i3 ∧ i2 = i2 ∧ i1 ∈ done) := by
        rintro (hd | ⟨-, -, hm⟩)
        · exact hD i1 hd
        · exact hi1 hm
      have hdpt₁ : tableOf s₁.mem dst (i3, i2, i1) = some dpt := (hat _ (by simp)).trans hdpt
      obtain ⟨hc', hat'⟩ := hc.copyPage hs hnot hdpt₁ hspt hleaf halloc
      refine Or.inr ⟨_, rfl, hc'.congr (fun k hk _ => (hgrow k).mp hk)
        (fun k hk => (hgrow k).mpr hk), fun q hq => (hat' q hq).trans (hat q hq)⟩

/-- **The tables of a table.** `inner` copies what is below one of them. -/
theorem level (inner : ℕ → ℕ → Fin 512 → Vm A → Except (Vm A) (Vm A)) {p : List (Fin 512)}
    {st dt : ℕ} (hp : p ≠ []) (hpl : p.length ≤ 2) (h : Copied B s₀ src dst D s)
    (hs : Source B s₀ src dst) (hdt : tableAt s.mem dst p = some dt)
    (hst : tableAt s₀.mem src p = some st) (hempty : ∀ i, tableAt s.mem dst (p ++ [i]) = none)
    (hD : ∀ k, Below p k → ¬ D k)
    (hinner : ∀ D' s' i sc dc, Copied B s₀ src dst D' s' →
      tableAt s'.mem dst (p ++ [i]) = some dc → tableAt s₀.mem src (p ++ [i]) = some sc →
      (∀ j, tableAt s'.mem dst (p ++ [i] ++ [j]) = none) → (∀ k, Below (p ++ [i]) k → ¬ D' k) →
      (∃ s'', inner sc dc i s' = .error s'' ∧ Partial B s₀ dst s'') ∨
        ∃ s'', inner sc dc i s' = .ok s'' ∧
          Copied B s₀ src dst (fun k => D' k ∨ Below (p ++ [i]) k) s'' ∧
          ∀ q : List (Fin 512), q.length ≤ p.length + 1 → tableAt s''.mem dst q = tableAt s'.mem dst q) :
    let body := fun (s : Vm A) (i : Fin 512) =>
      if !Vmm.present (s.mem st i) then .ok s
      else do
        let (d, s) ← Vmm.newTable B s dt i
        inner (frameOf (s.mem st i)) d i s
    (∃ s', (finRange 512).foldlM body s = .error s' ∧ Partial B s₀ dst s') ∨
      ∃ s', (finRange 512).foldlM body s = .ok s' ∧
        Copied B s₀ src dst (fun k => D k ∨ Below p k) s' ∧
        ∀ q : List (Fin 512), q.length ≤ p.length → tableAt s'.mem dst q = tableAt s.mem dst q := by
  intro body
  have hstmem : st ∈ Vmm.tree 3 s₀.mem src := Tree.mem_of_tableAt hst (by omega)
  let I : List (Fin 512) → Vm A → Prop := fun done s' =>
    Copied B s₀ src dst (fun k => D k ∨ ∃ i ∈ done, Below (p ++ [i]) k) s' ∧
      (∀ i, i ∉ done → tableAt s'.mem dst (p ++ [i]) = none) ∧
      ∀ q : List (Fin 512), q.length ≤ p.length → tableAt s'.mem dst q = tableAt s.mem dst q
  have hinit : I [] s := by
    refine ⟨h.congr (fun k hk _ => ?_) (fun k hk => Or.inl hk), fun i _ => hempty i, fun _ _ => rfl⟩
    rcases hk with hk | ⟨i, hi, -⟩
    · exact hk
    · simp at hi
  refine (foldlM_inv (I := I) (P := Partial B s₀ dst) ?_ (finRange 512)
    (nodup_finRange 512) (by simp) hinit).imp id ?_
  · rintro done i s₁ hi ⟨hc, hrest, hat⟩
    have hword : ∀ s' : Vm A, Partial B s₀ dst s' → s'.mem st i = s₀.mem st i := fun s' hs' => by
      rw [hs'.same hs st hstmem]
    have hsc : tableAt s₀.mem src (p ++ [i]) = next (s₀.mem st i) :=
      hs.tree.tableAt_snoc hst (by omega) hp
    have hgrow : ∀ k, (D k ∨ ∃ j ∈ i :: done, Below (p ++ [j]) k) ↔
        (D k ∨ ∃ j ∈ done, Below (p ++ [j]) k) ∨ Below (p ++ [i]) k := by
      intro k
      simp only [mem_cons, exists_eq_or_imp]
      rw [or_assoc, or_comm (a := Below (p ++ [i]) k)]
    simp only [body, hword s₁ hc.toPartial]
    cases hpres : Vmm.present (s₀.mem st i) with
    | false =>
      -- the source has nothing below the word
      have hnone : ∀ k, Below (p ++ [i]) k → leaf s₀.mem src k = none := by
        intro k hk
        rw [next_of_not hpres] at hsc
        exact leaf_none (Tree.tableAt_of_prefix hsc hk)
      refine Or.inr ⟨s₁, by simp, hc.congr (fun k hk hne => ?_) (fun k hk => ?_), fun j hj => ?_, hat⟩
      · rcases (hgrow k).mp hk with hk | hk
        · exact hk
        · exact absurd (hnone k hk) hne
      · exact (hgrow k).mpr (Or.inl hk)
      · exact hrest j fun hm => hj (mem_cons_of_mem _ hm)
    | true =>
      rw [next_of_present hpres] at hsc
      have hdt₁ : tableAt s₁.mem dst p = some dt := (hat p le_rfl).trans hdt
      have hnoti : ∀ k, Below (p ++ [i]) k → ¬ (D k ∨ ∃ j ∈ done, Below (p ++ [j]) k) := by
        rintro k hk (hd | ⟨j, hj, hkj⟩)
        · exact hD k ((prefix_append p [i]).trans hk) hd
        · -- a page is below one word only
          have := prefix_of_prefix_length_le hk hkj (by simp)
          have heq : p ++ [i] = p ++ [j] := this.eq_of_length (by simp)
          have hij : i = j := by simpa using heq
          exact hi (hij ▸ hj)
      rcases hc.newTable hdt₁ hpl (fun e => absurd e hp) (hrest i hi) with
        he | ⟨dc, s₂, he, hc₂, hat₂⟩
      · exact Or.inl ⟨s₁, by simp [he, bind, Except.bind], hc.toPartial⟩
      have hdc : tableAt s₂.mem dst (p ++ [i]) = some dc :=
        (hat₂ _ (by simp; omega)).trans (if_pos rfl)
      have hbelow : ∀ j, tableAt s₂.mem dst (p ++ [i] ++ [j]) = none := by
        intro j
        rw [hat₂ _ (by simp; omega), if_neg (by simp)]
        exact Tree.tableAt_of_prefix (hrest i hi) (prefix_append _ _)
      have hrun : (do
          let (d, s) ← Vmm.newTable B s₁ dt i
          inner (frameOf (s.mem st i)) d i s) = inner (frameOf (s₀.mem st i)) dc i s₂ := by
        simp [he, bind, Except.bind, hword s₂ hc₂.toPartial]
      rw [hrun]
      refine (hinner _ s₂ i _ dc hc₂ hdc hsc hbelow hnoti).imp id ?_
      rintro ⟨s₃, he₃, hc₃, hat₃⟩
      refine ⟨s₃, he₃, hc₃.congr (fun k hk _ => (hgrow k).mp hk) (fun k hk => (hgrow k).mpr hk),
        fun j hj => ?_, fun q hq => ?_⟩
      · rw [mem_cons, not_or] at hj
        rw [hat₃ _ (by simp), hat₂ _ (by simp; omega), if_neg (by simpa using hj.1)]
        exact hrest j hj.2
      · have hne : q ≠ p ++ [i] := by
          rintro rfl
          simp at hq
        rw [hat₃ q (by omega), hat₂ q (by omega), if_neg hne]
        exact hat q hq
  rintro ⟨s', he, hc, -, hat⟩
  refine ⟨s', he, hc.congr ?_ ?_, hat⟩
  · rintro k (hd | hk) hne
    · exact Or.inl hd
    -- the path to a page goes on below the table
    obtain ⟨r, hr⟩ := hk
    cases r with
    | nil =>
      have := congrArg length hr
      simp only [append_nil, length_cons, length_nil] at this
      omega
    | cons i r => exact Or.inr ⟨i, by simp, ⟨r, by rw [← hr]; simp⟩⟩
  · rintro k (hd | ⟨i, -, hk⟩)
    · exact Or.inl hd
    · exact Or.inr ((prefix_append p [i]).trans hk)

/-- **The page tables of a directory** -/
theorem dupPd {i3 : Fin 512} {spd dpd : ℕ} (h : Copied B s₀ src dst D s)
    (hs : Source B s₀ src dst) (hdpd : tableAt s.mem dst [userSlot, i3] = some dpd)
    (hspd : tableAt s₀.mem src [userSlot, i3] = some spd)
    (hempty : ∀ i2, tableAt s.mem dst [userSlot, i3, i2] = none)
    (hD : ∀ k, Below [userSlot, i3] k → ¬ D k) :
    (∃ s', dupPd B src spd dpd i3 s = .error s' ∧ Partial B s₀ dst s') ∨
      ∃ s', Vmm.dupPd B src spd dpd i3 s = .ok s' ∧
        Copied B s₀ src dst (fun k => D k ∨ Below [userSlot, i3] k) s' ∧
        ∀ q : List (Fin 512), q.length ≤ 2 → tableAt s'.mem dst q = tableAt s.mem dst q := by
  refine level (fun sc dc i2 s => Vmm.dupPt B src sc dc i3 i2 s) (by simp) (by simp) h hs hdpd hspd
    hempty hD fun D' s' i2 sc dc hc hdc hsc _ hD' => ?_
  refine (hc.dupPt hs hdc hsc fun i1 => hD' _ (below_iff.mpr ⟨rfl, rfl⟩)).imp id ?_
  rintro ⟨s'', he, hc'', hat⟩
  refine ⟨s'', he, hc''.congr (fun k hk _ => ?_) (fun k hk => ?_), hat⟩
  · exact hk.imp id below_iff.mp
  · exact hk.imp id below_iff.mpr

/-- **The directories of a third-level table** -/
theorem dupPdpt {sdpt ddpt : ℕ} (h : Copied B s₀ src dst D s) (hs : Source B s₀ src dst)
    (hddpt : tableAt s.mem dst [userSlot] = some ddpt)
    (hsdpt : tableAt s₀.mem src [userSlot] = some sdpt)
    (hempty : ∀ i3, tableAt s.mem dst [userSlot, i3] = none)
    (hD : ∀ k, Below [userSlot] k → ¬ D k) :
    (∃ s', dupPdpt B src sdpt ddpt s = .error s' ∧ Partial B s₀ dst s') ∨
      ∃ s', Vmm.dupPdpt B src sdpt ddpt s = .ok s' ∧
        Copied B s₀ src dst (fun k => D k ∨ Below [userSlot] k) s' := by
  refine (level (fun sc dc i3 s => Vmm.dupPd B src sc dc i3 s) (by simp) (by simp) h hs hddpt hsdpt
    hempty hD fun D' s' i3 sc dc hc hdc hsc hnone hD' => ?_).imp id ?_
  · exact hc.dupPd hs hdc hsc hnone hD'
  · rintro ⟨s', he, hc, -⟩
    exact ⟨s', he, hc⟩

end Copied

/-! ## The whole copy -/

/-- An address space with an empty user slot -/
structure Empty (B : Buddy A) (s : Vm A) (root : ℕ) : Prop where
  used : root ∉ B.free s.pool
  slot : present (s.mem root userSlot) = false

namespace Empty

variable {root : ℕ}

theorem view (h : Empty B s root) (j : Fin 512) : next (view s.mem root root j) = none := by
  unfold Vmm.view
  rw [Function.update_self]
  by_cases hj : j = userSlot
  · rw [if_pos hj, hj]
    exact next_of_not h.slot
  · rw [if_neg hj]
    exact next_of_not not_present_zero

theorem tree_eq (h : Empty B s root) (d : ℕ) : Vmm.tree d s.mem root = {root} :=
  Radix.nodes_of_empty h.view

theorem tableAt (h : Empty B s root) (i : Fin 512) (p : List (Fin 512)) :
    tableAt s.mem root (i :: p) = none := by
  unfold Vmm.tableAt
  simp only [Radix.reach, h.view, Option.bind_none]

theorem tree (h : Empty B s root) : Tree B s root := by
  refine ⟨?_, fun i3 pd i2 hpd => ?_⟩
  · rw [h.tree_eq, Multiset.singleton_add, Multiset.nodup_cons]
    exact ⟨h.used, (B.free s.pool).nodup⟩
  · rw [h.tableAt] at hpd
    cases hpd

theorem leaf (h : Empty B s root) (k : Key) : leaf s.mem root k = none :=
  leaf_none (h.tableAt _ _)

theorem source (h : Empty B s src) (hne : dst ≠ src) : Source B s src dst where
  tree := h.tree
  apart := by
    rw [h.tree_eq, Multiset.mem_singleton]
    exact hne
  pages k e he := by
    rw [h.leaf] at he
    cases he

theorem copied (h : Empty B s dst) (src : ℕ) : Copied B s src dst (fun _ => False) s where
  used := h.used
  tree := h.tree
  frames := by rw [h.tree_eq]
  free := Finset.Subset.refl _
  mem _ _ _ := rfl
  shared _ _ := rfl
  uses _ := .refl _
  absent k _ := h.leaf k
  present _ _ hk _ := hk.elim

end Empty

/-- **Cleaning up** gives back exactly what was taken. -/
theorem Partial.cleanup (h : Partial B s₀ dst s) :
    B.free (dupCleanup B s dst).pool = B.free s₀.pool ∧
      present ((dupCleanup B s dst).mem dst userSlot) = false ∧
      (∀ j, j ≠ userSlot → (dupCleanup B s dst).mem dst j = s₀.mem dst j) ∧
      (∀ g, g ∉ B.free s₀.pool → g ≠ dst → (dupCleanup B s dst).mem g = s₀.mem g) ∧
      B.Uses (B.free s₀.pool) s₀.pool (dupCleanup B s dst).pool := by
  have hsum := h.frames
  rw [tree_four h.tree.tree_nodup, add_assoc, Multiset.add_right_inj] at hsum
  have hin : ∀ g ∈ below next s.mem 3 (s.mem dst userSlot), g ∈ B.free s₀.pool := by
    intro g hg
    rw [← Finset.mem_val, ← hsum]
    exact Multiset.mem_add.mpr (Or.inl hg)
  have hnd : (Vmm.tree 4 s.mem dst + (B.free s.pool).val).Nodup := by
    rw [tree_four h.tree.tree_nodup, add_assoc, hsum, Multiset.singleton_add, Multiset.nodup_cons]
    exact ⟨h.used, (B.free s₀.pool).nodup⟩
  obtain ⟨hfree, hslot, hshared, hmem, huses⟩ :=
    dupCleanup_frees (B.free_subset s₀.pool) h.tree hin hnd
  have hpool : B.free (dupCleanup B s dst).pool = B.free s₀.pool := by
    refine Finset.val_injective ?_
    rw [hfree, add_comm, hsum]
  refine ⟨hpool, hslot, fun j hj => (hshared j hj).trans (h.shared j hj), fun g hg hne => ?_,
    (h.uses _).trans huses⟩
  rw [hmem g (by rw [hpool]; exact hg) hne, h.mem g hg hne]

/-- **`dup_user_aspace`** copies every page, or gives back what it took. -/
theorem dup_spec (hs : Source B s src dst) (hd : Empty B s dst) :
    ((dupUserAspace B s src dst).1 = 0 ∧
        Copied B s src dst (fun _ => True) (dupUserAspace B s src dst).2) ∨
      ((dupUserAspace B s src dst).1 = efail ∧
        B.free (dupUserAspace B s src dst).2.pool = B.free s.pool ∧
        present ((dupUserAspace B s src dst).2.mem dst userSlot) = false ∧
        (∀ j, j ≠ userSlot → (dupUserAspace B s src dst).2.mem dst j = s.mem dst j) ∧
        (∀ g, g ∉ B.free s.pool → g ≠ dst → (dupUserAspace B s src dst).2.mem g = s.mem g) ∧
        B.Uses (B.free s.pool) s.pool (dupUserAspace B s src dst).2.pool) := by
  unfold dupUserAspace
  have hstart := hd.copied src
  cases hp : present (s.mem src userSlot) with
  | false =>
    -- an empty source
    rw [if_pos (by simp)]
    refine Or.inl ⟨rfl, hstart.congr (fun k _ hne => hne ?_) (fun _ hk => hk.elim)⟩
    refine leaf_none (Tree.tableAt_of_prefix (p := [userSlot]) ?_ (by simp))
    rw [tableAt_userSlot, next_of_not hp]
  | true =>
    rw [if_neg (by simp)]
    rcases hstart.newTable (p := []) rfl (by simp) (fun _ => rfl) (hd.tableAt _ _) with
      he | ⟨d3, s₁, he, hc, hat⟩
    · rw [he]
      exact Or.inr ⟨rfl, rfl, hd.slot, fun _ _ => rfl, fun _ _ _ => rfl, .refl _⟩
    have hsdpt : tableAt s.mem src [userSlot] = some (frameOf (s.mem src userSlot)) := by
      rw [tableAt_userSlot, next_of_present hp]
    have hword : s₁.mem src userSlot = s.mem src userSlot := by
      rw [hc.same hs src Tree.root_mem]
    have hempty : ∀ i3, tableAt s₁.mem dst [userSlot, i3] = none := by
      intro i3
      rw [hat _ (by simp), if_neg (by simp)]
      exact hd.tableAt _ _
    simp only [he, hword]
    rcases hc.dupPdpt hs ((hat _ (by simp)).trans (if_pos rfl)) hsdpt hempty
      (fun _ _ hk => hk) with ⟨s₂, he₂, hpart⟩ | ⟨s₂, he₂, hc₂⟩
    · simp only [he₂]
      exact Or.inr ⟨trivial, hpart.cleanup⟩
    · simp only [he₂]
      exact Or.inl ⟨trivial, hc₂.congr (fun k _ _ => Or.inr (by simp [Below])) (fun _ _ => trivial)⟩

end Lnxrm.Vmm
