import Lnxrm.Vmm.Copy
import Lnxrm.Vmm.ReadOnly

/-!
# An address space as its program sees it

Proof layer. `Sound` is what the kernel keeps of an address space: no frame
of it is met twice or free, and nothing is mapped above `USER_MAX_VMA`.
`space` is the address space as a map from addresses to bytes, with whether
user mode may write them. A page that is mapped adds its bytes to it, a copy
of the kernel overwrites bytes, and whatever leaves the frames of the
address space alone leaves the map alone.
-/

namespace Lnxrm.Vmm

open Multiset

variable {A : Type} {B : Buddy A} {s s' s'' : Vm A} {root f : ℕ} {va e : BitVec 64} {k : Key}

/-- **An address space in order.** -/
structure Sound (B : Buddy A) (root : ℕ) (s : Vm A) : Prop where
  tree : Tree B s root
  nodup : (Vmm.tree 4 s.mem root + (B.free s.pool).val).Nodup
  managed : ∀ g ∈ Vmm.tree 4 s.mem root, g ∈ B.managed
  top : leaf s.mem root (511, 511, 511) = none

/-- The bytes of an address space, and whether user mode may write them. -/
def space (s : Vm A) (root a : ℕ) : Option (Bool × UInt8) :=
  (pageEntry s root (BitVec.ofNat 64 a)).map fun r =>
    (userWritable r.1, (userByte s root a).getD 0)

/-- An address in the user slot -/
def InSlot (a : ℕ) : Prop := userBase ≤ a ∧ a < 2 ^ 47

/-! ## Reading the tables -/

theorem toNat_ofNat_slot {a : ℕ} (h : InSlot a) : (BitVec.ofNat 64 a).toNat = a := by
  obtain ⟨-, hhi⟩ := h
  rw [BitVec.toNat_ofNat]
  omega

theorem index_slot {a : ℕ} (h : InSlot a) : index (BitVec.ofNat 64 a) 39 = userSlot := by
  have hn := toNat_ofNat_slot h
  obtain ⟨hlo, hhi⟩ := h
  unfold userBase at hlo
  refine Fin.ext ?_
  rw [index_val, hn]
  show a / 2 ^ 39 % 512 = 255
  omega

/-- The page of an address, by its path below the user slot -/
def pageKey (a : ℕ) : Key := key (BitVec.ofNat 64 a)

/-- Two addresses of the slot have one path exactly if they lie on one
page. -/
theorem pageKey_eq_iff {a b : ℕ} (ha : InSlot a) (hb : InSlot b) :
    pageKey a = pageKey b ↔ a / 4096 = b / 4096 := by
  have hna := toNat_ofNat_slot ha
  have hnb := toNat_ofNat_slot hb
  obtain ⟨hlo, hhi⟩ := ha
  obtain ⟨hlo', hhi'⟩ := hb
  unfold userBase at hlo hlo'
  simp only [pageKey, key, Prod.mk.injEq, Fin.ext_iff, index_val, hna, hnb]
  constructor
  · rintro ⟨h3, h2, h1⟩
    omega
  · intro h
    omega

theorem pageEntry_walk (s : Vm A) (root : ℕ) (hcan : canonical va = true) :
    (walk s root va = .fail → pageEntry s root va = none) ∧ ∀ t i, walk s root va = .pte t i →
        pageEntry s root va = if present (s.mem t i) then some (s.mem t i, false) else none := by
  unfold pageEntry walk
  rw [hcan]
  dsimp only
  generalize s.mem root (index va 39) = e4
  cases h4 : present e4 with
  | false => exact ⟨fun _ => rfl, fun _ _ h => by simp at h⟩
  | true =>
    generalize s.mem (frameOf e4) (index va 30) = e3
    cases h3 : present e3 with
    | false => exact ⟨fun _ => rfl, fun _ _ h => by simp at h⟩
    | true =>
      generalize s.mem (frameOf e3) (index va 21) = e2
      cases h2 : present e2 with
      | false => exact ⟨fun _ => rfl, fun _ _ h => by simp at h⟩
      | true =>
        cases hl : large e2 with
        | true => exact ⟨fun h => by simp at h, fun _ _ h => by simp at h⟩
        | false =>
          refine ⟨fun h => by simp at h, fun t i h => ?_⟩
          obtain ⟨rfl, rfl⟩ : frameOf e2 = t ∧ index va 12 = i := by simpa using h
          cases present (s.mem (frameOf e2) (index va 12)) with
          | false => simp
          | true => simp

theorem pageEntry_slot (h : Tree B s root) {a : ℕ} (ha : InSlot a) :
    pageEntry s root (BitVec.ofNat 64 a) = (leaf s.mem root (pageKey a)).map (·, false) := by
  obtain ⟨hfail, hpte⟩ := pageEntry_walk s root
    (canonical_of_lt (by rw [toNat_ofNat_slot ha]; exact ha.2) :
      canonical (BitVec.ofNat 64 a) = true)
  have hwalk := walk_user h (index_slot ha)
  unfold pageKey
  cases hpt : tableOf s.mem root (key (BitVec.ofNat 64 a)) with
  | none =>
    rw [hpt] at hwalk
    rw [hfail hwalk, leaf_none hpt]
    rfl
  | some pt =>
    rw [hpt] at hwalk
    rw [hpte _ _ hwalk, leaf_eq h hpt]
    cases hp : present (s.mem pt (key (BitVec.ofNat 64 a)).2.2) with
    | false => rfl
    | true => rfl

theorem mmu_slot (h : Tree B s root) {a : ℕ} (ha : InSlot a) :
    (mmu s root (BitVec.ofNat 64 a)).map BitVec.toNat =
      (leaf s.mem root (pageKey a)).map fun e => frameOf e * 4096 + a % 4096 := by
  unfold mmu
  rw [pageEntry_slot h ha]
  cases leaf s.mem root (pageKey a) with
  | none => rfl
  | some e =>
    simp only [Option.map_some, if_neg Bool.false_ne_true]
    rw [toNat_pageByte, toNat_ofNat_slot ha]

theorem userByte_slot (h : Tree B s root) {a : ℕ} (ha : InSlot a) : userByte s root a =
      (leaf s.mem root (pageKey a)).map fun e => s.byte (frameOf e * 4096 + a % 4096) := by
  have hmmu := mmu_slot h ha
  unfold userByte
  cases hl : leaf s.mem root (pageKey a) with
  | none =>
    rw [hl, Option.map_none, Option.map_eq_none_iff] at hmmu
    rw [hmmu]
    rfl
  | some e =>
    rw [hl] at hmmu
    obtain ⟨v, hv, hn⟩ := Option.map_eq_some_iff.mp hmmu
    rw [hv, Option.map_some, hn]
    rfl

/-- **The address space by its leaves.** -/
theorem space_slot (h : Tree B s root) {a : ℕ} (ha : InSlot a) :
    space s root a = (leaf s.mem root (pageKey a)).map fun e =>
      (userWritable e, s.byte (frameOf e * 4096 + a % 4096)) := by
  unfold space
  rw [pageEntry_slot h ha, userByte_slot h ha]
  cases leaf s.mem root (pageKey a) with
  | none => rfl
  | some e => rfl

namespace Sound

theorem tree_nodup (h : Sound B root s) : (Vmm.tree 4 s.mem root).Nodup :=
  (nodup_add.mp h.nodup).1

theorem not_free (h : Sound B root s) {g : ℕ} (hg : g ∈ Vmm.tree 4 s.mem root) :
    g ∉ B.free s.pool :=
  disjoint_left.mp (nodup_add.mp h.nodup).2.2 hg

theorem table_mem {mem : ℕ → Page} {g : ℕ} (hg : g ∈ Vmm.tree 3 mem root) :
    g ∈ Vmm.tree 4 mem root := mem_of_le (Radix.nodes_le_succ 3 root) hg

theorem page_frame (h : Sound B root s) (hl : leaf s.mem root k = some e) :
    frameOf e ∈ Vmm.tree 4 s.mem root ∧ frameOf e ∉ Vmm.tree 3 s.mem root := by
  have hpath := Alive.page_mem h.tree hl
  refine ⟨Radix.mem_nodes_of_reach hpath (by simp), fun hin => ?_⟩
  obtain ⟨p, hp, hlen⟩ := Radix.exists_reach hin
  have heq := Radix.reach_inj h.tree_nodup hp hpath (by omega) (by simp)
  rw [heq] at hlen
  simp at hlen

theorem page_inj (h : Sound B root s) {k' : Key} {e' : BitVec 64}
    (hl : leaf s.mem root k = some e) (hl' : leaf s.mem root k' = some e')
    (hf : frameOf e = frameOf e') : k = k' :=
  Alive.page_inj h.tree h.tree_nodup hl hl' hf

theorem frame_pos (h : Sound B root s) (hl : leaf s.mem root k = some e) : 0 < frameOf e :=
  B.managed_pos _ (h.managed _ (h.page_frame hl).1)

theorem translate_eq_zero_iff (h : Sound B root s) {a : ℕ} (ha : InSlot a) :
    vmmTranslateIn s root (BitVec.ofNat 64 a) = 0 ↔ leaf s.mem root (pageKey a) = none := by
  rw [translate_user h.tree (index_slot ha)]
  unfold pageKey
  cases hl : leaf s.mem root (key (BitVec.ofNat 64 a)) with
  | none => exact ⟨fun _ => rfl, fun _ => rfl⟩
  | some e =>
    have hpos := h.frame_pos hl
    refine ⟨fun hz => ?_, fun hn => by cases hn⟩
    have hn : ((e &&& ~~~0xfff#64) ||| (BitVec.ofNat 64 a &&& 0xfff)).toNat = 0 :=
      congrArg BitVec.toNat hz
    rw [toNat_pageByte] at hn
    omega

/-- **Frame.** What leaves the frames of the address space alone leaves the
address space alone. -/
theorem of_agree (h : Sound B root s) (s' : Vm A)
    (hmem : ∀ g ∈ Vmm.tree 4 s.mem root, s'.mem g = s.mem g)
    (hfree : ∀ g ∈ B.free s'.pool, g ∉ Vmm.tree 4 s.mem root) :
    Sound B root s' ∧ (∀ k, leaf s'.mem root k = leaf s.mem root k) ∧
      Vmm.tree 4 s'.mem root = Vmm.tree 4 s.mem root ∧
      ∀ a, InSlot a → space s' root a = space s root a := by
  have hmem3 : ∀ g ∈ Vmm.tree 3 s.mem root, s'.mem g = s.mem g := fun g hg => hmem g (table_mem hg)
  obtain ⟨h3, h4⟩ := tree_congr hmem3
  have hnd : (Vmm.tree 4 s.mem root + (B.free s'.pool).val).Nodup :=
    nodup_add.mpr ⟨h.tree_nodup, (B.free s'.pool).nodup,
      disjoint_left.mpr fun hg hf => hfree _ hf hg⟩
  have hle : Vmm.tree 3 s.mem root ≤ Vmm.tree 4 s.mem root := Radix.nodes_le_succ 3 root
  have htree : Tree B s' root := h.tree.congr hmem3
    (nodup_of_le (add_le_add_left hle _) hnd)
  have hleaf := leaf_congr hmem3
  refine ⟨⟨htree, by rw [h4]; exact hnd, by rw [h4]; exact h.managed, by rw [hleaf]; exact h.top⟩,
    hleaf, h4, fun a ha => ?_⟩
  rw [space_slot htree ha, space_slot h.tree ha, hleaf]
  cases hl : leaf s.mem root (pageKey a) with
  | none => rfl
  | some e =>
    have hpage : (frameOf e * 4096 + a % 4096) / 4096 = frameOf e := by omega
    simp only [Option.map_some, Vm.byte, hpage, hmem _ (h.page_frame hl).1]

/-- **A frame is taken** from the pool. -/
theorem alloc (h : Sound B root s) (halloc : s.pmmAlloc B = some (f, s')) :
    Sound B root s' ∧ (∀ k, leaf s'.mem root k = leaf s.mem root k) ∧
      Vmm.tree 4 s'.mem root = Vmm.tree 4 s.mem root ∧
      (∀ a, InSlot a → space s' root a = space s root a) ∧
      f ∉ Vmm.tree 4 s'.mem root ∧ f ∉ B.free s'.pool ∧ f ∈ B.managed ∧ f * 4096 < 2 ^ 64 := by
  obtain ⟨hf, hfree, hlt, hmem, -⟩ := pmmAlloc_some halloc
  obtain ⟨hs', hleaf, htree, hspace⟩ := h.of_agree s' (fun g hg => hmem g (h.not_free hg))
    (fun g hg hin => h.not_free hin (by rw [hfree] at hg; exact Finset.mem_of_mem_erase hg))
  refine ⟨hs', hleaf, htree, hspace, ?_, ?_, B.free_subset _ hf, hlt⟩
  · rw [htree]
    exact fun hin => h.not_free hin hf
  · rw [hfree]
    exact Finset.notMem_erase f _

end Sound

/-- What mapping the frame `f` at `va` does. -/
structure Placed (B : Buddy A) (root : ℕ) (va : BitVec 64) (w : Bool) (f : ℕ) (content : Page)
    (s s' : Vm A) : Prop where
  sound : Sound B root s'
  frames : tree 4 s'.mem root + (B.free s'.pool).val = tree 4 s.mem root + (B.free s.pool).val + {f}
  leaf : ∀ k, leaf s'.mem root k =
    if k = key va then some (mapEntry (addrOf f) w true) else Vmm.leaf s.mem root k
  mem : ∀ g, g ∉ B.free s.pool → g ∉ tree 3 s.mem root → g ≠ f → s'.mem g = s.mem g
  content : s'.mem f = content
  shared : ∀ j, j ≠ userSlot → s'.mem root j = s.mem root j

theorem key_top_ne (hva : Accepts va) : key va ≠ (511, 511, 511) := by
  obtain ⟨⟨hlo, hhi⟩, -⟩ := hva
  simp only [userBase, userMaxVma] at hlo hhi
  intro hk
  have h3 : va.toNat / 2 ^ 30 % 512 = 511 := by
    rw [← index_val]
    exact congrArg (fun k : Key => k.1.val) hk
  have h2 : va.toNat / 2 ^ 21 % 512 = 511 := by
    rw [← index_val]
    exact congrArg (fun k : Key => k.2.1.val) hk
  have h1 : va.toNat / 2 ^ 12 % 512 = 511 := by
    rw [← index_val]
    exact congrArg (fun k : Key => k.2.2.val) hk
  omega

/-- **A frame that is in use nowhere is mapped** where nothing is, or the
kernel panics without a free frame. -/
theorem Sound.place (h : Sound B root s) (hva : Accepts va) (hnone : leaf s.mem root (key va) = none)
    (hft : f ∉ Vmm.tree 4 s.mem root) (hff : f ∉ B.free s.pool) (hfm : f ∈ B.managed)
    (hlt : f * 4096 < 2 ^ 64) (w : Bool) (content : Page) :
    (∃ s', vmmMapUser B (s.fill f content) root va (addrOf f) w true = .error s' ∧
        B.free s'.pool = ∅) ∨
      ∃ s', vmmMapUser B (s.fill f content) root va (addrOf f) w true = .ok (0, s') ∧
        Placed B root va w f content s s' := by
  have hfill : ∀ g, g ≠ f → (s.fill f content).mem g = s.mem g := fun g hg =>
    Function.update_of_ne hg _ _
  have hself : (s.fill f content).mem f = content := Function.update_self _ _ _
  obtain ⟨h₁, hleaf₁, htree₁, -⟩ := h.of_agree (s.fill f content)
    (fun g hg => hfill g fun e => hft (e ▸ hg)) fun g hg hin => h.not_free hin hg
  have htree3 : Vmm.tree 3 (s.fill f content).mem root = Vmm.tree 3 s.mem root :=
    (tree_congr fun g hg => hfill g fun e => hft (e ▸ table_mem hg)).1
  obtain ⟨hpres, -, hpage⟩ := mapEntry_addrOf hlt w true
  refine (map_user h₁.tree hva (addrOf f) w true).imp id ?_
  rintro ⟨s', he, hm⟩
  have hframes : Vmm.tree 4 s'.mem root + (B.free s'.pool).val =
      Vmm.tree 4 s.mem root + (B.free s.pool).val + {f} := by
    have hsum := hm.frames
    rw [hleaf₁, hnone, hpage, htree₁, show (s.fill f content).pool = s.pool from rfl] at hsum
    simpa using hsum
  have hleaf : ∀ k, leaf s'.mem root k =
      if k = key va then some (mapEntry (addrOf f) w true) else leaf s.mem root k := by
    intro k
    rw [hm.leaf k, if_pos hpres, hleaf₁]
  refine ⟨s', he, ⟨hm.tree, ?_, fun g hg => ?_, ?_⟩, hframes, hleaf, fun g hg hgt hgf => ?_, ?_,
    fun j hj => ?_⟩
  · rw [hframes]
    refine nodup_add.mpr ⟨h.nodup, nodup_singleton f, disjoint_singleton.mpr ?_⟩
    rw [mem_add, not_or]
    exact ⟨hft, hff⟩
  · have hin : g ∈ Vmm.tree 4 s.mem root + (B.free s.pool).val + {f} := by
      rw [← hframes]
      exact mem_add.mpr (Or.inl hg)
    rcases mem_add.mp hin with hold | hnew
    · rcases mem_add.mp hold with ht | hfree
      · exact h.managed g ht
      · exact B.free_subset _ hfree
    · rw [mem_singleton.mp hnew]
      exact hfm
  · rw [hleaf, if_neg (key_top_ne hva).symm]
    exact h.top
  · rw [hm.mem g hg (by rw [htree3]; exact hgt), hfill g hgf]
  · rw [hm.mem f hff (by rw [htree3]; exact fun hin => hft (table_mem hin)), hself]
  · rw [hm.shared j hj, hfill root fun e => hft (e ▸ table_mem Tree.root_mem)]

theorem userWritable_mapEntry (hlt : f * 4096 < 2 ^ 64) (w : Bool) :
    userWritable (mapEntry (addrOf f) w true) = w := by
  have haddr := toNat_addrOf hlt
  have hbits : mapEntry (addrOf f) w true &&& 0xfff = leafFlags w true := by
    have hentry : mapEntry (addrOf f) w true = addrOf f ||| leafFlags w true := by
      simp only [mapEntry, leafFlags, BitVec.or_assoc]
    obtain ⟨hfl, -⟩ := leafFlags_toNat w true
    refine BitVec.eq_of_toNat_eq ?_
    rw [toNat_low, hentry, toNat_flags (by omega) hfl]
    omega
  have hmask : ∀ m : BitVec 64, m &&& 0xfff = m → mapEntry (addrOf f) w true &&& m =
      leafFlags w true &&& m := by
    intro m hm
    rw [← hbits, BitVec.and_assoc, BitVec.and_comm 0xfff m, hm]
  unfold userWritable
  rw [hmask pgU (by decide), hmask pgW (by decide)]
  cases w with
  | false => decide
  | true => decide

/-- **A page that is mapped** adds its bytes to the address space. -/
theorem Placed.space {w : Bool} {content : Page} (h : Sound B root s) (hp : Placed B root va w f content s s')
    (hva : Accepts va) (hlt : f * 4096 < 2 ^ 64) (hft : f ∉ tree 4 s.mem root) {a : ℕ}
    (ha : InSlot a) :
    space s' root a = if a / 4096 = va.toNat / 4096 then
        some (w, wordByte (content (Fin.ofNat 512 (a % 4096 / 8))) (a % 8))
      else Vmm.space s root a := by
  have hvaslot : InSlot va.toNat := by
    obtain ⟨⟨hlo, hhi⟩, -⟩ := hva
    unfold userMaxVma at hhi
    exact ⟨hlo, by omega⟩
  have hkey : pageKey a = key va ↔ a / 4096 = va.toNat / 4096 := by
    rw [← pageKey_eq_iff ha hvaslot]
    unfold pageKey
    rw [BitVec.ofNat_toNat, BitVec.setWidth_eq]
  rw [space_slot hp.sound.tree ha, hp.leaf]
  by_cases hpage : a / 4096 = va.toNat / 4096
  · obtain ⟨-, hframe, -⟩ := mapEntry_addrOf hlt w true
    have hdiv : (f * 4096 + a % 4096) / 4096 = f := by omega
    have hmod : (f * 4096 + a % 4096) % 4096 = a % 4096 := by omega
    have hmod8 : (f * 4096 + a % 4096) % 8 = a % 8 := by omega
    rw [if_pos (hkey.mpr hpage), if_pos hpage, Option.map_some, userWritable_mapEntry hlt, hframe]
    unfold Vm.byte
    rw [hdiv, hmod, hmod8, hp.content]
  rw [if_neg (fun hk => hpage (hkey.mp hk)), if_neg hpage, space_slot h.tree ha]
  cases hl : Vmm.leaf s.mem root (pageKey a) with
  | none => rfl
  | some e =>
    obtain ⟨hin, hnt⟩ := h.page_frame hl
    have hdiv : (frameOf e * 4096 + a % 4096) / 4096 = frameOf e := by omega
    have hne : frameOf e ≠ f := fun heq => hft (heq ▸ hin)
    simp only [Option.map_some, Vm.byte, hdiv, hp.mem _ (h.not_free hin) hnt hne]

/-! ## Copies of the kernel -/

theorem pageKey_top : pageKey userMaxVma = (511, 511, 511) := by decide

/-- **The kernel copies bytes to user addresses.** -/
theorem Sound.store (h : Sound B root s) {a₀ : ℕ} {bs : List UInt8} (hlo : userBase ≤ a₀)
    (hhi : a₀ < userMaxVma) (hok : storeUser s root a₀ bs = .ok s') :
    a₀ + bs.length ≤ userMaxVma ∧ Sound B root s' ∧ s'.pool = s.pool ∧
      (∀ k, leaf s'.mem root k = leaf s.mem root k) ∧
      Vmm.tree 4 s'.mem root = Vmm.tree 4 s.mem root ∧
      (∀ g, g ∉ Vmm.tree 4 s.mem root → s'.mem g = s.mem g) ∧
      (∀ g ∈ Vmm.tree 3 s.mem root, s'.mem g = s.mem g) ∧
      (∀ a, a₀ ≤ a → a < a₀ + bs.length → (space s root a).isSome) ∧
      ∀ a, InSlot a → space s' root a =
        if a₀ ≤ a ∧ a < a₀ + bs.length then (space s root a).map fun x => (x.1, bs.getD (a - a₀) 0)
        else space s root a := by
  have hmapped := storeBytes_mapped bs hok
  -- the bytes end below the page that is never mapped
  have hend : a₀ + bs.length ≤ userMaxVma := by
    by_contra hgt
    have hsome := hmapped userMaxVma (by omega) (by omega)
    rw [mmu_slot h.tree ⟨by decide, by decide⟩, pageKey_top, h.top] at hsome
    cases hsome
  have hslot : ∀ a, a₀ ≤ a → a < a₀ + bs.length → InSlot a := by
    intro a ha ha'
    unfold userMaxVma at hend
    exact ⟨by omega, by omega⟩
  have hleafOf : ∀ a pa, a₀ ≤ a → a < a₀ + bs.length →
      (mmu s root (BitVec.ofNat 64 a)).map BitVec.toNat = some pa →
      ∃ e, leaf s.mem root (pageKey a) = some e ∧ frameOf e * 4096 + a % 4096 = pa := by
    intro a pa ha ha' htr
    rw [mmu_slot h.tree (hslot a ha ha')] at htr
    exact Option.map_eq_some_iff.mp htr
  obtain ⟨hpool, hmem⟩ := storeBytes_mem bs hok
  have hout : ∀ g, (∀ k e, leaf s.mem root k = some e → g ≠ frameOf e) → s'.mem g = s.mem g := by
    intro g hg
    refine hmem g fun a pa ha ha' htr => ?_
    obtain ⟨e, hl, hpa⟩ := hleafOf a pa ha ha' htr
    have hdiv : pa / 4096 = frameOf e := by omega
    rw [hdiv]
    exact hg _ e hl
  have hmem3 : ∀ g ∈ Vmm.tree 3 s.mem root, s'.mem g = s.mem g := fun g hg =>
    hout g fun k e hl heq => (h.page_frame hl).2 (heq ▸ hg)
  have hmem4 : ∀ g, g ∉ Vmm.tree 4 s.mem root → s'.mem g = s.mem g := fun g hg =>
    hout g fun k e hl heq => hg (heq ▸ (h.page_frame hl).1)
  obtain ⟨h3, h4⟩ := tree_congr hmem3
  have hleaf := leaf_congr hmem3
  have htree : Tree B s' root := h.tree.congr hmem3 (by rw [hpool]; exact h.tree.nodup)
  refine ⟨hend, ⟨htree, by rw [h4, hpool]; exact h.nodup, by rw [h4]; exact h.managed,
    by rw [hleaf]; exact h.top⟩, hpool, hleaf, h4, hmem4, hmem3, fun a ha ha' => ?_, fun a ha => ?_⟩
  · have hsome := hmapped a ha ha'
    rw [mmu_slot h.tree (hslot a ha ha')] at hsome
    rw [space_slot h.tree (hslot a ha ha')]
    simpa using hsome
  rw [space_slot htree ha, space_slot h.tree ha, hleaf]
  cases hl : leaf s.mem root (pageKey a) with
  | none =>
    by_cases hin : a₀ ≤ a ∧ a < a₀ + bs.length
    · rw [if_pos hin]
      rfl
    · rw [if_neg hin]
      rfl
  | some e =>
    -- two addresses of the space are two bytes of memory
    have hinj : ∀ b e', InSlot b → leaf s.mem root (pageKey b) = some e' → ∀ c e'', InSlot c →
        leaf s.mem root (pageKey c) = some e'' →
        frameOf e' * 4096 + b % 4096 = frameOf e'' * 4096 + c % 4096 → b = c := by
      intro b e' hb hlb c e'' hc hlc heq
      have hkey := h.page_inj hlb hlc (by omega)
      have hpage := (pageKey_eq_iff hb hc).mp hkey
      omega
    by_cases hin : a₀ ≤ a ∧ a < a₀ + bs.length
    · rw [if_pos hin, Option.map_some, Option.map_some, Option.map_some, Option.some.injEq, Prod.mk.injEq]
      refine ⟨rfl, ?_⟩
      refine storeBytes_byte bs (fun b c pa hb hb' hc hc' htb htc => ?_) hok (a - a₀) _ (by omega) ?_
      · obtain ⟨e', hlb, hpb⟩ := hleafOf b pa hb hb' htb
        obtain ⟨e'', hlc, hpc⟩ := hleafOf c pa hc hc' htc
        exact hinj b e' (hslot b hb hb') hlb c e'' (hslot c hc hc') hlc (hpb.trans hpc.symm)
      · rw [show a₀ + (a - a₀) = a by omega, mmu_slot h.tree ha, hl]
        rfl
    rw [if_neg hin, Option.map_some, Option.map_some, Option.some.injEq, Prod.mk.injEq]
    refine ⟨rfl, ?_⟩
    by_contra hne
    obtain ⟨b, hb, hb', htb⟩ := storeBytes_changed bs hok hne
    obtain ⟨e', hlb, hpb⟩ := hleafOf b _ hb hb' htb
    obtain rfl := hinj b e' (hslot b hb hb') hlb a e ha hl hpb
    exact hin ⟨hb, hb'⟩

/-! ## Pages that are given back -/

/-- **A page is unmapped** and its frame freed. -/
theorem Sound.unmap (h : Sound B root s) (hva : IsUser va) :
    ∃ s', (if (vmmUnmapUser s root va).1 ≠ 0 then
          (vmmUnmapUser s root va).2.pmmFree B (frameOf (vmmUnmapUser s root va).1)
        else (vmmUnmapUser s root va).2) = s' ∧
      Sound B root s' ∧ (∀ k, leaf s'.mem root k = if k = key va then none else leaf s.mem root k) ∧
      Vmm.tree 4 s'.mem root + (B.free s'.pool).val = Vmm.tree 4 s.mem root + (B.free s.pool).val ∧
      (∀ g, g ∉ Vmm.tree 4 s.mem root → g ∉ B.free s.pool → s'.mem g = s.mem g) ∧
      ∀ j, j ≠ userSlot → s'.mem root j = s.mem root j := by
  have hu := unmap_frees h.tree (Finset.Subset.refl _) h.managed h.nodup hva
  refine ⟨_, rfl, ⟨hu.tree, by rw [hu.frames]; exact h.nodup, fun g hg => ?_, ?_⟩, hu.leaf, hu.frames,
    hu.mem, hu.shared⟩
  · rcases mem_add.mp (hu.frames ▸ mem_add.mpr (Or.inl hg)) with ht | hf
    · exact h.managed g ht
    · exact B.free_subset _ hf
  · rw [hu.leaf]
    by_cases hk : (511, 511, 511) = key va
    · rw [if_pos hk]
    · rw [if_neg hk]
      exact h.top

/-! ## New address spaces -/

/-- What changes, changes in the frames of the address space and in free
ones, and no frame comes in from elsewhere. -/
structure Within (B : Buddy A) (root : ℕ) (s s' : Vm A) : Prop where
  mem : ∀ g, g ∉ tree 4 s.mem root → g ∉ B.free s.pool → s'.mem g = s.mem g
  shared : ∀ j, j ≠ userSlot → s'.mem root j = s.mem root j
  frames : tree 4 s'.mem root + (B.free s'.pool).val ≤ tree 4 s.mem root + (B.free s.pool).val

namespace Within

theorem refl (s : Vm A) : Within B root s s := ⟨fun _ _ _ => rfl, fun _ _ => rfl, le_rfl⟩

theorem not_mem (h : Within B root s s') {g : ℕ} (ht : g ∉ tree 4 s.mem root)
    (hf : g ∉ B.free s.pool) : g ∉ tree 4 s'.mem root ∧ g ∉ B.free s'.pool := by
  have hout : g ∉ tree 4 s'.mem root + (B.free s'.pool).val := fun hin =>
    (mem_add.mp (mem_of_le h.frames hin)).elim ht hf
  rw [mem_add, not_or] at hout
  exact hout

theorem trans (h : Within B root s s') (h' : Within B root s' s'') : Within B root s s'' where
  mem g ht hf := by
    obtain ⟨ht', hf'⟩ := h.not_mem ht hf
    rw [h'.mem g ht' hf', h.mem g ht hf]
  shared j hj := (h'.shared j hj).trans (h.shared j hj)
  frames := h'.frames.trans h.frames

end Within

theorem Sound.of_empty (h : Empty B s root) (hroot : root ∈ B.managed) :
    Sound B root s ∧ ∀ k, leaf s.mem root k = none := by
  have hleaf : ∀ k, leaf s.mem root k = none := fun k => leaf_none (h.tableAt userSlot [k.1, k.2.1])
  refine ⟨⟨h.tree, ?_, fun g hg => ?_, hleaf _⟩, hleaf⟩
  · rw [h.tree_eq, singleton_add, nodup_cons]
    exact ⟨h.used, (B.free s.pool).nodup⟩
  · rw [h.tree_eq, mem_singleton] at hg
    rw [hg]
    exact hroot

/-- **`vmm_new_user_aspace`** -/
theorem Sound.new (hmaster : masterPml4 ∉ B.free s.pool) :
    (∃ s', vmmNewUserAspace B s = .error s' ∧ B.free s'.pool = ∅) ∨
      ∃ root s', vmmNewUserAspace B s = .ok (root, s') ∧ Sound B root s' ∧
        (∀ k, leaf s'.mem root k = none) ∧
        Vmm.tree 4 s'.mem root + (B.free s'.pool).val = (B.free s.pool).val ∧
        (∀ g, g ∉ B.free s.pool → s'.mem g = s.mem g) ∧
        ∀ j, s'.mem root j = if j = userSlot then 0 else s.mem masterPml4 j := by
  refine (newUserAspace_spec hmaster).imp id ?_
  rintro ⟨root, s', he, hroot, hfree, -, htree, hnodes, hleaf, hmem, hwords⟩
  have hframes : Vmm.tree 4 s'.mem root + (B.free s'.pool).val = (B.free s.pool).val := by
    rw [hnodes, hfree, Finset.erase_val, singleton_add, cons_erase hroot]
  refine ⟨root, s', he, ⟨htree, by rw [hframes]; exact (B.free s.pool).nodup, fun g hg => ?_,
    hleaf _⟩, hleaf, hframes, hmem, hwords⟩
  rw [hnodes, mem_singleton] at hg
  rw [hg]
  exact B.free_subset _ hroot

end Lnxrm.Vmm
