import Lnxrm.Common.Run
import Lnxrm.Vmm.Helpers.Mapping

/-!
# The page tables are a map

The abstract level is a map from page numbers to the addresses that the
pages are mapped to. `vmm_map_user` and `vmm_unmap_user` answer like the
map's own operations, and `vmm_translate_in` reads it, over any sequence of
calls in an address space of `vmm_new_user_aspace`. What is shared with
other address spaces stays as it is.
-/

namespace Lnxrm.Vmm

open Function
open Radix (reach)

/-- The user pages that are mapped, and where. -/
abbrev PageMap := ℕ → Option (BitVec 64)

/-- A call. -/
inductive Op where
  | map (va pa : BitVec 64) (writable user : Bool)
  | unmap (va : BitVec 64)
deriving DecidableEq

/-- What a call returns. -/
inductive Answer where
  | status (rc : Int)
  | frame (pa : BitVec 64)
deriving DecidableEq

/-- Frames are mapped, and unmapping is asked for user addresses. -/
def Op.Legal : Op → Prop
  | .map _ pa _ _ => pa.toNat % 4096 = 0 ∧ pa ≠ 0
  | .unmap va => IsUser va

instance : DecidablePred Op.Legal
  | .map _ _ _ _ => inferInstanceAs (Decidable (_ ∧ _))
  | .unmap _ => inferInstanceAs (Decidable (IsUser _))

namespace PageMap

/-- Nothing is mapped. -/
def empty : PageMap := fun _ => none

/-- A call on the map. -/
def step (m : PageMap) : Op → Answer × PageMap
  | .map va pa _ _ =>
    if Accepts va then (.status 0, update m (va.toNat / 4096) (some pa))
    else (.status efail, m)
  | .unmap va =>
    (.frame ((m (va.toNat / 4096)).getD 0), update m (va.toNat / 4096) none)

end PageMap

/-- A call on the page tables. -/
def exec {A : Type} (B : Buddy A) (root : ℕ) (s : Vm A) : Op → Except (Vm A) (Answer × Vm A)
  | .map va pa writable user =>
    (vmmMapUser B s root va pa writable user).map fun r => (.status r.1, r.2)
  | .unmap va =>
    let r := vmmUnmapUser s root va
    .ok (.frame r.1, r.2)

/-! ## The shared tables -/

/-- The table an entry points at, which is not the entry of a large page. -/
def nextTable (e : BitVec 64) : Option ℕ :=
  if present e && !large e then some (frameOf e) else none

/-- A table below a slot that address spaces share. -/
def SharedTable (mem : ℕ → Page) (root g : ℕ) : Prop :=
  ∃ i p, i ≠ userSlot ∧ p.length ≤ 2 ∧ reach nextTable mem root (i :: p) = some g

/-- The master tables are in use, so none of them is handed out. -/
structure KernelTables {A : Type} (B : Buddy A) (s : Vm A) : Prop where
  master : masterPml4 ∉ B.free s.pool
  shared : ∀ g, SharedTable s.mem masterPml4 g → g ∉ B.free s.pool

variable {A : Type} {B : Buddy A} {s₀ s : Vm A} {root : ℕ} {m : PageMap}

theorem SharedTable.of_root {mem mem₀ : ℕ → Page} {free : Finset ℕ}
    (hroot : ∀ j, j ≠ userSlot → mem root j = mem₀ masterPml4 j)
    (hmem : ∀ g, g ∉ free → mem g = mem₀ g)
    (hfree : ∀ g, SharedTable mem₀ masterPml4 g → g ∉ free) {g : ℕ} (h : SharedTable mem root g) :
    SharedTable mem₀ masterPml4 g := by
  obtain ⟨i, p, hi, hp, hg⟩ := h
  refine ⟨i, p, hi, hp, ?_⟩
  rw [← hg]
  clear hg
  -- each table of the path is in use, so it reads the same
  induction p using List.reverseRecOn with
  | nil => simp only [reach, hroot i hi]
  | append_singleton p j ih =>
    have hlen : p.length ≤ 2 := by
      simp only [List.length_append] at hp
      omega
    rw [← List.cons_append, Radix.reach_snoc, Radix.reach_snoc, ← ih hlen]
    cases hb : reach nextTable mem₀ masterPml4 (i :: p) with
    | none => rfl
    | some b => simp only [Option.bind_some, hmem b (hfree b ⟨i, p, hi, hlen, hb⟩)]

/-! ## The page tables represent the map -/

/-- **The page tables hold the map**, in an address space that was made in
the state `s₀`. -/
structure Represents (B : Buddy A) (s₀ : Vm A) (root : ℕ) (s : Vm A) (m : PageMap) : Prop where
  tree : Tree B s root
  /-- every table was free when the address space was made -/
  tables : Vmm.tree 3 s.mem root + (B.free s.pool).val = (B.free s₀.pool).val
  leaf : ∀ va, IsUser va →
    (Vmm.leaf s.mem root (key va)).map (· &&& ~~~0xfff#64) = m (va.toNat / 4096)
  mem : ∀ g, g ∉ B.free s₀.pool → s.mem g = s₀.mem g
  shared : ∀ j, j ≠ userSlot → s.mem root j = s₀.mem masterPml4 j

namespace Represents

theorem mapped {s' : Vm A} {va e : BitVec 64} {pa : Option (BitVec 64)}
    (h : Represents B s₀ root s m) (hva : IsUser va) (hs' : Mapped B root (key va) e s s')
    (he : (if present e then some e else none).map (· &&& ~~~0xfff#64) = pa) :
    Represents B s₀ root s' (update m (va.toNat / 4096) pa) where
  tree := hs'.tree
  tables := hs'.tables.trans h.tables
  leaf va' hva' := by
    rw [hs'.leaf]
    by_cases hk : key va' = key va
    · rw [if_pos hk, he, (key_eq_iff hva' hva).mp hk, update_self]
    · have hpage : va'.toNat / 4096 ≠ va.toNat / 4096 := fun e => hk ((key_eq_iff hva' hva).mpr e)
      rw [if_neg hk, update_of_ne hpage]
      exact h.leaf va' hva'
  mem g hg := by
    -- what was not free then is neither free nor a table now
    have hout : g ∉ Vmm.tree 3 s.mem root + (B.free s.pool).val := by
      rw [h.tables]
      exact hg
    rw [Multiset.mem_add, not_or] at hout
    rw [hs'.mem g hout.2 hout.1]
    exact h.mem g hg
  shared j hj := (hs'.shared j hj).trans (h.shared j hj)

/-- **One call.** It answers like the map, or panics because no frame is
free. -/
theorem exec (h : Represents B s₀ root s m) (op : Op) (hop : op.Legal) :
    (∃ s', exec B root s op = .error s' ∧ B.free s'.pool = ∅) ∨
      ∃ s', Vmm.exec B root s op = .ok ((m.step op).1, s') ∧
        Represents B s₀ root s' (m.step op).2 := by
  cases op with
  | map va pa writable user =>
    by_cases hva : Accepts va
    · obtain ⟨hpres, hhigh, -⟩ := leafEntry hop.1 writable user
      rcases map_user h.tree hva pa writable user with ⟨s', he, hfree⟩ | ⟨s', he, hs'⟩
      · exact Or.inl ⟨s', by simp only [Vmm.exec, he]; rfl, hfree⟩
      · refine Or.inr ⟨s', by simp only [Vmm.exec, he, PageMap.step, if_pos hva]; rfl, ?_⟩
        simp only [PageMap.step, if_pos hva]
        refine h.mapped hva.1 hs' ?_
        rw [if_pos (show present (mapEntry pa writable user) = true from hpres)]
        exact congrArg some hhigh
    · refine Or.inr ⟨s, ?_, ?_⟩
      · simp only [Vmm.exec, map_rejected hva, PageMap.step, if_neg hva]
        rfl
      · simp only [PageMap.step, if_neg hva]
        exact h
  | unmap va =>
    have hva : IsUser va := hop
    have hm := h.leaf va hva
    refine Or.inr ?_
    simp only [Vmm.exec, PageMap.step]
    rcases unmap_user h.tree (index_user hva) with ⟨hl, he⟩ | ⟨pt, e, hpt, -, -, hl, he⟩
    · rw [hl] at hm
      rw [he, ← hm]
      have hsame : update m (va.toNat / 4096) none = m := by
        rw [update_eq_self_iff, ← hm]
        rfl
      rw [hsame]
      exact ⟨s, rfl, h⟩
    · rw [hl] at hm
      rw [he, ← hm]
      refine ⟨_, rfl, h.mapped hva (Mapped.store h.tree hpt) ?_⟩
      rw [not_present_zero]
      rfl

/-- **Translation** reads the map. -/
theorem translate (h : Represents B s₀ root s m) {va : BitVec 64} (hva : Accepts va) {k : ℕ}
    (hk : k < 4096) :
    vmmTranslateIn s root (va + BitVec.ofNat 64 k) =
      match m (va.toNat / 4096) with
      | none => 0
      | some pa => pa + BitVec.ofNat 64 k := by
  obtain ⟨⟨hlo, hhi⟩, halign⟩ := hva
  simp only [userBase, userMaxVma] at hlo hhi
  have hkn : (BitVec.ofNat 64 k).toNat = k := by
    rw [BitVec.toNat_ofNat]
    omega
  have hn : (va + BitVec.ofNat 64 k).toNat = va.toNat + k := by
    rw [BitVec.toNat_add, hkn]
    omega
  have huser : IsUser (va + BitVec.ofNat 64 k) := by
    unfold IsUser userBase userMaxVma
    omega
  have hpage : (va + BitVec.ofNat 64 k).toNat / 4096 = va.toNat / 4096 := by omega
  have hm := h.leaf _ huser
  rw [hpage] at hm
  rw [translate_user h.tree (index_user huser), ← hm]
  cases Vmm.leaf s.mem root (key (va + BitVec.ofNat 64 k)) with
  | none => rfl
  | some e =>
    have hhigh := toNat_high e
    refine BitVec.eq_of_toNat_eq ?_
    show ((e &&& ~~~0xfff#64) ||| ((va + BitVec.ofNat 64 k) &&& 0xfff)).toNat =
      ((e &&& ~~~0xfff#64) + BitVec.ofNat 64 k).toNat
    rw [toNat_pageByte, hn, BitVec.toNat_add, hhigh, hkn]
    unfold frameOf
    omega

end Represents

/-- **The page tables implement a map.** -/
theorem page_tables_refine_map (B : Buddy A) (s₀ : Vm A) (hkernel : KernelTables B s₀) (ops : List Op)
    (hops : ∀ op ∈ ops, op.Legal) :
    match vmmNewUserAspace B s₀ with
    | .error s => B.free s.pool = ∅
    | .ok (root, s₁) =>
      match runTry (exec B root) s₁ ops with
      | .error s => B.free s.pool = ∅
      | .ok (answers, s) =>
        let spec := runTrace PageMap.step PageMap.empty ops
        answers = spec.1 ∧
        (∀ va, Accepts va → ∀ k, k < 4096 → vmmTranslateIn s root (va + BitVec.ofNat 64 k) =
          match spec.2 (va.toNat / 4096) with
          | none => 0
          | some pa => pa + BitVec.ofNat 64 k) ∧
        (∀ va pa writable user, ¬ Accepts va →
          vmmMapUser B s root va pa writable user = .ok (efail, s)) ∧
        (∀ i, i ≠ userSlot → s.mem root i = s₁.mem root i) ∧
        (∀ g, SharedTable s₁.mem root g → s.mem g = s₁.mem g) ∧
        ∀ g, g ∉ B.free s₀.pool → s.mem g = s₀.mem g := by
  rcases newUserAspace_spec hkernel.master with
    ⟨s', he, hfree⟩ | ⟨root, s₁, he, hroot, hfree, -, htree, hnodes, hleaf, hmem, hwords⟩
  · rw [he]
    exact hfree
  rw [he]
  have hshared₁ : ∀ j, j ≠ userSlot → s₁.mem root j = s₀.mem masterPml4 j := fun j hj => by
    rw [hwords j, if_neg hj]
  have hinit : Represents B s₀ root s₁ PageMap.empty := by
    refine ⟨htree, ?_, fun va _ => by rw [hleaf]; rfl, hmem, hshared₁⟩
    rw [hnodes, hfree, Finset.erase_val, Multiset.singleton_add, Multiset.cons_erase hroot]
  rcases runTry_sim (fun s t r h hr => h.exec r hr) ops hinit hops with
    ⟨s, hs, hpanic⟩ | ⟨s, hs, h⟩
  · simp only [hs]
    exact hpanic
  · simp only [hs]
    refine ⟨trivial, fun va hva k hk => h.translate hva hk, fun va pa writable user hva =>
      map_rejected hva writable user, fun i hi => ?_, fun g hg => ?_, h.mem⟩
    · rw [h.shared i hi, hshared₁ i hi]
    · have hused := hkernel.shared g (hg.of_root hshared₁ hmem hkernel.shared)
      rw [h.mem g hused, hmem g hused]

/-- Two pages of one table are mapped, an address that is not aligned is
rejected and the first page is unmapped again. -/
theorem page_tables_refine_map_two_pages : let B := Buddy.least 64 (by decide)
    let s₀ : Vm (Finset ℕ) := { pool := {1, 2, 3, 4, 5}, mem := fun _ _ => 0 }
    let ops : List Op := [.map 0x7f8000000000 0x9000 true true, .map 0x7f8000001000 0xa000 false true,
      .map 0x7f8000001234 0xb000 true true, .unmap 0x7f8000000000]
    match vmmNewUserAspace B s₀ with
    | .error _ => False
    | .ok (root, s₁) =>
      match runTry (exec B root) s₁ ops with
      | .error _ => False
      | .ok (answers, s) =>
        answers = [.status 0, .status 0, .status (-1), .frame 0x9000] ∧
        vmmTranslateIn s root 0x7f8000000008 = 0 ∧ vmmTranslateIn s root 0x7f8000001008 = 0xa008 := by
  intro B s₀ ops
  have hkernel : KernelTables B s₀ := by
    refine ⟨by decide, ?_⟩
    rintro g ⟨i, p, -, -, hg⟩
    simp only [reach, s₀, show nextTable 0 = none from by decide, Option.bind_none] at hg
    cases hg
  have hok : (match vmmNewUserAspace B s₀ with
      | .error _ => false
      | .ok (root, s₁) => (runTry (exec B root) s₁ ops).isOk) = true := by decide +kernel
  have h := page_tables_refine_map B s₀ hkernel ops (by decide)
  cases hnew : vmmNewUserAspace B s₀ with
  | error s => simp [hnew] at hok
  | ok r =>
    obtain ⟨root, s₁⟩ := r
    simp only [hnew] at hok h ⊢
    cases hrun : runTry (exec B root) s₁ ops with
    | error s => simp [hrun, Except.isOk, Except.toBool] at hok
    | ok r =>
      simp only [hrun] at h ⊢
      obtain ⟨hans, htrans, -⟩ := h
      refine ⟨hans.trans (by decide +kernel), ?_, ?_⟩
      · exact (htrans 0x7f8000000000 (by decide) 8 (by decide)).trans (by decide +kernel)
      · exact (htrans 0x7f8000001000 (by decide) 8 (by decide)).trans (by decide +kernel)

end Lnxrm.Vmm
