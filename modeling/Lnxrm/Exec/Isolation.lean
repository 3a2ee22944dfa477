import Lnxrm.Exec.Heap

/-!
# Address spaces are isolated

Processes are forked and end, take pages and give them back, and frames go
from one to the next. No frame belongs to two address spaces, and what one
of them holds changes by its own calls only (`isolation`).
-/

namespace Lnxrm.Exec

open Vmm Multiset

variable {A : Type}

/-- What is done to an address space. -/
inductive SpaceOp where
  /-- `dup_user_aspace` into it -/
  | dup (src : ℕ)
  /-- by its process, or by the kernel for it -/
  | store (va : ℕ) (bs : List UInt8)
  /-- a fresh page, as in `sys_brk` and `elf_load` -/
  | grow (writable : Bool) (page : ℕ)
  /-- pages are given back, as in `sys_brk` -/
  | shrink (pages : List ℕ)
  /-- `vmm_destroy_user_aspace` -/
  | destroy

/-- The machine, and the roots of the address spaces that are there. -/
abbrev Spaces (A : Type) := Vm A × Finset ℕ

/-- An operation on the address space of a root, or `vmm_new_user_aspace`.
It may panic or fault. -/
def act (B : Buddy A) (p : Spaces A) : Option (ℕ × SpaceOp) → Option (Spaces A)
  | none => (vmmNewUserAspace B p.1).toOption.map fun r => (r.2, insert r.1 p.2)
  | some (root, .dup src) => some ((dupUserAspace B p.1 src root).2, p.2)
  | some (root, .store va bs) => (storeUser p.1 root va bs).toOption.map (·, p.2)
  | some (root, .grow w page) => (freshPage B root w page p.1).toOption.map fun r => (r.2, p.2)
  | some (root, .shrink pages) => some (unmapPages B root pages p.1, p.2)
  | some (root, .destroy) => some (vmmDestroyUserAspace B p.1 root, p.2.erase root)

/-- A page of user space. -/
abbrev UserPage (page : ℕ) : Prop := page % 4096 = 0 ∧ userBase ≤ page ∧ page < userMaxVma

/-- A copy is made into an empty address space, the others are used at user
addresses, and pages are mapped where none is. -/
def Permits (p : Spaces A) (root : ℕ) : SpaceOp → Prop
  | .dup src => src ∈ p.2 ∧ src ≠ root ∧ present (p.1.mem root userSlot) = false
  | .store va _ => userBase ≤ va ∧ va < userMaxVma
  | .grow _ page => UserPage page ∧ vmmTranslateIn p.1 root (BitVec.ofNat 64 page) = 0
  | .shrink pages => ∀ page ∈ pages, UserPage page
  | .destroy => True

instance (p : Spaces A) (root : ℕ) : ∀ o, Decidable (Permits p root o)
  | .dup _ | .store .. | .grow .. => inferInstanceAs (Decidable (_ ∧ _))
  | .shrink pages => inferInstanceAs (Decidable (∀ page ∈ pages, UserPage page))
  | .destroy => isTrue trivial

/-- The address space is there. -/
abbrev Legal (p : Spaces A) (l : Option (ℕ × SpaceOp)) : Prop :=
  ∀ x ∈ l, x.1 ∈ p.2 ∧ Permits p x.1 x.2

/-- A root with nothing between the shared slots but the user slot. -/
def Spare (root : Page) : Prop :=
  ∀ i, i ≠ 0 → i ≠ 511 → i ≠ userSlot → present (root i) = false

/-- **No frame belongs to two address spaces**, or to one and the pool. -/
structure Isolated (B : Buddy A) (p : Spaces A) : Prop where
  sound : ∀ r ∈ p.2, Sound B r p.1 ∧ Spare (p.1.mem r)
  apart : ∀ r ∈ p.2, ∀ q ∈ p.2, q ≠ r → Disjoint (tree 4 p.1.mem q) (tree 4 p.1.mem r)
  unmanaged : masterPml4 ∉ B.managed
  master : Spare (p.1.mem masterPml4)

/-- No address space has changed but that of `o`, if any. -/
def Kept (B : Buddy A) (o : Option ℕ) (p p' : Spaces A) : Prop :=
  Isolated B p' ∧ ∀ q ∈ p.2, o ≠ some q →
    q ∈ p'.2 ∧ ∀ a, InSlot a → space p'.1 q a = space p.1 q a

variable {B : Buddy A} {p p' : Spaces A} {r : ℕ}

namespace Isolated

/-- **A change in the frames `T` of `r` and in free ones** leaves the other
address spaces as they are. -/
theorem step {T U : Multiset ℕ} (h : Isolated B p)
    (hmem : ∀ g, g ∉ T → g ∉ B.free p.1.pool → p'.1.mem g = p.1.mem g)
    (hframes : U + (B.free p'.1.pool).val ≤ T + (B.free p.1.pool).val)
    (hroots : ∀ q, q ≠ r → (q ∈ p'.2 ↔ q ∈ p.2)) (hman : ∀ g ∈ T, g ∈ B.managed)
    (hT : ∀ q ∈ p.2, q ≠ r → Disjoint (tree 4 p.1.mem q) T)
    (hr : r ∈ p'.2 → (Sound B r p'.1 ∧ Spare (p'.1.mem r)) ∧ tree 4 p'.1.mem r = U) :
    Kept B (some r) p p' := by
  have key : ∀ q ∈ p'.2, q ≠ r → (Sound B q p'.1 ∧ Spare (p'.1.mem q)) ∧
      tree 4 p'.1.mem q = tree 4 p.1.mem q ∧ Disjoint (tree 4 p.1.mem q) U ∧
      ∀ a, InSlot a → space p'.1 q a = space p.1 q a := by
    intro q hq hqr
    have hq := (hroots q hqr).mp hq
    obtain ⟨hs, hspare⟩ := h.sound q hq
    have hT : ∀ g ∈ tree 4 p.1.mem q, g ∉ T := fun g hg => disjoint_left.mp (hT q hq hqr) hg
    have hsame : ∀ g ∈ tree 4 p.1.mem q, p'.1.mem g = p.1.mem g := fun g hg =>
      hmem g (hT g hg) (hs.not_free hg)
    have hnew : ∀ g ∈ tree 4 p.1.mem q, g ∉ U + (B.free p'.1.pool).val := fun g hg hin =>
      (mem_add.mp (mem_of_le hframes hin)).elim (hT g hg) (hs.not_free hg)
    obtain ⟨hs', -, ht, ha⟩ := hs.of_agree p'.1 hsame fun g hg hin =>
      hnew g hin (mem_add.mpr (.inr hg))
    refine ⟨⟨hs', ?_⟩, ht, disjoint_left.mpr fun hg hg' => hnew _ hg (mem_add.mpr (.inl hg')), ha⟩
    rwa [hsame q (Sound.table_mem Tree.root_mem)]
  have hmaster : p'.1.mem masterPml4 = p.1.mem masterPml4 :=
    hmem _ (fun hin => h.unmanaged (hman _ hin)) fun hin => h.unmanaged (B.free_subset _ hin)
  refine ⟨⟨fun q hq => ?_, fun q hq q' hq' hne => ?_, h.unmanaged, hmaster ▸ h.master⟩,
    fun q hq hqr => ?_⟩
  · rcases eq_or_ne q r with rfl | hqr
    · exact (hr hq).1
    · exact (key q hq hqr).1
  · rcases eq_or_ne q r with rfl | hqr
    · obtain ⟨-, ht, hd, -⟩ := key q' hq' hne
      rwa [ht, (hr hq).2]
    · obtain ⟨-, ht, hd, -⟩ := key q hq hqr
      rcases eq_or_ne q' r with rfl | hqr'
      · rw [ht, (hr hq').2]
        exact hd.symm
      · rw [ht, (key q' hq' hqr').2.1]
        exact h.apart q ((hroots q hqr).mp hq) q' ((hroots q' hqr').mp hq') hne
  · have hqr : q ≠ r := fun e => hqr (congrArg some e.symm)
    have hq := (hroots q hqr).mpr hq
    exact ⟨hq, (key q hq hqr).2.2.2⟩

theorem of_within {s' : Vm A} (h : Isolated B p) (hr : r ∈ p.2) (hs : Sound B r s')
    (hw : Within B r p.1 s') : Kept B (some r) p (s', p.2) :=
  h.step hw.mem hw.frames (fun _ _ => Iff.rfl) (h.sound r hr).1.managed (h.apart r hr) fun _ =>
    ⟨⟨hs, fun i h0 h511 hi => by rw [hw.shared i hi]; exact (h.sound r hr).2 i h0 h511 hi⟩, rfl⟩

theorem new {s' : Vm A} (h : Isolated B p) (he : vmmNewUserAspace B p.1 = .ok (r, s')) :
    Kept B none p (s', insert r p.2) := by
  rcases Sound.new (B := B) (s := p.1) fun hin => h.unmanaged (B.free_subset _ hin) with
    ⟨_, he', -⟩ | ⟨r', s'', he', hs, -, hframes, hmem, hwords⟩ <;> rw [he] at he' <;> cases he'
  have hr : r ∉ p.2 := by
    intro hr
    refine (h.sound r hr).1.not_free (Sound.table_mem Tree.root_mem) ?_
    rw [← Finset.mem_val, ← hframes]
    exact mem_add.mpr (.inl (Sound.table_mem Tree.root_mem))
  have hspare : Spare (s'.mem r) := fun i h0 h511 hi => by
    rw [hwords, if_neg hi]
    exact h.master i h0 h511 hi
  have hk : Kept B (some r) p (s', insert r p.2) := h.step (T := 0) (fun g _ => hmem g)
    (by rw [hframes, zero_add]) (fun q hqr => by simp [hqr]) (fun g hg => absurd hg (notMem_zero g))
    (fun q _ _ => (zero_disjoint _).symm) fun _ => ⟨⟨hs, hspare⟩, rfl⟩
  exact ⟨hk.1, fun q hq _ => hk.2 q hq fun e => hr (Option.some.inj e ▸ hq)⟩

theorem dup {src dst : ℕ} (h : Isolated B p) (hsrc : src ∈ p.2) (hdst : dst ∈ p.2) (hne : src ≠ dst)
    (hslot : present (p.1.mem dst userSlot) = false) :
    Kept B (some dst) p ((dupUserAspace B p.1 src dst).2, p.2) := by
  have hs := (h.sound src hsrc).1
  have hself : ∀ {root}, root ∈ tree 4 p.1.mem root := Sound.table_mem Tree.root_mem
  have hd : Empty B p.1 dst := ⟨(h.sound dst hdst).1.not_free hself, hslot⟩
  have hroot := (h.sound dst hdst).1.managed dst hself
  have hout : dst ∉ tree 4 p.1.mem src := fun hin =>
    disjoint_left.mp (h.apart dst hdst src hsrc hne) hin hself
  have hsource : Source B p.1 src dst := by
    refine ⟨hs.tree, fun hin => hout (Sound.table_mem hin), fun k e he => ?_⟩
    have hin := (hs.page_frame he).1
    exact ⟨(hs.frame_pos he).ne', hs.not_free hin, fun e => hout (e ▸ hin)⟩
  have hne' : ∀ g, g ∉ tree 4 p.1.mem dst → g ≠ dst := fun g hg e => hg (e ▸ hself)
  rcases dup_spec hsource hd with ⟨-, hc⟩ | ⟨-, hfree, hslot', hshared, hmem, -⟩
  · refine h.of_within hdst ⟨hc.tree, ?_, fun g hg => ?_, hc.absent _ (.inr hs.top)⟩
      ⟨fun g hg hf => hc.mem g hf (hne' g hg), hc.shared, by rw [hc.frames, hd.tree_eq]⟩
    · rw [hc.frames, singleton_add, nodup_cons]
      exact ⟨hd.used, (B.free p.1.pool).nodup⟩
    · have hin : g ∈ {dst} + (B.free p.1.pool).val := hc.frames ▸ mem_add.mpr (.inl hg)
      exact (mem_add.mp hin).elim (fun e => mem_singleton.mp e ▸ hroot) (B.free_subset _ ·)
  · have hd' : Empty B (dupUserAspace B p.1 src dst).2 dst := ⟨by rw [hfree]; exact hd.used, hslot'⟩
    exact h.of_within hdst (Sound.of_empty hd' hroot).1
      ⟨fun g hg hf => hmem g hf (hne' g hg), hshared, by rw [hd'.tree_eq, hd.tree_eq, hfree]⟩

/-- **One step.** -/
theorem act {l : Option (ℕ × SpaceOp)} (h : Isolated B p) (hl : Legal p l)
    (hs : act B p l = some p') : Kept B (l.map Prod.fst) p p' := by
  cases l with
  | none =>
    obtain ⟨x, he, rfl⟩ := Option.map_eq_some_iff.mp hs
    exact h.new (ok_of_toOption he)
  | some x =>
  obtain ⟨r, o⟩ := x
  obtain ⟨hr, ho⟩ := hl _ rfl
  cases o with
  | dup src =>
    cases hs
    exact h.dup ho.1 hr ho.2.1 ho.2.2
  | store va bs =>
    obtain ⟨s', he, rfl⟩ := Option.map_eq_some_iff.mp hs
    have he := ok_of_toOption he
    obtain ⟨-, hs', hpool, -, htree, hmem, hmem3, -⟩ := (h.sound r hr).1.store ho.1 ho.2 he
    exact h.of_within hr hs' ⟨fun g hg _ => hmem g hg, fun j _ => by rw [hmem3 r Tree.root_mem],
      by rw [htree, hpool]⟩
  | grow w page =>
    obtain ⟨⟨hal, hlo, hhi⟩, hz⟩ := ho
    obtain ⟨x, he, rfl⟩ := Option.map_eq_some_iff.mp hs
    have he := ok_of_toOption he
    have hslot : InSlot page := ⟨hlo, by unfold userMaxVma at hhi; omega⟩
    have hnone := ((h.sound r hr).1.translate_eq_zero_iff hslot).mp hz
    rcases freshPage_end (w := w) (h.sound r hr).1 hal hlo (hslot.2.trans (by decide))
      fun _ => hnone with ⟨_, s', -, he', -, hf⟩ | ⟨s', he'⟩ | ⟨s', he', hf⟩ <;>
      rw [he] at he' <;> cases he' <;> exact h.of_within hr hf.sound hf.within
  | shrink pages =>
    cases hs
    obtain ⟨hs, hw, -⟩ := unmapPages_spec pages (h.sound r hr).1 ho
    exact h.of_within hr hs hw
  | destroy =>
    cases hs
    obtain ⟨hs, hspare⟩ := h.sound r hr
    have hf := destroy_frees (Finset.Subset.refl _) hs.tree hs.managed hs.nodup hspare
    refine h.step (U := 0) (fun g hg hg' => hf.mem g fun hin => ?_)
      (by rw [hf.free, zero_add, add_comm]) (fun q hq => by simp [hq]) hs.managed
      (h.apart r hr) fun hin => absurd hin (Finset.notMem_erase r p.2)
    exact (hf.mem_free.mp hin).elim hg' hg

end Isolated

/-- **Address spaces are isolated.** Whatever has been done since boot, no
frame of an address space belongs to another one; and whatever the other
processes do next, every user address of it keeps its mapping, its
permission and its byte. -/
theorem isolation (B : Buddy A) (s₀ : Vm A) (hman : masterPml4 ∉ B.managed)
    (hmaster : Spare (s₀.mem masterPml4)) (before after : List (Option (ℕ × SpaceOp)))
    (p p' : Spaces A) (q : ℕ) (hbefore : Guarded (act B) Legal (s₀, ∅) before)
    (hrun : runSteps (act B) (s₀, ∅) before = some p) (hq : q ∈ p.2)
    (hafter : Guarded (act B) (fun p l => Legal p l ∧ l.map Prod.fst ≠ some q) p after)
    (hrun' : runSteps (act B) p after = some p') :
    (∀ r ∈ p.2, r ≠ q → Disjoint (tree 4 p.1.mem r) (tree 4 p.1.mem q)) ∧ q ∈ p'.2 ∧
      ∀ a, InSlot a → space p'.1 q a = space p.1 q a := by
  have h := runSteps_guarded (I := Isolated B) (fun _ _ _ h hl hs => (h.act hl hs).1) before
    ⟨by simp, by simp, hman, hmaster⟩ hbefore hrun
  obtain ⟨-, hend⟩ := runSteps_guarded (I := fun p' => Isolated B p' ∧ q ∈ p'.2 ∧
      ∀ a, InSlot a → space p'.1 q a = space p.1 q a) (fun _ _ _ hp hl hs => by
    obtain ⟨hi, hkept⟩ := hp.1.act hl.1 hs
    obtain ⟨hq', hsame⟩ := hkept q hp.2.1 hl.2
    exact ⟨hi, hq', fun a ha => (hsame a ha).trans (hp.2.2 a ha)⟩)
    after ⟨h, hq, fun _ _ => rfl⟩ hafter hrun'
  exact ⟨h.apart q hq, hend⟩

/-- A page in the first of two address spaces, then one at the same address
in the second, and a store to it. -/
def twoSpaces : List (Option (ℕ × SpaceOp)) × List (Option (ℕ × SpaceOp)) :=
  ([none, none, some (1, .grow true userBase)],
    [some (2, .grow true userBase), some (2, .store userBase [7])])

theorem isolation_two_spaces : let B := Buddy.least 64 (by decide)
    let s₀ : Vm (Finset ℕ) := { pool := {1, 2, 3, 4, 5, 6, 7, 8, 9, 10}, mem := fun _ _ => 0 }
    ∃ p p', runSteps (act B) (s₀, ∅) twoSpaces.1 = some p ∧ runSteps (act B) p twoSpaces.2 = some p' ∧
      ∀ a, InSlot a → space p'.1 1 a = space p.1 1 a := by
  intro B s₀
  have hok : Guarded (act B) Legal (s₀, ∅) twoSpaces.1 ∧ ∃ p ∈ runSteps (act B) (s₀, ∅) twoSpaces.1,
      1 ∈ p.2 ∧ Guarded (act B) (fun p l => Legal p l ∧ l.map Prod.fst ≠ some 1) p twoSpaces.2 ∧
        (runSteps (act B) p twoSpaces.2).isSome := by decide +kernel
  obtain ⟨hbefore, p, hrun, hq, hafter, hsome⟩ := hok
  obtain ⟨p', hrun'⟩ := Option.isSome_iff_exists.mp hsome
  have hmaster : Spare (s₀.mem masterPml4) := fun _ _ _ _ => not_present_zero
  exact ⟨p, p', hrun, hrun', (isolation B s₀ (by decide) hmaster _ _ p p' 1 hbefore hrun hq
    hafter hrun').2.2⟩

end Lnxrm.Exec
