import Lnxrm.Vmm.Helpers.Alive
import Lnxrm.Vmm.Map

/-!
# The life of an address space

An address space is made, fresh frames are mapped into it, pages are
unmapped and their frames freed, another address space may be copied into
it while it is empty, and at last it is destroyed. Every frame that was
taken in between, for tables, pages and the root, has then been given back
once, and no table that is shared with others has been touched.
-/

namespace Lnxrm.Vmm

variable {A : Type}

/-- What happens to an address space between its making and its end. -/
inductive Call where
  | map (va : BitVec 64) (writable user : Bool)
  | unmap (va : BitVec 64)
  | dup (src : ℕ)
deriving DecidableEq

/-- A call, with what its caller does around it: a page is mapped to a fresh
frame, and the frame that `vmm_unmap_user` returns is freed. -/
def call (B : Buddy A) (root : ℕ) (s : Vm A) : Call → Except (Vm A) (Int × Vm A)
  | .map va writable user =>
    match s.pmmAlloc B with
    | none => .ok (efail, s)
    | some (f, s) => vmmMapUser B s root va (addrOf f) writable user
  | .unmap va =>
    let r := vmmUnmapUser s root va
    if r.1 = 0 then .ok (0, r.2) else .ok (0, r.2.pmmFree B (frameOf r.1))
  | .dup src => .ok (dupUserAspace B s src root)

/-- Pages are mapped where none is, and what is copied is another address
space, into one that is empty: `sys_fork` copies into the one it has just
made. -/
def Calls (B : Buddy A) (root : ℕ) (s : Vm A) : Call → Prop
  | .map va _ _ => Accepts va ∧ vmmTranslateIn s root va = 0
  | .unmap va => IsUser va
  | .dup src => present (s.mem root userSlot) = false ∧ Source B s src root

/-- **One call** keeps the frames of the address space together, or panics
because no frame is free. -/
theorem Alive.call {B : Buddy A} {s₀ s : Vm A} {root : ℕ} (h : Alive B s₀ root s) (c : Call)
    (hc : Calls B root s c) :
    (∃ s', call B root s c = .error s' ∧ B.free s'.pool = ∅) ∨
      ∃ rc s', Vmm.call B root s c = .ok (rc, s') ∧ Alive B s₀ root s' := by
  cases c with
  | map va writable user =>
    obtain ⟨hva, hz⟩ := hc
    unfold Vmm.call
    cases halloc : s.pmmAlloc B with
    | none => exact Or.inr ⟨efail, s, rfl, h⟩
    | some r =>
      refine (h.map hva hz halloc writable user).imp id ?_
      rintro ⟨s', he, h'⟩
      exact ⟨0, s', he, h'⟩
  | unmap va =>
    obtain ⟨hzero, hframe⟩ := h.unmap (show IsUser va from hc)
    refine Or.inr ?_
    by_cases hz : (vmmUnmapUser s root va).1 = 0
    · exact ⟨0, _, if_pos hz, hzero hz⟩
    · exact ⟨0, _, if_neg hz, hframe hz⟩
  | dup src => exact Or.inr ⟨_, _, rfl, h.dup hc.1 hc.2⟩

/-- The pool with a record of what was taken and given back. -/
def Buddy.logged (B : Buddy A) : Buddy (A × List ℕ × List ℕ) :=
  { B.toFramePool.logged with addr_lt := B.addr_lt }

theorem bootPml4_slots (i : Fin 512) (h0 : i ≠ 0) (h511 : i ≠ 511) : present (bootPml4 i) = false := by
  unfold bootPml4
  rw [if_neg h0, if_neg h511, not_present_zero]

/-- **The frames of an address space are conserved** over its life. -/
theorem frames_conserved (B : Buddy A) (s₀ : Vm (A × List ℕ × List ℕ)) (hrecord : s₀.pool.2 = ([], []))
    (hkernel : KernelTables B.logged s₀)
    (hslots : ∀ i, i ≠ 0 → i ≠ 511 → i ≠ userSlot → present (s₀.mem masterPml4 i) = false)
    (calls : List Call) :
    match vmmNewUserAspace B.logged s₀ with
    | .error s => B.logged.free s.pool = ∅
    | .ok (root, s₁) =>
      GuardedTry (call B.logged root) (Calls B.logged root) s₁ calls →
        match runTry (call B.logged root) s₁ calls with
        | .error s => B.logged.free s.pool = ∅
        | .ok (_, s) =>
          let s' := vmmDestroyUserAspace B.logged s root
          (s'.pool.2.1 : Multiset ℕ) = s'.pool.2.2 ∧
          B.logged.Uses (B.logged.free s₀.pool) s₀.pool s'.pool ∧
          (∀ g, g = masterPml4 ∨ SharedTable s₀.mem masterPml4 g → g ∉ s'.pool.2.2) ∧
          B.logged.free s'.pool = B.logged.free s₀.pool := by
  rcases Alive.new hkernel.master with ⟨s, he, hfree⟩ | ⟨root, s₁, he, h₁, -⟩
  · rw [he]
    exact hfree
  rw [he]
  intro hguard
  rcases runTry_guarded (fun s c h hc => h.call c hc) calls h₁ hguard with
    ⟨s, hs, hfree⟩ | ⟨rcs, s, hs, h⟩
  · simp only [hs]
    exact hfree
  simp only [hs]
  obtain ⟨hfree, huses⟩ := h.destroy hslots
  generalize vmmDestroyUserAspace B.logged s root = s' at hfree huses
  obtain ⟨hbal, -, htaken⟩ := FramePool.Uses.balanced (P := B.toFramePool)
    (B.free_subset s₀.pool.1) huses (Finset.Subset.refl _) (by simp [hrecord])
  have hsame : (s'.pool.2.1 : Multiset ℕ) = s'.pool.2.2 := by
    have hpool : B.free s'.pool.1 = B.free s₀.pool.1 := hfree
    rw [hrecord, hpool] at hbal
    simpa [add_comm] using hbal
  refine ⟨hsame, huses, fun g hg hin => ?_, hfree⟩
  -- what was given back had been taken, and what was taken had been free
  have hin' : g ∈ s'.pool.2.1 := by
    rw [← Multiset.mem_coe, hsame, Multiset.mem_coe]
    exact hin
  have hused : g ∉ B.logged.free s₀.pool := by
    rcases hg with rfl | hg
    · exact hkernel.master
    · exact hkernel.shared g hg
  exact hused (htaken g hin')

/-- An empty address space is copied, then a page is mapped and unmapped. -/
theorem frames_conserved_one_page : let B := (Buddy.least 64 (by decide)).logged
    let s₀ : Vm (Finset ℕ × List ℕ × List ℕ) :=
      { pool := ({1, 2, 3, 4, 5, 6}, [], []), mem := Function.update (fun _ _ => 0) masterPml4 bootPml4 }
    let calls := [Call.dup 40, .map 0x7f8000000000 true true, .unmap 0x7f8000000000]
    match vmmNewUserAspace B s₀ with
    | .error _ => False
    | .ok (root, s₁) =>
      match runTry (call B root) s₁ calls with
      | .error _ => False
      | .ok (_, s) =>
        let s' := vmmDestroyUserAspace B s root
        (s'.pool.2.1 : Multiset ℕ) = s'.pool.2.2 ∧ B.free s'.pool = B.free s₀.pool := by
  intro B s₀ calls
  have hother : ∀ g, g ≠ masterPml4 → ∀ j, s₀.mem g j = 0 := fun g hg j =>
    congrFun (Function.update_of_ne hg bootPml4 fun _ _ => 0) j
  have hmem : s₀.mem masterPml4 = bootPml4 :=
    Function.update_self masterPml4 bootPml4 fun _ _ => 0
  have hkernel : KernelTables B s₀ := by
    refine ⟨by decide, ?_⟩
    rintro g ⟨i, p, -, -, hg⟩
    obtain ⟨c, hc, hp⟩ := Option.bind_eq_some_iff.mp (show (nextTable (s₀.mem masterPml4 i)).bind
      (fun c => Radix.reach nextTable s₀.mem c p) = some g from hg)
    have hcs : c = pdptM ∨ c = pdptHi := by
      rw [hmem] at hc
      unfold bootPml4 at hc
      split at hc
      · exact Or.inl (Option.some.inj (hc.symm.trans (by decide)))
      · split at hc
        · exact Or.inr (Option.some.inj (hc.symm.trans (by decide)))
        · rw [show nextTable 0 = none from by decide] at hc
          cases hc
    have hcm : c ≠ masterPml4 := by
      rcases hcs with rfl | rfl <;> decide
    -- the two tables are cleared in this state
    cases p with
    | nil =>
      obtain rfl : c = g := Option.some.inj hp
      rcases hcs with rfl | rfl <;> decide
    | cons j p =>
      simp only [Radix.reach, hother c hcm, show nextTable 0 = none from by decide,
        Option.bind_none] at hp
      cases hp
  have hslots : ∀ i, i ≠ 0 → i ≠ 511 → i ≠ userSlot → present (s₀.mem masterPml4 i) = false := by
    intro i h0 h511 _
    rw [hmem]
    exact bootPml4_slots i h0 h511
  have hok : (match vmmNewUserAspace B s₀ with
      | .error _ => false
      | .ok (root, s₁) =>
        vmmTranslateIn s₁ root 0x7f8000000000 = 0 ∧ (runTry (call B root) s₁ calls).isOk) = true := by
    decide +kernel
  have h := frames_conserved (Buddy.least 64 (by decide)) s₀ rfl hkernel hslots calls
  rw [show (Buddy.least 64 (by decide)).logged = B from rfl] at h
  rcases Alive.new hkernel.master with ⟨s, he, -⟩ | ⟨root, s₁, he, h₁, hslot⟩
  · simp [he] at hok
  simp only [he, Bool.decide_and, Bool.and_eq_true, decide_eq_true_eq] at hok h ⊢
  have hout : (40 : ℕ) ∉ B.free s₀.pool := by decide
  have hzero : s₁.mem 40 userSlot = 0 := by
    rw [h₁.mem 40 hout]
    exact hother 40 (by decide) _
  have hsrc : Empty B s₁ 40 := by
    refine ⟨fun hin => hout (h₁.free_subset hin), ?_⟩
    rw [hzero, not_present_zero]
  have hroot : root ≠ 40 := fun e => hout (e ▸ h₁.mem_tree Radix.mem_nodes_self)
  have hcopy : call B root s₁ (.dup 40) = .ok (0, s₁) := by
    show Except.ok (dupUserAspace B s₁ 40 root) = .ok (0, s₁)
    unfold dupUserAspace
    rw [hzero, not_present_zero]
    rfl
  have hguard : GuardedTry (call B root) (Calls B root) s₁ calls := by
    refine ⟨⟨hslot, hsrc.source hroot⟩, ?_⟩
    rw [hcopy]
    refine ⟨⟨by decide, hok.1⟩, ?_⟩
    split
    · trivial
    · refine ⟨show IsUser _ by decide, ?_⟩
      split <;> trivial
  have h := h hguard
  cases hrun : runTry (call B root) s₁ calls with
  | error s =>
    rw [hrun] at hok
    simp [Except.isOk, Except.toBool] at hok
  | ok r =>
    obtain ⟨rcs, s⟩ := r
    rw [hrun] at h
    exact ⟨h.1, h.2.2.2⟩

end Lnxrm.Vmm
