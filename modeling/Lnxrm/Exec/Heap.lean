import Lnxrm.Exec.Alignment

/-!
# The heap of a program

`sys_brk` maps and unmaps the pages between the old and the new break, with
a limit one megabyte below the stack. The stack is above the limit and the
segments are below the heap, but the page of the signal trampoline is in
between; and without a segment the heap starts at 0. While the break stays
below the trampoline or starts above it, `sys_brk` touches no page but its
own: `brk_owns`.
-/

namespace Lnxrm.Exec

open Vmm

variable {A : Type} {B : Buddy A} {s s' : Vm A} {root : ℕ} {code : Page} {p p' p₀ : Proc A}
variable {x : ℕ} {newbrk : BitVec 64}

/-- A successful `sys_brk` -/
def brkStep (B : Buddy A) (p : Proc A) (newbrk : BitVec 64) : Option (Proc A) :=
  match sysBrk B p newbrk with
  | .error _ => none
  | .ok (ret, p') => if ret < 0 then none else some p'

/-- The entry of a user page, as the processor finds it -/
def Proc.entry (p : Proc A) (x : ℕ) : Option (BitVec 64 × Bool) :=
  pageEntry p.vm p.pml4 (BitVec.ofNat 64 x)

/-- **`sys_brk` has touched its own pages only**, `p₀` being the process
after `sys_execve`. -/
structure Owned (B : Buddy A) (p₀ p p' : Proc A) : Prop where
  /-- what it maps was not mapped -/
  maps : ∀ x, InSlot x → ∀ e e', p.entry x = some e → p'.entry x = some e' → e' = e
  /-- what it unmaps was mapped by an earlier `sys_brk` -/
  unmaps : ∀ x, InSlot x → ∀ e, p.entry x = some e → p'.entry x = none → p₀.entry x = none
  /-- all that `sys_execve` has mapped is still there -/
  kept : ∀ x, InSlot x → ∀ e, p₀.entry x = some e → p'.entry x = some e
  /-- and the tables of the kernel are as they were -/
  within : p'.pml4 = p.pml4 ∧ Within B p.pml4 p.vm p'.vm

/-- Every step of `sys_brk` is so. -/
def OwnsPages (B : Buddy A) (p₀ p : Proc A) (newbrk : BitVec 64) : Prop :=
  ∀ p', brkStep B p newbrk = some p' → Owned B p₀ p p'

/-- **The condition**: there is a segment, and the new break is not above
the trampoline or the heap starts above it. -/
def Clear (p : Proc A) (newbrk : BitVec 64) : Prop :=
  newbrk = 0 ∨ (p.brkBase ≠ 0 ∧
    (newbrk.toNat ≤ Signal.sigTrampolineVa.toNat ∨ Signal.sigTrampolineVa.toNat < p.brkBase.toNat))

/-! ## Pages that are given back -/

theorem accepts_page {page : ℕ} (hal : page % 4096 = 0) (hlo : userBase ≤ page)
    (hhi : page < userMaxVma) : IsUser (BitVec.ofNat 64 page) := (accepts_ofNat hal hlo hhi).1

/-- **The loop that unmaps pages** -/
theorem unmapPages_spec (pages : List ℕ) : ∀ {s : Vm A}, Sound B root s →
    (∀ page ∈ pages, page % 4096 = 0 ∧ userBase ≤ page ∧ page < userMaxVma) →
    Sound B root (unmapPages B root pages s) ∧ Within B root s (unmapPages B root pages s) ∧
      ∀ x, InSlot x → leaf (unmapPages B root pages s).mem root (pageKey x) =
        if x / 4096 * 4096 ∈ pages then none else leaf s.mem root (pageKey x) := by
  induction pages with
  | nil => intro s h _; exact ⟨h, Within.refl s, fun x _ => by simp [unmapPages]⟩
  | cons page pages ih =>
    intro s h hpages
    obtain ⟨hal, hlo, hhi⟩ := hpages page (List.mem_cons_self ..)
    obtain ⟨s₁, he, h₁, hleaf₁, hframes₁, hmem₁, hshared₁⟩ := h.unmap (accepts_page hal hlo hhi)
    have hrest := ih h₁ fun q hq => hpages q (List.mem_cons_of_mem _ hq)
    rw [unmapPages, he]
    obtain ⟨h', hwithin', hleaf'⟩ := hrest
    refine ⟨h', Within.trans ⟨hmem₁, hshared₁, hframes₁.le⟩ hwithin', fun x hx => ?_⟩
    have hslot : InSlot page := ⟨hlo, by unfold userMaxVma at hhi; omega⟩
    have hkey : pageKey x = key (BitVec.ofNat 64 page) ↔ x / 4096 * 4096 = page :=
      (pageKey_eq_iff hx hslot).trans (by omega)
    rw [hleaf' x hx, hleaf₁]
    by_cases hin : x / 4096 * 4096 ∈ pages
    · rw [if_pos hin, if_pos (List.mem_cons_of_mem _ hin)]
    · rw [if_neg hin]
      by_cases hpage : x / 4096 * 4096 = page
      · rw [if_pos (hkey.mpr hpage), if_pos (List.mem_cons.mpr (Or.inl hpage))]
      · rw [if_neg (fun hk => hpage (hkey.mp hk)),
          if_neg (fun hmem => (List.mem_cons.mp hmem).elim hpage hin)]

theorem Filled.leaf {w : Bool} {a b : ℕ} (h : Sound B root s) (hf : Filled B root w a b s s')
    (hx : InSlot x) (hout : ¬ (a ≤ x ∧ x < b)) :
    leaf s'.mem root (pageKey x) = Vmm.leaf s.mem root (pageKey x) := by
  cases hl : Vmm.leaf s.mem root (pageKey x) with
  | some e => exact hf.kept _ e hl
  | none =>
    have hspace := hf.space x hx
    unfold Space.addPages at hspace
    rw [if_neg (fun hin => hout ⟨hin.1, hin.2.1⟩), Option.or_none, space_slot hf.sound.tree hx,
      space_slot h.tree hx, hl, Option.map_none, Option.map_eq_none_iff] at hspace
    exact hspace

/-! ## The invariant -/

/-- **A process after `sys_execve`**: between the segments and the limit
there is nothing but the trampoline. -/
structure Launched (B : Buddy A) (p : Proc A) : Prop where
  sound : Sound B p.pml4 p.vm
  aligned : p.brkBase.toNat % 4096 = 0
  user : p.brkBase ≠ 0 → userBase ≤ p.brkBase.toNat
  empty : p.brkCur = p.brkBase
  free : ∀ x, InSlot x → p.brkBase.toNat ≤ x → x < userStackTop - 2 ^ 20 →
    x / 4096 ≠ trampolinePage → p.entry x = none

/-- **The heap of a process**: between the base and the break there is
nothing that `sys_execve` has mapped, and elsewhere there is nothing new. -/
structure Heap (B : Buddy A) (p₀ p : Proc A) : Prop where
  sound : Sound B p.pml4 p.vm
  pml4 : p.pml4 = p₀.pml4
  base : p.brkBase = p₀.brkBase
  le : p.brkBase.toNat ≤ p.brkCur.toNat
  top : p.brkCur.toNat ≤ userStackTop - 2 ^ 20 ∨ p.brkCur = p.brkBase
  inside : ∀ x, InSlot x → p.brkBase.toNat ≤ x → x < alignUp p.brkCur.toNat → p₀.entry x = none
  outside : ∀ x, InSlot x → ¬ (p.brkBase.toNat ≤ x ∧ x < alignUp p.brkCur.toNat) →
    p.entry x = p₀.entry x

theorem alignUp_le {c : ℕ} (h : c ≤ userStackTop - 2 ^ 20) :
    c ≤ alignUp c ∧ alignUp c ≤ userStackTop - 2 ^ 20 ∧ alignUp c % 4096 = 0 := by
  have htop : userStackTop = 0x7fffffbff000 := rfl
  unfold alignUp
  omega

theorem entry_slot (h : Sound B p.pml4 p.vm) (hx : InSlot x) :
    p.entry x = (leaf p.vm.mem p.pml4 (pageKey x)).map (·, false) := pageEntry_slot h.tree hx

theorem space_none_of_entry (h : p.entry x = none) : space p.vm p.pml4 x = none := by
  unfold space
  rw [show pageEntry p.vm p.pml4 (BitVec.ofNat 64 x) = none from h]
  rfl

namespace Heap

theorem init (h : Launched B p₀) : Heap B p₀ p₀ := by
  have hup : alignUp p₀.brkCur.toNat = p₀.brkBase.toNat := by
    have hal := h.aligned
    rw [h.empty]
    unfold alignUp
    omega
  refine ⟨h.sound, rfl, rfl, by rw [h.empty], Or.inr h.empty, fun x _ hlo hhi => ?_, fun _ _ _ => rfl⟩
  omega

theorem kept (h : Heap B p₀ p) (hx : InSlot x) {e : BitVec 64 × Bool}
    (he : p₀.entry x = some e) : p.entry x = some e := by
  by_cases hin : p.brkBase.toNat ≤ x ∧ x < alignUp p.brkCur.toNat
  · rw [h.inside x hx hin.1 hin.2] at he
    cases he
  · rw [h.outside x hx hin, he]

theorem owned_refl (h : Heap B p₀ p) : Owned B p₀ p p where
  maps x _ e e' he he' := by
    rw [he] at he'
    exact (Option.some.inj he').symm
  unmaps x _ e he hnone := by
    rw [he] at hnone
    cases hnone
  kept x hx e he := h.kept hx he
  within := ⟨rfl, Within.refl _⟩

theorem owned (h : Heap B p₀ p') {R : ℕ → Prop} (hpml4 : p'.pml4 = p.pml4)
    (hwithin : Within B p.pml4 p.vm p'.vm)
    (hin : ∀ x, InSlot x → R x → (p.entry x = none ∨ p'.entry x = none) ∧ p₀.entry x = none)
    (hout : ∀ x, InSlot x → ¬ R x → p'.entry x = p.entry x) : Owned B p₀ p p' := by
  refine ⟨fun x hx e e' he he' => ?_, fun x hx e he hnone => ?_, fun x hx e he => h.kept hx he,
    hpml4, hwithin⟩
  · by_cases hR : R x
    · rcases (hin x hx hR).1 with hnone | hnone
      · rw [hnone] at he
        cases he
      · rw [hnone] at he'
        cases he'
    · rw [hout x hx hR, he] at he'
      exact (Option.some.inj he').symm
  · by_cases hR : R x
    · exact (hin x hx hR).2
    · rw [hout x hx hR, he] at hnone
      cases hnone

theorem bounds (h₀ : Launched B p₀) (h : Heap B p₀ p) (hne : newbrk ≠ 0)
    (hclear : Clear p newbrk) (hlo : p.brkBase.toNat ≤ newbrk.toNat)
    (hhi : newbrk.toNat ≤ userStackTop - 2 ^ 20) :
    userBase ≤ p.brkBase.toNat ∧ p.brkCur.toNat ≤ userStackTop - 2 ^ 20 ∧
      ∀ x, InSlot x → alignUp p.brkCur.toNat ≤ x → x < alignUp newbrk.toNat → p₀.entry x = none := by
  have hcur : p.brkCur.toNat ≤ userStackTop - 2 ^ 20 := by
    rcases h.top with htop | hbase
    · exact htop
    · rw [hbase]
      omega
  obtain ⟨hcne, hor⟩ := hclear.resolve_left hne
  refine ⟨by rw [h.base] at hcne ⊢; exact h₀.user hcne, hcur, fun x hx hxlo hxhi => ?_⟩
  have hbase := congrArg BitVec.toNat h.base
  have hle := h.le
  obtain ⟨hupc, -, -⟩ := alignUp_le hcur
  obtain ⟨-, hupn, -⟩ := alignUp_le hhi
  refine h₀.free x hx (by omega) (by omega) fun hpage => ?_
  -- the trampoline is above the break or below the heap
  have htramp : Signal.sigTrampolineVa.toNat = 0x7fffff800000 := rfl
  have hal := h₀.aligned
  unfold trampolinePage at hpage
  unfold alignUp at hxhi
  omega

/-- **The heap grows** over pages that are not there. -/
theorem grow (h₀ : Launched B p₀) (h : Heap B p₀ p) {s : Vm A} (hne : newbrk ≠ 0)
    (hclear : Clear p newbrk) (hlo : p.brkBase.toNat ≤ newbrk.toNat)
    (hhi : newbrk.toNat ≤ userStackTop - 2 ^ 20)
    (hlt : alignUp p.brkCur.toNat < alignUp newbrk.toNat)
    (hloop : forPages (freshPage B p.pml4 true)
      (pagesFrom (alignUp p.brkCur.toNat) (alignUp newbrk.toNat)) p.vm = .ok (true, s)) :
    Heap B p₀ { p with vm := s, brkCur := newbrk } ∧
      Owned B p₀ p { p with vm := s, brkCur := newbrk } := by
  obtain ⟨hbase, hcur, hnew⟩ := h.bounds h₀ hne hclear hlo hhi
  have hle := h.le
  obtain ⟨hupc, -, halc⟩ := alignUp_le hcur
  obtain ⟨hupn, hlim, haln⟩ := alignUp_le hhi
  have htop : userStackTop = 0x7fffffbff000 := rfl
  have hnone : ∀ x, InSlot x → alignUp p.brkCur.toNat ≤ x → x < alignUp newbrk.toNat →
      p.entry x = none := by
    intro x hx hxlo hxhi
    rw [h.outside x hx (by omega)]
    exact hnew x hx hxlo hxhi
  rcases freshPages_end (w := true) h.sound halc (by omega) haln (by omega)
    fun x hx hxlo hxhi => space_none_of_entry (hnone x hx hxlo hxhi) with
    ⟨c, s', -, he, -⟩ | ⟨s', he⟩ | ⟨s', he, hfill⟩
  · rw [he] at hloop
    cases hloop
  · rw [he] at hloop
    cases hloop
  rw [he] at hloop
  cases hloop
  have hsame : ∀ x, InSlot x → ¬ (alignUp p.brkCur.toNat ≤ x ∧ x < alignUp newbrk.toNat) →
      Proc.entry { p with vm := s, brkCur := newbrk } x = p.entry x := by
    intro x hx hout
    rw [entry_slot hfill.sound hx, entry_slot h.sound hx]
    exact congrArg _ (Filled.leaf h.sound hfill hx hout)
  have hheap : Heap B p₀ { p with vm := s, brkCur := newbrk } := by
    refine ⟨hfill.sound, h.pml4, h.base, hlo, Or.inl hhi, fun x hx hxlo hxhi => ?_,
      fun x hx hout => ?_⟩
    · by_cases hold : x < alignUp p.brkCur.toNat
      · exact h.inside x hx hxlo hold
      · exact hnew x hx (not_lt.mp hold) hxhi
    · dsimp only at hout
      rw [hsame x hx (by omega)]
      exact h.outside x hx (by omega)
  exact ⟨hheap, hheap.owned rfl hfill.within (fun x hx hin => ⟨Or.inl (hnone x hx hin.1 hin.2),
    hnew x hx hin.1 hin.2⟩) hsame⟩

/-- **The heap shrinks** by pages that it has mapped. -/
theorem shrink (h₀ : Launched B p₀) (h : Heap B p₀ p) {s : Vm A} (hne : newbrk ≠ 0)
    (hclear : Clear p newbrk) (hlo : p.brkBase.toNat ≤ newbrk.toNat)
    (hhi : newbrk.toNat ≤ userStackTop - 2 ^ 20)
    (hle : alignUp newbrk.toNat ≤ alignUp p.brkCur.toNat)
    (hs : unmapPages B p.pml4 (pagesFrom (alignUp newbrk.toNat) (alignUp p.brkCur.toNat)) p.vm = s) :
    Heap B p₀ { p with vm := s, brkCur := newbrk } ∧
      Owned B p₀ p { p with vm := s, brkCur := newbrk } := by
  obtain ⟨hbase, hcur, -⟩ := h.bounds h₀ hne hclear hlo hhi
  obtain ⟨-, hlimc, halc⟩ := alignUp_le hcur
  obtain ⟨hupn, -, haln⟩ := alignUp_le hhi
  have htop : userStackTop = 0x7fffffbff000 := rfl
  have hpages : ∀ x, x / 4096 * 4096 ∈ pagesFrom (alignUp newbrk.toNat) (alignUp p.brkCur.toNat) ↔
      alignUp newbrk.toNat ≤ x ∧ x < alignUp p.brkCur.toNat := by
    intro x
    rw [mem_pagesFrom_iff haln halc]
    omega
  obtain ⟨hsound, hwithin, hleaf⟩ := unmapPages_spec (B := B)
    (pagesFrom (alignUp newbrk.toNat) (alignUp p.brkCur.toNat)) h.sound fun page hpage => by
      obtain ⟨hge, hlt, hal⟩ := (mem_pagesFrom_iff haln halc).mp hpage
      exact ⟨hal, by omega, by unfold userMaxVma; omega⟩
  rw [hs] at hsound hwithin hleaf
  -- what is unmapped is in the heap
  have hgone : ∀ x, InSlot x → alignUp newbrk.toNat ≤ x → x < alignUp p.brkCur.toNat →
      Proc.entry { p with vm := s, brkCur := newbrk } x = none ∧ p₀.entry x = none := by
    intro x hx hxlo hxhi
    refine ⟨?_, h.inside x hx (by omega) hxhi⟩
    rw [entry_slot hsound hx]
    exact congrArg (Option.map _) ((hleaf x hx).trans (if_pos ((hpages x).mpr ⟨hxlo, hxhi⟩)))
  have hsame : ∀ x, InSlot x → ¬ (alignUp newbrk.toNat ≤ x ∧ x < alignUp p.brkCur.toNat) →
      Proc.entry { p with vm := s, brkCur := newbrk } x = p.entry x := by
    intro x hx hout
    rw [entry_slot hsound hx, entry_slot h.sound hx]
    exact congrArg _ ((hleaf x hx).trans (if_neg fun hin => hout ((hpages x).mp hin)))
  have hheap : Heap B p₀ { p with vm := s, brkCur := newbrk } := by
    refine ⟨hsound, h.pml4, h.base, hlo, Or.inl hhi, fun x hx hxlo hxhi => ?_, fun x hx hout => ?_⟩
    · exact h.inside x hx hxlo (lt_of_lt_of_le hxhi hle)
    · dsimp only at hout
      by_cases hin : alignUp newbrk.toNat ≤ x ∧ x < alignUp p.brkCur.toNat
      · obtain ⟨hnew, hold⟩ := hgone x hx hin.1 hin.2
        rw [hnew, hold]
      · rw [hsame x hx hin]
        exact h.outside x hx (by omega)
  refine ⟨hheap, hheap.owned rfl hwithin (fun x hx hin => ?_) hsame⟩
  obtain ⟨hnew, hold⟩ := hgone x hx hin.1 hin.2
  exact ⟨Or.inr hnew, hold⟩

/-- **One step** of `sys_brk` -/
theorem step (h₀ : Launched B p₀) (h : Heap B p₀ p) (hclear : Clear p newbrk)
    (hstep : brkStep B p newbrk = some p') : Heap B p₀ p' ∧ Owned B p₀ p p' := by
  unfold brkStep at hstep
  cases hbrk : sysBrk B p newbrk with
  | error e =>
    rw [hbrk] at hstep
    cases hstep
  | ok r =>
    obtain ⟨ret, q⟩ := r
    rw [hbrk] at hstep
    dsimp only at hstep
    by_cases hneg : ret < 0
    · rw [if_pos hneg] at hstep
      cases hstep
    rw [if_neg hneg] at hstep
    cases hstep
    unfold sysBrk at hbrk
    by_cases hzero : newbrk = 0
    · rw [if_pos hzero] at hbrk
      cases hbrk
      exact ⟨h, h.owned_refl⟩
    rw [if_neg hzero] at hbrk
    by_cases hrange : newbrk.toNat < p.brkBase.toNat ∨ userStackTop - 2 ^ 20 < newbrk.toNat
    · rw [if_pos hrange] at hbrk
      cases hbrk
      exact absurd (by decide) hneg
    rw [if_neg hrange] at hbrk
    rw [not_or, not_lt, not_lt] at hrange
    by_cases hlt : alignUp p.brkCur.toNat < alignUp newbrk.toNat
    · rw [if_pos hlt] at hbrk
      obtain ⟨⟨ok, s⟩, hloop, hbrk⟩ := ok_of_bind hbrk
      cases ok with
      | false =>
        cases hbrk
        exact absurd (by decide) hneg
      | true =>
        cases hbrk
        exact h.grow h₀ hzero hclear hrange.1 hrange.2 hlt hloop
    · rw [if_neg hlt] at hbrk
      cases hbrk
      exact h.shrink h₀ hzero hclear hrange.1 hrange.2 (not_lt.mp hlt) rfl

end Heap

/-! ## After `sys_execve` -/

theorem maxStop_bounds (img : List UInt8) : maxStop (segments img) 0 % 4096 = 0 ∧
    maxStop (segments img) 0 < 2 ^ 64 ∧
      (maxStop (segments img) 0 ≠ 0 → userBase ≤ maxStop (segments img) 0) := by
  rcases maxStop_mem (segments img) (m := 0) with hz | ⟨ph, hph, hstop⟩
  · rw [hz]
    decide
  obtain ⟨-, hlo, -, hlt, -, -, -⟩ := segments_lt hph
  obtain ⟨hge, -, -, hwrap, hal⟩ := stop_cases hlt
  have hbound : ph.stop < 2 ^ 64 := by
    unfold Phdr.stop alignUp
    omega
  rw [hstop]
  refine ⟨hal, hbound, fun hne => ?_⟩
  by_cases hend : ph.pVaddr + ph.pMemsz ≤ 2 ^ 64 - 4096
  · omega
  · exact absurd (hwrap (by omega)) hne

/-- **A process that has been executed** -/
theorem launched {turns : ℕ} {file : List UInt8 → Except Int (List UInt8)} {upath uargv : BitVec 64}
    (hc : Caller B p.pml4 p.vm) (hfile : Refuses file)
    (hok : sysExecve B turns file code p upath uargv = .ok (0, p₀)) : Launched B p₀ := by
  obtain ⟨path, argv, img, hargs, -, himage⟩ := sysExecve_ok hfile hok
  obtain ⟨root, entry, brkEnd, sp, s₀, s₁, s₂, s₃, s₄, hst, rfl⟩ := execImage_iff.mp himage
  obtain ⟨hstarted, -, hbrk, -⟩ := hst.spec hc (execArgs_fitting hargs)
  obtain ⟨hal, hlt, huser⟩ := maxStop_bounds img
  have hup : ∀ m, m % 4096 = 0 → m < 2 ^ 64 → alignUp m = m := by
    intro m hm hlt
    unfold alignUp
    omega
  have hbase : (p.entered path root entry brkEnd sp s₄).brkBase.toNat = maxStop (segments img) 0 := by
    show (BitVec.ofNat 64 (alignUp brkEnd)).toNat = _
    rw [hbrk, hup _ hal hlt, hup _ hal hlt, BitVec.toNat_ofNat, Nat.mod_eq_of_lt hlt]
  refine ⟨hstarted.written.sound, by rw [hbase]; exact hal, fun hne => ?_, rfl,
    fun x hx hlo hhi hpage => ?_⟩
  · rw [hbase]
    refine huser fun hz => hne (BitVec.eq_of_toNat_eq ?_)
    rw [hbase, hz]
    rfl
  rw [hbase] at hlo
  -- neither the stack nor a segment has the page
  have hnone : space s₃ root x = none := by
    rw [hstarted.space₃ x hx (Or.inl hpage), ← Option.not_isSome_iff_eq_none, programSpace_isSome]
    rintro (⟨hslo, -⟩ | ⟨ph, hph, -, hstop, -⟩)
    · omega
    · have := (le_maxStop (segments img) (m := 0)).2 ph hph
      omega
  rw [space_slot hstarted.sound₃.tree hx, Option.map_eq_none_iff] at hnone
  show pageEntry s₄ root (BitVec.ofNat 64 x) = none
  rw [pageEntry_slot hstarted.written.sound.tree hx, hstarted.written.leaf, hnone]
  rfl

/-- **`sys_brk` owns only its own pages**, in every run after `sys_execve`
whose steps keep clear of the trampoline. -/
theorem brk_owns {turns : ℕ} {file : List UInt8 → Except Int (List UInt8)} {upath uargv : BitVec 64}
    (hc : Caller B p.pml4 p.vm) (hfile : Refuses file)
    (hok : sysExecve B turns file code p upath uargv = .ok (0, p₀)) (run : List (BitVec 64))
    (hclear : Guarded (brkStep B) Clear p₀ run) : Guarded (brkStep B) (OwnsPages B p₀) p₀ run := by
  have h₀ := launched hc hfile hok
  exact Guarded.imp (I := Heap B p₀) (fun q newbrk h hc p' hstep => (h.step h₀ hc hstep).2)
    (fun q newbrk p' h hc hstep => (h.step h₀ hc hstep).1) run (Heap.init h₀) hclear

/-! ## Runs -/

/-- **A page that is mapped over another**: with four free frames it takes
one of them, whatever was there. -/
theorem freshPage_takes {w : Bool} {page : ℕ} (h : Sound B root s)
    (hacc : Accepts (BitVec.ofNat 64 page)) (hcard : 4 ≤ (B.free s.pool).card) :
    ∃ f s', f ∈ B.free s.pool ∧ freshPage B root w page s = .ok (true, s') ∧ Tree B s' root ∧
      ∃ e, leaf s'.mem root (key (BitVec.ofNat 64 page)) = some e ∧ frameOf e = f := by
  obtain ⟨f, s₁, halloc, hcard₁⟩ := pmmAlloc_of_card (B := B) (s := s) (by omega)
  obtain ⟨h₁, -, -, -, hft, -, -, hflt⟩ := h.alloc halloc
  obtain ⟨h₂, -, -, -⟩ := h₁.of_agree (s₁.fill f fun _ => 0)
    (fun g hg => Function.update_of_ne (ne_of_mem_of_not_mem hg hft) _ _)
    fun g hg hin => h₁.not_free hin hg
  obtain ⟨s₂, hmap, -⟩ := mapUser_ok (B := B) (s := s₁.fill f fun _ => 0) root (addrOf f) w true hacc
    (show 3 ≤ (B.free s₁.pool).card by omega)
  obtain ⟨hpres, hframe, -⟩ := mapEntry_addrOf hflt w true
  rcases map_user h₂.tree hacc (addrOf f) w true with ⟨s', he, -⟩ | ⟨s', he, hm⟩
  · rw [he] at hmap
    cases hmap
  rw [he] at hmap
  cases hmap
  refine ⟨f, s₂, (pmmAlloc_some halloc).1, ?_, hm.tree, mapEntry (addrOf f) w true, ?_, hframe⟩
  · unfold freshPage
    rw [halloc]
    dsimp only
    rw [he]
  · rw [hm.leaf, if_pos rfl]
    exact if_pos hpres

theorem brkStep_one (p : Proc A) (newbrk : BitVec 64) {c : ℕ} {s : Vm A} (hcur : p.brkCur.toNat = c)
    (hbase : p.brkBase.toNat = c) (hne : newbrk ≠ 0) (hal : c % 4096 = 0)
    (hnew : newbrk.toNat = c + 4096) (hhi : newbrk.toNat ≤ userStackTop - 2 ^ 20)
    (hfresh : freshPage B p.pml4 true c p.vm = .ok (true, s)) :
    brkStep B p newbrk = some { p with vm := s, brkCur := newbrk } := by
  have htop : userStackTop = 0x7fffffbff000 := rfl
  have hold : alignUp c = c := by
    unfold alignUp
    omega
  have htgt : alignUp newbrk.toNat = c + 4096 := by
    unfold alignUp
    omega
  have hpages : pagesFrom c (c + 4096) = [c] := by
    rw [pagesFrom_cons (by omega)]
    unfold pagesFrom
    rw [Nat.sub_self]
    rfl
  have hpos : ¬ newbrk.toInt < 0 := by
    rw [BitVec.toInt_eq_toNat_of_lt (by omega)]
    omega
  have hbrk : sysBrk B p newbrk = .ok (newbrk.toInt, { p with vm := s, brkCur := newbrk }) := by
    unfold sysBrk
    rw [if_neg hne]
    rw [if_neg (by omega), hcur, hold, htgt, if_pos (by omega), hpages, forPages, hfresh]
    rfl
  unfold brkStep
  rw [hbrk]
  exact if_neg hpos

/-- A page of heap is mapped, and nothing else is touched. -/
theorem onePage_owned :
    ∃ p₀ p', sysExecve smallBuddy 3 (fun _ => .ok onePageImage) (fun _ => 0) caller 0x7f8000000000 0 =
        .ok (0, p₀) ∧ brkStep smallBuddy p₀ 0x7f8000402000 = some p' ∧ Owned smallBuddy p₀ p₀ p' := by
  have hrun : (loadRun smallBuddy caller.vm onePageImage 9).toOption =
      some (true, 0x7f8000400000, 0x7f8000401000, true) := by decide +kernel
  obtain ⟨root, s, hok, -, hcard⟩ := caller_execs (ok_of_toOption (by decide +kernel))
    (show execArgs 3 caller.vm caller.pml4 0 = .ok [] from rfl) hrun (by decide) (by decide)
  have hsound := (launched caller_ready (refuses_ok _) hok).sound
  obtain ⟨f, s', -, hfresh, -⟩ := freshPage_takes (w := true) hsound
    (accepts_ofNat (show 0x7f8000401000 % 4096 = 0 by decide) (by decide) (by decide))
    (show 4 ≤ (smallBuddy.free s.pool).card by omega)
  have hbase : (BitVec.ofNat 64 (alignUp 0x7f8000401000)).toNat = 0x7f8000401000 := by decide
  have hstep := brkStep_one (caller.entered [] root 0x7f8000400000 0x7f8000401000 (entrySp []) s)
    0x7f8000402000 hbase hbase (by decide) (by decide) (by decide) (by decide) hfresh
  have hclear : Clear (caller.entered [] root 0x7f8000400000 0x7f8000401000 (entrySp []) s)
      0x7f8000402000 := by
    refine Or.inr ⟨fun hz => ?_, Or.inl (by decide)⟩
    have hzero : (BitVec.ofNat 64 (alignUp 0x7f8000401000)).toNat = 0 := congrArg BitVec.toNat hz
    cases hzero
  have hguard := brk_owns caller_ready (refuses_ok _) hok [0x7f8000402000]
    ⟨hclear, by rw [hstep]; trivial⟩
  exact ⟨_, _, hok, hstep, hguard.1 _ hstep⟩

/-- A program whose segment ends where the trampoline begins -/
def highImage : List UInt8 := elfImage 0x7fffff7ff000 [⟨1, 5, 0, 0x7fffff7ff000, 1, 1⟩] []

/-- **The page of the trampoline is mapped over.** -/
theorem trampoline_replaced :
    ∃ p₀, sysExecve smallBuddy 3 (fun _ => .ok highImage) (fun _ => 0) caller 0x7f8000000000 0 =
        .ok (0, p₀) ∧
      ¬ Guarded (brkStep smallBuddy) (OwnsPages smallBuddy p₀) p₀ [0x7fffff801000] := by
  have hrun : (loadRun smallBuddy caller.vm highImage 9).toOption =
      some (true, 0x7fffff7ff000, 0x7fffff800000, true) := by decide +kernel
  obtain ⟨root, s, hok, hleaf, hcard⟩ := caller_execs (ok_of_toOption (by decide +kernel))
    (show execArgs 3 caller.vm caller.pml4 0 = .ok [] from rfl) hrun (by decide) (by decide)
  have hsound : Sound smallBuddy root s := (launched caller_ready (refuses_ok _) hok).sound
  obtain ⟨f, s', hf, hfresh, htree, e', he', hframe⟩ := freshPage_takes (w := true) hsound
    (accepts_ofNat (show 0x7fffff800000 % 4096 = 0 by decide) (by decide) (by decide))
    (show 4 ≤ (smallBuddy.free s.pool).card by omega)
  obtain ⟨e, he⟩ := Option.isSome_iff_exists.mp hleaf
  have hbase : (BitVec.ofNat 64 (alignUp 0x7fffff800000)).toNat = 0x7fffff800000 := by decide
  have hstep := brkStep_one (caller.entered [] root 0x7fffff7ff000 0x7fffff800000 (entrySp []) s)
    0x7fffff801000 hbase hbase (by decide) (by decide) (by decide) (by decide) hfresh
  refine ⟨_, hok, fun hguard => ?_⟩
  have howned := hguard.1 _ hstep
  -- the frame of the trampoline is in use, the new one was free
  have hsame := howned.maps 0x7fffff800000 inSlot_trampoline (e, false) (e', false) ?_ ?_
  · have hee : e' = e := (Prod.mk.inj hsame).1
    rw [hee] at hframe
    exact hsound.not_free (hsound.page_frame he).1 (hframe ▸ hf)
  · show pageEntry s root _ = _
    rw [pageEntry_slot hsound.tree inSlot_trampoline, he]
    rfl
  · show pageEntry s' root _ = _
    rw [pageEntry_slot htree inSlot_trampoline, show pageKey 0x7fffff800000 =
      key (BitVec.ofNat 64 0x7fffff800000) from rfl, he']
    rfl

end Lnxrm.Exec
