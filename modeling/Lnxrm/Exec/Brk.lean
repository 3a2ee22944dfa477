import Lnxrm.Exec.Helpers.Pages

/-!
# A failing `sys_brk`

`sys_brk` maps page after page and gives up where `pmm_alloc` fails, with
the pages it has mapped still mapped and `brk_cur` as it was. So a failing
call changes nothing only where it fails before the first page:
`brk_unchanged_iff`.
-/

namespace Lnxrm.Exec

open Vmm

variable {A : Type} {B : Buddy A}

/-- **Nothing has changed**: the break, what user addresses translate to,
and the free frames. -/
def Unchanged (B : Buddy A) (p p' : Proc A) : Prop :=
  p'.brkCur = p.brkCur ∧
    (∀ va, IsUser va → vmmTranslateIn p'.vm p'.pml4 va = vmmTranslateIn p.vm p.pml4 va) ∧
    B.free p'.vm.pool = B.free p.vm.pool

/-- `sys_brk` gives up at once: the break is only asked for or not to be
had, or no frame is free. -/
def GivesUpAtOnce (B : Buddy A) (p : Proc A) (newbrk : BitVec 64) : Prop :=
  newbrk = 0 ∨ newbrk.toNat < p.brkBase.toNat ∨ userStackTop - 2 ^ 20 < newbrk.toNat ∨
    B.free p.vm.pool = ∅

/-- **A failing `sys_brk` changes nothing** exactly if it gives up at
once. -/
theorem brk_unchanged_iff (p p' : Proc A) (newbrk : BitVec 64) (ret : Int)
    (h : sysBrk B p newbrk = .ok (ret, p')) (hret : ret < 0) :
    Unchanged B p p' ↔ GivesUpAtOnce B p newbrk := by
  unfold sysBrk at h
  by_cases hzero : newbrk = 0
  · rw [if_pos hzero] at h
    cases h
    exact ⟨fun _ => Or.inl hzero, fun _ => ⟨rfl, fun _ _ => rfl, rfl⟩⟩
  rw [if_neg hzero] at h
  by_cases hrange : newbrk.toNat < p.brkBase.toNat ∨ userStackTop - 2 ^ 20 < newbrk.toNat
  · rw [if_pos hrange] at h
    cases h
    refine ⟨fun _ => Or.inr (hrange.imp id Or.inl), fun _ => ⟨rfl, fun _ _ => rfl, rfl⟩⟩
  dsimp only at h
  rw [if_neg hrange] at h
  rw [not_or, not_lt, not_lt] at hrange
  -- a break that is granted is not negative
  have hpos : ¬ newbrk.toInt < 0 := by
    have htop : userStackTop = 0x7fffffbff000 := rfl
    have hle := hrange.2
    rw [BitVec.toInt_eq_toNat_of_lt (by omega)]
    omega
  by_cases hgrow : alignUp p.brkCur.toNat < alignUp newbrk.toNat
  · rw [if_pos hgrow] at h
    cases hloop : forPages (freshPage B p.pml4 true)
        (pagesFrom (alignUp p.brkCur.toNat) (alignUp newbrk.toNat)) p.vm with
    | error e =>
      rw [hloop] at h
      cases h
    | ok r =>
      obtain ⟨ok, s⟩ := r
      rw [hloop] at h
      cases ok with
      | true =>
        cases h
        exact absurd hret hpos
      | false =>
        cases h
        have hfree := forPages_fresh_false _ hloop
        constructor
        · rintro ⟨-, -, hsame⟩
          exact Or.inr (Or.inr (Or.inr (hsame.symm.trans hfree)))
        rintro (h0 | hlo | hhi | hempty)
        · exact absurd h0 hzero
        · omega
        · omega
        · -- the first page already fails
          rw [pagesFrom_cons hgrow, forPages, freshPage_of_empty hempty] at hloop
          cases hloop
          exact ⟨rfl, fun _ _ => rfl, rfl⟩
  · rw [if_neg hgrow] at h
    cases h
    exact absurd hret hpos

/-- A process with an empty heap at the start of user space, its tables
under frame 40. -/
def smallProc (free : Finset ℕ) : Proc (Finset ℕ) where
  vm := { pool := free, mem := fun _ _ => 0 }
  pml4 := 40
  brkBase := 0x7f8000000000
  brkCur := 0x7f8000000000
  name := []
  saHandler := fun _ => 0
  signalPending := 0
  tf := clearedFrame

/-- Without a free frame two pages are asked for in vain, and nothing has
changed. -/
theorem brk_without_frames : sysBrk (Buddy.least 64 (by decide)) (smallProc ∅) 0x7f8000002000 =
        .ok (Errno.enomem, smallProc ∅) ∧
      Unchanged (Buddy.least 64 (by decide)) (smallProc ∅) (smallProc ∅) := by
  have hfree : (Buddy.least 64 (by decide)).free (smallProc ∅).vm.pool = ∅ := by decide +kernel
  have hfail : sysBrk (Buddy.least 64 (by decide)) (smallProc ∅) 0x7f8000002000 =
      .ok (Errno.enomem, smallProc ∅) := by
    have hpages : pagesFrom (alignUp (smallProc ∅).brkCur.toNat)
        (alignUp (0x7f8000002000 : BitVec 64).toNat) = [0x7f8000000000, 0x7f8000001000] := by
      decide +kernel
    unfold sysBrk
    rw [if_neg (by decide)]
    rw [if_neg (by decide), if_pos (by decide), hpages, forPages, freshPage_of_empty hfree]
    rfl
  exact ⟨hfail, (brk_unchanged_iff _ _ _ _ hfail (by decide)).mpr
    (Or.inr (Or.inr (Or.inr hfree)))⟩

/-- **A page too few.** With four free frames the first of two pages is
mapped, with its three tables, and the call fails at the second. -/
theorem brk_leaves_page :
    ∃ p', sysBrk (Buddy.least 64 (by decide)) (smallProc {1, 2, 3, 4}) 0x7f8000002000 =
        .ok (Errno.enomem, p') ∧
      ¬ Unchanged (Buddy.least 64 (by decide)) (smallProc {1, 2, 3, 4}) p' := by
  have hrun : ((sysBrk (Buddy.least 64 (by decide)) (smallProc {1, 2, 3, 4})
      0x7f8000002000).toOption.map fun r =>
        (r.1, vmmTranslateIn r.2.vm r.2.pml4 0x7f8000000000)) =
      some (Errno.enomem, 0x1000) := by decide +kernel
  cases hbrk : sysBrk (Buddy.least 64 (by decide)) (smallProc {1, 2, 3, 4}) 0x7f8000002000 with
  | error e =>
    rw [hbrk] at hrun
    cases hrun
  | ok r =>
    obtain ⟨ret, p'⟩ := r
    rw [hbrk] at hrun
    obtain ⟨hret, hva⟩ := Prod.mk.inj (Option.some.inj hrun)
    refine ⟨p', by rw [show ret = Errno.enomem from hret], fun hsame => ?_⟩
    have hold : vmmTranslateIn (smallProc {1, 2, 3, 4}).vm (smallProc {1, 2, 3, 4}).pml4
        0x7f8000000000 = 0 := by decide +kernel
    have hmapped := hsame.2.1 0x7f8000000000 (by decide)
    rw [hold, show vmmTranslateIn p'.vm p'.pml4 0x7f8000000000 = 0x1000 from hva] at hmapped
    exact absurd hmapped (by decide)

end Lnxrm.Exec
