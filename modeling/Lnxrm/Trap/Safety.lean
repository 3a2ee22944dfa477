import Lnxrm.Trap.Model

/-!
# Trap frames carry no privilege

The kernel returns to user mode only with the user selectors, IOPL 0 and
IF set. Every function that stores to a trap frame keeps that
(`Keeps`): signal delivery touches none of it, `sys_execve` sets it, and
`sys_sigreturn` lets through what its checks and its mask make of the
words it finds in user memory. A step therefore keeps it for the frames of
all tasks (`step_unprivileged`), and a run returns with no other frame.
-/

namespace Lnxrm.Trap

open Signal

/-- **The frame of an unprivileged return.** -/
structure Unprivileged (f : IntrFrame) : Prop where
  cs : f.cs = 0x1B
  ss : f.usss = 0x23
  iopl : f.rflags &&& 0x3000#64 = 0
  interrupts : f.rflags &&& 0x200#64 = 0x200

variable {f old new : IntrFrame} {s : Ctx} {m : Machine}

theorem Unprivileged.setIf {g : IntrFrame} (h : Unprivileged f) (hcs : g.cs = f.cs)
    (hss : g.usss = f.usss) (hfl : g.rflags = f.rflags ||| 0x200#64) : Unprivileged g := by
  refine ⟨hcs.trans h.cs, hss.trans h.ss, ?_, ?_⟩
  · rw [hfl, BitVec.and_or_distrib_right, h.iopl]
    decide
  · rw [hfl, BitVec.and_or_distrib_right, h.interrupts]
    decide

theorem Unprivileged.congr {g : IntrFrame} (h : Unprivileged f) (hcs : g.cs = f.cs)
    (hss : g.usss = f.usss) (hfl : g.rflags = f.rflags) : Unprivileged g :=
  ⟨hcs.trans h.cs, hss.trans h.ss, by rw [hfl, h.iopl], by rw [hfl, h.interrupts]⟩

theorem unprivileged_userEntry (f : IntrFrame) (entry sp : BitVec 64) :
    Unprivileged (userEntry f entry sp) :=
  ⟨rfl, rfl, show 0x202#64 &&& 0x3000#64 = 0 by decide, show 0x202#64 &&& 0x200#64 = 0x200 by decide⟩

theorem eq_of_masked {x mask a b : BitVec 64} (ha : x &&& mask = a) (hb : x &&& ~~~mask = b) :
    x = a ||| b := by
  rw [← ha, ← hb, ← BitVec.and_or_distrib_left, BitVec.or_not_self, BitVec.and_allOnes]

/-- **User code stays unprivileged.** -/
theorem UserStep.unprivileged (hstep : UserStep old new) (h : Unprivileged old) :
    Unprivileged new := by
  obtain ⟨hcs, hss, hiopl, hif⟩ := hstep ⟨by rw [h.cs]; decide, h.iopl⟩
  exact ⟨hcs.trans h.cs, hss.trans h.ss, hiopl.trans h.iopl, hif.trans h.interrupts⟩

/-! ## Kernel paths -/

/-- `current->tf` is there, and unprivileged. -/
def Sound (s : Ctx) : Prop := ∃ f, s.tf = some f ∧ Unprivileged f

/-- If a kernel path returns, the trap frame is unprivileged. -/
def Keeps {α : Type} : Outcome α → Prop
  | .ret _ s => Sound s
  | .exit _ _ => True

theorem deliver_keeps (sig : ℕ) (h : Unprivileged f) : Keeps (deliver s f sig) := by
  simp only [deliver]
  split
  · trivial
  · exact ⟨_, rfl, h.setIf rfl rfl rfl⟩

theorem signalLoop_keeps (pending : BitVec 64) (sigs : List ℕ) (h : Sound s) :
    Keeps (signalLoop pending sigs s) := by
  induction sigs generalizing s with
  | nil => exact h
  | cons sig sigs ih =>
    obtain ⟨f, htf, hf⟩ := h
    simp only [signalLoop]
    split
    · exact ih ⟨f, htf, hf⟩
    split
    · trivial
    split
    · split
      · trivial
      · exact ih ⟨f, htf, hf⟩
    · rw [htf]
      exact deliver_keeps sig hf

/-- **Signal delivery.** -/
theorem doSignalCheck_keeps (h : Sound s) : Keeps (doSignalCheck s) := by
  unfold doSignalCheck
  split
  · exact h
  split
  · exact h
  split
  · exact h
  split
  · exact h
  · exact signalLoop_keeps _ _ h

/-- **`sys_sigreturn` of an arbitrary frame.** The two checks on a selector
leave one value, and the mask on the flags leaves IOPL no bit. -/
theorem sysSigreturn_keeps (h : Sound s) : Keeps (sysSigreturn s) := by
  obtain ⟨f, htf, -⟩ := h
  simp only [sysSigreturn, htf]
  split
  · trivial
  split
  · trivial
  rename_i hok
  simp only [not_or, Decidable.not_not] at hok
  obtain ⟨hcs3, hcs, hss3, hss, -, -⟩ := hok
  refine ⟨_, rfl, ?_, ?_, ?_, ?_⟩
  · exact (eq_of_masked hcs3 hcs).trans (by decide)
  · exact (eq_of_masked hss3 hss).trans (by decide)
  · rw [BitVec.and_assoc, show ~~~(3#64 <<< 12) &&& 0x3000#64 = 0#64 by decide, BitVec.and_zero]
    rfl
  · rw [BitVec.and_assoc, show ~~~(3#64 <<< 12) &&& 0x200#64 = 0x200#64 by decide,
      BitVec.and_or_distrib_right, BitVec.and_self]
    refine BitVec.eq_of_getLsbD_eq fun i hi => ?_
    simp only [BitVec.getLsbD_or, BitVec.getLsbD_and]
    cases BitVec.getLsbD 0x200#64 i <;> simp

/-- The rest of the system calls: `sys_execve` sets the fields, the others
leave the frame alone. -/
theorem others_keeps (env : Env) (nr : BitVec 64) (h : Sound s) : Keeps (others env nr s) := by
  obtain ⟨f, htf, hf⟩ := h
  unfold others sysFork sysExecve
  split
  · split
    · exact ⟨f, htf, hf⟩
    · exact ⟨f, htf, hf⟩
  split
  · split
    · exact ⟨f, htf, hf⟩
    · rename_i img _
      exact ⟨_, by simp only [htf, Option.map_some],
        unprivileged_userEntry f img.entry img.sp⟩
  split
  · trivial
  · exact ⟨f, htf, hf⟩

/-- **System calls.** -/
theorem syscallEntry_keeps (env : Env) (s : Ctx) (h : Unprivileged f) :
    Keeps (syscallEntry (others env) s f) := by
  have hdo : Keeps (syscallDo (others env) f.rax { s with tf := some f }) := by
    unfold syscallDo
    split
    · exact sysSigreturn_keeps ⟨f, rfl, h⟩
    · exact others_keeps env _ ⟨f, rfl, h⟩
  unfold syscallEntry
  revert hdo
  cases syscallDo (others env) f.rax { s with tf := some f } with
  | exit code s => exact fun _ => trivial
  | ret ret s =>
    rintro ⟨g, htf, hg⟩
    simp only [htf, Option.getD_some]
    have hback : Sound { s with tf := some { g with
        rax := BitVec.ofInt 64 ret, rflags := g.rflags ||| 0x200#64 } } :=
      ⟨_, rfl, hg.setIf rfl rfl rfl⟩
    split
    · exact doSignalCheck_keeps hback
    · exact hback

/-! ## The machine -/

/-- A task's frame, wherever it is, is unprivileged. -/
def Task.Unprivileged (t : Task) : Prop :=
  match t.place with
  | .fresh => Sound t.ctx
  | .user f | .kernel f | .parked f => Trap.Unprivileged f
  | .exited => True

/-- **The invariant**: so are the frames of all tasks. -/
def Machine.Unprivileged (m : Machine) : Prop := ∀ i t, m i = some t → t.Unprivileged

/-- The end of a trap returns, or will return, with an unprivileged
frame. -/
def Exit.Unprivileged : Exit → Prop
  | .iretq f _ | .park f _ => Trap.Unprivileged f
  | .exit _ _ | .panic => True

theorem finish_unprivileged {o : Outcome Delivery} (current : Bool) (h : Unprivileged f)
    (ho : current = true → Keeps o) : (finish current f o).Unprivileged := by
  cases o with
  | exit code s => trivial
  | ret d s =>
    have hf : Unprivileged (if current then s.tf.getD f else f) := by
      cases current with
      | false => exact h
      | true =>
        obtain ⟨g, htf, hg⟩ := ho rfl
        simpa [htf] using hg
    cases d <;> exact hf

/-- **Traps.** The signal check of an interrupt works on the frame of the
interrupt, because `isr_common` has made it `current->tf`. -/
theorem handle_unprivileged (env : Env) (s : Ctx) (h : Unprivileged f) :
    (handle env s f).Unprivileged := by
  unfold handle
  split
  · exact finish_unprivileged true h fun _ => syscallEntry_keeps env s h
  unfold isrCommon
  split
  · exact h
  split
  · split <;> trivial
  refine finish_unprivileged _ h fun hpid => ?_
  have hpid : s.pid ≠ 0 := by
    by_contra hzero
    simp [hzero] at hpid
  split
  · exact doSignalCheck_keeps ⟨f, rfl, h⟩
  · exact ⟨f, rfl, h⟩

theorem Machine.Unprivileged.update (h : m.Unprivileged) (i : ℕ) {o : Option Task}
    (ho : ∀ t, o = some t → t.Unprivileged) : Machine.Unprivileged (Function.update m i o) := by
  intro j t hj
  by_cases hji : j = i
  · subst hji
    rw [Function.update_self] at hj
    exact ho t hj
  · rw [Function.update_of_ne hji] at hj
    exact h j t hj

theorem Machine.Unprivileged.spawned (h : m.Unprivileged) (hf : Trap.Unprivileged f) (s : Ctx)
    (env : Env) : (m.spawned s f env).Unprivileged := by
  unfold Machine.spawned
  split
  · split
    · refine h.update _ fun t ht => ?_
      cases ht
      exact ⟨_, rfl, hf.setIf rfl rfl rfl⟩
    · exact h
  · exact h

theorem Exit.Unprivileged.outcome {e : Exit} (h : e.Unprivileged) :
    (∀ f, e.outcome.1 = some f → Trap.Unprivileged f) ∧
      ∀ t, e.outcome.2 = some t → t.Unprivileged := by
  cases e with
  | iretq f s | park f s =>
    refine ⟨?_, ?_⟩
    · rintro g hg
      cases hg <;> exact h
    · rintro t ht
      cases ht
      exact h
  | exit code s =>
    refine ⟨fun f hf => absurd hf (Option.some_ne_none f).symm, ?_⟩
    rintro t ht
    cases ht
    trivial
  | panic => exact ⟨fun f hf => absurd hf (Option.some_ne_none f).symm,
      fun t ht => absurd ht (Option.some_ne_none t).symm⟩

/-- **One step** keeps the frames of all tasks unprivileged and returns to
user mode with no other. -/
theorem step_unprivileged (h : m.Unprivileged) (e : Event) :
    (∀ f, (step m e).1 = some f → Unprivileged f) ∧ (step m e).2.Unprivileged := by
  cases e with
  | spawn i slot pid img =>
    simp only [step]
    split
    · refine ⟨nofun, h.update i fun t ht => ?_⟩
      cases ht
      exact ⟨_, rfl, unprivileged_userEntry _ _ _⟩
    · exact ⟨nofun, h⟩
  | run i regs mem =>
    simp only [step]
    split
    · rename_i s old hi
      split
      · rename_i hstep
        refine ⟨nofun, h.update i fun t ht => ?_⟩
        cases ht
        exact hstep.unprivileged (h i _ hi)
      · exact ⟨nofun, h⟩
    · exact ⟨nofun, h⟩
  | trap i v err stale =>
    simp only [step]
    split
    · rename_i s regs hi
      refine ⟨nofun, h.update i fun t ht => ?_⟩
      cases ht
      exact (show Unprivileged regs from h i _ hi).congr rfl rfl rfl
    · exact ⟨nofun, h⟩
  | leave i env =>
    simp only [step]
    split
    · rename_i s f hi
      have hf : Unprivileged f := h i _ hi
      obtain ⟨hret, htask⟩ := (handle_unprivileged (env.clip m) s hf).outcome
      exact ⟨hret, (h.spawned hf s _).update i htask⟩
    · exact ⟨nofun, h⟩
  | resume i =>
    simp only [step]
    split
    · rename_i s hi
      obtain ⟨f, htf, hf⟩ : Sound s := h i _ hi
      simp only [htf]
      refine ⟨fun g hg => ?_, h.update i fun t ht => ?_⟩
      · cases hg
        exact hf
      · cases ht
        exact hf
    · rename_i s f hi
      have hf : Unprivileged f := h i _ hi
      refine ⟨fun g hg => ?_, h.update i fun t ht => ?_⟩
      · cases hg
        exact hf
      · cases ht
        exact hf
    · exact ⟨nofun, h⟩
  | signal i pending state =>
    simp only [step]
    split
    · rename_i s p hi
      refine ⟨nofun, h.update i fun t ht => ?_⟩
      cases ht
      exact show Task.Unprivileged ⟨s, p⟩ from h i _ hi
    · exact ⟨nofun, h⟩
  | reap i =>
    simp only [step]
    split
    · exact ⟨nofun, h.update i fun t ht => absurd ht (Option.some_ne_none t).symm⟩
    · exact ⟨nofun, h⟩

theorem boot_unprivileged : boot.Unprivileged := fun _ _ h => nomatch h

/-- **No privilege through trap frames.** In every run of any tasks, with
any user memory and registers, every trap frame with which the kernel
returns to user mode has the user selectors, IOPL 0 and IF set. -/
theorem returns_unprivileged (es : List Event) (f : IntrFrame)
    (h : some f ∈ (runTrace step boot es).1) :
    f.cs = 0x1B ∧ f.usss = 0x23 ∧ f.rflags &&& 0x3000#64 = 0 ∧ f.rflags &&& 0x200#64 = 0x200 := by
  have hf : Unprivileged f :=
    runTrace_answers (I := Machine.Unprivileged) (P := fun a => ∀ f, a = some f → Unprivileged f)
      (fun m e hm => step_unprivileged hm e) es boot_unprivileged (some f) h f rfl
  exact ⟨hf.cs, hf.ss, hf.iopl, hf.interrupts⟩

/-- A stack with a forged `sigreturn` frame: all flags set. -/
def forgedMem : ℕ → UInt8 :=
  storeWords (fun _ => 0) 0x7f8000001000
    [0, 0x7f8000000000, 0x1B, 0xFFFFFFFFFFFFFFFF#64, 0x7f8000001000, 0x23]

/-- `init` is spawned, forks, and its child forges a `sigreturn` frame. -/
def forgedRun : List Event :=
  let everywhere : ℕ → ℕ := fun _ => 0x200000
  let img : Image := ⟨0x7f8000000000, 0x7f8000001000, fun _ => 0, everywhere⟩
  let slot : Ctx := ⟨0, .unused, 0, 0, fun _ => 0, none, fun _ => 0, everywhere⟩
  let regs : IntrFrame := userEntry zeroFrame 0x7f8000000000 0x7f8000001000
  let env : Env := ⟨some ⟨2, 2, everywhere⟩, .error Errno.efail,
    ⟨0, .running, 0, 0, fun _ => 0, fun _ => 0, everywhere⟩⟩
  [.spawn 1 slot 1 img, .resume 1, .run 1 { regs with rax := sysNrFork } fun _ => 0,
    .trap 1 0x80 0 none, .leave 1 env, .resume 2,
    .run 2 { regs with rax := sysNrSigreturn } forgedMem, .trap 2 0x80 0 none, .leave 2 env]

/-- The child returns with its forged frame, less the privileges. -/
def forgedReturn : IntrFrame :=
  { zeroFrame with
    intno := 128, rip := 0x7f8000000000, cs := 0x1B, rflags := 0xFFFFFFFFFFFFCFFF#64
    ussp := 0x7f8000001000, usss := 0x23 }

theorem returns_unprivileged_forged :
    some forgedReturn ∈ (runTrace step boot forgedRun).1 ∧ forgedReturn.cs = 0x1B ∧
      forgedReturn.usss = 0x23 ∧ forgedReturn.rflags &&& 0x3000#64 = 0 ∧
      forgedReturn.rflags &&& 0x200#64 = 0x200 := by
  have hlast : (runTrace step boot forgedRun).1.getLast? = some (some forgedReturn) := by
    decide +kernel
  have hmem := List.mem_of_getLast? hlast
  exact ⟨hmem, returns_unprivileged forgedRun forgedReturn hmem⟩

end Lnxrm.Trap
