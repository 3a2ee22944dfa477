import Lnxrm.Common.Run
import Lnxrm.Signal.Model

/-!
# Trap frames — every way into the kernel and back to user mode

The model of the trap frames of all tasks: the frames that `kernel_spawn`,
`sys_fork` and `sys_execve` of `kernel/task.c` fabricate, the stubs of
`arch/entry64.S` with `isr_common` of `kernel/isr.c` and `syscall_entry`,
and signal delivery and `sigreturn` from `Signal/Model.lean`. A task is in
user mode, or its frame lies on its kernel stack; the frame with which a
stub, or `glue_first`, executes `iretq` is the answer of the step.

All gates are interrupt gates, and no kernel path of a user task sets IF
again, so that a trap of a user task comes from user mode. What the model
leaves open is chosen anew at every step: the registers and the memory of
user code, the slots, images and mappings that the kernel comes up with,
and what other tasks do to a task while it is inside.
-/

namespace Lnxrm.Trap

open Function
open Signal

/-- `SYS_fork` -/
def sysNrFork : BitVec 64 := 10
/-- `SYS_execve` -/
def sysNrExecve : BitVec 64 := 11
/-- `SYS_exit` -/
def sysNrExit : BitVec 64 := 12
/-- `SIGILL` -/
def sigill : ℕ := 4
/-- `SIGBUS` -/
def sigbus : ℕ := 7
/-- `SIGFPE` -/
def sigfpe : ℕ := 8

/-! ## Frames made by the kernel -/

/-- `memset(tf, 0, sizeof(*tf))` -/
def zeroFrame : IntrFrame :=
  ⟨0, 0, 0, 0, 0, 0, 0, 0, 0, 0, 0, 0, 0, 0, 0, 0, 0, 0, 0, 0, 0, 0⟩

/-- The five fields that `kernel_spawn` and `sys_execve` set. -/
def userEntry (f : IntrFrame) (entry sp : BitVec 64) : IntrFrame :=
  { f with
    rip := entry, ussp := sp, cs := 0x18#64 ||| 3#64, usss := 0x20#64 ||| 3#64, rflags := 0x202#64 }

/-- An image that `elf_load` accepted, and the user stack built for it. -/
structure Image where
  entry : BitVec 64
  sp : BitVec 64
  mem : ℕ → UInt8
  translate : ℕ → ℕ

/-- `kernel_spawn`, where it succeeds, in the slot `slot`. The signal fields
stay as the slot has them. -/
def kernelSpawn (slot : Ctx) (pid : ℕ) (img : Image) : Ctx :=
  { slot with
    pid := pid, state := .runnable, tf := some (userEntry zeroFrame img.entry img.sp)
    mem := img.mem, translate := img.translate }

/-- A new task of `sys_fork`: its slot, its pid and its page tables. -/
structure Child where
  slot : ℕ
  pid : ℕ
  translate : ℕ → ℕ

/-- `sys_fork` for the parent; `none` where no slot, no stack or no frame
is left. -/
def sysFork (child : Option Child) (s : Ctx) : Outcome Int :=
  match child with
  | none => .ret Errno.efail s
  | some ch => .ret ch.pid s

/-- The task that `sys_fork` makes: a copy of the parent with a frame that
returns `0`. -/
def forked (s : Ctx) (ch : Child) : Ctx :=
  { s with
    pid := ch.pid, state := .runnable, signalPending := 0, translate := ch.translate
    tf := s.tf.map fun f => { f with rax := 0, rflags := f.rflags ||| 0x200#64 } }

/-- `sys_execve`: it fails before anything is changed, or resets the signal
handlers and redirects the trap frame into the new image. -/
def sysExecve (image : Except Int Image) (s : Ctx) : Outcome Int :=
  match image with
  | .error e => .ret e s
  | .ok img =>
    .ret 0 { s with
      saHandler := fun sig => if 1 ≤ sig ∧ sig < nsig then 0 else s.saHandler sig
      signalPending := 0, mem := img.mem, translate := img.translate
      tf := s.tf.map fun f => userEntry f img.entry img.sp }

/-! ## Traps -/

/-- What a system call that does not store to the trap frame may do to its
task, and what it returns. -/
structure Effect where
  ret : Int
  state : TaskState
  signalPending : BitVec 64
  signalMask : BitVec 64
  saHandler : ℕ → BitVec 64
  mem : ℕ → UInt8
  translate : ℕ → ℕ

/-- What the kernel comes up with while a task is inside. -/
structure Env where
  child : Option Child
  image : Except Int Image
  effect : Effect

/-- The task after such a system call. -/
def Effect.apply (e : Effect) (s : Ctx) : Ctx :=
  { s with
    state := e.state, signalPending := e.signalPending, signalMask := e.signalMask
    saHandler := e.saHandler, mem := e.mem, translate := e.translate }

/-- The rest of `syscall_do`'s table. -/
def others (env : Env) (nr : BitVec 64) (s : Ctx) : Outcome Int :=
  if nr = sysNrFork then sysFork env.child s
  else if nr = sysNrExecve then sysExecve env.image s
  else if nr = sysNrExit then
    .exit ((s.tf.map fun f => (f.rdi.truncate 32).toInt).getD 0) s
  else .ret env.effect.ret (env.effect.apply s)

/-- How a trap ends. -/
inductive Exit where
  /-- the stub pops the frame and executes `iretq` -/
  | iretq (f : IntrFrame) (s : Ctx)
  /-- as well, but first the task waits in `do_signal_check`'s `schedule` -/
  | park (f : IntrFrame) (s : Ctx)
  /-- `sys_exit` -/
  | exit (code : Int) (s : Ctx)
  | panic

/-- The end of a trap on the frame `f`. If `current->tf` points at it, it
has been stored to through that pointer. -/
def finish (current : Bool) (f : IntrFrame) : Outcome Delivery → Exit
  | .exit code s => .exit code s
  | .ret .parked s => .park (if current then s.tf.getD f else f) s
  | .ret _ s => .iretq (if current then s.tf.getD f else f) s

/-- The signal that `isr_common` kills a task with for a fault. -/
def faultSignal (intno : BitVec 64) : ℕ :=
  if intno = 0 ∨ intno = 16 then sigfpe
  else if intno = 6 then sigill
  else if intno = 7 ∨ intno = 17 then sigbus
  else sigsegv

/-- `isr_common`. The handler of an interrupt may switch to other tasks,
which may send signals to this one. -/
def isrCommon (env : Env) (s : Ctx) (f : IntrFrame) : Exit :=
  let handled := fun s : Ctx =>
    { s with signalPending := env.effect.signalPending, state := env.effect.state }
  if 0xF0#64 ≤ f.intno ∧ f.intno ≤ 0xF2#64 then .iretq f (handled s)
  else if f.intno < 32#64 then
    if f.cs &&& 3#64 = 3 then .exit (-(faultSignal f.intno : Int)) s else .panic
  else
    let s := if s.pid ≠ 0 then { s with tf := some f } else s
    let s := handled s
    finish (s.pid ≠ 0) f (if f.cs &&& 3#64 = 3 then doSignalCheck s else .ret .idle s)

/-- The vector number that the stub of a gate pushes, by `idt_init` and
`isr_stub_table`: from 48 on a gate is the system call's, one of the three
IPIs' or that of vector 19. -/
def stubVector (v : ℕ) : ℕ :=
  if v < 48 ∨ (0xF0 ≤ v ∧ v ≤ 0xF2) then v
  else if v = 48 ∨ v = 128 then 128
  else 19

/-- The handling of the trap frame `f`, by the function its stub calls. -/
def handle (env : Env) (s : Ctx) (f : IntrFrame) : Exit :=
  if f.intno = 128 then finish true f (syscallEntry (others env) s f)
  else isrCommon env s f

/-! ## The machine -/

/-- Where a task is. -/
inductive Place where
  /-- never run: `swtch` will return into `glue_first` -/
  | fresh
  /-- in user mode, with these registers -/
  | user (regs : IntrFrame)
  /-- in the kernel, with the trap frame on its kernel stack -/
  | kernel (f : IntrFrame)
  /-- stopped by `SIGSTOP` on the way back, with its trap frame -/
  | parked (f : IntrFrame)
  /-- in `sys_exit` -/
  | exited

structure Task where
  ctx : Ctx
  place : Place

/-- The task table, `none` for `T_UNUSED`. -/
abbrev Machine := ℕ → Option Task

/-- **What user code can do to its registers**: anything, but at CPL 3 with
IOPL 0 it changes neither `cs` nor `ss` nor IOPL nor IF. -/
def UserStep (old new : IntrFrame) : Prop :=
  old.cs &&& 3#64 = 3 ∧ old.rflags &&& 0x3000#64 = 0 → new.cs = old.cs ∧ new.usss = old.usss ∧
      new.rflags &&& 0x3000#64 = old.rflags &&& 0x3000#64 ∧
      new.rflags &&& 0x200#64 = old.rflags &&& 0x200#64

instance (old new : IntrFrame) : Decidable (UserStep old new) := by
  unfold UserStep
  infer_instance

inductive Event where
  /-- `kernel_spawn` into an unused slot -/
  | spawn (i : ℕ) (slot : Ctx) (pid : ℕ) (img : Image)
  /-- user code runs, up to these registers and this memory -/
  | run (i : ℕ) (regs : IntrFrame) (mem : ℕ → UInt8)
  /-- a trap through gate `v`. The frame is pushed where older ones were:
  what `tf` points at is arbitrary until it is set again -/
  | trap (i v : ℕ) (err : BitVec 64) (stale : Option IntrFrame)
  /-- the kernel handles the trap -/
  | leave (i : ℕ) (env : Env)
  /-- the scheduler resumes a task that waits with its frame -/
  | resume (i : ℕ)
  /-- other tasks and interrupts send signals and change the task's state -/
  | signal (i : ℕ) (pending : BitVec 64) (state : TaskState)
  /-- the parent reaps the task -/
  | reap (i : ℕ)

/-- The task after the end of a trap, and the frame popped. -/
def Exit.outcome : Exit → Option IntrFrame × Option Task
  | .iretq f s => (some f, some ⟨s, .user f⟩)
  | .park f s => (none, some ⟨s, .parked f⟩)
  | .exit _ s => (none, some ⟨{ s with state := .zombie }, .exited⟩)
  -- nothing runs any more
  | .panic => (none, none)

/-- The environment as `sys_fork` meets it: `task_alloc_slot` returns
unused slots only. -/
def Env.clip (m : Machine) (env : Env) : Env :=
  { env with child := env.child.filter fun ch => (m ch.slot).isNone }

/-- The task table after a system call that may have been `sys_fork`. -/
def Machine.spawned (m : Machine) (s : Ctx) (f : IntrFrame) (env : Env) : Machine :=
  match env.child with
  | some ch =>
    if f.intno = 128 ∧ f.rax = sysNrFork then
      update m ch.slot (some ⟨forked { s with tf := some f } ch, .fresh⟩)
    else m
  | none => m

/-- **One step**, and the trap frame with which it returns to user mode. An
event that is not possible changes nothing. -/
def step (m : Machine) : Event → Option IntrFrame × Machine
  | .spawn i slot pid img =>
    match m i with
    | none => (none, update m i (some ⟨kernelSpawn slot pid img, .fresh⟩))
    | some _ => (none, m)
  | .run i regs mem =>
    match m i with
    | some ⟨s, .user old⟩ =>
      if UserStep old regs then
        (none, update m i (some ⟨{ s with mem := mem }, .user regs⟩))
      else (none, m)
    | _ => (none, m)
  | .trap i v err stale =>
    match m i with
    | some ⟨s, .user regs⟩ =>
      (none, update m i (some ⟨{ s with tf := stale },
        .kernel { regs with intno := BitVec.ofNat 64 (stubVector v), err := err }⟩))
    | _ => (none, m)
  | .leave i env =>
    match m i with
    | some ⟨s, .kernel f⟩ =>
      let env := env.clip m
      let out := (handle env s f).outcome
      (out.1, update (m.spawned s f env) i out.2)
    | _ => (none, m)
  | .resume i =>
    match m i with
    | some ⟨s, .fresh⟩ =>
      match s.tf with
      | some f => (some f, update m i (some ⟨s, .user f⟩))
      | none => (none, m)
    | some ⟨s, .parked f⟩ => (some f, update m i (some ⟨s, .user f⟩))
    | _ => (none, m)
  | .signal i pending state =>
    match m i with
    | some ⟨s, p⟩ =>
      (none, update m i (some ⟨{ s with signalPending := pending, state := state }, p⟩))
    | none => (none, m)
  | .reap i =>
    match m i with
    | some ⟨_, .exited⟩ => (none, update m i none)
    | _ => (none, m)

/-- No task yet. -/
def boot : Machine := fun _ => none

end Lnxrm.Trap
