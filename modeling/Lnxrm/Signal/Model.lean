import Lnxrm.Task
import Lnxrm.Common.Memory

/-!
# Signals — delivery on the way back to user space and `sigreturn`

The model of `kernel/signal.c`, of `syscall_entry` in `kernel/syscall.c`
and of `arch/signal_trampoline.S`. A `Ctx` is the part of `current` that
these functions touch, with the user memory of its address space by
virtual address; a kernel path either returns or ends in `sys_exit`.
-/

namespace Lnxrm.Signal

/-- `SIGKILL` -/
def sigkill : ℕ := 9
/-- `SIGSEGV` -/
def sigsegv : ℕ := 11
/-- `SIGCONT` -/
def sigcont : ℕ := 18
/-- `SIGSTOP` -/
def sigstop : ℕ := 19
/-- `_NSIG` -/
def nsig : ℕ := 32
/-- `SYS_sigreturn` -/
def sysNrSigreturn : BitVec 64 := 20
/-- `SIG_TRAMPOLINE_VA` -/
def sigTrampolineVa : BitVec 64 := 0x7fffff800000

/-- The current task as signal delivery sees it. `translate` is
`vmm_translate_in` of its page tables, `0` for an unmapped page. -/
structure Ctx where
  pid : ℕ
  state : TaskState
  signalPending : BitVec 64
  signalMask : BitVec 64
  /-- `sa[sig].sa_handler`, `0` being `SIG_DFL` -/
  saHandler : ℕ → BitVec 64
  /-- `tf`, the trap frame on the kernel stack -/
  tf : Option IntrFrame
  mem : ℕ → UInt8
  translate : ℕ → ℕ

/-- How a kernel path ends: it returns, or `sys_exit` never does. -/
inductive Outcome (α : Type) where
  | ret (a : α) (s : Ctx)
  | exit (code : Int) (s : Ctx)

/-- What `do_signal_check` did before it returned. -/
inductive Delivery where
  /-- no handler entered -/
  | idle
  /-- `SIGSTOP`: the task is parked in `schedule` -/
  | parked
  /-- `SIGCONT` consumed -/
  | continued
  /-- the trap frame now enters the handler of `sig` -/
  | delivered (sig : ℕ)
deriving DecidableEq, Repr

/-- `1ULL << sig` -/
def sigBit (sig : ℕ) : BitVec 64 := 1#64 <<< sig

/-- The signals whose default action is to terminate: `SIGINT`, `SIGTERM`,
`SIGQUIT`, `SIGILL`, `SIGABRT`, `SIGSEGV`. -/
def terminates (sig : ℕ) : Bool :=
  sig == 2 || sig == 15 || sig == 3 || sig == 4 || sig == 6 || sig == sigsegv

/-- `((orig_sp - frame_size) & ~15UL) - 8`: at handler entry the stack
pointer is 8 modulo 16 and points at the return address. -/
def newSp (origSp : BitVec 64) : BitVec 64 :=
  ((origSp - 184#64) &&& ~~~15#64) - 8#64

/-- `frame[0..20]`, as `do_signal_check` fills them. -/
def frameWords (sig : ℕ) (tf : IntrFrame) : List (BitVec 64) :=
  [BitVec.ofNat 64 sig, tf.rip, tf.cs, tf.rflags, tf.ussp, tf.usss, tf.rax, tf.rbx, tf.rcx,
    tf.rdx, tf.rsi, tf.rdi, tf.rbp, tf.r8, tf.r9, tf.r10, tf.r11, tf.r12, tf.r13, tf.r14, tf.r15]

/-- The last part of `do_signal_check`'s loop body: the frame is built on
the user stack and the trap frame redirected into the handler. -/
def deliver (s : Ctx) (tf : IntrFrame) (sig : ℕ) : Outcome Delivery :=
  let handler := s.saHandler sig
  let sp := newSp tf.ussp
  if !userPtrOk s.translate handler 1 || !userPtrOk s.translate sp 184 then
    .exit (-(sigsegv : Int)) s
  else
    let mem := store64 s.mem sp.toNat sigTrampolineVa
    let mem := memset mem (sp.toNat + 8) 0 176
    let mem := storeWords mem (sp.toNat + 8) (frameWords sig tf)
    let tf := { tf with
      rip := handler, ussp := sp, rdi := BitVec.ofNat 64 sig, rflags := tf.rflags ||| 0x200#64 }
    .ret (.delivered sig) { s with mem := mem, tf := some tf }

/-- `do_signal_check`'s loop over the signals. -/
def signalLoop (pending : BitVec 64) : List ℕ → Ctx → Outcome Delivery
  | [], s => .ret .idle s
  | sig :: sigs, s =>
    if pending &&& sigBit sig = 0 then signalLoop pending sigs s
    else
      let s := { s with signalPending := s.signalPending &&& ~~~sigBit sig }
      if sig = sigkill then .exit (-(sigkill : Int)) s
      else if s.saHandler sig = 0 then
        if terminates sig then .exit (-(sig : Int)) s else signalLoop pending sigs s
      else
        match s.tf with
        | none => signalLoop pending sigs s
        | some tf => deliver s tf sig

/-- The signals `do_signal_check` acts on: pending and not masked, with
`SIGKILL` and `SIGSTOP` unmaskable. -/
def Ctx.deliverable (s : Ctx) : BitVec 64 :=
  s.signalPending &&& ~~~s.signalMask |||
    s.signalPending &&& (sigBit sigkill ||| sigBit sigstop)

/-- `do_signal_check(current)`. In the `SIGSTOP` branch the outcome is the
state that `schedule()` is called in. -/
def doSignalCheck (s : Ctx) : Outcome Delivery :=
  if s.pid = 0 then .ret .idle s
  else if s.deliverable = 0 then .ret .idle s
  else if s.deliverable &&& sigBit sigstop ≠ 0 then
    .ret .parked { s with
      signalPending := s.signalPending &&& ~~~sigBit sigstop, state := .stopped }
  else if s.deliverable &&& sigBit sigcont ≠ 0 then
    .ret .continued { s with
      signalPending := s.signalPending &&& ~~~sigBit sigcont
      state := if s.state = .stopped then .runnable else s.state }
  else signalLoop s.deliverable (List.range' 1 (nsig - 1)) s

/-- `sys_sigreturn` -/
def sysSigreturn (s : Ctx) : Outcome Int :=
  match s.tf with
  | none => .ret Errno.efail s
  | some tf =>
    let usp := tf.ussp
    if !userPtrOk s.translate usp 176 then .exit (-(sigsegv : Int)) s
    else
      let frame := fun i : ℕ => load64 s.mem (usp.toNat + 8 * i)
      let rip := frame 1
      let cs := frame 2
      let rsp := frame 4
      let ss := frame 5
      if cs &&& 3#64 ≠ 3 ∨ cs &&& ~~~3#64 ≠ 0x18 ∨ ss &&& 3#64 ≠ 3 ∨ ss &&& ~~~3#64 ≠ 0x20 ∨
          userPtrOk s.translate rip 1 = false ∨ userPtrOk s.translate rsp 1 = false then
        .exit (-(sigsegv : Int)) s
      else
        .ret 0 { s with tf := some { tf with
          rip := rip, cs := cs
          rflags := (frame 3 ||| 0x2#64 ||| 0x200#64) &&& ~~~(3#64 <<< 12)
          ussp := rsp, usss := ss
          rax := frame 6, rbx := frame 7, rcx := frame 8, rdx := frame 9
          rsi := frame 10, rdi := frame 11, rbp := frame 12
          r8 := frame 13, r9 := frame 14, r10 := frame 15, r11 := frame 16
          r12 := frame 17, r13 := frame 18, r14 := frame 19, r15 := frame 20 } }

/-- `syscall_do`: `others` are the system calls of the table that are not
`sigreturn`. -/
def syscallDo (others : BitVec 64 → Ctx → Outcome Int) (nr : BitVec 64) (s : Ctx) : Outcome Int :=
  if nr = sysNrSigreturn then sysSigreturn s else others nr s

/-- `syscall_entry` for the frame `f`: it becomes `current->tf`, so that
what the system call stores there is stored in `f`. -/
def syscallEntry (others : BitVec 64 → Ctx → Outcome Int) (s : Ctx) (f : IntrFrame) :
    Outcome Delivery :=
  match syscallDo others f.rax { s with tf := some f } with
  | .exit code s => .exit code s
  | .ret ret s =>
    let f := s.tf.getD f
    let f := { f with rax := BitVec.ofInt 64 ret, rflags := f.rflags ||| 0x200#64 }
    let s := { s with tf := some f }
    if f.cs &&& 3#64 = 3 then doSignalCheck s else .ret .idle s

/-- `_signal_trampoline`, up to the frame its `int 0x80` leaves: only
`rax` differs from the registers the handler returned with. -/
def signalTrampoline (regs : IntrFrame) : IntrFrame :=
  { regs with rax := sysNrSigreturn, intno := 0x80, err := 0 }

/-! ## Sending -/

/-- `SIG_IGN` -/
def sigIgn : BitVec 64 := 1

/-- A task that signals are sent to: `queued` says that it is on a run
queue, `rq_cpu != -1`. -/
structure Target extends Ctx where
  queued : Bool

/-- `t->state = T_RUNNABLE` and `runqueue_add(t)` -/
def Target.wake (t : Target) : Target := { t with state := .runnable, queued := true }

/-- `t->signal_pending |= 1ULL << sig` -/
def Target.post (t : Target) (sig : ℕ) : Target :=
  { t with signalPending := t.signalPending ||| sigBit sig }

/-- `send_signal` -/
def sendSignal (t : Target) (sig : ℕ) : Target :=
  if sig < 1 ∨ nsig ≤ sig then t
  else if sig = sigkill then
    if t.state = .sleeping then (t.post sigkill).wake else t.post sigkill
  else if sig = sigstop then
    if t.state = .sleeping then (t.post sigstop).wake else t.post sigstop
  else if sig = sigcont then
    -- the only signal that wakes a stopped task
    if t.state = .stopped ∨ t.state = .sleeping then (t.post sigcont).wake else t.post sigcont
  else if t.saHandler sig = sigIgn then t
  else if t.state = .sleeping then (t.post sig).wake
  else t.post sig

/-- `sys_sigaction`: `act` is the new handler, if there is a valid pointer
to one. -/
def sysSigaction (s : Ctx) (sig : ℕ) (act : Option (BitVec 64)) : Int × Ctx :=
  if sig < 1 ∨ nsig ≤ sig then (Errno.einval, s)
  else
    match act with
    | none => (0, s)
    | some handler => (0, { s with saHandler := Function.update s.saHandler sig handler })

/-- `sys_sigprocmask`: `set` is the set to block, unblock or install, if
there is a valid pointer to one. -/
def sysSigprocmask (s : Ctx) (how : ℕ) (set : Option (BitVec 64)) : Int × Ctx :=
  match set with
  | none => (0, s)
  | some set =>
    let install := fun mask : BitVec 64 =>
      ((0 : Int), { s with signalMask := mask &&& ~~~(sigBit sigkill ||| sigBit sigstop) })
    match how with
    | 0 => install (s.signalMask ||| set)
    | 1 => install (s.signalMask &&& ~~~set)
    | 2 => install set
    | _ => (Errno.einval, s)

end Lnxrm.Signal
