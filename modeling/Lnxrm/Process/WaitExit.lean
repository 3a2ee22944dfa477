import Lnxrm.Process.Helpers.Placement

/-!
# A parent in `sys_waitpid`, a child in `sys_exit`

The two system calls of `kernel/task.c`, step by step: the scan of the task
table, the stores in front of the call of `schedule`, that call, and the
three frees of a reaped child on one side; `send_signal`, the `T_ZOMBIE`
store, the test of the parent's state, the wake-up and `schedule` on the
other. The steps of the two interleave freely with each other and with
what the other CPUs do (`step`).

No lock covers the parent's scan and its sleep, or the child's `T_ZOMBIE`
store and its context switch. `LostWakeup` and `ReapsRunning` say what can
go wrong in these two windows, `Timely` and `ScansLate` which steps fall
into them.
-/

namespace Lnxrm.Process.WaitExit

/-- Who waits for whom: two different tasks, neither of them idle, and the
arguments of the two calls. -/
structure Setup (n N : ℕ) where
  idle : Fin n → Fin N
  parent : Fin N
  child : Fin N
  /-- `none` for an argument that is not positive -/
  wpid : Option (BitVec 32)
  /-- `opts & 1` -/
  nohang : Bool
  code : Int
  ne : child ≠ parent
  parent_ne_idle : ∀ d, idle d ≠ parent
  child_ne_idle : ∀ d, idle d ≠ child

/-- Where the parent is in `sys_waitpid`: the step it takes next. -/
inductive WaitPc (N : ℕ) where
  | scan
  | sleeping
  | sleepUntil
  | remove
  | schedule
  /-- `vmm_destroy_user_aspace(t->pml4)` -/
  | destroy (t : Fin N)
  /-- `kfree(t->kstack)` -/
  | freeStack (t : Fin N)
  | freeSlot (t : Fin N)
  | returned
deriving DecidableEq

/-- Where the child is in `sys_exit`. -/
inductive ExitPc where
  | signal
  | zombie
  | remove
  | test
  | wake
  | add
  | schedule
  | done
deriving DecidableEq

variable {n N : ℕ} (w : Setup n N)

/-- A step of `sys_waitpid`, on the CPU `c`. -/
def waitStep (c : Fin n) (σ : Kernel n N) : WaitPc N → Option (Kernel n N × WaitPc N)
  | .scan =>
    match findZombie σ w.parent w.wpid with
    | some t => some (σ, .destroy t)
    | none =>
      if (List.finRange N).all fun t => !isChild σ w.parent t then some (σ, .returned)
      else if w.nohang then some (σ, .returned)
      else some (σ, .sleeping)
  | .sleeping => some (σ.setState w.parent .sleeping, .sleepUntil)
  | .sleepUntil =>
    some ({ σ with
      sleepUntil := Function.update σ.sleepUntil w.parent (BitVec.allOnes 64) }, .remove)
  | .remove => (runqueueRemove σ w.parent).map fun σ => (σ, .schedule)
  | .schedule => (schedule w.idle σ c).map fun σ => (σ, .scan)
  -- address spaces and kernel stacks are not part of the kernel state here
  | .destroy t => some (σ, .freeStack t)
  | .freeStack t => some (σ, .freeSlot t)
  | .freeSlot t => (taskFreeSlot σ t).map fun σ => (σ, .returned)
  | .returned => none

/-- A step of `sys_exit`, on the CPU `c`, after the orphans were handed on. -/
def exitStep (c : Fin n) (σ : Kernel n N) : ExitPc → Option (Kernel n N × ExitPc)
  | .signal => some (signalParent w.idle σ c w.child, .zombie)
  | .zombie => some (σ.zombie w.child w.code, .remove)
  | .remove => (runqueueRemove σ w.child).map fun σ => (σ, .test)
  | .test =>
    match σ.parent w.child with
    | none => some (σ, .schedule)
    | some p => some (σ, if σ.state p = .sleeping ∧ σ.pid p ≠ 0 then .wake else .schedule)
  | .wake => (σ.parent w.child).map fun p => (σ.setState p .runnable, .add)
  | .add => (σ.parent w.child).map fun p => (runqueueAdd w.idle σ c p, .schedule)
  | .schedule => (schedule w.idle σ c).map fun σ => (σ, .done)
  | .done => none

structure State (n N : ℕ) where
  kernel : Kernel n N
  wait : WaitPc N
  exit : ExitPc

inductive Move (n N : ℕ) where
  | parent (c : Fin n)
  | child (c : Fin n)
  | other (l : Fin n × Op N)
deriving DecidableEq

/-- What goes on beside the two: `schedule` on the CPUs that run neither,
and wake-ups, queue operations and state stores of other tasks. -/
def Aside (σ : Kernel n N) : Fin n × Op N → Prop
  | (c, .schedule) => σ.current c ≠ w.parent ∧ σ.current c ≠ w.child
  | (_, .add t) => t ≠ w.parent ∧ t ≠ w.child
  | (_, .remove t) => t ≠ w.parent ∧ t ≠ w.child
  | (_, .signal t _) => t ≠ w.parent ∧ t ≠ w.child
  | (_, .push t) => t ≠ w.parent ∧ t ≠ w.child
  | (_, .store t _) => t ≠ w.parent ∧ t ≠ w.child
  | _ => False

instance (σ : Kernel n N) : ∀ l, Decidable (Aside w σ l)
  | (_, .schedule) => inferInstanceAs (Decidable (_ ∧ _))
  | (_, .add _) => inferInstanceAs (Decidable (_ ∧ _))
  | (_, .remove _) => inferInstanceAs (Decidable (_ ∧ _))
  | (_, .signal _ _) => inferInstanceAs (Decidable (_ ∧ _))
  | (_, .push _) => inferInstanceAs (Decidable (_ ∧ _))
  | (_, .store _ _) => inferInstanceAs (Decidable (_ ∧ _))
  | (_, .tick _) => isFalse id
  | (_, .alloc) => isFalse id
  | (_, .spawn _) => isFalse id
  | (_, .fork _) => isFalse id
  | (_, .exit _) => isFalse id
  | (_, .wait _ _) => isFalse id
  | (_, .free _) => isFalse id

/-- One step of the system: the parent and the child take theirs on a CPU
that runs them. -/
def step (s : State n N) : Move n N → Option (State n N)
  | .parent c =>
    if s.kernel.current c = w.parent then
      (waitStep w c s.kernel s.wait).map fun r => { s with kernel := r.1, wait := r.2 }
    else none
  | .child c =>
    if s.kernel.current c = w.child then
      (exitStep w c s.kernel s.exit).map fun r => { s with kernel := r.1, exit := r.2 }
    else none
  | .other l =>
    if Called w.idle s.kernel l ∧ Aside w s.kernel l then
      (exec w.idle s.kernel l).map fun σ => { s with kernel := σ }
    else none

/-! ## The two properties -/

namespace WaitPc

/-- Between the `T_SLEEPING` store and the end of `schedule`. -/
def asleep : WaitPc N → Bool
  | .sleepUntil => true
  | .remove => true
  | .schedule => true
  | _ => false

/-- Between the scan and the end of `schedule`. -/
def inWindow : WaitPc N → Bool
  | .sleeping => true
  | pc => pc.asleep

/-- The child that is being reaped. -/
def reaps : WaitPc N → Option (Fin N)
  | .destroy t => some t
  | .freeStack t => some t
  | .freeSlot t => some t
  | _ => none

end WaitPc

namespace ExitPc

/-- The `T_ZOMBIE` store was made. -/
def pastZombie : ExitPc → Bool
  | .signal => false
  | .zombie => false
  | _ => true

/-- The test of the parent's state was made. -/
def pastTest : ExitPc → Bool
  | .wake => true
  | .add => true
  | .schedule => true
  | .done => true
  | _ => false

/-- The child is about to wake its parent. -/
def wakes : ExitPc → Bool
  | .wake => true
  | .add => true
  | _ => false

end ExitPc

/-- The parent runs nowhere, is on no queue, and no step of the child is
left that wakes it. -/
def Parked (s : State n N) : Prop :=
  (∀ c, s.kernel.current c ≠ w.parent) ∧ s.kernel.rqCpu w.parent = none ∧ s.exit.wakes = false

/-- The child is a zombie, has made its test, and its parent is parked. -/
def LostWakeup (s : State n N) : Prop :=
  s.exit.pastTest = true ∧ s.kernel.state w.child = .zombie ∧ Parked w s

/-- The parent frees what belongs to the child, and the child runs. -/
def ReapsRunning (s : State n N) : Prop :=
  s.wait.reaps = some w.child ∧ ∃ c, s.kernel.current c = w.child

instance (s : State n N) : Decidable (Parked w s) := inferInstanceAs (Decidable (_ ∧ _))
instance (s : State n N) : Decidable (LostWakeup w s) := inferInstanceAs (Decidable (_ ∧ _))
instance (s : State n N) : Decidable (ReapsRunning w s) := inferInstanceAs (Decidable (_ ∧ _))

/-- The task runs on the CPU `c` and nowhere else, and is on no queue. -/
structure OnCpu (t : Fin N) (c : Fin n) (σ : Kernel n N) : Prop where
  rqCpu : σ.rqCpu t = none
  current : ∀ d, σ.current d = t ↔ d = c

/-- The two calls begin: parent and child run, each on one CPU, in a
kernel whose run queues are in order, and the call of `sys_waitpid` asks
for the child. -/
structure Started (s : State n N) : Prop where
  queues : ∃ q, Inv w.idle s.kernel q
  parentRuns : ∃ c, OnCpu w.parent c s.kernel
  parentState : s.kernel.state w.parent = .running
  childRuns : ∃ c, OnCpu w.child c s.kernel
  childState : s.kernel.state w.child = .running
  parent : s.kernel.parent w.child = some w.parent
  pid : s.kernel.pid w.parent ≠ 0
  covers : w.wpid = none ∨ w.wpid = some (s.kernel.pid w.child)
  wait : s.wait = .scan
  exit : s.exit = .signal

/-- **The wake-up is timely**: the child does not signal its parent between
the parent's `T_SLEEPING` store and the end of its `schedule`, and does not
test the parent's state between the parent's scan and the end of its
`schedule`. -/
def Timely (s : State n N) : Move n N → Prop
  | .child _ => (s.exit = .signal → s.wait.asleep = false) ∧ (s.exit = .test → s.wait.inWindow = false)
  | _ => True

/-- **The scan is late**: the parent does not scan while the child is
between its `T_ZOMBIE` store and the end of its `schedule`. -/
def ScansLate (s : State n N) : Move n N → Prop
  | .parent _ => s.wait = .scan → s.exit.pastZombie = true → s.exit = .done
  | _ => True

instance (s : State n N) : ∀ m, Decidable (Timely s m)
  | .child _ => inferInstanceAs (Decidable (_ ∧ _))
  | .parent _ => isTrue trivial
  | .other _ => isTrue trivial

instance (s : State n N) : ∀ m, Decidable (ScansLate s m)
  | .parent _ => inferInstanceAs (Decidable (_ → _ → _))
  | .child _ => isTrue trivial
  | .other _ => isTrue trivial

end Lnxrm.Process.WaitExit
