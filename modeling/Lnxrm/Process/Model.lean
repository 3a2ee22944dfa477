import Lnxrm.Common.Ring
import Lnxrm.Task
import Mathlib.Data.List.FinRange

/-!
# Processes — the task table, the run queues and their operations

The model of `kernel/sched.c` and of `sys_fork`, `sys_exit` and
`sys_waitpid` in `kernel/task.c`, with `send_signal` of `kernel/signal.c`
and the wake-ups of `kernel/isr.c`, as operations on one kernel state.
Here each operation runs to its end; `Sched/Model.lean` has the single
steps of `schedule`.

The run queue of a CPU is the circular list of the source: `rq_next` links
run from the sentinel `runq_head` through tasks. A search that runs in a
circle does not return; an operation that contains one has no result.
A task is its slot in `task_table`, and slot `0` belongs to the idle task
of the first CPU.
-/

namespace Lnxrm.Process

open Function

/-- What a link may point at: a CPU's `runq_head`, or a task. -/
inductive Node (n N : ℕ) where
  | head (c : Fin n)
  | task (t : Fin N)
deriving DecidableEq

/-- The kernel's process state, for `n` CPUs that are up and `N` task
slots. -/
structure Kernel (n N : ℕ) where
  rqNext : Node n N → Option (Node n N)
  /-- `rq_cpu`, `none` for `-1` -/
  rqCpu : Fin N → Option (Fin n)
  state : Fin N → TaskState
  /-- `_current` of each CPU -/
  current : Fin n → Fin N
  pid : Fin N → BitVec 32
  parent : Fin N → Option (Fin N)
  exitCode : Fin N → Int
  sleepUntil : Fin N → BitVec 64
  /-- `sa[sig].sa_handler == SIG_IGN` -/
  ignores : Fin N → ℕ → Bool
  pidCounter : BitVec 32

variable {n N : ℕ} (idle : Fin n → Fin N)

def Kernel.setState (σ : Kernel n N) (t : Fin N) (st : TaskState) : Kernel n N :=
  { σ with state := update σ.state t st }

/-! ## Run queues -/

/-- `pick_next` -/
def pickNext (σ : Kernel n N) (c : Fin n) : Option (Fin N) :=
  match σ.rqNext (.head c) with
  | some (.task t) => some t
  | _ => none

/-- `preferred_cpu`, called on the CPU `self` -/
def preferredCpu (σ : Kernel n N) (self : Fin n) : Fin n :=
  ((List.finRange n).find? fun c => σ.current c = idle c).getD self

/-- `runqueue_add` -/
def runqueueAdd (σ : Kernel n N) (self : Fin n) (t : Fin N) : Kernel n N :=
  if σ.rqCpu t ≠ none then σ
  else
    let cpu := preferredCpu idle σ self
    { σ with
      rqCpu := update σ.rqCpu t (some cpu)
      rqNext := update (update σ.rqNext (.task t) (σ.rqNext (.head cpu)))
        (.head cpu) (some (.task t)) }

/-- The part of `runqueue_remove` for a task that says it is queued. No
queue has more than `N` tasks. -/
def unlink (σ : Kernel n N) (owner : Fin n) (t : Fin N) : Option (Kernel n N) :=
  (findPrev σ.rqNext (.head owner) (.task t) (N + 1) (.head owner)).map fun p =>
    if σ.rqNext p = some (.task t) then
      { σ with rqNext := update σ.rqNext p (σ.rqNext (.task t)) }
    else σ

/-- The end of `runqueue_remove` -/
def Kernel.offQueue (σ : Kernel n N) (t : Fin N) : Kernel n N :=
  { σ with
    rqNext := update σ.rqNext (.task t) none
    rqCpu := update σ.rqCpu t none }

/-- `runqueue_remove` -/
def runqueueRemove (σ : Kernel n N) (t : Fin N) : Option (Kernel n N) :=
  match σ.rqCpu t with
  | none => some (σ.offQueue t)
  | some owner => (unlink σ owner t).map fun σ => σ.offQueue t

/-! ## Scheduling -/

/-- `switch_to` -/
def switchTo (σ : Kernel n N) (c : Fin n) (next : Fin N) : Kernel n N :=
  { σ.setState next .running with current := update σ.current c next }

/-- The end of `schedule`, with the task to switch to. -/
def switchAway (σ : Kernel n N) (c : Fin n) (next : Fin N) : Option (Kernel n N) :=
  let cur := σ.current c
  let σ :=
    if σ.state cur = .running ∧ σ.pid cur ≠ 0 then
      runqueueAdd idle (σ.setState cur .runnable) c cur
    else σ
  (runqueueRemove σ next).map fun σ => switchTo σ c next

/-- `schedule` on the CPU `c` -/
def schedule (σ : Kernel n N) (c : Fin n) : Option (Kernel n N) :=
  let cur := σ.current c
  match pickNext σ c with
  | none =>
    if σ.state cur = .running ∨ σ.state cur = .runnable then some σ
    else if idle c = cur then some σ
    else switchAway idle σ c (idle c)
  | some next =>
    if next = cur then
      if σ.rqCpu cur ≠ none then runqueueRemove σ cur else some σ
    else switchAway idle σ c next

/-- A task that sleeps is woken: `state = T_RUNNABLE` and `runqueue_add`,
called on the CPU `c`. -/
def wake (σ : Kernel n N) (c : Fin n) (t : Fin N) : Kernel n N :=
  runqueueAdd idle (σ.setState t .runnable) c t

/-- `input_push` and `keyq_push` for the task that waits -/
def inputPush (σ : Kernel n N) (c : Fin n) (w : Fin N) : Kernel n N :=
  if σ.state w = .sleeping then wake idle σ c w else σ

/-- The loop of `sched_tick` over the slots `ts`. -/
def tickFrom (jiffies : BitVec 64) (c : Fin n) : List (Fin N) → Kernel n N → Kernel n N
  | [], σ => σ
  | t :: ts, σ =>
    tickFrom jiffies c ts
      (if σ.state t = .sleeping ∧ σ.sleepUntil t ≤ jiffies then wake idle σ c t else σ)

/-- `sched_tick` on the CPU `c`: slot `0` is left out. -/
def schedTick (σ : Kernel n N) (c : Fin n) (jiffies : BitVec 64) : Kernel n N :=
  tickFrom idle jiffies c ((List.finRange N).filter fun t => t.val ≠ 0) σ

/-! ## Signals -/

/-- `SIGKILL` -/
def sigkill : ℕ := 9
/-- `SIGCHLD` -/
def sigchld : ℕ := 17
/-- `SIGCONT` -/
def sigcont : ℕ := 18
/-- `SIGSTOP` -/
def sigstop : ℕ := 19
/-- `_NSIG` -/
def nsig : ℕ := 32

/-- `send_signal` to the task `t`, called on the CPU `c`. The pending bit
is not part of this model. -/
def sendSignal (σ : Kernel n N) (c : Fin n) (t : Fin N) (sig : ℕ) : Kernel n N :=
  if sig < 1 ∨ nsig ≤ sig then σ
  else if sig = sigkill ∨ sig = sigstop then
    if σ.state t = .sleeping then wake idle σ c t else σ
  else if sig = sigcont then
    if σ.state t = .stopped ∨ σ.state t = .sleeping then wake idle σ c t else σ
  else if σ.ignores t sig then σ
  else if σ.state t = .sleeping then wake idle σ c t
  else σ

/-! ## Slots -/

/-- The slot `task_alloc_slot` takes: the first unused one, but for slot `0`. -/
def firstUnused (σ : Kernel n N) : Option (Fin N) :=
  (List.finRange N).find? fun t => t.val ≠ 0 ∧ σ.state t = .unused

/-- What `task_alloc_slot` stores in the slot. -/
def Kernel.claim (σ : Kernel n N) (t : Fin N) : Kernel n N :=
  { (σ.setState t .embryo) with
    rqCpu := update σ.rqCpu t none
    rqNext := update σ.rqNext (.task t) none }

/-- `task_alloc_slot` -/
def taskAllocSlot (σ : Kernel n N) : Option (Fin N × Kernel n N) :=
  (firstUnused σ).map fun t => (t, σ.claim t)

/-- The end of `task_free_slot` -/
def Kernel.release (σ : Kernel n N) (t : Fin N) : Kernel n N :=
  { (σ.setState t .unused) with
    rqCpu := update σ.rqCpu t none
    rqNext := update σ.rqNext (.task t) none }

/-- `task_free_slot` -/
def taskFreeSlot (σ : Kernel n N) (t : Fin N) : Option (Kernel n N) :=
  (if σ.rqCpu t ≠ none then runqueueRemove σ t else some σ).map fun σ => σ.release t

/-- `find_task` -/
def findTask (σ : Kernel n N) (pid : BitVec 32) : Option (Fin N) :=
  (List.finRange N).find? fun t => σ.state t ≠ .unused ∧ σ.pid t = pid

/-! ## Fork, exit, wait -/

/-- What `sys_fork` stores in the child before its address space is
copied: the next pid, the parent and the state. -/
def Kernel.embryo (σ : Kernel n N) (ch cur : Fin N) : Kernel n N :=
  { (σ.setState ch .embryo) with
    pidCounter := σ.pidCounter + 1
    pid := update σ.pid ch (σ.pidCounter + 1)
    parent := update σ.parent ch (some cur) }

/-- What it stores at the end: the child inherits the handlers and becomes
runnable. -/
def Kernel.ready (σ : Kernel n N) (ch cur : Fin N) : Kernel n N :=
  { (σ.setState ch .runnable) with
    ignores := update σ.ignores ch (σ.ignores cur)
    rqCpu := update σ.rqCpu ch none
    rqNext := update σ.rqNext (.task ch) none }

/-- `sys_fork` on the CPU `c`; `copied` says whether `dup_user_aspace`
succeeds. The result is the child's slot, if there is one. -/
def sysFork (σ : Kernel n N) (c : Fin n) (copied : Bool) : Option (Option (Fin N) × Kernel n N) :=
  match taskAllocSlot σ with
  | none => some (none, σ)
  | some (ch, σ) =>
    let cur := σ.current c
    let σ := σ.embryo ch cur
    if copied then some (some ch, runqueueAdd idle (σ.ready ch cur) c ch)
    else (taskFreeSlot σ ch).map fun σ => (none, σ)

/-- The loop of `sys_exit` that hands the children of `cur` to `init_t`. -/
def reparent (σ : Kernel n N) (cur : Fin N) : Kernel n N :=
  let initT := findTask σ 1
  { σ with
    parent := fun t =>
      if σ.state t ≠ .unused ∧ t ≠ cur ∧ σ.parent t = some cur then initT else σ.parent t }

/-- `exit_code` and `T_ZOMBIE` -/
def Kernel.zombie (σ : Kernel n N) (t : Fin N) (code : Int) : Kernel n N :=
  { (σ.setState t .zombie) with exitCode := update σ.exitCode t code }

/-- The `SIGCHLD` of `sys_exit`, if there is a parent. -/
def signalParent (σ : Kernel n N) (c : Fin n) (cur : Fin N) : Kernel n N :=
  match σ.parent cur with
  | none => σ
  | some p => sendSignal idle σ c p sigchld

/-- The wake-up of `sys_exit`, if there is a parent and it sleeps. -/
def wakeParent (σ : Kernel n N) (c : Fin n) (cur : Fin N) : Kernel n N :=
  match σ.parent cur with
  | none => σ
  | some p => if σ.state p = .sleeping ∧ σ.pid p ≠ 0 then wake idle σ c p else σ

/-- `sys_exit` on the CPU `c` -/
def sysExit (σ : Kernel n N) (c : Fin n) (code : Int) : Option (Kernel n N) :=
  let cur := σ.current c
  let σ := signalParent idle (reparent σ cur) c cur
  (runqueueRemove (σ.zombie cur code) cur).bind fun σ => schedule idle (wakeParent idle σ c cur) c

/-- The children `sys_waitpid` looks at. -/
def isChild (σ : Kernel n N) (cur t : Fin N) : Bool :=
  σ.state t ≠ .unused && t ≠ cur && σ.parent t = some cur

/-- The child that the scan of `sys_waitpid` reaps; `wpid` is `none` for an
argument that is not positive. -/
def findZombie (σ : Kernel n N) (cur : Fin N) (wpid : Option (BitVec 32)) : Option (Fin N) :=
  (List.finRange N).find? fun t =>
    isChild σ cur t && (wpid == none || wpid == some (σ.pid t)) && σ.state t = .zombie

/-- What a call of `sys_waitpid` comes to: the child it returned, with its
exit code, one of its other results, or the caller asleep. -/
inductive Waited (N : ℕ) where
  | reaped (child : Fin N) (code : Int)
  | noChild
  | nothing
  | asleep
deriving DecidableEq

/-- The state stores in front of the call of `schedule` in `sys_waitpid` -/
def Kernel.fallAsleep (σ : Kernel n N) (cur : Fin N) : Kernel n N :=
  { (σ.setState cur .sleeping) with sleepUntil := update σ.sleepUntil cur (BitVec.allOnes 64) }

/-- One turn of the loop of `sys_waitpid` on the CPU `c`; a caller that was
put to sleep takes another one when it runs again. -/
def sysWaitpid (σ : Kernel n N) (c : Fin n) (wpid : Option (BitVec 32)) (nohang : Bool) :
    Option (Waited N × Kernel n N) :=
  let cur := σ.current c
  match findZombie σ cur wpid with
  | some t => (taskFreeSlot σ t).map fun σ' => (.reaped t (σ.exitCode t), σ')
  | none =>
    if (List.finRange N).all fun t => !isChild σ cur t then some (.noChild, σ)
    else if nohang then some (.nothing, σ)
    else
      (runqueueRemove (σ.fallAsleep cur) cur).bind fun σ =>
        (schedule idle σ c).map fun σ => (.asleep, σ)

/-- `kernel_spawn` on the CPU `c`; `loaded` says whether the program could
be loaded. The parent is left as it is in the slot. -/
def kernelSpawn (σ : Kernel n N) (c : Fin n) (loaded : Bool) :
    Option (Option (Fin N) × Kernel n N) :=
  match taskAllocSlot σ with
  | none => some (none, σ)
  | some (t, σ) =>
    let σ := { σ with
      pidCounter := σ.pidCounter + 1
      pid := update σ.pid t (σ.pidCounter + 1) }
    if loaded then some (some t, runqueueAdd idle (σ.ready t t) c t)
    else (taskFreeSlot σ t).map fun σ => (none, σ)

/-! ## Boot -/

/-- After `sched_init` and the start of the CPUs: every CPU runs its idle
task, nothing is queued, and every other slot is unused. -/
def boot : Kernel n N where
  rqNext
    | .head c => some (.head c)
    | .task _ => none
  rqCpu _ := none
  state t := if (List.finRange n).any fun c => idle c = t then .running else .unused
  current := idle
  pid _ := 0
  parent _ := none
  exitCode _ := 0
  sleepUntil _ := 0
  ignores _ _ := false
  pidCounter := 0

end Lnxrm.Process
