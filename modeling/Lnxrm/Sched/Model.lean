import Lnxrm.Task
import Lnxrm.Common.Run
import Mathlib.Data.List.FinRange

/-!
# The scheduler — interleaved steps of the CPUs that are up

The model of `schedule`, `pick_next`, `runqueue_add`, `runqueue_remove`,
`preferred_cpu` and `switch_to` of `kernel/sched.c`, with `swtch` of
`arch/entry64.S`. One step of a CPU is one `runq_lock` section or one
load or store of shared data outside it; the CPUs' steps interleave in any
order. A CPU's place inside these functions is its `Pc`, with the local
variables that are live there.

The run queue of a CPU is the list of its tasks, head first. Outside the
scheduler a CPU runs code that may store any task's `state`, call
`runqueue_add` for any task that is not an idle task, call
`runqueue_remove` for its current task, and call `schedule`; that covers
wake-ups, `fork`, sleeping, `exit` and preemption.
-/

namespace Lnxrm.Sched

open Function

/-- Where a CPU is. -/
inductive Pc (T : Type) where
  /-- running its current task's own code -/
  | out
  /-- in `runqueue_add(t)`, called from that code -/
  | adding (t : T)
  /-- in `runqueue_remove(current)`, called from that code -/
  | removing
  /-- in `schedule`, before `pick_next` -/
  | pick
  /-- `pick_next` returned; the branches on `next` come next -/
  | picked (next : Option T)
  /-- `next` is not `current`: before the test whether `current` is requeued -/
  | check (next : T)
  /-- before `current->state = T_RUNNABLE` -/
  | requeue (next : T)
  /-- before `runqueue_add(current)` -/
  | enqueue (next : T)
  /-- before `runqueue_remove(next)` -/
  | dequeue (next : T)
  /-- in `switch_to`, before `next->state = T_RUNNING` -/
  | setRunning (next : T)
  /-- before `_current = next` -/
  | publish (next : T)
  /-- in `swtch`, before the outgoing stack pointer is saved -/
  | save (prev next : T)
  /-- in `swtch`, before the incoming stack pointer is loaded -/
  | load (next : T)
deriving DecidableEq

/-- The scheduler's shared data, and where each CPU is. `saved t` says that
`t->ctx` holds the context `t` is to be resumed with. -/
structure State (n : ℕ) (T : Type) where
  current : Fin n → T
  queue : Fin n → List T
  pc : Fin n → Pc T
  state : T → TaskState
  rqCpu : T → Option (Fin n)
  saved : T → Bool

variable {n : ℕ} {T : Type} [DecidableEq T]

def State.setPc (σ : State n T) (c : Fin n) (p : Pc T) : State n T :=
  { σ with pc := update σ.pc c p }

def State.setState (σ : State n T) (t : T) (st : TaskState) : State n T :=
  { σ with state := update σ.state t st }

variable (idle : Fin n → T)

/-- `t->pid == 0` -/
def isIdle (t : T) : Bool := (List.finRange n).any fun c => idle c == t

/-- `preferred_cpu`, called on the CPU `self` -/
def preferredCpu (σ : State n T) (self : Fin n) : Fin n :=
  ((List.finRange n).find? fun c => σ.current c == idle c).getD self

/-- The lock section of `runqueue_add` -/
def runqueueAdd (σ : State n T) (self : Fin n) (t : T) : State n T :=
  match σ.rqCpu t with
  | some _ => σ
  | none =>
    let cpu := preferredCpu idle σ self
    { σ with
      rqCpu := update σ.rqCpu t (some cpu)
      queue := update σ.queue cpu (t :: σ.queue cpu) }

/-- The lock section of `runqueue_remove` -/
def runqueueRemove (σ : State n T) (t : T) : State n T :=
  match σ.rqCpu t with
  | none => σ
  | some owner =>
    { σ with
      rqCpu := update σ.rqCpu t none
      queue := update σ.queue owner ((σ.queue owner).erase t) }

/-- The next step of the CPU `c` inside the scheduler. -/
def advance (σ : State n T) (c : Fin n) : State n T :=
  let current := σ.current c
  match σ.pc c with
  | .out => σ
  | .adding t => (runqueueAdd idle σ c t).setPc c .out
  | .removing => (runqueueRemove σ current).setPc c .out
  | .pick => σ.setPc c (.picked (σ.queue c).head?)
  | .picked none =>
    if σ.state current = .running ∨ σ.state current = .runnable then σ.setPc c .out
    else if idle c = current then σ.setPc c .out
    else σ.setPc c (.check (idle c))
  | .picked (some next) =>
    if next = current then
      if σ.rqCpu current = none then σ.setPc c .out else σ.setPc c .removing
    else σ.setPc c (.check next)
  | .check next =>
    if σ.state current = .running ∧ isIdle idle current = false then σ.setPc c (.requeue next)
    else σ.setPc c (.dequeue next)
  | .requeue next => (σ.setState current .runnable).setPc c (.enqueue next)
  | .enqueue next => (runqueueAdd idle σ c current).setPc c (.dequeue next)
  | .dequeue next => (runqueueRemove σ next).setPc c (.setRunning next)
  | .setRunning next => (σ.setState next .running).setPc c (.publish next)
  | .publish next =>
    { σ.setPc c (.save current next) with current := update σ.current c next }
  | .save prev next => { σ.setPc c (.load next) with saved := update σ.saved prev true }
  | .load next => { σ.setPc c .out with saved := update σ.saved next false }

/-- What a CPU may do next. -/
inductive Act (T : Type) where
  /-- its next step inside the scheduler -/
  | advance
  /-- outside: store a task's state -/
  | store (t : T) (st : TaskState)
  /-- outside: call `runqueue_add(t)` -/
  | callAdd (t : T)
  /-- outside: call `runqueue_remove(current)` -/
  | callRemove
  /-- outside: call `schedule()` -/
  | callSchedule

/-- One step of the CPU `l.1`. -/
def step (σ : State n T) (l : Fin n × Act T) : Option (State n T) :=
  match l.2 with
  | .advance => if σ.pc l.1 = .out then none else some (advance idle σ l.1)
  | .store t st => if σ.pc l.1 = .out then some (σ.setState t st) else none
  | .callAdd t =>
    if σ.pc l.1 = .out ∧ isIdle idle t = false then some (σ.setPc l.1 (.adding t)) else none
  | .callRemove => if σ.pc l.1 = .out then some (σ.setPc l.1 .removing) else none
  | .callSchedule => if σ.pc l.1 = .out then some (σ.setPc l.1 .pick) else none

/-- After boot: every CPU runs its idle task, nothing is queued, and the
contexts of the other tasks are the ones their creators prepared. -/
def boot (state : T → TaskState) : State n T where
  current := idle
  queue := fun _ => []
  pc := fun _ => .out
  state := state
  rqCpu := fun _ => none
  saved := fun t => !isIdle idle t

/-- The task a CPU has already taken off the queues and is switching to. -/
def Pc.incoming : Pc T → Option T
  | .setRunning next | .publish next | .save _ next | .load next => some next
  | _ => none

/-- The task a CPU is switching away from and whose context it has not
saved yet, though it is not `_current` any more. -/
def Pc.outgoing : Pc T → Option T
  | .save prev _ => some prev
  | _ => none

/-- **A task runs on at most one CPU**: no task that is not idle is
`_current` of two CPUs, and a CPU switches only to a task whose context is
saved. -/
def AtMostOneCpu (σ : State n T) : Prop :=
  (∀ c d, isIdle idle (σ.current c) = false → σ.current c = σ.current d → c = d) ∧
    ∀ c t, (σ.pc c).incoming = some t → σ.saved t = true

end Lnxrm.Sched
