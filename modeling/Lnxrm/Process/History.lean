import Lnxrm.Process.Model
import Lnxrm.Common.Run

/-!
# Histories of processes

`sys_fork`, `sys_exit` and `sys_waitpid` over a recycled table of slots,
after `kernel_spawn` of `init`, with the scheduler at work in between.
A history keeps, beside the kernel, what the slots do not tell: which
process a slot holds, who the parent of a process is meant to be, and which
processes have exited and been returned.
-/

namespace Lnxrm.Process

/-- What happens to the processes, which are numbered as they are created. -/
inductive Event where
  | exited (x : ℕ) (code : Int)
  /-- `x` is returned to the process `waiter`, while `parent` is its parent -/
  | returned (x : ℕ) (code : Int) (waiter : ℕ) (parent : Option ℕ)

/-- The codes that the process passed to `sys_exit`. -/
def exits (x : ℕ) : List Event → List Int
  | [] => []
  | .exited y code :: log => if y = x then code :: exits x log else exits x log
  | .returned .. :: log => exits x log

/-- The codes that `sys_waitpid` returned for the process. -/
def returns (x : ℕ) : List Event → List Int
  | [] => []
  | .exited .. :: log => returns x log
  | .returned y code _ _ :: log => if y = x then code :: returns x log else returns x log

structure History (n N : ℕ) where
  kernel : Kernel n N
  /-- the process in a slot -/
  ident : Fin N → ℕ
  /-- how many processes were created -/
  created : ℕ
  /-- the parent of a process -/
  parentOf : ℕ → Option ℕ
  /-- the latest event first -/
  log : List Event

/-- A call of the task that runs on a CPU, or the scheduler at work. -/
inductive Act (N : ℕ) where
  | fork (copied : Bool)
  | exit (code : Int)
  | wait (wpid : Option (BitVec 32)) (nohang : Bool)
  | schedule
  | tick (jiffies : BitVec 64)
  | signal (t : Fin N) (sig : ℕ)
  | push (waiter : Fin N)
deriving DecidableEq

variable {n N : ℕ} (idle : Fin n → Fin N)

/-- The new process `ch`, if there is one, is a child of the caller. -/
def History.forked (h : History n N) (c : Fin n) (r : Option (Fin N) × Kernel n N) : History n N :=
  match r.1 with
  | none => { h with kernel := r.2 }
  | some ch =>
    { h with
      kernel := r.2
      ident := Function.update h.ident ch h.created
      created := h.created + 1
      parentOf := Function.update h.parentOf h.created (some (h.ident (h.kernel.current c))) }

/-- The children of the caller are meant to belong to the first process. -/
def History.exited (h : History n N) (c : Fin n) (code : Int) (σ : Kernel n N) : History n N :=
  { h with
    kernel := σ
    parentOf := fun x =>
      if h.parentOf x = some (h.ident (h.kernel.current c)) then some 0 else h.parentOf x
    log := .exited (h.ident (h.kernel.current c)) code :: h.log }

def History.waited (h : History n N) (c : Fin n) (r : Waited N × Kernel n N) : History n N :=
  match r.1 with
  | .reaped t code =>
    { h with
      kernel := r.2
      log := .returned (h.ident t) code (h.ident (h.kernel.current c)) (h.parentOf (h.ident t)) ::
        h.log }
  | _ => { h with kernel := r.2 }

/-- One operation, on the CPU `c`. -/
def advance (h : History n N) : Fin n × Act N → Option (History n N)
  | (c, .fork copied) => (sysFork idle h.kernel c copied).map (h.forked c)
  | (c, .exit code) => (sysExit idle h.kernel c code).map (h.exited c code)
  | (c, .wait wpid nohang) => (sysWaitpid idle h.kernel c wpid nohang).map (h.waited c)
  | (c, .schedule) => (schedule idle h.kernel c).map fun σ => { h with kernel := σ }
  | (c, .tick jiffies) => some { h with kernel := schedTick idle h.kernel c jiffies }
  | (c, .signal t sig) => some { h with kernel := sendSignal idle h.kernel c t sig }
  | (c, .push t) => some { h with kernel := inputPush idle h.kernel c t }

/-- Idle tasks make no system calls. -/
def Calls (h : History n N) : Fin n × Act N → Prop
  | (c, .fork _) => ∀ d, idle d ≠ h.kernel.current c
  | (c, .exit _) => ∀ d, idle d ≠ h.kernel.current c
  | (c, .wait _ _) => ∀ d, idle d ≠ h.kernel.current c
  | _ => True

instance (h : History n N) : ∀ l, Decidable (Calls idle h l)
  | (_, .fork _) => inferInstanceAs (Decidable (∀ _, _))
  | (_, .exit _) => inferInstanceAs (Decidable (∀ _, _))
  | (_, .wait _ _) => inferInstanceAs (Decidable (∀ _, _))
  | (_, .schedule) => isTrue trivial
  | (_, .tick _) => isTrue trivial
  | (_, .signal _ _) => isTrue trivial
  | (_, .push _) => isTrue trivial

/-- `init` is the first process, and has no parent. -/
def History.start (σ : Kernel n N) : History n N where
  kernel := σ
  ident _ := 0
  created := 1
  parentOf _ := none
  log := []

/-! ## What is expected of a history -/

/-- A parent pointer of a used slot designates a used slot, and the process
there is the parent that is meant. -/
def ParentsUsed (h : History n N) : Prop :=
  ∀ t p, h.kernel.state t ≠ .unused → h.kernel.parent t = some p →
    h.kernel.state p ≠ .unused ∧ h.parentOf (h.ident t) = some (h.ident p)

/-- A process is returned at most once, after it has exited, with the code
of its exit, and to its parent. -/
def ReturnedOnce (h : History n N) : Prop :=
  ∀ x, (returns x h.log).length ≤ 1 ∧ (∀ code ∈ returns x h.log, exits x h.log = [code]) ∧
    ∀ code waiter parent, Event.returned x code waiter parent ∈ h.log → parent = some waiter

/-- A used slot becomes unused only when `sys_waitpid` returns its task, a
zombie, to the parent. -/
def FreedByReaping (h : History n N) : Prop :=
  ∀ l h', Calls idle h l → advance idle h l = some h' →
    ∀ t, h.kernel.state t ≠ .unused → h'.kernel.state t = .unused →
      ∃ c wpid nohang, l = (c, .wait wpid nohang) ∧ h.kernel.state t = .zombie ∧
        h.kernel.parent t = some (h.kernel.current c) ∧
        h'.log = .returned (h.ident t) (h.kernel.exitCode t) (h.ident (h.kernel.current c))
          (h.parentOf (h.ident t)) :: h.log

end Lnxrm.Process
