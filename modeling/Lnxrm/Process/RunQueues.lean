import Lnxrm.Common.Run
import Lnxrm.Process.Helpers.Queues

/-!
# The run queues keep their structure

Every operation of the kernel that queues or dequeues a task, on any CPU
and in any order, leaves each CPU's queue a cycle through distinct tasks,
with `rq_cpu` telling for each task which queue it is on; no idle task and
no unused slot is ever queued, and `runqueue_remove` returns
(`runQueues_of_run`). Idle tasks stay off the queues because they are
always `T_RUNNING` with pid `0`: what wakes a task tests for another
state, and `schedule` requeues no task with pid `0`.
-/

namespace Lnxrm.Process

open Function

variable {n N : ℕ} {idle : Fin n → Fin N} {σ : Kernel n N} {q : Fin n → List (Fin N)}
  {c : Fin n} {t : Fin N}

/-- **The structure of the run queues**: they are in order, and hold
neither idle tasks nor unused slots. -/
structure RunQueues (idle : Fin n → Fin N) (σ : Kernel n N) (q : Fin n → List (Fin N)) : Prop
    extends Queues σ q where
  noIdle : ∀ c d, idle d ∉ q c
  inUse : ∀ c, ∀ t ∈ q c, σ.state t ≠ .unused

/-- What the operations keep: an idle task is always running, and has
pid 0. -/
structure Inv (idle : Fin n → Fin N) (σ : Kernel n N) (q : Fin n → List (Fin N)) : Prop
    extends RunQueues idle σ q where
  idleRuns : ∀ c, σ.state (idle c) = .running
  idlePid : ∀ c, σ.pid (idle c) = 0

theorem sendSignal_eq (idle : Fin n → Fin N) (σ : Kernel n N) (c : Fin n) (t : Fin N) (sig : ℕ) :
    sendSignal idle σ c t sig = σ ∨ (σ.state t = .sleeping ∨ σ.state t = .stopped) ∧
        sendSignal idle σ c t sig = wake idle σ c t := by
  unfold sendSignal
  split_ifs <;> simp_all
  tauto

namespace Inv

theorem setPid (h : Inv idle σ q) {σ' : Kernel n N} (hpid : ∀ c, σ'.pid (idle c) = 0)
    (hnext : σ'.rqNext = σ.rqNext) (hcpu : σ'.rqCpu = σ.rqCpu) (hstate : σ'.state = σ.state) :
    Inv idle σ' q where
  toQueues := h.toQueues.congr hnext hcpu
  noIdle := h.noIdle
  inUse c t ht := hstate ▸ h.inUse c t ht
  idleRuns c := hstate ▸ h.idleRuns c
  idlePid := hpid

theorem congr {σ' : Kernel n N} (h : Inv idle σ q) (hnext : σ'.rqNext = σ.rqNext)
    (hcpu : σ'.rqCpu = σ.rqCpu) (hstate : σ'.state = σ.state) (hpid : σ'.pid = σ.pid) :
    Inv idle σ' q :=
  h.setPid (fun c => hpid ▸ h.idlePid c) hnext hcpu hstate

theorem setState (h : Inv idle σ q) (st : TaskState) (hst : st ≠ .unused)
    (ht : (∀ c, idle c ≠ t) ∨ st = .running) : Inv idle (σ.setState t st) q where
  toQueues := h.toQueues.congr rfl rfl
  noIdle := h.noIdle
  inUse c x hx := by
    show update σ.state t st x ≠ .unused
    by_cases e : x = t
    · rwa [e, update_self]
    · rw [update_of_ne e]
      exact h.inUse c x hx
  idleRuns c := by
    show update σ.state t st (idle c) = .running
    by_cases e : idle c = t
    · rcases ht with hne | rfl
      · exact absurd e (hne c)
      · rw [e, update_self]
    · rw [update_of_ne e]
      exact h.idleRuns c
  idlePid := h.idlePid

theorem add (h : Inv idle σ q) (ht : ∀ c, idle c ≠ t) (hu : σ.state t ≠ .unused) (self : Fin n) :
    ∃ q', Inv idle (runqueueAdd idle σ self t) q' := by
  by_cases hrq : σ.rqCpu t = none
  · have hq := h.toQueues.add idle hrq self
    have hfields : (runqueueAdd idle σ self t).state = σ.state ∧
        (runqueueAdd idle σ self t).pid = σ.pid := by
      unfold runqueueAdd
      rw [if_neg (by simp [hrq])]
      exact ⟨rfl, rfl⟩
    generalize preferredCpu idle σ self = cpu at hq
    have hmem : ∀ c x, x ∈ update q cpu (t :: q cpu) c → x = t ∨ x ∈ q c := by
      intro c x hx
      by_cases hc : c = cpu
      · subst hc
        simpa using hx
      · rw [update_of_ne hc] at hx
        exact Or.inr hx
    refine ⟨_, ⟨hq, fun c d hd => ?_, fun c x hx => ?_⟩, ?_, ?_⟩
    · rcases hmem c _ hd with e | hd
      · exact ht d e
      · exact h.noIdle c d hd
    · rw [hfields.1]
      rcases hmem c x hx with rfl | hx
      · exact hu
      · exact h.inUse c x hx
    · exact fun c => hfields.1 ▸ h.idleRuns c
    · exact fun c => hfields.2 ▸ h.idlePid c
  · refine ⟨q, ?_⟩
    unfold runqueueAdd
    rwa [if_pos hrq]

theorem remove (h : Inv idle σ q) (t : Fin N) : ∃ next', runqueueRemove σ t =
        some { σ with rqNext := next', rqCpu := update σ.rqCpu t none } ∧
      Inv idle { σ with rqNext := next', rqCpu := update σ.rqCpu t none }
        (fun c => (q c).erase t) := by
  obtain ⟨next', heq, hq⟩ := h.toQueues.remove t
  exact ⟨next', heq, ⟨hq, fun c d hd => h.noIdle c d (List.mem_of_mem_erase hd),
    fun c x hx => h.inUse c x (List.mem_of_mem_erase hx)⟩, h.idleRuns, h.idlePid⟩

/-! ## Scheduling -/

theorem wake (h : Inv idle σ q) (ht : ∀ c, idle c ≠ t) (self : Fin n) :
    ∃ q', Inv idle (wake idle σ self t) q' := by
  have hset : Inv idle (σ.setState t .runnable) q := h.setState .runnable (by simp) (Or.inl ht)
  exact hset.add ht (by simp [Kernel.setState]) self

theorem ne_idle (h : Inv idle σ q) (ht : σ.state t ≠ .running) (c : Fin n) : idle c ≠ t := by
  rintro rfl
  exact ht (h.idleRuns c)

theorem wake_of_state {st : TaskState} (h : Inv idle σ q) (ht : σ.state t = st)
    (hst : st ≠ .running) (self : Fin n) : ∃ q', Inv idle (Process.wake idle σ self t) q' :=
  h.wake (h.ne_idle (ht ▸ hst)) self

theorem switchAway (h : Inv idle σ q) (c : Fin n) (next : Fin N) :
    ∃ σ', switchAway idle σ c next = some σ' ∧ ∃ q', Inv idle σ' q' := by
  have hrequeue : ∃ q', Inv idle (if σ.state (σ.current c) = .running ∧ σ.pid (σ.current c) ≠ 0 then
      runqueueAdd idle (σ.setState (σ.current c) .runnable) c (σ.current c) else σ) q' := by
    split
    · rename_i hrun
      have hne : ∀ d, idle d ≠ σ.current c := fun d e => hrun.2 (e ▸ h.idlePid d)
      exact h.wake hne c
    · exact ⟨q, h⟩
  unfold Process.switchAway
  simp only
  generalize (if σ.state (σ.current c) = .running ∧ σ.pid (σ.current c) ≠ 0 then
    runqueueAdd idle (σ.setState (σ.current c) .runnable) c (σ.current c) else σ) = τ at hrequeue ⊢
  obtain ⟨q', h'⟩ := hrequeue
  obtain ⟨next', heq, h''⟩ := h'.remove next
  rw [heq]
  have hset := h''.setState (t := next) .running (by simp) (Or.inr rfl)
  exact ⟨_, rfl, _, hset.congr rfl rfl rfl rfl⟩

theorem schedule (h : Inv idle σ q) (c : Fin n) :
    ∃ σ', schedule idle σ c = some σ' ∧ ∃ q', Inv idle σ' q' := by
  unfold Process.schedule
  cases pickNext σ c with
  | none =>
    simp only
    split
    · exact ⟨σ, rfl, q, h⟩
    · split
      · exact ⟨σ, rfl, q, h⟩
      · exact h.switchAway c (idle c)
  | some next =>
    simp only
    split
    · split
      · obtain ⟨next', heq, h'⟩ := h.remove (σ.current c)
        exact ⟨_, heq, _, h'⟩
      · exact ⟨σ, rfl, q, h⟩
    · exact h.switchAway c next

theorem tickFrom (jiffies : BitVec 64) (c : Fin n) (ts : List (Fin N)) :
    ∀ {σ : Kernel n N} {q}, Inv idle σ q → ∃ q', Inv idle (tickFrom idle jiffies c ts σ) q' := by
  induction ts with
  | nil => exact fun h => ⟨_, h⟩
  | cons t ts ih =>
    intro σ q h
    rw [Process.tickFrom]
    split
    · rename_i hsleep
      obtain ⟨q', h'⟩ := h.wake_of_state hsleep.1 (by simp) c
      exact ih h'
    · exact ih h

theorem sendSignal (h : Inv idle σ q) (c : Fin n) (t : Fin N) (sig : ℕ) :
    ∃ q', Inv idle (sendSignal idle σ c t sig) q' := by
  rcases sendSignal_eq idle σ c t sig with e | ⟨hs | hs, e⟩
  · exact ⟨q, e.symm ▸ h⟩
  · rw [e]
    exact h.wake_of_state hs (by simp) c
  · rw [e]
    exact h.wake_of_state hs (by simp) c

/-! ## Slots -/

theorem clear (h : Inv idle σ q) (ht : σ.rqCpu t = none) : Inv idle (σ.offQueue t) q where
  toQueues := h.toQueues.clear ht
  noIdle := h.noIdle
  inUse := h.inUse
  idleRuns := h.idleRuns
  idlePid := h.idlePid

theorem rqCpu_of_unused (h : Inv idle σ q) (ht : σ.state t = .unused) : σ.rqCpu t = none := by
  cases hrq : σ.rqCpu t with
  | none => rfl
  | some c => exact absurd ht (h.inUse c t ((h.link c t).mpr hrq))

theorem claim (h : Inv idle σ q) (ht : σ.state t = .unused) : Inv idle (σ.claim t) q := by
  have hclear := h.clear (h.rqCpu_of_unused ht)
  exact (hclear.setState (t := t) .embryo (by simp)
    (Or.inl (h.ne_idle (by simp [ht])))).congr rfl rfl rfl rfl

theorem release (h : Inv idle σ q) (hne : ∀ c, idle c ≠ t) (ht : σ.rqCpu t = none) :
    Inv idle (σ.release t) q where
  toQueues := (h.toQueues.clear ht).congr rfl rfl
  noIdle := h.noIdle
  inUse c x hx := by
    have hxt : x ≠ t := fun e => h.not_mem ht c (e ▸ hx)
    show update σ.state t .unused x ≠ .unused
    rw [update_of_ne hxt]
    exact h.inUse c x hx
  idleRuns c := by
    show update σ.state t .unused (idle c) = .running
    rw [update_of_ne (hne c)]
    exact h.idleRuns c
  idlePid := h.idlePid

theorem freeSlot (h : Inv idle σ q) (hne : ∀ c, idle c ≠ t) :
    ∃ σ', taskFreeSlot σ t = some σ' ∧ ∃ q', Inv idle σ' q' := by
  unfold taskFreeSlot
  split
  · obtain ⟨next', heq, h'⟩ := h.remove t
    exact ⟨_, by rw [heq]; rfl, _, h'.release hne (update_self ..)⟩
  · rename_i hrq
    exact ⟨_, rfl, _, h.release hne (by simpa using hrq)⟩

theorem unused_of_firstUnused (ht : firstUnused σ = some t) : σ.state t = .unused := by
  have := List.find?_some ht
  simp only [Bool.decide_and, Bool.and_eq_true, decide_eq_true_eq] at this
  exact this.2

/-! ## Fork, exit, wait -/

theorem ready (h : Inv idle σ q) (cur : Fin N) (ht : σ.state t = .embryo)
    (hrq : σ.rqCpu t = none) (self : Fin n) : ∃ q', Inv idle (runqueueAdd idle (σ.ready t cur) self t) q' := by
  have hne := h.ne_idle (t := t) (by simp [ht])
  have hready : Inv idle (σ.ready t cur) q :=
    ((h.clear hrq).setState (t := t) .runnable (by simp) (Or.inl hne)).congr rfl rfl rfl rfl
  exact hready.add hne (by simp [Kernel.ready, Kernel.setState]) self

theorem embryo {p : BitVec 32} (h : Inv idle σ q) (ht : σ.state t = .embryo) (c : Fin n) :
    update σ.pid t p (idle c) = 0 := by
  rw [update_of_ne (h.ne_idle (by simp [ht]) c)]
  exact h.idlePid c

theorem fork (h : Inv idle σ q) (c : Fin n) (copied : Bool) :
    ∃ r, sysFork idle σ c copied = some r ∧ ∃ q', Inv idle r.2 q' := by
  unfold sysFork taskAllocSlot
  cases hfirst : firstUnused σ with
  | none => exact ⟨_, rfl, q, h⟩
  | some ch =>
    have hclaim := h.claim (unused_of_firstUnused hfirst)
    have hstate : (σ.claim ch).state ch = .embryo := by simp [Kernel.claim, Kernel.setState]
    have hembryo : Inv idle ((σ.claim ch).embryo ch (σ.current c)) q := by
      refine hclaim.setPid (fun d => hclaim.embryo hstate d) rfl rfl ?_
      funext x
      show update (σ.claim ch).state ch .embryo x = (σ.claim ch).state x
      by_cases e : x = ch
      · rw [e, update_self, hstate]
      · rw [update_of_ne e]
    have hemb : ((σ.claim ch).embryo ch (σ.current c)).state ch = .embryo := by
      simp [Kernel.embryo, Kernel.setState]
    cases copied with
    | true =>
      exact ⟨_, rfl, hembryo.ready _ hemb (by simp [Kernel.embryo, Kernel.claim, Kernel.setState]) c⟩
    | false =>
      obtain ⟨σ', heq, q', h'⟩ := hembryo.freeSlot (hembryo.ne_idle (t := ch) (by simp [hemb]))
      refine ⟨(none, σ'), ?_, q', h'⟩
      show (taskFreeSlot ((σ.claim ch).embryo ch (σ.current c)) ch).map _ = _
      rw [heq]
      rfl

theorem exit (h : Inv idle σ q) (c : Fin n) (hcur : ∀ d, idle d ≠ σ.current c) (code : Int) :
    ∃ σ', sysExit idle σ c code = some σ' ∧ ∃ q', Inv idle σ' q' := by
  have hrep : Inv idle (reparent σ (σ.current c)) q := h.congr rfl rfl rfl rfl
  have hsig : ∃ q', Inv idle (signalParent idle (reparent σ (σ.current c)) c (σ.current c)) q' := by
    unfold signalParent
    split
    · exact ⟨q, hrep⟩
    · exact hrep.sendSignal c _ _
  obtain ⟨q₁, h₁⟩ := hsig
  have hz : Inv idle ((signalParent idle (reparent σ (σ.current c)) c (σ.current c)).zombie
      (σ.current c) code) q₁ :=
    (h₁.setState (t := σ.current c) .zombie (by simp) (Or.inl hcur)).congr rfl rfl rfl rfl
  obtain ⟨next', heq, h₂⟩ := hz.remove (σ.current c)
  unfold sysExit
  simp only [heq, Option.bind_some]
  generalize ({ (signalParent idle (reparent σ (σ.current c)) c (σ.current c)).zombie
    (σ.current c) code with rqNext := next', rqCpu := _ } : Kernel n N) = σ₂ at h₂
  have hwake : ∃ q', Inv idle (wakeParent idle σ₂ c (σ.current c)) q' := by
    unfold wakeParent
    split
    · exact ⟨_, h₂⟩
    · split
      · rename_i hs
        exact h₂.wake_of_state hs.1 (by simp) c
      · exact ⟨_, h₂⟩
  obtain ⟨q₃, h₃⟩ := hwake
  exact h₃.schedule c

theorem wait (h : Inv idle σ q) (c : Fin n) (hcur : ∀ d, idle d ≠ σ.current c)
    (wpid : Option (BitVec 32)) (nohang : Bool) :
    ∃ r, sysWaitpid idle σ c wpid nohang = some r ∧ ∃ q', Inv idle r.2 q' := by
  unfold sysWaitpid
  cases hfind : findZombie σ (σ.current c) wpid with
  | some t =>
    have hz : σ.state t = .zombie := by
      have := List.find?_some hfind
      simp only [Bool.and_eq_true, decide_eq_true_eq] at this
      exact this.2
    obtain ⟨σ', heq, q', h'⟩ := h.freeSlot (h.ne_idle (t := t) (by simp [hz]))
    exact ⟨(.reaped t (σ.exitCode t), σ'), by simp only [hfind, heq]; rfl, q', h'⟩
  | none =>
    simp only [hfind]
    split
    · exact ⟨(.noChild, σ), rfl, q, h⟩
    split
    · exact ⟨(.nothing, σ), rfl, q, h⟩
    · have hsleep : Inv idle (σ.fallAsleep (σ.current c)) q :=
        (h.setState (t := σ.current c) .sleeping (by simp) (Or.inl hcur)).congr
          rfl rfl rfl rfl
      obtain ⟨next', heq, h₁⟩ := hsleep.remove (σ.current c)
      obtain ⟨σ', hsched, q', h'⟩ := h₁.schedule c
      exact ⟨(.asleep, σ'), by simp only [heq, Option.bind_some, hsched]; rfl, q', h'⟩

theorem spawn (h : Inv idle σ q) (c : Fin n) (loaded : Bool) :
    ∃ r, kernelSpawn idle σ c loaded = some r ∧ ∃ q', Inv idle r.2 q' := by
  unfold kernelSpawn taskAllocSlot
  cases hfirst : firstUnused σ with
  | none => exact ⟨_, rfl, q, h⟩
  | some t =>
    have hclaim := h.claim (unused_of_firstUnused hfirst)
    have hstate : (σ.claim t).state t = .embryo := by simp [Kernel.claim, Kernel.setState]
    have hpid : Inv idle { σ.claim t with
        pidCounter := (σ.claim t).pidCounter + 1
        pid := update (σ.claim t).pid t ((σ.claim t).pidCounter + 1) } q :=
      hclaim.setPid (fun d => hclaim.embryo hstate d) rfl rfl rfl
    cases loaded with
    | true =>
      exact ⟨_, rfl, hpid.ready _ hstate (by simp [Kernel.claim, Kernel.setState]) c⟩
    | false =>
      obtain ⟨σ', heq, q', h'⟩ := hpid.freeSlot (hclaim.ne_idle (t := t) (by simp [hstate]))
      refine ⟨(none, σ'), ?_, q', h'⟩
      show (taskFreeSlot _ t).map _ = _
      rw [heq]
      rfl

theorem boot : Inv idle (boot idle) fun _ => [] where
  ring _ := rfl
  nodup _ := List.nodup_nil
  link c t := by simp [Process.boot]
  noIdle c d := by simp
  inUse c t ht := by simp at ht
  idleRuns c := by
    have hc : ((List.finRange n).any fun d => idle d = idle c) = true :=
      List.any_eq_true.mpr ⟨c, List.mem_finRange c, by simp⟩
    simp only [Process.boot]
    rw [if_pos hc]
  idlePid c := rfl

end Inv

/-! ## Whole runs -/

/-- The operations, by any CPU. -/
inductive Op (N : ℕ) where
  | add (t : Fin N)
  | remove (t : Fin N)
  | schedule
  | tick (jiffies : BitVec 64)
  | signal (t : Fin N) (sig : ℕ)
  | push (waiter : Fin N)
  | alloc
  | spawn (loaded : Bool)
  | fork (copied : Bool)
  | exit (code : Int)
  | wait (wpid : Option (BitVec 32)) (nohang : Bool)
  | free (t : Fin N)
  /-- a store to `state`, such as those in front of a call of `schedule` -/
  | store (t : Fin N) (st : TaskState)
deriving DecidableEq

/-- An operation on the CPU `c`. It has no result if it does not return. -/
def exec (idle : Fin n → Fin N) (σ : Kernel n N) : Fin n × Op N → Option (Kernel n N)
  | (c, .add t) => some (runqueueAdd idle σ c t)
  | (_, .remove t) => runqueueRemove σ t
  | (c, .schedule) => schedule idle σ c
  | (c, .tick jiffies) => some (schedTick idle σ c jiffies)
  | (c, .signal t sig) => some (sendSignal idle σ c t sig)
  | (c, .push w) => some (inputPush idle σ c w)
  | (_, .alloc) =>
    match taskAllocSlot σ with
    | none => some σ
    | some (_, σ) => some σ
  | (c, .spawn loaded) => (kernelSpawn idle σ c loaded).map (·.2)
  | (c, .fork copied) => (sysFork idle σ c copied).map (·.2)
  | (c, .exit code) => sysExit idle σ c code
  | (c, .wait wpid nohang) => (sysWaitpid idle σ c wpid nohang).map (·.2)
  | (_, .free t) => taskFreeSlot σ t
  | (_, .store t st) => some (σ.setState t st)

/-- What the callers see to: idle tasks make no system call, are not freed
and keep their state; a task is queued by name only after its slot was
allocated; and a slot becomes `T_UNUSED` through `task_free_slot` only. -/
def Called (idle : Fin n → Fin N) (σ : Kernel n N) : Fin n × Op N → Prop
  | (_, .add t) => (∀ d, idle d ≠ t) ∧ σ.state t ≠ .unused
  | (c, .exit _) => ∀ d, idle d ≠ σ.current c
  | (c, .wait _ _) => ∀ d, idle d ≠ σ.current c
  | (_, .free t) => ∀ d, idle d ≠ t
  | (_, .store t st) => (∀ d, idle d ≠ t) ∧ st ≠ .unused
  | _ => True

instance (idle : Fin n → Fin N) (σ : Kernel n N) : ∀ l, Decidable (Called idle σ l)
  | (_, .add _) => inferInstanceAs (Decidable (_ ∧ _))
  | (_, .remove _) => isTrue trivial
  | (_, .schedule) => isTrue trivial
  | (_, .tick _) => isTrue trivial
  | (_, .signal _ _) => isTrue trivial
  | (_, .push _) => isTrue trivial
  | (_, .alloc) => isTrue trivial
  | (_, .spawn _) => isTrue trivial
  | (_, .fork _) => isTrue trivial
  | (_, .exit _) => inferInstanceAs (Decidable (∀ _, _))
  | (_, .wait _ _) => inferInstanceAs (Decidable (∀ _, _))
  | (_, .free _) => inferInstanceAs (Decidable (∀ _, _))
  | (_, .store _ _) => inferInstanceAs (Decidable (_ ∧ _))

/-- **One operation** returns and keeps the invariant. -/
theorem Inv.exec (h : Inv idle σ q) (l : Fin n × Op N) (hl : Called idle σ l) :
    ∃ σ', exec idle σ l = some σ' ∧ ∃ q', Inv idle σ' q' := by
  obtain ⟨c, op⟩ := l
  cases op with
  | add t => exact ⟨_, rfl, h.add hl.1 hl.2 c⟩
  | remove t =>
    obtain ⟨next', heq, h'⟩ := h.remove t
    exact ⟨_, heq, _, h'⟩
  | schedule => exact h.schedule c
  | tick jiffies => exact ⟨_, rfl, Inv.tickFrom jiffies c _ h⟩
  | signal t sig => exact ⟨_, rfl, h.sendSignal c t sig⟩
  | push w =>
    refine ⟨_, rfl, ?_⟩
    unfold inputPush
    split
    · rename_i hs
      exact h.wake_of_state hs (by simp) c
    · exact ⟨q, h⟩
  | alloc =>
    show ∃ σ', (match taskAllocSlot σ with
      | none => some σ
      | some (_, σ) => some σ) = some σ' ∧ _
    unfold taskAllocSlot
    cases hfirst : firstUnused σ with
    | none => exact ⟨_, rfl, q, h⟩
    | some t => exact ⟨_, rfl, q, h.claim (Inv.unused_of_firstUnused hfirst)⟩
  | spawn loaded =>
    obtain ⟨r, heq, h'⟩ := h.spawn c loaded
    exact ⟨r.2, by simp only [Process.exec, heq]; rfl, h'⟩
  | fork copied =>
    obtain ⟨r, heq, h'⟩ := h.fork c copied
    exact ⟨r.2, by simp only [Process.exec, heq]; rfl, h'⟩
  | exit code => exact h.exit c hl code
  | wait wpid nohang =>
    obtain ⟨r, heq, h'⟩ := h.wait c hl wpid nohang
    exact ⟨r.2, by simp only [Process.exec, heq]; rfl, h'⟩
  | free t => exact h.freeSlot hl
  | store t st => exact ⟨_, rfl, q, h.setState st hl.2 (Or.inl hl.1)⟩

/-- **The run queues keep their structure**, in every run of the
operations on any CPUs. No operation of the run hangs. In the state it
reaches, the links of each CPU are a cycle without repetition, a task is on
the cycle of the CPU its `rq_cpu` names and on no other, idle tasks and
unused slots are on none, and `runqueue_remove` returns with its argument
taken out and nothing else. -/
theorem runQueues_of_run (idle : Fin n → Fin N) (ls : List (Fin n × Op N))
    (hcalled : Guarded (exec idle) (Called idle) (boot idle) ls) :
    ∃ σ q, runSteps (exec idle) (boot idle) ls = some σ ∧ RunQueues idle σ q ∧
      ∀ t, ∃ σ', runqueueRemove σ t = some σ' ∧ RunQueues idle σ' fun c => (q c).erase t := by
  obtain ⟨σ, hrun, q, h⟩ := runSteps_guarded_total (I := fun σ => ∃ q, Inv idle σ q)
    (fun σ l ⟨_, h⟩ hl => h.exec l hl) ls ⟨_, Inv.boot⟩ hcalled
  refine ⟨σ, q, hrun, h.toRunQueues, fun t => ?_⟩
  obtain ⟨next', heq, h'⟩ := h.remove t
  exact ⟨_, heq, h'.toRunQueues⟩

/-- Two tasks are spawned on two CPUs, one forks and exits, and its parent
waits. -/
theorem runQueues_of_run_two_cpus :
    ∃ σ q, runSteps (exec (Fin.castAdd 3 : Fin 2 → Fin 5)) (boot (Fin.castAdd 3))
        [(0, .spawn true), (0, .schedule), (0, .spawn true), (1, .schedule), (0, .fork true),
          (1, .exit 3), (0, .wait none false), (0, .exit 4), (0, .tick 7)] = some σ ∧
      RunQueues (Fin.castAdd 3) σ q ∧
      ∀ t, ∃ σ', runqueueRemove σ t = some σ' ∧
        RunQueues (Fin.castAdd 3) σ' fun c => (q c).erase t :=
  runQueues_of_run _ _ (by decide +kernel)

end Lnxrm.Process
