import Lnxrm.Process.Helpers.Placement

/-!
# Preemption among the tasks of one CPU

`schedule` picks the head of the run queue before it requeues the task it
preempts, and `runqueue_add` queues at the head. So a preempted task is
the next to be picked: the current task and the first one waiting take
turns, and the queue behind them never moves (`Sharing.preempt`). With
one task waiting that is a round robin; with more, the others starve
(`roundRobin_iff`).
-/

namespace Lnxrm.Process

open Function

variable {n N : ℕ} {idle : Fin n → Fin N} {σ : Kernel n N} {q : Fin n → List (Fin N)}
  {c : Fin n} {cur a b : Fin N} {waiting l : List (Fin N)}

/-- **Tasks that share the CPU `c`**: user tasks of which `cur` runs and
the others are runnable and on the CPU's queue. No other CPU is idle, so
none takes a task over. -/
structure Sharing (idle : Fin n → Fin N) (σ : Kernel n N) (c : Fin n) (cur : Fin N)
    (waiting : List (Fin N)) : Prop where
  queues : ∃ q, Queues σ q ∧ q c = waiting
  current : σ.current c = cur
  running : σ.state cur = .running
  off : σ.rqCpu cur = none
  runnable : ∀ t ∈ waiting, σ.state t = .runnable
  user : ∀ t ∈ cur :: waiting, σ.pid t ≠ 0
  idlePid : ∀ d, σ.pid (idle d) = 0
  busy : ∀ d, d ≠ c → σ.current d ≠ idle d

/-- The task that runs on the CPU `c` after `i` preemptions by `schedule`,
if they all return. -/
def currentAfter (idle : Fin n → Fin N) (σ : Kernel n N) (c : Fin n) (i : ℕ) : Option (Fin N) :=
  (runSteps (schedule idle) σ (List.replicate i c)).map fun σ' => σ'.current c

/-- **Round robin**: any `tasks.length` preemptions in a row make each of
the tasks current, and every round is like the one before. -/
def RoundRobin (idle : Fin n → Fin N) (σ : Kernel n N) (c : Fin n) (tasks : List (Fin N)) : Prop :=
  (∀ j, ∀ t ∈ tasks, ∃ i, j < i ∧ i ≤ j + tasks.length ∧ currentAfter idle σ c i = some t) ∧
    ∀ i, currentAfter idle σ c (i + tasks.length) = currentAfter idle σ c i

theorem preferredCpu_of_busy (h : ∀ d, σ.current d ≠ idle d) (self : Fin n) :
    preferredCpu idle σ self = self := by
  have hnone : (List.finRange n).find? (fun d => decide (σ.current d = idle d)) = none := by
    simpa using h
  unfold preferredCpu
  rw [hnone]
  rfl

namespace Sharing

theorem not_mem (h : Sharing idle σ c cur waiting) : cur ∉ waiting := by
  obtain ⟨q, hq, rfl⟩ := h.queues
  exact hq.not_mem h.off c

theorem not_idle (h : Sharing idle σ c cur waiting) (d : Fin n) : σ.current d ≠ idle d := by
  intro e
  by_cases hd : d = c
  · subst hd
    rw [h.current] at e
    exact h.user cur (by simp) (e ▸ h.idlePid d)
  · exact h.busy d hd e

/-- **One preemption**: the first task waiting runs, and the preempted one
takes its place at the head of the queue. -/
theorem preempt (h : Sharing idle σ c a (b :: l)) :
    ∃ σ', schedule idle σ c = some σ' ∧ Sharing idle σ' c b (a :: l) := by
  obtain ⟨q, hq, hqc⟩ := h.queues
  have hab : b ≠ a := fun e => h.not_mem (by simp [e])
  have hnd : (b :: l).Nodup := hqc ▸ hq.nodup c
  have hpref : preferredCpu idle (σ.setState a .runnable) c = c := preferredCpu_of_busy h.not_idle c
  -- `current` is queued first, so the task picked before is no longer the head
  have hset : Queues (σ.setState a .runnable) q := hq.congr rfl rfl
  have hadd := hset.add idle (t := a) h.off c
  rw [hpref] at hadd
  have hstate : (runqueueAdd idle (σ.setState a .runnable) c a).state = _ := runqueueAdd_state
  have hpid : (runqueueAdd idle (σ.setState a .runnable) c a).pid = _ := runqueueAdd_sameTree.pid
  have hcurrent : (runqueueAdd idle (σ.setState a .runnable) c a).current = _ := runqueueAdd_current
  have hstep : schedule idle σ c = (runqueueRemove
      (runqueueAdd idle (σ.setState a .runnable) c a) b).map fun σ => switchTo σ c b := by
    have hrun : σ.state (σ.current c) = .running ∧ σ.pid (σ.current c) ≠ 0 := by
      rw [h.current]
      exact ⟨h.running, h.user a (by simp)⟩
    unfold schedule switchAway
    simp only [hq.pickNext_eq c, hqc, List.head?_cons, if_pos hrun]
    rw [h.current, if_neg hab]
  generalize runqueueAdd idle (σ.setState a .runnable) c a = τ at *
  obtain ⟨next', hremove, hq'⟩ := hadd.remove b
  rw [hremove] at hstep
  refine ⟨_, hstep, ⟨_, hq'.congr rfl rfl, ?_⟩, ?_, ?_, ?_, fun t ht => ?_, fun t ht => ?_,
    fun d => ?_, fun d hd => ?_⟩
  · rw [update_self, hqc, List.erase_cons_tail (by simpa using hab.symm),
      List.erase_cons_head]
  · exact update_self ..
  · exact update_self ..
  · exact update_self ..
  · show update τ.state b .running t = .runnable
    rw [hstate]
    rcases List.mem_cons.mp ht with rfl | hm
    · rw [update_of_ne hab.symm]
      exact update_self ..
    · have htb : t ≠ b := fun e => (List.nodup_cons.mp hnd).1 (e ▸ hm)
      have hta : t ≠ a := fun e => h.not_mem (by simp [← e, hm])
      rw [update_of_ne htb]
      show update σ.state a .runnable t = .runnable
      rw [update_of_ne hta]
      exact h.runnable t (by simp [hm])
  · show τ.pid t ≠ 0
    rw [hpid]
    exact h.user t (by simp only [List.mem_cons] at ht ⊢; tauto)
  · show τ.pid (idle d) = 0
    rw [hpid]
    exact h.idlePid d
  · show update τ.current c b d ≠ idle d
    rw [update_of_ne hd, hcurrent]
    exact h.busy d hd

/-- **A run of preemptions**: the two tasks in front take turns. -/
theorem run (h : Sharing idle σ c a (b :: l)) (i : ℕ) :
    currentAfter idle σ c i = some (if i % 2 = 0 then a else b) := by
  induction i generalizing σ a b with
  | zero => simp [currentAfter, runSteps, h.current]
  | succ i ih =>
    obtain ⟨σ', hstep, h'⟩ := h.preempt
    have hrest : currentAfter idle σ c (i + 1) = currentAfter idle σ' c i := by
      simp [currentAfter, List.replicate_succ, runSteps, hstep]
    rw [hrest, ih h']
    by_cases hi : i % 2 = 0
    · rw [if_pos hi, if_neg (by omega)]
    · rw [if_neg hi, if_pos (by omega)]

end Sharing

/-- **Preemption is a round robin exactly between two tasks.** -/
theorem roundRobin_iff (h : Sharing idle σ c cur waiting) (hk : 2 ≤ (cur :: waiting).length) :
    RoundRobin idle σ c (cur :: waiting) ↔ waiting.length = 1 := by
  obtain ⟨b, l, rfl⟩ : ∃ b l, waiting = b :: l := by
    cases waiting with
    | nil => simp at hk
    | cons b l => exact ⟨b, l, rfl⟩
  constructor
  · rintro ⟨hall, -⟩
    -- a third task would have to be one of the two that take turns
    cases l with
    | nil => rfl
    | cons t l =>
      exfalso
      obtain ⟨q, hq, hqc⟩ := h.queues
      have hnd : (b :: t :: l).Nodup := hqc ▸ hq.nodup c
      have htb : b ≠ t := fun e => (List.nodup_cons.mp hnd).1 (by simp [e])
      have htc : cur ≠ t := fun e => h.not_mem (by simp [e])
      obtain ⟨i, -, -, hi⟩ := hall 0 t (by simp)
      rw [h.run i] at hi
      split at hi
      · exact htc (Option.some.inj hi)
      · exact htb (Option.some.inj hi)
  intro hl
  obtain rfl : l = [] := by simpa using hl
  refine ⟨fun j t ht => ?_, fun i => ?_⟩
  · -- of two preemptions in a row, one has the number's parity
    have htwo : t = cur ∨ t = b := by simpa using ht
    rcases htwo with rfl | rfl
    · refine ⟨j + 2 - j % 2, by omega, by simp, ?_⟩
      rw [h.run, if_pos (by omega)]
    · refine ⟨j + 1 + j % 2, by omega, by simp; omega, ?_⟩
      rw [h.run, if_neg (by omega)]
  · have hlen : [cur, b].length = 2 := rfl
    rw [hlen, h.run, h.run]
    simp

/-- A CPU whose tasks `1`, …, `k` are runnable: `1` runs, the others are
queued in order. Slot `0` is the idle task. -/
def tasksReady (k : ℕ) (hk : 2 ≤ k) : Kernel 1 (k + 1) where
  rqNext
    | .head _ => some (.task ⟨2, by omega⟩)
    | .task t =>
      if t.val < 2 then none
      else if h : t.val < k then some (.task ⟨t.val + 1, by omega⟩)
      else some (.head 0)
  rqCpu t := if t.val < 2 then none else some 0
  state t := if t.val < 2 then .running else .runnable
  current _ := ⟨1, by omega⟩
  pid t := BitVec.ofNat 32 t.val
  parent _ := none
  exitCode _ := 0
  sleepUntil _ := 0
  ignores _ _ := false
  pidCounter := BitVec.ofNat 32 k

theorem two_tasks_share : Sharing (fun _ => 0) (tasksReady 2 (by omega)) 0 1 [2] ∧
    RoundRobin (fun _ => 0) (tasksReady 2 (by omega)) 0 [1, 2] := by
  have h : Sharing (fun _ => 0) (tasksReady 2 (by omega)) 0 1 [2] :=
    { queues := ⟨fun _ => [2], ⟨Fin.forall_fin_one.mpr ⟨rfl, rfl⟩, by decide +kernel,
        by decide +kernel⟩, rfl⟩
      current := rfl
      running := rfl
      off := rfl
      runnable := by decide +kernel
      user := by decide +kernel
      idlePid := by decide
      busy := by decide }
  exact ⟨h, (roundRobin_iff h (by decide)).mpr rfl⟩

/-- With three tasks the last one never runs: `1` and `2` take turns. -/
theorem third_task_starves : Sharing (fun _ => 0) (tasksReady 3 (by omega)) 0 1 [2, 3] ∧
    ¬ RoundRobin (fun _ => 0) (tasksReady 3 (by omega)) 0 [1, 2, 3] := by
  have h : Sharing (fun _ => 0) (tasksReady 3 (by omega)) 0 1 [2, 3] :=
    { queues := ⟨fun _ => [2, 3], ⟨Fin.forall_fin_one.mpr ⟨rfl, rfl, rfl⟩, by decide +kernel,
        by decide +kernel⟩, rfl⟩
      current := rfl
      running := rfl
      off := rfl
      runnable := by decide +kernel
      user := by decide +kernel
      idlePid := by decide
      busy := by decide }
  have h1 : currentAfter (fun _ => 0) (tasksReady 3 (by omega)) 0 1 = some 2 := by
    decide +kernel
  have h2 : currentAfter (fun _ => 0) (tasksReady 3 (by omega)) 0 2 = some 1 := by
    decide +kernel
  have h3 : currentAfter (fun _ => 0) (tasksReady 3 (by omega)) 0 3 = some 2 := by
    decide +kernel
  refine ⟨h, ?_⟩
  rintro ⟨hall, -⟩
  obtain ⟨i, hpos, hle, hi⟩ := hall 0 3 (by decide)
  obtain rfl | rfl | rfl : i = 1 ∨ i = 2 ∨ i = 3 := by
    simp only [List.length_cons, List.length_nil] at hle
    omega
  · exact absurd (h1.symm.trans hi) (by decide)
  · exact absurd (h2.symm.trans hi) (by decide)
  · exact absurd (h3.symm.trans hi) (by decide)

end Lnxrm.Process
