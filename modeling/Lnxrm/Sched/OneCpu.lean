import Lnxrm.Sched.Helpers.Placement

/-!
# When a task runs on at most one CPU

If every task that `runqueue_add` enqueues is held by no CPU other than
the one whose queue receives it, every task stays at one CPU, and
`AtMostOneCpu` holds after every run from boot, for any number of CPUs
(`atMostOneCpu_of_enqueues`).

The condition is not idle. `schedule` enqueues the outgoing task before it
has switched away from it, and `preferred_cpu` sends it to an idle CPU,
which may run it at once (`forked_on_two_cpus`).
-/

namespace Lnxrm.Sched

open Function

variable {n : ℕ} {T : Type} [DecidableEq T] {idle : Fin n → T} {σ σ' : State n T}

/-- The task that a step of the CPU hands to `runqueue_add`. -/
def enqueues (σ : State n T) (l : Fin n × Act T) : Option T :=
  match l.2, σ.pc l.1 with
  | .advance, .adding t => some t
  | .advance, .enqueue _ => some (σ.current l.1)
  | _, _ => none

variable (idle) in
/-- **Enqueued where it is**: if the step puts a task on a queue, every CPU
that holds the task is the one whose queue receives it. -/
def EnqueueLocal (σ : State n T) (l : Fin n × Act T) : Prop :=
  ∀ t ∈ enqueues σ l, σ.rqCpu t = none → ∀ c, Holds σ c t → c = preferredCpu idle σ l.1

instance (σ : State n T) (l : Fin n × Act T) : Decidable (EnqueueLocal idle σ l) :=
  match h : enqueues σ l with
  | none => isTrue fun t ht => by simp [h] at ht
  | some t =>
    if hrq : σ.rqCpu t = none then
      decidable_of_iff (∀ c, Holds σ c t → c = preferredCpu idle σ l.1)
        (by simp [EnqueueLocal, h, hrq])
    else isTrue fun t' ht' h' => by
      rw [h, Option.mem_some_iff] at ht'
      exact absurd (ht' ▸ h') hrq

namespace Inv

variable {c : Fin n} {p : Pc T}

theorem moveOn (h : Inv idle σ) (hin : p.incoming = none) (hout : p.outgoing = none)
    (hpc : PcOk idle (σ.setPc c p) c)
    (hex : executing (σ.setPc c p) c = executing σ c) : Inv idle (σ.setPc c p) := by
  refine h.setPc (fun t ht => ?_) hpc hex
  rw [hin, hout] at ht
  simp at ht

/-- **A step inside the scheduler** keeps the invariant, where its enqueue
is local. -/
theorem advance (h : Inv idle σ) (hlocal : EnqueueLocal idle σ (c, .advance)) :
    Inv idle (Sched.advance idle σ c) := by
  have hok := h.pcOk c
  unfold Sched.advance
  cases hp : σ.pc c with
  | out => exact h
  | adding t =>
    simp only [PcOk, hp] at hok
    have hadd := h.add (c := c) hok fun hrq =>
      hlocal t (by simp [enqueues, hp]) hrq
    refine hadd.moveOn rfl rfl (by simp [PcOk]) ?_
    simp [executing, runqueueAdd_pc, hp, State.setPc]
  | removing =>
    have hrem := h.remove (c := c) (t := σ.current c) (Or.inl (Or.inl rfl))
      (by simp [PcOk, runqueueRemove_pc, hp])
    refine hrem.moveOn rfl rfl (by simp [PcOk]) ?_
    simp [executing, runqueueRemove_pc, hp, State.setPc]
  | pick =>
    refine h.moveOn rfl rfl ?_ (by simp [executing, hp, State.setPc])
    cases hq : σ.queue c with
    | nil => simp [PcOk]
    | cons t q =>
      simp only [PcOk, setPc_pc_self, List.head?_cons]
      exact (h.link c t).mp (by simp [hq])
  | picked next =>
    have hout : Inv idle (σ.setPc c .out) :=
      h.moveOn rfl rfl (by simp [PcOk]) (by simp [executing, hp, State.setPc])
    cases next with
    | none =>
      simp only
      split
      · exact hout
      · split
        · exact hout
        · rename_i hne
          refine h.moveOn rfl rfl ?_ (by simp [executing, hp, State.setPc])
          simp only [PcOk, setPc_pc_self]
          exact ⟨Or.inr trivial, hne⟩
    | some next =>
      simp only [PcOk, hp] at hok
      simp only
      split
      · split
        · exact hout
        · exact h.moveOn rfl rfl (by simp [PcOk]) (by simp [executing, hp, State.setPc])
      · rename_i hne
        refine h.moveOn rfl rfl ?_ (by simp [executing, hp, State.setPc])
        simp only [PcOk, setPc_pc_self]
        exact ⟨Or.inl hok, hne⟩
  | check next =>
    simp only [PcOk, hp] at hok
    simp only
    split
    · rename_i hrun
      refine h.moveOn rfl rfl ?_ (by simp [executing, hp, State.setPc])
      simp only [PcOk, setPc_pc_self]
      exact ⟨hok, hrun.2⟩
    · refine h.moveOn rfl rfl ?_ (by simp [executing, hp, State.setPc])
      simp only [PcOk, setPc_pc_self]
      exact hok
  | requeue next =>
    simp only [PcOk, hp] at hok
    refine (h.setState _ _).moveOn rfl rfl ?_ (by simp [executing, hp, State.setPc, State.setState])
    simp only [PcOk, setPc_pc_self]
    exact hok
  | enqueue next =>
    simp only [PcOk, hp] at hok
    have hadd := h.add (c := c) hok.2 fun hrq => hlocal (σ.current c) (by simp [enqueues, hp]) hrq
    refine hadd.moveOn rfl rfl ?_ ?_
    · have hadded := hadd.pcOk c
      simp only [PcOk, runqueueAdd_pc, hp] at hadded
      simp only [PcOk, setPc_pc_self]
      exact hadded.1
    · simp [executing, runqueueAdd_pc, hp, State.setPc]
  | dequeue next =>
    simp only [PcOk, hp] at hok
    show Inv idle ((runqueueRemove σ next).setPc c (.setRunning next))
    rw [runqueueRemove_setPc]
    have hset : Inv idle (σ.setPc c (.setRunning next)) := by
      refine h.setPc (fun t ht => ?_) ?_ (by simp [executing, hp, State.setPc])
      · simp only [Pc.incoming, Pc.outgoing, Option.some.injEq, reduceCtorEq, or_false] at ht
        rw [← ht]
        exact Or.inr hok.1
      · simp only [PcOk, setPc_pc_self]
        exact hok.2
    refine hset.remove (c := c) (Or.inl (Or.inr (Or.inl (by rw [setPc_pc_self]; rfl)))) ?_
    simp only [PcOk, runqueueRemove_pc, setPc_pc_self, runqueueRemove_current]
    exact hok.2
  | setRunning next =>
    simp only [PcOk, hp] at hok
    refine (h.setState _ _).setPc (fun t ht => ?_) ?_
      (by simp [executing, hp, State.setPc, State.setState])
    · simp only [Pc.incoming, Pc.outgoing, Option.some.injEq, reduceCtorEq, or_false] at ht
      exact Or.inl (Or.inr (Or.inl (by simp [State.setState, hp, Pc.incoming, ht])))
    · simp only [PcOk, setPc_pc_self]
      exact hok
  | publish next => exact h.publish hp
  | save prev next =>
    simp only [PcOk, hp] at hok
    refine h.setSaved (fun t ht => ?_) ?_ fun t ht => Or.inr ?_
    · simp only [Pc.incoming, Pc.outgoing, Option.some.injEq, reduceCtorEq, or_false] at ht
      exact Or.inl (Or.inr (Or.inl (by simp [hp, Pc.incoming, ht])))
    · simp only [PcOk, setPc_pc_self]
      exact hok.2
    · -- only the outgoing task's flag changed, and it was executed on here
      by_cases e : t = prev
      · simp [e] at ht
      · rw [update_of_ne e] at ht
        exact ⟨ht, by simpa [executing, hp] using Ne.symm e⟩
  | load next =>
    simp only [PcOk, hp] at hok
    refine h.setSaved (fun t ht => by simp [Pc.incoming, Pc.outgoing] at ht)
      (by simp [PcOk]) fun t ht => ?_
    by_cases e : t = next
    · left
      simp only [executing, setPc_pc_self]
      rw [e, ← hok]
      rfl
    · right
      rw [update_of_ne e] at ht
      exact ⟨ht, by simp [executing, hp]⟩

/-- **Every step** keeps the invariant, where its enqueue is local. -/
theorem step {l : Fin n × Act T} (h : Inv idle σ) (hlocal : EnqueueLocal idle σ l)
    (hs : Sched.step idle σ l = some σ') : Inv idle σ' := by
  obtain ⟨c, act⟩ := l
  cases act with
  | advance =>
    obtain ⟨-, ⟨⟩⟩ := Option.ite_none_left_eq_some.mp hs
    exact h.advance hlocal
  | store t st =>
    obtain ⟨-, ⟨⟩⟩ := Option.ite_none_right_eq_some.mp hs
    exact h.setState t st
  | callAdd t =>
    obtain ⟨hc, ⟨⟩⟩ := Option.ite_none_right_eq_some.mp hs
    refine h.moveOn rfl rfl ?_ (by simp [executing, hc.1, State.setPc])
    simp only [PcOk, setPc_pc_self]
    exact hc.2
  | callRemove | callSchedule =>
    obtain ⟨hc, ⟨⟩⟩ := Option.ite_none_right_eq_some.mp hs
    exact h.moveOn rfl rfl (by simp [PcOk]) (by simp [executing, hc, State.setPc])

theorem boot (hidle : Injective idle) (state : T → TaskState) :
    Inv idle (Sched.boot idle state) := by
  have hAt : ∀ c t, At idle (Sched.boot idle state) c t → t = idle c := by
    rintro c t ((hcur | hin | hout) | hqueue | hidle)
    · exact hcur.symm
    · simp [Sched.boot, Pc.incoming] at hin
    · simp [Sched.boot, Pc.outgoing] at hout
    · simp [Sched.boot] at hqueue
    · exact hidle
  constructor
  case link => simp [Sched.boot]
  case nodup => simp [Sched.boot]
  case place => exact fun c d t hc hd => hidle ((hAt c t hc).symm.trans (hAt d t hd))
  case pcOk => simp [PcOk, Sched.boot]
  case saved =>
    intro t ht
    have hmem : isIdle idle t = true := by simpa [Sched.boot] using ht
    obtain ⟨c, -, hc⟩ := List.any_eq_true.mp hmem
    exact ⟨c, by simpa [executing, Sched.boot] using hc⟩

theorem atMostOneCpu (h : Inv idle σ) : AtMostOneCpu idle σ := by
  refine ⟨fun c d _ hcd => h.place c d _ (Or.inl (Or.inl rfl)) (Or.inl (Or.inl hcd.symm)), ?_⟩
  intro c t hin
  by_contra hsaved
  obtain ⟨d, hd⟩ := h.saved t (by simpa using hsaved)
  have hok := h.pcOk c
  -- whoever executes on the task has it in hand, so it is this CPU
  have hhold : Holds σ d t := by
    unfold executing at hd
    unfold Holds
    cases hp : σ.pc d <;> simp_all [Pc.outgoing]
  have hdc : d = c := h.place d c t (Or.inl hhold) (Or.inl (Or.inr (Or.inl hin)))
  subst hdc
  unfold executing at hd
  unfold PcOk at hok
  cases hp : σ.pc d <;> simp_all [Pc.incoming]

end Inv

/-- **A task runs on at most one CPU in every run whose enqueues are
local**, for any number of CPUs, any tasks, any interleaving of the CPUs'
steps. -/
theorem atMostOneCpu_of_enqueues (hidle : Injective idle) (state : T → TaskState)
    (ls : List (Fin n × Act T))
    (hlocal : Guarded (step idle) (EnqueueLocal idle) (boot idle state) ls)
    (hrun : runSteps (step idle) (boot idle state) ls = some σ) : AtMostOneCpu idle σ :=
  (runSteps_guarded (fun _ _ _ h hg hs => Inv.step h hg hs) ls (Inv.boot hidle state) hlocal
    hrun).atMostOneCpu

/-- Two CPUs, whose idle tasks are the tasks `0` and `1`. -/
def twoIdle (c : Fin 2) : Fin 5 := if c = 0 then 0 else 1

/-- After boot only the idle tasks are in use. -/
def twoBoot : State 2 (Fin 5) := boot twoIdle fun t => if t < 2 then .running else .unused

/-- A call of `schedule` that goes through to another task. -/
def switchOn (c : Fin 2) : List (Fin 2 × Act (Fin 5)) :=
  (c, .callSchedule) :: List.replicate 8 (c, .advance)

/-- A task is made runnable and enqueued. -/
def startOn (c : Fin 2) (t : Fin 5) : List (Fin 2 × Act (Fin 5)) :=
  [(c, .store t .runnable), (c, .callAdd t), (c, .advance)]

/-- CPU 0 spawns task `2` and runs it; that task forks the tasks `3` and
`4`, which go to the idle CPU 1, and CPU 1 runs task `4`. -/
def forkRun : List (Fin 2 × Act (Fin 5)) :=
  startOn 0 2 ++ switchOn 0 ++ startOn 0 3 ++ startOn 0 4 ++ switchOn 1

theorem forkRun_atMostOneCpu : ∃ σ, runSteps (step twoIdle) twoBoot forkRun = some σ ∧
      AtMostOneCpu twoIdle σ := by
  obtain ⟨σ, hσ⟩ : ∃ σ, runSteps (step twoIdle) twoBoot forkRun = some σ :=
    Option.isSome_iff_exists.mp (by decide +kernel)
  exact ⟨σ, hσ, atMostOneCpu_of_enqueues (fun c d => by revert c d; decide) _ _
    (by decide +kernel) hσ⟩

/-- The fork run goes on: task `2` sleeps and CPU 0 turns idle; CPU 1 is
preempted and gets as far as the requeue of task `4`, which goes to the
idle CPU 0; CPU 0 picks it up. -/
def stealRun : List (Fin 2 × Act (Fin 5)) :=
  forkRun ++ [(0, .store 2 .sleeping), (0, .callRemove), (0, .advance)] ++ switchOn 0 ++
    (1, .callSchedule) :: List.replicate 5 (1, .advance) ++
    (0, .callSchedule) :: List.replicate 6 (0, .advance)

/-- Task `4` is `_current` of both CPUs, and CPU 0 is about to load its
context, which CPU 1 has not saved. -/
theorem forked_on_two_cpus : ∃ σ, runSteps (step twoIdle) twoBoot stealRun = some σ ∧
      σ.current 0 = 4 ∧ σ.current 1 = 4 ∧ (σ.pc 0).incoming = some 4 ∧ σ.saved 4 = false ∧
      ¬AtMostOneCpu twoIdle σ := by
  have h : (runSteps (step twoIdle) twoBoot stealRun).map
      (fun σ => (σ.current 0, σ.current 1, (σ.pc 0).incoming, σ.saved 4)) =
      some (4, 4, some 4, false) := by decide +kernel
  obtain ⟨σ, hσ, hv⟩ := Option.map_eq_some_iff.mp h
  simp only [Prod.mk.injEq] at hv
  obtain ⟨h0, h1, hin, hsaved⟩ := hv
  refine ⟨σ, hσ, h0, h1, hin, hsaved, fun hone => ?_⟩
  have heq := hone.1 0 1 (by rw [h0]; decide) (h0.trans h1.symm)
  exact absurd heq (by decide)

end Lnxrm.Sched
