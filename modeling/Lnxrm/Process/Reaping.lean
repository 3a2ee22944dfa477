import Lnxrm.Process.Helpers.WaitExit

/-!
# Waking and reaping

A parent in `sys_waitpid` and a child in `sys_exit`, over all interleavings
of their steps with each other and with the other CPUs. A run whose
wake-ups are timely never parks the parent beside a zombie child
(`no_lost_wakeup`), and a run whose scans are late never frees what belongs
to a child that still runs (`reaped_off_cpu`).

The kernel sees to neither. The parent may be caught between its scan and
its sleep, and misses the only wake-up (`wakeup_lost`). The child is open
to the scan from its `T_ZOMBIE` store on, several steps before it is off
its stack (`reaped_while_running`).
-/

namespace Lnxrm.Process.WaitExit

variable {n N : ℕ} {w : Setup n N} {s₀ s : State n N}

theorem Started.base (h : Started w s₀) : Base w s₀ where
  queues := h.queues
  parent := h.parent
  pid := h.pid
  inUse := by simp [h.parentState]
  covers := h.covers
  reaps t ht := by simp [h.wait, WaitPc.reaps] at ht

theorem Started.childAt (h : Started w s₀) : ChildAt w s₀ where
  runs _ := h.childRuns
  gone hd := by simp [h.exit] at hd
  before _ := h.childState
  after hp := by simp [h.exit, ExitPc.pastZombie] at hp
  reaped hr := by simp [h.wait, WaitPc.reaps] at hr

theorem Started.parentAt (h : Started w s₀) : ParentAt w s₀ := by
  obtain ⟨c, on⟩ := h.parentRuns
  refine .runs c on ?_ (by simp [h.exit, ExitPc.wakes])
  rw [h.wait]
  exact h.parentState

/-- **No lost wake-up**, in every run whose wake-ups are timely: in no
state it reaches is the child a zombie past its wake-up test while the
parent is parked. -/
theorem no_lost_wakeup (w : Setup n N) (s₀ : State n N) (h₀ : Started w s₀)
    (ms : List (Move n N)) (htimely : Guarded (step w) Timely s₀ ms) (s : State n N)
    (hrun : runSteps (step w) s₀ ms = some s) : ¬ LostWakeup w s := by
  obtain ⟨-, -, hp, -⟩ := runSteps_guarded
    (I := fun s => Base w s ∧ ChildAt w s ∧ ParentAt w s ∧
      (s.exit.pastTest = true → s.wait.inWindow = false))
    (fun s m s' ⟨hb, hc, hp, hclosed⟩ hm hs =>
      have hchild := child_step hb hc hs
      ⟨hchild.1, hchild.2, parent_step hb hc hp hclosed hm hs⟩)
    ms ⟨h₀.base, h₀.childAt, h₀.parentAt, fun ht => by simp [h₀.exit, ExitPc.pastTest] at ht⟩
    htimely hrun
  rintro ⟨htest, -, haway, hoff, hwakes⟩
  cases hp with
  | runs c on => exact haway c ((on.current c).mpr rfl)
  | queued _ hqueued => exact hqueued hoff
  | sleeps _ _ _ _ hbefore =>
    rw [htest] at hbefore
    cases hbefore
  | woken _ _ _ _ hwoken =>
    rw [hwakes] at hwoken
    cases hwoken

theorem late_step {s' : State n N} {m : Move n N} (hc : ChildAt w s)
    (hdone : s.wait.reaps = some w.child → s.exit = .done) (hlate : ScansLate s m)
    (hs : step w s m = some s') : s'.wait.reaps = some w.child → s'.exit = .done := by
  intro hreaps
  cases m with
  | parent c =>
    simp only [step] at hs
    split at hs
    · obtain ⟨⟨σ, pc⟩, hr, rfl⟩ := Option.map_eq_some_iff.mp hs
      rcases waitStep_reaps hr hreaps with hold | ⟨hscan, hfind⟩
      · exact hdone hold
      · -- what the scan finds is a zombie, so the child is past that store
        refine hlate hscan ?_
        by_contra hpast
        have hbefore := hc.before (by simpa using hpast)
        rw [(findZombie_some hfind).1] at hbefore
        cases hbefore
    · cases hs
  | child c =>
    simp only [step] at hs
    split at hs
    · obtain ⟨⟨σ, pc⟩, hr, rfl⟩ := Option.map_eq_some_iff.mp hs
      have hd := hdone hreaps
      rw [hd] at hr
      cases hr
    · cases hs
  | other l =>
    simp only [step] at hs
    split at hs
    · obtain ⟨σ, hr, rfl⟩ := Option.map_eq_some_iff.mp hs
      exact hdone hreaps
    · cases hs

/-- **A task is reaped only when nothing runs on it**, in every run whose
scans are late. -/
theorem reaped_off_cpu (w : Setup n N) (s₀ : State n N) (h₀ : Started w s₀)
    (ms : List (Move n N)) (hlate : Guarded (step w) ScansLate s₀ ms) (s : State n N)
    (hrun : runSteps (step w) s₀ ms = some s) : ¬ ReapsRunning w s := by
  obtain ⟨-, hc, hdone⟩ := runSteps_guarded
    (I := fun s => Base w s ∧ ChildAt w s ∧ (s.wait.reaps = some w.child → s.exit = .done))
    (fun s m s' ⟨hb, hc, hdone⟩ hm hs =>
      have hchild := child_step hb hc hs
      ⟨hchild.1, hchild.2, late_step hc hdone hm hs⟩)
    ms ⟨h₀.base, h₀.childAt, fun hr => by simp [h₀.wait, WaitPc.reaps] at hr⟩ hlate hrun
  rintro ⟨hreaps, c, hcur⟩
  exact (hc.gone (hdone hreaps)).2 c hcur

/-! ## Two CPUs -/

/-- Two CPUs, with their idle tasks in slots 0 and 1; the parent is in slot
2 and its child in slot 3. -/
def family : Setup 2 4 where
  idle := Fin.castAdd 2
  parent := 2
  child := 3
  wpid := none
  nohang := false
  code := 7
  ne := by decide
  parent_ne_idle := by decide
  child_ne_idle := by decide

/-- From boot: the parent is spawned and runs on CPU 0, and forks; its child
goes to the idle CPU 1. -/
def familyOps : List (Fin 2 × Op 4) :=
  [(0, .spawn true), (0, .schedule), (0, .fork true), (1, .schedule)]

def begun : State 2 4 where
  kernel := (runSteps (exec family.idle) (boot family.idle) familyOps).getD (boot family.idle)
  wait := .scan
  exit := .signal

theorem begun_started : Started family begun where
  queues := by
    obtain ⟨σ, hrun, hinv⟩ := runSteps_guarded_total (I := fun σ => ∃ q, Inv family.idle σ q)
      (fun σ l ⟨_, h⟩ hl => h.exec l hl) familyOps ⟨_, Inv.boot⟩
      (by decide +kernel : Guarded (exec family.idle) (Called family.idle) (boot family.idle) _)
    have hk : begun.kernel = σ := by
      simp only [begun, hrun, Option.getD_some]
    exact hk ▸ hinv
  parentRuns := ⟨0, by decide +kernel, by decide +kernel⟩
  parentState := by decide +kernel
  childRuns := ⟨1, by decide +kernel, by decide +kernel⟩
  childState := by decide +kernel
  parent := by decide +kernel
  pid := by decide +kernel
  covers := Or.inl rfl
  wait := rfl
  exit := rfl

/-- The parent sleeps before the child exits, is woken, and reaps it. -/
def sleepFirst : List (Move 2 4) :=
  List.replicate 5 (.parent 0) ++ List.replicate 5 (.child 1) ++
    [.other (0, .schedule)] ++ List.replicate 4 (.parent 0)

theorem sleepFirst_no_lost_wakeup : (runSteps (step family) begun sleepFirst).isSome = true ∧
      ∀ s, runSteps (step family) begun sleepFirst = some s → ¬ LostWakeup family s :=
  have ht : Guarded (step family) Timely begun sleepFirst := by decide +kernel
  ⟨by decide +kernel, no_lost_wakeup family begun begun_started sleepFirst ht⟩

theorem sleepFirst_reaped_off_cpu : (runSteps (step family) begun sleepFirst).isSome = true ∧
      ∀ s, runSteps (step family) begun sleepFirst = some s → ¬ ReapsRunning family s :=
  have hl : Guarded (step family) ScansLate begun sleepFirst := by decide +kernel
  ⟨by decide +kernel, reaped_off_cpu family begun begun_started sleepFirst hl⟩

/-- **The wake-up is lost**: the parent scans, the child goes through its
exit up to its test, which finds the parent still running, and the parent
goes to sleep. -/
theorem wakeup_lost : Started family begun ∧ ∃ s, runSteps (step family) begun
        ([.parent 0] ++ List.replicate 4 (.child 1) ++ List.replicate 4 (.parent 0)) = some s ∧
      LostWakeup family s := by
  refine ⟨begun_started, ?_⟩
  have h : ((runSteps (step family) begun
      ([.parent 0] ++ List.replicate 4 (.child 1) ++ List.replicate 4 (.parent 0))).map
        fun s => decide (LostWakeup family s)) = some true := by decide +kernel
  obtain ⟨s, hs, hl⟩ := Option.map_eq_some_iff.mp h
  exact ⟨s, hs, of_decide_eq_true hl⟩

/-- **A running child is reaped**: the parent scans right after the child's
`T_ZOMBIE` store, and is about to destroy the address space that CPU 1
runs on. -/
theorem reaped_while_running : Started family begun ∧ ∃ s, runSteps (step family) begun
        (List.replicate 2 (.child 1) ++ [.parent 0]) = some s ∧ ReapsRunning family s := by
  refine ⟨begun_started, ?_⟩
  have h : ((runSteps (step family) begun (List.replicate 2 (.child 1) ++ [.parent 0])).map
      fun s => decide (ReapsRunning family s)) = some true := by decide +kernel
  obtain ⟨s, hs, hr⟩ := Option.map_eq_some_iff.mp h
  exact ⟨s, hs, of_decide_eq_true hr⟩

end Lnxrm.Process.WaitExit
