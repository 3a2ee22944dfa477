import Lnxrm.Process.RunQueues

/-!
# Where a task is, under the scheduler's operations

Proof layer. Seen from one task, an operation of the scheduler either
leaves it where it is, or moves it: `runqueue_add` puts it on a queue,
`schedule` takes it from the queue of a CPU onto that CPU, or off the CPU
that it ran on. No operation of the scheduler touches pids, parents or
exit codes.
-/

namespace Lnxrm.Process

open Function

variable {n N : ℕ} {idle : Fin n → Fin N} {σ σ' σ'' : Kernel n N} {q : Fin n → List (Fin N)}
  {c : Fin n} {t τ : Fin N}

/-- The fields that belong to the process tree are the same. -/
structure SameTree (σ σ' : Kernel n N) : Prop where
  pid : σ'.pid = σ.pid
  parent : σ'.parent = σ.parent
  exitCode : σ'.exitCode = σ.exitCode
  pidCounter : σ'.pidCounter = σ.pidCounter

namespace SameTree

theorem refl (σ : Kernel n N) : SameTree σ σ := ⟨rfl, rfl, rfl, rfl⟩

theorem trans (h : SameTree σ σ') (h' : SameTree σ' σ'') : SameTree σ σ'' :=
  ⟨h'.pid.trans h.pid, h'.parent.trans h.parent, h'.exitCode.trans h.exitCode,
    h'.pidCounter.trans h.pidCounter⟩

end SameTree

/-- The task `t` has its state and its place in both. -/
structure SameAt (t : Fin N) (σ σ' : Kernel n N) : Prop where
  state : σ'.state t = σ.state t
  rqCpu : σ'.rqCpu t = σ.rqCpu t
  current : ∀ d, σ'.current d = t ↔ σ.current d = t

namespace SameAt

theorem refl (t : Fin N) (σ : Kernel n N) : SameAt t σ σ := ⟨rfl, rfl, fun _ => Iff.rfl⟩

theorem trans (h : SameAt t σ σ') (h' : SameAt t σ' σ'') : SameAt t σ σ'' :=
  ⟨h'.state.trans h.state, h'.rqCpu.trans h.rqCpu, fun d => (h'.current d).trans (h.current d)⟩

end SameAt

/-- The task `t` is taken from the queue of the CPU `c` and runs there. -/
structure Picked (t : Fin N) (c : Fin n) (σ σ' : Kernel n N) : Prop where
  queued : σ.rqCpu t = some c
  rqCpu : σ'.rqCpu t = none
  state : σ'.state t = .running
  current : ∀ d, σ'.current d = t ↔ d = c ∨ σ.current d = t

/-! ## Single operations -/

theorem setState_sameTree (st : TaskState) : SameTree σ (σ.setState t st) := ⟨rfl, rfl, rfl, rfl⟩

theorem setState_sameAt {st : TaskState} (ht : t ≠ τ) : SameAt τ σ (σ.setState t st) :=
  ⟨update_of_ne ht.symm _ _, rfl, fun _ => Iff.rfl⟩

theorem runqueueAdd_sameTree : SameTree σ (runqueueAdd idle σ c t) := by
  unfold runqueueAdd
  split <;> exact ⟨rfl, rfl, rfl, rfl⟩

theorem runqueueAdd_state : (runqueueAdd idle σ c t).state = σ.state := by
  unfold runqueueAdd
  split <;> rfl

theorem runqueueAdd_current : (runqueueAdd idle σ c t).current = σ.current := by
  unfold runqueueAdd
  split <;> rfl

theorem runqueueAdd_sameAt (ht : t ≠ τ) : SameAt τ σ (runqueueAdd idle σ c t) := by
  refine ⟨congrFun runqueueAdd_state τ, ?_, fun d => by rw [runqueueAdd_current]⟩
  unfold runqueueAdd
  split
  · rfl
  · exact update_of_ne ht.symm _ _

theorem runqueueAdd_queued : (runqueueAdd idle σ c t).rqCpu t ≠ none := by
  unfold runqueueAdd
  split
  · assumption
  · simp

theorem wake_sameTree : SameTree σ (wake idle σ c t) :=
  (setState_sameTree .runnable).trans runqueueAdd_sameTree

theorem wake_sameAt (ht : t ≠ τ) : SameAt τ σ (wake idle σ c t) :=
  (setState_sameAt ht).trans (runqueueAdd_sameAt ht)

theorem wake_state : (wake idle σ c t).state t = .runnable := by
  unfold wake
  rw [runqueueAdd_state]
  exact update_self ..

theorem wake_current : (wake idle σ c t).current = σ.current := runqueueAdd_current

namespace Inv

theorem remove_spec (h : Inv idle σ q) (hr : runqueueRemove σ t = some σ') :
    SameTree σ σ' ∧ (∀ τ, t ≠ τ → SameAt τ σ σ') ∧ σ'.state = σ.state ∧ σ'.current = σ.current ∧
      σ'.rqCpu t = none ∧ Inv idle σ' fun c => (q c).erase t := by
  obtain ⟨next', heq, h'⟩ := h.remove t
  rw [heq] at hr
  cases hr
  refine ⟨⟨rfl, rfl, rfl, rfl⟩, fun τ hτ => ⟨rfl, ?_, fun _ => Iff.rfl⟩, rfl, rfl,
    update_self .., h'⟩
  exact update_of_ne hτ.symm _ _

theorem remove_returns (h : Inv idle σ q) (t : Fin N) :
    ∃ σ' q', runqueueRemove σ t = some σ' ∧ σ'.current = σ.current ∧ Inv idle σ' q' := by
  obtain ⟨next', heq, h'⟩ := h.remove t
  exact ⟨_, _, heq, rfl, h'⟩

theorem pickNext_queued (h : Inv idle σ q) (hp : pickNext σ c = some t) : σ.rqCpu t = some c := by
  rw [h.pickNext_eq] at hp
  exact (h.link c t).mp (List.mem_of_mem_head? hp)

/-- The end of `schedule`, seen from a task that neither leaves the CPU nor
gets it, from the one that gets it, and from the one that leaves. -/
theorem switchAway_spec {next : Fin N} (h : Inv idle σ q) (hnext : next ≠ σ.current c)
    (hs : Process.switchAway idle σ c next = some σ') :
    SameTree σ σ' ∧ (∀ τ, τ ≠ next → τ ≠ σ.current c → SameAt τ σ σ') ∧
      σ'.current = update σ.current c next ∧
      σ'.state next = .running ∧ σ'.rqCpu next = none ∧
      if σ.state (σ.current c) = .running ∧ σ.pid (σ.current c) ≠ 0 then
        σ'.state (σ.current c) = .runnable ∧ σ'.rqCpu (σ.current c) ≠ none
      else σ'.state (σ.current c) = σ.state (σ.current c) ∧
        σ'.rqCpu (σ.current c) = σ.rqCpu (σ.current c) := by
  unfold Process.switchAway at hs
  obtain ⟨ρ, hρ, rfl⟩ := Option.map_eq_some_iff.mp hs
  have hself : ∀ τ, τ ≠ next → (switchTo ρ c next).state τ = ρ.state τ := fun τ hτ =>
    update_of_ne hτ _ _
  have hcur : ∀ τ, τ ≠ next → τ ≠ σ.current c → ρ.current = σ.current →
      ∀ d, (switchTo ρ c next).current d = τ ↔ σ.current d = τ := by
    intro τ hτ hτc hρc d
    show update ρ.current c next d = τ ↔ _
    rw [hρc]
    by_cases hd : d = c
    · subst hd
      rw [update_self]
      exact ⟨fun e => absurd e.symm hτ, fun e => absurd e.symm hτc⟩
    · rw [update_of_ne hd]
  by_cases hrun : σ.state (σ.current c) = .running ∧ σ.pid (σ.current c) ≠ 0
  · rw [if_pos hrun] at hρ
    obtain ⟨q', hw⟩ := h.wake (t := σ.current c)
      (fun d e => hrun.2 (e ▸ h.idlePid d)) c
    obtain ⟨htree, hsame, hst, hcu, hrq, -⟩ := hw.remove_spec hρ
    rw [if_pos hrun]
    have hρc : ρ.current = σ.current := hcu.trans wake_current
    refine ⟨(wake_sameTree.trans htree).trans ⟨rfl, rfl, rfl, rfl⟩, fun τ hτ hτc => ?_, ?_,
      update_self .., hrq, ?_, ?_⟩
    · have h₀ : SameAt τ σ (Process.wake idle σ c (σ.current c)) :=
        wake_sameAt hτc.symm
      have h₁ := h₀.trans (hsame τ hτ.symm)
      exact ⟨(hself τ hτ).trans h₁.state, h₁.rqCpu, hcur τ hτ hτc hρc⟩
    · show update ρ.current c next = _
      rw [hρc]
    · rw [hself _ hnext.symm, hst]
      exact wake_state
    · have := (hsame (σ.current c) hnext).rqCpu
      show ρ.rqCpu _ ≠ none
      rw [this]
      exact runqueueAdd_queued
  rw [if_neg hrun] at hρ
  obtain ⟨htree, hsame, hst, hρc, hrq, -⟩ := h.remove_spec hρ
  rw [if_neg hrun]
  refine ⟨htree.trans ⟨rfl, rfl, rfl, rfl⟩, fun τ hτ hτc => ?_, ?_, update_self ..,
    hrq, ?_, (hsame _ hnext).rqCpu⟩
  · have h₁ := hsame τ hτ.symm
    exact ⟨(hself τ hτ).trans h₁.state, h₁.rqCpu, hcur τ hτ hτc hρc⟩
  · show update ρ.current c next = _
    rw [hρc]
  · rw [hself _ hnext.symm, hst]

/-- **`schedule`** keeps the task that runs, at most taking it off a queue,
or switches to the idle task or to the head of the CPU's queue. -/
theorem schedule_cases (h : Inv idle σ q) (hs : Process.schedule idle σ c = some σ') :
    ((σ.state (σ.current c) = .running ∨ σ.state (σ.current c) = .runnable ∨
        idle c = σ.current c ∨ σ.rqCpu (σ.current c) = some c) ∧
      SameTree σ σ' ∧ σ'.state = σ.state ∧ σ'.current = σ.current ∧
      (∀ τ, τ ≠ σ.current c → SameAt τ σ σ') ∧
      (σ'.rqCpu (σ.current c) = σ.rqCpu (σ.current c) ∨ σ'.rqCpu (σ.current c) = none)) ∨
    ∃ next, next ≠ σ.current c ∧ (next = idle c ∨ σ.rqCpu next = some c) ∧
      Process.switchAway idle σ c next = some σ' := by
  have hstay : SameTree σ σ ∧ σ.state = σ.state ∧ σ.current = σ.current ∧
      (∀ τ, τ ≠ σ.current c → SameAt τ σ σ) ∧
      (σ.rqCpu (σ.current c) = σ.rqCpu (σ.current c) ∨ σ.rqCpu (σ.current c) = none) :=
    ⟨SameTree.refl σ, rfl, rfl, fun τ _ => SameAt.refl τ σ, Or.inl rfl⟩
  unfold Process.schedule at hs
  cases hp : pickNext σ c with
  | none =>
    simp only [hp] at hs
    split at hs
    · rename_i hrun
      cases hs
      exact Or.inl ⟨by tauto, hstay⟩
    · split at hs
      · rename_i hidle
        cases hs
        exact Or.inl ⟨by tauto, hstay⟩
      · rename_i hidle
        exact Or.inr ⟨idle c, hidle, Or.inl rfl, hs⟩
  | some next =>
    have hq := h.pickNext_queued hp
    simp only [hp] at hs
    split at hs
    · rename_i hnext
      subst hnext
      split at hs
      · obtain ⟨htree, hsame, hst, hcur, hrq, -⟩ := h.remove_spec hs
        exact Or.inl ⟨by tauto, htree, hst, hcur, fun τ hτ => hsame τ hτ.symm,
          Or.inr hrq⟩
      · cases hs
        exact Or.inl ⟨by tauto, hstay⟩
    · rename_i hnext
      exact Or.inr ⟨next, hnext, Or.inr hq, hs⟩

theorem schedule_sameTree (h : Inv idle σ q) (hs : Process.schedule idle σ c = some σ') :
    SameTree σ σ' := by
  rcases h.schedule_cases hs with ⟨-, htree, -⟩ | ⟨next, hne, -, hsw⟩
  · exact htree
  · exact (h.switchAway_spec hne hsw).1

/-- **A task that does not run on the CPU** stays where it is, or is taken
from the CPU's queue and runs. -/
theorem schedule_other (h : Inv idle σ q) (hs : Process.schedule idle σ c = some σ')
    (hcur : σ.current c ≠ τ) (hidle : idle c ≠ τ) :
    SameAt τ σ σ' ∨ Picked τ c σ σ' := by
  rcases h.schedule_cases hs with ⟨-, -, -, -, hsame, -⟩ | ⟨next, hne, hnext, hsw⟩
  · exact Or.inl (hsame τ hcur.symm)
  obtain ⟨-, hsame, hcu, hst, hrq, -⟩ := h.switchAway_spec hne hsw
  by_cases hτ : τ = next
  · subst hτ
    have hq : σ.rqCpu τ = some c := hnext.resolve_left hidle.symm
    refine Or.inr ⟨hq, hrq, hst, fun d => ?_⟩
    rw [hcu]
    by_cases hd : d = c
    · simp [hd]
    · simp [hd]
  · exact Or.inl (hsame τ hτ hcur.symm)

/-- **A task that cannot run leaves the CPU.** -/
theorem schedule_leaves (h : Inv idle σ q) (hs : Process.schedule idle σ c = some σ')
    (hcur : σ.current c = τ) (hidle : idle c ≠ τ) (hrq : σ.rqCpu τ = none)
    (hrun : σ.state τ ≠ .running) (hrunnable : σ.state τ ≠ .runnable) :
    σ'.state τ = σ.state τ ∧ σ'.rqCpu τ = none ∧
      ∀ d, σ'.current d = τ ↔ d ≠ c ∧ σ.current d = τ := by
  subst hcur
  rcases h.schedule_cases hs with ⟨hwhy, -⟩ | ⟨next, hne, -, hsw⟩
  · rw [hrq] at hwhy
    simp [hrun, hrunnable, hidle] at hwhy
  obtain ⟨-, -, hcu, -, -, hself⟩ := h.switchAway_spec hne hsw
  rw [if_neg fun hr => hrun hr.1] at hself
  refine ⟨hself.1, hself.2.trans hrq, fun d => ?_⟩
  rw [hcu]
  by_cases hd : d = c
  · subst hd
    simp [hne]
  · simp [hd]

theorem schedule_inUse (h : Inv idle σ q) (hs : Process.schedule idle σ c = some σ')
    (hτ : σ.state τ ≠ .unused) : σ'.state τ ≠ .unused := by
  rcases h.schedule_cases hs with ⟨-, -, hst, -⟩ | ⟨next, hne, -, hsw⟩
  · rwa [hst]
  obtain ⟨-, hsame, -, hst, -, hself⟩ := h.switchAway_spec hne hsw
  by_cases hnext : τ = next
  · rw [hnext, hst]
    simp
  · by_cases hcur : τ = σ.current c
    · subst hcur
      split at hself
      · simp [hself.1]
      · rwa [hself.1]
    · rwa [(hsame τ hnext hcur).state]

theorem freeSlot_spec (h : Inv idle σ q) (ht : ∀ d, idle d ≠ t)
    (hf : taskFreeSlot σ t = some σ') :
    SameTree σ σ' ∧ (∀ τ, t ≠ τ → SameAt τ σ σ') ∧ σ'.current = σ.current ∧ σ'.rqCpu t = none ∧
      σ'.state t = .unused ∧ ∃ q', Inv idle σ' q' := by
  have hinv : ∃ q', Inv idle σ' q' := by
    obtain ⟨σ₁, heq, q', h'⟩ := h.freeSlot ht
    rw [heq] at hf
    cases hf
    exact ⟨q', h'⟩
  have hrelease : ∀ ρ : Kernel n N, SameTree ρ (ρ.release t) ∧
      (∀ τ, t ≠ τ → SameAt τ ρ (ρ.release t)) ∧ (ρ.release t).current = ρ.current ∧
      (ρ.release t).rqCpu t = none ∧ (ρ.release t).state t = .unused := by
    intro ρ
    refine ⟨⟨rfl, rfl, rfl, rfl⟩, fun τ hτ => ⟨?_, ?_, fun _ => Iff.rfl⟩, rfl,
      update_self .., update_self ..⟩
    · exact update_of_ne hτ.symm _ _
    · exact update_of_ne hτ.symm _ _
  obtain ⟨ρ, hρ, rfl⟩ := Option.map_eq_some_iff.mp hf
  obtain ⟨htree, hsame, hcur, hrq, hst⟩ := hrelease ρ
  have hfirst : SameTree σ ρ ∧ (∀ τ, t ≠ τ → SameAt τ σ ρ) ∧ ρ.current = σ.current := by
    split at hρ
    · obtain ⟨h₁, h₂, -, h₃, -⟩ := h.remove_spec hρ
      exact ⟨h₁, h₂, h₃⟩
    · cases hρ
      exact ⟨SameTree.refl _, fun τ _ => SameAt.refl τ _, rfl⟩
  exact ⟨hfirst.1.trans htree, fun τ hτ => (hfirst.2.1 τ hτ).trans (hsame τ hτ),
    hcur.trans hfirst.2.2, hrq, hst, hinv⟩

end Inv

end Lnxrm.Process
