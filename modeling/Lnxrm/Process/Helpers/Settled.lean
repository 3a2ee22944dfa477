import Lnxrm.Process.Helpers.Placement

/-!
# Every task in one place

Proof layer. Between two operations each CPU runs a task of its own, which
is `T_RUNNING` and on no queue, and what is queued is `T_RUNNABLE`
(`Placed` and `Running`). So an unused slot and a zombie are on no CPU and
on no queue. What the scheduler does to the tasks moves none of them into
or out of `T_UNUSED` and `T_ZOMBIE` (`Moves`).
-/

namespace Lnxrm.Process

open Function

variable {n N : ℕ} {idle : Fin n → Fin N} {σ σ' σ'' : Kernel n N} {c : Fin n} {t : Fin N}

/-- The process tree is the same, and so are the unused slots and the
zombies. -/
structure Moves (σ σ' : Kernel n N) : Prop extends SameTree σ σ' where
  unused : ∀ t, σ'.state t = .unused ↔ σ.state t = .unused
  zombie : ∀ t, σ'.state t = .zombie ↔ σ.state t = .zombie

namespace Moves

theorem refl (σ : Kernel n N) : Moves σ σ :=
  ⟨SameTree.refl σ, fun _ => Iff.rfl, fun _ => Iff.rfl⟩

theorem trans (h : Moves σ σ') (h' : Moves σ' σ'') : Moves σ σ'' :=
  ⟨h.toSameTree.trans h'.toSameTree, fun t => (h'.unused t).trans (h.unused t),
    fun t => (h'.zombie t).trans (h.zombie t)⟩

/-- A step that changes the state of no task but those that are, and stay,
neither unused nor zombies. -/
theorem of_state (htree : SameTree σ σ')
    (h : ∀ t, σ'.state t = σ.state t ∨ (σ.state t ≠ .unused ∧ σ.state t ≠ .zombie) ∧
      σ'.state t ≠ .unused ∧ σ'.state t ≠ .zombie) : Moves σ σ' := by
  refine ⟨htree, fun t => ?_, fun t => ?_⟩
  · rcases h t with e | ⟨⟨h₁, -⟩, h₂, -⟩
    · rw [e]
    · exact ⟨fun e => absurd e h₂, fun e => absurd e h₁⟩
  · rcases h t with e | ⟨⟨-, h₁⟩, -, h₂⟩
    · rw [e]
    · exact ⟨fun e => absurd e h₂, fun e => absurd e h₁⟩

end Moves

/-- **Every task is in one place**: on a queue and `T_RUNNABLE`, or on one
CPU, or on neither. -/
structure Placed (idle : Fin n → Fin N) (σ : Kernel n N) : Prop where
  queues : ∃ q, Inv idle σ q
  off : ∀ c, σ.rqCpu (σ.current c) = none
  inj : ∀ c d, σ.current c = σ.current d → c = d
  idleAt : ∀ c d, σ.current c = idle d → c = d
  queued : ∀ t, σ.rqCpu t ≠ none → σ.state t = .runnable

/-- Every CPU but those in `S` runs a task that is `T_RUNNING`. -/
def Running (S : Fin n → Prop) (σ : Kernel n N) : Prop :=
  ∀ d, ¬ S d → σ.state (σ.current d) = .running

/-- Nothing is left out. -/
abbrev AllRunning (σ : Kernel n N) : Prop := Running (fun _ => False) σ

/-- Tasks are woken: whatever a CPU runs stays as it is. -/
structure Wakes (idle : Fin n → Fin N) (σ σ' : Kernel n N) : Prop extends Moves σ σ' where
  placed : Placed idle σ'
  current : σ'.current = σ.current
  running : ∀ S, Running S σ → Running S σ'

theorem away_of_state (hrun : AllRunning σ) (ht : σ.state t ≠ .running) : ∀ d, σ.current d ≠ t := by
  rintro d rfl
  exact ht (hrun d id)

theorem rqCpu_eq_of_sameAt (hsame : ∀ τ, t ≠ τ → SameAt τ σ σ') (ht : σ'.rqCpu t = σ.rqCpu t) :
    σ'.rqCpu = σ.rqCpu := by
  funext τ
  by_cases e : t = τ
  · rw [← e, ht]
  · exact (hsame τ e).rqCpu

theorem update_of_queued {st : TaskState} (ht : σ.rqCpu t = none) (τ : Fin N)
    (hτ : σ.rqCpu τ ≠ none) : update σ.state t st τ = σ.state τ := by
  refine update_of_ne ?_ _ _
  rintro rfl
  exact hτ ht

namespace Placed

theorem of_same (h : Placed idle σ) (hinv : ∃ q, Inv idle σ' q) (hcur : σ'.current = σ.current)
    (hrq : σ'.rqCpu = σ.rqCpu) (hst : ∀ t, σ.rqCpu t ≠ none → σ'.state t = σ.state t) :
    Placed idle σ' where
  queues := hinv
  off c := by
    rw [hrq, hcur]
    exact h.off c
  inj c d := by
    rw [hcur]
    exact h.inj c d
  idleAt c d := by
    rw [hcur]
    exact h.idleAt c d
  queued t ht := by
    rw [hrq] at ht
    rw [hst t ht]
    exact h.queued t ht

theorem off_of_state (h : Placed idle σ) (ht : σ.state t ≠ .runnable) : σ.rqCpu t = none := by
  by_contra hq
  exact ht (h.queued t hq)

theorem setState (h : Placed idle σ) (st : TaskState) (hst : st ≠ .unused)
    (hidle : ∀ d, idle d ≠ t) (ht : σ.rqCpu t = none) : Placed idle (σ.setState t st) := by
  obtain ⟨q, hq⟩ := h.queues
  exact h.of_same ⟨q, hq.setState st hst (Or.inl hidle)⟩ rfl rfl (update_of_queued ht)

theorem remove (h : Placed idle σ) (ht : σ.rqCpu t = none) :
    ∃ σ', runqueueRemove σ t = some σ' ∧ Placed idle σ' ∧ SameTree σ σ' ∧ σ'.state = σ.state ∧
      σ'.current = σ.current := by
  obtain ⟨q, hq⟩ := h.queues
  obtain ⟨σ', q', hr, -⟩ := hq.remove_returns t
  obtain ⟨htree, hsame, hst, hcur, hrq, hinv⟩ := hq.remove_spec hr
  have hrq' := rqCpu_eq_of_sameAt hsame (hrq.trans ht.symm)
  exact ⟨σ', hr, h.of_same ⟨_, hinv⟩ hcur hrq' fun τ _ => congrFun hst τ, htree, hst, hcur⟩

theorem add (h : Placed idle σ) (hst : σ.state t = .runnable) (haway : ∀ d, σ.current d ≠ t)
    (c : Fin n) : Placed idle (runqueueAdd idle σ c t) := by
  obtain ⟨q, hq⟩ := h.queues
  refine ⟨hq.add (hq.ne_idle (by simp [hst])) (by simp [hst]) c, fun d => ?_, fun d e => ?_,
    fun d e => ?_, fun τ hτ => ?_⟩
  · rw [runqueueAdd_current, (runqueueAdd_sameAt fun e => haway d e.symm).rqCpu]
    exact h.off d
  · rw [runqueueAdd_current]
    exact h.inj d e
  · rw [runqueueAdd_current]
    exact h.idleAt d e
  · rw [runqueueAdd_state]
    by_cases e : t = τ
    · rw [← e]
      exact hst
    · rw [(runqueueAdd_sameAt e).rqCpu] at hτ
      exact h.queued τ hτ

theorem wakes (h : Placed idle σ) : Wakes idle σ σ := ⟨Moves.refl σ, h, rfl, fun _ => id⟩

theorem wake (h : Placed idle σ) (hst : σ.state t = .sleeping ∨ σ.state t = .stopped)
    (haway : ∀ d, σ.current d ≠ t) (c : Fin n) : Wakes idle σ (wake idle σ c t) := by
  obtain ⟨q, hq⟩ := h.queues
  have hidle : ∀ d, idle d ≠ t := hq.ne_idle (by rcases hst with e | e <;> simp [e])
  have hoff : σ.rqCpu t = none := h.off_of_state (by rcases hst with e | e <;> simp [e])
  refine ⟨.of_state wake_sameTree fun τ => ?_,
    (h.setState .runnable (by simp) hidle hoff).add (update_self ..) haway c, wake_current,
    fun S hS d hd => ?_⟩
  · by_cases e : t = τ
    · subst e
      refine Or.inr ⟨?_, ?_⟩
      · rcases hst with e | e <;> simp [e]
      · simp [wake_state]
    · exact Or.inl (wake_sameAt e).state
  · rw [wake_current, (wake_sameAt fun e => haway d e.symm).state]
    exact hS d hd

/-- **`schedule`** of a CPU whose task is not `T_RUNNABLE`: afterwards the
CPU runs a task that is `T_RUNNING`. -/
theorem schedule (hinj : Injective idle) (h : Placed idle σ)
    (hrun : Running (fun d => d = c) σ) (hc : σ.state (σ.current c) ≠ .runnable) :
    ∃ σ', schedule idle σ c = some σ' ∧ Placed idle σ' ∧ AllRunning σ' ∧ Moves σ σ' := by
  obtain ⟨q, hq⟩ := h.queues
  obtain ⟨σ', hs, hinv⟩ := hq.schedule c
  refine ⟨σ', hs, ?_⟩
  rcases hq.schedule_cases hs with ⟨hwhy, htree, hst, hcur, hsame, hrq⟩ | ⟨next, hne, hnext, hsw⟩
  · have hstays : σ.state (σ.current c) = .running := by
      rcases hwhy with e | e | e | e
      · exact e
      · exact absurd e hc
      · rw [← e]
        exact hq.idleRuns c
      · rw [h.off c] at e
        cases e
    have hrq' : σ'.rqCpu = σ.rqCpu := by
      refine rqCpu_eq_of_sameAt (t := σ.current c) (fun τ hτ => hsame τ hτ.symm) ?_
      rcases hrq with e | e
      · exact e
      · rw [e, h.off c]
    refine ⟨h.of_same hinv hcur hrq' fun τ _ => congrFun hst τ, fun d _ => ?_,
      .of_state htree fun τ => Or.inl (congrFun hst τ)⟩
    rw [hst, hcur]
    by_cases hd : d = c
    · rw [hd]
      exact hstays
    · exact hrun d hd
  obtain ⟨htree, hsame, hcur, hstn, hrqn, hself⟩ := hq.switchAway_spec hne hsw
  -- the task that is picked is on no CPU
  have hpicked : ∀ d, d ≠ c → σ.current d ≠ next := by
    rintro d hd rfl
    rcases hnext with e | e
    · exact hd (h.idleAt d c e)
    · rw [h.off d] at e
      cases e
  have hlive : σ.state next = .running ∨ σ.state next = .runnable := by
    rcases hnext with rfl | e
    · exact Or.inl (hq.idleRuns c)
    · exact Or.inr (h.queued next (by rw [e]; simp))
  have hother : ∀ d, d ≠ c → SameAt (σ.current d) σ σ' := fun d hd =>
    hsame _ (hpicked d hd) fun e => hd (h.inj d c e)
  have hat : ∀ d, d ≠ c → σ'.current d = σ.current d := fun d hd => by
    rw [hcur, update_of_ne hd]
  have hatc : σ'.current c = next := by rw [hcur, update_self]
  refine ⟨⟨hinv, fun d => ?_, fun d e => ?_, fun d e hde => ?_, fun τ hτ => ?_⟩, fun d _ => ?_,
    .of_state htree fun τ => ?_⟩
  · by_cases hd : d = c
    · rw [hd, hatc]
      exact hrqn
    · rw [hat d hd, (hother d hd).rqCpu]
      exact h.off d
  · intro hde
    by_cases hd : d = c
    · by_cases he : e = c
      · rw [hd, he]
      · rw [hd, hatc, hat e he] at hde
        exact absurd hde.symm (hpicked e he)
    · by_cases he : e = c
      · rw [he, hatc, hat d hd] at hde
        exact absurd hde (hpicked d hd)
      · rw [hat d hd, hat e he] at hde
        exact h.inj d e hde
  · by_cases hd : d = c
    · rw [hd, hatc] at hde
      rcases hnext with e' | e'
      · exact hd.trans (hinj (e'.symm.trans hde))
      · -- no idle task is queued
        exact absurd ((hq.link c next).mpr e') (hde ▸ hq.noIdle c e)
    · rw [hat d hd] at hde
      exact h.idleAt d e hde
  · by_cases hτn : τ = next
    · rw [hτn, hrqn] at hτ
      exact absurd rfl hτ
    by_cases hτc : τ = σ.current c
    · subst hτc
      split at hself
      · exact hself.1
      · rw [hself.2, h.off c] at hτ
        exact absurd rfl hτ
    · rw [(hsame τ hτn hτc).rqCpu] at hτ
      rw [(hsame τ hτn hτc).state]
      exact h.queued τ hτ
  · by_cases hd : d = c
    · rw [hd, hatc]
      exact hstn
    · rw [hat d hd, (hother d hd).state]
      exact hrun d hd
  by_cases hτn : τ = next
  · subst hτn
    refine Or.inr ⟨?_, ?_⟩
    · rcases hlive with e | e <;> simp [e]
    · simp [hstn]
  by_cases hτc : τ = σ.current c
  · subst hτc
    split at hself
    · rename_i hr
      exact Or.inr ⟨by simp [hr.1], by simp [hself.1]⟩
    · exact Or.inl hself.1
  · exact Or.inl (hsame τ hτn hτc).state

/-! ## What wakes a task -/

theorem sendSignal (h : Placed idle σ) (hrun : AllRunning σ) (c : Fin n) (t : Fin N) (sig : ℕ) :
    Wakes idle σ (sendSignal idle σ c t sig) := by
  rcases sendSignal_eq idle σ c t sig with e | ⟨hst, e⟩ <;> rw [e]
  · exact h.wakes
  · exact h.wake hst (away_of_state hrun (by rcases hst with e | e <;> simp [e])) c

theorem inputPush (h : Placed idle σ) (hrun : AllRunning σ) (c : Fin n) (t : Fin N) :
    Wakes idle σ (inputPush idle σ c t) := by
  unfold Process.inputPush
  split
  · rename_i hst
    exact h.wake (Or.inl hst) (away_of_state hrun (by simp [hst])) c
  · exact h.wakes

theorem tickFrom (jiffies : BitVec 64) (c : Fin n) (ts : List (Fin N)) : ∀ {σ : Kernel n N},
    Placed idle σ → AllRunning σ → Wakes idle σ (tickFrom idle jiffies c ts σ) := by
  induction ts with
  | nil => exact fun h _ => h.wakes
  | cons t ts ih =>
    intro σ h hrun
    rw [Process.tickFrom]
    split
    · rename_i hst
      have h₁ := h.wake (Or.inl hst.1) (away_of_state hrun (by simp [hst.1])) c
      have h₂ := ih h₁.placed (h₁.running _ hrun)
      exact ⟨h₁.toMoves.trans h₂.toMoves, h₂.placed, h₂.current.trans h₁.current,
        fun S hS => h₂.running S (h₁.running S hS)⟩
    · exact ih h hrun

end Placed

/-! ## The calls -/

/-- A slot was claimed and holds a new child of `cur`. -/
structure Forked (σ : Kernel n N) (cur ch : Fin N) (σ' : Kernel n N) : Prop where
  free : σ.state ch = .unused
  slot : ch.val ≠ 0
  state : σ'.state = update σ.state ch .runnable
  parent : σ'.parent = update σ.parent ch (some cur)
  pid : ∀ t, t ≠ ch → σ'.pid t = σ.pid t
  exitCode : σ'.exitCode = σ.exitCode
  newPid : σ'.pid ch = σ.pidCounter + 1
  pidCounter : σ'.pidCounter = σ.pidCounter + 1

/-- No slot changed but, at most, an unused one. -/
structure Unforked (σ σ' : Kernel n N) : Prop where
  state : σ'.state = σ.state
  parent : ∀ t, σ.state t ≠ .unused → σ'.parent t = σ.parent t
  pid : ∀ t, σ.state t ≠ .unused → σ'.pid t = σ.pid t
  exitCode : σ'.exitCode = σ.exitCode
  pidCounter : σ'.pidCounter = σ.pidCounter ∨ σ'.pidCounter = σ.pidCounter + 1

/-- The task `cur` has become a zombie, its children belong to `init`. -/
structure Exited (σ : Kernel n N) (cur : Fin N) (code : Int) (σ' : Kernel n N) : Prop where
  unused : ∀ t, σ'.state t = .unused ↔ σ.state t = .unused
  zombie : ∀ t, σ'.state t = .zombie ↔ t = cur ∨ σ.state t = .zombie
  parent : σ'.parent = (reparent σ cur).parent
  pid : σ'.pid = σ.pid
  exitCode : σ'.exitCode = update σ.exitCode cur code
  pidCounter : σ'.pidCounter = σ.pidCounter

/-- The slot of the zombie `t`, a child of `cur`, is free again. -/
structure Reaped (σ : Kernel n N) (cur t : Fin N) (σ' : Kernel n N) : Prop where
  zombie : σ.state t = .zombie
  child : σ.parent t = some cur
  state : σ'.state = update σ.state t .unused
  sameTree : SameTree σ σ'

namespace Placed

theorem claim (h : Placed idle σ) (hrun : AllRunning σ) (σ' : Kernel n N) (ht : σ.state t = .unused)
    (hnext : σ'.rqNext = (σ.claim t).rqNext) (hrq : σ'.rqCpu = (σ.claim t).rqCpu)
    (hst : σ'.state = update σ.state t .embryo) (hcur : σ'.current = σ.current)
    (hpid : ∀ τ, τ ≠ t → σ'.pid τ = σ.pid τ) :
    Placed idle σ' ∧ AllRunning σ' ∧ σ'.rqCpu t = none ∧ ∀ d, σ'.current d ≠ t := by
  obtain ⟨q, hq⟩ := h.queues
  have hclaim := hq.claim ht
  have hidle := hq.ne_idle (t := t) (by simp [ht])
  have hoff : σ.rqCpu t = none := h.off_of_state (by simp [ht])
  have haway := away_of_state hrun (t := t) (by simp [ht])
  have hrq' : σ'.rqCpu = σ.rqCpu := by
    rw [hrq]
    show update σ.rqCpu t none = _
    rw [← hoff, update_eq_self]
  have hinv : Inv idle σ' q := by
    refine hclaim.setPid (fun d => ?_) hnext hrq hst
    rw [hpid _ (hidle d)]
    exact hq.idlePid d
  refine ⟨h.of_same ⟨q, hinv⟩ hcur hrq' (hst ▸ update_of_queued hoff), fun d _ => ?_,
    by rw [hrq', hoff], fun d => by rw [hcur]; exact haway d⟩
  rw [hcur, hst, update_of_ne (haway d)]
  exact hrun d id

theorem ready (h : Placed idle σ) (hrun : AllRunning σ) (cur : Fin N) (ht : σ.state t = .embryo)
    (hoff : σ.rqCpu t = none) (haway : ∀ d, σ.current d ≠ t) (c : Fin n) :
    Placed idle (runqueueAdd idle (σ.ready t cur) c t) ∧
      AllRunning (runqueueAdd idle (σ.ready t cur) c t) := by
  obtain ⟨q, hq⟩ := h.queues
  have hne := hq.ne_idle (t := t) (by simp [ht])
  have hinv : Inv idle (σ.ready t cur) q :=
    ((hq.clear hoff).setState (t := t) .runnable (by simp) (Or.inl hne)).congr
      rfl rfl rfl rfl
  have hrq : (σ.ready t cur).rqCpu = σ.rqCpu := by
    show update σ.rqCpu t none = _
    rw [← hoff, update_eq_self]
  have hp : Placed idle (σ.ready t cur) := h.of_same ⟨q, hinv⟩ rfl hrq (update_of_queued hoff)
  refine ⟨hp.add (update_self ..) haway c, fun d _ => ?_⟩
  rw [runqueueAdd_current, runqueueAdd_state]
  show update σ.state t .runnable (σ.current d) = _
  rw [update_of_ne (haway d)]
  exact hrun d id

theorem freeSlot (h : Placed idle σ) (hrun : AllRunning σ) (hidle : ∀ d, idle d ≠ t)
    (hst : σ.state t ≠ .runnable) (haway : ∀ d, σ.current d ≠ t) :
    ∃ σ', taskFreeSlot σ t = some σ' ∧ Placed idle σ' ∧ AllRunning σ' ∧ SameTree σ σ' ∧
      σ'.state = update σ.state t .unused := by
  obtain ⟨q, hq⟩ := h.queues
  obtain ⟨σ', hf, -⟩ := hq.freeSlot hidle
  obtain ⟨htree, hsame, hcur, hrq, hunused, hinv⟩ := hq.freeSlot_spec hidle hf
  have hoff := h.off_of_state hst
  have hrq' := rqCpu_eq_of_sameAt hsame (hrq.trans hoff.symm)
  have hstate : σ'.state = update σ.state t .unused := by
    funext τ
    by_cases e : τ = t
    · subst e
      rw [hunused, update_self]
    · rw [update_of_ne e]
      exact (hsame τ (Ne.symm e)).state
  refine ⟨σ', hf, h.of_same hinv hcur hrq' (hstate ▸ update_of_queued hoff), fun d _ => ?_, htree,
    hstate⟩
  rw [hcur, hstate, update_of_ne (haway d)]
  exact hrun d id

/-- The task that runs on `c` is parked: it gets another state, and leaves
its queue. -/
theorem park {ρ : Kernel n N} {s : TaskState} (h : Placed idle σ) (hrun : AllRunning σ)
    (hidle : ∀ d, idle d ≠ σ.current c) (hs : s ≠ .unused) (hnext : ρ.rqNext = σ.rqNext)
    (hrq : ρ.rqCpu = σ.rqCpu) (hstate : ρ.state = update σ.state (σ.current c) s)
    (hpid : ρ.pid = σ.pid) (hcur : ρ.current = σ.current) :
    ∃ σ', runqueueRemove ρ (σ.current c) = some σ' ∧ Placed idle σ' ∧ SameTree ρ σ' ∧
      σ'.state = update σ.state (σ.current c) s ∧ σ'.current = σ.current ∧
      Running (fun d => d = c) σ' := by
  have h₁ := h.setState s hs hidle (h.off c)
  obtain ⟨q, hq⟩ := h₁.queues
  have h₂ : Placed idle ρ :=
    h₁.of_same ⟨q, hq.congr hnext hrq hstate hpid⟩ hcur hrq fun t _ => congrFun hstate t
  obtain ⟨σ', hrem, h', htree, hst', hcur'⟩ := h₂.remove (t := σ.current c) (by rw [hrq, h.off c])
  refine ⟨σ', hrem, h', htree, hst'.trans hstate, hcur'.trans hcur, fun d hd => ?_⟩
  rw [hst', hstate, hcur', hcur, update_of_ne fun e => hd (h.inj d c e)]
  exact hrun d id

/-- **`sys_fork`** -/
theorem fork (h : Placed idle σ) (hrun : AllRunning σ) (c : Fin n) (copied : Bool) :
    ∃ r, sysFork idle σ c copied = some r ∧ Placed idle r.2 ∧ AllRunning r.2 ∧
      match r.1 with
      | none => Unforked σ r.2
      | some ch => Forked σ (σ.current c) ch r.2 := by
  unfold sysFork taskAllocSlot
  cases hfirst : firstUnused σ with
  | none => exact ⟨_, rfl, h, hrun, rfl, fun _ _ => rfl, fun _ _ => rfl, rfl, Or.inl rfl⟩
  | some ch =>
    have hfree := Inv.unused_of_firstUnused hfirst
    have hslot : ch.val ≠ 0 := by
      have := List.find?_some hfirst
      simp only [Bool.decide_and, Bool.and_eq_true, decide_eq_true_eq] at this
      exact this.1
    have hembryo : ((σ.claim ch).embryo ch (σ.current c)).state = update σ.state ch .embryo := by
      show update (update σ.state ch .embryo) ch .embryo = _
      rw [update_idem]
    have hpid : ∀ τ, τ ≠ ch → ((σ.claim ch).embryo ch (σ.current c)).pid τ = σ.pid τ :=
      fun τ hτ => update_of_ne hτ _ _
    have hpar : ((σ.claim ch).embryo ch (σ.current c)).parent =
        update σ.parent ch (some (σ.current c)) := rfl
    obtain ⟨hp, hr, hoff, haway⟩ := h.claim hrun
      ((σ.claim ch).embryo ch (σ.current c)) hfree rfl rfl hembryo rfl hpid
    have hst : ((σ.claim ch).embryo ch (σ.current c)).state ch = .embryo := by
      rw [hembryo, update_self]
    have hcode : ((σ.claim ch).embryo ch (σ.current c)).exitCode = σ.exitCode := rfl
    cases copied with
    | true =>
      obtain ⟨hp', hr'⟩ := hp.ready hr (σ.current c) hst hoff haway c
      refine ⟨_, rfl, hp', hr', hfree, hslot, ?_, ?_, fun τ hτ => ?_, ?_, ?_,
        runqueueAdd_sameTree.pidCounter⟩
      · rw [runqueueAdd_state]
        show update ((σ.claim ch).embryo ch (σ.current c)).state ch .runnable = _
        rw [hembryo, update_idem]
      · rw [runqueueAdd_sameTree.parent]
        exact hpar
      · rw [runqueueAdd_sameTree.pid]
        exact hpid τ hτ
      · rw [runqueueAdd_sameTree.exitCode]
        exact hcode
      · rw [runqueueAdd_sameTree.pid]
        exact update_self ..
    | false =>
      obtain ⟨q, hq⟩ := hp.queues
      obtain ⟨σ', hf, hp', hr', htree, hstate⟩ :=
        hp.freeSlot hr (hq.ne_idle (t := ch) (by simp [hst])) (by simp [hst]) haway
      refine ⟨(none, σ'), ?_, hp', hr', ?_, fun τ hτ => ?_, fun τ hτ => ?_, ?_,
        Or.inr htree.pidCounter⟩
      · show (taskFreeSlot ((σ.claim ch).embryo ch (σ.current c)) ch).map _ = _
        rw [hf]
        rfl
      · rw [hstate, hembryo, update_idem, ← hfree, update_eq_self]
      · have hne : τ ≠ ch := fun e => hτ (e ▸ hfree)
        rw [htree.parent, hpar, update_of_ne hne]
      · have hne : τ ≠ ch := fun e => hτ (e ▸ hfree)
        rw [htree.pid]
        exact hpid τ hne
      · exact htree.exitCode.trans hcode

/-- **`sys_exit`** of a task that is not idle -/
theorem exit (hinj : Injective idle) (h : Placed idle σ) (hrun : AllRunning σ) (c : Fin n)
    (hidle : ∀ d, idle d ≠ σ.current c) (code : Int) :
    ∃ σ', sysExit idle σ c code = some σ' ∧ Placed idle σ' ∧ AllRunning σ' ∧
      Exited σ (σ.current c) code σ' := by
  obtain ⟨q, hq⟩ := h.queues
  have hrep : Placed idle (reparent σ (σ.current c)) :=
    h.of_same ⟨q, hq.congr rfl rfl rfl rfl⟩ rfl rfl fun _ _ => rfl
  -- the signal to the parent
  have hsig : Wakes idle (reparent σ (σ.current c))
      (signalParent idle (reparent σ (σ.current c)) c (σ.current c)) := by
    unfold signalParent
    split
    · exact hrep.wakes
    · exact hrep.sendSignal hrun c _ _
  unfold sysExit
  simp only
  generalize signalParent idle (reparent σ (σ.current c)) c (σ.current c) = σ₁ at hsig ⊢
  have hm₁ := hsig.toMoves
  have hcur₁ : σ₁.current c = σ.current c := congrFun hsig.current c
  rw [← hcur₁] at hidle
  -- the `T_ZOMBIE` store
  obtain ⟨σ₃, hrem, h₃, htree₃, hstate₃, hcur₃, hrun₃⟩ := hsig.placed.park (c := c)
    (ρ := σ₁.zombie (σ₁.current c) code) (s := .zombie) (hsig.running _ hrun) hidle (by simp)
    rfl rfl rfl rfl rfl
  rw [hcur₁] at hrem hstate₃ htree₃
  have hz₃ : σ₃.state (σ₃.current c) = .zombie := by
    rw [hstate₃, hcur₃, hcur₁, update_self]
  -- the wake-up of the parent
  have hwake : Wakes idle σ₃ (wakeParent idle σ₃ c (σ.current c)) := by
    unfold wakeParent
    split
    · exact h₃.wakes
    split
    · rename_i p _ hp
      have haway : ∀ d, σ₃.current d ≠ p := by
        rintro d rfl
        by_cases hd : d = c
        · rw [hd, hz₃] at hp
          cases hp.1
        · rw [hrun₃ d hd] at hp
          cases hp.1
      exact h₃.wake (Or.inl hp.1) haway c
    · exact h₃.wakes
  simp only [hrem, Option.bind_some]
  generalize wakeParent idle σ₃ c (σ.current c) = σ₄ at hwake ⊢
  have hz₄ : σ₄.state (σ₄.current c) = .zombie := by
    rw [hwake.current, hwake.zombie]
    exact hz₃
  obtain ⟨σ', hs, h', hrun', hm'⟩ :=
    hwake.placed.schedule hinj (hwake.running _ hrun₃) (by simp [hz₄])
  have hm := hwake.toMoves.trans hm'
  refine ⟨σ', hs, h', hrun', fun t => ?_, fun t => ?_, ?_, ?_, ?_, ?_⟩
  · rw [hm.unused, hstate₃]
    by_cases ht : t = σ.current c
    · subst ht
      have hused := hrun c id
      simp [hused]
    · rw [update_of_ne ht, hm₁.unused]
      rfl
  · rw [hm.zombie, hstate₃]
    by_cases ht : t = σ.current c
    · subst ht
      simp
    · rw [update_of_ne ht, hm₁.zombie]
      simp only [ht, false_or]
      rfl
  · rw [hm.parent, htree₃.parent]
    exact hm₁.parent
  · rw [hm.pid, htree₃.pid]
    exact hm₁.pid
  · rw [hm.exitCode, htree₃.exitCode]
    show update σ₁.exitCode _ code = _
    rw [hm₁.exitCode]
    rfl
  · rw [hm.pidCounter, htree₃.pidCounter]
    exact hm₁.pidCounter

/-- **`sys_waitpid`**, one turn of its loop, by a task that is not idle -/
theorem wait (hinj : Injective idle) (h : Placed idle σ) (hrun : AllRunning σ) (c : Fin n)
    (hidle : ∀ d, idle d ≠ σ.current c) (wpid : Option (BitVec 32)) (nohang : Bool) :
    ∃ r, sysWaitpid idle σ c wpid nohang = some r ∧ Placed idle r.2 ∧ AllRunning r.2 ∧
      match r.1 with
      | .reaped t code => code = σ.exitCode t ∧ Reaped σ (σ.current c) t r.2
      | _ => Moves σ r.2 := by
  unfold sysWaitpid
  cases hfind : findZombie σ (σ.current c) wpid with
  | some t =>
    have hp := List.find?_some hfind
    simp only [isChild, Bool.and_eq_true, decide_eq_true_eq] at hp
    have hz : σ.state t = .zombie := hp.2
    obtain ⟨q, hq⟩ := h.queues
    obtain ⟨σ', hf, h', hrun', htree, hst⟩ := h.freeSlot hrun (hq.ne_idle (t := t) (by simp [hz]))
      (by simp [hz]) (away_of_state hrun (by simp [hz]))
    exact ⟨(.reaped t (σ.exitCode t), σ'), by simp only [hfind, hf]; rfl, h', hrun', rfl, hz,
      hp.1.1.2, hst, htree⟩
  | none =>
    simp only [hfind]
    split
    · exact ⟨(.noChild, σ), rfl, h, hrun, Moves.refl σ⟩
    split
    · exact ⟨(.nothing, σ), rfl, h, hrun, Moves.refl σ⟩
    obtain ⟨σ₂, hrem, h₂, htree₂, hstate₂, hcur₂, hrun₂⟩ := h.park (c := c)
      (ρ := σ.fallAsleep (σ.current c)) (s := .sleeping) hrun hidle (by simp) rfl rfl rfl rfl rfl
    have hsleep : σ₂.state (σ₂.current c) = .sleeping := by
      rw [hstate₂, hcur₂, update_self]
    obtain ⟨σ', hs, h', hrun', hm'⟩ := h₂.schedule hinj hrun₂ (by simp [hsleep])
    have hm : Moves σ σ₂ := by
      have htree₁ : SameTree σ (σ.fallAsleep (σ.current c)) := ⟨rfl, rfl, rfl, rfl⟩
      refine .of_state (htree₁.trans htree₂) fun t => ?_
      rw [hstate₂]
      by_cases ht : t = σ.current c
      · subst ht
        exact Or.inr ⟨by simp [hrun c id], by simp⟩
      · exact Or.inl (update_of_ne ht _ _)
    exact ⟨(.asleep, σ'), by simp only [hrem, Option.bind_some, hs]; rfl, h', hrun',
      hm.trans hm'⟩

end Placed

end Lnxrm.Process
