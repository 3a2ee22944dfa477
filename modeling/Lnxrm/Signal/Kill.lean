import Lnxrm.Common.Run
import Lnxrm.Process.Model
import Lnxrm.Signal.Model

/-!
# What `SIGKILL` does to a task

`send_signal` marks `SIGKILL` pending and wakes a sleeping task, but not a
stopped one; and `do_signal_check` acts on `SIGSTOP`, then on `SIGCONT`,
then on the lowest deliverable signal, and returns after a handler is
entered. So a task is killed exactly where none of these comes first
(`sigkill_iff`).
-/

namespace Lnxrm.Signal

variable {s : Ctx} {t : Target} {sig : ℕ}

/-- The kernel path ends in `sys_exit`. -/
def Outcome.exits {α : Type} : Outcome α → Bool
  | .ret .. => false
  | .exit .. => true

/-- The task waits for a wake-up and is on no run queue. -/
def Target.parked (t : Target) : Bool :=
  (t.state == .stopped || t.state == .sleeping) && !t.queued

/-- After `send_signal(t, SIGKILL)` the task is not left parked, and the
next `do_signal_check` for it terminates it. -/
def Target.killed (t : Target) : Bool :=
  !(sendSignal t sigkill).parked && (doSignalCheck (sendSignal t sigkill).toCtx).exits

/-- `do_signal_check` acts on `sig`. -/
def Ctx.due (s : Ctx) (sig : ℕ) : Bool := s.deliverable.getLsbD sig

/-- The user stack has room for the signal frame and the handler's address
is one of user code. -/
def Ctx.canEnter (s : Ctx) (tf : IntrFrame) (sig : ℕ) : Bool :=
  userPtrOk s.translate (s.saHandler sig) 1 && userPtrOk s.translate (newSp tf.ussp) 184

/-- A handler for `sig` is entered when its turn comes. -/
def Ctx.enters (s : Ctx) (sig : ℕ) : Bool :=
  s.saHandler sig != 0 && s.tf.any fun tf => s.canEnter tf sig

/-- `sig` terminates the task when its turn comes: by default, or because
its handler cannot be entered. -/
def Ctx.terminatedBy (s : Ctx) (sig : ℕ) : Bool :=
  (s.saHandler sig == 0 && terminates sig) ||
    (s.saHandler sig != 0 && s.tf.any fun tf => !s.canEnter tf sig)

/-! ## One call of `do_signal_check` -/

theorem getLsbD_sigBit {i : ℕ} (hi : i < 64) : (sigBit sig).getLsbD i = decide (i = sig) := by
  have heq : sigBit sig = BitVec.twoPow 64 sig := by simp [sigBit, BitVec.twoPow]
  rw [heq, BitVec.getLsbD_twoPow]
  by_cases e : i = sig
  · subst e
    simp [hi]
  · simp [e, Ne.symm e]

theorem and_sigBit_eq_zero {v : BitVec 64} (hsig : sig < 64) :
    v &&& sigBit sig = 0 ↔ v.getLsbD sig = false := by
  constructor
  · intro h
    have hbit := congrArg (fun w => BitVec.getLsbD w sig) h
    simpa [getLsbD_sigBit hsig] using hbit
  · intro h
    refine BitVec.eq_of_getLsbD_eq fun i hi => ?_
    rw [BitVec.getLsbD_and, getLsbD_sigBit hi]
    by_cases e : i = sig
    · simp [e, h]
    · simp [e]

theorem deliver_exits (s : Ctx) (tf : IntrFrame) (sig : ℕ) :
    (deliver s tf sig).exits = !s.canEnter tf sig := by
  unfold deliver Ctx.canEnter
  simp only
  cases userPtrOk s.translate (s.saHandler sig) 1
  · rfl
  · cases userPtrOk s.translate (newSp tf.ussp) 184
    · rfl
    · rfl

/-- **The loop up to `SIGKILL`**: it ends in `sys_exit` exactly where every
handler it would enter comes after a signal that terminates the task. -/
theorem signalLoop_exits {p : BitVec 64} (hkill : p.getLsbD sigkill = true) (rest : List ℕ)
    (sigs : List ℕ) (hsorted : sigs.Pairwise (· < ·)) (hlt : ∀ x ∈ sigs, x < sigkill) :
    ∀ s : Ctx, (signalLoop p (sigs ++ sigkill :: rest) s).exits = true ↔
      ∀ x ∈ sigs, p.getLsbD x = true → s.enters x = true →
        ∃ y ∈ sigs, y < x ∧ p.getLsbD y = true ∧ s.terminatedBy y = true := by
  have h9 : sigkill < 64 := by decide
  induction sigs with
  | nil =>
    intro s
    have hne : ¬ p &&& sigBit sigkill = 0 := by
      rw [and_sigBit_eq_zero h9, hkill]
      decide
    rw [List.nil_append, signalLoop, if_neg hne, if_pos rfl]
    simp [Outcome.exits]
  | cons x sigs ih =>
    intro s
    obtain ⟨hx, hsorted⟩ := List.pairwise_cons.mp hsorted
    obtain ⟨hxlt, hlt⟩ := List.forall_mem_cons.mp hlt
    have hx64 : x < 64 := Nat.lt_trans hxlt h9
    have hxkill : x ≠ sigkill := Nat.ne_of_lt hxlt
    -- the rest of the loop, where `x` neither enters a handler nor terminates
    have hskip : ∀ s' : Ctx, s'.saHandler = s.saHandler → s'.tf = s.tf → s'.translate = s.translate →
        (p.getLsbD x = true → s.enters x = false ∧ s.terminatedBy x = false) →
        ((signalLoop p (sigs ++ sigkill :: rest) s').exits = true ↔
          ∀ z ∈ x :: sigs, p.getLsbD z = true → s.enters z = true →
            ∃ y ∈ x :: sigs, y < z ∧ p.getLsbD y = true ∧ s.terminatedBy y = true) := by
      intro s' hh ht htr hquiet
      have hcan : ∀ tf z, s'.canEnter tf z = s.canEnter tf z := by simp [Ctx.canEnter, hh, htr]
      have henters : ∀ z, s'.enters z = s.enters z := by simp [Ctx.enters, hh, ht, hcan]
      have hterm : ∀ z, s'.terminatedBy z = s.terminatedBy z := by
        simp [Ctx.terminatedBy, hh, ht, hcan]
      rw [ih hsorted hlt s']
      simp only [henters, hterm, List.forall_mem_cons, List.exists_mem_cons_iff]
      constructor
      · intro h
        refine ⟨fun hp he => absurd he (by simp [(hquiet hp).1]), fun z hz hp he => Or.inr (h z hz hp he)⟩
      · rintro ⟨-, h⟩ z hz hp he
        rcases h z hz hp he with ⟨-, hp', hk⟩ | h'
        · exact absurd hk (by simp [(hquiet hp').2])
        · exact h'
    rw [List.cons_append, signalLoop]
    by_cases hp : p.getLsbD x = true
    · have hne : ¬ p &&& sigBit x = 0 := by
        rw [and_sigBit_eq_zero hx64, hp]
        decide
      rw [if_neg hne]
      simp only [hxkill, if_false]
      -- where `x` terminates the task, every later handler comes after it
      have hfirst : s.terminatedBy x = true → s.enters x = false →
          ∀ z ∈ x :: sigs, p.getLsbD z = true → s.enters z = true →
            ∃ y ∈ x :: sigs, y < z ∧ p.getLsbD y = true ∧ s.terminatedBy y = true := by
        intro hk hn z hz _ he
        rcases List.mem_cons.mp hz with rfl | hz
        · exact absurd he (by simp [hn])
        · exact ⟨x, by simp, hx z hz, hp, hk⟩
      by_cases hh : s.saHandler x = 0
      · rw [if_pos hh]
        by_cases hd : terminates x = true
        · rw [if_pos hd]
          exact ⟨fun _ => hfirst (by simp [Ctx.terminatedBy, hh, hd]) (by simp [Ctx.enters, hh]),
            fun _ => rfl⟩
        · rw [if_neg hd]
          exact hskip _ rfl rfl rfl fun _ =>
            ⟨by simp [Ctx.enters, hh], by simp [Ctx.terminatedBy, hh, hd]⟩
      rw [if_neg hh]
      have hne : s.saHandler x ≠ 0#64 := hh
      cases htf : s.tf with
      | none =>
        exact hskip _ rfl htf.symm rfl fun _ =>
          ⟨by simp [Ctx.enters, htf], by simp [Ctx.terminatedBy, hne, htf]⟩
      | some tf =>
        simp only [deliver_exits]
        have hcan : Ctx.canEnter { s with
            signalPending := s.signalPending &&& ~~~sigBit x, tf := some tf } tf x =
              s.canEnter tf x := rfl
        rw [hcan]
        cases hc : s.canEnter tf x with
        | false =>
          exact ⟨fun _ => hfirst (by simp [Ctx.terminatedBy, hne, htf, hc])
            (by simp [Ctx.enters, htf, hc]), fun _ => rfl⟩
        | true =>
          simp only [Bool.not_true, Bool.false_eq_true, false_iff]
          intro h
          obtain ⟨y, hy, hyx, -⟩ := h x (by simp) hp (by simp [Ctx.enters, hne, htf, hc])
          rcases List.mem_cons.mp hy with rfl | hy
          · exact Nat.lt_irrefl _ hyx
          · exact Nat.lt_asymm hyx (hx y hy)
    · have hzero : p &&& sigBit x = 0 := (and_sigBit_eq_zero hx64).mpr (by simpa using hp)
      rw [if_pos hzero]
      exact hskip s rfl rfl rfl fun h => absurd h hp

/-- **`do_signal_check` with `SIGKILL` pending.** -/
theorem doSignalCheck_exits (hpid : s.pid ≠ 0) (hkill : s.due sigkill = true) :
    (doSignalCheck s).exits = true ↔ s.due sigstop = false ∧ s.due sigcont = false ∧
      ∀ x, 1 ≤ x → x < sigkill → s.due x = true → s.enters x = true →
        ∃ y, 1 ≤ y ∧ y < x ∧ s.due y = true ∧ s.terminatedBy y = true := by
  have hne : s.deliverable ≠ 0 := by
    intro h
    simp [Ctx.due, h] at hkill
  have hstop : (s.deliverable &&& sigBit sigstop ≠ 0) ↔ s.due sigstop = true := by
    rw [ne_eq, and_sigBit_eq_zero (by decide), Bool.not_eq_false]
    rfl
  have hcont : (s.deliverable &&& sigBit sigcont ≠ 0) ↔ s.due sigcont = true := by
    rw [ne_eq, and_sigBit_eq_zero (by decide), Bool.not_eq_false]
    rfl
  have hlist : List.range' 1 (nsig - 1) =
      List.range' 1 8 ++ sigkill :: List.range' 10 22 := by decide
  unfold doSignalCheck
  rw [if_neg hpid, if_neg hne]
  simp only [hstop, hcont]
  cases h19 : s.due sigstop with
  | true => simp [Outcome.exits]
  | false =>
    cases h18 : s.due sigcont with
    | true => simp [Outcome.exits]
    | false =>
      simp only [Bool.false_eq_true, if_false, true_and]
      rw [hlist, signalLoop_exits hkill _ _ (by decide) (by decide)]
      have hmem : ∀ x, x ∈ List.range' 1 8 ↔ 1 ≤ x ∧ x < sigkill := by
        intro x
        simp only [List.mem_range'_1, sigkill]
      constructor
      · intro h x h1 hx hd he
        obtain ⟨y, hy, hyx, hrest⟩ := h x ((hmem x).mpr ⟨h1, hx⟩) hd he
        exact ⟨y, ((hmem y).mp hy).1, hyx, hrest⟩
      · intro h x hx hd he
        obtain ⟨y, h1, hyx, hrest⟩ := h x ((hmem x).mp hx).1 ((hmem x).mp hx).2 hd he
        exact ⟨y, (hmem y).mpr ⟨h1, Nat.lt_trans hyx ((hmem x).mp hx).2⟩, hyx, hrest⟩

/-! ## After `send_signal(t, SIGKILL)` -/

theorem due_iff (hsig : sig < 64) : s.due sig = (s.signalPending.getLsbD sig &&
    (!s.signalMask.getLsbD sig || sig == sigkill || sig == sigstop)) := by
  unfold Ctx.due Ctx.deliverable
  simp only [BitVec.getLsbD_or, BitVec.getLsbD_and, BitVec.getLsbD_not, hsig, decide_true,
    Bool.true_and, getLsbD_sigBit hsig]
  cases s.signalPending.getLsbD sig
  · simp
  · simp [Bool.or_assoc, beq_eq_decide]

/-- The signal is pending, a sleeping task is woken, and nothing else
changes. -/
theorem sendSignal_sigkill (t : Target) : sendSignal t sigkill =
    if t.state = .sleeping then (t.post sigkill).wake else t.post sigkill := by
  unfold sendSignal
  rw [if_neg (by decide), if_pos rfl]

theorem sendSignal_due (t : Target) (hsig : sig < 64) :
    (sendSignal t sigkill).due sig = (t.due sig || sig == sigkill) := by
  have hpost : (t.post sigkill).due sig = (t.due sig || sig == sigkill) := by
    rw [due_iff hsig, due_iff hsig]
    unfold Target.post
    simp only [BitVec.getLsbD_or, getLsbD_sigBit hsig, beq_eq_decide]
    by_cases e : sig = sigkill
    · simp [e]
    · simp [e]
  rw [sendSignal_sigkill]
  split
  · exact hpost
  · exact hpost

/-- **`SIGKILL` is fatal exactly where nothing comes before it**: the task
was not parked in `T_STOPPED`, neither `SIGSTOP` nor `SIGCONT` was
deliverable, and every handler that a deliverable signal below `SIGKILL`
would enter comes after one that terminates the task anyway. -/
theorem sigkill_iff (hpid : t.pid ≠ 0) :
    t.killed = true ↔ ¬ (t.state = .stopped ∧ t.queued = false) ∧ t.due sigstop = false ∧ t.due sigcont = false ∧
      ∀ x, 1 ≤ x → x < sigkill → t.due x = true → t.enters x = true →
        ∃ y, 1 ≤ y ∧ y < x ∧ t.due y = true ∧ t.terminatedBy y = true := by
  have hfields : (sendSignal t sigkill).pid = t.pid ∧ (sendSignal t sigkill).enters = t.enters ∧
      (sendSignal t sigkill).terminatedBy = t.terminatedBy := by
    rw [sendSignal_sigkill]
    split
    · exact ⟨rfl, rfl, rfl⟩
    · exact ⟨rfl, rfl, rfl⟩
  have hlow : ∀ x < sigkill, (sendSignal t sigkill).due x = t.due x := by
    intro x hx
    have h9 : sigkill < 64 := by decide
    rw [sendSignal_due t (by omega)]
    simp [Nat.ne_of_lt hx]
  have hparked : (sendSignal t sigkill).parked = false ↔ ¬ (t.state = .stopped ∧ t.queued = false) := by
    rw [sendSignal_sigkill]
    by_cases hs : t.state = .sleeping
    · rw [if_pos hs]
      simp [Target.parked, Target.wake, hs]
    · rw [if_neg hs]
      simp [Target.parked, Target.post, hs]
  have hdue9 : (sendSignal t sigkill).due sigkill = true := by
    rw [sendSignal_due t (by decide)]
    simp
  have hdue19 : (sendSignal t sigkill).due sigstop = t.due sigstop := by
    rw [sendSignal_due t (by decide)]
    simp [sigstop, sigkill]
  have hdue18 : (sendSignal t sigkill).due sigcont = t.due sigcont := by
    rw [sendSignal_due t (by decide)]
    simp [sigcont, sigkill]
  rw [Target.killed, Bool.and_eq_true, Bool.not_eq_true', hparked,
    doSignalCheck_exits (hfields.1 ▸ hpid) hdue9, hdue19, hdue18, hfields.2.1, hfields.2.2]
  refine and_congr_right fun _ => and_congr_right fun _ => and_congr_right fun _ =>
    forall_congr' fun x => forall_congr' fun _ => forall_congr' fun hx => ?_
  rw [hlow x hx]
  refine forall_congr' fun _ => forall_congr' fun _ => exists_congr fun y =>
    and_congr_right fun _ => and_congr_right fun hyx => ?_
  rw [hlow y (Nat.lt_trans hyx hx)]

/-! ## Runs -/

/-- What may happen to a task that runs. -/
inductive Event where
  /-- it calls `sys_sigaction` -/
  | action (sig : ℕ) (act : Option (BitVec 64))
  /-- it calls `sys_sigprocmask` -/
  | procmask (how : ℕ) (set : Option (BitVec 64))
  /-- a signal is sent to it -/
  | send (sig : ℕ)
  /-- `do_signal_check` is called for it and returns -/
  | check

def Target.step (t : Target) : Event → Option Target
  | .action sig act => some { t with toCtx := (sysSigaction t.toCtx sig act).2 }
  | .procmask how set => some { t with toCtx := (sysSigprocmask t.toCtx how set).2 }
  | .send sig => some (sendSignal t sig)
  | .check =>
    match doSignalCheck t.toCtx with
    | .ret _ s => some { t with toCtx := s }
    | .exit .. => none

/-- A user task that runs, with the default action for every signal and
none pending. -/
def freshTask : Target where
  pid := 2
  state := .running
  signalPending := 0
  signalMask := 0
  saHandler := fun _ => 0
  tf := some {
    r15 := 0, r14 := 0, r13 := 0, r12 := 0, r11 := 0, r10 := 0, r9 := 0, r8 := 0, rbp := 0, rdi := 0
    rsi := 0, rdx := 0, rcx := 0, rax := 0, rbx := 0, intno := 0x80, err := 0
    rip := 0x7f8000001000, cs := 0x1B, rflags := 0x202, ussp := 0x7f8000009000, usss := 0x23 }
  mem := fun _ => 0
  translate := fun _ => 1
  queued := false

theorem freshTask_killed : freshTask.pid ≠ 0 ∧ freshTask.killed = true := by
  have hpid : freshTask.pid ≠ 0 := by decide
  have hquiet : ∀ x < sigkill, freshTask.due x = false := by decide
  refine ⟨hpid, (sigkill_iff hpid).mpr ⟨by decide, by decide, by decide, fun x _ hx hd => ?_⟩⟩
  rw [hquiet x hx] at hd
  cases hd

/-- A task that `SIGSTOP` has stopped stays parked; one that has `SIGSTOP`
or `SIGCONT` pending, or `SIGHUP` with a handler, survives its next
`do_signal_check`. -/
theorem sigkill_survived :
    (runSteps Target.step freshTask [.send sigstop, .check]).map Target.killed = some false ∧
      (runSteps Target.step freshTask [.send sigstop]).map Target.killed = some false ∧
      (runSteps Target.step freshTask [.send sigcont]).map Target.killed = some false ∧
      (runSteps Target.step freshTask [.action 1 (some 0x7f8000000000), .send 1]).map
        Target.killed = some false :=
  ⟨by decide +kernel, by decide +kernel, by decide +kernel, by decide +kernel⟩

/-! ## The scheduler's view -/

/-- **`send_signal` for the run queues** does to the state and the place of
the task what it does here: where the pending bits are left out, the two
models agree. -/
theorem sendSignal_kernel {n N : ℕ} {idle : Fin n → Fin N} {σ : Process.Kernel n N} {c : Fin n}
    {τ : Fin N} (hstate : t.state = σ.state τ) (hqueued : t.queued = (σ.rqCpu τ).isSome)
    (hign : σ.ignores τ sig = decide (t.saHandler sig = sigIgn)) :
    (sendSignal t sig).state = (Process.sendSignal idle σ c τ sig).state τ ∧
      (sendSignal t sig).queued = ((Process.sendSignal idle σ c τ sig).rqCpu τ).isSome := by
  have hwake : ((Process.wake idle σ c τ).state τ = .runnable) ∧
      ((Process.wake idle σ c τ).rqCpu τ).isSome = true := by
    unfold Process.wake Process.runqueueAdd
    split
    · rename_i hq
      exact ⟨Function.update_self .., Option.isSome_iff_ne_none.mpr hq⟩
    · exact ⟨Function.update_self .., by simp⟩
  have hnsig : Process.nsig = nsig := rfl
  have hkill : Process.sigkill = sigkill := rfl
  have hstop : Process.sigstop = sigstop := rfl
  have hcont : Process.sigcont = sigcont := rfl
  unfold sendSignal Process.sendSignal
  rw [hnsig, hkill, hstop, hcont]
  by_cases hrange : sig < 1 ∨ nsig ≤ sig
  · rw [if_pos hrange, if_pos hrange]
    exact ⟨hstate, hqueued⟩
  rw [if_neg hrange, if_neg hrange]
  -- every branch either leaves the task or wakes it, on the same test of its state
  have hpost : ∀ (k : ℕ) (st : TaskState → Prop) [DecidablePred st],
      (if st t.state then (t.post k).wake else t.post k).state =
          (if st (σ.state τ) then Process.wake idle σ c τ else σ).state τ ∧
        (if st t.state then (t.post k).wake else t.post k).queued =
          ((if st (σ.state τ) then Process.wake idle σ c τ else σ).rqCpu τ).isSome := by
    intro k st _
    rw [hstate]
    split
    · exact ⟨hwake.1.symm, hwake.2.symm⟩
    · exact ⟨hstate, hqueued⟩
  by_cases h9 : sig = sigkill
  · rw [if_pos h9, if_pos (Or.inl h9)]
    exact hpost _ (· = .sleeping)
  by_cases h19 : sig = sigstop
  · rw [if_neg h9, if_pos h19, if_pos (Or.inr h19)]
    exact hpost _ (· = .sleeping)
  rw [if_neg h9, if_neg h19, if_neg (not_or.mpr ⟨h9, h19⟩)]
  by_cases h18 : sig = sigcont
  · rw [if_pos h18, if_pos h18]
    exact hpost _ fun st => st = .stopped ∨ st = .sleeping
  rw [if_neg h18, if_neg h18, hign]
  by_cases hi : t.saHandler sig = sigIgn
  · rw [if_pos hi, if_pos (decide_eq_true hi)]
    exact ⟨hstate, hqueued⟩
  · have hdec : ¬ decide (t.saHandler sig = sigIgn) = true := by simpa using hi
    rw [if_neg hi, if_neg hdec]
    exact hpost _ (· = .sleeping)

end Lnxrm.Signal
