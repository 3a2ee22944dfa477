import Lnxrm.Signal.Kill
import Lnxrm.Signal.Roundtrip

/-!
# Signals that are ignored

`send_signal` drops a signal whose disposition is `SIG_IGN`, but
`do_signal_check` does not look for `SIG_IGN`: it takes the `1` for the
address of a handler, cannot enter it and terminates the task. A signal
that is pending when `sys_sigaction` sets it to `SIG_IGN` comes to that
(`not_discards`); where no pending signal is ever set to `SIG_IGN`, none
does (`ignored_discarded`).
-/

namespace Lnxrm.Signal

variable {s s' : Ctx} {t : Target} {sig : ℕ}

/-- The signals whose disposition counts: all but `SIGKILL`, `SIGSTOP` and
`SIGCONT`. -/
def Ordinary (sig : ℕ) : Prop :=
  1 ≤ sig ∧ sig < nsig ∧ sig ≠ sigkill ∧ sig ≠ sigstop ∧ sig ≠ sigcont

instance : DecidablePred Ordinary := fun _ => inferInstanceAs (Decidable (_ ∧ _))

theorem Ordinary.lt (h : Ordinary sig) : sig < 64 := by
  have hlt := h.2.1
  unfold nsig at hlt
  omega

/-! ## What is done with one signal -/

/-- The body of `do_signal_check`'s loop for a pending signal: it comes to
`none` when the loop goes on. -/
def signalTurn (s : Ctx) (sig : ℕ) : Outcome (Option Delivery) :=
  let s := { s with signalPending := s.signalPending &&& ~~~sigBit sig }
  if sig = sigkill then .exit (-(sigkill : Int)) s
  else if s.saHandler sig = 0 then
    if terminates sig then .exit (-(sig : Int)) s else .ret none s
  else
    match s.tf with
    | none => .ret none s
    | some tf =>
      match deliver s tf sig with
      | .ret d s => .ret (some d) s
      | .exit code s => .exit code s

theorem signalLoop_cons (pending : BitVec 64) (sigs : List ℕ) : signalLoop pending (sig :: sigs) s =
      if pending &&& sigBit sig = 0 then signalLoop pending sigs s
      else
        match signalTurn s sig with
        | .ret none s => signalLoop pending sigs s
        | .ret (some d) s => .ret d s
        | .exit code s => .exit code s := by
  rw [signalLoop]
  by_cases hp : pending &&& sigBit sig = 0
  · rw [if_pos hp, if_pos hp]
  rw [if_neg hp, if_neg hp]
  unfold signalTurn
  by_cases hk : sig = sigkill
  · rw [if_pos hk, if_pos hk]
  rw [if_neg hk, if_neg hk]
  by_cases hh : s.saHandler sig = 0
  · rw [if_pos hh, if_pos hh]
    by_cases ht : terminates sig = true
    · rw [if_pos ht, if_pos ht]
    · rw [if_neg ht, if_neg ht]
  rw [if_neg hh, if_neg hh]
  cases htf : s.tf with
  | none => rfl
  | some tf =>
    dsimp only
    generalize deliver _ tf sig = r
    cases r with
    | ret d s₁ => rfl
    | exit code s₁ => rfl

/-- The loop, from `sigs` on in the state `s`, comes to the pending signal
`sig` in the state `s'`. -/
inductive Turns (pending : BitVec 64) : List ℕ → Ctx → ℕ → Ctx → Prop where
  | here {sig : ℕ} {sigs : List ℕ} {s : Ctx} : pending &&& sigBit sig ≠ 0 →
    Turns pending (sig :: sigs) s sig s
  | skip {n sig : ℕ} {sigs : List ℕ} {s s' : Ctx} : pending &&& sigBit n = 0 →
    Turns pending sigs s sig s' → Turns pending (n :: sigs) s sig s'
  | next {n sig : ℕ} {sigs : List ℕ} {s s₁ s' : Ctx} : pending &&& sigBit n ≠ 0 →
    signalTurn s n = .ret none s₁ → Turns pending sigs s₁ sig s' →
    Turns pending (n :: sigs) s sig s'

/-- **`do_signal_check` processes** the pending signal `sig`, in the state
`s'` on the way. -/
def Processes (s : Ctx) (sig : ℕ) (s' : Ctx) : Prop :=
  s.pid ≠ 0 ∧ s.deliverable &&& sigBit sigstop = 0 ∧ s.deliverable &&& sigBit sigcont = 0 ∧
    Turns s.deliverable (List.range' 1 (nsig - 1)) s sig s'

/-- **The signal is discarded**: it is pending no more, the task is not
terminated and its trap frame is the same. -/
def Discards (s : Ctx) (sig : ℕ) : Prop :=
  ∃ d s', signalTurn s sig = .ret d s' ∧ s'.tf = s.tf ∧ s'.signalPending &&& sigBit sig = 0

/-- Every ignored signal that `do_signal_check` processes is discarded. -/
def IgnoresIgnored (s : Ctx) : Prop :=
  ∀ sig s', Processes s sig s' → Ordinary sig → s'.saHandler sig = sigIgn → Discards s' sig

/-! ## Sequences -/

/-- What is done to a task: its own system calls, signals sent to it, and
its returns to user space, with the trap frame and the address space it
then has. -/
inductive SigOp where
  | sigaction (sig : ℕ) (act : Option (BitVec 64))
  | sigprocmask (how : ℕ) (set : Option (BitVec 64))
  | send (sig : ℕ)
  | check (tf : IntrFrame) (mem : ℕ → UInt8) (translate : ℕ → ℕ)

/-- The task on its way back to user space. -/
def Ctx.returning (s : Ctx) (tf : IntrFrame) (mem : ℕ → UInt8) (translate : ℕ → ℕ) : Ctx :=
  { s with tf := some tf, mem := mem, translate := translate }

/-- One step, impossible after the task is terminated. -/
def SigOp.step (t : Target) : SigOp → Option Target
  | .sigaction sig act => some { t with toCtx := (sysSigaction t.toCtx sig act).2 }
  | .sigprocmask how set => some { t with toCtx := (sysSigprocmask t.toCtx how set).2 }
  | .send sig => some (sendSignal t sig)
  | .check tf mem translate =>
    match doSignalCheck (t.toCtx.returning tf mem translate) with
    | .ret _ s => some { t with toCtx := s }
    | .exit .. => none

/-- The ignored signals that this step processes are discarded. -/
def Heeds (t : Target) : SigOp → Prop
  | .check tf mem translate => IgnoresIgnored (t.toCtx.returning tf mem translate)
  | _ => True

/-- No pending signal is set to `SIG_IGN`. -/
def NotPending (t : Target) : SigOp → Prop
  | .sigaction sig (some handler) => handler = sigIgn → Ordinary sig →
      t.signalPending &&& sigBit sig = 0
  | _ => True

/-- No ignored signal is pending. -/
def NoneIgnored (s : Ctx) : Prop :=
  ∀ sig, Ordinary sig → s.saHandler sig = sigIgn → s.signalPending.getLsbD sig = false

/-! ## What a check leaves -/

theorem getLsbD_cleared {v : BitVec 64} {i : ℕ}
    (h : (v &&& ~~~sigBit sig).getLsbD i = true) : v.getLsbD i = true := by
  rw [BitVec.getLsbD_and, Bool.and_eq_true] at h
  exact h.1

/-- What a step of `do_signal_check` keeps: the dispositions, and that what
is not pending is not. -/
def Lessens (s s' : Ctx) : Prop :=
  s'.saHandler = s.saHandler ∧
    ∀ i, s'.signalPending.getLsbD i = true → s.signalPending.getLsbD i = true

theorem Lessens.trans {s₁ : Ctx} (h : Lessens s s₁) (h' : Lessens s₁ s') : Lessens s s' :=
  ⟨h'.1.trans h.1, fun i hi => h.2 i (h'.2 i hi)⟩

theorem deliver_lessens {tf : IntrFrame} {d : Delivery} (h : deliver s tf sig = .ret d s') :
    Lessens s s' := by
  unfold deliver at h
  dsimp only at h
  split at h
  · cases h
  · cases h
    exact ⟨rfl, fun _ hi => hi⟩

theorem signalTurn_lessens {d : Option Delivery} (h : signalTurn s sig = .ret d s') : Lessens s s' := by
  have hcleared : Lessens s { s with signalPending := s.signalPending &&& ~~~sigBit sig } :=
    ⟨rfl, fun _ hi => getLsbD_cleared hi⟩
  unfold signalTurn at h
  dsimp only at h
  split at h
  · cases h
  split at h
  · split at h
    · cases h
    · cases h
      exact hcleared
  split at h
  · cases h
    exact hcleared
  rename_i tf _
  cases hd : deliver { s with signalPending := s.signalPending &&& ~~~sigBit sig } tf sig with
  | ret d₁ s₁ =>
    rw [hd] at h
    cases h
    exact hcleared.trans (deliver_lessens hd)
  | exit code s₁ =>
    rw [hd] at h
    cases h

theorem signalLoop_lessens {pending : BitVec 64} {d : Delivery} (sigs : List ℕ) : ∀ {s : Ctx},
    signalLoop pending sigs s = .ret d s' → Lessens s s' := by
  induction sigs with
  | nil =>
    intro s h
    cases h
    exact ⟨rfl, fun _ hi => hi⟩
  | cons n sigs ih =>
    intro s h
    rw [signalLoop_cons] at h
    split at h
    · exact ih h
    cases ht : signalTurn s n with
    | exit code s₁ =>
      rw [ht] at h
      cases h
    | ret d₁ s₁ =>
      have hturn := signalTurn_lessens ht
      rw [ht] at h
      cases d₁ with
      | none => exact hturn.trans (ih h)
      | some d₁ =>
        cases h
        exact hturn

theorem doSignalCheck_lessens {d : Delivery} (h : doSignalCheck s = .ret d s') : Lessens s s' := by
  unfold doSignalCheck at h
  split at h
  · cases h
    exact ⟨rfl, fun _ hi => hi⟩
  split at h
  · cases h
    exact ⟨rfl, fun _ hi => hi⟩
  split at h
  · cases h
    exact ⟨rfl, fun _ hi => getLsbD_cleared hi⟩
  split at h
  · cases h
    exact ⟨rfl, fun _ hi => getLsbD_cleared hi⟩
  · exact signalLoop_lessens _ h

/-- The loop comes to a signal of its list, which is pending, under the
dispositions it started with. -/
theorem Turns.pending {pending : BitVec 64} {sigs : List ℕ} (h : Turns pending sigs s sig s') :
    sig ∈ sigs ∧ pending &&& sigBit sig ≠ 0 ∧ s'.saHandler = s.saHandler := by
  induction h with
  | here hp => exact ⟨List.mem_cons_self, hp, rfl⟩
  | skip _ _ ih => exact ⟨List.mem_cons_of_mem _ ih.1, ih.2⟩
  | next _ hturn _ ih =>
    exact ⟨List.mem_cons_of_mem _ ih.1, ih.2.1, ih.2.2.trans (signalTurn_lessens hturn).1⟩

theorem Turns.first {pending : BitVec 64} {rest : List ℕ} (hsig : pending &&& sigBit sig ≠ 0)
    (before : List ℕ) (hbefore : ∀ n ∈ before, pending &&& sigBit n = 0) :
    Turns pending (before ++ sig :: rest) s sig s := by
  induction before with
  | nil => exact .here hsig
  | cons n before ih =>
    obtain ⟨hn, hbefore⟩ := List.forall_mem_cons.mp hbefore
    exact .skip hn (ih hbefore)

theorem pending_of_deliverable (hsig : sig < 64) (h : s.deliverable &&& sigBit sig ≠ 0) :
    s.signalPending.getLsbD sig = true := by
  rw [ne_eq, and_sigBit_eq_zero hsig, Bool.not_eq_false] at h
  unfold Ctx.deliverable at h
  rw [BitVec.getLsbD_or, BitVec.getLsbD_and, BitVec.getLsbD_and, Bool.or_eq_true,
    Bool.and_eq_true, Bool.and_eq_true] at h
  rcases h with h | h
  · exact h.1
  · exact h.1

/-! ## The two cases -/

/-- An ignored signal whose turn comes terminates the task: no user code is
at address 1. -/
theorem not_discards {tf : IntrFrame} (htf : s.tf = some tf) (hord : Ordinary sig)
    (hign : s.saHandler sig = sigIgn) : ¬ Discards s sig := by
  rintro ⟨d, s', hturn, -⟩
  have hne : ¬ sigIgn = 0 := by decide
  have hcode : ∀ translate, userPtrOk translate sigIgn 1 = false := by
    intro translate
    rw [← Bool.not_eq_true, userPtrOk_iff]
    rintro ⟨-, hlo, -⟩
    exact absurd hlo (by decide)
  unfold signalTurn at hturn
  rw [if_neg hord.2.2.1, hign, if_neg hne, htf] at hturn
  simp only [deliver, hign, hcode, Bool.not_false, Bool.true_or, if_true] at hturn
  cases hturn

theorem NoneIgnored.ignores (h : NoneIgnored s) : IgnoresIgnored s := by
  rintro sig s' ⟨-, -, -, hturns⟩ hord hign
  obtain ⟨-, hp, hsa⟩ := hturns.pending
  rw [hsa] at hign
  exact absurd (pending_of_deliverable hord.lt hp) (by simp [h sig hord hign])

theorem NoneIgnored.lessens (h : NoneIgnored s) (hs : Lessens s s') : NoneIgnored s' := by
  intro sig hord hign
  rw [hs.1] at hign
  by_contra hp
  have := hs.2 sig (by simpa using hp)
  rw [h sig hord hign] at this
  cases this

theorem sysSigprocmask_lessens (s : Ctx) (how : ℕ) (set : Option (BitVec 64)) :
    Lessens s (sysSigprocmask s how set).2 := by
  unfold sysSigprocmask
  split
  · exact ⟨rfl, fun _ hi => hi⟩
  · split
    · exact ⟨rfl, fun _ hi => hi⟩
    · exact ⟨rfl, fun _ hi => hi⟩
    · exact ⟨rfl, fun _ hi => hi⟩
    · exact ⟨rfl, fun _ hi => hi⟩

/-- What `send_signal` does: it posts the signal, unless it is ignored, and
may wake the task. -/
theorem sendSignal_cases (t : Target) (sig : ℕ) : sendSignal t sig = t ∨
      ((Ordinary sig → t.saHandler sig ≠ sigIgn) ∧
        (sendSignal t sig = t.post sig ∨ sendSignal t sig = (t.post sig).wake)) := by
  unfold sendSignal
  split
  · exact Or.inl rfl
  have hwake : ∀ c : Prop, [Decidable c] → ∀ n,
      (if c then (t.post n).wake else t.post n) = t.post n ∨
        (if c then (t.post n).wake else t.post n) = (t.post n).wake := by
    intro c _ n
    by_cases hc : c
    · exact Or.inr (if_pos hc)
    · exact Or.inl (if_neg hc)
  split
  · rename_i hk
    subst hk
    exact Or.inr ⟨fun hord => absurd rfl hord.2.2.1, hwake _ _⟩
  split
  · rename_i hk
    subst hk
    exact Or.inr ⟨fun hord => absurd rfl hord.2.2.2.1, hwake _ _⟩
  split
  · rename_i hk
    subst hk
    exact Or.inr ⟨fun hord => absurd rfl hord.2.2.2.2, hwake _ _⟩
  split
  · exact Or.inl rfl
  · rename_i hne
    exact Or.inr ⟨fun _ => hne, hwake _ _⟩

theorem NoneIgnored.post (h : NoneIgnored t.toCtx)
    (hsig : Ordinary sig → t.saHandler sig ≠ sigIgn) : NoneIgnored (t.post sig).toCtx := by
  intro n hord hign
  have hold := h n hord hign
  have hne : n ≠ sig := by
    rintro rfl
    exact hsig hord hign
  change (t.signalPending ||| sigBit sig).getLsbD n = false
  rw [BitVec.getLsbD_or, hold, getLsbD_sigBit hord.lt, decide_eq_false hne]
  rfl

theorem NoneIgnored.send (h : NoneIgnored t.toCtx) (sig : ℕ) :
    NoneIgnored (sendSignal t sig).toCtx := by
  rcases sendSignal_cases t sig with he | ⟨hsig, he | he⟩
  · rw [he]
    exact h
  · rw [he]
    exact h.post hsig
  · rw [he]
    exact h.post hsig

/-- **One step** keeps it, where it sets no pending signal to `SIG_IGN`. -/
theorem NoneIgnored.step {t t' : Target} (h : NoneIgnored t.toCtx) {op : SigOp}
    (hop : NotPending t op) (hstep : op.step t = some t') : NoneIgnored t'.toCtx := by
  cases op with
  | sigaction sig act =>
    cases hstep
    unfold sysSigaction
    split
    · exact h
    cases act with
    | none => exact h
    | some handler =>
      intro n hord hign
      change Function.update t.saHandler sig handler n = sigIgn at hign
      by_cases hn : n = sig
      · subst hn
        rw [Function.update_self] at hign
        exact (and_sigBit_eq_zero hord.lt).mp (hop hign hord)
      · rw [Function.update_of_ne hn] at hign
        exact h n hord hign
  | sigprocmask how set =>
    cases hstep
    exact h.lessens (sysSigprocmask_lessens t.toCtx how set)
  | send sig =>
    cases hstep
    exact h.send sig
  | check tf mem translate =>
    unfold SigOp.step at hstep
    dsimp only at hstep
    cases hc : doSignalCheck (t.toCtx.returning tf mem translate) with
    | ret d s =>
      rw [hc] at hstep
      cases hstep
      exact NoneIgnored.lessens (s := t.toCtx.returning tf mem translate) h
        (doSignalCheck_lessens hc)
    | exit code s =>
      rw [hc] at hstep
      cases hstep

/-- **An ignored signal has no effect**, in every sequence on a task that
starts with no signal pending and in which no pending signal is set to
`SIG_IGN`. -/
theorem ignored_discarded (t : Target) (hnew : t.signalPending = 0) (ops : List SigOp)
    (hops : Guarded SigOp.step NotPending t ops) : Guarded SigOp.step Heeds t ops := by
  refine Guarded.imp (I := fun t => NoneIgnored t.toCtx) (fun t op h _ => ?_)
    (fun t op t' h hop hstep => h.step hop hstep) ops (fun sig _ _ => by simp [hnew]) hops
  cases op with
  | check tf mem translate => exact NoneIgnored.ignores (s := t.toCtx.returning tf mem translate) h
  | sigaction sig act => trivial
  | sigprocmask how set => trivial
  | send sig => trivial

/-- A task with no signal pending, `SIGUSR1` at its default. -/
def newTask : Target where
  pid := 1
  state := .running
  signalPending := 0
  signalMask := 0
  saHandler := fun _ => 0
  tf := none
  mem := fun _ => 0
  translate := fun _ => 1
  queued := true

/-- `SIGUSR1` is blocked, sent, set to `SIG_IGN` and unblocked again, and
the task returns to user space. -/
def ignoreLate : List SigOp :=
  [.sigprocmask 0 (some (sigBit 10)), .send 10, .sigaction 10 (some sigIgn),
    .sigprocmask 1 (some (sigBit 10)), .check (interrupted 0) (fun _ => 0) fun _ => 1]

/-- The same with `SIG_IGN` installed first. -/
def ignoreEarly : List SigOp :=
  [.sigprocmask 0 (some (sigBit 10)), .sigaction 10 (some sigIgn), .send 10,
    .sigprocmask 1 (some (sigBit 10)), .check (interrupted 0) (fun _ => 0) fun _ => 1]

theorem ignoreEarly_discarded : Guarded SigOp.step NotPending newTask ignoreEarly ∧
      Guarded SigOp.step Heeds newTask ignoreEarly := by
  have hops : Guarded SigOp.step NotPending newTask ignoreEarly := by
    refine ⟨trivial, fun _ _ => ?_, trivial, trivial, trivial, ?_⟩
    · decide +kernel
    · split <;> trivial
  exact ⟨hops, ignored_discarded newTask rfl ignoreEarly hops⟩

/-- **An ignored signal terminates the task.** -/
theorem ignoreLate_terminates : ¬ Guarded SigOp.step Heeds newTask ignoreLate := by
  rintro ⟨-, -, -, -, hheeds, -⟩
  have hfirst := hheeds 10 _ ⟨by decide, by decide +kernel, by decide +kernel,
    Turns.first (by decide +kernel) (List.range' 1 9) (by decide +kernel)⟩ (by decide) rfl
  exact not_discards rfl (by decide) rfl hfirst

end Lnxrm.Signal
