import Mathlib.Init

/-!
# Runs of a system

A system takes a request in a state, answers it and moves on:
`step : σ → ω → ρ × σ`. `runTrace` is a whole run, with the answers in
order. Two systems whose single steps answer alike and keep a relation
between their states answer alike over whole runs (`runTrace_sim`), and
what every step keeps, every run keeps (`runTrace_inv`, and
`runTrace_answers` for the answers). `EachStep` is what every step of a
run has in the state it is taken in (`eachStep_iff`).

`runSteps` is the run of a system whose steps may be impossible. What
every step keeps and makes possible is kept by every run, which then does
not get stuck (`runSteps_total`); what the steps that meet a guard keep is
kept by the runs whose steps all meet it (`runSteps_guarded`), what they
make possible does not get stuck (`runSteps_guarded_total`), and what a
guard implies holds of every step (`Guarded.imp`).

`runTry` is the run of a system whose steps may break it off
(`runTry_sim`, `runTry_total`, `runTry_guarded`), and `foldlM_total` and
`foldlM_inv` are the rules for a loop over a list that a step may break off.
-/

namespace Lnxrm

variable {σ τ ω ρ : Type*}

/-- A run: the answers to the requests, and the state reached. -/
def runTrace (step : σ → ω → ρ × σ) : σ → List ω → List ρ × σ
  | s, [] => ([], s)
  | s, r :: rs =>
    let t := step s r
    let rest := runTrace step t.2 rs
    (t.1 :: rest.1, rest.2)

/-- **Simulation.** Related states answer alike and stay related, over any
sequence of requests. -/
theorem runTrace_sim {step : σ → ω → ρ × σ} {spec : τ → ω → ρ × τ} {R : σ → τ → Prop}
    (hstep : ∀ s t r, R s t → (step s r).1 = (spec t r).1 ∧ R (step s r).2 (spec t r).2)
    (rs : List ω) : ∀ {s t}, R s t → (runTrace step s rs).1 = (runTrace spec t rs).1 ∧
      R (runTrace step s rs).2 (runTrace spec t rs).2 := by
  induction rs with
  | nil => intro s t h; exact ⟨rfl, h⟩
  | cons r rs ih =>
    intro s t h
    obtain ⟨hans, hrel⟩ := hstep s t r h
    obtain ⟨hrest, hend⟩ := ih hrel
    exact ⟨by simp only [runTrace, hans, hrest], hend⟩

/-- **Answers.** What holds of the answers of every step taken where `I`
holds, which it keeps, holds of all answers of a run. -/
theorem runTrace_answers {step : σ → ω → ρ × σ} {I : σ → Prop} {P : ρ → Prop}
    (hstep : ∀ s r, I s → P (step s r).1 ∧ I (step s r).2) (rs : List ω) :
    ∀ {s}, I s → ∀ a ∈ (runTrace step s rs).1, P a := by
  induction rs with
  | nil => intro s _ a ha; cases ha
  | cons r rs ih =>
    intro s h a ha
    obtain ⟨hans, hnext⟩ := hstep s r h
    rcases List.mem_cons.mp ha with rfl | ha
    · exact hans
    · exact ih hnext a ha

/-- Every step of the run has `P` in the state it is taken in. -/
def EachStep (step : σ → ω → ρ × σ) (P : σ → ω → Prop) : σ → List ω → Prop
  | _, [] => True
  | s, r :: rs => P s r ∧ EachStep step P (step s r).2 rs

/-- A step in the middle of the run has `P` in the state the steps before
it reach. -/
theorem EachStep.at {step : σ → ω → ρ × σ} {P : σ → ω → Prop} {r : ω} {rest : List ω}
    (done : List ω) : ∀ {s}, EachStep step P s (done ++ r :: rest) →
      P (runTrace step s done).2 r := by
  induction done with
  | nil => intro s h; exact h.1
  | cons r' done ih => intro s h; exact ih h.2

/-- **Step by step.** Two properties of a step that agree where `I` holds
hold along the same runs, when the steps that have them keep `I`. -/
theorem eachStep_iff {step : σ → ω → ρ × σ} {I : σ → Prop} {P Q : σ → ω → Prop}
    (hiff : ∀ s r, I s → (P s r ↔ Q s r)) (hkeep : ∀ s r, I s → Q s r → I (step s r).2)
    (rs : List ω) : ∀ {s}, I s → (EachStep step P s rs ↔ EachStep step Q s rs) := by
  induction rs with
  | nil => intro s _; exact Iff.rfl
  | cons r rs ih =>
    intro s h
    have hhead := hiff s r h
    refine ⟨fun hp => ?_, fun hq => ⟨hhead.mpr hq.1, (ih (hkeep s r h hq.1)).mpr hq.2⟩⟩
    have hq := hhead.mp hp.1
    exact ⟨hq, (ih (hkeep s r h hq)).mp hp.2⟩

/-- A run of steps that may be impossible. -/
def runSteps (step : σ → ω → Option σ) : σ → List ω → Option σ
  | s, [] => some s
  | s, r :: rs => (step s r).bind fun s' => runSteps step s' rs

/-- **Totality.** Where every step is possible and keeps `I`, so is every
run. -/
theorem runSteps_total {step : σ → ω → Option σ} {I : σ → Prop}
    (hstep : ∀ s r, I s → ∃ s', step s r = some s' ∧ I s') (rs : List ω) :
    ∀ {s}, I s → ∃ s', runSteps step s rs = some s' ∧ I s' := by
  induction rs with
  | nil => intro s h; exact ⟨s, rfl, h⟩
  | cons r rs ih =>
    intro s h
    obtain ⟨s₁, hs₁, h₁⟩ := hstep s r h
    rw [runSteps, hs₁]
    exact ih h₁

/-- Every step of the run meets the guard in the state it is taken in. -/
def Guarded (step : σ → ω → Option σ) (guard : σ → ω → Prop) : σ → List ω → Prop
  | _, [] => True
  | s, r :: rs =>
    guard s r ∧
      match step s r with
      | none => True
      | some s' => Guarded step guard s' rs

instance Guarded.decidable {step : σ → ω → Option σ} {guard : σ → ω → Prop}
    [∀ s r, Decidable (guard s r)] : ∀ s rs, Decidable (Guarded step guard s rs)
  | _, [] => isTrue trivial
  | s, r :: rs =>
    haveI : Decidable (match step s r with
        | none => True
        | some s' => Guarded step guard s' rs) :=
      match step s r with
      | none => isTrue trivial
      | some s' => Guarded.decidable s' rs
    inferInstanceAs (Decidable (_ ∧ _))

/-- **Guarded invariance.** What the steps that meet the guard keep holds
at the end of every run whose steps all meet it. -/
theorem runSteps_guarded {step : σ → ω → Option σ} {guard : σ → ω → Prop} {I : σ → Prop}
    (hstep : ∀ s r s', I s → guard s r → step s r = some s' → I s') (rs : List ω) :
    ∀ {s s'}, I s → Guarded step guard s rs → runSteps step s rs = some s' → I s' := by
  induction rs with
  | nil =>
    intro s s' h _ hrun
    cases hrun
    exact h
  | cons r rs ih =>
    intro s s' h hg hrun
    obtain ⟨hguard, hrest⟩ := hg
    cases hs : step s r with
    | none => simp [runSteps, hs] at hrun
    | some s₁ =>
      rw [hs] at hrest
      rw [runSteps, hs] at hrun
      exact ih (hstep s r s₁ h hguard hs) hrest hrun

/-- **Guards.** A guard that implies another where `I` holds, and keeps `I`,
is met along a run only if the other is. -/
theorem Guarded.imp {step : σ → ω → Option σ} {guard guard' : σ → ω → Prop} {I : σ → Prop}
    (himp : ∀ s r, I s → guard s r → guard' s r)
    (hstep : ∀ s r s', I s → guard s r → step s r = some s' → I s') (rs : List ω) :
    ∀ {s}, I s → Guarded step guard s rs → Guarded step guard' s rs := by
  induction rs with
  | nil => intro s _ _; trivial
  | cons r rs ih =>
    intro s h hg
    obtain ⟨hguard, hrest⟩ := hg
    refine ⟨himp s r h hguard, ?_⟩
    cases hs : step s r with
    | none => trivial
    | some s₁ =>
      rw [hs] at hrest
      exact ih (hstep s r s₁ h hguard hs) hrest

/-- **Guarded totality.** Where every step that meets the guard is possible
and keeps `I`, so is every run whose steps all meet it. -/
theorem runSteps_guarded_total {step : σ → ω → Option σ} {guard : σ → ω → Prop} {I : σ → Prop}
    (hstep : ∀ s r, I s → guard s r → ∃ s', step s r = some s' ∧ I s') (rs : List ω) :
    ∀ {s}, I s → Guarded step guard s rs → ∃ s', runSteps step s rs = some s' ∧ I s' := by
  induction rs with
  | nil => intro s h _; exact ⟨s, rfl, h⟩
  | cons r rs ih =>
    intro s h hg
    obtain ⟨hguard, hrest⟩ := hg
    obtain ⟨s₁, hs₁, h₁⟩ := hstep s r h hguard
    rw [hs₁] at hrest
    rw [runSteps, hs₁]
    exact ih h₁ hrest

/-- A run that a step may break off. -/
def runTry {ε : Type*} (step : σ → ω → Except ε (ρ × σ)) : σ → List ω → Except ε (List ρ × σ)
  | s, [] => .ok ([], s)
  | s, r :: rs =>
    match step s r with
    | .error e => .error e
    | .ok (a, s') =>
      match runTry step s' rs with
      | .error e => .error e
      | .ok (as, s'') => .ok (a :: as, s'')

/-- **Simulation up to breaking off.** Where every step that is asked for
breaks off as `P` says or answers like the specification, so does the
run. -/
theorem runTry_sim {ε : Type*} {step : σ → ω → Except ε (ρ × σ)} {spec : τ → ω → ρ × τ}
    {R : σ → τ → Prop} {P : ε → Prop} {legal : ω → Prop}
    (hstep : ∀ s t r, R s t → legal r → (∃ e, step s r = .error e ∧ P e) ∨
      ∃ s', step s r = .ok ((spec t r).1, s') ∧ R s' (spec t r).2) (rs : List ω) :
    ∀ {s t}, R s t → (∀ r ∈ rs, legal r) → (∃ e, runTry step s rs = .error e ∧ P e) ∨
      ∃ s', runTry step s rs = .ok ((runTrace spec t rs).1, s') ∧ R s' (runTrace spec t rs).2 := by
  induction rs with
  | nil => intro s t h _; exact Or.inr ⟨s, rfl, h⟩
  | cons r rs ih =>
    intro s t h hlegal
    rw [List.forall_mem_cons] at hlegal
    rcases hstep s t r h hlegal.1 with ⟨e, he, hP⟩ | ⟨s₁, hs₁, h₁⟩
    · exact Or.inl ⟨e, by simp only [runTry, he], hP⟩
    · rcases ih h₁ hlegal.2 with ⟨e, he, hP⟩ | ⟨s', hs', h'⟩
      · exact Or.inl ⟨e, by simp only [runTry, hs₁, he], hP⟩
      · exact Or.inr ⟨s', by simp only [runTry, runTrace, hs₁, hs'], h'⟩

/-- **Totality.** Where no step breaks off and every step keeps `I`, no run
breaks off. -/
theorem runTry_total {ε : Type*} {step : σ → ω → Except ε (ρ × σ)} {I : σ → Prop}
    (hstep : ∀ s r, I s → ∃ a s', step s r = .ok (a, s') ∧ I s') (rs : List ω) :
    ∀ {s}, I s → ∃ as s', runTry step s rs = .ok (as, s') ∧ I s' := by
  induction rs with
  | nil => intro s h; exact ⟨[], s, rfl, h⟩
  | cons r rs ih =>
    intro s h
    obtain ⟨a, s₁, hs₁, h₁⟩ := hstep s r h
    obtain ⟨as, s', hs', h'⟩ := ih h₁
    exact ⟨a :: as, s', by simp only [runTry, hs₁, hs'], h'⟩

/-- Every step of the run meets the guard in the state it is taken in, up to
where the run is broken off. -/
def GuardedTry {ε : Type*} (step : σ → ω → Except ε (ρ × σ)) (guard : σ → ω → Prop) :
    σ → List ω → Prop
  | _, [] => True
  | s, r :: rs =>
    guard s r ∧
      match step s r with
      | .error _ => True
      | .ok (_, s') => GuardedTry step guard s' rs

instance GuardedTry.decidable {ε : Type*} {step : σ → ω → Except ε (ρ × σ)} {guard : σ → ω → Prop}
    [∀ s r, Decidable (guard s r)] : ∀ s rs, Decidable (GuardedTry step guard s rs)
  | _, [] => isTrue trivial
  | s, r :: rs =>
    haveI : Decidable (match step s r with
        | .error _ => True
        | .ok (_, s') => GuardedTry step guard s' rs) :=
      match step s r with
      | .error _ => isTrue trivial
      | .ok (_, s') => GuardedTry.decidable s' rs
    inferInstanceAs (Decidable (_ ∧ _))

/-- **Guarded invariance up to breaking off.** -/
theorem runTry_guarded {ε : Type*} {step : σ → ω → Except ε (ρ × σ)} {guard : σ → ω → Prop}
    {I : σ → Prop} {P : ε → Prop}
    (hstep : ∀ s r, I s → guard s r → (∃ e, step s r = .error e ∧ P e) ∨
      ∃ a s', step s r = .ok (a, s') ∧ I s') (rs : List ω) :
    ∀ {s}, I s → GuardedTry step guard s rs → (∃ e, runTry step s rs = .error e ∧ P e) ∨
      ∃ as s', runTry step s rs = .ok (as, s') ∧ I s' := by
  induction rs with
  | nil => intro s h _; exact Or.inr ⟨[], s, rfl, h⟩
  | cons r rs ih =>
    intro s h hg
    obtain ⟨hguard, hrest⟩ := hg
    rcases hstep s r h hguard with ⟨e, he, hP⟩ | ⟨a, s₁, hs₁, h₁⟩
    · exact Or.inl ⟨e, by simp only [runTry, he], hP⟩
    · rw [hs₁] at hrest
      rcases ih h₁ hrest with ⟨e, he, hP⟩ | ⟨as, s', hs', h'⟩
      · exact Or.inl ⟨e, by simp only [runTry, hs₁, he], hP⟩
      · exact Or.inr ⟨a :: as, s', by simp only [runTry, hs₁, hs'], h'⟩

/-- **Loops that no item breaks off** keep what their body keeps. -/
theorem foldlM_total {ε ι : Type*} {f : σ → ι → Except ε σ} {I : σ → Prop}
    (hbody : ∀ s i, I s → ∃ s', f s i = .ok s' ∧ I s') (l : List ι) :
    ∀ {s}, I s → ∃ s', l.foldlM f s = .ok s' ∧ I s' := by
  induction l with
  | nil => intro s h; exact ⟨s, rfl, h⟩
  | cons i l ih =>
    intro s h
    obtain ⟨s₁, hs₁, h₁⟩ := hbody s i h
    rw [List.foldlM_cons, hs₁]
    exact ih h₁

/-- **Loops.** `I` says what holds after the items of a list have been
done; no item is done twice. -/
theorem foldlM_inv {ε ι : Type*} {f : σ → ι → Except ε σ} {I : List ι → σ → Prop} {P : ε → Prop}
    (hstep : ∀ done i s, i ∉ done → I done s → (∃ e, f s i = .error e ∧ P e) ∨
      ∃ s', f s i = .ok s' ∧ I (i :: done) s') (l : List ι) :
    ∀ {done s}, l.Nodup → (∀ i ∈ l, i ∉ done) → I done s → (∃ e, l.foldlM f s = .error e ∧ P e) ∨
        ∃ s', l.foldlM f s = .ok s' ∧ I (l.reverse ++ done) s' := by
  induction l with
  | nil => intro done s _ _ h; exact Or.inr ⟨s, rfl, h⟩
  | cons i l ih =>
    intro done s hnd hnew h
    rw [List.nodup_cons] at hnd
    rw [List.forall_mem_cons] at hnew
    rw [List.foldlM_cons]
    rcases hstep done i s hnew.1 h with ⟨e, he, hP⟩ | ⟨s₁, hs₁, h₁⟩
    · exact Or.inl ⟨e, by rw [he]; rfl, hP⟩
    have hnew' : ∀ j ∈ l, j ∉ i :: done := by
      intro j hj hmem
      rcases List.mem_cons.mp hmem with rfl | hmem
      · exact hnd.1 hj
      · exact hnew.2 j hj hmem
    rw [hs₁, List.reverse_cons, List.append_assoc]
    exact ih hnd.2 hnew' h₁

end Lnxrm
