import Lnxrm.Common.Loop

/-!
# Partial correctness of programs

What a program does against one implementation if it comes to an end.
`wlp` is the weakest liberal precondition; `Only A` says that a program
calls nothing but `A`, whatever it is answered, so that it keeps what the
calls of `A` keep (`Only.keeps`) and needs an implementation of them only
(`Only.exec_of_wp`). `Yields P` says that whatever it returns
satisfies `P`, for the calls that follow (`Only.bind_of`). `Returns b` says
that some answers lead it to return `b`: what holds whatever a program is
answered then holds of what follows (`Only.of_bind`, `Yields.of_bind`).
-/

namespace Lnxrm.Prog

variable {Op : Type} {Resp : Op → Type} {ι β γ σ : Type} {impl : (o : Op) → σ → Resp o × σ}

/-- If the program ends, `Q` holds. -/
def wlp (impl : (o : Op) → σ → Resp o × σ) (p : Prog Op Resp β) (Q : β → σ → Prop) (s : σ) : Prop :=
  ∀ b s', exec impl p s = some (b, s') → Q b s'

@[simp]
theorem wlp_pure (b : β) (Q : β → σ → Prop) (s : σ) :
    wlp impl (Pure.pure b : Prog Op Resp β) Q s ↔ Q b s := by
  constructor
  · exact fun h => h b s rfl
  · rintro h _ _ ⟨⟩
    exact h

@[simp]
theorem wlp_perform (o : Op) (Q : Resp o → σ → Prop) (s : σ) :
    wlp impl (perform o) Q s ↔ Q (impl o s).1 (impl o s).2 := by
  constructor
  · exact fun h => h _ _ rfl
  · rintro h _ _ ⟨⟩
    exact h

/-- **Sequencing.** -/
@[simp]
theorem wlp_bind (p : Prog Op Resp β) (f : β → Prog Op Resp γ) (Q : γ → σ → Prop) (s : σ) :
    wlp impl (p >>= f) Q s ↔ wlp impl p (fun b s' => wlp impl (f b) Q s') s := by
  induction p generalizing s with
  | pure b => exact (wlp_pure b (fun b s' => wlp impl (f b) Q s') s).symm
  | call o k ih => exact ih (impl o s).1 (impl o s).2
  | hang => exact ⟨nofun, nofun⟩

/-- **Consequence.** -/
theorem wlp_mono {p : Prog Op Resp β} {Q Q' : β → σ → Prop} {s : σ} (h : wlp impl p Q s)
    (hQ : ∀ b s', Q b s' → Q' b s') : wlp impl p Q' s :=
  fun b s' hrun => hQ b s' (h b s' hrun)

/-- **Loops**: what every turn keeps, and what it says where it leaves the
loop. -/
theorem wlp_forEach {body : β → ι → Prog Op Resp (β ⊕ γ)} {I : σ → Prop} {Q : β ⊕ γ → σ → Prop}
    {l : List ι}
    (hbody : ∀ b, ∀ i ∈ l, ∀ s, I s → wlp impl (body b i) (fun r s' =>
      match r with
      | .inl _ => I s'
      | .inr r => Q (.inr r) s') s)
    (hend : ∀ b s, I s → Q (.inl b) s) (b : β) {s : σ} (hs : I s) :
    wlp impl (forEach body b l) Q s := by
  induction l generalizing b s with
  | nil => exact (wlp_pure _ _ _).mpr (hend b s hs)
  | cons i is ih =>
    rw [forEach, wlp_bind]
    refine wlp_mono (hbody b i List.mem_cons_self s hs) fun r s' hr => ?_
    cases r with
    | inl b' => exact ih (fun b j hj => hbody b j (List.mem_cons_of_mem _ hj)) b' hr
    | inr r => exact (wlp_pure _ _ _).mpr hr

/-! ## Programs that call some operations only -/

/-- The program calls nothing but `A`, whatever it is answered. -/
def Only (A : Op → Prop) : Prog Op Resp β → Prop
  | .pure _ => True
  | .call o k => A o ∧ ∀ r, (k r).Only A
  | .hang => True

variable {A : Op → Prop}

theorem only_pure (b : β) : (Pure.pure b : Prog Op Resp β).Only A := trivial

theorem only_perform {o : Op} (h : A o) : (perform o : Prog Op Resp (Resp o)).Only A :=
  ⟨h, fun _ => trivial⟩

/-- **Invariance**: the program keeps what its calls keep. -/
theorem Only.keeps {p : Prog Op Resp β} {I : σ → Prop} (hp : p.Only A)
    (hI : ∀ o s, A o → I s → I (impl o s).2) {s : σ} (hs : I s) :
    wlp impl p (fun _ s' => I s') s := by
  induction p generalizing s with
  | pure b => exact (wlp_pure b _ s).mpr hs
  | call o k ih => exact ih (impl o s).1 (hp.2 _) (hI o s hp.1 hs)
  | hang => nofun

/-- **Adequacy for such programs**: only the calls of `A` have to be
answered as the guarded implementation does. -/
theorem Only.exec_of_wp {τ : Type} {M : GuardedImpl Op Resp τ} {R : σ → τ → Prop}
    {p : Prog Op Resp β} {Q : β → τ → Prop} (hp : p.Only A)
    (hsim : ∀ o s v, A o → R s v → M.guard o v →
      (impl o s).1 = (M.act o v).1 ∧ R (impl o s).2 (M.act o v).2)
    {s : σ} {v : τ} (hR : R s v) (h : wp M p Q v) :
    ∃ b s' v', exec impl p s = some (b, s') ∧ Q b v' ∧ R s' v' := by
  induction p generalizing s v with
  | pure b => exact ⟨b, s, v, rfl, h, hR⟩
  | call o k ih =>
    obtain ⟨hans, hR'⟩ := hsim o s v hp.1 hR h.1
    have hrun := ih (M.act o v).1 (hp.2 _) hR' h.2
    rwa [exec, hans]
  | hang => exact h.elim

theorem Only.mono {p : Prog Op Resp β} {A' : Op → Prop} (hp : p.Only A) (h : ∀ o, A o → A' o) :
    p.Only A' := by
  induction p with
  | pure b => trivial
  | call o k ih => exact ⟨h o hp.1, fun r => ih r (hp.2 r)⟩
  | hang => trivial

/-! ## What a program returns -/

/-- Whatever the program is answered, it returns a value of `P`. -/
def Yields (P : β → Prop) : Prog Op Resp β → Prop
  | .pure b => P b
  | .call _ k => ∀ r, (k r).Yields P
  | .hang => True

variable {P : β → Prop} {P' : γ → Prop}

theorem yields_pure {b : β} (h : P b) : (Pure.pure b : Prog Op Resp β).Yields P := h

theorem yields_any (p : Prog Op Resp β) : p.Yields fun _ => True := by
  induction p with
  | pure b => trivial
  | call o k ih => exact ih
  | hang => trivial

theorem Yields.mono {p : Prog Op Resp β} {Q : β → Prop} (hp : p.Yields P) (h : ∀ b, P b → Q b) :
    p.Yields Q := by
  induction p with
  | pure b => exact h b hp
  | call o k ih => exact fun r => ih r (hp r)
  | hang => trivial

/-- What a program yields it returns, against any implementation. -/
theorem Yields.wlp {p : Prog Op Resp β} (hp : p.Yields P) (s : σ) :
    wlp impl p (fun b _ => P b) s := by
  induction p generalizing s with
  | pure b => exact (wlp_pure b _ s).mpr hp
  | call o k ih => exact ih (impl o s).1 (hp _) (impl o s).2
  | hang => nofun

theorem Yields.bind {p : Prog Op Resp β} {f : β → Prog Op Resp γ} (hp : p.Yields P)
    (hf : ∀ b, P b → (f b).Yields P') : (p >>= f).Yields P' := by
  induction p with
  | pure b => exact hf b hp
  | call o k ih => exact fun r => ih r (hp r)
  | hang => trivial

/-- A loop yields what its turns keep, or what they leave it with. -/
theorem Yields.forEach {body : β → ι → Prog Op Resp (β ⊕ γ)} {l : List ι}
    (hbody : ∀ b, ∀ i ∈ l, P b → (body b i).Yields (Sum.elim P P')) (b : β) (hb : P b) :
    (Prog.forEach body b l).Yields (Sum.elim P P') := by
  induction l generalizing b with
  | nil => exact hb
  | cons i is ih =>
    rw [Prog.forEach]
    refine (hbody b i List.mem_cons_self hb).bind fun r hr => ?_
    cases r with
    | inl b' => exact ih (fun b j hj => hbody b j (List.mem_cons_of_mem _ hj)) b' hr
    | inr r => exact hr

/-- **Sequencing**, when the calls that follow depend on what was
returned. -/
theorem Only.bind_of {p : Prog Op Resp β} {f : β → Prog Op Resp γ} (hp : p.Only A)
    (hy : p.Yields P) (hf : ∀ b, P b → (f b).Only A) : (p >>= f).Only A := by
  induction p with
  | pure b => exact hf b hy
  | call o k ih => exact ⟨hp.1, fun r => ih r (hp.2 r) (hy r)⟩
  | hang => trivial

theorem Only.bind {p : Prog Op Resp β} {f : β → Prog Op Resp γ} (hp : p.Only A)
    (hf : ∀ b, (f b).Only A) : (p >>= f).Only A :=
  hp.bind_of (yields_any p) fun b _ => hf b

theorem Only.forEach {body : β → ι → Prog Op Resp (β ⊕ γ)} {l : List ι}
    (hbody : ∀ b, ∀ i ∈ l, (body b i).Only A) (b : β) : (Prog.forEach body b l).Only A := by
  induction l generalizing b with
  | nil => trivial
  | cons i is ih =>
    rw [Prog.forEach]
    refine (hbody b i List.mem_cons_self).bind fun r => ?_
    cases r with
    | inl b' => exact ih (fun b j hj => hbody b j (List.mem_cons_of_mem _ hj)) b'
    | inr r => trivial

/-! ## What a program can return -/

/-- Some answers lead the program to return `b`. -/
def Returns (b : β) : Prog Op Resp β → Prop
  | .pure b' => b' = b
  | .call _ k => ∃ r, (k r).Returns b
  | .hang => False

variable {b : β} {p : Prog Op Resp β} {f : β → Prog Op Resp γ}

theorem returns_pure (b : β) : (Pure.pure b : Prog Op Resp β).Returns b := rfl

theorem returns_perform {o : Op} (r : Resp o) : (perform o : Prog Op Resp (Resp o)).Returns r :=
  ⟨r, rfl⟩

theorem Returns.bind {c : γ} (h : p.Returns b) (hf : (f b).Returns c) : (p >>= f).Returns c := by
  induction p with
  | pure b' =>
    cases h
    exact hf
  | call o k ih =>
    obtain ⟨r, hr⟩ := h
    exact ⟨r, ih r hr⟩
  | hang => exact h.elim

theorem Only.of_bind (h : (p >>= f).Only A) (hr : p.Returns b) : (f b).Only A := by
  induction p with
  | pure b' =>
    cases hr
    exact h
  | call o k ih =>
    obtain ⟨r, hr⟩ := hr
    exact ih r (h.2 r) hr
  | hang => exact hr.elim

theorem Yields.of_bind (h : (p >>= f).Yields P') (hr : p.Returns b) : (f b).Yields P' := by
  induction p with
  | pure b' =>
    cases hr
    exact h
  | call o k ih =>
    obtain ⟨r, hr⟩ := hr
    exact ih r (h r) hr
  | hang => exact hr.elim

end Lnxrm.Prog
