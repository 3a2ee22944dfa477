import Lnxrm.Common.Program

/-!
# Loops that may be left early

`foldExit` folds a list until a step leaves the loop with a result: `inl`
goes on, `inr` is the early exit. `Prog.forEach` is the same loop with a
program for its body; a body that only looks computes the fold
(`wp_forEach_of_reads`).
-/

namespace Lnxrm

variable {ι β γ : Type}

/-- A fold that a step may leave with a result. -/
def foldExit (f : β → ι → β ⊕ γ) : β → List ι → β ⊕ γ
  | b, [] => .inl b
  | b, i :: is =>
    match f b i with
    | .inl b => foldExit f b is
    | .inr r => .inr r

theorem foldExit_append (f : β → ι → β ⊕ γ) (b : β) (l l' : List ι) : foldExit f b (l ++ l') =
      match foldExit f b l with
      | .inl b => foldExit f b l'
      | .inr r => .inr r := by
  induction l generalizing b with
  | nil => rfl
  | cons i is ih =>
    rw [List.cons_append, foldExit, foldExit]
    cases f b i with
    | inl b => exact ih b
    | inr r => rfl

theorem foldExit_map {κ : Type} (f : β → ι → β ⊕ γ) (g : κ → ι) (b : β) (l : List κ) :
    foldExit f b (l.map g) = foldExit (fun b k => f b (g k)) b l := by
  induction l generalizing b with
  | nil => rfl
  | cons i is ih =>
    rw [List.map_cons, foldExit, foldExit]
    cases f b (g i) with
    | inl b => exact ih b
    | inr r => rfl

theorem foldExit_flatMap {κ : Type} (f : β → ι → β ⊕ γ) (g : κ → List ι) (b : β) (l : List κ) :
    foldExit f b (l.flatMap g) = foldExit (fun b k => foldExit f b (g k)) b l := by
  induction l generalizing b with
  | nil => rfl
  | cons k ks ih =>
    rw [List.flatMap_cons, foldExit_append, foldExit]
    cases foldExit f b (g k) with
    | inl b => exact ih b
    | inr r => rfl

theorem foldExit_congr {f f' : β → ι → β ⊕ γ} {l : List ι} (h : ∀ b, ∀ i ∈ l, f b i = f' b i)
    (b : β) : foldExit f b l = foldExit f' b l := by
  induction l generalizing b with
  | nil => rfl
  | cons i is ih =>
    rw [foldExit, foldExit, h b i List.mem_cons_self]
    cases f' b i with
    | inl b => exact ih (fun b j hj => h b j (List.mem_cons_of_mem _ hj)) b
    | inr r => rfl

/-- **A loop that was left** went over a first part of the list, and left
at the next element. -/
theorem foldExit_inr {f : β → ι → β ⊕ γ} {b : β} {l : List ι} {r : γ}
    (h : foldExit f b l = .inr r) :
    ∃ l₁ i l₂ b', l = l₁ ++ i :: l₂ ∧ foldExit f b l₁ = .inl b' ∧ f b' i = .inr r := by
  induction l generalizing b with
  | nil => cases h
  | cons i is ih =>
    rw [foldExit] at h
    cases hf : f b i with
    | inl b' =>
      rw [hf] at h
      obtain ⟨l₁, j, l₂, b'', rfl, h₁, h₂⟩ := ih h
      exact ⟨i :: l₁, j, l₂, b'', rfl, by rw [foldExit, hf]; exact h₁, h₂⟩
    | inr r' =>
      rw [hf] at h
      exact ⟨[], i, is, b, rfl, rfl, by rw [hf]; exact h⟩

/-- What a loop is left with may be changed at its exits. -/
theorem foldExit_mapExit {γ' : Type} (f : β → ι → β ⊕ γ) (h : γ → γ') (b : β) (l : List ι) :
    foldExit (fun b i => (f b i).map id h) b l = (foldExit f b l).map id h := by
  induction l generalizing b with
  | nil => rfl
  | cons i is ih =>
    rw [foldExit, foldExit]
    cases f b i with
    | inl b => exact ih b
    | inr r => rfl

/-- A loop that was not left went on at every element. -/
theorem foldExit_inl {f : β → ι → β ⊕ γ} {b b' : β} {l : List ι} (h : foldExit f b l = .inl b')
    {i : ι} (hi : i ∈ l) : ∃ b₁ b₂, f b₁ i = .inl b₂ := by
  induction l generalizing b with
  | nil => simp at hi
  | cons j js ih =>
    rw [foldExit] at h
    cases hf : f b j with
    | inl b₁ =>
      rw [hf] at h
      rcases List.mem_cons.mp hi with rfl | hi
      · exact ⟨b, b₁, hf⟩
      · exact ih h hi
    | inr r =>
      rw [hf] at h
      cases h

/-- **What a loop has gone over**: `P` relates the elements seen so far to
the state they leave. -/
theorem foldExit_history {f : β → ι → β ⊕ γ} {P : List ι → β → Prop} {b : β} (h₀ : P [] b)
    (hstep : ∀ {seen b i b'}, P seen b → f b i = .inl b' → P (seen ++ [i]) b') {l : List ι} {b' : β}
    (h : foldExit f b l = .inl b') : P l b' := by
  suffices hgen : ∀ (l seen : List ι) (b : β), P seen b → foldExit f b l = .inl b' →
      P (seen ++ l) b' by simpa using hgen l [] b h₀ h
  intro l
  induction l with
  | nil =>
    intro seen b hP h
    cases h
    simpa using hP
  | cons i is ih =>
    intro seen b hP h
    rw [foldExit] at h
    cases hf : f b i with
    | inl b₁ =>
      rw [hf] at h
      simpa using ih (seen ++ [i]) b₁ (hstep hP hf) h
    | inr r =>
      rw [hf] at h
      cases h

/-- The same for a loop that was left. -/
theorem foldExit_left {f : β → ι → β ⊕ γ} {P : List ι → β → Prop} {b : β} (h₀ : P [] b)
    (hstep : ∀ {seen b i b'}, P seen b → f b i = .inl b' → P (seen ++ [i]) b') {l : List ι} {r : γ}
    (h : foldExit f b l = .inr r) :
    ∃ l₁ i l₂ b', l = l₁ ++ i :: l₂ ∧ P l₁ b' ∧ f b' i = .inr r := by
  obtain ⟨l₁, i, l₂, b', rfl, hl₁, hi⟩ := foldExit_inr h
  exact ⟨l₁, i, l₂, b', rfl, foldExit_history h₀ hstep hl₁, hi⟩

/-- What every turn keeps, or the turn that leaves the loop establishes. -/
theorem foldExit_elim {f : β → ι → β ⊕ γ} {P : β → Prop} {P' : γ → Prop} {l : List ι}
    (h : ∀ b, ∀ i ∈ l, P b → Sum.elim P P' (f b i)) {b : β} (hb : P b) :
    Sum.elim P P' (foldExit f b l) := by
  induction l generalizing b with
  | nil => exact hb
  | cons i is ih =>
    have hi := h b i List.mem_cons_self hb
    rw [foldExit]
    cases hf : f b i with
    | inl b' =>
      rw [hf] at hi
      exact ih (fun b j hj => h b j (List.mem_cons_of_mem _ hj)) hi
    | inr r =>
      rw [hf] at hi
      exact hi

namespace Prog

variable {Op : Type} {Resp : Op → Type} {τ : Type} {M : GuardedImpl Op Resp τ}

/-- The loop over a list with a program for its body. -/
def forEach (body : β → ι → Prog Op Resp (β ⊕ γ)) : β → List ι → Prog Op Resp (β ⊕ γ)
  | b, [] => pure (.inl b)
  | b, i :: is => do
    match ← body b i with
    | .inl b => forEach body b is
    | .inr r => pure (.inr r)

/-- **A loop whose body only looks** computes the fold of what it sees. -/
theorem wp_forEach_of_reads {body : β → ι → Prog Op Resp (β ⊕ γ)} {f : β → ι → β ⊕ γ}
    {l : List ι} {v : τ} {Q : β ⊕ γ → τ → Prop}
    (hbody : ∀ b, ∀ i ∈ l, ∀ Q : β ⊕ γ → τ → Prop, Q (f b i) v → wp M (body b i) Q v) (b : β)
    (hQ : Q (foldExit f b l) v) : wp M (forEach body b l) Q v := by
  induction l generalizing b with
  | nil => exact hQ
  | cons i is ih =>
    rw [forEach, wp_bind]
    refine hbody b i (by simp) _ ?_
    rw [foldExit] at hQ
    cases hf : f b i with
    | inl b' =>
      rw [hf] at hQ
      exact ih (fun b j hj => hbody b j (by simp [hj])) b' hQ
    | inr r =>
      rw [hf] at hQ
      exact hQ

end Prog

end Lnxrm
