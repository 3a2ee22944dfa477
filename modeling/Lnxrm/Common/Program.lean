import Mathlib.Init

/-!
# Programs over an interface

A program calls operations `Op` of the layer below and goes on with their
responses; it is written once and may be run against several
implementations of that layer. `exec` runs it against an implementation,
a state transformer for each operation; a program that `hang`s has no
result.

A `GuardedImpl` may also refuse a call. `wp` is the weakest
precondition of a program against one: no call is refused, the program
ends, and the postcondition holds then. The rules compose along `bind`
(`wp_bind`), and what is proved against a guarded implementation holds
against every implementation that answers alike where the guard lets the
call through (`exec_of_wp`).
-/

namespace Lnxrm

/-- Programs that call `Op` and return a `β`. -/
inductive Prog (Op : Type) (Resp : Op → Type) (β : Type) where
  | pure (b : β)
  | call (o : Op) (k : Resp o → Prog Op Resp β)
  | hang

namespace Prog

variable {Op : Type} {Resp : Op → Type} {β γ σ τ : Type}

/-- One program after the other. -/
protected def bind : Prog Op Resp β → (β → Prog Op Resp γ) → Prog Op Resp γ
  | .pure b, f => f b
  | .call o k, f => .call o fun r => (k r).bind f
  | .hang, _ => .hang

instance : Monad (Prog Op Resp) where
  pure := Prog.pure
  bind := Prog.bind

/-- Sequencing is associative. -/
theorem bind_bind {δ : Type} (p : Prog Op Resp β) (f : β → Prog Op Resp γ)
    (g : γ → Prog Op Resp δ) : p >>= f >>= g = p >>= fun b => f b >>= g := by
  induction p with
  | pure b => rfl
  | call o k ih => exact congrArg (call o) (funext ih)
  | hang => rfl

/-- The program that makes one call. -/
def perform (o : Op) : Prog Op Resp (Resp o) := .call o .pure

/-- The run of a program against an implementation of its operations. -/
def exec (impl : (o : Op) → σ → Resp o × σ) : Prog Op Resp β → σ → Option (β × σ)
  | .pure b, s => some (b, s)
  | .call o k, s => exec impl (k (impl o s).1) (impl o s).2
  | .hang, _ => none

/-- The run of one program after the other. -/
theorem exec_bind (impl : (o : Op) → σ → Resp o × σ) (p : Prog Op Resp β)
    (f : β → Prog Op Resp γ) (s : σ) :
    exec impl (p >>= f) s = (exec impl p s).bind fun r => exec impl (f r.1) r.2 := by
  induction p generalizing s with
  | pure b => rfl
  | call o k ih => exact ih _ _
  | hang => rfl

end Prog

/-- An implementation that may refuse a call. -/
structure GuardedImpl (Op : Type) (Resp : Op → Type) (τ : Type) where
  guard : Op → τ → Prop
  act : (o : Op) → τ → Resp o × τ

namespace Prog

variable {Op : Type} {Resp : Op → Type} {β γ σ τ : Type} {M : GuardedImpl Op Resp τ}

/-- The weakest precondition of a program. -/
def wp (M : GuardedImpl Op Resp τ) : Prog Op Resp β → (β → τ → Prop) → τ → Prop
  | .pure b, Q, v => Q b v
  | .call o k, Q, v => M.guard o v ∧ wp M (k (M.act o v).1) Q (M.act o v).2
  | .hang, _, _ => False

@[simp]
theorem wp_pure (b : β) (Q : β → τ → Prop) (v : τ) :
    wp M (Pure.pure b : Prog Op Resp β) Q v ↔ Q b v := Iff.rfl

@[simp]
theorem wp_perform (o : Op) (Q : Resp o → τ → Prop) (v : τ) :
    wp M (perform o) Q v ↔ M.guard o v ∧ Q (M.act o v).1 (M.act o v).2 := Iff.rfl

/-- **Sequencing.** -/
@[simp]
theorem wp_bind (p : Prog Op Resp β) (f : β → Prog Op Resp γ) (Q : γ → τ → Prop) (v : τ) :
    wp M (p >>= f) Q v ↔ wp M p (fun b v' => wp M (f b) Q v') v := by
  induction p generalizing v with
  | pure b => exact Iff.rfl
  | call o k ih => exact and_congr Iff.rfl (ih _ _)
  | hang => exact Iff.rfl

/-- **Consequence.** -/
theorem wp_mono {p : Prog Op Resp β} {Q Q' : β → τ → Prop} {v : τ} (h : wp M p Q v)
    (hQ : ∀ b v', Q b v' → Q' b v') : wp M p Q' v := by
  induction p generalizing v with
  | pure b => exact hQ b v h
  | call o k ih => exact ⟨h.1, ih _ h.2⟩
  | hang => exact h

/-- **Adequacy.** An implementation that answers as the guarded one does,
wherever the guard lets the call through, runs every program to its
postcondition. -/
theorem exec_of_wp {impl : (o : Op) → σ → Resp o × σ} {R : σ → τ → Prop}
    (hsim : ∀ o s v, R s v → M.guard o v →
      (impl o s).1 = (M.act o v).1 ∧ R (impl o s).2 (M.act o v).2)
    {p : Prog Op Resp β} {Q : β → τ → Prop} {s : σ} {v : τ} (hR : R s v) (h : wp M p Q v) :
    ∃ b s' v', exec impl p s = some (b, s') ∧ Q b v' ∧ R s' v' := by
  induction p generalizing s v with
  | pure b => exact ⟨b, s, v, rfl, h, hR⟩
  | call o k ih =>
    obtain ⟨hans, hR'⟩ := hsim o s v hR h.1
    have hrun := ih (M.act o v).1 hR' h.2
    rwa [exec, hans]
  | hang => exact h.elim

end Prog

end Lnxrm
