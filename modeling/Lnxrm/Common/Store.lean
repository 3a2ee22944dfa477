import Mathlib.Data.List.Nodup

/-!
# Stores written in order

A store is a function from keys to values, and a list of writes acts on
it from left to right: `applyWrites`. What a key holds afterwards is
decided by the last write to it, so two stores that differ only where
the list writes end up equal (`applyWrites_congr`), and a list with no
key twice may be cut anywhere without changing what its first part
leaves behind (`applyWrites_take_of_nodup`).
-/

namespace Lnxrm

open Function

variable {κ α : Type*} [DecidableEq κ]

/-- The store after the writes of a list, the first one first. -/
def applyWrites (ws : List (κ × α)) (f : κ → α) : κ → α :=
  ws.foldl (fun g w => update g w.1 w.2) f

@[simp] theorem applyWrites_nil (f : κ → α) : applyWrites [] f = f := rfl

@[simp] theorem applyWrites_cons (w : κ × α) (ws : List (κ × α)) (f : κ → α) :
    applyWrites (w :: ws) f = applyWrites ws (update f w.1 w.2) := rfl

/-- Writes act in sequence. -/
theorem applyWrites_append (ws vs : List (κ × α)) (f : κ → α) :
    applyWrites (ws ++ vs) f = applyWrites vs (applyWrites ws f) := by
  simp [applyWrites, List.foldl_append]

/-- A key no write names keeps its value. -/
theorem applyWrites_of_forall_ne {ws : List (κ × α)} {k : κ} :
    ∀ {f : κ → α}, (∀ w ∈ ws, w.1 ≠ k) → applyWrites ws f k = f k := by
  induction ws with
  | nil => intro f _; rfl
  | cons w ws ih =>
    intro f h
    rw [applyWrites_cons, ih fun v hv => h v (List.mem_cons_of_mem _ hv),
      update_of_ne (h w List.mem_cons_self).symm]

/-- **The last write decides.** A key some write names holds the same
value whatever the store held before. -/
theorem applyWrites_congr {ws : List (κ × α)} {k : κ} :
    ∀ {f g : κ → α}, ((∃ w ∈ ws, w.1 = k) ∨ f k = g k) →
      applyWrites ws f k = applyWrites ws g k := by
  induction ws with
  | nil =>
    rintro f g (⟨w, hw, -⟩ | h)
    · simp at hw
    · exact h
  | cons w ws ih =>
    intro f g h
    rw [applyWrites_cons, applyWrites_cons]
    apply ih
    by_cases hk : w.1 = k
    · right
      rw [← hk, update_self, update_self]
    · rcases h with ⟨v, hv, hvk⟩ | h
      · rcases List.mem_cons.mp hv with rfl | hv
        · exact absurd hvk hk
        · exact Or.inl ⟨v, hv, hvk⟩
      · right
        rw [update_of_ne (Ne.symm hk), update_of_ne (Ne.symm hk), h]

/-- **A list with no key twice may be cut.** What its first part writes
to a key is what the whole list writes there. -/
theorem applyWrites_take_of_nodup {ws : List (κ × α)} (hnd : (ws.map Prod.fst).Nodup) (n : ℕ)
    {k : κ} (hk : ∃ w ∈ ws.take n, w.1 = k) (f : κ → α) :
    applyWrites (ws.take n) f k = applyWrites ws f k := by
  obtain ⟨w, hw, rfl⟩ := hk
  conv_rhs => rw [← List.take_append_drop n ws, applyWrites_append]
  symm
  apply applyWrites_of_forall_ne
  intro v hv heq
  rw [← List.take_append_drop n ws, List.map_append, List.nodup_append] at hnd
  exact hnd.2.2 w.1 (List.mem_map_of_mem hw) v.1 (List.mem_map_of_mem hv) heq.symm

/-- Writes that only restore what a store holds leave it as it is. -/
theorem applyWrites_eq_self {ws : List (κ × α)} {f : κ → α} (h : ∀ w ∈ ws, w.2 = f w.1) :
    applyWrites ws f = f := by
  induction ws with
  | nil => rfl
  | cons w ws ih =>
    have hw : update f w.1 w.2 = f := by
      rw [h w List.mem_cons_self, update_eq_self]
    rw [applyWrites_cons, hw]
    exact ih fun v hv => h v (List.mem_cons_of_mem _ hv)

end Lnxrm
