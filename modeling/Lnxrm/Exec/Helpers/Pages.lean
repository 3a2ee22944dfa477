import Lnxrm.Exec.Model
import Lnxrm.Vmm.Helpers.Mapping

/-!
# Loops over pages

Proof layer. The rule for a loop that its body may leave, and what
`freshPage` comes to without a free frame.
-/

namespace Lnxrm.Exec

open Vmm

variable {A : Type} {B : Buddy A} {s s' : Vm A} {root : ℕ}

theorem ok_of_bind {ε α β : Type} {x : Except ε α} {k : α → Except ε β} {b : β}
    (h : (x >>= k) = .ok b) : ∃ a, x = .ok a ∧ k a = .ok b := by
  cases x with
  | error e => cases h
  | ok a => exact ⟨a, rfl, h⟩

theorem bind_of_ok {ε α β : Type} {x : Except ε α} {k : α → Except ε β} {a : α} (h : x = .ok a) :
    (x >>= k) = k a := by
  rw [h]
  rfl

theorem ok_of_toOption {ε α : Type} {x : Except ε α} {a : α} (h : x.toOption = some a) :
    x = .ok a := by
  cases x with
  | error e => cases h
  | ok b => exact congrArg _ (Option.some.inj h)

/-- **A loop over pages.** `Q` is what holds with the pages still to come,
and `Post` of the outcome. -/
theorem forPages_rule {body : ℕ → Vm A → Except (Stop A) (Bool × Vm A)} {Q : List ℕ → Vm A → Prop}
    {Post : Except (Stop A) (Bool × Vm A) → Prop} (hend : ∀ s, Q [] s → Post (.ok (true, s)))
    (hstep : ∀ page pages s, Q (page :: pages) s →
      (∃ s', body page s = .ok (true, s') ∧ Q pages s') ∨
        (Post (body page s) ∧ ∀ s', body page s ≠ .ok (true, s'))) (pages : List ℕ) :
    ∀ {s : Vm A}, Q pages s → Post (forPages body pages s) := by
  induction pages with
  | nil => intro s h; exact hend s h
  | cons page pages ih =>
    intro s h
    rw [forPages]
    rcases hstep page pages s h with ⟨s', hbody, hq⟩ | ⟨hpost, hnot⟩
    · rw [hbody]
      exact ih hq
    cases hbody : body page s with
    | error e =>
      rw [hbody] at hpost
      exact hpost
    | ok r =>
      obtain ⟨ok, s'⟩ := r
      cases ok with
      | false =>
        rw [hbody] at hpost
        exact hpost
      | true => exact absurd hbody (hnot s')

theorem freshPage_false {writable : Bool} {page : ℕ}
    (h : freshPage B root writable page s = .ok (false, s')) : s' = s ∧ B.free s.pool = ∅ := by
  unfold freshPage at h
  cases halloc : s.pmmAlloc B with
  | none =>
    rw [halloc] at h
    cases h
    exact ⟨rfl, pmmAlloc_none halloc⟩
  | some r =>
    rw [halloc] at h
    dsimp only at h
    split at h <;> cases h

theorem freshPage_of_empty {writable : Bool} {page : ℕ} (h : B.free s.pool = ∅) :
    freshPage B root writable page s = .ok (false, s) := by
  unfold freshPage
  cases halloc : s.pmmAlloc B with
  | none => rfl
  | some r =>
    have hf := (pmmAlloc_some halloc).1
    rw [h] at hf
    exact absurd hf (Finset.notMem_empty _)

theorem forPages_fresh_false {writable : Bool} (pages : List ℕ) : ∀ {s : Vm A},
    forPages (freshPage B root writable) pages s = .ok (false, s') → B.free s'.pool = ∅ := by
  induction pages with
  | nil => intro s h; cases h
  | cons page pages ih =>
    intro s h
    rw [forPages] at h
    cases hbody : freshPage B root writable page s with
    | error e =>
      rw [hbody] at h
      cases h
    | ok r =>
      obtain ⟨ok, s₁⟩ := r
      rw [hbody] at h
      cases ok with
      | false =>
        cases h
        obtain ⟨rfl, hfree⟩ := freshPage_false hbody
        exact hfree
      | true => exact ih h

theorem pagesFrom_cons {a b : ℕ} (h : a < b) : pagesFrom a b = a :: pagesFrom (a + 4096) b := by
  unfold pagesFrom
  have hcount : (b - a + 4095) / 4096 = (b - (a + 4096) + 4095) / 4096 + 1 := by omega
  rw [hcount, List.range'_succ]

theorem pagesFrom_append {a b c : ℕ} (hab : a ≤ b) (hbc : b ≤ c) (ha : a % 4096 = 0)
    (hb : b % 4096 = 0) : pagesFrom a c = pagesFrom a b ++ pagesFrom b c := by
  unfold pagesFrom
  rw [show (c - a + 4095) / 4096 = (b - a + 4095) / 4096 + (c - b + 4095) / 4096 by omega,
    ← List.range'_append, show a + 4096 * ((b - a + 4095) / 4096) = b by omega]

theorem mem_pagesFrom_iff {a b page : ℕ} (ha : a % 4096 = 0) (hb : b % 4096 = 0) :
    page ∈ pagesFrom a b ↔ a ≤ page ∧ page < b ∧ page % 4096 = 0 := by
  unfold pagesFrom
  rw [List.mem_range']
  constructor
  · rintro ⟨i, hi, rfl⟩
    omega
  · rintro ⟨hle, hlt, hal⟩
    exact ⟨(page - a) / 4096, by omega, by omega⟩

end Lnxrm.Exec
