import Mathlib.Data.List.Nodup

/-!
# Intrusive circular lists

A list whose links lie in its nodes and lead back to a sentinel: `next a`
is the link of the node `a`, `none` being the null pointer, and
`Ring next h p l` says that from the node `p` the links run through `l`
and then to the sentinel `h`. `findPrev` is the usual search for the node
in front of another one; redirecting the node it finds takes the other out
of the list (`findPrev_ring`).
-/

namespace Lnxrm

open Function

variable {α : Type*} [DecidableEq α] {next next' : α → Option α} {h p b : α} {l : List α}

/-- From `p` the links run through `l` to the sentinel `h`. -/
def Ring (next : α → Option α) (h : α) : α → List α → Prop
  | p, [] => next p = some h
  | p, x :: l => next p = some x ∧ Ring next h x l

omit [DecidableEq α] in
/-- Only the links of the nodes matter. -/
theorem Ring.congr (hr : Ring next h p l) (hp : next' p = next p) (hl : ∀ x ∈ l, next' x = next x) :
    Ring next' h p l := by
  induction l generalizing p with
  | nil => exact hp.trans hr
  | cons x l ih =>
    exact ⟨hp.trans hr.1, ih hr.2 (hl x (by simp)) fun y hy => hl y (by simp [hy])⟩

omit [DecidableEq α] in
/-- The list may be entered from another node with the same link. -/
theorem Ring.from {q : α} (hr : Ring next h p l) (hq : next q = next p) : Ring next h q l := by
  cases l with
  | nil => exact hq.trans hr
  | cons x l => exact ⟨hq.trans hr.1, hr.2⟩

/-- **A node in front.** -/
theorem Ring.push {x : α} (hr : Ring next h p l) (hx : x ∉ l) (hp : p ∉ l) (hxp : x ≠ p) :
    Ring (update (update next x (next p)) p (some x)) h p (x :: l) := by
  refine ⟨update_self .., ?_⟩
  have hx' : update (update next x (next p)) p (some x) x = next p := by
    rw [update_of_ne hxp, update_self]
  have hlinks : ∀ y ∈ l, update (update next x (next p)) p (some x) y = next y := by
    intro y hy
    have hyp : y ≠ p := fun e => hp (e ▸ hy)
    have hyx : y ≠ x := fun e => hx (e ▸ hy)
    rw [update_of_ne hyp, update_of_ne hyx]
  cases l with
  | nil => exact hx'.trans hr
  | cons y l =>
    exact ⟨hx'.trans hr.1, hr.2.congr (hlinks y (by simp)) fun z hz => hlinks z (by simp [hz])⟩

/-- The search for the node whose link is `b`, from the node `p`; it also
stops in front of a null link and of the sentinel. At most `n` nodes are
tried. -/
def findPrev (next : α → Option α) (h b : α) : ℕ → α → Option α
  | 0, _ => none
  | n + 1, p =>
    match next p with
    | none => some p
    | some q => if q = h ∨ q = b then some p else findPrev next h b n q

/-- **The search finds the node in front of `b`**, and redirecting its link
past `b` leaves the rest of the list. -/
theorem findPrev_ring (hr : Ring next h p l) (hp : p ∉ l) (hd : l.Nodup) (hh : h ∉ l) (hb : b ∈ l)
    {n : ℕ} (hn : l.length ≤ n) :
    ∃ a ∈ p :: l, a ≠ b ∧ findPrev next h b n p = some a ∧ next a = some b ∧
      Ring (update next a (next b)) h p (l.erase b) := by
  induction l generalizing p n with
  | nil => simp at hb
  | cons x l ih =>
    obtain ⟨hpx, hr⟩ := hr
    obtain ⟨hx, hd⟩ := List.nodup_cons.mp hd
    obtain ⟨n, rfl⟩ : ∃ k, n = k + 1 := ⟨n - 1, by simp at hn; omega⟩
    have hpb : p ≠ b := fun e => hp (e ▸ hb)
    have hpl : p ∉ l := fun e => hp (by simp [e])
    simp only [findPrev, hpx]
    by_cases hxb : x = b
    · subst hxb
      refine ⟨p, by simp, hpb, if_pos (Or.inr rfl), hpx, ?_⟩
      rw [List.erase_cons_head]
      -- past `x`, the list is the one that was entered from it
      have hlinks : ∀ y ∈ l, update next p (next x) y = next y := by
        intro y hy
        have hyp : y ≠ p := fun e => hpl (e ▸ hy)
        rw [update_of_ne hyp]
      have hr' : Ring (update next p (next x)) h x l :=
        hr.congr (update_of_ne (Ne.symm hpb) _ _) hlinks
      refine hr'.from ?_
      rw [update_self, update_of_ne (Ne.symm hpb)]
    have hbl : b ∈ l := by simpa [Ne.symm hxb] using hb
    have hxh : x ≠ h := fun e => hh (by simp [e])
    rw [if_neg (by simp [hxh, hxb])]
    obtain ⟨a, ha, hab, hf, hab', hr'⟩ :=
      ih hr hx hd (fun e => hh (by simp [e])) hbl (by simpa using hn)
    have hap : p ≠ a := by
      rintro rfl
      exact hp (by simpa using ha)
    refine ⟨a, List.mem_cons_of_mem _ ha, hab, hf, hab', ?_⟩
    rw [List.erase_cons_tail (by simpa using hxb)]
    exact ⟨by rw [update_of_ne hap, hpx], hr'⟩

end Lnxrm
