import Lnxrm.Common.Blocks
import Lnxrm.Pmm.Helpers.Bits

/-!
# The free lists

`Lists w s L` says that the state `s` represents the free blocks `L`, the
list of each order: the links run through them, the counters and the
bitmaps agree with them, no address is in two of them, and no two buddies
below the largest order are both there. The allocator changes it in two
ways: a block goes in front of its list (`Lists.push`), or leaves it
(`unlink_spec`, `Lists.pop`).
-/

namespace Lnxrm.Pmm

open Function

variable {w : Window} {s s' : State} {L : ℕ → List ℕ} {o pa : ℕ}

/-- A block of order `o`: naturally aligned, inside the window. -/
structure IsBlock (w : Window) (o pa : ℕ) : Prop where
  order : o < maxOrder
  aligned : blockSize o ∣ pa
  base : w.base ≤ pa
  top : pa + blockSize o ≤ w.top

theorem IsBlock.mapped (h : IsBlock w o pa) : Mapped w o pa :=
  ⟨h.aligned, h.base, by have := h.top; have := blockSize_pos o; omega⟩

theorem IsBlock.page_dvd (h : IsBlock w o pa) : blockSize 0 ∣ pa :=
  Nat.dvd_trans (blockSize_dvd_of_le (Nat.zero_le o)) h.aligned

theorem IsBlock.pos (h : IsBlock w o pa) : 0 < pa := by
  have := w.base_pos
  have := h.base
  omega

theorem IsBlock.lt (h : IsBlock w o pa) : pa < 2 ^ 64 := by
  have := w.top_le
  have := h.top
  omega

/-- How many free blocks cover an address. -/
def freeCov (L : ℕ → List ℕ) (x : ℕ) : ℕ :=
  total maxOrder (fun o a => cov (blockSize o) a x) L

/-- How many pages the free blocks have. -/
def freePages (L : ℕ → List ℕ) : ℕ := total maxOrder (fun o _ => 2 ^ o) L

/-- The state represents the free blocks `L`. -/
structure Lists (w : Window) (s : State) (L : ℕ → List ℕ) : Prop where
  linked : ∀ o < maxOrder, Linked s.next (s.fl o).head (L o)
  count : ∀ o < maxOrder, (s.fl o).count = (L o).length
  block : ∀ o < maxOrder, ∀ pa ∈ L o, IsBlock w o pa
  bit : ∀ o < maxOrder, ∀ pa, Mapped w o pa → (bitGet w s o pa = true ↔ pa ∈ L o)
  once : ∀ x, freeCov L x ≤ 1
  apart : ∀ o, o + 1 < maxOrder → ∀ pa ∈ L o, buddyOf pa o ∉ L o

theorem buddyOf_buddyOf (pa o : ℕ) : buddyOf (buddyOf pa o) o = pa := by
  unfold buddyOf
  rw [Nat.xor_assoc, Nat.xor_self, Nat.xor_zero]

theorem buddyOf_ne (pa o : ℕ) : buddyOf pa o ≠ pa := by
  intro h
  have hz : pa ^^^ buddyOf pa o = pa ^^^ pa := congrArg (pa ^^^ ·) h
  rw [buddyOf, ← Nat.xor_assoc, Nat.xor_self, Nat.zero_xor] at hz
  have := blockSize_pos o
  omega

section Next

theorem next_setNext_self (s : State) {a v : ℕ} (hv : v < 2 ^ 64) : (s.setNext a v).next a = v := by
  unfold State.next State.setNext
  rw [load64_store64, BitVec.toNat_ofNat, Nat.mod_eq_of_lt hv]

theorem next_setNext_of_ne (s : State) {a b : ℕ} (v : ℕ) (ha : blockSize 0 ∣ a)
    (hb : blockSize 0 ∣ b) (hne : b ≠ a) : (s.setNext a v).next b = s.next b := by
  unfold State.next State.setNext
  rw [load64_store64_of_disjoint]
  rw [blockSize_zero] at ha hb
  omega

end Next

namespace Lists

theorem nodup (h : Lists w s L) (ho : o < maxOrder) : (L o).Nodup :=
  nodup_of_total_le_one blockSize_pos ho h.once

theorem head_lt (h : Lists w s L) (ho : o < maxOrder) : (s.fl o).head < 2 ^ 64 := by
  have hl := h.linked o ho
  have hb := h.block o ho
  cases hL : L o with
  | nil =>
    rw [hL] at hl
    rw [show (s.fl o).head = 0 from hl]
    exact Nat.two_pow_pos _
  | cons a l =>
    rw [hL] at hl hb
    rw [hl.1]
    exact (hb a (by simp)).lt

theorem not_mem_of_ne (h : Lists w s L) {o' : ℕ} (ho : o < maxOrder) (ho' : o' < maxOrder)
    (hne : o ≠ o') (hpa : pa ∈ L o) : pa ∉ L o' := by
  intro hpa'
  have hx : ∀ o, pa ≤ pa ∧ pa < pa + blockSize o := fun o => by
    have := blockSize_pos o
    omega
  exact hne (eq_of_total_le_one ho ho' (h.once pa) hpa hpa' (hx o) (hx o')).1

theorem not_mem_of_free (h : ∀ x, freeCov L x + cov (blockSize o) pa x ≤ 1) {o' : ℕ}
    (ho' : o' < maxOrder) : pa ∉ L o' := by
  intro hpa'
  have h1 : cov (blockSize o') pa pa ≤ freeCov L pa :=
    le_total (f := fun o a => cov (blockSize o) a pa) ho' hpa'
  have h2 := h pa
  rw [cov_self (blockSize_pos _)] at h1 h2
  omega

/-- **A block goes in front of its list**, when none of it is free yet and
its buddy is not free. -/
theorem push (h : Lists w s L) (hb : IsBlock w o pa)
    (hfree : ∀ x, freeCov L x + cov (blockSize o) pa x ≤ 1)
    (hbud : o + 1 < maxOrder → buddyOf pa o ∉ L o) :
    Lists w (pushFree w s o pa) (update L o (pa :: L o)) := by
  have ho := hb.order
  have hnext : ∀ o' < maxOrder, ∀ a ∈ L o', (pushFree w s o pa).next a = s.next a := by
    intro o' ho' a ha
    refine next_setNext_of_ne s _ hb.page_dvd (h.block o' ho' a ha).page_dvd ?_
    rintro rfl
    exact not_mem_of_free hfree ho' ha
  constructor
  case linked =>
    intro o' ho'
    by_cases e : o' = o
    · subst e
      simp only [pushFree, bitSet, State.setFl, update_self]
      refine (h.linked o' ho').cons ?_ (hnext o' ho')
      exact next_setNext_self s (h.head_lt ho')
    · simp only [pushFree, bitSet, State.setFl, update_of_ne e]
      exact (h.linked o' ho').congr (hnext o' ho')
  case count =>
    intro o' ho'
    by_cases e : o' = o
    · subst e
      simp [pushFree, bitSet, State.setFl, State.setNext, h.count o' ho']
    · simp only [pushFree, bitSet, State.setFl, State.setNext, update_of_ne e]
      exact h.count o' ho'
  case block =>
    intro o' ho' a ha
    by_cases e : o' = o
    · subst e
      rw [update_self, List.mem_cons] at ha
      rcases ha with rfl | ha
      · exact hb
      · exact h.block o' ho' a ha
    · rw [update_of_ne e] at ha
      exact h.block o' ho' a ha
  case bit =>
    intro o' ho' a ha
    have hold : bitGet w ((s.setNext pa (s.fl o).head).setFl o
        { head := pa, count := (s.fl o).count + 1 }) o' a = bitGet w s o' a := rfl
    have hset : bitGet w (pushFree w s o pa) o' a =
        (decide (o' = o ∧ a = pa) || bitGet w s o' a) := by
      rw [← hold]
      exact bitGet_bitSet hb.mapped ha
    rw [hset, Bool.or_eq_true, decide_eq_true_eq, h.bit o' ho' a ha]
    by_cases e : o' = o
    · subst e
      simp
    · simp [e]
  case once =>
    intro x
    have hp := total_push (L := L) (f := fun o a => cov (blockSize o) a x) (a := pa) ho
    rw [freeCov, hp]
    exact hfree x
  case apart =>
    intro o' ho' a ha
    by_cases e : o' = o
    · subst e
      rw [update_self, List.mem_cons] at ha ⊢
      rcases ha with rfl | ha
      · rintro (hx | hx)
        · exact buddyOf_ne _ _ hx
        · exact hbud ho' hx
      · rintro (hx | hx)
        · -- the pushed block is the buddy of `a`, so `a` is its buddy
          refine hbud ho' ?_
          rw [← hx, buddyOf_buddyOf]
          exact ha
        · exact h.apart o' ho' a ha hx
    · rw [update_of_ne e] at ha ⊢
      exact h.apart o' ho' a ha

/-- **A block leaves its list**: whatever way the links were redirected,
the rest of the representation follows. -/
theorem remove (h : Lists w s L) (ho : o < maxOrder) (hpa : pa ∈ L o)
    (hlink : Linked s'.next (s'.fl o).head ((L o).erase pa))
    (hcount : (s'.fl o).count = (s.fl o).count - 1)
    (hother : ∀ o' < maxOrder, o' ≠ o → Linked s'.next (s'.fl o').head (L o') ∧
      (s'.fl o').count = (s.fl o').count)
    (hbits : s'.bits = (bitClr w s o pa).bits) :
    Lists w s' (update L o ((L o).erase pa)) := by
  have hsub : ∀ o' a, a ∈ update L o ((L o).erase pa) o' → a ∈ L o' := by
    intro o' a ha
    by_cases e : o' = o
    · subst e
      rw [update_self] at ha
      exact List.mem_of_mem_erase ha
    · rwa [update_of_ne e] at ha
  constructor
  case linked =>
    intro o' ho'
    by_cases e : o' = o
    · subst e
      rw [update_self]
      exact hlink
    · rw [update_of_ne e]
      exact (hother o' ho' e).1
  case count =>
    intro o' ho'
    by_cases e : o' = o
    · subst e
      rw [update_self, hcount, h.count o' ho', List.length_erase_of_mem hpa]
    · rw [update_of_ne e, (hother o' ho' e).2]
      exact h.count o' ho'
  case block =>
    intro o' ho' a ha
    exact h.block o' ho' a (hsub o' a ha)
  case bit =>
    intro o' ho' a ha
    have hclr : bitGet w s' o' a = (!decide (o' = o ∧ a = pa) && bitGet w s o' a) := by
      rw [← bitGet_bitClr (h.block o ho pa hpa).mapped ha]
      unfold bitGet
      rw [hbits]
    rw [hclr, Bool.and_eq_true, Bool.not_eq_true', decide_eq_false_iff_not, h.bit o' ho' a ha]
    by_cases e : o' = o
    · subst e
      rw [update_self, (h.nodup ho).mem_erase_iff]
      simp
    · rw [update_of_ne e]
      simp [e]
  case once =>
    intro x
    have he := total_erase (f := fun o a => cov (blockSize o) a x) ho hpa
    have hx := h.once x
    unfold freeCov at hx ⊢
    omega
  case apart =>
    intro o' ho' a ha hb
    exact h.apart o' ho' a (hsub o' a ha) (hsub o' _ hb)

theorem pop (h : Lists w s L) (ho : o < maxOrder) (hne : (s.fl o).count ≠ 0) : (s.fl o).head ∈ L o ∧
      Lists w (bitClr w (s.setFl o ⟨s.next (s.fl o).head, (s.fl o).count - 1⟩) o (s.fl o).head)
        (update L o ((L o).erase (s.fl o).head)) := by
  have hl := h.linked o ho
  have hc := h.count o ho
  cases hL : L o with
  | nil =>
    rw [hL] at hc
    exact absurd hc hne
  | cons a l =>
    rw [hL] at hl
    have hmem : (s.fl o).head ∈ L o := by
      rw [hL, hl.1]
      simp
    rw [← hL]
    refine ⟨hmem, h.remove ho hmem ?_ ?_ ?_ rfl⟩
    · simp only [bitClr, State.setFl, update_self]
      rw [hL, hl.1, List.erase_cons_head]
      exact hl.2
    · simp only [bitClr, State.setFl, update_self]
    · intro o' ho' e
      simp only [bitClr, State.setFl, update_of_ne e]
      exact ⟨h.linked o' ho', trivial⟩

end Lists

/-- **The unlink loop finds the buddy**, and what it leaves represents the
lists without it. -/
theorem unlink_spec (h : Lists w s L) (ho : o < maxOrder) (hpa : pa ∈ L o) :
    ∃ s', unlink s o pa = some s' ∧ s'.freePg = s.freePg ∧
      Lists w (bitClr w (s'.setFl o { s'.fl o with count := (s'.fl o).count - 1 }) o pa)
        (update L o ((L o).erase pa)) := by
  have hl := h.linked o ho
  have hfuel : (L o).length ≤ (s.fl o).count := by rw [h.count o ho]
  unfold unlink
  rcases findCell_linked hl (h.nodup ho) hpa hfuel none with ⟨hf, hl'⟩ | ⟨a, ha, -, hf, hl'⟩
  · -- the head cell points at the block
    simp only [hf]
    refine ⟨_, rfl, rfl, h.remove ho hpa ?_ ?_ ?_ rfl⟩
    · simp only [bitClr, State.setFl, update_self]
      exact hl'
    · simp only [bitClr, State.setFl, update_self]
    · intro o' ho' e
      simp only [bitClr, State.setFl, update_of_ne e]
      exact ⟨h.linked o' ho', trivial⟩
  -- the link field of another block of the list does
  simp only [hf]
  have hblock := h.block o ho
  have hv : s.next pa < 2 ^ 64 := (load64 s.mem pa).isLt
  refine ⟨_, rfl, rfl, h.remove ho hpa ?_ ?_ ?_ rfl⟩
  · simp only [bitClr, State.setFl, update_self]
    refine hl'.congr fun x hx => ?_
    by_cases e : x = a
    · subst e
      rw [update_self]
      exact next_setNext_self s hv
    · rw [update_of_ne e]
      exact next_setNext_of_ne s _ (hblock a ha).page_dvd
        (hblock x (List.mem_of_mem_erase hx)).page_dvd e
  · simp only [bitClr, State.setFl, State.setNext, update_self]
  · intro o' ho' e
    simp only [bitClr, State.setFl, State.setNext, update_of_ne e]
    refine ⟨(h.linked o' ho').congr fun x hx => ?_, trivial⟩
    refine next_setNext_of_ne s _ (hblock a ha).page_dvd (h.block o' ho' x hx).page_dvd ?_
    rintro rfl
    exact h.not_mem_of_ne ho' ho e hx ha

end Lnxrm.Pmm
