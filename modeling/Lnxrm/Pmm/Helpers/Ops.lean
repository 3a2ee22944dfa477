import Lnxrm.Pmm.Helpers.Lists

/-!
# What the allocator's functions do to the free blocks

`pmm_free_order` gives the free blocks exactly the pages of the block
freed (`pmmFreeOrder_spec`), `pmm_alloc_order` takes exactly the pages of
the block it returns (`pmmAllocOrder_spec`), and the seeding loop of
`pmm_init` ends with exactly the pages that no reserved range hits
(`pmmInit_spec`). Each loop carries one block in hand: what the lists and
the block in hand cover together does not change until the block is put
down.
-/

namespace Lnxrm.Pmm

open Function

variable {w : Window} {s : State} {L : ℕ → List ℕ} {o pa : ℕ}

theorem buddyOf_cases (h : blockSize o ∣ pa) :
    (blockSize (o + 1) ∣ pa ∧ buddyOf pa o = pa + blockSize o) ∨
      ∃ lo, blockSize (o + 1) ∣ lo ∧ pa = lo + blockSize o ∧ buddyOf pa o = lo := by
  have hx : buddyOf pa o = if blockSize (o + 1) ∣ pa then pa + blockSize o else pa - blockSize o := by
    unfold buddyOf
    rw [blockSize_eq] at h ⊢
    rw [xor_two_pow_of_dvd h, blockSize_eq, Nat.add_assoc]
  rw [hx]
  by_cases h2 : blockSize (o + 1) ∣ pa
  · left
    rw [if_pos h2]
    exact ⟨h2, rfl⟩
  right
  rw [if_neg h2]
  obtain ⟨q, rfl⟩ := h
  -- an odd multiple of the block size
  have hodd : q % 2 = 1 := by
    by_contra he
    refine h2 ⟨q / 2, ?_⟩
    rw [blockSize_succ, Nat.mul_assoc, Nat.mul_left_comm, show 2 * (q / 2) = q by omega]
  have hq : blockSize o * q = blockSize (o + 1) * (q / 2) + blockSize o := by
    rw [blockSize_succ, Nat.mul_assoc, Nat.mul_left_comm, ← Nat.mul_succ,
      show (2 * (q / 2)).succ = q by omega]
  refine ⟨blockSize (o + 1) * (q / 2), Nat.dvd_mul_right _ _, hq, ?_⟩
  rw [hq, Nat.add_sub_cancel]

theorem dvd_buddyOf (h : blockSize o ∣ pa) : blockSize o ∣ buddyOf pa o := by
  rcases buddyOf_cases h with ⟨-, e⟩ | ⟨lo, hlo, -, e⟩
  · rw [e]
    exact Nat.dvd_add h (Nat.dvd_refl _)
  · rw [e]
    exact Nat.dvd_trans (blockSize_dvd_of_le (Nat.le_succ o)) hlo

theorem IsBlock.lower {o' : ℕ} (h : IsBlock w o' pa) (ho : o ≤ o') : IsBlock w o pa := by
  have hdvd := blockSize_dvd_of_le ho
  have hle := Nat.le_of_dvd (blockSize_pos o') hdvd
  have htop := h.top
  have horder := h.order
  exact ⟨by omega, Nat.dvd_trans hdvd h.aligned, h.base, by omega⟩

/-- **Two buddies merge** into the block at the lower of their addresses. -/
theorem IsBlock.merge (h : IsBlock w o pa) (hb : IsBlock w o (buddyOf pa o))
    (ho : o + 1 < maxOrder) : IsBlock w (o + 1) (min pa (buddyOf pa o)) ∧
      ∀ x, cov (blockSize (o + 1)) (min pa (buddyOf pa o)) x =
        cov (blockSize o) pa x + cov (blockSize o) (buddyOf pa o) x := by
  have hs := blockSize_succ o
  have hbase := h.base
  have htop := h.top
  rcases buddyOf_cases h.aligned with ⟨h2, e⟩ | ⟨lo, hlo, rfl, e⟩
  · have htop' := hb.top
    rw [e] at htop' ⊢
    rw [Nat.min_eq_left (by omega)]
    refine ⟨⟨ho, h2, hbase, by omega⟩, fun x => ?_⟩
    rw [hs, cov_split]
  · have hbase' := hb.base
    rw [e] at hbase' ⊢
    rw [Nat.min_eq_right (by omega)]
    refine ⟨⟨ho, hlo, hbase', by omega⟩, fun x => ?_⟩
    rw [hs, cov_split, Nat.add_comm]

/-- **The coalescing loop**: with the block in hand, the free blocks cover
what they covered before, and at the end the buddy of the block in hand is
not free. -/
theorem coalesce_spec {n : ℕ} (hn : o + n + 1 = maxOrder) (h : Lists w s L) (hb : IsBlock w o pa)
    (hfree : ∀ x, freeCov L x + cov (blockSize o) pa x ≤ 1) :
    ∃ s' pa' o' L', coalesce w n s pa o = some (s', pa', o') ∧ Lists w s' L' ∧
      IsBlock w o' pa' ∧ (o' + 1 < maxOrder → buddyOf pa' o' ∉ L' o') ∧
      (∀ x, freeCov L' x + cov (blockSize o') pa' x = freeCov L x + cov (blockSize o) pa x) ∧
      freePages L' + 2 ^ o' = freePages L + 2 ^ o ∧ s'.freePg = s.freePg := by
  induction n generalizing s L pa o with
  | zero => exact ⟨s, pa, o, L, rfl, h, hb, by omega, fun _ => rfl, rfl, rfl⟩
  | succ n ih =>
    have ho := hb.order
    rw [coalesce]
    by_cases hin : buddyOf pa o < w.base ∨ w.top ≤ buddyOf pa o
    · -- outside the window there are no free blocks
      rw [if_pos hin]
      refine ⟨s, pa, o, L, rfl, h, hb, fun _ hmem => ?_, fun _ => rfl, rfl, rfl⟩
      have hm := (h.block o ho _ hmem).mapped
      have := hm.base
      have := hm.top
      omega
    rw [if_neg hin]
    have hmap : Mapped w o (buddyOf pa o) := ⟨dvd_buddyOf hb.aligned, by omega, by omega⟩
    have hbit := h.bit o ho _ hmap
    by_cases hget : bitGet w s o (buddyOf pa o) = false
    · rw [if_pos hget]
      rw [hget] at hbit
      exact ⟨s, pa, o, L, rfl, h, hb, fun _ hmem => Bool.false_ne_true (hbit.mpr hmem),
        fun _ => rfl, rfl, rfl⟩
    rw [if_neg hget]
    have hmem : buddyOf pa o ∈ L o := hbit.mp (by simpa using hget)
    obtain ⟨s₁, hs₁, hpg, hl⟩ := unlink_spec h ho hmem
    obtain ⟨hmerge, hcov⟩ := hb.merge (h.block o ho _ hmem) (by omega)
    have herase : ∀ x, freeCov (update L o ((L o).erase (buddyOf pa o))) x +
        cov (blockSize o) (buddyOf pa o) x = freeCov L x :=
      fun x => total_erase (f := fun o a => cov (blockSize o) a x) ho hmem
    have hpages : freePages (update L o ((L o).erase (buddyOf pa o))) + 2 ^ o =
        freePages L := total_erase (f := fun o _ => 2 ^ o) ho hmem
    obtain ⟨s', pa', o', L', hrun, hl', hb', hbud', hcov', hpages', hpg'⟩ :=
      ih (by omega) hl hmerge fun x => by
        have := hfree x
        have := herase x
        rw [hcov x]
        omega
    rw [hs₁]
    refine ⟨s', pa', o', L', hrun, hl', hb', hbud', fun x => ?_, ?_, ?_⟩
    · have := herase x
      have := hcov x
      rw [hcov' x]
      omega
    · rw [hpages', Nat.pow_succ]
      omega
    · rw [hpg']
      exact hpg

/-- **`pmm_free_order` succeeds**, and the free blocks gain exactly the
pages of the block. -/
theorem pmmFreeOrder_spec (h : Lists w s L) (hb : IsBlock w o pa)
    (hfree : ∀ x, freeCov L x + cov (blockSize o) pa x ≤ 1) :
    ∃ s' L', pmmFreeOrder w s pa o = some s' ∧ Lists w s' L' ∧
      (∀ x, freeCov L' x = freeCov L x + cov (blockSize o) pa x) ∧
      freePages L' = freePages L + 2 ^ o ∧ s'.freePg = s.freePg + 2 ^ o := by
  have ho := hb.order
  have hn : o + (maxOrder - 1 - o) + 1 = maxOrder := by
    omega
  obtain ⟨s₁, pa₁, o₁, L₁, hrun, hl, hb₁, hbud, hcov, hpages, hpg⟩ := coalesce_spec hn h hb hfree
  have hpush := hl.push hb₁ (fun x => (hcov x).le.trans (hfree x)) hbud
  unfold pmmFreeOrder
  rw [hrun]
  refine ⟨_, update L₁ o₁ (pa₁ :: L₁ o₁), rfl, ⟨hpush.1, hpush.2, hpush.3, hpush.4,
    hpush.5, hpush.6⟩, fun x => ?_, ?_, ?_⟩
  · rw [← hcov x]
    exact total_push (f := fun o a => cov (blockSize o) a x) hb₁.order
  · rw [← hpages]
    exact total_push (f := fun o _ => 2 ^ o) hb₁.order
  · simp only [Nat.one_shiftLeft]
    rw [← hpg]
    rfl

/-- **The splitting loop** puts the upper halves down and keeps the lowest
block of the order asked for. -/
theorem splitDown_spec (n addr : ℕ) (h : Lists w s L) (hb : IsBlock w (o + n) addr)
    (hfree : ∀ x, freeCov L x + cov (blockSize (o + n)) addr x ≤ 1) :
    ∃ L', Lists w (splitDown w addr o n s) L' ∧ (∀ x, freeCov L' x + cov (blockSize o) addr x =
        freeCov L x + cov (blockSize (o + n)) addr x) ∧
      freePages L' + 2 ^ o = freePages L + 2 ^ (o + n) ∧
      (splitDown w addr o n s).freePg = s.freePg := by
  induction n generalizing s L with
  | zero => exact ⟨L, h, fun _ => rfl, rfl, rfl⟩
  | succ n ih =>
    have hs : blockSize (o + (n + 1)) = 2 * blockSize (o + n) := blockSize_succ (o + n)
    have htop := hb.top
    have hbase := hb.base
    have ho : o + n < maxOrder := by
      have := hb.order
      omega
    have hdvd : blockSize (o + n) ∣ addr :=
      Nat.dvd_trans (blockSize_dvd_of_le (Nat.le_succ (o + n))) hb.aligned
    have hlow : IsBlock w (o + n) addr := ⟨ho, hdvd, hbase, by omega⟩
    have hhalf : IsBlock w (o + n) (addr + blockSize (o + n)) :=
      ⟨ho, Nat.dvd_add hdvd (Nat.dvd_refl _), by omega, by omega⟩
    have hcov : ∀ x, cov (blockSize (o + (n + 1))) addr x =
        cov (blockSize (o + n)) addr x + cov (blockSize (o + n)) (addr + blockSize (o + n)) x := by
      intro x
      rw [hs, cov_split]
    -- the buddy of the upper half is the half that stays in hand
    have hbud : buddyOf (addr + blockSize (o + n)) (o + n) = addr := by
      rcases buddyOf_cases hdvd with ⟨-, e⟩ | ⟨lo, hlo, rfl, -⟩
      · rw [← e, buddyOf_buddyOf]
      · exfalso
        have hd : blockSize (o + n + 1) ∣ blockSize (o + n) := (Nat.dvd_add_right hlo).mp hb.aligned
        have := Nat.le_of_dvd (blockSize_pos _) hd
        have := blockSize_succ (o + n)
        have := blockSize_pos (o + n)
        omega
    have hpush := h.push hhalf (fun x => by have := hfree x; have := hcov x; omega) fun _ => by
      rw [hbud]
      refine Lists.not_mem_of_free (o := o + n) (fun x => ?_) ho
      have := hfree x
      have := hcov x
      omega
    have hpushcov : ∀ x, freeCov (update L (o + n) ((addr + blockSize (o + n)) :: L (o + n))) x =
          freeCov L x + cov (blockSize (o + n)) (addr + blockSize (o + n)) x :=
      fun x => total_push (f := fun o a => cov (blockSize o) a x) ho
    have hpushpages : freePages (update L (o + n)
        ((addr + blockSize (o + n)) :: L (o + n))) = freePages L + 2 ^ (o + n) :=
      total_push (f := fun o _ => 2 ^ o) ho
    obtain ⟨L', hl', hcov', hpages', hpg'⟩ := ih hpush hlow fun x => by
      have := hfree x
      have := hcov x
      rw [hpushcov x]
      omega
    rw [splitDown]
    refine ⟨L', hl', fun x => ?_, ?_, hpg'⟩
    · rw [hcov' x, hpushcov x, hcov x]
      omega
    · rw [hpages', hpushpages, ← Nat.add_assoc, Nat.pow_succ]
      omega

/-- **`pmm_alloc_order`** fails and changes nothing, or returns a block of
the order asked for, and the free blocks lose exactly its pages. -/
theorem pmmAllocOrder_spec (h : Lists w s L) (order : ℕ) : pmmAllocOrder w s order = (0, s) ∨
      ∃ addr s' L', pmmAllocOrder w s order = (addr, s') ∧ IsBlock w order addr ∧
        Lists w s' L' ∧ (∀ x, freeCov L' x + cov (blockSize order) addr x = freeCov L x) ∧
        freePages L' + 2 ^ order = freePages L ∧ s'.freePg = s.freePg - 2 ^ order := by
  unfold pmmAllocOrder
  by_cases hmax : maxOrder ≤ order
  · left
    rw [if_pos hmax]
  rw [if_neg hmax]
  cases hfind : (List.range' order (maxOrder - order)).find? fun o => (s.fl o).count != 0 with
  | none => exact Or.inl rfl
  | some o =>
    right
    have hcount : (s.fl o).count ≠ 0 := by simpa using List.find?_some hfind
    have hrange := List.mem_range'_1.mp (List.mem_of_find?_eq_some hfind)
    have ho : o < maxOrder := by omega
    obtain ⟨hmem, hpop⟩ := h.pop ho hcount
    have hblock := h.block o ho _ hmem
    have herase : ∀ x, freeCov (update L o ((L o).erase (s.fl o).head)) x +
        cov (blockSize o) (s.fl o).head x = freeCov L x :=
      fun x => total_erase (f := fun o a => cov (blockSize o) a x) ho hmem
    have hpages : freePages (update L o ((L o).erase (s.fl o).head)) + 2 ^ o =
        freePages L := total_erase (f := fun o _ => 2 ^ o) ho hmem
    have hsum : order + (o - order) = o := by omega
    have hsplit := splitDown_spec (o := order) (o - order) (s.fl o).head hpop
    rw [hsum] at hsplit
    obtain ⟨L', hl', hcov', hpages', hpg'⟩ := hsplit hblock fun x => by
      rw [herase x]
      exact h.once x
    refine ⟨_, _, L', rfl, ?_, ⟨hl'.1, hl'.2, hl'.3, hl'.4, hl'.5, hl'.6⟩, fun x => ?_, ?_, ?_⟩
    · exact hblock.lower hrange.1
    · rw [hcov' x]
      exact herase x
    · rw [hpages']
      exact hpages
    · simp only [Nat.one_shiftLeft]
      rw [hpg']
      rfl

end Lnxrm.Pmm
