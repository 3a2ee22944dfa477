import Lnxrm.Pmm.Helpers.Ops

/-!
# What `pmm_init` seeds

The seeding loop walks the window once. At each address it takes the
largest aligned block that fits and that no reserved range hits, and it
skips a page only when a reserved range hits that page; so the free
blocks end up covering exactly the pages of the window that no reserved
range hits (`pmmInit_spec`).
-/

namespace Lnxrm.Pmm

variable {w : Window} {resv : List (ℕ × ℕ)} {s : State} {L : ℕ → List ℕ} {cur : ℕ}

/-- The addresses `pmm_init` seeds: those of the window whose page no
reserved range hits. -/
def Seeded (w : Window) (resv : List (ℕ × ℕ)) (x : ℕ) : Prop :=
  w.base ≤ x ∧ x < w.top ∧ resvHits resv (x / blockSize 0 * blockSize 0) (blockSize 0) = false

instance (w : Window) (resv : List (ℕ × ℕ)) (x : ℕ) : Decidable (Seeded w resv x) := by
  unfold Seeded
  infer_instance

theorem resvHits_mono {a size a' size' : ℕ} (h : resvHits resv a size = true) (hlo : a' ≤ a)
    (hhi : a + size ≤ a' + size') : resvHits resv a' size' = true := by
  simp only [resvHits, List.any_eq_true, Bool.and_eq_true, decide_eq_true_eq] at h ⊢
  obtain ⟨r, hr, h1, h2⟩ := h
  exact ⟨r, hr, by omega, by omega⟩

theorem and_eq_zero_iff (o : ℕ) :
    cur &&& (2 <<< (minOrderBits + o) - 1) = 0 ↔ blockSize (o + 1) ∣ cur := by
  have h2 : 2 <<< (minOrderBits + o) = 2 ^ (minOrderBits + (o + 1)) := by
    rw [Nat.shiftLeft_eq, Nat.mul_comm, ← Nat.pow_succ]
    rfl
  rw [h2, Nat.and_two_pow_sub_one_eq_mod, blockSize_eq, Nat.dvd_iff_mod_eq_zero]

theorem growOrder_spec {n o : ℕ} (hn : o + n < maxOrder) (h : IsBlock w o cur) :
    IsBlock w (growOrder w cur n o) cur := by
  induction n generalizing o with
  | zero => exact h
  | succ n ih =>
    rw [growOrder]
    split
    · rename_i hc
      rw [and_eq_zero_iff] at hc
      refine ih (by omega) ⟨by omega, hc.1, h.base, ?_⟩
      have h2 : 2 <<< (minOrderBits + o) = blockSize (o + 1) := by
        rw [blockSize_succ, blockSize_eq, Nat.shiftLeft_eq]
      rw [← h2]
      exact hc.2
    · exact h

theorem shrinkOrder_spec (resv : List (ℕ × ℕ)) (cur o : ℕ) : shrinkOrder resv cur o ≤ o ∧
    (shrinkOrder resv cur o = 0 ∨
      resvHits resv cur (blockSize (shrinkOrder resv cur o)) = false) := by
  induction o with
  | zero => exact ⟨Nat.le_refl _, Or.inl rfl⟩
  | succ o ih =>
    rw [shrinkOrder]
    split
    · exact ⟨by omega, ih.2⟩
    · rename_i hc
      exact ⟨Nat.le_refl _, Or.inr (by simpa using hc)⟩

/-- The block seeded at a page that no reserved range hits: it fits the
window, and no reserved range hits any of it. -/
theorem seedOrder_spec (h : IsBlock w 0 cur) (hclear : resvHits resv cur (blockSize 0) = false) :
    IsBlock w (seedOrder w resv cur) cur ∧
      resvHits resv cur (blockSize (seedOrder w resv cur)) = false := by
  have hgrow := growOrder_spec (n := maxOrder - 1) (by decide) h
  obtain ⟨hle, hcase⟩ := shrinkOrder_spec resv cur (growOrder w cur (maxOrder - 1) 0)
  refine ⟨hgrow.lower hle, ?_⟩
  rcases hcase with h0 | hc
  · rw [show seedOrder w resv cur = 0 from h0]
    exact hclear
  · exact hc

theorem page_mem {o x : ℕ} (h : blockSize o ∣ cur) (hx : cur ≤ x) (hx' : x < cur + blockSize o) :
    cur ≤ x / blockSize 0 * blockSize 0 ∧
      x / blockSize 0 * blockSize 0 + blockSize 0 ≤ cur + blockSize o := by
  have hpage : blockSize 0 ∣ blockSize o := blockSize_dvd_of_le (Nat.zero_le o)
  have hcur : blockSize 0 ∣ cur := Nat.dvd_trans hpage h
  rw [blockSize_zero] at *
  omega

/-- What is seeded below `cur` is what the free blocks cover. -/
def SeededBelow (w : Window) (resv : List (ℕ × ℕ)) (cur : ℕ) (L : ℕ → List ℕ) : Prop :=
  ∀ x, freeCov L x = if Seeded w resv x ∧ x < cur then 1 else 0

theorem SeededBelow.skip (h : SeededBelow w resv cur L) (hb : IsBlock w 0 cur)
    (hhit : resvHits resv cur (blockSize 0) = true) :
    SeededBelow w resv (cur + blockSize 0) L := by
  intro x
  rw [h x]
  refine if_congr ⟨fun hx => ⟨hx.1, by omega⟩, fun hx => ⟨hx.1, ?_⟩⟩ rfl rfl
  by_contra hge
  -- `x` lies in the page at `cur`, which is hit
  obtain ⟨hlo, hhi⟩ := page_mem hb.aligned (Nat.le_of_not_lt hge) hx.2
  have hclear := hx.1.2.2
  rw [resvHits_mono hhit (by omega) (by omega)] at hclear
  exact Bool.noConfusion hclear

theorem SeededBelow.put {o : ℕ} {L' : ℕ → List ℕ} (h : SeededBelow w resv cur L)
    (hb : IsBlock w o cur) (hclear : resvHits resv cur (blockSize o) = false)
    (hL' : ∀ x, freeCov L' x = freeCov L x + cov (blockSize o) cur x) :
    SeededBelow w resv (cur + blockSize o) L' := by
  intro x
  rw [hL' x, h x]
  unfold cov
  by_cases hx : cur ≤ x ∧ x < cur + blockSize o
  · have hseeded : Seeded w resv x := by
      obtain ⟨hlo, hhi⟩ := page_mem hb.aligned hx.1 hx.2
      have := hb.base
      have := hb.top
      refine ⟨by omega, by omega, ?_⟩
      by_contra hhit
      rw [resvHits_mono (Bool.not_eq_false _ ▸ hhit) hlo hhi] at hclear
      exact Bool.noConfusion hclear
    rw [if_neg (by omega), if_pos hx, if_pos ⟨hseeded, hx.2⟩]
  · rw [if_neg hx, Nat.add_zero]
    refine if_congr ⟨fun e => ⟨e.1, by omega⟩, fun e => ⟨e.1, by omega⟩⟩ rfl rfl

theorem SeededBelow.all (h : SeededBelow w resv cur L) (hle : w.top ≤ cur) (x : ℕ) :
    freeCov L x = if Seeded w resv x then 1 else 0 := by
  rw [h x]
  refine if_congr ⟨fun e => e.1, fun e => ⟨e, ?_⟩⟩ rfl rfl
  have := e.2.1
  omega

/-- **The seeding loop ends** with the seeded addresses free: each turn
takes at least one page. -/
theorem seed_spec {n : ℕ} (h : Lists w s L) (hpg : s.freePg = freePages L)
    (hdvd : blockSize 0 ∣ cur) (hbase : w.base ≤ cur) (hn : w.top ≤ cur + n * blockSize 0)
    (hcov : SeededBelow w resv cur L) :
    ∃ s' L', seed w resv n cur s = some s' ∧ Lists w s' L' ∧ s'.freePg = freePages L' ∧
      ∀ x, freeCov L' x = if Seeded w resv x then 1 else 0 := by
  induction n generalizing cur s L with
  | zero =>
    rw [seed, if_neg (by omega)]
    exact ⟨s, L, rfl, h, hpg, hcov.all (by omega)⟩
  | succ n ih =>
    rw [Nat.succ_mul] at hn
    rw [seed]
    by_cases hlt : cur < w.top
    · rw [if_pos hlt]
      have hpage : IsBlock w 0 cur :=
        ⟨by decide, hdvd, hbase, add_le_of_dvd hdvd w.top_dvd hlt⟩
      by_cases hhit : resvHits resv cur (blockSize 0) = true
      · rw [if_pos hhit]
        exact ih ⟨h.1, h.2, h.3, h.4, h.5, h.6⟩ hpg (Nat.dvd_add hdvd (Nat.dvd_refl _)) (by omega)
          (by omega) (hcov.skip hpage hhit)
      rw [if_neg hhit]
      obtain ⟨hblock, hclear⟩ := seedOrder_spec hpage (by simpa using hhit)
      have hpageSize : blockSize 0 ∣ blockSize (seedOrder w resv cur) :=
        blockSize_dvd_of_le (Nat.zero_le _)
      have hle := Nat.le_of_dvd (blockSize_pos _) hpageSize
      obtain ⟨s₁, L₁, hs₁, hl₁, hcov₁, hpages₁, hpg₁⟩ := pmmFreeOrder_spec h hblock fun x => by
        -- nothing at or above `cur` is free yet
        rw [hcov x]
        unfold cov
        split <;> split <;> omega
      simp only [hs₁]
      exact ih hl₁ (by rw [hpg₁, hpages₁, hpg]) (Nat.dvd_add hdvd hpageSize) (by omega) (by omega)
        (hcov.put hblock hclear hcov₁)
    · rw [if_neg hlt]
      exact ⟨s, L, rfl, h, hpg, hcov.all (by omega)⟩

/-- **`pmm_init`** leaves exactly the seeded addresses free. -/
theorem pmmInit_spec (w : Window) (resv : List (ℕ × ℕ)) (mem : ℕ → UInt8) :
    ∃ s L, pmmInit w resv mem = some s ∧ Lists w s L ∧ s.freePg = freePages L ∧
      ∀ x, freeCov L x = if Seeded w resv x then 1 else 0 := by
  have hcov : ∀ x, freeCov (fun _ => []) x = 0 := fun x => by simp [freeCov, total]
  refine seed_spec (L := fun _ => []) ?_ ?_ w.base_dvd (Nat.le_refl _) ?_ ?_
  · constructor
    case linked => exact fun _ _ => rfl
    case count => exact fun _ _ => rfl
    case block => exact fun _ _ pa hpa => absurd hpa List.not_mem_nil
    case bit => exact fun _ _ pa _ => by simp [bitGet]
    case once => exact fun x => by rw [hcov x]; omega
    case apart => exact fun _ _ pa hpa => absurd hpa List.not_mem_nil
  · simp [freePages, total]
  · have hb := w.base_dvd
    have ht := w.top_dvd
    rw [blockSize_zero] at *
    omega
  · intro x
    rw [hcov x, if_neg]
    rintro ⟨hx, hlt⟩
    have := hx.1
    omega

end Lnxrm.Pmm
