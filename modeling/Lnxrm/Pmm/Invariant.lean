import Lnxrm.Pmm.Helpers.Seed
import Lnxrm.Common.Run

/-!
# The allocator's invariant over whole runs

`BuddyInv` is what the allocator promises its clients and itself: where
free blocks lie, that they and the outstanding blocks are disjoint and
together cover exactly what `pmm_init` seeded, and that lists, bitmaps and
counters agree. It holds after every run of allocations, frees of
outstanding blocks and writes into outstanding memory, from the state
`pmm_init` leaves for any window and any reserved ranges
(`buddy_invariant`); no such run gets stuck in the unlink loop.
-/

namespace Lnxrm.Pmm

variable {w : Window} {resv : List (ℕ × ℕ)} {s : State} {out : List (ℕ × ℕ)} {L : ℕ → List ℕ}

/-- All blocks there are, free and outstanding, each with its order. -/
def blocks (L : ℕ → List ℕ) (out : List (ℕ × ℕ)) : List (ℕ × ℕ) :=
  out ++ (List.range maxOrder).flatMap fun o => (L o).map fun pa => (pa, o)

/-- **The allocator's invariant**, for the free lists `L` that the state
holds. -/
structure BuddyInv (w : Window) (resv : List (ℕ × ℕ)) (s : State) (out : List (ℕ × ℕ))
    (L : ℕ → List ℕ) : Prop where
  /-- the links of `fl[o]` run through `L o` -/
  linked : ∀ o < maxOrder, Linked s.next (s.fl o).head (L o)
  /-- entries are naturally aligned and inside the window -/
  placed : ∀ o < maxOrder, ∀ pa ∈ L o, blockSize o ∣ pa ∧ w.base ≤ pa ∧ pa + blockSize o ≤ w.top
  /-- free and outstanding blocks do not overlap -/
  disjoint : (blocks L out).Pairwise fun b c => ∀ x, ¬(Holds b x ∧ Holds c x)
  /-- and cover what `pmm_init` seeded -/
  covers : ∀ x, (∃ b ∈ blocks L out, Holds b x) ↔ Seeded w resv x
  /-- an aligned block's bit is set exactly when the block is free -/
  bit : ∀ o < maxOrder, ∀ pa, blockSize o ∣ pa → w.base ≤ pa → pa < w.top →
    (bitGet w s o pa = true ↔ pa ∈ L o)
  count : ∀ o < maxOrder, (s.fl o).count = (L o).length
  /-- `free_pg` is the number of free pages -/
  freePg : s.freePg = ∑ o ∈ Finset.range maxOrder, (L o).length * 2 ^ o
  /-- no two buddies below the largest order are both free -/
  apart : ∀ o, o + 1 < maxOrder → ∀ pa ∈ L o, buddyOf pa o ∉ L o

/-- How many outstanding blocks cover an address. -/
def outCov (out : List (ℕ × ℕ)) (x : ℕ) : ℕ := (out.map fun b => cov (blockSize b.2) b.1 x).sum

theorem outCov_cons (b : ℕ × ℕ) (x : ℕ) :
    outCov (b :: out) x = cov (blockSize b.2) b.1 x + outCov out x := by
  unfold outCov
  rw [List.map_cons, List.sum_cons]

theorem outCov_erase {b : ℕ × ℕ} (hb : b ∈ out) (x : ℕ) :
    outCov (out.erase b) x + cov (blockSize b.2) b.1 x = outCov out x := by
  unfold outCov
  rw [((List.perm_cons_erase hb).map fun b => cov (blockSize b.2) b.1 x).sum_eq, List.map_cons,
    List.sum_cons, Nat.add_comm]

/-- The invariant as the steps keep it: coverage is one equation. -/
structure Accounts (w : Window) (resv : List (ℕ × ℕ)) (s : State) (out : List (ℕ × ℕ))
    (L : ℕ → List ℕ) : Prop where
  lists : Lists w s L
  freePg : s.freePg = freePages L
  held : ∀ b ∈ out, IsBlock w b.2 b.1
  covers : ∀ x, freeCov L x + outCov out x = if Seeded w resv x then 1 else 0

theorem Accounts.le_one (h : Accounts w resv s out L) (x : ℕ) : freeCov L x + outCov out x ≤ 1 := by
  rw [h.covers x]
  split <;> omega

/-- **Allocation** moves a block from the free ones to the outstanding. -/
theorem Accounts.alloc (h : Accounts w resv s out L) (order : ℕ) :
    ∃ st L', step w (s, out) (.alloc order) = some st ∧ Accounts w resv st.1 st.2 L' := by
  rcases pmmAllocOrder_spec h.lists order with hfail | ⟨addr, s', L', heq, hb, hl, hcov, hpages, hpg⟩
  · refine ⟨(s, out), L, ?_, h⟩
    simp only [step, hfail, if_true]
  have hne : addr ≠ 0 := by
    have := hb.pos
    omega
  refine ⟨(s', (addr, order) :: out), L', ?_, hl, ?_, ?_, fun x => ?_⟩
  · simp only [step, heq, hne, if_false]
  · rw [hpg, h.freePg]
    omega
  · intro b hmem
    rcases List.mem_cons.mp hmem with rfl | hmem
    · exact hb
    · exact h.held b hmem
  · rw [← h.covers x, ← hcov x, outCov_cons, Nat.add_assoc]

/-- **Freeing** moves it back, and never gets stuck. -/
theorem Accounts.free (h : Accounts w resv s out L) (pa order : ℕ) :
    ∃ st L', step w (s, out) (.free pa order) = some st ∧ Accounts w resv st.1 st.2 L' := by
  by_cases hmem : (pa, order) ∈ out
  · have hout := outCov_erase hmem
    obtain ⟨s', L', heq, hl, hcov, hpages, hpg⟩ :=
      pmmFreeOrder_spec h.lists (h.held _ hmem) fun x => by
        have := h.le_one x
        have := hout x
        omega
    refine ⟨(s', out.erase (pa, order)), L', ?_, hl, ?_, ?_, fun x => ?_⟩
    · simp only [step, hmem, if_true, heq, Option.map_some]
    · rw [hpg, hpages, h.freePg]
    · exact fun b hb => h.held b (List.mem_of_mem_erase hb)
    · have := hout x
      rw [← h.covers x, hcov x]
      simp only at this ⊢
      omega
  · exact ⟨(s, out), L, by simp only [step, hmem, if_false], h⟩

/-- **Writes into outstanding memory** reach no link field: those lie in
free blocks. -/
theorem Accounts.store (h : Accounts w resv s out L) (a : ℕ) (v : UInt8) :
    ∃ st L', step w (s, out) (.store a v) = some st ∧ Accounts w resv st.1 st.2 L' := by
  by_cases hany : (out.any fun b => decide (Holds b a)) = true
  · obtain ⟨b, hb, hholds⟩ : ∃ b ∈ out, Holds b a := by simpa using hany
    have hpos : 0 < outCov out a :=
      (sum_pos_iff (c := fun b : ℕ × ℕ => cov (blockSize b.2) b.1) a).mpr
        ⟨b, hb, cov_pos_iff.mpr hholds⟩
    have hnext : ∀ o < maxOrder, ∀ pa ∈ L o,
        (load64 (Function.update s.mem a v) pa).toNat = s.next pa := by
      intro o ho pa hpa
      unfold State.next
      rw [load64_congr fun x hx hx' => Function.update_of_ne ?_ v s.mem]
      rintro rfl
      -- the link field would be covered twice
      have hle : cov (blockSize o) pa x ≤ freeCov L x :=
        le_total (f := fun o a => cov (blockSize o) a x) ho hpa
      have hsize := Nat.le_of_dvd (blockSize_pos o) (blockSize_dvd_of_le (Nat.zero_le o))
      rw [blockSize_zero] at hsize
      have hone := cov_pos_iff.mpr (show pa ≤ x ∧ x < pa + blockSize o by omega)
      have := h.le_one x
      omega
    refine ⟨({ s with mem := Function.update s.mem a v }, out), L, ?_, ?_, h.freePg, h.held,
      h.covers⟩
    · simp only [step, hany, if_true]
    · have hl := h.lists
      exact ⟨fun o ho => (hl.linked o ho).congr (hnext o ho), hl.count, hl.block, hl.bit, hl.once,
        hl.apart⟩
  · exact ⟨(s, out), L, by simp only [step, hany, Bool.false_eq_true, if_false], h⟩

/-- **Every client operation** is possible and keeps the accounts. -/
theorem Accounts.step (h : Accounts w resv s out L) (op : Op) :
    ∃ st L', Pmm.step w (s, out) op = some st ∧ Accounts w resv st.1 st.2 L' := by
  cases op with
  | alloc order => exact h.alloc order
  | free pa order => exact h.free pa order
  | store a v => exact h.store a v

theorem Accounts.buddyInv (h : Accounts w resv s out L) : BuddyInv w resv s out L := by
  have hl := h.lists
  have hsum : ∀ x, ((blocks L out).map fun b => cov (blockSize b.2) b.1 x).sum =
      if Seeded w resv x then 1 else 0 := by
    intro x
    rw [← h.covers x, Nat.add_comm, freeCov, total_eq_sum, blocks, List.map_append, List.sum_append]
    rfl
  constructor
  case linked => exact hl.linked
  case placed =>
    intro o ho pa hpa
    have hb := hl.block o ho pa hpa
    exact ⟨hb.aligned, hb.base, hb.top⟩
  case disjoint =>
    refine (pairwise_of_sum_le_one (c := fun b : ℕ × ℕ => cov (blockSize b.2) b.1) fun x => ?_).imp ?_
    · rw [hsum x]
      split <;> omega
    · rintro b c hbc x ⟨hb, hc⟩
      exact hbc x ⟨cov_pos_iff.mpr hb, cov_pos_iff.mpr hc⟩
  case covers =>
    intro x
    have hpos : 0 < ((blocks L out).map fun b : ℕ × ℕ => cov (blockSize b.2) b.1 x).sum ↔
        ∃ b ∈ blocks L out, 0 < cov (blockSize b.2) b.1 x := sum_pos_iff x
    rw [hsum x] at hpos
    simp only [cov_pos_iff] at hpos
    rw [show (∃ b ∈ blocks L out, Holds b x) ↔ _ from hpos.symm]
    split <;> simp_all
  case bit => exact fun o ho pa h1 h2 h3 => hl.bit o ho pa ⟨h1, h2, h3⟩
  case count => exact hl.count
  case freePg =>
    rw [h.freePg, freePages, total]
    refine Finset.sum_congr rfl fun o _ => ?_
    simp [List.map_const', List.sum_replicate]
  case apart => exact hl.apart

theorem accounts_init (w : Window) (resv : List (ℕ × ℕ)) (mem : ℕ → UInt8) :
    ∃ s L, pmmInit w resv mem = some s ∧ Accounts w resv s [] L := by
  obtain ⟨s, L, hinit, hl, hpg, hcov⟩ := pmmInit_spec w resv mem
  exact ⟨s, L, hinit, hl, hpg, fun b hb => absurd hb List.not_mem_nil, hcov⟩

/-- **Whole runs** are possible and keep the accounts. -/
theorem accounts_run (w : Window) (resv : List (ℕ × ℕ)) (mem : ℕ → UInt8) (ops : List Op) :
    ∃ s out L, ((pmmInit w resv mem).bind fun s => runSteps (step w) (s, []) ops) = some (s, out) ∧
      Accounts w resv s out L := by
  obtain ⟨s₀, L₀, hinit, h₀⟩ := accounts_init w resv mem
  have hstep : ∀ (st : State × List (ℕ × ℕ)) (op : Op), (∃ L, Accounts w resv st.1 st.2 L) →
        ∃ st', step w st op = some st' ∧ ∃ L, Accounts w resv st'.1 st'.2 L := by
    rintro st op ⟨L, h⟩
    obtain ⟨st', L', hst, h'⟩ := h.step op
    exact ⟨st', hst, L', h'⟩
  obtain ⟨st, hrun, L, h⟩ := runSteps_total hstep ops (s := (s₀, [])) ⟨L₀, h₀⟩
  exact ⟨st.1, st.2, L, by rw [hinit]; exact hrun, h⟩

/-- **The buddy allocator's invariant.** For any window and any reserved
ranges, whatever memory held: `pmm_init` ends, and after every run of
allocations, frees of outstanding blocks and writes into outstanding
memory the invariant holds. The run is never stuck: each unlink loop finds
the buddy it looks for. -/
theorem buddy_invariant (w : Window) (resv : List (ℕ × ℕ)) (mem : ℕ → UInt8) (ops : List Op) :
    ∃ s out L, ((pmmInit w resv mem).bind fun s => runSteps (step w) (s, []) ops) = some (s, out) ∧
      BuddyInv w resv s out L := by
  obtain ⟨s, out, L, hrun, h⟩ := accounts_run w resv mem ops
  exact ⟨s, out, L, hrun, h.buddyInv⟩

/-- A window of four pages whose second page is reserved: three pages are
seeded, and the one seeded last is handed out first. -/
example :
    let w : Window := ⟨0x201000, 0x205000, by decide, by decide, by decide, by decide, by decide⟩
    ((pmmInit w [(0x202000, 0x203000)] fun _ => 0).bind fun s =>
      runSteps (step w) (s, []) [.alloc 0, .alloc 0, .free 0x203000 0]).map (fun st => (st.2, st.1.freePg)) =
      some ([(0x204000, 0)], 2) := by
  decide +kernel

end Lnxrm.Pmm
