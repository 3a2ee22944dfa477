import Lnxrm.Pmm.Invariant

/-!
# What the allocator can ever return

The blocks outstanding at the end of some run are the blocks that
`pmm_alloc_order` can return. Their addresses are exactly the ones that
`pmm_init` seeded (`returns_iff_seeded`): no run reaches any other address,
and a client that keeps allocating single pages gets them all.
-/

namespace Lnxrm.Pmm

variable {w : Window} {resv : List (ℕ × ℕ)} {mem : ℕ → UInt8} {s : State} {out : List (ℕ × ℕ)}
  {L : ℕ → List ℕ} {x : ℕ}

/-- Some run of the clients gets the block `b`, and holds it at its end. -/
def Returns (w : Window) (resv : List (ℕ × ℕ)) (mem : ℕ → UInt8) (b : ℕ × ℕ) : Prop :=
  ∃ ops s out, ((pmmInit w resv mem).bind fun s => runSteps (step w) (s, []) ops) = some (s, out) ∧
    b ∈ out

theorem exists_free_of_cov (h : 0 < freeCov L x) : ∃ o < maxOrder, L o ≠ [] := by
  unfold freeCov at h
  rw [total_eq_sum, sum_pos_iff] at h
  obtain ⟨b, hb, -⟩ := h
  obtain ⟨o, ho, hmem⟩ := List.mem_flatMap.mp hb
  obtain ⟨pa, hpa, -⟩ := List.mem_map.mp hmem
  exact ⟨o, List.mem_range.mp ho, List.ne_nil_of_mem hpa⟩

theorem pmmAllocOrder_zero_ne (h : Lists w s L) (hfree : 0 < freeCov L x) :
    (pmmAllocOrder w s 0).1 ≠ 0 := by
  obtain ⟨o, ho, hne⟩ := exists_free_of_cov hfree
  have hcount : (s.fl o).count ≠ 0 := by
    rw [h.count o ho]
    simpa using hne
  unfold pmmAllocOrder
  rw [if_neg (by decide)]
  cases hfind : (List.range' 0 (maxOrder - 0)).find? fun o => (s.fl o).count != 0 with
  | none =>
    have := List.find?_eq_none.mp hfind o (List.mem_range'_1.mpr (by omega))
    simp [hcount] at this
  | some o' =>
    have hcount' : (s.fl o').count ≠ 0 := by simpa using List.find?_some hfind
    have hrange := List.mem_range'_1.mp (List.mem_of_find?_eq_some hfind)
    have hlt : o' < maxOrder := by omega
    obtain ⟨hmem, -⟩ := h.pop hlt hcount'
    have := (h.block o' hlt _ hmem).pos
    simp only
    omega

/-- **One more page.** While an address is free, allocating a page makes the
free pages fewer. -/
theorem Accounts.alloc_page (h : Accounts w resv s out L) (hfree : 0 < freeCov L x) :
    ∃ st L', Pmm.step w (s, out) (.alloc 0) = some st ∧ Accounts w resv st.1 st.2 L' ∧
      freePages L' < freePages L := by
  obtain ⟨st, L', hst, hacc⟩ := h.alloc 0
  refine ⟨st, L', hst, hacc, ?_⟩
  have hne := pmmAllocOrder_zero_ne h.lists hfree
  rcases pmmAllocOrder_spec h.lists 0 with hfail | ⟨addr, s', L'', heq, -, -, -, hpages, hpg⟩
  · rw [hfail] at hne
    exact absurd rfl hne
  rw [heq] at hne
  simp only [Pmm.step, heq, hne, if_false, Option.some.injEq] at hst
  have hpg' : s'.freePg = freePages L' := by
    rw [← hacc.freePg, ← hst]
  rw [← hpg', hpg, h.freePg]
  rw [Nat.pow_zero] at hpages ⊢
  omega

theorem Accounts.mem_out (h : Accounts w resv s out L) (hx : Seeded w resv x)
    (hfree : ¬ 0 < freeCov L x) : ∃ b ∈ out, Holds b x := by
  have hone := h.covers x
  rw [if_pos hx] at hone
  have hpos : 0 < outCov out x := by omega
  obtain ⟨b, hb, hcov⟩ := (sum_pos_iff (c := fun b : ℕ × ℕ => cov (blockSize b.2) b.1) x).mp hpos
  exact ⟨b, hb, cov_pos_iff.mp hcov⟩

/-- **Allocating on**, every seeded address comes to lie in an outstanding
block. -/
theorem Accounts.exhaust (hx : Seeded w resv x) (n : ℕ) :
    ∀ {s out L}, Accounts w resv s out L → freePages L ≤ n →
      ∃ ops st, runSteps (Pmm.step w) (s, out) ops = some st ∧ ∃ b ∈ st.2, Holds b x := by
  induction n with
  | zero =>
    intro s out L h hn
    by_cases hfree : 0 < freeCov L x
    · obtain ⟨_, _, _, _, hlt⟩ := h.alloc_page hfree
      omega
    · exact ⟨[], (s, out), rfl, h.mem_out hx hfree⟩
  | succ n ih =>
    intro s out L h hn
    by_cases hfree : 0 < freeCov L x
    · obtain ⟨st, L', hst, hacc, hlt⟩ := h.alloc_page hfree
      obtain ⟨ops, st', hrun, hb⟩ := ih hacc (by omega)
      exact ⟨.alloc 0 :: ops, st', by rw [runSteps, hst]; exact hrun, hb⟩
    · exact ⟨[], (s, out), rfl, h.mem_out hx hfree⟩

/-- **The allocator returns what was seeded**, no more and no less. -/
theorem returns_iff_seeded (w : Window) (resv : List (ℕ × ℕ)) (mem : ℕ → UInt8) (x : ℕ) :
    (∃ b, Returns w resv mem b ∧ Holds b x) ↔ Seeded w resv x := by
  constructor
  · rintro ⟨b, ⟨ops, s, out, hrun, hb⟩, hx⟩
    obtain ⟨s', out', L, hrun', hacc⟩ := accounts_run w resv mem ops
    rw [hrun, Option.some.injEq, Prod.mk.injEq] at hrun'
    obtain ⟨rfl, rfl⟩ := hrun'
    exact (hacc.buddyInv.covers x).mp ⟨b, List.mem_append_left _ hb, hx⟩
  · intro hx
    obtain ⟨s₀, L₀, hinit, hacc⟩ := accounts_init w resv mem
    obtain ⟨ops, st, hrun, b, hb, hholds⟩ := Accounts.exhaust hx _ hacc le_rfl
    exact ⟨b, ⟨ops, st.1, st.2, by rw [hinit]; exact hrun, hb⟩, hholds⟩

end Lnxrm.Pmm
