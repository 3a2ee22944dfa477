import Lnxrm.Exec.Helpers.Loading

/-!
# Address spaces with given pages

Proof layer. For every set of user pages there is an address space in which
these are mapped and no others, with as few free frames as one likes. In
such a state a loop over pages takes no frame, or the last one.
-/

namespace Lnxrm.Exec

open Vmm Finset

variable {A : Type} {B : Buddy A} {s s' : Vm A} {root : ℕ}

/-! ## Enough frames -/

theorem ensureTable_free {parent t : ℕ} {i : Fin 512} {fl : BitVec 64}
    (h : ensureTable B s parent i fl = .ok (t, s')) :
    (B.free s.pool).card ≤ (B.free s'.pool).card + 1 := by
  unfold ensureTable at h
  split at h
  · cases h
    omega
  cases halloc : s.pmmAlloc B with
  | none =>
    rw [halloc] at h
    cases h
  | some r =>
    obtain ⟨f, s₁⟩ := r
    rw [halloc] at h
    cases h
    show _ ≤ (B.free s₁.pool).card + 1
    obtain ⟨hf, hfree, -⟩ := pmmAlloc_some halloc
    rw [hfree, card_erase_of_mem hf]
    omega

theorem ensureTable_ok (parent : ℕ) (i : Fin 512) (fl : BitVec 64)
    (h : 0 < (B.free s.pool).card) : ∃ t s', ensureTable B s parent i fl = .ok (t, s') := by
  unfold ensureTable
  split
  · exact ⟨_, s, rfl⟩
  cases halloc : s.pmmAlloc B with
  | none =>
    rw [pmmAlloc_none halloc, card_empty] at h
    omega
  | some r =>
    obtain ⟨f, s₁⟩ := r
    exact ⟨f, _, rfl⟩

theorem mapUser_ok (root : ℕ) {va : BitVec 64} (pa : BitVec 64) (w u : Bool) (hva : Accepts va)
    (h : 3 ≤ (B.free s.pool).card) :
    ∃ s', vmmMapUser B s root va pa w u = .ok (0, s') ∧
      (B.free s.pool).card ≤ (B.free s'.pool).card + 3 := by
  unfold vmmMapUser
  rw [if_neg ((accepts_iff va).mpr hva)]
  obtain ⟨t₁, s₁, he₁⟩ := ensureTable_ok (B := B) (s := s) root (index va 39) pgU (by omega)
  have hf₁ := ensureTable_free he₁
  obtain ⟨t₂, s₂, he₂⟩ := ensureTable_ok (B := B) (s := s₁) t₁ (index va 30) pgU (by omega)
  have hf₂ := ensureTable_free he₂
  obtain ⟨t₃, s₃, he₃⟩ := ensureTable_ok (B := B) (s := s₂) t₂ (index va 21) pgU (by omega)
  have hf₃ := ensureTable_free he₃
  refine ⟨_, by simp only [he₁, he₂, he₃, bind, Except.bind]; rfl, ?_⟩
  show _ ≤ (B.free s₃.pool).card + 3
  omega

/-! ## Address spaces with given pages -/

/-- **Pages are mapped** where four frames are free for each of them. -/
theorem exists_mapped (ks : List ℕ) : ∀ {s : Vm A}, Sound B root s →
    (∀ k ∈ ks, userBase ≤ k * 4096 ∧ k * 4096 < userMaxVma) →
    4 * ks.length ≤ (B.free s.pool).card →
    ∃ s', Sound B root s' ∧ (B.free s.pool).card ≤ (B.free s'.pool).card + 4 * ks.length ∧
      ∀ x, InSlot x → ((leaf s'.mem root (pageKey x)).isSome ↔
        (leaf s.mem root (pageKey x)).isSome ∨ x / 4096 ∈ ks) := by
  induction ks with
  | nil =>
    intro s h _ _
    exact ⟨s, h, by omega, fun x _ => by simp⟩
  | cons k ks ih =>
    intro s h hks hfree
    rw [List.length_cons] at hfree
    obtain ⟨hlo, hhi⟩ := hks k (List.mem_cons_self ..)
    have hrest : ∀ k ∈ ks, userBase ≤ k * 4096 ∧ k * 4096 < userMaxVma := fun j hj =>
      hks j (List.mem_cons_of_mem _ hj)
    have hslot : InSlot (k * 4096) := ⟨hlo, by unfold userMaxVma at hhi; omega⟩
    have hkey : ∀ x, InSlot x → (pageKey x = pageKey (k * 4096) ↔ x / 4096 = k) := by
      intro x hx
      rw [pageKey_eq_iff hx hslot, Nat.mul_div_cancel _ (by decide)]
    by_cases hnone : leaf s.mem root (pageKey (k * 4096)) = none
    · -- the page is mapped, with a frame and at most three tables
      cases halloc : s.pmmAlloc B with
      | none =>
        rw [pmmAlloc_none halloc, card_empty] at hfree
        omega
      | some r =>
        obtain ⟨f, s₁⟩ := r
        obtain ⟨hf, hfree₁, -⟩ := pmmAlloc_some halloc
        obtain ⟨h₁, hleaf₁, -, -, hft, hff, hfm, hflt⟩ := h.alloc halloc
        have hcard₁ : (B.free s₁.pool).card = (B.free s.pool).card - 1 := by
          rw [hfree₁, card_erase_of_mem hf]
        have hacc := accepts_ofNat (by omega) hlo hhi
        obtain ⟨s₂, he, hcard₂⟩ := mapUser_ok (B := B) (s := s₁.fill f fun _ => 0) root (addrOf f)
          true true hacc (by show 3 ≤ (B.free s₁.pool).card; omega)
        have hcard₂' : (B.free s₁.pool).card ≤ (B.free s₂.pool).card + 3 := hcard₂
        rcases h₁.place hacc (by rw [hleaf₁]; exact hnone) hft hff hfm hflt true fun _ => 0 with
          ⟨s', he', -⟩ | ⟨s', he', hp⟩
        · rw [he] at he'
          cases he'
        rw [he] at he'
        cases he'
        obtain ⟨s', hs', hcard', hmapped⟩ := ih hp.sound hrest (by omega)
        refine ⟨s', hs', by rw [List.length_cons]; omega, fun x hx => ?_⟩
        rw [hmapped x hx, hp.leaf, hleaf₁, List.mem_cons,
          show key (BitVec.ofNat 64 (k * 4096)) = pageKey (k * 4096) from rfl]
        by_cases hxk : x / 4096 = k
        · rw [if_pos ((hkey x hx).mpr hxk)]
          simp [hxk]
        · rw [if_neg (fun e => hxk ((hkey x hx).mp e))]
          simp [hxk]
    -- it is there already
    obtain ⟨s', hs', hcard', hmapped⟩ := ih h hrest (by omega)
    refine ⟨s', hs', by rw [List.length_cons]; omega, fun x hx => ?_⟩
    rw [hmapped x hx, List.mem_cons]
    by_cases hxk : x / 4096 = k
    · have hsome : (leaf s.mem root (pageKey x)).isSome := by
        rw [(hkey x hx).mpr hxk]
        exact Option.ne_none_iff_isSome.mp hnone
      simp [hsome]
    · simp [hxk]

/-- The user pages -/
def userPages : List ℕ := List.range' (userBase / 4096) (2 ^ 27 - 1)

theorem mem_userPages {k : ℕ} : k ∈ userPages ↔ userBase ≤ k * 4096 ∧ k * 4096 < userMaxVma := by
  unfold userPages userBase userMaxVma
  rw [List.mem_range'_1]
  omega

/-- **There are address spaces with given pages**, and without a free frame
or with one. -/
theorem exists_space (M : ℕ → Prop) :
    ∃ (B : Buddy (Finset ℕ)) (mem : ℕ → Page) (f : ℕ), B.free ∅ = ∅ ∧ B.free {f} = {f} ∧
      (∀ F : Finset ℕ, F ⊆ {f} → Sound B 1 { pool := F, mem := mem }) ∧
      ∀ x, userBase ≤ x → x < userMaxVma → ((leaf mem 1 (pageKey x)).isSome ↔ M (x / 4096)) := by
  classical
  have hempty : Empty (Buddy.least (2 ^ 40) (by decide))
      ({ pool := Ico 2 (2 ^ 40), mem := fun _ _ => 0 } : Vm (Finset ℕ)) 1 :=
    ⟨fun hin => by
      have := (mem_Ico.mp (mem_of_mem_inter_left hin)).1
      omega, not_present_zero⟩
  obtain ⟨h₀, hleaf₀⟩ := Sound.of_empty hempty
    (show 1 ∈ Ico 1 (2 ^ 40) from mem_Ico.mpr ⟨le_rfl, by decide⟩)
  have hcard₀ : ((Buddy.least (2 ^ 40) (by decide)).free (Ico 2 (2 ^ 40))).card = 2 ^ 40 - 2 := by
    show (Ico 2 (2 ^ 40) ∩ Ico 1 (2 ^ 40)).card = _
    rw [inter_eq_left.mpr (Ico_subset_Ico (by omega) le_rfl), Nat.card_Ico]
  obtain ⟨s, hs, hcard, hmapped⟩ := exists_mapped (userPages.filter fun k => decide (M k)) h₀
    (fun k hk => mem_userPages.mp (List.mem_filter.mp hk).1) (by
      have hlen := List.length_filter_le (fun k => decide (M k)) userPages
      have hlen' : userPages.length = 2 ^ 27 - 1 := List.length_range'
      rw [hcard₀]
      omega)
  obtain ⟨f, hf⟩ : ((Buddy.least (2 ^ 40) (by decide)).free s.pool).Nonempty := by
    have hlen := List.length_filter_le (fun k => decide (M k)) userPages
    have hlen' : userPages.length = 2 ^ 27 - 1 := List.length_range'
    have hcard' : ((Buddy.least (2 ^ 40) (by decide)).free (Ico 2 (2 ^ 40))).card ≤ _ := hcard
    rw [hcard₀] at hcard'
    rw [← card_pos]
    omega
  have hfin : f ∈ Ico 1 (2 ^ 40) := mem_of_mem_inter_right hf
  have hfree : ∀ F : Finset ℕ, F ⊆ {f} → (Buddy.least (2 ^ 40) (by decide)).free F = F := by
    intro F hF
    exact inter_eq_left.mpr (hF.trans (singleton_subset_iff.mpr hfin))
  refine ⟨Buddy.least (2 ^ 40) (by decide), s.mem, f, hfree ∅ (empty_subset _),
    hfree {f} (Subset.refl _), fun F hF => ?_, fun x hlo hhi => ?_⟩
  · refine (hs.of_agree { pool := F, mem := s.mem } (fun _ _ => rfl) fun g hg hin => ?_).1
    have hgf : g = f := mem_singleton.mp (hF (by rw [← hfree F hF]; exact hg))
    exact hs.not_free hin (hgf ▸ hf)
  · have hslot : InSlot x := ⟨hlo, by unfold userMaxVma at hhi; omega⟩
    rw [hmapped x hslot, hleaf₀, List.mem_filter, mem_userPages]
    unfold userBase userMaxVma at *
    simp only [Option.isSome_none, Bool.false_eq_true, false_or, decide_eq_true_eq, and_iff_right_iff_imp]
    intro _
    omega

end Lnxrm.Exec
