import Lnxrm.Vmm.Helpers.Alive

/-!
# Copying an address space, exactly or not at all

`dup_user_aspace` hangs a copy of every page of the source into the
destination, on frames of its own and with the flags of the source. Where a
frame is missing on the way it gives back all that it took, and the
destination is empty again.
-/

namespace Lnxrm.Vmm

variable {A : Type}

/-- What an entry of the copy, made from `s` to `s'`, is to the entry of the
source: both are missing, or the flags are the same and the page is a frame
that was free, with the same contents. -/
def CopyOf (B : Buddy A) (s s' : Vm A) : Option (BitVec 64) → Option (BitVec 64) → Prop
  | none, none => True
  | some e, some e' =>
    e' &&& 0xfff = e &&& 0xfff ∧ frameOf e' ∈ B.free s.pool ∧
      s'.mem (frameOf e') = s.mem (frameOf e)
  | _, _ => False

/-- **A copied page** has its flags and contents. -/
theorem HasCopy.copyOf {B : Buddy A} {s s' : Vm A} {dst : ℕ} {k : Key} {e : BitVec 64}
    (h : HasCopy B s dst s' k e) (hp : present e = true) :
    CopyOf B s s' (some e) (leaf s'.mem dst k) := by
  obtain ⟨f, hf, -, -, hlt, hl, hm⟩ := h
  obtain ⟨-, hframe, hflags⟩ := copiedEntry hlt hp
  rw [hl]
  refine ⟨hflags, ?_, ?_⟩
  · rw [hframe]
    exact hf
  · rw [hframe, hm]

theorem present_of_leaf {mem : ℕ → Page} {root : ℕ} {k : Key} {e : BitVec 64}
    (h : leaf mem root k = some e) : present e = true := by
  obtain ⟨pt, -, hw⟩ := Option.bind_eq_some_iff.mp h
  split at hw
  · rename_i hp
    rw [← Option.some.inj hw]
    exact hp
  · cases hw

/-- **`dup_user_aspace` copies the address space exactly or not at all.** -/
theorem dup_exact_or_restored (B : Buddy A) (s : Vm A) (src dst : ℕ) (hsrc : Source B s src dst)
    (hdst : Empty B s dst) :
    let r := dupUserAspace B s src dst
    (r.1 = 0 ∧ (∀ k, CopyOf B s r.2 (leaf s.mem src k) (leaf r.2.mem dst k)) ∧
        (∀ k k' e e', leaf r.2.mem dst k = some e → leaf r.2.mem dst k' = some e' →
          frameOf e = frameOf e' → k = k') ∧
        (∀ k, leaf r.2.mem src k = leaf s.mem src k) ∧
        ∀ g, g ∉ B.free s.pool → g ≠ dst → r.2.mem g = s.mem g) ∨
      (r.1 < 0 ∧ present (r.2.mem dst userSlot) = false ∧ B.free r.2.pool = B.free s.pool) := by
  intro r
  rcases dup_spec hsrc hdst with ⟨hzero, hc⟩ | ⟨hfail, hfree, hslot, -⟩
  · refine Or.inl ⟨hzero, fun k => ?_, fun k k' e e' he he' hf => ?_,
      fun k => leaf_congr (hc.same hsrc) k, hc.mem⟩
    · cases hk : leaf s.mem src k with
      | none =>
        rw [hc.absent k (Or.inr hk)]
        trivial
      | some e => exact (hc.present k e trivial hk).copyOf (present_of_leaf hk)
    · have hnd : (tree 4 r.2.mem dst + (B.free r.2.pool).val).Nodup := by
        rw [hc.frames, Multiset.singleton_add, Multiset.nodup_cons]
        exact ⟨hdst.used, (B.free s.pool).nodup⟩
      exact Alive.page_inj hc.tree (Multiset.nodup_add.mp hnd).1 he he' hf
  · refine Or.inr ⟨?_, hslot, hfree⟩
    rw [hfail]
    decide

/-- A page is mapped in a new address space, which is then copied into the
root in frame `40`. -/
theorem dup_exact_or_restored_one_page : let B := Buddy.least 64 (by decide)
    let s₀ : Vm (Finset ℕ) := { pool := {1, 2, 3, 4, 5, 6, 7, 8, 9}, mem := fun _ _ => 0 }
    ∃ root s₁ f s₂ s, vmmNewUserAspace B s₀ = .ok (root, s₁) ∧ s₁.pmmAlloc B = some (f, s₂) ∧
      vmmMapUser B s₂ root 0x7f8000000000 (addrOf f) true true = .ok (0, s) ∧
      Source B s root 40 ∧ Empty B s 40 ∧
      let r := dupUserAspace B s root 40
      (r.1 = 0 ∧ ∀ k, CopyOf B s r.2 (leaf s.mem root k) (leaf r.2.mem 40 k)) ∨
        (r.1 < 0 ∧ present (r.2.mem 40 userSlot) = false ∧ B.free r.2.pool = B.free s.pool) := by
  intro B s₀
  have hok : (match vmmNewUserAspace B s₀ with
      | .error _ => false
      | .ok (root, s₁) =>
        match s₁.pmmAlloc B with
        | none => false
        | some (f, s₂) =>
          vmmTranslateIn s₁ root 0x7f8000000000 = 0 ∧
            (vmmMapUser B s₂ root 0x7f8000000000 (addrOf f) true true).isOk) = true := by
    decide +kernel
  have hmaster : masterPml4 ∉ B.free s₀.pool := by decide
  rcases Alive.new hmaster with ⟨s', he, -⟩ | ⟨root, s₁, he, h₁, -⟩
  · simp [he] at hok
  rw [he] at hok
  cases halloc : s₁.pmmAlloc B with
  | none => simp [halloc] at hok
  | some r =>
    obtain ⟨f, s₂⟩ := r
    simp only [halloc, Bool.decide_and, Bool.and_eq_true, decide_eq_true_eq] at hok
    rcases h₁.map (by decide) hok.1 halloc true true with ⟨s', hm, -⟩ | ⟨s, hm, h⟩
    · rw [hm] at hok
      simp [Except.isOk, Except.toBool] at hok
    have hout : (40 : ℕ) ∉ B.free s₀.pool := by decide
    have hsrc : Source B s root 40 := h.source fun hin => hout (h.mem_tree hin)
    have hdst : Empty B s 40 := by
      refine ⟨fun hin => hout (h.free_subset hin), ?_⟩
      rw [h.mem 40 hout]
      exact not_present_zero
    refine ⟨root, s₁, f, s₂, s, he, halloc, hm, hsrc, hdst, ?_⟩
    refine (dup_exact_or_restored B s root 40 hsrc hdst).imp (fun hc => ?_) id
    exact ⟨hc.1, hc.2.1⟩

end Lnxrm.Vmm
