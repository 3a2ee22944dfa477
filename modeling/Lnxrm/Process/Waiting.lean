import Lnxrm.Process.RunQueues

/-!
# Whom `sys_waitpid` waits for

`sys_waitpid` looks for a child that its argument selects, but gives up
only if there is no child at all: for a pid that no child has it sleeps
(`waitpid_selects_iff`).
-/

namespace Lnxrm.Process

open Function

variable {n N : ℕ} {idle : Fin n → Fin N} {σ σ' : Kernel n N} {i t : Fin N} {c : Fin n}
  {wpid : Option (BitVec 32)} {nohang : Bool}

/-- A child of `cur` that `wpid` selects -/
def Selected (σ : Kernel n N) (cur : Fin N) (wpid : Option (BitVec 32)) (t : Fin N) : Prop :=
  isChild σ cur t = true ∧ (wpid = none ∨ wpid = some (σ.pid t))

/-- **What one pass of `sys_waitpid` should come to**: `ECHILD` if no child
is selected; a selected zombie, whose slot alone is freed; or the answer
for children that are alive. -/
structure Selects (σ : Kernel n N) (c : Fin n) (wpid : Option (BitVec 32)) (nohang : Bool)
    (r : Waited N × Kernel n N) : Prop where
  noChild : r.1 = .noChild ↔ ∀ t, ¬ Selected σ (σ.current c) wpid t
  zombie : (∃ t, Selected σ (σ.current c) wpid t ∧ σ.state t = .zombie) →
    ∃ t, Selected σ (σ.current c) wpid t ∧ σ.state t = .zombie ∧
      r.1 = .reaped t (σ.exitCode t) ∧ r.2.state = update σ.state t .unused
  alive : (∃ t, Selected σ (σ.current c) wpid t) →
    (∀ t, Selected σ (σ.current c) wpid t → σ.state t ≠ .zombie) →
    r.1 = if nohang then .nothing else .asleep

theorem runqueueRemove_state (h : runqueueRemove σ t = some σ') : σ'.state = σ.state := by
  unfold runqueueRemove at h
  cases hq : σ.rqCpu t with
  | none =>
    rw [hq] at h
    cases h
    rfl
  | some owner =>
    rw [hq] at h
    obtain ⟨σ₁, hσ₁, rfl⟩ := Option.map_eq_some_iff.mp h
    obtain ⟨p, -, rfl⟩ := Option.map_eq_some_iff.mp hσ₁
    split <;> rfl

theorem taskFreeSlot_state (h : taskFreeSlot σ t = some σ') :
    σ'.state = update σ.state t .unused := by
  obtain ⟨σ₁, hσ₁, rfl⟩ := Option.map_eq_some_iff.mp h
  have hst : σ₁.state = σ.state := by
    split at hσ₁
    · exact runqueueRemove_state hσ₁
    · cases hσ₁
      rfl
  exact congrArg (update · t TaskState.unused) hst

theorem findZombie_test {cur : Fin N} :
    (isChild σ cur t && (wpid == none || wpid == some (σ.pid t)) && σ.state t = .zombie) = true ↔
      Selected σ cur wpid t ∧ σ.state t = .zombie := by
  simp [Selected, and_assoc]

/-- **`sys_waitpid` selects rightly exactly where** a child is selected or
there is none at all, in every task table. With run queues in order it
returns or sleeps. -/
theorem waitpid_selects_iff (idle : Fin n → Fin N) (σ : Kernel n N) (c : Fin n)
    (wpid : Option (BitVec 32)) (nohang : Bool) :
    (∀ r, sysWaitpid idle σ c wpid nohang = some r →
      (Selects σ c wpid nohang r ↔ (∃ t, Selected σ (σ.current c) wpid t) ∨
        ∀ t, isChild σ (σ.current c) t = false)) ∧
    ∀ q, Inv idle σ q → (∀ d, idle d ≠ σ.current c) →
      ∃ r, sysWaitpid idle σ c wpid nohang = some r := by
  refine ⟨fun r hr => ?_, fun q h hcur => ?_⟩
  · unfold sysWaitpid at hr
    cases hfind : findZombie σ (σ.current c) wpid with
    | some t =>
      have htest := List.find?_some hfind
      have hz := findZombie_test.mp htest
      simp only [hfind] at hr
      obtain ⟨σ', hfree, rfl⟩ := Option.map_eq_some_iff.mp hr
      refine iff_of_true ⟨iff_of_false (by simp) fun hno => hno t hz.1,
        fun _ => ⟨t, hz.1, hz.2, rfl, taskFreeSlot_state hfree⟩,
        fun _ hno => absurd hz.2 (hno t hz.1)⟩ (Or.inl ⟨t, hz.1⟩)
    | none =>
      have hno : ∀ t, Selected σ (σ.current c) wpid t → σ.state t ≠ .zombie := fun t ht hz =>
        List.find?_eq_none.mp hfind t (List.mem_finRange t) (findZombie_test.mpr ⟨ht, hz⟩)
      -- the answer is `ECHILD` exactly if there is no child
      have hans : (r.1 = .noChild ∧ ∀ t, isChild σ (σ.current c) t = false) ∨
          (r.1 = if nohang then .nothing else .asleep) ∧
            ∃ t, isChild σ (σ.current c) t = true := by
        simp only [hfind] at hr
        split at hr
        · rename_i hall
          cases hr
          exact Or.inl ⟨rfl, fun t => by simpa using List.all_eq_true.mp hall t (List.mem_finRange t)⟩
        rename_i hsome
        refine Or.inr ⟨?_, by simpa using hsome⟩
        split at hr
        · rename_i hn
          cases hr
          rw [if_pos hn]
        · rename_i hn
          obtain ⟨σ₁, -, hs⟩ := Option.bind_eq_some_iff.mp hr
          obtain ⟨σ₂, -, rfl⟩ := Option.map_eq_some_iff.mp hs
          rw [if_neg hn]
      rcases hans with ⟨hr₁, hkids⟩ | ⟨hr₁, t, ht⟩
      · have hsel : ∀ t, ¬ Selected σ (σ.current c) wpid t := fun t ht => by
          rw [Selected, hkids t] at ht
          cases ht.1
        exact iff_of_true ⟨iff_of_true hr₁ hsel, fun ⟨t, ht, _⟩ => absurd ht (hsel t),
          fun ⟨t, ht⟩ => absurd ht (hsel t)⟩ (Or.inr hkids)
      have hr₂ : r.1 ≠ .noChild := by
        rw [hr₁]
        split <;> simp
      refine ⟨fun hs => Or.inl ?_, fun hsel => ⟨iff_of_false hr₂ ?_,
        fun ⟨t, ht, hz⟩ => absurd hz (hno t ht), fun _ _ => hr₁⟩⟩
      · by_contra hsel
        exact hr₂ (hs.noChild.mpr (not_exists.mp hsel))
      · rcases hsel with ⟨u, hu⟩ | hkids
        · exact fun hnone => hnone u hu
        · rw [hkids t] at ht
          cases ht
  · obtain ⟨r, hr, -⟩ := h.wait c hcur wpid nohang
    exact ⟨r, hr⟩

/-- The first task has forked once. -/
def oneChild : List (Fin 1 × Op 4) := [(0, .spawn true), (0, .schedule), (0, .fork true)]

/-- **The caller sleeps although no child has the pid 7.** -/
theorem waitpid_sleeps_for_stranger :
    ∃ σ r, runSteps (exec (Fin.castAdd 3)) (boot (Fin.castAdd 3)) oneChild = some σ ∧
      sysWaitpid (Fin.castAdd 3) σ 0 (some 7) false = some r ∧ r.1 = .asleep ∧
      ¬ Selects σ 0 (some 7) false r := by
  have hs : ((runSteps (exec (Fin.castAdd 3 : Fin 1 → Fin 4)) (boot (Fin.castAdd 3)) oneChild).map
      fun σ => (decide (∀ t, σ.pid t ≠ 7),
        (sysWaitpid (Fin.castAdd 3 : Fin 1 → Fin 4) σ 0 (some 7) false).map (·.1))) =
      some (true, some .asleep) := by decide +kernel
  obtain ⟨σ, hrun, hv⟩ := Option.map_eq_some_iff.mp hs
  obtain ⟨hpid, hw⟩ := Prod.mk.inj hv
  obtain ⟨r, hr, hasleep⟩ := Option.map_eq_some_iff.mp hw
  refine ⟨σ, r, hrun, hr, hasleep, fun hsel => ?_⟩
  have hnone := hsel.noChild.mpr fun t ht => of_decide_eq_true hpid t
    (Option.some.inj (ht.2.resolve_left (by simp))).symm
  rw [hasleep] at hnone
  cases hnone

end Lnxrm.Process
