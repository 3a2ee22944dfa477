import Lnxrm.Process.Tree

/-!
# The processes form one tree

A process is younger than its parent: a child is the youngest process of
all, and `sys_exit` hands the children of the caller to `init`, the oldest
(`Aged.advance`). Whoever follows the parent pointers therefore comes to
`init` (`descends_from_init`).
-/

namespace Lnxrm.Process

open Function

open Relation (ReflTransGen)

variable {n N : ℕ} {idle : Fin n → Fin N} {i : Fin N} {h h' : History n N}

/-- Every process but `init` has a parent that was created before it. -/
def Aged (idle : Fin n → Fin N) (i : Fin N) (h : History n N) : Prop :=
  ∀ t, (∀ d, idle d ≠ t) → h.kernel.state t ≠ .unused → t ≠ i →
    ∃ p, h.kernel.parent t = some p ∧ h.ident p < h.ident t

namespace Aged

/-- **One operation** keeps it. -/
theorem advance {l : Fin n × Act N} (ha : Aged idle i h) (hg : Good idle i h)
    (hl : Calls idle h l) (hd : Did h l h') : Aged idle i h' := by
  obtain ⟨q, hq⟩ := hg.placed.queues
  intro t hti htu hne
  cases hd with
  | kept hk =>
    have hu := (not_congr (hk.unused t)).mp htu
    obtain ⟨p, hp, hlt⟩ := ha t hti hu hne
    exact ⟨p, (hk.parent t hu).trans hp, hlt⟩
  | @forked c _ ch σ hf =>
    have hold : ∀ p, h.kernel.state p ≠ .unused → update h.ident ch h.created p = h.ident p :=
      fun p hp => update_of_ne (fun e : p = ch => hp (e ▸ hf.free)) ..
    show ∃ p, σ.parent t = some p ∧ update h.ident ch h.created p < update h.ident ch h.created t
    rw [hf.parent]
    rcases eq_or_ne t ch with rfl | hch
    · have hcur : h.kernel.state (h.kernel.current c) ≠ .unused := by simp [hg.running c id]
      refine ⟨_, update_self .., ?_⟩
      rw [hold _ hcur, update_self]
      exact hg.log.ident_lt _ hl hcur
    · have hu : h.kernel.state t ≠ .unused := by rwa [← hf.state_of_ne hch]
      obtain ⟨p, hp, hlt⟩ := ha t hti hu hne
      refine ⟨p, (update_of_ne hch ..).trans hp, ?_⟩
      rwa [hold p (hg.tree.parentUsed t p hu hp).1, hold t hu]
  | @exited c code σ he =>
    obtain ⟨p, hp, hlt⟩ := ha t hti ((not_congr (he.unused t)).mp htu) hne
    show ∃ p, σ.parent t = some p ∧ h.ident p < h.ident t
    rw [he.parent, hg.tree.reparent_eq hq.idlePid]
    dsimp only
    split
    · exact ⟨i, rfl, hg.init ▸ Nat.zero_lt_of_lt hlt⟩
    · exact ⟨p, hp, hlt⟩
  | reaped hr =>
    obtain ⟨-, -, hu⟩ := hr.used htu
    obtain ⟨p, hp, hlt⟩ := ha t hti hu hne
    exact ⟨p, (congrFun hr.sameTree.parent t).trans hp, hlt⟩

/-- The way up ends at `init`, since it leads to older processes only. -/
theorem descends (ha : Aged idle i h) (hg : Good idle i h) {t : Fin N} (hti : ∀ d, idle d ≠ t)
    (htu : h.kernel.state t ≠ .unused) :
    ReflTransGen (fun t p => h.kernel.parent t = some p) t i := by
  induction hk : h.ident t using Nat.strong_induction_on generalizing t with
  | _ k ih =>
    rcases eq_or_ne t i with rfl | hne
    · exact .refl
    · obtain ⟨p, hp, hlt⟩ := ha t hti htu hne
      obtain ⟨hpu, hpi, -⟩ := hg.tree.parentUsed t p htu hp
      exact .head hp (ih _ (hk ▸ hlt) hpi hpu rfl)

end Aged

/-- **One tree.** After `kernel_spawn` of `init`, every sequence of
`sys_fork`, `sys_exit` and `sys_waitpid` by any tasks, with the scheduler
at work in between, runs to its end. Then every process descends from
`init`, which has no parent, and the parent of a process has not exited,
unless it is `init`. -/
theorem descends_from_init (idle : Fin n → Fin N) (hinj : Injective idle) (c : Fin n) (i : Fin N)
    (σ : Kernel n N) (hspawn : kernelSpawn idle (boot idle) c true = some (some i, σ))
    (ls : List (Fin n × Act N)) (hcalls : Guarded (advance idle) (Calls idle) (.start σ) ls) :
    ∃ h, runSteps (advance idle) (.start σ) ls = some h ∧ h.kernel.parent i = none ∧
      ∀ t, (∀ d, idle d ≠ t) → h.kernel.state t ≠ .unused →
        ReflTransGen (fun t p => h.kernel.parent t = some p) t i ∧
          ∀ p, h.kernel.parent t = some p → h.kernel.state p = .zombie → p = i := by
  have hstart : Aged idle i (.start σ) := by
    intro t hti htu hne
    rw [show (History.start σ).kernel.state t = σ.state t from rfl,
      (spawn_init hinj hspawn).2.2.2.1, update_of_ne hne] at htu
    obtain ⟨d, hd⟩ := boot_state t htu
    exact absurd hd (hti d)
  obtain ⟨h, hrun, hg, ha⟩ := runSteps_guarded_total (I := fun h => Good idle i h ∧ Aged idle i h)
    (fun h l ⟨hg, ha⟩ hl => by
      obtain ⟨h', heq, hp, hr, hd⟩ := advance_spec hinj hg.placed hg.running hl
      exact ⟨h', heq, hg.advance hl hd hp hr, ha.advance hg hl hd⟩) ls
    ⟨good_start hinj hspawn, hstart⟩ hcalls
  exact ⟨h, hrun, hg.tree.initRoot, fun t hti htu =>
    ⟨ha.descends hg hti htu, fun p hp hz => hg.tree.zombies t p htu hp hz⟩⟩

/-- `init` forks and waits; its child forks and exits. -/
def orphaned : List (Fin 1 × Act 4) :=
  [(0, .schedule), (0, .fork true), (0, .wait none false), (0, .fork true), (0, .exit 5)]

/-- The orphan is in slot 3, `init` in slot 1. -/
theorem orphan_descends :
    ∃ σ h, kernelSpawn (Fin.castAdd 3 : Fin 1 → Fin 4) (boot (Fin.castAdd 3)) 0 true =
        some (some 1, σ) ∧
      runSteps (advance (Fin.castAdd 3)) (.start σ) orphaned = some h ∧
      ReflTransGen (fun t p => h.kernel.parent t = some p) 3 1 := by
  have hs : ∃ r ∈ kernelSpawn (Fin.castAdd 3 : Fin 1 → Fin 4) (boot (Fin.castAdd 3)) 0 true,
      r.1 = some 1 ∧ Guarded (advance (Fin.castAdd 3)) (Calls (Fin.castAdd 3)) (.start r.2) orphaned ∧
        (runSteps (advance (Fin.castAdd 3)) (.start r.2) orphaned).map (·.kernel.state 3) =
          some .runnable := by decide +kernel
  obtain ⟨⟨_, σ⟩, hspawn, rfl, hcalls, hend⟩ := hs
  obtain ⟨h, hrun, -, htree⟩ := descends_from_init (Fin.castAdd 3) (Fin.castAdd_injective 1 3) 0 1 σ
    hspawn _ hcalls
  rw [hrun, Option.map_some, Option.some.injEq] at hend
  exact ⟨σ, h, hspawn, hrun, (htree 3 (by decide) (by simp [hend])).1⟩

end Lnxrm.Process
