import Lnxrm.Process.Helpers.Tree

/-!
# Process tree integrity

In every history of `sys_fork`, `sys_exit` and `sys_waitpid` after
`kernel_spawn` of `init`, parent pointers designate the processes that are
meant, a process is returned once, to its parent and with its code, and a
slot is freed by that only (`tree_integrity`).
-/

namespace Lnxrm.Process

open Function

variable {n N : ℕ} {idle : Fin n → Fin N} {σ : Kernel n N} {i t : Fin N} {c : Fin n}
  {h h' : History n N}

/-- What holds between two operations. -/
structure Good (idle : Fin n → Fin N) (i : Fin N) (h : History n N) : Prop where
  placed : Placed idle h.kernel
  running : AllRunning h.kernel
  tree : TreeOk idle i h.kernel
  log : LogOk idle h
  init : h.ident i = 0

namespace Good

theorem idleRuns (hg : Good idle i h) (d : Fin n) : h.kernel.state (idle d) = .running := by
  obtain ⟨q, hq⟩ := hg.placed.queues
  exact hq.idleRuns d

/-- **One operation** keeps the tree and the log. -/
theorem advance {l : Fin n × Act N} (hg : Good idle i h) (hl : Calls idle h l) (hd : Did h l h')
    (hp : Placed idle h'.kernel) (hr : AllRunning h'.kernel) : Good idle i h' := by
  obtain ⟨q, hq⟩ := hg.placed.queues
  cases hd with
  | kept hk =>
    exact ⟨hp, hr, hg.tree.of_kept hk fun d => by simp [hg.idleRuns d], hg.log.of_kept hk, hg.init⟩
  | @forked c _ ch σ hf =>
    have hrun := hg.running c id
    have hch : ∀ d, idle d ≠ ch := hq.ne_idle (by simp [hf.free])
    have hich : i ≠ ch := fun e => hg.tree.initUsed (e ▸ hf.free)
    refine ⟨hp, hr, hg.tree.forked hf hrun hl hch, hg.log.forked hg.tree hf hrun hch, ?_⟩
    show update h.ident ch h.created i = 0
    rw [update_of_ne hich]
    exact hg.init
  | @exited c _ _ he =>
    exact ⟨hp, hr, hg.tree.exited he hq.idlePid, hg.log.exited hg.tree he (hg.running c id) hl
      hq.idlePid hg.init hg.idleRuns, hg.init⟩
  | reaped hreap =>
    exact ⟨hp, hr, hg.tree.reaped hreap, hg.log.reaped hreap hg.idleRuns, hg.init⟩

end Good

/-! ## After `kernel_spawn` of `init` -/

theorem boot_placed (hinj : Injective idle) : Placed idle (boot idle) where
  queues := ⟨_, Inv.boot⟩
  off _ := rfl
  inj _ _ e := hinj e
  idleAt _ _ e := hinj e
  queued _ ht := absurd rfl ht

theorem boot_state (t : Fin N) (ht : (boot idle).state t ≠ .unused) : ∃ d, idle d = t := by
  by_contra hno
  refine ht (if_neg fun hany => ?_)
  obtain ⟨d, -, hd⟩ := List.any_eq_true.mp hany
  exact hno ⟨d, of_decide_eq_true hd⟩

theorem spawn_init {c : Fin n} (hinj : Injective idle)
    (hspawn : kernelSpawn idle (boot idle) c true = some (some i, σ)) :
    Placed idle σ ∧ AllRunning σ ∧ firstUnused (boot idle) = some i ∧
      σ.state = update (boot idle).state i .runnable ∧ σ.pid i = 1 ∧
      ∀ t, σ.parent t = none := by
  unfold kernelSpawn taskAllocSlot at hspawn
  cases hfirst : firstUnused (boot idle) with
  | none => simp [hfirst] at hspawn
  | some t =>
    have hrun : AllRunning (boot idle) := fun d _ => Inv.boot.idleRuns d
    have hfree := Inv.unused_of_firstUnused hfirst
    simp only [hfirst, Option.map_some, if_true, Option.some.injEq, Prod.mk.injEq] at hspawn
    obtain ⟨rfl, rfl⟩ := hspawn
    obtain ⟨hp, hr, hoff, haway⟩ := (boot_placed hinj).claim hrun
      { (boot idle).claim t with
        pidCounter := ((boot idle).claim t).pidCounter + 1
        pid := update ((boot idle).claim t).pid t (((boot idle).claim t).pidCounter + 1) }
      hfree rfl rfl rfl rfl (fun τ hτ => update_of_ne hτ _ _)
    obtain ⟨hp', hr'⟩ := hp.ready hr t (update_self ..) hoff haway c
    refine ⟨hp', hr', rfl, ?_, ?_, fun τ => ?_⟩
    · rw [runqueueAdd_state]
      show update (update (boot idle).state t .embryo) t .runnable = _
      rw [update_idem]
    · rw [runqueueAdd_sameTree.pid]
      show update (boot idle).pid t ((boot idle).pidCounter + 1) t = 1
      rw [update_self]
      rfl
    · rw [runqueueAdd_sameTree.parent]
      rfl

theorem good_start {c : Fin n} (hinj : Injective idle)
    (hspawn : kernelSpawn idle (boot idle) c true = some (some i, σ)) :
    Good idle i (.start σ) := by
  obtain ⟨hp, hr, hfirst, hst, hpid, hpar⟩ := spawn_init hinj hspawn
  have hfree := Inv.unused_of_firstUnused hfirst
  have hidle : ∀ d, idle d ≠ i := Inv.boot.ne_idle (by simp [hfree])
  have hother : ∀ t, t ≠ i → σ.state t = (boot idle).state t := fun t ht => by
    rw [hst, update_of_ne ht]
  have hinit : σ.state i = .runnable := by rw [hst, update_self]
  -- every other used slot belongs to an idle task
  have hused : ∀ t, (∀ d, idle d ≠ t) → σ.state t ≠ .unused → t = i := by
    intro t hti htu
    by_contra hne
    rw [hother t hne] at htu
    obtain ⟨d, hd⟩ := boot_state t htu
    exact hti d hd
  have hzombie : ∀ t, σ.state t ≠ .zombie := by
    intro t hz
    by_cases e : t = i
    · rw [e, hinit] at hz
      cases hz
    · rw [hother t e] at hz
      simp only [boot] at hz
      split at hz <;> cases hz
  refine ⟨hp, hr, ⟨hpid, by simp [History.start, hinit], hpar i, hidle, fun t ht => ?_, fun d => hpar _,
    fun t p _ hp => ?_, fun t p _ hp => ?_⟩,
    ⟨fun _ _ => ⟨rfl, rfl⟩, fun _ _ _ => Nat.one_pos, fun t u hti hui htu huu _ => ?_,
      fun _ _ _ _ => ⟨rfl, rfl⟩, fun t hz => absurd hz (hzombie t), fun _ => Or.inl rfl,
      fun _ _ _ _ hm => absurd hm List.not_mem_nil, fun t _ _ => ?_⟩, rfl⟩
  · have hne : t ≠ i := ne_of_lt ht
    show (∃ d, idle d = t) ∨ σ.state t = .unused ∧ t.val = 0
    rw [hother t hne]
    by_cases hu : (boot idle).state t = .unused
    · refine Or.inr ⟨hu, ?_⟩
      by_contra hz
      -- `task_alloc_slot` takes the first slot that is free
      unfold firstUnused at hfirst
      rw [List.find?_eq_some_iff_getElem] at hfirst
      obtain ⟨-, k, hk, hki, hbelow⟩ := hfirst
      have hlt : t.val < k := by
        have : k = i.val := by
          rw [← hki]
          simp
        rw [this]
        exact ht
      have := hbelow t.val hlt
      simp [hz, hu] at this
    · exact Or.inl (boot_state t hu)
  · rw [show (History.start σ).kernel.parent t = none from hpar t] at hp
    cases hp
  · rw [show (History.start σ).kernel.parent t = none from hpar t] at hp
    cases hp
  · rw [hused t hti htu, hused u hui huu]
  · rw [show (History.start σ).kernel.parent t = none from hpar t]
    rfl

/-- **Process tree integrity.** After `kernel_spawn` of `init`, every
sequence of `sys_fork`, `sys_exit` and `sys_waitpid` by any tasks, with the
scheduler at work in between, runs to its end. In the state it reaches, a
parent pointer of a used slot designates a used slot; a process has been
returned at most once, to its parent at that time, with the code it passed
to `sys_exit`; and a used slot becomes unused by that alone. -/
theorem tree_integrity (idle : Fin n → Fin N) (hinj : Injective idle) (c : Fin n)
    (i : Fin N) (σ : Kernel n N)
    (hspawn : kernelSpawn idle (boot idle) c true = some (some i, σ)) (ls : List (Fin n × Act N))
    (hcalls : Guarded (advance idle) (Calls idle) (.start σ) ls) :
    ∃ h, runSteps (advance idle) (.start σ) ls = some h ∧ ParentsUsed h ∧ ReturnedOnce h ∧
      FreedByReaping idle h := by
  obtain ⟨h, hrun, hg⟩ := runSteps_guarded_total (I := Good idle i)
    (fun h l hg hl => by
      obtain ⟨h', heq, hp, hr, hd⟩ := advance_spec hinj hg.placed hg.running hl
      exact ⟨h', heq, hg.advance hl hd hp hr⟩) ls (good_start hinj hspawn) hcalls
  refine ⟨h, hrun, fun t p ht hp => ?_, fun x => ⟨?_, fun code hcode => ?_, hg.log.toParent x⟩,
    fun l h' hl hs t ht htu => ?_⟩
  · have hti : ∀ d, idle d ≠ t := by
      rintro d rfl
      rw [hg.tree.idleRoot d] at hp
      cases hp
    refine ⟨(hg.tree.parentUsed t p ht hp).1, ?_⟩
    rw [hg.log.kin t hti ht, hp, Option.map_some]
  · rcases hg.log.once x with e | ⟨code, -, e⟩ <;> simp [e]
  · rcases hg.log.once x with e | ⟨code', hex, e⟩
    · simp [e] at hcode
    · rw [e, List.mem_singleton] at hcode
      rw [hex, hcode]
  · obtain ⟨h'', heq, -, -, hd⟩ := advance_spec hinj hg.placed hg.running hl
    rw [hs] at heq
    cases heq
    -- only a slot that is reaped is freed
    cases hd with
    | kept hk => exact absurd ((hk.unused t).mp htu) ht
    | @forked _ _ ch σ hf =>
      have hne : t ≠ ch := by
        rintro rfl
        exact ht hf.free
      exact absurd ((hf.state_of_ne hne).symm.trans htu) ht
    | exited he => exact absurd ((he.unused t).mp htu) ht
    | @reaped c wpid nohang τ σ hreap =>
      obtain rfl : t = τ := by
        by_contra hne
        have e : σ.state t = .unused := htu
        rw [hreap.state, update_of_ne hne] at e
        exact ht e
      exact ⟨c, wpid, nohang, rfl, hreap.zombie, hreap.child, rfl⟩

/-- `init` forks and waits; its child forks and exits, and is reaped; the
orphan exits, and is reaped by `init` too. -/
def orphanActs : List (Fin 1 × Act 4) :=
  [(0, .schedule), (0, .fork true), (0, .wait none false), (0, .fork true), (0, .exit 5),
    (0, .wait none false), (0, .wait none false), (0, .exit 6), (0, .wait none false)]

theorem tree_integrity_orphan :
    ∃ i σ h, kernelSpawn (Fin.castAdd 3 : Fin 1 → Fin 4) (boot (Fin.castAdd 3)) 0 true =
        some (some i, σ) ∧
      runSteps (advance (Fin.castAdd 3)) (.start σ) orphanActs = some h ∧
      (returns 1 h.log, returns 2 h.log) = ([5], [6]) ∧
      ParentsUsed h ∧ ReturnedOnce h ∧ FreedByReaping (Fin.castAdd 3) h := by
  have hs : ((kernelSpawn (Fin.castAdd 3 : Fin 1 → Fin 4) (boot (Fin.castAdd 3)) 0 true).map
      fun r => (r.1, decide (Guarded (advance (Fin.castAdd 3)) (Calls (Fin.castAdd 3))
          (.start r.2) orphanActs),
        (runSteps (advance (Fin.castAdd 3)) (.start r.2) orphanActs).map fun h =>
          (returns 1 h.log, returns 2 h.log))) =
      some (some 1, true, some ([5], [6])) := by decide +kernel
  obtain ⟨⟨r, σ⟩, hspawn, hv⟩ := Option.map_eq_some_iff.mp hs
  simp only [Prod.mk.injEq, decide_eq_true_eq] at hv
  obtain ⟨rfl, hcalls, hlog⟩ := hv
  obtain ⟨h, hrun, hh⟩ :=
    tree_integrity (Fin.castAdd 3) (Fin.castAdd_injective 1 3) 0 1 σ hspawn _ hcalls
  rw [hrun, Option.map_some, Option.some.injEq] at hlog
  exact ⟨1, σ, h, hspawn, hrun, hlog, hh⟩

end Lnxrm.Process
