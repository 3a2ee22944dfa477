import Lnxrm.Process.WaitExit

/-!
# One step of a waiting parent and an exiting child

Proof layer. `Base` and `ChildAt` hold in every interleaving (`child_step`):
the child runs on one CPU until its own `schedule`, and only a zombie is
reaped. `ParentAt` says where the parent is at each of its steps; it needs
the child's wake-up to be timely (`parent_step`).
-/

namespace Lnxrm.Process.WaitExit

open Function (update update_self update_of_ne)

variable {n N : ℕ} {w : Setup n N} {s s' : State n N} {σ σ' : Kernel n N} {q : Fin n → List (Fin N)} {c : Fin n}
variable {exit : ExitPc} {wait : WaitPc N} {pc : WaitPc N}

/-- A step beside the two leaves each of them where it is, or takes it from
its queue. -/
theorem aside_spec {l : Fin n × Op N} (h : Inv w.idle σ q) (ha : Aside w σ l)
    (he : exec w.idle σ l = some σ') :
    SameTree σ σ' ∧ ∀ τ, τ = w.parent ∨ τ = w.child → SameAt τ σ σ' ∨ ∃ c, Picked τ c σ σ' := by
  obtain ⟨c, op⟩ := l
  have hne : ∀ t τ : Fin N, t ≠ w.parent ∧ t ≠ w.child → τ = w.parent ∨ τ = w.child → t ≠ τ := by
    rintro t τ ⟨hp, hc⟩ (rfl | rfl)
    · exact hp
    · exact hc
  cases op with
  | schedule =>
    refine ⟨h.schedule_sameTree he, fun τ hτ => ?_⟩
    have hcur : σ.current c ≠ τ := hne _ τ ha hτ
    have hidle : w.idle c ≠ τ := by
      rcases hτ with rfl | rfl
      · exact w.parent_ne_idle c
      · exact w.child_ne_idle c
    exact (h.schedule_other he hcur hidle).imp id fun hp => ⟨c, hp⟩
  | add t =>
    cases he
    exact ⟨runqueueAdd_sameTree, fun τ hτ => Or.inl (runqueueAdd_sameAt (hne t τ ha hτ))⟩
  | remove t =>
    obtain ⟨htree, hsame, -⟩ := h.remove_spec he
    exact ⟨htree, fun τ hτ => Or.inl (hsame τ (hne t τ ha hτ))⟩
  | signal t sig =>
    cases he
    rcases sendSignal_eq w.idle σ c t sig with e | ⟨-, e⟩
    · rw [e]
      exact ⟨SameTree.refl σ, fun τ _ => Or.inl (SameAt.refl τ σ)⟩
    · rw [e]
      exact ⟨wake_sameTree, fun τ hτ => Or.inl (wake_sameAt (hne t τ ha hτ))⟩
  | push t =>
    cases he
    unfold inputPush
    split
    · exact ⟨wake_sameTree, fun τ hτ => Or.inl (wake_sameAt (hne t τ ha hτ))⟩
    · exact ⟨SameTree.refl σ, fun τ _ => Or.inl (SameAt.refl τ σ)⟩
  | store t st =>
    cases he
    exact ⟨setState_sameTree st, fun τ hτ => Or.inl (setState_sameAt (hne t τ ha hτ))⟩
  | tick jiffies => exact ha.elim
  | alloc => exact ha.elim
  | spawn loaded => exact ha.elim
  | fork copied => exact ha.elim
  | exit code => exact ha.elim
  | wait wpid nohang => exact ha.elim
  | free t => exact ha.elim

/-- What holds in every state: the kernel's queues are in order, the child
is the parent's and is waited for, and what is reaped is neither idle nor
the parent. -/
structure Base (w : Setup n N) (s : State n N) : Prop where
  queues : ∃ q, Inv w.idle s.kernel q
  parent : s.kernel.parent w.child = some w.parent
  pid : s.kernel.pid w.parent ≠ 0
  inUse : s.kernel.state w.parent ≠ .unused
  covers : w.wpid = none ∨ w.wpid = some (s.kernel.pid w.child)
  reaps : ∀ t, s.wait.reaps = some t → (∀ d, w.idle d ≠ t) ∧ t ≠ w.parent

theorem Base.scan_finds (h : Base w s) (hz : s.kernel.state w.child = .zombie) :
    findZombie s.kernel w.parent w.wpid ≠ none := by
  intro hnone
  have hall := List.find?_eq_none.mp hnone w.child (List.mem_finRange _)
  have hcovers := h.covers
  simp only [isChild, hz, h.parent] at hall
  rcases hcovers with e | e
  · simp [e] at hall
    exact w.ne hall
  · simp [e] at hall
    exact w.ne hall

theorem findZombie_some {cur t : Fin N} {wpid : Option (BitVec 32)}
    (h : findZombie σ cur wpid = some t) :
    σ.state t = .zombie ∧ t ≠ cur ∧ σ.parent t = some cur := by
  have hp := List.find?_some h
  simp only [isChild, Bool.and_eq_true, decide_eq_true_eq] at hp
  exact ⟨hp.2, hp.1.1.1.2, hp.1.1.2⟩

theorem Base.signalParent_eq (h : Base w s) : signalParent w.idle s.kernel c w.child =
    sendSignal w.idle s.kernel c w.parent sigchld := by
  unfold signalParent
  rw [h.parent]

theorem Base.of_step (h : Base w s)
    (hpid : σ.pid = s.kernel.pid) (hparent : σ.parent = s.kernel.parent)
    (hq : ∃ q, Inv w.idle σ q) (huse : σ.state w.parent ≠ .unused)
    (hreaps : ∀ t, wait.reaps = some t → (∀ d, w.idle d ≠ t) ∧ t ≠ w.parent) :
    Base w ⟨σ, wait, exit⟩ where
  queues := hq
  parent := by
    rw [hparent]
    exact h.parent
  pid := by
    rw [hpid]
    exact h.pid
  inUse := huse
  covers := by
    rw [hpid]
    exact h.covers
  reaps := hreaps

/-- A step of the parent, seen from the child: it is left where it is, or
the parent's `schedule` switches to it, or its slot is freed. -/
theorem waitStep_spec (h : Base w s) (hcur : s.kernel.current c = w.parent)
    (hs : waitStep w c s.kernel s.wait = some (σ, pc)) :
    Base w ⟨σ, pc, s.exit⟩ ∧ (SameAt w.child s.kernel σ ∨ Picked w.child c s.kernel σ ∨
        s.wait = .freeSlot w.child ∧ pc = .returned ∧ σ.state w.child = .unused ∧
          σ.rqCpu w.child = none ∧ σ.current = s.kernel.current) := by
  obtain ⟨κ, wait, exit⟩ := s
  obtain ⟨q, hq⟩ := h.queues
  have hback : w.parent ≠ w.child := w.ne.symm
  have hsame := SameAt.refl w.child κ
  cases wait with
  | scan =>
    simp only [waitStep] at hs
    split at hs
    · rename_i t hfind
      cases hs
      obtain ⟨hz, hne, -⟩ := findZombie_some hfind
      refine ⟨h.of_step rfl rfl h.queues h.inUse ?_, Or.inl hsame⟩
      rintro t' ⟨⟩
      exact ⟨hq.ne_idle (by simp [hz]), hne⟩
    split_ifs at hs
    all_goals
      cases hs
      exact ⟨h.of_step rfl rfl h.queues h.inUse (by simp [WaitPc.reaps]), Or.inl hsame⟩
  | sleeping =>
    cases hs
    refine ⟨h.of_step rfl rfl ⟨q, hq.setState _ (by simp) (Or.inl w.parent_ne_idle)⟩ ?_
      (by simp [WaitPc.reaps]), Or.inl (setState_sameAt hback)⟩
    simp [Kernel.setState]
  | sleepUntil =>
    cases hs
    exact ⟨h.of_step rfl rfl ⟨q, hq.congr rfl rfl rfl rfl⟩ h.inUse (by simp [WaitPc.reaps]),
      Or.inl ⟨rfl, rfl, fun _ => Iff.rfl⟩⟩
  | remove =>
    obtain ⟨ρ, hρ, e⟩ := Option.map_eq_some_iff.mp hs
    cases e
    obtain ⟨htree, hoth, hst, -, -, hinv⟩ := hq.remove_spec hρ
    exact ⟨h.of_step htree.pid htree.parent ⟨_, hinv⟩ (by rw [hst]; exact h.inUse)
      (by simp [WaitPc.reaps]), Or.inl (hoth _ hback)⟩
  | schedule =>
    obtain ⟨ρ, hρ, e⟩ := Option.map_eq_some_iff.mp hs
    cases e
    have htree := hq.schedule_sameTree hρ
    obtain ⟨ρ', heq, hinv⟩ := hq.schedule c
    rw [hρ] at heq
    cases heq
    refine ⟨h.of_step htree.pid htree.parent hinv (hq.schedule_inUse hρ h.inUse)
      (by simp [WaitPc.reaps]), ?_⟩
    rcases hq.schedule_other hρ (by rw [hcur]; exact hback) (w.child_ne_idle c) with hc | hc
    · exact Or.inl hc
    · exact Or.inr (Or.inl hc)
  | destroy _ | freeStack _ =>
    cases hs
    exact ⟨h.of_step rfl rfl h.queues h.inUse h.reaps, Or.inl hsame⟩
  | freeSlot t =>
    obtain ⟨ρ, hρ, e⟩ := Option.map_eq_some_iff.mp hs
    cases e
    obtain ⟨hidle, hpar⟩ := h.reaps t rfl
    obtain ⟨htree, hoth, hcurr, hrq, hst, hinv⟩ := hq.freeSlot_spec hidle hρ
    refine ⟨h.of_step htree.pid htree.parent hinv ?_ (by simp [WaitPc.reaps]), ?_⟩
    · rw [(hoth _ hpar).state]
      exact h.inUse
    · by_cases ht : t = w.child
      · subst ht
        exact Or.inr (Or.inr ⟨rfl, rfl, hst, hrq, hcurr⟩)
      · exact Or.inl (hoth _ ht)
  | returned => cases hs

theorem waitStep_reaps {wait pc : WaitPc N} {t : Fin N}
    (hs : waitStep w c σ wait = some (σ', pc)) (hpc : pc.reaps = some t) :
    wait.reaps = some t ∨ wait = .scan ∧ findZombie σ w.parent w.wpid = some t := by
  cases wait with
  | scan =>
    simp only [waitStep] at hs
    split at hs
    · rename_i t' hfind
      cases hs
      cases hpc
      exact Or.inr ⟨rfl, hfind⟩
    · split_ifs at hs <;> cases hs <;> simp [WaitPc.reaps] at hpc
  | destroy _ | freeStack _ =>
    cases hs
    exact Or.inl hpc
  | sleeping | sleepUntil =>
    cases hs
    cases hpc
  | returned => cases hs
  | freeSlot _ | remove | schedule =>
    obtain ⟨ρ, -, e⟩ := Option.map_eq_some_iff.mp hs
    cases e
    cases hpc

/-- Where the child is: it runs, on one CPU, until its `schedule`, and is a
zombie from its `T_ZOMBIE` store until it is freed. -/
structure ChildAt (w : Setup n N) (s : State n N) : Prop where
  runs : s.exit ≠ .done → ∃ c, OnCpu w.child c s.kernel
  gone : s.exit = .done → s.kernel.rqCpu w.child = none ∧ ∀ d, s.kernel.current d ≠ w.child
  before : s.exit.pastZombie = false → s.kernel.state w.child = .running
  after : s.exit.pastZombie = true →
    s.kernel.state w.child = .zombie ∨ s.kernel.state w.child = .unused ∧ s.wait = .returned
  reaped : s.wait.reaps = some w.child → s.exit.pastZombie = true

namespace ChildAt

theorem rqCpu (h : ChildAt w s) : s.kernel.rqCpu w.child = none := by
  by_cases hd : s.exit = .done
  · exact (h.gone hd).1
  · obtain ⟨c, hc⟩ := h.runs hd
    exact hc.rqCpu

theorem not_picked (h : ChildAt w s) : ¬ Picked w.child c s.kernel σ := by
  intro hp
  have hq := hp.queued
  rw [h.rqCpu] at hq
  cases hq

theorem onCpu_of_sameAt {t : Fin N} (h : OnCpu t c σ) (hs : SameAt t σ σ') : OnCpu t c σ' :=
  ⟨hs.rqCpu.trans h.rqCpu, fun d => (hs.current d).trans (h.current d)⟩

theorem of_sameAt (h : ChildAt w s)
    (hs : SameAt w.child s.kernel σ) (hdone : exit = .done ↔ s.exit = .done)
    (hpast : exit.pastZombie = s.exit.pastZombie) (hret : s.wait = .returned → wait = .returned)
    (hreaps : wait.reaps = some w.child → s.exit.pastZombie = true) : ChildAt w ⟨σ, wait, exit⟩ where
  runs hd := by
    obtain ⟨c, hc⟩ := h.runs fun e => hd (hdone.mpr e)
    exact ⟨c, onCpu_of_sameAt hc hs⟩
  gone hd := by
    obtain ⟨hrq, hcur⟩ := h.gone (hdone.mp hd)
    exact ⟨hs.rqCpu.trans hrq, fun d e => hcur d ((hs.current d).mp e)⟩
  before hp := hs.state.trans (h.before (hpast ▸ hp))
  after hp := by
    rcases h.after (hpast ▸ hp) with hz | ⟨hu, hr⟩
    · exact Or.inl (hs.state.trans hz)
    · exact Or.inr ⟨hs.state.trans hu, hret hr⟩
  reaped hr := by
    rw [hpast]
    exact hreaps hr

theorem waitStep (hb : Base w s) (h : ChildAt w s)
    (hcur : s.kernel.current c = w.parent)
    (hs : waitStep w c s.kernel s.wait = some (σ, pc)) : ChildAt w ⟨σ, pc, s.exit⟩ := by
  have hret : s.wait = .returned → pc = .returned := by
    intro e
    rw [e] at hs
    cases hs
  have hreaps : pc.reaps = some w.child → s.exit.pastZombie = true := by
    intro hpc
    rcases waitStep_reaps hs hpc with hr | ⟨-, hfind⟩
    · exact h.reaped hr
    · by_contra hpast
      have hrun := h.before (by simpa using hpast)
      rw [(findZombie_some hfind).1] at hrun
      cases hrun
  rcases (waitStep_spec hb hcur hs).2 with hsame | hpick | ⟨hw, rfl, hst, hrq, hcu⟩
  · exact h.of_sameAt hsame Iff.rfl rfl hret hreaps
  · exact absurd hpick h.not_picked
  have hpast := h.reaped (by rw [hw]; rfl)
  refine ⟨fun hd => ?_, fun hd => ?_, fun hp => ?_, fun _ => Or.inr ⟨hst, rfl⟩, fun _ => hpast⟩
  · obtain ⟨d, hd⟩ := h.runs hd
    exact ⟨d, hrq, fun e => by rw [show (⟨σ, _, s.exit⟩ : State n N).kernel.current = _ from hcu];
                               exact hd.current e⟩
  · refine ⟨hrq, fun d => ?_⟩
    rw [hcu]
    exact (h.gone hd).2 d
  · rw [show (⟨σ, _, s.exit⟩ : State n N).exit = s.exit from rfl, hpast] at hp
    cases hp

theorem exitStep {pc : ExitPc} (hb : Base w s) (h : ChildAt w s)
    (hcur : s.kernel.current c = w.child)
    (hs : exitStep w c s.kernel s.exit = some (σ, pc)) :
    Base w ⟨σ, s.wait, pc⟩ ∧ ChildAt w ⟨σ, s.wait, pc⟩ := by
  obtain ⟨κ, wait, exit⟩ := s
  obtain ⟨q, hq⟩ := hb.queues
  have hback : w.parent ≠ w.child := w.ne.symm
  have hpar : κ.parent w.child = some w.parent := hb.parent
  cases exit with
  | signal =>
    cases hs
    rw [hb.signalParent_eq]
    have hinv := hq.sendSignal c w.parent sigchld
    rcases sendSignal_eq w.idle κ c w.parent sigchld with e | ⟨-, e⟩
    · rw [e]
      exact ⟨hb.of_step rfl rfl hb.queues hb.inUse hb.reaps,
        h.of_sameAt (SameAt.refl _ _) (by simp) rfl id h.reaped⟩
    · rw [e] at hinv ⊢
      refine ⟨hb.of_step wake_sameTree.pid wake_sameTree.parent hinv ?_ hb.reaps,
        h.of_sameAt (wake_sameAt hback) (by simp) rfl id h.reaped⟩
      rw [wake_state]
      simp
  | zombie =>
    cases hs
    have hinv : Inv w.idle (κ.zombie w.child w.code) q :=
      (hq.setState (t := w.child) .zombie (by simp) (Or.inl w.child_ne_idle)).congr
        rfl rfl rfl rfl
    refine ⟨hb.of_step rfl rfl ⟨q, hinv⟩ ?_ hb.reaps, ?_, ?_, ?_, fun _ => Or.inl ?_, fun _ => rfl⟩
    · show update κ.state w.child .zombie w.parent ≠ _
      rw [update_of_ne hback]
      exact hb.inUse
    · intro _
      obtain ⟨d, hd⟩ := h.runs (by simp)
      exact ⟨d, hd.rqCpu, hd.current⟩
    · intro hd
      cases hd
    · intro hp
      cases hp
    · exact update_self ..
  | remove =>
    obtain ⟨ρ, hρ, e⟩ := Option.map_eq_some_iff.mp hs
    cases e
    obtain ⟨htree, hoth, hst, hcu, hrq, hinv⟩ := hq.remove_spec hρ
    have hsame : SameAt w.child κ σ :=
      ⟨by rw [hst], by rw [hrq, h.rqCpu], fun d => by rw [hcu]⟩
    exact ⟨hb.of_step htree.pid htree.parent ⟨_, hinv⟩ (by rw [hst]; exact hb.inUse) hb.reaps,
      h.of_sameAt hsame (by simp) rfl id h.reaped⟩
  | test =>
    simp only [WaitExit.exitStep, hpar] at hs
    cases hs
    refine ⟨hb.of_step rfl rfl hb.queues hb.inUse hb.reaps, h.of_sameAt (SameAt.refl _ _) ?_ ?_ id
      h.reaped⟩
    · split_ifs <;> simp
    · split_ifs <;> simp [ExitPc.pastZombie]
  | wake =>
    simp only [WaitExit.exitStep, hpar] at hs
    cases hs
    exact ⟨hb.of_step rfl rfl ⟨q, hq.setState _ (by simp) (Or.inl w.parent_ne_idle)⟩
        (by simp [Kernel.setState]) hb.reaps,
      h.of_sameAt (setState_sameAt hback) (by simp) rfl id
        h.reaped⟩
  | add =>
    simp only [WaitExit.exitStep, hpar] at hs
    cases hs
    exact ⟨hb.of_step runqueueAdd_sameTree.pid runqueueAdd_sameTree.parent
        (hq.add w.parent_ne_idle hb.inUse c) (by rw [runqueueAdd_state]; exact hb.inUse) hb.reaps,
      h.of_sameAt (runqueueAdd_sameAt hback) (by simp) rfl id
        h.reaped⟩
  | schedule =>
    obtain ⟨ρ, hρ, e⟩ := Option.map_eq_some_iff.mp hs
    cases e
    have htree := hq.schedule_sameTree hρ
    obtain ⟨ρ', heq, hinv⟩ := hq.schedule c
    rw [hρ] at heq
    cases heq
    have hafter : κ.state w.child = .zombie ∨ κ.state w.child = .unused ∧ wait = .returned :=
      h.after rfl
    have hstate : κ.state w.child ≠ .running ∧ κ.state w.child ≠ .runnable := by
      rcases hafter with e | ⟨e, -⟩ <;> simp [e]
    obtain ⟨hst, hrq, hcu⟩ := hq.schedule_leaves hρ hcur (w.child_ne_idle c) h.rqCpu hstate.1
      hstate.2
    refine ⟨hb.of_step htree.pid htree.parent hinv (hq.schedule_inUse hρ hb.inUse) hb.reaps,
      fun hd => absurd rfl hd, fun _ => ⟨hrq, fun d e => ?_⟩, fun hp => ?_, fun _ => ?_, fun _ => rfl⟩
    · -- it ran on this CPU only
      obtain ⟨d', hd'⟩ := h.runs (by simp)
      obtain ⟨hne, hd⟩ := (hcu d).mp e
      exact hne (((hd'.current d).mp hd).trans ((hd'.current c).mp hcur).symm)
    · cases hp
    · exact hst ▸ hafter
  | done => cases hs

end ChildAt

/-- **One step** of the system keeps what is known of the child. -/
theorem child_step {m : Move n N} (hb : Base w s) (h : ChildAt w s) (hs : step w s m = some s') :
    Base w s' ∧ ChildAt w s' := by
  cases m with
  | parent c =>
    obtain ⟨hcur, hs⟩ := Option.ite_none_right_eq_some.mp hs
    obtain ⟨⟨σ, pc⟩, hr, rfl⟩ := Option.map_eq_some_iff.mp hs
    exact ⟨(waitStep_spec hb hcur hr).1, h.waitStep hb hcur hr⟩
  | child c =>
    obtain ⟨hcur, hs⟩ := Option.ite_none_right_eq_some.mp hs
    obtain ⟨⟨σ, pc⟩, hr, rfl⟩ := Option.map_eq_some_iff.mp hs
    exact h.exitStep hb hcur hr
  | other l =>
    obtain ⟨hl, hs⟩ := Option.ite_none_right_eq_some.mp hs
    obtain ⟨σ, hr, rfl⟩ := Option.map_eq_some_iff.mp hs
    obtain ⟨q, hq⟩ := hb.queues
    obtain ⟨htree, hplace⟩ := aside_spec hq hl.2 hr
    obtain ⟨σ', heq, hinv⟩ := hq.exec l hl.1
    rw [hr] at heq
    cases heq
    have huse : σ.state w.parent ≠ .unused := by
      rcases hplace _ (Or.inl rfl) with hsame | ⟨d, hpick⟩
      · rw [hsame.state]
        exact hb.inUse
      · simp [hpick.state]
    refine ⟨hb.of_step htree.pid htree.parent hinv huse hb.reaps, ?_⟩
    rcases hplace _ (Or.inr rfl) with hsame | ⟨d, hpick⟩
    · exact h.of_sameAt hsame Iff.rfl rfl id h.reaped
    · exact absurd hpick h.not_picked

/-- Where the parent is: it runs on one CPU, or it left one and is queued,
or sleeps with the child's test still ahead, or is just being woken. -/
inductive ParentAt (w : Setup n N) (s : State n N) : Prop where
  | runs (c : Fin n) (on : OnCpu w.parent c s.kernel)
      (state : s.kernel.state w.parent = if s.wait.asleep then .sleeping else .running)
      (wakes : s.exit.wakes = false)
  | queued (away : ∀ d, s.kernel.current d ≠ w.parent) (queued : s.kernel.rqCpu w.parent ≠ none)
      (state : s.kernel.state w.parent ≠ .sleeping) (wait : s.wait = .scan)
      (wakes : s.exit.wakes = false)
  | sleeps (away : ∀ d, s.kernel.current d ≠ w.parent) (off : s.kernel.rqCpu w.parent = none)
      (state : s.kernel.state w.parent = .sleeping) (wait : s.wait = .scan)
      (test : s.exit.pastTest = false)
  | woken (away : ∀ d, s.kernel.current d ≠ w.parent) (off : s.kernel.rqCpu w.parent = none)
      (state : s.exit = .add → s.kernel.state w.parent ≠ .sleeping) (wait : s.wait = .scan)
      (wakes : s.exit.wakes = true)

namespace ParentAt

theorem of_sameAt (h : ParentAt w s) (hs : SameAt w.parent s.kernel σ)
    (hwakes : exit.wakes = s.exit.wakes) (hadd : exit = .add → s.exit = .add)
    (htest : s.exit.pastTest = false → exit.pastTest = false) : ParentAt w ⟨σ, s.wait, exit⟩ := by
  have haway : (∀ d, s.kernel.current d ≠ w.parent) → ∀ d, σ.current d ≠ w.parent :=
    fun h d e => h d ((hs.current d).mp e)
  cases h with
  | runs c on state wakes =>
    exact .runs c (ChildAt.onCpu_of_sameAt on hs) (hs.state.trans state) (hwakes.trans wakes)
  | queued away queued state wait wakes =>
    refine .queued (haway away) ?_ ?_ wait (hwakes.trans wakes)
    · rwa [hs.rqCpu]
    · rwa [hs.state]
  | sleeps away off state wait test =>
    exact .sleeps (haway away) (hs.rqCpu.trans off) (hs.state.trans state) wait (htest test)
  | woken away off state wait wakes =>
    refine .woken (haway away) (hs.rqCpu.trans off) (fun e => ?_) wait (hwakes.trans wakes)
    rw [hs.state]
    exact state (hadd e)

theorem of_picked (h : ParentAt w s) (hp : Picked w.parent c s.kernel σ)
    (hwakes : exit.wakes = s.exit.wakes) : ParentAt w ⟨σ, s.wait, exit⟩ := by
  have hq := hp.queued
  cases h with
  | runs c on state wakes =>
    rw [on.rqCpu] at hq
    cases hq
  | queued away queued state wait wakes =>
    refine .runs c ⟨hp.rqCpu, fun d => ?_⟩ ?_ (hwakes.trans wakes)
    · rw [hp.current d]
      exact ⟨fun e => e.resolve_right (away d), Or.inl⟩
    · rw [hp.state, wait]
      rfl
  | sleeps away off state wait test =>
    rw [off] at hq
    cases hq
  | woken away off state wait wakes =>
    rw [off] at hq
    cases hq

theorem onCpu (h : ParentAt w s) (hcur : s.kernel.current c = w.parent) :
    OnCpu w.parent c s.kernel ∧
      (s.kernel.state w.parent = if s.wait.asleep then .sleeping else .running) ∧
      s.exit.wakes = false := by
  cases h with
  | runs d on state wakes =>
    obtain rfl := (on.current c).mp hcur
    exact ⟨on, state, wakes⟩
  | queued away => exact absurd hcur (away c)
  | sleeps away => exact absurd hcur (away c)
  | woken away => exact absurd hcur (away c)

theorem woken_of (h : ParentAt w s) (hw : s.exit.wakes = true) :
    (∀ d, s.kernel.current d ≠ w.parent) ∧ s.kernel.rqCpu w.parent = none ∧
      (s.exit = .add → s.kernel.state w.parent ≠ .sleeping) ∧ s.wait = .scan := by
  cases h with
  | runs _ _ _ wakes => simp [hw] at wakes
  | queued _ _ _ _ wakes => simp [hw] at wakes
  | sleeps _ _ _ _ test =>
    revert hw test
    cases s.exit <;> simp [ExitPc.wakes, ExitPc.pastTest]
  | woken away off state wait _ => exact ⟨away, off, state, wait⟩

/-- The parent's own steps. Once the child has made its test, the scan
finds it. -/
theorem waitStep (hb : Base w s) (hc : ChildAt w s) (h : ParentAt w s)
    (hclosed : s.exit.pastTest = true → s.wait.inWindow = false)
    (hcur : s.kernel.current c = w.parent) (hs : waitStep w c s.kernel s.wait = some (σ, pc)) :
    ParentAt w ⟨σ, pc, s.exit⟩ ∧ (s.exit.pastTest = true → pc.inWindow = false) := by
  obtain ⟨κ, wait, exit⟩ := s
  obtain ⟨on, hstate, hwakes⟩ := h.onCpu hcur
  obtain ⟨q, hq⟩ := hb.queues
  -- the steps that leave the parent running on its CPU
  have hruns : pc.asleep = wait.asleep → SameAt w.parent κ σ →
      ParentAt w ⟨σ, pc, exit⟩ := by
    intro he hsame
    refine .runs c (ChildAt.onCpu_of_sameAt on hsame) ?_ hwakes
    rw [he, hsame.state]
    exact hstate
  cases wait with
  | scan =>
    simp only [WaitExit.waitStep] at hs
    split at hs
    · cases hs
      exact ⟨hruns rfl (SameAt.refl _ _), fun _ => rfl⟩
    rename_i hnone
    split_ifs at hs
    · cases hs
      exact ⟨hruns rfl (SameAt.refl _ _), fun _ => rfl⟩
    · cases hs
      exact ⟨hruns rfl (SameAt.refl _ _), fun _ => rfl⟩
    cases hs
    refine ⟨hruns rfl (SameAt.refl _ _), fun htest => ?_⟩
    have hpast : exit.pastZombie = true := by
      revert htest
      cases exit <;> simp [ExitPc.pastTest, ExitPc.pastZombie]
    rcases hc.after hpast with hz | ⟨-, hret⟩
    · exact absurd hnone (hb.scan_finds hz)
    · cases hret
  | sleeping =>
    cases hs
    refine ⟨.runs c ⟨on.rqCpu, on.current⟩ ?_ hwakes, hclosed⟩
    exact update_self ..
  | sleepUntil =>
    cases hs
    exact ⟨hruns rfl ⟨rfl, rfl, fun _ => Iff.rfl⟩, hclosed⟩
  | remove =>
    obtain ⟨ρ, hρ, e⟩ := Option.map_eq_some_iff.mp hs
    cases e
    obtain ⟨-, -, hst, hcu, hrq, -⟩ := hq.remove_spec hρ
    refine ⟨hruns rfl ⟨by rw [hst], by rw [hrq, on.rqCpu], fun d => by rw [hcu]⟩, hclosed⟩
  | schedule =>
    obtain ⟨ρ, hρ, e⟩ := Option.map_eq_some_iff.mp hs
    cases e
    have hsleep : κ.state w.parent = .sleeping := hstate
    obtain ⟨hst, hrq, hcu⟩ := hq.schedule_leaves hρ hcur (w.parent_ne_idle c) on.rqCpu
      (by simp [hsleep]) (by simp [hsleep])
    have htest : exit.pastTest = false := by
      by_contra ht
      have := hclosed (by simpa using ht)
      simp [WaitPc.inWindow, WaitPc.asleep] at this
    refine ⟨.sleeps (fun d e => ?_) hrq (hst.trans hsleep) rfl htest, fun _ => rfl⟩
    obtain ⟨hne, hd⟩ := (hcu d).mp e
    exact hne ((on.current d).mp hd)
  | destroy _ | freeStack _ =>
    cases hs
    exact ⟨hruns rfl (SameAt.refl _ _), fun _ => rfl⟩
  | freeSlot t =>
    obtain ⟨ρ, hρ, e⟩ := Option.map_eq_some_iff.mp hs
    cases e
    obtain ⟨hidle, hpar⟩ := hb.reaps t rfl
    obtain ⟨-, hoth, -⟩ := hq.freeSlot_spec hidle hρ
    exact ⟨hruns rfl (hoth _ hpar), fun _ => rfl⟩
  | returned => cases hs

theorem exitStep {pc : ExitPc} (hb : Base w s) (h : ParentAt w s)
    (hclosed : s.exit.pastTest = true → s.wait.inWindow = false) (htimely : Timely s (.child c))
    (hcur : s.kernel.current c = w.child) (hs : exitStep w c s.kernel s.exit = some (σ, pc)) :
    ParentAt w ⟨σ, s.wait, pc⟩ ∧ (pc.pastTest = true → s.wait.inWindow = false) := by
  obtain ⟨κ, wait, exit⟩ := s
  obtain ⟨q, hq⟩ := hb.queues
  have hpar : κ.parent w.child = some w.parent := hb.parent
  obtain ⟨hsigtime, htesttime⟩ := htimely
  cases exit with
  | signal =>
    cases hs
    refine ⟨?_, fun hp => by cases hp⟩
    rw [hb.signalParent_eq]
    have hstay : ParentAt w ⟨κ, wait, .zombie⟩ :=
      h.of_sameAt (SameAt.refl _ _) rfl (by simp) (fun _ => rfl)
    rcases sendSignal_eq w.idle κ c w.parent sigchld with e | ⟨hsleep, e⟩
    · rwa [e]
    rw [e]
    have haway : (∀ d, κ.current d ≠ w.parent) →
        ∀ d, (wake w.idle κ c w.parent).current d ≠ w.parent := by
      intro h d
      rw [wake_current]
      exact h d
    have hrunnable : (wake w.idle κ c w.parent).state w.parent ≠ .sleeping := by
      rw [wake_state]
      simp
    cases h with
    | runs d on state wakes =>
      rw [hsigtime rfl] at state
      rcases hsleep with e | e <;> cases e.symm.trans state
    | queued away queued state wait wakes =>
      exact .queued (haway away) runqueueAdd_queued hrunnable wait rfl
    | sleeps away off state wait test =>
      exact .queued (haway away) runqueueAdd_queued hrunnable wait rfl
    | woken _ _ _ _ wakes => cases wakes
  | zombie =>
    cases hs
    refine ⟨h.of_sameAt ?_ rfl (by simp) (fun _ => rfl), fun hp => by cases hp⟩
    exact ⟨update_of_ne w.ne.symm _ _, rfl, fun _ => Iff.rfl⟩
  | remove =>
    obtain ⟨ρ, hρ, e⟩ := Option.map_eq_some_iff.mp hs
    cases e
    obtain ⟨-, hoth, -⟩ := hq.remove_spec hρ
    exact ⟨h.of_sameAt (hoth _ w.ne) rfl (by simp) (fun _ => rfl), fun hp => by cases hp⟩
  | test =>
    simp only [WaitExit.exitStep, hpar] at hs
    cases hs
    refine ⟨?_, fun _ => htesttime rfl⟩
    have hasleep : wait.asleep = false := by
      have := htesttime rfl
      revert this
      cases wait <;> simp [WaitPc.inWindow, WaitPc.asleep]
    cases h with
    | runs d on state wakes =>
      rw [hasleep] at state
      have hrun : σ.state w.parent = .running := state
      rw [if_neg (by simp [hrun])]
      exact .runs d on (by rw [show State.wait _ = wait from rfl, hasleep]; exact hrun) rfl
    | queued away queued state wait wakes =>
      rw [if_neg (by simp [state])]
      exact .queued away queued state wait rfl
    | sleeps away off state wait test =>
      rw [if_pos ⟨state, hb.pid⟩]
      exact .woken away off (by simp) wait rfl
    | woken _ _ _ _ wakes => cases wakes
  | wake =>
    simp only [WaitExit.exitStep, hpar] at hs
    cases hs
    obtain ⟨away, off, -, wait⟩ := h.woken_of rfl
    refine ⟨.woken away off (fun _ => ?_) wait rfl, fun _ => hclosed rfl⟩
    show update κ.state w.parent .runnable w.parent ≠ _
    simp
  | add =>
    simp only [WaitExit.exitStep, hpar] at hs
    cases hs
    obtain ⟨away, -, state, wait⟩ := h.woken_of rfl
    refine ⟨.queued (fun d => ?_) runqueueAdd_queued ?_ wait rfl, fun _ => hclosed rfl⟩
    · rw [runqueueAdd_current]
      exact away d
    · show (runqueueAdd w.idle κ c w.parent).state w.parent ≠ _
      rw [runqueueAdd_state]
      exact state rfl
  | schedule =>
    obtain ⟨ρ, hρ, e⟩ := Option.map_eq_some_iff.mp hs
    cases e
    refine ⟨?_, fun _ => hclosed rfl⟩
    rcases hq.schedule_other hρ (by rw [hcur]; exact w.ne) (w.parent_ne_idle c) with hsame | hpick
    · exact h.of_sameAt hsame rfl (by simp)
        id
    · exact h.of_picked hpick rfl
  | done => cases hs

end ParentAt

/-- **One timely step** keeps what is known of the parent. -/
theorem parent_step {m : Move n N} (hb : Base w s) (hc : ChildAt w s) (h : ParentAt w s)
    (hclosed : s.exit.pastTest = true → s.wait.inWindow = false) (htimely : Timely s m)
    (hs : step w s m = some s') :
    ParentAt w s' ∧ (s'.exit.pastTest = true → s'.wait.inWindow = false) := by
  cases m with
  | parent c =>
    obtain ⟨hcur, hs⟩ := Option.ite_none_right_eq_some.mp hs
    obtain ⟨⟨σ, pc⟩, hr, rfl⟩ := Option.map_eq_some_iff.mp hs
    exact h.waitStep hb hc hclosed hcur hr
  | child c =>
    obtain ⟨hcur, hs⟩ := Option.ite_none_right_eq_some.mp hs
    obtain ⟨⟨σ, pc⟩, hr, rfl⟩ := Option.map_eq_some_iff.mp hs
    exact h.exitStep hb hclosed htimely hcur hr
  | other l =>
    obtain ⟨hl, hs⟩ := Option.ite_none_right_eq_some.mp hs
    obtain ⟨σ, hr, rfl⟩ := Option.map_eq_some_iff.mp hs
    obtain ⟨q, hq⟩ := hb.queues
    refine ⟨?_, hclosed⟩
    rcases (aside_spec hq hl.2 hr).2 _ (Or.inl rfl) with hsame | ⟨d, hpick⟩
    · exact h.of_sameAt hsame rfl id id
    · exact h.of_picked hpick rfl

end Lnxrm.Process.WaitExit
