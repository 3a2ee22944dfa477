import Lnxrm.Common.Owned
import Lnxrm.Sched.Model

/-!
# Where a task is

A task is *at* a CPU that holds it — as `_current`, as the task it is
switching to, or as the task whose context it has still to save — that has
it on its queue, or whose idle task it is. The steps of the scheduler
move tasks between these places of one CPU (`Inv.setPc`, `Inv.remove`,
`Inv.publish`), and only `runqueue_add` can put a task at a CPU where it
was not. It does not when every CPU that holds the task is the one whose
queue receives it (`Inv.add`).
-/

namespace Lnxrm.Sched

open Function

variable {n : ℕ} {T : Type} [DecidableEq T] {idle : Fin n → T} {σ : State n T} {c d : Fin n}
  {t : T} {p : Pc T}

/-- The CPU has the task in hand. -/
def Holds (σ : State n T) (c : Fin n) (t : T) : Prop :=
  σ.current c = t ∨ (σ.pc c).incoming = some t ∨ (σ.pc c).outgoing = some t

instance (σ : State n T) (c : Fin n) (t : T) : Decidable (Holds σ c t) := by
  unfold Holds
  infer_instance

variable (idle) in
/-- The task is at the CPU. -/
def At (σ : State n T) (c : Fin n) (t : T) : Prop :=
  Holds σ c t ∨ σ.rqCpu t = some c ∨ t = idle c

/-- The task whose context the CPU is executing on. -/
def executing (σ : State n T) (c : Fin n) : Option T :=
  match σ.pc c with
  | .save prev _ => some prev
  | .load _ => none
  | _ => some (σ.current c)

variable (idle) in
/-- What a CPU's local variables promise. -/
def PcOk (σ : State n T) (c : Fin n) : Prop :=
  match σ.pc c with
  | .adding t => isIdle idle t = false
  | .picked (some next) => σ.rqCpu next = some c
  | .check next | .dequeue next => (σ.rqCpu next = some c ∨ next = idle c) ∧ next ≠ σ.current c
  | .requeue next | .enqueue next =>
    ((σ.rqCpu next = some c ∨ next = idle c) ∧ next ≠ σ.current c) ∧
      isIdle idle (σ.current c) = false
  | .setRunning next | .publish next => next ≠ σ.current c
  | .save prev next => prev ≠ next ∧ σ.current c = next
  | .load next => σ.current c = next
  | _ => True

variable (idle) in
/-- The invariant of the runs whose enqueues are local. -/
structure Inv (σ : State n T) : Prop where
  /-- `rq_cpu` says on which queue a task is -/
  link : ∀ c t, t ∈ σ.queue c ↔ σ.rqCpu t = some c
  nodup : ∀ c, (σ.queue c).Nodup
  /-- a task is at one CPU -/
  place : ∀ c d t, At idle σ c t → At idle σ d t → c = d
  pcOk : ∀ c, PcOk idle σ c
  /-- a context that is not saved is being executed on -/
  saved : ∀ t, σ.saved t = false → ∃ c, executing σ c = some t

section Fields

variable (σ c p t)

omit [DecidableEq T] in
@[simp]
theorem setPc_pc_self : (σ.setPc c p).pc c = p := update_self ..

omit [DecidableEq T] in
theorem setPc_pc_of_ne (h : d ≠ c) : (σ.setPc c p).pc d = σ.pc d := update_of_ne h ..

theorem runqueueRemove_rqCpu (x : T) :
    (runqueueRemove σ t).rqCpu x = if x = t then none else σ.rqCpu x := by
  unfold runqueueRemove
  split
  · rename_i h
    split
    · rename_i e
      rw [e, h]
    · rfl
  · exact update_apply ..

theorem runqueueRemove_current : (runqueueRemove σ t).current = σ.current := by
  unfold runqueueRemove
  split <;> rfl

theorem runqueueRemove_pc : (runqueueRemove σ t).pc = σ.pc := by
  unfold runqueueRemove
  split <;> rfl

theorem runqueueRemove_saved : (runqueueRemove σ t).saved = σ.saved := by
  unfold runqueueRemove
  split <;> rfl

theorem runqueueRemove_setPc : (runqueueRemove σ t).setPc c p = runqueueRemove (σ.setPc c p) t := by
  unfold runqueueRemove State.setPc
  cases σ.rqCpu t <;> rfl

theorem runqueueAdd_pc : (runqueueAdd idle σ c t).pc = σ.pc := by
  unfold runqueueAdd
  split <;> rfl

end Fields

theorem PcOk.mono {σ' : State n T} (h : PcOk idle σ c) (hcur : σ'.current c = σ.current c)
    (hpc : σ'.pc c = σ.pc c) (hrq : ∀ x, σ.rqCpu x = some c → σ'.rqCpu x = some c) :
    PcOk idle σ' c := by
  unfold PcOk at h ⊢
  rw [hpc, hcur]
  generalize σ.pc c = p at h ⊢
  cases p with
  | picked next =>
    cases next with
    | none => trivial
    | some next => exact hrq next h
  | check next | dequeue next => exact ⟨h.1.imp_left (hrq next), h.2⟩
  | requeue next | enqueue next => exact ⟨⟨h.1.1.imp_left (hrq next), h.1.2⟩, h.2⟩
  | _ => exact h

namespace Inv

theorem owned (h : Inv idle σ) : Owned σ.queue σ.rqCpu := ⟨h.link, h.nodup⟩

/-- **A local step**: the CPU moves on and gets nothing in hand that was
not at it before; what it does to the saved contexts agrees with where it
executes. -/
theorem setSaved {v : T → Bool} (h : Inv idle σ)
    (hat : ∀ t, p.incoming = some t ∨ p.outgoing = some t → At idle σ c t)
    (hpc : PcOk idle (σ.setPc c p) c)
    (hsaved : ∀ t, v t = false → executing (σ.setPc c p) c = some t ∨
      (σ.saved t = false ∧ executing σ c ≠ some t)) :
    Inv idle { σ.setPc c p with saved := v } := by
  have hAt : ∀ d t, At idle { σ.setPc c p with saved := v } d t → At idle σ d t := by
    rintro d t ((hcur | hhand) | hrest)
    · exact Or.inl (Or.inl hcur)
    · by_cases e : d = c
      · subst e
        simp only [setPc_pc_self] at hhand
        exact hat t hhand
      · simp only [setPc_pc_of_ne σ c p e] at hhand
        exact Or.inl (Or.inr hhand)
    · exact Or.inr hrest
  refine ⟨h.link, h.nodup, fun d e t hd he => h.place d e t (hAt d t hd) (hAt e t he), ?_, ?_⟩
  · intro d
    by_cases e : d = c
    · rw [e]
      exact hpc.mono rfl rfl fun _ hx => hx
    · exact (h.pcOk d).mono rfl (setPc_pc_of_ne σ c p e) fun _ hx => hx
  intro t ht
  rcases hsaved t ht with hex | ⟨hold, hother⟩
  · exact ⟨c, hex⟩
  obtain ⟨d, hd⟩ := h.saved t hold
  have e : d ≠ c := by
    rintro rfl
    exact hother hd
  refine ⟨d, ?_⟩
  unfold executing at hd ⊢
  simp only [setPc_pc_of_ne σ c p e]
  exact hd

theorem setPc (h : Inv idle σ)
    (hat : ∀ t, p.incoming = some t ∨ p.outgoing = some t → At idle σ c t)
    (hpc : PcOk idle (σ.setPc c p) c)
    (hex : executing (σ.setPc c p) c = executing σ c) : Inv idle (σ.setPc c p) := by
  refine h.setSaved (v := σ.saved) hat hpc fun t ht => ?_
  by_cases e : executing σ c = some t
  · exact Or.inl (hex.trans e)
  · exact Or.inr ⟨ht, e⟩

theorem setState (h : Inv idle σ) (t : T) (st : TaskState) : Inv idle (σ.setState t st) :=
  ⟨h.link, h.nodup, h.place, fun c => (h.pcOk c).mono rfl rfl fun _ hx => hx, h.saved⟩

/-- **Dequeuing** a task that is at the CPU: the other CPUs have nothing to
do with it. -/
theorem remove (h : Inv idle σ) (hat : At idle σ c t) (hpc : PcOk idle (runqueueRemove σ t) c) :
    Inv idle (runqueueRemove σ t) := by
  have hrq := runqueueRemove_rqCpu σ t
  have hAt : ∀ d x, At idle (runqueueRemove σ t) d x → At idle σ d x := by
    rintro d x (hhold | hqueue | hidle)
    · unfold Holds at hhold
      rw [runqueueRemove_current, runqueueRemove_pc] at hhold
      exact Or.inl hhold
    · rw [hrq x] at hqueue
      split at hqueue
      · simp at hqueue
      · exact Or.inr (Or.inl hqueue)
    · exact Or.inr (Or.inr hidle)
  have howned : Owned (runqueueRemove σ t).queue (runqueueRemove σ t).rqCpu := by
    unfold runqueueRemove
    split
    · exact h.owned
    · rename_i howner
      rw [h.owned.erase_eq howner]
      exact h.owned.erase t
  constructor
  case link => exact howned.link
  case nodup => exact howned.nodup
  case place => exact fun d e x hd he => h.place d e x (hAt d x hd) (hAt e x he)
  case pcOk =>
    intro d
    by_cases e : d = c
    · rw [e]
      exact hpc
    · refine (h.pcOk d).mono (by rw [runqueueRemove_current]) (by rw [runqueueRemove_pc]) ?_
      intro x hx
      rw [hrq x, if_neg]
      · exact hx
      · rintro rfl
        exact e (h.place d c x (Or.inr (Or.inl hx)) hat)
  case saved =>
    intro x hx
    rw [runqueueRemove_saved] at hx
    obtain ⟨d, hd⟩ := h.saved x hx
    refine ⟨d, ?_⟩
    unfold executing at hd ⊢
    rw [runqueueRemove_pc, runqueueRemove_current]
    exact hd

/-- **Enqueuing** a task where it is. -/
theorem add (h : Inv idle σ) (ht : isIdle idle t = false)
    (hlocal : σ.rqCpu t = none → ∀ d, Holds σ d t → d = preferredCpu idle σ c) :
    Inv idle (runqueueAdd idle σ c t) := by
  cases hrq : σ.rqCpu t with
  | some owner =>
    have hsame : runqueueAdd idle σ c t = σ := by
      unfold runqueueAdd
      rw [hrq]
    rw [hsame]
    exact h
  | none =>
    have hadd : runqueueAdd idle σ c t =
        { σ with
          rqCpu := update σ.rqCpu t (some (preferredCpu idle σ c))
          queue := update σ.queue (preferredCpu idle σ c)
            (t :: σ.queue (preferredCpu idle σ c)) } := by
      unfold runqueueAdd
      rw [hrq]
    rw [hadd]
    generalize hcpu : preferredCpu idle σ c = cpu at *
    -- the task is at the receiving CPU only
    have hplace : ∀ d, At idle σ d t → d = cpu := by
      rintro d (hhold | hqueue | hidle)
      · exact hlocal hrq d hhold
      · rw [hrq] at hqueue
        simp at hqueue
      · have hmem : isIdle idle t = true := List.any_eq_true.mpr
          ⟨d, List.mem_finRange d, by simp [hidle]⟩
        rw [ht] at hmem
        exact absurd hmem Bool.false_ne_true
    have hAt : ∀ d x, (Holds σ d x ∨ update σ.rqCpu t (some cpu) x = some d ∨ x = idle d) →
        At idle σ d x ∨ (x = t ∧ d = cpu) := by
      rintro d x (hhold | hqueue | hidle)
      · exact Or.inl (Or.inl hhold)
      · by_cases ex : x = t
        · rw [ex, update_self] at hqueue
          exact Or.inr ⟨ex, by simpa using hqueue.symm⟩
        · rw [update_of_ne ex] at hqueue
          exact Or.inl (Or.inr (Or.inl hqueue))
      · exact Or.inl (Or.inr (Or.inr hidle))
    have howned := h.owned.push hrq cpu
    constructor
    case link => exact howned.link
    case nodup => exact howned.nodup
    case place =>
      intro d e x hd he
      rcases hAt d x hd with hd' | ⟨rfl, hd'⟩
      · rcases hAt e x he with he' | ⟨rfl, he'⟩
        · exact h.place d e x hd' he'
        · rw [he']
          exact hplace d hd'
      · rw [hd']
        rcases hAt e x he with he' | ⟨-, he'⟩
        · exact (hplace e he').symm
        · exact he'.symm
    case pcOk =>
      intro d
      refine (h.pcOk d).mono rfl rfl fun x hx => ?_
      have ex : x ≠ t := by
        rintro rfl
        rw [hrq] at hx
        simp at hx
      simp only [update_of_ne ex]
      exact hx
    case saved => exact h.saved

theorem publish {next : T} (h : Inv idle σ) (hp : σ.pc c = .publish next) :
    Inv idle { σ.setPc c (.save (σ.current c) next) with
      current := update σ.current c next } := by
  have hne : next ≠ σ.current c := by simpa [PcOk, hp] using h.pcOk c
  have hAt : ∀ d t, At idle { σ.setPc c (.save (σ.current c) next) with
      current := update σ.current c next } d t → At idle σ d t := by
    rintro d t (hhold | hrest)
    · by_cases e : d = c
      · subst e
        simp only [Holds, setPc_pc_self, update_self, Pc.incoming, Pc.outgoing,
          Option.some.injEq] at hhold
        rcases hhold with rfl | rfl | rfl
        · exact Or.inl (Or.inr (Or.inl (by rw [hp]; rfl)))
        · exact Or.inl (Or.inr (Or.inl (by rw [hp]; rfl)))
        · exact Or.inl (Or.inl rfl)
      · simp only [Holds, setPc_pc_of_ne σ c _ e, update_of_ne e] at hhold
        exact Or.inl hhold
    · exact Or.inr hrest
  refine ⟨h.link, h.nodup, fun d e t hd he => h.place d e t (hAt d t hd) (hAt e t he), ?_, ?_⟩
  · intro d
    by_cases e : d = c
    · subst e
      simp only [PcOk, setPc_pc_self, update_self, and_true]
      exact Ne.symm hne
    · exact (h.pcOk d).mono (update_of_ne e ..) (setPc_pc_of_ne σ c _ e) fun _ hx => hx
  intro t ht
  obtain ⟨d, hd⟩ := h.saved t ht
  refine ⟨d, ?_⟩
  by_cases e : d = c
  · subst e
    simpa [executing, hp] using hd
  · simpa only [executing, setPc_pc_of_ne σ c _ e, update_of_ne e] using hd

end Inv

end Lnxrm.Sched
