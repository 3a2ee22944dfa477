import Lnxrm.Common.Owned
import Lnxrm.Process.Model
import Mathlib.Data.Fintype.Card

/-!
# The run queues under the scheduler's operations

Proof layer. `Queues σ q` says that the links of each CPU run through the
tasks of `q c`, each of them once, and that `rq_cpu` tells which queue a
task is on. `runqueue_add` puts a task in front of one of them and
`runqueue_remove` returns and takes out exactly its argument; both leave
everything but the queue fields as it was, so later proofs see a queue
operation as a change of `rq_cpu`.
-/

namespace Lnxrm.Process

open Function

variable {n N : ℕ} {idle : Fin n → Fin N} {σ : Kernel n N} {q : Fin n → List (Fin N)}
  {c : Fin n} {t : Fin N}

/-- **The run queues are in order.** -/
structure Queues (σ : Kernel n N) (q : Fin n → List (Fin N)) : Prop where
  /-- from `runq_head` the links run through the tasks and back -/
  ring : ∀ c, Ring σ.rqNext (.head c) (.head c) ((q c).map .task)
  /-- no task is met twice -/
  nodup : ∀ c, (q c).Nodup
  /-- a task is on a queue exactly if it says so -/
  link : ∀ c t, t ∈ q c ↔ σ.rqCpu t = some c

namespace Queues

theorem mem_map_task {l : List (Fin N)} : Node.task (n := n) t ∈ l.map .task ↔ t ∈ l := by
  simp

theorem head_not_mem (c : Fin n) (l : List (Fin N)) : Node.head (N := N) c ∉ l.map .task := by
  simp

theorem nodup_map {l : List (Fin N)} (h : l.Nodup) : (l.map (Node.task (n := n))).Nodup :=
  h.map fun _ _ e => by cases e; rfl

theorem length_le {l : List (Fin N)} (h : l.Nodup) : (l.map (Node.task (n := n))).length ≤ N + 1 := by
  have hcard := h.length_le_card
  rw [Fintype.card_fin] at hcard
  rw [List.length_map]
  omega

theorem congr {σ' : Kernel n N} (h : Queues σ q) (hnext : σ'.rqNext = σ.rqNext)
    (hcpu : σ'.rqCpu = σ.rqCpu) : Queues σ' q where
  ring c := hnext ▸ h.ring c
  nodup := h.nodup
  link c t := hcpu ▸ h.link c t

theorem pickNext_eq (h : Queues σ q) (c : Fin n) : pickNext σ c = (q c).head? := by
  have hr := h.ring c
  unfold pickNext
  cases hq : q c with
  | nil =>
    rw [hq] at hr
    have hnext : σ.rqNext (.head c) = some (.head c) := hr
    rw [hnext]
    rfl
  | cons t l =>
    rw [hq] at hr
    rw [hr.1]
    rfl

theorem not_mem (h : Queues σ q) (ht : σ.rqCpu t = none) (c : Fin n) : t ∉ q c := by
  rw [h.link c t, ht]
  simp

theorem owned (h : Queues σ q) : Owned q σ.rqCpu := ⟨h.link, h.nodup⟩

/-- **Clearing the link of a task that is on no queue** changes none. -/
theorem clear (h : Queues σ q) (ht : σ.rqCpu t = none) : Queues (σ.offQueue t) q := by
  refine ⟨fun c => ?_, h.nodup, fun c x => ?_⟩
  · show Ring (update σ.rqNext (.task t) none) (.head c) (.head c) ((q c).map .task)
    refine (h.ring c).congr (update_of_ne (by simp) _ _) fun x hx => ?_
    refine update_of_ne ?_ _ _
    rintro rfl
    exact h.not_mem ht c (mem_map_task.mp hx)
  · show x ∈ q c ↔ update σ.rqCpu t none x = some c
    by_cases hx : x = t
    · subst hx
      rw [update_self, h.link c x, ht]
    · rw [update_of_ne hx, h.link c x]

/-- **`runqueue_add`** of a task that is on no queue. -/
theorem add (h : Queues σ q) (idle : Fin n → Fin N) (ht : σ.rqCpu t = none) (self : Fin n) :
    Queues (runqueueAdd idle σ self t)
      (update q (preferredCpu idle σ self) (t :: q (preferredCpu idle σ self))) := by
  unfold runqueueAdd
  rw [if_neg (by simp [ht])]
  generalize preferredCpu idle σ self = cpu
  have howned := h.owned.push ht cpu
  refine ⟨fun c => ?_, howned.nodup, howned.link⟩
  · by_cases hc : c = cpu
    · subst hc
      simp only [update_self, List.map_cons]
      exact (h.ring c).push (fun hm => h.not_mem ht c (mem_map_task.mp hm))
        (head_not_mem c _) (by simp)
    · simp only [update_of_ne hc]
      refine (h.ring c).congr ?_ fun x hx => ?_
      · rw [update_of_ne (by simpa using hc), update_of_ne (by simp)]
      · obtain ⟨y, hy, rfl⟩ := List.mem_map.mp hx
        have hyt : y ≠ t := fun e => h.not_mem ht c (e ▸ hy)
        rw [update_of_ne (by simp), update_of_ne (by simpa using hyt)]

/-- **`runqueue_remove` returns**, takes out its argument and nothing else,
and touches the queue fields only. -/
theorem remove (h : Queues σ q) (t : Fin N) : ∃ next', runqueueRemove σ t =
        some { σ with rqNext := next', rqCpu := update σ.rqCpu t none } ∧
      Queues { σ with rqNext := next', rqCpu := update σ.rqCpu t none }
        (fun c => (q c).erase t) := by
  cases hrq : σ.rqCpu t with
  | none =>
    refine ⟨update σ.rqNext (.task t) none, ?_, ?_⟩
    · unfold runqueueRemove
      rw [hrq]
      rfl
    · have herase : (fun c => (q c).erase t) = q :=
        funext fun c => List.erase_of_not_mem (h.not_mem hrq c)
      rw [herase]
      exact h.clear hrq
  | some owner =>
    have hmem : t ∈ q owner := (h.link owner t).mpr hrq
    obtain ⟨a, ha, hat, hfind, hnext, hring⟩ :=
      findPrev_ring (h.ring owner) (head_not_mem owner _) (nodup_map (h.nodup owner))
        (head_not_mem owner _) (mem_map_task.mpr hmem) (length_le (h.nodup owner))
    have hother : ∀ c, c ≠ owner → t ∉ q c := by
      intro c hc hm
      rw [h.link c t, hrq] at hm
      exact hc (Option.some.inj hm).symm
    have herase : ∀ l : List (Fin N),
        (l.map (Node.task (n := n))).erase (.task t) = (l.erase t).map .task := by
      intro l
      have hinj : Injective (Node.task (n := n) (N := N)) := fun _ _ e => by
        cases e
        rfl
      exact (List.map_erase hinj l).symm
    rw [herase] at hring
    refine ⟨update (update σ.rqNext a (σ.rqNext (.task t))) (.task t) none, ?_,
      fun c => ?_, (h.owned.erase t).nodup, (h.owned.erase t).link⟩
    · unfold runqueueRemove unlink
      rw [hrq]
      simp only [hfind, Option.map_some, hnext, if_true]
      rfl
    · by_cases hc : c = owner
      · subst hc
        show Ring (update (update σ.rqNext a (σ.rqNext (.task t))) (.task t) none)
          (.head c) (.head c) (((q c).erase t).map .task)
        refine hring.congr (update_of_ne (by simp) _ _) fun x hx => ?_
        refine update_of_ne ?_ _ _
        rintro rfl
        exact (h.nodup c).not_mem_erase (mem_map_task.mp hx)
      -- neither the node in front of `t` nor `t` lies on another queue
      rw [show (q c).erase t = q c from List.erase_of_not_mem (hother c hc)]
      have hout : ∀ y, y = Node.head c ∨ y ∈ (q c).map Node.task → y ≠ a ∧ y ≠ .task t := by
        rintro y (rfl | hy)
        · refine ⟨?_, by simp⟩
          rintro rfl
          simp [hc] at ha
        obtain ⟨z, hz, rfl⟩ := List.mem_map.mp hy
        refine ⟨?_, ?_⟩
        · rintro rfl
          have hzo : z ∈ q owner := by simpa using ha
          rw [h.link owner z] at hzo
          rw [h.link c z, hzo] at hz
          exact hc (Option.some.inj hz).symm
        · rintro e
          cases e
          exact hother c hc hz
      show Ring (update (update σ.rqNext a (σ.rqNext (.task t))) (.task t) none)
        (.head c) (.head c) ((q c).map .task)
      refine (h.ring c).congr ?_ fun y hy => ?_
      · have hy := hout _ (Or.inl rfl)
        rw [update_of_ne hy.2, update_of_ne hy.1]
      · have hy := hout y (Or.inr hy)
        rw [update_of_ne hy.2, update_of_ne hy.1]

end Queues

end Lnxrm.Process
