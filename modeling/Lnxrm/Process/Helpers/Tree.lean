import Lnxrm.Process.Helpers.Settled
import Lnxrm.Process.History

/-!
# The process tree under fork, exit and wait

Proof layer. `TreeOk` is about the parent pointers: they designate used
slots, and a zombie has no children, unless it is `init`, whose slot is
never freed. `LogOk` is about the events: what has exited and was not
returned is a zombie with its code in its slot. Both are kept by each of
the three calls, and by whatever the scheduler does.
-/

namespace Lnxrm.Process

open Function

variable {n N : ℕ} {idle : Fin n → Fin N} {σ σ' : Kernel n N} {i t : Fin N} {c : Fin n}
  {h : History n N}

/-! ## What one operation does -/

/-- The slots in use hold what they held. -/
structure Kept (σ σ' : Kernel n N) : Prop where
  unused : ∀ t, σ'.state t = .unused ↔ σ.state t = .unused
  zombie : ∀ t, σ'.state t = .zombie ↔ σ.state t = .zombie
  parent : ∀ t, σ.state t ≠ .unused → σ'.parent t = σ.parent t
  pid : ∀ t, σ.state t ≠ .unused → σ'.pid t = σ.pid t
  exitCode : σ'.exitCode = σ.exitCode

theorem Moves.kept (h : Moves σ σ') : Kept σ σ' :=
  ⟨h.unused, h.zombie, fun t _ => congrFun h.parent t, fun t _ => congrFun h.pid t, h.exitCode⟩

theorem Unforked.kept (h : Unforked σ σ') : Kept σ σ' :=
  ⟨fun t => by rw [h.state], fun t => by rw [h.state], h.parent, h.pid, h.exitCode⟩

theorem Forked.state_of_ne {cur ch : Fin N} (h : Forked σ cur ch σ') (ht : t ≠ ch) :
    σ'.state t = σ.state t := by
  rw [h.state, update_of_ne ht]

theorem Reaped.used {cur τ : Fin N} (h : Reaped σ cur t σ') (hτ : σ'.state τ ≠ .unused) :
    τ ≠ t ∧ σ'.state τ = σ.state τ ∧ σ.state τ ≠ .unused := by
  have hne : τ ≠ t := by
    rintro rfl
    rw [h.state, update_self] at hτ
    exact hτ rfl
  have hst : σ'.state τ = σ.state τ := by rw [h.state, update_of_ne hne]
  exact ⟨hne, hst, hst ▸ hτ⟩

/-- **What an operation does** to the history. -/
inductive Did (h : History n N) : Fin n × Act N → History n N → Prop
  | kept {l : Fin n × Act N} {σ : Kernel n N} (kept : Kept h.kernel σ)
      (count : σ.pidCounter = h.kernel.pidCounter ∨
        (∃ copied, l.2 = .fork copied) ∧ σ.pidCounter = h.kernel.pidCounter + 1) :
      Did h l { h with kernel := σ }
  | forked {c : Fin n} {copied : Bool} {ch : Fin N} {σ : Kernel n N}
      (forked : Forked h.kernel (h.kernel.current c) ch σ) :
      Did h (c, .fork copied) (h.forked c (some ch, σ))
  | exited {c : Fin n} {code : Int} {σ : Kernel n N}
      (exited : Exited h.kernel (h.kernel.current c) code σ) :
      Did h (c, .exit code) (h.exited c code σ)
  | reaped {c : Fin n} {wpid : Option (BitVec 32)} {nohang : Bool} {t : Fin N} {σ : Kernel n N}
      (reaped : Reaped h.kernel (h.kernel.current c) t σ) :
      Did h (c, .wait wpid nohang) (h.waited c (.reaped t (h.kernel.exitCode t), σ))

/-- **One operation** returns, and keeps every task in one place. -/
theorem advance_spec (hinj : Injective idle) (hp : Placed idle h.kernel)
    (hr : AllRunning h.kernel) {l : Fin n × Act N} (hl : Calls idle h l) :
    ∃ h', advance idle h l = some h' ∧ Placed idle h'.kernel ∧ AllRunning h'.kernel ∧
      Did h l h' := by
  obtain ⟨c, act⟩ := l
  have hmoves : ∀ σ, Placed idle σ → AllRunning σ → Moves h.kernel σ →
      Placed idle σ ∧ AllRunning σ ∧ Did h (c, act) { h with kernel := σ } :=
    fun σ hp hr hm => ⟨hp, hr, .kept hm.kept (Or.inl hm.pidCounter)⟩
  have hwakes : ∀ σ, Wakes idle h.kernel σ →
      Placed idle σ ∧ AllRunning σ ∧ Did h (c, act) { h with kernel := σ } :=
    fun σ hw => hmoves σ hw.placed (hw.running _ hr) hw.toMoves
  cases act with
  | fork copied =>
    obtain ⟨⟨r, σ⟩, heq, hp, hr, hspec⟩ := hp.fork hr c copied
    refine ⟨h.forked c (r, σ), by simp only [advance, heq]; rfl, ?_⟩
    cases r with
    | none =>
      have hu : Unforked h.kernel σ := hspec
      exact ⟨hp, hr, .kept hu.kept (hu.pidCounter.imp id fun e => ⟨⟨copied, rfl⟩, e⟩)⟩
    | some ch => exact ⟨hp, hr, .forked hspec⟩
  | exit code =>
    obtain ⟨σ, heq, hp, hr, he⟩ := hp.exit hinj hr c hl code
    exact ⟨h.exited c code σ, by simp only [advance, heq]; rfl, hp, hr, .exited he⟩
  | wait wpid nohang =>
    obtain ⟨⟨r, σ⟩, heq, hp, hr, hspec⟩ := hp.wait hinj hr c hl wpid nohang
    refine ⟨h.waited c (r, σ), by simp only [advance, heq]; rfl, ?_⟩
    cases r with
    | reaped t code =>
      obtain ⟨rfl, hreap⟩ : code = h.kernel.exitCode t ∧ Reaped h.kernel (h.kernel.current c) t σ :=
        hspec
      exact ⟨hp, hr, .reaped hreap⟩
    | noChild | nothing | asleep => exact hmoves σ hp hr hspec
  | schedule =>
    obtain ⟨σ, heq, hp, hr, hm⟩ := hp.schedule hinj (c := c) (fun d _ => hr d id)
      (by simp [hr c id])
    exact ⟨_, by simp only [advance, heq]; rfl, hmoves σ hp hr hm⟩
  | tick jiffies => exact ⟨_, rfl, hwakes _ (Placed.tickFrom jiffies c _ hp hr)⟩
  | signal t sig => exact ⟨_, rfl, hwakes _ (hp.sendSignal hr c t sig)⟩
  | push w => exact ⟨_, rfl, hwakes _ (hp.inputPush hr c w)⟩

/-! ## The tree -/

/-- The parent pointers, with `init` in the slot `i`: they designate used
slots, and zombies have no children, with `init` as the exception. -/
structure TreeOk (idle : Fin n → Fin N) (i : Fin N) (σ : Kernel n N) : Prop where
  initPid : σ.pid i = 1
  initUsed : σ.state i ≠ .unused
  initRoot : σ.parent i = none
  initIdle : ∀ d, idle d ≠ i
  below : ∀ t, t < i → (∃ d, idle d = t) ∨ σ.state t = .unused ∧ t.val = 0
  idleRoot : ∀ d, σ.parent (idle d) = none
  parentUsed : ∀ t p, σ.state t ≠ .unused → σ.parent t = some p →
    σ.state p ≠ .unused ∧ (∀ d, idle d ≠ p) ∧ p ≠ t
  zombies : ∀ t p, σ.state t ≠ .unused → σ.parent t = some p → σ.state p = .zombie → p = i

theorem finRange_find {p : Fin N → Bool} (hi : p i = true) (hbelow : ∀ t, t < i → p t = false) :
    (List.finRange N).find? p = some i := by
  rw [List.find?_eq_some_iff_getElem]
  refine ⟨hi, i.val, by simp, by simp, fun j hj => ?_⟩
  have := hbelow ⟨j, by omega⟩ hj
  simp [this]

namespace TreeOk

/-- **`find_task(1)` is `init`**: in front of it there are idle tasks only. -/
theorem findTask_init (h : TreeOk idle i σ) (hpid : ∀ d, σ.pid (idle d) = 0) :
    findTask σ 1 = some i := by
  refine finRange_find (by simp [h.initUsed, h.initPid]) fun t ht => ?_
  rcases h.below t ht with ⟨d, rfl⟩ | ⟨hu, -⟩
  · simp [hpid d]
  · simp [hu]

theorem reparent_eq (h : TreeOk idle i σ) (hpid : ∀ d, σ.pid (idle d) = 0) (cur : Fin N) :
    (reparent σ cur).parent = fun t =>
      if σ.state t ≠ .unused ∧ t ≠ cur ∧ σ.parent t = some cur then some i else σ.parent t := by
  funext t
  simp only [reparent, h.findTask_init hpid]

theorem of_kept (h : TreeOk idle i σ) (hk : Kept σ σ') (hidle : ∀ d, σ.state (idle d) ≠ .unused) :
    TreeOk idle i σ' where
  initPid := (hk.pid i h.initUsed).trans h.initPid
  initUsed := fun e => h.initUsed ((hk.unused i).mp e)
  initRoot := (hk.parent i h.initUsed).trans h.initRoot
  initIdle := h.initIdle
  below t ht := (h.below t ht).imp id fun e => ⟨(hk.unused t).mpr e.1, e.2⟩
  idleRoot d := (hk.parent _ (hidle d)).trans (h.idleRoot d)
  parentUsed t p ht hp := by
    have ht' := fun e => ht ((hk.unused t).mpr e)
    rw [hk.parent t ht'] at hp
    obtain ⟨hu, hrest⟩ := h.parentUsed t p ht' hp
    exact ⟨fun e => hu ((hk.unused p).mp e), hrest⟩
  zombies t p ht hp hz := by
    have ht' := fun e => ht ((hk.unused t).mpr e)
    rw [hk.parent t ht'] at hp
    exact h.zombies t p ht' hp ((hk.zombie p).mp hz)

theorem forked {cur ch : Fin N} (h : TreeOk idle i σ) (hf : Forked σ cur ch σ')
    (hcur : σ.state cur = .running) (hidle : ∀ d, idle d ≠ cur)
    (hch : ∀ d, idle d ≠ ch) : TreeOk idle i σ' := by
  have hich : i ≠ ch := fun e => h.initUsed (e ▸ hf.free)
  have hcurch : cur ≠ ch := by
    rintro rfl
    rw [hf.free] at hcur
    cases hcur
  have hst : ∀ t, t ≠ ch → σ'.state t = σ.state t := fun t ht => hf.state_of_ne ht
  have hpar : ∀ t, t ≠ ch → σ'.parent t = σ.parent t := fun t ht => by
    rw [hf.parent, update_of_ne ht]
  have hkin : ∀ t p, σ'.state t ≠ .unused → σ'.parent t = some p →
      (σ'.state p ≠ .unused ∧ (∀ d, idle d ≠ p) ∧ p ≠ t) ∧ (σ'.state p = .zombie → p = i) := by
    intro t p ht hp
    by_cases htch : t = ch
    · subst htch
      rw [hf.parent, update_self] at hp
      cases hp
      rw [hst cur hcurch, hcur]
      exact ⟨⟨by simp, hidle, hcurch⟩, nofun⟩
    · rw [hst t htch] at ht
      rw [hpar t htch] at hp
      have hu := h.parentUsed t p ht hp
      rw [hst p fun e => hu.1 (e ▸ hf.free)]
      exact ⟨hu, h.zombies t p ht hp⟩
  refine ⟨?_, ?_, ?_, h.initIdle, fun t ht => ?_, fun d => ?_, fun t p ht hp => (hkin t p ht hp).1,
    fun t p ht hp => (hkin t p ht hp).2⟩
  · rw [hf.pid i hich]
    exact h.initPid
  · rw [hst i hich]
    exact h.initUsed
  · rw [hpar i hich]
    exact h.initRoot
  · refine (h.below t ht).imp id fun e => ⟨?_, e.2⟩
    have : t ≠ ch := by
      rintro rfl
      exact hf.slot e.2
    rw [hst t this]
    exact e.1
  · rw [hpar _ (hch d)]
    exact h.idleRoot d

theorem exited {cur : Fin N} {code : Int} (h : TreeOk idle i σ)
    (he : Exited σ cur code σ') (hpid : ∀ d, σ.pid (idle d) = 0) : TreeOk idle i σ' := by
  have hpar : ∀ t, σ'.parent t =
      if σ.state t ≠ .unused ∧ t ≠ cur ∧ σ.parent t = some cur then some i else σ.parent t :=
    fun t => by rw [he.parent, h.reparent_eq hpid]
  have hused : ∀ t, σ'.state t ≠ .unused ↔ σ.state t ≠ .unused := fun t => not_congr (he.unused t)
  refine ⟨?_, ?_, ?_, h.initIdle, fun t ht => ?_, fun d => ?_, fun t p ht hp => ?_,
    fun t p ht hp hz => ?_⟩
  · rw [he.pid]
    exact h.initPid
  · exact (hused i).mpr h.initUsed
  · rw [hpar, if_neg (by simp [h.initRoot])]
    exact h.initRoot
  · exact (h.below t ht).imp id fun e => ⟨(he.unused t).mpr e.1, e.2⟩
  · rw [hpar, if_neg (by simp [h.idleRoot d])]
    exact h.idleRoot d
  · rw [hused] at ht ⊢
    rw [hpar] at hp
    split at hp
    · rename_i hmoved
      cases hp
      refine ⟨h.initUsed, h.initIdle, ?_⟩
      rintro rfl
      rw [h.initRoot] at hmoved
      cases hmoved.2.2
    · exact h.parentUsed t p ht hp
  rw [hused] at ht
  rw [hpar] at hp
  split at hp
  · cases hp
    rfl
  rename_i hstays
  rcases (he.zombie p).mp hz with rfl | hz
  · -- a child that stayed with the task is the task itself
    have htp : t = p := by
      by_contra hne
      exact hstays ⟨ht, hne, hp⟩
    exact absurd htp.symm (h.parentUsed t p ht hp).2.2
  · exact h.zombies t p ht hp hz

theorem reaped {cur : Fin N} (h : TreeOk idle i σ) (hr : Reaped σ cur t σ') : TreeOk idle i σ' := by
  have hit : i ≠ t := by
    rintro rfl
    have := hr.child
    rw [h.initRoot] at this
    cases this
  have hst : ∀ τ, τ ≠ t → σ'.state τ = σ.state τ := fun τ hτ => by
    rw [hr.state, update_of_ne hτ]
  have hkin : ∀ τ p, σ'.state τ ≠ .unused → σ'.parent τ = some p →
      (σ'.state p ≠ .unused ∧ (∀ d, idle d ≠ p) ∧ p ≠ τ) ∧ (σ'.state p = .zombie → p = i) := by
    intro τ p hτ hp
    obtain ⟨-, -, hτ'⟩ := hr.used hτ
    rw [hr.sameTree.parent] at hp
    have hpt : p ≠ t := by
      rintro rfl
      exact hit (h.zombies τ p hτ' hp hr.zombie).symm
    rw [hst p hpt]
    exact ⟨h.parentUsed τ p hτ' hp, h.zombies τ p hτ' hp⟩
  refine ⟨?_, ?_, ?_, h.initIdle, fun τ hτ => ?_, fun d => ?_, fun τ p hτ hp => (hkin τ p hτ hp).1,
    fun τ p hτ hp => (hkin τ p hτ hp).2⟩
  · rw [hr.sameTree.pid]
    exact h.initPid
  · rw [hst i hit]
    exact h.initUsed
  · rw [hr.sameTree.parent]
    exact h.initRoot
  · refine (h.below τ hτ).imp id fun e => ⟨?_, e.2⟩
    have hne : τ ≠ t := by
      rintro rfl
      rw [hr.zombie] at e
      cases e.1
    rw [hst τ hne]
    exact e.1
  · rw [hr.sameTree.parent]
    exact h.idleRoot d

end TreeOk

/-- The log: a process exits once and is returned once, after that and with
the code of its exit; a zombie has exited and was not returned yet. -/
structure LogOk (idle : Fin n → Fin N) (h : History n N) : Prop where
  fresh : ∀ x, h.created ≤ x → exits x h.log = [] ∧ returns x h.log = []
  ident_lt : ∀ t, (∀ d, idle d ≠ t) → h.kernel.state t ≠ .unused → h.ident t < h.created
  ident_inj : ∀ t u, (∀ d, idle d ≠ t) → (∀ d, idle d ≠ u) → h.kernel.state t ≠ .unused →
    h.kernel.state u ≠ .unused → h.ident t = h.ident u → t = u
  alive : ∀ t, (∀ d, idle d ≠ t) → h.kernel.state t ≠ .unused → h.kernel.state t ≠ .zombie →
    exits (h.ident t) h.log = [] ∧ returns (h.ident t) h.log = []
  dead : ∀ t, h.kernel.state t = .zombie →
    exits (h.ident t) h.log = [h.kernel.exitCode t] ∧ returns (h.ident t) h.log = []
  once : ∀ x, returns x h.log = [] ∨ ∃ code, exits x h.log = [code] ∧ returns x h.log = [code]
  toParent : ∀ x code waiter parent, Event.returned x code waiter parent ∈ h.log →
    parent = some waiter
  kin : ∀ t, (∀ d, idle d ≠ t) → h.kernel.state t ≠ .unused →
    h.parentOf (h.ident t) = (h.kernel.parent t).map h.ident

namespace LogOk

theorem of_kept (hl : LogOk idle h) (hk : Kept h.kernel σ) : LogOk idle { h with kernel := σ } where
  fresh := hl.fresh
  ident_lt t ht hu := hl.ident_lt t ht fun e => hu ((hk.unused t).mpr e)
  ident_inj t u ht hu ht' hu' := hl.ident_inj t u ht hu (fun e => ht' ((hk.unused t).mpr e))
    fun e => hu' ((hk.unused u).mpr e)
  alive t ht hu hz := hl.alive t ht (fun e => hu ((hk.unused t).mpr e))
    fun e => hz ((hk.zombie t).mpr e)
  dead t hz := by
    rw [hk.exitCode]
    exact hl.dead t ((hk.zombie t).mp hz)
  once := hl.once
  toParent := hl.toParent
  kin t ht hu := by
    have hu' := fun e => hu ((hk.unused t).mpr e)
    rw [hk.parent t hu']
    exact hl.kin t ht hu'

theorem forked {ch : Fin N} (ht : TreeOk idle i h.kernel) (hl : LogOk idle h)
    (hf : Forked h.kernel (h.kernel.current c) ch σ)
    (hcur : h.kernel.state (h.kernel.current c) = .running) (hch : ∀ d, idle d ≠ ch) :
    LogOk idle (h.forked c (some ch, σ)) := by
  have hst : ∀ t, t ≠ ch → σ.state t = h.kernel.state t := fun t ht => hf.state_of_ne ht
  have hnew : σ.state ch = .runnable := by rw [hf.state, update_self]
  have hid : ∀ t, t ≠ ch → update h.ident ch h.created t = h.ident t :=
    fun t ht => update_of_ne ht _ _
  have hidch : update h.ident ch h.created ch = h.created := update_self ..
  have hcurch : h.kernel.current c ≠ ch := by
    intro e
    rw [e, hf.free] at hcur
    cases hcur
  refine ⟨fun x hx => ?_, fun t hti htu => ?_, fun t u hti hui htu huu e => ?_,
    fun t hti htu htz => ?_, fun t hz => ?_, hl.once, hl.toParent, fun t hti htu => ?_⟩
  · have hx' : h.created + 1 ≤ x := hx
    exact hl.fresh x (by omega)
  · show update h.ident ch h.created t < h.created + 1
    by_cases e : t = ch
    · rw [e, hidch]
      omega
    · rw [hid t e]
      have := hl.ident_lt t hti (by rw [← hst t e]; exact htu)
      omega
  · have e' : update h.ident ch h.created t = update h.ident ch h.created u := e
    by_cases et : t = ch
    · by_cases eu : u = ch
      · rw [et, eu]
      · rw [et, hidch, hid u eu] at e'
        have := hl.ident_lt u hui (by rw [← hst u eu]; exact huu)
        omega
    by_cases eu : u = ch
    · rw [eu, hidch, hid t et] at e'
      have := hl.ident_lt t hti (by rw [← hst t et]; exact htu)
      omega
    · rw [hid t et, hid u eu] at e'
      exact hl.ident_inj t u hti hui (by rw [← hst t et]; exact htu)
        (by rw [← hst u eu]; exact huu) e'
  · show exits (update h.ident ch h.created t) h.log = [] ∧
      returns (update h.ident ch h.created t) h.log = []
    by_cases e : t = ch
    · rw [e, hidch]
      exact hl.fresh _ le_rfl
    · rw [hid t e]
      exact hl.alive t hti (by rw [← hst t e]; exact htu) (by rw [← hst t e]; exact htz)
  · have e : t ≠ ch := by
      rintro rfl
      have hz' : σ.state t = .zombie := hz
      rw [hnew] at hz'
      cases hz'
    show exits (update h.ident ch h.created t) h.log = [σ.exitCode t] ∧
      returns (update h.ident ch h.created t) h.log = []
    rw [hid t e, hf.exitCode]
    exact hl.dead t (by rw [← hst t e]; exact hz)
  show update h.parentOf h.created (some (h.ident (h.kernel.current c)))
      (update h.ident ch h.created t) =
    (σ.parent t).map (update h.ident ch h.created)
  by_cases e : t = ch
  · rw [e, hidch, update_self, hf.parent, update_self, Option.map_some, hid _ hcurch]
  have htu' : h.kernel.state t ≠ .unused := by rw [← hst t e]; exact htu
  have hlt := hl.ident_lt t hti htu'
  rw [hid t e, update_of_ne (by omega), hf.parent, update_of_ne e,
    hl.kin t hti htu']
  cases hp : h.kernel.parent t with
  | none => rfl
  | some p =>
    -- the slot of the new process was free, so it is nobody's parent
    have hpch : p ≠ ch := fun e' => (ht.parentUsed t p htu' hp).1 (e' ▸ hf.free)
    simp only [Option.map_some, hid p hpch]

theorem exited {code : Int} (ht : TreeOk idle i h.kernel) (hl : LogOk idle h)
    (he : Exited h.kernel (h.kernel.current c) code σ)
    (hcur : h.kernel.state (h.kernel.current c) = .running)
    (hidle : ∀ d, idle d ≠ h.kernel.current c) (hpid : ∀ d, h.kernel.pid (idle d) = 0)
    (hinit : h.ident i = 0) (hq : ∀ d, h.kernel.state (idle d) = .running) :
    LogOk idle (h.exited c code σ) := by
  have hused : ∀ t, σ.state t ≠ .unused ↔ h.kernel.state t ≠ .unused := fun t =>
    not_congr (he.unused t)
  have hcurused : h.kernel.state (h.kernel.current c) ≠ .unused := by simp [hcur]
  obtain ⟨hnoexit, hnoret⟩ := hl.alive _ hidle hcurused (by simp [hcur])
  have hlog : (h.exited c code σ).log = .exited (h.ident (h.kernel.current c)) code :: h.log := rfl
  have hex : ∀ x, exits x (h.exited c code σ).log =
      if h.ident (h.kernel.current c) = x then code :: exits x h.log else exits x h.log :=
    fun x => rfl
  have hret : ∀ x, returns x (h.exited c code σ).log = returns x h.log := fun x => rfl
  refine ⟨fun x hx => ?_, fun t hti htu => hl.ident_lt t hti ((hused t).mp htu),
    fun t u hti hui htu huu => hl.ident_inj t u hti hui ((hused t).mp htu) ((hused u).mp huu),
    fun t hti htu htz => ?_, fun t hz => ?_, fun x => ?_, fun x code' waiter parent hm => ?_,
    fun t hti htu => ?_⟩
  · have hlt := hl.ident_lt _ hidle hcurused
    have hx' : h.created ≤ x := hx
    rw [hex, hret, if_neg (by omega)]
    exact hl.fresh x hx'
  · have htz' : ¬ (t = h.kernel.current c ∨ h.kernel.state t = .zombie) := fun e =>
      htz ((he.zombie t).mpr e)
    rw [not_or] at htz'
    have hne : h.ident (h.kernel.current c) ≠ h.ident t := fun e =>
      htz'.1 (hl.ident_inj _ _ hidle hti hcurused ((hused t).mp htu) e).symm
    show exits (h.ident t) (h.exited c code σ).log = [] ∧ _
    rw [hex, if_neg hne, hret]
    exact hl.alive t hti ((hused t).mp htu) htz'.2
  · show exits (h.ident t) (h.exited c code σ).log = [σ.exitCode t] ∧
      returns (h.ident t) (h.exited c code σ).log = []
    rw [hex, hret, he.exitCode]
    by_cases e : t = h.kernel.current c
    · subst e
      rw [if_pos rfl, update_self, hnoexit]
      exact ⟨rfl, hnoret⟩
    have hz' : h.kernel.state t = .zombie := ((he.zombie t).mp hz).resolve_left e
    have hti : ∀ d, idle d ≠ t := by
      rintro d rfl
      rw [hq d] at hz'
      cases hz'
    have hne : h.ident (h.kernel.current c) ≠ h.ident t := fun e' =>
      e (hl.ident_inj _ _ hidle hti hcurused (by simp [hz']) e').symm
    rw [if_neg hne, update_of_ne e]
    exact hl.dead t hz'
  · rw [hret, hex]
    by_cases e : h.ident (h.kernel.current c) = x
    · subst e
      exact Or.inl hnoret
    · rw [if_neg e]
      exact hl.once x
  · rw [hlog, List.mem_cons] at hm
    rcases hm with hm | hm
    · cases hm
    · exact hl.toParent x code' waiter parent hm
  have htu' := (hused t).mp htu
  have hkin := hl.kin t hti htu'
  show (if h.parentOf (h.ident t) = some (h.ident (h.kernel.current c)) then some 0
    else h.parentOf (h.ident t)) = (σ.parent t).map h.ident
  have hpar : σ.parent t = if h.kernel.state t ≠ .unused ∧ t ≠ h.kernel.current c ∧
      h.kernel.parent t = some (h.kernel.current c) then some i else h.kernel.parent t := by
    rw [he.parent, ht.reparent_eq hpid]
  rw [hpar, hkin]
  cases hp : h.kernel.parent t with
  | none => simp
  | some p =>
    obtain ⟨hpu, hpi, hpt⟩ := ht.parentUsed t p htu' hp
    simp only [Option.map_some, Option.some.injEq]
    by_cases e : p = h.kernel.current c
    · subst e
      rw [if_pos rfl, if_pos ⟨htu', hpt.symm, rfl⟩, Option.map_some, hinit]
    · have hne : h.ident p ≠ h.ident (h.kernel.current c) := fun e' =>
        e (hl.ident_inj _ _ hpi hidle hpu hcurused e')
      rw [if_neg hne, if_neg fun hh => e hh.2.2, Option.map_some]

theorem reaped (hl : LogOk idle h) (hr : Reaped h.kernel (h.kernel.current c) t σ)
    (hq : ∀ d, h.kernel.state (idle d) = .running) :
    LogOk idle (h.waited c (.reaped t (h.kernel.exitCode t), σ)) := by
  have hidle : ∀ τ, h.kernel.state τ = .zombie → ∀ d, idle d ≠ τ := by
    rintro τ hz d rfl
    rw [hq d] at hz
    cases hz
  have hti := hidle t hr.zombie
  have htused : h.kernel.state t ≠ .unused := by simp [hr.zombie]
  obtain ⟨hexit, hnoret⟩ := hl.dead t hr.zombie
  have hlog : (h.waited c (.reaped t (h.kernel.exitCode t), σ)).log =
      .returned (h.ident t) (h.kernel.exitCode t) (h.ident (h.kernel.current c))
        (h.parentOf (h.ident t)) :: h.log := rfl
  have hex : ∀ x, exits x (h.waited c (.reaped t (h.kernel.exitCode t), σ)).log = exits x h.log :=
    fun x => rfl
  have hret : ∀ x, returns x (h.waited c (.reaped t (h.kernel.exitCode t), σ)).log =
      if h.ident t = x then h.kernel.exitCode t :: returns x h.log else returns x h.log :=
    fun x => rfl
  -- what is still in use is another process
  have hother : ∀ τ, (∀ d, idle d ≠ τ) → σ.state τ ≠ .unused → h.ident t ≠ h.ident τ := by
    intro τ hτi hτ e
    obtain ⟨hne, -, hτu⟩ := hr.used hτ
    exact hne (hl.ident_inj _ _ hti hτi htused hτu e).symm
  refine ⟨fun x hx => ?_, fun τ hτi hτ => hl.ident_lt τ hτi (hr.used hτ).2.2,
    fun τ u hτi hui hτ hu => hl.ident_inj τ u hτi hui (hr.used hτ).2.2 (hr.used hu).2.2,
    fun τ hτi hτ hz => ?_, fun τ hz => ?_, fun x => ?_, fun x code waiter parent hm => ?_,
    fun τ hτi hτ => ?_⟩
  · have hlt := hl.ident_lt t hti htused
    have hx' : h.created ≤ x := hx
    rw [hex, hret, if_neg (by omega)]
    exact hl.fresh x hx'
  · show exits (h.ident τ) (h.waited c _).log = [] ∧ returns (h.ident τ) (h.waited c _).log = []
    rw [hex, hret, if_neg (hother τ hτi hτ)]
    obtain ⟨-, hst, hτu⟩ := hr.used hτ
    exact hl.alive τ hτi hτu (hst ▸ hz)
  · have hz' : σ.state τ = .zombie := hz
    have hτ : σ.state τ ≠ .unused := by simp [hz']
    obtain ⟨-, hst, -⟩ := hr.used hτ
    show exits (h.ident τ) (h.waited c _).log = [σ.exitCode τ] ∧
      returns (h.ident τ) (h.waited c _).log = []
    have hzk : h.kernel.state τ = .zombie := hst.symm.trans hz'
    obtain ⟨hexτ, hretτ⟩ := hl.dead τ hzk
    rw [hex, hret, if_neg (hother τ (hidle τ hzk) hτ), hr.sameTree.exitCode]
    exact ⟨hexτ, hretτ⟩
  · rw [hex, hret]
    by_cases e : h.ident t = x
    · subst e
      rw [if_pos rfl, hexit, hnoret]
      exact Or.inr ⟨_, rfl, rfl⟩
    · rw [if_neg e]
      exact hl.once x
  · rw [hlog, List.mem_cons] at hm
    rcases hm with hm | hm
    · cases hm
      rw [hl.kin t hti htused, hr.child, Option.map_some]
    · exact hl.toParent x code waiter parent hm
  · show h.parentOf (h.ident τ) = (σ.parent τ).map h.ident
    rw [hr.sameTree.parent]
    exact hl.kin τ hτi (hr.used hτ).2.2

end LogOk

end Lnxrm.Process
