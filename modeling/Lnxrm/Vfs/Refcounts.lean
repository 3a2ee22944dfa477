import Lnxrm.Common.Run
import Lnxrm.Vfs.Model

/-!
# VFS — reference counts are exact

`vfs_close_file` frees a `struct file` when the count it finds says that the
reference given back is the last one. That is right only while the counts
are exact, across tasks that share files after `fork`, across `dup2` onto an
open descriptor, and on all four paths that close descriptors.

The balance is `Books` of the reference counting library. Inside an
operation a reference may be held by a local variable, or be copied and not
yet counted; between operations nothing is held (`Exact`), and a run of any
calls keeps it so (`refcounts_exact`).
-/

namespace Lnxrm.Vfs

open Function

variable {Ptr : Type} [DecidableEq Ptr] {s s' : Files Ptr} {t : Fin nrTasks} {held : Ptr → ℤ}

/-- The counts of the files in use. -/
def Files.count (s : Files Ptr) (p : Ptr) : Option ℤ := (s.file p).map File.refcnt

theorem count_setFile (s : Files Ptr) (p : Ptr) (f : Option File) :
    (s.setFile p f).count = update s.count p (f.map File.refcnt) := by
  funext q
  by_cases hq : q = p
  · subst hq
    simp [Files.count, Files.setFile]
  · simp [Files.count, Files.setFile, hq]

omit [DecidableEq Ptr] in
theorem get_of_count {p : Ptr} {n : ℤ} (h : s.count p = some n) :
    ∃ f, s.get p = .ok f ∧ f.refcnt = n := by
  unfold Files.count at h
  unfold Files.get
  cases hf : s.file p with
  | none => simp [hf] at h
  | some f =>
    rw [hf, Option.map_some, Option.some.injEq] at h
    exact ⟨f, rfl, h⟩

/-- The books of the open files, with the references `held` by the operation
that is under way. -/
def Balanced (s : Files Ptr) (held : Ptr → ℤ) : Prop := Books s.count s.fds held

/-! ## Files -/

/-- **`vfs_close_file`** gives back a reference that is held. -/
theorem vfsCloseFile_spec {p : Ptr} (h : Balanced s (held + Pi.single p 1)) (hheld : 0 ≤ held p) :
    ∃ s', vfsCloseFile s p = .ok s' ∧ Balanced s' held ∧ s'.fds = s.fds ∧ s'.state = s.state := by
  have hlive : ∃ n, s.count p = some n := by
    cases hc : s.count p with
    | some n => exact ⟨n, rfl⟩
    | none =>
      have hzero := (h.freed p hc).2
      rw [Pi.add_apply, Pi.single_eq_same] at hzero
      omega
  obtain ⟨n, hn⟩ := hlive
  obtain ⟨f, hget, rfl⟩ := get_of_count hn
  have hbooks := h.release hheld hn
  by_cases h1 : 1 < f.refcnt
  · refine ⟨s.setFile p (some { f with refcnt := f.refcnt - 1 }), ?_, ?_, rfl, rfl⟩
    · simp [vfsCloseFile, hget, h1, bind, Except.bind, pure, Except.pure]
    · rw [if_pos h1] at hbooks
      unfold Balanced
      rw [count_setFile]
      exact hbooks
  · refine ⟨s.setFile p none, ?_, ?_, rfl, rfl⟩
    · simp [vfsCloseFile, hget, h1, bind, Except.bind, pure, Except.pure]
    · rw [if_neg h1] at hbooks
      unfold Balanced
      rw [count_setFile]
      exact hbooks

/-- **Counting a reference** that has been copied. -/
theorem addRef_spec {p : Ptr} {n : ℤ} (h : Balanced s held) (hp : s.count p = some n) :
    ∃ s', addRef s p = .ok s' ∧ Balanced s' (held + Pi.single p 1) ∧ s'.fds = s.fds ∧
      s'.state = s.state := by
  obtain ⟨f, hget, rfl⟩ := get_of_count hp
  refine ⟨s.setFile p (some { f with refcnt := f.refcnt + 1 }), ?_, ?_, rfl, rfl⟩
  · simp [addRef, hget, bind, Except.bind, pure, Except.pure]
  · unfold Balanced
    rw [count_setFile]
    exact h.acquire hp

/-- **`vfs_open_file`** fails and changes nothing, or returns a file with the
one reference that the caller holds. -/
theorem vfsOpenFile_spec (h : Balanced s held) (look : Except ℤ VnodeType) (flags : BitVec 32)
    (mem : Kmalloc Ptr) :
    (∃ err, vfsOpenFile s look flags mem = (.error err, s)) ∨
      ∃ p s', vfsOpenFile s look flags mem = (.ok p, s') ∧
        Balanced s' (held + Pi.single p 1) ∧ s'.count p = some 1 ∧ s'.fds = s.fds ∧
        s'.state = s.state := by
  unfold vfsOpenFile
  cases look with
  | error err => exact Or.inl ⟨err, rfl⟩
  | ok type =>
    unfold fileAlloc
    cases hmem : mem.answer s.file with
    | none => exact Or.inl ⟨_, rfl⟩
    | some p =>
      have hfree : s.count p = none := by
        rw [Files.count, mem.fresh _ p hmem]
        rfl
      refine Or.inr ⟨p, _, rfl, ?_, ?_, rfl, rfl⟩
      · unfold Balanced
        rw [count_setFile]
        exact h.alloc hfree
      · rw [count_setFile, update_self]
        rfl

/-! ## Descriptors -/

theorem fdIndex_val (i : Fin nrFds) : fdIndex (i.val : ℤ) = some i := by
  have h : (0 : ℤ) ≤ (i.val : ℤ) ∧ (i.val : ℤ) < nrFds := by
    omega
  simp [fdIndex, h]

theorem Balanced.take (h : Balanced s held) {q : Fin nrTasks × Fin nrFds} {p : Ptr}
    (hq : s.fds q = some p) : Balanced (s.setFd q none) (held + Pi.single p 1) :=
  Books.take h hq

theorem Balanced.put (h : Balanced s held) {q : Fin nrTasks × Fin nrFds} {p : Ptr} {n : ℤ}
    (hq : s.fds q = none) (hp : s.count p = some n) :
    Balanced (s.setFd q (some p)) (held - Pi.single p 1) :=
  Books.put h hq hp

/-- **`sys_close`** empties the slot, and every other slot stays. -/
theorem sysClose_spec (h : Balanced s 0) (fd : ℤ) :
    ∃ r s', sysClose s t fd = .ok (r, s') ∧ Balanced s' 0 ∧ s'.state = s.state ∧
      (∀ u i, s.fds (u, i) = none → s'.fds (u, i) = none) ∧
      (∀ i, fdIndex fd = some i → s'.fds = update s.fds (t, i) none) := by
  unfold sysClose
  cases hfd : fdIndex fd with
  | none => exact ⟨_, s, rfl, h, rfl, fun _ _ hi => hi, fun _ hi => by cases hi⟩
  | some i =>
    cases hi : s.fds (t, i) with
    | none =>
      refine ⟨Errno.ebadf, s, by simp only [hi], h, rfl, fun _ _ hj => hj, ?_⟩
      rintro j ⟨⟩
      rw [← hi, update_eq_self]
    | some p =>
      have htaken : Balanced (s.setFd (t, i) none) (0 + Pi.single p 1) := h.take hi
      obtain ⟨s', hclose, hs', hfds, hstate⟩ := vfsCloseFile_spec htaken le_rfl
      refine ⟨0, s', ?_, hs', hstate, fun u j hj => ?_, ?_⟩
      · simp [hi, hclose, bind, Except.bind, pure, Except.pure]
      · rw [hfds]
        show update s.fds (t, i) none (u, j) = none
        by_cases hq : (u, j) = (t, i)
        · rw [hq, update_self]
        · rw [update_of_ne hq, hj]
      · rintro j ⟨⟩
        rw [hfds]
        rfl

/-! ## The invariant -/

/-- **Between two calls** the counts are exact, and a slot without a task
that runs has no descriptors. -/
structure Exact (s : Files Ptr) : Prop where
  books : Balanced s 0
  idle : ∀ t, ¬ s.Runs t → ∀ i, s.fds (t, i) = none

/-- An operation that fills no slot of another task, and starts or ends no
task. -/
theorem Exact.of_frame (h : Exact s) (hbooks : Balanced s' 0) (hstate : s'.state = s.state)
    (hrun : s.Runs t)
    (hother : ∀ u i, u ≠ t → s.fds (u, i) = none → s'.fds (u, i) = none) : Exact s' := by
  refine ⟨hbooks, fun u hu i => ?_⟩
  have hu' : ¬ s.Runs u := by
    unfold Files.Runs at hu ⊢
    rwa [hstate] at hu
  refine hother u i ?_ (h.idle u hu' i)
  rintro rfl
  exact hu' hrun

theorem sysClose_exact (h : Exact s) (hrun : s.Runs t) (fd : ℤ) :
    ∃ r s', sysClose s t fd = .ok (r, s') ∧ Exact s' := by
  obtain ⟨r, s', hclose, hs', hstate, hnone, -⟩ := sysClose_spec (t := t) h.books fd
  exact ⟨r, s', hclose, h.of_frame hs' hstate hrun fun u i _ hi => hnone u i hi⟩

theorem sysOpen_exact (h : Exact s) (hrun : s.Runs t) (look : Except ℤ VnodeType)
    (flags : BitVec 32) (mem : Kmalloc Ptr) :
    ∃ r s', sysOpen s t look flags mem = .ok (r, s') ∧ Exact s' := by
  unfold sysOpen
  rcases vfsOpenFile_spec h.books look flags mem with ⟨err, ho⟩ | ⟨p, s₁, ho, hs₁, hp, hfds, hstate⟩
  · rw [ho]
    exact ⟨err, s, rfl, h⟩
  rw [ho]
  cases hfree : freeFd s₁ t with
  | some i =>
    have hi : s₁.fds (t, i) = none := by
      simpa using List.find?_some hfree
    refine ⟨i.val, s₁.setFd (t, i) (some p), by simp [hfree], h.of_frame ?_ hstate hrun ?_⟩
    · have hput := hs₁.put hi hp
      rwa [add_sub_cancel_right] at hput
    · intro u j hu hj
      show update s₁.fds (t, i) (some p) (u, j) = none
      rw [update_of_ne (fun he => hu (congrArg Prod.fst he)), hfds, hj]
  | none =>
    obtain ⟨s₂, hclose, hs₂, hfds₂, hstate₂⟩ := vfsCloseFile_spec hs₁ le_rfl
    refine ⟨Errno.emfile, s₂, ?_, h.of_frame hs₂ (hstate₂.trans hstate) hrun ?_⟩
    · simp [hfree, hclose, bind, Except.bind, pure, Except.pure]
    · intro u j _ hj
      rw [hfds₂, hfds, hj]

/-- **Closing what is open** in a slot leaves it free. -/
theorem closeOpen_spec (h : Balanced s 0) (i : Fin nrFds) :
    ∃ s', closeOpen t s i = .ok s' ∧ Balanced s' 0 ∧ s'.state = s.state ∧
      s'.fds = update s.fds (t, i) none := by
  unfold closeOpen
  cases hslot : s.fds (t, i) with
  | none =>
    refine ⟨s, by simp, h, rfl, ?_⟩
    rw [← hslot, update_eq_self]
  | some p =>
    obtain ⟨r, s', hclose, hs', hstate, -, hfds⟩ := sysClose_spec (t := t) h (i.val : ℤ)
    exact ⟨s', by simp [hclose, Except.map], hs', hstate, hfds i (fdIndex_val i)⟩

theorem fdIndex_inj {fd fd' : ℤ} {i : Fin nrFds} (h : fdIndex fd = some i)
    (h' : fdIndex fd' = some i) : fd = fd' := by
  unfold fdIndex at h h'
  split_ifs at h h' with h1 h2
  have hval := congrArg (fun x : Option (Fin nrFds) => x.map Fin.val) (h.trans h'.symm)
  simp only [Option.map_some, Option.some.injEq] at hval
  omega

theorem sysDup2_exact (h : Exact s) (hrun : s.Runs t) (oldfd newfd : ℤ) :
    ∃ r s', sysDup2 s t oldfd newfd = .ok (r, s') ∧ Exact s' := by
  unfold sysDup2
  by_cases heq : oldfd = newfd
  · rw [if_pos heq]
    exact ⟨_, s, rfl, h⟩
  rw [if_neg heq]
  cases hold : fdGet s t oldfd with
  | none => exact ⟨_, s, rfl, h⟩
  | some p =>
    cases hnew : fdIndex newfd with
    | none => exact ⟨_, s, rfl, h⟩
    | some j =>
      obtain ⟨s₁, hclose, hs₁, hstate₁, hfds₁⟩ := closeOpen_spec (t := t) h.books j
      -- the file stays open through the old number, which is another slot
      obtain ⟨i, hi, hp⟩ : ∃ i, fdIndex oldfd = some i ∧ s.fds (t, i) = some p := by
        simpa [fdGet, Option.bind_eq_some_iff] using hold
      have hij : i ≠ j := by
        rintro rfl
        exact heq (fdIndex_inj hi hnew)
      have hp₁ : s₁.fds (t, i) = some p := by
        rw [hfds₁, update_of_ne (fun he => hij (congrArg Prod.snd he)), hp]
      have hj₁ : s₁.fds (t, j) = none := by
        rw [hfds₁, update_self]
      obtain ⟨n, hn⟩ := hs₁.count_of_slot hp₁
      obtain ⟨s₂, hadd, hs₂, hfds₂, hstate₂⟩ := addRef_spec (hs₁.put hj₁ hn) hn
      rw [sub_add_cancel] at hs₂
      refine ⟨newfd, s₂, ?_, h.of_frame hs₂ (hstate₂.trans hstate₁) hrun ?_⟩
      · simp only [hclose, hadd, bind, Except.bind, pure, Except.pure]
      · intro u k hu hk
        rw [hfds₂]
        show update s₁.fds (t, j) (some p) (u, k) = none
        rw [update_of_ne (fun he => hu (congrArg Prod.fst he)), hfds₁,
          update_of_ne (fun he => hu (congrArg Prod.fst he)), hk]

/-! ## Fork -/

/-- How often a pointer occurs in the slots of a list. -/
def owed (row : Fin nrFds → Option Ptr) (l : List (Fin nrFds)) (p : Ptr) : ℤ :=
  (l.countP fun i => row i = some p : ℕ)

theorem owed_finRange (row : Fin nrFds → Option Ptr) :
    owed row (List.finRange nrFds) = fun p => (refs row p : ℤ) := by
  funext p
  rw [owed, refs, Fin.univ_def, List.countP_eq_length_filter]
  simp [Finset.filter, Finset.card]

theorem owed_cons_none {row : Fin nrFds → Option Ptr} {i : Fin nrFds} (hi : row i = none)
    (l : List (Fin nrFds)) : owed row (i :: l) = owed row l := by
  funext q
  simp [owed, hi]

theorem owed_cons_some {row : Fin nrFds → Option Ptr} {i : Fin nrFds} {p : Ptr}
    (hi : row i = some p) (l : List (Fin nrFds)) :
    owed row (i :: l) = owed row l + Pi.single p 1 := by
  funext q
  by_cases hq : q = p
  · subst hq
    simp [owed, hi]
  · simp [owed, hi, hq, Ne.symm hq]

/-- **The loop of `sys_fork`** counts the copied references one by one. -/
theorem countFd_loop {ch : Fin nrTasks} (l : List (Fin nrFds)) :
    ∀ {s : Files Ptr}, Balanced s (-owed (fun i => s.fds (ch, i)) l) →
      ∃ s', l.foldlM (countFd ch) s = .ok s' ∧ Balanced s' 0 ∧ s'.fds = s.fds ∧
        s'.state = s.state := by
  induction l with
  | nil =>
    intro s h
    refine ⟨s, rfl, ?_, rfl, rfl⟩
    have hnil : (owed (fun i => s.fds (ch, i)) [] : Ptr → ℤ) = 0 := by
      funext p
      rfl
    rwa [hnil, neg_zero] at h
  | cons i l ih =>
    intro s h
    rw [List.foldlM_cons]
    cases hi : s.fds (ch, i) with
    | none =>
      rw [owed_cons_none hi] at h
      have hstep : countFd ch s i = .ok s := by
        rw [countFd, hi]
      rw [hstep]
      exact ih h
    | some p =>
      rw [owed_cons_some hi] at h
      obtain ⟨n, hn⟩ := h.count_of_slot hi
      obtain ⟨s₁, hadd, hs₁, hfds₁, hstate₁⟩ := addRef_spec h hn
      have hheld : -(owed (fun i => s.fds (ch, i)) l + Pi.single p 1) + Pi.single p 1 =
          -owed (fun i => s₁.fds (ch, i)) l := by
        rw [hfds₁, neg_add, neg_add_cancel_right]
      rw [hheld] at hs₁
      have hstep : countFd ch s i = .ok s₁ := by
        rw [countFd, hi]
        exact hadd
      obtain ⟨s', hrun, hs', hfds, hstate⟩ := ih hs₁
      rw [hstep]
      exact ⟨s', hrun, hs', hfds.trans hfds₁, hstate.trans hstate₁⟩

/-- **Cloning the table** of a task into a slot without descriptors. -/
theorem cloneFds_spec (h : Balanced s 0) {ch : Fin nrTasks} (hfree : ∀ i, s.fds (ch, i) = none) :
    ∃ s', cloneFds s t ch = .ok s' ∧ Balanced s' 0 ∧ s'.state = s.state ∧
      s'.fds = setRow s.fds ch fun i => s.fds (t, i) := by
  have hcopied : Balanced { s with fds := setRow s.fds ch fun i => s.fds (t, i) }
      (-owed (fun i => setRow s.fds ch (fun i => s.fds (t, i)) (ch, i)) (List.finRange nrFds)) := by
    have hrow : (fun i => setRow s.fds ch (fun i => s.fds (t, i)) (ch, i)) = fun i => s.fds (t, i) := by
      funext i
      rw [setRow, if_pos rfl]
    rw [hrow, owed_finRange, ← zero_sub]
    exact Books.copyRow h hfree t
  obtain ⟨s', hrun, hs', hfds, hstate⟩ := countFd_loop _ hcopied
  exact ⟨s', hrun, hs', hstate, hfds⟩

theorem sysFork_exact (h : Exact s) (kstack dup : Bool) :
    ∃ r s', sysFork s t kstack dup = .ok (r, s') ∧ Exact s' := by
  unfold sysFork
  cases hslot : taskAllocSlot s with
  | none => exact ⟨_, s, rfl, h⟩
  | some ch =>
    have hunused : s.state ch = .unused := by
      have := List.find?_some hslot
      simp only [ne_eq, decide_eq_true_eq] at this
      exact this.2
    have hidle : ¬ s.Runs ch := fun hr => hr.1 hunused
    cases kstack with
    | false => exact ⟨_, s, rfl, h⟩
    | true =>
      have hpid : Exact { s with pidCounter := s.pidCounter + 1 } := ⟨h.books, h.idle⟩
      cases dup with
      | false => exact ⟨_, _, rfl, hpid⟩
      | true =>
        obtain ⟨s', hclone, hs', hstate, hfds⟩ := cloneFds_spec (t := t) hpid.books (h.idle ch hidle)
        refine ⟨(s.pidCounter + 1).toInt, s'.setState ch .runnable, ?_, hs', fun u hu i => ?_⟩
        · simp only [Bool.not_true, Bool.false_eq_true, if_false, hclone, bind, Except.bind, pure,
            Except.pure]
        -- the child runs now; for every other slot nothing has changed
        have hne : u ≠ ch := by
          rintro rfl
          exact hu (by simp [Files.Runs, Files.setState])
        have hu' : ¬ s.Runs u := by
          simpa [Files.Runs, Files.setState, hne, hstate] using hu
        show s'.fds (u, i) = none
        rw [hfds]
        simpa [setRow, hne] using h.idle u hu' i

/-! ## Execve and exit -/

theorem closeCloexec_exact (h : Exact s) (hrun : s.Runs t) (i : Fin nrFds) :
    ∃ s', closeCloexec t s i = .ok s' ∧ Exact s' ∧ s'.state = s.state := by
  unfold closeCloexec
  cases hi : s.fds (t, i) with
  | none => exact ⟨s, rfl, h, rfl⟩
  | some p =>
    obtain ⟨n, hn⟩ := h.books.count_of_slot hi
    obtain ⟨f, hget, -⟩ := get_of_count hn
    simp only [hget]
    by_cases hflag : f.flags &&& oCloexec ≠ 0
    · obtain ⟨r, s', hclose, hs', hstate, hnone, -⟩ := sysClose_spec (t := t) h.books (i.val : ℤ)
      rw [if_pos hflag, hclose]
      exact ⟨s', rfl, h.of_frame hs' hstate hrun fun u j _ hj => hnone u j hj, hstate⟩
    · rw [if_neg hflag]
      exact ⟨s, rfl, h, rfl⟩

theorem sysExecve_exact (h : Exact s) (hrun : s.Runs t) (x : Exec Ptr) :
    ∃ r s', sysExecve s t x = .ok (r, s') ∧ Exact s' := by
  unfold sysExecve
  cases hx : x.copied with
  | false => exact ⟨_, s, rfl, h⟩
  | true =>
    rcases vfsOpenFile_spec h.books x.look oRdonly x.mem with
      ⟨err, ho⟩ | ⟨p, s₁, ho, hs₁, -, hfds₁, hstate₁⟩
    · rw [ho]
      exact ⟨err, s, rfl, h⟩
    obtain ⟨s₂, hclose, hs₂, hfds₂, hstate₂⟩ := vfsCloseFile_spec hs₁ le_rfl
    have hexact₂ : Exact s₂ := h.of_frame hs₂ (hstate₂.trans hstate₁) hrun fun u i _ hi => by
      rw [hfds₂, hfds₁, hi]
    have hrun₂ : s₂.Runs t := by
      unfold Files.Runs
      rwa [hstate₂, hstate₁]
    obtain ⟨s₃, hloop, hexact₃, -⟩ := foldlM_total (I := fun s => Exact s ∧ s.Runs t)
      (fun s i hs => by
        obtain ⟨s', hs', hexact, hstate⟩ := closeCloexec_exact hs.1 hs.2 i
        exact ⟨s', hs', hexact, by unfold Files.Runs; rw [hstate]; exact hs.2⟩)
      (List.finRange nrFds) ⟨hexact₂, hrun₂⟩
    simp only [ho, Bool.not_true, Bool.false_eq_true, if_false, hclose, bind, Except.bind]
    cases x.image with
    | error err => exact ⟨err, s₂, rfl, hexact₂⟩
    | ok _ =>
      cases x.load with
      | error err => exact ⟨err, s₂, rfl, hexact₂⟩
      | ok _ =>
        simp only [hloop]
        exact ⟨0, s₃, rfl, hexact₃⟩

/-- **The loop of `sys_exit`** empties the slots of the list, and fills
none. -/
theorem closeOpen_loop (l : List (Fin nrFds)) : ∀ {s : Files Ptr}, Balanced s 0 →
      ∃ s', l.foldlM (closeOpen t) s = .ok s' ∧ Balanced s' 0 ∧ s'.state = s.state ∧
        (∀ q, s.fds q = none → s'.fds q = none) ∧ ∀ i ∈ l, s'.fds (t, i) = none := by
  induction l with
  | nil =>
    intro s h
    exact ⟨s, rfl, h, rfl, fun _ hq => hq, fun i hi => by cases hi⟩
  | cons i l ih =>
    intro s h
    obtain ⟨s₁, hclose, hs₁, hstate₁, hfds₁⟩ := closeOpen_spec (t := t) h i
    obtain ⟨s', hloop, hs', hstate, hnone, hall⟩ := ih hs₁
    have hkeep : ∀ q, s.fds q = none → s₁.fds q = none := by
      intro q hq
      by_cases hqi : q = (t, i)
      · rw [hfds₁, hqi, update_self]
      · rw [hfds₁, update_of_ne hqi, hq]
    refine ⟨s', by rw [List.foldlM_cons, hclose]; exact hloop, hs', hstate.trans hstate₁,
      fun q hq => hnone q (hkeep q hq), fun j hj => ?_⟩
    rcases List.mem_cons.mp hj with rfl | hj
    · exact hnone _ (by rw [hfds₁, update_self])
    · exact hall j hj

theorem sysExit_exact (h : Exact s) : ∃ s', sysExit s t = .ok s' ∧ Exact s' := by
  obtain ⟨s₁, hloop, hs₁, hstate, hnone, hall⟩ :=
    closeOpen_loop (t := t) (List.finRange nrFds) h.books
  refine ⟨s₁.setState t .zombie, ?_, hs₁, fun u hu i => ?_⟩
  · simp [sysExit, hloop, bind, Except.bind, pure, Except.pure]
  by_cases hut : u = t
  · subst hut
    exact hall i (List.mem_finRange i)
  · have hu' : ¬ s.Runs u := by
      simpa [Files.Runs, Files.setState, hut, hstate] using hu
    exact hnone _ (h.idle u hu' i)

theorem reap_exact (h : Exact s) (u : Fin nrTasks) : Exact (reap s u) := by
  unfold reap
  split_ifs with hz
  · refine ⟨h.books, fun v hv i => h.idle v (fun hr => ?_) i⟩
    have hne : v ≠ u := by
      rintro rfl
      exact hr.2.2 hz
    exact hv (by simpa [Files.Runs, Files.setState, hne] using hr)
  · exact h

/-! ## Runs -/

/-- **One call** touches no freed file and keeps the counts exact. -/
theorem step_exact (h : Exact s) (r : Fin nrTasks × Call Ptr) :
    ∃ a s', step s r = .ok (a, s') ∧ Exact s' := by
  obtain ⟨t, c⟩ := r
  by_cases hrun : s.Runs t
  · rw [step, if_pos hrun]
    cases c with
    | «open» look flags mem =>
      obtain ⟨r, s', hs', hexact⟩ := sysOpen_exact h hrun look flags mem
      exact ⟨some r, s', by rw [call, hs']; rfl, hexact⟩
    | close fd =>
      obtain ⟨r, s', hs', hexact⟩ := sysClose_exact h hrun fd
      exact ⟨some r, s', by rw [call, hs']; rfl, hexact⟩
    | dup2 oldfd newfd =>
      obtain ⟨r, s', hs', hexact⟩ := sysDup2_exact h hrun oldfd newfd
      exact ⟨some r, s', by rw [call, hs']; rfl, hexact⟩
    | fork kstack dup =>
      obtain ⟨r, s', hs', hexact⟩ := sysFork_exact (t := t) h kstack dup
      exact ⟨some r, s', by rw [call, hs']; rfl, hexact⟩
    | execve x =>
      obtain ⟨r, s', hs', hexact⟩ := sysExecve_exact h hrun x
      exact ⟨some r, s', by rw [call, hs']; rfl, hexact⟩
    | exit =>
      obtain ⟨s', hs', hexact⟩ := sysExit_exact (t := t) h
      exact ⟨none, s', by rw [call, hs']; rfl, hexact⟩
    | reap u => exact ⟨some 0, reap s u, rfl, reap_exact h u⟩
  · exact ⟨none, s, by rw [step, if_neg hrun], h⟩

theorem boot_exact (state : Fin nrTasks → TaskState) (pidCounter : BitVec 32) :
    Exact (boot state pidCounter : Files Ptr) := by
  refine ⟨⟨fun p n hp => ?_, fun p _ => ⟨?_, rfl⟩⟩, fun _ _ _ => rfl⟩
  · simp [Files.count, boot] at hp
  · exact refs_eq_zero.mpr fun q hq => by simp [boot] at hq

/-- **Reference counts are exact.** However tasks open, close, duplicate and
inherit descriptors, replace their image and exit, no call touches a freed
`struct file`; in the state reached the count of each file is the number of
descriptors that point at it, a file has been freed exactly when none does,
and no descriptor points at a freed one. -/
theorem refcounts_exact (state : Fin nrTasks → TaskState) (pidCounter : BitVec 32)
    (calls : List (Fin nrTasks × Call Ptr)) :
    ∃ answers s, runTry step (boot state pidCounter) calls = .ok (answers, s) ∧
      (∀ p f, s.file p = some f → f.refcnt = refs s.fds p) ∧
      (∀ p, s.file p = none ↔ refs s.fds p = 0) ∧
      ∀ q p, s.fds q = some p → (s.file p).isSome := by
  obtain ⟨answers, s, hs, hexact⟩ := runTry_total (fun s r hs => step_exact hs r) calls
    (boot_exact state pidCounter)
  have hcount : ∀ p, (s.file p).map File.refcnt =
      if refs s.fds p = 0 then none else some (refs s.fds p : ℤ) := hexact.books.exact
  refine ⟨answers, s, hs, fun p f hf => ?_, fun p => ?_, fun q p hq => ?_⟩
  · have := hcount p
    rw [hf, Option.map_some] at this
    split_ifs at this with h0
    exact Option.some.inj this
  · have := hcount p
    by_cases h0 : refs s.fds p = 0
    · rw [if_pos h0, Option.map_eq_none_iff] at this
      exact ⟨fun _ => h0, fun _ => this⟩
    · rw [if_neg h0] at this
      refine ⟨fun hn => ?_, fun h => absurd h h0⟩
      rw [hn] at this
      cases this
  · have := hcount p
    rw [if_neg (fun h0 => refs_eq_zero.mp h0 q hq)] at this
    cases hf : s.file p with
    | none => rw [hf] at this; cases this
    | some f => rfl

/-- **No file is leaked.** Whatever tasks call, a `struct file` that is in use
is open at a descriptor of a task that runs: what exits leaves none behind. -/
theorem no_file_leaked (state : Fin nrTasks → TaskState) (pidCounter : BitVec 32)
    (calls : List (Fin nrTasks × Call Ptr)) :
    ∃ answers s, runTry step (boot state pidCounter) calls = .ok (answers, s) ∧
      ∀ p, s.file p ≠ none → ∃ t i, s.Runs t ∧ s.fds (t, i) = some p := by
  obtain ⟨answers, s, hs, hexact⟩ := runTry_total (fun s r hs => step_exact hs r) calls
    (boot_exact state pidCounter)
  refine ⟨answers, s, hs, fun p hp => ?_⟩
  by_contra hno
  have hrefs : refs s.fds p = 0 := refs_eq_zero.mpr fun q hq => by
    have hrun : s.Runs q.1 := by
      by_contra hidle
      rw [show q = (q.1, q.2) from rfl, hexact.idle q.1 hidle q.2] at hq
      cases hq
    exact hno ⟨q.1, q.2, hrun, hq⟩
  have hfree : s.count p = none := (hexact.books.exact p).trans (if_pos hrefs)
  exact hp (Option.map_eq_none_iff.mp hfree)

end Lnxrm.Vfs
