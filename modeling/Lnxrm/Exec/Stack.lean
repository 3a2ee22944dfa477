import Lnxrm.Exec.Alignment

/-!
# The initial stack of a program

`_start` finds its arguments at the stack pointer: their number, a pointer
to each of them and a null pointer, then the null pointer that ends the
environment and the zero that ends the auxiliary vector. `decodeStack` reads
user memory that way, and after a successful `sys_execve` it yields the
strings that the caller has passed: `execve_stack`.
-/

namespace Lnxrm.Exec

open Vmm List

variable {A : Type} {B : Buddy A} {s : Vm A} {root turns a : ℕ} {code : Page} {p p' : Proc A}

/-! ## Reading user memory -/

/-- The word at an address -/
def userWord (s : Vm A) (root a : ℕ) : Option ℕ :=
  ((List.range 8).mapM fun j => userByte s root (a + j)).map leNat

/-- The string at an address, of fewer than `n` bytes -/
def userString (s : Vm A) (root : ℕ) : ℕ → ℕ → Option (List UInt8)
  | 0, _ => none
  | n + 1, a => do
    let b ← userByte s root a
    if b = 0 then return []
    return b :: (← userString s root n (a + 1))

/-- What `_start` finds at its stack pointer -/
structure Entry where
  argc : ℕ
  argv : List (List UInt8)
  /-- the words after the last pointer: the end of `argv`, of `envp` and of
  the auxiliary vector -/
  ends : List ℕ
deriving DecidableEq, Repr

/-- The stack, read from its pointer on -/
def decodeStack (s : Vm A) (root sp : ℕ) : Option Entry := do
  let argc ← userWord s root sp
  let argv ← (List.range argc).mapM fun i => do
    userString s root 64 (← userWord s root (sp + 8 + 8 * i))
  let ends ← (List.range 3).mapM fun i => userWord s root (sp + 8 + 8 * argc + 8 * i)
  return ⟨argc, argv, ends⟩

/-- An address and a size: the words from the stack pointer on, with the
pointers in one piece, and the strings -/
def blocks (sp : ℕ) (ptrs : List ℕ) (args : List (List UInt8)) : List (ℕ × ℕ) :=
  (sp, 8 + 8 * args.length) :: (sp + 8 + 8 * args.length, 8) :: (sp + 16 + 8 * args.length, 8) ::
    (sp + 24 + 8 * args.length, 8) :: ptrs.zip (args.map fun str => str.length + 1)

theorem mapM_some {α β : Type} {f : α → Option β} {g : α → β} (l : List α) :
    (∀ x ∈ l, f x = some (g x)) → l.mapM f = some (l.map g) := by
  induction l with
  | nil => intro _; rfl
  | cons x l ih =>
    intro h
    rw [mapM_cons, h x (mem_cons_self ..), ih fun y hy => h y (mem_cons_of_mem _ hy)]
    rfl

theorem map_getD_range {α : Type} (d : α) (l : List α) :
    (List.range l.length).map (fun i => l.getD i d) = l := by
  refine ext_getElem (by simp) fun i h₁ h₂ => ?_
  rw [getElem_map, getElem_range, getD_eq_getElem _ _ h₂]

/-! ## What is held is read -/

theorem userWord_holds {v : ℕ} (h : Holds s root a (wordBytes v)) (hv : v < 2 ^ 64) :
    userWord s root a = some v := by
  have hbytes : (List.range 8).mapM (fun j => userByte s root (a + j)) = some (wordBytes v) := by
    rw [mapM_some (g := fun j => (wordBytes v).getD j 0) (List.range 8) fun j hj => ?_]
    · have hmap := map_getD_range 0 (wordBytes v)
      rw [wordBytes_length] at hmap
      rw [hmap]
    · exact (h j (by rw [wordBytes_length]; exact mem_range.mp hj)).2.2
  unfold userWord
  rw [hbytes, Option.map_some, leNat_wordBytes hv]

theorem userString_holds (str : List UInt8) : ∀ {a n : ℕ}, Holds s root a (str ++ [0]) → 0 ∉ str →
    str.length < n → userString s root n a = some str := by
  induction str with
  | nil =>
    intro a n h _ hn
    obtain ⟨n, rfl⟩ : ∃ k, n = k + 1 := ⟨n - 1, by omega⟩
    have hb : userByte s root a = some 0 := (h 0 (Nat.succ_pos _)).2.2
    rw [userString, hb]
    rfl
  | cons b str ih =>
    intro a n h h0 hn
    obtain ⟨n, rfl⟩ : ∃ k, n = k + 1 := ⟨n - 1, by omega⟩
    rw [mem_cons, not_or] at h0
    rw [length_cons] at hn
    have hb : userByte s root a = some b := (h 0 (Nat.succ_pos _)).2.2
    rw [userString, hb, ih h.tail h0.2 (by omega)]
    show (if b = 0 then some [] else some (b :: str)) = some (b :: str)
    rw [if_neg (Ne.symm h0.1)]

/-- **Words and strings in their places are decoded.** -/
theorem decodeStack_holds {sp : ℕ} {args : List (List UInt8)} (ptrs : List ℕ)
    (hargs : Fitting args) (h0 : ∀ str ∈ args, 0 ∉ str)
    (hargc : Holds s root sp (wordBytes args.length))
    (hargv : ∀ i, i < args.length → ptrs.getD i 0 < 2 ^ 64 ∧
      Holds s root (sp + 8 + 8 * i) (wordBytes (ptrs.getD i 0)) ∧
      Holds s root (ptrs.getD i 0) (args.getD i [] ++ [0]))
    (hends : ∀ i, i < 3 → Holds s root (sp + 8 + 8 * args.length + 8 * i) (wordBytes 0)) :
    decodeStack s root sp = some ⟨args.length, args, [0, 0, 0]⟩ := by
  have hn : args.length < 2 ^ 64 := hargs.1.trans_lt (by decide)
  have hstrings : (List.range args.length).mapM (fun i => do
      userString s root 64 (← userWord s root (sp + 8 + 8 * i))) = some args := by
    rw [mapM_some (g := fun i => args.getD i []) (List.range args.length) fun i hi => ?_,
      map_getD_range]
    have hi := mem_range.mp hi
    obtain ⟨hlt, hptr, hstr⟩ := hargv i hi
    have hmem : args.getD i [] ∈ args := by
      rw [getD_eq_getElem _ _ hi]
      exact getElem_mem hi
    rw [userWord_holds hptr hlt]
    exact userString_holds _ hstr (h0 _ hmem) (Nat.lt_succ_of_le (hargs.2 _ hmem))
  have hwords : (List.range 3).mapM (fun i => userWord s root (sp + 8 + 8 * args.length + 8 * i)) =
      some [0, 0, 0] :=
    mapM_some (g := fun _ => 0) (List.range 3) fun i hi =>
      userWord_holds (hends i (mem_range.mp hi)) (by decide)
  unfold decodeStack
  rw [userWord_holds hargc hn]
  show Option.bind ((List.range args.length).mapM _) _ = _
  rw [hstrings]
  rw [hwords]
  rfl

/-! ## The stores of `sys_execve` -/

variable {img : List UInt8} {args : List (List UInt8)} {s₃ s₄ : Vm A}

theorem userByte_of_space (h : Sound B root s) {x : ℕ} (hx : InSlot x) {y : Bool × UInt8}
    (hy : space s root x = some y) : userByte s root x = some y.2 := by
  rw [space_slot h.tree hx] at hy
  obtain ⟨e, hl, rfl⟩ := Option.map_eq_some_iff.mp hy
  rw [userByte_slot h.tree hx, hl]
  rfl

/-- **What has been stored is there.** -/
theorem Started.holds (h : Started B img args root s₃ s₄) (hargs : Fitting args) {w : Write}
    (hw : w ∈ argWrites args) : Holds s₄ root w.1 w.2 := by
  intro j hj
  obtain ⟨hlo, hhi, -⟩ := argWrites_in hargs w hw
  have htop : userStackTop = 0x7fffffbff000 := rfl
  have hx : InSlot (w.1 + j) := inSlot_stack (by omega) (by omega)
  obtain ⟨y, hy⟩ := Option.isSome_iff_exists.mp (h.stack (w.1 + j) (by omega) (by omega))
  have hspace := writeAll_apply (argWrites args) (argWrites_apart hargs) hy w hw ⟨by omega, by omega⟩
  rw [← h.space _ hx, Nat.add_sub_cancel_left] at hspace
  exact ⟨hx.1, by unfold userMaxVma; omega, userByte_of_space h.written.sound hx hspace⟩

/-- **The pointers, and where they point** -/
theorem Started.pointers (h : Started B img args root s₃ s₄) (hargs : Fitting args) {i : ℕ}
    (hi : i < args.length) : (argPtrs args).getD i 0 < 2 ^ 64 ∧
      Holds s₄ root (entrySp args + 8 + 8 * i) (wordBytes ((argPtrs args).getD i 0)) ∧
      Holds s₄ root ((argPtrs args).getD i 0) (args.getD i [] ++ [0]) := by
  have hstring := mem_stringWrites args i hi
  have hvector := mem_vectorWrites (argPtrs args) (a := entrySp args + 8) i
    (by rw [argPtrs_length]; exact hi)
  refine ⟨?_, h.holds hargs (w := (_, _)) ?_, h.holds hargs (w := (_, _)) ?_⟩
  · have hend := (stringWrites_in args hargs _ hstring).2.1
    have htop : userStackTop = 0x7fffffbff000 := rfl
    omega
  · unfold argWrites
    simp only [mem_cons, mem_append]
    exact Or.inr (Or.inr (Or.inr (Or.inr (Or.inr (Or.inl hvector)))))
  · exact mem_cons_of_mem _ (mem_append_left _ hstring)

theorem Started.decoded (h : Started B img args root s₃ s₄) (hargs : Fitting args)
    (h0 : ∀ str ∈ args, 0 ∉ str) :
    decodeStack s₄ root (entrySp args) = some ⟨args.length, args, [0, 0, 0]⟩ := by
  obtain ⟨-, -, hentry, -⟩ := layout hargs
  have hin : ∀ w, w ∈ argWrites args → Holds s₄ root w.1 w.2 := fun w hw => h.holds hargs hw
  refine decodeStack_holds (argPtrs args) hargs h0
    (hin (entrySp args, wordBytes args.length) (by simp [argWrites]))
    (fun i hi => h.pointers hargs hi) fun i hi => ?_
  obtain rfl | rfl | rfl : i = 0 ∨ i = 1 ∨ i = 2 := by omega
  · exact hin (entrySp args + 8 + 8 * args.length, wordBytes 0) (by simp [argWrites])
  · rw [show entrySp args + 8 + 8 * args.length + 8 * 1 = auxSp args by omega]
    exact hin (auxSp args, wordBytes 0) (by simp [argWrites])
  · rw [show entrySp args + 8 + 8 * args.length + 8 * 2 = auxSp args + 8 by omega]
    exact hin (auxSp args + 8, wordBytes 0) (by simp [argWrites])

theorem argWrites_gap (hargs : Fitting args) : ∀ w ∈ argWrites args,
    w.1 + w.2.length ≤ auxSp args + 16 ∨ stringsSp args ≤ w.1 := by
  obtain ⟨-, -, hentry, -⟩ := layout hargs
  have hstr := (stringsSp_bounds args hargs).2
  intro w hw
  unfold argWrites at hw
  simp only [mem_cons, mem_append, not_mem_nil, or_false] at hw
  rcases hw with rfl | hw | rfl | rfl | rfl | hw | rfl
  · exact Or.inr (by omega)
  · exact Or.inr (stringWrites_in args hargs w hw).1
  · exact Or.inl (by rw [wordBytes_length]; omega)
  · exact Or.inl (by rw [wordBytes_length])
  · exact Or.inl (by rw [wordBytes_length]; omega)
  · obtain ⟨-, hhi, hlen⟩ := vectorWrites_in _ w hw
    rw [argPtrs_length] at hhi
    exact Or.inl (by omega)
  · exact Or.inl (by rw [wordBytes_length]; omega)

/-- The word there is that of a fresh page, unless a segment has put one
there. -/
theorem Started.blank (h : Started B img args root s₃ s₄) (hargs : Fitting args)
    (hsegs : ∀ ph ∈ segments img, ph.malformed img.length = false)
    (hmiss : ∀ ph ∈ segments img, ∀ x, auxSp args + 16 ≤ x → x < auxSp args + 24 → ph.Misses x) :
    userWord s₄ root (auxSp args + 16) = some 0 := by
  obtain ⟨haux, -, hentry, htop⟩ := layout hargs
  have hstr := (stringsSp_bounds args hargs).2
  refine userWord_holds (fun j hj => ?_) (by decide)
  rw [wordBytes_length] at hj
  have hnum : userStackTop = 0x7fffffbff000 := rfl
  generalize hxj : auxSp args + 16 + j = x
  have hx : InSlot x := inSlot_stack (by omega) (by omega)
  have hzero : (wordBytes 0).getD j 0 = 0 := by
    unfold wordBytes
    rw [getD_eq_getElem _ _ (by rw [length_map, length_range]; exact hj),
      getElem_map]
    exact wordByte_zero _
  have hprogram : programSpace img x = some (true, 0) := by
    refine loadAll_keeps _ ?_ fun ph hph => ⟨hsegs ph hph, hmiss ph hph x (by omega) (by omega)⟩
    unfold Space.addPages
    rw [if_pos ⟨by omega, by omega, by unfold userMaxVma; omega⟩]
    rfl
  have hspace : Vmm.space s₄ root x = some (true, 0) := by
    rw [h.space x hx, writeAll_of_not _ fun w hw hcov => ?_,
      h.space₃ x hx (Or.inr (by rw [hprogram]; rfl)), hprogram]
    have hgap := argWrites_gap hargs w hw
    unfold Write.Covers at hcov
    omega
  rw [hzero]
  exact ⟨hx.1, by unfold userMaxVma; omega, userByte_of_space h.written.sound hx hspace⟩

/-- The strings lie between the words and the top of the stack, each below
the one before it. -/
theorem strings_apart (args : List (List UInt8)) : Fitting args →
    ((argPtrs args).zip (args.map fun str => str.length + 1)).Pairwise
      (fun b c => b.1 + b.2 ≤ c.1) ∧
    ∀ b ∈ (argPtrs args).zip (args.map fun str => str.length + 1),
      stringsSp args ≤ b.1 ∧ b.1 + b.2 + 64 ≤ userStackTop := by
  induction args with
  | nil => intro _; exact ⟨List.Pairwise.nil, fun _ hb => absurd hb not_mem_nil⟩
  | cons str strs ih =>
    intro h
    obtain ⟨hpair, hin⟩ := ih h.tail
    have hcons := stringsSp_cons h
    have hstr := (stringsSp_bounds strs h.tail).2
    refine ⟨pairwise_cons.mpr ⟨fun c hc => ?_, hpair⟩, fun b hb => ?_⟩
    · rw [hcons]
      exact (hin c hc).1
    · rcases mem_cons.mp hb with rfl | hb
      · exact ⟨le_rfl, by show stringsSp (str :: strs) + (str.length + 1) + 64 ≤ _; omega⟩
      · obtain ⟨hlo, hhi⟩ := hin b hb
        exact ⟨by omega, hhi⟩

/-- **The blocks do not overlap**, and they lie in the stack. -/
theorem blocks_apart (hargs : Fitting args) : (blocks (entrySp args) (argPtrs args) args).Pairwise
        (fun b c => b.1 + b.2 ≤ c.1 ∨ c.1 + c.2 ≤ b.1) ∧
      ∀ b ∈ blocks (entrySp args) (argPtrs args) args,
        userStackTop - 0x4000 ≤ b.1 ∧ b.1 + b.2 ≤ userStackTop := by
  obtain ⟨haux, -, hentry, htop⟩ := layout hargs
  have hstr := (stringsSp_bounds args hargs).2
  obtain ⟨hpair, hin⟩ := strings_apart args hargs
  unfold blocks
  simp only [pairwise_cons, mem_cons, forall_eq_or_imp]
  refine ⟨⟨⟨by omega, by omega, by omega, fun c hc => ?_⟩, ⟨by omega, by omega, fun c hc => ?_⟩,
    ⟨by omega, fun c hc => ?_⟩, fun c hc => ?_, hpair.imp fun h => Or.inl h⟩,
    ⟨by omega, by omega⟩, ⟨by omega, by omega⟩, ⟨by omega, by omega⟩, ⟨by omega, by omega⟩,
    fun c hc => ?_⟩
  · have := (hin c hc).1
    omega
  · have := (hin c hc).1
    omega
  · have := (hin c hc).1
    omega
  · have := (hin c hc).1
    omega
  · have := hin c hc
    omega

/-- **The initial stack decodes to the arguments.** -/
theorem execve_stack {file : List UInt8 → Except Int (List UInt8)} {upath uargv : BitVec 64}
    (hc : Caller B p.pml4 p.vm) (hturns : pageTurns ≤ turns) (hfile : Refuses file)
    (hlen : args.length ≤ 16) (hstr : ∀ str ∈ args, str.length ≤ 63 ∧ 0 ∉ str)
    (hargs : Passes p.vm p.pml4 uargv args)
    (hok : sysExecve B turns file code p upath uargv = .ok (0, p')) :
    decodeStack p'.vm p'.pml4 p'.tf.ussp.toNat = some ⟨args.length, args, [0, 0, 0]⟩ ∧
      (∃ ptrs : List ℕ, ptrs.length = args.length ∧ (∀ i, i < args.length →
          userWord p'.vm p'.pml4 (p'.tf.ussp.toNat + 8 + 8 * i) = some (ptrs.getD i 0)) ∧
        (blocks p'.tf.ussp.toNat ptrs args).Pairwise
          (fun b c => b.1 + b.2 ≤ c.1 ∨ c.1 + c.2 ≤ b.1) ∧
        ∀ b ∈ blocks p'.tf.ussp.toNat ptrs args,
          userStackTop - 0x4000 ≤ b.1 ∧ b.1 + b.2 ≤ userStackTop) ∧
      ∃ path img, file path = .ok img ∧
        ((∀ ph ∈ segments img, ∀ x, p'.tf.ussp.toNat + 32 + 8 * args.length ≤ x →
            x < p'.tf.ussp.toNat + 40 + 8 * args.length → ph.Misses x) →
          userWord p'.vm p'.pml4 (p'.tf.ussp.toNat + 32 + 8 * args.length) = some 0) := by
  have hexec := execArgs_eq hc.sound hturns hargs hlen hstr
  have hfit := execArgs_fitting hexec
  have hussp := execve_ussp hfile hexec hok
  obtain ⟨path, argv, img, hexec', himg, himage⟩ := sysExecve_ok hfile hok
  obtain rfl : argv = args := Except.ok.inj (hexec'.symm.trans hexec)
  obtain ⟨root, entry, brkEnd, sp, s₀, s₁, s₂, s₃, s₄, hst, rfl⟩ := execImage_iff.mp himage
  obtain ⟨hstarted, -, -, hsegs⟩ := hst.spec hc hfit
  obtain ⟨-, -, hentry, -⟩ := layout hfit
  rw [hussp]
  refine ⟨hstarted.decoded hfit fun str hs => (hstr str hs).2, ⟨argPtrs argv, argPtrs_length argv,
    fun i hi => ?_, blocks_apart hfit⟩, path, img, himg, fun hmiss => ?_⟩
  · obtain ⟨hlt, hptr, -⟩ := hstarted.pointers hfit hi
    exact userWord_holds hptr hlt
  · rw [show entrySp argv + 32 + 8 * argv.length = auxSp argv + 16 by omega]
    refine hstarted.blank hfit (fun ph hph => (hsegs ph hph).2) fun ph hph x hlo hhi => ?_
    exact hmiss ph hph x (by omega) (by omega)

theorem caller_passes : Passes caller.vm caller.pml4 0x7f8000000008 [[0x61]] := by
  refine Or.inr ⟨fun i hi => ?_, fun _ => by decide +kernel⟩
  obtain rfl : i = 0 := by simpa using hi
  exact ⟨0x7f8000000020, by decide, by decide, by decide +kernel, by decide +kernel⟩

/-- The program finds the one argument. -/
theorem one_argument_decoded :
    ∃ p', sysExecve smallBuddy pageTurns (fun _ => .ok onePageImage) (fun _ => 0) caller
        0x7f8000000000 0x7f8000000008 = .ok (0, p') ∧
      decodeStack p'.vm p'.pml4 p'.tf.ussp.toNat = some ⟨1, [[0x61]], [0, 0, 0]⟩ := by
  have hstr : ∀ str ∈ ([[0x61]] : List (List UInt8)), str.length ≤ 63 ∧ 0 ∉ str := by decide
  have hargs := execArgs_eq caller_ready.sound le_rfl caller_passes (by decide) hstr
  have hrun : (loadRun smallBuddy caller.vm onePageImage 5).toOption =
      some (true, 0x7f8000400000, 0x7f8000401000, true) := by decide +kernel
  obtain ⟨root, s, hok, -, -⟩ := caller_execs (ok_of_toOption (by decide +kernel)) hargs hrun le_rfl
    (by decide)
  exact ⟨_, hok, (execve_stack caller_ready le_rfl (refuses_ok _) (by decide) hstr caller_passes
    hok).1⟩

end Lnxrm.Exec
