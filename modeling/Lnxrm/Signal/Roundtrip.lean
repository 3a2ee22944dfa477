import Lnxrm.Signal.Model

/-!
# A signal's round trip

`do_signal_check` lays the interrupted registers out on the user stack,
the handler returns into the trampoline, and `sys_sigreturn` reads the
registers back. `sys_sigreturn` undoes the layout exactly
(`sysSigreturn_of_frame`), but it runs as a system call itself: when it
comes back, `syscall_entry` stores its result `0` in the `rax` just
restored. So the round trip is the identity exactly where the interrupted
`rax` was `0` (`signal_transparent_iff`).
-/

namespace Lnxrm.Signal

variable {s s' u : Ctx} {tf regs : IntrFrame} {sig : ℕ}

/-- A trap frame of user code: the user selectors, reserved flag 1 and IF
set, IOPL 0, and code and stack pointer on mapped user pages. -/
structure UserFrame (translate : ℕ → ℕ) (tf : IntrFrame) : Prop where
  cs : tf.cs = 0x1B
  ss : tf.usss = 0x23
  reserved : tf.rflags.getLsbD 1 = true
  interrupts : tf.rflags.getLsbD 9 = true
  ioplLow : tf.rflags.getLsbD 12 = false
  ioplHigh : tf.rflags.getLsbD 13 = false
  rip : userPtrOk translate tf.rip 1 = true
  rsp : userPtrOk translate tf.ussp 1 = true

/-- The trap frames that resume an interrupted program alike: `rip`, `cs`,
`rflags`, `rsp`, `ss` and the fifteen general registers agree. -/
def SameProgram (f g : IntrFrame) : Prop :=
  f.rip = g.rip ∧ f.cs = g.cs ∧ f.rflags = g.rflags ∧ f.ussp = g.ussp ∧ f.usss = g.usss ∧
    f.rax = g.rax ∧ f.rbx = g.rbx ∧ f.rcx = g.rcx ∧ f.rdx = g.rdx ∧ f.rsi = g.rsi ∧
    f.rdi = g.rdi ∧ f.rbp = g.rbp ∧ f.r8 = g.r8 ∧ f.r9 = g.r9 ∧ f.r10 = g.r10 ∧
    f.r11 = g.r11 ∧ f.r12 = g.r12 ∧ f.r13 = g.r13 ∧ f.r14 = g.r14 ∧ f.r15 = g.r15

/-- The trap frame with which the interrupted program goes on, when the
kernel path comes back without entering another handler. -/
def Outcome.resumed : Outcome Delivery → Option IntrFrame
  | .ret .idle s => s.tf
  | _ => none

instance (f g : IntrFrame) : Decidable (SameProgram f g) := by
  unfold SameProgram
  infer_instance

/-- The flags of a user frame pass `sys_sigreturn` and `syscall_entry`
unchanged. -/
theorem UserFrame.flags_kept {translate : ℕ → ℕ} (h : UserFrame translate tf) :
    (tf.rflags ||| 0x2#64 ||| 0x200#64) &&& ~~~(3#64 <<< 12) ||| 0x200#64 = tf.rflags := by
  have h2 : 0x2#64 = BitVec.twoPow 64 1 := rfl
  have h200 : 0x200#64 = BitVec.twoPow 64 9 := rfl
  have h3000 : (3#64 <<< 12) = BitVec.twoPow 64 12 ||| BitVec.twoPow 64 13 := rfl
  obtain ⟨-, -, h1, h9, h12, h13, -, -⟩ := h
  rw [h2, h200, h3000]
  refine BitVec.eq_of_getLsbD_eq fun i hi => ?_
  simp only [BitVec.getLsbD_or, BitVec.getLsbD_and, BitVec.getLsbD_not, BitVec.getLsbD_twoPow, hi,
    decide_true, Bool.true_and]
  -- the four flags by what the frame has, every other bit by the masks
  by_cases e1 : 1 = i
  · subst e1
    rw [h1]
    decide
  by_cases e9 : 9 = i
  · subst e9
    rw [h9]
    decide
  by_cases e12 : 12 = i
  · subst e12
    rw [h12]
    decide
  by_cases e13 : 13 = i
  · subst e13
    rw [h13]
    decide
  simp [e1, e9, e12, e13]

/-- **What delivery leaves**: `do_signal_check` enters a handler only from
`deliver`, on the trap frame and the mappings it was called with. -/
theorem signalLoop_delivered {pending : BitVec 64} (htf : s.tf = some tf) (sigs : List ℕ)
    (h : signalLoop pending sigs s = .ret (.delivered sig) s') :
    ∃ s₁ : Ctx, s₁.translate = s.translate ∧ deliver s₁ tf sig = .ret (.delivered sig) s' := by
  induction sigs generalizing s with
  | nil => simp [signalLoop] at h
  | cons n sigs ih =>
    simp only [signalLoop] at h
    split at h
    · exact ih htf h
    split at h
    · simp at h
    split at h
    · split at h
      · simp at h
      · -- an ignored default: the loop goes on with the pending bit cleared
        exact ih (s := { s with signalPending := s.signalPending &&& ~~~sigBit n }) htf h
    simp only [htf] at h
    have hn : n = sig := by
      simp only [deliver] at h
      split at h
      · simp at h
      · injection h with h
        injection h
    subst hn
    exact ⟨{ s with signalPending := s.signalPending &&& ~~~sigBit n, tf := some tf }, rfl, h⟩

theorem doSignalCheck_delivered (htf : s.tf = some tf)
    (h : doSignalCheck s = .ret (.delivered sig) s') :
    ∃ s₁ : Ctx, s₁.translate = s.translate ∧ deliver s₁ tf sig = .ret (.delivered sig) s' := by
  unfold doSignalCheck at h
  split at h
  · simp at h
  split at h
  · simp at h
  split at h
  · simp at h
  split at h
  · simp at h
  · exact signalLoop_delivered htf _ h

theorem doSignalCheck_quiet (h : s.deliverable = 0) : doSignalCheck s = .ret .idle s := by
  unfold doSignalCheck
  rw [if_pos h]
  split <;> rfl

/-- **The frame on the user stack**: it lies in mapped user memory and
holds the interrupted registers, word by word. -/
theorem deliver_frame (h : deliver s tf sig = .ret (.delivered sig) s') :
    userPtrOk s.translate (newSp tf.ussp) 184 = true ∧
      ∀ i < 21, load64 s'.mem ((newSp tf.ussp).toNat + 8 + 8 * i) =
        (frameWords sig tf).getD i 0 := by
  simp only [deliver] at h
  split at h
  · simp at h
  rename_i hok
  injection h with _ h
  subst h
  simp only [Bool.or_eq_true, Bool.not_eq_true', not_or, Bool.not_eq_false] at hok
  refine ⟨hok.2, fun i hi => ?_⟩
  rw [load64_storeWords _ _ _ (by exact hi), List.getD_eq_getElem?_getD,
    List.getElem?_eq_getElem (by exact hi), Option.getD_some]

/-- **`sys_sigreturn` reads the frame back**: where the frame of a user
trap frame lies in mapped memory at the stack pointer, the trap frame it
leaves is the interrupted one, with the flags sanitised. -/
theorem sysSigreturn_of_frame {f : IntrFrame} (hu : UserFrame u.translate tf)
    (htf : u.tf = some f) (hmap : userPtrOk u.translate f.ussp 176 = true)
    (hframe : ∀ i < 21, load64 u.mem (f.ussp.toNat + 8 * i) = (frameWords sig tf).getD i 0) :
    sysSigreturn u = .ret 0 { u with tf := some { tf with
      rflags := (tf.rflags ||| 0x2#64 ||| 0x200#64) &&& ~~~(3#64 <<< 12)
      intno := f.intno, err := f.err } } := by
  have hcs : load64 u.mem (f.ussp.toNat + 8 * 2) = 0x1B := by
    rw [hframe 2 (by decide), ← hu.cs]
    rfl
  have hss : load64 u.mem (f.ussp.toNat + 8 * 5) = 0x23 := by
    rw [hframe 5 (by decide), ← hu.ss]
    rfl
  have hrip : userPtrOk u.translate (load64 u.mem (f.ussp.toNat + 8 * 1)) 1 = true := by
    rw [hframe 1 (by decide)]
    exact hu.rip
  have hrsp : userPtrOk u.translate (load64 u.mem (f.ussp.toNat + 8 * 4)) 1 = true := by
    rw [hframe 4 (by decide)]
    exact hu.rsp
  unfold sysSigreturn
  rw [htf]
  simp only [hmap, Bool.not_true, Bool.false_eq_true, if_false]
  rw [hcs, hss, hrip, hrsp, if_neg (by decide), ← hu.cs, ← hu.ss]
  rw [hframe 1 (by decide), hframe 3 (by decide), hframe 4 (by decide), hframe 6 (by decide),
    hframe 7 (by decide), hframe 8 (by decide), hframe 9 (by decide), hframe 10 (by decide),
    hframe 11 (by decide), hframe 12 (by decide), hframe 13 (by decide), hframe 14 (by decide),
    hframe 15 (by decide), hframe 16 (by decide), hframe 17 (by decide), hframe 18 (by decide),
    hframe 19 (by decide), hframe 20 (by decide)]
  rfl

/-- The system call `sigreturn` restores the interrupted frame up to
`rax`, where `syscall_entry` puts the call's own result. -/
theorem syscallEntry_sigreturn (others : BitVec 64 → Ctx → Outcome Int)
    (hu : UserFrame u.translate tf) (hquiet : u.deliverable = 0)
    (hmap : userPtrOk u.translate regs.ussp 176 = true)
    (hframe : ∀ i < 21, load64 u.mem (regs.ussp.toNat + 8 * i) = (frameWords sig tf).getD i 0) :
    syscallEntry others u (signalTrampoline regs) = .ret .idle { u with tf := some { tf with
      rax := 0, intno := 0x80, err := 0 } } := by
  have hret : sysSigreturn { u with tf := some (signalTrampoline regs) } = .ret 0 { u with
      tf := some { tf with
        rflags := (tf.rflags ||| 0x2#64 ||| 0x200#64) &&& ~~~(3#64 <<< 12)
        intno := (signalTrampoline regs).intno, err := (signalTrampoline regs).err } } :=
    sysSigreturn_of_frame hu rfl hmap hframe
  have hcs : tf.cs &&& 3#64 = 3 := by
    rw [hu.cs]
    decide
  unfold syscallEntry syscallDo
  rw [if_pos (show (signalTrampoline regs).rax = sysNrSigreturn from rfl), hret]
  simp only [Option.getD_some, hu.flags_kept, hcs, if_true]
  exact doSignalCheck_quiet hquiet

/-- The part of the signal frame that `sigreturn` reads is valid where the
whole of it was, and its address does not wrap. -/
theorem newSp_frame {translate translate' : ℕ → ℕ} {sp : BitVec 64}
    (hmap : ∀ a, translate a ≠ 0 → translate' a ≠ 0) (h : userPtrOk translate sp 184 = true) :
    (sp + 8#64).toNat = sp.toNat + 8 ∧ userPtrOk translate' (sp + 8#64) 176 = true := by
  obtain ⟨-, -, hm, -⟩ := userPtrOk_iff.mp h
  have h184 : (184 : BitVec 64).toNat = 184 := rfl
  have h176 : (176 : BitVec 64).toNat = 176 := rfl
  have h8 : (8#64).toNat = 8 := rfl
  have hsp : (sp + 8#64).toNat = sp.toNat + 8 := by
    rw [BitVec.toNat_add, h8]
    unfold userMaxVma at hm
    omega
  exact ⟨hsp, userPtrOk_mono h hmap (by omega) (by omega) (by omega)⟩

/-- **A signal is transparent exactly when the interrupted `rax` is 0.**
`do_signal_check` delivers `sig` on the user frame `tf`; the handler runs
to its `ret` in any context `u` with any registers, the signal frame
unmodified, the stack pointer behind the return address, the mappings
still there and no further signal deliverable. The `sigreturn` of the
trampoline then comes back, and its trap frame is the interrupted one if
and only if `rax` was `0`. -/
theorem signal_transparent_iff (others : BitVec 64 → Ctx → Outcome Int) (htf : s.tf = some tf)
    (hu : UserFrame s.translate tf) (hdel : doSignalCheck s = .ret (.delivered sig) s')
    (hmap : ∀ a, s.translate a ≠ 0 → u.translate a ≠ 0)
    (hmem : ∀ x, (newSp tf.ussp).toNat + 8 ≤ x → x < (newSp tf.ussp).toNat + 184 →
      u.mem x = s'.mem x)
    (hsp : regs.ussp = newSp tf.ussp + 8#64) (hquiet : u.deliverable = 0) :
    (∃ fin, (syscallEntry others u (signalTrampoline regs)).resumed = some fin ∧
      SameProgram fin tf) ↔ tf.rax = 0 := by
  obtain ⟨s₁, hs₁, hd⟩ := doSignalCheck_delivered htf hdel
  obtain ⟨hok, hframe⟩ := deliver_frame hd
  rw [hs₁] at hok
  obtain ⟨haddr, hok'⟩ := newSp_frame hmap hok
  have hu' : UserFrame u.translate tf :=
    { hu with
      rip := userPtrOk_mono hu.rip hmap (by decide) (Nat.le_refl _) (Nat.le_refl _)
      rsp := userPtrOk_mono hu.rsp hmap (by decide) (Nat.le_refl _) (Nat.le_refl _) }
  have hread : ∀ i < 21, load64 u.mem (regs.ussp.toNat + 8 * i) = (frameWords sig tf).getD i 0 := by
    intro i hi
    rw [hsp, haddr, ← hframe i hi]
    exact load64_congr fun x hx hx' => hmem x (by omega) (by omega)
  rw [syscallEntry_sigreturn others hu' hquiet (hsp ▸ hok') hread]
  constructor
  · rintro ⟨fin, hfin, hsame⟩
    injection hfin with hfin
    subst hfin
    exact hsame.2.2.2.2.2.1.symm
  · intro hrax
    refine ⟨_, rfl, ?_⟩
    simp only [SameProgram, hrax, and_self]

/-- The trap frame of a program whose system call returned `rax`. -/
def interrupted (rax : BitVec 64) : IntrFrame where
  r15 := 15
  r14 := 14
  r13 := 13
  r12 := 12
  r11 := 11
  r10 := 10
  r9 := 9
  r8 := 8
  rbp := 7
  rdi := 6
  rsi := 5
  rdx := 4
  rcx := 3
  rax := rax
  rbx := 1
  intno := 0x80
  err := 0
  rip := 0x7f8000001000
  cs := 0x1B
  rflags := 0x202
  ussp := 0x7f8000009000
  usss := 0x23

/-- That program with `SIGUSR1` pending, a handler at `USER_BASE` and
every page mapped. -/
def signalled (rax : BitVec 64) : Ctx where
  pid := 1
  state := .running
  signalPending := sigBit 10
  signalMask := 0
  saHandler := fun _ => 0x7f8000000000
  tf := some (interrupted rax)
  mem := fun _ => 0
  translate := fun _ => 1

/-- The same program at the end of its handler, which did nothing. -/
def handled (rax : BitVec 64) : Ctx :=
  match doSignalCheck (signalled rax) with
  | .ret _ s => s
  | .exit _ s => s

/-- Its registers in the trampoline: the handler's `ret` has popped the
return address. -/
def handlerRegs (rax : BitVec 64) : IntrFrame :=
  { interrupted rax with rip := sigTrampolineVa, ussp := newSp 0x7f8000009000 + 8#64, rdi := 10 }

theorem interrupted_transparent : ∃ fin, (syscallEntry (fun _ s => .ret Errno.efail s) (handled 0)
        (signalTrampoline (handlerRegs 0))).resumed = some fin ∧
      SameProgram fin (interrupted 0) :=
  (@signal_transparent_iff (signalled 0) (handled 0) (handled 0) (interrupted 0) (handlerRegs 0) 10 _
    rfl
    ⟨rfl, rfl, rfl, rfl, rfl, rfl, by decide +kernel, by decide +kernel⟩ rfl
    (fun _ _ => Nat.one_ne_zero) (fun _ _ _ => rfl) rfl (by decide +kernel)).mpr rfl

/-- A system call that returned `42` comes back as `0` after the signal. -/
theorem interrupted_rax_lost : UserFrame (signalled 42).translate (interrupted 42) ∧
      doSignalCheck (signalled 42) = .ret (.delivered 10) (handled 42) ∧
      (handlerRegs 42).ussp = newSp (interrupted 42).ussp + 8#64 ∧
      (handled 42).deliverable = 0 ∧
      (syscallEntry (fun _ s => .ret Errno.efail s) (handled 42)
        (signalTrampoline (handlerRegs 42))).resumed = some { interrupted 42 with rax := 0 } ∧
      ¬SameProgram { interrupted 42 with rax := 0 } (interrupted 42) :=
  ⟨⟨rfl, rfl, rfl, rfl, rfl, rfl, by decide +kernel, by decide +kernel⟩, rfl, rfl,
    by decide +kernel, by decide +kernel, by decide +kernel⟩

end Lnxrm.Signal
