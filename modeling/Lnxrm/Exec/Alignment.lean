import Lnxrm.Exec.Helpers.Arguments
import Lnxrm.Exec.Helpers.Execve
import Lnxrm.Signal.Roundtrip

/-!
# The stack pointer at user entry

`sys_execve` aligns the stack pointer below the strings and then subtracts
three words and the argument vector, `kernel_spawn` starts from a multiple
of 16, and `do_signal_check` makes room for its frame before it aligns. So
the stack pointer of an executed program is a multiple of 16 for an odd
number of arguments only: `entry_aligned_iff`.
-/

namespace Lnxrm.Exec

open Vmm

variable {A : Type} {B : Buddy A} {code : Page} {p p' : Proc A} {turns : ℕ}
variable {file : List UInt8 → Except Int (List UInt8)} {upath uargv : BitVec 64}
variable {argv : List (List UInt8)}

/-- A program that `kernel_spawn` starts has an aligned stack. -/
def SpawnAligned : Prop :=
  ∀ (A : Type) (B : Buddy A) (file : List UInt8 → Except Int (List UInt8)) (code : Page)
    (t t' : Proc A) (pid : ℕ) (path : List UInt8) (ret : Int), Refuses file →
    kernelSpawn B file code t pid path = .ok (ret, t') → 0 ≤ ret → t'.tf.ussp.toNat % 16 = 0

/-- A handler is entered with the stack pointer of a call, and its frame of
184 bytes is below the interrupted stack pointer. -/
def HandlerAligned : Prop :=
  ∀ (s s' : Signal.Ctx) (tf tf' : IntrFrame) (sig : ℕ), s.tf = some tf →
    Signal.doSignalCheck s = .ret (.delivered sig) s' → s'.tf = some tf' →
      tf'.ussp.toNat % 16 = 8 ∧ tf'.ussp.toNat + 184 ≤ tf.ussp.toNat

/-! ## The three stack pointers -/

theorem pushArgs_sp {root sp : ℕ} {s s' : Vm A} (h : pushArgs root argv s = .ok (sp, s')) :
    sp = entrySp argv := by
  rw [pushArgs_eq] at h
  cases hs : storeAll root (argWrites argv) s with
  | error e =>
    rw [hs] at h
    cases h
  | ok s₁ =>
    rw [hs] at h
    cases h
    rfl

theorem execve_ussp (hfile : Refuses file) (hargs : execArgs turns p.vm p.pml4 uargv = .ok argv)
    (hok : sysExecve B turns file code p upath uargv = .ok (0, p')) :
    p'.tf.ussp.toNat = entrySp argv := by
  obtain ⟨path, argv', img, hargs', -, himage⟩ := sysExecve_ok hfile hok
  obtain rfl : argv' = argv := Except.ok.inj (hargs'.symm.trans hargs)
  obtain ⟨root, entry, brkEnd, sp, s₀, s₁, s₂, s₃, s₄, hst, rfl⟩ := execImage_iff.mp himage
  obtain ⟨-, -, hentry, -⟩ := layout (execArgs_fitting hargs)
  have hstr := (stringsSp_bounds argv' (execArgs_fitting hargs)).2
  have haux := (layout (execArgs_fitting hargs)).1
  have htop : userStackTop = 0x7fffffbff000 := rfl
  rw [show (p.entered path root entry brkEnd sp s₄).tf.ussp = BitVec.ofNat 64 sp from rfl,
    pushArgs_sp hst.push, BitVec.toNat_ofNat]
  omega

theorem spawn_aligned : SpawnAligned := by
  intro A B file code t t' pid path ret hfile hok hret
  obtain ⟨⟨root, s₀⟩, -, hok⟩ := ok_of_bind hok
  obtain ⟨s₁, -, hok⟩ := ok_of_bind hok
  cases himg : file path with
  | error err =>
    rw [himg] at hok
    cases hok
    exact absurd (hfile _ _ himg) (not_lt.mpr hret)
  | ok img =>
    rw [himg] at hok
    obtain ⟨⟨ok, s₂⟩, -, hok⟩ := ok_of_bind hok
    cases ok with
    | false =>
      cases hok
      exact absurd hret (by decide)
    | true =>
      obtain ⟨⟨entry, brkEnd, s₃⟩, -, hok⟩ := ok_of_bind hok
      dsimp only at hok
      by_cases hentry : entry = 0
      · rw [if_pos hentry] at hok
        cases hok
        exact absurd hret (by decide)
      rw [if_neg hentry] at hok
      obtain ⟨s₄, -, hok⟩ := ok_of_bind hok
      obtain ⟨s₅, -, hok⟩ := ok_of_bind hok
      cases hok
      show (BitVec.ofNat 64 (userStackTop - 256 - 32)).toNat % 16 = 0
      decide

theorem newSp_below {translate : ℕ → ℕ} {sp : BitVec 64}
    (h : userPtrOk translate (Signal.newSp sp) 184 = true) :
    (Signal.newSp sp).toNat % 16 = 8 ∧ (Signal.newSp sp).toNat + 184 ≤ sp.toNat := by
  obtain ⟨-, hlo, hhi, -⟩ := userPtrOk_iff.mp h
  have hmask : ((sp - 184#64) &&& ~~~15#64).toNat = (sp - 184#64).toNat / 16 * 16 :=
    toNat_cleared _ 4
  have hsub : (sp - 184#64).toNat = (2 ^ 64 - 184 + sp.toNat) % 2 ^ 64 := BitVec.toNat_sub _ _
  have hnew : (Signal.newSp sp).toNat =
      (2 ^ 64 - 8 + ((sp - 184#64) &&& ~~~15#64).toNat) % 2 ^ 64 := BitVec.toNat_sub _ _
  unfold userBase at hlo
  unfold userMaxVma at hhi
  omega

theorem handler_aligned : HandlerAligned := by
  intro s s' tf tf' sig htf hdel htf'
  obtain ⟨s₁, -, hdel⟩ := Signal.doSignalCheck_delivered htf hdel
  obtain ⟨hok, -⟩ := Signal.deliver_frame hdel
  have hussp : tf'.ussp = Signal.newSp tf.ussp := by
    unfold Signal.deliver at hdel
    dsimp only at hdel
    split at hdel
    · cases hdel
    · cases hdel
      cases htf'
      rfl
  rw [hussp]
  exact newSp_below hok

/-- **User entry is aligned** exactly for an odd number of arguments. -/
theorem entry_aligned_iff (hfile : Refuses file)
    (hargs : execArgs turns p.vm p.pml4 uargv = .ok argv)
    (hok : sysExecve B turns file code p upath uargv = .ok (0, p')) :
    (p'.tf.ussp.toNat % 16 = 0 ∧ SpawnAligned ∧ HandlerAligned) ↔ argv.length % 2 = 1 := by
  rw [execve_ussp hfile hargs hok, entrySp_mod (execArgs_fitting hargs)]
  exact ⟨fun h => h.1, fun h => ⟨h, spawn_aligned, handler_aligned⟩⟩

theorem caller_execs {img : List UInt8} {entry brkEnd k : ℕ}
    (hpath : copyUserStr turns caller.vm caller.pml4 0x7f8000000000 128 = .ok (0, []))
    (hargs : execArgs turns caller.vm caller.pml4 uargv = .ok argv)
    (hrun : (loadRun smallBuddy caller.vm img k).toOption = some (true, entry, brkEnd, true))
    (hk : 5 ≤ k) (hentry : entry ≠ 0) :
    ∃ root s, sysExecve smallBuddy turns (fun _ => .ok img) (fun _ => 0) caller 0x7f8000000000 uargv =
        .ok (0, caller.entered [] root entry brkEnd (entrySp argv) s) ∧
      (leaf s.mem root (pageKey 0x7fffff800000)).isSome ∧
      k ≤ (smallBuddy.free s.pool).card + 5 := by
  obtain ⟨root, s, himage, hrest⟩ := execImage_run (fun _ => 0) [] caller_ready
    (execArgs_fitting hargs) hrun hk hentry
  exact ⟨root, s, sysExecve_of hpath hargs rfl himage, hrest⟩

theorem refuses_ok (img : List UInt8) : Refuses fun _ => .ok img := fun _ _ h => by cases h

/-- A program of one page -/
def onePageImage : List UInt8 := elfImage 0x7f8000400000 [⟨1, 5, 0, 0x7f8000400000, 1, 1⟩] []

/-- With one argument the stack pointer is aligned. -/
theorem one_argument_aligned :
    ∃ p', sysExecve smallBuddy 3 (fun _ => .ok onePageImage) (fun _ => 0) caller 0x7f8000000000
        0x7f8000000008 = .ok (0, p') ∧ p'.tf.ussp.toNat % 16 = 0 := by
  have hargs : execArgs 3 caller.vm caller.pml4 0x7f8000000008 = .ok [[0x61]] :=
    ok_of_toOption (by decide +kernel)
  have hrun : (loadRun smallBuddy caller.vm onePageImage 5).toOption =
      some (true, 0x7f8000400000, 0x7f8000401000, true) := by decide +kernel
  obtain ⟨root, s, hok, -, -⟩ := caller_execs (ok_of_toOption (by decide +kernel)) hargs hrun le_rfl
    (by decide)
  exact ⟨_, hok, ((entry_aligned_iff (refuses_ok _) hargs hok).mpr (by decide)).1⟩

/-- **Without arguments it is 8 modulo 16.** -/
theorem no_argument_not_aligned :
    ∃ p', sysExecve smallBuddy 3 (fun _ => .ok onePageImage) (fun _ => 0) caller 0x7f8000000000 0 =
        .ok (0, p') ∧ p'.tf.ussp.toNat % 16 = 8 := by
  have hargs : execArgs 3 caller.vm caller.pml4 0 = .ok [] := rfl
  have hrun : (loadRun smallBuddy caller.vm onePageImage 5).toOption =
      some (true, 0x7f8000400000, 0x7f8000401000, true) := by decide +kernel
  obtain ⟨root, s, hok, -, -⟩ := caller_execs (ok_of_toOption (by decide +kernel)) hargs hrun le_rfl
    (by decide)
  refine ⟨_, hok, ?_⟩
  rw [execve_ussp (refuses_ok _) hargs hok]
  decide

end Lnxrm.Exec
