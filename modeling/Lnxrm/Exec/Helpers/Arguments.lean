import Lnxrm.Exec.Helpers.Pushing

/-!
# The arguments in the memory of the caller

Proof layer. `Holds` says what bytes a user address has, and `ArgvAt` that
the argument vector at an address is a list of strings. `execArgs` reads
these strings (`execArgs_eq`), and whatever it reads fits on the stack of
the new program (`execArgs_fitting`).
-/

namespace Lnxrm.Exec

open Vmm List

variable {A : Type} {B : Buddy A} {s : Vm A} {root turns a : ℕ} {str bs : List UInt8}

/-- The bytes are at the address, in user memory. -/
def Holds (s : Vm A) (root a : ℕ) (bs : List UInt8) : Prop :=
  ∀ j, j < bs.length → userBase ≤ a + j ∧ a + j < userMaxVma ∧
    userByte s root (a + j) = some (bs.getD j 0)

instance (s : Vm A) (root a : ℕ) (bs : List UInt8) : Decidable (Holds s root a bs) :=
  inferInstanceAs (Decidable (∀ j, j < bs.length → _))

/-- **An argument vector**: pointers to strings, of which `sys_execve` takes
sixteen, and a null pointer where there are fewer. -/
structure ArgvAt (s : Vm A) (root a : ℕ) (args : List (List UInt8)) : Prop where
  pointers : ∀ i, i < args.length → ∃ ptr, ptr ≠ 0 ∧ ptr < 2 ^ 64 ∧
    Holds s root (a + 8 * i) (wordBytes ptr) ∧ Holds s root ptr (args.getD i [] ++ [0])
  null : args.length < 16 → Holds s root (a + 8 * args.length) (wordBytes 0)

/-- **The arguments that are passed**: those of the vector at `uargv`, or
none where it is null. -/
def Passes (s : Vm A) (root : ℕ) (uargv : BitVec 64) (args : List (List UInt8)) : Prop :=
  (uargv = 0 ∧ args = []) ∨ ArgvAt s root uargv.toNat args

theorem Holds.tail {b : UInt8} (h : Holds s root a (b :: bs)) : Holds s root (a + 1) bs := by
  intro j hj
  have hnext := h (j + 1) (Nat.succ_lt_succ hj)
  rwa [getD_cons_succ, show a + (j + 1) = a + 1 + j by omega] at hnext

theorem noZeroPage_of_sound (h : Sound B root s) : NoZeroPage s root := by
  intro x hlo hhi hal hz
  have hslot : InSlot x := ⟨hlo, by unfold userMaxVma at hhi; omega⟩
  have hmmu := mmu_slot h.tree hslot
  rw [hz] at hmmu
  obtain ⟨e, hl, he⟩ := Option.map_eq_some_iff.mp hmmu.symm
  have hpos := h.frame_pos hl
  have hzero : frameOf e * 4096 + x % 4096 = 0 := he
  omega

theorem loadBytes_holds (bs : List UInt8) : ∀ {a : ℕ}, Holds s root a bs →
    loadBytes s root a bs.length = .ok bs := by
  induction bs with
  | nil => intro a _; rfl
  | cons b bs ih =>
    intro a h
    have hb := (h 0 (Nat.succ_pos _)).2.2
    rw [Nat.add_zero, getD_cons_zero] at hb
    rw [length_cons, loadBytes, hb, ih h.tail]
    rfl

theorem userPtrOk_holds (hz : NoZeroPage s root) (hturns : pageTurns ≤ turns)
    (h : Holds s root a bs) (hpos : 0 < bs.length) :
    Vmm.userPtrOk turns s root (BitVec.ofNat 64 a) (BitVec.ofNat 64 bs.length) = .ok true ∧
      (BitVec.ofNat 64 a).toNat = a ∧ (BitVec.ofNat 64 bs.length).toNat = bs.length := by
  have hend := (h (bs.length - 1) (by omega)).2.1
  unfold userMaxVma at hend
  have ha : (BitVec.ofNat 64 a).toNat = a := by
    rw [BitVec.toNat_ofNat]
    omega
  have hn : (BitVec.ofNat 64 bs.length).toNat = bs.length := by
    rw [BitVec.toNat_ofNat]
    omega
  refine ⟨?_, ha, hn⟩
  rw [userPtrOk_eq hturns, (userPtrOk_valid hz _ _).mpr]
  unfold ValidRange
  rw [ha, hn]
  refine ⟨hpos, by omega, fun x hx hx' => ?_⟩
  obtain ⟨hlo, hhi, hbyte⟩ := h (x - a) (by omega)
  rw [show a + (x - a) = x by omega] at hlo hhi hbyte
  refine ⟨hlo, hhi, ?_⟩
  unfold PagePresent
  obtain ⟨pa, hpa, -⟩ := Option.map_eq_some_iff.mp hbyte
  obtain ⟨r, hr, -⟩ := Option.map_eq_some_iff.mp hpa
  rw [hr]
  rfl

/-- **`copy_from_user`** of what is there -/
theorem copyFromUser_holds (hz : NoZeroPage s root) (hturns : pageTurns ≤ turns)
    (h : Holds s root a bs) (hpos : 0 < bs.length) :
    copyFromUser turns s root (BitVec.ofNat 64 a) (BitVec.ofNat 64 bs.length) = .ok (0, bs) := by
  obtain ⟨hok, ha, hn⟩ := userPtrOk_holds hz hturns h hpos
  unfold copyFromUser
  rw [hok, ha, hn]
  rw [loadBytes_holds bs h]
  rfl

theorem userStr_holds (hz : NoZeroPage s root) (hturns : pageTurns ≤ turns) (str : List UInt8) :
    ∀ {a n : ℕ}, Holds s root a (str ++ [0]) → 0 ∉ str → str.length < n →
      userStr turns s root n (BitVec.ofNat 64 a) = .ok (some str) := by
  induction str with
  | nil =>
    intro a n h _ hn
    obtain ⟨n, rfl⟩ : ∃ k, n = k + 1 := ⟨n - 1, by omega⟩
    have hcopy := copyFromUser_holds hz hturns h (Nat.succ_pos _)
    rw [userStr]
    rw [show copyFromUser turns s root (BitVec.ofNat 64 a) 1 = .ok (0, [0]) from hcopy]
    rfl
  | cons c str ih =>
    intro a n h h0 hn
    obtain ⟨n, rfl⟩ : ∃ k, n = k + 1 := ⟨n - 1, by omega⟩
    rw [mem_cons, not_or] at h0
    rw [length_cons] at hn
    have hone : Holds s root a [c] := fun j hj => by
      obtain rfl : j = 0 := by simpa using hj
      exact h 0 (Nat.succ_pos _)
    have hcopy : copyFromUser turns s root (BitVec.ofNat 64 a) 1 = .ok (0, [c]) :=
      copyFromUser_holds hz hturns hone (Nat.succ_pos _)
    have hrest := ih h.tail h0.2 (show str.length < n by omega)
    have hadd : BitVec.ofNat 64 a + 1 = BitVec.ofNat 64 (a + 1) := (BitVec.ofNat_add _ _).symm
    have hne : ¬ [c] = [0] := fun he => h0.1 (List.cons.inj he).1.symm
    rw [userStr, hcopy]
    simp only [bind, Except.bind, if_neg hne, hadd, hrest]
    rfl

/-- **`copy_user_str`** of a string that is there -/
theorem copyUserStr_holds (hz : NoZeroPage s root) (hturns : pageTurns ≤ turns)
    (h : Holds s root a (str ++ [0])) (h0 : 0 ∉ str) {max : ℕ} (hlen : str.length < max) :
    copyUserStr turns s root (BitVec.ofNat 64 a) max = .ok (0, str) := by
  unfold copyUserStr
  rw [if_neg (by omega), userStr_holds hz hturns str h h0 hlen]
  show Except.ok ((0 : Int), str.take (max - 1)) = _
  rw [take_of_length_le (by omega)]

theorem leNat_wordBytes {v : ℕ} (h : v < 2 ^ 64) : leNat (wordBytes v) = v := by
  have hn : (BitVec.ofNat 64 v).toNat = v := by
    rw [BitVec.toNat_ofNat, Nat.mod_eq_of_lt h]
  simp only [wordBytes, range_succ_eq_map, range_zero, map_cons, map_nil, leNat, toNat_wordByte, hn]
  norm_num
  omega

/-- **The loop over the argument vector** -/
theorem copyArgv_eq (hz : NoZeroPage s root) (hturns : pageTurns ≤ turns) (args : List (List UInt8)) :
    ∀ {a n : ℕ}, (∀ str ∈ args, str.length ≤ 63 ∧ 0 ∉ str) → args.length ≤ n →
      (∀ i, i < args.length → ∃ ptr, ptr ≠ 0 ∧ ptr < 2 ^ 64 ∧
        Holds s root (a + 8 * i) (wordBytes ptr) ∧ Holds s root ptr (args.getD i [] ++ [0])) →
      (args.length < n → Holds s root (a + 8 * args.length) (wordBytes 0)) →
      copyArgv turns s root n (BitVec.ofNat 64 a) = .ok args := by
  have hcopy : ∀ {a ptr : ℕ}, Holds s root a (wordBytes ptr) →
      copyFromUser turns s root (BitVec.ofNat 64 a) 8 = .ok (0, wordBytes ptr) := by
    intro a ptr h
    have := copyFromUser_holds hz hturns h (by rw [wordBytes_length]; omega)
    rwa [wordBytes_length] at this
  induction args with
  | nil =>
    intro a n _ _ _ hnull
    cases n with
    | zero => rfl
    | succ n =>
      have hword : Holds s root a (wordBytes 0) := hnull (Nat.succ_pos n)
      rw [copyArgv, hcopy hword]
      rfl
  | cons str strs ih =>
    intro a n hstr hn hptrs hnull
    rw [length_cons] at hn hptrs hnull
    obtain ⟨n, rfl⟩ : ∃ k, n = k + 1 := ⟨n - 1, by omega⟩
    obtain ⟨hlen, h0⟩ := hstr str (mem_cons_self ..)
    obtain ⟨ptr, hne, hlt, hptr, hheld⟩ := hptrs 0 (Nat.succ_pos _)
    rw [Nat.mul_zero, Nat.add_zero] at hptr
    rw [getD_cons_zero] at hheld
    have hstring := copyUserStr_holds hz hturns hheld h0 (show str.length < 64 by omega)
    have hadd : BitVec.ofNat 64 a + 8 = BitVec.ofNat 64 (a + 8) := (BitVec.ofNat_add _ _).symm
    have hrest : copyArgv turns s root n (BitVec.ofNat 64 (a + 8)) = .ok strs := by
      refine ih (fun q hq => hstr q (mem_cons_of_mem _ hq)) (by omega) (fun i hi => ?_)
        fun hlt' => ?_
      · obtain ⟨q, hq⟩ := hptrs (i + 1) (by omega)
        rw [getD_cons_succ, show a + 8 * (i + 1) = a + 8 + 8 * i by omega] at hq
        exact ⟨q, hq⟩
      · have := hnull (by omega)
        rwa [show a + 8 * (strs.length + 1) = a + 8 + 8 * strs.length by omega] at this
    have hnz : ¬ ((0 : Int) < 0 ∨ ptr = 0) := by simp [hne]
    rw [copyArgv, hcopy hptr]
    simp only [bind, Except.bind, leNat_wordBytes hlt, if_neg hnz, hstring, hadd, hrest]
    rfl

/-- **`sys_execve` finds its arguments.** -/
theorem execArgs_eq (h : Sound B root s) (hturns : pageTurns ≤ turns) {uargv : BitVec 64}
    {args : List (List UInt8)} (hargs : Passes s root uargv args) (hlen : args.length ≤ 16)
    (hstr : ∀ str ∈ args, str.length ≤ 63 ∧ 0 ∉ str) :
    execArgs turns s root uargv = .ok args := by
  rcases hargs with ⟨rfl, rfl⟩ | hargs
  · rfl
  have hz := noZeroPage_of_sound h
  -- there is a first word
  obtain ⟨w, hw⟩ : ∃ w, Holds s root uargv.toNat (wordBytes w) := by
    cases args with
    | nil => exact ⟨0, hargs.null (by decide)⟩
    | cons str strs =>
      obtain ⟨ptr, -, -, hptr, -⟩ := hargs.pointers 0 (Nat.succ_pos _)
      exact ⟨ptr, hptr⟩
  have hback : BitVec.ofNat 64 uargv.toNat = uargv := by
    rw [BitVec.ofNat_toNat, BitVec.setWidth_eq]
  obtain ⟨hok, -, -⟩ := userPtrOk_holds hz hturns hw (by rw [wordBytes_length]; omega)
  rw [wordBytes_length, hback] at hok
  have hne : ¬ uargv = 0 := by
    rintro rfl
    have hbase := (hw 0 (by rw [wordBytes_length]; omega)).1
    exact absurd hbase (by decide)
  have hloop := copyArgv_eq hz hturns args hstr hlen hargs.pointers hargs.null
  rw [hback] at hloop
  unfold execArgs
  rw [if_neg hne]
  rw [show Vmm.userPtrOk turns s root uargv 8 = .ok true from hok]
  exact hloop

/-! ## What is read fits -/

theorem copyUserStr_length {usrc : BitVec 64} {max : ℕ} {rc : Int}
    (h : copyUserStr turns s root usrc max = .ok (rc, str)) : str.length ≤ max - 1 := by
  unfold copyUserStr at h
  by_cases hmax : max = 0
  · rw [if_pos hmax] at h
    cases h
    exact Nat.zero_le _
  rw [if_neg hmax] at h
  obtain ⟨r, -, h⟩ := ok_of_bind h
  cases r with
  | none =>
    cases h
    exact Nat.zero_le _
  | some str' =>
    cases h
    exact length_take_le _ _

theorem copyArgv_fitting (n : ℕ) : ∀ {uargv : BitVec 64} {args : List (List UInt8)},
    copyArgv turns s root n uargv = .ok args → args.length ≤ n ∧ ∀ str ∈ args, str.length ≤ 63 := by
  induction n with
  | zero =>
    intro uargv args h
    cases h
    exact ⟨le_rfl, fun _ hs => absurd hs not_mem_nil⟩
  | succ n ih =>
    intro uargv args h
    have hnil : (([] : List (List UInt8)).length ≤ n + 1) ∧
        ∀ str ∈ ([] : List (List UInt8)), str.length ≤ 63 :=
      ⟨Nat.zero_le _, fun _ hs => absurd hs not_mem_nil⟩
    rw [copyArgv] at h
    obtain ⟨⟨rc, w⟩, -, h⟩ := ok_of_bind h
    dsimp only at h
    by_cases hc : rc < 0 ∨ leNat w = 0
    · rw [if_pos hc] at h
      cases h
      exact hnil
    rw [if_neg hc] at h
    obtain ⟨⟨rc', str⟩, hstr, h⟩ := ok_of_bind h
    by_cases hc' : rc' < 0
    · rw [if_pos hc'] at h
      cases h
      exact hnil
    rw [if_neg hc'] at h
    obtain ⟨strs, hrest, h⟩ := ok_of_bind h
    cases h
    obtain ⟨hlen, hall⟩ := ih hrest
    refine ⟨Nat.succ_le_succ hlen, fun q hq => ?_⟩
    rcases mem_cons.mp hq with rfl | hq
    · exact copyUserStr_length hstr
    · exact hall q hq

/-- **What `sys_execve` reads fits.** -/
theorem execArgs_fitting {uargv : BitVec 64} {args : List (List UInt8)}
    (h : execArgs turns s root uargv = .ok args) : Fitting args := by
  have hnil : Fitting [] := ⟨Nat.zero_le _, fun _ hs => absurd hs not_mem_nil⟩
  unfold execArgs at h
  by_cases hz : uargv = 0
  · rw [if_pos hz] at h
    cases h
    exact hnil
  rw [if_neg hz] at h
  obtain ⟨ok, -, h⟩ := ok_of_bind h
  cases ok with
  | false =>
    cases h
    exact hnil
  | true => exact copyArgv_fitting 16 h

end Lnxrm.Exec
