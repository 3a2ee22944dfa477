import Lnxrm.Abi
import Mathlib.Algebra.Group.Nat.Defs
import Mathlib.Data.Nat.Init

/-!
# Tasks — states, trap frames and the user address range

The parts of `include/sys/sched.h` and `include/types.h` that the
subsystems share.
-/

namespace Lnxrm

/-- `enum task_state` -/
inductive TaskState where
  | unused
  | embryo
  | runnable
  | running
  | sleeping
  | zombie
  | stopped
deriving DecidableEq, Repr

/-- `struct intr_frame`: the registers the entry stubs push, and what the
processor pushed before them. -/
structure IntrFrame where
  r15 : BitVec 64
  r14 : BitVec 64
  r13 : BitVec 64
  r12 : BitVec 64
  r11 : BitVec 64
  r10 : BitVec 64
  r9 : BitVec 64
  r8 : BitVec 64
  rbp : BitVec 64
  rdi : BitVec 64
  rsi : BitVec 64
  rdx : BitVec 64
  rcx : BitVec 64
  rax : BitVec 64
  rbx : BitVec 64
  intno : BitVec 64
  err : BitVec 64
  rip : BitVec 64
  cs : BitVec 64
  rflags : BitVec 64
  ussp : BitVec 64
  usss : BitVec 64
deriving DecidableEq, Repr

/-- `USER_BASE` -/
def userBase : ℕ := 0x7f8000000000

/-- `USER_MAX_VMA` -/
def userMaxVma : ℕ := 0x7ffffffff000

/-- `PAGE_SIZE` -/
def pageSize : ℕ := 4096

/-- The one CPU of a machine is CPU 0. -/
instance neZero_oneCpu : @NeZero ℕ Zero.ofOfNat0 1 := ⟨by decide⟩

/-- The first of two CPUs is CPU 0. -/
instance neZero_twoCpus : @NeZero ℕ Zero.ofOfNat0 2 := ⟨by decide⟩

/-- `vmm_is_user_range` -/
def vmmIsUserRange (lo hi : ℕ) : Bool :=
  decide (userBase ≤ lo) && decide (hi ≤ userMaxVma) && decide (lo < hi)

/-- `user_ptr_ok`, for an address space given by `vmm_translate_in` of its
page tables: the pages from the one of `p` to the one of `p + n - 1` are
tried in turn. -/
def userPtrOk (translate : ℕ → ℕ) (p n : BitVec 64) : Bool :=
  if n = 0 || !vmmIsUserRange p.toNat (p + n).toNat then false
  else
    let lo := p.toNat / pageSize * pageSize
    let hi := (p + n - 1).toNat / pageSize * pageSize
    (List.range ((hi - lo) / pageSize + 1)).all fun i => translate (lo + pageSize * i) != 0

/-- **What `user_ptr_ok` checks**: a nonempty range inside user space, with
every byte on a mapped page. -/
theorem userPtrOk_iff {translate : ℕ → ℕ} {p n : BitVec 64} :
    userPtrOk translate p n = true ↔ 0 < n.toNat ∧ userBase ≤ p.toNat ∧
      p.toNat + n.toNat ≤ userMaxVma ∧
      ∀ a, p.toNat ≤ a → a < p.toNat + n.toNat → translate (a / pageSize * pageSize) ≠ 0 := by
  have hadd : (p + n).toNat = (p.toNat + n.toNat) % 2 ^ 64 := BitVec.toNat_add p n
  have hn0 : n = 0 ↔ n.toNat = 0 := by
    constructor
    · rintro rfl
      rfl
    · intro h
      exact BitVec.eq_of_toNat_eq h
  unfold userPtrOk
  by_cases hrange : 0 < n.toNat ∧ userBase ≤ p.toNat ∧ p.toNat + n.toNat ≤ userMaxVma
  · obtain ⟨h0, hlo, hhi⟩ := hrange
    have hsum : (p + n).toNat = p.toNat + n.toNat := by
      unfold userMaxVma at hhi
      omega
    have hlast : (p + n - 1).toNat = p.toNat + n.toNat - 1 := by
      have h1 : (1 : BitVec 64).toNat = 1 := rfl
      rw [BitVec.toNat_sub, hsum, h1]
      omega
    have hcond : (decide (n = 0) || !vmmIsUserRange p.toNat (p + n).toNat) = false := by
      simp only [vmmIsUserRange, hsum, hn0, Bool.or_eq_false_iff, decide_eq_false_iff_not,
        Bool.not_eq_false', Bool.and_eq_true, decide_eq_true_eq]
      omega
    simp only [hcond, Bool.false_eq_true, if_false, hlast, List.all_eq_true, List.mem_range,
      bne_iff_ne, pageSize]
    constructor
    · intro h
      refine ⟨h0, hlo, hhi, fun a ha ha' => ?_⟩
      -- the page of `a` is the `i`-th from the page of `p`
      have hi := h (a / 4096 - p.toNat / 4096) (by omega)
      rwa [show p.toNat / 4096 * 4096 + 4096 * (a / 4096 - p.toNat / 4096) =
        a / 4096 * 4096 by omega] at hi
    · rintro ⟨-, -, -, h⟩ i hi
      have hpage := h (max p.toNat (p.toNat / 4096 * 4096 + 4096 * i)) (by omega) (by omega)
      rwa [show max p.toNat (p.toNat / 4096 * 4096 + 4096 * i) / 4096 * 4096 =
        p.toNat / 4096 * 4096 + 4096 * i by omega] at hpage
  have hcond : (decide (n = 0) || !vmmIsUserRange p.toNat (p + n).toNat) = true := by
    simp only [vmmIsUserRange, hn0, Bool.or_eq_true, decide_eq_true_eq, Bool.not_eq_true',
      Bool.and_eq_false_iff, decide_eq_false_iff_not]
    unfold userMaxVma userBase at *
    omega
  simp only [hcond, if_true, Bool.false_eq_true, false_iff]
  exact fun h => hrange ⟨h.1, h.2.1, h.2.2.1⟩

theorem userPtrOk_mono {translate translate' : ℕ → ℕ} {p n p' n' : BitVec 64}
    (h : userPtrOk translate p n = true) (hmap : ∀ a, translate a ≠ 0 → translate' a ≠ 0)
    (h0 : 0 < n'.toNat) (hlo : p.toNat ≤ p'.toNat)
    (hhi : p'.toNat + n'.toNat ≤ p.toNat + n.toNat) : userPtrOk translate' p' n' = true := by
  obtain ⟨-, hb, hm, hall⟩ := userPtrOk_iff.mp h
  exact userPtrOk_iff.mpr ⟨h0, by omega, by omega,
    fun a ha ha' => hmap _ (hall a (by omega) (by omega))⟩

end Lnxrm
