import Lnxrm.Vmm.Helpers.Bytes
import Lnxrm.Vmm.UserPointers

/-!
# Stores of the kernel in user memory

`copy_to_user` and the signal frame of `do_signal_check` are stored where
`user_ptr_ok` finds pages, and with `CR0.WP` clear the processor does not
look at `PG_W` either. So a page that user mode cannot write is written all
the same. `Respects` is what a store should do about such pages;
`respects_iff` says for which stores it does.
-/

namespace Lnxrm.Vmm

variable {A : Type} {s s' : Vm A} {root : ℕ}

/-- An entry with `PG_U` and `PG_W` -/
def userWritable (e : BitVec 64) : Bool := e &&& pgU != 0 && e &&& pgW != 0

/-- The page of an address is present, but not with both flags. -/
def ReadOnly (s : Vm A) (root a : ℕ) : Prop :=
  ∃ r, pageEntry s root (BitVec.ofNat 64 a) = some r ∧ userWritable r.1 = false

/-- The page of an address is present with both flags. -/
def Writable (s : Vm A) (root a : ℕ) : Prop :=
  ∃ r, pageEntry s root (BitVec.ofNat 64 a) = some r ∧ userWritable r.1 = true

/-- What a system call stores in user memory, of `n` bytes `src`. -/
inductive UserStore where
  /-- `sys_read`, `sys_getdent`, `sys_uname`, `sys_fb_info`: the error of
  `copy_to_user` is returned -/
  | result (dst n : BitVec 64) (src : ℕ → UInt8)
  /-- `sys_waitpid`, `sys_sigaction`, `sys_sigprocmask` and each record of
  `blk_list_all`: `user_ptr_ok` is asked about `checked` bytes first, and no
  error is returned -/
  | status (checked dst n : BitVec 64) (src : ℕ → UInt8)
  /-- the frame of `do_signal_check`, below the stack pointer: where it or
  the handler is not valid the task is terminated -/
  | frame (handler sp : BitVec 64) (src : ℕ → UInt8)

namespace UserStore

/-- The store, and whether the call fails. -/
def exec (turns : ℕ) (s : Vm A) (root : ℕ) : UserStore → Except (Stop A) (Bool × Vm A)
  | .result dst n src => do
    let (rc, s) ← copyToUser turns s root dst src n
    return (decide (rc < 0), s)
  | .status checked dst n src => do
    if !(← userPtrOk turns s root dst checked) then return (false, s)
    let (_, s) ← copyToUser turns s root dst src n
    return (false, s)
  | .frame handler sp src => do
    if !(← userPtrOk turns s root handler 1) then return (true, s)
    if !(← userPtrOk turns s root sp 184) then return (true, s)
    let s ← storeUser s root sp.toNat ((List.range 184).map src)
    return (false, s)

/-- Where the bytes go. -/
def dest : UserStore → BitVec 64
  | .result dst _ _ => dst
  | .status _ dst _ _ => dst
  | .frame _ sp _ => sp

/-- How many bytes go there. -/
def size : UserStore → BitVec 64
  | .result _ n _ => n
  | .status _ _ n _ => n
  | .frame _ _ _ => 184

/-- The bytes -/
def src : UserStore → ℕ → UInt8
  | .result _ _ src => src
  | .status _ _ _ src => src
  | .frame _ _ src => src

/-- The address is one that is stored to. -/
def Covers (c : UserStore) (a : ℕ) : Prop :=
  c.dest.toNat ≤ a ∧ a < c.dest.toNat + c.size.toNat

/-- What `user_ptr_ok` says to all the call asks. -/
def passes (s : Vm A) (root : ℕ) : UserStore → Bool
  | .result dst n _ => Lnxrm.userPtrOk (translateOf s root) dst n
  | .status checked dst n _ => Lnxrm.userPtrOk (translateOf s root) dst checked &&
      Lnxrm.userPtrOk (translateOf s root) dst n
  | .frame handler sp _ => Lnxrm.userPtrOk (translateOf s root) handler 1 &&
      Lnxrm.userPtrOk (translateOf s root) sp 184

/-- The call fails where a check does. -/
def reports : UserStore → Bool
  | .result .. => true
  | .status .. => false
  | .frame .. => true

/-- **The store respects the pages**: it comes back, it changes only bytes
of pages that user mode can write, and where there is another page among
its pages the call fails and leaves that page as it was. -/
def Respects (turns : ℕ) (s : Vm A) (root : ℕ) (c : UserStore) : Prop :=
  ∃ failed s', c.exec turns s root = .ok (failed, s') ∧
    (∀ pa, s'.byte pa ≠ s.byte pa → ∃ a v, c.Covers a ∧ Writable s root a ∧
      mmu s root (BitVec.ofNat 64 a) = some v ∧ v.toNat = pa) ∧
    ∀ a, c.Covers a → ReadOnly s root a → failed = true ∧
      ∀ a' v, a' / 4096 = a / 4096 → mmu s root (BitVec.ofNat 64 a') = some v →
        s'.byte v.toNat = s.byte v.toNat

/-- **The condition**: no read-only page is among the pages of the store,
or a check fails in a call that reports it. -/
def Allowed (s : Vm A) (root : ℕ) (c : UserStore) : Prop :=
  (∀ a, c.Covers a → ¬ ReadOnly s root a) ∨ (c.reports = true ∧ c.passes s root = false)

end UserStore

/-! ## Stores that are made -/

theorem pagePresent_of_ok {p n : BitVec 64}
    (h : Lnxrm.userPtrOk (translateOf s root) p n = true) {a : ℕ} (ha : p.toNat ≤ a)
    (ha' : a < p.toNat + n.toNat) : PagePresent s root a := by
  obtain ⟨-, hlo, hhi, hall⟩ := userPtrOk_iff.mp h
  have hne := hall a ha ha'
  unfold PagePresent
  simp only [userBase, userMaxVma, pageSize] at *
  unfold translateOf at hne
  rw [translate_eq_mmu (canonical_of_lt (by rw [BitVec.toNat_ofNat]; omega))] at hne
  rw [pageEntry_page s root (by omega)]
  unfold mmu at hne
  cases he : pageEntry s root (BitVec.ofNat 64 (a / 4096 * 4096)) with
  | none =>
    rw [he] at hne
    exact absurd rfl hne
  | some r => rfl

theorem writable_of_present {a : ℕ} (h : PagePresent s root a) (hro : ¬ ReadOnly s root a) :
    Writable s root a := by
  obtain ⟨r, hr⟩ := Option.isSome_iff_exists.mp h
  refine ⟨r, hr, ?_⟩
  by_contra hw
  exact hro ⟨r, hr, by simpa using hw⟩

theorem storeUser_changed {va x : ℕ} {bs : List UInt8} (h : storeUser s root va bs = .ok s')
    (hx : s'.byte x ≠ s.byte x) :
    ∃ a v, va ≤ a ∧ a < va + bs.length ∧ mmu s root (BitVec.ofNat 64 a) = some v ∧ v.toNat = x := by
  obtain ⟨a, ha, ha', htr⟩ := storeBytes_changed bs h hx
  obtain ⟨v, hv, hvx⟩ := Option.map_eq_some_iff.mp htr
  exact ⟨a, v, ha, ha', hv, hvx⟩

/-! ## The calls -/

theorem copyToUser_cases {turns : ℕ} (hturns : pageTurns ≤ turns) (s : Vm A) (root : ℕ)
    (dst n : BitVec 64) (src : ℕ → UInt8) :
    copyToUser turns s root dst src n = bif Lnxrm.userPtrOk (translateOf s root) dst n then
        (storeUser s root dst.toNat ((List.range n.toNat).map src)).map ((0 : Int), ·)
      else .ok (Errno.efail, s) := by
  rw [copyToUser_eq, userPtrOk_eq hturns]
  cases hok : Lnxrm.userPtrOk (translateOf s root) dst n with
  | false => rfl
  | true =>
    cases storeUser s root dst.toNat ((List.range n.toNat).map src) with
    | error e => rfl
    | ok s₁ => rfl

namespace UserStore

/-- **A call is its checks and then the store.** -/
theorem exec_eq {turns : ℕ} (hturns : pageTurns ≤ turns) (s : Vm A) (root : ℕ) (c : UserStore) :
    c.exec turns s root = bif c.passes s root then
        (storeUser s root c.dest.toNat ((List.range c.size.toNat).map c.src)).map (false, ·)
      else .ok (c.reports, s) := by
  cases c with
  | result dst n src =>
    simp only [exec, passes, dest, size, UserStore.src, reports, copyToUser_cases hturns]
    cases hok : Lnxrm.userPtrOk (translateOf s root) dst n with
    | false => rfl
    | true =>
      cases storeUser s root dst.toNat ((List.range n.toNat).map src) with
      | error e => rfl
      | ok s₁ => rfl
  | status checked dst n src =>
    simp only [exec, passes, dest, size, UserStore.src, reports, copyToUser_cases hturns,
      userPtrOk_eq hturns]
    cases hchecked : Lnxrm.userPtrOk (translateOf s root) dst checked with
    | false => rfl
    | true =>
      cases hok : Lnxrm.userPtrOk (translateOf s root) dst n with
      | false => rfl
      | true =>
        cases storeUser s root dst.toNat ((List.range n.toNat).map src) with
        | error e => rfl
        | ok s₁ => rfl
  | frame handler sp src =>
    have hlen : (184 : BitVec 64).toNat = 184 := by decide
    simp only [exec, passes, dest, size, UserStore.src, reports, userPtrOk_eq hturns, hlen]
    cases hhandler : Lnxrm.userPtrOk (translateOf s root) handler 1 with
    | false => rfl
    | true =>
      cases hsp : Lnxrm.userPtrOk (translateOf s root) sp 184 with
      | false => rfl
      | true =>
        cases storeUser s root sp.toNat ((List.range 184).map src) with
        | error e => rfl
        | ok s₁ => rfl

theorem ptrOk_of_passes {c : UserStore} (h : c.passes s root = true) :
    Lnxrm.userPtrOk (translateOf s root) c.dest c.size = true := by
  cases c with
  | result dst n src => exact h
  | status checked dst n src => exact (Bool.and_eq_true_iff.mp h).2
  | frame handler sp src => exact (Bool.and_eq_true_iff.mp h).2

/-- Where the checks pass the bytes are stored, and only on pages of the
store. -/
theorem exec_of_passes {turns : ℕ} (hturns : pageTurns ≤ turns) {c : UserStore}
    (h : c.passes s root = true) :
    ∃ s', c.exec turns s root = .ok (false, s') ∧
      ∀ pa, s'.byte pa ≠ s.byte pa → ∃ a v, c.Covers a ∧ PagePresent s root a ∧
        mmu s root (BitVec.ofNat 64 a) = some v ∧ v.toNat = pa := by
  have hok := ptrOk_of_passes h
  have hlen : ((List.range c.size.toNat).map c.src).length = c.size.toNat := by simp
  obtain ⟨s', hs'⟩ := storeUser_ok s root c.dest.toNat
    ((List.range c.size.toNat).map c.src) fun a ha ha' =>
      pagePresent_of_ok hok ha (by rw [hlen] at ha'; exact ha')
  refine ⟨s', by rw [exec_eq hturns, h, cond_true, hs']; rfl, fun pa hpa => ?_⟩
  obtain ⟨a, v, ha, ha', hv, hvpa⟩ := storeUser_changed hs' hpa
  rw [hlen] at ha'
  exact ⟨a, v, ⟨ha, ha'⟩, pagePresent_of_ok hok ha ha', hv, hvpa⟩

end UserStore

/-- **A store of the kernel respects the pages exactly where it is
allowed.** -/
theorem respects_iff {turns : ℕ} (hturns : pageTurns ≤ turns) (s : Vm A) (root : ℕ)
    (c : UserStore) : c.Respects turns s root ↔ c.Allowed s root := by
  cases hp : c.passes s root with
  | false =>
    have hexec : c.exec turns s root = .ok (c.reports, s) := by
      rw [UserStore.exec_eq hturns, hp]
      rfl
    constructor
    · rintro ⟨failed, s', hexec', -, hfail⟩
      rw [hexec] at hexec'
      obtain ⟨rfl, rfl⟩ := Prod.mk.inj (Except.ok.inj hexec')
      by_cases hro : ∀ a, c.Covers a → ¬ ReadOnly s root a
      · exact Or.inl hro
      · right
        push Not at hro
        obtain ⟨a, ha, hr⟩ := hro
        exact ⟨(hfail a ha hr).1, hp⟩
    · intro hal
      refine ⟨c.reports, s, hexec, fun _ hpa => absurd rfl hpa, fun a ha hr => ⟨?_, fun _ _ _ _ => rfl⟩⟩
      rcases hal with hno | ⟨hrep, -⟩
      · exact absurd hr (hno a ha)
      · exact hrep
  | true =>
    -- the call stores and does not fail, so no page may be read-only
    obtain ⟨s', hexec, hchanged⟩ := UserStore.exec_of_passes hturns hp
    constructor
    · rintro ⟨failed, s'', hexec', -, hfail⟩
      rw [hexec] at hexec'
      obtain ⟨rfl, rfl⟩ := Prod.mk.inj (Except.ok.inj hexec')
      exact Or.inl fun a ha hr => absurd (hfail a ha hr).1 Bool.false_ne_true
    · rintro (hno | ⟨-, hnp⟩)
      · refine ⟨false, s', hexec, fun pa hpa => ?_, fun a ha hr => absurd hr (hno a ha)⟩
        obtain ⟨a, v, ha, hpres, hv, hvpa⟩ := hchanged pa hpa
        exact ⟨a, v, ha, writable_of_present hpres (hno a ha), hv, hvpa⟩
      · rw [hp] at hnp
        exact absurd hnp (by decide)

/-- A byte of a page that user mode can write is stored. -/
theorem respects_writable : pageTurns ≤ pageTurns ∧
      (UserStore.result 0x7f8000001000 1 fun _ => 1).Respects pageTurns (onePage 6) 1 := by
  refine ⟨le_rfl, (respects_iff le_rfl _ _ _).mpr (Or.inl fun a ha hr => ?_)⟩
  obtain ⟨r, hr, hw⟩ := hr
  have hdst : (0x7f8000001000 : BitVec 64).toNat = 0x7f8000001000 := rfl
  have hn : (1 : BitVec 64).toNat = 1 := rfl
  obtain ⟨ha, ha'⟩ := ha
  simp only [UserStore.dest, UserStore.size] at ha ha'
  rw [onePage_entry 1 (by omega), Option.some.injEq] at hr
  subst hr
  exact absurd hw (by decide)

/-- **A byte of a read-only page is stored as well**, and the call reports
no error. -/
theorem readOnly_written : ReadOnly (onePage 4) 1 0x7f8000001000 ∧
      ∃ s', (UserStore.result 0x7f8000001000 1 fun _ => 1).exec pageTurns (onePage 4) 1 =
          .ok (false, s') ∧
        s'.byte 0x1000 = 1 ∧ (onePage 4).byte 0x1000 = 5 := by
  refine ⟨⟨(0x1005, false), by rfl, by decide⟩, (onePage 4).setByte 0x1000 1, ?_, ?_, by decide +kernel⟩
  · rw [UserStore.exec_eq le_rfl, show (UserStore.result 0x7f8000001000 1 fun _ => 1).passes
      (onePage 4) 1 = true by decide +kernel]
    rfl
  · rw [byte_setByte]
    rfl

end Lnxrm.Vmm
