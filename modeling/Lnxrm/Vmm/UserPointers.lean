import Lnxrm.Vmm.Helpers.Mapping
import Lnxrm.Vmm.UserMemory

/-!
# The check of user pointers

`user_ptr_ok` asks `vmm_translate_in` about the first byte of each page, and
takes a `0` for a page that is not there. In an address space that maps no
user page to physical address 0 that is what the processor finds, so the
check accepts exactly the ranges of user space that can be accessed
(`user_pointers_exact`), and its loop ends although the page counter is a
64-bit number: the range test before it keeps the last page away from the
end of the address space.
-/

namespace Lnxrm.Vmm

variable {A : Type} {s : Vm A} {root : ℕ}

/-! ## Translation by the kernel and by the processor -/

theorem canonical_of_lt {va : BitVec 64} (h : va.toNat < 2 ^ 47) : canonical va = true := by
  unfold canonical
  rw [decide_eq_true h, Bool.true_or]

/-- **`vmm_translate_in`** finds what the processor finds. -/
theorem translate_eq_mmu {va : BitVec 64} (h : canonical va = true) :
    vmmTranslateIn s root va = (mmu s root va).getD 0 := by
  unfold vmmTranslateIn mmu pageEntry walk
  rw [if_neg (not_alias va), h]
  dsimp only
  generalize s.mem root (index va 39) = e4
  cases h4 : present e4 with
  | false => rfl
  | true =>
    generalize s.mem (frameOf e4) (index va 30) = e3
    cases h3 : present e3 with
    | false => rfl
    | true =>
      generalize s.mem (frameOf e3) (index va 21) = e2
      cases h2 : present e2 with
      | false => rfl
      | true =>
        cases hl : large e2 with
        | true => simp [h2]
        | false =>
          cases h1 : present (s.mem (frameOf e2) (index va 12)) with
          | false => simp [h1]
          | true => simp [h1]

theorem pageEntry_page (s : Vm A) (root : ℕ) {a : ℕ} (ha : a < 2 ^ 64) :
    pageEntry s root (BitVec.ofNat 64 a) =
      pageEntry s root (BitVec.ofNat 64 (a / 4096 * 4096)) := by
  have hn : (BitVec.ofNat 64 a).toNat = a := by
    rw [BitVec.toNat_ofNat, Nat.mod_eq_of_lt ha]
  have hn' : (BitVec.ofNat 64 (a / 4096 * 4096)).toNat = a / 4096 * 4096 := by
    rw [BitVec.toNat_ofNat, Nat.mod_eq_of_lt (by omega)]
  have hindex : ∀ k, index (BitVec.ofNat 64 a) (12 + k) =
      index (BitVec.ofNat 64 (a / 4096 * 4096)) (12 + k) := by
    intro k
    refine Fin.ext ?_
    rw [index_val, index_val, hn, hn', Nat.pow_add, ← Nat.div_div_eq_div_mul,
      ← Nat.div_div_eq_div_mul, Nat.mul_div_cancel _ (by decide)]
  have hcan : canonical (BitVec.ofNat 64 a) = canonical (BitVec.ofNat 64 (a / 4096 * 4096)) := by
    unfold canonical
    rw [hn, hn']
    congr 1
    · rw [decide_eq_decide]
      omega
    · rw [decide_eq_decide]
      omega
  unfold pageEntry
  rw [hcan, hindex 27, hindex 18, hindex 9, hindex 0]

/-! ## The loop -/

/-- The pages that are left, each of them found. -/
def allMapped (s : Vm A) (root : ℕ) (pg : BitVec 64) (k : ℕ) : Bool :=
  (List.range k).all fun i => vmmTranslateIn s root (pg + BitVec.ofNat 64 (4096 * i)) != 0

/-- **The loop over the pages ends**, where the last of them is not the last
of the address space. -/
theorem pagesMapped_eq {hi : BitVec 64} (hhi : hi.toNat + 4096 < 2 ^ 64) (k : ℕ) :
    ∀ (turns : ℕ) (pg : BitVec 64), hi.toNat + 4096 = pg.toNat + 4096 * k → k < turns →
      pagesMapped s root hi turns pg = .ok (allMapped s root pg k) := by
  induction k with
  | zero =>
    intro turns pg hk ht
    obtain ⟨t, rfl⟩ : ∃ t, turns = t + 1 := ⟨turns - 1, by omega⟩
    have hgt : ¬ pg ≤ hi := by
      intro hle
      have : pg.toNat ≤ hi.toNat := hle
      omega
    rw [pagesMapped, if_neg hgt]
    rfl
  | succ k ih =>
    intro turns pg hk ht
    obtain ⟨t, rfl⟩ : ∃ t, turns = t + 1 := ⟨turns - 1, by omega⟩
    have hle : pg ≤ hi := by
      show pg.toNat ≤ hi.toNat
      omega
    have hfour : (4096 : BitVec 64).toNat = 4096 := rfl
    have hnext : (pg + 4096).toNat = pg.toNat + 4096 := by
      rw [BitVec.toNat_add, hfour]
      omega
    have hrest := ih t (pg + 4096) (by omega) (by omega)
    rw [pagesMapped, if_pos hle]
    unfold allMapped at hrest ⊢
    rw [List.range_succ_eq_map, List.all_cons, List.all_map,
      show pg + BitVec.ofNat 64 (4096 * 0) = pg from BitVec.add_zero pg]
    by_cases hz : vmmTranslateIn s root pg = 0
    · rw [if_pos hz, hz]
      rfl
    rw [if_neg hz, hrest, bne_iff_ne.mpr hz, Bool.true_and]
    have hshift : ∀ i, pg + 4096 + BitVec.ofNat 64 (4096 * i) =
        pg + BitVec.ofNat 64 (4096 * (i + 1)) := by
      intro i
      rw [BitVec.add_assoc, Nat.mul_succ, Nat.add_comm (4096 * i), BitVec.ofNat_add]
      rfl
    simp only [Function.comp_def, Nat.succ_eq_add_one, hshift]

/-- More than the pages of user space. -/
def pageTurns : ℕ := 2 ^ 27 + 1

/-- `vmm_translate_in` of the address space, on numbers. -/
def translateOf (s : Vm A) (root a : ℕ) : ℕ := (vmmTranslateIn s root (BitVec.ofNat 64 a)).toNat

/-- **`user_ptr_ok` comes back**, with what its loop finds page by page. -/
theorem userPtrOk_eq {turns : ℕ} (hturns : pageTurns ≤ turns) (s : Vm A) (root : ℕ)
    (p n : BitVec 64) :
    userPtrOk turns s root p n = .ok (Lnxrm.userPtrOk (translateOf s root) p n) := by
  unfold userPtrOk Lnxrm.userPtrOk
  by_cases hc : (decide (n = 0) || !vmmIsUserRange p.toNat (p + n).toNat) = true
  · rw [if_pos hc, if_pos hc]
  rw [if_neg hc, if_neg hc]
  rw [Bool.not_eq_true, Bool.or_eq_false_iff, decide_eq_false_iff_not, Bool.not_eq_false',
    vmmIsUserRange, Bool.and_eq_true, Bool.and_eq_true, decide_eq_true_eq, decide_eq_true_eq,
    decide_eq_true_eq] at hc
  have hone : (1 : BitVec 64).toNat = 1 := rfl
  have hlast : (p + n - 1).toNat = (p + n).toNat - 1 := by
    rw [BitVec.toNat_sub, hone]
    omega
  have hlow := toNat_high p
  have hhigh := toNat_high (p + n - 1)
  simp only [userBase, userMaxVma, pageTurns, pageSize] at *
  have hcount : ((p + n - 1) &&& ~~~4095#64).toNat + 4096 = (p &&& ~~~4095#64).toNat +
      4096 * (((p + n - 1).toNat / 4096 * 4096 - p.toNat / 4096 * 4096) / 4096 + 1) := by
    rw [hlow, hhigh]
    omega
  rw [pagesMapped_eq (by omega) _ _ _ hcount (by omega)]
  unfold allMapped
  congr 2
  funext i
  unfold translateOf
  have haddr : BitVec.ofNat 64 (p.toNat / 4096 * 4096 + 4096 * i) =
      (p &&& ~~~4095#64) + BitVec.ofNat 64 (4096 * i) := by
    rw [BitVec.ofNat_add, ← hlow, BitVec.ofNat_toNat, BitVec.setWidth_eq]
  rw [haddr]
  by_cases hz : vmmTranslateIn s root ((p &&& ~~~4095#64) + BitVec.ofNat 64 (4096 * i)) = 0
  · rw [hz]
    rfl
  · rw [bne_iff_ne.mpr hz, eq_comm, bne_iff_ne]
    exact fun h => hz (BitVec.eq_of_toNat_eq h)

/-! ## What is accepted -/

/-- The page of an address is present. -/
def PagePresent (s : Vm A) (root a : ℕ) : Prop := (pageEntry s root (BitVec.ofNat 64 a)).isSome

/-- **A range of user memory**: not empty, not wrapping, and each address a
user address on a present page. -/
def ValidRange (s : Vm A) (root : ℕ) (p n : BitVec 64) : Prop :=
  0 < n.toNat ∧ p.toNat + n.toNat < 2 ^ 64 ∧ ∀ a, p.toNat ≤ a → a < p.toNat + n.toNat →
      userBase ≤ a ∧ a < userMaxVma ∧ PagePresent s root a

/-- No user page is mapped to physical address 0. -/
def NoZeroPage (s : Vm A) (root : ℕ) : Prop :=
  ∀ a, userBase ≤ a → a < userMaxVma → a % 4096 = 0 → mmu s root (BitVec.ofNat 64 a) ≠ some 0

theorem translateOf_ne_zero_iff (hz : NoZeroPage s root) {a : ℕ} (hlo : userBase ≤ a)
    (hhi : a < userMaxVma) :
    translateOf s root (a / pageSize * pageSize) ≠ 0 ↔ PagePresent s root a := by
  simp only [userBase, userMaxVma, pageSize] at *
  have hzero := hz (a / 4096 * 4096) (by unfold userBase; omega) (by unfold userMaxVma; omega)
    (by omega)
  unfold PagePresent translateOf
  rw [pageEntry_page s root (by omega), translate_eq_mmu (canonical_of_lt (by
    rw [BitVec.toNat_ofNat]
    omega))]
  unfold mmu at hzero ⊢
  cases he : pageEntry s root (BitVec.ofNat 64 (a / 4096 * 4096)) with
  | none => simp
  | some r =>
    rw [he] at hzero
    simp only [Option.map_some, ne_eq, Option.some.injEq] at hzero
    simp only [Option.map_some, Option.getD_some, Option.isSome_some, iff_true]
    exact fun h => hzero (BitVec.eq_of_toNat_eq h)

theorem userPtrOk_valid (hz : NoZeroPage s root) (p n : BitVec 64) :
    Lnxrm.userPtrOk (translateOf s root) p n = true ↔ ValidRange s root p n := by
  rw [userPtrOk_iff]
  constructor
  · rintro ⟨hpos, hlo, hhi, hall⟩
    refine ⟨hpos, ?_, fun a ha ha' => ?_⟩
    · unfold userMaxVma at hhi
      omega
    · have hlo' : userBase ≤ a := by omega
      have hhi' : a < userMaxVma := by omega
      exact ⟨hlo', hhi', (translateOf_ne_zero_iff hz hlo' hhi').mp (hall a ha ha')⟩
  · rintro ⟨hpos, -, hall⟩
    obtain ⟨hlo, -, -⟩ := hall p.toNat (by omega) (by omega)
    obtain ⟨-, hhi, -⟩ := hall (p.toNat + n.toNat - 1) (by omega) (by omega)
    refine ⟨hpos, hlo, by omega, fun a ha ha' => ?_⟩
    obtain ⟨hlo', hhi', hpres⟩ := hall a ha ha'
    exact (translateOf_ne_zero_iff hz hlo' hhi').mpr hpres

/-! ## The copies -/

theorem loadBytes_ok (n : ℕ) : ∀ va : ℕ, (∀ a, va ≤ a → a < va + n → PagePresent s root a) →
    ∃ bs, loadBytes s root va n = .ok bs := by
  induction n with
  | zero => intro va _; exact ⟨[], rfl⟩
  | succ n ih =>
    intro va h
    obtain ⟨r, hr⟩ := Option.isSome_iff_exists.mp (h va (by omega) (by omega))
    obtain ⟨bs, hbs⟩ := ih (va + 1) fun a ha ha' => h a (by omega) (by omega)
    unfold loadBytes userByte mmu
    rw [hr, hbs]
    exact ⟨_, rfl⟩

theorem storeBytes_ok {tr : ℕ → Option ℕ} (bs : List UInt8) : ∀ {va : ℕ} {s : Vm A},
    (∀ a, va ≤ a → a < va + bs.length → (tr a).isSome) → ∃ s', storeBytes tr va bs s = .ok s' := by
  induction bs with
  | nil => intro va s _; exact ⟨s, rfl⟩
  | cons b bs ih =>
    intro va s h
    rw [List.length_cons] at h
    obtain ⟨pa, hpa⟩ := Option.isSome_iff_exists.mp (h va (by omega) (by omega))
    unfold storeBytes
    rw [hpa]
    exact ih fun a ha ha' => h a (by omega) (by omega)

theorem storeUser_ok (s : Vm A) (root va : ℕ) (bs : List UInt8)
    (h : ∀ a, va ≤ a → a < va + bs.length → PagePresent s root a) :
    ∃ s', storeUser s root va bs = .ok s' := by
  refine storeBytes_ok bs fun a ha ha' => ?_
  have hp := h a ha ha'
  unfold PagePresent at hp
  simpa [mmu] using hp

/-- **`copy_to_user`** makes the check of `user_ptr_ok`. -/
theorem copyToUser_eq (turns : ℕ) (s : Vm A) (root : ℕ) (udst : BitVec 64) (ksrc : ℕ → UInt8)
    (n : BitVec 64) :
    copyToUser turns s root udst ksrc n = (userPtrOk turns s root udst n).bind fun ok =>
      if ok then (storeUser s root udst.toNat ((List.range n.toNat).map ksrc)).map ((0 : Int), ·)
      else .ok (Errno.efail, s) := by
  unfold copyToUser userPtrOk
  by_cases hc : (decide (n = 0) || !vmmIsUserRange udst.toNat (udst + n).toNat) = true
  · rw [if_pos hc, if_pos hc]
    rfl
  rw [if_neg hc, if_neg hc]
  dsimp only
  generalize pagesMapped s root _ turns _ = r
  cases r with
  | error e => rfl
  | ok ok =>
    cases ok with
    | false => rfl
    | true =>
      generalize storeUser s root udst.toNat _ = r
      cases r with
      | error e => rfl
      | ok s' => rfl

/-- **The check of user pointers is exact.** With turns enough for the pages
of user space, whatever the arguments, `user_ptr_ok`, `copy_from_user` and
`copy_to_user` come back, and they accept the ranges of user memory and no
others. -/
theorem user_pointers_exact (s : Vm A) (root : ℕ) (hz : NoZeroPage s root) (p n : BitVec 64)
    (ksrc : ℕ → UInt8) :
    ∃ enough, ∀ turns, enough ≤ turns →
      (∃ ok, userPtrOk turns s root p n = .ok ok ∧ (ok = true ↔ ValidRange s root p n)) ∧
      (∃ rc bytes, copyFromUser turns s root p n = .ok (rc, bytes) ∧
        (rc = 0 ↔ ValidRange s root p n) ∧ (rc < 0 ↔ ¬ ValidRange s root p n)) ∧
      ∃ rc s', copyToUser turns s root p ksrc n = .ok (rc, s') ∧
        (rc = 0 ↔ ValidRange s root p n) ∧ (rc < 0 ↔ ¬ ValidRange s root p n) := by
  refine ⟨pageTurns, fun turns hturns => ?_⟩
  have hok := userPtrOk_eq hturns s root p n
  have hvalid := userPtrOk_valid hz p n
  refine ⟨⟨_, hok, hvalid⟩, ?_, ?_⟩
  · unfold copyFromUser
    rw [hok]
    cases hc : Lnxrm.userPtrOk (translateOf s root) p n with
    | false =>
      rw [hc] at hvalid
      have hno : ¬ ValidRange s root p n := fun h => by simpa using hvalid.mpr h
      exact ⟨Errno.efail, [], rfl, by simp [hno, Errno.efail], by simp [hno, Errno.efail]⟩
    | true =>
      have hv := hvalid.mp hc
      obtain ⟨bs, hbs⟩ := loadBytes_ok n.toNat p.toNat fun a ha ha' => (hv.2.2 a ha ha').2.2
      refine ⟨0, bs, ?_, by simp [hv], by simp [hv]⟩
      rw [hbs]
      rfl
  rw [copyToUser_eq, hok]
  cases hc : Lnxrm.userPtrOk (translateOf s root) p n with
  | false =>
    rw [hc] at hvalid
    have hno : ¬ ValidRange s root p n := fun h => by simpa using hvalid.mpr h
    exact ⟨Errno.efail, s, rfl, by simp [hno, Errno.efail], by simp [hno, Errno.efail]⟩
  | true =>
    have hv := hvalid.mp hc
    obtain ⟨s', hs'⟩ := storeUser_ok s root p.toNat ((List.range n.toNat).map ksrc)
      fun a ha ha' =>
        (hv.2.2 a ha (by simpa using ha')).2.2
    refine ⟨0, s', ?_, by simp [hv], by simp [hv]⟩
    simp only [Except.bind, if_true, hs', Except.map]

/-- Memory in which every page of every address space is frame 1, for user
mode and writable as `flags` say. -/
def onePage (flags : BitVec 64) : Vm Unit where
  pool := ()
  mem := fun _ _ => 0x1001 ||| flags

theorem onePage_entry (root : ℕ) {a : ℕ} (ha : a < 2 ^ 47) :
    pageEntry (onePage 6) root (BitVec.ofNat 64 a) = some (0x1007, false) := by
  have hcan : canonical (BitVec.ofNat 64 a) = true := by
    refine canonical_of_lt ?_
    rw [BitVec.toNat_ofNat]
    omega
  have he : (0x1001 ||| 6 : BitVec 64) = 0x1007 := by decide
  simp only [pageEntry, onePage, hcan, he, Bool.not_true]
  rfl

/-- Sixteen bytes across two pages are accepted. -/
theorem user_pointers_two_pages : NoZeroPage (onePage 6) 1 ∧ ∃ enough, ∀ turns, enough ≤ turns →
      userPtrOk turns (onePage 6) 1 0x7f8000000ff8 16 = .ok true := by
  have hentry : ∀ a, a < userMaxVma → pageEntry (onePage 6) 1 (BitVec.ofNat 64 a) =
      some (0x1007, false) := fun a ha => onePage_entry 1 (by unfold userMaxVma at ha; omega)
  have hz : NoZeroPage (onePage 6) 1 := by
    intro a _ hhi hal hzero
    unfold mmu at hzero
    rw [hentry a hhi, Option.map_some, Option.some.injEq] at hzero
    have hn := congrArg (fun v => BitVec.getLsbD v 12) hzero
    simp at hn
  obtain ⟨enough, h⟩ := user_pointers_exact (onePage 6) 1 hz 0x7f8000000ff8 16 fun _ => 0
  refine ⟨hz, enough, fun turns hturns => ?_⟩
  obtain ⟨⟨ok, hok, hiff⟩, -, -⟩ := h turns hturns
  rw [hok, hiff.mpr]
  refine ⟨by decide, by decide, fun a ha ha' => ?_⟩
  have hp : (0x7f8000000ff8 : BitVec 64).toNat = 0x7f8000000ff8 := rfl
  have hn : (16 : BitVec 64).toNat = 16 := rfl
  have hhi : a < userMaxVma := by
    unfold userMaxVma
    omega
  refine ⟨by unfold userBase; omega, hhi, ?_⟩
  unfold PagePresent
  rw [hentry a hhi]
  rfl

end Lnxrm.Vmm
