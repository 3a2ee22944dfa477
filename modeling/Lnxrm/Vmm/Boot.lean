import Lnxrm.Pmm.Boot
import Lnxrm.Vmm.Helpers.Entries

/-!
# The master page tables, and which frames they reach

The tables that `entry64.S` builds and `vmm_init` of `kernel/mm/vmm.c`
completes. The kernel uses a frame under two addresses: the frame
allocator keeps its links at the physical address itself, everything else
goes through `PHYS_TO_VIRT`. The identity map covers the first GiB. The
high alias has one page directory of 512 slots for the kernel image, all of
RAM, the heap and the device windows; `vmm_init` takes slots modulo 512,
skips those of the windows and then overwrites those of the heap.

`addressable_iff` says for which frames that comes out right.
-/

namespace Lnxrm.Vmm

open Function
open Pmm (E820Entry baseAddr topAddr alignUp heapSize pmmReserve resvHits)

/-- What `vmm_init` reads of `struct fb_info` -/
structure FbInfo where
  physAddr : BitVec 64
  pitch : BitVec 32
  height : BitVec 32
  ok : Bool

/-- The range of the framebuffer, `(0, 0)` if there is none. -/
def FbInfo.range (fb : FbInfo) : ℕ × ℕ :=
  if fb.ok ∧ fb.physAddr ≠ 0 then
    (fb.physAddr.toNat, (fb.physAddr + (fb.pitch.zeroExtend 64) * (fb.height.zeroExtend 64)).toNat)
  else (0, 0)

/-- The call of `pmm_reserve` in `start_kernel` -/
def FbInfo.reserved (fb : FbInfo) : List (ℕ × ℕ) :=
  if fb.ok ∧ fb.physAddr ≠ 0 then pmmReserve [] fb.range else []

/-! ## The tables -/

/-- `PD_M` of `entry64.S`, as a frame -/
def pdM : ℕ := 0x52
/-- `PD_HI`, as a frame -/
def pdHi : ℕ := 0x54
/-- `PT_VGA`, as a frame -/
def ptVga : ℕ := 0x55
/-- `PT_DEV`, as a frame -/
def ptDev : ℕ := 0x56

/-- The entry of a 2 MiB page: `pa | PG_P | PG_W | PG_PS` -/
def largeEntry (pa : ℕ) : BitVec 64 := BitVec.ofNat 64 pa ||| pgP ||| pgW ||| pgPS

/-- The slots of the high page directory as `entry64.S` leaves them: the
kernel image, the VGA window and the device window. -/
def bootPdHi : Page := fun i =>
  if i.val < 32 then largeEntry (i.val * 0x200000)
  else if i.val = 96 then addrOf ptVga ||| 0x003
  else if i.val = 128 then addrOf ptDev ||| 0x003
  else 0

/-- The master tables of `entry64.S`, in memory that holds anything else. -/
def bootTables (rest : ℕ → Page) : ℕ → Page := fun f =>
  if f = masterPml4 then bootPml4
  else if f = pdptM then fun i => if i = 0 then addrOf pdM ||| 0x003 else 0
  else if f = pdM then fun i => largeEntry (i.val * 0x200000)
  else if f = pdptHi then fun i => if i = 510 then addrOf pdHi ||| 0x003 else 0
  else if f = pdHi then bootPdHi
  else if f = ptVga then fun i => if i = 0 then 0xB8003 else 0
  else if f = ptDev then fun _ => 0
  else rest f

/-- `(pa >> 21) & 511` -/
def slotOf (pa : ℕ) : Fin 512 := Fin.ofNat 512 (pa / 0x200000)

/-- The slots `vmm_init` leaves to device windows. -/
def isWindow (i : Fin 512) : Bool :=
  i.val == 96 || i.val == 97 || i.val == 104 || i.val == 112 || i.val == 128

/-- The framebuffer touches the 2 MiB page at `pa`. -/
def fbHits (fb : FbInfo) (pa : ℕ) : Bool :=
  fb.range.2 != 0 && decide (pa < fb.range.2) && decide (fb.range.1 < pa + 0x200000)

/-- The loop of `vmm_init` over the 2 MiB pages from `pa` on; `n` bounds how
often `pa < 0xC0000000` can still hold. -/
def aliasLoop (fb : FbInfo) (hi : ℕ) : ℕ → ℕ → Page → Page
  | 0, _, pd => pd
  | n + 1, pa, pd =>
    if pa < hi ∧ pa < 0xC0000000 then
      aliasLoop fb hi n (pa + 0x200000)
        (if isWindow (slotOf pa) || fbHits fb pa then pd
         else update pd (slotOf pa) (largeEntry pa))
    else pd

/-- `kern_end_pa` -/
def kernEndPa (bssEnd : ℕ) : ℕ := alignUp bssEnd 0x200000

/-- `hi`: the end of the heap, in 64 bits -/
def aliasEnd (map : List E820Entry) : ℕ :=
  alignUp ((topAddr map + heapSize) % 2 ^ 64) 0x200000

/-- What `vmm_init` makes of the high page directory. -/
def vmmInitPd (map : List E820Entry) (bssEnd : ℕ) (fb : FbInfo) (pd : Page) : Page :=
  let pd := aliasLoop fb (aliasEnd map) (0xC0000000 / 0x200000) (kernEndPa bssEnd) pd
  fun i =>
    if 256 ≤ i.val ∧ i.val < 272 then largeEntry (topAddr map + (i.val - 256) * 0x200000) else pd i

/-- `vmm_init` -/
def vmmInit (map : List E820Entry) (bssEnd : ℕ) (fb : FbInfo) (mem : ℕ → Page) : ℕ → Page :=
  update mem pdHi (vmmInitPd map bssEnd fb (mem pdHi))

/-! ## Translation -/

/-- Bits 63 to 47 of the address are equal. -/
def Canonical (va : BitVec 64) : Prop := va.toNat < 2 ^ 47 ∨ 2 ^ 64 - 2 ^ 47 ≤ va.toNat

instance (va : BitVec 64) : Decidable (Canonical va) := inferInstanceAs (Decidable (_ ∨ _))

/-- The processor's translation through the master tables. A physical
address has 52 bits. -/
def translate (mem : ℕ → Page) (va : BitVec 64) : Option ℕ :=
  if Canonical va then
    match walk { pool := (), mem := mem } masterPml4 va with
    | .fail => none
    | .big e => some (e.toNat % 2 ^ 52 / 0x200000 * 0x200000 + va.toNat % 0x200000)
    | .pte t i =>
      if present (mem t i) then some ((mem t i).toNat % 2 ^ 52 / 4096 * 4096 + va.toNat % 4096)
      else none
  else none

/-- `PHYS_TO_VIRT` -/
def physToVirt (pa : ℕ) : BitVec 64 := BitVec.ofNat 64 pa + aliasBase

/-- Both addresses of a frame lead to it. -/
def Addressable (mem : ℕ → Page) (pa : ℕ) : Prop :=
  translate mem (BitVec.ofNat 64 pa) = some pa ∧ translate mem (physToVirt pa) = some pa

/-- `vmm_init` gives a slot to the 2 MiB page at `q`. -/
def Given (map : List E820Entry) (bssEnd : ℕ) (fb : FbInfo) (q : ℕ) : Prop :=
  kernEndPa bssEnd ≤ q ∧ q < aliasEnd map ∧ q < 0xC0000000 ∧ isWindow (slotOf q) = false ∧
    fbHits fb q = false

/-- **A frame with a slot of its own**: below 1 GiB, and the slot of its
2 MiB page is the heap's only if the heap lies there, no device window, given
to this page or to the kernel image, and given to no page 1 or 2 GiB
higher. -/
def OwnSlot (map : List E820Entry) (bssEnd : ℕ) (fb : FbInfo) (pa : ℕ) : Prop :=
  pa < 2 ^ 30 ∧ let q := pa / 0x200000 * 0x200000
    if 0x20000000 ≤ pa ∧ pa < 0x22000000 then topAddr map = 0x20000000
    else (Given map bssEnd fb q ∨ pa < 0x4000000) ∧ isWindow (slotOf q) = false ∧
      ¬ Given map bssEnd fb (q + 2 ^ 30) ∧ ¬ Given map bssEnd fb (q + 2 * 2 ^ 30)

/-! ## The high page directory -/

variable {map : List E820Entry} {bssEnd : ℕ} {fb : FbInfo} {rest : ℕ → Page}
variable {pa : ℕ}

theorem toNat_largeEntry {a : ℕ} (ha : a % 0x200000 = 0) :
    (largeEntry a).toNat = a % 2 ^ 64 + 0x83 := by
  have hflags : pgP ||| pgW ||| pgPS = 0x83#64 := by decide
  have hof : (BitVec.ofNat 64 a).toNat = a % 2 ^ 64 := BitVec.toNat_ofNat a 64
  unfold largeEntry
  rw [BitVec.or_assoc, BitVec.or_assoc, ← BitVec.or_assoc pgP, hflags,
    toNat_flags (by rw [hof]; omega) (by decide), hof]
  rfl

theorem present_largeEntry {a : ℕ} (ha : a % 0x200000 = 0) : present (largeEntry a) = true := by
  rw [present_iff, toNat_largeEntry ha]
  omega

theorem large_largeEntry {a : ℕ} (ha : a % 0x200000 = 0) : large (largeEntry a) = true := by
  rw [large_iff, toNat_largeEntry ha]
  omega

/-- The test of the loop for one page. -/
def LoopMaps (fb : FbInfo) (hi q : ℕ) : Prop :=
  q < hi ∧ q < 0xC0000000 ∧ isWindow (slotOf q) = false ∧ fbHits fb q = false

/-- **The loop of `vmm_init`**: a slot holds the last page mapped to it, or
what it held before. -/
theorem aliasLoop_spec (hi : ℕ) (i : Fin 512) (n : ℕ) :
    ∀ (pa : ℕ) (pd : Page), 0xC0000000 ≤ pa + n * 0x200000 →
      (∃ k, LoopMaps fb hi (pa + k * 0x200000) ∧ slotOf (pa + k * 0x200000) = i ∧
        (∀ j, k < j → LoopMaps fb hi (pa + j * 0x200000) → slotOf (pa + j * 0x200000) ≠ i) ∧
        aliasLoop fb hi n pa pd i = largeEntry (pa + k * 0x200000)) ∨
      ((∀ k, LoopMaps fb hi (pa + k * 0x200000) → slotOf (pa + k * 0x200000) ≠ i) ∧
        aliasLoop fb hi n pa pd i = pd i) := by
  induction n with
  | zero =>
    intro pa pd hn
    refine Or.inr ⟨fun k hk => ?_, rfl⟩
    have := hk.2.1
    omega
  | succ n ih =>
    intro pa pd hn
    rw [aliasLoop]
    by_cases hcond : pa < hi ∧ pa < 0xC0000000
    · rw [if_pos hcond]
      have hnext : ∀ k, pa + 0x200000 + k * 0x200000 = pa + (k + 1) * 0x200000 := by
        intro k
        omega
      have hzero : pa + 0 * 0x200000 = pa := by omega
      rcases ih (pa + 0x200000)
          (if isWindow (slotOf pa) || fbHits fb pa then pd
            else update pd (slotOf pa) (largeEntry pa)) (by omega) with
        ⟨k, hk, hslot, hlast, heq⟩ | ⟨hnone, heq⟩
      · rw [hnext] at hk hslot heq
        refine Or.inl ⟨k + 1, hk, hslot, fun j hj hm => ?_, heq⟩
        obtain ⟨j, rfl⟩ : ∃ j', j = j' + 1 := ⟨j - 1, by omega⟩
        rw [← hnext] at hm ⊢
        exact hlast j (by omega) hm
      have hlater : ∀ j, 0 < j → LoopMaps fb hi (pa + j * 0x200000) →
          slotOf (pa + j * 0x200000) ≠ i := by
        intro j hj hm
        obtain ⟨j, rfl⟩ : ∃ j', j = j' + 1 := ⟨j - 1, by omega⟩
        rw [← hnext] at hm ⊢
        exact hnone j hm
      by_cases hmapped : LoopMaps fb hi pa ∧ slotOf pa = i
      · refine Or.inl ⟨0, by rw [hzero]; exact hmapped.1, by rw [hzero]; exact hmapped.2,
          fun j hj hm => hlater j hj hm, ?_⟩
        rw [heq, hmapped.1.2.2.1, hmapped.1.2.2.2, hzero, ← hmapped.2]
        simp
      refine Or.inr ⟨fun j hm => ?_, ?_⟩
      · rcases Nat.eq_zero_or_pos j with rfl | hj
        · rw [hzero] at hm ⊢
          exact fun he => hmapped ⟨hm, he⟩
        · exact hlater j hj hm
      · rw [heq]
        split_ifs with hskip
        · rfl
        · rw [Bool.or_eq_true, not_or, Bool.not_eq_true, Bool.not_eq_true] at hskip
          exact update_of_ne
            (fun he => hmapped ⟨⟨hcond.1, hcond.2, hskip.1, hskip.2⟩, he.symm⟩) _ _
    · rw [if_neg hcond]
      refine Or.inr ⟨fun k hk => ?_, rfl⟩
      have h1 := hk.1
      have h2 := hk.2.1
      omega

theorem slotOf_val (q : ℕ) : (slotOf q).val = q / 0x200000 % 512 := rfl

theorem kernEndPa_dvd (bssEnd : ℕ) : kernEndPa bssEnd % 0x200000 = 0 := by
  unfold kernEndPa alignUp
  omega

/-- **Who has a slot** that is neither the heap's nor a window's: the highest
page given to it, or what `entry64.S` put there. -/
theorem vmmInitPd_slot (map : List E820Entry) (bssEnd : ℕ) (fb : FbInfo) {p : ℕ}
    (hp : p % 0x200000 = 0) (hlt : p < 2 ^ 30) (hheap : ¬(0x20000000 ≤ p ∧ p < 0x22000000)) :
    (∃ q, Given map bssEnd fb q ∧ q % 0x200000 = 0 ∧ (q = p ∨ q = p + 2 ^ 30 ∨ q = p + 2 * 2 ^ 30) ∧
      (∀ q', q < q' → (q' = p + 2 ^ 30 ∨ q' = p + 2 * 2 ^ 30) → ¬ Given map bssEnd fb q') ∧
      vmmInitPd map bssEnd fb bootPdHi (slotOf p) = largeEntry q) ∨
    (¬ Given map bssEnd fb p ∧ ¬ Given map bssEnd fb (p + 2 ^ 30) ∧
      ¬ Given map bssEnd fb (p + 2 * 2 ^ 30) ∧
      vmmInitPd map bssEnd fb bootPdHi (slotOf p) = bootPdHi (slotOf p)) := by
  have hlo := kernEndPa_dvd bssEnd
  have hpd : vmmInitPd map bssEnd fb bootPdHi (slotOf p) =
      aliasLoop fb (aliasEnd map) (0xC0000000 / 0x200000) (kernEndPa bssEnd) bootPdHi
        (slotOf p) := by
    unfold vmmInitPd
    rw [if_neg]
    rw [slotOf_val]
    omega
  -- the pages of the loop that share the slot
  have hshare : ∀ q, slotOf q = slotOf p → q % 0x200000 = 0 → q < 0xC0000000 →
      q = p ∨ q = p + 2 ^ 30 ∨ q = p + 2 * 2 ^ 30 := by
    intro q hq hdvd hlt'
    have := congrArg Fin.val hq
    rw [slotOf_val, slotOf_val] at this
    omega
  have hsame : ∀ q, (q = p ∨ q = p + 2 ^ 30 ∨ q = p + 2 * 2 ^ 30) →
      slotOf q = slotOf p ∧ q % 0x200000 = 0 := by
    intro q hq
    refine ⟨Fin.ext ?_, by omega⟩
    rw [slotOf_val, slotOf_val]
    omega
  -- every page given is one of the loop
  have hgiven : ∀ q, Given map bssEnd fb q → q % 0x200000 = 0 →
      ∃ k, q = kernEndPa bssEnd + k * 0x200000 ∧ LoopMaps fb (aliasEnd map) q := by
    rintro q ⟨h1, h2, h3, h4, h5⟩ hdvd
    exact ⟨(q - kernEndPa bssEnd) / 0x200000, by omega, h2, h3, h4, h5⟩
  rw [hpd]
  rcases aliasLoop_spec (aliasEnd map) (slotOf p) (0xC0000000 / 0x200000) (kernEndPa bssEnd)
      bootPdHi (by omega) with ⟨k, hk, hslot, hlast, heq⟩ | ⟨hnone, heq⟩
  · have hdvd : (kernEndPa bssEnd + k * 0x200000) % 0x200000 = 0 := by omega
    refine Or.inl ⟨_, ⟨by omega, hk⟩, hdvd, hshare _ hslot hdvd hk.2.1, fun q' hq' hcase hg => ?_,
      heq⟩
    obtain ⟨hs, hd⟩ := hsame q' (Or.inr hcase)
    obtain ⟨j, rfl, hm⟩ := hgiven q' hg hd
    exact hlast j (by omega) hm hs
  have hnot : ∀ q, (q = p ∨ q = p + 2 ^ 30 ∨ q = p + 2 * 2 ^ 30) → ¬ Given map bssEnd fb q := by
    intro q hq hg
    obtain ⟨hs, hd⟩ := hsame q hq
    obtain ⟨j, rfl, hm⟩ := hgiven q hg hd
    exact hnone j hm hs
  exact Or.inr ⟨hnot p (Or.inl rfl), hnot _ (Or.inr (Or.inl rfl)), hnot _ (Or.inr (Or.inr rfl)),
    heq⟩

/-! ## Translation through the tables -/

/-- The tables after `vmm_init`. -/
def masterTables (map : List E820Entry) (bssEnd : ℕ) (fb : FbInfo) (rest : ℕ → Page) : ℕ → Page :=
  vmmInit map bssEnd fb (bootTables rest)

theorem translate_lt {mem : ℕ → Page} {va : BitVec 64} (h : translate mem va = some pa) :
    pa < 2 ^ 52 := by
  unfold translate at h
  split_ifs at h with hcan
  split at h
  · cases h
  · rw [Option.some.injEq] at h
    omega
  · split_ifs at h with hp
    rw [Option.some.injEq] at h
    omega

theorem walk_identity (hpa : pa < 2 ^ 47) :
    walk { pool := (), mem := masterTables map bssEnd fb rest } masterPml4 (BitVec.ofNat 64 pa) =
      if pa < 2 ^ 30 then .big (largeEntry (pa / 0x200000 * 0x200000)) else .fail := by
  have hnat : (BitVec.ofNat 64 pa).toNat = pa := by
    rw [BitVec.toNat_ofNat, Nat.mod_eq_of_lt (by omega)]
  have h4 := index_val (BitVec.ofNat 64 pa) 39
  have h3 := index_val (BitVec.ofNat 64 pa) 30
  have h2 := index_val (BitVec.ofNat 64 pa) 21
  rw [hnat] at h4 h3 h2
  have p4 : present (addrOf pdptM ||| 0x003) = true := by decide
  have p3 : present (addrOf pdM ||| 0x003) = true := by decide
  have f4 : frameOf (addrOf pdptM ||| 0x003) = pdptM := by decide
  have f3 : frameOf (addrOf pdM ||| 0x003) = pdM := by decide
  have e4 : masterTables map bssEnd fb rest masterPml4 = bootPml4 := rfl
  have e3 : masterTables map bssEnd fb rest pdptM =
    fun i => if i = 0 then addrOf pdM ||| 0x003 else 0 := rfl
  have e2 : masterTables map bssEnd fb rest pdM = fun i => largeEntry (i.val * 0x200000) := rfl
  unfold walk
  by_cases hslot : pa < 2 ^ 39
  · have i4 : index (BitVec.ofNat 64 pa) 39 = 0 := Fin.ext (by rw [h4]; show _ = 0; omega)
    have hroot : bootPml4 0 = addrOf pdptM ||| 0x003 := rfl
    by_cases hgib : pa < 2 ^ 30
    · have i3 : index (BitVec.ofNat 64 pa) 30 = 0 := Fin.ext (by rw [h3]; show _ = 0; omega)
      have i2 : (index (BitVec.ofNat 64 pa) 21).val = pa / 0x200000 := by
        rw [h2]
        omega
      have hdvd : pa / 0x200000 * 0x200000 % 0x200000 = 0 := by omega
      simp only [i4, i3, i2, e4, e3, e2, hroot, p4, p3, f4, f3, if_true, hgib,
        present_largeEntry hdvd, large_largeEntry hdvd, Bool.not_true, Bool.false_eq_true, if_false]
    have i3 : index (BitVec.ofNat 64 pa) 30 ≠ 0 := by
      intro h
      rw [h] at h3
      omega
    simp only [i4, i3, e4, e3, hroot, p4, f4, if_false, hgib, not_present_zero, Bool.not_true,
      Bool.false_eq_true, Bool.not_false, if_true]
  have hroot : bootPml4 (index (BitVec.ofNat 64 pa) 39) = 0 := by
    unfold bootPml4
    rw [if_neg (fun h => by rw [h] at h4; omega), if_neg (fun h => by rw [h] at h4; omega)]
  have hgib : ¬ pa < 2 ^ 30 := by omega
  simp only [e4, hroot, not_present_zero, Bool.not_false, if_true, hgib, if_false]

/-- **The identity map** has the first GiB, and nothing else. -/
theorem translate_identity (hpa : pa < 2 ^ 64) :
    translate (masterTables map bssEnd fb rest) (BitVec.ofNat 64 pa) = some pa ↔ pa < 2 ^ 30 := by
  have hnat : (BitVec.ofNat 64 pa).toNat = pa := by
    rw [BitVec.toNat_ofNat, Nat.mod_eq_of_lt hpa]
  by_cases hlow : pa < 2 ^ 47
  · have hcan : Canonical (BitVec.ofNat 64 pa) := Or.inl (by rw [hnat]; exact hlow)
    unfold translate
    rw [if_pos hcan, walk_identity hlow]
    by_cases hgib : pa < 2 ^ 30
    · have hdvd : pa / 0x200000 * 0x200000 % 0x200000 = 0 := by omega
      simp only [hgib, if_true, toNat_largeEntry hdvd, hnat, Option.some.injEq, iff_true]
      omega
    · simp only [hgib, if_false, reduceCtorEq]
  refine ⟨fun h => ?_, fun h => absurd h (by omega)⟩
  -- the address is not canonical, or larger than any physical address
  have hlt := translate_lt h
  have hcan : ¬ Canonical (BitVec.ofNat 64 pa) := by
    unfold Canonical
    rw [hnat]
    omega
  unfold translate at h
  rw [if_neg hcan] at h
  cases h

theorem toNat_physToVirt (hpa : pa < 2 ^ 30) : (physToVirt pa).toNat = 2 ^ 64 - 2 ^ 31 + pa := by
  have hbase : aliasBase.toNat = 2 ^ 64 - 2 ^ 31 := by decide
  unfold physToVirt
  rw [BitVec.toNat_add, BitVec.toNat_ofNat, hbase]
  omega

/-- **The high alias** of the first GiB goes through one page directory. -/
theorem walk_alias (hpa : pa < 2 ^ 30) :
    walk { pool := (), mem := masterTables map bssEnd fb rest } masterPml4 (physToVirt pa) =
      let e := vmmInitPd map bssEnd fb bootPdHi (slotOf pa)
      if !present e then .fail
      else if large e then .big e
      else .pte (frameOf e) (index (physToVirt pa) 12) := by
  have hnat := toNat_physToVirt hpa
  have h4 : index (physToVirt pa) 39 = 511 := by
    refine Fin.ext ?_
    rw [index_val, hnat]
    omega
  have h3 : index (physToVirt pa) 30 = 510 := by
    refine Fin.ext ?_
    rw [index_val, hnat]
    omega
  have h2 : index (physToVirt pa) 21 = slotOf pa := by
    refine Fin.ext ?_
    rw [index_val, hnat, slotOf_val]
    omega
  have e4 : masterTables map bssEnd fb rest masterPml4 511 = addrOf pdptHi ||| 0x003 := rfl
  have e3 : masterTables map bssEnd fb rest pdptHi 510 = addrOf pdHi ||| 0x003 := rfl
  have p4 : present (addrOf pdptHi ||| 0x003) = true := by decide
  have p3 : present (addrOf pdHi ||| 0x003) = true := by decide
  have f4 : frameOf (addrOf pdptHi ||| 0x003) = pdptHi := by decide
  have f3 : frameOf (addrOf pdHi ||| 0x003) = pdHi := by decide
  have e2 : masterTables map bssEnd fb rest pdHi = vmmInitPd map bssEnd fb bootPdHi := by
    unfold masterTables vmmInit
    rw [update_self]
    rfl
  unfold walk
  simp only [h4, h3, h2, e4, e3, p4, p3, f4, f3, e2, Bool.not_true, Bool.false_eq_true, if_false]

theorem translate_alias_large {pa a : ℕ} (hpa : pa < 2 ^ 30) (ha : a % 0x200000 = 0)
    (he : vmmInitPd map bssEnd fb bootPdHi (slotOf pa) = largeEntry a) :
    translate (masterTables map bssEnd fb rest) (physToVirt pa) = some pa ↔
      a % 2 ^ 52 = pa / 0x200000 * 0x200000 := by
  have hnat := toNat_physToVirt hpa
  have hcan : Canonical (physToVirt pa) := Or.inr (by omega)
  unfold translate
  rw [if_pos hcan, walk_alias hpa, he]
  simp only [present_largeEntry ha, large_largeEntry ha, Bool.not_true, Bool.false_eq_true, if_false,
    if_true, toNat_largeEntry ha, hnat, Option.some.injEq]
  omega

theorem translate_alias_fail (hpa : pa < 2 ^ 30)
    (he : vmmInitPd map bssEnd fb bootPdHi (slotOf pa) = 0) :
    translate (masterTables map bssEnd fb rest) (physToVirt pa) = none := by
  unfold translate
  split_ifs with hcan
  · rw [walk_alias hpa, he]
    rfl
  · rfl

theorem vmmInitPd_window (map : List E820Entry) (bssEnd : ℕ) (fb : FbInfo)
    (hpa : pa < 2 ^ 30) (hw : isWindow (slotOf pa) = true) :
    vmmInitPd map bssEnd fb bootPdHi (slotOf pa) = bootPdHi (slotOf pa) := by
  have hslot : slotOf pa = slotOf (pa / 0x200000 * 0x200000) := by
    refine Fin.ext ?_
    rw [slotOf_val, slotOf_val]
    omega
  have hheap : ¬(0x20000000 ≤ pa / 0x200000 * 0x200000 ∧ pa / 0x200000 * 0x200000 < 0x22000000) := by
    intro h
    have hval := slotOf_val pa
    simp only [isWindow, Bool.or_eq_true, beq_iff_eq] at hw
    omega
  rw [hslot] at hw ⊢
  rcases vmmInitPd_slot map bssEnd fb
      (p := pa / 0x200000 * 0x200000) (by omega) (by omega) hheap with ⟨q, hg, -, hq, -, -⟩ | ⟨-, -, -, h⟩
  · have hsame : slotOf q = slotOf (pa / 0x200000 * 0x200000) := by
      refine Fin.ext ?_
      rw [slotOf_val, slotOf_val]
      omega
    have := hg.2.2.2.1
    rw [hsame, hw] at this
    cases this
  · exact h

theorem translate_alias_window (hpa : pa < 2 ^ 30) (hbig : 0x100000 ≤ pa)
    (hw : isWindow (slotOf pa) = true) :
    translate (masterTables map bssEnd fb rest) (physToVirt pa) ≠ some pa := by
  have hpd := vmmInitPd_window map bssEnd fb hpa hw
  have hnat := toNat_physToVirt hpa
  have hcan : Canonical (physToVirt pa) := Or.inr (by omega)
  have hvga : masterTables map bssEnd fb rest ptVga = fun i => if i = 0 then 0xB8003 else 0 := rfl
  have hdev : masterTables map bssEnd fb rest ptDev = fun _ => 0 := rfl
  simp only [isWindow, Bool.or_eq_true, beq_iff_eq] at hw
  have hcase : bootPdHi (slotOf pa) = 0 ∨ bootPdHi (slotOf pa) = addrOf ptVga ||| 0x003 ∨
      bootPdHi (slotOf pa) = addrOf ptDev ||| 0x003 := by
    rcases hw with (((h | h) | h) | h) | h <;> simp [bootPdHi, h]
  rcases hcase with h | h | h
  · rw [translate_alias_fail hpa (hpd.trans h)]
    exact Option.some_ne_none pa |>.symm
  · have hp : present (addrOf ptVga ||| 0x003) = true := by decide
    have hl : large (addrOf ptVga ||| 0x003) = false := by decide
    have hf : frameOf (addrOf ptVga ||| 0x003) = ptVga := by decide
    unfold translate
    rw [if_pos hcan, walk_alias hpa, hpd, h]
    simp only [hp, hl, hf, hvga, Bool.not_true, Bool.false_eq_true, if_false]
    split_ifs with h0 hpres
    · intro heq
      rw [Option.some.injEq] at heq
      have hent : (0xB8003 : BitVec 64).toNat = 0xB8003 := by decide
      omega
    · exact Option.some_ne_none pa |>.symm
    · rename_i hz
      exact absurd hz (by decide)
    · exact Option.some_ne_none pa |>.symm
  have hp : present (addrOf ptDev ||| 0x003) = true := by decide
  have hl : large (addrOf ptDev ||| 0x003) = false := by decide
  have hf : frameOf (addrOf ptDev ||| 0x003) = ptDev := by decide
  unfold translate
  rw [if_pos hcan, walk_alias hpa, hpd, h]
  simp only [hp, hl, hf, hdev, not_present_zero, Bool.not_true, Bool.false_eq_true, if_false]
  exact Option.some_ne_none pa |>.symm

theorem translate_alias_heap (hlo : 0x20000000 ≤ pa) (hhi : pa < 0x22000000) :
    translate (masterTables map bssEnd fb rest) (physToVirt pa) = some pa ↔
      topAddr map = 0x20000000 := by
  have hval := slotOf_val pa
  have hpd : vmmInitPd map bssEnd fb bootPdHi (slotOf pa) =
      largeEntry (topAddr map + (pa / 0x200000 - 256) * 0x200000) := by
    unfold vmmInitPd
    rw [if_pos (by omega), hval, show pa / 0x200000 % 512 = pa / 0x200000 by omega]
  have htop := Pmm.topAddr_eq map
  have hregion := (Pmm.largestRegion_ram map).1
  have hheap : heapSize = 0x1000000 := by decide
  have hdvd : topAddr map % 0x200000 = 0 ∧
      (topAddr map ≤ 2 ^ 32 ∨ 2 ^ 64 - 0x1000000 ≤ topAddr map ∧ topAddr map < 2 ^ 64) := by
    rw [htop, hheap]
    unfold Pmm.alignDown
    split_ifs <;> omega
  rw [translate_alias_large (by omega) (by omega) hpd]
  omega

/-- **Which frames are addressable**: exactly those with a slot of their
own. -/
theorem addressable_iff_ownSlot (hlo : 0x100000 ≤ pa) (hpa : pa < 2 ^ 64) :
    Addressable (masterTables map bssEnd fb rest) pa ↔ OwnSlot map bssEnd fb pa := by
  unfold Addressable OwnSlot
  rw [translate_identity hpa]
  refine and_congr_right fun hgib => ?_
  by_cases hheap : 0x20000000 ≤ pa ∧ pa < 0x22000000
  · simp only [hheap, and_self, if_true]
    exact translate_alias_heap hheap.1 hheap.2
  simp only [hheap, if_false]
  have hslot : slotOf pa = slotOf (pa / 0x200000 * 0x200000) := by
    refine Fin.ext ?_
    rw [slotOf_val, slotOf_val]
    omega
  by_cases hw : isWindow (slotOf pa) = true
  · refine ⟨fun h => absurd h (translate_alias_window hgib hlo hw), fun h => ?_⟩
    rw [← hslot, hw] at h
    exact absurd h.2.1 Bool.noConfusion
  have hnw : isWindow (slotOf (pa / 0x200000 * 0x200000)) = false := by
    rw [← hslot]
    simpa using hw
  rcases vmmInitPd_slot map bssEnd fb
      (p := pa / 0x200000 * 0x200000) (by omega) (by omega) (by omega) with
    ⟨q, hg, hdvd, hq, hlast, hpd⟩ | ⟨h0, h1, h2, hpd⟩
  · rw [translate_alias_large hgib hdvd (by rw [hslot]; exact hpd)]
    constructor
    · intro heq
      have hqp : q = pa / 0x200000 * 0x200000 := by omega
      subst hqp
      exact ⟨Or.inl hg, hnw, hlast _ (by omega) (Or.inl rfl), hlast _ (by omega) (Or.inr rfl)⟩
    · rintro ⟨-, -, h1, h2⟩
      rcases hq with rfl | rfl | rfl
      · omega
      · exact absurd hg h1
      · exact absurd hg h2
  -- nothing was put into the slot
  by_cases himage : pa < 0x4000000
  · have hboot : bootPdHi (slotOf pa) = largeEntry (pa / 0x200000 * 0x200000) := by
      have hval := slotOf_val pa
      have hi : (slotOf pa).val = pa / 0x200000 := by omega
      unfold bootPdHi
      rw [if_pos (by omega), hi]
    have hdvd : pa / 0x200000 * 0x200000 % 0x200000 = 0 := by omega
    rw [translate_alias_large hgib hdvd (by rw [hslot, hpd, ← hslot]; exact hboot)]
    exact ⟨fun _ => ⟨Or.inr himage, hnw, h1, h2⟩, fun _ => by omega⟩
  have hboot : bootPdHi (slotOf pa) = 0 := by
    have hval := slotOf_val pa
    simp only [isWindow, Bool.or_eq_true, beq_iff_eq, not_or] at hw
    unfold bootPdHi
    rw [if_neg (by omega), if_neg (by omega), if_neg (by omega)]
  rw [translate_alias_fail hgib (by rw [hslot, hpd, ← hslot]; exact hboot)]
  refine ⟨fun h => absurd h.symm (Option.some_ne_none pa), fun h => ?_⟩
  rcases h.1 with hg | hlow
  · exact absurd hg h0
  · exact absurd hlow himage

/-! ## All managed frames -/

/-- **Every managed frame is addressable exactly when** every frame of the
window that the framebuffer leaves free has a slot of its own. -/
theorem managed_addressable_iff (map : List E820Entry) (bssEnd : ℕ) (fb : FbInfo)
    (w : Pmm.Window) (hbase : w.base = baseAddr bssEnd) (htop : w.top = topAddr map)
    (mem : ℕ → UInt8) (rest : ℕ → Page) :
    (∀ pa, 4096 ∣ pa → (∃ b, Pmm.Returns w fb.reserved mem b ∧ Pmm.Holds b pa) →
      Addressable (masterTables map bssEnd fb rest) pa) ↔
    ∀ pa, 4096 ∣ pa → baseAddr bssEnd ≤ pa → pa < topAddr map →
      resvHits fb.reserved pa 4096 = false → OwnSlot map bssEnd fb pa := by
  have hbounds := Pmm.baseAddr_bounds bssEnd
  have hend := w.top_le
  have hseeded : ∀ pa, 4096 ∣ pa → (Pmm.Seeded w fb.reserved pa ↔
      baseAddr bssEnd ≤ pa ∧ pa < topAddr map ∧ resvHits fb.reserved pa 4096 = false) := by
    intro pa hdvd
    unfold Pmm.Seeded
    rw [hbase, htop, Pmm.blockSize_zero, Nat.div_mul_cancel hdvd]
  constructor
  · intro h pa hdvd hlo hhi hclear
    have haddr := h pa hdvd
      ((Pmm.returns_iff_seeded w _ mem pa).mpr ((hseeded pa hdvd).mpr ⟨hlo, hhi, hclear⟩))
    exact (addressable_iff_ownSlot (by omega) (by omega)).mp haddr
  · intro h pa hdvd hret
    obtain ⟨hlo, hhi, hclear⟩ :=
      (hseeded pa hdvd).mp ((Pmm.returns_iff_seeded w _ mem pa).mp hret)
    exact (addressable_iff_ownSlot (by omega) (by omega)).mpr (h pa hdvd hlo hhi hclear)

/-- No framebuffer. -/
def noFb : FbInfo := ⟨0, 0, 0, false⟩

/-- A PC whose RAM above 1 MiB ends at `top`. -/
def plainMap (top : ℕ) : List E820Entry :=
  [⟨0, 0x9fc00, Pmm.e820Ram⟩, ⟨0x100000, BitVec.ofNat 64 (top - 0x100000), Pmm.e820Ram⟩]

/-- **With 256 MiB a frame at 192 MiB is handed out** whose high alias is the
VGA window's slot. -/
theorem vga_slot_returned :
    ∃ w : Pmm.Window, w.base = baseAddr 0x400000 ∧ w.top = topAddr (plainMap 0x10000000) ∧
      ∀ mem rest, (∃ b, Pmm.Returns w noFb.reserved mem b ∧ Pmm.Holds b 0xC000000) ∧
        ¬ Addressable (masterTables (plainMap 0x10000000) 0x400000 noFb rest) 0xC000000 := by
  refine ⟨⟨0x600000, 0xf000000, by decide, by decide, by decide, by decide, by decide⟩, by decide,
    by decide, fun mem rest => ⟨?_, fun h => ?_⟩⟩
  · rw [Pmm.returns_iff_seeded]
    decide
  · exact translate_alias_window (by decide) (by decide) (by decide) h.2

/-- With 128 MiB and no framebuffer every managed frame is addressable. -/
theorem managed_addressable_plain :
    ∃ w : Pmm.Window, w.base = baseAddr 0x400000 ∧ w.top = topAddr (plainMap 0x8000000) ∧
      ∀ pa, 4096 ∣ pa → (∃ b, Pmm.Returns w noFb.reserved (fun _ => 0) b ∧ Pmm.Holds b pa) →
        Addressable (masterTables (plainMap 0x8000000) 0x400000 noFb fun _ _ => 0) pa := by
  have htop : topAddr (plainMap 0x8000000) = 0x7000000 := by decide
  have hend : aliasEnd (plainMap 0x8000000) = 0x8000000 := by decide
  have hbase : baseAddr 0x400000 = 0x600000 := by decide
  have hkern : kernEndPa 0x400000 = 0x400000 := by decide
  have hfb : ∀ q, fbHits noFb q = false := fun q => rfl
  refine ⟨⟨0x600000, 0x7000000, by decide, by decide, by decide, by decide, by decide⟩, hbase.symm,
    htop.symm, (managed_addressable_iff (plainMap 0x8000000) 0x400000 noFb _ hbase.symm htop.symm
      _ _).mpr fun pa _ hlo hhi _ => ?_⟩
  rw [hbase] at hlo
  rw [htop] at hhi
  have hval := slotOf_val (pa / 0x200000 * 0x200000)
  have hw : isWindow (slotOf (pa / 0x200000 * 0x200000)) = false := by
    simp only [isWindow, Bool.or_eq_false_iff, beq_eq_false_iff_ne]
    omega
  refine ⟨by omega, ?_⟩
  simp only [show ¬(0x20000000 ≤ pa ∧ pa < 0x22000000) by omega, if_false]
  refine ⟨Or.inl ⟨by omega, by omega, by omega, hw, hfb _⟩, hw, fun h => ?_, fun h => ?_⟩
  · have := h.2.1
    omega
  · have := h.2.1
    omega

end Lnxrm.Vmm
