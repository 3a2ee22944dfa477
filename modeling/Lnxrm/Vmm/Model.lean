import Lnxrm.Common.FramePool
import Lnxrm.Task

/-!
# Address spaces — the four-level page tables

The model of `kernel/mm/vmm.c`. Physical memory is an array of frames of 512
words each. A page-aligned physical address is the number of its frame, and
`ptable_ptr` of it is the frame. `pmm_alloc` and `pmm_free` are those of a
pool of frames whose records may lie in the free frames.

A panic is an error, with the state the kernel panics in.
-/

namespace Lnxrm.Vmm

/-- `PG_P` -/
def pgP : BitVec 64 := 0x001
/-- `PG_W` -/
def pgW : BitVec 64 := 0x002
/-- `PG_U` -/
def pgU : BitVec 64 := 0x004
/-- `PG_PS` -/
def pgPS : BitVec 64 := 0x080

/-- A page of the tables has a first word. -/
instance neZero_page : @NeZero ℕ Zero.ofOfNat0 512 := ⟨by decide⟩

/-- `USER_SLOT` -/
def userSlot : Fin 512 := 255

/-- `ALIAS_BASE` -/
def aliasBase : BitVec 64 := 0xffffffff80000000

/-- `pml4_phys`, as a frame -/
def masterPml4 : ℕ := 0x50

/-- `PDPT_M` of `entry64.S`, as a frame -/
def pdptM : ℕ := 0x51

/-- `PDPT_HI` of `entry64.S`, as a frame -/
def pdptHi : ℕ := 0x53

/-- `LNXRM_EFAIL` -/
def efail : Int := -1

/-- The words of a frame. -/
abbrev Page := Fin 512 → BitVec 64

/-- The pool of frames behind `pmm_alloc`: the addresses of its frames have
64 bits. -/
structure Buddy (A : Type) extends FramePool A Page where
  addr_lt : ∀ f ∈ managed, f * 4096 < 2 ^ 64

/-- A pool that is the set of its free frames. -/
def Buddy.least (top : ℕ) (htop : top ≤ 2 ^ 52) : Buddy (Finset ℕ) :=
  { FramePool.least Page top with
    addr_lt := fun f hf => by
      have := (Finset.mem_Ico.mp hf).2
      omega }

/-- The allocator and physical memory. -/
structure Vm (A : Type) where
  pool : A
  mem : ℕ → Page

/-- `e & PG_P` -/
def present (e : BitVec 64) : Bool := e &&& pgP != 0

/-- `e & PG_PS` -/
def large (e : BitVec 64) : Bool := e &&& pgPS != 0

/-- The frame of `e & ~0xfff`. -/
def frameOf (e : BitVec 64) : ℕ := e.toNat / 4096

/-- The first frame of `e & ~0x1fffff`. -/
def largeFrameOf (e : BitVec 64) : ℕ := e.toNat / 0x200000 * 512

/-- The address of a frame. -/
def addrOf (f : ℕ) : BitVec 64 := BitVec.ofNat 64 (f * 4096)

/-- `(va >> shift) & 511` -/
def index (va : BitVec 64) (shift : ℕ) : Fin 512 := Fin.ofNat 512 (va >>> shift).toNat

/-- The master PML4 as `entry64.S` builds it: cleared, with the identity map
in the first slot and the high half in the last. -/
def bootPml4 : Page := fun i =>
  if i = 0 then addrOf pdptM ||| 0x003 else if i = 511 then addrOf pdptHi ||| 0x003 else 0

variable {A : Type} (B : Buddy A)

namespace Vm

/-- `pmm_alloc` -/
def pmmAlloc (s : Vm A) : Option (ℕ × Vm A) :=
  (B.alloc s.pool s.mem).map fun r => (r.1, { pool := r.2.1, mem := r.2.2 })

/-- `pmm_free_order` -/
def pmmFreeOrder (s : Vm A) (f order : ℕ) : Vm A :=
  let r := B.release s.pool s.mem f order
  { pool := r.1, mem := r.2 }

/-- `pmm_free` -/
def pmmFree (s : Vm A) (f : ℕ) : Vm A := s.pmmFreeOrder B f 0

/-- `ptable_ptr(f)[i] = e` -/
def store (s : Vm A) (f : ℕ) (i : Fin 512) (e : BitVec 64) : Vm A :=
  { s with mem := Function.update s.mem f (Function.update (s.mem f) i e) }

/-- `memcpy` or `memset` of a whole frame -/
def fill (s : Vm A) (f : ℕ) (page : Page) : Vm A :=
  { s with mem := Function.update s.mem f page }

end Vm

/-! ## Mapping -/

/-- `ensure_table` -/
def ensureTable (s : Vm A) (parent : ℕ) (idx : Fin 512) (extraFlags : BitVec 64) :
    Except (Vm A) (ℕ × Vm A) :=
  if present (s.mem parent idx) then .ok (frameOf (s.mem parent idx), s)
  else
    match s.pmmAlloc B with
    | none => .error s
    | some (t, s) =>
      let s := s.fill t fun _ => 0
      .ok (t, s.store parent idx (addrOf t ||| pgP ||| pgW ||| extraFlags))

/-- `vmm_map_user` -/
def vmmMapUser (s : Vm A) (root : ℕ) (va pa : BitVec 64) (writable user : Bool) :
    Except (Vm A) (Int × Vm A) := do
  if va.toNat < userBase ∨ userMaxVma ≤ va.toNat ∨ va &&& 0xfff ≠ 0 then
    return (efail, s)
  let uf := if user then pgU else 0
  let (pdpt, s) ← ensureTable B s root (index va 39) pgU
  let (pd, s) ← ensureTable B s pdpt (index va 30) pgU
  let (pt, s) ← ensureTable B s pd (index va 21) pgU
  return (0, s.store pt (index va 12) (pa ||| pgP ||| (if writable then pgW else 0) ||| uf))

/-- What `walk` comes to: nothing, a word of a page table, or the entry of a
2 MiB page. -/
inductive Walked where
  | fail
  | pte (table : ℕ) (i : Fin 512)
  | big (e : BitVec 64)
deriving DecidableEq

/-- `walk` -/
def walk (s : Vm A) (root : ℕ) (va : BitVec 64) : Walked :=
  let e4 := s.mem root (index va 39)
  if !present e4 then .fail
  else
    let e3 := s.mem (frameOf e4) (index va 30)
    if !present e3 then .fail
    else
      let e2 := s.mem (frameOf e3) (index va 21)
      if !present e2 then .fail
      else if large e2 then .big e2
      else .pte (frameOf e2) (index va 12)

/-- `vmm_translate_in`. The sum in its first test wraps, so the test never
holds. -/
def vmmTranslateIn (s : Vm A) (root : ℕ) (va : BitVec 64) : BitVec 64 :=
  if aliasBase ≤ va ∧ va < aliasBase + 0x100000000 then va - aliasBase
  else
    match walk s root va with
    | .fail => 0
    | .big e => if !present e then 0 else (e &&& ~~~0x1fffff#64) ||| (va &&& 0x1fffff)
    | .pte t i =>
      if !present (s.mem t i) then 0 else (s.mem t i &&& ~~~0xfff#64) ||| (va &&& 0xfff)

/-- `vmm_unmap_user` -/
def vmmUnmapUser (s : Vm A) (root : ℕ) (va : BitVec 64) : BitVec 64 × Vm A :=
  match walk s root va with
  | .fail => (0, s)
  | .big e =>
    if !present e then (0, s)
    else
      let pd := frameOf (s.mem (frameOf (s.mem root (index va 39))) (index va 30))
      (s.mem pd (index va 21) &&& ~~~0x1fffff#64, s.store pd (index va 21) 0)
  | .pte t i =>
    if !present (s.mem t i) then (0, s) else (s.mem t i &&& ~~~0xfff#64, s.store t i 0)

/-! ## Whole address spaces -/

/-- `vmm_new_user_aspace` -/
def vmmNewUserAspace (s : Vm A) : Except (Vm A) (ℕ × Vm A) :=
  match s.pmmAlloc B with
  | none => .error s
  | some (root, s) =>
    .ok (root, s.fill root fun i => if i = userSlot then 0 else s.mem masterPml4 i)

/-- The innermost loop of `vmm_destroy_user_aspace` and of `dup_cleanup`:
the pages of a page table. -/
def freePt (s : Vm A) (pt : ℕ) : Vm A :=
  (List.finRange 512).foldl (fun s i =>
    if present (s.mem pt i) then s.pmmFree B (frameOf (s.mem pt i)) else s) s

/-- The loop around it: the page tables of a directory. -/
def freePd (s : Vm A) (pd : ℕ) : Vm A :=
  (List.finRange 512).foldl (fun s i =>
    if !present (s.mem pd i) then s
    else if large (s.mem pd i) then s.pmmFreeOrder B (largeFrameOf (s.mem pd i)) 9
    else
      let s := freePt B s (frameOf (s.mem pd i))
      s.pmmFree B (frameOf (s.mem pd i))) s

/-- The loop around that. -/
def freePdpt (s : Vm A) (pdpt : ℕ) : Vm A :=
  (List.finRange 512).foldl (fun s i =>
    if !present (s.mem pdpt i) then s
    else
      let s := freePd B s (frameOf (s.mem pdpt i))
      s.pmmFree B (frameOf (s.mem pdpt i))) s

/-- `vmm_destroy_user_aspace` -/
def vmmDestroyUserAspace (s : Vm A) (root : ℕ) : Vm A :=
  let s := (List.finRange 512).foldl (fun s i =>
    if !present (s.mem root i) ∨ i = 0 ∨ i = 511 then s
    else
      let s := freePdpt B s (frameOf (s.mem root i))
      s.pmmFree B (frameOf (s.mem root i))) s
  s.pmmFree B root

/-- `dup_cleanup` -/
def dupCleanup (s : Vm A) (dst : ℕ) : Vm A :=
  if !present (s.mem dst userSlot) then s
  else
    let s := freePdpt B s (frameOf (s.mem dst userSlot))
    let s := s.pmmFree B (frameOf (s.mem dst userSlot))
    s.store dst userSlot 0

/-! ## Copying -/

/-- The address that the loops of `dup_user_aspace` compute from their
indices. -/
def userVa (i3 i2 i1 : Fin 512) : BitVec 64 :=
  BitVec.ofNat 64 userSlot.val <<< 39 ||| BitVec.ofNat 64 i3.val <<< 30 |||
    BitVec.ofNat 64 i2.val <<< 21 ||| BitVec.ofNat 64 i1.val <<< 12

/-- The innermost loop of `dup_user_aspace`. The error is the jump to
`fail`. The source pages are read through the current address space, which
is `src`. -/
def dupPt (src spt dpt : ℕ) (i3 i2 : Fin 512) (s : Vm A) : Except (Vm A) (Vm A) :=
  (List.finRange 512).foldlM (fun s i1 =>
    if !present (s.mem spt i1) then .ok s
    else if vmmTranslateIn s src (userVa i3 i2 i1) = 0 then .ok s
    else
      match s.pmmAlloc B with
      | none => .error s
      | some (npa, s) =>
        let s := s.fill npa (s.mem (frameOf (vmmTranslateIn s src (userVa i3 i2 i1))))
        .ok (s.store dpt i1 (addrOf npa ||| (s.mem spt i1 &&& 0xfff)))) s

/-- A cleared table is allocated and linked. -/
def newTable (s : Vm A) (parent : ℕ) (i : Fin 512) : Except (Vm A) (ℕ × Vm A) :=
  match s.pmmAlloc B with
  | none => .error s
  | some (t, s) =>
    let s := s.fill t fun _ => 0
    .ok (t, s.store parent i (addrOf t ||| pgP ||| pgW ||| pgU))

/-- The loop around it. -/
def dupPd (src spd dpd : ℕ) (i3 : Fin 512) (s : Vm A) : Except (Vm A) (Vm A) :=
  (List.finRange 512).foldlM (fun s i2 =>
    if !present (s.mem spd i2) then .ok s
    else do
      let (d1, s) ← newTable B s dpd i2
      dupPt B src (frameOf (s.mem spd i2)) d1 i3 i2 s) s

/-- The loop around that. -/
def dupPdpt (src sdpt ddpt : ℕ) (s : Vm A) : Except (Vm A) (Vm A) :=
  (List.finRange 512).foldlM (fun s i3 =>
    if !present (s.mem sdpt i3) then .ok s
    else do
      let (d2, s) ← newTable B s ddpt i3
      dupPd B src (frameOf (s.mem sdpt i3)) d2 i3 s) s

/-- `dup_user_aspace` -/
def dupUserAspace (s : Vm A) (src dst : ℕ) : Int × Vm A :=
  if !present (s.mem src userSlot) then (0, s)
  else
    match newTable B s dst userSlot with
    | .error s => (efail, s)
    | .ok (d3, s) =>
      match dupPdpt B src (frameOf (s.mem src userSlot)) d3 s with
      | .ok s => (0, s)
      | .error s => (efail, dupCleanup B s dst)

end Lnxrm.Vmm
