import Lnxrm.Common.LinkedList
import Lnxrm.Common.Memory

/-!
# The frame allocator — a buddy allocator over physical memory

The model of `kernel/mm/pmm.c`. Free lists are intrusive: the first eight
bytes of a free block hold the next free block's address, so memory is
part of the state. The bitmaps are bytes of the low scratch area that
starts at `BITS_BASE`, all orders in one area, one behind the other.

A pointer chase that would never end is a `none`.
-/

namespace Lnxrm.Pmm

open Function

/-- `MAX_ORDER` -/
def maxOrder : ℕ := 11

/-- `MIN_ORDER_BITS` -/
def minOrderBits : ℕ := 12

/-- `1UL << (MIN_ORDER_BITS + order)` -/
def blockSize (order : ℕ) : ℕ := 1 <<< (minOrderBits + order)

/-- The managed window `[base_addr, top_addr)`, page aligned, above
address `0` and far enough from the end of the 64-bit range that no
address computed from it wraps: `pmm_init` starts it 2 MiB past the kernel
image and keeps 16 MiB for the heap above it. -/
structure Window where
  base : ℕ
  top : ℕ
  base_dvd : blockSize 0 ∣ base
  top_dvd : blockSize 0 ∣ top
  base_pos : 0 < base
  base_le : base ≤ top
  top_le : top + 2 ^ 22 ≤ 2 ^ 64

/-- `struct freelist` -/
structure FreeList where
  head : ℕ
  count : ℕ

/-- The allocator's variables: `fl`, the bytes behind `order_bits`, the two
counters, and the physical memory that holds the links. -/
structure State where
  fl : ℕ → FreeList
  bits : ℕ → BitVec 8
  totalPg : ℕ
  freePg : ℕ
  mem : ℕ → UInt8

variable (w : Window)

/-- `bits_bytes` -/
def bitsBytes (order : ℕ) : ℕ :=
  (((w.top - w.base) >>> (minOrderBits + order)) + 7) / 8 + 1

/-- `order_bits[order]`, relative to `BITS_BASE`: the bitmaps of the
smaller orders lie below. -/
def orderBits : ℕ → ℕ
  | 0 => 0
  | order + 1 => orderBits order + bitsBytes w order

/-- The index of a block in the bitmap of its order. -/
def bitIdx (order pa : ℕ) : ℕ := (pa - w.base) >>> (minOrderBits + order)

/-- `bit_get` -/
def bitGet (s : State) (order pa : ℕ) : Bool :=
  let idx := bitIdx w order pa
  (s.bits (orderBits w order + idx / 8)).getLsbD (idx % 8)

/-- `bit_set` -/
def bitSet (s : State) (order pa : ℕ) : State :=
  let idx := bitIdx w order pa
  let i := orderBits w order + idx / 8
  { s with bits := update s.bits i (s.bits i ||| 1#8 <<< (idx % 8)) }

/-- `bit_clr` -/
def bitClr (s : State) (order pa : ℕ) : State :=
  let idx := bitIdx w order pa
  let i := orderBits w order + idx / 8
  { s with bits := update s.bits i (s.bits i &&& ~~~(1#8 <<< (idx % 8))) }

/-- `buddy_of` -/
def buddyOf (pa order : ℕ) : ℕ := pa ^^^ blockSize order

/-- `*(u64 *)pa`: the link field of a free block. -/
def State.next (s : State) (pa : ℕ) : ℕ := (load64 s.mem pa).toNat

/-- `*(u64 *)pa = v` -/
def State.setNext (s : State) (pa v : ℕ) : State :=
  { s with mem := store64 s.mem pa (BitVec.ofNat 64 v) }

/-- `fl[order] = …` -/
def State.setFl (s : State) (order : ℕ) (l : FreeList) : State :=
  { s with fl := update s.fl order l }

/-- `*(u64 *)pa = fl[o].head; fl[o].head = pa; fl[o].count++; bit_set(o, pa);` -/
def pushFree (s : State) (o pa : ℕ) : State :=
  let s := s.setNext pa (s.fl o).head
  let s := s.setFl o { head := pa, count := (s.fl o).count + 1 }
  bitSet w s o pa

/-- The splitting loop of `pmm_alloc_order`, from order `order + n` down to
`order`: the upper half goes back, the lower half is split on. -/
def splitDown (addr order : ℕ) : ℕ → State → State
  | 0, s => s
  | n + 1, s =>
    let o := order + n
    splitDown addr order n (pushFree w s o (addr + blockSize o))

/-- `pmm_alloc_order` -/
def pmmAllocOrder (s : State) (order : ℕ) : ℕ × State :=
  if maxOrder ≤ order then (0, s)
  else
    match (List.range' order (maxOrder - order)).find? fun o => (s.fl o).count != 0 with
    | none => (0, s)
    | some o =>
      let addr := (s.fl o).head
      let next := s.next addr
      let s := s.setFl o { head := next, count := (s.fl o).count - 1 }
      let s := bitClr w s o addr
      let s := splitDown w addr order (o - order) s
      (addr, { s with freePg := s.freePg - 1 <<< order })

/-- The unlink step of `pmm_free_order`: `p` runs from `&fl[o].head` over
the link fields until `*p == bud`, and `*p` becomes `bud`'s own link. The
list has `count` cells to try. -/
def unlink (s : State) (o bud : ℕ) : Option State :=
  let l := s.fl o
  match findCell s.next bud l.count none l.head with
  | none => none
  | some none => some (s.setFl o { l with head := s.next bud })
  | some (some a) => some (s.setNext a (s.next bud))

/-- The coalescing loop of `pmm_free_order`; `n` is how often
`o + 1 < MAX_ORDER` can still hold. -/
def coalesce : ℕ → State → ℕ → ℕ → Option (State × ℕ × ℕ)
  | 0, s, pa, o => some (s, pa, o)
  | n + 1, s, pa, o =>
    let bud := buddyOf pa o
    if bud < w.base ∨ w.top ≤ bud then some (s, pa, o)
    else if bitGet w s o bud = false then some (s, pa, o)
    else
      match unlink s o bud with
      | none => none
      | some s =>
        let s := s.setFl o { s.fl o with count := (s.fl o).count - 1 }
        let s := bitClr w s o bud
        coalesce n s (min pa bud) (o + 1)

/-- `pmm_free_order` -/
def pmmFreeOrder (s : State) (pa order : ℕ) : Option State :=
  match coalesce w (maxOrder - 1 - order) s pa order with
  | none => none
  | some (s, pa, o) =>
    let s := pushFree w s o pa
    some { s with freePg := s.freePg + 1 <<< order }

/-- `resv_hits`, for the ranges `pmm_reserve` collected. -/
def resvHits (resv : List (ℕ × ℕ)) (pa size : ℕ) : Bool :=
  resv.any fun r => decide (pa < r.2) && decide (r.1 < pa + size)

/-- The loop of `pmm_init` that grows a block while the address is aligned
for twice its size and that still fits the window. -/
def growOrder (cur : ℕ) : ℕ → ℕ → ℕ
  | 0, o => o
  | n + 1, o =>
    if cur &&& (2 <<< (minOrderBits + o) - 1) = 0 ∧ cur + 2 <<< (minOrderBits + o) ≤ w.top then
      growOrder cur n (o + 1)
    else o

/-- The loop of `pmm_init` that shrinks a block until it clears every
reserved range. -/
def shrinkOrder (resv : List (ℕ × ℕ)) (cur : ℕ) : ℕ → ℕ
  | 0 => 0
  | o + 1 => if resvHits resv cur (blockSize (o + 1)) then shrinkOrder resv cur o else o + 1

/-- The order of the block that `pmm_init` seeds at `cur`. -/
def seedOrder (resv : List (ℕ × ℕ)) (cur : ℕ) : ℕ :=
  shrinkOrder resv cur (growOrder w cur (maxOrder - 1) 0)

/-- The seeding loop of `pmm_init`, for at most `n` blocks. -/
def seed (resv : List (ℕ × ℕ)) : ℕ → ℕ → State → Option State
  | 0, cur, s => if cur < w.top then none else some s
  | n + 1, cur, s =>
    if cur < w.top then
      if resvHits resv cur (blockSize 0) then
        let total := if blockSize 0 ≤ w.top - cur then s.totalPg - 1 else s.totalPg
        seed resv n (cur + blockSize 0) { s with totalPg := total }
      else
        let o := seedOrder w resv cur
        match pmmFreeOrder w s cur o with
        | none => none
        | some s => seed resv n (cur + blockSize o) s
    else some s

/-- `pmm_init` from the window on: the lists empty, the bitmaps cleared,
memory as it was. -/
def pmmInit (resv : List (ℕ × ℕ)) (mem : ℕ → UInt8) : Option State :=
  seed w resv ((w.top - w.base) / blockSize 0) w.base {
    fl := fun _ => ⟨0, 0⟩
    bits := fun _ => 0
    totalPg := (w.top - w.base) >>> minOrderBits
    freePg := 0
    mem := mem }

/-- What the allocator's clients do: allocate, free, and write into the
memory they hold. -/
inductive Op where
  | alloc (order : ℕ)
  | free (pa order : ℕ)
  | store (a : ℕ) (v : UInt8)

/-- A block is an address and an order. `Holds b a` says that the address
`a` lies in it. -/
def Holds (b : ℕ × ℕ) (a : ℕ) : Prop := b.1 ≤ a ∧ a < b.1 + blockSize b.2

instance (b : ℕ × ℕ) (a : ℕ) : Decidable (Holds b a) := by
  unfold Holds
  infer_instance

/-- One client operation, with the blocks that are outstanding. A block
that is not outstanding is never freed, and memory that is not held is
never written. -/
def step (st : State × List (ℕ × ℕ)) : Op → Option (State × List (ℕ × ℕ))
  | .alloc order =>
    let r := pmmAllocOrder w st.1 order
    some (r.2, if r.1 = 0 then st.2 else (r.1, order) :: st.2)
  | .free pa order =>
    if (pa, order) ∈ st.2 then
      (pmmFreeOrder w st.1 pa order).map fun s => (s, st.2.erase (pa, order))
    else some st
  | .store a v =>
    if st.2.any fun b => decide (Holds b a) then
      some ({ st.1 with mem := update st.1.mem a v }, st.2)
    else some st

end Lnxrm.Pmm
