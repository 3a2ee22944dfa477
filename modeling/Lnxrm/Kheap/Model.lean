import Lnxrm.Common.FramePool
import Lnxrm.Common.LinkedList
import Lnxrm.Common.Memory

/-!
# The kernel heap

The model of `kernel/mm/kheap.c`: chunks of nine sizes, each with a header
of eight bytes in front, on free lists whose links lie in the chunks; and
whole blocks of the buddy allocator for what does not fit a page. The heap
sees physical memory through one window, so a pointer is written as the
physical address behind it, and `0` is `NULL`.

A panic is an error, with the state the kernel panics in.
-/

namespace Lnxrm.Kheap

/-- `HEAP_MAGIC` -/
def heapMagic : ℕ := 0xECEC0001

/-- `sizeof(struct hdr)` -/
def hdrSize : ℕ := 8

/-- `PAGE_SIZE` -/
def pageSize : ℕ := 4096

/-- The bytes of a frame. -/
abbrev Bytes := Fin 4096 → UInt8

/-- The frames of a memory. -/
def framesOf (m : ℕ → UInt8) : ℕ → Bytes := fun f i => m (f * 4096 + i.val)

/-- The memory of frames. -/
def bytesOf (m : ℕ → Bytes) : ℕ → UInt8 := fun a => m (a / 4096) (Fin.ofNat 4096 a)

/-- The buddy allocator behind the heap; its addresses have 64 bits. -/
structure Buddy (A : Type) extends BlockPool A Bytes where
  addr_lt : ∀ f ∈ managed, f * 4096 < 2 ^ 64

/-- The heap's variables, the allocator and physical memory. -/
structure Heap (A : Type) where
  pool : A
  mem : ℕ → UInt8
  freelist : ℕ → ℕ
  heapUsed : BitVec 64

/-- What the heap panics with. -/
inductive Panic where
  | outOfMemory (n : ℕ)
  | badMagic (p : ℕ)
deriving DecidableEq

/-- `while ((1UL << b) < n) b++`, for at most `fuel` rounds -/
def shiftUp (n : ℕ) : ℕ → ℕ → ℕ
  | 0, b => b
  | fuel + 1, b => if 2 ^ b < n then shiftUp n fuel (b + 1) else b

/-- `bin_of` -/
def binOf (n : ℕ) : ℕ := shiftUp n 60 4 - 4

/-- `ALIGN_UP(n + sizeof(struct hdr), PAGE_SIZE)` -/
def needOf (n : ℕ) : ℕ := ((n + hdrSize) % 2 ^ 64 + 4095) % 2 ^ 64 / 4096 * 4096

/-- The order that `kmalloc` asks the buddy allocator for: the smallest whose
blocks have `need` bytes. -/
def orderOf (n : ℕ) : ℕ := shiftUp (needOf n) 52 12 - 12

variable {A : Type} (B : Buddy A)

/-- `pmm_alloc_order` -/
def Heap.pmmAllocOrder (s : Heap A) (order : ℕ) : Option (ℕ × Heap A) :=
  (B.allocOrder s.pool (framesOf s.mem) order).map fun r =>
    (r.1, { s with pool := r.2.1, mem := bytesOf r.2.2 })

/-- `pmm_free_order` -/
def Heap.pmmFreeOrder (s : Heap A) (f order : ℕ) : Heap A :=
  let r := B.release s.pool (framesOf s.mem) f order
  { s with pool := r.1, mem := bytesOf r.2 }

/-- The two stores of a header. -/
def setHeader (m : ℕ → UInt8) (h binOrOrder : ℕ) : ℕ → UInt8 :=
  store32 (store32 m h binOrOrder) (h + 4) heapMagic

/-- `*(void **)p` -/
def link (m : ℕ → UInt8) (p : ℕ) : ℕ := (load64 m p).toNat

/-- `*(void **)p = freelist[b]; freelist[b] = p;` -/
def Heap.push (s : Heap A) (b p : ℕ) : Heap A :=
  { s with
    mem := store64 s.mem p (BitVec.ofNat 64 (s.freelist b))
    freelist := Function.update s.freelist b p }

/-- One round of the loop that carves a page: the chunk at `h` gets its
header and goes to the free list. -/
def Heap.carve (s : Heap A) (b h : ℕ) : Heap A :=
  Heap.push { s with mem := setHeader s.mem h b } b (h + hdrSize)

/-- The loop that carves the page at `base` into chunks. -/
def Heap.refill (s : Heap A) (b base : ℕ) : Heap A :=
  (List.range (pageSize / 2 ^ (b + 4))).foldl (fun s i => s.carve b (base + i * 2 ^ (b + 4))) s

/-- The end of `kmalloc`: the head of the free list is taken. -/
def Heap.pop (s : Heap A) (b : ℕ) : ℕ × Heap A :=
  let p := s.freelist b
  (p, { s with
    freelist := Function.update s.freelist b (link s.mem p)
    heapUsed := s.heapUsed + BitVec.ofNat 64 (2 ^ (b + 4)) })

/-- `kmalloc` -/
def kmalloc (s : Heap A) (n : ℕ) : Except (Panic × Heap A) (ℕ × Heap A) :=
  let n := if n = 0 then 1 else n
  if 4096 < (n + hdrSize) % 2 ^ 64 then
    match s.pmmAllocOrder B (orderOf n) with
    | none => .error (.outOfMemory n, s)
    | some (f, s) =>
      .ok (f * 4096 + hdrSize, { s with
        mem := setHeader s.mem (f * 4096) (0x80 ||| orderOf n)
        heapUsed := s.heapUsed + BitVec.ofNat 64 (needOf n) })
  else
    let b := binOf ((n + hdrSize) % 2 ^ 64)
    if s.freelist b ≠ 0 then .ok (s.pop b)
    else
      match s.pmmAllocOrder B 0 with
      | none => .error (.outOfMemory n, s)
      | some (f, s) => .ok ((s.refill b (f * 4096)).pop b)

/-- `kfree` -/
def kfree (s : Heap A) (p : ℕ) : Except (Panic × Heap A) (Heap A) :=
  if p = 0 then .ok s
  else
    let h := p - hdrSize
    let binOrOrder := load32 s.mem h
    if load32 s.mem (h + 4) ≠ heapMagic then .error (.badMagic p, s)
    else if binOrOrder &&& 0x80 ≠ 0 then
      let order := binOrOrder &&& 0x7f
      .ok (({ s with heapUsed := s.heapUsed - BitVec.ofNat 64 (pageSize * 2 ^ order) } :
        Heap A).pmmFreeOrder B (h / 4096) order)
    else
      let s := s.push binOrOrder p
      .ok { s with heapUsed := s.heapUsed - BitVec.ofNat 64 (2 ^ (binOrOrder + 4)) }

end Lnxrm.Kheap
