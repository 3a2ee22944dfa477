import Lnxrm.Common.Memory
import Lnxrm.Vmm.Model

/-!
# User memory — what the kernel reads and writes through the page tables

The model of `user_ptr_ok`, `copy_from_user` and `copy_to_user` of
`kernel/task.c`, over the page tables of `Vmm.Model`. `mmu` is the walk the
processor makes for an address; an access where it finds nothing is a page
fault in the kernel, which panics. The kernel runs with `CR0.WP` clear, so
an access of its own ignores `PG_W` and `PG_U`. A `memcpy` is made under
the translations at its start.

A loop over pages is given a number of turns; when they are used up the
call has not come back.
-/

namespace Lnxrm.Vmm

variable {A : Type}

/-- How a kernel path ends without coming back. -/
inductive Stop (A : Type) where
  /-- `panic` -/
  | panic (s : Vm A)
  /-- a page fault of the kernel at an address -/
  | fault (va : ℕ) (s : Vm A)
  /-- a byte is read that is not there -/
  | outside
  /-- a loop goes on -/
  | hang

/-! ## Bytes of physical memory -/

namespace Vm

/-- The byte at a physical address. -/
def byte (s : Vm A) (pa : ℕ) : UInt8 :=
  wordByte (s.mem (pa / 4096) (Fin.ofNat 512 (pa % 4096 / 8))) (pa % 8)

/-- A byte is stored at a physical address. -/
def setByte (s : Vm A) (pa : ℕ) (b : UInt8) : Vm A :=
  s.store (pa / 4096) (Fin.ofNat 512 (pa % 4096 / 8))
    (setWordByte (s.mem (pa / 4096) (Fin.ofNat 512 (pa % 4096 / 8))) (pa % 8) b)

end Vm

/-! ## The processor -/

/-- An address of 48 bits, sign-extended. -/
def canonical (va : BitVec 64) : Bool :=
  decide (va.toNat < 2 ^ 47) || decide (2 ^ 64 - 2 ^ 47 ≤ va.toNat)

/-- The entry that maps the page of an address, and whether the page is a
large one. -/
def pageEntry (s : Vm A) (root : ℕ) (va : BitVec 64) : Option (BitVec 64 × Bool) :=
  let e4 := s.mem root (index va 39)
  if !canonical va || !present e4 then none
  else
    let e3 := s.mem (frameOf e4) (index va 30)
    if !present e3 then none
    else
      let e2 := s.mem (frameOf e3) (index va 21)
      if !present e2 then none
      else if large e2 then some (e2, true)
      else
        let e1 := s.mem (frameOf e2) (index va 12)
        if !present e1 then none else some (e1, false)

/-- **The processor's translation** of an address; `none` is a page fault. -/
def mmu (s : Vm A) (root : ℕ) (va : BitVec 64) : Option (BitVec 64) :=
  (pageEntry s root va).map fun r =>
    if r.2 then (r.1 &&& ~~~0x1fffff#64) ||| (va &&& 0x1fffff)
    else (r.1 &&& ~~~0xfff#64) ||| (va &&& 0xfff)

/-- The byte at an address, where one is mapped. -/
def userByte (s : Vm A) (root va : ℕ) : Option UInt8 :=
  (mmu s root (BitVec.ofNat 64 va)).map fun pa => s.byte pa.toNat

/-- `memcpy` from `n` bytes at an address -/
def loadBytes (s : Vm A) (root : ℕ) : ℕ → ℕ → Except (Stop A) (List UInt8)
  | _, 0 => .ok []
  | va, n + 1 =>
    match userByte s root va with
    | none => .error (.fault va s)
    | some b => (loadBytes s root (va + 1) n).map (b :: ·)

/-- The bytes are stored one after the other, where `tr` translates their
addresses to. -/
def storeBytes (tr : ℕ → Option ℕ) : ℕ → List UInt8 → Vm A → Except (Stop A) (Vm A)
  | _, [], s => .ok s
  | va, b :: bs, s =>
    match tr va with
    | none => .error (.fault va s)
    | some pa => storeBytes tr (va + 1) bs (s.setByte pa b)

/-- `memcpy` to an address -/
def storeUser (s : Vm A) (root va : ℕ) (bs : List UInt8) : Except (Stop A) (Vm A) :=
  storeBytes (fun a => (mmu s root (BitVec.ofNat 64 a)).map BitVec.toNat) va bs s

/-! ## Checked copies -/

/-- The loop over the pages from `pg` to `hi`, in `user_ptr_ok` and again in
`copy_to_user`. -/
def pagesMapped (s : Vm A) (root : ℕ) (hi : BitVec 64) : ℕ → BitVec 64 → Except (Stop A) Bool
  | 0, _ => .error .hang
  | turns + 1, pg =>
    if pg ≤ hi then
      if vmmTranslateIn s root pg = 0 then .ok false
      else pagesMapped s root hi turns (pg + 4096)
    else .ok true

/-- `user_ptr_ok` -/
def userPtrOk (turns : ℕ) (s : Vm A) (root : ℕ) (p n : BitVec 64) : Except (Stop A) Bool :=
  if n = 0 || !vmmIsUserRange p.toNat (p + n).toNat then .ok false
  else pagesMapped s root ((p + n - 1) &&& ~~~4095#64) turns (p &&& ~~~4095#64)

/-- `copy_from_user`, with the bytes that are then in `kdst` -/
def copyFromUser (turns : ℕ) (s : Vm A) (root : ℕ) (usrc n : BitVec 64) :
    Except (Stop A) (Int × List UInt8) := do
  if !(← userPtrOk turns s root usrc n) then return (Errno.efail, [])
  return (0, ← loadBytes s root usrc.toNat n.toNat)

/-- `copy_to_user`; the check is that of `user_ptr_ok`, written out. -/
def copyToUser (turns : ℕ) (s : Vm A) (root : ℕ) (udst : BitVec 64) (ksrc : ℕ → UInt8)
    (n : BitVec 64) : Except (Stop A) (Int × Vm A) := do
  if n = 0 || !vmmIsUserRange udst.toNat (udst + n).toNat then return (Errno.efail, s)
  let lo := udst &&& ~~~4095#64
  let hi := (udst + n - 1) &&& ~~~4095#64
  if !(← pagesMapped s root hi turns lo) then return (Errno.efail, s)
  return (0, ← storeUser s root udst.toNat ((List.range n.toNat).map ksrc))

end Lnxrm.Vmm
