import Lnxrm.Signal.Model
import Lnxrm.Vmm.Boot
import Lnxrm.Vmm.UserMemory

/-!
# Programs — loading an executable, its stack and its heap

The model of `elf_load` (`kernel/elf.c`), of `sys_brk` (`kernel/syscall.c`),
of `signal_init_trampoline` (`kernel/signal.c`) and of `copy_user_str`,
`sys_execve` and `kernel_spawn` (`kernel/task.c`). A `Proc` is the part of
`current` that these functions touch, with the memory of the machine. The
file system comes in by what opening and reading the executable yields, and
`code` is the page with the code of `_signal_trampoline`.

A loop `for (page = a; page < b; page += PAGE_SIZE)` is over the list
`pagesFrom a b`. Both bounds are aligned in all these loops, so `page` does
not wrap.
-/

namespace Lnxrm.Exec

open Vmm

/-- `USER_STACK_TOP` -/
def userStackTop : ℕ := 0x7fffffbff000

/-- `ALIGN_UP(x, PAGE_SIZE)` of a 64-bit number -/
def alignUp (x : ℕ) : ℕ := (x + 4095) % 2 ^ 64 / 4096 * 4096

/-- `ALIGN_DOWN(x, PAGE_SIZE)` -/
def alignDown (x : ℕ) : ℕ := x / 4096 * 4096

/-- The pages from `a` up to `b`. -/
def pagesFrom (a b : ℕ) : List ℕ := List.range' a ((b - a + 4095) / 4096) 4096

/-- `current`, and the memory -/
structure Proc (A : Type) where
  vm : Vm A
  pml4 : ℕ
  brkBase : BitVec 64
  brkCur : BitVec 64
  name : List UInt8
  /-- `sa[sig].sa_handler` -/
  saHandler : ℕ → BitVec 64
  signalPending : BitVec 64
  tf : IntrFrame

variable {A : Type} (B : Buddy A)

/-! ## Fresh pages -/

/-- `pmm_alloc`, `memset` and `vmm_map_user`, as in `sys_brk`, `sys_execve`,
`kernel_spawn` and `elf_load`. Their callers go by the result of `pmm_alloc`
only; it is `false` where there is no frame. -/
def freshPage (root : ℕ) (writable : Bool) (page : ℕ) (s : Vm A) : Except (Stop A) (Bool × Vm A) :=
  match s.pmmAlloc B with
  | none => .ok (false, s)
  | some (f, s) =>
    match vmmMapUser B (s.fill f fun _ => 0) root (BitVec.ofNat 64 page) (addrOf f) writable true with
    | .error s => .error (.panic s)
    | .ok (_, s) => .ok (true, s)

/-- A loop over pages, left where its body returns. -/
def forPages (body : ℕ → Vm A → Except (Stop A) (Bool × Vm A)) :
    List ℕ → Vm A → Except (Stop A) (Bool × Vm A)
  | [], s => .ok (true, s)
  | page :: pages, s =>
    match body page s with
    | .error e => .error e
    | .ok (false, s) => .ok (false, s)
    | .ok (true, s) => forPages body pages s

/-! ## `elf_load` -/

/-- A number of the image, in little-endian order -/
def leNat : List UInt8 → ℕ
  | [] => 0
  | b :: bs => b.toNat + 256 * leNat bs

/-- `n` bytes of the image -/
def imgBytes (img : List UInt8) (off n : ℕ) : Except (Stop A) (List UInt8) :=
  if off + n ≤ img.length then .ok ((img.drop off).take n) else .error .outside

/-- A number of `n` bytes of the image -/
def imgNat (img : List UInt8) (off n : ℕ) : Except (Stop A) ℕ := (imgBytes img off n).map leNat

/-- `Elf64_Phdr` -/
structure Phdr where
  pType : ℕ
  pFlags : ℕ
  pOffset : ℕ
  pVaddr : ℕ
  pFilesz : ℕ
  pMemsz : ℕ
deriving DecidableEq, Repr

/-- The program header in 56 bytes -/
def Phdr.ofBytes (bs : List UInt8) : Phdr where
  pType := leNat (bs.take 4)
  pFlags := leNat ((bs.drop 4).take 4)
  pOffset := leNat ((bs.drop 8).take 8)
  pVaddr := leNat ((bs.drop 16).take 8)
  pFilesz := leNat ((bs.drop 32).take 8)
  pMemsz := leNat ((bs.drop 40).take 8)

namespace Phdr

/-- `p_type != PT_LOAD`, or not a user segment -/
def skipped (ph : Phdr) : Bool :=
  ph.pType ≠ 1 || (ph.pVaddr + ph.pMemsz) % 2 ^ 64 ≤ ph.pVaddr || ph.pVaddr < userBase ||
    userMaxVma ≤ ph.pVaddr

/-- The bytes of the segment do not lie in the image, or not in the
segment. -/
def malformed (ph : Phdr) (imgsize : ℕ) : Bool :=
  imgsize < ph.pOffset || imgsize - ph.pOffset < ph.pFilesz || ph.pMemsz < ph.pFilesz

/-- `p_flags & PF_W` -/
def writable (ph : Phdr) : Bool := ph.pFlags / 2 % 2 = 1

/-- `va` -/
def start (ph : Phdr) : ℕ := alignDown ph.pVaddr

/-- `end` -/
def stop (ph : Phdr) : ℕ := alignUp ((ph.pVaddr + ph.pMemsz) % 2 ^ 64)

end Phdr

/-- The body of the loop over the pages of a segment -/
def segmentPage (root : ℕ) (writable : Bool) (page : ℕ) (s : Vm A) :
    Except (Stop A) (Bool × Vm A) :=
  if vmmTranslateIn s root (BitVec.ofNat 64 page) ≠ 0 then .ok (true, s)
  else freshPage B root writable page s

/-- The loop over the program headers `ph[i]`; `none` where `elf_load`
returns 0 from it, and else `max_end`. -/
def loadSegments (root : ℕ) (img : List UInt8) (phoff : ℕ) :
    List ℕ → ℕ → Vm A → Except (Stop A) (Option ℕ × Vm A)
  | [], maxEnd, s => .ok (some maxEnd, s)
  | i :: is, maxEnd, s => do
    let ph := Phdr.ofBytes (← imgBytes img (phoff + i * 56) 56)
    if ph.skipped then loadSegments root img phoff is maxEnd s
    else if ph.malformed img.length then return (none, s)
    else
      let (ok, s) ← forPages (segmentPage B root ph.writable) (pagesFrom ph.start ph.stop) s
      if !ok then return (none, s)
      else
        let s ← storeUser s root ph.pVaddr (← imgBytes img ph.pOffset ph.pFilesz)
        loadSegments root img phoff is (if maxEnd < ph.stop then ph.stop else maxEnd) s

/-- `elf_load`: the entry point, and what is then in `*brk_end`. -/
def elfLoad (root : ℕ) (img : List UInt8) (brkEnd : ℕ) (s : Vm A) :
    Except (Stop A) (ℕ × ℕ × Vm A) := do
  if img.length < 64 then return (0, brkEnd, s)
  if (← imgBytes img 0 5) ≠ [0x7f, 0x45, 0x4c, 0x46, 2] then return (0, brkEnd, s)
  if (← imgNat img 16 2) ≠ 2 then return (0, brkEnd, s)
  let phoff ← imgNat img 32 8
  let phnum ← imgNat img 56 2
  if img.length < phoff ∨ 128 < phnum ∨ img.length - phoff < phnum * 56 then
    return (0, brkEnd, s)
  let (maxEnd, s) ← loadSegments B root img phoff (List.range phnum) 0 s
  match maxEnd with
  | none => return (0, brkEnd, s)
  | some maxEnd => return (← imgNat img 24 8, alignUp maxEnd, s)

/-! ## `sys_brk` -/

/-- The loop of `sys_brk` that gives pages back -/
def unmapPages (root : ℕ) : List ℕ → Vm A → Vm A
  | [], s => s
  | page :: pages, s =>
    let r := vmmUnmapUser s root (BitVec.ofNat 64 page)
    unmapPages root pages (if r.1 ≠ 0 then r.2.pmmFree B (frameOf r.1) else r.2)

/-- `sys_brk` -/
def sysBrk (p : Proc A) (newbrk : BitVec 64) : Except (Stop A) (Int × Proc A) := do
  if newbrk = 0 then return (p.brkCur.toInt, p)
  if newbrk.toNat < p.brkBase.toNat ∨ userStackTop - 2 ^ 20 < newbrk.toNat then
    return (Errno.enomem, p)
  let old := alignUp p.brkCur.toNat
  let tgt := alignUp newbrk.toNat
  if old < tgt then
    let (ok, s) ← forPages (freshPage B p.pml4 true) (pagesFrom old tgt) p.vm
    if !ok then return (Errno.enomem, { p with vm := s })
    else return (newbrk.toInt, { p with vm := s, brkCur := newbrk })
  else
    let s := unmapPages B p.pml4 (pagesFrom tgt old) p.vm
    return (newbrk.toInt, { p with vm := s, brkCur := newbrk })

/-! ## `signal_init_trampoline` -/

/-- `vmm_map_kernel_page` -/
def vmmMapKernelPage (s : Vm A) (va pa flags : BitVec 64) : Except (Stop A) (Vm A) :=
  let entry := (pa &&& ~~~0xfff#64) ||| pgP ||| pgW ||| flags
  if present (s.mem pdHi (index va 21)) then
    .ok (s.store (frameOf (s.mem pdHi (index va 21))) (index va 12) entry)
  else
    match s.pmmAlloc B with
    | none => .error (.panic s)
    | some (t, s) =>
      let s := (s.fill t fun _ => 0).store pdHi (index va 21) (addrOf t ||| pgP ||| pgW)
      .ok (s.store (frameOf (s.mem pdHi (index va 21))) (index va 12) entry)

/-- `FIXMAP_VA` -/
def fixmapVa : BitVec 64 := 0xffffffff8e000000

/-- `signal_init_trampoline`. The page is filled through its mapping at
`FIXMAP_VA`. -/
def signalInitTrampoline (code : Page) (root : ℕ) (s : Vm A) : Except (Stop A) (Vm A) :=
  if vmmTranslateIn s root Signal.sigTrampolineVa ≠ 0 then .ok s
  else
    match s.pmmAlloc B with
    | none => .ok s
    | some (f, s) => do
      let s ← vmmMapKernelPage B s fixmapVa (addrOf f) 0
      match vmmMapUser B (s.fill f code) root Signal.sigTrampolineVa (addrOf f) true true with
      | .error s => .error (.panic s)
      | .ok (_, s) => .ok s

/-! ## Arguments -/

/-- The loop of `copy_user_str`: the bytes before the terminator, or all `n`
where there is none; `none` where one cannot be read. -/
def userStr (turns : ℕ) (s : Vm A) (root : ℕ) : ℕ → BitVec 64 → Except (Stop A) (Option (List UInt8))
  | 0, _ => .ok (some [])
  | n + 1, usrc => do
    let (rc, c) ← copyFromUser turns s root usrc 1
    if rc < 0 then return none
    if c = [0] then return some []
    return (← userStr turns s root n (usrc + 1)).map (c ++ ·)

/-- `copy_user_str`, with the string that is then in `kdst` -/
def copyUserStr (turns : ℕ) (s : Vm A) (root : ℕ) (usrc : BitVec 64) (max : ℕ) :
    Except (Stop A) (Int × List UInt8) := do
  if max = 0 then return (Errno.efail, [])
  match ← userStr turns s root max usrc with
  | none => return (Errno.efail, [])
  | some str => return (0, str.take (max - 1))

/-- The loop of `sys_execve` over `uargv`, with `n` turns left -/
def copyArgv (turns : ℕ) (s : Vm A) (root : ℕ) : ℕ → BitVec 64 → Except (Stop A) (List (List UInt8))
  | 0, _ => .ok []
  | n + 1, uargv => do
    let (rc, a) ← copyFromUser turns s root uargv 8
    if rc < 0 ∨ leNat a = 0 then return []
    let (rc, str) ← copyUserStr turns s root (BitVec.ofNat 64 (leNat a)) 64
    if rc < 0 then return []
    return str :: (← copyArgv turns s root n (uargv + 8))

/-- `argv`, as `sys_execve` has it: `if (uargv && UCP(uargv))` -/
def execArgs (turns : ℕ) (s : Vm A) (root : ℕ) (uargv : BitVec 64) :
    Except (Stop A) (List (List UInt8)) := do
  if uargv = 0 then return []
  if !(← Vmm.userPtrOk turns s root uargv 8) then return []
  copyArgv turns s root 16 uargv

/-! ## `sys_execve` -/

/-- `*(u64 *)a = v` -/
def storeWord (s : Vm A) (root a : ℕ) (v : ℕ) : Except (Stop A) (Vm A) :=
  storeUser s root a ((List.range 8).map (wordByte (BitVec.ofNat 64 v)))

/-- `((u64 *)a)[i] = v`, for each in turn -/
def storeVector (root : ℕ) : ℕ → List ℕ → Vm A → Except (Stop A) (Vm A)
  | _, [], s => .ok s
  | a, v :: vs, s => do storeVector root (a + 8) vs (← storeWord s root a v)

/-- The loop that pushes the strings, the last one first: `sp` and
`argv_ptrs` after it. -/
def pushStrings (root : ℕ) : List (List UInt8) → Vm A → Except (Stop A) (ℕ × List ℕ × Vm A)
  | [], s => .ok (userStackTop - 64, [], s)
  | str :: strs, s => do
    let (sp, ptrs, s) ← pushStrings root strs s
    let sp := sp - (str.length + 1)
    return (sp, sp :: ptrs, ← storeUser s root sp (str ++ [0]))

/-- `argv`, `envp` and the rest on the user stack: the new `sp`. -/
def pushArgs (root : ℕ) (argv : List (List UInt8)) (s : Vm A) : Except (Stop A) (ℕ × Vm A) := do
  let s ← storeWord s root (userStackTop - 64) 0
  let (sp, ptrs, s) ← pushStrings root argv s
  let sp := sp / 16 * 16 - 24
  let s ← storeWord s root sp 0
  let s ← storeWord s root (sp + 8) 0
  let sp := sp - (argv.length + 2) * 8
  let s ← storeWord s root sp argv.length
  let s ← storeVector root (sp + 8) ptrs s
  return (sp, ← storeWord s root (sp + 8 + 8 * argv.length) 0)

/-- The pages of the user stack -/
def stackPages : List ℕ := pagesFrom (userStackTop - 0x4000) userStackTop

/-- The trap frame of a program at its entry -/
def entryFrame (tf : IntrFrame) (entry sp : ℕ) : IntrFrame :=
  { tf with
    rip := BitVec.ofNat 64 entry
    ussp := BitVec.ofNat 64 sp
    cs := 0x1b
    usss := 0x23
    rflags := 0x202 }

/-- A panic of the page tables -/
def orPanic {α : Type} (r : Except (Vm A) α) : Except (Stop A) α :=
  match r with
  | .error s => .error (.panic s)
  | .ok a => .ok a

/-- The part of `sys_execve` after the file has been read. The failures
leave `p` but for the frames that were taken and given back. -/
def execImage (code : Page) (p : Proc A) (path : List UInt8) (argv : List (List UInt8))
    (img : List UInt8) : Except (Stop A) (Int × Proc A) := do
  let (root, s) ← orPanic (vmmNewUserAspace B p.vm)
  let (ok, s) ← forPages (freshPage B root true) stackPages s
  if !ok then return (Errno.enomem, { p with vm := vmmDestroyUserAspace B s root })
  let (entry, brkEnd, s) ← elfLoad B root img 0 s
  if entry = 0 then return (Errno.enoexec, { p with vm := vmmDestroyUserAspace B s root })
  let s := vmmDestroyUserAspace B s p.pml4
  let s ← signalInitTrampoline B code root s
  let (sp, s) ← pushArgs root argv s
  return (0, { vm := s
               pml4 := root
               brkBase := BitVec.ofNat 64 (alignUp brkEnd)
               brkCur := BitVec.ofNat 64 (alignUp brkEnd)
               name := path.take 15
               saHandler := fun sig => if 1 ≤ sig ∧ sig < Signal.nsig then 0 else p.saHandler sig
               signalPending := 0
               tf := entryFrame p.tf entry sp })

/-- `sys_execve`; `file` is what opening and reading a path comes to. -/
def sysExecve (turns : ℕ) (file : List UInt8 → Except Int (List UInt8)) (code : Page) (p : Proc A)
    (upath uargv : BitVec 64) : Except (Stop A) (Int × Proc A) := do
  let (rc, path) ← copyUserStr turns p.vm p.pml4 upath 128
  if rc < 0 then return (Errno.efault, p)
  let argv ← execArgs turns p.vm p.pml4 uargv
  match file path with
  | .error err => return (err, p)
  | .ok img => execImage B code p path argv img

/-! ## `kernel_spawn` -/

/-- `memset(tf, 0, sizeof(*tf))` -/
def clearedFrame : IntrFrame :=
  ⟨0, 0, 0, 0, 0, 0, 0, 0, 0, 0, 0, 0, 0, 0, 0, 0, 0, 0, 0, 0, 0, 0⟩

/-- `kernel_spawn`, for the task slot of `pid` whose kernel stack has been
allocated -/
def kernelSpawn (file : List UInt8 → Except Int (List UInt8)) (code : Page) (t : Proc A) (pid : ℕ)
    (path : List UInt8) : Except (Stop A) (Int × Proc A) := do
  let (root, s) ← orPanic (vmmNewUserAspace B t.vm)
  let s ← signalInitTrampoline B code root s
  match file path with
  | .error err => return (err, { t with vm := vmmDestroyUserAspace B s root })
  | .ok img =>
    let (ok, s) ← forPages (freshPage B root true) stackPages s
    if !ok then return (Errno.enomem, { t with vm := vmmDestroyUserAspace B s root })
    let (entry, brkEnd, s) ← elfLoad B root img t.brkBase.toNat s
    if entry = 0 then return (Errno.enoexec, { t with vm := vmmDestroyUserAspace B s root })
    let sp := userStackTop - 256
    let s ← storeUser s root sp (path ++ [0])
    let s ← storeVector root (sp - 32) [1, sp, 0, 0] s
    return (pid, { t with
                   vm := s
                   pml4 := root
                   brkBase := BitVec.ofNat 64 (alignUp brkEnd)
                   brkCur := BitVec.ofNat 64 (alignUp brkEnd)
                   name := path.take 15
                   tf := entryFrame clearedFrame entry (sp - 32) })

end Lnxrm.Exec
