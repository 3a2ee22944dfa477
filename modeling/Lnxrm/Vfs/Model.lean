import Lnxrm.Common.Refcount
import Lnxrm.Task

/-!
# VFS — open files and descriptor tables

The descriptor operations of `kernel/fs/vfs.c` and what `sys_fork`,
`sys_execve` and `sys_exit` of `kernel/task.c` do to the descriptors of a
task. A `struct file` lives in a heap block, which `vfs_close_file` gives
back; a step that reads or writes a `struct file` after that ends in an
error that names the block.

What comes from outside is an argument of a call: what the file system says
of the path, which block `kmalloc` hands out, and whether the other parts of
`fork` and `execve` succeed. The position and the private data of a file are
left out; no operation here reads them.
-/

namespace Lnxrm.Vfs

/-- `NR_TASKS` -/
def nrTasks : ℕ := 64

/-- `NR_FDS` -/
def nrFds : ℕ := 16

/-- `O_RDONLY` -/
def oRdonly : BitVec 32 := 0

/-- `O_CLOEXEC` -/
def oCloexec : BitVec 32 := 0o10000

/-- `enum vnode_type` -/
inductive VnodeType where
  | reg
  | dir
  | chr
deriving DecidableEq, Repr

/-- `struct file`. There are `NR_TASKS * NR_FDS` descriptors, so `refcnt`
does not leave the range of an `int`. -/
structure File where
  isDir : Bool
  flags : BitVec 32
  refcnt : ℤ
deriving DecidableEq, Repr

/-- The open files and the tasks' descriptors. -/
structure Files (Ptr : Type) where
  /-- the heap blocks that hold a `struct file` -/
  file : Ptr → Option File
  fds : Fin nrTasks × Fin nrFds → Option Ptr
  state : Fin nrTasks → TaskState
  pidCounter : BitVec 32

/-- An answer of `kmalloc`: no block, or one that is not in use. -/
structure Kmalloc (Ptr : Type) where
  answer : (Ptr → Option File) → Option Ptr
  fresh : ∀ file p, answer file = some p → file p = none

variable {Ptr : Type} [DecidableEq Ptr]

namespace Files

/-- The `struct file` in a block. -/
def get (s : Files Ptr) (p : Ptr) : Except Ptr File :=
  match s.file p with
  | some f => .ok f
  | none => .error p

def setFile (s : Files Ptr) (p : Ptr) (f : Option File) : Files Ptr :=
  { s with file := Function.update s.file p f }

def setFd (s : Files Ptr) (q : Fin nrTasks × Fin nrFds) (p : Option Ptr) : Files Ptr :=
  { s with fds := Function.update s.fds q p }

def setState (s : Files Ptr) (t : Fin nrTasks) (st : TaskState) : Files Ptr :=
  { s with state := Function.update s.state t st }

/-- A task in this slot can make calls. -/
def Runs (s : Files Ptr) (t : Fin nrTasks) : Prop :=
  s.state t ≠ .unused ∧ s.state t ≠ .embryo ∧ s.state t ≠ .zombie

instance (s : Files Ptr) (t : Fin nrTasks) : Decidable (s.Runs t) :=
  inferInstanceAs (Decidable (_ ∧ _))

end Files

/-! ## Files -/

/-- `file_alloc` -/
def fileAlloc (s : Files Ptr) (type : VnodeType) (flags : BitVec 32) (mem : Kmalloc Ptr) :
    Option Ptr × Files Ptr :=
  match mem.answer s.file with
  | none => (none, s)
  | some p => (some p, s.setFile p (some { isDir := type = .dir, flags := flags, refcnt := 1 }))

/-- `vfs_open_file`, with the answer of `vfs_lookup` -/
def vfsOpenFile (s : Files Ptr) (look : Except ℤ VnodeType) (flags : BitVec 32)
    (mem : Kmalloc Ptr) : Except ℤ Ptr × Files Ptr :=
  match look with
  | .error err => (.error err, s)
  | .ok type =>
    match fileAlloc s type flags mem with
    | (none, s) => (.error Errno.enomem, s)
    | (some p, s) => (.ok p, s)

/-- `vfs_close_file` -/
def vfsCloseFile (s : Files Ptr) (p : Ptr) : Except Ptr (Files Ptr) := do
  let f ← s.get p
  if 1 < f.refcnt then return s.setFile p (some { f with refcnt := f.refcnt - 1 })
  else return s.setFile p none

/-- `__sync_fetch_and_add(&f->refcnt, 1)` -/
def addRef (s : Files Ptr) (p : Ptr) : Except Ptr (Files Ptr) := do
  let f ← s.get p
  return s.setFile p (some { f with refcnt := f.refcnt + 1 })

/-! ## Descriptors -/

/-- The range check of a descriptor number. -/
def fdIndex (fd : ℤ) : Option (Fin nrFds) :=
  if h : 0 ≤ fd ∧ fd < nrFds then some ⟨fd.toNat, by omega⟩ else none

/-- `fd_get` -/
def fdGet (s : Files Ptr) (t : Fin nrTasks) (fd : ℤ) : Option Ptr :=
  (fdIndex fd).bind fun i => s.fds (t, i)

/-- The loop of `sys_open`: the first free descriptor. -/
def freeFd (s : Files Ptr) (t : Fin nrTasks) : Option (Fin nrFds) :=
  (List.finRange nrFds).find? fun i => s.fds (t, i) = none

/-- `sys_open` -/
def sysOpen (s : Files Ptr) (t : Fin nrTasks) (look : Except ℤ VnodeType) (flags : BitVec 32)
    (mem : Kmalloc Ptr) : Except Ptr (ℤ × Files Ptr) :=
  match vfsOpenFile s look flags mem with
  | (.error err, s) => .ok (err, s)
  | (.ok p, s) =>
    match freeFd s t with
    | some i => .ok (i.val, s.setFd (t, i) (some p))
    | none => do
      let s ← vfsCloseFile s p
      return (Errno.emfile, s)

/-- `sys_close` -/
def sysClose (s : Files Ptr) (t : Fin nrTasks) (fd : ℤ) : Except Ptr (ℤ × Files Ptr) :=
  match fdIndex fd with
  | none => .ok (Errno.ebadf, s)
  | some i =>
    match s.fds (t, i) with
    | none => .ok (Errno.ebadf, s)
    | some p => do
      let s ← vfsCloseFile (s.setFd (t, i) none) p
      return (0, s)

/-- `if (current->fds[i]) sys_close(i);` -/
def closeOpen (t : Fin nrTasks) (s : Files Ptr) (i : Fin nrFds) : Except Ptr (Files Ptr) :=
  if (s.fds (t, i)).isSome then (sysClose s t i.val).map Prod.snd else .ok s

/-- `sys_dup2` -/
def sysDup2 (s : Files Ptr) (t : Fin nrTasks) (oldfd newfd : ℤ) : Except Ptr (ℤ × Files Ptr) :=
  if oldfd = newfd then .ok (if (fdGet s t oldfd).isSome then newfd else -9, s)
  else
    match fdGet s t oldfd, fdIndex newfd with
    | some p, some j => do
      let s ← closeOpen t s j
      let s ← addRef (s.setFd (t, j) (some p)) p
      return (newfd, s)
    | _, _ => .ok (Errno.ebadf, s)

/-! ## Tasks -/

/-- `task_alloc_slot` -/
def taskAllocSlot (s : Files Ptr) : Option (Fin nrTasks) :=
  (List.finRange nrTasks).find? fun u => u.val ≠ 0 ∧ s.state u = .unused

/-- `if (ch->fds[i]) __sync_fetch_and_add(&ch->fds[i]->refcnt, 1);` -/
def countFd (ch : Fin nrTasks) (s : Files Ptr) (i : Fin nrFds) : Except Ptr (Files Ptr) :=
  match s.fds (ch, i) with
  | none => .ok s
  | some p => addRef s p

/-- The part of `sys_fork` that clones the descriptor table. -/
def cloneFds (s : Files Ptr) (t ch : Fin nrTasks) : Except Ptr (Files Ptr) :=
  (List.finRange nrFds).foldlM (countFd ch) { s with fds := setRow s.fds ch fun i => s.fds (t, i) }

/-- `sys_fork`; `kstack` and `dup` say whether the kernel stack and the
copy of the address space are to be had. -/
def sysFork (s : Files Ptr) (t : Fin nrTasks) (kstack dup : Bool) : Except Ptr (ℤ × Files Ptr) :=
  match taskAllocSlot s with
  | none => .ok (Errno.efail, s)
  | some ch =>
    if !kstack then .ok (Errno.efail, s)
    else
      let s := { s with pidCounter := s.pidCounter + 1 }
      if !dup then .ok (Errno.efail, s)
      else do
        let s' ← cloneFds s t ch
        return (s.pidCounter.toInt, s'.setState ch .runnable)

/-- What `sys_execve` meets on its way. -/
structure Exec (Ptr : Type) where
  /-- `copy_user_str` could read the path -/
  copied : Bool
  look : Except ℤ VnodeType
  mem : Kmalloc Ptr
  /-- the image was read, or `LNXRM_ENOMEM` or `LNXRM_EIO` -/
  image : Except ℤ Unit
  /-- the image was loaded, or `LNXRM_ENOMEM` or `LNXRM_ENOEXEC` -/
  load : Except ℤ Unit

/-- The body of the loop of `sys_execve` that closes descriptors. -/
def closeCloexec (t : Fin nrTasks) (s : Files Ptr) (i : Fin nrFds) : Except Ptr (Files Ptr) :=
  match s.fds (t, i) with
  | none => .ok s
  | some p =>
    match s.get p with
    | .error p => .error p
    | .ok f => if f.flags &&& oCloexec ≠ 0 then (sysClose s t i.val).map Prod.snd else .ok s

/-- `sys_execve` -/
def sysExecve (s : Files Ptr) (t : Fin nrTasks) (x : Exec Ptr) : Except Ptr (ℤ × Files Ptr) :=
  if !x.copied then .ok (Errno.efault, s)
  else
    match vfsOpenFile s x.look oRdonly x.mem with
    | (.error err, s) => .ok (err, s)
    | (.ok p, s) => do
      -- the file is closed on all three ways on
      let s ← vfsCloseFile s p
      match x.image, x.load with
      | .error err, _ => return (err, s)
      | .ok _, .error err => return (err, s)
      | .ok _, .ok _ =>
        let s ← (List.finRange nrFds).foldlM (closeCloexec t) s
        return (0, s)

/-- `sys_exit`, as far as descriptors and the slot go. -/
def sysExit (s : Files Ptr) (t : Fin nrTasks) : Except Ptr (Files Ptr) := do
  let s ← (List.finRange nrFds).foldlM (closeOpen t) s
  return s.setState t .zombie

/-- `task_free_slot` of an exited task in `sys_waitpid` -/
def reap (s : Files Ptr) (u : Fin nrTasks) : Files Ptr :=
  if s.state u = .zombie then s.setState u .unused else s

/-! ## Runs -/

/-- What a task can call. -/
inductive Call (Ptr : Type) where
  | open (look : Except ℤ VnodeType) (flags : BitVec 32) (mem : Kmalloc Ptr)
  | close (fd : ℤ)
  | dup2 (oldfd newfd : ℤ)
  | fork (kstack dup : Bool)
  | execve (x : Exec Ptr)
  | exit
  | reap (u : Fin nrTasks)

/-- A call of a task with its answer, none if it does not return. -/
def call (s : Files Ptr) (t : Fin nrTasks) : Call Ptr → Except Ptr (Option ℤ × Files Ptr)
  | .open look flags mem => (sysOpen s t look flags mem).map fun r => (some r.1, r.2)
  | .close fd => (sysClose s t fd).map fun r => (some r.1, r.2)
  | .dup2 oldfd newfd => (sysDup2 s t oldfd newfd).map fun r => (some r.1, r.2)
  | .fork kstack dup => (sysFork s t kstack dup).map fun r => (some r.1, r.2)
  | .execve x => (sysExecve s t x).map fun r => (some r.1, r.2)
  | .exit => (sysExit s t).map fun s => (none, s)
  | .reap u => .ok (some 0, reap s u)

/-- One step: a slot without a task that can run does nothing. -/
def step (s : Files Ptr) (r : Fin nrTasks × Call Ptr) : Except Ptr (Option ℤ × Files Ptr) :=
  if s.Runs r.1 then call s r.1 r.2 else .ok (none, s)

/-- No file is open; the tasks are in any states. -/
def boot (state : Fin nrTasks → TaskState) (pidCounter : BitVec 32) : Files Ptr where
  file _ := none
  fds _ := none
  state := state
  pidCounter := pidCounter

end Lnxrm.Vfs
