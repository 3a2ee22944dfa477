import Lnxrm.Vfs.Path
import Mathlib.Algebra.Group.Int.Defs

/-!
# VFS — open files over the driver

What `kernel/fs/vfs.c` keeps behind a descriptor, and what `SYS_read`,
`SYS_write`, `SYS_lseek` and `SYS_getdent` do with it: the position and the
vnode of a regular file, the cookie of a directory. `kmalloc` has room for
a `struct file`, and user memory can be read and written. The descriptor
tables and the reference counts are in `Lnxrm.Vfs.Model`.
-/

namespace Lnxrm.Vfs

open Fat32

/-- The `struct file` of a regular file and the vnode behind it. -/
structure RegFile where
  /-- a `u64` -/
  pos : ℕ
  vn : Vnode

/-- `struct dir_iter` -/
structure DirIter where
  node : Resolve
  /-- a `u64` -/
  cookie : ℕ

/-- The flavours of `struct file`. -/
inductive OpenFile where
  | reg (f : RegFile)
  | dir (it : DirIter)
  | dev (node : DevNode)

/-- `file_alloc`: what stands behind a new descriptor. -/
def fileFor : Found → OpenFile
  | .fat vn => if vn.isDir then .dir { node := vn.fsData, cookie := 0 } else .reg { pos := 0, vn := vn }
  | .dev node => .dev node

/-- `vfs_open_file` -/
def openFile (m : Mount) (path : Str) (creat trunc : Bool) : Fat (Except Int OpenFile) := do
  match ← vfsLookup m (absPath path 128) creat trunc with
  | .error err => pure (.error err)
  | .ok found => pure (.ok (fileFor found))

/-! ## Regular files -/

/-- `f->pos += r`, for a positive result -/
def RegFile.advance (f : RegFile) (r : Int) : RegFile :=
  if 0 < r then { f with pos := (f.pos + r.toNat) % 2 ^ 64 } else f

/-- `reg_read` -/
def regRead (m : Mount) (f : RegFile) (buf : ℕ → UInt8) (n : ℕ) :
    Fat (Int × Option (ℕ → UInt8) × RegFile) := do
  let (r, buf) ← Fat32.fatReadImpl m f.vn.fsData f.pos (some buf) n
  pure (r, buf, f.advance r)

/-- `reg_write`; the driver changes the handle in place. -/
def regWrite (m : Mount) (f : RegFile) (buf : ℕ → UInt8) (n : ℕ) : Fat (Int × RegFile) := do
  let (r, h) ← Fat32.fatWriteImpl m f.vn.fsData f.pos (some buf) n
  pure (r, RegFile.advance { f with vn := { f.vn with fsData := h } } r)

/-- `SEEK_SET` -/
def seekSet : Int := 0

/-- `SEEK_CUR` -/
def seekCur : Int := 1

/-- `SEEK_END` -/
def seekEnd : Int := 2

/-- A `u64` returned as a `long`. -/
def asLong (x : ℕ) : Int := if x < 2 ^ 63 then x else (x : Int) - 2 ^ 64

/-- `reg_lseek`; any other `whence` is taken for `SEEK_END`. -/
def regLseek (f : RegFile) (off whence : Int) : Int × RegFile :=
  let base := if whence = seekSet then 0 else if whence = seekCur then f.pos else f.vn.size
  let pos := if off < 0 then 0 else (base + off.toNat) % 2 ^ 64
  (asLong pos, { f with pos := pos })

/-- The size of the buffer of `sys_read` and `sys_write`. -/
def ioBuf : ℕ := 4096

/-- What is done with the descriptor of a regular file. -/
inductive FileOp where
  | read (n : ℕ)
  | write (buf : ℕ → UInt8) (n : ℕ)
  | lseek (off whence : Int)
  | close

/-- `sys_read`, `sys_write`, `sys_lseek` and `sys_close` on a descriptor:
the result, and the file if it is still open. The buffer of `sys_read` is
on the stack. -/
def FileOp.run (m : Mount) : FileOp → Option RegFile → Fat (Int × Option RegFile)
  | _, none => pure (Errno.ebadf, none)
  | .read n, some f => do
    let (r, _, f) ← regRead m f m.junk (if ioBuf < n then ioBuf else n)
    pure (r, some f)
  | .write buf n, some f => do
    let (r, f) ← regWrite m f buf (if ioBuf < n then ioBuf else n)
    pure (r, some f)
  | .lseek off whence, some f =>
    let (r, f) := regLseek f off whence
    pure (r, some f)
  | .close, some _ => pure (0, none)

/-- One call after the other. -/
def runOps (m : Mount) : List FileOp → Option RegFile → Fat (Option RegFile)
  | [], f => pure f
  | op :: ops, f => do
    let (_, f) ← op.run m f
    runOps m ops f

/-! ## Directories -/

/-- `struct lnxrm_dirent` -/
structure LnxrmDirent where
  dIno : ℕ
  dType : ℕ
  dName : Str
deriving DecidableEq

/-- `sizeof(struct lnxrm_dirent)` -/
def direntBytes : ℕ := 72

/-- The size of the buffer of `sys_getdent`. -/
def getdentBuf : ℕ := 1024

/-- The loop of `dir_getdent`, while there is room for `room` entries. -/
def dirGetdent (m : Mount) : ℕ → DirIter → Fat (List LnxrmDirent × DirIter)
  | 0, it => pure ([], it)
  | room + 1, it => do
    let (rc, cookie, d) ← Fat32.fat32GetdentImpl m it.node it.cookie
    let it := { it with cookie := cookie }
    match d with
    | none => pure ([], it)
    | some (name, type) =>
      if rc < 0 then pure ([], it)
      else do
        let (es, it) ← dirGetdent m room it
        pure ({ dIno := 0, dType := type, dName := name.take 55 } :: es, it)

/-- `sys_getdent` on the descriptor of a directory: how many bytes it
returns, and the entries they hold. -/
def sysGetdent (m : Mount) (it : DirIter) (len : ℕ) : Fat (ℕ × List LnxrmDirent × DirIter) := do
  let (es, it) ← dirGetdent m ((if getdentBuf < len then getdentBuf else len) / direntBytes) it
  pure (es.length * direntBytes, es, it)

end Lnxrm.Vfs
