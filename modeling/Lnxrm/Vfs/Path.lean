import Lnxrm.Fat32.Model.Machine

/-!
# VFS — the calls that take paths

`SYS_open`, `SYS_mkdir`, `SYS_unlink`, `SYS_rmdir`, `SYS_rename` and
`SYS_move`, from the string in user memory to the call into the driver:
`copy_user_str` of `kernel/task.c`, `path_syscall` and `path2_syscall` of
`kernel/syscall.c` and the path half of `kernel/fs/vfs.c`. FAT32 is mounted
at `/`, the only mount there is, and the user memory is readable.

`sys_open` is modelled up to the vnode; the descriptor it then takes is part
of `Lnxrm.Vfs.Model`.
-/

namespace Lnxrm.Vfs

open Fat32

/-- `copy_user_str`, of a string without a NUL but at its end. -/
def copyUserStr (s : Str) (max : ℕ) : Str := s.take (max - 1)

/-- `abs_path` -/
def absPath (path : Str) (bufsz : ℕ) : Str :=
  if path.head? = some 47 then path else 47 :: path.take (bufsz - 3)

/-- `fs_for_path`: what is left of a path at the root mount. -/
def fsForPath (path : Str) : Str := path.dropWhile (· == 47)

/-- `strip_trailing_slashes`, the loop of `path_trim` -/
def stripTrailingSlashes (p : Str) : Str := pathTrim p

/-- The nodes under `/dev`. -/
inductive DevNode where
  | dir
  | console
deriving DecidableEq, Repr

/-- `"/dev"` -/
def devStr : Str := [47, 100, 101, 118]

/-- `"/dev/console"` -/
def consoleStr : Str := [47, 100, 101, 118, 47, 99, 111, 110, 115, 111, 108, 101]

/-- The node with a name, if there is one. -/
def devNode (p : Str) : Option DevNode :=
  if p = devStr then some .dir
  else if p = consoleStr then some .console
  else none

/-- `dev_lookup` -/
def devLookup (path : Str) : Option DevNode := devNode (stripTrailingSlashes (path.take 31))

/-- What `vfs_lookup` fills in. -/
inductive Found where
  | fat (vn : Vnode)
  | dev (node : DevNode)

/-- `vfs_lookup` -/
def vfsLookup (m : Mount) (path : Str) (creat trunc : Bool) : Fat (Except Int Found) := do
  let p := fsForPath path
  match ← fatLookupImpl m p with
  | (_, some vn) =>
    if path ≠ [47] ∧ trunc ∧ !vn.isDir then do
      let (_, r) ← fatWriteImpl m vn.fsData 0 none 0
      pure (.ok (.fat { vn with size := 0, fsData := r }))
    else pure (.ok (.fat vn))
  | (_, none) =>
    if path = [47] then pure (.error Errno.enoent)
    else
      match devLookup path with
      | some node => pure (.ok (.dev node))
      | none =>
        if !creat then pure (.error Errno.enoent)
        else do
          let rc ← fatCreateImpl m p
          if rc < 0 then pure (.error Errno.eacces)
          else
            match ← fatLookupImpl m p with
            | (_, none) => pure (.error Errno.enoent)
            | (_, some vn) => pure (.ok (.fat { vn with size := 0 }))

/-- `sys_open`, up to the vnode -/
def sysOpenPath (m : Mount) (path : Str) (creat trunc : Bool) : Fat Int := do
  match ← vfsLookup m (absPath path 128) creat trunc with
  | .error err => pure err
  | .ok _ => pure 0

/-- `sys_mkdir` -/
def sysMkdir (m : Mount) (path : Str) : Fat Int :=
  fatMkdirImpl m (fsForPath (absPath path 128))

/-- `sys_unlink` -/
def sysUnlink (m : Mount) (path : Str) : Fat Int :=
  fatUnlinkImpl m (fsForPath (absPath path 128))

/-- `sys_rmdir` -/
def sysRmdir (m : Mount) (path : Str) : Fat Int :=
  fatRmdirImpl m (fsForPath (absPath path 128))

/-- `vfs_rename_path` -/
def vfsRenamePath (m : Mount) (oldpath newpath : Str) : Fat Int :=
  fatRenameImpl m (fsForPath (absPath oldpath 128)) (fsForPath (absPath newpath 128))

/-- `sys_rename` -/
def sysRename (m : Mount) (oldpath newpath : Str) : Fat Int := vfsRenamePath m oldpath newpath

/-- What `sys_move` joins to its destination: `destdir/base`. -/
def joinPath (dir base : Str) : Str :=
  (if dir = [] ∨ dir.getLast? ≠ some 47 then dir ++ [47] else dir) ++ base

/-- `sys_move` -/
def sysMove (m : Mount) (src destdir : Str) : Fat Int :=
  let sbuf := stripTrailingSlashes (src.take 127)
  let dbuf := stripTrailingSlashes (destdir.take 127)
  let base := pathTail sbuf
  if base = [] then pure Errno.einval
  else if 256 < dbuf.length + base.length + 2 then pure Errno.einval
  else vfsRenamePath m sbuf (joinPath dbuf base)

/-- The system calls, with the strings in user memory. -/
inductive PathCall where
  | sysOpen (path : CStr) (creat trunc : Bool)
  | sysMkdir (path : CStr)
  | sysUnlink (path : CStr)
  | sysRmdir (path : CStr)
  | sysRename (oldpath newpath : CStr)
  | sysMove (src destdir : CStr)

/-- `syscall_do`, for these calls -/
def PathCall.run (m : Mount) : PathCall → Fat Int
  | .sysOpen path creat trunc => sysOpenPath m (copyUserStr path 128) creat trunc
  | .sysMkdir path => Vfs.sysMkdir m (copyUserStr path 128)
  | .sysUnlink path => Vfs.sysUnlink m (copyUserStr path 128)
  | .sysRmdir path => Vfs.sysRmdir m (copyUserStr path 128)
  | .sysRename oldpath newpath =>
    Vfs.sysRename m (copyUserStr oldpath 128) (copyUserStr newpath 128)
  | .sysMove src destdir => Vfs.sysMove m (copyUserStr src 128) (copyUserStr destdir 128)

end Lnxrm.Vfs
