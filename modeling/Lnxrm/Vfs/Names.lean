import Lnxrm.Fat32.Helpers.Looks
import Lnxrm.Fat32.Helpers.PathNames
import Lnxrm.Vfs.Path

/-!
# VFS — the names a call works on

A path goes through five buffers before it names something: 128 bytes in
`syscall_do`, 128 in `abs_path` with two of them unused, 128 and 56 in the
driver, 32 in `dev_lookup`. None of the copies reports that it had to cut.
`Names` are the names a call comes to work on, `PathCall.exactNames` the
ones its strings mean, and `PathCall.Fits` says which strings are short
enough, or refused for what is left of them.
-/

namespace Lnxrm.Vfs

open Fat32

/-! ## The names a call works on -/

/-- What path resolution sees of a path: its components, and whether a
slash follows. -/
def resolved (p : Str) : List Str × Bool := (pathComponents p, trailingSlash p)

/-- The name under which a record for `name` shows up afterwards. `create`
and `mkdir` write no long-name records. -/
def shown (name : Str) : Str :=
  (fatShortToName (nameToShort name)).map asciiTolower

/-- The names a call works on: the paths it resolves, the last components
it compares and enters, and the device node it falls back to. -/
structure Names where
  paths : List (List Str × Bool)
  entered : List Str
  node : Option DevNode

/-- What `fat_create_impl` and `fat_mkdir_impl` work on. -/
def entryNames (path : Str) : Names :=
  let full := path.take 127
  { paths := [(pathComponents (pathParent full), true)]
    entered := [pathTail full, shown (pathTail full)]
    node := none }

/-- What `fat_rename_impl` works on. -/
def renameNames (oldpath newpath : Str) : Names :=
  let ob := pathTrim (oldpath.take 127)
  let nb := pathTrim (newpath.take 127)
  { paths := [resolved ob, resolved (pathParent nb)]
    entered := [(pathTail nb).take 55]
    node := none }

/-- The path that reaches the driver. -/
def driverPath (path : Str) : Str := fsForPath (absPath path 128)

/-- The source and the destination that `sys_move` hands on. -/
def moveSrc (src : Str) : Str := stripTrailingSlashes (src.take 127)

/-- See `moveSrc`. -/
def moveDest (src destdir : Str) : Str :=
  joinPath (stripTrailingSlashes (destdir.take 127)) (pathTail (moveSrc src))

/-- **The names a call works on.** -/
def PathCall.names : PathCall → Names
  | .sysOpen path creat _ =>
    let p := driverPath (copyUserStr path 128)
    { paths := resolved p :: if creat then (entryNames p).paths else []
      entered := if creat then (entryNames p).entered else []
      node := devLookup (absPath (copyUserStr path 128) 128) }
  | .sysMkdir path => entryNames (driverPath (copyUserStr path 128))
  | .sysUnlink path => ⟨[resolved (driverPath (copyUserStr path 128))], [], none⟩
  | .sysRmdir path => ⟨[resolved (driverPath (copyUserStr path 128))], [], none⟩
  | .sysRename oldpath newpath =>
    renameNames (driverPath (copyUserStr oldpath 128)) (driverPath (copyUserStr newpath 128))
  | .sysMove src destdir =>
    renameNames (driverPath (moveSrc (copyUserStr src 128)))
      (driverPath (moveDest (copyUserStr src 128) (copyUserStr destdir 128)))

/-- A path made absolute. -/
def absName (path : Str) : Str := if path.head? = some 47 then path else 47 :: path

/-- What a path to be created means. -/
def exactEntry (path : Str) : Names where
  paths := [(pathComponents (pathParent path), true)]
  entered := [pathTail path, (pathTail path).map asciiTolower]
  node := none

/-- What two paths mean to a rename, slashes at the end not counted. -/
def exactRename (oldpath newpath : Str) : Names where
  paths := [resolved (pathTrim oldpath), resolved (pathParent (pathTrim newpath))]
  entered := [pathTail (pathTrim newpath)]
  node := none

/-- The destination a move means. -/
def exactDest (src destdir : Str) : Str :=
  joinPath (stripTrailingSlashes destdir) (pathTail (stripTrailingSlashes src))

/-- **The names the strings of a call mean.** -/
def PathCall.exactNames : PathCall → Names
  | .sysOpen path creat _ =>
    let p := fsForPath (absName path)
    { paths := resolved p :: if creat then (exactEntry p).paths else []
      entered := if creat then (exactEntry p).entered else []
      node := devNode (stripTrailingSlashes (absName path)) }
  | .sysMkdir path => exactEntry (fsForPath (absName path))
  | .sysUnlink path => ⟨[resolved (fsForPath (absName path))], [], none⟩
  | .sysRmdir path => ⟨[resolved (fsForPath (absName path))], [], none⟩
  | .sysRename oldpath newpath =>
    exactRename (fsForPath (absName oldpath)) (fsForPath (absName newpath))
  | .sysMove src destdir =>
    exactRename (fsForPath (absName (stripTrailingSlashes src)))
      (fsForPath (absName (exactDest src destdir)))

/-- A program that fails whatever it is answered, and changes nothing. -/
structure Fails (m : Mount) (p : Fat Int) : Prop where
  looks : p.Only (Looks m)
  negative : p.Yields (· < 0)

/-- **No silent cut**: the call fails on every volume without changing it,
or works on the names its strings mean. -/
def NoSilentCut (c : PathCall) : Prop := (∀ m, Fails m (c.run m)) ∨ c.names = c.exactNames

/-! ## Strings that fit -/

/-- How much of a path `copy_user_str` and `abs_path` keep. -/
def room (path : Str) : ℕ := if path.head? = some 47 then 127 else 125

/-- What reaches the driver of a path. -/
def kept (path : Str) : Str := fsForPath (path.take (room path))

/-- A component that path resolution refuses. -/
def TooLong (comps : List Str) : Prop := ∃ c ∈ comps, 56 ≤ c.length

/-- Nothing can be created under this path. -/
def NoEntry (p : Str) : Prop := pathTail p = [] ∨ TooLong (pathComponents (pathParent p))

/-- Nothing can be renamed from and to these paths. -/
def NoRename (ob nb : Str) : Prop :=
  (pathComponents ob = [] ∨ TooLong (pathComponents ob)) ∨
    (pathTail nb = [] ∨ pathTail nb = [46] ∨ pathTail nb = [46, 46]) ∨
    TooLong (pathComponents (pathParent nb))

/-- **What is left of the strings is refused**: it has a component of 56
bytes or more, or no last component, or the wrong one. -/
def PathCall.Refused : PathCall → Prop
  | .sysOpen path creat _ => TooLong (pathComponents (kept path)) ∧ devLookup (absName path) = none ∧
      (creat = true → NoEntry (kept path))
  | .sysMkdir path => NoEntry (kept path)
  | .sysUnlink path => pathComponents (kept path) = [] ∨ TooLong (pathComponents (kept path)) ∨
      trailingSlash (kept path) = true
  | .sysRmdir path => pathComponents (kept path) = [] ∨ TooLong (pathComponents (kept path))
  | .sysRename oldpath newpath => NoRename (pathTrim (kept oldpath)) (pathTrim (kept newpath))
  | .sysMove src destdir => pathTail (moveSrc src) = [] ∨
      NoRename (pathTrim (kept src)) (pathTrim ((driverPath (moveDest src destdir)).take 127))

/-- Nothing but slashes is cut off, and behind a slash. -/
def Whole (path : Str) : Prop :=
  Slashes (path.drop (room path)) ∧
    (path.length ≤ room path ∨ kept path = [] ∨ trailingSlash (kept path) = true)

/-- **The strings fit**, or what is left of them is refused. -/
def PathCall.Fits (c : PathCall) : Prop := c.Refused ∨
  match c with
  | .sysOpen path creat _ => Whole path ∧ (creat = true → shown (pathTail (fsForPath path)) =
        (pathTail (fsForPath path)).map asciiTolower) ∧
      (devLookup (absName path) = none ∨ Slashes ((absName path).drop 31))
  | .sysMkdir path => path.val.length ≤ room path ∧
      shown (pathTail (fsForPath path)) = (pathTail (fsForPath path)).map asciiTolower
  | .sysUnlink path => path.val.length ≤ room path
  | .sysRmdir path => Whole path
  | .sysRename oldpath newpath => Slashes (oldpath.val.drop (room oldpath)) ∧
      Slashes (newpath.val.drop (room newpath)) ∧
      (pathTail (pathTrim (fsForPath newpath))).length ≤ 55
  | .sysMove src destdir => Slashes (src.val.drop (room src)) ∧ Slashes (destdir.val.drop 127) ∧
      (if (exactDest src destdir).head? = some 47 then (fsForPath (exactDest src destdir)).length ≤ 127
        else (exactDest src destdir).length ≤ 125) ∧
      (pathTail (pathTrim (fsForPath (exactDest src destdir)))).length ≤ 55

end Lnxrm.Vfs
