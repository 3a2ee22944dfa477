import Lnxrm.Fat32.Model.Meta

/-!
# FAT32 — rename

`fat_rename_impl` of `fat32_meta.c` and its helpers.
-/

namespace Lnxrm.Fat32

/-- `rename_exists_cb`; `skip` is the short name of the record being
renamed when the directory stays the same. -/
def renameExistsCb (want : Str) (skip : Option (Fin 11 → UInt8)) (hit : Bool) (name : Str)
    (e : Dirent) : Bool × Bool :=
  if skip = some e.name then (hit, false)
  else if strcaseEq name want || fatNameEqShort want e then (true, true)
  else (hit, false)

/-- `e->name` is `".."` -/
def isDotdot (e : Dirent) : Bool := e 0 == 46 && e 1 == 46 && e 2 == 32

/-- `e->name` is `"."` -/
def isDot (e : Dirent) : Bool := e 0 == 46 && e 1 == 32

/-- What the loops of `dir_dotdot` and `dir_set_dotdot` do with the record
at `off`: stop at the `..` record with its place, or without one. -/
def dotdotStep (buf : Sector) (_ : Unit) (k : ℕ) : Unit ⊕ Option ℕ :=
  let e := recAt buf (k * direntSize)
  if e 0 = entFree then .inr none
  else if !entryUsed e || e.isLfn then .inl ()
  else if isDotdot e then .inr (some (k * direntSize))
  else if isDot e then .inl ()
  else .inr none

/-- Where the `..` record lies in the first sector of a directory. -/
def findDotdot (buf : Sector) : Option ℕ :=
  match foldExit (dotdotStep buf) () (List.range (sectorSize / direntSize)) with
  | .inl () => none
  | .inr off => off

/-- `dir_dotdot` -/
def dirDotdot (m : Mount) (clus : ℕ) : Fat ℕ := do
  let (ret, buf) ← fatReadSector (clusterLba m clus) m.junk
  if ret ≠ 0 then pure 0
  else
    match findDotdot buf with
    | none => pure 0
    | some off => pure (recAt buf off).clus

/-- `dir_set_dotdot` -/
def dirSetDotdot (m : Mount) (clus parent : ℕ) : Fat Unit := do
  let (ret, buf) ← fatReadSector (clusterLba m clus) m.junk
  if ret ≠ 0 then pure ()
  else
    match findDotdot buf with
    | none => pure ()
    | some off => updateSector (clusterLba m clus) (putRec buf off ((recAt buf off).setClus parent))

/-- The loop of `dir_contains`, with the turns it has left. -/
def dirContainsFrom (m : Mount) (dir : ℕ) : ℕ → ℕ → Fat Bool
  | 0, _ => pure false
  | turns + 1, c =>
    if 2 ≤ c ∧ c < m.maxCluster then
      if c = dir then pure true
      else do
        let p ← dirDotdot m c
        if p = c ∨ p < 2 ∨ m.maxCluster ≤ p then pure false
        else dirContainsFrom m dir turns p
    else pure false

/-- `dir_contains` -/
def dirContains (m : Mount) (dir node : ℕ) : Fat Bool := dirContainsFrom m dir 64 node

/-- `is_dir && dir_contains(...)` -/
def movesIntoItself (m : Mount) (de : Dirent) (newDir : ℕ) : Fat Bool :=
  if de.isDir then dirContains m de.clus newDir else pure false

/-- The loop that writes the long-name records `total`, ..., `1` to their
places. -/
def writeLfnRun (m : Mount) (total : ℕ) (sum : UInt8) (nname : Str) : List DirentPos → Fat Unit
  | [] => pure ()
  | p :: ps => do
    direntWrite m p (lfnFill (ps.length + 1) total sum nname)
    writeLfnRun m total sum nname ps

/-- `rec = loc.de` with the new short name and `ntres` cleared -/
def renamedRecord (de : Dirent) (short : Fin 11 → UInt8) : Dirent :=
  Function.update (de.setName short) 12 0

/-- `rename_in_place` -/
def renameInPlace (m : Mount) (loc : DirentLoc) (nLfn : ℕ) (nname : Str) (short : Fin 11 → UInt8)
    (sum : UInt8) : Fat Int := do
  let _ ← fat32JournalBegin
  let drop := loc.lfn.length - nLfn
  direntFreeAll m (loc.lfn.take drop)
  writeLfnRun m nLfn sum nname (loc.lfn.drop drop)
  direntWrite m loc.pos (renamedRecord loc.de short)
  let _ ← fat32JournalCommit
  pure 0

/-- `dir_set_dotdot` for a directory that was moved to another one. -/
def repointDotdot (m : Mount) : Option (ℕ × ℕ) → Fat Unit
  | none => pure ()
  | some (clus, parent) => dirSetDotdot m clus parent

/-- The end of `fat_rename_impl`: write the new records, drop the old
ones, and repoint the `..` of a directory that was moved. -/
def renameMove (m : Mount) (loc : DirentLoc) (slots : List DirentPos) (nLfn : ℕ) (nname : Str)
    (short : Fin 11 → UInt8) (sum : UInt8) (moved : Option (ℕ × ℕ)) : Fat Int := do
  let _ ← fat32JournalBegin
  writeLfnRun m nLfn sum nname (slots.take nLfn)
  direntWrite m (slots.getD nLfn ⟨0, 0⟩) (renamedRecord loc.de short)
  freeDirentRecord m loc
  repointDotdot m moved
  let _ ← fat32JournalCommit
  pure 0

/-- The part of `fat_rename_impl` from the check of the destination name
on, with the record found and the destination directory. -/
def renameTo (m : Mount) (ro : Resolve) (newDir : ℕ) (nname : Str) : Fat Int := do
  let oldDir := ro.dirCluster
  let (_, hit) ← fatScanDir m newDir
    (renameExistsCb nname (if oldDir = newDir then some ro.de.name else none)) false
  if hit then pure Errno.eexist
  else
    let inside ← movesIntoItself m ro.de newDir
    if inside then pure Errno.einval
    else
      match fatLfnCount nname with
      | none => pure Errno.einval
      | some nLfn =>
        let short := nameToShort nname
        let sum := lfnChecksum short
        match ← direntLocate m oldDir ro.de.name with
        | none => pure Errno.enoent
        | some loc =>
          if oldDir = newDir ∧ nLfn ≤ loc.lfn.length then renameInPlace m loc nLfn nname short sum
          else
            match ← dirClaimRun m newDir (nLfn + 1) with
            | .error err => pure err
            | .ok slots =>
              renameMove m loc slots nLfn nname short sum
                (if ro.de.isDir ∧ oldDir ≠ newDir then some (ro.de.clus, newDir) else none)

/-- `fat_rename_impl` -/
def fatRenameImpl (m : Mount) (oldpath newpath : Str) : Fat Int := do
  let ob := pathTrim (oldpath.take 127)
  let nb := pathTrim (newpath.take 127)
  match ← fatResolvePath m ob with
  | none => pure Errno.enoent
  | some ro =>
    let pdir := pathParent nb
    let nname := (pathTail nb).take 55
    if nname = [] then pure Errno.einval
    else if nname = [46] ∨ nname = [46, 46] then pure Errno.einval
    else do
      match ← resolveParent m pdir Errno.enoent Errno.enotdir with
      | .error e => pure e
      | .ok newDir =>
        -- already where it should be
        if ro.dirCluster = newDir ∧ strcaseEq ro.name nname then pure 0
        else renameTo m ro newDir nname

end Lnxrm.Fat32
