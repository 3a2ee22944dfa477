import Lnxrm.Fat32.Model.File

/-!
# FAT32 — the namespace

`fat32_meta.c`: create, mkdir, rmdir, unlink and rename. Paths are copied
into buffers of 128 bytes and names into buffers of 56, so longer ones
are cut.
-/

namespace Lnxrm.Fat32

open Prog (forEach)

/-- `struct parent_dir`: the name to create and its parent's cluster -/
structure ParentDir where
  name : Str
  cluster : ℕ

/-- The directory a path without its last component names: the root for
the empty path, and otherwise what it resolves to, with the error codes
for a path that does not resolve and for one that is no directory. -/
def resolveParent (m : Mount) (parent : Str) (missing notDir : Int) : Fat (Except Int ℕ) :=
  if parent = [] then pure (.ok m.rootCluster)
  else do
    match ← fatResolvePath m parent with
    | none => pure (.error missing)
    | some rr => pure (if rr.de.isDir then .ok rr.de.clus else .error notDir)

/-- `parent_dir_init` -/
def parentDirInit (m : Mount) (path : Str) : Fat (Except Int ParentDir) := do
  let full := path.take 127
  match ← resolveParent m (pathParent full) Errno.efail Errno.efail with
  | .error e => pure (.error e)
  | .ok cluster =>
    if pathTail full = [] then pure (.error Errno.efail)
    else do
      match ← fatScanFind m cluster (pathTail full) with
      | some _ => pure (.error Errno.eexist)
      | none => pure (.ok { name := pathTail full, cluster := cluster })

/-- The slots `parent_entry_add` takes. -/
def freeSlot (_ : Unit) (e : Dirent) : Unit ⊕ Unit :=
  if e 0 ≠ entEnd ∧ e 0 ≠ entFree ∧ e 0 ≠ entE5 then .inl () else .inr ()

/-- The record `parent_entry_add` fills in. -/
def newRecord (name : Str) (attr : UInt8) (firstClus : ℕ) : Dirent :=
  let e : Dirent := fun i =>
    if i = 15 ∨ i = 23 then 0x60 -- crttime, wrttime = 0x6000
    else if i = 17 ∨ i = 25 then 0x5A -- crtdate, wrtdate = 0x5A00
    else 0
  ((e.setName (nameToShort name)).setAttr attr).setClus firstClus

/-- `parent_entry_add` -/
def parentEntryAdd (m : Mount) (pdir : ℕ) (name : Str) (attr : UInt8) (firstClus : ℕ) : Fat Int := do
  let _ ← fat32JournalBegin
  match ← scanCached m pdir freeSlot () with
  | .inr ((), pos, pbuf) =>
    updateSector pos.lba (putRec pbuf pos.off (newRecord name attr firstClus))
    let _ ← fat32JournalCommit
    pure 0
  | .inl _ =>
    let _ ← fat32JournalAbort
    pure Errno.efail

/-! ## Directory records -/

/-- `struct dirent_loc` -/
structure DirentLoc where
  pos : DirentPos
  de : Dirent
  lfn : List DirentPos

/-- `dirent_write`; the buffer on the stack is `junk` before the read. -/
def direntWrite (m : Mount) (p : DirentPos) (de : Dirent) : Fat Unit := do
  let (_, buf) ← fatReadSector p.lba m.junk
  updateSector p.lba (putRec buf p.off de)

/-- `dirent_free` -/
def direntFree (m : Mount) (p : DirentPos) : Fat Unit := do
  let (_, buf) ← fatReadSector p.lba m.junk
  updateSector p.lba (Function.update buf p.off entE5)

/-- `dirent_free` for each of a list of records. -/
def direntFreeAll (m : Mount) : List DirentPos → Fat Unit
  | [] => pure ()
  | p :: ps => do
    direntFree m p
    direntFreeAll m ps

/-- `free_dirent_record` -/
def freeDirentRecord (m : Mount) (loc : DirentLoc) : Fat Unit := do
  direntFreeAll m loc.lfn
  direntFree m loc.pos

/-- What `dirent_locate` does with one record; `run` are the long-name
records in front of it. -/
def locateStep (sn : Fin 11 → UInt8) (run : List DirentPos) (p : DirentPos) (e : Dirent) :
    List DirentPos ⊕ Option DirentLoc :=
  if e 0 = entFree then .inr none
  else if !entryUsed e then .inl []
  else if e.isLfn then .inl (run ++ [p])
  else if e.name = sn then .inr (some { pos := p, de := e, lfn := run.take lfnEntriesMax })
  else .inl []

/-- `dirent_locate` -/
def direntLocate (m : Mount) (dirclus : ℕ) (sn : Fin 11 → UInt8) : Fat (Option DirentLoc) := do
  match ← scanDevice m dirclus (locateStep sn) [] with
  | .inl _ => pure none
  | .inr loc => pure loc

/-- What `dir_claim_run` does with one record: the run so far, and
whether it has reached the free tail. -/
def claimStep (need : ℕ) (st : List DirentPos × Bool) (p : DirentPos) (e : Dirent) :
    (List DirentPos × Bool) ⊕ Except Int (List DirentPos) :=
  let (run, inTail) := st
  if inTail ∧ e 0 ≠ entFree then .inr (.error Errno.enospc)
  else if !inTail ∧ e 0 ≠ entFree ∧ e 0 ≠ entE5 then .inl ([], inTail)
  else if (run ++ [p]).length = need then .inr (.ok (run ++ [p]))
  else .inl (run ++ [p], inTail || e 0 == entFree)

/-- `dir_claim_run` -/
def dirClaimRun (m : Mount) (dirclus need : ℕ) : Fat (Except Int (List DirentPos)) :=
  if need = 0 ∨ lfnEntriesMax + 1 < need then pure (.error Errno.einval)
  else do
    match ← scanDevice m dirclus (claimStep need) ([], false) with
    | .inl _ => pure (.error Errno.enospc)
    | .inr r => pure r

/-! ## Create, mkdir, rmdir, unlink -/

/-- `fat_create_impl` -/
def fatCreateImpl (m : Mount) (path : Str) : Fat Int := do
  match ← parentDirInit m path with
  | .error rc => pure rc
  | .ok pd =>
    let rc ← parentEntryAdd m pd.cluster pd.name attrArchive 0
    pure (if rc ≠ 0 then Errno.efail else 0)

/-- A dot record of `fat_mkdir_impl`. -/
def dotRecord (dots : ℕ) (clus : ℕ) : Dirent :=
  let e : Dirent := fun _ => 0
  ((e.setName fun i => if i.val < dots then 46 else 32).setAttr attrDir).setClus clus

/-- The first sector of a new directory. -/
def dirSector (newClus parent : ℕ) : Sector :=
  putRec (putRec (fun _ => 0) 0 (dotRecord 1 newClus)) direntSize (dotRecord 2 parent)

/-- The loop of `fat_mkdir_impl` that zeroes sectors. -/
def zeroSectors (lba : ℕ) : List ℕ → Fat Unit
  | [] => pure ()
  | s :: ss => do
    let _ ← fatWriteSector (lba + s) (fun _ => 0)
    zeroSectors lba ss

/-- `fat_mkdir_impl` -/
def fatMkdirImpl (m : Mount) (path : Str) : Fat Int := do
  match ← parentDirInit m path with
  | .error rc => pure rc
  | .ok pd =>
    let newClus ← fatFindFreeCluster m
    if newClus = 0 then pure Errno.enospc
    else
      fatSetEntry m newClus 0x0FFFFFFF
      let newLba := clusterLba m newClus
      let _ ← fatWriteSector newLba (dirSector newClus pd.cluster)
      zeroSectors newLba (List.range' 1 (m.sectorsPerCluster - 1))
      let rc ← parentEntryAdd m pd.cluster pd.name (attrDir ||| attrArchive) newClus
      if rc ≠ 0 then
        fatSetEntry m newClus 0
        pure Errno.efail
      else pure 0

/-- The check of `fat_rmdir_impl`: counts used records, and stops at the
end mark (`true`) or at one that is not a dot record (`false`). -/
def emptyStep (count : ℕ) (e : Dirent) : ℕ ⊕ (Bool × ℕ) :=
  if e 0 = entEnd then .inr (true, count)
  else if e 0 = entFree ∨ e 0 = entE5 then .inl count
  else if e 0 = 46 ∧ (e 1 = 32 ∨ e 1 = 46) then .inl (count + 1)
  else .inr (false, count + 1)

/-- The loop that frees a chain. -/
def freeChain (m : Mount) : ℕ → ℕ → Fat Unit
  | 0, _ => .hang
  | fuel + 1, clus =>
    if !clusterIsEoc clus ∧ 2 ≤ clus then do
      let nx ← fatNextCluster m clus
      fatSetEntry m clus 0
      freeChain m fuel nx
    else pure ()

/-- The end of `fat_rmdir_impl` and of `fat_unlink_impl`: drop the record,
then free the chain. -/
def removeRecord (m : Mount) (loc : DirentLoc) (clus : ℕ) : Fat Int := do
  let _ ← fat32JournalBegin
  freeDirentRecord m loc
  freeChain m m.fuel clus
  let _ ← fat32JournalCommit
  pure 0

/-- The check of `fat_rmdir_impl`: whether the directory holds nothing but
dot records, and how many records it holds. -/
def dirIsEmpty (m : Mount) (dirClus : ℕ) : Fat (Bool × ℕ) := do
  match ← scanCached m dirClus emptyStep 0 with
  | .inl (count, _) => pure (true, count)
  | .inr ((empty, count), _, _) => pure (empty, count)

/-- `fat_rmdir_impl` -/
def fatRmdirImpl (m : Mount) (path : Str) : Fat Int := do
  match ← fatResolvePath m path with
  | none => pure Errno.enoent
  | some r =>
    if !r.de.isDir then pure Errno.enotdir
    else if r.de.clus < 2 then pure Errno.efail
    else do
      let (empty, count) ← dirIsEmpty m r.de.clus
      if !empty then pure Errno.enotempty
      else if count < 2 then pure Errno.efail
      else do
        match ← direntLocate m r.dirCluster r.de.name with
        | none => pure Errno.enoent
        | some loc => removeRecord m loc r.de.clus

/-- `fat_unlink_impl` -/
def fatUnlinkImpl (m : Mount) (path : Str) : Fat Int := do
  match ← fatResolvePath m path with
  | none => pure Errno.enoent
  | some r =>
    if r.de.isDir then pure Errno.efail
    else
      match ← direntLocate m r.dirCluster r.de.name with
      | none => pure Errno.enoent
      | some loc => removeRecord m loc r.de.clus

end Lnxrm.Fat32
