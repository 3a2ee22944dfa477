import Lnxrm.Fat32.Helpers.Records
import Lnxrm.Fat32.Tree

/-!
# FAT32 — what the namespace calls do to a volume

`Effect` says what one call of create, mkdir, unlink, rmdir or rename may
make of a volume's records and its FAT, without the cache, the journal
and the order of the steps. It says when a call gets how far, so a
property of all calls is a property of its cases.

`Reached` are the directories a path can lead to. The dot records count
here, since the driver follows them like any other record.
-/

namespace Lnxrm.Fat32

/-! ## Directories -/

/-- A record that names a directory. The end mark of the scans does not
matter here: a record that starts with it is one too. -/
def Dirent.isSubdir (e : Dirent) : Bool := entryUsed e && !e.isLfn && !e.isVolume && e.isDir

/-- A record that names a file. -/
def Dirent.isFile (e : Dirent) : Bool := entryUsed e && !e.isLfn && !e.isVolume && !e.isDir

/-- **The directories of a volume**: the root, and what a record of one of
them names. -/
inductive Reached (m : Mount) (data : ℕ → Sector) (fat : ℕ → ℕ) : ℕ → Prop
  | root : Reached m data fat m.rootCluster
  | sub {d : ℕ} {p : DirentPos} : Reached m data fat d → p ∈ slots m (chainOf m fat d) →
      (recOf data p).isSubdir = true → Reached m data fat (recOf data p).clus

/-- **The chains of a volume are disjoint**: every directory and every
file has a chain, and the chain of a directory meets neither that of
another directory nor that of a file. -/
structure ChainsApart (m : Mount) (data : ℕ → Sector) (fat : ℕ → ℕ) : Prop where
  dir : ∀ {d}, Reached m data fat d → ∃ l, HasChain m fat d l
  dirs : ∀ {d d'}, Reached m data fat d → Reached m data fat d' → d ≠ d' →
    (chainOf m fat d).Disjoint (chainOf m fat d')
  file : ∀ {d p}, Reached m data fat d → p ∈ slots m (chainOf m fat d) →
    (recOf data p).isFile = true → (∃ l, HasChain m fat (recOf data p).clus l) ∧
      ∀ {d'}, Reached m data fat d' →
        (chainOf m fat (recOf data p).clus).Disjoint (chainOf m fat d')

/-! ## What the calls look up -/

/-- The directory a path without its last component names. -/
def parentTarget (m : Mount) (data : ℕ → Sector) (fat : ℕ → ℕ) (parent : Str)
    (missing notDir : Int) : Except Int ℕ :=
  if parent = [] then .ok m.rootCluster
  else
    match pathTarget m data fat parent with
    | none => .error missing
    | some t => if (recOf data t.pos).isDir then .ok (recOf data t.pos).clus else .error notDir

/-- Where a new name would go, if it is not there yet. -/
def newTarget (m : Mount) (data : ℕ → Sector) (fat : ℕ → ℕ) (path : Str) : Except Int ParentDir :=
  let full := path.take 127
  match parentTarget m data fat (pathParent full) Errno.efail Errno.efail with
  | .error e => .error e
  | .ok d =>
    if pathTail full = [] then .error Errno.efail
    else
      match findRecord m data fat d (pathTail full) with
      | some _ => .error Errno.eexist
      | none => .ok { name := pathTail full, cluster := d }

/-- The slot `parent_entry_add` takes. -/
def freePlace (m : Mount) (data : ℕ → Sector) (fat : ℕ → ℕ) (d : ℕ) : Option DirentPos :=
  match findIn data freeSlot () (slots m (chainOf m fat d)) with
  | .inl _ => none
  | .inr (_, p) => some p

/-- The slots `dir_claim_run` takes. -/
def claimedRun (m : Mount) (data : ℕ → Sector) (fat : ℕ → ℕ) (d need : ℕ) :
    Except Int (List DirentPos) :=
  if need = 0 ∨ lfnEntriesMax + 1 < need then .error Errno.einval
  else
    match foldExit (fun st p => claimStep need st p (recOf data p)) ([], false)
      (slots m (chainOf m fat d)) with
    | .inl _ => .error Errno.enospc
    | .inr r => r

/-- The check of `fat_rmdir_impl`. -/
def emptyCheck (m : Mount) (data : ℕ → Sector) (fat : ℕ → ℕ) (d : ℕ) : Bool × ℕ :=
  match findIn data emptyStep 0 (slots m (chainOf m fat d)) with
  | .inl count => (true, count)
  | .inr (r, _) => r

/-- Whether the destination name is taken. -/
def nameTaken (m : Mount) (data : ℕ → Sector) (fat : ℕ → ℕ) (d : ℕ) (want : Str)
    (skip : Option (Fin 11 → UInt8)) : Bool :=
  match findIn data (scanStep (renameExistsCb want skip)) (lfnInit m, false)
    (slots m (chainOf m fat d)) with
  | .inl st => st.2
  | .inr ((_, hit), _) => hit

/-- `dir_dotdot` -/
def dotdotOf (m : Mount) (data : ℕ → Sector) (c : ℕ) : ℕ :=
  match findDotdot (data (clusterLba m c)) with
  | none => 0
  | some off => (recAt (data (clusterLba m c)) off).clus

/-- The loop of `dir_contains`. -/
def containsFrom (m : Mount) (data : ℕ → Sector) (dir : ℕ) : ℕ → ℕ → Bool
  | 0, _ => false
  | turns + 1, c =>
    if 2 ≤ c ∧ c < m.maxCluster then
      if c = dir then true
      else
        let p := dotdotOf m data c
        if p = c ∨ p < 2 ∨ m.maxCluster ≤ p then false
        else containsFrom m data dir turns p
    else false

/-- Whether a directory would move into itself. -/
def intoItself (m : Mount) (data : ℕ → Sector) (de : Dirent) (newDir : ℕ) : Bool :=
  de.isDir && containsFrom m data de.clus 64 newDir

/-! ## What they change -/

/-- A record marked free. -/
def freedRecord (e : Dirent) : Dirent := Function.update e 0 entE5

/-- `dirent_free` -/
def freeAt (data : ℕ → Sector) (p : DirentPos) : ℕ → Sector :=
  putAt data p (freedRecord (recOf data p))

/-- `free_dirent_record` -/
def freeLoc (data : ℕ → Sector) (loc : DirentLoc) : ℕ → Sector :=
  freeAt (loc.lfn.foldl freeAt data) loc.pos

/-- The loop that writes long-name records. -/
def putLfns (total : ℕ) (sum : UInt8) (nname : Str) : List DirentPos → (ℕ → Sector) → ℕ → Sector
  | [], data => data
  | p :: ps, data => putLfns total sum nname ps (putAt data p (lfnFill (ps.length + 1) total sum nname))

/-- `dir_set_dotdot` -/
def setDotdot (m : Mount) (data : ℕ → Sector) (clus parent : ℕ) : ℕ → Sector :=
  match findDotdot (data (clusterLba m clus)) with
  | none => data
  | some off =>
    putAt data ⟨clusterLba m clus, off⟩ ((recOf data ⟨clusterLba m clus, off⟩).setClus parent)

/-- `dir_set_dotdot` for a directory that was moved. -/
def repointed (m : Mount) (data : ℕ → Sector) : Option (ℕ × ℕ) → ℕ → Sector
  | none => data
  | some (clus, parent) => setDotdot m data clus parent

/-- A cluster made into an empty directory. -/
def newDir (m : Mount) (data : ℕ → Sector) (c parent : ℕ) : ℕ → Sector := fun lba =>
  if lba = clusterLba m c then dirSector c parent
  else if lba ∈ clusterSectors m c then fun _ => 0
  else data lba

/-- The FAT without the entries of a chain. -/
def freed (fat : ℕ → ℕ) (l : List ℕ) : ℕ → ℕ := l.foldl (fun fat c => setEntry fat c 0) fat

/-- The name a rename gives. -/
def renameName (newpath : Str) : Str := (pathTail (pathTrim (newpath.take 127))).take 55

/-- **What a rename has found** when it starts to write: the record `t`
names, the destination directory `d`, where the record lies, and the
number of long-name records the new name takes. -/
structure Renaming (m : Mount) (data : ℕ → Sector) (fat : ℕ → ℕ) (oldpath newpath : Str)
    (t : Target) (d : ℕ) (loc : DirentLoc) (n : ℕ) : Prop where
  target : pathTarget m data fat (pathTrim (oldpath.take 127)) = some t
  parent : parentTarget m data fat (pathParent (pathTrim (newpath.take 127)))
    Errno.enoent Errno.enotdir = .ok d
  nonempty : renameName newpath ≠ []
  notDot : renameName newpath ≠ [46] ∧ renameName newpath ≠ [46, 46]
  moves : ¬ (t.dirCluster = d ∧ strcaseEq t.name (renameName newpath) = true)
  untaken : nameTaken m data fat d (renameName newpath)
    (if t.dirCluster = d then some (recOf data t.pos).name else none) = false
  outside : intoItself m data (recOf data t.pos) d = false
  count : fatLfnCount (renameName newpath) = some n
  located : locateRecord m data fat t.dirCluster (recOf data t.pos).name = some loc

/-- **What a call does.** -/
inductive Effect (m : Mount) (data : ℕ → Sector) (fat : ℕ → ℕ) :
    NsOp → Int → (ℕ → Sector) → (ℕ → ℕ) → Prop
  /-- it fails without a trace -/
  | refused {op : NsOp} {rc : Int} : rc ≠ 0 → Effect m data fat op rc data fat
  /-- it makes a file -/
  | created {path : Str} {pd : ParentDir} {p : DirentPos} :
      newTarget m data fat path = .ok pd → freePlace m data fat pd.cluster = some p →
      Effect m data fat (.create path) 0 (putAt data p (newRecord pd.name attrArchive 0)) fat
  /-- it makes a directory -/
  | made {path : Str} {pd : ParentDir} {c : ℕ} {p : DirentPos} :
      newTarget m data fat path = .ok pd → IsFree m fat c →
      freePlace m data fat pd.cluster = some p →
      Effect m data fat (.mkdir path) 0
        (putAt (newDir m data c pd.cluster) p (newRecord pd.name (attrDir ||| attrArchive) c))
        (setEntry fat c 0x0FFFFFFF)
  /-- it prepares a directory, and there is no slot for its record -/
  | abandoned {path : Str} {pd : ParentDir} {c : ℕ} :
      newTarget m data fat path = .ok pd → IsFree m fat c →
      Effect m data fat (.mkdir path) Errno.efail (newDir m data c pd.cluster) fat
  /-- it removes a file -/
  | unlinked {path : Str} {t : Target} {loc : DirentLoc} :
      pathTarget m data fat path = some t → (recOf data t.pos).isDir = false →
      locateRecord m data fat t.dirCluster (recOf data t.pos).name = some loc →
      Effect m data fat (.unlink path) 0 (freeLoc data loc)
        (freed fat (chainOf m fat (recOf data t.pos).clus))
  /-- it removes a directory -/
  | removed {path : Str} {t : Target} {loc : DirentLoc} {count : ℕ} :
      pathTarget m data fat path = some t → (recOf data t.pos).isDir = true →
      2 ≤ (recOf data t.pos).clus →
      emptyCheck m data fat (recOf data t.pos).clus = (true, count) → 2 ≤ count →
      locateRecord m data fat t.dirCluster (recOf data t.pos).name = some loc →
      Effect m data fat (.rmdir path) 0 (freeLoc data loc)
        (freed fat (chainOf m fat (recOf data t.pos).clus))
  /-- the new name is the old one -/
  | same {oldpath newpath : Str} {t : Target} :
      pathTarget m data fat (pathTrim (oldpath.take 127)) = some t →
      parentTarget m data fat (pathParent (pathTrim (newpath.take 127)))
        Errno.enoent Errno.enotdir = .ok t.dirCluster →
      strcaseEq t.name (renameName newpath) = true →
      Effect m data fat (.rename oldpath newpath) 0 data fat
  /-- it renames where the record is -/
  | renamed {oldpath newpath : Str} {t : Target} {loc : DirentLoc} {n : ℕ} :
      Renaming m data fat oldpath newpath t t.dirCluster loc n → n ≤ loc.lfn.length →
      Effect m data fat (.rename oldpath newpath) 0
        (putAt (putLfns n (lfnChecksum (nameToShort (renameName newpath))) (renameName newpath)
            (loc.lfn.drop (loc.lfn.length - n))
            ((loc.lfn.take (loc.lfn.length - n)).foldl freeAt data))
          loc.pos (renamedRecord loc.de (nameToShort (renameName newpath))))
        fat
  /-- it writes new records and frees the old ones -/
  | moved {oldpath newpath : Str} {t : Target} {d : ℕ} {loc : DirentLoc} {n : ℕ}
      {ps : List DirentPos} :
      Renaming m data fat oldpath newpath t d loc n →
      (t.dirCluster = d → loc.lfn.length < n) → claimedRun m data fat d (n + 1) = .ok ps →
      Effect m data fat (.rename oldpath newpath) 0
        (repointed m (freeLoc (putAt (putLfns n (lfnChecksum (nameToShort (renameName newpath)))
                (renameName newpath) (ps.take n) data)
              (ps.getD n ⟨0, 0⟩) (renamedRecord loc.de (nameToShort (renameName newpath))))
            loc)
          (if (recOf data t.pos).isDir ∧ t.dirCluster ≠ d then some ((recOf data t.pos).clus, d)
            else none))
        fat

end Lnxrm.Fat32
