import Lnxrm.Fat32.Helpers.Rules

/-!
# FAT32 — what a path names on a volume

`pathTarget` is what a path means on a volume: the place of the record it
names.
-/

namespace Lnxrm.Fat32

/-- The records `fat_scan_dir` hands to its callback: in use, without end
mark, neither long-name record nor volume label. -/
def Dirent.isLive (e : Dirent) : Bool := e 0 != entEnd && entryUsed e && !e.isLfn && !e.isVolume

/-- The clusters the loops of the driver walk from `c`. -/
def chainOf (m : Mount) (fat : ℕ → ℕ) (c : ℕ) : List ℕ :=
  walkFrom (nextOf m fat) Ends m.maxCluster c

/-- Where a scan of the directory `d` finds the name. -/
def findRecord (m : Mount) (data : ℕ → Sector) (fat : ℕ → ℕ) (d : ℕ) (want : Str) :
    Option DirentPos :=
  match findIn data (scanStep (fatScanFindCb want)) (lfnInit m, none) (slots m (chainOf m fat d)) with
  | .inr ((true, _), p) => some p
  | _ => none

/-- What a path names: as in `struct resolve`, with the record's place in
place of the record. -/
structure Target where
  dirCluster : ℕ
  name : Str
  pos : DirentPos

/-- The copy of the record a lookup takes. -/
def Target.resolve (data : ℕ → Sector) (t : Target) : Resolve where
  dirCluster := t.dirCluster
  name := t.name
  de := recOf data t.pos

/-- The loop of `fat_resolve_path` on a volume. -/
def targetFrom (m : Mount) (data : ℕ → Sector) (fat : ℕ → ℕ) (trailing : Bool) :
    ℕ → List Str → Option Target
  | _, [] => none
  | cur, comp :: rest =>
    if 56 ≤ comp.length then none
    else
      match findRecord m data fat cur comp with
      | none => none
      | some p =>
        if rest = [] ∧ !trailing then some { dirCluster := cur, name := comp, pos := p }
        else if !(recOf data p).isDir then none
        else if rest = [] then
          some { dirCluster := (recOf data p).clus, name := comp, pos := p }
        else targetFrom m data fat trailing (recOf data p).clus rest

/-- What a path names. -/
def pathTarget (m : Mount) (data : ℕ → Sector) (fat : ℕ → ℕ) (path : Str) : Option Target :=
  targetFrom m data fat (trailingSlash path) m.rootCluster (pathComponents path)

/-- What `dirent_locate` finds in a directory. -/
def locateRecord (m : Mount) (data : ℕ → Sector) (fat : ℕ → ℕ) (d : ℕ) (sn : Fin 11 → UInt8) :
    Option DirentLoc :=
  match foldExit (fun run p => locateStep sn run p (recOf data p)) [] (slots m (chainOf m fat d)) with
  | .inl _ => none
  | .inr loc => loc

end Lnxrm.Fat32
