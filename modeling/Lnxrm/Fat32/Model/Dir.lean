import Lnxrm.Abi
import Lnxrm.Fat32.Model.Driver

/-!
# FAT32 — directory scans and path resolution

`fat32_dir.c`, `fat_lookup_impl` of `fat32_file.c` and
`fat_freespace_impl` of `fat32.c`.
-/

namespace Lnxrm.Fat32

/-- What `fat_scan_dir` does with one record: go on, stop at the end mark
(`false`), or stop because the callback said so (`true`). -/
def scanStep {κ : Type} (cb : κ → Str → Dirent → κ × Bool) (st : LfnState × κ) (e : Dirent) :
    (LfnState × κ) ⊕ (Bool × κ) :=
  let (lf, ctx) := st
  if e 0 = entEnd then .inr (false, ctx)
  else if !entryUsed e then .inl (lfnReset lf, ctx)
  else if e.isLfn then .inl (lfnAdd lf e, ctx)
  else if e.isVolume then .inl (lf, ctx)
  else
    let (ctx, stop) := cb ctx (lfnName lf e) e
    if stop then .inr (true, ctx) else .inl (lfnReset lf, ctx)

/-- The state of the long name before the first record. -/
def lfnInit (m : Mount) : LfnState :=
  lfnReset { longname := m.junk, seqMax := 0, nameEnd := 0 }

/-- `fat_scan_dir`: whether the callback stopped it, and the context the
callback leaves. -/
def fatScanDir {κ : Type} (m : Mount) (dirclus : ℕ) (cb : κ → Str → Dirent → κ × Bool) (ctx : κ) :
    Fat (Bool × κ) := do
  match ← scanDevice m dirclus (fun st _ e => scanStep cb st e) (lfnInit m, ctx) with
  | .inl st => pure (false, st.2)
  | .inr r => pure r

/-- `fat_scan_find_cb` -/
def fatScanFindCb (want : Str) (found : Option Dirent) (name : Str) (e : Dirent) :
    Option Dirent × Bool :=
  if strcaseEq name want || fatNameEqShort want e then (some e, true) else (found, false)

/-- `fat_scan_dir` with `fat_scan_find_cb`: the record found. -/
def fatScanFind (m : Mount) (dirclus : ℕ) (want : Str) : Fat (Option Dirent) := do
  let (hit, found) ← fatScanDir m dirclus (fatScanFindCb want) none
  pure (if hit then found else none)

/-- The loop of `fat_resolve_path`, with the path cut into components. -/
def resolveFrom (m : Mount) (trailing : Bool) : ℕ → List Str → Fat (Option Resolve)
  | _, [] => pure none
  | cur, comp :: rest =>
    if 56 ≤ comp.length then pure none
    else do
      match ← fatScanFind m cur comp with
      | none => pure none
      | some e =>
        if rest = [] ∧ !trailing then pure (some { dirCluster := cur, name := comp, de := e })
        else if !e.isDir then pure none
        else if rest = [] then
          -- trailing slash: the directory itself stands for its parent
          pure (some { dirCluster := e.clus, name := comp, de := e })
        else resolveFrom m trailing e.clus rest

/-- `fat_resolve_path`; `none` both where it returns `false` and for the
root, where it returns `true` with `found` unset: every caller treats the
two alike. -/
def fatResolvePath (m : Mount) (path : Str) : Fat (Option Resolve) :=
  resolveFrom m (trailingSlash path) m.rootCluster (pathComponents path)

/-- The handle `fat_lookup_impl` makes for the root. -/
def rootResolve (m : Mount) : Resolve where
  dirCluster := m.rootCluster
  name := []
  de := Dirent.setClus (Dirent.setAttr (fun _ => 0) attrDir) m.rootCluster

/-- The parts of `struct vnode` a lookup fills in. -/
structure Vnode where
  isDir : Bool
  size : ℕ
  fsData : Resolve

/-- `fat_lookup_impl` -/
def fatLookupImpl (m : Mount) (path : Str) : Fat (Int × Option Vnode) :=
  if pathComponents path = [] then
    pure (0, some { isDir := true, size := 0, fsData := rootResolve m })
  else do
    match ← fatResolvePath m path with
    | none => pure (Errno.efail, none)
    | some r =>
      if r.de.isDir then pure (0, some { isDir := true, size := 0, fsData := r })
      else pure (0, some { isDir := false, size := r.de.filesize, fsData := r })

/-! ## Listing -/

/-- `scan_iter_cb`: the records seen so far, and the one asked for with its
type. -/
def scanIterCb (target : ℕ) (c : ℕ × Option (Str × ℕ)) (name : Str) (e : Dirent) :
    (ℕ × Option (Str × ℕ)) × Bool :=
  if name.head? = some 46 then (c, false)
  else if c.1 = target then ((c.1 + 1, some (name.take 55, if e.isDir then 4 else 8)), true)
  else ((c.1 + 1, c.2), false)

/-- `fat32_getdent_impl`: the result, the cookie and the entry. The low bit
of the cookie says that the directory is exhausted. -/
def fat32GetdentImpl (m : Mount) (r : Resolve) (cookie : ℕ) : Fat (Int × ℕ × Option (Str × ℕ)) :=
  if cookie % 2 = 1 then pure (Errno.efail, cookie, none)
  else do
    let (_, c) ← fatScanDir m r.de.clus (scanIterCb (cookie / 256)) (0, none)
    match c.2 with
    | none => pure (Errno.efail, cookie + 1, none)
    | some d => pure (0, (cookie / 256 + 1) * 256 % 2 ^ 64, some d)

/-- `fat_freespace_impl` -/
def fatFreespaceImpl (m : Mount) : Fat ℕ := do
  let free ← Prog.forEach (γ := Empty) (fun free i => do
    let e ← fatLoad i
    pure (.inl (if e % 2 ^ 28 = 0 then free + 1 else free))) 0 (List.range' 2 (m.maxCluster - 2))
  match free with
  | .inl free => pure (free * m.clusterSize)

end Lnxrm.Fat32
