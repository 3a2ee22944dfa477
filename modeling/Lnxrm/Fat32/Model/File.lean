import Lnxrm.Fat32.Model.Dir

/-!
# FAT32 — reading and writing files

`fat_read_impl`, `alloc_chain` and `fat_write_impl` of `fat32_file.c`.
Offsets and lengths are `u64`, cluster numbers and counts `u32`; sums are
taken modulo their type where they can overflow.
-/

namespace Lnxrm.Fat32

open Prog (forEach)

/-- The most one call reads or writes, `1024 * 1024`. -/
def maxIo : ℕ := 1024 * 1024

/-- The loop that skips whole clusters up to the offset: what is left of
it, and the cluster it falls in. -/
def skipClusters (m : Mount) : ℕ → ℕ → ℕ → Fat (ℕ × ℕ)
  | 0, _, _ => .hang
  | fuel + 1, skip, clus =>
    if m.clusterSize ≤ skip ∧ !clusterIsEoc clus ∧ 2 ≤ clus then do
      let next ← fatNextCluster m clus
      skipClusters m fuel (skip - m.clusterSize) next
    else pure (skip, clus)

/-- One turn of the loops over the sectors of a transfer: where it stands
in the caller's buffer and in the chain. -/
structure Cursor where
  done : ℕ
  inClus : ℕ
  clus : ℕ

/-- How much the next turn moves: up to the end of the sector. -/
def Cursor.chunk (cu : Cursor) (n : ℕ) : ℕ :=
  min (n - cu.done) (sectorSize - cu.inClus % sectorSize)

/-- `cluster_lba(m, clus) + in_clus / m->bytes_per_sector` -/
def Cursor.lba (m : Mount) (cu : Cursor) : ℕ := clusterLba m cu.clus + cu.inClus / sectorSize

/-- The end of a turn: past the chunk, and on to the next cluster when
this one is used up. -/
def Cursor.advance (m : Mount) (n : ℕ) (cu : Cursor) : Fat Cursor :=
  let inClus := cu.inClus + cu.chunk n
  if m.clusterSize ≤ inClus then do
    let next ← fatNextCluster m cu.clus
    pure { done := cu.done + cu.chunk n, inClus := 0, clus := next }
  else pure { done := cu.done + cu.chunk n, inClus := inClus, clus := cu.clus }

/-- The loops over the sectors of a transfer of `n` bytes; a `body` that
answers `none` leaves the loop before the turn is counted. Each turn
moves a byte at least, so `n` turns are enough. -/
def transfer {β : Type} (m : Mount) (n : ℕ) (body : β → Cursor → Fat (Option β)) :
    ℕ → β → Cursor → Fat (β × ℕ)
  | 0, b, cu => pure (b, cu.done)
  | turns + 1, b, cu =>
    if cu.done < n ∧ !clusterIsEoc cu.clus ∧ 2 ≤ cu.clus then do
      match ← body b cu with
      | none => pure (b, cu.done)
      | some b =>
        let cu ← cu.advance m n
        transfer m n body turns b cu
    else pure (b, cu.done)

/-- `memcpy(dst + at, src + from, len)` -/
def copyBytes (dst : ℕ → UInt8) (at' : ℕ) (src : ℕ → UInt8) (from' len : ℕ) : ℕ → UInt8 := fun i =>
  if at' ≤ i ∧ i < at' + len then src (from' + (i - at')) else dst i

/-- The body of the loop of `fat_read_impl`. -/
def readChunk (m : Mount) (n : ℕ) (ubuf : ℕ → UInt8) (cu : Cursor) : Fat (Option (ℕ → UInt8)) := do
  let (ret, tmp) ← devRead (cu.lba m) 1
  if ret ≠ 0 then pure none
  else pure (some (copyBytes ubuf cu.done (tmp 0) (cu.inClus % sectorSize) (cu.chunk n)))

/-- `fat_read_impl`: the result and the caller's buffer afterwards.
`ubuf` is `none` for `NULL`. -/
def fatReadImpl (m : Mount) (r : Resolve) (off : ℕ) (ubuf : Option (ℕ → UInt8)) (n : ℕ) :
    Fat (Int × Option (ℕ → UInt8)) :=
  if r.de.isDir then pure (Errno.efail, ubuf)
  else if ubuf = none ∧ 0 < n then pure (Errno.efail, ubuf)
  else
    let size := r.de.filesize
    if size ≤ off then pure (0, ubuf)
    else
      match ubuf with
      | none => pure (0, none)
      | some buf => do
        let n := if size < (off + n) % 2 ^ 64 then size - off else n
        let n := if maxIo < n then maxIo else n
        let (skip, clus) ← skipClusters m m.fuel off r.de.clus
        let cu := { done := 0, inClus := skip % m.clusterSize, clus := clus }
        let (buf, done) ← transfer m n (readChunk m n) n buf cu
        pure (done, some buf)

/-! ## Allocation -/

/-- The walk of `alloc_chain` to the end of a chain: its last cluster and
how many there are. -/
def chainTail (m : Mount) : ℕ → ℕ → ℕ → ℕ → Fat (ℕ × ℕ)
  | 0, _, _, _ => .hang
  | fuel + 1, prev, cnt, c =>
    if !clusterIsEoc c ∧ 2 ≤ c then do
      let next ← fatNextCluster m c
      chainTail m fuel c (cnt + 1) next
    else pure (prev, cnt)

/-- The loop of `alloc_chain` that appends the clusters still missing;
`0` when the disk is full. -/
def appendClusters (m : Mount) : ℕ → ℕ → ℕ → Fat ℕ
  | 0, _, head => pure head
  | missing + 1, prev, head => do
    let nc ← fatFindFreeCluster m
    if nc = 0 then pure 0
    else
      fatSetEntry m nc 0x0FFFFFFF
      if prev ≠ 0 then
        fatSetEntry m prev nc
        appendClusters m missing nc head
      else appendClusters m missing nc nc

/-- The clusters `alloc_chain` wants for a number of bytes, a `u32`. -/
def clustersFor (m : Mount) (needBytes : ℕ) : ℕ :=
  (needBytes + m.clusterSize - 1) % 2 ^ 64 / m.clusterSize % 2 ^ 32

/-- The first half of `alloc_chain`: the end of the chain there is, and
its length. -/
def chainEnd (m : Mount) (first : ℕ) : Fat (ℕ × ℕ) :=
  if first ≠ 0 ∧ clusterIsEoc first then pure (0, 0)
  else if first ≠ 0 then chainTail m m.fuel 0 0 first
  else pure (0, 0)

/-- `alloc_chain` -/
def allocChain (m : Mount) (first needBytes : ℕ) : Fat ℕ := do
  let (prev, cnt) ← chainEnd m first
  appendClusters m (clustersFor m needBytes - cnt) prev first

/-! ## Writing -/

/-- The two calls that update a sector, always made together: the image
goes to the journal, then to the cache. -/
def updateSector (lba : ℕ) (data : Sector) : Fat Unit := do
  let _ ← fat32JournalAdd lba data
  let _ ← fatWriteSector lba data
  pure ()

/-- The body of the loop of `fat_write_impl`; it hands on the sector
buffer, which a failed read leaves as it is. -/
def writeChunk (m : Mount) (n : ℕ) (buf : ℕ → UInt8) (tmp : Sector) (cu : Cursor) :
    Fat (Option Sector) := do
  let (_, tmp) ← fatReadSector (cu.lba m) tmp
  let tmp := copyBytes tmp (cu.inClus % sectorSize) buf cu.done (cu.chunk n)
  updateSector (cu.lba m) tmp
  pure (some tmp)

/-- What the loop of `fat_write_impl` over the parent directory looks
for: the first used record with the handle's short name, and `false` at
the end mark. -/
def matchRecord (name : Fin 11 → UInt8) (_ : Unit) (e : Dirent) : Unit ⊕ Bool :=
  if e 0 = entEnd then .inr false
  else if !entryUsed e then .inl ()
  else if e.name = name then .inr true
  else .inl ()

/-- What `fat_write_impl` makes of the record it finds. -/
def refreshRecord (de e : Dirent) : Dirent :=
  ((e.setSize de.filesize).setClus de.clus).setAttr (e.attr ||| attrArchive)

/-- The end of `fat_write_impl`: rewrite the record in the parent
directory, and commit. -/
def writeBack (m : Mount) (r : Resolve) : Fat Unit := do
  match ← scanCached m r.dirCluster (matchRecord r.de.name) () with
  | .inr (true, pos, dbuf) =>
    updateSector pos.lba (putRec dbuf pos.off (refreshRecord r.de (recAt dbuf pos.off)))
    let _ ← fat32JournalCommit
    pure ()
  | _ =>
    let _ ← fat32JournalCommit
    pure ()

/-- `fat_write_impl`: the result and the handle afterwards. `buf` is
`none` for `NULL`. -/
def fatWriteImpl (m : Mount) (r : Resolve) (off : ℕ) (buf : Option (ℕ → UInt8)) (n : ℕ) :
    Fat (Int × Resolve) :=
  if r.de.isDir then pure (Errno.efail, r)
  else
    match buf with
    | none =>
      if n = 0 then pure (0, { r with de := r.de.setSize 0 })
      else pure (Errno.efail, r)
    | some buf => do
      let n := if maxIo < n then maxIo else n
      let _ ← fat32JournalBegin
      let fin := (off + n) % 2 ^ 64
      let need := max fin r.de.filesize
      let clus ← allocChain m r.de.clus need
      if clus = 0 then
        let _ ← fat32JournalAbort
        pure (Errno.eio, r)
      else
        let (skip, c) ← skipClusters m m.fuel off clus
        let cu := { done := 0, inClus := skip % m.clusterSize, clus := c }
        let (_, done) ← transfer m n (writeChunk m n buf) n m.junk cu
        let size := if fin < need then r.de.filesize else fin
        let r := { r with de := (r.de.setClus clus).setSize size }
        writeBack m r
        pure (done, r)

end Lnxrm.Fat32
