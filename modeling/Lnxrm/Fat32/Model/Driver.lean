import Lnxrm.Common.Loop
import Lnxrm.Fat32.Model.Name

/-!
# FAT32 — the driver's interface, the FAT and the directory loops

The driver reaches its storage in four ways: through the block cache
(`fat_read_sector`, `fat_write_sector`), past it (`m->dev->read`), through
the cached FAT, whose stores also go to the device, and through the
journal. `FatOp` lists these; the driver's functions are programs over
them. `kmalloc` is taken to succeed.

A `for` loop over a cluster chain ends when it meets an end mark or a
number below 2. A walk of more than `max_cluster` clusters runs in a
circle; it is taken not to return (`hang`).
-/

namespace Lnxrm.Fat32

/-- What the driver asks of the layers below. -/
inductive FatOp where
  /-- `fat_read_sector`; a read that fails leaves `buf` as it was -/
  | readSector (lba : ℕ) (buf : Sector)
  /-- `fat_write_sector` -/
  | writeSector (lba : ℕ) (buf : Sector)
  /-- `m->dev->read(m->dev, lba, count, buf)` -/
  | devRead (lba count : ℕ)
  /-- `*(u32 *)&m->fat[clus * 4]` -/
  | fatLoad (clus : ℕ)
  /-- the store to the same place, and the write of its sector to the device -/
  | fatStore (clus val : ℕ)
  /-- `fat32_journal_begin` -/
  | journalBegin
  /-- `fat32_journal_add` -/
  | journalAdd (lba : ℕ) (data : Sector)
  /-- `fat32_journal_commit` -/
  | journalCommit
  /-- `fat32_journal_abort` -/
  | journalAbort

/-- What each of them answers. -/
def FatOp.Resp : FatOp → Type
  | .readSector _ _ => Int × Sector
  | .devRead _ _ => Int × (ℕ → Sector)
  | .fatLoad _ => ℕ
  | .fatStore _ _ => Unit
  | _ => Int

/-- Programs of the driver. -/
abbrev Fat := Prog FatOp FatOp.Resp

open Prog (forEach perform)

/-- `fat_read_sector` -/
def fatReadSector (lba : ℕ) (buf : Sector) : Fat (Int × Sector) := perform (FatOp.readSector lba buf)

/-- `fat_write_sector` -/
def fatWriteSector (lba : ℕ) (buf : Sector) : Fat Int := perform (FatOp.writeSector lba buf)

/-- `m->dev->read` -/
def devRead (lba count : ℕ) : Fat (Int × (ℕ → Sector)) := perform (FatOp.devRead lba count)

/-- A load from the cached FAT. -/
def fatLoad (clus : ℕ) : Fat ℕ := perform (FatOp.fatLoad clus)

/-- A store to the cached FAT, with the write of its sector. -/
def fatStore (clus val : ℕ) : Fat Unit := perform (FatOp.fatStore clus val)

/-- `fat32_journal_begin` -/
def fat32JournalBegin : Fat Int := perform FatOp.journalBegin

/-- `fat32_journal_add` -/
def fat32JournalAdd (lba : ℕ) (data : Sector) : Fat Int := perform (FatOp.journalAdd lba data)

/-- `fat32_journal_commit` -/
def fat32JournalCommit : Fat Int := perform FatOp.journalCommit

/-- `fat32_journal_abort` -/
def fat32JournalAbort : Fat Int := perform FatOp.journalAbort

/-- `fat_next_cluster` -/
def fatNextCluster (m : Mount) (clus : ℕ) : Fat ℕ :=
  if m.maxCluster ≤ clus then pure 0x0FFFFFFF
  else do
    let e ← fatLoad clus
    pure (e % 2 ^ 28)

/-- `fat_set_entry` -/
def fatSetEntry (m : Mount) (clus val : ℕ) : Fat Unit :=
  if m.maxCluster ≤ clus then pure ()
  else do
    let old ← fatLoad clus
    fatStore clus (old / 2 ^ 28 * 2 ^ 28 + val % 2 ^ 28)

/-- `fat_find_free_cluster` -/
def fatFindFreeCluster (m : Mount) : Fat ℕ := do
  let r ← forEach (fun _ i => do
    let e ← fatLoad i
    pure (if e % 2 ^ 28 = 0 then .inr i else .inl ())) () (List.range' 2 (m.maxCluster - 2))
  match r with
  | .inl () => pure 0
  | .inr i => pure i

/-- The loop over a cluster chain, `body` for each cluster. -/
def forChain {β γ : Type} (m : Mount) (body : β → ℕ → Fat (β ⊕ γ)) : ℕ → β → ℕ → Fat (β ⊕ γ)
  | 0, _, _ => .hang
  | fuel + 1, b, c =>
    if clusterIsEoc c ∨ c < 2 then pure (.inl b)
    else do
      match ← body b c with
      | .inr r => pure (.inr r)
      | .inl b =>
        let c ← fatNextCluster m c
        forChain m body fuel b c

/-- The turns a loop over a chain may take: no chain without a circle is
longer than `maxCluster`, and a loop around a circle is followed as far as
`turns` says. -/
def Mount.fuel (m : Mount) : ℕ := m.turns + m.maxCluster + 1

/-- The directory loops that read each cluster from the device into a
buffer and look at its records one by one. -/
def scanDevice {β γ : Type} (m : Mount) (dirclus : ℕ) (f : β → DirentPos → Dirent → β ⊕ γ) (b : β) :
    Fat (β ⊕ γ) :=
  forChain m (fun b c => do
    let clba := clusterLba m c
    -- the result is ignored: the loop goes over whatever the buffer holds
    let (_, buf) ← devRead clba m.sectorsPerCluster
    pure (foldExit (fun b k =>
        let off := k * direntSize
        f b ⟨clba + off / sectorSize, off % sectorSize⟩
          (recAt (buf (off / sectorSize)) (off % sectorSize)))
      b (List.range (m.clusterSize / direntSize)))) m.fuel b dirclus

/-- The directory loops that read each sector through the cache. On an
early exit the record's place and the buffer are handed on. -/
def scanCached {β γ : Type} (m : Mount) (dirclus : ℕ) (f : β → Dirent → β ⊕ γ) (b : β) :
    Fat ((β × Sector) ⊕ (γ × DirentPos × Sector)) :=
  forChain m (fun b c =>
    forEach (fun (b : β × Sector) s => do
      let lba := clusterLba m c + s
      let (_, buf) ← fatReadSector lba b.2
      pure (match foldExit (fun b k =>
          match f b (recAt buf (k * direntSize)) with
          | .inl b => .inl b
          | .inr r => .inr (r, ⟨lba, k * direntSize⟩, buf))
        b.1 (List.range (sectorSize / direntSize)) with
      | .inl b => .inl (b, buf)
      | .inr r => .inr r)) b (List.range m.sectorsPerCluster)) m.fuel (b, m.junk) dirclus

end Lnxrm.Fat32
