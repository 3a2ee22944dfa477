import Lnxrm.Block.Model
import Lnxrm.Fat32.Model.Rename

/-!
# FAT32 — the driver on its storage

The driver's programs run on the block layer and the cached FAT. Each
entry point of `fat32.c` holds `fat_fs_lock` from its first to its last
step, so a call is one run of its program.
-/

namespace Lnxrm.Fat32

variable {δ : Type} [DecidableEq δ]

/-- The file system's state: the storage, and the FAT cached in memory. -/
structure Fs (δ : Type) where
  storage : Block.Storage δ Sector
  fat : ℕ → ℕ

/-- The bytes of one sector of the FAT: 32-bit entries, low byte first. -/
def fatSector (fat : ℕ → ℕ) (k : ℕ) : Sector := fun j =>
  UInt8.ofNat (fat (k * (sectorSize / 4) + j / 4) / 256 ^ (j % 4))

/-- A buffer of `count` sectors. -/
def bufferOf (count : ℕ) (sectors : ℕ → Sector) : ℕ → Sector := fun i =>
  if i < count then sectors i else fun _ => 0

/-- The operations the driver calls, on the mounted device. -/
def fatImpl (m : Mount) (dev : δ) : (o : FatOp) → Fs δ → o.Resp × Fs δ
  | .readSector lba buf, s =>
    let (ret, out, st) := Block.fatReadSector s.storage dev lba buf
    ((ret, out.getD buf), { s with storage := st })
  | .writeSector lba buf, s =>
    let (ret, st) := Block.fatWriteSector s.storage dev lba buf
    (ret, { s with storage := st })
  | .devRead lba count, s =>
    let (ret, buf, d) := s.storage.blk.disks.read dev lba
    ((ret, bufferOf count buf), { s with storage := { s.storage with blk := { s.storage.blk with disks := d } } })
  | .fatLoad clus, s => (s.fat clus, s)
  | .fatStore clus val, s =>
    let fat := Function.update s.fat clus val
    let k := clus * 4 / sectorSize
    -- the result of the write is ignored
    let (_, d) := s.storage.blk.disks.write dev (m.reservedSectors + k) (fatSector fat k)
    ((), { fat := fat
           storage := { s.storage with blk := { s.storage.blk with disks := d } } })
  | .journalBegin, s =>
    let (ret, st) := Block.fat32JournalBegin s.storage
    (ret, { s with storage := st })
  | .journalAdd lba data, s =>
    let (ret, st) := Block.fat32JournalAdd s.storage lba data
    (ret, { s with storage := st })
  | .journalCommit, s =>
    let (ret, st) := Block.fat32JournalCommit s.storage
    (ret, { s with storage := st })
  | .journalAbort, s =>
    let (ret, st) := Block.fat32JournalAbort s.storage
    (ret, { s with storage := st })

/-- The calls that change the namespace. -/
inductive NsOp where
  | create (path : Str)
  | mkdir (path : Str)
  | unlink (path : Str)
  | rmdir (path : Str)
  | rename (oldpath newpath : Str)

/-- The function `fat32.c` calls for it. -/
def NsOp.prog (m : Mount) : NsOp → Fat Int
  | .create path => fatCreateImpl m path
  | .mkdir path => fatMkdirImpl m path
  | .unlink path => fatUnlinkImpl m path
  | .rmdir path => fatRmdirImpl m path
  | .rename oldpath newpath => fatRenameImpl m oldpath newpath

/-- The calls of `fat32_ops`. A handle is a `struct resolve`, whatever it
holds. -/
inductive FsOp where
  | ns (op : NsOp)
  | lookup (path : Str)
  | getdent (r : Resolve) (cookie : ℕ)
  | read (r : Resolve) (off : ℕ) (ubuf : Option (ℕ → UInt8)) (n : ℕ)
  | write (r : Resolve) (off : ℕ) (buf : Option (ℕ → UInt8)) (n : ℕ)
  | freespace

/-- The function `fat32.c` calls for it, with its result dropped. -/
def FsOp.prog (m : Mount) : FsOp → Fat Unit
  | .ns op => do let _ ← op.prog m
  | .lookup path => do let _ ← fatLookupImpl m path
  | .getdent r cookie => do let _ ← fat32GetdentImpl m r cookie
  | .read r off ubuf n => do let _ ← fatReadImpl m r off ubuf n
  | .write r off buf n => do let _ ← fatWriteImpl m r off buf n
  | .freespace => do let _ ← fatFreespaceImpl m

/-- A call into the driver; `none` if it never returns. -/
def Fs.call {β : Type} (m : Mount) (dev : δ) (p : Fat β) (s : Fs δ) : Option (β × Fs δ) :=
  p.exec (fatImpl m dev) s

/-- The state after a call. -/
def Fs.step (m : Mount) (dev : δ) (s : Fs δ) (op : FsOp) : Option (Fs δ) :=
  (Fs.call m dev (op.prog m) s).map Prod.snd

end Lnxrm.Fat32
