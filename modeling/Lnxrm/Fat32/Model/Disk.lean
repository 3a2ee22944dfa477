import Mathlib.Algebra.Group.Nat.Defs
import Mathlib.Data.Fintype.Basic

/-!
# FAT32 — on-disk structures and the mount

The structures of `include/fat32_priv.h`. A sector is its 512 bytes by
offset; a directory record is its 32 bytes, with the fields of
`struct fat_dirent` at their places. `Mount` is what `fat_mount` leaves
behind, as far as the other functions read it.
-/

namespace Lnxrm.Fat32

/-- `bytes_per_sector`: `fat_mount` takes only volumes with the sector
size of the device, and the drivers' devices have 512-byte sectors. -/
def sectorSize : ℕ := 512

/-- `DIRENT_SIZE` -/
def direntSize : ℕ := 32

/-- The bytes of a sector, by offset. -/
abbrev Sector := ℕ → UInt8

/-- `struct fat_dirent`, as its bytes -/
abbrev Dirent := Fin 32 → UInt8

/-- A record has a first byte. -/
instance neZero_dirent : @NeZero ℕ Zero.ofOfNat0 32 := ⟨by decide⟩

/-- The mounted volume: `struct fat_mount` without the device and the
cached FAT, which are part of the state. The FAT has one entry for each
cluster below `max_cluster`, lies below the data area and was read into
one `kmalloc` block, which has at most 4 MiB. -/
structure Mount where
  sectorsPerCluster : ℕ
  reservedSectors : ℕ
  rootCluster : ℕ
  dataStartLba : ℕ
  maxCluster : ℕ
  /-- what a buffer on the stack holds before it is written -/
  junk : Sector
  /-- how many turns of a loop over a chain are followed beyond the clusters
  there are; a call ends if it returns with some number of them -/
  turns : ℕ := 0
  spc_pos : 0 < sectorsPerCluster
  spc_lt : sectorsPerCluster < 256
  root_ge : 2 ≤ rootCluster
  root_lt : rootCluster < 2 ^ 32
  max_le : maxCluster ≤ 2 ^ 20
  fat_below : ∀ c < maxCluster, reservedSectors + c * 4 / sectorSize < dataStartLba

/-- `cluster_size` -/
def Mount.clusterSize (m : Mount) : ℕ := sectorSize * m.sectorsPerCluster

/-- `cluster_is_eoc` -/
def clusterIsEoc (c : ℕ) : Bool := decide (0x0FFFFFF8 ≤ c)

/-- `cluster_lba`: `clus - 2` is a `u32`. -/
def clusterLba (m : Mount) (clus : ℕ) : ℕ :=
  m.dataStartLba + (clus + (2 ^ 32 - 2)) % 2 ^ 32 * m.sectorsPerCluster

/-! ## Directory records -/

/-- `ENT_FREE` -/
def entFree : UInt8 := 0x00
/-- `ENT_E5` -/
def entE5 : UInt8 := 0xE5
/-- `ENT_END` -/
def entEnd : UInt8 := 0x05
/-- `ATTR_VOLUME` -/
def attrVolume : UInt8 := 0x08
/-- `ATTR_DIR` -/
def attrDir : UInt8 := 0x10
/-- `ATTR_ARCHIVE` -/
def attrArchive : UInt8 := 0x20
/-- `ATTR_LFN` -/
def attrLfn : UInt8 := 0x0F

/-- The record at an offset of a sector. -/
def recAt (s : Sector) (off : ℕ) : Dirent := fun i => s (off + i)

/-- `memcpy(s + off, e, DIRENT_SIZE)` -/
def putRec (s : Sector) (off : ℕ) (e : Dirent) : Sector := fun j =>
  if h : off ≤ j ∧ j < off + 32 then e ⟨j - off, by omega⟩ else s j

namespace Dirent

/-- `name` -/
def name (e : Dirent) : Fin 11 → UInt8 := fun i => e (i.castLE (by decide))

/-- `attr` -/
def attr (e : Dirent) : UInt8 := e 11

/-- `((u32)fstclushi << 16) | fstcluslo` -/
def clus (e : Dirent) : ℕ :=
  (e 26).toNat + 256 * ((e 27).toNat + 256 * ((e 20).toNat + 256 * (e 21).toNat))

/-- `filesize` -/
def filesize (e : Dirent) : ℕ :=
  (e 28).toNat + 256 * ((e 29).toNat + 256 * ((e 30).toNat + 256 * (e 31).toNat))

/-- `e->name = sn` -/
def setName (e : Dirent) (sn : Fin 11 → UInt8) : Dirent := fun i =>
  if h : i.val < 11 then sn ⟨i.val, h⟩ else e i

/-- `e->attr = a` -/
def setAttr (e : Dirent) (a : UInt8) : Dirent := fun i => if i = 11 then a else e i

/-- `e->fstcluslo = c & 0xFFFF; e->fstclushi = c >> 16` -/
def setClus (e : Dirent) (c : ℕ) : Dirent := fun i =>
  if i = 26 then UInt8.ofNat c
  else if i = 27 then UInt8.ofNat (c / 256)
  else if i = 20 then UInt8.ofNat (c / 256 ^ 2)
  else if i = 21 then UInt8.ofNat (c / 256 ^ 3)
  else e i

/-- `e->filesize = n`, a `u32` -/
def setSize (e : Dirent) (n : ℕ) : Dirent := fun i =>
  if i = 28 then UInt8.ofNat n
  else if i = 29 then UInt8.ofNat (n / 256)
  else if i = 30 then UInt8.ofNat (n / 256 ^ 2)
  else if i = 31 then UInt8.ofNat (n / 256 ^ 3)
  else e i

/-- `e->attr & ATTR_DIR` -/
def isDir (e : Dirent) : Bool := e.attr &&& attrDir != 0

/-- `(e->attr & ATTR_LFN) == ATTR_LFN` -/
def isLfn (e : Dirent) : Bool := e.attr &&& attrLfn == attrLfn

/-- `e->attr & ATTR_VOLUME` -/
def isVolume (e : Dirent) : Bool := e.attr &&& attrVolume != 0

end Dirent

/-- `entry_used` -/
def entryUsed (e : Dirent) : Bool := e 0 != entFree && e 0 != entE5

/-- `struct resolve`, once `found`: the parent's cluster, the last path
component and the record as it was read. -/
structure Resolve where
  dirCluster : ℕ
  name : List UInt8
  de : Dirent

/-- Where a record lies: its sector and its offset there, `struct dirent_pos` -/
structure DirentPos where
  lba : ℕ
  off : ℕ
deriving DecidableEq

end Lnxrm.Fat32
