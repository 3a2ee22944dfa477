import Lnxrm.Fat32.Model.Disk

/-!
# FAT32 — mounting

The model of `fat_mount` of `kernel/fs/fat32/fat32.c`. The fields of the
boot sector have 8, 16 and 32 bits; the code computes with them in `u32`
or `u64`, and the model reduces where the code's type does. What
`fat_mount` prints and its initialisation of the journal are left out.
-/

namespace Lnxrm.Fat32

/-- `*(u16 *)&b[off]` -/
def u16At (b : Sector) (off : ℕ) : ℕ := (b off).toNat + 256 * (b (off + 1)).toNat

/-- `*(u32 *)&b[off]` -/
def u32At (b : Sector) (off : ℕ) : ℕ := u16At b off + 65536 * u16At b (off + 2)

/-- `struct blkdev`: `read lba count` gives the bytes read, if the driver
succeeds. -/
structure BlkDev where
  sectorSize : ℕ
  numSectors : ℕ
  read : ℕ → ℕ → Option (ℕ → UInt8)

/-- `struct fat_mount` -/
structure FatMount where
  bytesPerSector : ℕ
  sectorsPerCluster : ℕ
  clusterSize : ℕ
  reservedSectors : ℕ
  numFats : ℕ
  fatsz : ℕ
  rootCluster : ℕ
  dataStartLba : ℕ
  maxCluster : ℕ
  fat : ℕ → UInt8
  fatBytes : ℕ

/-- `fat_mount`; `kmalloc` says for which sizes there is room for the
cached FAT. -/
def fatMount (dev : BlkDev) (kmalloc : ℕ → Bool) : Option FatMount :=
  match dev.read 0 1 with
  | none => none
  | some bpb =>
    let bytesPerSector := u16At bpb 11
    let sectorsPerCluster := (bpb 13).toNat
    let reservedSectors := u16At bpb 14
    let numFats := (bpb 16).toNat
    let fatsz16 := u16At bpb 22
    let fatsz32 := u32At bpb 36
    let fatsz := if fatsz16 ≠ 0 then fatsz16 else fatsz32
    let rootCluster := u32At bpb 44
    let totsec16 := u16At bpb 19
    let totsec32 := u32At bpb 32
    let totsec := if totsec16 ≠ 0 then totsec16 else totsec32
    if bytesPerSector ≠ dev.sectorSize ∨ 4096 < bytesPerSector ∨ sectorsPerCluster = 0 ∨ fatsz = 0 ∨
        reservedSectors = 0 ∨ (numFats ≠ 1 ∧ numFats ≠ 2) ∨ rootCluster < 2 ∨
        (fatsz16 ≠ 0 ∧ sectorsPerCluster ≠ 0) then none
    else
      let rootents := u16At bpb 17
      let totsec :=
        if totsec ≠ 0 ∧ dev.numSectors ≠ 0 ∧ dev.numSectors < totsec then dev.numSectors % 2 ^ 32
        else totsec
      -- `rootents * 32 + bytes_per_sector - 1` is a `u32`, the sum a `u64`
      let rootSectors := (rootents * 32 + bytesPerSector + (2 ^ 32 - 1)) % 2 ^ 32 / bytesPerSector
      let dataStart := (reservedSectors + numFats * fatsz + rootSectors) % 2 ^ 64
      if totsec ≤ dataStart then none
      else
        let maxCluster :=
          if dataStart < totsec then ((totsec - dataStart) / sectorsPerCluster + 2) % 2 ^ 32 else 2
        let fatEntries := fatsz * bytesPerSector % 2 ^ 32 / 4
        let maxCluster :=
          if fatEntries ≤ maxCluster then if fatEntries ≠ 0 then fatEntries - 1 else 2
          else maxCluster
        let fatBytes := fatsz * bytesPerSector % 2 ^ 64
        if kmalloc fatBytes = false then none
        else
          match dev.read reservedSectors fatsz with
          | none => none
          | some fat => some {
              bytesPerSector := bytesPerSector
              sectorsPerCluster := sectorsPerCluster
              clusterSize := bytesPerSector * sectorsPerCluster % 2 ^ 32
              reservedSectors := reservedSectors
              numFats := numFats
              fatsz := fatsz
              rootCluster := rootCluster
              dataStartLba := dataStart
              maxCluster := maxCluster
              fat := fat
              fatBytes := fatBytes }

/-- `clus * 4`, a `u32`: where `fat_next_cluster` and `fat_set_entry` find
the entry of a cluster in the cached FAT. -/
def fatOffset (clus : ℕ) : ℕ := clus * 4 % 2 ^ 32

/-- The sector `fat_set_entry` writes back. -/
def FatMount.writeBack (m : FatMount) (clus : ℕ) : ℕ :=
  m.reservedSectors + fatOffset clus / m.bytesPerSector

/-- `cluster_lba`: `clus - 2` is a `u32`, the rest a `u64`. -/
def FatMount.clusterLba (m : FatMount) (clus : ℕ) : ℕ :=
  (m.dataStartLba + (clus + (2 ^ 32 - 2)) % 2 ^ 32 * m.sectorsPerCluster) % 2 ^ 64

end Lnxrm.Fat32
