import Lnxrm.Fat32.Helpers.Simulation

/-!
# FAT32 — the storage at rest

`Mounted` is the storage between two calls when nothing is left to write:
the cache is coherent with the device and clean, no transaction is open,
and no device operation fails. The cache is used through
`fat_read_sector` and `fat_write_sector` only, for sectors of the data
area.
-/

namespace Lnxrm.Fat32

variable {δ : Type} [DecidableEq δ] {m : Mount} {dev : δ} {s : Fs δ}

/-- **The storage at rest.** -/
structure Mounted (m : Mount) (dev : δ) (s : Fs δ) : Prop where
  inv : Block.CacheInv s.storage.blk
  clean : ∀ i lba, (s.storage.blk.cache i).hits dev lba = true →
    (s.storage.blk.cache i).dirty = false
  lines : Block.LinesIn (fun dev' lba => dev' = dev → m.dataStartLba ≤ lba) s.storage.blk
  reads : s.storage.blk.disks.ReadsOk
  writes : s.storage.blk.disks.WritesOk
  dev_eq : s.storage.journal.dev = dev
  idle : s.storage.journal.active = false

theorem Mounted.backs (h : Mounted m dev s) :
    Backs m dev s (.settled (s.storage.blk.disks.sector dev) s.fat) where
  inv := h.inv
  reads := h.reads
  writes := h.writes
  lines := h.lines
  dev_eq := h.dev_eq
  active := h.idle
  entries hact := by cases hact
  logged hact := by cases hact
  view lba _ := (Block.sector_eq_view_of_clean h.inv h.clean lba).symm
  synced _ _ _ := rfl
  fat := rfl

/-- A device behind an empty cache, at rest. -/
def freshFs (sector : ℕ → Sector) (fat : ℕ → ℕ) : Fs Unit where
  storage :=
    { blk :=
        { cache := fun _ =>
            { lba := 0, data := fun _ => 0, valid := false, dirty := false, used := false, dev := none }
          disks :=
            { sector := fun _ => sector, readFault := fun _ => none, writeFault := fun _ => none } }
      journal := { entries := [], active := false, dev := () } }
  fat := fat

theorem freshFs_mounted (m : Mount) (sector : ℕ → Sector) (fat : ℕ → ℕ) :
    Mounted m () (freshFs sector fat) where
  inv := ⟨fun h => by simp [freshFs, Block.CacheEntry.hits] at h,
    fun h => by simp [freshFs, Block.CacheEntry.hits] at h, fun i h => by simp [freshFs] at h⟩
  clean i lba h := by simp [freshFs, Block.CacheEntry.hits] at h
  lines i dev lba h := by simp [freshFs, Block.CacheEntry.hits] at h
  reads := rfl
  writes := rfl
  dev_eq := rfl
  idle := rfl

/-- A volume of six clusters of one sector, with its root directory in
cluster 2. -/
def smallMount : Mount where
  sectorsPerCluster := 1
  reservedSectors := 1
  rootCluster := 2
  dataStartLba := 2
  maxCluster := 6
  junk := fun _ => 0
  spc_pos := by decide
  spc_lt := by decide
  root_ge := by decide
  root_lt := by decide
  max_le := by decide
  fat_below := by decide

end Lnxrm.Fat32
