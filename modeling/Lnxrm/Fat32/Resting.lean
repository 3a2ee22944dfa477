import Lnxrm.Fat32.Helpers.Directories
import Lnxrm.Fat32.Mounted

/-!
# FAT32 — the storage between two calls

`Resting` is more general than `Mounted`: after a failed mkdir the cache
may hold sectors that are not on the device, as long as they belong to no
directory. There the storage backs the volume the cache shows, and its
directories can be read.
-/

namespace Lnxrm.Fat32

variable {δ : Type} [DecidableEq δ] {m : Mount} {dev : δ} {s : Fs δ} {d : ℕ}

/-- The volume's contents: what the cache shows. -/
def Fs.contents (s : Fs δ) (dev : δ) : ℕ → Sector := s.storage.blk.view dev

/-- **The storage between two calls**: the cache is coherent and used for
the data area only, no device operation fails, no transaction is open,
and the sectors of the directories have reached the device. -/
structure Resting (m : Mount) (dev : δ) (s : Fs δ) : Prop where
  inv : Block.CacheInv s.storage.blk
  lines : Block.LinesIn (fun dev' lba => dev' = dev → m.dataStartLba ≤ lba) s.storage.blk
  reads : s.storage.blk.disks.ReadsOk
  writes : s.storage.blk.disks.WritesOk
  dev_eq : s.storage.journal.dev = dev
  idle : s.storage.journal.active = false
  flushed : ∀ {d}, Reached m (s.contents dev) s.fat d → ∀ lba ∈ sectors m (chainOf m s.fat d),
    s.storage.blk.disks.sector dev lba = s.contents dev lba

/-- The volume the storage stands for. -/
def Fs.volumeOf (s : Fs δ) (dev : δ) : Vol where
  data := s.contents dev
  fat := s.fat
  dirty := { lba | s.storage.blk.disks.sector dev lba ≠ s.contents dev lba }
  active := false
  log := []

theorem Resting.backs (h : Resting m dev s) : Backs m dev s (s.volumeOf dev) where
  inv := h.inv
  reads := h.reads
  writes := h.writes
  lines := h.lines
  dev_eq := h.dev_eq
  active := h.idle
  entries hact := by cases hact
  logged hact := by cases hact
  view _ _ := rfl
  synced _ _ hd := not_not.mp hd
  fat := rfl

theorem Mounted.resting (h : Mounted m dev s) : Resting m dev s where
  inv := h.inv
  lines := h.lines
  reads := h.reads
  writes := h.writes
  dev_eq := h.dev_eq
  idle := h.idle
  flushed _ lba _ := Block.sector_eq_view_of_clean h.inv h.clean lba

theorem Resting.readable (h : Resting m dev s) (ha : ChainsApart m (s.contents dev) s.fat) :
    Readable m (s.volumeOf dev) where
  idle := rfl
  legible hd := by
    obtain ⟨l, hl⟩ := ha.dir hd
    refine ⟨l, hl, fun lba hlba hdirty => hdirty ?_⟩
    exact h.flushed hd lba (by rw [hl.chainOf_eq]; exact hlba)
  files hd hp hf := (ha.file hd hp hf).1

/-! ## An empty volume -/

/-- The FAT of an empty volume: one cluster for the root directory. -/
def blankFat (c : ℕ) : ℕ := if c = 2 then 0x0FFFFFFF else 0

/-- A device of zeroes holds an empty root directory. -/
def blankFs : Fs Unit := freshFs (fun _ _ => 0) blankFat

theorem blankFs_contents : blankFs.contents () = fun _ _ => 0 := by
  funext lba
  exact (Block.sector_eq_view_of_clean (freshFs_mounted smallMount _ _).inv
    (freshFs_mounted smallMount _ _).clean lba).symm

theorem blank_reached (h : Reached smallMount (fun _ _ => 0) blankFat d) : d = 2 :=
  h.mem_of_leads (S := (· = 2)) rfl fun _ _ _ _ hsub => by simp [Dirent.isSubdir, entryUsed, recOf, recAt, entFree] at hsub

theorem blank_chainsApart : ChainsApart smallMount (fun _ _ => 0) blankFat where
  dir hd := ⟨[2], by rw [blank_reached hd]; decide⟩
  dirs hd hd' hne := absurd ((blank_reached hd).trans (blank_reached hd').symm) hne
  file _ _ hf := by simp [Dirent.isFile, entryUsed, recOf, recAt, entFree] at hf

end Lnxrm.Fat32
