import Lnxrm.Common.Chain
import Lnxrm.Fat32.Model.Disk

/-!
# FAT32 — chains and what they hold

What a volume's FAT and data area say: the chain of clusters that starts
at one, its sectors in order, the bytes of a file and the records of a
directory.
-/

namespace Lnxrm.Fat32

/-- The entry of a cluster as `fat_next_cluster` reads it. -/
def nextOf (m : Mount) (fat : ℕ → ℕ) (c : ℕ) : ℕ :=
  if m.maxCluster ≤ c then 0x0FFFFFFF else fat c % 2 ^ 28

/-- The cluster has no entry: `fat_find_free_cluster` may choose it. -/
def IsFree (m : Mount) (fat : ℕ → ℕ) (c : ℕ) : Prop :=
  2 ≤ c ∧ c < m.maxCluster ∧ fat c % 2 ^ 28 = 0

/-- The free clusters of the volume, the ones `fat_freespace_impl` counts. -/
def freeClusters (m : Mount) (fat : ℕ → ℕ) : List ℕ :=
  (List.range' 2 (m.maxCluster - 2)).filter fun c => fat c % 2 ^ 28 = 0

/-- **A cluster chain**: `l` are the clusters from `c` to the end mark,
each of them a cluster of the volume. A chain meets no cluster twice. -/
structure IsChain (m : Mount) (fat : ℕ → ℕ) (c : ℕ) (l : List ℕ) : Prop where
  walk : Walk (nextOf m fat) (fun c => clusterIsEoc c = true) c l
  range : ∀ x ∈ l, 2 ≤ x ∧ x < m.maxCluster

/-- The chain a record points at: none, for a first cluster of `0`, or a
chain with a cluster at least. -/
def HasChain (m : Mount) (fat : ℕ → ℕ) (first : ℕ) (l : List ℕ) : Prop :=
  (first = 0 ∧ l = []) ∨ (l ≠ [] ∧ IsChain m fat first l)

instance (m : Mount) (fat : ℕ → ℕ) (c : ℕ) (l : List ℕ) : Decidable (IsChain m fat c l) :=
  decidable_of_iff (Walk (nextOf m fat) (fun c => clusterIsEoc c = true) c l ∧
    ∀ x ∈ l, 2 ≤ x ∧ x < m.maxCluster) ⟨fun h => ⟨h.1, h.2⟩, fun h => ⟨h.1, h.2⟩⟩

instance (m : Mount) (fat : ℕ → ℕ) (first : ℕ) (l : List ℕ) : Decidable (HasChain m fat first l) :=
  inferInstanceAs (Decidable ((first = 0 ∧ l = []) ∨ (l ≠ [] ∧ IsChain m fat first l)))

/-- The sectors of a cluster. -/
def clusterSectors (m : Mount) (c : ℕ) : List ℕ :=
  (List.range m.sectorsPerCluster).map fun s => clusterLba m c + s

/-- The sectors of a chain, in order. -/
def sectors (m : Mount) (l : List ℕ) : List ℕ := l.flatMap (clusterSectors m)

/-- The bytes a chain has room for. -/
def capacity (m : Mount) (l : List ℕ) : ℕ := l.length * m.clusterSize

/-- Byte `i` of the file with this chain. -/
def byteAt (m : Mount) (data : ℕ → Sector) (l : List ℕ) (i : ℕ) : UInt8 :=
  data ((sectors m l).getD (i / sectorSize) 0) (i % sectorSize)

/-- The places for records in a sector. -/
def sectorSlots (lba : ℕ) : List DirentPos :=
  (List.range (sectorSize / direntSize)).map fun k => ⟨lba, k * direntSize⟩

/-- The places for records in a directory, in order. -/
def slots (m : Mount) (l : List ℕ) : List DirentPos := (sectors m l).flatMap sectorSlots

/-- The record at a place. -/
def recOf (data : ℕ → Sector) (p : DirentPos) : Dirent := recAt (data p.lba) p.off

end Lnxrm.Fat32
