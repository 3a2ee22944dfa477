import Lnxrm.Common.Store
import Lnxrm.Fat32.Model.Machine

/-!
# FAT32 — the volume behind the cache

What the driver's storage is for: a volume whose sectors can be read and
written, with a table of clusters. `Vol` has neither cache nor device. It
keeps which sectors may not have reached the device yet (`dirty`), so a
read past the cache is refused there, and the images of the open
transaction, so a commit is refused if replaying them would undo a later
write.
-/

namespace Lnxrm.Fat32

/-- The volume: the data area's sectors, the FAT, and the transaction. -/
structure Vol where
  data : ℕ → Sector
  fat : ℕ → ℕ
  dirty : Set ℕ
  active : Bool
  log : List (ℕ × Sector)

/-- The volume between two calls, with everything on the device. -/
def Vol.settled (data : ℕ → Sector) (fat : ℕ → ℕ) : Vol where
  data := data
  fat := fat
  dirty := ∅
  active := false
  log := []

/-- The calls a volume answers. -/
def Vol.guard (m : Mount) : FatOp → Vol → Prop
  | .readSector lba _, _ => m.dataStartLba ≤ lba
  | .writeSector lba _, _ => m.dataStartLba ≤ lba
  | .devRead lba count, v => m.dataStartLba ≤ lba ∧ ∀ i < count, lba + i ∉ v.dirty
  | .fatLoad _, _ => True
  | .fatStore clus _, _ => clus < m.maxCluster
  | .journalBegin, v => v.active = false
  | .journalAdd lba _, v => v.active = true ∧ m.dataStartLba ≤ lba
  | .journalCommit, v => v.active = true ∧ applyWrites v.log v.data = v.data
  | .journalAbort, _ => True

/-- What it answers, and what becomes of it. -/
def Vol.act : (o : FatOp) → Vol → o.Resp × Vol
  | .readSector lba _, v => ((0, v.data lba), v)
  | .writeSector lba buf, v =>
    ((0 : Int), { v with data := Function.update v.data lba buf, dirty := insert lba v.dirty })
  | .devRead lba count, v => ((0, bufferOf count fun i => v.data (lba + i)), v)
  | .fatLoad clus, v => (v.fat clus, v)
  | .fatStore clus val, v => ((), { v with fat := Function.update v.fat clus val })
  | .journalBegin, v => ((0 : Int), { v with active := true, log := [] })
  | .journalAdd lba data, v =>
    if Block.maxJournalEntries ≤ v.log.length then (Errno.enoent, v)
    else ((0 : Int), { v with log := v.log ++ [(lba, data)] })
  | .journalCommit, v => ((0 : Int), { v with active := false, log := [], dirty := ∅ })
  | .journalAbort, v => ((0 : Int), { v with active := false, log := [] })

/-- The volume as an implementation of the driver's operations. -/
def volume (m : Mount) : GuardedImpl FatOp FatOp.Resp Vol where
  guard := Vol.guard m
  act := Vol.act

end Lnxrm.Fat32
