import Lnxrm.Block.Helpers.Confined
import Lnxrm.Fat32.Volume

/-!
# FAT32 — the storage backs the volume

Proof layer. `Backs` relates the driver's storage to the volume
it stands for: the cache shows the volume's data, a sector not counted
dirty is on the device, and the journal holds the transaction's images.
Each operation keeps it (`fatImpl_backs`), so what a program is proved to
do to the volume it does to the storage (`Backs.call`).
-/

namespace Lnxrm.Fat32

open Function
open Block (CacheInv Settles Puts LinesIn)

variable {δ : Type} [DecidableEq δ] {m : Mount} {dev : δ} {s : Fs δ} {v : Vol}

seal Block.blkCacheFlush

/-- **The storage backs the volume.** -/
structure Backs (m : Mount) (dev : δ) (s : Fs δ) (v : Vol) : Prop where
  inv : CacheInv s.storage.blk
  reads : s.storage.blk.disks.ReadsOk
  writes : s.storage.blk.disks.WritesOk
  /-- the cache is used for the data area only -/
  lines : LinesIn (fun dev' lba => dev' = dev → m.dataStartLba ≤ lba) s.storage.blk
  dev_eq : s.storage.journal.dev = dev
  active : s.storage.journal.active = v.active
  entries : v.active = true →
    s.storage.journal.entries = v.log.map fun e => { lba := e.1, data := e.2, valid := true }
  logged : v.active = true → ∀ e ∈ v.log, m.dataStartLba ≤ e.1
  view : ∀ lba, m.dataStartLba ≤ lba → s.storage.blk.view dev lba = v.data lba
  synced : ∀ lba, m.dataStartLba ≤ lba → lba ∉ v.dirty →
    s.storage.blk.disks.sector dev lba = v.data lba
  fat : s.fat = v.fat

namespace Backs

theorem settles (h : Backs m dev s v) {b : Block.Blk δ Sector} (hset : Settles s.storage.blk b)
    (hlines : LinesIn (fun dev' lba => dev' = dev → m.dataStartLba ≤ lba) b) :
    Backs m dev { s with storage := { s.storage with blk := b } } v where
  inv := hset.inv
  reads := hset.reads h.reads
  writes := hset.writes h.writes
  lines := hlines
  dev_eq := h.dev_eq
  active := h.active
  entries := h.entries
  logged := h.logged
  view lba hl := (hset.view dev lba).trans (h.view lba hl)
  synced lba hl hd := by
    rcases hset.sector dev lba with hs | hs
    · exact hs.trans (h.synced lba hl hd)
    · exact hs.trans (h.view lba hl)
  fat := h.fat

theorem readSector (h : Backs m dev s v) {lba : ℕ} (hl : m.dataStartLba ≤ lba) (buf : Sector) :
    (fatImpl m dev (.readSector lba buf) s).1 = (0, v.data lba) ∧
      Backs m dev (fatImpl m dev (.readSector lba buf) s).2 v := by
  obtain ⟨hset, hval, hok⟩ := Block.blkCacheRead_spec h.inv h.reads dev lba buf
  have hlines := (Block.blkCacheRead_confined h.lines (fun _ : dev = dev => hl) (some buf)).lines
  have hret := hok h.writes
  refine ⟨?_, h.settles hset hlines⟩
  have hout := hval hret
  rw [h.view lba hl] at hout
  simp only [fatImpl, Block.fatReadSector, hret, hout, Option.getD_some]
  rfl

theorem writeSector (h : Backs m dev s v) {lba : ℕ} (hl : m.dataStartLba ≤ lba) (buf : Sector) :
    (fatImpl m dev (.writeSector lba buf) s).1 = (0 : Int) ∧
      Backs m dev (fatImpl m dev (.writeSector lba buf) s).2 (Vol.act (.writeSector lba buf) v).2 := by
  obtain ⟨hput, -, hok⟩ := Block.blkCacheWrite_spec h.inv dev lba buf
  have hlines := (Block.blkCacheWrite_confined h.lines (fun _ : dev = dev => hl) (some buf)).lines
  have hp := hput (hok h.writes)
  refine ⟨hok h.writes, ⟨hp.inv, hp.reads h.reads, hp.writes h.writes, hlines, h.dev_eq, h.active,
    h.entries, h.logged, fun lba' hl' => ?_, fun lba' hl' hd => ?_, h.fat⟩⟩
  · show _ = update v.data lba buf lba'
    refine (hp.view dev lba').trans ?_
    by_cases heq : lba' = lba
    · subst heq
      rw [Block.setSector_self, update_self]
    · rw [Block.setSector_of_ne _ _ (by simp [heq]), h.view lba' hl', update_of_ne heq]
  have hne : lba' ≠ lba := fun heq => hd (heq ▸ Set.mem_insert _ _)
  have hd' : lba' ∉ v.dirty := fun hm => hd (Set.mem_insert_of_mem _ hm)
  have hdata : (Vol.act (.writeSector lba buf) v).2.data lba' = v.data lba' :=
    update_of_ne hne _ _
  rw [hdata]
  rcases hp.sector dev lba' with hs | hs
  · exact hs.trans (h.synced lba' hl' hd')
  · exact hs.trans (h.view lba' hl')

theorem devRead (h : Backs m dev s v) {lba count : ℕ} (hl : m.dataStartLba ≤ lba)
    (hd : ∀ i < count, lba + i ∉ v.dirty) :
    (fatImpl m dev (.devRead lba count) s).1 = (Vol.act (.devRead lba count) v).1 ∧
      Backs m dev (fatImpl m dev (.devRead lba count) s).2 v := by
  have hbuf : (bufferOf count fun i => s.storage.blk.disks.sector dev (lba + i)) =
      bufferOf count fun i => v.data (lba + i) := by
    funext i
    unfold bufferOf
    split
    · rename_i hi
      exact h.synced _ (by omega) (hd i hi)
    · rfl
  simp only [fatImpl, Block.read_ok h.reads dev lba, hbuf]
  exact ⟨rfl, h⟩

/-- A store to the FAT reaches only sectors below the data area, which
have no lines. -/
theorem fatStore (h : Backs m dev s v) {clus : ℕ} (hc : clus < m.maxCluster) (val : ℕ) :
    Backs m dev (fatImpl m dev (.fatStore clus val) s).2 (Vol.act (.fatStore clus val) v).2 := by
  have hbelow := m.fat_below clus hc
  have hmiss : ∀ i, (s.storage.blk.cache i).hits dev
      (m.reservedSectors + clus * 4 / sectorSize) = false := by
    intro i
    by_contra hi
    have := h.lines i dev _ (by simpa using hi) rfl
    omega
  obtain ⟨hinv, hw, hr, hoth⟩ := Block.diskWrite_spec h.inv h.writes hmiss
    (fatSector (update s.fat clus val) (clus * 4 / sectorSize))
  have hne : ∀ lba, m.dataStartLba ≤ lba →
      ¬ (dev = dev ∧ lba = m.reservedSectors + clus * 4 / sectorSize) := by
    rintro lba hl ⟨-, rfl⟩
    omega
  have hfat : update s.fat clus val = update v.fat clus val := by rw [h.fat]
  exact ⟨hinv, hr.trans h.reads, hw, h.lines, h.dev_eq, h.active, h.entries, h.logged,
    fun lba hl => (hoth dev lba (hne lba hl)).2.trans (h.view lba hl),
    fun lba hl hd => (hoth dev lba (hne lba hl)).1.trans (h.synced lba hl hd), hfat⟩

theorem journalAdd (h : Backs m dev s v) (hact : v.active = true) {lba : ℕ}
    (hl : m.dataStartLba ≤ lba) (data : Sector) :
    (fatImpl m dev (.journalAdd lba data) s).1 = (Vol.act (.journalAdd lba data) v).1 ∧
      Backs m dev (fatImpl m dev (.journalAdd lba data) s).2
        (Vol.act (.journalAdd lba data) v).2 := by
  have hja : s.storage.journal.active = true := h.active.trans hact
  have hlen : s.storage.journal.entries.length = v.log.length := by
    rw [h.entries hact, List.length_map]
  simp only [fatImpl, Block.fat32JournalAdd, Vol.act, hja, hlen, Bool.not_true, Bool.false_eq_true,
    if_false, ge_iff_le]
  split
  · exact ⟨rfl, h⟩
  refine ⟨rfl, ⟨h.inv, h.reads, h.writes, h.lines, h.dev_eq, hact.symm, ?_, ?_, h.view, h.synced,
    h.fat⟩⟩
  · intro _
    rw [List.map_append, ← h.entries hact]
    rfl
  · intro _ e he
    rcases List.mem_append.mp he with he | he
    · exact h.logged hact e he
    · rw [List.mem_singleton.mp he]
      exact hl

theorem journalCurrent (h : Backs m dev s v) (hact : v.active = true) (hcur : applyWrites v.log v.data = v.data) :
    Block.JournalCurrent s.storage := by
  have himg : Block.images s.storage.journal.entries = v.log := by
    rw [h.entries hact, Block.images, List.map_map]
    exact List.map_id _
  constructor
  · intro e he
    rw [h.entries hact] at he
    obtain ⟨u, -, rfl⟩ := List.mem_map.mp he
    rfl
  · intro e he f
    have hmem : (e.lba, e.data) ∈ v.log := himg ▸ List.mem_map_of_mem he
    rw [himg, h.dev_eq, h.view e.lba (h.logged hact _ hmem),
      applyWrites_congr (g := v.data) (Or.inl ⟨_, hmem, rfl⟩), hcur]

theorem journalCommit (h : Backs m dev s v) (hact : v.active = true)
    (hcur : applyWrites v.log v.data = v.data) :
    (fatImpl m dev .journalCommit s).1 = (0 : Int) ∧
      Backs m dev (fatImpl m dev .journalCommit s).2 (Vol.act .journalCommit v).2 := by
  obtain ⟨hret, hset, -, hsec, hjour⟩ :=
    Block.commit_spec h.inv h.writes (h.active.trans hact) (h.journalCurrent hact hcur)
  rw [h.dev_eq] at hsec
  refine ⟨hret, ⟨hset.inv, hset.reads h.reads, hset.writes h.writes, h.lines.commit, ?_, ?_, ?_,
    by simp [Vol.act],
    fun lba hl => (hset.view dev lba).trans (h.view lba hl),
    fun lba hl _ => (hsec lba).trans (h.view lba hl), h.fat⟩⟩
  · exact (congrArg Block.Journal.dev hjour).trans h.dev_eq
  · exact congrArg Block.Journal.active hjour
  · exact fun _ => congrArg Block.Journal.entries hjour

end Backs

/-- **Each operation keeps the relation**, and answers as the volume does. -/
theorem fatImpl_backs (o : FatOp) (s : Fs δ) (v : Vol) (h : Backs m dev s v)
    (hg : (volume m).guard o v) :
    (fatImpl m dev o s).1 = ((volume m).act o v).1 ∧
      Backs m dev (fatImpl m dev o s).2 ((volume m).act o v).2 := by
  cases o with
  | readSector lba buf => exact h.readSector hg buf
  | writeSector lba buf => exact h.writeSector hg buf
  | devRead lba count => exact h.devRead hg.1 hg.2
  | fatLoad clus => exact ⟨congrFun h.fat clus, h⟩
  | fatStore clus val => exact ⟨rfl, h.fatStore hg val⟩
  | journalBegin =>
    have hidle : s.storage.journal.active = false := h.active.trans hg
    simp only [fatImpl, Block.fat32JournalBegin, hidle]
    exact ⟨rfl, ⟨h.inv, h.reads, h.writes, h.lines, h.dev_eq, rfl, fun _ => rfl, by simp [volume, Vol.act],
      h.view, h.synced, h.fat⟩⟩
  | journalAdd lba data => exact h.journalAdd hg.1 hg.2 data
  | journalCommit => exact h.journalCommit hg.1 hg.2
  | journalAbort =>
    exact ⟨rfl, ⟨h.inv, h.reads, h.writes, h.lines, h.dev_eq, rfl, fun _ => rfl, by simp [volume, Vol.act],
      h.view, h.synced, h.fat⟩⟩

/-- **What is proved of a call on the volume holds on the storage.** -/
theorem Backs.call {β : Type} {p : Fat β} {Q : β → Vol → Prop} (h : Backs m dev s v)
    (hp : Prog.wp (volume m) p Q v) :
    ∃ b s' v', Fs.call m dev p s = some (b, s') ∧ Q b v' ∧ Backs m dev s' v' :=
  Prog.exec_of_wp fatImpl_backs h hp

end Lnxrm.Fat32
