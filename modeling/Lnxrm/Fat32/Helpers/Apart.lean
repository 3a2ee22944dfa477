import Lnxrm.Block.Helpers.Confined
import Lnxrm.Fat32.Helpers.Looks
import Lnxrm.Fat32.Model.Machine

/-!
# FAT32 — storage that differs in one place only

Proof layer. `Apart s₀ fat hole act s`: `s` is the storage `s₀` but for
the table, which is `fat` in memory and on the device, and for the sectors
of `hole`. Looking keeps it (`Apart.looks`), a write of a sector in the
hole keeps it, and a store to the table replaces `fat`, on the device too,
because the sector written holds the cached entries.
-/

namespace Lnxrm.Fat32

open Function
open Block (CacheInv LinesIn Settles)
open Prog (wlp wlp_bind wlp_pure wlp_perform)

variable {δ : Type} [DecidableEq δ] {m : Mount} {dev : δ} {s₀ s : Fs δ} {fat : ℕ → ℕ}
  {hole : ℕ → Prop} {act : Bool}

/-- `fat_find_free_cluster` returns a free cluster of the cached FAT, or
`0`. -/
theorem wlp_fatFindFreeCluster {I : Fs δ → Prop} (hI : ∀ s, I s → s.fat = fat) (h : I s) :
    wlp (fatImpl m dev) (fatFindFreeCluster m) (fun c s' => I s' ∧ (c ≠ 0 → IsFree m fat c)) s := by
  unfold fatFindFreeCluster
  rw [wlp_bind]
  refine Prog.wlp_forEach (I := I) (fun _ i hi s hs => ?_) (fun _ s hs => ?_) () h
  · have hload : (fatImpl m dev (.fatLoad i) s).1 = fat i := congrFun (hI s hs) i
    rw [wlp_bind]
    refine (wlp_perform _ _ _).mpr ?_
    rw [hload]
    refine (wlp_pure _ _ _).mpr ?_
    by_cases hfree : fat i % 2 ^ 28 = 0
    · rw [if_pos hfree]
      refine (wlp_pure _ _ _).mpr ⟨hs, fun _ => ?_⟩
      rw [List.mem_range'_1] at hi
      exact ⟨by omega, by omega, hfree⟩
    · rw [if_neg hfree]
      exact hs
  · exact (wlp_pure _ _ _).mpr ⟨hs, fun h0 => absurd rfl h0⟩

/-- **The storage works**: the cache is coherent and used for the data area
only, and no device operation fails. -/
structure Ready (m : Mount) (dev : δ) (s : Fs δ) : Prop where
  inv : CacheInv s.storage.blk
  lines : LinesIn (fun dev' lba => dev' = dev → m.dataStartLba ≤ lba) s.storage.blk
  reads : s.storage.blk.disks.ReadsOk
  writes : s.storage.blk.disks.WritesOk

/-- **The cached FAT is the one on the device.** -/
def Mirrors (m : Mount) (dev : δ) (s : Fs δ) : Prop :=
  ∀ c < m.maxCluster, ∀ j < sectorSize,
    s.storage.blk.disks.sector dev (m.reservedSectors + c * 4 / sectorSize) j =
      fatSector s.fat (c * 4 / sectorSize) j

/-- **The storage differs from `s₀` in the table and in the hole only.** -/
structure Apart (m : Mount) (dev : δ) (s₀ : Fs δ) (fat : ℕ → ℕ) (hole : ℕ → Prop) (act : Bool)
    (s : Fs δ) : Prop where
  ready : Ready m dev s
  active : s.storage.journal.active = act
  fat : s.fat = fat
  mirrors : Mirrors m dev s
  below : ∀ lba < m.dataStartLba, (∀ c < m.maxCluster, lba ≠ m.reservedSectors + c * 4 / sectorSize) →
    s.storage.blk.disks.sector dev lba = s₀.storage.blk.disks.sector dev lba
  view : ∀ lba, m.dataStartLba ≤ lba → ¬ hole lba →
    s.storage.blk.view dev lba = s₀.storage.blk.view dev lba
  sector : ∀ lba, m.dataStartLba ≤ lba → ¬ hole lba →
    s.storage.blk.disks.sector dev lba = s₀.storage.blk.disks.sector dev lba ∨
      s.storage.blk.disks.sector dev lba = s₀.storage.blk.view dev lba

theorem Ready.miss (h : Ready m dev s) {lba : ℕ} (hlba : lba < m.dataStartLba) (i) :
    (s.storage.blk.cache i).hits dev lba = false := by
  by_contra hi
  have := h.lines i dev lba (by simpa using hi) rfl
  omega

theorem Ready.settles_below (h : Ready m dev s) {b : Block.Blk δ Sector}
    (hset : Settles s.storage.blk b) {lba : ℕ} (hlba : lba < m.dataStartLba) :
    b.disks.sector dev lba = s.storage.blk.disks.sector dev lba := by
  rcases hset.sector dev lba with hs | hs
  · exact hs
  · rw [hs, Block.view_of_miss (h.miss hlba)]

namespace Apart

theorem refl (hs : Ready m dev s) (hm : Mirrors m dev s) :
    Apart m dev s s.fat hole s.storage.journal.active s where
  ready := hs
  active := rfl
  fat := rfl
  mirrors := hm
  below _ _ _ := rfl
  view _ _ _ := rfl
  sector _ _ _ := Or.inl rfl

theorem journal (h : Apart m dev s₀ fat hole act s) (j : Block.Journal δ Sector) :
    Apart m dev s₀ fat hole j.active { s with storage := { s.storage with journal := j } } where
  ready := ⟨h.ready.inv, h.ready.lines, h.ready.reads, h.ready.writes⟩
  active := rfl
  fat := h.fat
  mirrors := h.mirrors
  below := h.below
  view := h.view
  sector := h.sector

theorem journalBegin (h : Apart m dev s₀ fat hole act s) :
    Apart m dev s₀ fat hole true (fatImpl m dev .journalBegin s).2 := by
  simp only [fatImpl, Block.fat32JournalBegin]
  split
  · rename_i hact
    have hj := h.journal s.storage.journal
    rwa [hact] at hj
  · exact h.journal { s.storage.journal with entries := [], active := true }

theorem journalAbort (h : Apart m dev s₀ fat hole act s) :
    Apart m dev s₀ fat hole false (fatImpl m dev .journalAbort s).2 :=
  h.journal { s.storage.journal with entries := [], active := false }

theorem settles (h : Apart m dev s₀ fat hole act s) {b : Block.Blk δ Sector}
    (hset : Settles s.storage.blk b)
    (hlines : LinesIn (fun dev' lba => dev' = dev → m.dataStartLba ≤ lba) b) :
    Apart m dev s₀ fat hole act { s with storage := { s.storage with blk := b } } where
  ready := ⟨hset.inv, hlines, hset.reads h.ready.reads, hset.writes h.ready.writes⟩
  active := h.active
  fat := h.fat
  mirrors c hc j hj :=
    (congrFun (h.ready.settles_below hset (m.fat_below c hc)) j).trans (h.mirrors c hc j hj)
  below lba hlba hne := (h.ready.settles_below hset hlba).trans (h.below lba hlba hne)
  view lba hlba hout := (hset.view dev lba).trans (h.view lba hlba hout)
  sector lba hlba hout := by
    rcases hset.sector dev lba with hs | hs
    · rw [hs]
      exact h.sector lba hlba hout
    · exact Or.inr (hs.trans (h.view lba hlba hout))

/-- **Looking.** -/
theorem looks (h : Apart m dev s₀ fat hole act s) (o : FatOp) (ho : Looks m o) :
    Apart m dev s₀ fat hole act (fatImpl m dev o s).2 := by
  cases o with
  | readSector lba buf =>
    obtain ⟨hset, -, -⟩ := Block.blkCacheRead_spec h.ready.inv h.ready.reads dev lba buf
    exact h.settles hset
      (Block.blkCacheRead_confined h.ready.lines (fun _ : dev = dev => ho) (some buf)).lines
  | devRead lba count =>
    simp only [fatImpl, Block.read_ok h.ready.reads dev lba]
    exact h
  | fatLoad clus => exact h
  | _ => exact ho.elim

/-- **A write in the hole.** -/
theorem writeSector (h : Apart m dev s₀ fat hole act s) {lba : ℕ} (hlba : m.dataStartLba ≤ lba)
    (hin : hole lba) (buf : Sector) :
    Apart m dev s₀ fat hole act (fatImpl m dev (.writeSector lba buf) s).2 := by
  obtain ⟨hput, -, hok⟩ := Block.blkCacheWrite_spec h.ready.inv dev lba buf
  have hp := hput (hok h.ready.writes)
  have hbelow : ∀ lba' < m.dataStartLba,
      (Block.blkCacheWrite s.storage.blk dev lba (some buf)).2.disks.sector dev lba' =
        s.storage.blk.disks.sector dev lba' := by
    intro lba' hlba'
    rcases hp.sector dev lba' with hs | hs
    · exact hs
    · rw [hs, Block.view_of_miss (h.ready.miss hlba')]
  exact
    { ready := ⟨hp.inv,
        (Block.blkCacheWrite_confined h.ready.lines (fun _ : dev = dev => hlba) (some buf)).lines,
        hp.reads h.ready.reads, hp.writes h.ready.writes⟩
      active := h.active
      fat := h.fat
      mirrors := fun c hc j hj =>
        (congrFun (hbelow _ (m.fat_below c hc)) j).trans (h.mirrors c hc j hj)
      below := fun lba' hlba' hne => (hbelow lba' hlba').trans (h.below lba' hlba' hne)
      view := fun lba' hlba' hout => by
        have hne : lba' ≠ lba := fun heq => hout (heq ▸ hin)
        refine (hp.view dev lba').trans ?_
        rw [Block.setSector_of_ne _ _ (by simp [hne])]
        exact h.view lba' hlba' hout
      sector := fun lba' hlba' hout => by
        rcases hp.sector dev lba' with hs | hs
        · exact hs ▸ h.sector lba' hlba' hout
        · exact Or.inr (hs.trans (h.view lba' hlba' hout)) }

theorem fatSector_update_of_ne {clus val k j : ℕ} (hk : k ≠ clus * 4 / sectorSize)
    (hj : j < sectorSize) : fatSector (update fat clus val) k j = fatSector fat k j := by
  unfold fatSector
  rw [update_of_ne]
  rintro rfl
  simp only [sectorSize] at hk hj
  omega

/-- **A store to the table.** -/
theorem fatStore (h : Apart m dev s₀ fat hole act s) {clus : ℕ} (hc : clus < m.maxCluster)
    (val : ℕ) :
    Apart m dev s₀ (update fat clus val) hole act (fatImpl m dev (.fatStore clus val) s).2 := by
  have hbelow := m.fat_below clus hc
  obtain ⟨hinv, hw, hr, hoth⟩ := Block.diskWrite_spec h.ready.inv h.ready.writes
    (h.ready.miss hbelow) (fatSector (update s.fat clus val) (clus * 4 / sectorSize))
  have hself : (s.storage.blk.disks.write dev (m.reservedSectors + clus * 4 / sectorSize)
      (fatSector (update s.fat clus val) (clus * 4 / sectorSize))).2.sector dev
        (m.reservedSectors + clus * 4 / sectorSize) =
      fatSector (update s.fat clus val) (clus * 4 / sectorSize) := by
    rw [Block.write_ok _ _ _ (congrFun h.ready.writes 0)]
    exact Block.setSector_self _ _ _ _
  exact
    { ready := ⟨hinv, h.ready.lines, hr.trans h.ready.reads, hw⟩
      active := h.active
      fat := by rw [← h.fat]; rfl
      mirrors := fun c hlt j hj => by
        by_cases hk : c * 4 / sectorSize = clus * 4 / sectorSize
        · rw [hk]
          exact congrFun hself j
        · refine (congrFun (hoth dev _ (by simp [hk])).1 j).trans ?_
          exact (h.mirrors c hlt j hj).trans (fatSector_update_of_ne hk hj).symm
      below := fun lba hlba hne => by
        refine (hoth dev lba ?_).1.trans (h.below lba hlba hne)
        exact fun heq => hne clus hc heq.2
      view := fun lba hlba hout => by
        refine (hoth dev lba ?_).2.trans (h.view lba hlba hout)
        rintro ⟨-, rfl⟩
        omega
      sector := fun lba hlba hout => by
        rw [show (fatImpl m dev (.fatStore clus val) s).2.storage.blk.disks.sector dev lba =
          s.storage.blk.disks.sector dev lba from (hoth dev lba (by rintro ⟨-, rfl⟩; omega)).1]
        exact h.sector lba hlba hout }

end Apart

end Lnxrm.Fat32
