import Lnxrm.Fat32.Helpers.Apart
import Lnxrm.Fat32.Helpers.Rules
import Lnxrm.Fat32.Mounted

/-!
# FAT32 — a namespace operation that fails changes nothing

Of the error exits of the five operations all but one come before the
first write. The one is `fat_mkdir_impl` without a slot for its record: by
then the new cluster is marked and initialised and a transaction is open.
It closes the transaction and takes the mark back, which restores the
entry with its top four bits, so that only sectors of a cluster that was
free before are left different (`failed_changes_nothing`).
-/

namespace Lnxrm.Fat32

open Prog (wlp wlp_bind wlp_pure wlp_perform wlp_mono Only)

variable {δ : Type} [DecidableEq δ] {m : Mount} {dev : δ} {s₀ s : Fs δ} {fat : ℕ → ℕ}
  {hole : ℕ → Prop} {act : Bool} {β : Type}

/-- A sector of a cluster that is free. -/
def FreeSector (m : Mount) (fat : ℕ → ℕ) (lba : ℕ) : Prop :=
  ∃ c, IsFree m fat c ∧ lba ∈ clusterSectors m c

theorem Apart.wlp_looks {p : Fat β} (h : Apart m dev s₀ fat hole act s) (hp : p.Only (Looks m)) :
    wlp (fatImpl m dev) p (fun _ s' => Apart m dev s₀ fat hole act s') s :=
  hp.keeps (fun o _ ho hs => hs.looks o ho) h

/-! ## Steps -/

theorem Apart.wlp_fatSetEntry (h : Apart m dev s₀ fat hole act s) {clus : ℕ}
    (hc : clus < m.maxCluster) (val : ℕ) :
    wlp (fatImpl m dev) (fatSetEntry m clus val)
      (fun _ s' => Apart m dev s₀ (setEntry fat clus val) hole act s') s := by
  unfold fatSetEntry
  rw [if_neg (by omega), wlp_bind]
  refine (wlp_perform _ _ _).mpr ((wlp_perform _ _ _).mpr ?_)
  have hload : (fatImpl m dev (.fatLoad clus) s).1 = fat clus := congrFun h.fat clus
  rw [hload]
  exact h.fatStore hc _

theorem setEntry_undo {c val : ℕ} (h : fat c % 2 ^ 28 = 0) :
    setEntry (setEntry fat c val) c 0 = fat := by
  funext x
  by_cases hx : x = c
  · subst hx
    simp only [setEntry, Function.update_self]
    omega
  · rw [setEntry_of_ne hx, setEntry_of_ne hx]

theorem Apart.wlp_zeroSectors {lba : ℕ} (ss : List ℕ) (h : Apart m dev s₀ fat hole act s)
    (hss : ∀ i ∈ ss, m.dataStartLba ≤ lba + i ∧ hole (lba + i)) :
    wlp (fatImpl m dev) (zeroSectors lba ss) (fun _ s' => Apart m dev s₀ fat hole act s') s := by
  induction ss generalizing s with
  | nil => exact (wlp_pure _ _ _).mpr h
  | cons i ss ih =>
    rw [List.forall_mem_cons] at hss
    rw [zeroSectors, wlp_bind]
    exact (wlp_perform _ _ _).mpr (ih (h.writeSector hss.1.1 hss.1.2 _) hss.2)

/-- **`parent_entry_add`** succeeds, or has closed its transaction and
changed nothing. -/
theorem Apart.wlp_parentEntryAdd (h : Apart m dev s₀ fat hole act s) (pdir : ℕ) (name : Str)
    (attr : UInt8) (firstClus : ℕ) :
    wlp (fatImpl m dev) (parentEntryAdd m pdir name attr firstClus)
      (fun rc s' => rc = 0 ∨ Apart m dev s₀ fat hole false s') s := by
  unfold parentEntryAdd
  rw [wlp_bind]
  refine (wlp_perform _ _ _).mpr ?_
  rw [wlp_bind]
  refine wlp_mono (h.journalBegin.wlp_looks (looks_scanCached _ _ _)) fun r s₁ hs₁ => ?_
  rcases r with _ | ⟨_, pos, pbuf⟩
  · rw [wlp_bind]
    exact (wlp_perform _ _ _).mpr ((wlp_pure _ _ _).mpr (Or.inr hs₁.journalAbort))
  · -- this branch returns 0, whatever the calls before answer
    simp only [wlp_bind, wlp_pure]
    exact fun _ _ _ _ _ _ => Or.inl trivial

/-! ## Operations -/

theorem Apart.refused (h : Apart m dev s₀ fat hole act s) (rc : Int) :
    wlp (fatImpl m dev) (pure rc) (fun rc s' => rc < 0 → Apart m dev s₀ fat hole act s') s :=
  (wlp_pure _ _ _).mpr fun _ => h

theorem Apart.wlp_create (h : Apart m dev s₀ fat hole false s) (path : Str) :
    wlp (fatImpl m dev) (fatCreateImpl m path)
      (fun rc s' => rc < 0 → Apart m dev s₀ fat hole false s') s := by
  unfold fatCreateImpl
  rw [wlp_bind]
  refine wlp_mono (h.wlp_looks (looks_parentDirInit path)) fun r s₁ hs₁ => ?_
  cases r with
  | error rc => exact hs₁.refused _
  | ok pd =>
    rw [wlp_bind]
    refine wlp_mono (hs₁.wlp_parentEntryAdd _ _ _ _) fun rc s₂ hs₂ => (wlp_pure _ _ _).mpr ?_
    rcases hs₂ with rfl | hs₂
    · simp
    · exact fun _ => hs₂

theorem Apart.wlp_mkdir (h : Apart m dev s₀ fat (FreeSector m fat) false s) (path : Str) :
    wlp (fatImpl m dev) (fatMkdirImpl m path)
      (fun rc s' => rc < 0 → Apart m dev s₀ fat (FreeSector m fat) false s') s := by
  unfold fatMkdirImpl
  rw [wlp_bind]
  refine wlp_mono (h.wlp_looks (looks_parentDirInit path)) fun r s₁ hs₁ => ?_
  cases r with
  | error rc => exact hs₁.refused _
  | ok pd =>
    rw [wlp_bind]
    refine wlp_mono (wlp_fatFindFreeCluster (fun _ h => h.fat) hs₁) fun c s₂ ⟨hs₂, hfree⟩ => ?_
    by_cases hc0 : c = 0
    · rw [if_pos hc0]
      exact hs₂.refused _
    have hc := hfree hc0
    have hhole : ∀ i < m.sectorsPerCluster, m.dataStartLba ≤ clusterLba m c + i ∧
        FreeSector m fat (clusterLba m c + i) := fun i hi =>
      ⟨Nat.le_add_right_of_le (clusterLba_ge m c), c, hc, mem_clusterSectors.mpr ⟨i, hi, rfl⟩⟩
    have hpos := m.spc_pos
    rw [if_neg hc0, wlp_bind]
    refine wlp_mono (hs₂.wlp_fatSetEntry hc.2.1 _) fun _ s₃ hs₃ => ?_
    rw [wlp_bind]
    refine (wlp_perform _ _ _).mpr ?_
    have hfirst := hhole 0 hpos
    rw [Nat.add_zero] at hfirst
    have hs₄ := hs₃.writeSector hfirst.1 hfirst.2 (dirSector c pd.cluster)
    rw [wlp_bind]
    refine wlp_mono (hs₄.wlp_zeroSectors _ fun i hi => hhole i ?_) fun _ s₅ hs₅ => ?_
    · rw [List.mem_range'_1] at hi
      omega
    rw [wlp_bind]
    refine wlp_mono (hs₅.wlp_parentEntryAdd _ _ _ _) fun rc s₆ hs₆ => ?_
    by_cases hrc : rc = 0
    · rw [if_neg (by simpa using hrc)]
      exact (wlp_pure _ _ _).mpr fun h => absurd h (by decide)
    · rw [if_pos hrc, wlp_bind]
      refine wlp_mono ((hs₆.resolve_left hrc).wlp_fatSetEntry hc.2.1 0) fun _ s₇ hs₇ => ?_
      rw [setEntry_undo hc.2.2] at hs₇
      exact hs₇.refused _

theorem wlp_removeRecord (loc : DirentLoc) (clus : ℕ) {P : Fs δ → Prop} :
    wlp (fatImpl m dev) (removeRecord m loc clus) (fun rc s' => rc < 0 → P s') s := by
  simp only [removeRecord, wlp_bind, wlp_pure]
  exact fun _ _ _ _ _ _ _ _ _ _ _ _ h => absurd h (by decide)

theorem Apart.wlp_rmdir (h : Apart m dev s₀ fat hole false s) (path : Str) :
    wlp (fatImpl m dev) (fatRmdirImpl m path)
      (fun rc s' => rc < 0 → Apart m dev s₀ fat hole false s') s := by
  unfold fatRmdirImpl
  rw [wlp_bind]
  refine wlp_mono (h.wlp_looks (looks_fatResolvePath path)) fun r s₁ hs₁ => ?_
  cases r with
  | none => exact hs₁.refused _
  | some r =>
    dsimp only
    split
    · exact hs₁.refused _
    split
    · exact hs₁.refused _
    rw [wlp_bind]
    refine wlp_mono (hs₁.wlp_looks (looks_dirIsEmpty _)) ?_
    rintro ⟨empty, count⟩ s₂ hs₂
    split
    · exact hs₂.refused _
    split
    · exact hs₂.refused _
    rw [wlp_bind]
    refine wlp_mono (hs₂.wlp_looks (looks_direntLocate _ _)) fun loc s₃ hs₃ => ?_
    cases loc with
    | none => exact hs₃.refused _
    | some loc => exact wlp_removeRecord loc _

theorem Apart.wlp_unlink (h : Apart m dev s₀ fat hole false s) (path : Str) :
    wlp (fatImpl m dev) (fatUnlinkImpl m path)
      (fun rc s' => rc < 0 → Apart m dev s₀ fat hole false s') s := by
  unfold fatUnlinkImpl
  rw [wlp_bind]
  refine wlp_mono (h.wlp_looks (looks_fatResolvePath path)) fun r s₁ hs₁ => ?_
  cases r with
  | none => exact hs₁.refused _
  | some r =>
    dsimp only
    split
    · exact hs₁.refused _
    rw [wlp_bind]
    refine wlp_mono (hs₁.wlp_looks (looks_direntLocate _ _)) fun loc s₂ hs₂ => ?_
    cases loc with
    | none => exact hs₂.refused _
    | some loc => exact wlp_removeRecord loc _

theorem wlp_renameInPlace (loc : DirentLoc) (nLfn : ℕ) (nname : Str) (short : Fin 11 → UInt8)
    (sum : UInt8) {P : Fs δ → Prop} :
    wlp (fatImpl m dev) (renameInPlace m loc nLfn nname short sum) (fun rc s' => rc < 0 → P s') s := by
  simp only [renameInPlace, wlp_bind, wlp_pure]
  exact fun _ _ _ _ _ _ _ _ _ _ _ _ _ _ _ h => absurd h (by decide)

theorem wlp_renameMove (loc : DirentLoc) (ps : List DirentPos) (nLfn : ℕ) (nname : Str)
    (short : Fin 11 → UInt8) (sum : UInt8) (moved : Option (ℕ × ℕ)) {P : Fs δ → Prop} :
    wlp (fatImpl m dev) (renameMove m loc ps nLfn nname short sum moved)
      (fun rc s' => rc < 0 → P s') s := by
  simp only [renameMove, wlp_bind, wlp_pure]
  exact fun _ _ _ _ _ _ _ _ _ _ _ _ _ _ _ _ _ _ h => absurd h (by decide)

theorem Apart.wlp_renameTo (h : Apart m dev s₀ fat hole false s) (ro : Resolve) (newDir : ℕ)
    (nname : Str) :
    wlp (fatImpl m dev) (renameTo m ro newDir nname)
      (fun rc s' => rc < 0 → Apart m dev s₀ fat hole false s') s := by
  unfold renameTo
  rw [wlp_bind]
  refine wlp_mono (h.wlp_looks (looks_fatScanDir _ _ _)) fun ⟨_, hit⟩ s₁ hs₁ => ?_
  dsimp only
  split
  · exact hs₁.refused _
  rw [wlp_bind]
  refine wlp_mono (hs₁.wlp_looks (looks_movesIntoItself _ _)) fun inside s₂ hs₂ => ?_
  split
  · exact hs₂.refused _
  split
  · exact hs₂.refused _
  rw [wlp_bind]
  refine wlp_mono (hs₂.wlp_looks (looks_direntLocate _ _)) fun loc s₃ hs₃ => ?_
  cases loc with
  | none => exact hs₃.refused _
  | some loc =>
    dsimp only
    split
    · exact wlp_renameInPlace _ _ _ _ _
    rw [wlp_bind]
    refine wlp_mono (hs₃.wlp_looks (looks_dirClaimRun _ _)) fun r s₄ hs₄ => ?_
    cases r with
    | error e => exact hs₄.refused _
    | ok ps => exact wlp_renameMove _ _ _ _ _ _ _

theorem Apart.wlp_rename (h : Apart m dev s₀ fat hole false s) (oldpath newpath : Str) :
    wlp (fatImpl m dev) (fatRenameImpl m oldpath newpath)
      (fun rc s' => rc < 0 → Apart m dev s₀ fat hole false s') s := by
  unfold fatRenameImpl
  simp only [wlp_bind]
  refine wlp_mono (h.wlp_looks (looks_fatResolvePath _)) fun r s₁ hs₁ => ?_
  cases r with
  | none => exact hs₁.refused _
  | some ro =>
    dsimp only
    split
    · exact hs₁.refused _
    split
    · exact hs₁.refused _
    rw [wlp_bind]
    refine wlp_mono (hs₁.wlp_looks (looks_resolveParent _ _ _)) fun r s₂ hs₂ => ?_
    cases r with
    | error e => exact hs₂.refused _
    | ok newDir =>
      dsimp only
      split
      · exact (wlp_pure _ _ _).mpr fun h => absurd h (by decide)
      · exact hs₂.wlp_renameTo ro newDir _

/-- **Every operation.** -/
theorem Apart.wlp_prog (h : Apart m dev s₀ fat (FreeSector m fat) false s) (op : NsOp) :
    wlp (fatImpl m dev) (op.prog m)
      (fun rc s' => rc < 0 → Apart m dev s₀ fat (FreeSector m fat) false s') s := by
  cases op with
  | create path => exact h.wlp_create path
  | mkdir path => exact h.wlp_mkdir path
  | unlink path => exact h.wlp_unlink path
  | rmdir path => exact h.wlp_rmdir path
  | rename oldpath newpath => exact h.wlp_rename oldpath newpath

theorem not_freeSector {d lba : ℕ} {l : List ℕ} (hw : Walk (nextOf m fat) Ends d l)
    (hl : ∀ c ∈ l, ¬ IsFree m fat c) (hlba : lba ∈ sectors m l) : ¬ FreeSector m fat lba := by
  rintro ⟨c, hc, hin⟩
  obtain ⟨x, hx, i, hi, rfl⟩ := mem_sectors.mp hlba
  obtain ⟨j, hj, heq⟩ := mem_clusterSectors.mp hin
  have hends := hw.not_stop_of_mem hx
  rw [Ends, clusterIsEoc_iff] at hends
  obtain ⟨rfl, -⟩ := clusterLba_inj (by omega) (by omega) hc.1 (m.lt_two_pow hc.2.1) hi hj heq
  exact hl _ hx hc

theorem Apart.sector_below {s' : Fs δ} (h : Apart m dev s s.fat hole act s')
    (hm : Mirrors m dev s) {lba j : ℕ} (hlba : lba < m.dataStartLba) (hj : j < sectorSize) :
    s'.storage.blk.disks.sector dev lba j = s.storage.blk.disks.sector dev lba j := by
  by_cases hfat : ∃ c < m.maxCluster, lba = m.reservedSectors + c * 4 / sectorSize
  · obtain ⟨c, hc, rfl⟩ := hfat
    rw [h.mirrors c hc j hj, h.fat, hm c hc j hj]
  · rw [h.below lba hlba fun c hc heq => hfat ⟨c, hc, heq⟩]

/-- **A failed namespace operation changes nothing.** On a device that does
not fail, whatever the path: the FAT in memory and the sectors below the
data area, the FAT's among them, are as before; so is every record of
every directory whose chain has no free cluster, through the cache and, as
far as it was written back, on the device; and no transaction is left
open. -/
theorem failed_changes_nothing {s' : Fs δ} {rc : Int} (op : NsOp) (hs : Ready m dev s)
    (hm : Mirrors m dev s) (hidle : s.storage.journal.active = false)
    (hrun : Fs.call m dev (op.prog m) s = some (rc, s')) (hneg : rc < 0) :
    s'.fat = s.fat ∧ (∀ lba < m.dataStartLba, ∀ j < sectorSize,
        s'.storage.blk.disks.sector dev lba j = s.storage.blk.disks.sector dev lba j) ∧
      (∀ d l, Walk (nextOf m s.fat) Ends d l → (∀ c ∈ l, ¬ IsFree m s.fat c) → ∀ p ∈ slots m l,
        recOf (s'.storage.blk.view dev) p = recOf (s.storage.blk.view dev) p ∧
          (recOf (s.storage.blk.disks.sector dev) p = recOf (s.storage.blk.view dev) p →
            recOf (s'.storage.blk.disks.sector dev) p = recOf (s.storage.blk.disks.sector dev) p)) ∧
      s'.storage.journal.active = false := by
  have hstart : Apart m dev s s.fat (FreeSector m s.fat) false s := hidle ▸ Apart.refl hs hm
  have h := hstart.wlp_prog op rc s' hrun hneg
  refine ⟨h.fat, fun lba hlba j hj => h.sector_below hm hlba hj, ?_, h.active⟩
  intro d l hw hl p hp
  have hlba := slots_ge hp
  have hout := not_freeSector hw hl (mem_slots.mp hp).1
  refine ⟨by rw [recOf, recOf, h.view p.lba hlba hout], fun hsync => ?_⟩
  rcases h.sector p.lba hlba hout with hsec | hsec
  · rw [recOf, recOf, hsec]
  · rw [hsync, recOf, recOf, hsec]

/-! `mkdir` in a root directory that is full. -/

/-- The root directory is a chain of one cluster; the others are free. -/
def fullFat : ℕ → ℕ := fun c => if c = 2 then 0x0FFFFFFF else 0

/-- Sixteen records `X` in the root directory. -/
def fullDisk : ℕ → Sector := fun lba j =>
  if lba = 1 then fatSector fullFat 0 j
  else if lba = 2 then (if j % 32 = 0 then 0x58 else 0x20)
  else 0

theorem failed_changes_nothing_full : ∃ s',
    Fs.call smallMount () ((NsOp.mkdir [66]).prog smallMount) (freshFs fullDisk fullFat) =
      some (Errno.efail, s') ∧
    s'.fat = fullFat ∧
      (∀ lba < 2, ∀ j < sectorSize, s'.storage.blk.disks.sector () lba j = fullDisk lba j) ∧
      (∀ p ∈ slots smallMount [2], recOf (s'.storage.blk.view ()) p = recOf fullDisk p) ∧
      s'.storage.journal.active = false := by
  have hret : (Fs.call smallMount () ((NsOp.mkdir [66]).prog smallMount)
      (freshFs fullDisk fullFat)).map Prod.fst = some Errno.efail := by decide +kernel
  obtain ⟨⟨rc, s'⟩, hrun, rfl⟩ := Option.map_eq_some_iff.mp hret
  have hmounted := freshFs_mounted smallMount fullDisk fullFat
  have hmirrors : Mirrors smallMount () (freshFs fullDisk fullFat) := by
    intro c hc j _
    have hk : c * 4 / sectorSize = 0 := by
      simp only [smallMount, sectorSize] at hc ⊢
      omega
    rw [hk]
    rfl
  obtain ⟨hfat, hlow, hrecs, hidle⟩ := failed_changes_nothing (.mkdir [66])
    ⟨hmounted.inv, hmounted.lines, hmounted.reads, hmounted.writes⟩ hmirrors hmounted.idle hrun
    (by decide)
  refine ⟨s', hrun, hfat, hlow, fun p hp => ?_, hidle⟩
  have hview := Block.sector_eq_view_of_clean hmounted.inv hmounted.clean
  have hroot : ∀ c ∈ [2], ¬ IsFree smallMount fullFat c := by
    simp [IsFree, fullFat]
  refine ((hrecs 2 [2] (by decide) hroot p hp).1).trans ?_
  rw [recOf, ← hview p.lba]
  rfl

end Lnxrm.Fat32
