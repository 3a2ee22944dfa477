import Lnxrm.Fat32.Model.BootSector

/-!
# What a mount guarantees

`fat_mount` accepts a boot sector only if the layout it describes lies on
the device: the FAT area in front of the data area, the clusters inside
the device, and the entry of every cluster inside the cached FAT
(`fatMount_inside`). Two products may wrap, `fatsz * bytes_per_sector` in
the number of FAT entries being one of them; a wrapped number is smaller
than the true one, so the clamp only cuts off more. `FatMount.toMount` is
the mount that the rest of the driver's model works on.
-/

namespace Lnxrm.Fat32

variable {dev : BlkDev} {kmalloc : ℕ → Bool} {m : FatMount}

theorem u16At_lt (b : Sector) (off : ℕ) : u16At b off < 2 ^ 16 := by
  have h0 := (b off).toNat_lt
  have h1 := (b (off + 1)).toNat_lt
  unfold u16At
  omega

theorem u32At_lt (b : Sector) (off : ℕ) : u32At b off < 2 ^ 32 := by
  have h0 := u16At_lt b off
  have h1 := u16At_lt b (off + 2)
  unfold u32At
  omega

/-- **What `fat_mount` has checked** when it succeeds on a device with
512-byte sectors: `totsec` is the number of sectors after the clamp to the
device. -/
structure FatMount.Checked (dev : BlkDev) (m : FatMount) (totsec : ℕ) : Prop where
  bytesPerSector : m.bytesPerSector = 512
  spc_pos : 0 < m.sectorsPerCluster
  spc_lt : m.sectorsPerCluster < 256
  fatsz_pos : 0 < m.fatsz
  fatsz_lt : m.fatsz < 2 ^ 32
  root_ge : 2 ≤ m.rootCluster
  root_lt : m.rootCluster < 2 ^ 32
  totsec_lt : totsec < 2 ^ 32
  totsec_le : totsec ≤ dev.numSectors
  fatArea : m.reservedSectors + m.numFats * m.fatsz ≤ m.dataStartLba
  oneFat : 1 ≤ m.numFats
  dataStart : m.dataStartLba < totsec
  maxByDisk : m.maxCluster ≤ (totsec - m.dataStartLba) / m.sectorsPerCluster + 2
  maxByFat : m.maxCluster ≤ 2 ∨ m.maxCluster < m.fatsz * 512 % 2 ^ 32 / 4
  fatBytes : m.fatBytes = m.fatsz * 512

theorem fatMount_checked (hsec : dev.sectorSize = 512) (hnum : 0 < dev.numSectors)
    (h : fatMount dev kmalloc = some m) : ∃ totsec, m.Checked dev totsec := by
  unfold fatMount at h
  cases hread : dev.read 0 1 with
  | none => simp [hread] at h
  | some bpb =>
    simp only [hread] at h
    have hfat32 := u32At_lt bpb 36
    have hfat16 := u16At_lt bpb 22
    have htot32 := u32At_lt bpb 32
    have htot16 := u16At_lt bpb 19
    have hroot := u32At_lt bpb 44
    have hres := u16At_lt bpb 14
    have hents := u16At_lt bpb 17
    have hspc := (bpb 13).toNat_lt
    generalize hfs : (if u16At bpb 22 ≠ 0 then u16At bpb 22 else u32At bpb 36) = fatsz at h
    generalize hts : (if u16At bpb 19 ≠ 0 then u16At bpb 19 else u32At bpb 32) = tot at h
    have hfatsz : fatsz < 2 ^ 32 := by
      rw [← hfs]
      split <;> omega
    have htot : tot < 2 ^ 32 := by
      rw [← hts]
      split <;> omega
    split at h
    · simp at h
    rename_i hvalid
    obtain ⟨hbps, -, hspc0, hfatsz0, hres0, hnf, hroot2, -⟩ : u16At bpb 11 = dev.sectorSize ∧
        u16At bpb 11 ≤ 4096 ∧ (bpb 13).toNat ≠ 0 ∧ fatsz ≠ 0 ∧ u16At bpb 14 ≠ 0 ∧
        ((bpb 16).toNat = 1 ∨ (bpb 16).toNat = 2) ∧ 2 ≤ u32At bpb 44 ∧
        ¬ (u16At bpb 22 ≠ 0 ∧ (bpb 13).toNat ≠ 0) := by
      refine ⟨?_, ?_, ?_, ?_, ?_, ?_, ?_, ?_⟩ <;> omega
    rw [hsec] at hbps
    rw [hbps] at h
    generalize htc : (if tot ≠ 0 ∧ dev.numSectors ≠ 0 ∧ dev.numSectors < tot then
      dev.numSectors % 2 ^ 32 else tot) = totsec at h
    have htotsec : totsec < 2 ^ 32 ∧ totsec ≤ dev.numSectors := by
      rw [← htc]
      split
      · constructor
        · exact Nat.mod_lt _ (by decide)
        · exact Nat.mod_le _ _
      · omega
    generalize hrs : (u16At bpb 17 * 32 + 512 + (2 ^ 32 - 1)) % 2 ^ 32 / 512 = rootSectors at h
    have hrootSectors : rootSectors < 2 ^ 23 := by omega
    have hnfats : (bpb 16).toNat * fatsz < 2 ^ 34 := by
      rcases hnf with h1 | h1
      · rw [h1]
        omega
      · rw [h1]
        omega
    have hdata : (u16At bpb 14 + (bpb 16).toNat * fatsz + rootSectors) % 2 ^ 64 =
        u16At bpb 14 + (bpb 16).toNat * fatsz + rootSectors := Nat.mod_eq_of_lt (by omega)
    rw [hdata] at h
    have hbytes : fatsz * 512 % 2 ^ 64 = fatsz * 512 := Nat.mod_eq_of_lt (by omega)
    rw [hbytes] at h
    generalize hds : u16At bpb 14 + (bpb 16).toNat * fatsz + rootSectors = dataStart at h
    split at h
    · simp at h
    rename_i hlt
    generalize hmd : (if dataStart < totsec then
      ((totsec - dataStart) / (bpb 13).toNat + 2) % 2 ^ 32 else 2) = maxDisk at h
    have hmaxDisk : maxDisk ≤ (totsec - dataStart) / (bpb 13).toNat + 2 := by
      rw [← hmd]
      split
      · exact Nat.mod_le _ _
      · omega
    generalize hmc : (if fatsz * 512 % 2 ^ 32 / 4 ≤ maxDisk then
      if fatsz * 512 % 2 ^ 32 / 4 ≠ 0 then fatsz * 512 % 2 ^ 32 / 4 - 1 else 2
      else maxDisk) = maxCluster at h
    -- both clamps: the FAT's number of entries, wrapped or not, and the disk
    have hmax : maxCluster ≤ (totsec - dataStart) / (bpb 13).toNat + 2 ∧
        (maxCluster ≤ 2 ∨ maxCluster < fatsz * 512 % 2 ^ 32 / 4) := by
      rw [← hmc]
      generalize (totsec - dataStart) / (bpb 13).toNat = clusters at hmaxDisk
      split
      · split <;> omega
      · omega
    split at h
    · simp at h
    cases hfat : dev.read (u16At bpb 14) fatsz with
    | none => simp [hfat] at h
    | some fat =>
      simp only [hfat, Option.some.injEq] at h
      subst h
      exact ⟨totsec, rfl, Nat.pos_of_ne_zero hspc0, hspc, Nat.pos_of_ne_zero hfatsz0, hfatsz, hroot2,
        hroot, htotsec.1, htotsec.2, hds ▸ Nat.le_add_right _ _, by show 1 ≤ (bpb 16).toNat; omega,
        Nat.lt_of_not_le hlt, hmax.1, hmax.2, rfl⟩

namespace FatMount.Checked

variable {totsec : ℕ}

/-- The FAT has room for the entry of every cluster, and its offset does
not wrap. -/
theorem fatOffset_lt (h : m.Checked dev totsec) {c : ℕ} (hc : c < m.maxCluster) :
    fatOffset c = c * 4 ∧ c * 4 + 4 ≤ m.fatsz * 512 := by
  have hpos := h.fatsz_pos
  unfold fatOffset
  rcases h.maxByFat with hmax | hmax
  · omega
  · omega

theorem clusterLba_eq (h : m.Checked dev totsec) {c : ℕ} (h2 : 2 ≤ c) (hc : c < m.maxCluster) :
    m.clusterLba c = m.dataStartLba + (c - 2) * m.sectorsPerCluster ∧
      m.dataStartLba + (c - 2) * m.sectorsPerCluster + m.sectorsPerCluster ≤ totsec := by
  have hmax := h.maxByDisk
  have htot := h.totsec_lt
  have hquot : (totsec - m.dataStartLba) / m.sectorsPerCluster ≤ totsec - m.dataStartLba :=
    Nat.div_le_self _ _
  have hsub : (c + (2 ^ 32 - 2)) % 2 ^ 32 = c - 2 := by omega
  have hroom : (c - 2) * m.sectorsPerCluster + m.sectorsPerCluster ≤ totsec - m.dataStartLba := by
    calc (c - 2) * m.sectorsPerCluster + m.sectorsPerCluster
        = (c - 2 + 1) * m.sectorsPerCluster := (Nat.succ_mul _ _).symm
      _ ≤ (totsec - m.dataStartLba) / m.sectorsPerCluster * m.sectorsPerCluster :=
          Nat.mul_le_mul_right _ (by omega)
      _ ≤ totsec - m.dataStartLba := Nat.div_mul_le_self _ _
  have hwrap : m.dataStartLba + (c - 2) * m.sectorsPerCluster < 2 ^ 64 := by omega
  unfold FatMount.clusterLba
  rw [hsub, Nat.mod_eq_of_lt hwrap]
  exact ⟨rfl, by omega⟩

end FatMount.Checked

/-- **A mounted volume lies on its device.** The FAT entry of every cluster
below `max_cluster` lies in the cached FAT and is written back to a sector
of the FAT; the sectors of every cluster lie in the data area and on the
device; and the FAT area ends where the data area begins, or before. -/
theorem fatMount_inside (hsec : dev.sectorSize = 512) (hnum : 0 < dev.numSectors)
    (h : fatMount dev kmalloc = some m) :
    (∀ c < m.maxCluster, fatOffset c + 4 ≤ m.fatBytes ∧ m.reservedSectors ≤ m.writeBack c ∧
        m.writeBack c < m.reservedSectors + m.fatsz) ∧
      (∀ c, 2 ≤ c → c < m.maxCluster → m.dataStartLba ≤ m.clusterLba c ∧
        m.clusterLba c + m.sectorsPerCluster ≤ dev.numSectors) ∧
      m.reservedSectors + m.numFats * m.fatsz ≤ m.dataStartLba := by
  obtain ⟨totsec, hm⟩ := fatMount_checked hsec hnum h
  refine ⟨fun c hc => ?_, fun c h2 hc => ?_, hm.fatArea⟩
  · obtain ⟨hoff, hroom⟩ := hm.fatOffset_lt hc
    rw [FatMount.writeBack, hoff, hm.bytesPerSector, hm.fatBytes]
    omega
  · obtain ⟨hlba, hroom⟩ := hm.clusterLba_eq h2 hc
    have hle := hm.totsec_le
    rw [hlba]
    omega

/-- A boot sector with one cluster a sector, two FATs of one sector and
`totsec` sectors. -/
def smallBoot (totsec : UInt8) : Sector := fun i =>
  match i with
  | 12 => 2
  | 13 => 1
  | 14 => 1
  | 16 => 2
  | 19 => totsec
  | 36 => 1
  | 44 => 2
  | _ => 0

/-- A device of `n` sectors that holds it. -/
def smallDev (n : ℕ) (totsec : UInt8) : BlkDev where
  sectorSize := 512
  numSectors := n
  read := fun lba _ => some fun i => if lba = 0 then smallBoot totsec i else 0

/-- A boot sector that promises more sectors than the device has is cut to
the device. -/
theorem smallDev_inside : ∃ m, fatMount (smallDev 20 200) (fun _ => true) = some m ∧
    m.maxCluster = 19 ∧ ∀ c, 2 ≤ c → c < m.maxCluster → m.dataStartLba ≤ m.clusterLba c ∧
      m.clusterLba c + m.sectorsPerCluster ≤ 20 := by
  have hmax : (fatMount (smallDev 20 200) fun _ => true).map (·.maxCluster) = some 19 := by
    simp [fatMount, smallDev, u16At, u32At, smallBoot]
  obtain ⟨m, hm, hmax⟩ := Option.map_eq_some_iff.mp hmax
  exact ⟨m, hm, hmax, (fatMount_inside rfl (by decide) hm).2.1⟩

/-- **The mount of the driver's model**, when the cached FAT fits a block of
`kmalloc`. -/
def FatMount.toMount {totsec : ℕ} (m : FatMount) (h : m.Checked dev totsec)
    (hroom : m.fatBytes ≤ 2 ^ 22) (junk : Sector) : Mount where
  sectorsPerCluster := m.sectorsPerCluster
  reservedSectors := m.reservedSectors
  rootCluster := m.rootCluster
  dataStartLba := m.dataStartLba
  maxCluster := m.maxCluster
  junk := junk
  spc_pos := h.spc_pos
  spc_lt := h.spc_lt
  root_ge := h.root_ge
  root_lt := h.root_lt
  max_le := by
    have hbytes := h.fatBytes
    by_contra hmax
    obtain ⟨-, hfat⟩ := h.fatOffset_lt (c := m.maxCluster - 1) (by omega)
    omega
  fat_below c hc := by
    obtain ⟨-, hfat⟩ := h.fatOffset_lt hc
    have harea := h.fatArea
    have hone : 1 * m.fatsz ≤ m.numFats * m.fatsz := Nat.mul_le_mul_right _ h.oneFat
    unfold sectorSize
    omega

theorem FatMount.toMount_clusterLba {totsec : ℕ} (h : m.Checked dev totsec)
    (hroom : m.fatBytes ≤ 2 ^ 22) (junk : Sector) {c : ℕ} (h2 : 2 ≤ c) (hc : c < m.maxCluster) :
    Fat32.clusterLba (m.toMount h hroom junk) c = m.clusterLba c := by
  obtain ⟨hlba, hroom'⟩ := h.clusterLba_eq h2 hc
  have hmax : m.maxCluster ≤ 2 ^ 20 := (m.toMount h hroom junk).max_le
  have hsub : (c + (2 ^ 32 - 2)) % 2 ^ 32 = c - 2 := by omega
  rw [hlba]
  unfold Fat32.clusterLba
  rw [hsub]
  rfl

end Lnxrm.Fat32
