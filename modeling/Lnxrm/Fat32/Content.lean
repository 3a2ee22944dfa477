import Lnxrm.Fat32.Helpers.FileIo
import Lnxrm.Fat32.Mounted
import Mathlib.Algebra.Order.Floor.Div

/-!
# FAT32 — what a file reads back after a write

A write through a handle goes through the cache and the journal; a read
takes another way, straight to the device. After a write the read returns
the old bytes with the written ones over them, up to the larger of the old
size and the end of the write — with two exceptions, which
`contentLaw_iff` states exactly. A write of no bytes to a file without a
chain fails with `EIO`, because `alloc_chain` returns the head `0` of the
empty chain as if the disk were full. And a read whose end wraps around
`2^64` is not cut to the size.
-/

namespace Lnxrm.Fat32

variable {δ : Type} [DecidableEq δ] {m : Mount} {dev : δ} {s : Fs δ} {h : Resolve} {l ld : List ℕ}
variable {off n off' n' : ℕ} {buf ubuf : ℕ → UInt8} {data : ℕ → Sector}

/-- The handle is on a regular file: its chain has room for its size, and
its parent directory's chain is another one. -/
structure OnFile (m : Mount) (fat : ℕ → ℕ) (h : Resolve) (l ld : List ℕ) : Prop where
  regular : h.de.isDir = false
  chain : HasChain m fat h.de.clus l
  room : h.de.filesize ≤ capacity m l
  parent : HasChain m fat h.dirCluster ld
  apart : l.Disjoint ld

/-- The clusters a file of this size needs. -/
def clustersOf (m : Mount) (size : ℕ) : ℕ := (size + m.clusterSize - 1) / m.clusterSize

/-- The size of the file after the write. -/
def sizeAfter (h : Resolve) (off n : ℕ) : ℕ := max h.de.filesize (off + n)

/-- The bytes the chain has room for after the write. -/
def roomAfter (m : Mount) (l : List ℕ) (size : ℕ) : ℕ :=
  max l.length (clustersOf m size) * m.clusterSize

/-- The contents of the file after the write. -/
def contentAfter (m : Mount) (data : ℕ → Sector) (l : List ℕ) (off n : ℕ) (buf : ℕ → UInt8)
    (i : ℕ) : UInt8 :=
  if off ≤ i ∧ i < off + n then buf (i - off) else byteAt m data l i

/-- **The law**: the write returns `n`, and then the read returns the
bytes of the new contents. -/
def ContentLaw (m : Mount) (dev : δ) (s : Fs δ) (h : Resolve) (l : List ℕ) (off n : ℕ)
    (buf : ℕ → UInt8) (off' n' : ℕ) (ubuf : ℕ → UInt8) : Prop :=
  let count := min n' (min (sizeAfter h off n - off') maxIo)
  ∃ h' s', Fs.call m dev (fatWriteImpl m h off (some buf) n) s = some (((n : Int), h'), s') ∧
    ∃ out s'', Fs.call m dev (fatReadImpl m h' off' (some ubuf) n') s' =
        some (((count : Int), some out), s'') ∧
      ∀ i < count, out i = contentAfter m (s.storage.blk.disks.sector dev) l off n buf (off' + i)

theorem clustersFor_eq (hsize : n < 2 ^ 40) : clustersFor m n = clustersOf m n := by
  have hspc := m.spc_lt
  have hpos := m.spc_pos
  unfold clustersFor clustersOf
  simp only [Mount.clusterSize, sectorSize]
  generalize m.sectorsPerCluster = spc at hspc hpos
  have hlt : n + 512 * spc - 1 < 2 ^ 64 := by omega
  rw [Nat.mod_eq_of_lt hlt]
  refine Nat.mod_eq_of_lt ((Nat.div_lt_iff_lt_mul (by omega)).mpr ?_)
  omega

theorem le_clustersOf_mul (m : Mount) (size : ℕ) : size ≤ clustersOf m size * m.clusterSize := by
  have h := le_smul_ceilDiv (b := size) m.clusterSize_pos
  rwa [Nat.ceilDiv_eq_add_pred_div, smul_eq_mul, Nat.mul_comm] at h

theorem byteAt_append {data : ℕ → Sector} {ext : List ℕ} {i : ℕ} (hi : i < capacity m l) :
    byteAt m data (l ++ ext) i = byteAt m data l i := by
  unfold byteAt
  rw [sectors_append, List.getD_append _ _ _ _ (lt_length_sectors hi)]

theorem byteAt_writtenBack {data : ℕ → Sector} {de : Dirent} {i : ℕ}
    (hdis : (sectors m l).Disjoint (sectors m ld)) (hi : i < capacity m l) :
    byteAt m (writtenBack de (slots m ld) data) l i = byteAt m data l i := by
  have hmem := getD_mem_sectors (lt_length_sectors hi)
  unfold byteAt
  rw [writtenBack_of_not_mem fun hin => hdis hmem hin]

theorem grownRecord_filesize {de : Dirent} {head : ℕ} (hend : off + n < 2 ^ 32) :
    (grownRecord de head off n).filesize = max de.filesize (off + n) := by
  have hsz := de.filesize_lt
  have hmod : (off + n) % 2 ^ 64 = off + n := Nat.mod_eq_of_lt (by omega)
  unfold grownRecord needBytes
  rw [hmod]
  rw [Dirent.filesize_setSize (by split <;> omega)]
  split <;> omega

theorem grownRecord_clus {de : Dirent} {head : ℕ} (hhead : head < 2 ^ 32) :
    (grownRecord de head off n).clus = head := by
  unfold grownRecord
  rw [Dirent.clus_setSize, Dirent.clus_setClus hhead]

theorem grownRecord_isDir {de : Dirent} {head : ℕ} :
    (grownRecord de head off n).isDir = de.isDir := by
  simp [grownRecord, Dirent.isDir]

/-- The clusters `alloc_chain` is asked for. -/
def wantedClusters (m : Mount) (h : Resolve) (off n : ℕ) : ℕ :=
  clustersFor m (needBytes h.de off (clampIo n))

/-- The clusters can be had, and there is one at least. -/
def Allocates (m : Mount) (fat : ℕ → ℕ) (h : Resolve) (l : List ℕ) (off n : ℕ) : Prop :=
  wantedClusters m h off n ≤ l.length + (freeClusters m fat).length ∧
    (l ≠ [] ∨ wantedClusters m h off n ≠ 0)

/-! ## The outcomes of a write -/

theorem Grown.length_le {fat fat' : ℕ → ℕ} {ext : List ℕ} {c head : ℕ} (h : Grown m fat c l ext fat' head) :
    ext.length ≤ (freeClusters m fat).length :=
  (List.subperm_of_subset h.nodup fun x hx => mem_freeClusters.mpr (h.free x hx)).length_le

/-- **A write succeeds** if the clusters can be had, and leaves the volume
so. -/
theorem write_allocates (buf : ℕ → UInt8) (hb : Backs m dev s (.settled data s.fat))
    (hf : OnFile m s.fat h l ld) (hok : Allocates m s.fat h l off n) :
    ∃ ext fat' head s', Grown m s.fat h.de.clus l ext fat' head ∧
      ext.length = wantedClusters m h off n - l.length ∧
      Fs.call m dev (fatWriteImpl m h off (some buf) n) s =
        some ((((min (clampIo n) (capacity m (l ++ ext) - off) : ℕ) : Int),
          { h with de := grownRecord h.de head off (clampIo n) }), s') ∧
      Backs m dev s' (.settled (writtenBack (grownRecord h.de head off (clampIo n)) (slots m ld)
        (overwrite m (l ++ ext) off (min (clampIo n) (capacity m (l ++ ext) - off)) buf
          data)) fat') := by
  suffices hwp : Prog.wp (volume m) (fatWriteImpl m h off (some buf) n) (fun r v' =>
      ∃ ext fat' head, Grown m s.fat h.de.clus l ext fat' head ∧
        ext.length = wantedClusters m h off n - l.length ∧
        r = ((((min (clampIo n) (capacity m (l ++ ext) - off) : ℕ) : Int),
          { h with de := grownRecord h.de head off (clampIo n) })) ∧
        v' = .settled (writtenBack (grownRecord h.de head off (clampIo n)) (slots m ld)
          (overwrite m (l ++ ext) off (min (clampIo n) (capacity m (l ++ ext) - off)) buf
            data)) fat')
      (.settled data s.fat) by
    obtain ⟨r, s', v', hcall, ⟨ext, fat', head, hg, hlen, rfl, rfl⟩, hb'⟩ := hb.call hwp
    exact ⟨ext, fat', head, s', hg, hlen, hcall, hb'⟩
  refine wp_fatWriteImpl rfl hf.regular hf.chain hf.parent hf.apart
    (fun ext fat' head hg hlen _ => ⟨ext, fat', head, hg, hlen, rfl, rfl⟩) ?_
  intro ext fat' head hg hcase
  exfalso
  obtain ⟨hfree, hsome⟩ := hok
  rcases hcase with ⟨hnil, hlen⟩ | ⟨hlen, hno⟩
  · obtain ⟨rfl, rfl⟩ := List.append_eq_nil_iff.mp hnil
    rcases hsome with hne | hne
    · exact hne rfl
    · rw [List.length_nil] at hlen
      exact hne (by rw [wantedClusters]; simpa using hlen.symm)
  · have hall : (freeClusters m s.fat).length ≤ ext.length := hg.free_le hf.chain hno
    rw [wantedClusters] at hfree
    omega

/-- **A write fails** if they cannot. -/
theorem write_fails (buf : ℕ → UInt8) (hb : Backs m dev s (.settled data s.fat))
    (hf : OnFile m s.fat h l ld) (hno : ¬ Allocates m s.fat h l off n) :
    ∃ s', Fs.call m dev (fatWriteImpl m h off (some buf) n) s = some ((Errno.eio, h), s') := by
  have hwp : Prog.wp (volume m) (fatWriteImpl m h off (some buf) n) (fun r _ => r = (Errno.eio, h))
      (.settled data s.fat) := by
    refine wp_fatWriteImpl rfl hf.regular hf.chain hf.parent hf.apart ?_ fun _ _ _ _ _ => rfl
    intro ext fat' head hg hlen hne
    refine absurd ⟨?_, ?_⟩ hno
    · have hle : ext.length ≤ (freeClusters m s.fat).length := hg.length_le
      rw [wantedClusters]
      omega
    by_cases hl : l = []
    · right
      intro hzero
      rw [wantedClusters] at hzero
      rw [hzero, Nat.zero_sub] at hlen
      exact hne (by rw [hl, List.length_eq_zero_iff.mp hlen, List.append_nil])
    · exact Or.inl hl
  obtain ⟨r, s', v', hcall, rfl, -⟩ := hb.call hwp
  exact ⟨s', hcall⟩

/-! ## The two calls -/

/-- A write that has something to write, or a chain to write to, succeeds
and leaves the volume with the new contents. -/
theorem write_runs (buf : ℕ → UInt8) (hs : Mounted m dev s) (hf : OnFile m s.fat h l ld) (hn : n ≤ maxIo)
    (hend : off + n < 2 ^ 32)
    (hfree : clustersOf m (sizeAfter h off n) ≤ l.length + (freeClusters m s.fat).length)
    (hsome : n ≠ 0 ∨ l ≠ []) :
    ∃ ext fat' head s', Grown m s.fat h.de.clus l ext fat' head ∧
      capacity m (l ++ ext) = roomAfter m l (sizeAfter h off n) ∧
      Fs.call m dev (fatWriteImpl m h off (some buf) n) s =
        some (((n : Int), { h with de := grownRecord h.de head off n }), s') ∧
      Backs m dev s' (.settled (writtenBack (grownRecord h.de head off n) (slots m ld)
        (overwrite m (l ++ ext) off n buf (s.storage.blk.disks.sector dev))) fat') := by
  have hclamp : clampIo n = n := if_neg (by omega)
  have hneed : needBytes h.de off n = sizeAfter h off n := by
    rw [needBytes, sizeAfter, Nat.mod_eq_of_lt (by omega), max_comm]
  have hlt : sizeAfter h off n < 2 ^ 32 := by
    have := h.de.filesize_lt
    unfold sizeAfter
    omega
  have hK : wantedClusters m h off n = clustersOf m (sizeAfter h off n) := by
    rw [wantedClusters, hclamp, hneed, clustersFor_eq (by omega)]
  have hroom := le_clustersOf_mul m (sizeAfter h off n)
  have hle : off + n ≤ sizeAfter h off n := le_max_right _ _
  have hone : l ≠ [] ∨ wantedClusters m h off n ≠ 0 := by
    refine hsome.symm.imp_right fun hn₀ hzero => ?_
    rw [← hK, hzero] at hroom
    omega
  obtain ⟨ext, fat', head, s', hg, hlen, hcall, hb⟩ :=
    write_allocates buf hs.backs hf ⟨hK ▸ hfree, hone⟩
  have hcap : capacity m (l ++ ext) = roomAfter m l (sizeAfter h off n) := by
    rw [capacity, roomAfter, List.length_append]
    congr 1
    omega
  have hdone : min (clampIo n) (capacity m (l ++ ext) - off) = n := by
    have hmono : clustersOf m (sizeAfter h off n) * m.clusterSize ≤ capacity m (l ++ ext) := by
      rw [hcap, roomAfter]
      exact Nat.mul_le_mul_right _ (le_max_right _ _)
    rw [hclamp]
    omega
  rw [hdone, hclamp] at hcall hb
  exact ⟨ext, fat', head, s', hg, hcap, hcall, hb⟩

theorem read_runs (off n : ℕ) (ubuf : ℕ → UInt8) {data : ℕ → Sector} {fat : ℕ → ℕ}
    (hb : Backs m dev s (.settled data fat)) (hreg : h.de.isDir = false)
    (hchain : HasChain m fat h.de.clus l) :
    ∃ out s', Fs.call m dev (fatReadImpl m h off (some ubuf) n) s =
        some ((((readCount m l h.de.filesize off n : ℕ) : Int), some out), s') ∧
      ∀ i < readCount m l h.de.filesize off n, out i = byteAt m data l (off + i) := by
  have hwp : Prog.wp (volume m) (fatReadImpl m h off (some ubuf) n) (fun r _ =>
      ∃ out : ℕ → UInt8, r = (((readCount m l h.de.filesize off n : ℕ) : Int), some out) ∧
        ∀ i < readCount m l h.de.filesize off n, out i = byteAt m data l (off + i))
      (.settled data fat) := by
    refine wp_fatReadImpl hreg hchain (fun _ _ hd => hd) fun out hout => ⟨out, rfl, fun i hi => ?_⟩
    rw [hout, if_pos hi]
    rfl
  obtain ⟨r, s', v', hcall, ⟨out, rfl, hout⟩, -⟩ := hb.call hwp
  exact ⟨out, s', hcall, hout⟩

/-- When `fat_read_impl` returns the count it should: unless the end of
the request wraps around to below the size, in which case it must be cut
by the limit of one call or by the end of the chain. -/
theorem readCount_eq_iff {l' : List ℕ} {size : ℕ} (hsize : size < 2 ^ 32)
    (hcap : size ≤ capacity m l') (hoff : off' < 2 ^ 64) (hn : n' < 2 ^ 64) :
    readCount m l' size off' n' = min n' (min (size - off') maxIo) ↔
      off' + n' < 2 ^ 64 ∨ size ≤ off' ∨ size < (off' + n') % 2 ^ 64 ∨ maxIo ≤ size - off' ∨
        capacity m l' = size := by
  unfold readCount readLen clampIo maxIo
  generalize capacity m l' = cap at hcap
  split_ifs <;> omega

theorem write_nothing_fails (buf : ℕ → UInt8) (hs : Mounted m dev s) (hf : OnFile m s.fat h [] ld) (hoff : off = 0) :
    ∃ s', Fs.call m dev (fatWriteImpl m h off (some buf) 0) s = some ((Errno.eio, h), s') := by
  have hsize : h.de.filesize = 0 := by
    have := hf.room
    simp only [capacity, List.length_nil, Nat.zero_mul] at this
    omega
  have hK : wantedClusters m h off 0 = 0 := by
    have hneed : needBytes h.de off (clampIo 0) = 0 := by
      rw [hoff, needBytes, hsize]
      rfl
    rw [wantedClusters, hneed, clustersFor_eq (by omega), clustersOf, Nat.zero_add]
    exact Nat.div_eq_of_lt (by have := m.clusterSize_pos; omega)
  exact write_fails buf hs.backs hf fun hok => hok.2.elim (fun h => h rfl) fun h => h hK

/-- **What a file reads back after a write.** For a handle on a regular
file whose chain has room for its size, with the cache clean, devices
that do not fail and free clusters enough, the law holds exactly when
there is something to write or a chain to write to, and the end of the
read does not wrap around to below the size — unless the limit of one
call or the end of the chain cuts the read to the size anyway. -/
theorem contentLaw_iff (hs : Mounted m dev s) (hf : OnFile m s.fat h l ld)
    (hoff : off ≤ h.de.filesize) (hn : n ≤ maxIo) (hend : off + n < 2 ^ 32)
    (hfree : clustersOf m (sizeAfter h off n) ≤ l.length + (freeClusters m s.fat).length)
    (hoff' : off' < 2 ^ 64) (hn' : n' < 2 ^ 64) :
    ContentLaw m dev s h l off n buf off' n' ubuf ↔ (n ≠ 0 ∨ l ≠ []) ∧
      (off' + n' < 2 ^ 64 ∨ sizeAfter h off n ≤ off' ∨ sizeAfter h off n < (off' + n') % 2 ^ 64 ∨
        maxIo ≤ sizeAfter h off n - off' ∨
        roomAfter m l (sizeAfter h off n) = sizeAfter h off n) := by
  by_cases hsome : n ≠ 0 ∨ l ≠ []
  · obtain ⟨ext, fat', head, s', hg, hcap, hcall, hb⟩ := write_runs buf hs hf hn hend hfree hsome
    have hchain := hg.chain
    have hsize : (grownRecord h.de head off n).filesize = sizeAfter h off n :=
      grownRecord_filesize hend
    have hlt : sizeAfter h off n < 2 ^ 32 := hsize ▸ Dirent.filesize_lt _
    have hroom : sizeAfter h off n ≤ capacity m (l ++ ext) := by
      rw [hcap, roomAfter]
      exact (le_clustersOf_mul m _).trans (Nat.mul_le_mul_right _ (le_max_right _ _))
    have hreg : (grownRecord h.de head off n).isDir = false := grownRecord_isDir.trans hf.regular
    have hclus : (grownRecord h.de head off n).clus = head := grownRecord_clus hchain.first_lt
    obtain ⟨out, s'', hread, hout⟩ :=
      read_runs off' n' ubuf (h := { h with de := grownRecord h.de head off n }) hb hreg
        (hclus.symm ▸ hchain)
    simp only [hsize] at hread hout
    rw [← hcap, ← readCount_eq_iff hlt hroom hoff' hn']
    constructor
    · rintro ⟨h₁, s₁, hw, out₁, s₂, hr, -⟩
      obtain ⟨rfl, rfl⟩ : _ ∧ s' = s₁ := by simpa using hcall.symm.trans hw
      rw [hread] at hr
      have hcount := congrArg (Option.map fun r => r.1.1) hr
      exact ⟨hsome, Int.ofNat_inj.mp (Option.some.inj hcount)⟩
    rintro ⟨-, hcount⟩
    rw [hcount] at hread hout
    refine ⟨_, s', hcall, out, s'', hread, fun i hi => ?_⟩
    have hin : off' + i < sizeAfter h off n := by omega
    obtain ⟨-, hdis⟩ := hg.other hf.parent hf.apart
    rw [hout i hi, byteAt_writtenBack (sectors_disjoint hchain.range hf.parent.range hdis) (by omega),
      byteAt_overwrite (nodup_sectors hchain.range_u32 hchain.nodup) (by omega), contentAfter]
    split
    · rfl
    · -- past the old size only written bytes are left
      rename_i hout
      have hroom := hf.room
      unfold sizeAfter at hin
      exact byteAt_append (by omega)
  obtain ⟨rfl, rfl⟩ : n = 0 ∧ l = [] := by simpa using hsome
  have hroom := hf.room
  simp only [capacity, List.length_nil, Nat.zero_mul] at hroom
  have hzero : off = 0 := by omega
  obtain ⟨s', hcall⟩ := write_nothing_fails buf hs hf hzero
  refine iff_of_false ?_ fun hc => hsome hc.1
  rintro ⟨h₁, s₁, hw, -⟩
  rw [hcall] at hw
  simp [Errno.eio] at hw

/-! ## Two files of a small volume -/

/-- Clusters 2 and 3 are chains of one cluster; the rest is free. -/
def smallFat (c : ℕ) : ℕ := if c = 2 ∨ c = 3 then 0x0FFFFFFF else 0

/-- A handle on a file in the root directory. -/
def smallHandle (clus size : ℕ) : Resolve where
  dirCluster := 2
  name := [65]
  de := (newRecord [65] attrArchive clus).setSize size

theorem smallHandle_onFile : OnFile smallMount smallFat (smallHandle 3 5) [3] [2] where
  regular := by decide
  chain := by decide
  room := by decide
  parent := by decide
  apart := by simp

theorem emptyHandle_onFile : OnFile smallMount smallFat (smallHandle 0 0) [] [2] where
  regular := by decide
  chain := by decide
  room := by decide
  parent := by decide
  apart := by simp

/-- Four bytes written at offset 2 of the file of five, and ten read from
offset 1. -/
theorem smallFile_contentLaw :
    ContentLaw smallMount () (freshFs (fun _ _ => 0) smallFat) (smallHandle 3 5) [3] 2 4
      (fun i => UInt8.ofNat (i + 1)) 1 10 (fun _ => 0) :=
  (contentLaw_iff (freshFs_mounted _ _ _) smallHandle_onFile (by decide) (by decide) (by decide)
    (by decide) (by decide) (by decide)).mpr ⟨Or.inl (by decide), Or.inl (by decide)⟩

/-- No bytes written to the empty file: the call fails. -/
theorem emptyFile_not_contentLaw : Mounted smallMount () (freshFs (fun _ _ => 0) smallFat) ∧
      OnFile smallMount smallFat (smallHandle 0 0) [] [2] ∧
      clustersOf smallMount (sizeAfter (smallHandle 0 0) 0 0) ≤
        (freeClusters smallMount smallFat).length ∧
      ¬ ContentLaw smallMount () (freshFs (fun _ _ => 0) smallFat) (smallHandle 0 0) [] 0 0
        (fun _ => 0) 0 0 (fun _ => 0) := by
  refine ⟨freshFs_mounted _ _ _, emptyHandle_onFile, by decide, ?_⟩
  obtain ⟨s', hcall⟩ := write_nothing_fails (fun _ => 0)
    (freshFs_mounted smallMount (fun _ _ => 0) smallFat) emptyHandle_onFile rfl
  rintro ⟨h₁, s₁, hw, -⟩
  rw [hcall] at hw
  simp [Errno.eio] at hw

end Lnxrm.Fat32
