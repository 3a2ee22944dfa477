import Lnxrm.Fat32.Scans

/-!
# FAT32 — the size of a file after a write

`fat_write_impl` computes the end of a write in 64 bits, the clusters it
needs in 32, and keeps the size in 32. As long as the write ends below
4 GiB it leaves the larger of the old size and the end of what it wrote,
in the handle and in the record, and a chain long enough for it. A write
that would end further out should fail; it does so only where the
allocation happens to, and otherwise the size it leaves is wrong
(`sizeExact_iff`).
-/

namespace Lnxrm.Fat32

open Prog (wp)

variable {δ : Type} [DecidableEq δ] {m : Mount} {dev : δ} {s : Fs δ} {h : Resolve} {l ld ext : List ℕ}
  {off n : ℕ} {buf : ℕ → UInt8} {p : DirentPos} {de : Dirent} {head : ℕ}

/-- **The size is exact.** The write returns; if it does not fail, the size
in the handle and the one in the record at `p` are the larger of the old
size and the end of what was written, and the chain has the clusters for
it. -/
def SizeExact (m : Mount) (dev : δ) (s : Fs δ) (h : Resolve) (p : DirentPos) (off n : ℕ)
    (buf : ℕ → UInt8) : Prop :=
  ∃ (d : Int) (h' : Resolve) (s' : Fs δ),
    Fs.call m dev (fatWriteImpl m h off (some buf) n) s = some ((d, h'), s') ∧
      (0 ≤ d → (h'.de.filesize : Int) = max (h.de.filesize : Int) (off + d) ∧
        ((recOf (s'.contents dev) p).filesize : Int) = max (h.de.filesize : Int) (off + d) ∧
        clustersOf m h'.de.filesize ≤ (chainOf m s'.fat h'.de.clus).length)

/-! ## The record -/

/-- The record the handle is about has the handle's size afterwards: the
file's sectors are not the directory's. -/
theorem filesize_writtenBack {data : ℕ → Sector} {k : ℕ} (hname : de.name = h.de.name)
    (hdis : (sectors m l).Disjoint (sectors m ld))
    (hfind : findIn data (matchRecord h.de.name) () (slots m ld) = .inr (true, p)) :
    (recOf (writtenBack de (slots m ld) (overwrite m l off k buf data)) p).filesize =
      de.filesize := by
  have hsame : ∀ q ∈ slots m ld, recOf (overwrite m l off k buf data) q = recOf data q := by
    intro q hq
    have hlba : overwrite m l off k buf data q.lba = data q.lba :=
      overwrite_of_not_mem fun hin => hdis hin (mem_slots.mp hq).1
    rw [recOf, recOf, hlba]
  have hfind' : findIn (overwrite m l off k buf data) (matchRecord de.name) () (slots m ld) =
      .inr (true, p) := by
    rw [hname, findIn_congr hsame]
    exact hfind
  rw [writtenBack, hfind']
  rw [recOf_putAt_self, refreshRecord]
  simp only [Dirent.filesize_setAttr, Dirent.filesize_setClus]
  exact Dirent.filesize_setSize de.filesize_lt

/-! ## The arithmetic -/

theorem min_capacity_eq (hend : off + clampIo n < 2 ^ 40)
    (hlen : ext.length = wantedClusters m h off n - l.length) :
    min (clampIo n) (capacity m (l ++ ext) - off) = clampIo n ∧
      clustersOf m (max h.de.filesize (off + clampIo n)) ≤ (l ++ ext).length := by
  have hsz := h.de.filesize_lt
  have hneed : needBytes h.de off (clampIo n) = max h.de.filesize (off + clampIo n) := by
    rw [needBytes, Nat.mod_eq_of_lt (by omega), max_comm]
  have hK : wantedClusters m h off n = clustersOf m (max h.de.filesize (off + clampIo n)) := by
    rw [wantedClusters, hneed, clustersFor_eq (by omega)]
  have hle : clustersOf m (max h.de.filesize (off + clampIo n)) ≤ (l ++ ext).length := by
    rw [List.length_append]
    omega
  have hroom := le_clustersOf_mul m (max h.de.filesize (off + clampIo n))
  have hcap : max h.de.filesize (off + clampIo n) ≤ capacity m (l ++ ext) :=
    hroom.trans (Nat.mul_le_mul_right _ hle)
  exact ⟨by omega, hle⟩

/-- **The size of a file is exact** after a write if the write ends below
4 GiB, or if its clusters cannot be had and it fails for that reason; in
every other case it is wrong. The handle is on a regular file whose chain
has room for its size, and its record, the first in use with its name, is
at `p`. -/
theorem sizeExact_iff (hs : Mounted m dev s) (hf : OnFile m s.fat h l ld)
    (hfind : findIn (s.contents dev) (matchRecord h.de.name) () (slots m ld) = .inr (true, p))
    (hoff : off < 2 ^ 64) :
    SizeExact m dev s h p off n buf ↔ off + clampIo n < 2 ^ 32 ∨ ¬ Allocates m s.fat h l off n := by
  have hN : clampIo n ≤ 2 ^ 20 := by
    unfold clampIo maxIo
    split_ifs <;> omega
  by_cases hok : Allocates m s.fat h l off n
  · obtain ⟨ext, fat', head, s', hg, hlen, hcall, hb⟩ := write_allocates buf hs.backs_contents hf hok
    obtain ⟨-, hdis⟩ := hg.other hf.parent hf.apart
    have hsectors := sectors_disjoint hg.chain.range hf.parent.range hdis
    have hrec : (recOf (s'.contents dev) p).filesize =
        (grownRecord h.de head off (clampIo n)).filesize := by
      have hge := slots_ge (mem_of_findIn hfind).1
      rw [recOf, Fs.contents, hb.view p.lba hge]
      exact filesize_writtenBack (by simp [grownRecord]) hsectors hfind
    have hchain : chainOf m s'.fat (grownRecord h.de head off (clampIo n)).clus = l ++ ext := by
      rw [hb.fat, grownRecord_clus hg.chain.first_lt]
      exact hg.chain.chainOf_eq
    constructor
    · rintro ⟨d, h', s'', hcall', hexact⟩
      cases hcall.symm.trans hcall'
      obtain ⟨hsize, -, -⟩ := hexact (Int.natCast_nonneg _)
      left
      by_contra hlarge
      have hlt := (grownRecord h.de head off (clampIo n)).filesize_lt
      by_cases hwrap : off + clampIo n < 2 ^ 40
      · obtain ⟨hmin, -⟩ := min_capacity_eq hwrap hlen
        rw [hmin] at hsize
        omega
      · omega
    rintro (hend | hno)
    · obtain ⟨hmin, hle⟩ := min_capacity_eq (by omega) hlen
      have hgrown : (grownRecord h.de head off (clampIo n)).filesize =
          max h.de.filesize (off + clampIo n) := grownRecord_filesize hend
      refine ⟨_, _, s', hcall, fun _ => ?_⟩
      rw [hmin, hrec, hchain, hgrown]
      exact ⟨by omega, by omega, hle⟩
    · exact absurd hok hno
  · obtain ⟨s', hcall⟩ := write_fails buf hs.backs_contents hf hok
    exact ⟨fun _ => Or.inr hok, fun _ => ⟨_, _, s', hcall, fun hd => absurd hd (by decide)⟩⟩

/-- Ten bytes over the five of a file: the size is 10. -/
theorem small_write_exact : SizeExact smallMount () (oneFileFs smallFat) (smallHandle 3 5) ⟨2, 0⟩ 0 10
    fun _ => 120 := by
  have hs : Mounted smallMount () (oneFileFs smallFat) := freshFs_mounted _ _ _
  have hfind : findIn ((oneFileFs smallFat).contents ()) (matchRecord (smallHandle 3 5).de.name) ()
      (slots smallMount [2]) = .inr (true, ⟨2, 0⟩) := by decide +kernel
  exact (sizeExact_iff hs smallHandle_onFile hfind (by decide)).mpr (Or.inl (by decide))

/-- **A write far beyond the end shrinks the file**: the number of clusters
for `2^41 + 4` bytes is 1 in 32 bits and the size is 4. Nothing is
written, and the call succeeds. -/
theorem far_write_inexact :
    (Fs.call smallMount () (fatWriteImpl smallMount (smallHandle 3 5) (2 ^ 41) (some fun _ => 120) 4)
        (oneFileFs smallFat)).map (fun r => (r.1.1, r.1.2.de.filesize,
          (recOf (r.2.contents ()) ⟨2, 0⟩).filesize)) = some (0, 4, 4) ∧
      ¬ SizeExact smallMount () (oneFileFs smallFat) (smallHandle 3 5) ⟨2, 0⟩ (2 ^ 41) 4
        fun _ => 120 := by
  have hrun : (Fs.call smallMount () (fatWriteImpl smallMount (smallHandle 3 5) (2 ^ 41)
      (some fun _ => 120) 4) (oneFileFs smallFat)).map (fun r => (r.1.1, r.1.2.de.filesize,
        (recOf (r.2.contents ()) ⟨2, 0⟩).filesize)) = some (0, 4, 4) := by decide +kernel
  refine ⟨hrun, ?_⟩
  rintro ⟨d, h', s', hcall, hexact⟩
  rw [hcall] at hrun
  simp only [Option.map_some, Option.some.injEq, Prod.mk.injEq] at hrun
  obtain ⟨rfl, hsize, -⟩ := hrun
  omega

end Lnxrm.Fat32
