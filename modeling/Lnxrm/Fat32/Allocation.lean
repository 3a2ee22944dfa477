import Lnxrm.Common.Partial
import Lnxrm.Fat32.Content
import Lnxrm.Fat32.Resting

/-!
# FAT32 — allocation, and writes that fail

`alloc_chain` reads and writes the FAT and nothing else, so what it does
is told by the FAT alone, whatever state the cache and the devices are in
(`allocChain_call`). It extends a chain by free clusters, one by one, and
changes nothing else (`allocChain_extends`); where the volume is full it
gives up, and leaves the clusters it has appended in the chain.
`fat_write_impl` does not take them back: a write that fails leaves the
FAT as it was exactly where there was nothing to append
(`failed_write_iff`).
-/

namespace Lnxrm.Fat32

open Prog (wlp wlp_bind wlp_pure wlp_perform Only only_pure only_perform Yields)

variable {δ : Type} [DecidableEq δ] {m : Mount} {dev : δ} {s s' : Fs δ} {fat fat' : ℕ → ℕ}
  {first head need off n : ℕ} {l ext : List ℕ} {β : Type}

/-- The operations on the cached FAT. -/
def OnTable : FatOp → Prop
  | .fatLoad _ => True
  | .fatStore _ _ => True
  | _ => False

theorem onTable_fatNextCluster (c : ℕ) : (fatNextCluster m c).Only OnTable := by
  unfold fatNextCluster
  split
  · exact only_pure _
  · exact Only.bind (only_perform trivial) fun _ => only_pure _

theorem onTable_fatSetEntry (c val : ℕ) : (fatSetEntry m c val).Only OnTable := by
  unfold fatSetEntry
  split
  · exact only_pure _
  · exact Only.bind (only_perform trivial) fun _ => only_perform (o := FatOp.fatStore _ _) trivial

theorem onTable_fatFindFreeCluster : (fatFindFreeCluster m).Only OnTable := by
  refine Only.bind (Only.forEach (fun _ i _ => ?_) ()) fun r => ?_
  · exact Only.bind (only_perform trivial) fun _ => only_pure _
  · cases r <;> exact only_pure _

theorem onTable_chainTail (fuel prev cnt c : ℕ) : (chainTail m fuel prev cnt c).Only OnTable := by
  induction fuel generalizing prev cnt c with
  | zero => trivial
  | succ fuel ih =>
    rw [chainTail]
    split
    · exact (onTable_fatNextCluster c).bind fun c' => ih _ _ c'
    · exact only_pure _

theorem onTable_appendClusters (missing prev head : ℕ) :
    (appendClusters m missing prev head).Only OnTable := by
  induction missing generalizing prev head with
  | zero => exact only_pure _
  | succ missing ih =>
    rw [appendClusters]
    refine onTable_fatFindFreeCluster.bind fun nc => ?_
    split
    · exact only_pure _
    · refine (onTable_fatSetEntry nc _).bind fun _ => ?_
      split
      · exact (onTable_fatSetEntry prev nc).bind fun _ => ih _ _
      · exact ih _ _

theorem onTable_allocChain (first need : ℕ) : (allocChain m first need).Only OnTable := by
  unfold allocChain chainEnd
  refine Only.bind ?_ fun _ => onTable_appendClusters _ _ _
  split
  · exact only_pure _
  · split
    · exact onTable_chainTail _ _ _ _
    · exact only_pure _

/-- **`alloc_chain` on any storage**: it returns; the chain has grown by
what was missing, or the volume is full. -/
theorem allocChain_call (dev : δ) (h : HasChain m s.fat first l) (need : ℕ) :
    ∃ ret s' ext head, Fs.call m dev (allocChain m first need) s = some (ret, s') ∧
      Grown m s.fat first l ext s'.fat head ∧
      (ret = head ∧ ext.length = clustersFor m need - l.length ∨
        ret = 0 ∧ ext.length < clustersFor m need - l.length ∧ ∀ x, ¬ IsFree m s'.fat x) := by
  have hsim : ∀ (o : FatOp) (s : Fs δ) (v : Vol), OnTable o → s.fat = v.fat → (volume m).guard o v →
      (fatImpl m dev o s).1 = ((volume m).act o v).1 ∧
        (fatImpl m dev o s).2.fat = ((volume m).act o v).2.fat := by
    intro o s v ho hfat _
    cases o with
    | fatLoad c => exact ⟨congrFun hfat c, hfat⟩
    | fatStore c val =>
      refine ⟨rfl, ?_⟩
      show Function.update s.fat c val = Function.update v.fat c val
      rw [hfat]
    | _ => exact ho.elim
  have hwp : Prog.wp (volume m) (allocChain m first need) (fun ret v' => ∃ ext head,
      Grown m s.fat first l ext v'.fat head ∧
        (ret = head ∧ ext.length = clustersFor m need - l.length ∨
          ret = 0 ∧ ext.length < clustersFor m need - l.length ∧ ∀ x, ¬ IsFree m v'.fat x))
      (.settled (fun _ _ => 0) s.fat) :=
    wp_allocChain h (fun ext fat' head hg hlen => ⟨ext, head, hg, Or.inl ⟨rfl, hlen⟩⟩)
      fun ext fat' head hg hlen hno => ⟨ext, head, hg, Or.inr ⟨rfl, hlen, hno⟩⟩
  obtain ⟨ret, s', v', hcall, ⟨ext, head, hg, hret⟩, hfat⟩ :=
    (onTable_allocChain first need).exec_of_wp hsim rfl hwp
  rw [← hfat] at hg hret
  exact ⟨ret, s', ext, head, hcall, hg, hret⟩

/-! ## What `alloc_chain` guarantees -/

theorem clustersFor_of_lt (h : clustersOf m need < 2 ^ 32) :
    clustersFor m need = clustersOf m need := by
  have hroom := le_clustersOf_mul m need
  have hspc := m.spc_lt
  have hcs : m.clusterSize ≤ 512 * 255 := Nat.mul_le_mul_left 512 (by omega)
  have hle : clustersOf m need * m.clusterSize ≤ 2 ^ 32 * (512 * 255) :=
    Nat.mul_le_mul (Nat.le_of_lt h) hcs
  have hsum : need + m.clusterSize - 1 < 2 ^ 64 := by omega
  unfold clustersFor
  rw [Nat.mod_eq_of_lt hsum]
  exact Nat.mod_eq_of_lt h

/-- **`alloc_chain` extends a chain.** If the head it returns is not `0`,
the chain there is the old one and `ext` behind it, as long as wanted;
`ext` was free, and only its entries and that of the old last cluster have
changed. If it returns `0` although something is wanted, the free clusters
were too few. -/
theorem allocChain_extends (dev : δ) (h : HasChain m s.fat first l)
    (hneed : clustersOf m need < 2 ^ 32) :
    ∃ ret s', Fs.call m dev (allocChain m first need) s = some (ret, s') ∧
      (ret ≠ 0 → ∃ ext, HasChain m s'.fat ret (l ++ ext) ∧ (l ++ ext).Nodup ∧
        (l ++ ext).length = max l.length (clustersOf m need) ∧ (∀ x ∈ ext, IsFree m s.fat x) ∧
        ext.Nodup ∧ ∀ x, x ∉ ext → (∀ hl : l ≠ [], x ≠ l.getLast hl) → s'.fat x = s.fat x) ∧
      (ret = 0 → 0 < need → l.length + (freeClusters m s.fat).length < clustersOf m need) := by
  obtain ⟨ret, s', ext, head, hcall, hg, hret⟩ := allocChain_call dev h need
  rw [clustersFor_of_lt hneed] at hret
  refine ⟨ret, s', hcall, fun hne => ?_, fun hzero hpos => ?_⟩
  · obtain ⟨rfl, hlen⟩ := hret.resolve_right fun hfull => hne hfull.1
    refine ⟨ext, hg.chain, hg.chain.nodup, ?_, hg.free, hg.nodup, fun x hx hlast => ?_⟩
    · rw [List.length_append]
      omega
    by_cases hxl : x ∈ l
    · have hlne : l ≠ [] := List.ne_nil_of_mem hxl
      rw [← List.dropLast_append_getLast hlne] at hxl
      rcases List.mem_append.mp hxl with hin | hin
      · exact hg.inner x hin
      · exact absurd (List.mem_singleton.mp hin) (hlast hlne)
    · exact hg.frame x hxl hx
  rcases hret with ⟨rfl, hlen⟩ | ⟨-, hlen, hno⟩
  · -- a chain of no clusters was wanted, so no bytes were
    have hnil := hg.chain.zero_iff.mp hzero
    rw [List.append_eq_nil_iff] at hnil
    have hroom := le_clustersOf_mul m need
    have hK : clustersOf m need = 0 := by
      rw [hnil.1, hnil.2] at hlen
      simpa using hlen.symm
    rw [hK] at hroom
    omega
  · have hfree := hg.free_le h hno
    omega

/-- A file of one cluster on a volume with four free ones grows to three. -/
theorem allocChain_extends_small : HasChain smallMount blankFs.fat 2 [2] ∧
      clustersOf smallMount 1200 < 2 ^ 32 ∧
      ∃ ret s', Fs.call smallMount () (allocChain smallMount 2 1200) blankFs = some (ret, s') ∧
        (ret ≠ 0 → ∃ ext, HasChain smallMount s'.fat ret ([2] ++ ext) ∧ ([2] ++ ext).length = 3) := by
  have h : HasChain smallMount blankFs.fat 2 [2] := by decide
  have hneed : clustersOf smallMount 1200 < 2 ^ 32 := by decide
  obtain ⟨ret, s', hcall, hok, -⟩ := allocChain_extends () h hneed
  refine ⟨h, hneed, ret, s', hcall, fun hne => ?_⟩
  obtain ⟨ext, hchain, -, hlen, -⟩ := hok hne
  exact ⟨ext, hchain, hlen⟩

/-! ## Writes that fail -/

theorem Grown.fat_eq_iff (hg : Grown m fat first l ext fat' head) :
    (∀ c, fat' c = fat c) ↔ ext = [] := by
  constructor
  · intro h
    refine List.eq_nil_iff_forall_not_mem.mpr fun x hx => ?_
    refine hg.chain.not_free (List.mem_append_right _ hx) ?_
    obtain ⟨h2, hlt, hzero⟩ := hg.free x hx
    exact ⟨h2, hlt, by rw [h x]; exact hzero⟩
  · intro he c
    rw [hg.same he]

theorem yields_writeChain (r : Resolve) (buf : ℕ → UInt8) (clus fin need : ℕ) :
    Yields (fun r' : Int × Resolve => 0 ≤ r'.1) (do
      let (skip, c) ← skipClusters m m.fuel off clus
      let cu := { done := 0, inClus := skip % m.clusterSize, clus := c }
      let (_, done) ← transfer m n (writeChunk m n buf) n m.junk cu
      let size := if fin < need then r.de.filesize else fin
      let r := { r with de := (r.de.setClus clus).setSize size }
      writeBack m r
      pure ((done : Int), r)) := by
  refine (Prog.yields_any _).bind fun _ _ => (Prog.yields_any _).bind fun _ _ =>
    (Prog.yields_any _).bind fun _ _ => Prog.yields_pure ?_
  exact Int.natCast_nonneg _

/-- **A failed write leaves the volume as it was exactly where it had
nothing to append**: the handle is a directory's or there is no buffer, so
the call is refused at once; or no cluster was free, or none was
missing. -/
theorem failed_write_iff {r r' : Resolve} {buf : Option (ℕ → UInt8)} {rc : Int}
    (hfile : r.de.isDir = false → HasChain m s.fat r.de.clus l)
    (hcall : Fs.call m dev (fatWriteImpl m r off buf n) s = some ((rc, r'), s')) (hrc : rc < 0) :
    (r'.de.clus = r.de.clus ∧ r'.de.filesize = r.de.filesize ∧ (∀ c, s'.fat c = s.fat c) ∧
        (freeClusters m s'.fat).length = (freeClusters m s.fat).length) ↔
      (r.de.isDir = true ∨ buf = none ∨ freeClusters m s.fat = [] ∨
        clustersFor m (needBytes r.de off (clampIo n)) ≤ l.length) := by
  have hwlp : wlp (fatImpl m dev) (fatWriteImpl m r off buf n) (fun res s' => res.1 < 0 →
      res.2 = r ∧ ((∀ c, s'.fat c = s.fat c) ↔
        (r.de.isDir = true ∨ buf = none ∨ freeClusters m s.fat = [] ∨
          clustersFor m (needBytes r.de off (clampIo n)) ≤ l.length))) s := by
    unfold fatWriteImpl
    cases hdir : r.de.isDir with
    | true => exact (wlp_pure _ _ _).mpr fun _ => ⟨rfl, by simp⟩
    | false =>
      rw [if_neg (by simp)]
      cases buf with
      | none =>
        simp only
        split
        · exact (wlp_pure _ _ _).mpr fun h => absurd h (by simp)
        · exact (wlp_pure _ _ _).mpr fun _ => ⟨rfl, by simp⟩
      | some buf =>
        rw [wlp_bind]
        refine (wlp_perform FatOp.journalBegin _ s).mpr ?_
        rw [wlp_bind]
        have hfat : (fatImpl m dev FatOp.journalBegin s).2.fat = s.fat := rfl
        generalize (fatImpl m dev FatOp.journalBegin s).2 = s₁ at hfat
        obtain ⟨ret, s₂, ext, head, hcall, hg, hret⟩ := allocChain_call (s := s₁) dev
          (hfat.symm ▸ hfile hdir) (needBytes r.de off (clampIo n))
        rw [hfat] at hg
        intro ret' s₂' hrun
        obtain ⟨rfl, rfl⟩ : ret = ret' ∧ s₂ = s₂' := by
          simpa using hcall.symm.trans hrun
        by_cases hzero : ret = 0
        · rw [if_pos hzero, wlp_bind]
          refine (wlp_perform FatOp.journalAbort _ s₂).mpr ((wlp_pure _ _ _).mpr fun _ => ⟨rfl, ?_⟩)
          show (∀ c, s₂.fat c = s.fat c) ↔ _
          simp only [Bool.false_eq_true, reduceCtorEq, false_or]
          rw [hg.fat_eq_iff]
          constructor
          · rintro rfl
            rcases hret with ⟨-, hlen⟩ | ⟨-, -, hno⟩
            · exact Or.inr (by simp at hlen; omega)
            · rw [hg.same rfl] at hno
              refine Or.inl (List.eq_nil_iff_forall_not_mem.mpr fun x hx => ?_)
              exact hno x (mem_freeClusters.mp hx)
          · rintro (hfull | hle)
            · refine List.eq_nil_iff_forall_not_mem.mpr fun x hx => ?_
              have hx := mem_freeClusters.mpr (hg.free x hx)
              simp [hfull] at hx
            · refine List.length_eq_zero_iff.mp ?_
              rcases hret with ⟨-, hlen⟩ | ⟨-, hlen, -⟩ <;> omega
        · rw [if_neg hzero]
          refine Prog.wlp_mono ((yields_writeChain r buf ret _ _).wlp s₂) fun res s' hpos hneg => ?_
          omega
  obtain ⟨hr, hiff⟩ := hwlp _ _ hcall hrc
  rw [← hiff]
  constructor
  · exact fun h => h.2.2.1
  · intro h
    have heq : s'.fat = s.fat := funext h
    obtain rfl : r' = r := hr
    exact ⟨rfl, rfl, h, by rw [heq]⟩

/-- A volume whose root directory holds the file of five bytes in
cluster 3. -/
def oneFileFs (fat : ℕ → ℕ) : Fs Unit :=
  freshFs (fun lba => if lba = 2 then putRec (fun _ => 0) 0 (smallHandle 3 5).de else fun _ => 0) fat

/-- The root directory, the file and two other chains: no cluster is
free. -/
def takenFat (_ : ℕ) : ℕ := 0x0FFFFFFF

/-- A write to the file of the full volume fails and leaves the FAT. -/
theorem full_volume_write : HasChain smallMount takenFat (smallHandle 3 5).de.clus [3] ∧
    ∃ r' s', Fs.call smallMount () (fatWriteImpl smallMount (smallHandle 3 5) 0 (some fun _ => 1) 600)
        (oneFileFs takenFat) = some ((Errno.eio, r'), s') ∧ ∀ c, s'.fat c = takenFat c := by
  have hchain : HasChain smallMount takenFat (smallHandle 3 5).de.clus [3] := by decide
  have hrc : (Fs.call smallMount () (fatWriteImpl smallMount (smallHandle 3 5) 0 (some fun _ => 1) 600)
      (oneFileFs takenFat)).map (fun res => res.1.1) = some Errno.eio := by decide +kernel
  obtain ⟨⟨⟨rc, r'⟩, s'⟩, hcall, rfl⟩ := Option.map_eq_some_iff.mp hrc
  refine ⟨hchain, r', s', hcall, ?_⟩
  exact ((failed_write_iff (fun _ => hchain) hcall (by decide)).mpr
    (Or.inr (Or.inr (Or.inl (by decide))))).2.2.1

/-- With two clusters free, a write that needs three more fails, but both
stay appended to the file's chain. -/
theorem short_volume_write : HasChain smallMount smallFat (smallHandle 3 5).de.clus [3] ∧
    (freeClusters smallMount smallFat).length = 2 ∧
    (Fs.call smallMount () (fatWriteImpl smallMount (smallHandle 3 5) 0 (some fun _ => 1) 2000)
      (oneFileFs smallFat)).map (fun res => (res.1.1, res.2.fat 3, res.2.fat 4,
        (freeClusters smallMount res.2.fat).length)) = some (Errno.eio, 4, 5, 0) :=
  ⟨by decide, by decide, by decide +kernel⟩

end Lnxrm.Fat32
