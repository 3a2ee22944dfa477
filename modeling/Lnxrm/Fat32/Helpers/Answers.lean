import Lnxrm.Common.Partial
import Lnxrm.Fat32.Helpers.LongName
import Lnxrm.Fat32.Mounted

/-!
# FAT32 — what a directory can hold

Proof layer. Every component of less than 56 bytes can be found: a
directory may hold a record under that long name. So a path with such
components can be resolved (`returns_resolveFrom`), and what follows in the
driver can be reached. The volume here is `smallMount`, whose directories
have one sector; a record of a directory points at cluster 2 again.
-/

namespace Lnxrm.Fat32

open List

open Prog (Returns returns_pure returns_perform)

variable {β γ : Type} {w : Str} {e : Dirent}

/-- A free record. -/
def zeroRec : Dirent := fun _ => 0

/-- A sector with these records in front. -/
def sectorOf (recs : List Dirent) : Sector := fun j =>
  recs.getD (j / 32) zeroRec ⟨j % 32, Nat.mod_lt j (by decide)⟩

theorem recAt_sectorOf (recs : List Dirent) (k : ℕ) :
    recAt (sectorOf recs) (k * direntSize) = recs.getD k zeroRec := by
  funext i
  have hdiv : (k * direntSize + i.val) / 32 = k := by
    simp only [direntSize]
    omega
  have hmod : (k * direntSize + i.val) % 32 = i.val := by
    simp only [direntSize]
    omega
  simp only [recAt, sectorOf, hdiv, hmod]

theorem map_getD_range (l : List β) (b : β) {n : ℕ} (h : l.length ≤ n) :
    ((List.range n).map fun k => l.getD k b) = l ++ replicate (n - l.length) b := by
  refine ext_getElem (by simp; omega) fun i hi hi' => ?_
  rw [getElem_map, getElem_range, getElem_append]
  split
  · rename_i hlt
    exact getD_eq_getElem _ _ hlt
  · rename_i hge
    rw [getElem_replicate, getD_eq_default _ _ (by omega)]

/-! ## Scans -/

/-- Where the scan of cluster 2 says that its records lie. -/
def slotAt (k : ℕ) : DirentPos :=
  ⟨clusterLba smallMount 2 + k * direntSize / sectorSize, k * direntSize % sectorSize⟩

/-- **What a scan past the cache can come across.** -/
theorem returns_scanDevice (recs : List Dirent) (f : β → DirentPos → Dirent → β ⊕ γ) (b : β) :
    (scanDevice smallMount 2 f b).Returns
      (foldExit (fun b k => f b (slotAt k) (recs.getD k zeroRec)) b (List.range 16)) := by
  have hfold : foldExit (fun b k =>
        f b ⟨clusterLba smallMount 2 + k * direntSize / sectorSize, k * direntSize % sectorSize⟩
          (recAt (sectorOf recs) (k * direntSize % sectorSize))) b
        (List.range (smallMount.clusterSize / direntSize)) =
      foldExit (fun b k => f b (slotAt k) (recs.getD k zeroRec)) b (List.range 16) := by
    refine foldExit_congr (fun b k hk => ?_) b
    have hlt : k * direntSize < sectorSize := by
      have : k < 16 := mem_range.mp hk
      simp only [direntSize, sectorSize]
      omega
    rw [Nat.mod_eq_of_lt hlt, recAt_sectorOf, slotAt, Nat.mod_eq_of_lt hlt]
  rw [← hfold]
  unfold scanDevice
  rw [Mount.fuel, forChain, if_neg (by decide)]
  refine Returns.bind (Returns.bind (returns_perform (o := FatOp.devRead _ _)
    ((0 : Int), fun _ : ℕ => sectorOf recs)) (returns_pure _)) ?_
  dsimp only
  generalize foldExit _ b _ = x
  cases x with
  | inr r => exact returns_pure _
  | inl b' =>
    -- the table can say that the chain ends here
    refine Returns.bind (b := 0x0FFFFFFF) ?_ (returns_pure _)
    unfold fatNextCluster
    rw [if_neg (by decide)]
    exact Returns.bind (returns_perform (o := FatOp.fatLoad _) (0x0FFFFFFF : ℕ)) (returns_pure _)

theorem returns_fatScanDir {κ : Type} (recs : List Dirent) (hlen : recs.length ≤ 16)
    (cb : κ → Str → Dirent → κ × Bool) (ctx : κ) :
    (fatScanDir smallMount 2 cb ctx).Returns
      (match foldExit (scanStep cb) (lfnInit smallMount, ctx)
          (recs ++ replicate (16 - recs.length) zeroRec) with
        | .inl st => (false, st.2)
        | .inr r => r) := by
  refine Returns.bind (returns_scanDevice recs _ _) ?_
  rw [← foldExit_map (scanStep cb) (fun k => recs.getD k zeroRec), map_getD_range recs zeroRec hlen]
  generalize foldExit (scanStep cb) _ _ = x
  cases x <;> exact returns_pure _

/-- A record that scans hand on. -/
def Handed (e : Dirent) : Prop :=
  e 0 ≠ entEnd ∧ entryUsed e = true ∧ e.isLfn = false ∧ e.isVolume = false

/-- **Every short enough name can be found.** -/
theorem returns_fatScanFind (h0 : (0 : UInt8) ∉ w) (hw : w ≠ []) (hlen : w.length < 56)
    (he : Handed e) : (fatScanFind smallMount 2 w).Returns (some e) := by
  have htot : lfnTotal w ≤ 5 := by
    unfold lfnTotal
    omega
  have hrun : ∀ n, (lfnRun (lfnTotal w) 0 w n).length = n := by
    intro n
    induction n with
    | zero => rfl
    | succ n ih => rw [lfnRun, length_cons, ih]
  refine Returns.bind (returns_fatScanDir (lfnRun (lfnTotal w) 0 w (lfnTotal w) ++ [e])
    (by rw [length_append, hrun, length_singleton]; omega) _ _) ?_
  rw [append_assoc, singleton_append,
    foldExit_scanStep_run h0 hw (by omega) ⟨rfl, rfl⟩ he.1 he.2.1 he.2.2.1 he.2.2.2]
  simp only [fatScanFindCb, strcaseEq, beq_self_eq_true, Bool.true_or, if_true]
  exact returns_pure _

theorem foldExit_scanStep_zeros {κ : Type} (cb : κ → Str → Dirent → κ × Bool) (ctx : κ) (n : ℕ)
    (lf : LfnState) : ∃ lf', foldExit (scanStep cb) (lf, ctx) (replicate n zeroRec) =
      .inl (lf', ctx) := by
  induction n generalizing lf with
  | zero => exact ⟨lf, rfl⟩
  | succ n ih =>
    obtain ⟨lf', h⟩ := ih (lfnReset lf)
    exact ⟨lf', h⟩

theorem returns_fatScanDir_empty {κ : Type} (cb : κ → Str → Dirent → κ × Bool) (ctx : κ) :
    (fatScanDir smallMount 2 cb ctx).Returns (false, ctx) := by
  obtain ⟨lf', hzero⟩ := foldExit_scanStep_zeros cb ctx 16 (lfnInit smallMount)
  have h := returns_fatScanDir [] (by simp) cb ctx
  rw [nil_append, length_nil, Nat.sub_zero, hzero] at h
  exact h

theorem returns_fatScanFind_none (w : Str) : (fatScanFind smallMount 2 w).Returns none := by
  exact Returns.bind (returns_fatScanDir_empty _ _) (returns_pure _)

/-! ## Records -/

/-- An empty file. -/
def aFile : Dirent := newRecord [88] attrArchive 0

/-- A directory in cluster 2. -/
def aDir : Dirent := newRecord [88] attrDir 2

theorem aFile_handed : Handed aFile := by
  unfold Handed
  decide

theorem aDir_handed : Handed aDir := by
  unfold Handed
  decide

theorem aFile_isDir : aFile.isDir = false := by decide

theorem aDir_isDir : aDir.isDir = true := by decide

theorem aDir_clus : aDir.clus = 2 := by decide

/-- **Every path of short enough components can be resolved.** -/
theorem returns_resolveFrom (trailing : Bool) (he : Handed e)
    (hdir : trailing = true → e.isDir = true ∧ e.clus = 2) (comps : List Str) (hne : comps ≠ [])
    (hok : ∀ c ∈ comps, (0 : UInt8) ∉ c ∧ c ≠ [] ∧ c.length < 56) :
    ∃ name, (resolveFrom smallMount trailing 2 comps).Returns
      (some { dirCluster := 2, name := name, de := e }) := by
  induction comps with
  | nil => exact absurd rfl hne
  | cons comp rest ih =>
    rw [forall_mem_cons] at hok
    obtain ⟨⟨h0, hnil, hlen⟩, hrest⟩ := hok
    by_cases hlast : rest = []
    · refine ⟨comp, ?_⟩
      rw [resolveFrom, if_neg (by omega)]
      refine Returns.bind (returns_fatScanFind h0 hnil hlen he) ?_
      dsimp only
      cases trailing with
      | false =>
        rw [if_pos ⟨hlast, rfl⟩]
        exact returns_pure _
      | true =>
        obtain ⟨hd, hc⟩ := hdir rfl
        rw [if_neg (by simp), if_neg (by simp [hd]), if_pos hlast, hc]
        exact returns_pure _
    obtain ⟨name, hname⟩ := ih hlast hrest
    refine ⟨name, ?_⟩
    rw [resolveFrom, if_neg (by omega)]
    refine Returns.bind (returns_fatScanFind h0 hnil hlen aDir_handed) ?_
    dsimp only
    rw [if_neg (by simp [hlast]), if_neg (by simp [aDir_isDir]), if_neg hlast, aDir_clus]
    exact hname

theorem returns_direntLocate (he : e = aFile ∨ e = aDir) :
    ∃ loc, (direntLocate smallMount 2 e.name).Returns (some loc) ∧ loc.lfn.length = 5 := by
  have hscan := returns_scanDevice (replicate 5 (lfnFill 1 1 0 []) ++ [e]) (locateStep e.name) []
  have hfold : ∃ loc : DirentLoc, foldExit (fun run k => locateStep e.name run (slotAt k)
      ((replicate 5 (lfnFill 1 1 0 []) ++ [e]).getD k zeroRec)) [] (List.range 16) =
        .inr (some loc) ∧ loc.lfn.length = 5 := by
    rcases he with rfl | rfl <;> exact ⟨_, rfl, rfl⟩
  obtain ⟨loc, hloc, hlen⟩ := hfold
  rw [hloc] at hscan
  exact ⟨loc, hscan.bind (returns_pure _), hlen⟩

theorem returns_dirIsEmpty : (dirIsEmpty smallMount 2).Returns (true, 2) := by
  refine Returns.bind (b := .inl (2, dirSector 2 2)) ?_ (returns_pure _)
  unfold scanCached
  rw [Mount.fuel, forChain, if_neg (by decide)]
  refine Returns.bind (b := .inl (2, dirSector 2 2)) ?_ ?_
  · exact ⟨(0, dirSector 2 2), rfl⟩
  · refine Returns.bind (b := 0x0FFFFFFF) ?_ (returns_pure _)
    unfold fatNextCluster
    rw [if_neg (by decide)]
    exact Returns.bind (returns_perform (o := FatOp.fatLoad _) (0x0FFFFFFF : ℕ)) (returns_pure _)

end Lnxrm.Fat32
