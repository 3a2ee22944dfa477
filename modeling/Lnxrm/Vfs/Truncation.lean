import Lnxrm.Vfs.Helpers.Cut
import Lnxrm.Vfs.Helpers.Refused

/-!
# VFS — paths that are cut

A call works on the names its strings mean, or fails without a change
whatever is on the disk, exactly if its strings fit or are refused for what
is left of them (`no_silent_cut_iff`). A longer path works on another name
(`unlink_cuts`): 126 bytes of a relative path are one too many.
-/

namespace Lnxrm.Vfs

open Fat32 List

variable {p q : Str}

/-! ## Refused calls fail -/

theorem head?_pathTrim_fsForPath (p : Str) : (pathTrim (fsForPath p)).head? ≠ some 47 := by
  rw [head?_pathTrim]
  exact head?_dropWhile_slashes p

theorem not_mem_kept (path : CStr) : (0 : UInt8) ∉ kept path :=
  fun h => path.2 (mem_of_mem_kept h)

theorem not_mem_driverPath (h : (0 : UInt8) ∉ p) : (0 : UInt8) ∉ driverPath p := by
  intro hz
  have hmem := mem_of_mem_fsForPath hz
  unfold absPath at hmem
  split at hmem
  · exact h hmem
  · rcases mem_cons.mp hmem with h0 | hmem
    · cases h0
    · exact h (mem_of_mem_take hmem)

theorem not_mem_pathTrim (h : (0 : UInt8) ∉ p) : (0 : UInt8) ∉ pathTrim p :=
  fun hz => h (Fat32.mem_of_mem_pathTrim hz)

theorem not_mem_moveSrc (h : (0 : UInt8) ∉ p) : (0 : UInt8) ∉ moveSrc p :=
  not_mem_pathTrim fun hz => h (mem_of_mem_take hz)

theorem not_mem_moveDest (hp : (0 : UInt8) ∉ p) (hq : (0 : UInt8) ∉ q) :
    (0 : UInt8) ∉ moveDest p q := by
  have hd : (0 : UInt8) ∉ stripTrailingSlashes (q.take 127) :=
    not_mem_pathTrim fun hz => hq (mem_of_mem_take hz)
  have hb : (0 : UInt8) ∉ pathTail (moveSrc p) :=
    fun hz => not_mem_moveSrc hp (Fat32.mem_of_mem_pathTail hz)
  unfold moveDest joinPath
  rw [mem_append, not_or]
  refine ⟨?_, hb⟩
  split
  · simpa using hd
  · exact hd

theorem take_copyUserStr (p : Str) : (copyUserStr p 128).take 127 = p.take 127 := by
  unfold copyUserStr
  rw [take_take]
  rfl

theorem moveSrc_copyUserStr (p : Str) : moveSrc (copyUserStr p 128) = moveSrc p := by
  unfold moveSrc
  rw [take_copyUserStr]

theorem moveDest_copyUserStr (p q : Str) :
    moveDest (copyUserStr p 128) (copyUserStr q 128) = moveDest p q := by
  unfold moveDest
  rw [moveSrc_copyUserStr, take_copyUserStr]

theorem run_sysMove (m : Mount) (src destdir : CStr) : PathCall.run m (.sysMove src destdir) =
      if pathTail (moveSrc src) = [] then pure Errno.einval
      else vfsRenamePath m (moveSrc src) (moveDest src destdir) := by
  have hlen : ∀ s : Str, (stripTrailingSlashes (s.take 127)).length ≤ 127 :=
    fun s => (length_pathTrim_le _).trans (length_take_le 127 s)
  have hbase : (pathTail (moveSrc src)).length ≤ 127 := by
    refine le_trans ?_ (hlen src)
    rw [pathTail, length_reverse]
    exact (takeWhile_sublist _).length_le.trans (length_reverse ..).le
  have hfit : ¬ 256 < (stripTrailingSlashes (destdir.val.take 127)).length +
      (pathTail (moveSrc src)).length + 2 := by
    have hd := hlen destdir
    omega
  unfold PathCall.run Vfs.sysMove
  dsimp only
  rw [take_copyUserStr, take_copyUserStr, ← moveSrc, if_neg hfit]
  rfl

theorem fsForPath_copyUserStr (p : Str) : fsForPath (absPath (copyUserStr p 128) 128) = kept p :=
  driverPath_copyUserStr p

/-- **Which calls fail whatever is on the disk.** -/
theorem fails_iff_refused (c : PathCall) : (∀ m, Fails m (c.run m)) ↔ c.Refused := by
  -- what is not refused goes on to its first change on `smallMount`
  have hiff : ∀ {p : Mount → Fat Int} {R : Prop}, (R → ∀ m, Fails m (p m)) →
      (¬ R → ¬ Fails smallMount (p smallMount)) → ((∀ m, Fails m (p m)) ↔ R) :=
    fun hfails hnot => ⟨fun h => by_contra fun href => hnot href (h _), hfails⟩
  cases c with
  | sysOpen path creat trunc =>
    have hk := fsForPath_copyUserStr path
    refine hiff (fun href m => ?_) fun href => ?_
    · refine fails_sysOpenPath (hk ▸ href.1) ((devLookup_absPath path).trans href.2.1) fun hc => ?_
      rw [hk, take_kept]
      exact href.2.2 hc
    · refine not_fails_sysOpenPath (hk ▸ not_mem_kept path) (hk ▸ length_kept_le path) ?_
      rw [hk, devLookup_absPath]
      exact href
  | sysMkdir path =>
    simp only [PathCall.run, sysMkdir, fsForPath_copyUserStr]
    refine hiff (fun href m => fails_fatMkdirImpl ?_) fun href => ?_
    · rwa [take_kept]
    · exact not_fails_fatMkdirImpl (not_mem_kept path) (length_kept_le path)
        (head?_dropWhile_slashes _) href
  | sysUnlink path =>
    simp only [PathCall.run, sysUnlink, fsForPath_copyUserStr]
    refine hiff (fun href m => fails_fatUnlinkImpl href) fun href => ?_
    simp only [PathCall.Refused, not_or, Bool.not_eq_true] at href
    exact not_fails_fatUnlinkImpl (not_mem_kept path) href.1 href.2.1 href.2.2
  | sysRmdir path =>
    simp only [PathCall.run, sysRmdir, fsForPath_copyUserStr]
    refine hiff (fun href m => fails_fatRmdirImpl href) fun href => ?_
    rw [PathCall.Refused, not_or] at href
    exact not_fails_fatRmdirImpl (not_mem_kept path) href.1 href.2
  | sysRename oldpath newpath =>
    simp only [PathCall.run, sysRename, vfsRenamePath, fsForPath_copyUserStr]
    refine hiff (fun href m => fails_fatRenameImpl ?_) fun href =>
      not_fails_fatRenameImpl (not_mem_kept oldpath) (not_mem_kept newpath) ?_ ?_ ?_
    · rwa [take_kept, take_kept]
    · rw [take_kept]
      exact trailingSlash_pathTrim _
    · rw [take_kept]
      exact head?_pathTrim_fsForPath _
    · rwa [take_kept, take_kept]
  | sysMove src destdir =>
    simp only [run_sysMove]
    have hold := pathTrim_driverPath_moveSrc src
    refine hiff (fun href m => ?_) fun href => ?_
    · by_cases hbase : pathTail (moveSrc src) = []
      · rw [if_pos hbase]
        exact fails_pure (by decide)
      · rw [if_neg hbase]
        refine fails_fatRenameImpl ?_
        rw [← driverPath, hold]
        exact href.resolve_left hbase
    · rw [PathCall.Refused, not_or] at href
      rw [if_neg href.1]
      refine not_fails_fatRenameImpl (not_mem_driverPath (not_mem_moveSrc src.2))
        (not_mem_driverPath (not_mem_moveDest src.2 destdir.2)) ?_ ?_ ?_
      · rw [← driverPath, hold]
        exact trailingSlash_pathTrim _
      · rw [← fsForPath_take]
        exact head?_pathTrim_fsForPath _
      · rw [← driverPath, hold]
        exact href.2

/-! ## Calls that work on what was meant -/

theorem names_eq_iff (c : PathCall) (h : ¬ c.Refused) : c.names = c.exactNames ↔ c.Fits := by
  unfold PathCall.Fits
  rw [or_iff_right h]
  cases c with
  | sysOpen path creat trunc =>
    have hdev : devLookup (absName path) = devNode (stripTrailingSlashes (absName path)) ↔ _ :=
      devLookup_eq_iff _
    simp only [PathCall.names, PathCall.exactNames, driverPath_copyUserStr, fsForPath_absName,
      devLookup_absPath, Names.mk.injEq, List.cons.injEq]
    rw [hdev, and_assoc, resolved_kept_iff]
    refine and_congr_right fun hw => ?_
    cases creat with
    | false => simp
    | true =>
      obtain ⟨htail, hparent⟩ := hw.parts
      simp only [if_true, entryNames, exactEntry, take_kept, htail, hparent, List.cons.injEq,
        and_true, true_and, forall_const]
  | sysMkdir path =>
    simp only [PathCall.names, PathCall.exactNames, driverPath_copyUserStr, fsForPath_absName]
    exact entryNames_kept_iff fun htail => h (Or.inl htail)
  | sysUnlink path =>
    simp only [PathCall.Refused, not_or] at h
    simp only [PathCall.names, PathCall.exactNames, driverPath_copyUserStr, fsForPath_absName,
      Names.mk.injEq, List.cons.injEq, and_true]
    rw [resolved_kept_iff]
    constructor
    · rintro ⟨-, hlen | hk | ht⟩
      · exact hlen
      · exact absurd (by rw [hk]; rfl) h.1
      · exact absurd ht h.2.2
    · intro hlen
      exact ⟨by rw [drop_eq_nil_of_le hlen]; exact slashes_nil, Or.inl hlen⟩
  | sysRmdir path =>
    simp only [PathCall.names, PathCall.exactNames, driverPath_copyUserStr, fsForPath_absName,
      Names.mk.injEq, List.cons.injEq, and_true]
    exact resolved_kept_iff _
  | sysRename oldpath newpath =>
    simp only [PathCall.names, PathCall.exactNames, driverPath_copyUserStr, fsForPath_absName]
    exact renameNames_kept_iff _ _
  | sysMove src destdir =>
    simp only [PathCall.names, PathCall.exactNames, moveSrc_copyUserStr, moveDest_copyUserStr,
      fsForPath_absName]
    exact moveNames_iff fun hbase => h (Or.inl hbase)

/-- **No silent cut**, exactly for the strings that fit: a call fails on
every volume without changing it, or works on the names its strings mean. -/
theorem no_silent_cut_iff (c : PathCall) : NoSilentCut c ↔ c.Fits := by
  unfold NoSilentCut
  rw [fails_iff_refused]
  by_cases h : c.Refused
  · exact ⟨fun _ => Or.inl h, fun _ => Or.inl h⟩
  · rw [or_iff_right h, names_eq_iff c h]

/-- A relative path of 126 bytes: three directories and a file. -/
def longPath : CStr :=
  ⟨replicate 40 97 ++ 47 :: replicate 40 98 ++ 47 :: replicate 40 99 ++
    [47, 120, 121, 122], by decide +kernel⟩

/-- A directory with this long name in this cluster. -/
def namedDir (w : Str) (clus : ℕ) : List Dirent :=
  lfnRun (lfnTotal w) 0 w (lfnTotal w) ++ [newRecord [68] attrDir clus]

/-- A volume with the three directories, and in the last one a file `xy`. -/
def nestedFs : Fs Unit :=
  freshFs (fun lba =>
    if lba = 2 then sectorOf (namedDir (replicate 40 97) 3)
    else if lba = 3 then sectorOf (namedDir (replicate 40 98) 4)
    else if lba = 4 then sectorOf (namedDir (replicate 40 99) 5)
    else if lba = 5 then sectorOf [newRecord [120, 121] attrArchive 0]
    else fun _ => 0) fun _ => 0x0FFFFFFF

/-- **Another file is removed**: there is no file `xyz`, and the call removes
`xy` and returns 0. -/
theorem unlink_cuts : ¬ NoSilentCut (.sysUnlink longPath) ∧
    (Fs.call smallMount () (fatResolvePath smallMount longPath) nestedFs).map
      (fun r => r.1.isSome) = some false ∧
    (Fs.call smallMount () (PathCall.run smallMount (.sysUnlink longPath)) nestedFs).map
      (fun r => (r.1, r.2.storage.blk.disks.sector () 5 0)) = some (0, 0xE5) := by
  have hrefused : ¬ PathCall.Refused (.sysUnlink longPath) := by
    unfold PathCall.Refused TooLong
    decide +kernel
  refine ⟨?_, by decide +kernel, by decide +kernel⟩
  rintro (hfails | hnames)
  · exact hrefused ((fails_iff_refused _).mp hfails)
  · rw [names_eq_iff _ hrefused] at hnames
    rcases hnames with href | hlen
    · exact hrefused href
    · exact absurd hlen (by decide +kernel)

end Lnxrm.Vfs
