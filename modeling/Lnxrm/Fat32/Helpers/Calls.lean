import Lnxrm.Fat32.Helpers.Namespace

/-!
# FAT32 — the namespace calls on a volume

Proof layer. On a volume whose directories can be read, each namespace
call returns, and what it has done is one of the cases of `Effect`
(`wp_nsOp`). No call makes more updates than the journal has entries, so
the journal never drops one.
-/

namespace Lnxrm.Fat32

open Function List
open Prog (wp wp_bind wp_pure)

variable {m : Mount} {v : Vol} {data : ℕ → Sector} {fat : ℕ → ℕ} {d c : ℕ} {l : List ℕ}
  {e : Dirent} {p : DirentPos} {path : Str}
variable {rc : Int} {Q : Int → Vol → Prop} {loc : DirentLoc}

/-- **What a call leaves**: one of the effects, no open transaction, and
in the cache only what was there, or what a failed mkdir has prepared. -/
structure Outcome (m : Mount) (v : Vol) (op : NsOp) (rc : Int) (v' : Vol) : Prop where
  idle : v'.active = false
  effect : Effect m v.data v.fat op rc v'.data v'.fat
  dirty : ∀ lba ∈ v'.dirty, lba ∈ v.dirty ∨
    ∃ c, IsFree m v.fat c ∧ IsFree m v'.fat c ∧ lba ∈ clusterSectors m c
  /-- a call that has changed the FAT has committed -/
  flushed : v'.fat ≠ v.fat → v'.dirty = ∅

theorem Outcome.settled {op : NsOp} (h : Effect m v.data v.fat op rc data fat) :
    Outcome m v op rc (.settled data fat) where
  idle := rfl
  effect := h
  dirty _ hlba := absurd hlba (Set.notMem_empty _)
  flushed _ := rfl

theorem Outcome.refused {op : NsOp} (hidle : v.active = false) (hrc : rc ≠ 0) :
    Outcome m v op rc v where
  idle := hidle
  effect := .refused hrc
  dirty _ hlba := Or.inl hlba
  flushed hne := absurd rfl hne

theorem parentTarget_error {missing notDir rc : Int} (hm : missing ≠ 0) (hn : notDir ≠ 0)
    (h : parentTarget m data fat path missing notDir = .error rc) : rc ≠ 0 := by
  unfold parentTarget at h
  split_ifs at h with hnil
  cases ht : pathTarget m data fat path with
  | none =>
    rw [ht] at h
    cases h
    exact hm
  | some t =>
    simp only [ht] at h
    split_ifs at h
    cases h
    exact hn

theorem newTarget_error (h : newTarget m data fat path = .error rc) : rc ≠ 0 := by
  unfold newTarget at h
  cases hpar : parentTarget m data fat (pathParent (path.take 127)) Errno.efail Errno.efail with
  | error e =>
    simp only [hpar] at h
    cases h
    exact parentTarget_error (by decide) (by decide) hpar
  | ok d =>
    simp only [hpar] at h
    split_ifs at h with hnil
    · cases h
      decide
    · cases hfind : findRecord m data fat d (pathTail (path.take 127)) with
      | none => simp [hfind] at h
      | some p =>
        simp only [hfind] at h
        cases h
        decide

/-- **Adding a record**: it goes to the first free slot, or there is
none. -/
theorem wp_parentEntryAdd {name : Str} {attr : UInt8} {first : ℕ}
    (hidle : v.active = false) (hl : HasChain m v.fat d l)
    (hsome : ∀ p, freePlace m v.data v.fat d = some p →
      Q 0 (.settled (putAt v.data p (newRecord name attr first)) v.fat))
    (hnone : freePlace m v.data v.fat d = none → Q Errno.efail { v with active := false, log := [] }) :
    wp (volume m) (parentEntryAdd m d name attr first) Q v := by
  unfold freePlace at hsome hnone
  rw [hl.chainOf_eq] at hsome hnone
  unfold parentEntryAdd
  rw [wp_bind]
  refine wp_fat32JournalBegin hidle fun htx => ?_
  rw [wp_bind]
  refine wp_scanCached hl.toWalk hl.length_le (fun b buf hfind => ?_) fun r p hfind => ?_
  · rw [wp_bind]
    exact wp_fat32JournalAbort (hnone (by rw [hfind]))
  · have hmem := (mem_slots.mp (mem_of_findIn hfind).1).1
    simp only [wp_bind]
    refine wp_updateSector htx (sectors_ge hmem) (Or.inr (by simp)) fun log htx' => ?_
    exact wp_fat32JournalCommit htx' (hsome p (by rw [hfind]))

theorem wp_fatCreateImpl (h : Readable m v) :
    wp (volume m) (fatCreateImpl m path) (Outcome m v (.create path)) v := by
  unfold fatCreateImpl
  rw [wp_bind]
  refine wp_parentDirInit h ?_
  cases ht : newTarget m v.data v.fat path with
  | error rc => exact Outcome.refused h.idle (newTarget_error ht)
  | ok pd =>
    obtain ⟨l, hl, -⟩ := h.legible (newTarget_ok ht).1
    rw [wp_bind]
    refine wp_parentEntryAdd h.idle hl (fun p hp => ?_) fun _ => ?_
    · exact Outcome.settled (.created ht hp)
    · exact ⟨rfl, .refused (by decide), fun _ hlba => Or.inl hlba, fun hne => absurd rfl hne⟩

/-! ### mkdir -/

theorem wp_zeroSectors {base : ℕ} {Q : Unit → Vol → Prop} (hb : m.dataStartLba ≤ base) (ss : List ℕ) :
    ∀ {v : Vol}, (∀ v' : Vol, v'.fat = v.fat → v'.active = v.active → v'.log = v.log →
        (∀ lba, v'.data lba = if lba ∈ ss.map (base + ·) then fun _ => 0 else v.data lba) →
        (∀ lba ∈ v'.dirty, lba ∈ v.dirty ∨ lba ∈ ss.map (base + ·)) → Q () v') →
      wp (volume m) (zeroSectors base ss) Q v := by
  induction ss with
  | nil => exact fun hQ => hQ _ rfl rfl rfl (by simp) (by simp)
  | cons s ss ih =>
    intro v hQ
    rw [zeroSectors, wp_bind]
    refine ⟨Nat.le_add_right_of_le hb, ih fun v' hf ha hlog hd hdirty => hQ v' hf ha hlog (fun lba => ?_) fun lba hlba => ?_⟩
    · rw [hd lba]
      by_cases hin : lba ∈ ss.map (base + ·)
      · rw [if_pos hin, if_pos (by simp [hin])]
      · rw [if_neg hin]
        show update v.data (base + s) (fun _ => 0) lba = _
        by_cases heq : lba = base + s
        · rw [heq, update_self, if_pos (by simp)]
        · rw [update_of_ne heq, if_neg (by simp only [map_cons, mem_cons]; tauto)]
    · rw [map_cons, mem_cons]
      rcases hdirty lba hlba with h | h
      · rcases Set.mem_insert_iff.mp h with rfl | h
        · exact Or.inr (Or.inl rfl)
        · exact Or.inl h
      · exact Or.inr (Or.inr h)

theorem mem_clusterSectors_iff {lba : ℕ} : lba ∈ clusterSectors m c ↔ lba = clusterLba m c ∨
      lba ∈ (range' 1 (m.sectorsPerCluster - 1)).map (clusterLba m c + ·) := by
  have hpos := m.spc_pos
  simp only [mem_clusterSectors, mem_map, mem_range'_1]
  constructor
  · rintro ⟨s, hs, rfl⟩
    rcases Nat.eq_zero_or_pos s with rfl | hs'
    · exact Or.inl (Nat.add_zero _)
    · exact Or.inr ⟨s, by omega, rfl⟩
  · rintro (rfl | ⟨s, hs, rfl⟩)
    · exact ⟨0, hpos, (Nat.add_zero _).symm⟩
    · exact ⟨s, by omega, rfl⟩

theorem wp_newDir {parent : ℕ} {Q : Unit → Vol → Prop}
    (hQ : ∀ v' : Vol, v'.fat = v.fat → v'.active = v.active → v'.data = newDir m v.data c parent →
      (∀ lba ∈ v'.dirty, lba ∈ v.dirty ∨ lba ∈ clusterSectors m c) → Q () v') :
    wp (volume m) (fatWriteSector (clusterLba m c) (dirSector c parent)) (fun _ v' =>
      wp (volume m) (zeroSectors (clusterLba m c) (range' 1 (m.sectorsPerCluster - 1))) Q v')
      v := by
  refine ⟨clusterLba_ge m c, ?_⟩
  refine wp_zeroSectors (clusterLba_ge m c) _ fun v' hf ha _ hd hdirty => ?_
  refine hQ v' hf ha ?_ fun lba hlba => ?_
  · funext lba
    rw [hd lba, newDir]
    have hfirst : clusterLba m c ∉
        (range' 1 (m.sectorsPerCluster - 1)).map (clusterLba m c + ·) := by
      simp only [mem_map, mem_range'_1]
      rintro ⟨s, hs, heq⟩
      omega
    by_cases heq : lba = clusterLba m c
    · rw [heq, if_neg hfirst, if_pos rfl]
      exact update_self _ _ _
    · rw [if_neg heq]
      by_cases hin : lba ∈ (range' 1 (m.sectorsPerCluster - 1)).map (clusterLba m c + ·)
      · rw [if_pos hin, if_pos (mem_clusterSectors_iff.mpr (Or.inr hin))]
      · rw [if_neg hin, if_neg fun hm => (mem_clusterSectors_iff.mp hm).elim heq hin]
        exact update_of_ne heq _ _
  · rw [mem_clusterSectors_iff]
    rcases hdirty lba hlba with h | h
    · rcases Set.mem_insert_iff.mp h with h | h
      · exact Or.inr (Or.inl h)
      · exact Or.inl h
    · exact Or.inr (Or.inr h)

theorem newDir_of_not_mem {parent lba : ℕ} (h : lba ∉ clusterSectors m c) :
    newDir m data c parent lba = data lba := by
  have hne : lba ≠ clusterLba m c := fun heq => h (mem_clusterSectors_iff.mpr (Or.inl heq))
  rw [newDir, if_neg hne, if_neg h]

theorem recOf_newDir {parent : ℕ} (hl : ∀ x ∈ l, 2 ≤ x ∧ x < m.maxCluster)
    (hc : 2 ≤ c ∧ c < m.maxCluster) (hnot : c ∉ l) (hp : p ∈ slots m l) :
    recOf (newDir m data c parent) p = recOf data p := by
  have hdis : (sectors m l).Disjoint (sectors m [c]) :=
    sectors_disjoint hl (by simpa using hc) (by simpa using hnot)
  have hmem := (mem_slots.mp hp).1
  unfold recOf
  rw [newDir_of_not_mem fun hin => hdis hmem (by simpa [sectors] using hin)]

theorem findIn_congr {β γ : Type} {data' : ℕ → Sector} {f : β → Dirent → β ⊕ γ} {b : β}
    {ps : List DirentPos} (h : ∀ p ∈ ps, recOf data' p = recOf data p) :
    findIn data' f b ps = findIn data f b ps := by
  refine foldExit_congr (fun b p hp => ?_) b
  rw [h p hp]

theorem HasChain.setEntry (hl : HasChain m fat d l) (hc : IsFree m fat c) (val : ℕ) :
    HasChain m (setEntry fat c val) d l ∧ c ∉ l := by
  have hnot : c ∉ l := fun hm => hl.not_free hm hc
  refine ⟨hl.congr fun x hx => ?_, hnot⟩
  have hne : x ≠ c := fun heq => hnot (heq ▸ hx)
  rw [setEntry_of_ne hne]

theorem setEntry_setEntry (hc : IsFree m fat c) (val : ℕ) :
    setEntry (setEntry fat c val) c 0 = fat := by
  funext x
  by_cases hx : x = c
  · subst hx
    have h0 := hc.2.2
    simp only [Fat32.setEntry, update_self]
    omega
  · rw [setEntry_of_ne hx, setEntry_of_ne hx]

theorem wp_fatMkdirImpl (h : Readable m v) :
    wp (volume m) (fatMkdirImpl m path) (Outcome m v (.mkdir path)) v := by
  unfold fatMkdirImpl
  rw [wp_bind]
  refine wp_parentDirInit h ?_
  cases ht : newTarget m v.data v.fat path with
  | error rc => exact Outcome.refused h.idle (newTarget_error ht)
  | ok pd =>
    obtain ⟨l, hl, -⟩ := h.legible (newTarget_ok ht).1
    rw [wp_bind]
    refine wp_fatFindFreeCluster (fun c hc => ?_) fun _ => ?_
    · have hc0 : c ≠ 0 := by have := hc.1; omega
      obtain ⟨hl', hnot⟩ := hl.setEntry hc 0x0FFFFFFF
      rw [if_neg hc0, wp_bind]
      refine wp_fatSetEntry hc.2.1 ?_
      simp only [wp_bind]
      refine wp_newDir fun v' hf ha hd hdirty => ?_
      have hf' : v'.fat = setEntry v.fat c 0x0FFFFFFF := hf
      -- the new directory's cluster is none of the parent's
      have hplace : freePlace m v'.data v'.fat pd.cluster = freePlace m v.data v.fat pd.cluster := by
        unfold freePlace
        rw [hf', hl'.chainOf_eq, hl.chainOf_eq, hd]
        have hrec : ∀ p ∈ slots m l, recOf (newDir m v.data c pd.cluster) p = recOf v.data p :=
          fun p hp => recOf_newDir hl.range ⟨hc.1, hc.2.1⟩ hnot hp
        rw [findIn_congr hrec]
      refine wp_parentEntryAdd (ha.trans h.idle) (hf' ▸ hl') (fun p hp => ?_) fun _ => ?_
      · rw [if_neg (by simp), hf', hd]
        rw [hplace] at hp
        exact Outcome.settled (.made ht hc hp)
      rw [if_pos (by decide), wp_bind]
      refine wp_fatSetEntry hc.2.1 ?_
      have hback : setEntry v'.fat c 0 = v.fat := by
        rw [hf']
        exact setEntry_setEntry hc _
      refine ⟨rfl, ?_, fun lba hlba => ?_, fun hne => absurd hback hne⟩
      · rw [hback, hd]
        exact .abandoned ht hc
      · refine (hdirty lba hlba).imp_right fun hin => ⟨c, hc, ?_, hin⟩
        rw [hback]
        exact hc
    · rw [if_pos rfl]
      exact Outcome.refused h.idle (by decide)

/-! ### unlink and rmdir -/

theorem Located.locIn {sn : Fin 11 → UInt8} {A run B : List DirentPos}
    (h : Located data sn (slots m l) loc A run B) : LocIn m loc where
  pos := slots_ge h.pos_mem
  lfn p hp := slots_ge (h.lfn_mem p hp)
  short := h.length_le

theorem wp_removeRecord (hidle : v.active = false)
    (hloc : LocIn m loc) (hl : HasChain m v.fat c l)
    (hQ : Q 0 (.settled (freeLoc v.data loc) (freed v.fat (chainOf m v.fat c)))) :
    wp (volume m) (removeRecord m loc c) Q v := by
  unfold removeRecord
  rw [wp_bind]
  refine wp_begin hidle fun v₁ h₁ => ?_
  rw [wp_bind]
  refine h₁.wp_freeDirentRecord hloc (by decide) fun v₂ h₂ => ?_
  rw [wp_bind]
  refine hl.wp_freeChain h₂ fun v₃ h₃ => ?_
  rw [wp_bind]
  exact h₃.wp_commit hQ

theorem wp_fatUnlinkImpl (h : Readable m v) :
    wp (volume m) (fatUnlinkImpl m path) (Outcome m v (.unlink path)) v := by
  unfold fatUnlinkImpl
  rw [wp_bind]
  refine wp_fatResolvePath h ?_
  cases ht : pathTarget m v.data v.fat path with
  | none => exact Outcome.refused h.idle (by decide)
  | some t =>
    obtain ⟨d, hf⟩ := pathTarget_found ht
    show wp _ (if (recOf v.data t.pos).isDir then _ else _) _ v
    cases hdir : (recOf v.data t.pos).isDir with
    | true => exact Outcome.refused h.idle (by decide)
    | false =>
      rw [if_neg (by simp), wp_bind]
      refine wp_direntLocate (h.legible hf.reached_dirCluster) ?_
      dsimp only [Target.resolve]
      cases hloc : locateRecord m v.data v.fat t.dirCluster (recOf v.data t.pos).name with
      | none => exact Outcome.refused h.idle (by decide)
      | some loc =>
        obtain ⟨A, run, B, hl⟩ := locateRecord_some hloc
        obtain ⟨l, hchain⟩ := hf.hasChain h
        exact wp_removeRecord h.idle hl.locIn hchain (Outcome.settled (.unlinked ht hdir hloc))

theorem wp_fatRmdirImpl (h : Readable m v) :
    wp (volume m) (fatRmdirImpl m path) (Outcome m v (.rmdir path)) v := by
  unfold fatRmdirImpl
  rw [wp_bind]
  refine wp_fatResolvePath h ?_
  cases ht : pathTarget m v.data v.fat path with
  | none => exact Outcome.refused h.idle (by decide)
  | some t =>
    obtain ⟨d, hf⟩ := pathTarget_found ht
    show wp _ (if !(recOf v.data t.pos).isDir then _ else if (recOf v.data t.pos).clus < 2 then _
      else _) _ v
    cases hdir : (recOf v.data t.pos).isDir with
    | false => exact Outcome.refused h.idle (by decide)
    | true =>
      rw [if_neg (by simp)]
      by_cases hlow : (recOf v.data t.pos).clus < 2
      · rw [if_pos hlow]
        exact Outcome.refused h.idle (by decide)
      rw [if_neg hlow, wp_bind]
      refine wp_dirIsEmpty (h.legible (hf.reached_clus hdir)) fun empty count hempty => ?_
      cases empty with
      | false => exact Outcome.refused h.idle (by decide)
      | true =>
        by_cases hcount : count < 2
        · simp only [Bool.not_true, Bool.false_eq_true, if_false, if_pos hcount]
          exact Outcome.refused h.idle (by decide)
        simp only [Bool.not_true, Bool.false_eq_true, if_false, if_neg hcount]
        rw [wp_bind]
        refine wp_direntLocate (h.legible hf.reached_dirCluster) ?_
        dsimp only [Target.resolve]
        cases hloc : locateRecord m v.data v.fat t.dirCluster (recOf v.data t.pos).name with
        | none => exact Outcome.refused h.idle (by decide)
        | some loc =>
          obtain ⟨A, run, B, hl⟩ := locateRecord_some hloc
          obtain ⟨l, hchain⟩ := hf.hasChain h
          exact wp_removeRecord h.idle hl.locIn hchain
            (Outcome.settled (.removed ht hdir (by omega) hempty (by omega) hloc))

/-! ### rename -/

theorem fatLfnCount_le {nname : Str} {n : ℕ} (hlen : nname.length ≤ 55)
    (h : fatLfnCount nname = some n) : n ≤ 5 := by
  unfold fatLfnCount at h
  split_ifs at h
  · cases h
    omega
  · cases h
    omega

theorem wp_renameInPlace {n : ℕ} {nname : Str} {short : Fin 11 → UInt8}
    {sum : UInt8} (hidle : v.active = false) (hloc : LocIn m loc)
    (hQ : Q 0 (.settled (putAt (putLfns n sum nname (loc.lfn.drop (loc.lfn.length - n))
      ((loc.lfn.take (loc.lfn.length - n)).foldl freeAt v.data)) loc.pos (renamedRecord loc.de short))
      v.fat)) :
    wp (volume m) (renameInPlace m loc n nname short sum) Q v := by
  have hshort : loc.lfn.length ≤ 20 := hloc.short
  have hmax : Block.maxJournalEntries = 32 := rfl
  unfold renameInPlace
  rw [wp_bind]
  refine wp_begin hidle fun v₁ h₁ => ?_
  rw [wp_bind]
  refine wp_direntFreeAll _ h₁ (by rw [length_take]; omega)
    (fun p hp => hloc.lfn p (mem_of_mem_take hp)) fun v₂ h₂ => ?_
  rw [wp_bind]
  refine wp_writeLfnRun _ h₂ (by rw [length_take, length_drop]; omega)
    (fun p hp => hloc.lfn p (mem_of_mem_drop hp)) fun v₃ h₃ => ?_
  rw [wp_bind]
  refine h₃.wp_direntWrite (by rw [length_take, length_drop]; omega) hloc.pos
    fun v₄ h₄ => ?_
  rw [wp_bind]
  exact h₄.wp_commit hQ

theorem wp_renameMove {ps : List DirentPos} {n : ℕ} {nname : Str}
    {short : Fin 11 → UInt8} {sum : UInt8} {moved : Option (ℕ × ℕ)}
    (hidle : v.active = false) (hloc : LocIn m loc) (hn : n ≤ 5) (hlen : ps.length = n + 1)
    (hps : ∀ p ∈ ps, m.dataStartLba ≤ p.lba)
    (hQ : Q 0 (.settled (repointed m (freeLoc (putAt (putLfns n sum nname (ps.take n) v.data)
      (ps.getD n ⟨0, 0⟩) (renamedRecord loc.de short)) loc) moved) v.fat)) :
    wp (volume m) (renameMove m loc ps n nname short sum moved) Q v := by
  have hmax : Block.maxJournalEntries = 32 := rfl
  have htwenty : lfnEntriesMax = 20 := rfl
  have hlast : ps.getD n ⟨0, 0⟩ ∈ ps := by
    rw [getD_eq_getElem _ _ (by omega)]
    exact getElem_mem _
  have htake : (ps.take n).length = n := by
    rw [length_take]
    omega
  unfold renameMove
  rw [wp_bind]
  refine wp_begin hidle fun v₁ h₁ => ?_
  rw [wp_bind]
  refine wp_writeLfnRun _ h₁ (by omega) (fun p hp => hps p (mem_of_mem_take hp)) fun v₂ h₂ => ?_
  rw [wp_bind]
  refine h₂.wp_direntWrite (by omega) (hps _ hlast) fun v₃ h₃ => ?_
  rw [wp_bind]
  refine h₃.wp_freeDirentRecord hloc (by omega) fun v₄ h₄ => ?_
  rw [wp_bind]
  refine h₄.wp_repointDotdot (by omega) fun v₅ h₅ => ?_
  rw [wp_bind]
  exact h₅.wp_commit hQ

theorem claimedRun_error {need : ℕ} (h : claimedRun m data fat d need = .error rc) : rc ≠ 0 := by
  unfold claimedRun at h
  split_ifs at h with hneed
  · cases h
    decide
  cases hfold : foldExit (fun st p => claimStep need st p (recOf data p)) ([], false)
    (slots m (chainOf m fat d)) with
  | inl st =>
    rw [hfold] at h
    cases h
    decide
  | inr r =>
    rw [hfold] at h
    obtain rfl : r = .error rc := h
    rw [enospc_of_fold hfold]
    decide

theorem wp_renameTo {oldpath newpath : Str} {t : Target} (h : Readable m v)
    (ht : pathTarget m v.data v.fat (pathTrim (oldpath.take 127)) = some t)
    (hpar : parentTarget m v.data v.fat (pathParent (pathTrim (newpath.take 127)))
      Errno.enoent Errno.enotdir = .ok d)
    (hne : renameName newpath ≠ [])
    (hdot : renameName newpath ≠ [46] ∧ renameName newpath ≠ [46, 46])
    (hmoves : ¬ (t.dirCluster = d ∧ strcaseEq t.name (renameName newpath) = true)) :
    wp (volume m) (renameTo m (t.resolve v.data) d (renameName newpath))
      (Outcome m v (.rename oldpath newpath)) v := by
  obtain ⟨d', hf⟩ := pathTarget_found ht
  have hd := parentTarget_reached hpar
  have hname : (renameName newpath).length ≤ 55 := by
    rw [renameName, length_take]
    exact Nat.min_le_left _ _
  unfold renameTo
  rw [wp_bind]
  refine wp_renameExists (h.legible hd) fun b => ?_
  cases htaken : nameTaken m v.data v.fat d (renameName newpath)
      (if (t.resolve v.data).dirCluster = d then some (t.resolve v.data).de.name else none) with
  | true => exact Outcome.refused h.idle (by decide)
  | false =>
    simp only [Bool.false_eq_true, if_false]
    rw [wp_bind]
    refine wp_movesIntoItself ?_
    cases hinto : intoItself m v.data (t.resolve v.data).de d with
    | true => exact Outcome.refused h.idle (by decide)
    | false =>
      simp only [Bool.false_eq_true, if_false]
      cases hcount : fatLfnCount (renameName newpath) with
      | none => exact Outcome.refused h.idle (by decide)
      | some n =>
        rw [wp_bind]
        refine wp_direntLocate (h.legible hf.reached_dirCluster) ?_
        cases hloc : locateRecord m v.data v.fat (t.resolve v.data).dirCluster
            (t.resolve v.data).de.name with
        | none => exact Outcome.refused h.idle (by decide)
        | some loc =>
          have hren : Renaming m v.data v.fat oldpath newpath t d loc n :=
            ⟨ht, hpar, hne, hdot, hmoves, htaken, hinto, hcount, hloc⟩
          obtain ⟨A, run, B, hl⟩ := locateRecord_some hloc
          simp only
          by_cases hplace : (t.resolve v.data).dirCluster = d ∧ n ≤ loc.lfn.length
          · obtain ⟨rfl, hn⟩ := hplace
            rw [if_pos ⟨rfl, hn⟩]
            exact wp_renameInPlace h.idle hl.locIn (Outcome.settled (.renamed hren hn))
          have hshort : t.dirCluster = d → loc.lfn.length < n := fun heq =>
            Nat.lt_of_not_le fun hn => hplace ⟨heq, hn⟩
          rw [if_neg hplace, wp_bind]
          refine wp_dirClaimRun (h.legible hd) ?_
          cases hrun : claimedRun m v.data v.fat d (n + 1) with
          | error rc => exact Outcome.refused h.idle (claimedRun_error hrun)
          | ok ps =>
            obtain ⟨hlen, A', B', hsplit, -, -⟩ := claimedRun_ok hrun
            refine wp_renameMove h.idle hl.locIn (fatLfnCount_le hname hcount) hlen
              (fun p hp => slots_ge (m := m) (l := chainOf m v.fat d) ?_)
              (Outcome.settled (.moved hren hshort hrun))
            rw [hsplit]
            simp [hp]

theorem wp_fatRenameImpl {oldpath newpath : Str} (h : Readable m v) :
    wp (volume m) (fatRenameImpl m oldpath newpath) (Outcome m v (.rename oldpath newpath)) v := by
  unfold fatRenameImpl
  rw [wp_bind]
  refine wp_fatResolvePath h ?_
  cases ht : pathTarget m v.data v.fat (pathTrim (oldpath.take 127)) with
  | none => exact Outcome.refused h.idle (by decide)
  | some t =>
    show wp _ (if renameName newpath = [] then _ else
      if renameName newpath = [46] ∨ renameName newpath = [46, 46] then _ else _) _ v
    by_cases hne : renameName newpath = []
    · rw [if_pos hne]
      exact Outcome.refused h.idle (by decide)
    rw [if_neg hne]
    by_cases hdot : renameName newpath = [46] ∨ renameName newpath = [46, 46]
    · rw [if_pos hdot]
      exact Outcome.refused h.idle (by decide)
    rw [if_neg hdot, wp_bind]
    refine wp_resolveParent h ?_
    cases hpar : parentTarget m v.data v.fat (pathParent (pathTrim (newpath.take 127)))
        Errno.enoent Errno.enotdir with
    | error rc => exact Outcome.refused h.idle (parentTarget_error (by decide) (by decide) hpar)
    | ok d =>
      show wp _ (if t.dirCluster = d ∧ strcaseEq t.name (renameName newpath) = true then _ else _) _ v
      by_cases hsame : t.dirCluster = d ∧ strcaseEq t.name (renameName newpath) = true
      · rw [if_pos hsame]
        obtain ⟨rfl, hcase⟩ := hsame
        exact ⟨h.idle, .same ht hpar hcase, fun _ hlba => Or.inl hlba, fun hne => absurd rfl hne⟩
      · rw [if_neg hsame]
        exact wp_renameTo h ht hpar hne (not_or.mp hdot) hsame

/-- **What a namespace call does** to a volume whose directories can be
read: it returns, with one of the effects. -/
theorem wp_nsOp (h : Readable m v) (op : NsOp) : wp (volume m) (op.prog m) (Outcome m v op) v := by
  cases op with
  | create path => exact wp_fatCreateImpl h
  | mkdir path => exact wp_fatMkdirImpl h
  | unlink path => exact wp_fatUnlinkImpl h
  | rmdir path => exact wp_fatRmdirImpl h
  | rename oldpath newpath => exact wp_fatRenameImpl h

end Lnxrm.Fat32
