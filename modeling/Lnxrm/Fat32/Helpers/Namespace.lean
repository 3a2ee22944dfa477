import Lnxrm.Fat32.Helpers.Places
import Lnxrm.Fat32.Helpers.Resolve

/-!
# FAT32 — the steps of the namespace calls on a volume

Proof layer. On a volume whose directories can be read (`Readable`), the
lookups of the namespace calls find what the volume says, and inside a
transaction (`During`) the updates do to its records what they should.
-/

namespace Lnxrm.Fat32

open Function
open Prog (wp wp_bind wp_pure)

variable {m : Mount} {v : Vol} {data : ℕ → Sector} {fat : ℕ → ℕ} {d c : ℕ} {l : List ℕ}
  {e : Dirent} {p : DirentPos} {want path : Str}
variable {Q : Unit → Vol → Prop} {n : ℕ} {t : Target}

/-- **A volume whose directories can be read**: every directory has a
chain that is on the device, and every file has a chain. -/
structure Readable (m : Mount) (v : Vol) : Prop where
  idle : v.active = false
  legible : ∀ {d}, Reached m v.data v.fat d → Legible m v d
  files : ∀ {d p}, Reached m v.data v.fat d → p ∈ slots m (chainOf m v.fat d) →
    (recOf v.data p).isFile = true → ∃ l, HasChain m v.fat (recOf v.data p).clus l

theorem isSubdir_of_isLive (h : e.isLive = true) (hd : e.isDir = true) : e.isSubdir = true := by
  simp only [Dirent.isLive, Bool.and_eq_true] at h
  simp [Dirent.isSubdir, h.1.1.2, h.1.2, h.2, hd]

theorem isFile_of_isLive (h : e.isLive = true) (hd : e.isDir = false) : e.isFile = true := by
  simp only [Dirent.isLive, Bool.and_eq_true] at h
  simp [Dirent.isFile, h.1.1.2, h.1.2, h.2, hd]

/-! ## Paths -/

/-- Where what a path names lies. -/
structure Found (m : Mount) (data : ℕ → Sector) (fat : ℕ → ℕ) (t : Target) (d : ℕ) : Prop where
  reached : Reached m data fat d
  mem : t.pos ∈ slots m (chainOf m fat d)
  live : (recOf data t.pos).isLive = true
  /-- a path with a slash at its end has the directory for its parent -/
  parent : t.dirCluster = d ∨ t.dirCluster = (recOf data t.pos).clus ∧ (recOf data t.pos).isDir = true

theorem targetFrom_found {trailing : Bool} (comps : List Str) :
    ∀ {cur : ℕ}, Reached m data fat cur → targetFrom m data fat trailing cur comps = some t →
      ∃ d, Found m data fat t d := by
  induction comps with
  | nil => exact fun _ ht => by cases ht
  | cons comp rest ih =>
    intro cur hcur ht
    rw [targetFrom] at ht
    by_cases hlen : 56 ≤ comp.length
    · simp [hlen] at ht
    rw [if_neg hlen] at ht
    cases hfind : findRecord m data fat cur comp with
    | none => simp [hfind] at ht
    | some p =>
      simp only [hfind] at ht
      obtain ⟨hp, hlive⟩ := findRecord_some hfind
      split_ifs at ht with hlast hdir hnil
      · cases ht
        exact ⟨cur, hcur, hp, hlive, Or.inl rfl⟩
      · cases ht
        exact ⟨cur, hcur, hp, hlive, Or.inr ⟨rfl, by simpa using hdir⟩⟩
      · exact ih (.sub hcur hp (isSubdir_of_isLive hlive (by simpa using hdir))) ht

/-- **What a path names** is a live record of a directory. -/
theorem pathTarget_found (h : pathTarget m data fat path = some t) : ∃ d, Found m data fat t d :=
  targetFrom_found _ .root h

theorem Found.reached_clus (h : Found m data fat t d)
    (hdir : (recOf data t.pos).isDir = true) : Reached m data fat (recOf data t.pos).clus :=
  .sub h.reached h.mem (isSubdir_of_isLive h.live hdir)

theorem Found.reached_dirCluster (h : Found m data fat t d) : Reached m data fat t.dirCluster := by
  rcases h.parent with heq | ⟨heq, hdir⟩
  · rw [heq]
    exact h.reached
  · rw [heq]
    exact h.reached_clus hdir

theorem Found.hasChain (h : Found m v.data v.fat t d) (hv : Readable m v) :
    ∃ l, HasChain m v.fat (recOf v.data t.pos).clus l := by
  cases hdir : (recOf v.data t.pos).isDir with
  | false => exact hv.files h.reached h.mem (isFile_of_isLive h.live hdir)
  | true =>
    obtain ⟨l, hl, -⟩ := hv.legible (h.reached_clus hdir)
    exact ⟨l, hl⟩

theorem parentTarget_reached {missing notDir : Int}
    (h : parentTarget m data fat path missing notDir = .ok d) : Reached m data fat d := by
  unfold parentTarget at h
  split_ifs at h with hnil
  · cases h
    exact .root
  cases ht : pathTarget m data fat path with
  | none => simp [ht] at h
  | some t =>
    obtain ⟨d', hf⟩ := pathTarget_found ht
    simp only [ht] at h
    split_ifs at h with hdir
    cases h
    exact hf.reached_clus hdir

theorem newTarget_ok {pd : ParentDir} (h : newTarget m data fat path = .ok pd) :
    Reached m data fat pd.cluster ∧ pd.name = pathTail (path.take 127) ∧ pd.name ≠ [] ∧
      findRecord m data fat pd.cluster pd.name = none := by
  unfold newTarget at h
  cases hpar : parentTarget m data fat (pathParent (path.take 127)) Errno.efail Errno.efail with
  | error e => simp [hpar] at h
  | ok d =>
    simp only [hpar] at h
    split_ifs at h with hnil
    cases hfind : findRecord m data fat d (pathTail (path.take 127)) with
    | some p => simp [hfind] at h
    | none =>
      simp only [hfind] at h
      cases h
      exact ⟨parentTarget_reached hpar, rfl, hnil, hfind⟩

/-- **Path resolution.** -/
theorem wp_fatResolvePath {Q : Option Resolve → Vol → Prop} (h : Readable m v)
    (hQ : Q ((pathTarget m v.data v.fat path).map (Target.resolve v.data)) v) :
    wp (volume m) (fatResolvePath m path) Q v := by
  refine wp_resolveFrom (R := fun cur _ => Reached m v.data v.fat cur) (fun hin => h.legible hin)
    (fun hin hfind hdir => ?_) _ .root hQ
  obtain ⟨hp, hlive⟩ := findRecord_some hfind
  exact .sub hin hp (isSubdir_of_isLive hlive hdir)

theorem wp_resolveParent {missing notDir : Int} {Q : Except Int ℕ → Vol → Prop} (h : Readable m v)
    (hQ : Q (parentTarget m v.data v.fat path missing notDir) v) :
    wp (volume m) (resolveParent m path missing notDir) Q v := by
  unfold resolveParent
  unfold parentTarget at hQ
  by_cases hnil : path = []
  · rw [if_pos hnil] at hQ ⊢
    exact hQ
  rw [if_neg hnil] at hQ ⊢
  rw [wp_bind]
  refine wp_fatResolvePath h ?_
  cases ht : pathTarget m v.data v.fat path with
  | none =>
    rw [ht] at hQ
    exact hQ
  | some t =>
    rw [ht] at hQ
    exact hQ

theorem wp_parentDirInit {Q : Except Int ParentDir → Vol → Prop} (h : Readable m v)
    (hQ : Q (newTarget m v.data v.fat path) v) :
    wp (volume m) (parentDirInit m path) Q v := by
  unfold parentDirInit
  unfold newTarget at hQ
  rw [wp_bind]
  refine wp_resolveParent h ?_
  cases hpar : parentTarget m v.data v.fat (pathParent (path.take 127)) Errno.efail Errno.efail with
  | error e =>
    simp only [hpar] at hQ
    exact hQ
  | ok d =>
    simp only [hpar] at hQ
    by_cases hnil : pathTail (path.take 127) = []
    · simp only [if_pos hnil] at hQ ⊢
      exact hQ
    simp only [if_neg hnil] at hQ ⊢
    rw [wp_bind]
    refine wp_fatScanFind (h.legible (parentTarget_reached hpar)) ?_
    cases hfind : findRecord m v.data v.fat d (pathTail (path.take 127)) with
    | none =>
      rw [hfind] at hQ
      exact hQ
    | some p =>
      rw [hfind] at hQ
      exact hQ

/-! ## Looking at a directory -/

/-- **Locating a record.** -/
theorem wp_direntLocate {sn : Fin 11 → UInt8} {Q : Option DirentLoc → Vol → Prop}
    (h : Legible m v d) (hQ : Q (locateRecord m v.data v.fat d sn) v) :
    wp (volume m) (direntLocate m d sn) Q v := by
  obtain ⟨l, hl, hclean⟩ := h
  unfold locateRecord at hQ
  rw [hl.chainOf_eq] at hQ
  unfold direntLocate
  rw [wp_bind]
  refine wp_scanDevice hl.toWalk hl.length_le hclean [] ?_
  generalize foldExit (fun run p => locateStep sn run p (recOf v.data p)) [] (slots m l) = x at hQ ⊢
  cases x <;> exact hQ

/-- **Claiming a run of slots.** -/
theorem wp_dirClaimRun {need : ℕ} {Q : Except Int (List DirentPos) → Vol → Prop}
    (h : Legible m v d) (hQ : Q (claimedRun m v.data v.fat d need) v) :
    wp (volume m) (dirClaimRun m d need) Q v := by
  obtain ⟨l, hl, hclean⟩ := h
  unfold claimedRun at hQ
  rw [hl.chainOf_eq] at hQ
  unfold dirClaimRun
  by_cases hneed : need = 0 ∨ lfnEntriesMax + 1 < need
  · rw [if_pos hneed] at hQ ⊢
    exact hQ
  · rw [if_neg hneed] at hQ ⊢
    rw [wp_bind]
    refine wp_scanDevice hl.toWalk hl.length_le hclean ([], false) ?_
    generalize foldExit (fun st p => claimStep need st p (recOf v.data p)) ([], false)
      (slots m l) = x at hQ ⊢
    cases x <;> exact hQ

/-- **The check of `fat_rmdir_impl`.** -/
theorem wp_dirIsEmpty {Q : Bool × ℕ → Vol → Prop} (h : Legible m v d)
    (hQ : ∀ empty count, emptyCheck m v.data v.fat d = (empty, count) → Q (empty, count) v) :
    wp (volume m) (dirIsEmpty m d) Q v := by
  obtain ⟨l, hl, -⟩ := h
  unfold emptyCheck at hQ
  rw [hl.chainOf_eq] at hQ
  unfold dirIsEmpty
  rw [wp_bind]
  refine wp_scanCached hl.toWalk hl.length_le (fun b buf hfind => ?_) fun r p hfind => ?_
  · exact hQ true b (by rw [hfind])
  · exact hQ r.1 r.2 (by rw [hfind])

theorem wp_dirDotdot {Q : ℕ → Vol → Prop} (hQ : Q (dotdotOf m v.data c) v) :
    wp (volume m) (dirDotdot m c) Q v := by
  unfold dirDotdot
  rw [wp_bind]
  refine wp_fatReadSector.mpr ⟨clusterLba_ge m c, ?_⟩
  dsimp only
  rw [if_neg (by simp)]
  unfold dotdotOf at hQ
  cases hfind : findDotdot (v.data (clusterLba m c)) with
  | none =>
    rw [hfind] at hQ
    exact hQ
  | some off =>
    rw [hfind] at hQ
    exact hQ

theorem wp_dirContainsFrom {dir : ℕ} {Q : Bool → Vol → Prop} (turns : ℕ) :
    ∀ {c : ℕ}, Q (containsFrom m v.data dir turns c) v →
      wp (volume m) (dirContainsFrom m dir turns c) Q v := by
  induction turns with
  | zero => exact fun hQ => hQ
  | succ turns ih =>
    intro c hQ
    rw [containsFrom] at hQ
    rw [dirContainsFrom]
    by_cases hin : 2 ≤ c ∧ c < m.maxCluster
    · rw [if_pos hin] at hQ ⊢
      by_cases heq : c = dir
      · rw [if_pos heq] at hQ ⊢
        exact hQ
      rw [if_neg heq] at hQ ⊢
      rw [wp_bind]
      refine wp_dirDotdot ?_
      by_cases hstop : dotdotOf m v.data c = c ∨ dotdotOf m v.data c < 2 ∨
          m.maxCluster ≤ dotdotOf m v.data c
      · simp only [if_pos hstop] at hQ ⊢
        exact hQ
      · simp only [if_neg hstop] at hQ ⊢
        exact ih hQ
    · rw [if_neg hin] at hQ ⊢
      exact hQ

theorem wp_movesIntoItself {Q : Bool → Vol → Prop} (hQ : Q (intoItself m v.data e d) v) :
    wp (volume m) (movesIntoItself m e d) Q v := by
  unfold movesIntoItself dirContains
  unfold intoItself at hQ
  cases hdir : e.isDir with
  | false =>
    rw [hdir] at hQ
    exact hQ
  | true =>
    rw [hdir, Bool.true_and] at hQ
    exact wp_dirContainsFrom 64 hQ

theorem wp_renameExists {skip : Option (Fin 11 → UInt8)} {Q : Bool × Bool → Vol → Prop}
    (h : Legible m v d) (hQ : ∀ b, Q (b, nameTaken m v.data v.fat d want skip) v) :
    wp (volume m) (fatScanDir m d (renameExistsCb want skip) false) Q v := by
  unfold nameTaken at hQ
  refine wp_fatScanDir h (fun st hfind => ?_) fun r p hfind => ?_
  · rw [hfind] at hQ
    exact hQ false
  · rw [hfind] at hQ
    exact hQ r.1

/-! ## Changing records -/

/-- **Inside a transaction**, after at most `n` updates, with these data
and this FAT. -/
structure During (n : ℕ) (data : ℕ → Sector) (fat : ℕ → ℕ) (v : Vol) : Prop where
  data_eq : v.data = data
  fat_eq : v.fat = fat
  txn : ∃ ks, InTxn v ks ∧ ks.length ≤ n

theorem wp_begin {Q : Int → Vol → Prop} (hidle : v.active = false)
    (hQ : ∀ v', During 0 v.data v.fat v' → Q 0 v') : wp (volume m) fat32JournalBegin Q v :=
  wp_fat32JournalBegin hidle fun htx => hQ _ ⟨rfl, rfl, [], htx, Nat.le_refl 0⟩

theorem During.wp_commit {Q : Int → Vol → Prop} (h : During n data fat v)
    (hQ : Q 0 (.settled data fat)) : wp (volume m) fat32JournalCommit Q v := by
  obtain ⟨rfl, rfl, ks, htx, -⟩ := h
  exact wp_fat32JournalCommit htx hQ

theorem During.wp_updateSector {n lba : ℕ} {x : Sector}
    (h : During n data fat v) (hn : n < Block.maxJournalEntries) (hl : m.dataStartLba ≤ lba)
    (hQ : ∀ v', During (n + 1) (update data lba x) fat v' → Q () v') :
    wp (volume m) (updateSector lba x) Q v := by
  obtain ⟨rfl, rfl, ks, htx, hlen⟩ := h
  refine Fat32.wp_updateSector htx hl (Or.inl (by omega)) fun log htx' => ?_
  exact hQ _ ⟨rfl, rfl, _, htx', by simpa using hlen⟩

theorem During.wp_direntWrite (h : During n data fat v)
    (hn : n < Block.maxJournalEntries) (hl : m.dataStartLba ≤ p.lba)
    (hQ : ∀ v', During (n + 1) (putAt data p e) fat v' → Q () v') :
    wp (volume m) (direntWrite m p e) Q v := by
  unfold direntWrite
  rw [wp_bind]
  refine ⟨hl, h.wp_updateSector hn hl fun v' hv' => hQ v' ?_⟩
  rwa [show v.data p.lba = data p.lba by rw [h.data_eq]] at hv'

theorem putRec_freedRecord (s : Sector) (off : ℕ) :
    putRec s off (freedRecord (recAt s off)) = update s off entE5 := by
  funext j
  unfold putRec freedRecord recAt
  by_cases hj : j = off
  · subst hj
    rw [dif_pos (by omega), update_self]
    have hzero : (⟨j - j, by omega⟩ : Fin 32) = 0 := Fin.ext (Nat.sub_self j)
    rw [hzero, update_self]
  rw [update_of_ne hj]
  by_cases hin : off ≤ j ∧ j < off + 32
  · rw [dif_pos hin, update_of_ne]
    · congr 1
      show off + (j - off) = j
      omega
    · intro h
      have hval := congrArg Fin.val h
      have hzero : j - off = 0 := hval
      omega
  · rw [dif_neg hin]

theorem freeAt_eq (data : ℕ → Sector) (p : DirentPos) :
    freeAt data p = update data p.lba (update (data p.lba) p.off entE5) := by
  rw [freeAt, putAt, recOf, putRec_freedRecord]

theorem During.wp_direntFree (h : During n data fat v)
    (hn : n < Block.maxJournalEntries) (hl : m.dataStartLba ≤ p.lba)
    (hQ : ∀ v', During (n + 1) (freeAt data p) fat v' → Q () v') :
    wp (volume m) (direntFree m p) Q v := by
  unfold direntFree
  rw [wp_bind]
  refine ⟨hl, h.wp_updateSector hn hl fun v' hv' => hQ v' ?_⟩
  rw [freeAt_eq]
  rwa [show v.data p.lba = data p.lba by rw [h.data_eq]] at hv'

theorem wp_direntFreeAll (ps : List DirentPos) :
    ∀ {n : ℕ} {data : ℕ → Sector} {v : Vol}, During n data fat v →
      n + ps.length ≤ Block.maxJournalEntries → (∀ p ∈ ps, m.dataStartLba ≤ p.lba) →
      (∀ v', During (n + ps.length) (ps.foldl freeAt data) fat v' → Q () v') →
      wp (volume m) (direntFreeAll m ps) Q v := by
  induction ps with
  | nil => exact fun h _ _ hQ => hQ _ h
  | cons p ps ih =>
    intro n data v h hn hl hQ
    simp only [List.length_cons] at hn
    rw [direntFreeAll, wp_bind]
    refine h.wp_direntFree (by omega) (hl p (by simp)) fun v' hv' => ?_
    refine ih hv' (by omega) (fun q hq => hl q (by simp [hq])) fun v'' hv'' => hQ v'' ?_
    have hlen : n + 1 + ps.length = n + (p :: ps).length := by
      rw [List.length_cons]
      omega
    rwa [hlen] at hv''

/-- The places of a located record. -/
structure LocIn (m : Mount) (loc : DirentLoc) : Prop where
  pos : m.dataStartLba ≤ loc.pos.lba
  lfn : ∀ p ∈ loc.lfn, m.dataStartLba ≤ p.lba
  short : loc.lfn.length ≤ lfnEntriesMax

theorem During.wp_freeDirentRecord {loc : DirentLoc}
    (h : During n data fat v) (hloc : LocIn m loc)
    (hn : n + lfnEntriesMax + 1 ≤ Block.maxJournalEntries)
    (hQ : ∀ v', During (n + lfnEntriesMax + 1) (freeLoc data loc) fat v' → Q () v') :
    wp (volume m) (freeDirentRecord m loc) Q v := by
  have hshort := hloc.short
  unfold freeDirentRecord
  rw [wp_bind]
  refine wp_direntFreeAll loc.lfn h (by omega) hloc.lfn fun v' hv' => ?_
  refine hv'.wp_direntFree (by omega) hloc.pos fun v'' hv'' => hQ v'' ?_
  obtain ⟨hd, hf, ks, htx, hlen⟩ := hv''
  exact ⟨hd, hf, ks, htx, by omega⟩

theorem wp_writeLfnRun {total : ℕ} {sum : UInt8} {nname : Str}
    (ps : List DirentPos) : ∀ {n : ℕ} {data : ℕ → Sector} {v : Vol}, During n data fat v →
      n + ps.length ≤ Block.maxJournalEntries → (∀ p ∈ ps, m.dataStartLba ≤ p.lba) →
      (∀ v', During (n + ps.length) (putLfns total sum nname ps data) fat v' → Q () v') →
      wp (volume m) (writeLfnRun m total sum nname ps) Q v := by
  induction ps with
  | nil => exact fun h _ _ hQ => hQ _ h
  | cons p ps ih =>
    intro n data v h hn hl hQ
    simp only [List.length_cons] at hn
    rw [writeLfnRun, wp_bind]
    refine h.wp_direntWrite (by omega) (hl p (by simp)) fun v' hv' => ?_
    refine ih hv' (by omega) (fun q hq => hl q (by simp [hq])) fun v'' hv'' => hQ v'' ?_
    have hlen : n + 1 + ps.length = n + (p :: ps).length := by
      rw [List.length_cons]
      omega
    rwa [hlen] at hv''

theorem During.wp_dirSetDotdot {n parent : ℕ} (h : During n data fat v)
    (hn : n < Block.maxJournalEntries)
    (hQ : ∀ v', During (n + 1) (setDotdot m data c parent) fat v' → Q () v') :
    wp (volume m) (dirSetDotdot m c parent) Q v := by
  obtain rfl := h.data_eq
  unfold dirSetDotdot
  rw [wp_bind]
  refine wp_fatReadSector.mpr ⟨clusterLba_ge m c, ?_⟩
  dsimp only
  rw [if_neg (by simp)]
  unfold setDotdot at hQ
  cases hfind : findDotdot (v.data (clusterLba m c)) with
  | none =>
    rw [hfind] at hQ
    obtain ⟨hd, hf, ks, htx, hlen⟩ := h
    exact hQ v ⟨hd, hf, ks, htx, by omega⟩
  | some off =>
    rw [hfind] at hQ
    exact h.wp_updateSector hn (clusterLba_ge m c) hQ

theorem During.wp_repointDotdot {moved : Option (ℕ × ℕ)}
    (h : During n data fat v) (hn : n < Block.maxJournalEntries)
    (hQ : ∀ v', During (n + 1) (repointed m data moved) fat v' → Q () v') :
    wp (volume m) (repointDotdot m moved) Q v := by
  cases moved with
  | none =>
    obtain ⟨hd, hf, ks, htx, hlen⟩ := h
    exact hQ v ⟨hd, hf, ks, htx, by omega⟩
  | some cp => exact h.wp_dirSetDotdot hn hQ

/-! ## Chains -/

theorem During.setEntry (h : During n data fat v) (c val : ℕ) :
    During n data (setEntry fat c val) { v with fat := Fat32.setEntry v.fat c val } := by
  obtain ⟨rfl, rfl, ks, htx, hlen⟩ := h
  exact ⟨rfl, rfl, ks, ⟨htx.active, htx.current, htx.keys, htx.room⟩, hlen⟩

theorem wp_freeChain (l : List ℕ) :
    ∀ {fuel c : ℕ} {fat : ℕ → ℕ} {v : Vol}, Walk (nextOf m fat) Ends c l → l.Nodup →
      (∀ x ∈ l, x < m.maxCluster) → l.length < fuel → During n data fat v →
      (∀ v', During n data (freed fat l) v' → Q () v') →
      wp (volume m) (freeChain m fuel c) Q v := by
  induction l with
  | nil =>
    intro fuel c fat v hw _ _ hfuel h hQ
    obtain ⟨fuel, rfl⟩ := Nat.exists_eq_succ_of_ne_zero (Nat.ne_zero_of_lt hfuel)
    have hend : Ends c := hw
    rw [freeChain, if_neg (by rcases hend with h | h <;> simp [h])]
    exact hQ v h
  | cons x l ih =>
    intro fuel c fat v hw hnd hlt hfuel h hQ
    obtain ⟨fuel, rfl⟩ := Nat.exists_eq_succ_of_ne_zero (Nat.ne_zero_of_lt hfuel)
    obtain ⟨rfl, hns, hrest⟩ := hw
    obtain ⟨hx, hnd⟩ := List.nodup_cons.mp hnd
    rw [freeChain, if_pos ⟨by simpa using fun h => hns (Or.inl h),
      Nat.le_of_not_lt fun h => hns (Or.inr h)⟩]
    simp only [wp_bind, wp_fatNextCluster]
    refine wp_fatSetEntry (hlt x (by simp)) ?_
    rw [h.fat_eq] at *
    have hkeep : Walk (nextOf m (Fat32.setEntry fat x 0)) Ends (nextOf m fat x) l := by
      refine hrest.congr fun y hy => ?_
      have hne : y ≠ x := fun heq => hx (heq ▸ hy)
      unfold nextOf
      rw [setEntry_of_ne hne]
    have hset := h.setEntry x 0
    rw [h.fat_eq] at hset
    exact ih hkeep hnd (fun y hy => hlt y (by simp [hy])) (by simpa using hfuel) hset hQ

theorem HasChain.wp_freeChain (hl : HasChain m fat c l)
    (h : During n data fat v) (hQ : ∀ v', During n data (freed fat (chainOf m fat c)) v' → Q () v') :
    wp (volume m) (freeChain m m.fuel c) Q v := by
  rw [hl.chainOf_eq] at hQ
  exact Fat32.wp_freeChain l hl.toWalk hl.nodup (fun x hx => (hl.range x hx).2)
    (Mount.lt_fuel hl.length_le) h hQ

theorem freed_cons (fat : ℕ → ℕ) (x : ℕ) (l : List ℕ) :
    freed fat (x :: l) = freed (setEntry fat x 0) l := rfl

theorem freed_of_not_mem (l : List ℕ) : ∀ {fat : ℕ → ℕ}, c ∉ l → freed fat l c = fat c := by
  induction l with
  | nil => exact fun _ => rfl
  | cons x l ih =>
    intro fat hc
    rw [List.mem_cons, not_or] at hc
    rw [freed_cons, ih hc.2, setEntry_of_ne hc.1]

theorem freed_mod_of_mem (l : List ℕ) : ∀ {fat : ℕ → ℕ}, c ∈ l → freed fat l c % 2 ^ 28 = 0 := by
  induction l with
  | nil => exact fun hc => by simp at hc
  | cons x l ih =>
    intro fat hc
    rw [freed_cons]
    by_cases hl : c ∈ l
    · exact ih hl
    · obtain rfl : c = x := by simpa [hl] using hc
      rw [freed_of_not_mem l hl, setEntry_self, Nat.zero_mod]

theorem HasChain.freed {l' : List ℕ} (h : HasChain m fat d l') (hdis : l.Disjoint l') :
    HasChain m (freed fat l) d l' :=
  h.congr fun x hx => by rw [freed_of_not_mem l fun hl => hdis hl hx]

theorem HasChain.chainOf_freed (h : HasChain m fat c l) : chainOf m (Fat32.freed fat l) c <+: l := by
  rcases h with ⟨rfl, rfl⟩ | ⟨hne, h⟩
  · have hzero : HasChain m (Fat32.freed fat []) 0 [] := Or.inl ⟨rfl, rfl⟩
    rw [hzero.chainOf_eq]
  obtain ⟨x, rest, rfl⟩ := List.exists_cons_of_ne_nil hne
  obtain rfl := h.head_eq
  have hx := h.range x (by simp)
  have hwalk : Walk (nextOf m (Fat32.freed fat (x :: rest))) Ends x [x] := by
    refine ⟨rfl, ?_, ?_⟩
    · rintro (he | hlt)
      · exact m.not_eoc_of_lt hx.2 he
      · omega
    · right
      rw [nextOf_of_lt hx.2, freed_mod_of_mem _ (by simp)]
      omega
  rw [chainOf, hwalk.walkFrom_eq (by simp; omega)]
  exact ⟨rest, rfl⟩

end Lnxrm.Fat32
