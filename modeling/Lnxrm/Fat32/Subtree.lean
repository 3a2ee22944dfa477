import Lnxrm.Common.Ancestor
import Lnxrm.Fat32.Unlink

/-!
# FAT32 — rename and the directory tree

Before it moves a directory `fat_rename_impl` walks up the `..` records of
the destination, 64 directories at most, and refuses if it meets the
directory. No path of 127 bytes leads deeper than that, so a destination
below the directory the path names is always found out
(`containsFrom_of_below`).

The record that is moved is the first one of the source directory with
the eleven bytes of the one the path names. Where that is another
directory, which was not looked for, it can end up inside itself
(`rename_outside_iff`).
-/

namespace Lnxrm.Fat32

open List

open Prog (wp)
open Relation (ReflTransGen)

variable {δ : Type} [DecidableEq δ] {m : Mount} {dev : δ} {s s' : Fs δ} {data : ℕ → Sector}
  {fat : ℕ → ℕ} {d c k dst : ℕ} {t : Target} {p q : DirentPos} {path oldpath newpath : Str}

/-! ## The tree -/

/-- A record of the directory `p`, other than a dot record, names the
directory `c`. -/
def Child (m : Mount) (data : ℕ → Sector) (fat : ℕ → ℕ) (p c : ℕ) : Prop :=
  Reached m data fat p ∧ ∃ q ∈ slots m (chainOf m fat p), (recOf data q).isSubdir = true ∧
    isDot (recOf data q) = false ∧ isDotdot (recOf data q) = false ∧ (recOf data q).clus = c

/-- The directory `c` is `d`, or lies below it. -/
def Below (m : Mount) (data : ℕ → Sector) (fat : ℕ → ℕ) (d c : ℕ) : Prop :=
  ReflTransGen (Child m data fat) d c

/-- **The directories are a tree**: the `..` record of a directory holds
its parent, the root's cluster for a child of the root, a `.` record the
directory itself, and the root is nobody's child. -/
structure DirTree (m : Mount) (data : ℕ → Sector) (fat : ℕ → ℕ) : Prop where
  tree : RootedTree m.rootCluster (Child m data fat) (dotdotOf m data)
  range : ∀ {p c}, Child m data fat p c → 2 ≤ c ∧ c < m.maxCluster
  dot : ∀ {d q}, Reached m data fat d → q ∈ slots m (chainOf m fat d) →
    (recOf data q).isSubdir = true → isDot (recOf data q) = true → (recOf data q).clus = d
  dotdot : ∀ {d q}, Reached m data fat d → q ∈ slots m (chainOf m fat d) →
    (recOf data q).isSubdir = true → isDotdot (recOf data q) = true →
    (recOf data q).clus = if d = m.rootCluster then m.rootCluster else dotdotOf m data d

/-- How deep a directory lies. -/
abbrev Depth (m : Mount) (data : ℕ → Sector) (fat : ℕ → ℕ) (c k : ℕ) : Prop :=
  Level m.rootCluster (Child m data fat) c k

theorem Depth.reached (h : Depth m data fat c k) : Reached m data fat c := by
  induction h with
  | root => exact .root
  | child _ hc ih =>
    obtain ⟨-, q, hq, hsub, -, -, rfl⟩ := hc
    exact .sub ih hq hsub

theorem ChainsApart.root_lt (ha : ChainsApart m data fat) : m.rootCluster < m.maxCluster := by
  have hge := m.root_ge
  obtain ⟨l, hl⟩ := ha.dir .root
  rcases hl with ⟨h0, -⟩ | ⟨hne, hchain⟩
  · omega
  · obtain ⟨x, xs, rfl⟩ := exists_cons_of_ne_nil hne
    have hx := (hchain.range x mem_cons_self).2
    rwa [hchain.head_eq] at hx

theorem DirTree.depth_range (ht : DirTree m data fat) (hroot : m.rootCluster < m.maxCluster)
    (h : Depth m data fat c k) : 2 ≤ c ∧ c < m.maxCluster := by
  cases h with
  | root => exact ⟨m.root_ge, hroot⟩
  | child _ hc => exact ht.range hc

/-- **The loop of `dir_contains` finds every directory it is below**, if
it may take more turns than there are directories above. -/
theorem containsFrom_of_below (ht : DirTree m data fat) (hroot : m.rootCluster < m.maxCluster)
    (turns : ℕ) :
    ∀ {c k : ℕ}, Depth m data fat c k → Below m data fat d c → k < turns →
      containsFrom m data d turns c = true := by
  induction turns with
  | zero => exact fun _ _ hk => absurd hk (Nat.not_lt_zero _)
  | succ turns ih =>
    intro c k hc hbelow hk
    rw [containsFrom, if_pos (ht.depth_range hroot hc)]
    by_cases heq : c = d
    · rw [if_pos heq]
    · obtain ⟨p, j, -, hup, hne, hbelow', hp, rfl⟩ := ht.tree.exists_parent hc hbelow heq
      have hrange := ht.depth_range hroot hp
      rw [if_neg heq, hup]
      rw [if_neg (by omega)]
      exact ih hp hbelow' (by omega)

/-! ## How deep a path leads -/

theorem DirTree.depth_step (ht : DirTree m data fat) (hd : Depth m data fat d k)
    (hq : q ∈ slots m (chainOf m fat d)) (hsub : (recOf data q).isSubdir = true) :
    ∃ j ≤ k + 1, Depth m data fat (recOf data q).clus j := by
  cases hdot : isDot (recOf data q) with
  | true =>
    rw [ht.dot hd.reached hq hsub hdot]
    exact ⟨k, by omega, hd⟩
  | false =>
    cases hdotdot : isDotdot (recOf data q) with
    | true =>
      rw [ht.dotdot hd.reached hq hsub hdotdot]
      cases hd with
      | root =>
        rw [if_pos rfl]
        exact ⟨0, by omega, .root⟩
      | @child p _ j hp hc =>
        rw [if_neg fun h => ht.tree.top (h ▸ hc), ht.tree.up_eq hc]
        exact ⟨j, by omega, hp⟩
    | false => exact ⟨k + 1, Nat.le_refl _, .child hd ⟨hd.reached, q, hq, hsub, hdot, hdotdot, rfl⟩⟩

theorem DirTree.targetFrom_depth (ht : DirTree m data fat) {trailing : Bool} (comps : List Str) :
    ∀ {cur k : ℕ}, Depth m data fat cur k → targetFrom m data fat trailing cur comps = some t →
      ∃ d j, Depth m data fat d j ∧ j + 1 ≤ k + comps.length ∧ t.pos ∈ slots m (chainOf m fat d) ∧
        (recOf data t.pos).isLive = true := by
  induction comps with
  | nil => exact fun _ htarget => by cases htarget
  | cons comp rest ih =>
    intro cur k hcur htarget
    rw [targetFrom] at htarget
    by_cases hlen : 56 ≤ comp.length
    · simp [hlen] at htarget
    rw [if_neg hlen] at htarget
    cases hfind : findRecord m data fat cur comp with
    | none => simp [hfind] at htarget
    | some p =>
      simp only [hfind] at htarget
      obtain ⟨hp, hlive⟩ := findRecord_some hfind
      rw [length_cons]
      split_ifs at htarget with hlast hdir hnil
      · cases htarget
        exact ⟨cur, k, hcur, by omega, hp, hlive⟩
      · cases htarget
        exact ⟨cur, k, hcur, by omega, hp, hlive⟩
      · obtain ⟨j, hj, hnext⟩ := ht.depth_step hcur hp
          (isSubdir_of_isLive hlive (by simpa using hdir))
        obtain ⟨d, i, hd, hi, hpos⟩ := ih hnext htarget
        exact ⟨d, i, hd, by omega, hpos⟩

theorem DirTree.parent_depth (ht : DirTree m data fat) {missing notDir : Int}
    (h : parentTarget m data fat path missing notDir = .ok d) :
    ∃ k ≤ (pathComponents path).length, Depth m data fat d k := by
  unfold parentTarget at h
  split_ifs at h with hnil
  · cases h
    exact ⟨0, Nat.zero_le _, .root⟩
  cases htarget : pathTarget m data fat path with
  | none => simp [htarget] at h
  | some t =>
    simp only [htarget] at h
    split_ifs at h with hdir
    cases h
    obtain ⟨d, j, hd, hj, hpos, hlive⟩ := ht.targetFrom_depth _ .root htarget
    obtain ⟨i, hi, hclus⟩ := ht.depth_step hd hpos (isSubdir_of_isLive hlive hdir)
    exact ⟨i, by omega, hclus⟩

theorem length_pathComponents (path : Str) : 2 * (pathComponents path).length ≤ path.length + 1 := by
  induction hn : path.length using Nat.strong_induction_on generalizing path with
  | _ n ih =>
    by_cases hmem : (47 : UInt8) ∈ path
    · obtain ⟨a, b, rfl⟩ := append_of_mem hmem
      rw [length_append, length_cons] at hn
      have ha := ih a.length (by omega) a rfl
      have hb := ih b.length (by omega) b rfl
      rw [pathComponents_append, length_append]
      omega
    · rw [pathComponents_of_not_mem hmem]
      by_cases hnil : path = []
      · simp [hnil]
      · have hpos : 0 < path.length := length_pos_iff.mpr hnil
        rw [if_neg hnil, length_singleton]
        omega

theorem length_pathTrim_le (path : Str) : (pathTrim path).length ≤ path.length := by
  unfold pathTrim
  simp only
  split_ifs with hnil
  · rw [length_take]
    omega
  · rw [length_reverse]
    have hle := (dropWhile_sublist (fun b : UInt8 => b == 47) (l := path.reverse)).length_le
    rwa [length_reverse] at hle

theorem length_newParent (newpath : Str) :
    (pathComponents (pathParent (pathTrim (newpath.take 127)))).length ≤ 63 := by
  have hcomps := length_pathComponents (pathParent (pathTrim (newpath.take 127)))
  have htrim := length_pathTrim_le (newpath.take 127)
  have hparent : (pathParent (pathTrim (newpath.take 127))).length ≤
      (pathTrim (newpath.take 127)).length - 1 := by
    unfold pathParent
    rw [length_take]
    omega
  rw [length_take] at htrim
  omega

/-! ## What is moved -/

/-- The record is in use, no long-name record, and has these eleven
bytes. -/
def isNamed (data : ℕ → Sector) (sn : Fin 11 → UInt8) (q : DirentPos) : Bool :=
  entryUsed (recOf data q) && !(recOf data q).isLfn && decide ((recOf data q).name = sn)

/-- **A rename moves the directory `d`**: it is what the record names that
`dirent_locate` finds, and with the new name that is a record of the
destination afterwards. -/
def MovesDir (m : Mount) (dev : δ) (s s' : Fs δ) (t : Target) (dst : ℕ) (nname : Str) (d : ℕ) :
    Prop :=
  ∃ loc s₁, Fs.call m dev (direntLocate m t.dirCluster (recOf (s.contents dev) t.pos).name) s =
      some (some loc, s₁) ∧
    loc.de.isDir = true ∧ loc.de.clus = d ∧ ∃ q ∈ slots m (chainOf m s'.fat dst),
      recOf (s'.contents dev) q = renamedRecord loc.de (nameToShort nname)

theorem Located.find? {sn : Fin 11 → UInt8} {ps A run B : List DirentPos} {loc : DirentLoc}
    (h : Located data sn ps loc A run B) : ps.find? (isNamed data sn) = some loc.pos := by
  have hpos : isNamed data sn loc.pos = true := by
    have hused := h.used
    have hshort := h.short
    have hname := h.name
    rw [h.de] at hused hshort hname
    simp [isNamed, hused, hshort, hname]
  have hbefore : (A ++ run).find? (isNamed data sn) = none := by
    refine find?_eq_none.mpr fun q hq hnamed => ?_
    simp only [isNamed, Bool.and_eq_true, Bool.not_eq_true', decide_eq_true_eq] at hnamed
    exact (h.before q hq).2 hnamed.1.1 hnamed.1.2 hnamed.2
  rw [h.split, find?_append, hbefore, find?_cons_of_pos hpos]
  rfl

theorem DirTree.target_depth (ht : DirTree m data fat) (htarget : pathTarget m data fat path = some t)
    (hdir : (recOf data t.pos).isDir = true) : ∃ k, Depth m data fat (recOf data t.pos).clus k := by
  obtain ⟨d, j, hd, -, hpos, hlive⟩ := ht.targetFrom_depth _ .root htarget
  obtain ⟨k, -, hk⟩ := ht.depth_step hd hpos (isSubdir_of_isLive hlive hdir)
  exact ⟨k, hk⟩

/-- **The destination is not below the directory the path names.** -/
theorem Renaming.not_below {loc : DirentLoc} {n : ℕ} (ht : DirTree m data fat)
    (hroot : m.rootCluster < m.maxCluster) (h : Renaming m data fat oldpath newpath t dst loc n)
    (hdir : (recOf data t.pos).isDir = true) :
    ¬ Below m data fat (recOf data t.pos).clus dst := by
  intro hbelow
  obtain ⟨k, hk, hdst⟩ := ht.parent_depth h.parent
  have hlen := length_newParent newpath
  have hin := containsFrom_of_below ht hroot 64 hdst hbelow (by omega)
  have hout := h.outside
  rw [intoItself, hdir, hin] at hout
  cases hout

/-- **A rename that does something** writes the record it has located to
the destination. -/
theorem Effect.renamed_place {data' : ℕ → Sector} {fat' : ℕ → ℕ} (ha : ChainsApart m data fat)
    (htree : DirTree m data fat) (h : Effect m data fat (.rename oldpath newpath) 0 data' fat')
    (ht : pathTarget m data fat (pathTrim (oldpath.take 127)) = some t)
    (hdst : parentTarget m data fat (pathParent (pathTrim (newpath.take 127)))
      Errno.enoent Errno.enotdir = .ok dst)
    (hmoves : ¬ (t.dirCluster = dst ∧ strcaseEq t.name (renameName newpath) = true)) :
    fat' = fat ∧ ∃ loc n, Renaming m data fat oldpath newpath t dst loc n ∧
      ∃ q ∈ slots m (chainOf m fat dst),
        recOf data' q = renamedRecord loc.de (nameToShort (renameName newpath)) := by
  cases h with
  | refused hne => exact absurd rfl hne
  | @same _ _ t' ht' hpar hcase =>
    obtain rfl : t = t' := Option.some.inj (ht.symm.trans ht')
    obtain rfl : dst = t.dirCluster := Except.ok.inj (hdst.symm.trans hpar)
    exact absurd ⟨rfl, hcase⟩ hmoves
  | @renamed _ _ t' loc n hren hle =>
    obtain rfl : t = t' := Option.some.inj (ht.symm.trans hren.target)
    obtain rfl : dst = t.dirCluster := Except.ok.inj (hdst.symm.trans hren.parent)
    obtain ⟨A, run, B, hL⟩ := locateRecord_some hren.located
    exact ⟨rfl, loc, n, hren, loc.pos, hL.pos_mem, recOf_putAt_self⟩
  | @moved _ _ t' d loc n ps hren hlong hclaim =>
    obtain rfl : t = t' := Option.some.inj (ht.symm.trans hren.target)
    obtain rfl : dst = d := Except.ok.inj (hdst.symm.trans hren.parent)
    refine ⟨rfl, loc, n, hren, ?_⟩
    obtain ⟨A, run, B, hL⟩ := locateRecord_some hren.located
    obtain ⟨hlen, A', B', hsplit, -, hblank⟩ := claimedRun_ok hclaim
    have hlt : n < ps.length := by omega
    have hmem : ps.getD n ⟨0, 0⟩ ∈ ps := by
      rw [getD_eq_getElem _ _ hlt]
      exact getElem_mem hlt
    have hslot : ps.getD n ⟨0, 0⟩ ∈ slots m (chainOf m fat dst) := by
      rw [hsplit]
      exact mem_append_left _ (mem_append_right _ hmem)
    generalize ps.getD n ⟨0, 0⟩ = q at hmem hslot ⊢
    refine ⟨q, hslot, ?_⟩
    have hal : Aligned q := aligned_of_mem_slots hslot
    -- the place is not one of those that are freed: it was free before
    have hfree : q ∉ loc.lfn ++ [loc.pos] := by
      intro hq
      have hused : entryUsed (recOf data q) = true := by
        rcases mem_append.mp hq with hq | hq
        · exact (hL.long q (hL.lfn_subset q hq)).1
        · rw [mem_singleton.mp hq, ← hL.de]
          exact hL.used
      rcases hblank q hmem with h0 | h0
      · simp [entryUsed, h0] at hused
      · simp [entryUsed, h0] at hused
    have hloc : ∀ p ∈ loc.lfn ++ [loc.pos], Aligned p := by
      intro p hp
      rcases mem_append.mp hp with hp | hp
      · exact aligned_of_mem_slots (hL.lfn_mem p hp)
      · rw [mem_singleton.mp hp]
        exact aligned_of_mem_slots hL.pos_mem
    have hwritten : ∀ data₁ : ℕ → Sector, recOf (freeLoc (putAt data₁ q
        (renamedRecord loc.de (nameToShort (renameName newpath)))) loc) q =
          renamedRecord loc.de (nameToShort (renameName newpath)) := by
      intro data₁
      rw [recOf_freeLoc hloc hal, if_neg hfree, recOf_putAt_self]
    by_cases hmv : (recOf data t.pos).isDir = true ∧ t.dirCluster ≠ dst
    · rw [if_pos hmv]
      obtain ⟨k, hk⟩ := htree.target_depth hren.target hmv.1
      have hne : (recOf data t.pos).clus ≠ dst := by
        intro heq
        refine hren.not_below htree ha.root_lt hmv.1 ?_
        rw [heq]
        exact .refl
      rw [repointed, recOf_repointed ha hk.reached (htree.depth_range ha.root_lt hk)
        (parentTarget_reached hren.parent) hne hslot]
      exact hwritten _
    · rw [if_neg hmv]
      exact hwritten _

/-! ## Rename -/

/-- **A rename moves no directory into itself exactly where** the first
record of the source directory with the eleven bytes of the one the path
names is that record itself, or no directory with the destination in
it. -/
theorem rename_outside_iff (hs : Resting m dev s) (ha : ChainsApart m (s.contents dev) s.fat)
    (htree : DirTree m (s.contents dev) s.fat)
    (hcall : Fs.call m dev (fatRenameImpl m oldpath newpath) s = some (0, s'))
    (ht : pathTarget m (s.contents dev) s.fat (pathTrim (oldpath.take 127)) = some t)
    (hdst : parentTarget m (s.contents dev) s.fat (pathParent (pathTrim (newpath.take 127)))
      Errno.enoent Errno.enotdir = .ok dst)
    (hmoves : ¬ (t.dirCluster = dst ∧ strcaseEq t.name (renameName newpath) = true)) :
    (∀ d, MovesDir m dev s s' t dst (renameName newpath) d →
        ¬ Below m (s.contents dev) s.fat d dst) ↔
      ∀ q, (slots m (chainOf m s.fat t.dirCluster)).find?
          (isNamed (s.contents dev) (recOf (s.contents dev) t.pos).name) = some q →
        q ≠ t.pos → (recOf (s.contents dev) q).isDir = true →
        ¬ Below m (s.contents dev) s.fat (recOf (s.contents dev) q).clus dst := by
  have hread := hs.readable ha
  have hwp : wp (volume m) (fatRenameImpl m oldpath newpath)
      (Outcome m (s.volumeOf dev) (.rename oldpath newpath)) (s.volumeOf dev) :=
    wp_fatRenameImpl hread
  obtain ⟨rc, s₂, v', hcall', hout, hb⟩ := hs.backs.call hwp
  obtain ⟨rfl, rfl⟩ := Prod.mk.inj (Option.some.inj (hcall.symm.trans hcall'))
  obtain ⟨hfat, loc, n, hren, q₀, hq₀, hrec⟩ :=
    Effect.renamed_place ha htree hout.effect ht hdst hmoves
  obtain ⟨d', hf⟩ := pathTarget_found ht
  have hloc : wp (volume m) (direntLocate m t.dirCluster (recOf (s.contents dev) t.pos).name)
      (fun r _ => r = some loc) (s.volumeOf dev) :=
    wp_direntLocate (hread.legible hf.reached_dirCluster) hren.located
  obtain ⟨r, s₁, -, hlocate, rfl, -⟩ := hs.backs.call hloc
  obtain ⟨A, run, B, hL⟩ := locateRecord_some hren.located
  constructor
  · intro hprop q hq _ hdir
    have hpos : loc.pos = q := Option.some.inj (hL.find?.symm.trans hq)
    have hde : loc.de = recOf (s.contents dev) q := by
      rw [← hpos]
      exact hL.de
    rw [← hde] at hdir ⊢
    refine hprop _ ⟨loc, s₁, hlocate, hdir, rfl, q₀, ?_, ?_⟩
    · rw [hb.fat, hfat]
      exact hq₀
    · have hview : s'.contents dev q₀.lba = v'.data q₀.lba := hb.view _ (slots_ge hq₀)
      rw [← hrec, recOf, recOf, hview]
  rintro hcond d ⟨loc', s₁', hlocate', hdir, rfl, -⟩
  obtain ⟨hsome, -⟩ := Prod.mk.inj (Option.some.inj (hlocate.symm.trans hlocate'))
  obtain rfl : loc = loc' := Option.some.inj hsome
  have hde : loc.de = recOf (s.contents dev) loc.pos := hL.de
  by_cases hpos : loc.pos = t.pos
  · rw [hde, hpos] at hdir ⊢
    exact hren.not_below htree ha.root_lt hdir
  · rw [hde] at hdir ⊢
    exact hcond loc.pos hL.find? hpos hdir

/-! ## Small trees -/

section Small

variable {D : List ℕ}

/-- The directories of a volume are among those of a list that leads
nowhere else. -/
theorem reached_mem (hroot : m.rootCluster ∈ D)
    (hD : ∀ d ∈ D, ∀ q ∈ slots m (chainOf m fat d), (recOf data q).isSubdir = true →
      (recOf data q).clus ∈ D) (h : Reached m data fat d) : d ∈ D :=
  h.mem_of_leads hroot fun d hd q hq hsub => hD d hd q hq hsub

theorem dirTree_of_mem (hroot : m.rootCluster ∈ D)
    (hD : ∀ d ∈ D, ∀ q ∈ slots m (chainOf m fat d), (recOf data q).isSubdir = true →
      (recOf data q).clus ∈ D ∧
      (isDot (recOf data q) = true → (recOf data q).clus = d) ∧
      (isDotdot (recOf data q) = true →
        (recOf data q).clus = if d = m.rootCluster then m.rootCluster else dotdotOf m data d) ∧
      (isDot (recOf data q) = false → isDotdot (recOf data q) = false →
        (2 ≤ (recOf data q).clus ∧ (recOf data q).clus < m.maxCluster) ∧
          (recOf data q).clus ≠ m.rootCluster ∧ dotdotOf m data (recOf data q).clus = d)) :
    DirTree m data fat := by
  have hmem : ∀ {d}, Reached m data fat d → d ∈ D :=
    fun h => reached_mem hroot (fun d hd q hq hsub => (hD d hd q hq hsub).1) h
  refine ⟨⟨?_, ?_⟩, ?_, ?_, ?_⟩
  · rintro p c ⟨hp, q, hq, hsub, hdot, hdotdot, rfl⟩
    exact ((hD p (hmem hp) q hq hsub).2.2.2 hdot hdotdot).2.2
  · rintro p ⟨hp, q, hq, hsub, hdot, hdotdot, heq⟩
    exact ((hD p (hmem hp) q hq hsub).2.2.2 hdot hdotdot).2.1 heq
  · rintro p c ⟨hp, q, hq, hsub, hdot, hdotdot, rfl⟩
    exact ((hD p (hmem hp) q hq hsub).2.2.2 hdot hdotdot).1
  · exact fun hd hq hsub hdot => (hD _ (hmem hd) _ hq hsub).2.1 hdot
  · exact fun hd hq hsub hdotdot => (hD _ (hmem hd) _ hq hsub).2.2.1 hdotdot

/-- The conditions of `ChainsApart`, for each directory of a list, if
there are no files. -/
theorem chainsApart_of_mem (hroot : m.rootCluster ∈ D)
    (hchain : ∀ d ∈ D, HasChain m fat d (chainOf m fat d))
    (hdis : ∀ d ∈ D, ∀ d' ∈ D, d ≠ d' → ∀ x ∈ chainOf m fat d, x ∉ chainOf m fat d')
    (hD : ∀ d ∈ D, ∀ q ∈ slots m (chainOf m fat d), (recOf data q).isFile = false ∧
      ((recOf data q).isSubdir = true → (recOf data q).clus ∈ D)) : ChainsApart m data fat := by
  have hmem : ∀ {d}, Reached m data fat d → d ∈ D :=
    fun h => reached_mem hroot (fun d hd q hq => (hD d hd q hq).2) h
  constructor
  · exact fun hd => ⟨_, hchain _ (hmem hd)⟩
  · exact fun hd hd' hne x hx hx' => hdis _ (hmem hd) _ (hmem hd') hne x hx hx'
  · intro d p hd hp hfile
    rw [(hD d (hmem hd) p hp).1] at hfile
    cases hfile

end Small

/-- A root directory with these records, and empty directories in the
clusters 3 and 4. -/
def treeFs (rs : List Dirent) : Fs Unit :=
  freshFs
    (fun lba => if lba = 2 then fun i => rs.getD (i / 32) (fun _ => 0) (Fin.ofNat 32 i)
      else if lba = 3 then dirSector 3 2 else if lba = 4 then dirSector 4 2 else fun _ => 0)
    fun c => if c < 5 then 0x0FFFFFFF else 0

/-- The record of a directory in this cluster. -/
def dirRecord (name : Str) (c : ℕ) : Dirent := newRecord name (attrDir ||| attrArchive) c

/-- The directories `a` and `b`. -/
def pairFs : Fs Unit := treeFs [dirRecord [97] 3, dirRecord [98] 4]

theorem pairFs_dirTree : DirTree smallMount (pairFs.contents ()) pairFs.fat := by
  have hroot : smallMount.rootCluster ∈ [2, 3, 4] := by decide
  exact dirTree_of_mem hroot (by decide +kernel)

theorem pairFs_chainsApart : ChainsApart smallMount (pairFs.contents ()) pairFs.fat := by
  have hroot : smallMount.rootCluster ∈ [2, 3, 4] := by decide
  exact chainsApart_of_mem hroot (by decide) (by decide) (by decide +kernel)

/-- `a` is moved into `b`, which is not below it. -/
theorem pair_moves_outside : ∃ s' t,
    Fs.call smallMount () (fatRenameImpl smallMount [47, 97] [47, 98, 47, 120]) pairFs =
        some (0, s') ∧
      pathTarget smallMount (pairFs.contents ()) pairFs.fat [47, 97] = some t ∧
      ∀ d, MovesDir smallMount () pairFs s' t 4 [120] d →
        ¬ Below smallMount (pairFs.contents ()) pairFs.fat d 4 := by
  have hrc : (Fs.call smallMount () (fatRenameImpl smallMount [47, 97] [47, 98, 47, 120]) pairFs).map
      Prod.fst = some 0 := by decide +kernel
  have htarget : (pathTarget smallMount (pairFs.contents ()) pairFs.fat [47, 97]).map
      (fun t => (t.dirCluster, t.pos)) = some (2, ⟨2, 0⟩) := by decide +kernel
  have hdst : parentTarget smallMount (pairFs.contents ()) pairFs.fat
      (pathParent (pathTrim ([47, 98, 47, 120].take 127))) Errno.enoent Errno.enotdir = .ok 4 := by
    decide +kernel
  obtain ⟨⟨rc, s'⟩, hcall, rfl⟩ := Option.map_eq_some_iff.mp hrc
  obtain ⟨t, ht, hpair⟩ := Option.map_eq_some_iff.mp htarget
  obtain ⟨hdir, hpos⟩ := Prod.mk.inj hpair
  have hfirst : ∀ q, (slots smallMount (chainOf smallMount pairFs.fat 2)).find?
      (isNamed (pairFs.contents ()) (recOf (pairFs.contents ()) ⟨2, 0⟩).name) = some q →
        q = ⟨2, 0⟩ := by
    intro q hq
    have hfind : (slots smallMount (chainOf smallMount pairFs.fat 2)).find?
        (isNamed (pairFs.contents ()) (recOf (pairFs.contents ()) ⟨2, 0⟩).name) =
          some ⟨2, 0⟩ := by decide +kernel
    exact Option.some.inj (hq.symm.trans hfind)
  refine ⟨s', t, hcall, ht, (rename_outside_iff (freshFs_mounted smallMount _ _).resting
    pairFs_chainsApart pairFs_dirTree hcall ht hdst ?_).mpr fun q hq hne => ?_⟩
  · rw [hdir]
    exact fun h => absurd h.1 (by decide)
  · rw [hdir, hpos] at hq
    rw [hpos] at hne
    exact absurd (hfirst q hq) hne

/-- A name whose eleven bytes start with a byte over `0x7F`. -/
def twinName : Str := [0x80, 97, 97, 97, 97, 97, 97, 97, 98]

/-- Two directories with the same eleven bytes, the second with a long
name. -/
def twinFs : Fs Unit :=
  treeFs (dirRecord twinName 3 :: lfnRun 1 (lfnChecksum (nameToShort twinName)) twinName 1 ++
    [dirRecord twinName 4])

theorem twinFs_dirTree : DirTree smallMount (twinFs.contents ()) twinFs.fat := by
  have hroot : smallMount.rootCluster ∈ [2, 3, 4] := by decide
  exact dirTree_of_mem hroot (by decide +kernel)

/-- **A directory is moved into itself**: the long name leads to the
directory in cluster 4, the record that is moved is that of the directory
in cluster 3, and the destination is that directory. -/
theorem twin_moves_into_itself : DirTree smallMount (twinFs.contents ()) twinFs.fat ∧
    ∃ s' t, Fs.call smallMount () (fatRenameImpl smallMount (47 :: twinName)
        (47 :: twinName.take 8 ++ [47, 120])) twinFs = some (0, s') ∧
      pathTarget smallMount (twinFs.contents ()) twinFs.fat (47 :: twinName) = some t ∧
      (recOf (twinFs.contents ()) t.pos).clus = 4 ∧
      MovesDir smallMount () twinFs s' t 3 [120] 3 ∧
      Below smallMount (twinFs.contents ()) twinFs.fat 3 3 := by
  have hcall : (Fs.call smallMount () (fatRenameImpl smallMount (47 :: twinName)
      (47 :: twinName.take 8 ++ [47, 120])) twinFs).map (fun r => (r.1,
        recOf (r.2.contents ()) ⟨3, 64⟩,
        decide (⟨3, 64⟩ ∈ slots smallMount (chainOf smallMount r.2.fat 3)))) =
      some (0, renamedRecord (dirRecord twinName 3) (nameToShort [120]), true) := by decide +kernel
  have htarget : (pathTarget smallMount (twinFs.contents ()) twinFs.fat (47 :: twinName)).map
      (fun t => (t.dirCluster, t.pos)) = some (2, ⟨2, 64⟩) := by decide +kernel
  have hclus : (recOf (twinFs.contents ()) ⟨2, 64⟩).clus = 4 := by decide +kernel
  have hlocate : (Fs.call smallMount () (direntLocate smallMount 2
      (recOf (twinFs.contents ()) ⟨2, 64⟩).name) twinFs).map (fun r => r.1.map (·.de)) =
        some (some (dirRecord twinName 3)) := by decide +kernel
  obtain ⟨⟨rc, s'⟩, hcall, hres⟩ := Option.map_eq_some_iff.mp hcall
  obtain ⟨t, ht, hpair⟩ := Option.map_eq_some_iff.mp htarget
  obtain ⟨⟨r, s₁⟩, hloc, hde⟩ := Option.map_eq_some_iff.mp hlocate
  obtain ⟨loc, rfl, hlde⟩ := Option.map_eq_some_iff.mp hde
  simp only [Prod.mk.injEq, decide_eq_true_eq] at hres hpair
  obtain ⟨rfl, hrec, hmem⟩ := hres
  obtain ⟨hdir, hpos⟩ := hpair
  refine ⟨twinFs_dirTree, s', t, hcall, ht, by rw [hpos]; exact hclus, ?_, .refl⟩
  refine ⟨loc, s₁, by rw [hdir, hpos]; exact hloc, ?_, ?_, ⟨3, 64⟩, hmem, ?_⟩
  · rw [hlde]
    decide
  · rw [hlde]
    decide
  · rw [hlde]
    exact hrec

/-- The calls make such a volume: two directories by one name, and a
longer name for the first. -/
example : (do
    let (_, s) ← Fs.call smallMount () (fatMkdirImpl smallMount (47 :: twinName)) blankFs
    let (_, s) ← Fs.call smallMount () (fatMkdirImpl smallMount (47 :: twinName)) s
    let (_, s) ← Fs.call smallMount ()
      (fatRenameImpl smallMount (47 :: twinName.take 8) (47 :: twinName)) s
    let (rc, s) ← Fs.call smallMount ()
      (fatRenameImpl smallMount (47 :: twinName) (47 :: twinName.take 8 ++ [47, 120])) s
    pure (rc, (recOf (s.contents ()) ⟨4, 64⟩).isSubdir, (recOf (s.contents ()) ⟨4, 64⟩).clus)) =
      some (0, true, 4) := by
  decide +kernel

end Lnxrm.Fat32
