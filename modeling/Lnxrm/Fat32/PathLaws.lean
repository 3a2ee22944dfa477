import Lnxrm.Fat32.Helpers.Walks
import Lnxrm.Fat32.Subtree

/-!
# FAT32 — two laws of paths

A slash behind the path of a directory should not change what the path
names, and `..` should lead back to the directory that was left.

`fat_resolve_path` has two exits for its last component. The one for a
path with a slash at its end puts the directory's own cluster where the
other one puts the parent's, so the two spellings agree only for a
directory that is its own parent (`trailing_slash_iff`).

It takes the cluster of a `..` record literally. By the convention of the
format that is 0 for a child of the root, where no directory starts; the
driver itself writes the root's cluster there. So `..` leads back exactly
where the record does not hold 0 (`dotdot_iff`).
-/

namespace Lnxrm.Fat32

open List

open Prog (exec exec_bind wp)

variable {δ : Type} [DecidableEq δ] {m : Mount} {dev : δ} {s s' : Fs δ} {data : ℕ → Sector}
  {fat : ℕ → ℕ} {d c k : ℕ} {t : Target} {r : Resolve} {p q name : Str} {trailing : Bool}

/-! ## A slash at the end -/

/-- What a slash behind a path makes of the record it names: only a
directory is found, and it stands for its parent. -/
def ownParent (r : Resolve) : Option Resolve :=
  if r.de.isDir then some { r with dirCluster := r.de.clus } else none

/-- **The two exits of `fat_resolve_path`**, in any state of any storage:
with the slash it makes the same reads and returns the same record. -/
theorem exec_resolveFrom_trailing {σ : Type} (impl : (o : FatOp) → σ → o.Resp × σ)
    (comps : List Str) : ∀ (cur : ℕ) (st : σ), exec impl (resolveFrom m true cur comps) st =
        (exec impl (resolveFrom m false cur comps) st).map fun r => (r.1.bind ownParent, r.2) := by
  induction comps with
  | nil => exact fun _ _ => rfl
  | cons comp rest ih =>
    intro cur st
    rw [resolveFrom, resolveFrom]
    by_cases hlen : 56 ≤ comp.length
    · rw [if_pos hlen, if_pos hlen]
      rfl
    rw [if_neg hlen, if_neg hlen, exec_bind, exec_bind]
    cases exec impl (fatScanFind m cur comp) st with
    | none => rfl
    | some found =>
      obtain ⟨e, st'⟩ := found
      cases e with
      | none => rfl
      | some e =>
        by_cases hrest : rest = []
        · cases hdir : e.isDir <;> simp [hrest, hdir, ownParent, exec, pure]
        · cases hdir : e.isDir with
          | false => simp [hrest, hdir, exec, pure]
          | true => simpa [hrest, hdir] using ih e.clus st'

theorem trailingSlash_append_slashes (p : Str) (hk : 1 ≤ k) :
    trailingSlash (p ++ replicate k 47) = true := by
  obtain ⟨k, rfl⟩ : ∃ j, k = j + 1 := ⟨k - 1, by omega⟩
  rw [trailingSlash, replicate_succ', ← append_assoc, getLast?_concat]
  rfl

theorem fatResolvePath_append_slashes (m : Mount) (p : Str) (hk : 1 ≤ k) :
    fatResolvePath m (p ++ replicate k 47) =
      resolveFrom m true m.rootCluster (pathComponents p) := by
  have hcomps : pathComponents (p ++ replicate k 47) = pathComponents p :=
    pathComponents_append_slashes fun b hb => (mem_replicate.mp hb).2
  rw [fatResolvePath, trailingSlash_append_slashes p hk, hcomps]

theorem fatRmdirImpl_call_congr
    (h : Fs.call m dev (fatResolvePath m p) s = Fs.call m dev (fatResolvePath m q) s) :
    Fs.call m dev (fatRmdirImpl m p) s = Fs.call m dev (fatRmdirImpl m q) s := by
  unfold Fs.call at h ⊢
  rw [fatRmdirImpl, fatRmdirImpl, exec_bind, exec_bind, h]

/-- **Slashes behind the path of a directory change nothing** exactly if
the record the path names points at the directory it lies in, as a `.`
record does. -/
theorem trailing_slash_iff (hp : trailingSlash p = false)
    (hres : Fs.call m dev (fatResolvePath m p) s = some (some r, s')) (hdir : r.de.isDir = true)
    (hk : 1 ≤ k) :
    (Fs.call m dev (fatResolvePath m (p ++ replicate k 47)) s = some (some r, s') ∧
        Fs.call m dev (fatRmdirImpl m (p ++ replicate k 47)) s =
          Fs.call m dev (fatRmdirImpl m p) s) ↔
      r.de.clus = r.dirCluster := by
  have hslash : Fs.call m dev (fatResolvePath m (p ++ replicate k 47)) s =
      some (some { r with dirCluster := r.de.clus }, s') := by
    rw [fatResolvePath, hp, Fs.call] at hres
    rw [fatResolvePath_append_slashes m p hk, Fs.call, exec_resolveFrom_trailing, hres]
    simp [ownParent, hdir]
  constructor
  · rintro ⟨hsame, -⟩
    have hr := Option.some.inj (Prod.mk.inj (Option.some.inj (hslash.symm.trans hsame))).1
    exact congrArg Resolve.dirCluster hr
  · intro hclus
    have hsame : Fs.call m dev (fatResolvePath m (p ++ replicate k 47)) s = some (some r, s') := by
      rw [hslash, hclus]
    exact ⟨hsame, fatRmdirImpl_call_congr (hsame.trans hres.symm)⟩

/-- The `.` record of `a` lies in `a`: a slash behind `/a/.` is harmless. -/
theorem dot_trailing_slash : ∃ r s',
    Fs.call smallMount () (fatResolvePath smallMount [47, 97, 47, 46]) pairFs = some (some r, s') ∧
      Fs.call smallMount () (fatResolvePath smallMount ([47, 97, 47, 46] ++ replicate 2 47))
        pairFs = some (some r, s') := by
  have hcall : (Fs.call smallMount () (fatResolvePath smallMount [47, 97, 47, 46]) pairFs).map
      (fun x => x.1.map fun r => (r.de.isDir, r.de.clus, r.dirCluster)) =
        some (some (true, 3, 3)) := by decide +kernel
  obtain ⟨⟨found, s'⟩, hres, hfound⟩ := Option.map_eq_some_iff.mp hcall
  obtain ⟨r, rfl, hr⟩ := Option.map_eq_some_iff.mp hfound
  simp only [Prod.mk.injEq] at hr
  refine ⟨r, s', hres, ((trailing_slash_iff (by decide) hres hr.1 (by decide)).mpr ?_).1⟩
  rw [hr.2.1, hr.2.2]

/-- **A slash keeps a directory from being removed**: with it the parent of
`a` is cluster 3, where no record of `a` is found. -/
theorem slash_keeps_directory :
    (Fs.call smallMount () (fatResolvePath smallMount [47, 97]) pairFs).map
        (fun x => x.1.map fun r => (r.de.isDir, r.dirCluster)) = some (some (true, 2)) ∧
      (Fs.call smallMount () (fatResolvePath smallMount ([47, 97] ++ replicate 1 47))
        pairFs).map (fun x => x.1.map fun r => (r.de.isDir, r.dirCluster)) = some (some (true, 3)) ∧
      (Fs.call smallMount () (fatRmdirImpl smallMount [47, 97]) pairFs).map Prod.fst = some 0 ∧
      (Fs.call smallMount () (fatRmdirImpl smallMount ([47, 97] ++ replicate 1 47))
        pairFs).map Prod.fst = some Errno.enoent := by
  decide +kernel

/-! ## Back to the parent -/

/-- The eleven bytes of a dot record. -/
def dotName (dots : ℕ) : Fin 11 → UInt8 := fun i => if i.val < dots then 46 else 32

/-- **The convention for `..`**: a directory starts with its two dot
records, and the second holds the parent's cluster, or 0 if that is the
root. -/
def DotdotConvention (m : Mount) (data : ℕ → Sector) (fat : ℕ → ℕ) : Prop :=
  ∀ {d c}, Child m data fat d c → ∃ x y ps, slots m (chainOf m fat c) = x :: y :: ps ∧
    (recOf data x).isSubdir = true ∧ (recOf data x).name = dotName 1 ∧
    (recOf data y).isSubdir = true ∧ (recOf data y).name = dotName 2 ∧
    ((recOf data y).clus = d ∨ d = m.rootCluster ∧ (recOf data y).clus = 0)

/-- The directory that the components lead to from `cur`. -/
def dirFrom (m : Mount) (data : ℕ → Sector) (fat : ℕ → ℕ) : ℕ → List Str → Option ℕ
  | cur, [] => some cur
  | cur, comp :: rest =>
    if 56 ≤ comp.length then none
    else
      match findRecord m data fat cur comp with
      | none => none
      | some p => if (recOf data p).isDir then dirFrom m data fat (recOf data p).clus rest else none

/-- **A path is followed directory by directory.** -/
theorem targetFrom_append {rest : List Str} (hrest : rest ≠ []) (comps : List Str) : ∀ cur : ℕ,
    targetFrom m data fat trailing cur (comps ++ rest) =
      (dirFrom m data fat cur comps).bind fun d => targetFrom m data fat trailing d rest := by
  induction comps with
  | nil => exact fun _ => rfl
  | cons comp comps ih =>
    intro cur
    rw [cons_append, targetFrom, dirFrom]
    by_cases hlen : 56 ≤ comp.length
    · rw [if_pos hlen, if_pos hlen]
      rfl
    rw [if_neg hlen, if_neg hlen]
    cases findRecord m data fat cur comp with
    | none => rfl
    | some p =>
      have hne : comps ++ rest ≠ [] := by simp [hrest]
      cases hdir : (recOf data p).isDir with
      | false => simp [hne, hdir]
      | true => simpa [hne, hdir] using ih (recOf data p).clus

theorem targetFrom_cons {comp : Str} {rest : List Str} {x : DirentPos} (hrest : rest ≠ [])
    (hlen : comp.length < 56) (hfind : findRecord m data fat d comp = some x)
    (hdir : (recOf data x).isDir = true) :
    targetFrom m data fat trailing d (comp :: rest) =
      targetFrom m data fat trailing (recOf data x).clus rest := by
  rw [targetFrom, if_neg (by omega), hfind]
  simp [hrest, hdir]

theorem targetFrom_zero (comps : List Str) : targetFrom m data fat trailing 0 comps = none := by
  cases comps with
  | nil => rfl
  | cons comp rest =>
    have hchain : chainOf m fat 0 = [] :=
      HasChain.chainOf_eq (m := m) (c := 0) (l := []) (Or.inl ⟨rfl, rfl⟩)
    have hfind : findRecord m data fat 0 comp = none := by
      rw [findRecord, hchain]
      rfl
    rw [targetFrom, hfind]
    split_ifs <;> rfl

/-- What a scan for `..` does with a dot record, if no long name is in
front of it. -/
theorem scanStep_dot {lf : LfnState} {e : Dirent} {dots : ℕ} (hlf : lf.seqMax = 0)
    (hsub : e.isSubdir = true) (hname : e.name = dotName dots) (hdots : dots = 1 ∨ dots = 2) :
    scanStep (fatScanFindCb [46, 46]) (lf, none) e =
      if dots = 2 then .inr (true, some e) else .inl (lfnReset lf, none) := by
  simp only [Dirent.isSubdir, Bool.and_eq_true, Bool.not_eq_true'] at hsub
  obtain ⟨⟨⟨hused, hlfn⟩, hvol⟩, -⟩ := hsub
  have hfirst : e 0 = dotName dots 0 := congrFun hname 0
  have hend : e 0 ≠ entEnd := by
    rcases hdots with rfl | rfl <;> rw [hfirst] <;> decide
  have hlong : lfnName lf e = fatShortToName (dotName dots) := by simp [lfnName, hlf, hname]
  have hshort : fatNameEqShort [46, 46] e = false := by
    rw [fatNameEqShort, hname]
    rcases hdots with rfl | rfl <;> decide
  have heq : strcaseEq (fatShortToName (dotName dots)) [46, 46] = decide (dots = 2) := by
    rcases hdots with rfl | rfl <;> decide
  simp only [scanStep, hend, hused, hlfn, hvol, fatScanFindCb, hlong, hshort, heq]
  rcases hdots with rfl | rfl <;> simp

/-- **A scan finds the `..` record** behind the `.` record. -/
theorem findRecord_dotdot {x y : DirentPos} {ps : List DirentPos}
    (hslots : slots m (chainOf m fat c) = x :: y :: ps)
    (hx : (recOf data x).isSubdir = true) (hxn : (recOf data x).name = dotName 1)
    (hy : (recOf data y).isSubdir = true) (hyn : (recOf data y).name = dotName 2) :
    findRecord m data fat c [46, 46] = some y := by
  have h₀ : (lfnInit m).seqMax = 0 := rfl
  have h₁ := scanStep_dot h₀ hx hxn (Or.inl rfl)
  have h₀' : (lfnReset (lfnInit m)).seqMax = 0 := rfl
  have h₂ := scanStep_dot h₀' hy hyn (Or.inr rfl)
  rw [findRecord, hslots, findIn, foldExit, h₁]
  simp only [Nat.reduceEqDiff, if_false, Sum.map_inl, id_eq]
  rw [foldExit, h₂]
  rfl

theorem dirFrom_reached (comps : List Str) : ∀ {cur : ℕ}, Reached m data fat cur →
    dirFrom m data fat cur comps = some d → Reached m data fat d := by
  induction comps with
  | nil =>
    intro cur hcur h
    cases h
    exact hcur
  | cons comp rest ih =>
    intro cur hcur h
    rw [dirFrom] at h
    by_cases hlen : 56 ≤ comp.length
    · simp [hlen] at h
    rw [if_neg hlen] at h
    cases hfind : findRecord m data fat cur comp with
    | none => simp [hfind] at h
    | some x =>
      simp only [hfind] at h
      split_ifs at h with hdir
      obtain ⟨hx, hlive⟩ := findRecord_some hfind
      exact ih (.sub hcur hx (isSubdir_of_isLive hlive hdir)) h

/-- What a path with the component `name` at its end names: the record a
scan of the directory before it finds. -/
theorem pathTarget_concat (hname : pathComponents name = [name])
    (h : pathTarget m data fat (p ++ 47 :: name) = some t) :
    ∃ d, dirFrom m data fat m.rootCluster (pathComponents p) = some d ∧ name.length < 56 ∧
      findRecord m data fat d name = some t.pos := by
  have hno : (47 : UInt8) ∉ name := by
    have hflat := flatten_pathComponents name
    rw [hname, flatten_singleton] at hflat
    intro hmem
    rw [hflat] at hmem
    simp at hmem
  have hne : name ≠ [] := pathComponents_ne_nil (p := name) (by rw [hname]; simp)
  have htrail : trailingSlash (p ++ 47 :: name) = false := by
    rw [Bool.eq_false_iff]
    intro hslash
    have := pathTail_eq_nil_iff.mpr (Or.inr hslash)
    rw [pathTail_append hno] at this
    exact hne this
  rw [pathTarget, htrail, pathComponents_append, hname, targetFrom_append (cons_ne_nil _ _)] at h
  obtain ⟨d, hd, h⟩ := Option.bind_eq_some_iff.mp h
  refine ⟨d, hd, ?_⟩
  rw [targetFrom] at h
  by_cases hlen : 56 ≤ name.length
  · simp [hlen] at h
  rw [if_neg hlen] at h
  cases hfind : findRecord m data fat d name with
  | none => simp [hfind] at h
  | some x =>
    simp only [hfind] at h
    cases h
    exact ⟨by omega, rfl⟩

theorem trailingSlash_append_cons (p : Str) {q : Str} (hq : q ≠ []) :
    trailingSlash (p ++ 47 :: q) = trailingSlash q := by
  obtain ⟨b, q, rfl⟩ := exists_cons_of_ne_nil hq
  rw [trailingSlash, trailingSlash, getLast?_append_of_ne_nil _ (cons_ne_nil _ _),
    getLast?_cons_cons]

/-- **A path resolved** in the storage between two calls. -/
theorem fatResolvePath_call (hs : Resting m dev s)
    (hdirs : ∀ {d}, Reached m (s.contents dev) s.fat d → ∃ l, HasChain m s.fat d l) (path : Str) :
    Fs.call m dev (fatResolvePath m path) s =
      some ((pathTarget m (s.contents dev) s.fat path).map (Target.resolve (s.contents dev)), s) := by
  have hlegible : ∀ {d}, Reached m (s.contents dev) s.fat d → Legible m (s.volumeOf dev) d := by
    intro d hd
    obtain ⟨l, hl⟩ := hdirs hd
    refine ⟨l, hl, fun lba hlba hdirty => hdirty ?_⟩
    exact hs.flushed hd lba (by rw [hl.chainOf_eq]; exact hlba)
  have hwp : wp (volume m) (fatResolvePath m path) (fun found _ => found =
      (pathTarget m (s.contents dev) s.fat path).map (Target.resolve (s.contents dev)))
        (s.volumeOf dev) := by
    refine wp_resolveFrom (R := fun cur _ => Reached m (s.contents dev) s.fat cur)
      (fun hin => hlegible hin) (fun hin hfind hdir => ?_) _ .root rfl
    obtain ⟨hp, hlive⟩ := findRecord_some hfind
    exact .sub hin hp (isSubdir_of_isLive hlive hdir)
  obtain ⟨found, s', -, hcall, rfl, -⟩ := hs.backs.call hwp
  obtain rfl := wlp_resolveFrom hs.reads _ _ _ _ _ hcall
  exact hcall

/-- **`..` leads back to the parent** exactly if the record does not hold
0. The path `p` and the component `name` lead to a directory; whatever
follows, the way through it and its `..` finds what the way without it
finds. -/
theorem dotdot_iff {y : DirentPos} (hs : Resting m dev s)
    (hdirs : ∀ {d}, Reached m (s.contents dev) s.fat d → ∃ l, HasChain m s.fat d l)
    (hconv : DotdotConvention m (s.contents dev) s.fat) (hname : pathComponents name = [name])
    (ht : pathTarget m (s.contents dev) s.fat (p ++ 47 :: name) = some t)
    (hdir : (recOf (s.contents dev) t.pos).isDir = true)
    (hdot : isDot (recOf (s.contents dev) t.pos) = false)
    (hdotdot : isDotdot (recOf (s.contents dev) t.pos) = false)
    (hy : findRecord m (s.contents dev) s.fat (recOf (s.contents dev) t.pos).clus [46, 46] = some y) :
    (∀ q, ¬ Slashes q → ∃ r s₁ s₂,
        Fs.call m dev (fatResolvePath m (p ++ 47 :: (name ++ 47 :: ([46, 46] ++ 47 :: q)))) s =
            some (r, s₁) ∧
          Fs.call m dev (fatResolvePath m (p ++ 47 :: q)) s = some (r, s₂)) ↔
      (recOf (s.contents dev) y).clus ≠ 0 := by
  obtain ⟨d, hd, hlen, hfind⟩ := pathTarget_concat hname ht
  have hreached : Reached m (s.contents dev) s.fat d := dirFrom_reached _ .root hd
  obtain ⟨hmem, hlive⟩ := findRecord_some hfind
  have hchild : Child m (s.contents dev) s.fat d (recOf (s.contents dev) t.pos).clus :=
    ⟨hreached, t.pos, hmem, isSubdir_of_isLive hlive hdir, hdot, hdotdot, rfl⟩
  obtain ⟨x, y', ps, hslots, hx, hxn, hy', hyn, hlink⟩ := hconv hchild
  obtain rfl : y = y' := Option.some.inj (hy.symm.trans (findRecord_dotdot hslots hx hxn hy' hyn))
  have hydir : (recOf (s.contents dev) y).isDir = true := by
    simp only [Dirent.isSubdir, Bool.and_eq_true] at hy'
    exact hy'.2
  -- what the two paths name, from the directory `p` leads to
  have hback : ∀ q, ¬ Slashes q →
      pathTarget m (s.contents dev) s.fat (p ++ 47 :: (name ++ 47 :: ([46, 46] ++ 47 :: q))) =
        targetFrom m (s.contents dev) s.fat (trailingSlash q) (recOf (s.contents dev) y).clus
          (pathComponents q) := by
    intro q hq
    have hqc : pathComponents q ≠ [] := fun h => hq (pathComponents_eq_nil_iff.mp h)
    have hqn : q ≠ [] := fun h => hqc (h ▸ pathComponents_nil)
    rw [pathTarget, trailingSlash_append_cons _ (by simp), trailingSlash_append_cons _ (by simp),
      trailingSlash_append_cons _ hqn, pathComponents_append, pathComponents_append, hname,
      pathComponents_append, targetFrom_append (by simp), hd, Option.bind_some, singleton_append,
      targetFrom_cons (by simp [hqc]) hlen hfind hdir]
    exact targetFrom_cons hqc (by decide) hy hydir
  have hstay : ∀ q, ¬ Slashes q → pathTarget m (s.contents dev) s.fat (p ++ 47 :: q) =
      targetFrom m (s.contents dev) s.fat (trailingSlash q) d (pathComponents q) := by
    intro q hq
    have hqc : pathComponents q ≠ [] := fun h => hq (pathComponents_eq_nil_iff.mp h)
    have hqn : q ≠ [] := fun h => hqc (h ▸ pathComponents_nil)
    rw [pathTarget, trailingSlash_append_cons _ hqn, pathComponents_append, targetFrom_append hqc, hd,
      Option.bind_some]
  constructor
  · -- the directory itself is not found again from cluster 0
    intro hall hzero
    have hns : ¬ Slashes name := by
      rw [← pathComponents_eq_nil_iff, hname]
      exact cons_ne_nil _ _
    obtain ⟨r, s₁, s₂, h₁, h₂⟩ := hall name hns
    have h₁' := fatResolvePath_call hs hdirs
      (p ++ 47 :: (name ++ 47 :: ([46, 46] ++ 47 :: name)))
    have h₂' := fatResolvePath_call hs hdirs (p ++ 47 :: name)
    rw [hback name hns, hzero, targetFrom_zero] at h₁'
    rw [ht] at h₂'
    have hr₁ := (Prod.mk.inj (Option.some.inj (h₁.symm.trans h₁'))).1
    have hr₂ := (Prod.mk.inj (Option.some.inj (h₂.symm.trans h₂'))).1
    rw [hr₁] at hr₂
    cases hr₂
  intro hne q hq
  have hclus : (recOf (s.contents dev) y).clus = d := by
    rcases hlink with h | ⟨-, h⟩
    · exact h
    · exact absurd h hne
  have h₁ := fatResolvePath_call hs hdirs
    (p ++ 47 :: (name ++ 47 :: ([46, 46] ++ 47 :: q)))
  have h₂ := fatResolvePath_call hs hdirs (p ++ 47 :: q)
  rw [hback q hq, hclus] at h₁
  rw [hstay q hq] at h₂
  exact ⟨_, s, s, h₁, h₂⟩

/-- A root directory with one directory `a` in cluster 3, whose `..` record
holds `up`. -/
def linkFs (up : ℕ) : Fs Unit :=
  freshFs (fun lba => if lba = 2 then putRec (fun _ => 0) 0 (dirRecord [97] 3)
    else if lba = 3 then dirSector 3 up else fun _ => 0) fun c => if c < 4 then 0x0FFFFFFF else 0

theorem linkFs_reached {up : ℕ} (hup : up = 2 ∨ up = 0)
    (h : Reached smallMount ((linkFs up).contents ()) (linkFs up).fat d) : d ∈ [2, 3, 0] := by
  have hroot : smallMount.rootCluster ∈ [2, 3, 0] := by decide
  refine reached_mem hroot ?_ h
  rcases hup with rfl | rfl <;> decide +kernel

theorem linkFs_hasChain {up : ℕ} (hup : up = 2 ∨ up = 0)
    (h : Reached smallMount ((linkFs up).contents ()) (linkFs up).fat d) :
    ∃ l, HasChain smallMount (linkFs up).fat d l := by
  have hall : ∀ d ∈ [2, 3, 0], HasChain smallMount (linkFs up).fat d
      (chainOf smallMount (linkFs up).fat d) := by
    rcases hup with rfl | rfl <;> decide
  exact ⟨_, hall d (linkFs_reached hup h)⟩

theorem linkFs_convention {up : ℕ} (hup : up = 2 ∨ up = 0) :
    DotdotConvention smallMount ((linkFs up).contents ()) (linkFs up).fat := by
  rintro d c ⟨hd, q, hq, hsub, hdot, hdotdot, rfl⟩
  have hall : ∀ d ∈ [2, 3, 0], ∀ q ∈ slots smallMount (chainOf smallMount (linkFs up).fat d),
      (recOf ((linkFs up).contents ()) q).isSubdir = true →
      isDot (recOf ((linkFs up).contents ()) q) = false →
      isDotdot (recOf ((linkFs up).contents ()) q) = false →
      d = 2 ∧ (recOf ((linkFs up).contents ()) q).clus = 3 := by
    rcases hup with rfl | rfl <;> decide +kernel
  obtain ⟨rfl, hclus⟩ := hall d (linkFs_reached hup hd) q hq hsub hdot hdotdot
  rw [hclus]
  refine ⟨⟨3, 0⟩, ⟨3, 32⟩, _, rfl, ?_⟩
  rcases hup with rfl | rfl <;> decide +kernel

/-- With the root's cluster in `..` the way through `a` leads back. -/
theorem root_link_leads_back : ∃ r s₁ s₂,
    Fs.call smallMount () (fatResolvePath smallMount [47, 97, 47, 46, 46, 47, 97, 47]) (linkFs 2) =
        some (some r, s₁) ∧
      Fs.call smallMount () (fatResolvePath smallMount [47, 97, 47]) (linkFs 2) =
        some (some r, s₂) := by
  have htarget : (pathTarget smallMount ((linkFs 2).contents ()) (linkFs 2).fat ([] ++ 47 :: [97])).map
      Target.pos = some ⟨2, 0⟩ := by decide +kernel
  have hup : findRecord smallMount ((linkFs 2).contents ()) (linkFs 2).fat
      (recOf ((linkFs 2).contents ()) ⟨2, 0⟩).clus [46, 46] = some ⟨3, 32⟩ := by decide +kernel
  have hrec : (recOf ((linkFs 2).contents ()) ⟨2, 0⟩).isDir = true ∧
      isDot (recOf ((linkFs 2).contents ()) ⟨2, 0⟩) = false ∧
      isDotdot (recOf ((linkFs 2).contents ()) ⟨2, 0⟩) = false ∧
      (recOf ((linkFs 2).contents ()) ⟨3, 32⟩).clus ≠ 0 := by decide +kernel
  have hq : ¬ Slashes [97, 47] := by decide
  have hfound : (Fs.call smallMount () (fatResolvePath smallMount [47, 97, 47]) (linkFs 2)).map
      (fun x => x.1.isSome) = some true := by decide +kernel
  obtain ⟨t, ht, hpos⟩ := Option.map_eq_some_iff.mp htarget
  rw [← hpos] at hup hrec
  obtain ⟨r, s₁, s₂, h₁, h₂⟩ := (dotdot_iff (freshFs_mounted smallMount _ _).resting
    (linkFs_hasChain (Or.inl rfl)) (linkFs_convention (Or.inl rfl)) rfl ht hrec.1 hrec.2.1
    hrec.2.2.1 hup).mpr hrec.2.2.2 [97, 47] hq
  obtain ⟨x, hx, hsome⟩ := Option.map_eq_some_iff.mp hfound
  cases hx.symm.trans h₂
  obtain ⟨r, rfl⟩ := Option.isSome_iff_exists.mp hsome
  exact ⟨r, s₁, s₂, h₁, h₂⟩

/-- **With 0 in `..` it leads nowhere**: on a volume that follows the
convention `/a` is found and `/a/../a` is not. -/
theorem zero_link_leads_nowhere :
    DotdotConvention smallMount ((linkFs 0).contents ()) (linkFs 0).fat ∧
      (Fs.call smallMount () (fatResolvePath smallMount [47, 97]) (linkFs 0)).map
        (fun x => x.1.isSome) = some true ∧
      (Fs.call smallMount () (fatResolvePath smallMount [47, 97, 47, 46, 46, 47, 97])
        (linkFs 0)).map (fun x => x.1.isSome) = some false :=
  ⟨linkFs_convention (Or.inr rfl), by decide +kernel⟩

end Lnxrm.Fat32
