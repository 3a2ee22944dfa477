import Lnxrm.Fat32.Helpers.Answers
import Lnxrm.Vfs.Names

/-!
# VFS — calls that are refused for their paths

Proof layer. A path with a component of 56 bytes or more resolves on no
volume, so the calls that need it fail before they change anything. Every
other path resolves on some volume (`Lnxrm.Fat32.Helpers.Answers`), and the
call then goes on to its first change, or succeeds.
-/

namespace Lnxrm.Vfs

open Fat32 List
open Prog (Only Yields Returns bind_bind only_pure yields_pure yields_any returns_pure)

variable {m : Mount} {β : Type} {comps : List Str} {p ob nb : Str}

/-! ## Failing -/

theorem fails_pure {e : Int} (h : e < 0) : Fails m (pure e) := ⟨only_pure e, yields_pure h⟩

theorem Fails.bind {q : Fat β} {f : β → Fat Int} {P : β → Prop} (hq : q.Only (Looks m))
    (hy : q.Yields P) (hf : ∀ b, P b → Fails m (f b)) : Fails m (q >>= f) :=
  ⟨hq.bind_of hy fun b hb => (hf b hb).looks, hy.bind fun b hb => (hf b hb).negative⟩

theorem Fails.of_bind {q : Fat β} {f : β → Fat Int} {b : β} (h : Fails m (q >>= f))
    (hr : q.Returns b) : Fails m (f b) :=
  ⟨h.looks.of_bind hr, h.negative.of_bind hr⟩

theorem not_fails_pure {e : Int} (h : ¬ e < 0) : ¬ Fails m (pure e) := fun hf => h hf.negative

theorem not_fails_journalBegin {f : Int → Fat Int} : ¬ Fails m (fat32JournalBegin >>= f) :=
  fun h => h.looks.1

/-! ## Paths that do not resolve -/

theorem TooLong.ne_nil (h : TooLong comps) : comps ≠ [] :=
  fun hnil => by simp [TooLong, hnil] at h

theorem yields_resolveFrom_none (trailing : Bool) (h : comps = [] ∨ TooLong comps) :
    ∀ cur, (resolveFrom m trailing cur comps).Yields (· = none) := by
  induction comps with
  | nil => exact fun _ => yields_pure rfl
  | cons comp rest ih =>
    intro cur
    rw [resolveFrom]
    split
    · exact yields_pure rfl
    rename_i hshort
    have hrest : TooLong rest := by
      obtain ⟨c, hc, hlen⟩ := h.resolve_left (by simp)
      rcases mem_cons.mp hc with rfl | hc
      · exact absurd hlen hshort
      · exact ⟨c, hc, hlen⟩
    refine (yields_any _).bind fun r _ => ?_
    cases r with
    | none => exact yields_pure rfl
    | some e =>
      dsimp only
      rw [if_neg fun h => hrest.ne_nil h.1]
      split
      · exact yields_pure rfl
      · rw [if_neg hrest.ne_nil]
        exact ih (Or.inr hrest) _

theorem yields_resolveParent_error {missing notDir : Int} (hmiss : missing < 0)
    (h : TooLong (pathComponents p)) :
    (resolveParent m p missing notDir).Yields fun r => ∃ e < 0, r = .error e := by
  rw [resolveParent, if_neg fun hp => h.ne_nil (by rw [hp]; rfl)]
  refine (yields_resolveFrom_none _ (Or.inr h) _).bind fun r hr => ?_
  rw [hr]
  exact yields_pure ⟨missing, hmiss, rfl⟩

theorem yields_parentDirInit_error (h : NoEntry (p.take 127)) :
    (parentDirInit m p).Yields fun r => ∃ e < 0, r = .error e := by
  rcases h with htail | hlong
  · -- a path without a last component fails whatever its parent is
    have hneg : (resolveParent m (pathParent (p.take 127)) Errno.efail Errno.efail).Yields
        fun r => ∀ e, r = .error e → e < 0 := by
      unfold resolveParent
      split
      · exact yields_pure nofun
      refine (yields_any _).bind fun r _ => ?_
      cases r with
      | none => exact yields_pure (by rintro e ⟨⟩; decide)
      | some rr =>
        refine yields_pure fun e he => ?_
        split at he
        · cases he
        · cases he
          decide
    refine hneg.bind fun r hr => ?_
    cases r with
    | error e => exact yields_pure ⟨e, hr e rfl, rfl⟩
    | ok cluster =>
      dsimp only
      rw [if_pos htail]
      exact yields_pure ⟨_, by decide, rfl⟩
  · refine (yields_resolveParent_error (by decide) hlong).bind ?_
    rintro r ⟨e, he, rfl⟩
    exact yields_pure ⟨e, he, rfl⟩

theorem fails_fatCreateImpl (h : NoEntry (p.take 127)) : Fails m (fatCreateImpl m p) := by
  refine Fails.bind (looks_parentDirInit p) (yields_parentDirInit_error h) ?_
  rintro r ⟨e, he, rfl⟩
  exact fails_pure he

theorem fails_fatMkdirImpl (h : NoEntry (p.take 127)) : Fails m (fatMkdirImpl m p) := by
  refine Fails.bind (looks_parentDirInit p) (yields_parentDirInit_error h) ?_
  rintro r ⟨e, he, rfl⟩
  exact fails_pure he

theorem fails_fatRmdirImpl (h : pathComponents p = [] ∨ TooLong (pathComponents p)) :
    Fails m (fatRmdirImpl m p) := by
  refine Fails.bind (looks_fatResolvePath p) (yields_resolveFrom_none _ h _) ?_
  rintro r rfl
  exact fails_pure (by decide)

theorem yields_resolveFrom_trailing (comps : List Str) : ∀ cur,
    (resolveFrom m true cur comps).Yields fun r => ∀ rr, r = some rr → rr.de.isDir = true := by
  induction comps with
  | nil => exact fun _ => yields_pure nofun
  | cons comp rest ih =>
    intro cur
    rw [resolveFrom]
    split
    · exact yields_pure nofun
    refine (yields_any _).bind fun r _ => ?_
    cases r with
    | none => exact yields_pure nofun
    | some e =>
      dsimp only
      rw [if_neg (by simp)]
      split
      · exact yields_pure nofun
      rename_i hdir
      split
      · refine yields_pure ?_
        rintro rr ⟨⟩
        simpa using hdir
      · exact ih _

theorem fails_fatUnlinkImpl (h : pathComponents p = [] ∨ TooLong (pathComponents p) ∨
    trailingSlash p = true) : Fails m (fatUnlinkImpl m p) := by
  have hres : (fatResolvePath m p).Yields fun r => ∀ rr, r = some rr → rr.de.isDir = true := by
    unfold fatResolvePath
    by_cases ht : trailingSlash p = true
    · rw [ht]
      exact yields_resolveFrom_trailing _ _
    · have hbad : pathComponents p = [] ∨ TooLong (pathComponents p) := by tauto
      refine (yields_resolveFrom_none _ hbad _).mono ?_
      rintro r rfl rr ⟨⟩
  refine Fails.bind (looks_fatResolvePath p) hres fun r hr => ?_
  cases r with
  | none => exact fails_pure (by decide)
  | some rr =>
    dsimp only
    rw [if_pos (hr rr rfl)]
    exact fails_pure (by decide)

theorem fails_fatRenameImpl {o n : Str} (h : NoRename (pathTrim (o.take 127)) (pathTrim (n.take 127))) :
    Fails m (fatRenameImpl m o n) := by
  rcases h with hold | hnew
  · refine Fails.bind (looks_fatResolvePath _) (yields_resolveFrom_none _ hold _) ?_
    rintro r rfl
    exact fails_pure (by decide)
  refine Fails.bind (looks_fatResolvePath _) (yields_any _) fun r _ => ?_
  cases r with
  | none => exact fails_pure (by decide)
  | some ro =>
    dsimp only
    split
    · exact fails_pure (by decide)
    split
    · exact fails_pure (by decide)
    rename_i hnil hdots
    rcases hnew with hname | hlong
    · rcases hname with hn | hn | hn
      · exact absurd (by rw [hn]; rfl) hnil
      · exact absurd (by rw [hn]; decide) hdots
      · exact absurd (by rw [hn]; decide) hdots
    · refine Fails.bind (looks_resolveParent _ _ _) (yields_resolveParent_error (by decide) hlong) ?_
      rintro r ⟨e, he, rfl⟩
      exact fails_pure he

/-- Opening such a path fails, unless it names a device or a file that can
be created. -/
theorem fails_sysOpenPath {full : Str} {creat trunc : Bool}
    (hlong : TooLong (pathComponents (fsForPath full))) (hdev : devLookup full = none)
    (hcreat : creat = true → NoEntry ((fsForPath full).take 127)) :
    Fails m (do
      match ← vfsLookup m full creat trunc with
      | .error err => pure err
      | .ok _ => pure 0) := by
  have hlook : (fatLookupImpl m (fsForPath full)).Yields fun r => r.2 = none := by
    rw [fatLookupImpl, if_neg hlong.ne_nil]
    refine (yields_resolveFrom_none _ (Or.inr hlong) _).bind ?_
    rintro r rfl
    exact yields_pure rfl
  rw [vfsLookup, bind_bind]
  refine Fails.bind (looks_fatLookupImpl _) hlook ?_
  rintro ⟨rc, vn⟩ ⟨⟩
  dsimp only
  split
  · exact fails_pure (by decide)
  rw [hdev]
  dsimp only
  split
  · exact fails_pure (by decide)
  · rename_i hc
    have hfail := fails_fatCreateImpl (m := m) (hcreat (by simpa using hc))
    rw [bind_bind]
    refine Fails.bind hfail.looks hfail.negative fun rc hrc => ?_
    rw [if_pos hrc]
    exact fails_pure (by decide)

/-! ## Paths that do -/

theorem comps_ok (h0 : (0 : UInt8) ∉ p) (h : ¬ TooLong (pathComponents p)) :
    ∀ c ∈ pathComponents p, (0 : UInt8) ∉ c ∧ c ≠ [] ∧ c.length < 56 := by
  intro c hc
  refine ⟨fun hz => h0 (mem_of_mem_pathComponents hc hz), pathComponents_ne_nil hc, ?_⟩
  by_contra hlen
  exact h ⟨c, hc, by omega⟩

theorem returns_resolveParent (h0 : (0 : UInt8) ∉ p) (h : ¬ TooLong (pathComponents p))
    (hne : p = [] ∨ pathComponents p ≠ []) (missing notDir : Int) :
    (resolveParent smallMount p missing notDir).Returns (.ok 2) := by
  unfold resolveParent
  by_cases hp : p = []
  · rw [if_pos hp]
    exact returns_pure _
  rw [if_neg hp]
  obtain ⟨name, hres⟩ := returns_resolveFrom (trailingSlash p) aDir_handed
    (fun _ => ⟨aDir_isDir, aDir_clus⟩) _ (hne.resolve_left hp) (comps_ok h0 h)
  refine Returns.bind hres ?_
  dsimp only
  rw [if_pos aDir_isDir, aDir_clus]
  exact returns_pure _

theorem pathParent_nil_or (hp : p.head? ≠ some 47) :
    pathParent p = [] ∨ pathComponents (pathParent p) ≠ [] := by
  rcases path_cases p with h | h
  · exact Or.inl (pathParent_of_not_mem h)
  right
  intro hnil
  rw [pathComponents_eq_nil_iff] at hnil
  rw [h] at hp
  cases hpar : pathParent p with
  | nil => simp [hpar] at hp
  | cons c r =>
    rw [hpar] at hnil
    simp [hpar, (slashes_cons.mp hnil).1] at hp

theorem returns_parentDirInit (h0 : (0 : UInt8) ∉ p) (hlen : p.length ≤ 127) (h : ¬ NoEntry p)
    (hp : p.head? ≠ some 47) :
    (parentDirInit smallMount p).Returns (.ok { name := pathTail p, cluster := 2 }) := by
  have htake : p.take 127 = p := take_of_length_le hlen
  rw [NoEntry, not_or] at h
  have hpar0 : (0 : UInt8) ∉ pathParent p := fun hz => h0 (mem_of_mem_take hz)
  unfold parentDirInit
  rw [htake]
  refine Returns.bind (returns_resolveParent hpar0 h.2 (pathParent_nil_or hp) _ _) ?_
  dsimp only
  rw [if_neg h.1]
  exact Returns.bind (returns_fatScanFind_none _) (returns_pure _)

theorem not_fails_fatMkdirImpl (h0 : (0 : UInt8) ∉ p) (hlen : p.length ≤ 127)
    (hp : p.head? ≠ some 47) (h : ¬ NoEntry p) : ¬ Fails smallMount (fatMkdirImpl smallMount p) := by
  intro hf
  have h1 := hf.of_bind (returns_parentDirInit h0 hlen h hp)
  have hfree : (fatFindFreeCluster smallMount).Returns 2 := ⟨(0 : ℕ), rfl⟩
  have h2 := h1.of_bind hfree
  rw [if_neg (by decide)] at h2
  -- the mark of the new cluster is the first change
  exact (h2.looks.2 (0 : ℕ)).1

theorem not_fails_fatRmdirImpl (h0 : (0 : UInt8) ∉ p) (hne : pathComponents p ≠ [])
    (h : ¬ TooLong (pathComponents p)) : ¬ Fails smallMount (fatRmdirImpl smallMount p) := by
  intro hf
  obtain ⟨name, hres⟩ := returns_resolveFrom (trailingSlash p) aDir_handed
    (fun _ => ⟨aDir_isDir, aDir_clus⟩) _ hne (comps_ok h0 h)
  obtain ⟨loc, hloc, -⟩ := returns_direntLocate (e := aDir) (Or.inr rfl)
  have h1 := hf.of_bind (b := some { dirCluster := 2, name := name, de := aDir }) hres
  dsimp only at h1
  rw [if_neg (by simp [aDir_isDir]), if_neg (by simp [aDir_clus]), aDir_clus] at h1
  have h2 := h1.of_bind returns_dirIsEmpty
  rw [if_neg (by decide), if_neg (by decide)] at h2
  exact not_fails_journalBegin (h2.of_bind hloc)

theorem not_fails_fatUnlinkImpl (h0 : (0 : UInt8) ∉ p) (hne : pathComponents p ≠ [])
    (h : ¬ TooLong (pathComponents p)) (ht : trailingSlash p = false) :
    ¬ Fails smallMount (fatUnlinkImpl smallMount p) := by
  intro hf
  obtain ⟨name, hres⟩ := returns_resolveFrom (trailingSlash p) aFile_handed
    (fun htrue => by rw [ht] at htrue; cases htrue) _ hne (comps_ok h0 h)
  obtain ⟨loc, hloc, -⟩ := returns_direntLocate (e := aFile) (Or.inl rfl)
  have h1 := hf.of_bind (b := some { dirCluster := 2, name := name, de := aFile }) hres
  dsimp only at h1
  rw [if_neg (by simp [aFile_isDir])] at h1
  exact not_fails_journalBegin (h1.of_bind hloc)

theorem not_fails_renameTo {name nname : Str} (hne : nname ≠ []) (hlen : nname.length ≤ 55) :
    ¬ Fails smallMount
      (renameTo smallMount { dirCluster := 2, name := name, de := aFile } 2 nname) := by
  intro hf
  obtain ⟨nLfn, hlfn, hn5⟩ : ∃ nLfn, fatLfnCount nname = some nLfn ∧ nLfn ≤ 5 := by
    have hpos := length_pos_iff.mpr hne
    unfold fatLfnCount
    rw [if_neg (by omega)]
    split
    · exact ⟨0, rfl, by omega⟩
    · exact ⟨_, rfl, by omega⟩
  obtain ⟨loc, hloc, hlfn5⟩ := returns_direntLocate (e := aFile) (Or.inl rfl)
  have h1 := hf.of_bind (returns_fatScanDir_empty _ _)
  rw [if_neg (by simp)] at h1
  have hin : (movesIntoItself smallMount aFile 2).Returns false := by
    unfold movesIntoItself
    rw [if_neg (by simp [aFile_isDir])]
    exact returns_pure _
  have h2 := h1.of_bind hin
  rw [if_neg (by simp), hlfn] at h2
  have h3 := h2.of_bind hloc
  dsimp only at h3
  rw [if_pos ⟨rfl, by omega⟩] at h3
  exact not_fails_journalBegin h3

theorem not_fails_fatRenameImpl {o n : Str} (ho0 : (0 : UInt8) ∉ o) (hn0 : (0 : UInt8) ∉ n)
    (hot : trailingSlash (pathTrim (o.take 127)) = false)
    (hnp : (pathTrim (n.take 127)).head? ≠ some 47)
    (h : ¬ NoRename (pathTrim (o.take 127)) (pathTrim (n.take 127))) :
    ¬ Fails smallMount (fatRenameImpl smallMount o n) := by
  have hsub : ∀ q : Str, (0 : UInt8) ∉ q → (0 : UInt8) ∉ pathTrim (q.take 127) :=
    fun q hq hz => hq (mem_of_mem_take (mem_of_mem_pathTrim hz))
  have ho0' := hsub o ho0
  have hn0' := hsub n hn0
  intro hf
  unfold fatRenameImpl at hf
  generalize pathTrim (o.take 127) = ob at *
  generalize pathTrim (n.take 127) = nb at *
  simp only [NoRename, not_or] at h
  obtain ⟨⟨hone, holong⟩, ⟨hn1, hn2, hn3⟩, hnlong⟩ := h
  obtain ⟨name, hres⟩ := returns_resolveFrom (trailingSlash ob) aFile_handed
    (fun htrue => by rw [hot] at htrue; cases htrue) _ hone (comps_ok ho0' holong)
  have h1 := hf.of_bind (b := some { dirCluster := 2, name := name, de := aFile }) hres
  dsimp only at h1
  have hcut : ∀ w : Str, w.length < 55 → ((pathTail nb).take 55 = w ↔ pathTail nb = w) := by
    intro w hw
    constructor
    · intro heq
      have hl := congrArg length heq
      rw [length_take] at hl
      rwa [take_of_length_le (by omega)] at heq
    · rintro rfl
      exact take_of_length_le (by omega)
  rw [if_neg (by rw [hcut [] (by simp)]; exact hn1),
    if_neg (by rw [hcut [46] (by simp), hcut [46, 46] (by simp)]; tauto)] at h1
  have hpar0 : (0 : UInt8) ∉ pathParent nb := fun hz => hn0' (mem_of_mem_take hz)
  have h2 := h1.of_bind (returns_resolveParent hpar0 hnlong (pathParent_nil_or hnp) _ _)
  dsimp only at h2
  split at h2
  · exact not_fails_pure (by decide) h2
  · refine not_fails_renameTo ?_ (length_take_le _ _) h2
    rw [Ne, hcut [] (by simp)]
    exact hn1

/-! ## Opening -/

theorem returns_resolveFrom_none (trailing : Bool) (comps : List Str) :
    (resolveFrom smallMount trailing 2 comps).Returns none := by
  cases comps with
  | nil => exact returns_pure _
  | cons comp rest =>
    rw [resolveFrom]
    split
    · exact returns_pure _
    · exact Returns.bind (returns_fatScanFind_none _) (returns_pure _)

theorem not_fails_sysOpenPath {full : Str} {creat trunc : Bool}
    (h0 : (0 : UInt8) ∉ fsForPath full) (hlen : (fsForPath full).length ≤ 127)
    (h : ¬ (TooLong (pathComponents (fsForPath full)) ∧ devLookup full = none ∧
      (creat = true → NoEntry (fsForPath full)))) :
    ¬ Fails smallMount (do
      match ← vfsLookup smallMount full creat trunc with
      | .error err => pure err
      | .ok _ => pure 0) := by
  intro hf
  rw [vfsLookup, bind_bind] at hf
  by_cases hlong : TooLong (pathComponents (fsForPath full))
  · -- nothing is found on the disk
    have hne := hlong.ne_nil
    have hfull : full ≠ [47] := by
      rintro rfl
      exact hne rfl
    have hlook : (fatLookupImpl smallMount (fsForPath full)).Returns (Errno.efail, none) := by
      rw [fatLookupImpl, if_neg hne]
      exact Returns.bind (returns_resolveFrom_none _ _) (returns_pure _)
    have h1 := hf.of_bind hlook
    rw [if_neg hfull] at h1
    cases hdev : devLookup full with
    | some node =>
      rw [hdev] at h1
      exact not_fails_pure (by decide) h1
    | none =>
      obtain ⟨hc, hentry⟩ : creat = true ∧ ¬ NoEntry (fsForPath full) := by tauto
      rw [hdev] at h1
      dsimp only at h1
      rw [if_neg (by simp [hc]), fatCreateImpl, bind_bind, bind_bind] at h1
      -- the record is written before the second look
      exact (h1.of_bind
        (returns_parentDirInit h0 hlen hentry (head?_dropWhile_slashes full))).looks.1
  -- a directory is found there
  obtain ⟨vn, hdir, hlook⟩ : ∃ vn : Vnode, vn.isDir = true ∧
      (fatLookupImpl smallMount (fsForPath full)).Returns (0, some vn) := by
    unfold fatLookupImpl
    by_cases hne : pathComponents (fsForPath full) = []
    · rw [if_pos hne]
      exact ⟨_, rfl, returns_pure _⟩
    rw [if_neg hne]
    obtain ⟨name, hres⟩ := returns_resolveFrom (trailingSlash (fsForPath full)) aDir_handed
      (fun _ => ⟨aDir_isDir, aDir_clus⟩) _ hne (comps_ok h0 hlong)
    refine ⟨{ isDir := true, size := 0, fsData := { dirCluster := 2, name := name, de := aDir } },
      rfl, Returns.bind hres ?_⟩
    dsimp only
    rw [if_pos aDir_isDir]
    exact returns_pure _
  have h1 := hf.of_bind hlook
  dsimp only at h1
  rw [if_neg (by simp [hdir])] at h1
  exact not_fails_pure (by decide) h1

end Lnxrm.Vfs
