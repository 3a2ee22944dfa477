import Lnxrm.Vfs.Names

/-!
# VFS — what cutting a path does to its names

Proof layer. `Cut a r`: of the path `a ++ r` only `a` is left. The
components are the same only if nothing but slashes was cut off
(`slashes_of_filter_le`), and then the paths are the same but for slashes
at the end (`fsForPath_append`).
-/

namespace Lnxrm.Vfs

open Fat32 List

variable {a r s p q : Str}

/-! ## Stripped paths -/

theorem fsForPath_cons_slash (p : Str) : fsForPath (47 :: p) = fsForPath p :=
  dropWhile_cons_of_pos (by simp)

theorem fsForPath_absName (p : Str) : fsForPath (absName p) = fsForPath p := by
  unfold absName
  split
  · rfl
  · exact fsForPath_cons_slash p

theorem pathComponents_fsForPath (p : Str) : pathComponents (fsForPath p) = pathComponents p :=
  pathComponents_dropWhile p

theorem length_fsForPath_le (p : Str) : (fsForPath p).length ≤ p.length := length_dropWhile_le _ _

theorem mem_of_mem_fsForPath {b : UInt8} (h : b ∈ fsForPath p) : b ∈ p :=
  (dropWhile_suffix _).subset h

theorem fsForPath_eq_nil_of_slashes (h : Slashes (fsForPath p)) : fsForPath p = [] := by
  cases hp : fsForPath p with
  | nil => rfl
  | cons b q =>
    refine absurd ?_ (head?_dropWhile_slashes p)
    rw [← fsForPath, hp, h b (by rw [hp]; exact mem_cons_self)]
    rfl

theorem fsForPath_eq_nil_iff : fsForPath p = [] ↔ Slashes p := dropWhile_eq_nil_iff

theorem fsForPath_of_head? (h : p.head? ≠ some 47) : fsForPath p = p := by
  cases p with
  | nil => rfl
  | cons b p => exact dropWhile_cons_of_neg (by simpa using h)

theorem fsForPath_take (p : Str) (n : ℕ) : fsForPath ((fsForPath p).take n) = (fsForPath p).take n := by
  refine fsForPath_of_head? ?_
  rw [head?_take]
  split
  · exact nofun
  · exact head?_dropWhile_slashes p

/-- **What slashes behind a path do to it.** -/
theorem fsForPath_append (hr : Slashes r) :
    fsForPath (a ++ r) = fsForPath a ++ r ∨ fsForPath a = [] ∧ fsForPath (a ++ r) = [] := by
  by_cases ha : Slashes a
  · right
    refine ⟨fsForPath_eq_nil_iff.mpr ha, fsForPath_eq_nil_iff.mpr ?_⟩
    exact forall_mem_append.mpr ⟨ha, hr⟩
  · exact Or.inl (dropWhile_append ha)

theorem trailingSlash_pathTrim (p : Str) : trailingSlash (pathTrim (fsForPath p)) = false := by
  by_cases hs : Slashes (fsForPath p)
  · rw [fsForPath_eq_nil_of_slashes hs]
    rfl
  · exact trailingSlash_pathTrim_of_not hs

theorem pathTrim_fsForPath_append (hr : Slashes r) :
    pathTrim (fsForPath (a ++ r)) = pathTrim (fsForPath a) := by
  rcases fsForPath_append (a := a) hr with h | ⟨ha, har⟩
  · by_cases ha : Slashes (fsForPath a)
    · have hs : Slashes (fsForPath (a ++ r)) := by
        rw [h]
        exact forall_mem_append.mpr ⟨ha, hr⟩
      rw [fsForPath_eq_nil_of_slashes ha, fsForPath_eq_nil_of_slashes hs]
    · rw [h, pathTrim_append ha hr]
  · rw [ha, har]

theorem trailingSlash_append (hr : Slashes r) (hne : r ≠ []) : trailingSlash (a ++ r) = true := by
  rw [trailingSlash, getLast?_append, getLast?_eq_some_getLast hne, hr _ (getLast_mem hne)]
  rfl

/-! ## Counting -/

/-- How many bytes of a path are no slashes. -/
def weight (p : Str) : ℕ := (p.filter (· != 47)).length

theorem weight_append (a r : Str) : weight (a ++ r) = weight a + weight r := by
  unfold weight
  rw [filter_append, length_append]

theorem weight_eq (p : Str) : weight p = (pathComponents p).flatten.length := by
  rw [flatten_pathComponents]
  rfl

theorem weight_fsForPath (p : Str) : weight (fsForPath p) = weight p := by
  rw [weight_eq, weight_eq, pathComponents_fsForPath]

theorem weight_pathTrim (p : Str) : weight (pathTrim p) = weight p := by
  rw [weight_eq, weight_eq, pathComponents_pathTrim]

theorem weight_take_le (p : Str) (n : ℕ) : weight (p.take n) ≤ weight p := by
  conv_rhs => rw [← take_append_drop n p]
  rw [weight_append]
  omega

theorem weight_parts (p : Str) :
    weight p = (pathComponents (pathParent p)).flatten.length + (pathTail p).length := by
  rw [weight_eq, pathComponents_eq, flatten_append, length_append]
  split
  · rename_i h
    rw [h]
    rfl
  · rw [flatten_singleton]

/-- **A part that weighs as much** leaves out slashes only. -/
theorem slashes_of_weight_le {n : ℕ} (h : weight p ≤ weight (p.take n)) : Slashes (p.drop n) := by
  have hw := weight_append (p.take n) (p.drop n)
  rw [take_append_drop] at hw
  have h0 : weight (p.drop n) = 0 := by omega
  exact slashes_of_filter (length_eq_zero_iff.mp h0)

/-! ## What is kept -/

theorem driverPath_copyUserStr (s : Str) : driverPath (copyUserStr s 128) = kept s := by
  unfold driverPath copyUserStr kept room absPath
  by_cases h : s.head? = some 47
  · have hh : (s.take 127).head? = some 47 := by rw [head?_take, if_neg (by omega), h]
    rw [if_pos hh, if_pos h]
  · have hh : ¬ (s.take 127).head? = some 47 := by rwa [head?_take, if_neg (by omega)]
    rw [if_neg hh, if_neg h, fsForPath_cons_slash, take_take]
    rfl

theorem room_le (s : Str) : room s ≤ 127 := by
  unfold room
  split <;> omega

theorem length_kept_le (s : Str) : (kept s).length ≤ 127 := by
  have hlen := length_fsForPath_le (s.take (room s))
  have hroom := room_le s
  have htake := length_take_le (room s) s
  unfold kept
  omega

theorem take_kept (s : Str) : (kept s).take 127 = kept s :=
  take_of_length_le (length_kept_le s)

theorem kept_eq_of_le (h : s.length ≤ room s) : kept s = fsForPath s := by
  unfold kept
  rw [take_of_length_le h]

theorem mem_of_mem_kept {b : UInt8} (h : b ∈ kept s) : b ∈ s :=
  mem_of_mem_take (mem_of_mem_fsForPath h)

theorem slashes_drop_of_weight (h : weight (fsForPath s) ≤ weight (kept s)) :
    Slashes (s.drop (room s)) := by
  unfold kept at h
  rw [weight_fsForPath, weight_fsForPath] at h
  exact slashes_of_weight_le h

/-- **The paths when nothing but slashes is cut off.** -/
theorem fsForPath_cases (h : Slashes (s.drop (room s))) :
    fsForPath s = kept s ++ s.drop (room s) ∨ kept s = [] ∧ fsForPath s = [] := by
  have happ := fsForPath_append (a := s.take (room s)) h
  rwa [take_append_drop] at happ

theorem pathTrim_kept (h : Slashes (s.drop (room s))) : pathTrim (kept s) = pathTrim (fsForPath s) := by
  have happ := pathTrim_fsForPath_append (a := s.take (room s)) h
  rw [take_append_drop] at happ
  exact happ.symm

/-! ## Paths that are resolved -/

/-- **A path is resolved as it was meant** if nothing but slashes is cut
off behind a slash. -/
theorem resolved_kept_iff (s : Str) : resolved (kept s) = resolved (fsForPath s) ↔ Whole s := by
  constructor
  · intro h
    obtain ⟨hcomps, htrail⟩ := Prod.mk.inj h
    have hs : Slashes (s.drop (room s)) := by
      apply slashes_drop_of_weight
      rw [weight_eq, weight_eq, ← hcomps]
    refine ⟨hs, ?_⟩
    rcases fsForPath_cases hs with happ | ⟨hk, -⟩
    · by_cases hlen : s.length ≤ room s
      · exact Or.inl hlen
      · right; right
        rw [htrail, happ]
        exact trailingSlash_append hs (by rwa [Ne, drop_eq_nil_iff])
    · exact Or.inr (Or.inl hk)
  rintro ⟨hs, hcase⟩
  by_cases hlen : s.length ≤ room s
  · rw [kept_eq_of_le hlen]
  rcases fsForPath_cases hs with happ | ⟨hk, he⟩
  · rcases hcase.resolve_left hlen with hk | htrail
    · have hcons : Slashes (fsForPath s) := by rwa [happ, hk, nil_append]
      rw [hk, fsForPath_eq_nil_of_slashes hcons]
    · unfold resolved
      rw [happ, pathComponents_append_slashes hs, htrail,
        trailingSlash_append hs (by rwa [Ne, drop_eq_nil_iff])]
  · rw [hk, he]

/-- The last component and its parent, when nothing but slashes is cut off
behind a slash. -/
theorem Whole.parts (h : Whole s) : pathTail (kept s) = pathTail (fsForPath s) ∧
    pathComponents (pathParent (kept s)) = pathComponents (pathParent (fsForPath s)) := by
  obtain ⟨hcomps, htrail⟩ := Prod.mk.inj ((resolved_kept_iff s).mpr h)
  by_cases hlen : s.length ≤ room s
  · rw [kept_eq_of_le hlen]
    exact ⟨rfl, rfl⟩
  have htails : pathTail (kept s) = [] ∧ pathTail (fsForPath s) = [] := by
    rcases h.2.resolve_left hlen with hk | ht
    · rw [hk, pathComponents_nil, eq_comm, pathComponents_eq_nil_iff] at hcomps
      rw [hk, fsForPath_eq_nil_of_slashes hcomps]
      exact ⟨rfl, rfl⟩
    · exact ⟨pathTail_eq_nil_iff.mpr (Or.inr ht), pathTail_eq_nil_iff.mpr (Or.inr (htrail ▸ ht))⟩
  have hk := pathComponents_eq (kept s)
  have he := pathComponents_eq (fsForPath s)
  rw [htails.1, if_pos rfl, append_nil] at hk
  rw [htails.2, if_pos rfl, append_nil] at he
  exact ⟨htails.1.trans htails.2.symm, by rw [← hk, ← he, hcomps]⟩

/-! ## Paths that are created -/

/-- **A name is entered as it was meant** if the path is not cut and the
name is one that the record shows. -/
theorem entryNames_kept_iff (h : pathTail (kept s) ≠ []) :
    entryNames (kept s) = exactEntry (fsForPath s) ↔ s.length ≤ room s ∧
      shown (pathTail (fsForPath s)) = (pathTail (fsForPath s)).map asciiTolower := by
  unfold entryNames exactEntry
  dsimp only
  rw [take_kept]
  constructor
  · intro heq
    simp only [Names.mk.injEq, List.cons.injEq, Prod.mk.injEq, and_true] at heq
    obtain ⟨hparent, htail, hshown⟩ := heq
    have hs : Slashes (s.drop (room s)) := by
      apply slashes_drop_of_weight
      rw [weight_parts, weight_parts, hparent, htail]
    have hlen : s.length ≤ room s := by
      by_contra hlt
      -- the path that was meant ends in a slash, so it has no last component
      refine h (htail.trans (pathTail_eq_nil_iff.mpr ?_))
      rcases fsForPath_cases hs with happ | ⟨-, he⟩
      · right
        rw [happ]
        exact trailingSlash_append hs (by rwa [Ne, drop_eq_nil_iff])
      · exact Or.inl he
    exact ⟨hlen, by rw [← htail] at hshown ⊢; exact hshown⟩
  · rintro ⟨hlen, hshown⟩
    rw [kept_eq_of_le hlen, hshown]

/-! ## Trimming -/

theorem pathTrim_take {n : ℕ} (hn : 1 ≤ n) (h : Slashes (p.drop n)) :
    pathTrim (p.take n) = pathTrim p := by
  by_cases hs : Slashes (p.take n)
  · have hall : Slashes p := by
      rw [← take_append_drop n p]
      exact forall_mem_append.mpr ⟨hs, h⟩
    rw [pathTrim_of_slashes hs, pathTrim_of_slashes hall, take_take, Nat.min_eq_left hn]
  · conv_rhs => rw [← take_append_drop n p]
    rw [pathTrim_append hs h]

theorem pathTrim_fsForPath_pathTrim (p : Str) :
    pathTrim (fsForPath (pathTrim p)) = pathTrim (fsForPath p) := by
  obtain ⟨r, hp, hr⟩ := pathTrim_prefix p
  conv_rhs => rw [hp]
  rw [pathTrim_fsForPath_append hr]

theorem length_pathTrim_le (p : Str) : (pathTrim p).length ≤ p.length := by
  obtain ⟨r, hp, -⟩ := pathTrim_prefix p
  have := congrArg length hp
  rw [length_append] at this
  omega

/-! ## Device nodes -/

theorem devNode_some {d : DevNode} (h : devNode p = some d) : p = devStr ∨ p = consoleStr := by
  unfold devNode at h
  split_ifs at h with h1 h2
  · exact Or.inl h1
  · exact Or.inr h2

theorem devNode_pathTrim {d : DevNode} (h : devNode (pathTrim p) = some d) :
    Slashes (p.drop 31) := by
  have hlen : (pathTrim p).length ≤ 31 := by
    rcases devNode_some h with hp | hp <;> rw [hp] <;> decide
  obtain ⟨r, hp, hr⟩ := pathTrim_prefix p
  rw [hp, drop_append, drop_eq_nil_of_le hlen, nil_append]
  exact fun b hb => hr b (mem_of_mem_drop hb)

/-- **`dev_lookup` compares 31 bytes**: it finds the node that was meant
unless it cuts off more than slashes behind the name of one. -/
theorem devLookup_eq_iff (p : Str) :
    devLookup p = devNode (stripTrailingSlashes p) ↔ devLookup p = none ∨ Slashes (p.drop 31) := by
  unfold devLookup stripTrailingSlashes
  constructor
  · intro h
    cases hd : devNode (pathTrim p) with
    | none => exact Or.inl (h.trans hd)
    | some d => exact Or.inr (devNode_pathTrim hd)
  rintro (hnone | hs)
  · rw [hnone, eq_comm, Option.eq_none_iff_forall_ne_some]
    intro d hd
    rw [pathTrim_take (by omega) (devNode_pathTrim hd), hd] at hnone
    cases hnone
  · rw [pathTrim_take (by omega) hs]

theorem devLookup_absPath (s : Str) :
    devLookup (absPath (copyUserStr s 128) 128) = devLookup (absName s) := by
  have htake : (absPath (copyUserStr s 128) 128).take 31 = (absName s).take 31 := by
    unfold absPath copyUserStr absName
    have hh : (s.take (128 - 1)).head? = s.head? := by rw [head?_take, if_neg (by omega)]
    rw [hh]
    split
    · rw [take_take]
      rfl
    · rw [take_take, take_succ_cons, take_take, take_succ_cons]
      rfl
  unfold devLookup
  rw [htake]

/-! ## Paths that are renamed -/

theorem resolved_pathTrim_kept_iff (s : Str) :
    resolved (pathTrim (kept s)) = resolved (pathTrim (fsForPath s)) ↔ Slashes (s.drop (room s)) := by
  constructor
  · intro h
    obtain ⟨hcomps, -⟩ := Prod.mk.inj h
    apply slashes_drop_of_weight
    rw [pathComponents_pathTrim, pathComponents_pathTrim] at hcomps
    rw [weight_eq, weight_eq, hcomps]
  · intro h
    rw [pathTrim_kept h]

theorem weight_le_of_newName (hparent : resolved (pathParent (pathTrim p)) = resolved (pathParent (pathTrim q)))
    (htail : (pathTail (pathTrim p)).take 55 = pathTail (pathTrim q)) : weight q ≤ weight p := by
  have hlen := congrArg length htail
  rw [length_take] at hlen
  have hcomps := (Prod.mk.inj hparent).1
  rw [← weight_pathTrim p, ← weight_pathTrim q, weight_parts, weight_parts, hcomps]
  omega

theorem renameNames_eq_iff : renameNames p q = exactRename a s ↔
      resolved (pathTrim (p.take 127)) = resolved (pathTrim a) ∧
      resolved (pathParent (pathTrim (q.take 127))) = resolved (pathParent (pathTrim s)) ∧
      (pathTail (pathTrim (q.take 127))).take 55 = pathTail (pathTrim s) := by
  unfold renameNames exactRename
  simp only [Names.mk.injEq, List.cons.injEq, and_true]
  tauto

/-- **Two paths are renamed as they were meant.** -/
theorem renameNames_kept_iff (o n : Str) :
    renameNames (kept o) (kept n) = exactRename (fsForPath o) (fsForPath n) ↔
      Slashes (o.drop (room o)) ∧ Slashes (n.drop (room n)) ∧
        (pathTail (pathTrim (fsForPath n))).length ≤ 55 := by
  rw [renameNames_eq_iff, take_kept, take_kept, resolved_pathTrim_kept_iff]
  refine and_congr_right fun _ => ?_
  constructor
  · rintro ⟨hparent, htail⟩
    have hs : Slashes (n.drop (room n)) := slashes_drop_of_weight (weight_le_of_newName hparent htail)
    rw [pathTrim_kept hs, take_eq_self_iff] at htail
    exact ⟨hs, htail⟩
  · rintro ⟨hs, hlen⟩
    rw [pathTrim_kept hs]
    exact ⟨rfl, take_of_length_le hlen⟩

/-! ## Paths that are moved -/

theorem head?_pathTrim (p : Str) : (pathTrim p).head? = p.head? := by
  by_cases h : Slashes p
  · rw [pathTrim_of_slashes h, head?_take, if_neg (by omega)]
  · obtain ⟨r, hp, hr⟩ := pathTrim_prefix p
    conv_rhs => rw [hp]
    cases ht : pathTrim p with
    | nil => exact absurd (by rwa [hp, ht, nil_append]) h
    | cons b q => rfl

/-- **The source of a move** reaches the driver like any path, but for
slashes at its end. -/
theorem pathTrim_driverPath_moveSrc (s : Str) :
    pathTrim ((driverPath (moveSrc s)).take 127) = pathTrim (kept s) := by
  unfold driverPath moveSrc stripTrailingSlashes absPath kept room
  have hh : (pathTrim (s.take 127)).head? = s.head? := by
    rw [head?_pathTrim, head?_take, if_neg (by omega)]
  have htrimlen := (length_pathTrim_le (s.take 127)).trans (length_take_le 127 s)
  rw [hh]
  by_cases h : s.head? = some 47
  · have hlen := length_fsForPath_le (pathTrim (s.take 127))
    rw [if_pos h, if_pos h, take_of_length_le (by omega), pathTrim_fsForPath_pathTrim]
  have hlen := length_fsForPath_le ((pathTrim (s.take 127)).take 125)
  have hlen' := length_take_le 125 (pathTrim (s.take 127))
  have hq : s.take 125 = (s.take 127).take 125 := by rw [take_take]; rfl
  rw [if_neg h, if_neg h, fsForPath_cons_slash, show 128 - 3 = 125 from rfl,
    take_of_length_le (by omega), hq]
  obtain ⟨r, hp, hr⟩ := pathTrim_prefix (s.take 127)
  conv_rhs => rw [hp, take_append]
  exact (pathTrim_fsForPath_append fun b hb => hr b (mem_of_mem_take hb)).symm

theorem weight_joinPath (d b : Str) : weight (joinPath d b) = weight d + weight b := by
  unfold joinPath
  rw [weight_append]
  split
  · rw [weight_append]
    rfl
  · rfl

theorem joinPath_getLast {d b : Str} (hb : b ≠ []) (h47 : (47 : UInt8) ∉ b) {n : ℕ}
    (h : Slashes ((joinPath d b).drop n)) : (joinPath d b).length ≤ n := by
  by_contra hlt
  obtain ⟨b₀, x, rfl⟩ := (eq_nil_or_concat' b).resolve_left hb
  unfold joinPath at h hlt
  rw [← append_assoc] at h hlt
  rw [length_append, length_singleton] at hlt
  rw [drop_append_of_le_length (by omega)] at h
  exact h47 (by rw [← h x (by simp)]; simp)

/-- The copies of `vfs_rename_path` and of the driver have room for this
destination. -/
def FitsDest (u : Str) : Prop :=
  if u.head? = some 47 then (fsForPath u).length ≤ 127 else u.length ≤ 125

theorem take_driverPath {u : Str} (h : FitsDest u) : (driverPath u).take 127 = fsForPath u := by
  unfold FitsDest at h
  unfold driverPath absPath
  by_cases hh : u.head? = some 47
  · rw [if_pos hh] at h ⊢
    exact take_of_length_le h
  · rw [if_neg hh] at h ⊢
    have hlen := length_fsForPath_le u
    rw [fsForPath_cons_slash, show 128 - 3 = 125 from rfl, take_of_length_le h,
      take_of_length_le (by omega)]

theorem fits_of_weight {d b : Str} (hb : b ≠ []) (h47 : (47 : UInt8) ∉ b)
    (h : weight (joinPath d b) ≤ weight ((driverPath (joinPath d b)).take 127)) :
    FitsDest (joinPath d b) := by
  unfold driverPath absPath at h
  unfold FitsDest
  by_cases hh : (joinPath d b).head? = some 47
  · rw [if_pos hh] at h ⊢
    rw [← weight_fsForPath (joinPath d b)] at h
    obtain ⟨t, ht⟩ : fsForPath (joinPath d b) <:+ joinPath d b := dropWhile_suffix _
    have hlen := joinPath_getLast hb h47 (n := t.length + 127) (d := d) (by
      rw [← ht, ← drop_drop, drop_left]
      exact slashes_of_weight_le h)
    have := congrArg length ht
    rw [length_append] at this
    omega
  · rw [if_neg hh] at h ⊢
    refine joinPath_getLast hb h47 (slashes_of_weight_le (h.trans ((weight_take_le _ _).trans ?_)))
    rw [fsForPath_cons_slash, weight_fsForPath]

theorem weight_driverPath_le (p : Str) : weight ((driverPath p).take 127) ≤ weight p := by
  refine (weight_take_le _ _).trans ?_
  unfold driverPath absPath
  split
  · rw [weight_fsForPath]
  · rw [fsForPath_cons_slash, weight_fsForPath]
    exact weight_take_le _ _

/-- **Two paths are moved as they were meant.** -/
theorem moveNames_iff {s d : Str} (hbase : pathTail (moveSrc s) ≠ []) :
    renameNames (driverPath (moveSrc s)) (driverPath (moveDest s d)) =
        exactRename (fsForPath (stripTrailingSlashes s)) (fsForPath (exactDest s d)) ↔
      Slashes (s.drop (room s)) ∧ Slashes (d.drop 127) ∧ FitsDest (exactDest s d) ∧
        (pathTail (pathTrim (fsForPath (exactDest s d)))).length ≤ 55 := by
  have hsrc : resolved (pathTrim (fsForPath (stripTrailingSlashes s))) =
      resolved (pathTrim (fsForPath s)) := by
    unfold stripTrailingSlashes
    rw [pathTrim_fsForPath_pathTrim]
  rw [renameNames_eq_iff, pathTrim_driverPath_moveSrc, hsrc, resolved_pathTrim_kept_iff]
  refine and_congr_right fun hs => ?_
  -- the source is whole, so its last component is the one that was meant
  have hmove : moveSrc s = pathTrim s :=
    pathTrim_take (by omega) fun b hb => hs b (drop_subset_drop_left s (room_le s) hb)
  have hdest : Slashes (d.drop 127) → moveDest s d = exactDest s d := by
    intro hd
    unfold moveDest exactDest stripTrailingSlashes
    rw [hmove, pathTrim_take (by omega) hd]
  constructor
  · rintro ⟨hparent, htail⟩
    have hw := weight_le_of_newName hparent htail
    rw [weight_fsForPath] at hw
    have hd : Slashes (d.drop 127) := by
      have hle := hw.trans (weight_driverPath_le _)
      unfold moveDest exactDest stripTrailingSlashes at hle
      rw [hmove, weight_joinPath, weight_joinPath, weight_pathTrim, weight_pathTrim] at hle
      exact slashes_of_weight_le (by omega)
    rw [hdest hd] at hw htail
    rw [hmove] at hbase
    have hfits : FitsDest (exactDest s d) := fits_of_weight hbase (not_mem_pathTail _) hw
    rw [take_driverPath hfits, take_eq_self_iff] at htail
    exact ⟨hd, hfits, htail⟩
  rintro ⟨hd, hfits, hlen⟩
  rw [hdest hd, take_driverPath hfits]
  exact ⟨rfl, take_of_length_le hlen⟩

end Lnxrm.Vfs
