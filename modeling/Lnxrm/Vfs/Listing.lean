import Lnxrm.Fat32.Helpers.Walks
import Lnxrm.Fat32.Subtree
import Lnxrm.Vfs.File

/-!
# VFS — listing a directory

`SYS_getdent` fetches each entry by a scan from the start of the directory,
up to the one whose number the cookie holds. Over any sequence of calls,
with buffers of any size, it returns what a scan of the directory reports,
without the names that start with a dot: in order, each entry once, and
nothing more after the last (`getdents_eq`).

The calls may come from different states of the file system, as long as
the directory's scan reports the same in each of them.
-/

namespace Lnxrm.Vfs

open List

open Fat32
open Prog (exec exec_bind)

variable {δ : Type} [DecidableEq δ] {m : Mount} {dev : δ} {s : Fs δ} {es : List (Str × Dirent)}
  {it : DirIter} {r : Resolve} {i : ℕ}

/-- The entries a listing shows. -/
def visible (es : List (Str × Dirent)) : List (Str × Dirent) := es.filter fun x => x.1.head? ≠ some 46

/-- An entry as `SYS_getdent` returns it: the name cut to 55 bytes, and the
type `DT_DIR` or `DT_REG`. -/
def listed (x : Str × Dirent) : LnxrmDirent where
  dIno := 0
  dType := if x.2.isDir then 4 else 8
  dName := x.1.take 55

/-- How many entries fit a buffer of `len` bytes. -/
def fits (len : ℕ) : ℕ := (if getdentBuf < len then getdentBuf else len) / direntBytes

/-- What a list becomes when it is handed out in pieces of these sizes. -/
def handedOut {α : Type} : List ℕ → List α → List (List α)
  | [], _ => []
  | n :: ns, l => l.take n :: handedOut ns (l.drop n)

/-- A scan of the directory reports these entries, and no device read
fails. -/
def Reports (m : Mount) (dev : δ) (s : Fs δ) (d : ℕ) (es : List (Str × Dirent)) : Prop :=
  s.storage.blk.disks.ReadsOk ∧ ∃ s', Fs.call m dev (fatScanDir m d takeDown []) s = some ((false, es), s')

/-- `SYS_getdent` again and again, each call in its own state and with its
own buffer: the entries of each call. -/
def getdents (m : Mount) (dev : δ) : DirIter → List (Fs δ × ℕ) → Option (List (List LnxrmDirent))
  | _, [] => some []
  | it, (s, len) :: calls => do
    let ((_, es, it), _) ← Fs.call m dev (sysGetdent m it len) s
    let rest ← getdents m dev it calls
    pure (es :: rest)

/-! ## One scan against the other -/

theorem scanStep_iter {lf : LfnState} {target c : ℕ} {e : Dirent} (hend : e 0 ≠ entEnd)
    (hused : entryUsed e = true) (hl : e.isLfn = false) (hv : e.isVolume = false) :
    scanStep (scanIterCb target) (lf, (c, none)) e =
      if (lfnName lf e).head? = some 46 then .inl (lfnReset lf, (c, none))
      else if c = target then
        .inr (true, (c + 1, some ((lfnName lf e).take 55, if e.isDir then 4 else 8)))
      else .inl (lfnReset lf, (c + 1, none)) := by
  rw [scanStep_live hend hused hl hv]
  unfold scanIterCb
  split_ifs <;> simp_all

/-- **The scan for one entry against the scan for all.** `seen` has been
taken down and `c` entries have been counted before; `es` come up from
here on. The entry with the number `target` is the one with the number
`target - c` of those still to come. -/
structure FindsEntry (target c : ℕ) (seen es : List (Str × Dirent))
    (all : (LfnState × List (Str × Dirent)) ⊕ (Bool × List (Str × Dirent)))
    (one : (LfnState × (ℕ × Option (Str × ℕ))) ⊕ (Bool × (ℕ × Option (Str × ℕ)))) : Prop where
  reported : all.elim Prod.snd Prod.snd = seen ++ es
  hit : ∀ x, (visible es)[target - c]? = some x →
    one = .inr (true, (target + 1, some (x.1.take 55, if x.2.isDir then 4 else 8)))
  miss : (visible es).length ≤ target - c →
    one = all.map (fun st => (st.1, (c + (visible es).length, none)))
      fun _ => (false, (c + (visible es).length, none))

theorem foldExit_scanIter (target : ℕ) (rs : List Dirent) :
    ∀ (lf : LfnState) (c : ℕ) (seen : List (Str × Dirent)), c ≤ target → ∃ es,
      es.length ≤ rs.length ∧ FindsEntry target c seen es
        (foldExit (scanStep takeDown) (lf, seen) rs)
        (foldExit (scanStep (scanIterCb target)) (lf, (c, none)) rs) := by
  induction rs with
  | nil =>
    exact fun lf c seen _ => ⟨[], Nat.le_refl _, by simp [foldExit], by simp [visible], fun _ => rfl⟩
  | cons e rs ih =>
    intro lf c seen hc
    -- a record that is not handed to the callback leaves both scans alike
    have hskip : ∀ lf', scanStep takeDown (lf, seen) e = .inl (lf', seen) →
        scanStep (scanIterCb target) (lf, (c, none)) e = .inl (lf', (c, none)) →
        ∃ es, es.length ≤ (e :: rs).length ∧ FindsEntry target c seen es
          (foldExit (scanStep takeDown) (lf, seen) (e :: rs))
          (foldExit (scanStep (scanIterCb target)) (lf, (c, none)) (e :: rs)) := by
      intro lf' htake hiter
      obtain ⟨es, hlen, h⟩ := ih lf' c seen hc
      rw [foldExit, foldExit, htake, hiter]
      exact ⟨es, by simp only [length_cons]; omega, h⟩
    by_cases hend : e 0 = entEnd
    · rw [foldExit, foldExit, scanStep_end hend, scanStep_end hend]
      exact ⟨[], Nat.zero_le _, by simp, by simp [visible], fun _ => rfl⟩
    cases hused : entryUsed e with
    | false => exact hskip _ (scanStep_free hused) (scanStep_free hused)
    | true =>
      cases hl : e.isLfn with
      | true => exact hskip _ (scanStep_lfn hend hused hl) (scanStep_lfn hend hused hl)
      | false =>
        cases hv : e.isVolume with
        | true =>
          exact hskip _ (scanStep_volume hend hused hl hv)
            (scanStep_volume hend hused hl hv)
        | false =>
          have htake : scanStep takeDown (lf, seen) e =
              .inl (lfnReset lf, seen ++ [(lfnName lf e, e)]) := by
            rw [scanStep_live hend hused hl hv]
            rfl
          rw [foldExit, foldExit, htake, scanStep_iter hend hused hl hv]
          by_cases hdot : (lfnName lf e).head? = some 46
          · obtain ⟨es, hlen, h⟩ := ih (lfnReset lf) c (seen ++ [(lfnName lf e, e)]) hc
            have hvisible : visible ((lfnName lf e, e) :: es) = visible es :=
              filter_cons_of_neg (by simp [hdot])
            rw [if_pos hdot]
            refine ⟨(lfnName lf e, e) :: es, by simpa using hlen, by simpa using h.reported, ?_, ?_⟩
            · rw [hvisible]
              exact h.hit
            · rw [hvisible]
              exact h.miss
          have hvisible : ∀ es, visible ((lfnName lf e, e) :: es) =
              (lfnName lf e, e) :: visible es :=
            fun es => filter_cons_of_pos (by simpa using hdot)
          rw [if_neg hdot]
          by_cases htarget : c = target
          · obtain ⟨es, hlen, h⟩ := ih (lfnReset lf) c (seen ++ [(lfnName lf e, e)]) hc
            rw [if_pos htarget]
            refine ⟨(lfnName lf e, e) :: es, by simpa using hlen, by simpa using h.reported,
              fun x hx => ?_, fun hle => ?_⟩
            · rw [hvisible, htarget, Nat.sub_self] at hx
              cases hx
              rw [htarget]
            · rw [hvisible, length_cons] at hle
              omega
          obtain ⟨es, hlen, h⟩ :=
            ih (lfnReset lf) (c + 1) (seen ++ [(lfnName lf e, e)]) (by omega)
          have hsub : target - c = target - (c + 1) + 1 := by omega
          rw [if_neg htarget]
          refine ⟨(lfnName lf e, e) :: es, by simpa using hlen, by simpa using h.reported,
            fun x hx => ?_, fun hle => ?_⟩
          · rw [hvisible, hsub, getElem?_cons_succ] at hx
            exact h.hit x hx
          · rw [hvisible, length_cons] at hle ⊢
            rw [Nat.add_comm (visible es).length 1, ← Nat.add_assoc]
            exact h.miss (by omega)

/-! ## How many entries there are -/

theorem length_report_le (lf : LfnState) (rs : List Dirent) :
    ((foldExit (scanStep takeDown) (lf, []) rs).elim Prod.snd Prod.snd).length ≤ rs.length := by
  obtain ⟨es, hlen, h⟩ := foldExit_scanIter 0 rs lf 0 [] (Nat.le_refl _)
  rw [h.reported, nil_append]
  exact hlen

theorem scanStep_takeDown_end {st : LfnState × List (Str × Dirent)} {e : Dirent}
    {x : Bool × List (Str × Dirent)} (h : scanStep takeDown st e = .inr x) : e 0 = entEnd := by
  unfold scanStep takeDown at h
  dsimp only at h
  split_ifs at h with hend _ _ _ hstop
  · exact hend
  · exact hstop.elim

/-- **A scan that comes back has gone over few clusters**: it has met the
end of a walk, or an end mark in a cluster it met for the first time. -/
theorem Reports.length_le {d : ℕ} (h : Reports m dev s d es) :
    es.length ≤ (m.maxCluster + 2) * m.sectorsPerCluster * 16 := by
  obtain ⟨hr, s', hcall⟩ := h
  rw [Fs.call, exec_fatScanDir hr] at hcall
  have hbound : ∀ l : List ℕ, l.length ≤ m.maxCluster + 2 →
      ((foldExit (scanStep takeDown) (lfnInit m, []) (s.deviceRecords m dev l)).elim
        Prod.snd Prod.snd).length ≤ (m.maxCluster + 2) * m.sectorsPerCluster * 16 := by
    intro l hl
    refine (length_report_le _ _).trans ?_
    rw [length_deviceRecords]
    exact Nat.mul_le_mul_right _ (Nat.mul_le_mul_right _ hl)
  cases hfold : foldExit (scanStep takeDown) (lfnInit m, []) (s.walkedRecords m dev d) with
  | inl st =>
    rw [hfold] at hcall
    simp only [Sum.elim_inl] at hcall
    split_ifs at hcall with hlt
    cases hcall
    have := hbound _ ((length_le_of_walk (walk_walkFrom hlt)).trans (by omega))
    rw [Fs.walkedRecords, walked] at hfold
    rwa [hfold] at this
  | inr x =>
    rw [hfold] at hcall
    cases hcall
    by_cases hfuel : m.fuel ≤ m.maxCluster + 2
    · have := hbound (walked m s.fat d) ((length_walkFrom_le _ _ _ _).trans hfuel)
      rw [Fs.walkedRecords] at hfold
      rwa [hfold] at this
    obtain ⟨l, hl⟩ := walkFrom_add (nextOf m s.fat) Ends (m.maxCluster + 2)
      (m.fuel - (m.maxCluster + 2)) d
    rw [Nat.add_sub_of_le (by omega)] at hl
    have hrecs : s.walkedRecords m dev d =
        s.deviceRecords m dev (walkFrom (nextOf m s.fat) Ends (m.maxCluster + 2) d) ++
          s.deviceRecords m dev l := by
      rw [Fs.walkedRecords, walked, hl, Fs.deviceRecords, Fs.deviceRecords, Fs.deviceRecords, slots,
        slots, slots, sectors, sectors, sectors, flatMap_append, flatMap_append,
        map_append]
    have hfirst := hbound _ (length_walkFrom_le (nextOf m s.fat) Ends (m.maxCluster + 2) d)
    rw [hrecs, foldExit_append] at hfold
    cases hpart : foldExit (scanStep takeDown) (lfnInit m, [])
        (s.deviceRecords m dev (walkFrom (nextOf m s.fat) Ends (m.maxCluster + 2) d)) with
    | inr y =>
      rw [hpart] at hfold hfirst
      cases hfold
      exact hfirst
    | inl st =>
      -- the end mark would lie in a cluster that was passed without one
      exfalso
      rw [hpart] at hfold
      obtain ⟨l₁, e, l₂, b', hsplit, -, he⟩ := foldExit_inr hfold
      have hmem : e ∈ s.walkedRecords m dev d := by
        rw [hrecs, hsplit]
        simp
      obtain ⟨p, hp, rfl⟩ := mem_map.mp hmem
      have hp' : p ∈ slots m (walkFrom (nextOf m s.fat) Ends (m.maxCluster + 2) d) := by
        obtain ⟨hlba, hoff⟩ := mem_slots.mp hp
        obtain ⟨c, hc, i, hi, hlba⟩ := mem_sectors.mp hlba
        exact mem_slots.mpr ⟨mem_sectors.mpr ⟨c, walkFrom_subset m s.fat _ d hc, i, hi, hlba⟩, hoff⟩
      obtain ⟨b₁, b₂, hgo⟩ := foldExit_inl hpart (mem_map_of_mem hp')
      rw [show b₁ = (b₁.1, b₁.2) from rfl, scanStep_end (scanStep_takeDown_end he)] at hgo
      cases hgo

/-! ## The calls -/

theorem exec_scanIter {d : ℕ} (h : Reports m dev s d es) (i : ℕ) : (∀ x, (visible es)[i]? = some x →
      exec (fatImpl m dev) (fatScanDir m d (scanIterCb i) (0, none)) s =
        some ((true, (i + 1, some (x.1.take 55, if x.2.isDir then 4 else 8))), s)) ∧
    ((visible es).length ≤ i → ∃ n,
      exec (fatImpl m dev) (fatScanDir m d (scanIterCb i) (0, none)) s =
        some ((false, (n, none)), s)) := by
  obtain ⟨hr, s', hcall⟩ := h
  obtain ⟨es', -, hfind⟩ := foldExit_scanIter i (s.walkedRecords m dev d) (lfnInit m) 0 []
    (Nat.zero_le _)
  have hrep := hfind.reported
  rw [Fs.call, exec_fatScanDir hr] at hcall
  rw [exec_fatScanDir hr]
  cases hfold : foldExit (scanStep takeDown) (lfnInit m, []) (s.walkedRecords m dev d) with
  | inl st =>
    rw [hfold] at hcall hrep
    simp only [Sum.elim_inl] at hcall hrep
    split_ifs at hcall with hlt
    cases hcall
    rw [nil_append] at hrep
    rw [hrep]
    refine ⟨fun x hx => ?_, fun hle => ⟨0 + (visible es').length, ?_⟩⟩
    · rw [hfind.hit x hx]
      rfl
    · rw [hfind.miss hle, hfold, Sum.map_inl, Sum.elim_inl, if_pos hlt]
  | inr x =>
    rw [hfold] at hcall hrep
    cases hcall
    rw [Sum.elim_inr, nil_append] at hrep
    obtain rfl : es = es' := hrep
    refine ⟨fun x hx => ?_, fun hle => ⟨0 + (visible es).length, ?_⟩⟩
    · rw [hfind.hit x hx]
      rfl
    · rw [hfind.miss hle, hfold]
      rfl

theorem Reports.visible_lt {d : ℕ} (h : Reports m dev s d es) :
    (visible es).length < 2 ^ 56 - 1 := by
  have hes := h.length_le
  have hvis : (visible es).length ≤ es.length := length_filter_le _ _
  have hmax := m.max_le
  have hspc := m.spc_lt
  have hmul : (m.maxCluster + 2) * m.sectorsPerCluster ≤ (2 ^ 20 + 2) * 256 :=
    Nat.mul_le_mul (by omega) (by omega)
  omega

/-- **One entry**: `fat32_getdent_impl` finds the entry whose number the
cookie holds. -/
theorem exec_getdent_hit (h : Reports m dev s r.de.clus es) {x : Str × Dirent}
    (hx : (visible es)[i]? = some x) :
    exec (fatImpl m dev) (fat32GetdentImpl m r (i * 256)) s =
      some ((0, (i + 1) * 256, some (x.1.take 55, if x.2.isDir then 4 else 8)), s) := by
  have hlen := h.visible_lt
  have hi : i < (visible es).length := (List.getElem?_eq_some_iff.mp hx).1
  have hdiv : i * 256 / 256 = i := by omega
  have hmod : (i + 1) * 256 % 2 ^ 64 = (i + 1) * 256 := by omega
  rw [fat32GetdentImpl, if_neg (by omega), exec_bind, hdiv, (exec_scanIter h i).1 x hx,
    Option.bind_some, hmod]
  rfl

theorem exec_getdent_miss (h : Reports m dev s r.de.clus es) (hi : (visible es).length ≤ i) :
    exec (fatImpl m dev) (fat32GetdentImpl m r (i * 256)) s =
      some ((Errno.efail, i * 256 + 1, none), s) := by
  have hdiv : i * 256 / 256 = i := by omega
  obtain ⟨n, hscan⟩ := (exec_scanIter h i).2 hi
  rw [fat32GetdentImpl, if_neg (by omega), exec_bind, hdiv, hscan]
  rfl

/-- **Where an iteration stands**: `i` entries have been returned, and the
mark in the cookie means that these were all. -/
structure StandsAt (it : DirIter) (r : Resolve) (es : List (Str × Dirent)) (i : ℕ) : Prop where
  node : it.node = r
  le : i ≤ (visible es).length
  cookie : it.cookie = i * 256 ∨ it.cookie = i * 256 + 1 ∧ i = (visible es).length

/-- **One call** returns the next entries, as many as it has room for. -/
theorem exec_dirGetdent (h : Reports m dev s r.de.clus es) (n : ℕ) : ∀ {it : DirIter} {i : ℕ},
    StandsAt it r es i → ∃ it', exec (fatImpl m dev) (dirGetdent m n it) s =
        some ((((visible es).drop i).take n |>.map listed, it'), s) ∧
      StandsAt it' r es (min (i + n) (visible es).length) := by
  induction n with
  | zero =>
    intro it i hit
    refine ⟨it, by simp [dirGetdent, exec, pure], ?_⟩
    rw [Nat.add_zero, Nat.min_eq_left hit.le]
    exact hit
  | succ n ih =>
    intro it i hit
    obtain ⟨node, cookie⟩ := it
    obtain ⟨rfl, hle, hcookie⟩ := hit
    rcases hcookie with rfl | ⟨rfl, rfl⟩
    · rcases Nat.lt_or_ge i (visible es).length with hlt | hge
      · -- an entry, and the rest of the loop
        have hx : (visible es)[i]? = some (visible es)[i] := getElem?_eq_getElem hlt
        have hnext : StandsAt ⟨node, (i + 1) * 256⟩ node es (i + 1) := ⟨rfl, hlt, Or.inl rfl⟩
        obtain ⟨it', hrest, hit'⟩ := ih hnext
        refine ⟨it', ?_, ?_⟩
        · rw [dirGetdent, exec_bind, exec_getdent_hit h hx, Option.bind_some]
          dsimp only
          rw [if_neg (by decide), exec_bind, hrest, Option.bind_some, drop_eq_getElem_cons hlt,
            take_succ_cons, map_cons, take_take, Nat.min_self]
          rfl
        · rwa [Nat.add_right_comm] at hit'
      obtain rfl : i = (visible es).length := Nat.le_antisymm hle hge
      refine ⟨⟨node, (visible es).length * 256 + 1⟩, ?_, ?_⟩
      · rw [dirGetdent, exec_bind, exec_getdent_miss h (Nat.le_refl _), Option.bind_some,
          drop_length]
        rfl
      · rw [Nat.min_eq_right (Nat.le_add_right _ _)]
        exact ⟨rfl, Nat.le_refl _, Or.inr ⟨rfl, rfl⟩⟩
    -- the mark: no scan is made
    refine ⟨⟨node, (visible es).length * 256 + 1⟩, ?_, ?_⟩
    · have hodd : ((visible es).length * 256 + 1) % 2 = 1 := by omega
      rw [dirGetdent, fat32GetdentImpl, if_pos hodd, drop_length]
      rfl
    · rw [Nat.min_eq_right (Nat.le_add_right _ _)]
      exact ⟨rfl, Nat.le_refl _, Or.inr ⟨rfl, rfl⟩⟩

theorem flatten_handedOut {α : Type} (ns : List ℕ) :
    ∀ l : List α, (handedOut ns l).flatten = l.take ns.sum := by
  induction ns with
  | nil => exact fun _ => rfl
  | cons n ns ih =>
    intro l
    rw [handedOut, flatten_cons, ih, sum_cons, take_add]

theorem handedOut_append {α : Type} (ns ns' : List ℕ) :
    ∀ l : List α, handedOut (ns ++ ns') l = handedOut ns l ++ handedOut ns' (l.drop ns.sum) := by
  induction ns with
  | nil => exact fun _ => rfl
  | cons n ns ih =>
    intro l
    rw [cons_append, handedOut, handedOut, ih, drop_drop, sum_cons, cons_append]

/-- **The calls one after the other** hand out the entries that remain. -/
theorem getdents_of_standsAt (calls : List (Fs δ × ℕ)) :
    ∀ {it : DirIter} {i : ℕ}, StandsAt it r es i → (∀ x ∈ calls, Reports m dev x.1 r.de.clus es) →
      getdents m dev it calls =
        some (handedOut (calls.map fun x => fits x.2) (((visible es).drop i).map listed)) := by
  induction calls with
  | nil => exact fun _ _ => rfl
  | cons x calls ih =>
    intro it i hit hrep
    obtain ⟨it', hcall, hit'⟩ := exec_dirGetdent (hrep x mem_cons_self) (fits x.2) hit
    have hrest := ih hit' fun y hy => hrep y (mem_cons_of_mem _ hy)
    have hdrop : (visible es).drop (min (i + fits x.2) (visible es).length) =
        ((visible es).drop i).drop (fits x.2) := by
      rw [drop_drop]
      rcases Nat.le_total (i + fits x.2) (visible es).length with hle | hle
      · rw [Nat.min_eq_left hle]
      · rw [Nat.min_eq_right hle, drop_length, drop_eq_nil_of_le hle]
    have hget : Fs.call m dev (sysGetdent m it x.2) x.1 =
        some ((((((visible es).drop i).take (fits x.2)).map listed).length * direntBytes,
          (((visible es).drop i).take (fits x.2)).map listed, it'), x.1) := by
      rw [Fs.call, sysGetdent, exec_bind]
      rw [fits] at hcall
      rw [hcall]
      rfl
    rw [getdents, hget]
    simp only [Option.bind_eq_bind, Option.bind_some, hrest, hdrop, map_cons, handedOut,
      map_take, map_drop]
    rfl

/-- **A listing is complete and free of duplicates.** Calls of
`SYS_getdent` on a freshly opened directory, with buffers of any size and
in any states in which a scan of the directory reports `es`: together they
return the entries of `es` whose names do not start with a dot, in this
order, as far as there was room, and a call that follows when all of them
have been returned returns none. -/
theorem getdents_eq (calls : List (Fs δ × ℕ)) (hrep : ∀ x ∈ calls, Reports m dev x.1 r.de.clus es) :
    ∃ out, getdents m dev { node := r, cookie := 0 } calls = some out ∧
      out.flatten = ((visible es).map listed).take (calls.map fun x => fits x.2).sum ∧
      ((visible es).length ≤ (calls.map fun x => fits x.2).sum →
        out.flatten = (visible es).map listed) ∧
      ∀ before after, calls = before ++ after →
        (visible es).length ≤ (before.map fun x => fits x.2).sum →
        ∀ got ∈ out.drop before.length, got = [] := by
  have hstart : StandsAt { node := r, cookie := 0 } r es 0 :=
    ⟨rfl, Nat.zero_le _, Or.inl (Nat.zero_mul _).symm⟩
  refine ⟨_, getdents_of_standsAt calls hstart hrep, ?_, ?_, ?_⟩
  · rw [flatten_handedOut, drop_zero]
  · intro hle
    rw [flatten_handedOut, drop_zero, take_of_length_le (by simpa using hle)]
  rintro before after rfl hle got hgot
  have hlen : ∀ (ns : List ℕ) (l : List LnxrmDirent), (handedOut ns l).length = ns.length := by
    intro ns
    induction ns with
    | nil => exact fun _ => rfl
    | cons n ns ih => exact fun l => by rw [handedOut, length_cons, ih, length_cons]
  have hnil : ∀ ns : List ℕ, ∀ got ∈ handedOut ns ([] : List LnxrmDirent), got = [] := by
    intro ns
    induction ns with
    | nil => exact fun got h => absurd h not_mem_nil
    | cons n ns ih =>
      intro got h
      rw [handedOut, take_nil, drop_nil] at h
      rcases mem_cons.mp h with rfl | h
      · rfl
      · exact ih got h
  rw [map_append, handedOut_append, drop_zero, drop_left' (by rw [hlen, length_map]),
    drop_eq_nil_of_le (by simpa using hle)] at hgot
  exact hnil _ got hgot

/-- A root directory with two directories, listed with buffers of 100, 50,
200 and 72 bytes: two entries, and none in the last call. -/
theorem pair_listed : ∃ out, getdents smallMount () { node := rootResolve smallMount, cookie := 0 }
        [(pairFs, 100), (pairFs, 50), (pairFs, 200), (pairFs, 72)] = some out ∧
      out.flatten = [⟨0, 4, [97]⟩, ⟨0, 4, [98]⟩] ∧ ∀ got ∈ out.drop 3, got = [] := by
  have hchain : HasChain smallMount pairFs.fat
      (rootResolve smallMount).de.clus [2] := by decide
  have hmounted : Mounted smallMount () pairFs := freshFs_mounted _ _ _
  have hscan := fatScanDir_call hmounted hchain
  have hvisible : (visible (reportOf smallMount (pairFs.records smallMount () [2]))).map listed =
        [⟨0, 4, [97]⟩, ⟨0, 4, [98]⟩] := by decide +kernel
  have hlen : (visible (reportOf smallMount (pairFs.records smallMount () [2]))).length = 2 := by
    simpa using congrArg length hvisible
  obtain ⟨out, hout, -, hall, hafter⟩ := getdents_eq
    [(pairFs, 100), (pairFs, 50), (pairFs, 200), (pairFs, 72)]
    fun x hx => by
      have hx : x.1 = pairFs := by
        simp only [mem_cons, not_mem_nil, or_false] at hx
        rcases hx with rfl | rfl | rfl | rfl <;> rfl
      rw [hx]
      exact ⟨rfl, hscan⟩
  refine ⟨out, hout, ?_, hafter [(pairFs, 100), (pairFs, 50), (pairFs, 200)] [(pairFs, 72)] rfl ?_⟩
  · rw [hall (by rw [hlen]; decide), hvisible]
  · rw [hlen]
    decide

end Lnxrm.Vfs
