import Lnxrm.Fat32.Unlink

/-!
# FAT32 — a rename in place and elsewhere

In the same directory `fat_rename_impl` has two ways: it rewrites the
record and its long name where they are (`renameHere`), or it claims a
fresh run of slots and frees the old ones (`renameAway`). A directory in
order (`Catalog`) is left with the same entries by both, those it had
with one name replaced (`renames_agree`).
-/

namespace Lnxrm.Fat32

open List

open Prog (wp wp_bind wp_pure)

variable {δ : Type} [DecidableEq δ] {m : Mount} {dev : δ} {s : Fs δ} {data : ℕ → Sector}
  {fat : ℕ → ℕ} {d n : ℕ} {l : List ℕ} {rs : List Dirent} {es es' es₁ es₂ : List (Str × Dirent)}
  {e : Dirent} {w w₀ : Str} {p c : DirentPos} {A B P Q R C : List DirentPos} {sum : UInt8}
  {loc : DirentLoc}

/-! ## The two ways -/

/-- The end of `fat_rename_impl` with `rename_in_place`; `none` where the
new name needs more long-name records than the old one has. -/
def renameHere (m : Mount) (loc : DirentLoc) (n : ℕ) (nname : Str) : Fat (Option Int) :=
  if n ≤ loc.lfn.length then do
    let rc ← renameInPlace m loc n nname (nameToShort nname) (lfnChecksum (nameToShort nname))
    pure (some rc)
  else pure none

/-- The end of `fat_rename_impl` with a fresh run in the same directory;
`none` where there is no room. -/
def renameAway (m : Mount) (d : ℕ) (loc : DirentLoc) (n : ℕ) (nname : Str) : Fat (Option Int) := do
  match ← dirClaimRun m d (n + 1) with
  | .error _ => pure none
  | .ok slots => do
    let rc ← renameMove m loc slots n nname (nameToShort nname) (lfnChecksum (nameToShort nname)) none
    pure (some rc)

/-! ## Directories in order -/

/-- **The records of a directory in order, and its entries**: every run of
long-name records holds a name and is followed by its 8.3 record. -/
inductive Catalog : List Dirent → List (Str × Dirent) → Prop
  | nil : Catalog [] []
  | free {e : Dirent} {rs : List Dirent} {es : List (Str × Dirent)} :
      entryUsed e = false → Catalog rs es → Catalog (e :: rs) es
  | volume {e : Dirent} {rs : List Dirent} {es : List (Str × Dirent)} :
      entryUsed e = true → e.isLfn = false → e.isVolume = true → Catalog rs es →
      Catalog (e :: rs) es
  | short {e : Dirent} {rs : List Dirent} {es : List (Str × Dirent)} :
      entryUsed e = true → e.isLfn = false → e.isVolume = false → Catalog rs es →
      Catalog (e :: rs) ((fatShortToName e.name, e) :: es)
  | long {run : List Dirent} {e : Dirent} {w : Str} {rs : List Dirent}
      {es : List (Str × Dirent)} :
      Spells w (lfnTotal w) run → (0 : UInt8) ∉ w → w ≠ [] → w.length ≤ 255 →
      entryUsed e = true → e.isLfn = false → e.isVolume = false → Catalog rs es →
      Catalog (run ++ e :: rs) ((w, e) :: es)

theorem Catalog.listing (h : Catalog rs es) (hend : ∀ r ∈ rs, r 0 ≠ entEnd) : Listing rs es := by
  induction h with
  | nil => exact .nil
  | free hfree _ ih => exact .free hfree (ih (forall_mem_cons.mp hend).2)
  | volume hused hl hv _ ih =>
    obtain ⟨he, hrest⟩ := forall_mem_cons.mp hend
    exact .volume hused he hl hv (ih hrest)
  | short hused hl hv _ ih => exact .short hused hl hv (ih (forall_mem_cons.mp hend).2)
  | long hs h0 hw hlen hused hl hv _ ih =>
    have hrest := (forall_mem_cons.mp (forall_mem_append.mp hend).2).2
    exact .record hs.isRun (names_of_spells hs h0 hw hlen _) hused hl hv (ih hrest)

theorem Catalog.last (h : Catalog rs es) :
    ∀ r, rs.getLast? = some r → ¬ (entryUsed r = true ∧ r.isLfn = true) := by
  have hcons : ∀ {e : Dirent} {rs : List Dirent}, ¬ (entryUsed e = true ∧ e.isLfn = true) →
      (∀ r, rs.getLast? = some r → ¬ (entryUsed r = true ∧ r.isLfn = true)) →
      ∀ r, (e :: rs).getLast? = some r → ¬ (entryUsed r = true ∧ r.isLfn = true) := by
    intro e rs he hrs r hr
    rw [getLast?_cons] at hr
    cases hlast : rs.getLast? with
    | none =>
      rw [hlast] at hr
      cases hr
      exact he
    | some x =>
      rw [hlast] at hr
      cases hr
      exact hrs _ hlast
  induction h with
  | nil => exact fun r hr => by simp at hr
  | free hfree _ ih => exact hcons (fun h => by simp [hfree] at h) ih
  | volume _ hl _ _ ih => exact hcons (fun h => by simp [hl] at h) ih
  | short _ hl _ _ ih => exact hcons (fun h => by simp [hl] at h) ih
  | long _ _ _ _ _ hl _ _ ih =>
    intro r hr
    rw [getLast?_append_of_ne_nil _ (by simp)] at hr
    exact hcons (fun h => by simp [hl] at h) ih r hr

/-- **The record of an entry**, with its run. -/
theorem Catalog.split (h : Catalog rs es) :
    ∀ {es₁ es₂ : List (Str × Dirent)}, es = es₁ ++ (w₀, e) :: es₂ →
      ∃ pre run post, rs = pre ++ (run ++ e :: post) ∧ Catalog pre es₁ ∧ Catalog post es₂ ∧
        (IsRun run ∧ run.length ≤ lfnEntriesMax) ∧ entryUsed e = true ∧ e.isLfn = false ∧
        e.isVolume = false := by
  induction h with
  | nil => exact fun hes => by simp at hes
  | free hfree _ ih =>
    intro es₁ es₂ hes
    obtain ⟨pre, run, post, rfl, hpre, hrest⟩ := ih hes
    exact ⟨_ :: pre, run, post, rfl, .free hfree hpre, hrest⟩
  | volume hused hl hv _ ih =>
    intro es₁ es₂ hes
    obtain ⟨pre, run, post, rfl, hpre, hrest⟩ := ih hes
    exact ⟨_ :: pre, run, post, rfl, .volume hused hl hv hpre, hrest⟩
  | @short f rs es hused hl hv hrs ih =>
    intro es₁ es₂ hes
    cases es₁ with
    | nil =>
      obtain ⟨hx, rfl⟩ := List.cons.inj hes
      obtain ⟨-, rfl⟩ := Prod.mk.inj hx
      exact ⟨[], [], rs, rfl, .nil, hrs, ⟨isRun_nil, Nat.zero_le _⟩, hused, hl, hv⟩
    | cons x es₁ =>
      obtain ⟨rfl, htail⟩ := List.cons.inj hes
      obtain ⟨pre, run, post, rfl, hpre, hrest⟩ := ih htail
      exact ⟨f :: pre, run, post, rfl, .short hused hl hv hpre, hrest⟩
  | @long run f w rs es hs h0 hw hlen hused hl hv hrs ih =>
    intro es₁ es₂ hes
    cases es₁ with
    | nil =>
      obtain ⟨hx, rfl⟩ := List.cons.inj hes
      obtain ⟨-, rfl⟩ := Prod.mk.inj hx
      refine ⟨[], run, rs, rfl, .nil, hrs, ⟨hs.isRun, ?_⟩, hused, hl, hv⟩
      rw [hs.length_eq]
      unfold lfnTotal lfnEntriesMax
      omega
    | cons x es₁ =>
      obtain ⟨rfl, htail⟩ := List.cons.inj hes
      obtain ⟨pre, run', post, rfl, hpre, hrest⟩ := ih htail
      refine ⟨run ++ f :: pre, run', post, ?_, .long hs h0 hw hlen hused hl hv hpre, hrest⟩
      rw [append_assoc, cons_append]

/-! ## Where the record lies -/

theorem append_row_unique {α : Type} {T : α → Prop} {A B X Y : List α} (h : A ++ X = B ++ Y)
    (hX : ∀ x ∈ X, T x) (hY : ∀ x ∈ Y, T x) (hA : ∀ x, A.getLast? = some x → ¬ T x)
    (hB : ∀ x, B.getLast? = some x → ¬ T x) : A = B ∧ X = Y := by
  have hnil : ∀ {A B X Y : List α} (a : List α), A = B ++ a → Y = a ++ X → (∀ x ∈ Y, T x) →
      (∀ x, A.getLast? = some x → ¬ T x) → a = [] := by
    rintro A B X Y a rfl rfl hY hA
    by_contra hne
    have hlast := hA (a.getLast hne)
    rw [getLast?_append_of_ne_nil _ hne, getLast?_eq_some_getLast hne] at hlast
    exact hlast rfl (hY _ (mem_append_left _ (getLast_mem hne)))
  rcases append_eq_append_iff.mp h with ⟨a, hB', hX'⟩ | ⟨a, hA', hY'⟩
  · obtain rfl := hnil a hB' hX' hX hB
    exact ⟨by simpa using hB'.symm, by simpa using hX'⟩
  · obtain rfl := hnil a hA' hY' hY hA
    exact ⟨by simpa using hA', by simpa using hY'.symm⟩

/-- **The places of an entry**: the record, with the run in front of it and
the records before and behind. -/
structure EntryAt (m : Mount) (data : ℕ → Sector) (l : List ℕ) (loc : DirentLoc)
    (P Q : List DirentPos) : Prop where
  split : slots m l = P ++ loc.lfn ++ loc.pos :: Q
  de : loc.de = recOf data loc.pos
  long : ∀ q ∈ loc.lfn, IsLong data q
  last : ∀ q, P.getLast? = some q → ¬ IsLong data q
  bound : loc.lfn.length ≤ lfnEntriesMax
  used : entryUsed loc.de = true
  short : loc.de.isLfn = false
  file : loc.de.isVolume = false

theorem exists_entryAt (hcat : Catalog ((slots m l).map (recOf data)) (es₁ ++ (w₀, e) :: es₂)) :
    ∃ loc P Q, EntryAt m data l loc P Q ∧ loc.de = e ∧ Catalog (P.map (recOf data)) es₁ ∧
      Catalog (Q.map (recOf data)) es₂ := by
  obtain ⟨pre, run, post, hrs, hpre, hpost, ⟨hrun, hlen⟩, hused, hl, hv⟩ := hcat.split rfl
  obtain ⟨P, rest, hP, rfl, hrest⟩ := map_eq_append_iff.mp hrs
  obtain ⟨R, rest', hR, rfl, hrest'⟩ := map_eq_append_iff.mp hrest
  obtain ⟨p, Q, rfl, rfl, rfl⟩ := map_eq_cons_iff.mp hrest'
  refine ⟨{ pos := p, de := recOf data p, lfn := R }, P, Q,
    ⟨?_, rfl, ?_, ?_, ?_, hused, hl, hv⟩, rfl, hpre, hpost⟩
  · rw [hP, hR, append_assoc]
  · exact fun q hq => hrun _ (mem_map_of_mem hq)
  · intro q hq
    refine hpre.last (recOf data q) ?_
    rw [getLast?_map, hq]
    rfl
  · rw [length_map] at hlen
    exact hlen

/-- **`dirent_locate` finds them** in a closed directory without a second
record of these eleven bytes. -/
theorem EntryAt.located (h : EntryAt m data l loc P Q) (hd : HasChain m fat d l)
    (hclosed : Closed data (slots m l))
    (huniq : ∀ q ∈ slots m l, IsShort data q → (recOf data q).name = loc.de.name → q = loc.pos) :
    locateRecord m data fat d loc.de.name = some loc := by
  have hsplit := h.split
  have hused := h.used
  have hshort := h.short
  rw [h.de] at huniq hused hshort ⊢
  have hnd : (slots m l).Nodup := nodup_slots hd.range_u32 hd.nodup
  have hbefore : ∀ q ∈ P ++ loc.lfn, recOf data q 0 ≠ entFree ∧ (entryUsed (recOf data q) = true →
      (recOf data q).isLfn = false → (recOf data q).name ≠ (recOf data loc.pos).name) := by
    intro q hq
    constructor
    · intro hfree
      unfold Closed at hclosed
      rw [hsplit, pairwise_append] at hclosed
      have hpfree := hclosed.2.2 q hq loc.pos mem_cons_self hfree
      simp [entryUsed, hpfree] at hused
    intro hu hs hname
    have hqs : q ∈ slots m l := by
      rw [hsplit]
      exact mem_append_left _ hq
    have heq := huniq q hqs ⟨hu, hs⟩ hname
    rw [hsplit, nodup_append] at hnd
    exact hnd.2.2 q hq loc.pos mem_cons_self heq
  obtain ⟨loc', hfold, hpos⟩ := locate_of_passable (B := Q) hused hshort hbefore []
  have hlocated : locateRecord m data fat d (recOf data loc.pos).name = some loc' := by
    rw [locateRecord, hd.chainOf_eq, hsplit, hfold]
  obtain ⟨A, run, B, hL⟩ := locateRecord_some hlocated
  have hsplit' := hL.split
  rw [hd.chainOf_eq, hpos] at hsplit'
  have hrow : A ++ run = P ++ loc.lfn :=
    (takeWhile_ne_eq hnd hsplit').symm.trans (takeWhile_ne_eq hnd hsplit)
  obtain ⟨-, hrun⟩ := append_row_unique hrow hL.long h.long hL.last h.last
  have hlfn : loc'.lfn = loc.lfn := by
    rw [hL.lfn, hrun, take_of_length_le h.bound]
  have hde : loc'.de = loc.de := by
    rw [hL.de, hpos, h.de]
  rw [hlocated]
  obtain ⟨pos, de, lfn⟩ := loc'
  simp only at hpos hde hlfn
  rw [hpos, hde, hlfn]

/-! ## The records afterwards -/

section After

variable {K L : List DirentPos} {r : Dirent}

/-- **The records after a rename in place**: the surplus of the old run is
free, the rest of it holds the new name. -/
theorem map_here (hnd : (P ++ (K ++ L) ++ p :: Q).Nodup)
    (hal : ∀ q ∈ P ++ (K ++ L) ++ p :: Q, Aligned q) :
    (P ++ (K ++ L) ++ p :: Q).map
        (recOf (putAt (putLfns L.length sum w L (K.foldl freeAt data)) p r)) =
      P.map (recOf data) ++ (K.map (fun q => freedRecord (recOf data q)) ++
        (lfnRun L.length sum w L.length ++ r :: Q.map (recOf data))) := by
  have hp : Aligned p := hal p (by simp)
  have hK : ∀ q ∈ K, Aligned q := fun q hq => hal q (by simp [hq])
  have hL : ∀ q ∈ L, Aligned q := fun q hq => hal q (by simp [hq])
  simp only [nodup_append, nodup_cons, mem_append, mem_cons] at hnd
  obtain ⟨⟨-, ⟨-, hndL, hKL⟩, hPR⟩, ⟨hpQ, -⟩, hdis⟩ := hnd
  -- a place that is neither in the old run nor that of the record
  have hsame : ∀ q, Aligned q → q ∉ K → q ∉ L → q ≠ p →
      recOf (putAt (putLfns L.length sum w L (K.foldl freeAt data)) p r) q = recOf data q := by
    intro q hq hqK hqL hqp
    rw [recOf_putAt hp hq, if_neg hqp, recOf_putLfns_of_not_mem hL hq hqL, recOf_freeAll hK hq,
      if_neg hqK]
  rw [map_append, map_append, map_append, map_cons, append_assoc, append_assoc]
  congr 1
  · refine map_congr_left fun q hq => hsame q (hal q (by simp [hq])) ?_ ?_ ?_
    · exact fun h => hPR q hq q (.inl h) rfl
    · exact fun h => hPR q hq q (.inr h) rfl
    · exact hdis q (.inl hq) p (.inl rfl)
  congr 1
  · refine map_congr_left fun q hq => ?_
    rw [recOf_putAt hp (hK q hq), if_neg (hdis q (.inr (.inl hq)) p (.inl rfl)),
      recOf_putLfns_of_not_mem hL (hK q hq) fun h => hKL q hq q h rfl, recOf_freeAll hK (hK q hq),
      if_pos hq]
  congr 1
  · have hrun : L.map (recOf (putLfns L.length sum w L (K.foldl freeAt data))) =
        lfnRun L.length sum w L.length := map_recOf_putLfns hL hndL
    rw [← hrun]
    refine map_congr_left fun q hq => ?_
    rw [recOf_putAt hp (hL q hq), if_neg (hdis q (.inr (.inr hq)) p (.inl rfl))]
  rw [recOf_putAt_self]
  congr 1
  refine map_congr_left fun q hq => hsame q (hal q (by simp [hq])) ?_ ?_ ?_
  · exact fun h => hdis q (.inr (.inl h)) q (.inr hq) rfl
  · exact fun h => hdis q (.inr (.inr h)) q (.inr hq) rfl
  · rintro rfl
    exact hpQ hq

theorem recOf_away (hC : ∀ q ∈ C ++ [c], Aligned q) (hloc : ∀ q ∈ loc.lfn ++ [loc.pos], Aligned q)
    {q : DirentPos} (hq : Aligned q) (hqC : q ∉ C ++ [c]) (hql : q ∉ loc.lfn ++ [loc.pos]) :
    recOf (freeLoc (putAt (putLfns n sum w C data) c r) loc) q = recOf data q := by
  have hCq : q ∉ C := fun h => hqC (mem_append_left _ h)
  have hcq : q ≠ c := fun h => hqC (by simp [h])
  rw [recOf_freeLoc hloc hq, if_neg hql, recOf_putAt (hC c (by simp)) hq, if_neg hcq,
    recOf_putLfns_of_not_mem (fun x hx => hC x (mem_append_left _ hx)) hq hCq]

/-- **The records a rename elsewhere writes.** -/
theorem map_away (hC : ∀ q ∈ C ++ [c], Aligned q) (hloc : ∀ q ∈ loc.lfn ++ [loc.pos], Aligned q)
    (hnd : (C ++ [c]).Nodup) (hdis : ∀ q ∈ C ++ [c], q ∉ loc.lfn ++ [loc.pos]) :
    (C ++ [c]).map (recOf (freeLoc (putAt (putLfns C.length sum w C data) c r) loc)) =
      lfnRun C.length sum w C.length ++ [r] := by
  have hCal : ∀ q ∈ C, Aligned q := fun q hq => hC q (mem_append_left _ hq)
  have hc : Aligned c := hC c (by simp)
  rw [map_append, map_singleton]
  congr 1
  · have hrun : C.map (recOf (putLfns C.length sum w C data)) = lfnRun C.length sum w C.length :=
      map_recOf_putLfns hCal (nodup_append.mp hnd).1
    rw [← hrun]
    refine map_congr_left fun q hq => ?_
    have hqc : q ≠ c := (nodup_append.mp hnd).2.2 q hq c (by simp)
    rw [recOf_freeLoc hloc (hCal q hq), if_neg (hdis q (mem_append_left _ hq)),
      recOf_putAt hc (hCal q hq), if_neg hqc]
  · rw [recOf_freeLoc hloc hc, if_neg (hdis c (by simp)), recOf_putAt_self]

theorem freed_away {data' : ℕ → Sector} (hloc : ∀ q ∈ loc.lfn ++ [loc.pos], Aligned q) :
    ∀ x ∈ (loc.lfn ++ [loc.pos]).map (recOf (freeLoc data' loc)), x 0 = entE5 := by
  intro x hx
  obtain ⟨q, hq, rfl⟩ := mem_map.mp hx
  rw [recOf_freeLoc hloc (hloc q hq), if_pos hq, freedRecord_zero]

end After

/-! ## The new name -/

theorem asciiToupper_cases (b : UInt8) :
    asciiToupper b = b ∨ 65 ≤ (asciiToupper b).toNat ∧ (asciiToupper b).toNat ≤ 90 := by
  unfold asciiToupper
  split
  · rename_i hb
    obtain ⟨h₁, h₂⟩ := hb
    rw [UInt8.le_iff_toNat_le] at h₁ h₂
    have h97 : (97 : UInt8).toNat = 97 := rfl
    have h122 : (122 : UInt8).toNat = 122 := rfl
    have h32 : (32 : UInt8).toNat = 32 := rfl
    rw [UInt8.toNat_sub_of_le _ _ (by rw [UInt8.le_iff_toNat_le]; omega)]
    exact Or.inr ⟨by omega, by omega⟩
  · exact Or.inl rfl

theorem nameToShort_ne {x : UInt8} (hx : x.toNat < 65 ∨ 90 < x.toNat) (h32 : x ≠ 32)
    (hw : w.head? ≠ some x) : nameToShort w 0 ≠ x := by
  show (((w.takeWhile (· != 46)).take 8).map asciiToupper).getD 0 32 ≠ x
  cases w with
  | nil => exact h32.symm
  | cons b bs =>
    by_cases hb : b = 46
    · rw [takeWhile_cons_of_neg (by simp [hb])]
      exact h32.symm
    · rw [takeWhile_cons_of_pos (by simpa using hb)]
      show asciiToupper b ≠ x
      rintro rfl
      rcases asciiToupper_cases b with heq | hlt
      · exact hw (by simp [heq])
      · omega

/-- The name a listing shows: the alias in lower case, where that is the
name. -/
def shownName (w : Str) : Str :=
  if fatLfnCount w = some 0 then fatShortToName (nameToShort w) else w

theorem shownName_eq (w : Str) : strcaseEq (shownName w) w = true := by
  unfold shownName
  split
  · rename_i h
    unfold fatLfnCount at h
    split_ifs at h with hlen hcase
    · exact hcase
    · have hdiv := Option.some.inj h
      omega
  · simp [strcaseEq]

/-- What a listing shows of an entry: name, attributes, first cluster and
size. -/
def shownEntry (x : Str × Dirent) : Str × UInt8 × ℕ × ℕ := (x.1, x.2.attr, x.2.clus, x.2.filesize)

/-! ## Reports -/

/-- The records make these entries, and none of them ends the scan. -/
structure Reads (rs : List Dirent) (es : List (Str × Dirent)) : Prop where
  listing : Listing rs es
  ends : ∀ r ∈ rs, r 0 ≠ entEnd

theorem Reads.append {rs' : List Dirent} (h : Reads rs es) (h' : Reads rs' es') :
    Reads (rs ++ rs') (es ++ es') where
  listing := h.listing.append h'.listing
  ends := forall_mem_append.mpr ⟨h.ends, h'.ends⟩

theorem Reads.report (h : Reads rs es) : reportOf m rs = es := by
  have hrep := (h.listing.reportFrom_iff (lfnReset_blank { longname := m.junk, seqMax := 0, nameEnd := 0 })
    []).mpr h.ends
  exact hrep

theorem reads_freed (h : ∀ r ∈ rs, r 0 = entE5) : Reads rs [] where
  listing := listing_free fun r hr => by
    rw [entryUsed, h r hr]
    decide
  ends r hr := by
    rw [h r hr]
    decide

/-- **The renamed record and its run.** -/
theorem reads_renamed (hcount : fatLfnCount w = some n) (h0 : (0 : UInt8) ∉ w) (hlen : w.length ≤ 55)
    (hfirst : w.head? ≠ some 0x05 ∧ w.head? ≠ some 0xE5) (hl : e.isLfn = false)
    (hv : e.isVolume = false) (sum : UInt8) :
    Reads (lfnRun n sum w n ++ [renamedRecord e (nameToShort w)])
      [(shownName w, renamedRecord e (nameToShort w))] := by
  have hzero : renamedRecord e (nameToShort w) 0 = nameToShort w 0 := rfl
  have hend : nameToShort w 0 ≠ entEnd := nameToShort_ne (Or.inl (by decide)) (by decide) hfirst.1
  have hE5 : nameToShort w 0 ≠ entE5 := nameToShort_ne (Or.inr (by decide)) (by decide) hfirst.2
  have hused : entryUsed (renamedRecord e (nameToShort w)) = true := by
    simp [entryUsed, hzero, nameToShort_zero h0, hE5]
  have hn : n ≤ 5 := fatLfnCount_le hlen hcount
  have hspells := spells_lfnRun h0 (by omega : n ≤ 20) sum n (Nat.le_refl n)
  obtain ⟨hw, -, htotal⟩ := fatLfnCount_some hcount
  have hname : Names (lfnRun n sum w n) (renamedRecord e (nameToShort w)) (shownName w) := by
    by_cases hn0 : n = 0
    · subst hn0
      have hnil := names_nil (renamedRecord e (nameToShort w))
      have halias : (renamedRecord e (nameToShort w)).name = nameToShort w := by
        funext i
        fin_cases i <;> rfl
      rw [halias] at hnil
      rw [shownName, if_pos hcount]
      exact hnil
    · obtain rfl : n = lfnTotal w := by omega
      rw [shownName, if_neg fun h => hn0 (Option.some.inj (hcount.symm.trans h))]
      exact names_of_spells hspells h0 hw (by omega) _
  refine ⟨.record hspells.isRun hname hused hl hv .nil, forall_mem_append.mpr
    ⟨lfnRun_ne_end hn sum, ?_⟩⟩
  intro r hr
  rw [mem_singleton.mp hr, hzero]
  exact hend

/-! ## The claimed slots -/

theorem row_apart {B₀ : List DirentPos} (hnd : (P ++ R ++ p :: Q).Nodup)
    (hsplit : P ++ R ++ p :: Q = A ++ C ++ B₀) (hne : C ≠ []) (hp : p ∉ C)
    (hR : ∀ q ∈ C, q ∉ R) :
    (∃ P₁ P₂, P = P₁ ++ C ++ P₂) ∨ ∃ Q₁ Q₂, Q = Q₁ ++ C ++ Q₂ := by
  have hmem : p ∈ A ++ C ++ B₀ := by
    rw [← hsplit]
    simp
  rcases mem_append.mp hmem with hin | hin
  · -- the entry comes first
    have hA : p ∈ A := (mem_append.mp hin).resolve_right hp
    obtain ⟨A₁, A₂, rfl⟩ := append_of_mem hA
    have hsplit' : P ++ R ++ p :: Q = A₁ ++ p :: (A₂ ++ C ++ B₀) := by
      rw [hsplit]
      simp only [append_assoc, cons_append]
    have hfront : P ++ R = A₁ :=
      (takeWhile_ne_eq hnd rfl).symm.trans (takeWhile_ne_eq hnd hsplit')
    rw [hfront, append_cancel_left_eq] at hsplit'
    exact Or.inr ⟨A₂, B₀, (List.cons.inj hsplit').2⟩
  obtain ⟨B₁, B₂, rfl⟩ := append_of_mem hin
  have hsplit' : P ++ R ++ p :: Q = (A ++ C ++ B₁) ++ p :: B₂ := by
    rw [hsplit]
    simp only [append_assoc]
  have hfront : P ++ R = A ++ C ++ B₁ :=
    (takeWhile_ne_eq hnd rfl).symm.trans (takeWhile_ne_eq hnd hsplit')
  rcases append_eq_append_iff.mp hfront with ⟨a, hAC, hRa⟩ | ⟨a, hP, -⟩
  · -- the row cannot reach into the run
    by_cases ha : a = []
    · subst ha
      exact Or.inl ⟨A, [], by simpa using hAC.symm⟩
    have hlast := congrArg getLast? hAC
    rw [getLast?_append_of_ne_nil _ hne, getLast?_append_of_ne_nil _ ha,
      getLast?_eq_some_getLast hne, getLast?_eq_some_getLast ha] at hlast
    have hinC : a.getLast ha ∈ C := by
      rw [← Option.some.inj hlast]
      exact getLast_mem hne
    have hinR : a.getLast ha ∈ R := by
      rw [hRa]
      exact mem_append_left _ (getLast_mem ha)
    exact absurd hinR (hR _ hinC)
  · exact Or.inl ⟨A, a, hP⟩

theorem EntryAt.not_mem (h : EntryAt m data l loc P Q) {q : DirentPos}
    (hq : IsBlank (recOf data q 0)) : q ∉ loc.lfn ++ [loc.pos] := by
  intro hmem
  have hused : entryUsed (recOf data q) = true := by
    rcases mem_append.mp hmem with hmem | hmem
    · exact (h.long q hmem).1
    · rw [mem_singleton.mp hmem, ← h.de]
      exact h.used
  rcases hq with hq | hq
  · simp [entryUsed, hq] at hused
  · simp [entryUsed, hq] at hused

theorem EntryAt.mem_slots (h : EntryAt m data l loc P Q) :
    ∀ q ∈ loc.lfn ++ [loc.pos], q ∈ slots m l := by
  intro q hq
  rw [h.split]
  rcases mem_append.mp hq with hq | hq
  · simp [hq]
  · simp [mem_singleton.mp hq]

theorem EntryAt.aligned (h : EntryAt m data l loc P Q) : ∀ q ∈ loc.lfn ++ [loc.pos], Aligned q :=
  fun q hq => aligned_slots m l q (h.mem_slots q hq)

theorem EntryAt.locIn (h : EntryAt m data l loc P Q) : LocIn m loc where
  pos := slots_ge (h.mem_slots loc.pos (by simp))
  lfn q hq := slots_ge (h.mem_slots q (mem_append_left _ hq))
  short := h.bound

/-- **The report after a rename in place.** -/
theorem EntryAt.reads_here (h : EntryAt m data l loc P Q)
    (hP : Reads (P.map (recOf data)) es₁) (hQ : Reads (Q.map (recOf data)) es₂)
    (hnd : (slots m l).Nodup) {x : Str × Dirent} {r : Dirent}
    (hx : Reads (lfnRun n sum w n ++ [r]) [x]) (hn : n ≤ loc.lfn.length) :
    Reads ((slots m l).map (recOf (putAt (putLfns n sum w (loc.lfn.drop (loc.lfn.length - n))
      ((loc.lfn.take (loc.lfn.length - n)).foldl freeAt data)) loc.pos r))) (es₁ ++ x :: es₂) := by
  have hsplit := h.split
  have hR : loc.lfn = loc.lfn.take (loc.lfn.length - n) ++ loc.lfn.drop (loc.lfn.length - n) :=
    (take_append_drop (loc.lfn.length - n) loc.lfn).symm
  have hlen : (loc.lfn.drop (loc.lfn.length - n)).length = n := by
    rw [length_drop]
    omega
  have hal := aligned_slots m l
  rw [hsplit] at hnd hal ⊢
  rw [hR] at hnd hal
  have hmap : _ = P.map (recOf data) ++ (_ ++ (lfnRun _ sum w _ ++ r :: Q.map (recOf data))) :=
    map_here hnd hal
  rw [← hR, hlen] at hmap
  have hfreed : Reads ((loc.lfn.take (loc.lfn.length - n)).map
      fun q => freedRecord (recOf data q)) [] := by
    refine reads_freed fun r hr => ?_
    obtain ⟨q, -, rfl⟩ := mem_map.mp hr
    exact freedRecord_zero _
  rw [hmap]
  have hall := hP.append (hfreed.append (hx.append hQ))
  rwa [append_assoc, singleton_append, singleton_append, nil_append] at hall

theorem Reads.split {X Y : List DirentPos} (h : Reads ((X ++ C ++ Y).map (recOf data)) es)
    (hne : C ≠ []) (hblank : ∀ q ∈ C, IsBlank (recOf data q 0)) :
    ∃ ea eb, es = ea ++ eb ∧ Reads (X.map (recOf data)) ea ∧ Reads (Y.map (recOf data)) eb := by
  obtain ⟨hlist, hends⟩ := h
  rw [map_append, map_append] at hlist hends
  obtain ⟨hends', hY⟩ := forall_mem_append.mp hends
  have hX := (forall_mem_append.mp hends').1
  have hfree : ∀ r ∈ C.map (recOf data), entryUsed r = false := by
    intro r hr
    obtain ⟨q, hq, rfl⟩ := mem_map.mp hr
    rcases hblank q hq with h | h
    · simp [entryUsed, h]
    · simp [entryUsed, h]
  obtain ⟨ea, eb, rfl, hx, hy⟩ := hlist.split_frees (by simpa using hne) hfree
  exact ⟨ea, eb, rfl, ⟨hx, hX⟩, ⟨hy, hY⟩⟩

theorem not_mem_of_nodup_row {A X B Y D : List DirentPos} (h : (A ++ X ++ B ++ Y ++ D).Nodup) :
    (∀ q ∈ A, q ∉ X ∧ q ∉ Y) ∧ (∀ q ∈ B, q ∉ X ∧ q ∉ Y) ∧ ∀ q ∈ D, q ∉ X ∧ q ∉ Y := by
  simp only [nodup_append, mem_append] at h
  obtain ⟨⟨⟨⟨-, -, hX⟩, -, hB⟩, -, hY⟩, -, hD⟩ := h
  refine ⟨fun q hq => ⟨fun hx => hX q hq q hx rfl, fun hy => hY q ?_ q hy rfl⟩,
    fun q hq => ⟨fun hx => hB q (Or.inr hx) q hq rfl, fun hy => hY q (Or.inr hq) q hy rfl⟩,
    fun q hq => ⟨fun hx => hD q ?_ q hq rfl, fun hy => hD q (Or.inr hy) q hq rfl⟩⟩
  · exact Or.inl (Or.inl hq)
  · exact Or.inl (Or.inl (Or.inr hx))

/-- **The report after a rename elsewhere**: the entry has moved to where
the claimed slots are. -/
theorem EntryAt.reads_away (h : EntryAt m data l loc P Q)
    (hP : Reads (P.map (recOf data)) es₁) (hQ : Reads (Q.map (recOf data)) es₂)
    (hnd : (slots m l).Nodup) {x : Str × Dirent} {r : Dirent}
    (hx : Reads (lfnRun C.length sum w C.length ++ [r]) [x])
    (hclaim : slots m l = A ++ (C ++ [c]) ++ B) (hblank : ∀ q ∈ C ++ [c], IsBlank (recOf data q 0)) :
    ∃ es', es'.Perm (es₁ ++ x :: es₂) ∧
      Reads ((slots m l).map (recOf (freeLoc (putAt (putLfns C.length sum w C data) c r) loc)))
        es' := by
  have hal := aligned_slots m l
  have hCslots : ∀ q ∈ C ++ [c], q ∈ slots m l := by
    intro q hq
    rw [hclaim]
    exact mem_append_left _ (mem_append_right _ hq)
  have hCal : ∀ q ∈ C ++ [c], Aligned q := fun q hq => hal q (hCslots q hq)
  have hCloc : ∀ q ∈ C ++ [c], q ∉ loc.lfn ++ [loc.pos] := fun q hq => h.not_mem (hblank q hq)
  have hCnd : (C ++ [c]).Nodup := by
    rw [hclaim] at hnd
    exact (nodup_append.mp (nodup_append.mp hnd).1).2.1
  have hnew : Reads ((C ++ [c]).map
      (recOf (freeLoc (putAt (putLfns C.length sum w C data) c r) loc))) [x] := by
    rw [map_away hCal h.aligned hCnd hCloc]
    exact hx
  have hold : Reads ((loc.lfn ++ [loc.pos]).map
      (recOf (freeLoc (putAt (putLfns C.length sum w C data) c r) loc))) [] :=
    reads_freed (freed_away h.aligned)
  have hkeep : ∀ X : List DirentPos,
      (∀ q ∈ X, q ∈ slots m l ∧ q ∉ C ++ [c] ∧ q ∉ loc.lfn ++ [loc.pos]) →
      X.map (recOf (freeLoc (putAt (putLfns C.length sum w C data) c r) loc)) =
        X.map (recOf data) := fun X hX => map_congr_left fun q hq =>
      recOf_away hCal h.aligned (hal q (hX q hq).1) (hX q hq).2.1 (hX q hq).2.2
  generalize recOf (freeLoc (putAt (putLfns C.length sum w C data) c r) loc) = after
    at hnew hold hkeep ⊢
  have hsplit := h.split
  rw [hsplit] at hnd
  have hrow := row_apart hnd (hsplit.symm.trans hclaim) (by simp)
    (fun hp => hCloc loc.pos hp (by simp)) fun q hq hqR => hCloc q hq (by simp [hqR])
  rcases hrow with ⟨P₁, P₂, rfl⟩ | ⟨Q₁, Q₂, rfl⟩
  · obtain ⟨ea, eb, rfl, hX, hY⟩ := hP.split (by simp) hblank
    obtain ⟨hP₁, hP₂, hQ'⟩ := not_mem_of_nodup_row (A := P₁) (X := C ++ [c]) (B := P₂)
      (Y := loc.lfn ++ [loc.pos]) (D := Q) (by simpa using hnd)
    rw [← hkeep P₁ fun q hq => ⟨by simp [hsplit, hq], hP₁ q hq⟩] at hX
    rw [← hkeep P₂ fun q hq => ⟨by simp [hsplit, hq], hP₂ q hq⟩] at hY
    rw [← hkeep Q fun q hq => ⟨by simp [hsplit, hq], hQ' q hq⟩] at hQ
    refine ⟨ea ++ x :: (eb ++ es₂), ?_, ?_⟩
    · rw [append_assoc]
      exact Perm.append_left ea perm_middle.symm
    · have hall := hX.append (hnew.append (hY.append (hold.append hQ)))
      rw [hsplit]
      simpa only [map_append, map_cons, map_nil, append_assoc, cons_append, nil_append] using hall
  obtain ⟨ea, eb, rfl, hX, hY⟩ := hQ.split (by simp) hblank
  obtain ⟨hP', hQ₁, hQ₂⟩ := not_mem_of_nodup_row (A := P) (X := loc.lfn ++ [loc.pos]) (B := Q₁)
    (Y := C ++ [c]) (D := Q₂) (by simpa using hnd)
  rw [← hkeep P fun q hq => ⟨by simp [hsplit, hq], (hP' q hq).symm⟩] at hP
  rw [← hkeep Q₁ fun q hq => ⟨by simp [hsplit, hq], (hQ₁ q hq).symm⟩] at hX
  rw [← hkeep Q₂ fun q hq => ⟨by simp [hsplit, hq], (hQ₂ q hq).symm⟩] at hY
  refine ⟨es₁ ++ (ea ++ x :: eb), Perm.append_left es₁ perm_middle, ?_⟩
  have hall := hP.append (hold.append (hX.append (hnew.append hY)))
  rw [hsplit]
  simpa only [map_append, map_cons, map_nil, append_assoc, cons_append, nil_append] using hall

/-! ## The calls -/

theorem EntryAt.wp_here (h : EntryAt m data l loc P Q) :
    wp (volume m) (renameHere m loc n w) (fun ret v' => ret = none ∨ ret = some 0 ∧
      n ≤ loc.lfn.length ∧ v' = .settled (putAt (putLfns n (lfnChecksum (nameToShort w)) w
        (loc.lfn.drop (loc.lfn.length - n))
        ((loc.lfn.take (loc.lfn.length - n)).foldl freeAt data)) loc.pos
          (renamedRecord loc.de (nameToShort w))) fat) (.settled data fat) := by
  unfold renameHere
  by_cases hn : n ≤ loc.lfn.length
  · rw [if_pos hn, wp_bind]
    exact wp_renameInPlace rfl h.locIn (Or.inr ⟨rfl, hn, rfl⟩)
  · rw [if_neg hn]
    exact Or.inl rfl

theorem EntryAt.wp_away (h : EntryAt m data l loc P Q) (hd : HasChain m fat d l) (hn : n ≤ 5) :
    wp (volume m) (renameAway m d loc n w) (fun ret v' => ret = none ∨ ret = some 0 ∧
      ∃ A C c B, slots m l = A ++ (C ++ [c]) ++ B ∧ C.length = n ∧
        (∀ q ∈ C ++ [c], IsBlank (recOf data q 0)) ∧
        v' = .settled (freeLoc (putAt (putLfns n (lfnChecksum (nameToShort w)) w C data) c
          (renamedRecord loc.de (nameToShort w))) loc) fat)
      (.settled data fat) := by
  unfold renameAway
  rw [wp_bind]
  refine wp_dirClaimRun (hd.legible data) ?_
  cases hclaim : claimedRun m data fat d (n + 1) with
  | error rc =>
    simp only [Vol.settled, hclaim]
    exact Or.inl rfl
  | ok ps =>
    obtain ⟨hlen, A, B, hsplit, -, hblank⟩ := claimedRun_ok hclaim
    rw [hd.chainOf_eq] at hsplit
    have hne : ps ≠ [] := by
      intro hnil
      simp [hnil] at hlen
    -- the last slot is for the record, the others for its long name
    obtain ⟨C, c, rfl⟩ : ∃ C c, ps = C ++ [c] :=
      ⟨ps.dropLast, ps.getLast hne, (dropLast_append_getLast hne).symm⟩
    have hC : C.length = n := by simpa using hlen
    have hget : (C ++ [c]).getD n ⟨0, 0⟩ = c := by simp [← hC]
    have htake : (C ++ [c]).take n = C := by simp [← hC]
    have hge : ∀ q ∈ C ++ [c], m.dataStartLba ≤ q.lba := by
      intro q hq
      refine slots_ge (l := l) ?_
      rw [hsplit]
      exact mem_append_left _ (mem_append_right _ hq)
    simp only [Vol.settled, hclaim]
    rw [wp_bind]
    refine wp_renameMove rfl h.locIn hn hlen hge (Or.inr ⟨rfl, A, C, c, B, hsplit, hC, hblank, ?_⟩)
    rw [hget, htake]
    rfl

/-- **The two ways agree**: every entry of the directory has its places,
which `dirent_locate` finds where its eleven bytes are its own, and
whenever both ways are possible they leave the directory with the same
entries, those it had with the name of this one replaced. A name that
fits its alias is shown in lower case. -/
theorem renames_agree (hs : Mounted m dev s) (hd : HasChain m s.fat d l)
    (hcat : Catalog (s.records m dev l) (es₁ ++ (w₀, e) :: es₂))
    (hend : ∀ r ∈ s.records m dev l, r 0 ≠ entEnd) (h0 : (0 : UInt8) ∉ w) (hlen : w.length ≤ 55)
    (hfirst : w.head? ≠ some 0x05 ∧ w.head? ≠ some 0xE5) (hcount : fatLfnCount w = some n) :
    strcaseEq (shownName w) w = true ∧
    ∃ loc P Q, EntryAt m (s.contents dev) l loc P Q ∧ loc.de = e ∧
      Catalog (P.map (recOf (s.contents dev))) es₁ ∧
      (Closed (s.contents dev) (slots m l) → (∀ q ∈ slots m l, IsShort (s.contents dev) q →
          (recOf (s.contents dev) q).name = e.name → q = loc.pos) →
        ∃ s₀, Fs.call m dev (direntLocate m d e.name) s = some (some loc, s₀)) ∧
      ∀ {rc rc' : Int} {sI sM : Fs δ}, Fs.call m dev (renameHere m loc n w) s = some (some rc, sI) →
        Fs.call m dev (renameAway m d loc n w) s = some (some rc', sM) →
        rc = 0 ∧ rc' = 0 ∧ ∃ esI esM sI' sM',
          Fs.call m dev (fatScanDir m d takeDown []) sI = some ((false, esI), sI') ∧
          Fs.call m dev (fatScanDir m d takeDown []) sM = some ((false, esM), sM') ∧
          esI.map shownEntry = (es₁ ++ (shownName w, e) :: es₂).map shownEntry ∧
          (esM.map shownEntry).Perm (esI.map shownEntry) := by
  obtain ⟨loc, P, Q, h, rfl, hP, hQ⟩ := exists_entryAt hcat
  refine ⟨shownName_eq w, loc, P, Q, h, rfl, hP, fun hclosed huniq => ?_, ?_⟩
  · obtain ⟨s₀, hcall⟩ := direntLocate_call hs hd loc.de.name
    rw [h.located hd hclosed huniq] at hcall
    exact ⟨s₀, hcall⟩
  intro rc rc' sI sM hhere haway
  have hnd : (slots m l).Nodup := nodup_slots hd.range_u32 hd.nodup
  have hends : ∀ X : List DirentPos, (∀ q ∈ X, q ∈ slots m l) →
      ∀ r ∈ X.map (recOf (s.contents dev)), r 0 ≠ entEnd := by
    intro X hX r hr
    obtain ⟨q, hq, rfl⟩ := mem_map.mp hr
    exact hend _ (mem_map_of_mem (hX q hq))
  have hPends := hends P fun q hq => by simp [h.split, hq]
  have hQends := hends Q fun q hq => by simp [h.split, hq]
  have hPr : Reads (P.map (recOf (s.contents dev))) es₁ := ⟨hP.listing hPends, hPends⟩
  have hQr : Reads (Q.map (recOf (s.contents dev))) es₂ := ⟨hQ.listing hQends, hQends⟩
  have hx := reads_renamed hcount h0 hlen hfirst h.short h.file (lfnChecksum (nameToShort w))
  have hshown : shownEntry (shownName w, renamedRecord loc.de (nameToShort w)) =
      shownEntry (shownName w, loc.de) := rfl
  -- in place
  obtain ⟨ret, s₁, v₁, hcall₁, hret₁, hb₁⟩ := hs.backs_contents.call (h.wp_here (w := w))
  obtain ⟨rfl, rfl⟩ := Prod.mk.inj (Option.some.inj (hhere.symm.trans hcall₁))
  obtain ⟨hrc, hn, rfl⟩ := hret₁.resolve_left (by simp)
  -- elsewhere
  obtain ⟨ret', s₂, v₂, hcall₂, hret₂, hb₂⟩ :=
    hs.backs_contents.call (h.wp_away hd (w := w) (fatLfnCount_le hlen hcount))
  obtain ⟨rfl, rfl⟩ := Prod.mk.inj (Option.some.inj (haway.symm.trans hcall₂))
  obtain ⟨hrc', A, C, c, B, hclaim, rfl, hblank, rfl⟩ := hret₂.resolve_left (by simp)
  have hI := h.reads_here hPr hQr hnd hx hn
  obtain ⟨esM, hperm, hM⟩ := h.reads_away hPr hQr hnd hx hclaim hblank
  obtain ⟨sI', hscanI⟩ := hb₁.report hd
  obtain ⟨sM', hscanM⟩ := hb₂.report hd
  rw [hI.report] at hscanI
  rw [hM.report] at hscanM
  refine ⟨Option.some.inj hrc, Option.some.inj hrc', _, esM, sI', sM', hscanI, hscanM, ?_, ?_⟩
  · rw [map_append, map_cons, hshown, map_append, map_cons]
  · exact hperm.map shownEntry

/-! ## A file with a long name -/

theorem catalog_free (h : ∀ r ∈ rs, entryUsed r = false) : Catalog rs [] := by
  induction rs with
  | nil => exact .nil
  | cons r rs ih =>
    obtain ⟨hr, hrs⟩ := forall_mem_cons.mp h
    exact .free hr (ih hrs)

theorem spacedFs_catalog : Catalog (spacedFs.records smallMount () [2])
    ([] ++ ([97, 32, 98], (smallHandle 3 5).de) :: []) := by
  have hrecs : spacedFs.records smallMount () [2] = lfnRun 1 0 [97, 32, 98] 1 ++
      (smallHandle 3 5).de :: replicate 14 fun _ => 0 := by decide +kernel
  have hrest : Catalog (replicate 14 fun _ => 0) [] := by
    refine catalog_free fun r hr => ?_
    rw [eq_of_mem_replicate hr]
    decide
  rw [hrecs]
  exact .long (spells_lfnRun (by decide) (by decide) 0 1 (by decide)) (by decide) (by decide)
    (by decide) (by decide) (by decide) (by decide) hrest

/-- Where the record of the file lies. -/
def spacedLoc : DirentLoc where
  pos := ⟨2, 32⟩
  de := (smallHandle 3 5).de
  lfn := [⟨2, 0⟩]

/-- The file `a b` becomes `c d`, in place or elsewhere. -/
theorem spaced_renames_agree : ∃ sI sM esI esM sI' sM',
    Fs.call smallMount () (renameHere smallMount spacedLoc 1 [99, 32, 100]) spacedFs =
        some (some 0, sI) ∧
      Fs.call smallMount () (renameAway smallMount 2 spacedLoc 1 [99, 32, 100]) spacedFs =
        some (some 0, sM) ∧
      Fs.call smallMount () (fatScanDir smallMount 2 takeDown []) sI = some ((false, esI), sI') ∧
      Fs.call smallMount () (fatScanDir smallMount 2 takeDown []) sM = some ((false, esM), sM') ∧
      esI.map shownEntry = [([99, 32, 100], 0x20, 3, 5)] ∧
      (esM.map shownEntry).Perm (esI.map shownEntry) := by
  have hcount : fatLfnCount [99, 32, 100] = some 1 := by decide
  have hend : ∀ r ∈ spacedFs.records smallMount () [2], r 0 ≠ entEnd :=
    forall_iff_forall_mem.mp (by decide +kernel)
  obtain ⟨-, loc, P, Q, h, hde, -, hlocate, hboth⟩ := renames_agree (freshFs_mounted smallMount _ _)
    (by decide : HasChain smallMount spacedFs.fat 2 [2]) spacedFs_catalog hend (by decide) (by decide)
    (by decide) hcount
  have hclosed : (slots smallMount [2]).Pairwise fun p q =>
      recOf (spacedFs.contents ()) p 0 = entFree → recOf (spacedFs.contents ()) q 0 = entFree := by
    decide +kernel
  have hshort : ∀ q ∈ slots smallMount [2], entryUsed (recOf (spacedFs.contents ()) q) = true ∧
      (recOf (spacedFs.contents ()) q).isLfn = false → q = ⟨2, 32⟩ := by decide +kernel
  have hpos : loc.pos = ⟨2, 32⟩ :=
    hshort loc.pos (h.mem_slots loc.pos (by simp)) ⟨h.de ▸ h.used, h.de ▸ h.short⟩
  obtain ⟨s₀, hcall⟩ := hlocate hclosed fun q hq hs _ => (hshort q hq hs).trans hpos.symm
  have hlfn : (Fs.call smallMount () (direntLocate smallMount 2 (smallHandle 3 5).de.name)
      spacedFs).map (fun r => r.1.map (·.lfn)) = some (some [⟨2, 0⟩]) := by decide +kernel
  have hloc : loc = spacedLoc := by
    have hcall' : Fs.call smallMount () (direntLocate smallMount 2 (smallHandle 3 5).de.name)
        spacedFs = some (some loc, s₀) := hcall
    rw [hcall'] at hlfn
    obtain ⟨pos, de, lfn⟩ := loc
    obtain rfl : pos = ⟨2, 32⟩ := hpos
    obtain rfl : de = (smallHandle 3 5).de := hde
    obtain rfl : lfn = [⟨2, 0⟩] := by simpa using hlfn
    rfl
  have hhere : (Fs.call smallMount () (renameHere smallMount spacedLoc 1 [99, 32, 100])
      spacedFs).map Prod.fst = some (some 0) := by decide +kernel
  have haway : (Fs.call smallMount () (renameAway smallMount 2 spacedLoc 1 [99, 32, 100])
      spacedFs).map Prod.fst = some (some 0) := by decide +kernel
  obtain ⟨⟨_, sI⟩, hhere, rfl⟩ := Option.map_eq_some_iff.mp hhere
  obtain ⟨⟨_, sM⟩, haway, rfl⟩ := Option.map_eq_some_iff.mp haway
  rw [hloc] at hboth
  obtain ⟨-, -, esI, esM, sI', sM', hI, hM, hshown, hperm⟩ := hboth hhere haway
  exact ⟨sI, sM, esI, esM, sI', sM', hhere, haway, hI, hM, hshown, hperm⟩

end Lnxrm.Fat32
