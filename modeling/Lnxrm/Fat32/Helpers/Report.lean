import Lnxrm.Fat32.Scans

/-!
# FAT32 — what a scan of a directory reports

Proof layer. A callback that takes down every record it is handed turns
`fat_scan_dir` into the list of a directory's entries (`reportOf`). The
records of a directory are read in groups, a run of long-name records and
the record behind it (`Listing`): a scan that meets no end mark reports
every group (`Listing.scan`), and one that does reports fewer
(`Listing.scan_end`).
-/

namespace Lnxrm.Fat32

open List

open Prog (wp)

variable {δ : Type} [DecidableEq δ] {m : Mount} {dev : δ} {s : Fs δ} {data : ℕ → Sector}
  {fat : ℕ → ℕ} {d : ℕ} {l : List ℕ}
  {run rs rs' : List Dirent} {es es' : List (Str × Dirent)} {e : Dirent} {w : Str} {lf : LfnState}

/-- The callback that takes down every record with its name. -/
def takeDown (seen : List (Str × Dirent)) (name : Str) (e : Dirent) : List (Str × Dirent) × Bool :=
  (seen ++ [(name, e)], false)

/-- What has been taken down when the scan is through, from this state on. -/
def reportFrom (st : LfnState × List (Str × Dirent)) (rs : List Dirent) : List (Str × Dirent) :=
  Sum.elim Prod.snd Prod.snd (foldExit (scanStep takeDown) st rs)

/-- What `fat_scan_dir` reports of a directory with these records. -/
def reportOf (m : Mount) (rs : List Dirent) : List (Str × Dirent) := reportFrom (lfnInit m, []) rs

/-- The records of a directory. -/
def Fs.records (m : Mount) (dev : δ) (s : Fs δ) (l : List ℕ) : List Dirent :=
  (slots m l).map (recOf (s.contents dev))

theorem scanStep_takeDown_inr {st : LfnState × List (Str × Dirent)} {r : Bool × List (Str × Dirent)}
    (h : scanStep takeDown st e = .inr r) : r.1 = false := by
  unfold scanStep takeDown at h
  dsimp only at h
  split_ifs at h with hend _ _ _ hstop
  · cases h
    rfl
  · exact hstop.elim

/-- **The report of a directory**, as `fat_scan_dir` gives it. -/
theorem Backs.report (hb : Backs m dev s (.settled data fat)) (hd : HasChain m fat d l) :
    ∃ s', Fs.call m dev (fatScanDir m d takeDown []) s =
      some ((false, reportOf m ((slots m l).map (recOf data))), s') := by
  have hfold : foldExit (scanStep takeDown) (lfnInit m, []) ((slots m l).map (recOf data)) =
      (findIn data (scanStep takeDown) (lfnInit m, []) (slots m l)).map id Prod.fst := by
    rw [foldExit_map, findIn_map_fst]
  have hwp : wp (volume m) (fatScanDir m d takeDown [])
      (fun r _ => r = (false, reportOf m ((slots m l).map (recOf data)))) (.settled data fat) := by
    refine wp_fatScanDir (hd.legible _) (fun st hfind => ?_) fun r p hfind => ?_
    · have hfind' : findIn data (scanStep takeDown) (lfnInit m, []) (slots m l) = .inl st := by
        rw [← hd.chainOf_eq]
        exact hfind
      rw [hfind'] at hfold
      rw [reportOf, reportFrom, hfold]
      rfl
    have hfind' : findIn data (scanStep takeDown) (lfnInit m, []) (slots m l) = .inr (r, p) := by
      rw [← hd.chainOf_eq]
      exact hfind
    obtain ⟨-, st, hst⟩ := mem_of_findIn hfind'
    rw [hfind'] at hfold
    rw [reportOf, reportFrom, hfold]
    exact Prod.ext (scanStep_takeDown_inr hst) rfl
  obtain ⟨r, s', -, hcall, rfl, -⟩ := hb.call hwp
  exact ⟨s', hcall⟩

theorem fatScanDir_call (hs : Mounted m dev s) (hd : HasChain m s.fat d l) :
    ∃ s', Fs.call m dev (fatScanDir m d takeDown []) s =
      some ((false, reportOf m (s.records m dev l)), s') :=
  hs.backs_contents.report hd

/-! ## Groups of records -/

/-- **The records of a directory and the entries they make**: records that
are free, volume labels, and 8.3 records in use with the run of long-name
records in front of them. -/
inductive Listing : List Dirent → List (Str × Dirent) → Prop
  | nil : Listing [] []
  | free {e : Dirent} {rs : List Dirent} {es : List (Str × Dirent)} :
      entryUsed e = false → Listing rs es → Listing (e :: rs) es
  | volume {e : Dirent} {rs : List Dirent} {es : List (Str × Dirent)} :
      entryUsed e = true → e 0 ≠ entEnd → e.isLfn = false → e.isVolume = true →
      Listing rs es → Listing (e :: rs) es
  | record {run : List Dirent} {e : Dirent} {w : Str} {rs : List Dirent}
      {es : List (Str × Dirent)} :
      IsRun run → Names run e w → entryUsed e = true → e.isLfn = false → e.isVolume = false →
      Listing rs es → Listing (run ++ e :: rs) ((w, e) :: es)

theorem Listing.short (hused : entryUsed e = true) (hl : e.isLfn = false) (hv : e.isVolume = false)
    (h : Listing rs es) : Listing (e :: rs) ((fatShortToName e.name, e) :: es) := by
  exact .record isRun_nil (names_nil e) hused hl hv h

theorem listing_free (h : ∀ r ∈ rs, entryUsed r = false) : Listing rs [] := by
  induction rs with
  | nil => exact .nil
  | cons r rs ih =>
    exact .free (h r mem_cons_self) (ih fun x hx => h x (mem_cons_of_mem _ hx))

theorem entryUsed_of_end (h : e 0 = entEnd) : entryUsed e = true := by
  rw [entryUsed, h]
  decide

theorem Listing.scan (h : Listing rs es) (hend : ∀ r ∈ rs, r 0 ≠ entEnd) (hlf : lf.Blank)
    (seen : List (Str × Dirent)) :
    ∃ lf', lf'.Blank ∧ foldExit (scanStep takeDown) (lf, seen) rs = .inl (lf', seen ++ es) := by
  induction h generalizing lf seen with
  | nil => exact ⟨lf, hlf, by simp [foldExit]⟩
  | free hfree _ ih =>
    rw [foldExit, scanStep_free hfree]
    exact ih (fun r hr => hend r (mem_cons_of_mem _ hr)) (lfnReset_blank lf) seen
  | volume hused he hl hv _ ih =>
    rw [foldExit, scanStep_volume he hused hl hv]
    exact ih (fun r hr => hend r (mem_cons_of_mem _ hr)) hlf seen
  | @record run e w rs es hrun hname hused hl hv _ ih =>
    simp only [mem_append, mem_cons] at hend
    rw [foldExit_append, hrun.scan (fun r hr => hend r (.inl hr))]
    dsimp only
    rw [foldExit, scanStep_live (hend e (.inr (.inl rfl))) hused hl hv, hname lf hlf]
    obtain ⟨lf', hlf', hscan⟩ := ih (fun r hr => hend r (.inr (.inr hr)))
      (lfnReset_blank (run.foldl lfnAdd lf)) (seen ++ [(w, e)])
    refine ⟨lf', hlf', ?_⟩
    simp only [takeDown, Bool.false_eq_true, if_false]
    rw [hscan, append_assoc, singleton_append]

theorem Listing.scan_end (h : Listing rs es) (hend : ∃ r ∈ rs, r 0 = entEnd) (hlf : lf.Blank)
    (seen : List (Str × Dirent)) :
    ∃ es', es'.length < es.length ∧
      foldExit (scanStep takeDown) (lf, seen) rs = .inr (false, seen ++ es') := by
  induction h generalizing lf seen with
  | nil => simp at hend
  | @free e rs es hfree _ ih =>
    obtain ⟨r, hr, hr0⟩ := hend
    rcases mem_cons.mp hr with rfl | hr
    · simp [entryUsed_of_end hr0] at hfree
    · rw [foldExit, scanStep_free hfree]
      exact ih ⟨r, hr, hr0⟩ (lfnReset_blank lf) seen
  | @volume e rs es hused he hl hv _ ih =>
    obtain ⟨r, hr, hr0⟩ := hend
    rcases mem_cons.mp hr with rfl | hr
    · exact absurd hr0 he
    · rw [foldExit, scanStep_volume he hused hl hv]
      exact ih ⟨r, hr, hr0⟩ hlf seen
  | @record run e w rs es hrun hname hused hl hv _ ih =>
    by_cases hin : ∃ r ∈ run, r 0 = entEnd
    · refine ⟨[], by simp, ?_⟩
      rw [foldExit_append, hrun.scan_end hin, append_nil]
    rw [foldExit_append, hrun.scan (fun r hr hr0 => hin ⟨r, hr, hr0⟩)]
    dsimp only
    rw [foldExit]
    by_cases he : e 0 = entEnd
    · refine ⟨[], by simp, ?_⟩
      rw [scanStep_end he, append_nil]
    have hrest : ∃ r ∈ rs, r 0 = entEnd := by
      obtain ⟨r, hr, hr0⟩ := hend
      rcases mem_append.mp hr with hr | hr
      · exact absurd ⟨r, hr, hr0⟩ hin
      · rcases mem_cons.mp hr with rfl | hr
        · exact absurd hr0 he
        · exact ⟨r, hr, hr0⟩
    obtain ⟨es', hlt, hscan⟩ := ih hrest (lfnReset_blank (run.foldl lfnAdd lf))
      (seen ++ [(w, e)])
    refine ⟨(w, e) :: es', by simpa using hlt, ?_⟩
    rw [scanStep_live he hused hl hv, hname lf hlf]
    simp only [takeDown, Bool.false_eq_true, if_false]
    rw [hscan, append_assoc, singleton_append]

theorem Listing.append (h : Listing rs es) (h' : Listing rs' es') :
    Listing (rs ++ rs') (es ++ es') := by
  induction h with
  | nil => exact h'
  | free hfree _ ih => exact .free hfree ih
  | volume hused he hl hv _ ih => exact .volume hused he hl hv ih
  | record hrun hname hused hl hv _ ih =>
    rw [append_assoc, cons_append, cons_append]
    exact .record hrun hname hused hl hv ih

theorem Listing.split_free (h : Listing rs es) (hfree : entryUsed e = false) :
    ∀ {x y : List Dirent}, rs = x ++ e :: y →
      ∃ ea eb, es = ea ++ eb ∧ Listing x ea ∧ Listing y eb := by
  have hne : ∀ {f : Dirent}, entryUsed f = true → f ≠ e := by
    rintro f hf rfl
    rw [hf] at hfree
    cases hfree
  induction h with
  | nil => exact fun hrs => by simp at hrs
  | @free f rs es hf hrest ih =>
    intro x y hrs
    cases x with
    | nil =>
      obtain ⟨-, rfl⟩ := List.cons.inj hrs
      exact ⟨[], es, rfl, .nil, hrest⟩
    | cons f' x =>
      obtain ⟨rfl, htail⟩ := List.cons.inj hrs
      obtain ⟨ea, eb, rfl, hx, hy⟩ := ih htail
      exact ⟨ea, eb, rfl, .free hf hx, hy⟩
  | @volume f rs es hused hend hl hv hrest ih =>
    intro x y hrs
    cases x with
    | nil => exact absurd (List.cons.inj hrs).1 (hne hused)
    | cons f' x =>
      obtain ⟨rfl, htail⟩ := List.cons.inj hrs
      obtain ⟨ea, eb, rfl, hx, hy⟩ := ih htail
      exact ⟨ea, eb, rfl, .volume hused hend hl hv hx, hy⟩
  | @record run f w rs es hrun hname hused hl hv hrest ih =>
    intro x y hrs
    rcases append_eq_append_iff.mp hrs with ⟨a, rfl, ha⟩ | ⟨c, rfl, hc⟩
    · cases a with
      | nil => exact absurd (List.cons.inj ha).1 (hne hused)
      | cons f' a =>
        obtain ⟨rfl, htail⟩ := List.cons.inj ha
        obtain ⟨ea, eb, rfl, hx, hy⟩ := ih htail
        exact ⟨(w, f) :: ea, eb, rfl, .record hrun hname hused hl hv hx, hy⟩
    · cases c with
      | nil => exact absurd (List.cons.inj hc).1.symm (hne hused)
      | cons f' c =>
        obtain ⟨rfl, -⟩ := List.cons.inj hc
        exact absurd rfl (hne (hrun e (by simp)).1)

theorem Listing.split_frees {fs x y : List Dirent} (h : Listing (x ++ fs ++ y) es) (hne : fs ≠ [])
    (hfree : ∀ f ∈ fs, entryUsed f = false) :
    ∃ ea eb, es = ea ++ eb ∧ Listing x ea ∧ Listing y eb := by
  obtain ⟨f, fs, rfl⟩ := exists_cons_of_ne_nil hne
  obtain ⟨ea, eb, rfl, hx, hrest⟩ := h.split_free (hfree f mem_cons_self)
    (by rw [append_assoc, cons_append])
  refine ⟨ea, eb, rfl, hx, ?_⟩
  have hfree' := (forall_mem_cons.mp hfree).2
  clear h hne hfree
  induction fs with
  | nil => exact hrest
  | cons f' fs ih =>
    obtain ⟨ea', eb', rfl, hnil, hrest'⟩ := hrest.split_free (x := []) (hfree' f' mem_cons_self) rfl
    obtain rfl : ea' = [] := by
      generalize hrs : ([] : List Dirent) = rs at hnil
      cases hnil with
      | nil => rfl
      | free _ _ => cases hrs
      | volume _ _ _ _ _ => cases hrs
      | record _ _ _ _ _ _ => simp at hrs
    exact ih hrest' (forall_mem_cons.mp hfree').2

/-- Where no record starts with the end mark, the scan reports the listing
and goes on. -/
theorem Listing.reportFrom_append (h : Listing rs es) (hend : ∀ r ∈ rs, r 0 ≠ entEnd)
    (hlf : lf.Blank) (seen : List (Str × Dirent)) (rs' : List Dirent) :
    ∃ lf', lf'.Blank ∧ reportFrom (lf, seen) (rs ++ rs') = reportFrom (lf', seen ++ es) rs' := by
  obtain ⟨lf', hlf', hscan⟩ := h.scan hend hlf seen
  refine ⟨lf', hlf', ?_⟩
  rw [reportFrom, foldExit_append, hscan]
  rfl

theorem Listing.reportFrom_end (h : Listing rs es) (hend : ∃ r ∈ rs, r 0 = entEnd)
    (hlf : lf.Blank) (seen : List (Str × Dirent)) (rs' : List Dirent) :
    ∃ es', es'.length < es.length ∧ reportFrom (lf, seen) (rs ++ rs') = seen ++ es' := by
  obtain ⟨es', hlt, hscan⟩ := h.scan_end hend hlf seen
  refine ⟨es', hlt, ?_⟩
  rw [reportFrom, foldExit_append, hscan]
  rfl

/-- **The report of a directory is its listing exactly where no record
starts with the end mark.** -/
theorem Listing.reportFrom_iff (h : Listing rs es) (hlf : lf.Blank) (seen : List (Str × Dirent)) :
    reportFrom (lf, seen) rs = seen ++ es ↔ ∀ r ∈ rs, r 0 ≠ entEnd := by
  constructor
  · intro hrep r hr hr0
    obtain ⟨es', hlt, hscan⟩ := h.reportFrom_end ⟨r, hr, hr0⟩ hlf seen []
    rw [append_nil, hrep, append_cancel_left_eq] at hscan
    rw [hscan] at hlt
    exact Nat.lt_irrefl _ hlt
  · intro hend
    obtain ⟨lf', -, hscan⟩ := h.reportFrom_append hend hlf seen []
    rwa [append_nil] at hscan

end Lnxrm.Fat32
