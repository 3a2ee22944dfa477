import Lnxrm.Fat32.Helpers.Report

/-!
# FAT32 — long names in a listing

`rename` writes a long name in front of the 8.3 record it belongs to, in
as many records as `fat_lfn_count` says, and `fat_scan_dir` puts it
together again. `fat_scan_dir` also ends at the first record whose first
byte is `0x05`, and that is how the fifth record of a name of more than
five starts: such a name is not reported, and neither is anything behind
it (`longName_reported_iff`).
-/

namespace Lnxrm.Fat32

open List

variable {δ : Type} [DecidableEq δ] {m : Mount} {dev : δ} {s : Fs δ} {d total : ℕ} {l : List ℕ}
  {run pre post : List Dirent} {es es₁ es₂ : List (Str × Dirent)} {e : Dirent} {w : Str}
  {lf : LfnState}

theorem Listing.reportFrom_part (h : Listing post es) (hlf : lf.Blank)
    (seen : List (Str × Dirent)) :
    ∃ es', es'.length ≤ es.length ∧ reportFrom (lf, seen) post = seen ++ es' := by
  by_cases hend : ∃ r ∈ post, r 0 = entEnd
  · obtain ⟨es', hlt, hrep⟩ := h.reportFrom_end hend hlf seen []
    rw [append_nil] at hrep
    exact ⟨es', Nat.le_of_lt hlt, hrep⟩
  · exact ⟨es, Nat.le_refl _, (h.reportFrom_iff hlf seen).mpr fun r hr hr0 => hend ⟨r, hr, hr0⟩⟩

theorem reportFrom_run_iff (hrun : IsRun run) (hl : e.isLfn = false) (hv : e.isVolume = false)
    (hpost : Listing post es) (lf : LfnState) (seen : List (Str × Dirent)) :
    reportFrom (lf, seen) (run ++ e :: post) = seen ++ (w, e) :: es ↔
      (∀ r ∈ run, r 0 ≠ entEnd) ∧ entryUsed e = true ∧ e 0 ≠ entEnd ∧
        lfnName (run.foldl lfnAdd lf) e = w ∧ ∀ r ∈ post, r 0 ≠ entEnd := by
  have hlost : ∀ {es' : List (Str × Dirent)}, es'.length ≤ seen.length + es.length →
      es' ≠ seen ++ (w, e) :: es := by
    rintro es' hle rfl
    simp at hle
  by_cases hin : ∃ r ∈ run, r 0 = entEnd
  · have hrep : reportFrom (lf, seen) (run ++ e :: post) = seen := by
      rw [reportFrom, foldExit_append, hrun.scan_end hin]
      rfl
    refine iff_of_false (hlost (by rw [hrep]; omega)) fun hall => ?_
    obtain ⟨r, hr, hr0⟩ := hin
    exact hall.1 r hr hr0
  have hrunEnd : ∀ r ∈ run, r 0 ≠ entEnd := fun r hr hr0 => hin ⟨r, hr, hr0⟩
  have hcons : reportFrom (lf, seen) (run ++ e :: post) =
      reportFrom (run.foldl lfnAdd lf, seen) (e :: post) := by
    rw [reportFrom, foldExit_append, hrun.scan hrunEnd]
    rfl
  rw [hcons]
  by_cases he : e 0 = entEnd
  · have hrep : reportFrom (run.foldl lfnAdd lf, seen) (e :: post) = seen := by
      rw [reportFrom, foldExit, scanStep_end he]
      rfl
    exact iff_of_false (hlost (by rw [hrep]; omega)) fun hall => hall.2.2.1 he
  by_cases hused : entryUsed e = true
  · have hrep : reportFrom (run.foldl lfnAdd lf, seen) (e :: post) =
        reportFrom (lfnReset (run.foldl lfnAdd lf), seen ++ [(lfnName (run.foldl lfnAdd lf) e, e)])
          post := by
      rw [reportFrom, foldExit, scanStep_live he hused hl hv]
      rfl
    rw [hrep]
    by_cases hname : lfnName (run.foldl lfnAdd lf) e = w
    · have hiff := hpost.reportFrom_iff (lfnReset_blank (run.foldl lfnAdd lf)) (seen ++ [(w, e)])
      rw [append_assoc, singleton_append] at hiff
      rw [hname, hiff]
      exact ⟨fun hall => ⟨hrunEnd, hused, he, rfl, hall⟩, fun hall => hall.2.2.2.2⟩
    -- the entry is reported, but under another name
    refine iff_of_false (fun hall => hname ?_) fun hall => hname hall.2.2.2.1
    obtain ⟨rest, -, hrest⟩ := hpost.reportFrom_part (lfnReset_blank (run.foldl lfnAdd lf))
      (seen ++ [(lfnName (run.foldl lfnAdd lf) e, e)])
    rw [append_assoc, singleton_append] at hrest
    rw [hrest, append_cancel_left_eq, List.cons.injEq, Prod.mk.injEq] at hall
    exact hall.1.1
  have hrep : reportFrom (run.foldl lfnAdd lf, seen) (e :: post) =
      reportFrom (lfnReset (run.foldl lfnAdd lf), seen) post := by
    rw [reportFrom, foldExit, scanStep_free (by simpa using hused)]
    rfl
  obtain ⟨es', hle, hrest⟩ := hpost.reportFrom_part (lfnReset_blank (run.foldl lfnAdd lf)) seen
  rw [hrep, hrest]
  refine iff_of_false (hlost ?_) fun hall => hused hall.2.1
  rw [length_append]
  omega

/-! ## The records of a name -/

theorem lfnFill_mem_lfnRun {sum : UInt8} {seq n : ℕ} (h1 : 1 ≤ seq) (hn : seq ≤ n) :
    lfnFill seq total sum w ∈ lfnRun total sum w n := by
  induction n with
  | zero => omega
  | succ n ih =>
    rcases Nat.eq_or_lt_of_le hn with rfl | hlt
    · exact mem_cons_self
    · exact mem_cons_of_mem _ (ih (by omega))

theorem lfnRun_has_end (htotal : 6 ≤ total) (sum : UInt8) (w : Str) :
    ∃ r ∈ lfnRun total sum w total, r 0 = entEnd := by
  refine ⟨lfnFill 5 total sum w, lfnFill_mem_lfnRun (by omega) (by omega), ?_⟩
  rw [lfnFill_first, if_neg (by omega)]
  decide

theorem fatLfnCount_some (h : fatLfnCount w = some total) :
    w ≠ [] ∧ w.length ≤ 255 ∧ (total = 0 ∨ total = lfnTotal w) := by
  unfold fatLfnCount at h
  split_ifs at h with hlen hshort
  · cases h
    exact ⟨fun hw => hlen (.inl (by simp [hw])), by omega, .inl rfl⟩
  · cases h
    exact ⟨fun hw => hlen (.inl (by simp [hw])), by omega, .inr rfl⟩

/-- **A name is reported as it was written, and everything else with it,
exactly where** no record starts with the end mark, the alias starts with
no mark, and the name fits into five records or, where `fat_lfn_count`
wants none, is the alias as it is shown. -/
theorem longName_reported_iff (hs : Mounted m dev s) (hd : HasChain m s.fat d l)
    (h0 : (0 : UInt8) ∉ w) (htotal : fatLfnCount w = some total) (hpre : Listing pre es₁)
    (hpost : Listing post es₂) (hl : e.isLfn = false) (hv : e.isVolume = false) (sum : UInt8)
    (hrecs : s.records m dev l = pre ++ (lfnRun total sum w total ++ e :: post)) :
    (∃ s', Fs.call m dev (fatScanDir m d takeDown []) s =
        some ((false, es₁ ++ (w, e) :: es₂), s')) ↔
      (∀ r ∈ pre ++ post, r 0 ≠ entEnd) ∧ (entryUsed e = true ∧ e 0 ≠ entEnd) ∧
        if total = 0 then fatShortToName e.name = w else w.length ≤ 65 := by
  obtain ⟨s', hcall⟩ := fatScanDir_call hs hd
  have hreport : (∃ s', Fs.call m dev (fatScanDir m d takeDown []) s =
      some ((false, es₁ ++ (w, e) :: es₂), s')) ↔
        reportOf m (s.records m dev l) = es₁ ++ (w, e) :: es₂ := by
    constructor
    · rintro ⟨s₁, hcall₁⟩
      rw [hcall₁] at hcall
      simp only [Option.some.injEq, Prod.mk.injEq, true_and] at hcall
      exact hcall.1.symm
    · intro hrep
      exact ⟨s', by rw [hcall, hrep]⟩
  obtain ⟨hw, hlen, hcount⟩ := fatLfnCount_some htotal
  have htotal20 : total ≤ 20 := by
    unfold lfnTotal at hcount
    omega
  have hspells := spells_lfnRun h0 htotal20 sum total (Nat.le_refl _)
  have hrun : IsRun (lfnRun total sum w total) := hspells.isRun
  rw [hreport, hrecs, reportOf]
  by_cases hpreEnd : ∃ r ∈ pre, r 0 = entEnd
  · obtain ⟨es', hlt, hrep⟩ := hpre.reportFrom_end hpreEnd (lfnReset_blank _) []
      (lfnRun total sum w total ++ e :: post)
    refine iff_of_false (fun hall => ?_) fun hall => ?_
    · rw [lfnInit, hrep, nil_append] at hall
      rw [hall, length_append] at hlt
      omega
    · obtain ⟨r, hr, hr0⟩ := hpreEnd
      exact hall.1 r (mem_append_left _ hr) hr0
  have hpre0 : ∀ r ∈ pre, r 0 ≠ entEnd := fun r hr hr0 => hpreEnd ⟨r, hr, hr0⟩
  obtain ⟨lf, hlf, hrep⟩ := hpre.reportFrom_append hpre0
    (lfnReset_blank { longname := m.junk, seqMax := 0, nameEnd := 0 }) []
    (lfnRun total sum w total ++ e :: post)
  rw [lfnInit, hrep, nil_append, reportFrom_run_iff hrun hl hv hpost]
  have hname : ((∀ r ∈ lfnRun total sum w total, r 0 ≠ entEnd) ∧
      lfnName ((lfnRun total sum w total).foldl lfnAdd lf) e = w) ↔
        if total = 0 then fatShortToName e.name = w else w.length ≤ 65 := by
    by_cases hzero : total = 0
    · subst hzero
      rw [if_pos rfl]
      have hshort := names_nil e lf hlf
      constructor
      · intro h
        exact hshort.symm.trans h.2
      · intro h
        exact ⟨by simp [lfnRun], hshort.trans h⟩
    obtain rfl : total = lfnTotal w := by omega
    rw [if_neg hzero]
    constructor
    · intro h
      by_contra hlong
      have hsix : 6 ≤ lfnTotal w := by
        unfold lfnTotal
        omega
      obtain ⟨r, hr, hr0⟩ := lfnRun_has_end hsix sum w
      exact h.1 r hr hr0
    · intro hshort
      exact ⟨lfnRun_ne_end (lfnTotal_le hshort) sum, names_of_spells hspells h0 hw hlen e lf hlf⟩
  rw [← hname]
  constructor
  · rintro ⟨hrun0, hused, he, hnm, hpost0⟩
    refine ⟨fun r hr => ?_, ⟨hused, he⟩, hrun0, hnm⟩
    rcases mem_append.mp hr with hr | hr
    · exact hpre0 r hr
    · exact hpost0 r hr
  · rintro ⟨hends, ⟨hused, he⟩, hrun0, hnm⟩
    exact ⟨hrun0, hused, he, hnm, fun r hr => hends r (mem_append_right _ hr)⟩

/-- A volume whose root directory starts with these records. -/
def dirFs (rs : List Dirent) : Fs Unit :=
  freshFs
    (fun lba i => if lba = 2 then rs.getD (i / 32) (fun _ => 0) (Fin.ofNat 32 i) else 0)
    smallFat

/-- The records of a name, the 8.3 record and one file behind them. -/
def namedRecords (w : Str) (total : ℕ) : List Dirent :=
  lfnRun total 0 w total ++ [newRecord [66] 0 0, newRecord [65] 0 0]

/-- The name `a b` is reported. -/
theorem spaced_name_reported : fatLfnCount [97, 32, 98] = some 1 ∧
    ∃ s', Fs.call smallMount () (fatScanDir smallMount 2 takeDown []) (dirFs (namedRecords [97, 32, 98] 1)) =
      some ((false, [([97, 32, 98], newRecord [66] 0 0), ([97], newRecord [65] 0 0)]), s') := by
  have hcount : fatLfnCount [97, 32, 98] = some 1 := by decide
  have hfile : Listing (newRecord [65] 0 0 :: replicate 13 fun _ => 0)
      [([97], newRecord [65] 0 0)] := by
    refine Listing.short (by decide) (by decide) (by decide) (listing_free fun r hr => ?_)
    rw [eq_of_mem_replicate hr]
    decide
  have hrecs : (dirFs (namedRecords [97, 32, 98] 1)).records smallMount () [2] =
      [] ++ (lfnRun 1 0 [97, 32, 98] 1 ++ newRecord [66] 0 0 :: newRecord [65] 0 0 ::
        replicate 13 fun _ => 0) := by decide +kernel
  refine ⟨hcount, (longName_reported_iff (freshFs_mounted _ _ _) (by decide) (by decide) hcount .nil
    hfile (by decide) (by decide) 0 hrecs).mpr ⟨?_, by decide, by decide⟩⟩
  exact forall_iff_forall_mem.mp (by decide)

/-- **A name of 66 bytes is lost**, and the file behind it with it: the
scan reports nothing. -/
theorem long_name_lost : fatLfnCount (replicate 66 97) = some 6 ∧
    (Fs.call smallMount () (fatScanDir smallMount 2 takeDown [])
      (dirFs (namedRecords (replicate 66 97) 6))).map Prod.fst = some (false, []) ∧
    (Fs.call smallMount () (fatScanDir smallMount 2 takeDown [])
      (dirFs [newRecord [66] 0 0, newRecord [65] 0 0])).map (fun r => r.1.2.map Prod.fst) =
        some [[98], [97]] :=
  ⟨by decide, by decide +kernel, by decide +kernel⟩

end Lnxrm.Fat32
