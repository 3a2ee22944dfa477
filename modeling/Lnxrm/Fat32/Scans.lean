import Lnxrm.Fat32.Allocation

/-!
# FAT32 — three loops over one directory

`fat_scan_dir`, `dirent_locate` and the end of `fat_write_impl` go over
the same records, each with its own end mark and its own idea of which
records count: the first goes on behind a record that starts with `0x00`
and passes over volume labels and long-name records, the second stops at
`0x00` and takes a volume label for a file's record, the third takes any
record in use. So the record that a scan finds is the one the other two
act on exactly where nothing in front of it misleads them
(`scansAgree_iff`).
-/

namespace Lnxrm.Fat32

open Prog (wp wp_bind wp_pure)

variable {δ : Type} [DecidableEq δ] {m : Mount} {dev : δ} {s : Fs δ} {data : ℕ → Sector}
  {fat : ℕ → ℕ} {d : ℕ} {l : List ℕ} {p : DirentPos} {A B : List DirentPos} {want : Str}
  {sn : Fin 11 → UInt8}

/-- **The scans agree on the record at `p`** of the directory `d`:
`dirent_locate` finds it by its short name, and the last loop of
`fat_write_impl`, for any handle with that name, rewrites it and leaves
the rest of the data area. -/
def ScansAgree (m : Mount) (dev : δ) (s : Fs δ) (d : ℕ) (p : DirentPos) : Prop :=
  (∃ loc s', Fs.call m dev (direntLocate m d (recOf (s.contents dev) p).name) s =
      some (some loc, s') ∧ loc.pos = p) ∧
    ∀ r : Resolve, r.dirCluster = d → r.de.name = (recOf (s.contents dev) p).name →
      ∃ s', Fs.call m dev (do let _ ← fat32JournalBegin; writeBack m r) s = some ((), s') ∧
        ∀ lba, m.dataStartLba ≤ lba → s'.contents dev lba =
          putAt (s.contents dev) p (refreshRecord r.de (recOf (s.contents dev) p)) lba

/-- The record at `q` neither stops the two other loops on their way to `p`
nor is taken for it: it does not start with `0x00`, and is not in use with
the same eleven bytes. -/
def Passable (data : ℕ → Sector) (p q : DirentPos) : Prop :=
  recOf data q 0 ≠ entFree ∧ (entryUsed (recOf data q) = true → (recOf data q).name ≠ (recOf data p).name)

/-! ## The loops -/

theorem findRecord_split (h : findRecord m data fat d want = some p) :
    ∃ A B, slots m (chainOf m fat d) = A ++ p :: B ∧ (∀ q ∈ A, recOf data q 0 ≠ entEnd) ∧
      (recOf data p).isLive = true := by
  have hlive := (findRecord_some h).2
  unfold findRecord at h
  split at h
  · rename_i r q hfind
    obtain rfl : q = p := Option.some.inj h
    obtain ⟨A, B, b, hps, hA, -⟩ := findIn_left
      (P := fun seen _ => ∀ q ∈ seen, recOf data q 0 ≠ entEnd) (by simp) (fun hP hq x hx => by
        rcases List.mem_append.mp hx with hx | hx
        · exact hP x hx
        · rw [List.mem_singleton.mp hx]
          intro hend
          simp [scanStep, hend] at hq) hfind
    exact ⟨A, B, hps, hA, hlive⟩
  · cases h

theorem locate_of_passable (hused : entryUsed (recOf data p) = true) (hlfn : (recOf data p).isLfn = false)
    (hA : ∀ q ∈ A, recOf data q 0 ≠ entFree ∧ (entryUsed (recOf data q) = true →
      (recOf data q).isLfn = false → (recOf data q).name ≠ (recOf data p).name))
    (run : List DirentPos) :
    ∃ loc, foldExit (fun run q => locateStep (recOf data p).name run q (recOf data q)) run
      (A ++ p :: B) = .inr (some loc) ∧ loc.pos = p := by
  induction A generalizing run with
  | nil =>
    have hfree : recOf data p 0 ≠ entFree := by
      intro h
      simp [entryUsed, h] at hused
    simp only [List.nil_append, foldExit, locateStep, if_neg hfree, hused, hlfn, Bool.not_true,
      Bool.false_eq_true, if_false, if_true]
    exact ⟨_, rfl, rfl⟩
  | cons q A ih =>
    obtain ⟨⟨hfree, hname⟩, hA⟩ := List.forall_mem_cons.mp hA
    have hgo : ∃ run', locateStep (recOf data p).name run q (recOf data q) = .inl run' := by
      unfold locateStep
      rw [if_neg hfree]
      by_cases hu : entryUsed (recOf data q) = true
      · rw [if_neg (by simp [hu])]
        by_cases hl : (recOf data q).isLfn = true
        · exact ⟨_, by rw [if_pos hl]⟩
        · exact ⟨[], by rw [if_neg hl, if_neg (hname hu (by simpa using hl))]⟩
      · exact ⟨[], by rw [if_pos (by simpa using hu)]⟩
    obtain ⟨run', hrun⟩ := hgo
    rw [List.cons_append, foldExit, hrun]
    exact ih hA run'

/-- The last loop of `fat_write_impl` takes the first record in use with
the name. -/
theorem findIn_matchRecord (hA : ∀ q ∈ A, recOf data q 0 ≠ entEnd)
    (hend : recOf data p 0 ≠ entEnd) (hused : entryUsed (recOf data p) = true)
    (hname : (recOf data p).name = sn) :
    ∃ q, findIn data (matchRecord sn) () (A ++ p :: B) = .inr (true, q) ∧
      (q = p ∧ (∀ x ∈ A, entryUsed (recOf data x) = true → (recOf data x).name ≠ sn) ∨
        q ∈ A ∧ entryUsed (recOf data q) = true ∧ (recOf data q).name = sn) := by
  induction A with
  | nil =>
    refine ⟨p, ?_, Or.inl ⟨rfl, by simp⟩⟩
    simp [findIn, foldExit, matchRecord, hend, hused, hname]
  | cons x A ih =>
    obtain ⟨hx, hA⟩ := List.forall_mem_cons.mp hA
    rw [List.cons_append]
    by_cases hhit : entryUsed (recOf data x) = true ∧ (recOf data x).name = sn
    · exact ⟨x, by simp [findIn, foldExit, matchRecord, hx, hhit.1, hhit.2],
        Or.inr ⟨by simp, hhit⟩⟩
    have hgo : matchRecord sn () (recOf data x) = .inl () := by
      unfold matchRecord
      rw [if_neg hx]
      by_cases hu : entryUsed (recOf data x) = true
      · rw [if_neg (by simp [hu]), if_neg fun hn => hhit ⟨hu, hn⟩]
      · rw [if_pos (by simpa using hu)]
    obtain ⟨q, hq, hcase⟩ := ih hA
    refine ⟨q, ?_, ?_⟩
    · rw [findIn, foldExit, hgo]
      exact hq
    · rcases hcase with ⟨rfl, hall⟩ | hmem
      · exact Or.inl ⟨rfl, List.forall_mem_cons.mpr ⟨fun hu hn => hhit ⟨hu, hn⟩, hall⟩⟩
      · exact Or.inr ⟨List.mem_cons_of_mem _ hmem.1, hmem.2⟩

theorem exists_refresh_ne (data : ℕ → Sector) {x : DirentPos} (hx : Aligned x) (hp : Aligned p) (hne : p ≠ x) :
    ∃ de : Dirent, de.name = (recOf data p).name ∧
      recOf (putAt data x (refreshRecord de (recOf data x))) p ≠
        recOf (putAt data p (refreshRecord de (recOf data p))) p := by
  obtain ⟨size, hlt, hsize⟩ : ∃ size < 2 ^ 32, (recOf data p).filesize ≠ size := by
    by_cases h0 : (recOf data p).filesize = 0
    · exact ⟨1, by decide, by omega⟩
    · exact ⟨0, by decide, h0⟩
  refine ⟨(recOf data p).setSize size, Dirent.name_setSize _, fun hsame => hsize ?_⟩
  rw [recOf_putAt hx hp, if_neg hne, recOf_putAt_self] at hsame
  have hnew : (refreshRecord ((recOf data p).setSize size) (recOf data p)).filesize = size := by
    show ((recOf data p).setSize ((recOf data p).setSize size).filesize).filesize = size
    rw [Dirent.filesize_setSize hlt, Dirent.filesize_setSize hlt]
  exact (congrArg Dirent.filesize hsame).trans hnew

theorem takeWhile_ne_eq {ps : List DirentPos} (hnd : ps.Nodup) (h : ps = A ++ p :: B) :
    ps.takeWhile (· ≠ p) = A := by
  have hA : ∀ q ∈ A, q ≠ p := by
    intro q hq e
    rw [h, List.nodup_append] at hnd
    exact hnd.2.2 q hq p (by simp) e
  rw [h, List.takeWhile_append_of_pos (by simpa using hA)]
  simp

/-! ## The calls -/

theorem Mounted.backs_contents (hs : Mounted m dev s) :
    Backs m dev s (.settled (s.contents dev) s.fat) := by
  have hdata : s.storage.blk.disks.sector dev = s.contents dev :=
    funext fun lba => Block.sector_eq_view_of_clean hs.inv hs.clean lba
  exact hdata ▸ hs.backs

theorem HasChain.legible (hd : HasChain m fat d l) (data : ℕ → Sector) :
    Legible m (.settled data fat) d :=
  ⟨l, hd, fun _ _ hdirty => hdirty⟩

theorem direntLocate_call (hs : Mounted m dev s) (hd : HasChain m s.fat d l) (sn : Fin 11 → UInt8) :
    ∃ s', Fs.call m dev (direntLocate m d sn) s =
      some (locateRecord m (s.contents dev) s.fat d sn, s') := by
  have hwp : wp (volume m) (direntLocate m d sn)
      (fun r _ => r = locateRecord m (s.contents dev) s.fat d sn)
      (.settled (s.contents dev) s.fat) := wp_direntLocate (hd.legible _) rfl
  obtain ⟨r, s', -, hcall, rfl, -⟩ := hs.backs_contents.call hwp
  exact ⟨s', hcall⟩

theorem writeBack_call (hs : Mounted m dev s) (r : Resolve) (hd : HasChain m s.fat r.dirCluster l) :
    ∃ s', Fs.call m dev (do let _ ← fat32JournalBegin; writeBack m r) s = some ((), s') ∧
      ∀ lba, m.dataStartLba ≤ lba →
        s'.contents dev lba = writtenBack r.de (slots m l) (s.contents dev) lba := by
  have hwp : wp (volume m) (do let _ ← fat32JournalBegin; writeBack m r)
      (fun _ v' => v' = .settled (writtenBack r.de (slots m l) (s.contents dev)) s.fat)
      (.settled (s.contents dev) s.fat) := by
    rw [wp_bind]
    refine wp_fat32JournalBegin rfl fun htx => ?_
    exact wp_writeBack htx hd (by simp) rfl
  obtain ⟨u, s', v', hcall, rfl, hb⟩ := hs.backs_contents.call hwp
  exact ⟨s', hcall, hb.view⟩

/-! ## Agreement -/

/-- **The scans agree on what a scan finds exactly where nothing in front
of it misleads them**: no record before it starts with `0x00`, and none in
use has its eleven bytes. -/
theorem scansAgree_iff (hs : Mounted m dev s) (hd : HasChain m s.fat d l)
    (hfind : findRecord m (s.contents dev) s.fat d want = some p) :
    ScansAgree m dev s d p ↔
      ∀ q ∈ (slots m l).takeWhile (· ≠ p), Passable (s.contents dev) p q := by
  obtain ⟨A, B, hsplit, hend, hlive⟩ := findRecord_split hfind
  rw [hd.chainOf_eq] at hsplit
  simp only [Dirent.isLive, Bool.and_eq_true, bne_iff_ne, Bool.not_eq_true'] at hlive
  obtain ⟨⟨⟨hpend, hused⟩, hlfn⟩, -⟩ := hlive
  have hnd : (slots m l).Nodup := nodup_slots hd.range_u32 hd.nodup
  rw [takeWhile_ne_eq hnd hsplit]
  constructor
  · rintro ⟨⟨loc, s₁, hloc, rfl⟩, hwrite⟩ q hq
    constructor
    · -- `dirent_locate` has not stopped in front of the record
      obtain ⟨s₁', hcall⟩ := direntLocate_call hs hd (recOf (s.contents dev) loc.pos).name
      obtain ⟨hrec, -⟩ := Prod.mk.inj (Option.some.inj (hcall.symm.trans hloc))
      obtain ⟨A', run, B', hL⟩ := locateRecord_some hrec
      have hsplit' := hL.split
      rw [hd.chainOf_eq] at hsplit'
      have hA : A = A' ++ run := (takeWhile_ne_eq hnd hsplit).symm.trans (takeWhile_ne_eq hnd hsplit')
      exact (hL.before q (hA ▸ hq)).1
    intro hu hname
    have hmem : loc.pos ∈ slots m l := by simp [hsplit]
    obtain ⟨x, hx, hcase⟩ := findIn_matchRecord (B := B) hend hpend hused rfl
    rcases hcase with ⟨-, hall⟩ | ⟨hxA, -⟩
    · exact hall q hq hu hname
    have hxl : x ∈ slots m l := by simp [hsplit, hxA]
    have hne : loc.pos ≠ x := by
      intro e
      rw [hsplit, List.nodup_append] at hnd
      exact hnd.2.2 x hxA loc.pos (by simp) e.symm
    obtain ⟨de, hde, hdiff⟩ := exists_refresh_ne (s.contents dev)
      (aligned_slots m l x hxl) (aligned_slots m l _ hmem) hne
    obtain ⟨s₂, hcall, hdata⟩ := hwrite { dirCluster := d, name := [], de := de } rfl hde
    obtain ⟨s₂', hcall', hdata'⟩ := writeBack_call hs { dirCluster := d, name := [], de := de } hd
    obtain ⟨-, rfl⟩ := Prod.mk.inj (Option.some.inj (hcall.symm.trans hcall'))
    rw [writtenBack, hde, hsplit, hx] at hdata'
    have hlba := (hdata' _ (slots_ge hmem)).symm.trans (hdata _ (slots_ge hmem))
    exact absurd (congrArg (fun sec => recAt sec loc.pos.off) hlba) hdiff
  intro hA
  refine ⟨?_, fun r hr hname => ?_⟩
  · obtain ⟨s', hcall⟩ := direntLocate_call hs hd (recOf (s.contents dev) p).name
    obtain ⟨loc, hfold, hpos⟩ := locate_of_passable (B := B) hused hlfn
      (fun q hq => ⟨(hA q hq).1, fun hu _ => (hA q hq).2 hu⟩) []
    rw [locateRecord, hd.chainOf_eq, hsplit, hfold] at hcall
    exact ⟨loc, s', hcall, hpos⟩
  · obtain ⟨s', hcall, hdata⟩ := writeBack_call hs r (hr.symm ▸ hd)
    refine ⟨s', hcall, fun lba hlba => ?_⟩
    obtain ⟨q, hq, hcase⟩ := findIn_matchRecord (B := B) hend hpend hused rfl
    rcases hcase with ⟨rfl, -⟩ | ⟨hqA, hu, hn⟩
    · rw [hdata lba hlba, writtenBack, hname, hsplit, hq]
    · exact absurd hn ((hA q hqA).2 hu)

/-- The file `a` alone in its directory. -/
theorem one_file_scansAgree : ScansAgree smallMount () (oneFileFs smallFat) 2 ⟨2, 0⟩ := by
  have hs : Mounted smallMount () (oneFileFs smallFat) := freshFs_mounted _ _ _
  have hfind : findRecord smallMount ((oneFileFs smallFat).contents ()) (oneFileFs smallFat).fat 2 [97] =
      some ⟨2, 0⟩ := by decide +kernel
  have hd : HasChain smallMount (oneFileFs smallFat).fat 2 [2] := by decide
  have hfirst : (slots smallMount [2]).takeWhile (· ≠ (⟨2, 0⟩ : DirentPos)) = [] := by decide
  refine (scansAgree_iff hs hd hfind).mpr ?_
  rw [hfirst]
  simp

/-- A volume label `A` in front of a file `A`. -/
def labelledFs : Fs Unit :=
  freshFs (fun lba => if lba = 2 then
    putRec (putRec (fun _ => 0) 0 (newRecord [65] attrVolume 0)) 32 (smallHandle 3 5).de
    else fun _ => 0) smallFat

/-- The scan finds the file, `dirent_locate` the label, and a write to the
file is recorded in the label. -/
theorem label_misleads :
    findRecord smallMount (labelledFs.contents ()) labelledFs.fat 2 [97] = some ⟨2, 32⟩ ∧
      (Fs.call smallMount () (direntLocate smallMount 2 (smallHandle 3 5).de.name) labelledFs).map
        (fun r => r.1.map (·.pos)) = some (some ⟨2, 0⟩) ∧
      (Fs.call smallMount () (do let _ ← fat32JournalBegin; writeBack smallMount (smallHandle 3 7))
        labelledFs).map (fun r => ((recOf (r.2.contents ()) ⟨2, 0⟩).filesize,
          (recOf (r.2.contents ()) ⟨2, 32⟩).filesize)) = some (7, 5) :=
  ⟨by decide +kernel, by decide +kernel, by decide +kernel⟩

end Lnxrm.Fat32
