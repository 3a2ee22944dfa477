import Lnxrm.Fat32.Model.Dir
import Mathlib.Data.List.GetD
import Mathlib.Data.List.TakeWhile

/-!
# FAT32 — long names are read back

Proof layer. A long name lies in a run of records, thirteen characters in
each and the last piece first (`Spells`). A scan that reads the run gives
the record behind it that name (`names_of_spells`), whatever name it read
before.

`rename` writes such runs (`spells_lfnRun`). A name of at most 65 bytes
needs five records, so that none of them starts with the byte the scans
take for the end mark, and the record is found by the name it was given
(`foldExit_scanStep_run`).
-/

namespace Lnxrm.Fat32

open List

variable {w : Str} {e : Dirent} {κ : Type}

/-- The records of a long name, as `rename` writes them. -/
def lfnRun (total : ℕ) (sum : UInt8) (w : Str) : ℕ → List Dirent
  | 0 => []
  | n + 1 => lfnFill (n + 1) total sum w :: lfnRun total sum w n

/-- How many records a long name needs. -/
def lfnTotal (w : Str) : ℕ := (w.length + 12) / 13

/-! ## One record -/

theorem lfnFill_isLfn (seq total : ℕ) (sum : UInt8) : (lfnFill seq total sum w).isLfn = true := by
  simp [Dirent.isLfn, Dirent.attr, lfnFill, attrLfn]

theorem lfnFill_first (seq total : ℕ) (sum : UInt8) :
    lfnFill seq total sum w 0 = UInt8.ofNat (if seq = total then seq ||| 0x40 else seq) := by
  simp [lfnFill]

theorem lfnSeq_ok : ∀ total < 21, ∀ seq < total + 1, 1 ≤ seq →
    let b := UInt8.ofNat (if seq = total then seq ||| 0x40 else seq)
    (b &&& 0x1F).toNat = seq ∧ b ≠ entFree ∧ b ≠ entE5 := by
  decide

theorem lfnSeq_ne_end : ∀ total < 6, ∀ seq < total + 1, 1 ≤ seq →
    UInt8.ofNat (if seq = total then seq ||| 0x40 else seq) ≠ entEnd := by
  decide

theorem lfnFill_chars (seq total : ℕ) (sum : UInt8) (w : Str) :
    (lfnOff.map fun o => (lfnFill seq total sum w o.1, lfnFill seq total sum w o.2)) =
      (List.range 13).map fun k => lfnChar w ((seq - 1) * 13 + k) := rfl

theorem takeWhile_lfnChar (h : (0 : UInt8) ∉ w) (n b : ℕ) :
    ((List.range n).map fun k => lfnChar w (b + k)).takeWhile
        (fun ch => ch != (0xFF, 0xFF) && ch != (0, 0)) =
      ((w.drop b).take n).map fun c => (c, 0) := by
  induction n generalizing b with
  | zero => rfl
  | succ n ih =>
    rw [range_succ_eq_map, map_cons, map_map, Nat.add_zero]
    by_cases hb : b < w.length
    · have hc : w[b] ≠ 0 := fun h0 => h (h0 ▸ getElem_mem hb)
      have hchar : lfnChar w b = (w[b], 0) := by simp [lfnChar, hb]
      have htail : ((fun k => lfnChar w (b + k)) ∘ Nat.succ) = fun k => lfnChar w (b + 1 + k) := by
        funext k
        simp only [Function.comp_apply, Nat.succ_eq_add_one, Nat.add_assoc, Nat.add_comm 1]
      rw [hchar, htail, takeWhile_cons_of_pos (by simp [hc]), ih,
        drop_eq_getElem_cons hb, take_succ_cons, map_cons]
    have hstop : lfnChar w b = (0, 0) ∨ lfnChar w b = (0xFF, 0xFF) := by
      unfold lfnChar
      rw [if_neg hb]
      split
      · exact Or.inl rfl
      · exact Or.inr rfl
    rw [takeWhile_cons_of_neg (by rcases hstop with h | h <;> simp [h]),
      drop_eq_nil_of_le (by omega)]
    rfl

theorem lfnPiece_fill (h : (0 : UInt8) ∉ w) (seq total : ℕ) (sum : UInt8) :
    lfnPiece (lfnFill seq total sum w) = (w.drop ((seq - 1) * 13)).take 13 := by
  unfold lfnPiece
  rw [lfnFill_chars, takeWhile_lfnChar h, map_map]
  exact map_id _

/-! ## Runs -/

/-- Long-name records in use. -/
def IsRun (run : List Dirent) : Prop := ∀ r ∈ run, entryUsed r = true ∧ r.isLfn = true

theorem isRun_nil : IsRun [] := forall_mem_nil _

theorem IsRun.tail {r : Dirent} {rs : List Dirent} (h : IsRun (r :: rs)) : IsRun rs :=
  fun x hx => h x (mem_cons_of_mem _ hx)

/-- **The run holds the first `n` pieces of the name**, numbered from `n`
down to one. -/
inductive Spells (w : Str) : ℕ → List Dirent → Prop
  | nil : Spells w 0 []
  | cons {n : ℕ} {r : Dirent} {rs : List Dirent} : entryUsed r = true → r.isLfn = true →
      (r 0 &&& 0x1F).toNat = n + 1 → lfnPiece r = (w.drop (n * 13)).take 13 → Spells w n rs →
      Spells w (n + 1) (r :: rs)

theorem Spells.isRun {n : ℕ} {run : List Dirent} (h : Spells w n run) : IsRun run := by
  induction h with
  | nil => exact isRun_nil
  | cons hused hl _ _ _ ih => exact forall_mem_cons.mpr ⟨⟨hused, hl⟩, ih⟩

theorem Spells.length_eq {n : ℕ} {run : List Dirent} (h : Spells w n run) : run.length = n := by
  induction h with
  | nil => rfl
  | cons _ _ _ _ _ ih => rw [length_cons, ih]

theorem spells_lfnRun {total : ℕ} (h0 : (0 : UInt8) ∉ w) (htotal : total ≤ 20) (sum : UInt8) (n : ℕ)
    (hn : n ≤ total) : Spells w n (lfnRun total sum w n) := by
  induction n with
  | zero => exact .nil
  | succ n ih =>
    obtain ⟨hseq, hfree, he5⟩ := lfnSeq_ok total (by omega) (n + 1) (by omega) (by omega)
    rw [← lfnFill_first (w := w) (n + 1) total sum] at hseq hfree he5
    have hpiece := lfnPiece_fill h0 (n + 1) total sum
    rw [Nat.add_sub_cancel] at hpiece
    exact .cons (by simp [entryUsed, hfree, he5]) (lfnFill_isLfn _ _ _) hseq hpiece (ih (by omega))

theorem mem_lfnRun {total : ℕ} {sum : UInt8} {n : ℕ} {r : Dirent} (h : r ∈ lfnRun total sum w n) :
    ∃ seq, 1 ≤ seq ∧ seq ≤ n ∧ r = lfnFill seq total sum w := by
  induction n with
  | zero => simp [lfnRun] at h
  | succ n ih =>
    rcases mem_cons.mp h with rfl | h
    · exact ⟨n + 1, by omega, Nat.le_refl _, rfl⟩
    · obtain ⟨seq, h1, hn, rfl⟩ := ih h
      exact ⟨seq, h1, by omega, rfl⟩

theorem lfnRun_ne_end {total : ℕ} (htotal : total ≤ 5) (sum : UInt8) :
    ∀ r ∈ lfnRun total sum w total, r 0 ≠ entEnd := by
  intro r hr
  obtain ⟨seq, h1, hn, rfl⟩ := mem_lfnRun hr
  rw [lfnFill_first]
  exact lfnSeq_ne_end total (by omega) seq (by omega) h1

theorem lfnTotal_le (hlen : w.length ≤ 65) : lfnTotal w ≤ 5 := by
  unfold lfnTotal
  omega

/-! ## Reading a run -/

/-- **The state in the middle of a run**: the name is read from the piece
`k` on. -/
structure LfnRead (w : Str) (k : ℕ) (lf : LfnState) : Prop where
  chars : ∀ i, 13 * k ≤ i → i < w.length → lf.longname i = w.getD i 0
  nameEnd : lf.nameEnd = if k < lfnTotal w then w.length else 0
  seqMax : lf.seqMax = if k < lfnTotal w then lfnTotal w else 0

theorem LfnRead.add {lf : LfnState} {k : ℕ} {r : Dirent} (h : LfnRead w (k + 1) lf)
    (hseq : (r 0 &&& 0x1F).toNat = k + 1) (hpiece : lfnPiece r = (w.drop (k * 13)).take 13)
    (hlen : w.length ≤ 255) (hk : k < lfnTotal w) : LfnRead w k (lfnAdd lf r) := by
  have hlt : k * 13 < w.length := by
    unfold lfnTotal at hk
    omega
  have hplen : ((w.drop (k * 13)).take 13).length = min 13 (w.length - k * 13) := by simp
  unfold lfnAdd
  dsimp only
  rw [hseq, hpiece, Nat.add_sub_cancel, if_pos (by omega), if_pos (by omega)]
  refine ⟨fun i hi hiw => ?_, ?_, ?_⟩
  · by_cases hin : k * 13 ≤ i ∧ i < k * 13 + ((w.drop (k * 13)).take 13).length
    · have hget : ((w.drop (k * 13)).take 13).getD (i - k * 13) 0 = w.getD i 0 := by
        simp only [getD_eq_getElem?_getD, getElem?_take, getElem?_drop]
        rw [if_pos (by omega), Nat.add_sub_cancel' hin.1]
      simp only [hin, and_self, if_true, hget]
    · simp only [hin, if_false]
      exact h.chars i (by omega) hiw
  · have hend := h.nameEnd
    simp only [hend, if_pos hk]
    split
    · rw [hplen]
      omega
    · rename_i hlast
      unfold lfnTotal at hlast
      rw [hplen]
      omega
  · have hmax := h.seqMax
    simp only [hmax, if_pos hk]
    split
    · omega
    · omega

/-- **The whole run.** -/
theorem LfnRead.run {lf : LfnState} {n : ℕ} {run : List Dirent} (hs : Spells w n run)
    (h : LfnRead w n lf) (hlen : w.length ≤ 255) (hn : n ≤ lfnTotal w) :
    LfnRead w 0 (run.foldl lfnAdd lf) := by
  induction hs generalizing lf with
  | nil => exact h
  | cons _ _ hseq hpiece _ ih => exact ih (h.add hseq hpiece hlen (by omega)) (by omega)

theorem LfnRead.name {lf : LfnState} (h : LfnRead w 0 lf) (h0 : (0 : UInt8) ∉ w) (hw : w ≠ [])
    (hlen : w.length ≤ 255) (e : Dirent) : lfnName lf e = w := by
  have hpos : 0 < w.length := length_pos_iff.mpr hw
  have htot : 0 < lfnTotal w := by
    unfold lfnTotal
    omega
  have hend := h.nameEnd
  have hmax := h.seqMax
  rw [if_pos htot] at hend hmax
  unfold lfnName
  rw [if_pos ⟨by omega, by omega⟩, hend, Nat.min_eq_left (by omega)]
  have hmap : (List.range w.length).map lf.longname = w := by
    refine ext_getElem (by simp) fun i hi hi' => ?_
    rw [getElem_map, getElem_range, h.chars i (by omega) hi',
      getD_eq_getElem _ _ hi']
  rw [hmap]
  refine takeWhile_eq_self_iff.mpr fun b hb => ?_
  have hb0 : b ≠ 0 := by
    rintro rfl
    exact h0 hb
  simpa using hb0

/-- Nothing of a long name has been read. -/
def LfnState.Blank (lf : LfnState) : Prop := lf.nameEnd = 0 ∧ lf.seqMax = 0

theorem lfnReset_blank (lf : LfnState) : (lfnReset lf).Blank := ⟨rfl, rfl⟩

/-- The run gives the record behind it this name, whatever the buffer held
before. -/
def Names (run : List Dirent) (e : Dirent) (w : Str) : Prop :=
  ∀ lf : LfnState, lf.Blank → lfnName (run.foldl lfnAdd lf) e = w

theorem names_nil (e : Dirent) : Names [] e (fatShortToName e.name) := by
  intro lf hlf
  rw [foldl_nil, lfnName, if_neg (by simp [hlf.1])]

/-- **A record with a run goes by its long name.** -/
theorem names_of_spells {run : List Dirent} (hs : Spells w (lfnTotal w) run) (h0 : (0 : UInt8) ∉ w)
    (hw : w ≠ []) (hlen : w.length ≤ 255) (e : Dirent) : Names run e w := by
  intro lf hlf
  have hread : LfnRead w (lfnTotal w) lf := by
    refine ⟨fun i hi hiw => ?_, by simp [hlf.1], by simp [hlf.2]⟩
    unfold lfnTotal at hi
    omega
  exact (hread.run hs hlen (Nat.le_refl _)).name h0 hw hlen e

/-! ## One step of a scan -/

section Step

variable {cb : κ → Str → Dirent → κ × Bool} {lf : LfnState} {ctx : κ}

theorem scanStep_end (h : e 0 = entEnd) : scanStep cb (lf, ctx) e = .inr (false, ctx) := by
  unfold scanStep
  dsimp only
  rw [if_pos h]

theorem scanStep_free (h : entryUsed e = false) :
    scanStep cb (lf, ctx) e = .inl (lfnReset lf, ctx) := by
  have hend : e 0 ≠ entEnd := by
    intro he
    rw [entryUsed, he] at h
    revert h
    decide
  unfold scanStep
  dsimp only
  rw [if_neg hend, if_pos (by simp [h])]

theorem scanStep_lfn (hend : e 0 ≠ entEnd) (hused : entryUsed e = true) (hl : e.isLfn = true) :
    scanStep cb (lf, ctx) e = .inl (lfnAdd lf e, ctx) := by
  unfold scanStep
  dsimp only
  rw [if_neg hend, if_neg (by simp [hused]), if_pos hl]

theorem scanStep_volume (hend : e 0 ≠ entEnd) (hused : entryUsed e = true) (hl : e.isLfn = false)
    (hv : e.isVolume = true) : scanStep cb (lf, ctx) e = .inl (lf, ctx) := by
  unfold scanStep
  dsimp only
  rw [if_neg hend, if_neg (by simp [hused]), if_neg (by simp [hl]), if_pos hv]

theorem scanStep_live (hend : e 0 ≠ entEnd) (hused : entryUsed e = true) (hl : e.isLfn = false)
    (hv : e.isVolume = false) :
    scanStep cb (lf, ctx) e =
      if (cb ctx (lfnName lf e) e).2 then .inr (true, (cb ctx (lfnName lf e) e).1)
      else .inl (lfnReset lf, (cb ctx (lfnName lf e) e).1) := by
  unfold scanStep
  dsimp only
  rw [if_neg hend, if_neg (by simp [hused]), if_neg (by simp [hl]), if_neg (by simp [hv])]

end Step

/-! ## The run in a scan -/

theorem IsRun.scan {cb : κ → Str → Dirent → κ × Bool} {run : List Dirent} (h : IsRun run)
    (hend : ∀ r ∈ run, r 0 ≠ entEnd) (lf : LfnState) (ctx : κ) :
    foldExit (scanStep cb) (lf, ctx) run = .inl (run.foldl lfnAdd lf, ctx) := by
  induction run generalizing lf with
  | nil => rfl
  | cons r rs ih =>
    obtain ⟨hused, hl⟩ := h r mem_cons_self
    rw [foldExit, scanStep_lfn (hend r mem_cons_self) hused hl]
    exact ih h.tail (fun x hx => hend x (mem_cons_of_mem _ hx)) _

theorem IsRun.scan_end {cb : κ → Str → Dirent → κ × Bool} {run : List Dirent} (h : IsRun run)
    (hend : ∃ r ∈ run, r 0 = entEnd) (lf : LfnState) (ctx : κ) :
    foldExit (scanStep cb) (lf, ctx) run = .inr (false, ctx) := by
  induction run generalizing lf with
  | nil => simp at hend
  | cons r rs ih =>
    by_cases hr : r 0 = entEnd
    · rw [foldExit, scanStep_end hr]
    · obtain ⟨hused, hl⟩ := h r mem_cons_self
      rw [foldExit, scanStep_lfn hr hused hl]
      obtain ⟨x, hx, hx0⟩ := hend
      rcases mem_cons.mp hx with rfl | hx
      · exact absurd hx0 hr
      · exact ih h.tail ⟨x, hx, hx0⟩ _

/-- **A run and the record behind it** reach the callback under the long
name. -/
theorem foldExit_scanStep_run {cb : κ → Str → Dirent → κ × Bool} {ctx : κ} {sum : UInt8}
    {lf : LfnState} {rest : List Dirent} (h0 : (0 : UInt8) ∉ w) (hw : w ≠ []) (hlen : w.length ≤ 65)
    (hlf : lf.Blank) (he : e 0 ≠ entEnd) (hused : entryUsed e = true)
    (hl : e.isLfn = false) (hv : e.isVolume = false) :
    foldExit (scanStep cb) (lf, ctx) (lfnRun (lfnTotal w) sum w (lfnTotal w) ++ e :: rest) =
      if (cb ctx w e).2 then .inr (true, (cb ctx w e).1)
      else foldExit (scanStep cb)
        (lfnReset ((lfnRun (lfnTotal w) sum w (lfnTotal w)).foldl lfnAdd lf), (cb ctx w e).1)
        rest := by
  have htotal := lfnTotal_le hlen
  have hs : Spells w (lfnTotal w) (lfnRun (lfnTotal w) sum w (lfnTotal w)) :=
    spells_lfnRun h0 (by omega) sum _ (Nat.le_refl _)
  have hname := names_of_spells hs h0 hw (by omega) e lf hlf
  rw [foldExit_append, hs.isRun.scan (lfnRun_ne_end htotal sum)]
  dsimp only
  rw [foldExit, scanStep_live he hused hl hv, hname]
  split_ifs <;> rfl

end Lnxrm.Fat32
