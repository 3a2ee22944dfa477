import Lnxrm.Exec.Model

/-!
# The headers of an image

Proof layer. The program headers of an image and its segments as lists, and
`elf_load` over the list of segments: nothing of the image is read that is
not there.
-/

namespace Lnxrm.Exec

open Vmm List

variable {A : Type} {B : Buddy A} {root : ℕ} {img : List UInt8}

/-- `n` bytes of the image -/
def bytesAt (img : List UInt8) (off n : ℕ) : List UInt8 := (img.drop off).take n

/-- `e_phoff` -/
def phoff (img : List UInt8) : ℕ := leNat (bytesAt img 32 8)

/-- `e_phnum` -/
def phnum (img : List UInt8) : ℕ := leNat (bytesAt img 56 2)

/-- `e_entry` -/
def entryOf (img : List UInt8) : ℕ := leNat (bytesAt img 24 8)

/-- The image passes the checks of its header. -/
def HeaderOk (img : List UInt8) : Prop :=
  64 ≤ img.length ∧ bytesAt img 0 5 = [0x7f, 0x45, 0x4c, 0x46, 2] ∧
    leNat (bytesAt img 16 2) = 2 ∧ phoff img ≤ img.length ∧ phnum img ≤ 128 ∧
    phnum img * 56 ≤ img.length - phoff img

instance : DecidablePred HeaderOk := fun _ => inferInstanceAs (Decidable (_ ∧ _))

/-- The program headers -/
def headers (img : List UInt8) : List Phdr :=
  (List.range (phnum img)).map fun i => Phdr.ofBytes (bytesAt img (phoff img + i * 56) 56)

/-- **The segments** that are not skipped -/
def segments (img : List UInt8) : List Phdr := (headers img).filter fun ph => !ph.skipped

/-- The bytes of a segment in the image -/
def Phdr.bytes (img : List UInt8) (ph : Phdr) : List UInt8 := bytesAt img ph.pOffset ph.pFilesz

/-- The loop of `elf_load` over the segments. -/
def loadList (B : Buddy A) (root : ℕ) (img : List UInt8) :
    List Phdr → ℕ → Vm A → Except (Stop A) (Option ℕ × Vm A)
  | [], maxEnd, s => .ok (some maxEnd, s)
  | ph :: phs, maxEnd, s =>
    if ph.malformed img.length then .ok (none, s)
    else
      match forPages (segmentPage B root ph.writable) (pagesFrom ph.start ph.stop) s with
      | .error e => .error e
      | .ok (false, s) => .ok (none, s)
      | .ok (true, s) =>
        match storeUser s root ph.pVaddr (ph.bytes img) with
        | .error e => .error e
        | .ok s => loadList B root img phs (if maxEnd < ph.stop then ph.stop else maxEnd) s

theorem imgBytes_ok {off n : ℕ} (h : off + n ≤ img.length) :
    imgBytes (A := A) img off n = .ok (bytesAt img off n) := if_pos h

theorem imgNat_ok {off n : ℕ} (h : off + n ≤ img.length) :
    imgNat (A := A) img off n = .ok (leNat (bytesAt img off n)) := by
  unfold imgNat
  rw [imgBytes_ok h]
  rfl

theorem Phdr.bytes_in {ph : Phdr} (h : ph.malformed img.length = false) :
    ph.pOffset + ph.pFilesz ≤ img.length ∧ ph.pFilesz ≤ ph.pMemsz ∧
      (ph.bytes img).length = ph.pFilesz := by
  unfold Phdr.malformed at h
  simp only [Bool.or_eq_false_iff, decide_eq_false_iff_not, not_lt] at h
  obtain ⟨⟨hoff, hsize⟩, hmem⟩ := h
  refine ⟨by omega, hmem, ?_⟩
  unfold Phdr.bytes bytesAt
  rw [length_take, length_drop]
  omega

/-- **The loop over the headers is the loop over the segments.** -/
theorem loadSegments_eq (B : Buddy A) (root : ℕ) (img : List UInt8) (off : ℕ) (is : List ℕ) :
    ∀ (maxEnd : ℕ) (s : Vm A), (∀ i ∈ is, off + i * 56 + 56 ≤ img.length) →
      loadSegments B root img off is maxEnd s =
        loadList B root img ((is.map fun i => Phdr.ofBytes (bytesAt img (off + i * 56) 56)).filter
          fun ph => !ph.skipped) maxEnd s := by
  induction is with
  | nil => intro maxEnd s _; rfl
  | cons i is ih =>
    intro maxEnd s h
    have hrest : ∀ i ∈ is, off + i * 56 + 56 ≤ img.length := fun j hj =>
      h j (mem_cons_of_mem _ hj)
    rw [loadSegments, imgBytes_ok (h i (mem_cons_self ..)), map_cons]
    simp only [bind, Except.bind]
    generalize Phdr.ofBytes (bytesAt img (off + i * 56) 56) = ph
    cases hskip : ph.skipped with
    | true =>
      rw [filter_cons_of_neg (by simp [hskip])]
      exact ih maxEnd s hrest
    | false =>
      rw [filter_cons_of_pos (by simp [hskip]), loadList, if_neg Bool.false_ne_true]
      cases hmal : ph.malformed img.length with
      | true => rfl
      | false =>
        rw [if_neg Bool.false_ne_true, if_neg Bool.false_ne_true]
        cases forPages (segmentPage B root ph.writable) (pagesFrom ph.start ph.stop) s with
        | error e => rfl
        | ok r =>
          obtain ⟨ok, s₁⟩ := r
          cases ok with
          | false => rfl
          | true =>
            dsimp only
            rw [if_neg (by simp), imgBytes_ok (Phdr.bytes_in hmal).1]
            dsimp only
            rw [show bytesAt img ph.pOffset ph.pFilesz = ph.bytes img from rfl]
            cases storeUser s₁ root ph.pVaddr (ph.bytes img) with
            | error e => rfl
            | ok s₂ => exact ih _ s₂ hrest

/-- What `elf_load` returns after the loop over the segments -/
def loadResult (img : List UInt8) (brkEnd : ℕ) (r : Option ℕ × Vm A) : ℕ × ℕ × Vm A :=
  match r.1 with
  | none => (0, brkEnd, r.2)
  | some maxEnd => (entryOf img, alignUp maxEnd, r.2)

/-- **`elf_load`** over the list of segments. -/
theorem elfLoad_eq (B : Buddy A) (root : ℕ) (img : List UInt8) (brkEnd : ℕ) (s : Vm A) :
    elfLoad B root img brkEnd s =
      if HeaderOk img then (loadList B root img (segments img) 0 s).map (loadResult img brkEnd)
      else .ok (0, brkEnd, s) := by
  unfold elfLoad
  by_cases hlen : img.length < 64
  · rw [if_pos hlen, if_neg (fun h => absurd h.1 (by omega))]
    rfl
  rw [if_neg hlen, imgBytes_ok (by omega), imgNat_ok (by omega), imgNat_ok (by omega),
    imgNat_ok (by omega), imgNat_ok (by omega)]
  simp only [bind, Except.bind]
  by_cases hident : bytesAt img 0 5 = [0x7f, 0x45, 0x4c, 0x46, 2]
  · rw [if_neg (fun h => h hident)]
    by_cases htype : leNat (bytesAt img 16 2) = 2
    · rw [if_neg (fun h => h htype)]
      by_cases htable : img.length < leNat (bytesAt img 32 8) ∨ 128 < leNat (bytesAt img 56 2) ∨
          img.length - leNat (bytesAt img 32 8) < leNat (bytesAt img 56 2) * 56
      · rw [if_pos htable, if_neg]
        · rfl
        · rintro ⟨-, -, -, hoff, hnum, hfit⟩
          unfold phoff at hoff hfit
          unfold phnum at hnum hfit
          omega
      have hok : HeaderOk img := by
        refine ⟨by omega, hident, htype, ?_, ?_, ?_⟩
        · unfold phoff
          omega
        · unfold phnum
          omega
        · unfold phoff phnum
          omega
      rw [if_neg htable, if_pos hok]
      obtain ⟨-, -, -, hoff, -, hfit⟩ := hok
      rw [show leNat (bytesAt img 32 8) = phoff img from rfl,
        show leNat (bytesAt img 56 2) = phnum img from rfl,
        loadSegments_eq B root img (phoff img) (List.range (phnum img)) 0 s fun i hi => by
          have := mem_range.mp hi
          omega,
        show ((List.range (phnum img)).map fun i =>
          Phdr.ofBytes (bytesAt img (phoff img + i * 56) 56)).filter (fun ph => !ph.skipped) =
            segments img from rfl]
      cases loadList B root img (segments img) 0 s with
      | error e => rfl
      | ok r =>
        obtain ⟨maxEnd, s₁⟩ := r
        cases maxEnd with
        | none => rfl
        | some m => rfl
    · rw [if_pos htype, if_neg fun h => htype h.2.2.1]
      rfl
  · rw [if_pos hident, if_neg fun h => hident h.2.1]
    rfl

/-! ## Numbers of the headers -/

theorem leNat_lt (bs : List UInt8) : leNat bs < 256 ^ bs.length := by
  induction bs with
  | nil => decide
  | cons b bs ih =>
    have hb := b.toNat_lt
    rw [length_cons, Nat.pow_succ]
    unfold leNat
    omega

theorem segments_lt {ph : Phdr} (h : ph ∈ segments img) :
    ph.skipped = false ∧ userBase ≤ ph.pVaddr ∧ ph.pVaddr < userMaxVma ∧
      ph.pVaddr + ph.pMemsz < 2 ^ 64 ∧ ph.start ≤ ph.pVaddr ∧ ph.start % 4096 = 0 ∧
      userBase ≤ ph.start := by
  obtain ⟨hin, hskip⟩ := mem_filter.mp h
  have hskip' : ph.skipped = false := by simpa using hskip
  obtain ⟨i, -, rfl⟩ := mem_map.mp hin
  have hsize : ∀ off, leNat (((bytesAt img (phoff img + i * 56) 56).drop off).take 8) < 2 ^ 64 := by
    intro off
    refine (leNat_lt _).trans_le ?_
    exact Nat.pow_le_pow_right (by decide) (length_take_le _ _)
  have hmem := hsize 40
  refine ⟨hskip', ?_⟩
  simp only [Phdr.skipped, Bool.or_eq_false_iff, decide_eq_false_iff_not, not_lt, not_le] at hskip'
  obtain ⟨⟨⟨-, hpos⟩, hlo⟩, hhi⟩ := hskip'
  have hmem' : (Phdr.ofBytes (bytesAt img (phoff img + i * 56) 56)).pMemsz < 2 ^ 64 := hmem
  generalize Phdr.ofBytes (bytesAt img (phoff img + i * 56) 56) = ph at *
  unfold Phdr.start alignDown userBase at *
  refine ⟨hlo, hhi, ?_, ?_, ?_, ?_⟩ <;> omega

theorem stop_cases {ph : Phdr} (hlt : ph.pVaddr + ph.pMemsz < 2 ^ 64) :
    (ph.pVaddr + ph.pMemsz ≤ 2 ^ 64 - 4096 → ph.pVaddr + ph.pMemsz ≤ ph.stop) ∧
      (ph.pVaddr + ph.pMemsz ≤ userMaxVma → ph.stop ≤ userMaxVma) ∧
      (userMaxVma < ph.pVaddr + ph.pMemsz → ph.pVaddr + ph.pMemsz ≤ 2 ^ 64 - 4096 →
        userMaxVma + 4096 ≤ ph.stop) ∧
      (2 ^ 64 - 4096 < ph.pVaddr + ph.pMemsz → ph.stop = 0) ∧ ph.stop % 4096 = 0 := by
  unfold Phdr.stop alignUp userMaxVma
  refine ⟨?_, ?_, ?_, ?_, ?_⟩ <;> omega

/-! ## Images -/

/-- A number in `n` bytes -/
def leBytes (n v : ℕ) : List UInt8 := (List.range n).map fun i => UInt8.ofNat (v / 256 ^ i)

/-- The 56 bytes of a program header -/
def Phdr.toBytes (ph : Phdr) : List UInt8 :=
  leBytes 4 ph.pType ++ leBytes 4 ph.pFlags ++ leBytes 8 ph.pOffset ++ leBytes 8 ph.pVaddr ++
    leBytes 8 0 ++ leBytes 8 ph.pFilesz ++ leBytes 8 ph.pMemsz ++ leBytes 8 0

/-- An executable image: its header, its program headers and data -/
def elfImage (entry : ℕ) (phs : List Phdr) (data : List UInt8) : List UInt8 :=
  [0x7f, 0x45, 0x4c, 0x46, 2] ++ replicate 11 0 ++ leBytes 2 2 ++ replicate 6 0 ++
    leBytes 8 entry ++ leBytes 8 64 ++ replicate 16 0 ++ leBytes 2 phs.length ++
    replicate 6 0 ++ phs.flatMap Phdr.toBytes ++ data

end Lnxrm.Exec
