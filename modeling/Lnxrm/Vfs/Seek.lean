import Lnxrm.Common.Partial
import Lnxrm.Fat32.Resting
import Lnxrm.Vfs.File

/-!
# VFS — where a seek leads

A seek should move the position of a regular file to the sum of a base and
an offset, and leave it alone if the sum is negative. `reg_lseek` keeps the
size the file had when it was opened (`runOps_keeps`), so a seek from
the end is off by what has been written since; it takes every negative
offset for a request to go to the start; and a position beyond the range
of a `long` is returned as a negative number. Everywhere else it is right
(`seek_iff`), whatever has been read, written and sought before.
-/

namespace Lnxrm.Vfs

open Fat32
open Prog (Yields yields_any yields_pure)

variable {δ : Type} [DecidableEq δ] {m : Mount} {dev : δ} {f f₀ : RegFile} {off whence : Int}

/-- The file's size, with what has been written through the handle. -/
def RegFile.currentSize (f : RegFile) : ℕ := f.vn.fsData.de.filesize

/-- Where a seek starts from. -/
def RegFile.seekBase (f : RegFile) (whence : Int) : ℕ :=
  if whence = seekSet then 0 else if whence = seekCur then f.pos else f.currentSize

/-- **A seek is right**: it goes to the base and the offset, and returns
where that is, or leaves the position if there is no such place. -/
def SeekRight (f : RegFile) (off whence : Int) : Prop :=
  (0 ≤ f.seekBase whence + off → (regLseek f off whence).1 = f.seekBase whence + off ∧
    ((regLseek f off whence).2.pos : Int) = f.seekBase whence + off) ∧
  (f.seekBase whence + off < 0 → (regLseek f off whence).2.pos = f.pos)

/-- The descriptor of a regular file, among what an open can return. -/
def regular : Except Int OpenFile → Option RegFile
  | .ok (.reg f) => some f
  | _ => none

theorem regular_eq_some {x : Except Int OpenFile} (h : regular x = some f) : x = .ok (.reg f) := by
  unfold regular at h
  split at h
  · cases h
    rfl
  · cases h

/-! ## What the calls keep -/

/-- What no call changes: the size in the vnode, and that the position is a
`u64`. -/
structure RegFile.Keeps (size : ℕ) (f : RegFile) : Prop where
  size_eq : f.vn.size = size
  pos_lt : f.pos < 2 ^ 64

theorem RegFile.Keeps.advance {size : ℕ} (h : f.Keeps size) (r : Int) : (f.advance r).Keeps size := by
  unfold RegFile.advance
  split_ifs
  · exact ⟨h.size_eq, Nat.mod_lt _ (by decide)⟩
  · exact h

/-- The file behind a descriptor, if it is still open. -/
def StillKeeps (size : ℕ) (file : Option RegFile) : Prop := ∀ f, file = some f → f.Keeps size

theorem stillKeeps_some {size : ℕ} (h : f.Keeps size) : StillKeeps size (some f) := by
  rintro _ ⟨⟩
  exact h

/-- **One call.** -/
theorem FileOp.run_keeps {size : ℕ} (op : FileOp) {file : Option RegFile}
    (h : StillKeeps size file) : (op.run m file).Yields fun r => StillKeeps size r.2 := by
  cases file with
  | none =>
    rw [FileOp.run]
    exact h
  | some f =>
    have hf := h f rfl
    cases op with
    | read n =>
      rw [FileOp.run]
      refine Yields.bind (P := fun r => r.2.2.Keeps size) ?_ fun r hr => stillKeeps_some hr
      exact (yields_any _).bind fun r _ => hf.advance r.1
    | write buf n =>
      rw [FileOp.run]
      refine Yields.bind (P := fun r => r.2.Keeps size) ?_ fun r hr => stillKeeps_some hr
      refine (yields_any _).bind fun r _ => ?_
      exact RegFile.Keeps.advance (f := { f with vn := { f.vn with fsData := r.2 } })
        ⟨hf.size_eq, hf.pos_lt⟩ r.1
    | lseek off whence =>
      refine stillKeeps_some ⟨hf.size_eq, ?_⟩
      dsimp only
      split_ifs
      · decide
      · exact Nat.mod_lt _ (by decide)
      · exact Nat.mod_lt _ (by decide)
      · exact Nat.mod_lt _ (by decide)
    | close => exact fun _ hnone => by cases hnone

/-- **Any sequence of calls.** -/
theorem runOps_keeps {size : ℕ} (ops : List FileOp) : ∀ {file : Option RegFile},
    StillKeeps size file → (runOps m ops file).Yields (StillKeeps size) := by
  induction ops with
  | nil => exact fun h => h
  | cons op ops ih => exact fun h => (op.run_keeps h).bind fun r hr => ih hr

/-! ## Opening -/

theorem fatLookupImpl_size (path : Str) :
    (fatLookupImpl m path).Yields fun r => ∀ vn, r.2 = some vn → vn.size < 2 ^ 32 := by
  unfold fatLookupImpl
  split_ifs
  · rintro vn ⟨⟩
    exact Nat.two_pow_pos 32
  refine (yields_any _).bind fun r _ => ?_
  cases r with
  | none => exact fun vn h => by cases h
  | some r =>
    dsimp only
    split_ifs
    · rintro vn ⟨⟩
      exact Nat.two_pow_pos 32
    · rintro vn ⟨⟩
      exact r.de.filesize_lt

theorem vfsLookup_size (path : Str) (creat trunc : Bool) :
    (vfsLookup m path creat trunc).Yields fun x => ∀ vn, x = .ok (.fat vn) → vn.size < 2 ^ 32 := by
  refine (fatLookupImpl_size _).bind fun r hr => ?_
  obtain ⟨rc, vn⟩ := r
  cases vn with
  | some vn =>
    dsimp only
    split_ifs
    · refine (yields_any _).bind fun w _ => ?_
      rintro vn ⟨⟩
      exact Nat.two_pow_pos 32
    · rintro _ ⟨⟩
      exact hr vn rfl
  | none =>
    by_cases hroot : path = [47]
    · rw [if_pos hroot]
      exact fun vn h => by cases h
    rw [if_neg hroot]
    cases devLookup path with
    | some node => exact fun vn h => by cases h
    | none =>
      cases creat with
      | false => exact fun vn h => by cases h
      | true =>
        refine (yields_any _).bind fun rc _ => ?_
        split_ifs
        · exact fun vn h => by cases h
        refine (yields_any _).bind fun r _ => ?_
        obtain ⟨_, vn⟩ := r
        cases vn with
        | none => exact fun vn h => by cases h
        | some vn =>
          rintro _ ⟨⟩
          exact Nat.two_pow_pos 32

/-- **A regular file that was just opened.** -/
theorem openFile_reg (path : Str) (creat trunc : Bool) :
    (openFile m path creat trunc).Yields fun x => ∀ f, x = .ok (.reg f) →
      f.pos = 0 ∧ f.vn.size < 2 ^ 32 := by
  refine (vfsLookup_size _ _ _).bind fun x hx => ?_
  cases x with
  | error e => exact fun f h => by cases h
  | ok found =>
    cases found with
    | dev node => exact fun f h => by cases h
    | fat vn =>
      intro f h
      have hsize := hx vn rfl
      cases hdir : vn.isDir with
      | true =>
        rw [fileFor, hdir] at h
        cases h
      | false =>
        rw [fileFor, hdir] at h
        cases h
        exact ⟨rfl, hsize⟩

/-! ## Seeks -/

theorem asLong_eq_iff {x : ℕ} (hx : x < 2 ^ 64) {t : Int} (ht : 0 ≤ t) :
    asLong x = t ↔ (x : Int) = t ∧ t < 2 ^ 63 := by
  unfold asLong
  split_ifs <;> omega

theorem regLseek_of_neg (hoff : off < 0) : regLseek f off whence = (0, { f with pos := 0 }) := by
  simp [regLseek, hoff, asLong]

theorem regLseek_of_nonneg (f : RegFile) (whence : Int) (hoff : 0 ≤ off) :
    ∃ base, (whence = seekSet → base = 0) ∧ (whence ≠ seekSet → whence = seekCur → base = f.pos) ∧
      (whence ≠ seekSet → whence ≠ seekCur → base = f.vn.size) ∧
      regLseek f off whence = (asLong ((base + off.toNat) % 2 ^ 64),
        { f with pos := (base + off.toNat) % 2 ^ 64 }) := by
  refine ⟨if whence = seekSet then 0 else if whence = seekCur then f.pos else f.vn.size,
    fun h => if_pos h, fun h h' => ?_, fun h h' => ?_, ?_⟩
  · rw [if_neg h, if_pos h']
  · rw [if_neg h, if_neg h']
  · rw [regLseek, if_neg (by omega)]

theorem seekRight_iff {size : ℕ} (hf : f.Keeps size) (hsize : size < 2 ^ 64) (off whence : Int) :
    SeekRight f off whence ↔ (0 ≤ off → f.seekBase whence + off < 2 ^ 63 ∧
        (whence ≠ seekSet → whence ≠ seekCur → f.currentSize = size)) ∧
      (off < 0 → f.seekBase whence + off = 0 ∨ f.seekBase whence + off < 0 ∧ f.pos = 0) := by
  unfold SeekRight
  rcases Int.lt_or_le off 0 with hoff | hoff
  · rw [regLseek_of_neg hoff]
    dsimp only
    omega
  obtain ⟨base, hset, hcurr, hend, hseek⟩ := regLseek_of_nonneg f whence hoff
  have hlt : (base + off.toNat) % 2 ^ 64 < 2 ^ 64 := Nat.mod_lt _ (by decide)
  have hnonneg : (0 : Int) ≤ f.seekBase whence + off := by omega
  rw [hf.size_eq] at hend
  rw [hseek]
  dsimp only
  rw [asLong_eq_iff hlt hnonneg]
  -- the base of the code and the one of the request, by `whence`
  by_cases h0 : whence = seekSet
  · have hbase : f.seekBase whence = 0 := if_pos h0
    rw [hbase, hset h0]
    omega
  by_cases h1 : whence = seekCur
  · have hbase : f.seekBase whence = f.pos := (if_neg h0).trans (if_pos h1)
    rw [hbase, hcurr h0 h1]
    omega
  · have hbase : f.seekBase whence = f.currentSize := (if_neg h0).trans (if_neg h1)
    rw [hbase, hend h0 h1]
    omega

/-- **A seek is right** exactly if its offset is not negative, the place
can be returned as a `long` and the size it counts from is still that of
the file, or if the place happens to be the start of the file, where every
negative offset leads. The descriptor was opened in the state `s₀`, and
any sequence of calls has been made with it. -/
theorem seek_iff {path : Str} {creat trunc : Bool} {ops : List FileOp} {s₀ s₁ s₂ : Fs δ}
    (hopen : Fs.call m dev (openFile m path creat trunc) s₀ = some (.ok (.reg f₀), s₁))
    (hrun : Fs.call m dev (runOps m ops (some f₀)) s₁ = some (some f, s₂)) (off whence : Int) :
    SeekRight f off whence ↔ (0 ≤ off → f.seekBase whence + off < 2 ^ 63 ∧
        (whence ≠ seekSet → whence ≠ seekCur → f.currentSize = f₀.vn.size)) ∧
      (off < 0 → f.seekBase whence + off = 0 ∨ f.seekBase whence + off < 0 ∧ f.pos = 0) := by
  obtain ⟨hpos₀, hsize₀⟩ := (openFile_reg path creat trunc).wlp s₀ _ _ hopen f₀ rfl
  have hkeeps : f.Keeps f₀.vn.size :=
    (runOps_keeps ops (stillKeeps_some ⟨rfl, by omega⟩)).wlp s₁ _ _ hrun f rfl
  exact seekRight_iff hkeeps (by omega) off whence

theorem written_file : ∃ f₀ s₁ f s₂,
    Fs.call smallMount () (openFile smallMount [47, 97] true false) blankFs =
        some (.ok (.reg f₀), s₁) ∧
      Fs.call smallMount ()
        (runOps smallMount [.write (fun _ => 120) 10] (some f₀)) s₁ = some (some f, s₂) ∧
      f₀.vn.size = 0 ∧ f.pos = 10 ∧ f.vn.size = 0 ∧ f.currentSize = 10 := by
  have hopen : (Fs.call smallMount () (openFile smallMount [47, 97] true false)
      blankFs).map (fun x => (regular x.1).map fun f => f.vn.size) = some (some 0) := by
    decide +kernel
  have hboth : (Fs.call smallMount () (openFile smallMount [47, 97] true false)
      blankFs).bind (fun x => (Fs.call smallMount () (runOps smallMount
        [.write (fun _ => 120) 10] (regular x.1)) x.2).map fun y =>
          y.1.map fun f => (f.pos, f.vn.size, f.currentSize)) = some (some (10, 0, 10)) := by
    decide +kernel
  obtain ⟨⟨x, s₁⟩, hx, hreg⟩ := Option.map_eq_some_iff.mp hopen
  obtain ⟨f₀, hf₀, hsize⟩ := Option.map_eq_some_iff.mp hreg
  rw [hx, Option.bind_some] at hboth
  dsimp only at hboth hf₀
  rw [hf₀] at hboth
  obtain ⟨⟨y, s₂⟩, hy, hsome⟩ := Option.map_eq_some_iff.mp hboth
  obtain ⟨f, rfl, hf⟩ := Option.map_eq_some_iff.mp hsome
  simp only [Prod.mk.injEq] at hf
  exact ⟨f₀, s₁, f, s₂, by rw [hx, regular_eq_some hf₀], hy, hsize, hf.1, hf.2.1, hf.2.2⟩

/-- Five bytes on from there: the seek is right. -/
theorem written_file_seek_on : ∃ f₀ s₁ f s₂,
    Fs.call smallMount () (openFile smallMount [47, 97] true false) blankFs =
        some (.ok (.reg f₀), s₁) ∧
      Fs.call smallMount ()
        (runOps smallMount [.write (fun _ => 120) 10] (some f₀)) s₁ = some (some f, s₂) ∧
      f.seekBase seekCur = 10 ∧ SeekRight f 5 seekCur := by
  obtain ⟨f₀, s₁, f, s₂, hopen, hrun, -, hpos, -, -⟩ := written_file
  have hbase : f.seekBase seekCur = 10 := hpos
  refine ⟨f₀, s₁, f, s₂, hopen, hrun, hbase, (seek_iff hopen hrun 5 seekCur).mpr ?_⟩
  rw [hbase]
  exact ⟨fun _ => ⟨by decide, fun _ h => absurd rfl h⟩, fun h => absurd h (by decide)⟩

/-- **Two seeks go wrong**: to the end of the ten bytes, and back by one.
Both return 0 and go to the start of the file. -/
theorem written_file_seeks_wrong : ∃ f₀ s₁ f s₂,
    Fs.call smallMount () (openFile smallMount [47, 97] true false) blankFs =
        some (.ok (.reg f₀), s₁) ∧
      Fs.call smallMount ()
        (runOps smallMount [.write (fun _ => 120) 10] (some f₀)) s₁ = some (some f, s₂) ∧
      (f.seekBase seekEnd = 10 ∧ (regLseek f 0 seekEnd).1 = 0 ∧ ¬ SeekRight f 0 seekEnd) ∧
      f.seekBase seekCur = 10 ∧ (regLseek f (-1) seekCur).1 = 0 ∧ ¬ SeekRight f (-1) seekCur := by
  obtain ⟨f₀, s₁, f, s₂, hopen, hrun, -, hpos, hsize, hcur⟩ := written_file
  have hend : f.seekBase seekEnd = 10 := hcur
  have hbase : f.seekBase seekCur = 10 := hpos
  have hret : (regLseek f 0 seekEnd).1 = 0 := by simp [regLseek, seekEnd, seekSet, seekCur, hsize, asLong]
  have hret' : (regLseek f (-1) seekCur).1 = 0 := by
    rw [regLseek_of_neg (by decide)]
  refine ⟨f₀, s₁, f, s₂, hopen, hrun, ⟨hend, hret, fun h => ?_⟩, hbase, hret', fun h => ?_⟩
  · have := (h.1 (by rw [hend]; decide)).1
    rw [hret, hend] at this
    omega
  · have := (h.1 (by rw [hbase]; decide)).1
    rw [hret', hbase] at this
    omega

end Lnxrm.Vfs
