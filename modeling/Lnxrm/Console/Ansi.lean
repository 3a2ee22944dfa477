import Mathlib.Data.List.Induction

/-!
# Escape sequences on the console

The tokenizer of `kernel/ansi.c`, against the sequences that a stream of
bytes is made of. It tells text from sequences in every stream, but hands
over a sequence of more than seven bytes without its final letter
(`ansi_whole_iff`).
-/

namespace Lnxrm.Console

open List

/-- What `ansi_feed` answers -/
inductive Answer where
  | text
  | consumed
  | done
deriving DecidableEq

/-- `struct ansi_seq`, with the first `len` bytes of `buf` -/
structure AnsiSeq where
  phase : ℕ
  buf : List UInt8

/-- The state that static storage starts with -/
def AnsiSeq.start : AnsiSeq := ⟨0, []⟩

def isLetter (c : UInt8) : Bool := (65 ≤ c && c ≤ 90) || (97 ≤ c && c ≤ 122)

/-- `ansi_feed` -/
def ansiFeed (s : AnsiSeq) (c : UInt8) : Answer × AnsiSeq :=
  if s.phase = 0 then
    if c = 27 then (.consumed, { s with phase := 1 }) else (.text, s)
  else if s.phase = 1 then
    if c = 91 then (.consumed, ⟨2, []⟩) else (.consumed, { s with phase := 0 })
  else
    let buf := if s.buf.length < 7 then s.buf ++ [c] else s.buf
    if isLetter c then (.done, ⟨0, buf⟩) else (.consumed, { s with buf := buf })

/-- Each byte of a stream with its answer, and the state at the end -/
def feedAll (bs : List UInt8) : List (UInt8 × Answer) × AnsiSeq :=
  bs.foldl (fun r c => (r.1 ++ [(c, (ansiFeed r.2 c).1)], (ansiFeed r.2 c).2)) ([], .start)

/-! ## What a stream is made of -/

/-- A byte of text, `ESC` and a byte, or `ESC [` with parameters and the
final letter -/
inductive Item where
  | text (c : UInt8)
  | pair (c : UInt8)
  | csi (params : List UInt8) (final : UInt8)

def Item.Ok : Item → Prop
  | .text c => c ≠ 27
  | .pair c => c ≠ 91
  | .csi params final => (∀ c ∈ params, isLetter c = false) ∧ isLetter final = true

/-- The bytes, each with the answer it should have -/
def Item.told : Item → List (UInt8 × Answer)
  | .text c => [(c, .text)]
  | .pair c => [(27, .consumed), (c, .consumed)]
  | .csi params final => (27 :: 91 :: params).map (·, .consumed) ++ [(final, .done)]

/-- Items, and the bytes of a sequence that has begun -/
def Parsed (told : List (UInt8 × Answer)) (items : List Item) (tail : List UInt8) : Prop :=
  told = items.flatMap Item.told ++ tail.map (·, .consumed) ∧ ∀ it ∈ items, it.Ok

/-- **The buffer has the whole sequence**, or at least its final letter if
it is too long -/
def Whole (params : List UInt8) (final : UInt8) (buf : List UInt8) : Prop :=
  buf.getLast? = some final ∧ (params.length < 7 → buf = params ++ [final])

/-- The state of the tokenizer behind these items and this tail -/
def Tracks (s : AnsiSeq) (items : List Item) (tail : List UInt8) : Prop :=
  (s.phase = 0 ∧ tail = [] ∧ ∀ pre params final, items = pre ++ [.csi params final] →
      s.buf = (params ++ [final]).take 7) ∨
    (s.phase = 1 ∧ tail = [27]) ∨
    s.phase = 2 ∧ ∃ params, tail = 27 :: 91 :: params ∧ (∀ c ∈ params, isLetter c = false) ∧
      s.buf = params.take 7

variable {told : List (UInt8 × Answer)} {items : List Item} {params tail : List UInt8}

theorem whole_take_iff {final : UInt8} (h : (Item.csi params final).Ok) :
    Whole params final ((params ++ [final]).take 7) ↔ params.length < 7 := by
  refine ⟨fun hw => ?_, fun hlt => ?_⟩
  · by_contra hge
    have hlast := mem_of_getLast? hw.1
    rw [take_append_of_le_length (by omega)] at hlast
    have hno := h.1 final (mem_of_mem_take hlast)
    rw [h.2] at hno
    cases hno
  · have htake : (params ++ [final]).take 7 = params ++ [final] :=
      take_of_length_le (by rw [length_append, length_singleton]; omega)
    exact ⟨by rw [htake, getLast?_concat], fun _ => htake⟩

theorem append_take (c : UInt8) :
    (if (params.take 7).length < 7 then params.take 7 ++ [c] else params.take 7) =
      (params ++ [c]).take 7 := by
  by_cases h : params.length < 7
  · rw [take_of_length_le (by omega), if_pos h,
      take_of_length_le (by rw [length_append, length_singleton]; omega)]
  · rw [if_neg (by rw [length_take]; omega), take_append_of_le_length (by omega)]

theorem Parsed.finish (h : Parsed told items tail) (it : Item) {c : UInt8} {a : Answer}
    (ht : it.told = tail.map (·, .consumed) ++ [(c, a)]) (hok : it.Ok) :
    Parsed (told ++ [(c, a)]) (items ++ [it]) [] := by
  refine ⟨by simp [h.1, ht], fun x hx => ?_⟩
  rcases mem_append.mp hx with hx | hx
  · exact h.2 x hx
  · rw [mem_singleton.mp hx]
    exact hok

theorem Parsed.goOn (h : Parsed told items tail) (c : UInt8) :
    Parsed (told ++ [(c, .consumed)]) items (tail ++ [c]) :=
  ⟨by simp [h.1], h.2⟩

/-- **One byte** -/
theorem Tracks.feed {s : AnsiSeq} (ht : Tracks s items tail) (hp : Parsed told items tail)
    (c : UInt8) : ∃ items' tail', Tracks (ansiFeed s c).2 items' tail' ∧
      Parsed (told ++ [(c, (ansiFeed s c).1)]) items' tail' := by
  -- no item but a sequence says anything of the buffer
  have hother : ∀ {it : Item}, (∀ params final, it ≠ .csi params final) →
      ∀ pre params final, items ++ [it] ≠ pre ++ [.csi params final] := fun hit pre params final he =>
    hit params final (singleton_inj.mp (append_inj' he rfl).2)
  unfold ansiFeed
  rcases ht with ⟨hph, rfl, hbuf⟩ | ⟨hph, rfl⟩ | ⟨hph, params, rfl, hparams, hbuf⟩
  · rw [if_pos hph]
    by_cases hc : c = 27
    · rw [if_pos hc, hc]
      exact ⟨items, _, Or.inr (Or.inl ⟨rfl, rfl⟩), hp.goOn 27⟩
    · rw [if_neg hc]
      exact ⟨_, [], Or.inl ⟨hph, rfl, fun _ _ _ he => absurd he (hother (by simp) _ _ _)⟩,
        hp.finish (.text c) rfl hc⟩
  · rw [if_neg (by omega), if_pos hph]
    by_cases hc : c = 91
    · rw [if_pos hc, hc]
      exact ⟨items, _, Or.inr (Or.inr ⟨rfl, [], rfl, by simp, rfl⟩), hp.goOn 91⟩
    · rw [if_neg hc]
      exact ⟨_, [], Or.inl ⟨rfl, rfl, fun _ _ _ he => absurd he (hother (by simp) _ _ _)⟩,
        hp.finish (.pair c) rfl hc⟩
  rw [if_neg (by omega), if_neg (by omega), hbuf, append_take]
  by_cases hc : isLetter c
  · simp only [if_pos hc]
    refine ⟨_, [], Or.inl ⟨rfl, rfl, fun pre params' final he => ?_⟩,
      hp.finish (.csi params c) rfl ⟨hparams, hc⟩⟩
    cases (append_inj' he rfl).2
    rfl
  · simp only [if_neg hc]
    refine ⟨items, _, Or.inr (Or.inr ⟨hph, params ++ [c], rfl, fun x hx => ?_, rfl⟩), hp.goOn c⟩
    rcases mem_append.mp hx with hx | hx
    · exact hparams x hx
    · rw [mem_singleton.mp hx]
      exact Bool.eq_false_iff.mpr hc

/-- **Every stream is told apart**: text is reported as text, byte by byte,
and all other bytes belong to a sequence. **A sequence is handed over whole
exactly if** it has at most seven bytes. -/
theorem ansi_whole_iff (bs : List UInt8) : ∃ items tail, Parsed (feedAll bs).1 items tail ∧
    (tail = [] ∨ tail = [27] ∨ ∃ params, tail = 27 :: 91 :: params ∧
      ∀ c ∈ params, isLetter c = false) ∧
    ∀ pre params final, items = pre ++ [.csi params final] → tail = [] →
      (Whole params final (feedAll bs).2.buf ↔ params.length < 7) := by
  obtain ⟨items, tail, ht, hp⟩ : ∃ items tail, Tracks (feedAll bs).2 items tail ∧
      Parsed (feedAll bs).1 items tail := by
    induction bs using reverseRecOn with
    | nil => exact ⟨[], [], Or.inl ⟨rfl, rfl, by simp⟩, rfl, by simp⟩
    | append_singleton bs c ih =>
      obtain ⟨items, tail, ht, hp⟩ := ih
      unfold feedAll
      rw [foldl_append]
      exact ht.feed hp c
  refine ⟨items, tail, hp, ?_⟩
  rcases ht with ⟨-, rfl, hbuf⟩ | ⟨-, rfl⟩ | ⟨-, params, rfl, hparams, -⟩
  · refine ⟨Or.inl rfl, fun pre params final hit _ => ?_⟩
    rw [hbuf pre params final hit]
    exact whole_take_iff (hp.2 _ (by rw [hit]; simp))
  · exact ⟨Or.inr (Or.inl rfl), fun _ _ _ _ h => by cases h⟩
  · exact ⟨Or.inr (Or.inr ⟨params, rfl, hparams⟩), fun _ _ _ _ h => by cases h⟩

/-- **`ESC [ 1;31;44 m` is handed over without its `m`.** -/
theorem long_sequence_cut :
    (feedAll [27, 91, 49, 59, 51, 49, 59, 52, 52, 109]).1.getLast? = some (109, .done) ∧
      ¬ Whole [49, 59, 51, 49, 59, 52, 52] 109
        (feedAll [27, 91, 49, 59, 51, 49, 59, 52, 52, 109]).2.buf :=
  ⟨by decide, fun h => absurd h.1 (by decide)⟩

end Lnxrm.Console
