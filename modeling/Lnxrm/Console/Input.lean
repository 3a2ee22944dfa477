import Mathlib.Data.List.Induction

/-!
# Console input

The ring of `kernel/isr.c` and `console_read` of `kernel/fs/vfs.c`, with a
UART that has nothing to say. `input_pop` returns a `char` as an `int`, in
which a byte over 127 is negative, and is taken for an empty ring: such
bytes are lost, and all others are delivered in order (`input_lossless`).
-/

namespace Lnxrm.Console

open List

/-- `inbuf`, `in_r` and `in_w` -/
structure Input where
  inbuf : ℕ → UInt8
  inR : ℕ
  inW : ℕ

/-- `input_push` -/
def inputPush (i : Input) (c : UInt8) : Input :=
  if (i.inW + 1) % 256 = i.inR then i
  else { i with inbuf := Function.update i.inbuf i.inW c, inW := (i.inW + 1) % 256 }

/-- `input_pop` -/
def inputPop (i : Input) : Int × Input :=
  if i.inR = i.inW then (-1, i)
  else ((i.inbuf i.inR).toInt8.toInt, { i with inR := (i.inR + 1) % 256 })

/-- The bytes in the ring -/
def Input.contents (i : Input) : List UInt8 :=
  (List.range ((i.inW + 256 - i.inR) % 256)).map fun k => i.inbuf ((i.inR + k) % 256)

/-- The ring with its reader: how many bytes the call of `console_read`
still wants, the bytes it has delivered, and those the ring has accepted -/
structure Reading where
  input : Input
  left : ℕ
  delivered : List UInt8
  accepted : List UInt8

/-- What can happen: a byte is pushed, `console_read` is called, takes a
turn at the ring, or is interrupted by a signal. -/
inductive Event where
  | push (c : UInt8)
  | call (n : ℕ)
  | poll
  | signal

/-- One event. Each `input_pop` of `console_read` is a turn; what is
negative is no byte, and a newline ends the call. -/
def Reading.step (s : Reading) : Event → Reading
  | .push c =>
    { s with
      input := inputPush s.input c
      accepted := if s.input.contents.length < 255 then s.accepted ++ [c] else s.accepted }
  | .call n => if s.left = 0 then { s with left := n } else s
  | .poll =>
    if s.left = 0 then s
    else
      let c := (inputPop s.input).1
      if c < 0 then { s with input := (inputPop s.input).2 }
      else
        { s with
          input := (inputPop s.input).2
          delivered := s.delivered ++ [UInt8.ofNat c.toNat]
          left := if c = 10 then 0 else s.left - 1 }
  | .signal => { s with left := 0 }

/-- An empty ring, and nobody reading -/
def Reading.start : Reading := ⟨⟨fun _ => 0, 0, 0⟩, 0, [], []⟩

/-- **Lossless and in order**: what was accepted has been delivered, or is
in the ring. -/
def Lossless (s : Reading) : Prop := s.accepted = s.delivered ++ s.input.contents

/-- The indices are in range. -/
def Input.Ok (i : Input) : Prop := i.inR < 256 ∧ i.inW < 256

theorem push_contents {i : Input} (h : i.Ok) (hroom : ¬ (i.inW + 1) % 256 = i.inR) (c : UInt8) :
    (inputPush i c).Ok ∧ (inputPush i c).contents = i.contents ++ [c] := by
  obtain ⟨hr, hw⟩ := h
  unfold inputPush
  rw [if_neg hroom]
  refine ⟨⟨hr, Nat.mod_lt _ (by decide)⟩, ?_⟩
  obtain ⟨n, hn⟩ : ∃ n, n = (i.inW + 256 - i.inR) % 256 := ⟨_, rfl⟩
  have hlast : (i.inR + n) % 256 = i.inW := by omega
  unfold Input.contents
  dsimp only
  rw [show ((i.inW + 1) % 256 + 256 - i.inR) % 256 = n + 1 by omega, ← hn, range_succ,
    map_append, map_singleton, hlast, Function.update_self]
  congr 1
  refine map_congr_left fun k hk => Function.update_of_ne ?_ _ _
  have := mem_range.mp hk
  omega

theorem pop_contents {i : Input} (h : i.Ok) (hne : i.inR ≠ i.inW) :
    (inputPop i).2.Ok ∧ i.contents = i.inbuf i.inR :: (inputPop i).2.contents := by
  obtain ⟨hr, hw⟩ := h
  unfold inputPop
  rw [if_neg hne]
  refine ⟨⟨Nat.mod_lt _ (by decide), hw⟩, ?_⟩
  obtain ⟨n, hn⟩ : ∃ n, n + 1 = (i.inW + 256 - i.inR) % 256 := ⟨_, Nat.succ_pred_eq_of_pos (by omega)⟩
  unfold Input.contents
  rw [show (i.inW + 256 - (i.inR + 1) % 256) % 256 = n by omega, ← hn, range_succ_eq_map,
    map_cons, map_map, Nat.add_zero, Nat.mod_eq_of_lt hr]
  congr 1
  refine map_congr_left fun k _ => congrArg i.inbuf ?_
  simp only [Nat.succ_eq_add_one]
  omega

/-- A byte below 128 is what it is as an `int`. -/
theorem toInt_of_lt {c : UInt8} (h : c < 128) :
    0 ≤ c.toInt8.toInt ∧ UInt8.ofNat c.toInt8.toInt.toNat = c := by
  have hlt : c.toNat < 128 := h
  have hint : c.toInt8.toInt = c.toNat := BitVec.toInt_eq_toNat_of_lt (show 2 * c.toNat < 2 ^ 8 by omega)
  rw [hint]
  exact ⟨Int.natCast_nonneg _, UInt8.ofNat_toNat⟩

/-- **Input is lossless and ordered** if every byte that is pushed is below
128, however pushes and reads interleave. -/
theorem input_lossless (es : List Event) (h : ∀ c, .push c ∈ es → c < 128) :
    Lossless (es.foldl Reading.step .start) := by
  suffices hall : (es.foldl Reading.step .start).input.Ok ∧ Lossless (es.foldl Reading.step .start) ∧
      ∀ c ∈ (es.foldl Reading.step .start).input.contents, c < 128 from hall.2.1
  induction es using reverseRecOn with
  | nil => exact ⟨⟨by decide, by decide⟩, rfl, fun _ hc => absurd hc not_mem_nil⟩
  | append_singleton es e ih =>
    obtain ⟨hok, hl, hlow⟩ := ih fun c hc => h c (mem_append_left _ hc)
    rw [foldl_append, foldl_cons, foldl_nil]
    generalize es.foldl Reading.step .start = s at hok hl hlow
    unfold Lossless at hl ⊢
    cases e with
    | push c =>
      have hlen : s.input.contents.length < 255 ↔ ¬ (s.input.inW + 1) % 256 = s.input.inR := by
        have := hok.1
        rw [Input.contents, length_map, length_range]
        omega
      by_cases hfull : (s.input.inW + 1) % 256 = s.input.inR
      · simp only [Reading.step, inputPush, if_pos hfull, if_neg (mt hlen.mp (not_not.mpr hfull))]
        exact ⟨hok, hl, hlow⟩
      obtain ⟨hok', hc⟩ := push_contents hok hfull c
      simp only [Reading.step, if_pos (hlen.mpr hfull), hc]
      refine ⟨hok', by rw [hl, append_assoc], fun b hb => ?_⟩
      rcases mem_append.mp hb with hb | hb
      · exact hlow b hb
      · rw [mem_singleton.mp hb]
        exact h c (by simp)
    | call n =>
      simp only [Reading.step]
      split <;> exact ⟨hok, hl, hlow⟩
    | poll =>
      simp only [Reading.step]
      split
      · exact ⟨hok, hl, hlow⟩
      by_cases hne : s.input.inR = s.input.inW
      · simp only [inputPop, if_pos hne]
        exact ⟨hok, hl, hlow⟩
      obtain ⟨hok', hc⟩ := pop_contents hok hne
      rw [hc] at hl hlow
      obtain ⟨hpos, hbyte⟩ := toInt_of_lt (hlow _ (mem_cons_self ..))
      have hint : (inputPop s.input).1 = (s.input.inbuf s.input.inR).toInt8.toInt := by
        rw [inputPop, if_neg hne]
      rw [hint, if_neg (by omega)]
      refine ⟨hok', ?_, fun b hb => hlow b (mem_cons_of_mem _ hb)⟩
      rw [hbyte, hl, append_assoc]
      rfl
    | signal => exact ⟨hok, hl, hlow⟩

/-- A byte is pushed and read. -/
theorem input_lossless_one : Lossless ([.push 65, .call 1, .poll].foldl Reading.step .start) ∧
    ([.push 65, .call 1, .poll].foldl Reading.step .start).delivered = [65] :=
  ⟨input_lossless _ (by simp), by decide⟩

/-- **The byte `0xe9` is lost.** -/
theorem high_byte_lost : ¬ Lossless ([.push 0xe9, .call 1, .poll].foldl Reading.step .start) := by
  unfold Lossless
  decide

end Lnxrm.Console
