import Lnxrm.Console.Ansi
import Mathlib.Data.Int.Order.Basic

/-!
# The VGA text console

`console_putc` and `esc_process` of `kernel/print.c`. A cell outside the
screen and an entry outside the colour table have no result; whatever
bytes are fed, there is always one (`console_robust`).
-/

namespace Lnxrm.Console

/-- The screen, the cursor, `cur_attr` and `vga_ansi` -/
structure Vga where
  cells : ℤ → UInt16
  vrow : ℤ
  vcol : ℤ
  curAttr : UInt8
  ansi : AnsiSeq

/-- `console_init`, with what static storage starts with -/
def consoleInit : Vga := ⟨fun _ => 0x0700, 0, 0, 7, .start⟩

/-- A store to `vga[i]` -/
def Vga.put (v : Vga) (i : ℤ) (x : UInt16) : Option Vga :=
  if 0 ≤ i ∧ i < 80 * 25 then some { v with cells := fun j => if j = i then x else v.cells j }
  else none

/-- A loop that stores to the cells of `is` -/
def Vga.fill (v : Vga) (is : List ℕ) (x : (ℤ → UInt16) → ℕ → UInt16) : Option Vga :=
  is.foldlM (fun v (i : ℕ) => v.put i (x v.cells i)) v

/-- `vga_scroll` -/
def vgaScroll (v : Vga) : Option Vga :=
  (v.fill (List.range (24 * 80)) fun cells i => cells (i + 80)).bind fun v =>
    v.fill ((List.range 80).map (24 * 80 + ·)) fun _ _ => 0x0700

/-- The start of a line below, with what follows at the end of the screen -/
def newLine (v : Vga) : Option Vga :=
  if 25 ≤ v.vrow + 1 then (vgaScroll v).map fun v => { v with vcol := 0 }
  else some { v with vcol := 0, vrow := v.vrow + 1 }

/-- `ansi_color_index` -/
def ansiColorIndex (code : ℕ) : Option UInt8 :=
  if 30 ≤ code then [0, 4, 2, 6, 1, 5, 3, 7][code - 30]? else none

def isDigit (c : UInt8) : Bool := 48 ≤ c && c ≤ 57

/-- The loop over the parameters of `H`: `row`, and `num`, `have_num` and
`semi` at its end -/
def posLoop : List UInt8 → ℕ × ℕ × Bool × Bool → ℕ × ℕ × Bool × Bool
  | [], r => r
  | c :: cs, (row, num, haveNum, semi) =>
    posLoop cs <|
      if isDigit c then (row, num * 10 + (c.toNat - 48), true, semi)
      else if c = 59 then if haveNum then (num, 0, false, true) else (row, num, haveNum, true)
      else (row, num, haveNum, semi)

/-- The row and the column that `H` asks for -/
def posParams (params : List UInt8) : ℕ × ℕ :=
  match posLoop params (1, 0, false, false) with
  | (row, num, haveNum, semi) =>
    if semi then (row, if haveNum then num else 1) else (if haveNum then num else row, 1)

/-- One parameter of `m`, for the colours `fg` and `bg` -/
def sgrParam (num : ℕ) (fg bg : UInt8) : Option (UInt8 × UInt8) :=
  if num = 0 then some (7, 0)
  else if 30 ≤ num ∧ num ≤ 37 then (ansiColorIndex num).map (·, bg)
  else if 40 ≤ num ∧ num ≤ 47 then (ansiColorIndex (num - 10)).map (fg, ·)
  else if num = 1 then some (fg ||| 8, bg)
  else some (fg, bg)

/-- The loop over the bytes of `m`, which does `param` with every number -/
def sgrLoop (param : ℕ → UInt8 → UInt8 → Option (UInt8 × UInt8)) :
    List UInt8 → ℕ → Bool → UInt8 → UInt8 → Option (UInt8 × UInt8)
  | [], _, _, fg, bg => some (fg, bg)
  | c :: cs, num, haveNum, fg, bg =>
    if isDigit c then sgrLoop param cs (num * 10 + (c.toNat - 48)) true fg bg
    else if (c = 59 ∨ cs = []) ∧ haveNum then
      (param num fg bg).bind fun col => sgrLoop param cs 0 false col.1 col.2
    else sgrLoop param cs num haveNum fg bg

/-- `esc_process` -/
def escProcess (v : Vga) (buf : List UInt8) : Option Vga :=
  match buf.getLast? with
  | none => none
  | some 74 =>
    if 2 ≤ buf.length ∧ buf.head? = some 50 then
      (v.fill (List.range (25 * 80)) fun _ _ => 0x0700).map fun v => { v with vrow := 0, vcol := 0 }
    else some v
  | some 72 =>
    let pos := posParams buf.dropLast
    some { v with vrow := min (max (pos.1 - 1) 0) 24, vcol := min (max (pos.2 - 1) 0) 79 }
  | some 109 =>
    if buf.length = 1 then some { v with curAttr := 7 }
    else (sgrLoop sgrParam buf 0 false (v.curAttr &&& 15) (v.curAttr >>> (4 : UInt8) &&& 7)).map
      fun col => { v with curAttr := (col.2 <<< (4 : UInt8)) ||| col.1 }
  | some _ => some v

/-- The end of `console_putc`: a character that is text -/
def putChar (v : Vga) (c : UInt8) : Option Vga :=
  (if 80 ≤ v.vcol then newLine v else some v).bind fun v =>
    let cell (c : UInt8) : UInt16 := v.curAttr.toUInt16 <<< 8 ||| c.toUInt16
    if c = 8 then
      if 0 < v.vcol then { v with vcol := v.vcol - 1 }.put (v.vrow * 80 + (v.vcol - 1)) (cell 32)
      else some v
    else if c = 10 then newLine v
    else if c = 13 then some v
    else if c = 9 then
      let vcol := (v.vcol / 8 + 1) * 8
      if 80 ≤ vcol then newLine v else some { v with vcol := vcol }
    else { v with vcol := v.vcol + 1 }.put (v.vrow * 80 + v.vcol) (cell c)

/-- `console_putc`, but for the framebuffer, the UART and the ring -/
def consolePutc (v : Vga) (c : UInt8) : Option Vga :=
  match ansiFeed v.ansi c with
  | (.done, ansi) => escProcess { v with ansi := ansi } ansi.buf
  | (.consumed, ansi) => some { v with ansi := ansi }
  | (.text, ansi) => putChar { v with ansi := ansi } c

/-- **The invariant of the console** -/
structure Vga.Ok (v : Vga) : Prop where
  row : 0 ≤ v.vrow ∧ v.vrow < 25
  col : 0 ≤ v.vcol ∧ v.vcol ≤ 80
  len : v.ansi.buf.length < 8
  phase : v.ansi.phase ≤ 2

theorem sgrParam_some (num : ℕ) (fg bg : UInt8) : ∃ col, sgrParam num fg bg = some col := by
  have hindex : ∀ code, 30 ≤ code → code ≤ 37 → ∃ x, ansiColorIndex code = some x := by
    intro code hlo hhi
    unfold ansiColorIndex
    rw [if_pos hlo, List.getElem?_eq_getElem (show code - 30 < 8 by omega)]
    exact ⟨_, rfl⟩
  unfold sgrParam
  split
  · exact ⟨_, rfl⟩
  split
  · obtain ⟨x, hx⟩ := hindex num (by omega) (by omega)
    exact ⟨(x, bg), by rw [hx]; rfl⟩
  split
  · obtain ⟨x, hx⟩ := hindex (num - 10) (by omega) (by omega)
    exact ⟨(fg, x), by rw [hx]; rfl⟩
  split <;> exact ⟨_, rfl⟩

theorem sgrLoop_some (cs : List UInt8) : ∀ num haveNum fg bg,
    ∃ col, sgrLoop sgrParam cs num haveNum fg bg = some col := by
  induction cs with
  | nil => exact fun _ _ fg bg => ⟨(fg, bg), rfl⟩
  | cons c cs ih =>
    intro num haveNum fg bg
    rw [sgrLoop]
    split
    · exact ih ..
    split
    · obtain ⟨col, hcol⟩ := sgrParam_some num fg bg
      rw [hcol]
      exact ih ..
    · exact ih ..

namespace Vga.Ok

variable {v : Vga}

theorem moved (h : v.Ok) (cells : ℤ → UInt16) (curAttr : UInt8) {row col : ℤ}
    (hrow : 0 ≤ row ∧ row < 25) (hcol : 0 ≤ col ∧ col ≤ 80) :
    Vga.Ok ⟨cells, row, col, curAttr, v.ansi⟩ := ⟨hrow, hcol, h.len, h.phase⟩

omit v in
/-- A loop over cells of the screen -/
theorem fill {is : List ℕ} (x : (ℤ → UInt16) → ℕ → UInt16) (h : ∀ i ∈ is, i < 25 * 80) :
    ∀ v : Vga, ∃ cells, v.fill is x = some { v with cells := cells } := by
  induction is with
  | nil => exact fun v => ⟨v.cells, rfl⟩
  | cons i is ih =>
    intro v
    have hi := h i (List.mem_cons_self ..)
    unfold Vga.fill
    rw [List.foldlM_cons, Vga.put, if_pos (by omega)]
    exact ih (fun j hj => h j (List.mem_cons_of_mem _ hj)) _

theorem newLine (h : v.Ok) : ∃ v', newLine v = some v' ∧ v'.Ok ∧ v'.vcol = 0 := by
  have hrow := h.row
  unfold Console.newLine vgaScroll
  split
  · obtain ⟨cells, hc⟩ := fill (fun cells i => cells (i + 80))
      (fun i (hi : i ∈ List.range (24 * 80)) => by have := List.mem_range.mp hi; omega) v
    obtain ⟨cells', hc'⟩ := fill (fun _ _ => 0x0700)
      (fun i (hi : i ∈ (List.range 80).map (24 * 80 + ·)) => by
        obtain ⟨j, hj, rfl⟩ := List.mem_map.mp hi
        have := List.mem_range.mp hj
        omega) { v with cells := cells }
    rw [hc, Option.bind_some, hc']
    exact ⟨_, rfl, h.moved _ _ hrow (by decide), rfl⟩
  · exact ⟨_, rfl, h.moved _ _ (by omega) (by decide), rfl⟩

/-- A store to a cell of the screen -/
theorem put (h : v.Ok) {col : ℤ} (hcol : 0 ≤ col ∧ col < 80) (x : UInt16) :
    ∃ v', v.put (v.vrow * 80 + col) x = some v' ∧ v'.Ok := by
  have hrow := h.row
  unfold Vga.put
  rw [if_pos (by omega)]
  exact ⟨_, rfl, h.moved _ _ h.row h.col⟩

theorem putChar (h : v.Ok) (c : UInt8) : ∃ v', putChar v c = some v' ∧ v'.Ok := by
  -- after a deferred wrap the column is on the screen
  obtain ⟨w, hw, hok, hcol⟩ : ∃ w, (if 80 ≤ v.vcol then Console.newLine v else some v) = some w ∧
      w.Ok ∧ 0 ≤ w.vcol ∧ w.vcol < 80 := by
    have := h.col
    split
    · obtain ⟨w, hw, hok, hz⟩ := h.newLine
      exact ⟨w, hw, hok, by omega, by omega⟩
    · exact ⟨v, rfl, h, by omega, by omega⟩
  obtain ⟨u, hu, huok, -⟩ := hok.newLine
  unfold Console.putChar
  rw [hw, Option.bind_some]
  dsimp only
  split
  · split
    · exact (hok.moved w.cells w.curAttr hok.row (show 0 ≤ w.vcol - 1 ∧ _ by omega)).put (by omega) _
    · exact ⟨w, rfl, hok⟩
  split
  · exact ⟨u, hu, huok⟩
  split
  · exact ⟨w, rfl, hok⟩
  split
  · split
    · exact ⟨u, hu, huok⟩
    · exact ⟨_, rfl, hok.moved _ _ hok.row (by omega)⟩
  · exact (hok.moved w.cells w.curAttr hok.row (show 0 ≤ w.vcol + 1 ∧ _ by omega)).put hcol _

theorem escProcess (h : v.Ok) {buf : List UInt8} (hbuf : buf ≠ []) :
    ∃ v', escProcess v buf = some v' ∧ v'.Ok := by
  unfold Console.escProcess
  split
  · rename_i hnone
    exact absurd (List.getLast?_eq_none_iff.mp hnone) hbuf
  · split
    · obtain ⟨cells, hc⟩ := fill (fun _ _ => 0x0700)
        (fun i (hi : i ∈ List.range (25 * 80)) => List.mem_range.mp hi) v
      rw [hc]
      exact ⟨_, rfl, h.moved _ _ (by decide) (by decide)⟩
    · exact ⟨v, rfl, h⟩
  · exact ⟨_, rfl, h.moved _ _ (by omega) (by omega)⟩
  · split
    · exact ⟨_, rfl, h.moved _ _ h.row h.col⟩
    · obtain ⟨col, hcol⟩ := sgrLoop_some buf 0 false (v.curAttr &&& 15) (v.curAttr >>> (4 : UInt8) &&& 7)
      rw [hcol]
      exact ⟨_, rfl, h.moved _ _ h.row h.col⟩
  · exact ⟨v, rfl, h⟩

/-- **One byte** -/
theorem consolePutc (h : v.Ok) (c : UInt8) : ∃ v', consolePutc v c = some v' ∧ v'.Ok := by
  have hfeed : (ansiFeed v.ansi c).2.buf.length < 8 ∧ (ansiFeed v.ansi c).2.phase ≤ 2 ∧
      ((ansiFeed v.ansi c).1 = .done → (ansiFeed v.ansi c).2.buf ≠ []) := by
    have hlen := h.len
    have hph := h.phase
    unfold ansiFeed
    split_ifs <;> simp <;> grind
  unfold Console.consolePutc
  obtain ⟨hlen, hph, hne⟩ := hfeed
  rcases hf : ansiFeed v.ansi c with ⟨a, ansi⟩
  rw [hf] at hlen hph hne
  have hok : Vga.Ok { v with ansi := ansi } := ⟨h.row, h.col, hlen, hph⟩
  cases a with
  | done => exact hok.escProcess (hne rfl)
  | consumed => exact ⟨_, rfl, hok⟩
  | text => exact hok.putChar c

end Vga.Ok

/-- **The console is robust**: for every sequence of bytes there is a
state, with the cursor on the screen or behind the end of its line, and
the tokenizer in bounds. -/
theorem console_robust (bs : List UInt8) : ∃ v, bs.foldlM consolePutc consoleInit = some v ∧ v.Ok := by
  induction bs using List.reverseRecOn with
  | nil => exact ⟨_, rfl, by decide, by decide, by decide, by decide⟩
  | append_singleton bs c ih =>
    obtain ⟨v, hv, hok⟩ := ih
    rw [List.foldlM_append, hv]
    obtain ⟨v', hv', hok'⟩ := hok.consolePutc c
    exact ⟨v', by simp [hv'], hok'⟩

end Lnxrm.Console
