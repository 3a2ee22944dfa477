import Lnxrm.Common.Run
import Lnxrm.Console.Vga
import Mathlib.Algebra.Group.Nat.Defs
import Mathlib.Data.List.Basic

/-!
# Drawing on the framebuffer

The drawing functions and the text console of `kernel/framebuffer.c`, as
lists of the bytes they read and write. Whatever is drawn stays inside the
framebuffer (`drawing_inside`); a rectangle is filled exactly unless it
reaches past `2 ^ 32` (`fillRect_exact_iff`).
-/

namespace Lnxrm.Console

open Function

/-- A mode that `fb_init` accepts, with `fb_pal` and the font -/
structure Mode where
  width : ℕ
  height : ℕ
  pitch : ℕ
  pxsz : ℕ
  pal : UInt8 → BitVec 32
  glyph : UInt8 → ℕ → UInt8
  width_le : width ≤ 8192
  height_le : height ≤ 8192
  pxsz_pos : 0 < pxsz
  row_le : width * pxsz ≤ pitch

/-- An access at an offset from `fb_ptr` -/
inductive Touch where
  | write (off : ℕ) (b : UInt8)
  | copy (dst src : ℕ)

def Touch.Inside (m : Mode) : Touch → Prop
  | .write off _ => off < m.pitch * m.height
  | .copy dst src => dst < m.pitch * m.height ∧ src < m.pitch * m.height

variable (m : Mode)

/-- Byte `k` of a pixel of this colour -/
def Mode.pixelByte (color : UInt8) (k : ℕ) : UInt8 :=
  if m.pxsz = 1 then color else UInt8.ofNat ((m.pal color).toNat >>> (8 * k))

/-- A pixel is stored: `*dst = color` or `fb_store`. -/
def storePixel (row col : ℕ) (color : UInt8) : List Touch :=
  (List.range m.pxsz).map fun k =>
    .write (row * m.pitch + col * m.pxsz + k) (m.pixelByte color k)

/-- `fb_put_pixel` -/
def fbPutPixel (x y : BitVec 32) (color : UInt8) : List Touch :=
  if m.width ≤ x.toNat ∨ m.height ≤ y.toNat then [] else storePixel m y.toNat x.toNat color

/-- `fb_clear` -/
def fbClear (color : UInt8) : List Touch :=
  if m.pxsz = 1 then (List.range (m.pitch * m.height)).map (.write · color)
  else (List.range m.height).flatMap fun y =>
    (List.range m.width).flatMap fun x => storePixel m y x color

/-- The values of a loop variable from `a` while it is below `a + n` and `bound` -/
def loopTo (a n : BitVec 32) (bound : ℕ) : List ℕ :=
  List.range' a.toNat (min (a + n).toNat bound - a.toNat)

/-- `fb_fill_rect` -/
def fbFillRect (x y w h : BitVec 32) (color : UInt8) : List Touch :=
  (loopTo y h m.height).flatMap fun row =>
    (loopTo x w m.width).flatMap fun col => storePixel m row col color

/-- `fb_draw_char` -/
def fbDrawChar (x y : BitVec 32) (ch fg bg : UInt8) : List Touch :=
  (List.range 16).flatMap fun row => (List.range 8).flatMap fun col =>
    fbPutPixel m (x + BitVec.ofNat 32 col) (y + BitVec.ofNat 32 row)
      (if (m.glyph ch row).toNat.testBit (7 - col) then fg else bg)

/-- `fb_puts` -/
def fbPuts (x y : BitVec 32) (fg bg : UInt8) : List UInt8 → List Touch
  | [] => []
  | ch :: s => fbDrawChar m x y ch fg bg ++ fbPuts (x + 8) y fg bg s

/-! ## The text console -/

/-- The cursor, the colours and `fbc_ansi` -/
structure FbCon where
  row : ℤ
  col : ℤ
  fg : UInt8
  bg : UInt8
  ansi : AnsiSeq

/-- `fbc_cursor` -/
def fbcCursor (f : FbCon) (shown : Bool) : List Touch :=
  [14, 15].flatMap fun dy : ℤ => (List.range 8).flatMap fun dx : ℕ =>
    fbPutPixel m (BitVec.ofInt 32 (f.col * 8 + dx)) (BitVec.ofInt 32 (f.row * 16 + dy))
      (if shown then 7 else f.bg)

/-- `fbc_scroll` -/
def fbcScroll (f : FbCon) : List Touch :=
  let rowBytes := m.pitch * 16 % 2 ^ 32
  ((List.range (m.height / 16 - 1)).flatMap fun r =>
    (List.range rowBytes).map fun i => .copy (r * rowBytes + i) ((r + 1) * rowBytes + i)) ++
  fbFillRect m 0 (BitVec.ofInt 32 ((m.height / 16 : ℕ) - 1) * 16) (BitVec.ofNat 32 m.width) 16 f.bg

/-- The start of a line below, with what follows at the end of the screen -/
def fbcNewLine (f : FbCon) : List Touch × FbCon :=
  if (m.height / 16 : ℕ) ≤ f.row + 1 then (fbcScroll m f, { f with col := 0 })
  else ([], { f with col := 0, row := f.row + 1 })

/-- One parameter of `m` -/
def fbcSgrParam (num : ℕ) (fg bg : UInt8) : Option (UInt8 × UInt8) :=
  if num = 1 then some (15, bg) else sgrParam num fg bg

/-- `fbc_esc_process` -/
def fbcEscProcess (f : FbCon) (buf : List UInt8) : List Touch × FbCon :=
  match buf.getLast? with
  | some 74 =>
    if 2 ≤ buf.length ∧ buf.head? = some 50 then (fbClear m f.bg, { f with row := 0, col := 0 })
    else ([], f)
  | some 72 =>
    let pos := posParams buf.dropLast
    ([], { f with row := min (max (pos.1 - 1) 0) ((m.height / 16 : ℕ) - 1)
                  col := min (max (pos.2 - 1) 0) ((m.width / 8 : ℕ) - 1) })
  | some 109 =>
    if buf.length = 1 then ([], { f with fg := 7, bg := 0 })
    else
      let col := (sgrLoop fbcSgrParam buf 0 false f.fg f.bg).getD (f.fg, f.bg)
      ([], { f with fg := col.1, bg := col.2 })
  | _ => ([], f)

/-- The character of `fb_console_putc`, between the two calls of `fbc_cursor` -/
def fbcPutChar (f : FbCon) (c : UInt8) : List Touch × FbCon :=
  let draw (f : FbCon) (c : UInt8) := fbDrawChar m (BitVec.ofInt 32 (f.col * 8))
    (BitVec.ofInt 32 (f.row * 16)) c f.fg f.bg
  if c = 10 then fbcNewLine m f
  else if c = 13 then ([], f)
  else if c = 9 then
    let col := (f.col.tdiv 8 + 1) * 8
    if (m.width / 8 : ℕ) ≤ col then fbcNewLine m f else ([], { f with col := col })
  else if c = 8 then
    if 0 < f.col then (draw { f with col := f.col - 1 } 32, { f with col := f.col - 1 }) else ([], f)
  else if 32 ≤ c ∧ c ≤ 126 then
    if (m.width / 8 : ℕ) ≤ f.col + 1 then
      (draw f c ++ (fbcNewLine m f).1, (fbcNewLine m f).2)
    else (draw f c, { f with col := f.col + 1 })
  else ([], f)

/-- `fb_console_putc`, once the console is active -/
def fbConsolePutc (f : FbCon) (c : UInt8) : List Touch × FbCon :=
  match ansiFeed f.ansi c with
  | (.consumed, ansi) => (if ansi.phase = 1 then fbcCursor m f false else [], { f with ansi := ansi })
  | (.done, ansi) =>
    let r := fbcEscProcess m { f with ansi := ansi } ansi.buf
    (r.1 ++ fbcCursor m r.2 true, r.2)
  | (.text, _) =>
    let r := fbcPutChar m f c
    (fbcCursor m f false ++ r.1 ++ fbcCursor m r.2 true, r.2)

/-- The calls -/
inductive Draw where
  | putPixel (x y : BitVec 32) (color : UInt8)
  | clear (color : UInt8)
  | fillRect (x y w h : BitVec 32) (color : UInt8)
  | drawChar (x y : BitVec 32) (ch fg bg : UInt8)
  | puts (x y : BitVec 32) (s : List UInt8) (fg bg : UInt8)
  | putc (c : UInt8)

def draw (f : FbCon) : Draw → List Touch × FbCon
  | .putPixel x y color => (fbPutPixel m x y color, f)
  | .clear color => (fbClear m color, f)
  | .fillRect x y w h color => (fbFillRect m x y w h color, f)
  | .drawChar x y ch fg bg => (fbDrawChar m x y ch fg bg, f)
  | .puts x y s fg bg => (fbPuts m x y fg bg s, f)
  | .putc c => fbConsolePutc m f c

/-! ## Inside the framebuffer -/

variable {m}

/-- All accesses are in bounds. -/
def Inside (m : Mode) (ts : List Touch) : Prop := ∀ t ∈ ts, t.Inside m

theorem inside_nil : Inside m [] := by simp [Inside]

theorem Inside.append {ts us : List Touch} (h : Inside m ts) (h' : Inside m us) :
    Inside m (ts ++ us) := fun t ht => (List.mem_append.mp ht).elim (h t) (h' t)

theorem inside_flatMap {ι : Type} {l : List ι} {body : ι → List Touch}
    (h : ∀ i ∈ l, Inside m (body i)) : Inside m (l.flatMap body) := fun t ht => by
  obtain ⟨i, hi, ht⟩ := List.mem_flatMap.mp ht
  exact h i hi t ht

/-- The bytes of a pixel end before the next row. -/
theorem pixel_lt {col k : ℕ} (hcol : col < m.width) (hk : k < m.pxsz) :
    col * m.pxsz + k < m.pitch := by
  have h : (col + 1) * m.pxsz ≤ m.width * m.pxsz := Nat.mul_le_mul_right _ hcol
  have := m.row_le
  rw [Nat.add_mul, Nat.one_mul] at h
  omega

theorem offset_lt {row a : ℕ} (hrow : row < m.height) (ha : a < m.pitch) :
    row * m.pitch + a < m.pitch * m.height := by
  have h : (row + 1) * m.pitch ≤ m.height * m.pitch := Nat.mul_le_mul_right _ hrow
  rw [Nat.add_mul, Nat.one_mul] at h
  rw [Nat.mul_comm m.pitch]
  omega

theorem storePixel_inside {row col : ℕ} (hrow : row < m.height) (hcol : col < m.width)
    {color : UInt8} : Inside m (storePixel m row col color) := fun t ht => by
  obtain ⟨k, hk, rfl⟩ := List.mem_map.mp ht
  show row * m.pitch + col * m.pxsz + k < _
  rw [Nat.add_assoc]
  exact offset_lt hrow (pixel_lt hcol (List.mem_range.mp hk))

theorem fbPutPixel_inside {x y : BitVec 32} {color : UInt8} : Inside m (fbPutPixel m x y color) := by
  unfold fbPutPixel
  split
  · exact inside_nil
  · exact storePixel_inside (by omega) (by omega)

theorem fbClear_inside {color : UInt8} : Inside m (fbClear m color) := by
  unfold fbClear
  split
  · intro t ht
    obtain ⟨off, hoff, rfl⟩ := List.mem_map.mp ht
    exact List.mem_range.mp hoff
  · exact inside_flatMap fun y hy => inside_flatMap fun x hx =>
      storePixel_inside (List.mem_range.mp hy) (List.mem_range.mp hx)

theorem mem_loopTo {a n : BitVec 32} {bound i : ℕ} :
    i ∈ loopTo a n bound ↔ a.toNat ≤ i ∧ i < (a + n).toNat ∧ i < bound := by
  unfold loopTo
  rw [List.mem_range'_1]
  omega

theorem fbFillRect_inside {x y w h : BitVec 32} {color : UInt8} :
    Inside m (fbFillRect m x y w h color) :=
  inside_flatMap fun _ hrow => inside_flatMap fun _ hcol =>
    storePixel_inside (mem_loopTo.mp hrow).2.2 (mem_loopTo.mp hcol).2.2

theorem fbDrawChar_inside {x y : BitVec 32} {ch fg bg : UInt8} :
    Inside m (fbDrawChar m x y ch fg bg) :=
  inside_flatMap fun _ _ => inside_flatMap fun _ _ => fbPutPixel_inside

theorem fbPuts_inside {fg bg : UInt8} {y : BitVec 32} {s : List UInt8} : ∀ {x},
    Inside m (fbPuts m x y fg bg s) := by
  induction s with
  | nil => exact inside_nil
  | cons ch s ih => exact fbDrawChar_inside.append ih

theorem fbcCursor_inside {f : FbCon} {shown : Bool} : Inside m (fbcCursor m f shown) :=
  inside_flatMap fun _ _ => inside_flatMap fun _ _ => fbPutPixel_inside

/-- The text rows end before the end of the screen, even if the size of a
row wraps around. -/
theorem fbcScroll_inside {f : FbCon} : Inside m (fbcScroll m f) := by
  refine Inside.append (inside_flatMap fun r hr t ht => ?_) fbFillRect_inside
  obtain ⟨i, hi, rfl⟩ := List.mem_map.mp ht
  have hr := List.mem_range.mp hr
  have hi := List.mem_range.mp hi
  have hle : m.pitch * 16 % 2 ^ 32 ≤ m.pitch * 16 := Nat.mod_le ..
  have hrows : (r + 2) * (m.pitch * 16 % 2 ^ 32) ≤ m.height / 16 * (m.pitch * 16) :=
    Nat.mul_le_mul (by omega) hle
  have hall : m.height / 16 * (m.pitch * 16) ≤ m.pitch * m.height := by
    rw [Nat.mul_comm, Nat.mul_assoc]
    exact Nat.mul_le_mul_left _ (Nat.mul_div_le ..)
  rw [Nat.add_mul] at hrows
  constructor
  · omega
  · rw [Nat.add_mul]
    omega

theorem fbcNewLine_inside {f : FbCon} : Inside m (fbcNewLine m f).1 := by
  unfold fbcNewLine
  split
  · exact fbcScroll_inside
  · exact inside_nil

theorem fbcEscProcess_inside {f : FbCon} {buf : List UInt8} :
    Inside m (fbcEscProcess m f buf).1 := by
  unfold fbcEscProcess
  split
  · split
    · exact fbClear_inside
    · exact inside_nil
  · exact inside_nil
  · split <;> exact inside_nil
  · exact inside_nil

theorem fbcPutChar_inside {f : FbCon} {c : UInt8} : Inside m (fbcPutChar m f c).1 := by
  unfold fbcPutChar
  split
  · exact fbcNewLine_inside
  split
  · exact inside_nil
  split
  · dsimp only
    split
    · exact fbcNewLine_inside
    · exact inside_nil
  split
  · split
    · exact fbDrawChar_inside
    · exact inside_nil
  split
  · split
    · exact fbDrawChar_inside.append fbcNewLine_inside
    · exact fbDrawChar_inside
  · exact inside_nil

theorem fbConsolePutc_inside {f : FbCon} {c : UInt8} : Inside m (fbConsolePutc m f c).1 := by
  unfold fbConsolePutc
  split
  · dsimp only
    split
    · exact fbcCursor_inside
    · exact inside_nil
  · exact fbcEscProcess_inside.append fbcCursor_inside
  · exact (fbcCursor_inside.append fbcPutChar_inside).append fbcCursor_inside

/-- **Drawing stays inside the framebuffer**, in every mode, from every
state of the console, for all calls with any arguments. -/
theorem drawing_inside (m : Mode) (f : FbCon) (calls : List Draw) :
    (runTrace (draw m) f calls).1.Forall (Inside m) := by
  refine List.forall_iff_forall_mem.mpr
    (runTrace_answers (I := fun _ => True) (fun f call _ => ⟨?_, trivial⟩) calls trivial)
  cases call with
  | putPixel x y color => exact fbPutPixel_inside
  | clear color => exact fbClear_inside
  | fillRect x y w h color => exact fbFillRect_inside
  | drawChar x y ch fg bg => exact fbDrawChar_inside
  | puts x y s fg bg => exact fbPuts_inside
  | putc c => exact fbConsolePutc_inside

/-! ## Filling a rectangle -/

/-- The framebuffer after an access -/
def Touch.apply (mem : ℕ → UInt8) : Touch → ℕ → UInt8
  | .write off b => update mem off b
  | .copy dst src => update mem dst (mem src)

/-- The bytes of a pixel of the screen -/
def pixelAt (m : Mode) (mem : ℕ → UInt8) (i j : ℕ) : List UInt8 :=
  (List.range m.pxsz).map fun k => mem (j * m.pitch + i * m.pxsz + k)

/-- **Filling is exact**: the pixels of the rectangle, as integers, have
the colour, and the others are as they were. -/
def FillExact (m : Mode) (x y w h : BitVec 32) (color : UInt8) : Prop :=
  ∀ mem i j, i < m.width → j < m.height →
    pixelAt m ((fbFillRect m x y w h color).foldl Touch.apply mem) i j =
      if x.toNat ≤ i ∧ i < x.toNat + w.toNat ∧ y.toNat ≤ j ∧ j < y.toNat + h.toNat then
        (List.range m.pxsz).map (m.pixelByte color)
      else pixelAt m mem i j

/-- Stores that agree on the byte at every offset -/
theorem foldl_apply {b : ℕ → UInt8} {o : ℕ} (ts : List Touch) :
    ∀ mem, (∀ t ∈ ts, ∃ off, t = .write off (b off)) →
      ((.write o (b o)) ∈ ts → ts.foldl Touch.apply mem o = b o) ∧
      ((.write o (b o)) ∉ ts → ts.foldl Touch.apply mem o = mem o) := by
  induction ts using List.reverseRecOn with
  | nil => exact fun mem _ => ⟨fun h => absurd h List.not_mem_nil, fun _ => rfl⟩
  | append_singleton ts t ih =>
    intro mem h
    obtain ⟨off, rfl⟩ := h t (by simp)
    obtain ⟨hin, hout⟩ := ih mem fun u hu => h u (List.mem_append_left _ hu)
    rw [List.foldl_append]
    simp only [List.foldl_cons, List.foldl_nil, Touch.apply]
    by_cases ho : o = off
    · subst ho
      rw [update_self]
      exact ⟨fun _ => rfl, fun hno => absurd (by simp) hno⟩
    · rw [update_of_ne ho]
      refine ⟨fun hm => hin ?_, fun hm => hout fun hts => hm (List.mem_append_left _ hts)⟩
      rcases List.mem_append.mp hm with hm | hm
      · exact hm
      · cases List.mem_singleton.mp hm
        exact absurd rfl ho

/-- A pixel after `fb_fill_rect` -/
theorem fillRect_pixel {x y w h : BitVec 32} {color : UInt8} (mem : ℕ → UInt8) {i j : ℕ}
    (hi : i < m.width) :
    pixelAt m ((fbFillRect m x y w h color).foldl Touch.apply mem) i j =
      if i ∈ loopTo x w m.width ∧ j ∈ loopTo y h m.height then
        (List.range m.pxsz).map (m.pixelByte color)
      else pixelAt m mem i j := by
  -- an offset tells its row, its column and its byte
  have hmod : ∀ row {col k}, col < m.width → k < m.pxsz →
      (row * m.pitch + col * m.pxsz + k) / m.pitch = row ∧
      (row * m.pitch + col * m.pxsz + k) % m.pitch = col * m.pxsz + k ∧
      (col * m.pxsz + k) / m.pxsz = col ∧ (col * m.pxsz + k) % m.pxsz = k := by
    intro row col k hcol hk
    have hlt := pixel_lt hcol hk
    rw [Nat.add_assoc, Nat.mul_comm row, Nat.mul_comm col] at *
    rw [Nat.mul_add_div (by omega), Nat.div_eq_of_lt hlt, Nat.mul_add_mod, Nat.mod_eq_of_lt hlt,
      Nat.mul_add_div (by omega), Nat.div_eq_of_lt hk, Nat.mul_add_mod, Nat.mod_eq_of_lt hk]
    simp
  have hmem : ∀ {t}, t ∈ fbFillRect m x y w h color ↔ ∃ row ∈ loopTo y h m.height,
      ∃ col ∈ loopTo x w m.width, ∃ k < m.pxsz,
        .write (row * m.pitch + col * m.pxsz + k) (m.pixelByte color k) = t := by
    simp [fbFillRect, storePixel]
  have hbytes : ∀ t ∈ fbFillRect m x y w h color,
      ∃ off, t = .write off (m.pixelByte color (off % m.pitch % m.pxsz)) := by
    intro t ht
    obtain ⟨row, -, col, hcol, k, hk, rfl⟩ := hmem.mp ht
    obtain ⟨-, h₂, -, h₄⟩ := hmod row (mem_loopTo.mp hcol).2.2 hk
    exact ⟨_, by rw [h₂, h₄]⟩
  have hat : ∀ k < m.pxsz, (fbFillRect m x y w h color).foldl Touch.apply mem
      (j * m.pitch + i * m.pxsz + k) = if i ∈ loopTo x w m.width ∧ j ∈ loopTo y h m.height then
        m.pixelByte color k else mem (j * m.pitch + i * m.pxsz + k) := by
    intro k hk
    obtain ⟨h₁, h₂, h₃, h₄⟩ := hmod j hi hk
    obtain ⟨hin, hout⟩ := foldl_apply (o := j * m.pitch + i * m.pxsz + k) _ mem hbytes
    rw [h₂, h₄] at hin hout
    split
    · rename_i hij
      exact hin (hmem.mpr ⟨j, hij.2, i, hij.1, k, hk, rfl⟩)
    rename_i hij
    refine hout fun ht => hij ?_
    obtain ⟨row, hrow, col, hcol, k', hk', he⟩ := hmem.mp ht
    obtain ⟨g₁, g₂, g₃, -⟩ := hmod row (mem_loopTo.mp hcol).2.2 hk'
    injection he with he
    rw [he, h₁] at g₁
    rw [he, h₂] at g₂
    rw [← g₂, h₃] at g₃
    exact ⟨g₃ ▸ hcol, g₁ ▸ hrow⟩
  unfold pixelAt
  rw [List.map_congr_left fun k hk => hat k (List.mem_range.mp hk)]
  split <;> rfl

/-- **A rectangle is filled exactly if and only if** none of it is on the
screen, or it ends below `2 ^ 32` in both directions. -/
theorem fillRect_exact_iff (m : Mode) (x y w h : BitVec 32) (color : UInt8) :
    FillExact m x y w h color ↔
      m.width ≤ x.toNat ∨ m.height ≤ y.toNat ∨ w = 0 ∨ h = 0 ∨
        x.toNat + w.toNat < 2 ^ 32 ∧ y.toNat + h.toNat < 2 ^ 32 := by
  have hzero : ∀ {a : BitVec 32}, a ≠ 0 → 0 < a.toNat := fun ha =>
    Nat.pos_of_ne_zero fun hz => ha (BitVec.eq_of_toNat_eq hz)
  have hx := x.isLt
  have hw := w.isLt
  have hy := y.isLt
  have hh := h.isLt
  refine ⟨fun hexact => ?_, fun hcond mem i j hi hj => ?_⟩
  · by_contra hno
    simp only [not_or, not_and_or] at hno
    obtain ⟨hxw, hyh, hw0, hh0, hwrap⟩ := hno
    have hw1 := hzero hw0
    have hh1 := hzero hh0
    -- the first pixel is not drawn, whatever it holds
    have hpix := hexact (fun _ => m.pixelByte color 0 + 1) x.toNat y.toNat (by omega) (by omega)
    rw [fillRect_pixel _ (by omega), if_neg, if_pos (by omega)] at hpix
    · have hbyte := congrArg List.head? hpix
      obtain ⟨n, hn⟩ : ∃ n, m.pxsz = n + 1 := ⟨m.pxsz - 1, by have := m.pxsz_pos; omega⟩
      rw [pixelAt, hn, List.range_succ_eq_map] at hbyte
      exact absurd (Option.some.inj hbyte) (by simp)
    · rw [mem_loopTo, mem_loopTo, BitVec.toNat_add, BitVec.toNat_add]
      omega
  rw [fillRect_pixel mem hi]
  refine if_congr ?_ rfl rfl
  rw [mem_loopTo, mem_loopTo, BitVec.toNat_add, BitVec.toNat_add]
  rcases hcond with h₀ | h₀ | rfl | rfl | h₀
  · omega
  · omega
  · simp
    omega
  · simp
    omega
  · omega

/-- A screen of two pixels -/
def twoPixels : Mode :=
  ⟨2, 1, 2, 1, fun _ => 0, fun _ _ => 0, by decide, by decide, Nat.one_pos, by decide⟩

/-- **A rectangle that ends at `2 ^ 32` is not drawn**, though its first
pixel is on the screen. -/
theorem wide_rectangle_lost : ¬ FillExact twoPixels 1 0 0xffffffff 1 5 := fun h =>
  absurd (h (fun _ => 0) 1 0 (by decide) (by decide)) (by decide)

end Lnxrm.Console
