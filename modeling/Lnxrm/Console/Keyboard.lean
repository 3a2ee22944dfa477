import Lnxrm.Common.Run
import Mathlib.Data.Nat.Notation

/-!
# The keyboard's modifier keys

`kbd_process_sc` of `kernel/isr.c` against the keys that are down. One
flag stands for both shift keys and for the fake shifts of the navigation
keys; it is right exactly while these do not overlap
(`modifiers_right_iff`).
-/

namespace Lnxrm.Console

/-- `shift_pressed`, `capslock_on` and `kbd_ext` -/
structure Kbd where
  shiftPressed : Bool
  capslockOn : Bool
  kbdExt : Bool

def chars (s : String) : List ℕ := s.toList.map Char.toNat

def kmap : List ℕ :=
  [0, 27] ++ chars "1234567890-=\x08\tqwertyuiop[]\n" ++ [0] ++ chars "asdfghjkl;'`" ++ [0] ++
    chars "\\zxcvbnm,./" ++ [0, 42, 0, 32, 0]

def kmapShift : List ℕ :=
  [0, 27] ++ chars "!@#$%^&*()_+\x08\tQWERTYUIOP\x7b\x7d\n" ++ [0] ++ chars "ASDFGHJKL:\x22~" ++ [0] ++
    chars "|ZXCVBNM<>?" ++ [0, 42, 0, 32, 0]

/-- The other case of a letter -/
def otherCase (c : ℕ) : ℕ :=
  if 97 ≤ c ∧ c ≤ 122 then c - 32 else if 65 ≤ c ∧ c ≤ 90 then c + 32 else c

/-- `kbd_process_sc` of a byte that is no prefix, with the arguments of
`input_push` and `keyq_push` -/
def kbdCode (k : Kbd) (release : Bool) (code : ℕ) : (Option ℕ × Option ℕ) × Kbd :=
  let k' := { k with kbdExt := false }
  if code = 0x2a ∨ code = 0x36 then ((none, none), { k' with shiftPressed := !release })
  else if code = 0x3a then
    ((none, none), if release then k' else { k' with capslockOn := !k.capslockOn })
  else if release then ((none, none), k')
  else if k.kbdExt = false ∧ kmap.getD code 0 ≠ 0 then
    let c := if k.shiftPressed then kmapShift.getD code 0 else kmap.getD code 0
    let c := if k.capslockOn then otherCase c else c
    ((some c, some (code * 0x100 + c)), k')
  else ((none, some (k.kbdExt.toNat * 0x10000 + code * 0x100)), k')

/-- `kbd_process_sc` -/
def kbdProcessSc (k : Kbd) (sc : ℕ) : (Option ℕ × Option ℕ) × Kbd :=
  if sc = 0xe0 then ((none, none), { k with kbdExt := true })
  else kbdCode k (0x80 ≤ sc) (sc % 0x80)

/-! ## The keys -/

/-- A make or break code of a set-1 keyboard. `0x60` would be the prefix,
and Caps Lock has none. -/
structure Stroke where
  ext : Bool
  code : ℕ
  release : Bool
  lt : code < 0x80
  ne : code ≠ 0x60
  caps : ext = true → code ≠ 0x3a

/-- The keys that are down, and Caps Lock -/
structure Keys where
  left : Bool
  right : Bool
  caps : Bool

def Keys.shift (p : Keys) : Bool := p.left || p.right

/-- A stroke with a prefix is that of no modifier key. -/
def Keys.next (p : Keys) (s : Stroke) : Keys :=
  if s.ext then p
  else if s.code = 0x2a then { p with left := !s.release }
  else if s.code = 0x36 then { p with right := !s.release }
  else if s.code = 0x3a ∧ s.release = false then { p with caps := !p.caps }
  else p

/-- The bytes of a stroke, one after the other -/
def strike (k : Kbd) (s : Stroke) : (Option ℕ × Option ℕ) × Kbd :=
  kbdProcessSc (if s.ext then (kbdProcessSc k 0xe0).2 else k)
    (s.code + if s.release then 0x80 else 0)

/-- The driver and the keys after a stroke -/
def typed (x : Kbd × Keys) (s : Stroke) : (Option ℕ × Option ℕ) × (Kbd × Keys) :=
  ((strike x.1 s).1, (strike x.1 s).2, x.2.next s)

/-- The flags are those of the keys. -/
def Agree (k : Kbd) (p : Keys) : Prop := k.shiftPressed = p.shift ∧ k.capslockOn = p.caps

/-- **A stroke is understood**: the flags are right after each of its
bytes, and a letter is pushed in its case. -/
def Understood (x : Kbd × Keys) (s : Stroke) : Prop :=
  (s.ext = true → Agree (kbdProcessSc x.1 0xe0).2 x.2) ∧ Agree (strike x.1 s).2 (x.2.next s) ∧
  (s.ext = false → s.release = false → 97 ≤ kmap.getD s.code 0 → kmap.getD s.code 0 ≤ 122 →
    (strike x.1 s).1.1 = some
      (if x.2.shift ^^ x.2.caps then kmap.getD s.code 0 - 32 else kmap.getD s.code 0))

/-- **No overlap**: a shift key is released while the other is up, and a
fake shift says what is the case. -/
def Apart (x : Kbd × Keys) (s : Stroke) : Prop :=
  if s.ext then s.code = 0x2a ∨ s.code = 0x36 → x.2.shift = !s.release
  else s.release = true → (s.code = 0x2a → x.2.right = false) ∧ (s.code = 0x36 → x.2.left = false)

theorem kmapShift_letter : ∀ code < 0x80, 97 ≤ kmap.getD code 0 → kmap.getD code 0 ≤ 122 →
    kmapShift.getD code 0 = kmap.getD code 0 - 32 ∧ code ≠ 0x2a ∧ code ≠ 0x36 ∧ code ≠ 0x3a := by
  decide +kernel

theorem strike_code {k : Kbd} (hk : k.kbdExt = false) (s : Stroke) :
    strike k s = kbdCode { k with kbdExt := s.ext } s.release s.code := by
  obtain ⟨ext, code, release, hlt, hne, -⟩ := s
  have hsc : ∀ k', kbdProcessSc k' (code + if release then 0x80 else 0) = kbdCode k' release code := by
    intro k'
    unfold kbdProcessSc
    cases release with
    | false => rw [if_neg (by simp; omega)]; simp [Nat.mod_eq_of_lt hlt, Nat.not_le.mpr hlt]
    | true => rw [if_neg (by simp; omega)]; simp [Nat.mod_eq_of_lt hlt]
  obtain ⟨shiftPressed, capslockOn, kbdExt⟩ := k
  obtain rfl : kbdExt = false := hk
  cases ext <;> exact hsc _

/-- **One stroke** -/
theorem understood_iff {x : Kbd × Keys} (h : Agree x.1 x.2 ∧ x.1.kbdExt = false) (s : Stroke) :
    (Understood x s ↔ Apart x s) ∧ (strike x.1 s).2.kbdExt = false := by
  obtain ⟨k, p⟩ := x
  obtain ⟨⟨hs, hc⟩, hext⟩ : (k.shiftPressed = p.shift ∧ k.capslockOn = p.caps) ∧ k.kbdExt = false := h
  obtain ⟨hshift, hcaps, hfalse⟩ : ((strike k s).2.shiftPressed = (p.next s).shift ↔ Apart (k, p) s) ∧
      (strike k s).2.capslockOn = (p.next s).caps ∧ (strike k s).2.kbdExt = false := by
    rw [strike_code hext]
    obtain ⟨ext, code, release, -, -, hcapsKey⟩ := s
    simp only [kbdCode, Keys.next, Keys.shift, Apart, hs, hc]
    grind
  refine ⟨⟨fun hu => hshift.mp hu.2.1.1, fun ha => ⟨fun _ => ⟨hs, hc⟩, ⟨hshift.mpr ha, hcaps⟩,
    fun he hr hlo hhi => ?_⟩⟩, hfalse⟩
  obtain ⟨hup, h₁, h₂, h₃⟩ := kmapShift_letter s.code s.lt hlo hhi
  show (strike k s).1.1 = some (if p.shift ^^ p.caps then _ else _)
  rw [strike_code hext, he, hr]
  simp only [kbdCode, hup, hs, hc]
  cases p.shift <;> cases p.caps <;> grind [otherCase]

/-- **The modifier state is right, stroke after stroke, exactly if** the
strokes keep apart. -/
theorem modifiers_right_iff (ss : List Stroke) :
    EachStep typed Understood (⟨false, false, false⟩, ⟨false, false, false⟩) ss ↔
      EachStep typed Apart (⟨false, false, false⟩, ⟨false, false, false⟩) ss := by
  refine eachStep_iff (I := fun x => Agree x.1 x.2 ∧ x.1.kbdExt = false)
    (fun x s h => (understood_iff h s).1) (fun x s h ha => ?_) ss ⟨⟨rfl, rfl⟩, rfl⟩
  obtain ⟨hiff, hext⟩ := understood_iff h s
  exact ⟨(hiff.mpr ha).2.1, hext⟩

/-- The left shift key, pressed and released, and the right one, pressed -/
def overlap : List Stroke :=
  [⟨false, 0x2a, false, by decide, by decide, by decide⟩,
    ⟨false, 0x36, false, by decide, by decide, by decide⟩,
    ⟨false, 0x2a, true, by decide, by decide, by decide⟩]

/-- **The left key is released while the right one is down**: the flag is
cleared. -/
theorem right_shift_forgotten :
    ¬ EachStep typed Understood (⟨false, false, false⟩, ⟨false, false, false⟩) overlap :=
  fun h => absurd h.2.2.1.2.1.1 (by decide)

end Lnxrm.Console
