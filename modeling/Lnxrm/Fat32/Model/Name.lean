import Lnxrm.Fat32.Model.Disk

/-!
# FAT32 — names and paths

The name handling of `include/fat32_priv.h`, `fat32_dir.c` and
`fat32_meta.c`: 8.3 short names, long-name (LFN) records, and the
splitting of paths. A string is the list of its bytes without the
terminating NUL. `char` is signed, so a stored byte of `0x80` or more
never equals an unsigned byte of a short name after promotion to `int`.
-/

namespace Lnxrm.Fat32

/-- The bytes of a string, without the terminating NUL. -/
abbrev Str := List UInt8

/-- A string as a caller can pass it: no byte of it is NUL. -/
abbrev CStr := { s : Str // (0 : UInt8) ∉ s }

/-- The string a buffer holds: its bytes up to the first NUL. -/
def cstr (s : Str) : Str := s.takeWhile (· != 0)

/-- `ascii_toupper` -/
def asciiToupper (c : UInt8) : UInt8 := if 97 ≤ c ∧ c ≤ 122 then c - 32 else c

/-- `ascii_tolower` -/
def asciiTolower (c : UInt8) : UInt8 := if 65 ≤ c ∧ c ≤ 90 then c + 32 else c

/-- `!strcasecmp(a, b)` -/
def strcaseEq (a b : Str) : Bool := a.map asciiTolower == b.map asciiTolower

/-- `name_to_short`: at most eight bytes up to the first dot, and three
after it if the dot is where the copying stopped. -/
def nameToShort (s : Str) : Fin 11 → UInt8 :=
  let base := (s.takeWhile (· != 46)).take 8
  let ext := if (s.drop base.length).head? = some 46 then s.drop (base.length + 1) else []
  fun i =>
    if i.val < 8 then (base.map asciiToupper).getD i.val 32
    else (ext.map asciiToupper).getD (i.val - 8) 32

/-- `fat_short_to_name` -/
def fatShortToName (sn : Fin 11 → UInt8) : Str :=
  let bytes := (List.finRange 11).map sn
  let base := (bytes.take 8).takeWhile (· != 32)
  let ext := (bytes.drop 8).takeWhile (· != 32)
  cstr (base.map asciiTolower ++ if ext = [] then [] else 46 :: ext.map asciiTolower)

/-- `fat_name_eq_short` -/
def fatNameEqShort (want : Str) (e : Dirent) : Bool :=
  (List.finRange 11).all fun i => e.name i < 0x80 && asciiToupper (e.name i) == nameToShort want i

/-! ## Long names -/

/-- `LFN_ENTRIES_MAX` -/
def lfnEntriesMax : ℕ := 20

/-- Where the thirteen characters of a long-name record lie. -/
def lfnOff : List (Fin 32 × Fin 32) :=
  [(1, 2), (3, 4), (5, 6), (7, 8), (9, 10), (14, 15), (16, 17), (18, 19), (20, 21), (22, 23),
    (24, 25), (28, 29), (30, 31)]

/-- `struct lfn_state` -/
structure LfnState where
  longname : ℕ → UInt8
  seqMax : ℕ
  nameEnd : ℕ

/-- `lfn_reset` -/
def lfnReset (lf : LfnState) : LfnState where
  longname := Function.update lf.longname 0 0
  seqMax := 0
  nameEnd := 0

/-- The characters of one long-name record, cut to their low bytes, up to
the padding. -/
def lfnPiece (e : Dirent) : Str :=
  ((lfnOff.map fun o => (e o.1, e o.2)).takeWhile fun ch =>
    ch != (0xFF, 0xFF) && ch != (0, 0)).map Prod.fst

/-- The branch of `fat_scan_dir` for a long-name record. -/
def lfnAdd (lf : LfnState) (e : Dirent) : LfnState :=
  let seq := (e 0 &&& 0x1F).toNat
  if 1 ≤ seq ∧ seq ≤ 20 then
    let piece := lfnPiece e
    let base := (seq - 1) * 13
    let lf :=
      if base + piece.length < 256 then
        { lf with
          longname := fun i =>
            if base ≤ i ∧ i < base + piece.length then piece.getD (i - base) 0 else lf.longname i
          nameEnd := max lf.nameEnd (base + piece.length) }
      else lf
    { lf with seqMax := max lf.seqMax seq }
  else lf

/-- The name `fat_scan_dir` hands to its callback with a record. -/
def lfnName (lf : LfnState) (e : Dirent) : Str :=
  if 0 < lf.seqMax ∧ 0 < lf.nameEnd then
    cstr ((List.range (min lf.nameEnd 255)).map lf.longname)
  else fatShortToName e.name

/-- `fat_lfn_count`; `none` is a negative result. -/
def fatLfnCount (name : Str) : Option ℕ :=
  if name.length = 0 ∨ 255 < name.length then none
  else if strcaseEq (fatShortToName (nameToShort name)) name then some 0
  else some ((name.length + 12) / 13)

/-- `lfn_checksum` -/
def lfnChecksum (sn : Fin 11 → UInt8) : UInt8 :=
  (List.finRange 11).foldl (fun sum i => ((sum &&& 1) <<< 7) + (sum >>> 1) + sn i) 0

/-- The two bytes of the character with index `idx` of a long name. -/
def lfnChar (name : Str) (idx : ℕ) : UInt8 × UInt8 :=
  if idx < name.length then (name.getD idx 0, 0)
  else if idx = name.length then (0, 0)
  else (0xFF, 0xFF)

/-- `lfn_fill` -/
def lfnFill (seq total : ℕ) (sum : UInt8) (name : Str) : Dirent := fun i =>
  if i = 0 then UInt8.ofNat (if seq = total then seq ||| 0x40 else seq)
  else if i = 11 then attrLfn
  else if i = 13 then sum
  else
    match lfnOff.findIdx? (fun o => o.1 = i), lfnOff.findIdx? (fun o => o.2 = i) with
    | some k, _ => (lfnChar name ((seq - 1) * 13 + k)).1
    | none, some k => (lfnChar name ((seq - 1) * 13 + k)).2
    | none, none => 0

/-! ## Paths -/

/-- The components of a path: what lies between its slashes. -/
def pathComponents (path : Str) : List Str := (path.splitOn 47).filter (· ≠ [])

/-- The path ends in a slash. -/
def trailingSlash (path : Str) : Bool := path.getLast? == some 47

/-- The part after the last slash, `strrchr(p, '/') + 1` or `p`. -/
def pathTail (path : Str) : Str := (path.reverse.takeWhile (· != 47)).reverse

/-- The part before the last slash, empty if there is none. -/
def pathParent (path : Str) : Str := path.take (path.length - (pathTail path).length - 1)

/-- `path_trim` -/
def pathTrim (path : Str) : Str :=
  let trimmed := (path.reverse.dropWhile (· == 47)).reverse
  if trimmed = [] then path.take 1 else trimmed

end Lnxrm.Fat32
