import Lnxrm.Exec.Elf

/-!
# The permissions of segments

A page is mapped by the first segment that touches it, with that segment's
permission, and the later ones leave it. So a writable segment is writable
exactly where each of its pages is writable already or first touched by a
writable segment (`writable_honoured_iff`).
-/

namespace Lnxrm.Exec

open Vmm

variable {A : Type} {B : Buddy A} {s s' : Vm A} {root : ℕ} {img : List UInt8}

/-- The first segment with a page at an address -/
def firstOn (phs : List Phdr) (x : ℕ) : Option Phdr :=
  phs.find? fun ph => decide (ph.start ≤ x ∧ x < ph.stop)

/-- **The permission of an address** is that of its page before, or of the
first segment there. -/
theorem loadAll_permission (img : List UInt8) {x : ℕ} (hx : x < userMaxVma) (phs : List Phdr) : ∀ σ : Space,
    (loadAll img phs σ x).map Prod.fst =
      ((σ x).map Prod.fst).or ((firstOn phs x).map Phdr.writable) := by
  induction phs with
  | nil =>
    intro σ
    show (σ x).map Prod.fst = ((σ x).map Prod.fst).or none
    rw [Option.or_none]
  | cons ph phs ih =>
    intro σ
    -- a copy leaves the permissions
    have hload : (ph.load img σ x).map Prod.fst =
        (σ.addPages ph.writable ph.start ph.stop x).map Prod.fst := by
      unfold Phdr.load Space.write
      split
      · cases σ.addPages ph.writable ph.start ph.stop x with
        | none => rfl
        | some y => rfl
      · rfl
    show (loadAll img phs (ph.load img σ) x).map Prod.fst = _
    rw [ih, hload]
    unfold Space.addPages firstOn
    cases σ x with
    | some y => rfl
    | none =>
      simp only [Option.none_or, Option.map_none]
      by_cases hin : ph.start ≤ x ∧ x < ph.stop
      · rw [List.find?_cons_of_pos (by simpa using hin), if_pos ⟨hin.1, hin.2, hx⟩]
        rfl
      · rw [List.find?_cons_of_neg (by simpa using hin), if_neg (fun h => hin ⟨h.1, h.2.1⟩)]
        rfl

theorem writable_iff_space {a : ℕ} :
    Writable s root a ↔ (space s root a).map Prod.fst = some true := by
  unfold Writable space
  cases pageEntry s root (BitVec.ofNat 64 a) with
  | none => simp
  | some r => simp

/-- The bytes of the writable segments -/
def WritableByte (img : List UInt8) (x : ℕ) : Prop :=
  ∃ ph ∈ segments img, ph.writable = true ∧ ph.pVaddr ≤ x ∧ x < ph.pVaddr + ph.pMemsz

/-- **The condition**: the page is writable already, or it is not there and
the first segment on it is writable. -/
def FirstWritable (s : Vm A) (root : ℕ) (img : List UInt8) (x : ℕ) : Prop :=
  Writable s root x ∨ (pageEntry s root (BitVec.ofNat 64 x) = none ∧
    ∃ ph, firstOn (segments img) x = some ph ∧ ph.writable = true)

/-- **Writable segments are writable** exactly if the first segment on each
of their pages is. -/
theorem writable_honoured_iff {entry brkEnd brk : ℕ} (h : Sound B root s)
    (hok : elfLoad B root img brkEnd s = .ok (entry, brk, s')) (hentry : entry ≠ 0)
    (hends : ∀ ph ∈ segments img, ph.pVaddr + ph.pMemsz ≤ userMaxVma) :
    (∀ x, WritableByte img x → Writable s' root x) ↔
      ∀ x, WritableByte img x → FirstWritable s root img x := by
  obtain ⟨-, -, hloaded, -, hsegs⟩ := elfLoad_loaded h hok hentry
  refine forall_congr' fun x => imp_congr_right fun hx => ?_
  obtain ⟨ph, hph, -, hlo, hhi⟩ := hx
  have hend := hends ph hph
  have hbase := (Phdr.bounds (hsegs ph hph).1 hend).1
  have hmax : x < userMaxVma := by omega
  have hslot : InSlot x := by
    unfold userMaxVma at hmax
    exact ⟨by omega, by omega⟩
  have hperm := loadAll_permission img hmax (segments img) (space s root)
  rw [writable_iff_space, hloaded.space x hslot, hperm]
  unfold FirstWritable
  rw [writable_iff_space]
  unfold space
  cases pageEntry s root (BitVec.ofNat 64 x) with
  | some r => simp
  | none => simp [Option.map_eq_some_iff]

/-- Two segments on one page -/
def sharedImage (firstFlags secondFlags : ℕ) : List UInt8 :=
  elfImage 0x7f8000400000
    [⟨1, firstFlags, 0, 0x7f8000400000, 0, 16⟩, ⟨1, secondFlags, 0, 0x7f8000400800, 0, 16⟩] []

/-- A writable segment and then one that is not: the page is writable. -/
theorem sharedImage_writable :
    ∃ s', elfLoad (Buddy.least 64 (by decide)) 1 (sharedImage 6 5) 0 (emptySpace {2, 3, 4, 5}) =
        .ok (0x7f8000400000, 0x7f8000401000, s') ∧
      ∀ x, WritableByte (sharedImage 6 5) x → Writable s' 1 x := by
  have hsegs : segments (sharedImage 6 5) =
      [⟨1, 6, 0, 0x7f8000400000, 0, 16⟩, ⟨1, 5, 0, 0x7f8000400800, 0, 16⟩] := by decide +kernel
  have hrun : ((elfLoad (Buddy.least 64 (by decide)) 1 (sharedImage 6 5) 0
      (emptySpace {2, 3, 4, 5})).toOption.map fun r => (r.1, r.2.1)) =
      some (0x7f8000400000, 0x7f8000401000) := by decide +kernel
  obtain ⟨hsound, hleaf⟩ := emptySpace_sound {2, 3, 4, 5} (by decide)
  cases hload : elfLoad (Buddy.least 64 (by decide)) 1 (sharedImage 6 5) 0
      (emptySpace {2, 3, 4, 5}) with
  | error e =>
    rw [hload] at hrun
    cases hrun
  | ok r =>
    obtain ⟨entry, brk, s'⟩ := r
    rw [hload] at hrun
    obtain ⟨rfl, rfl⟩ : entry = 0x7f8000400000 ∧ brk = 0x7f8000401000 :=
      Prod.mk.inj (Option.some.inj hrun)
    refine ⟨s', rfl, (writable_honoured_iff hsound hload (by decide)
      (by rw [hsegs]; decide)).mpr ?_⟩
    rintro x ⟨ph, hph, hw, hlo, hhi⟩
    rw [hsegs, List.mem_cons, List.mem_singleton] at hph
    -- only the first segment is writable
    have hfirst : ph = ⟨1, 6, 0, 0x7f8000400000, 0, 16⟩ := by
      rcases hph with rfl | rfl
      · rfl
      · exact absurd hw (by decide)
    subst hfirst
    dsimp only at hlo hhi
    refine Or.inr ⟨?_, ⟨1, 6, 0, 0x7f8000400000, 0, 16⟩, ?_, by decide⟩
    · rw [pageEntry_slot hsound.tree ⟨by unfold userBase; omega, by omega⟩, hleaf]
      rfl
    · unfold firstOn
      rw [hsegs, List.find?_cons_of_pos]
      have hstart : (⟨1, 6, 0, 0x7f8000400000, 0, 16⟩ : Phdr).start = 0x7f8000400000 := by decide
      have hstop : (⟨1, 6, 0, 0x7f8000400000, 0, 16⟩ : Phdr).stop = 0x7f8000401000 := by decide
      rw [hstart, hstop, decide_eq_true_eq]
      omega

/-- **A writable segment behind one that is not**: its byte at
`0x7f8000400800` is on a page that user mode cannot write. -/
theorem sharedImage_not_writable :
    ∃ s', elfLoad (Buddy.least 64 (by decide)) 1 (sharedImage 5 6) 0 (emptySpace {2, 3, 4, 5}) =
        .ok (0x7f8000400000, 0x7f8000401000, s') ∧
      WritableByte (sharedImage 5 6) 0x7f8000400800 ∧ ¬ Writable s' 1 0x7f8000400800 := by
  have hrun : ((elfLoad (Buddy.least 64 (by decide)) 1 (sharedImage 5 6) 0
      (emptySpace {2, 3, 4, 5})).toOption.map fun r =>
        (r.1, r.2.1, (pageEntry r.2.2 1 0x7f8000400800).map fun e => userWritable e.1)) =
      some (0x7f8000400000, 0x7f8000401000, some false) := by decide +kernel
  have hseg : (⟨1, 6, 0, 0x7f8000400800, 0, 16⟩ : Phdr) ∈ segments (sharedImage 5 6) := by
    decide +kernel
  cases hload : elfLoad (Buddy.least 64 (by decide)) 1 (sharedImage 5 6) 0
      (emptySpace {2, 3, 4, 5}) with
  | error e =>
    rw [hload] at hrun
    cases hrun
  | ok r =>
    obtain ⟨entry, brk, s'⟩ := r
    rw [hload] at hrun
    obtain ⟨he, hrest⟩ := Prod.mk.inj (Option.some.inj hrun)
    obtain ⟨hb, hflags⟩ := Prod.mk.inj hrest
    obtain rfl : entry = 0x7f8000400000 := he
    obtain rfl : brk = 0x7f8000401000 := hb
    refine ⟨s', rfl, ⟨_, hseg, by decide, by decide, by decide⟩, ?_⟩
    rintro ⟨r, hr, hw⟩
    have hr' : pageEntry s' 1 0x7f8000400800 = some r := hr
    have hflags' : (pageEntry s' 1 0x7f8000400800).map (fun e => userWritable e.1) = some false :=
      hflags
    rw [hr', Option.map_some, hw] at hflags'
    exact absurd (Option.some.inj hflags') (by decide)

end Lnxrm.Exec
