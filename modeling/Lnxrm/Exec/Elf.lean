import Lnxrm.Exec.Helpers.Loading

/-!
# The loader loads what the file says

Every number of the headers is arbitrary. `elf_load` reads nothing outside
the image (`elfLoad_inside`), and the segments of an image it accepts are in
memory as the file has them, followed by zeros, whatever pages they share
(`elf_loads_image`).
-/

namespace Lnxrm.Exec

open Vmm List

variable {A : Type} {B : Buddy A} {s s' : Vm A} {root : ℕ} {img : List UInt8}

/-! ## Nothing outside the image is read -/

/-- The loader stops in a panic or at a page that is not there, and not for
another reason. -/
def Broken (e : Stop A) : Prop := (∃ s, e = .panic s) ∨ ∃ a s, e = .fault a s

theorem forPages_broken {w : Bool} {e : Stop A} (pages : List ℕ) : ∀ {s : Vm A},
    forPages (segmentPage B root w) pages s = .error e → Broken e := by
  induction pages with
  | nil => intro s h; cases h
  | cons page pages ih =>
    intro s h
    rw [forPages] at h
    cases hbody : segmentPage B root w page s with
    | error e' =>
      rw [hbody] at h
      cases h
      unfold segmentPage freshPage at hbody
      split at hbody
      · cases hbody
      · split at hbody
        · cases hbody
        · split at hbody
          · cases hbody
            exact Or.inl ⟨_, rfl⟩
          · cases hbody
    | ok r =>
      obtain ⟨ok, s'⟩ := r
      rw [hbody] at h
      cases ok with
      | false => cases h
      | true => exact ih h

theorem loadList_broken {e : Stop A} (phs : List Phdr) : ∀ {m : ℕ} {s : Vm A},
    loadList B root img phs m s = .error e → Broken e := by
  induction phs with
  | nil => intro m s h; cases h
  | cons ph phs ih =>
    intro m s h
    rw [loadList] at h
    cases hmal : ph.malformed img.length with
    | true =>
      rw [hmal, if_pos rfl] at h
      cases h
    | false =>
      rw [hmal, if_neg Bool.false_ne_true] at h
      cases hloop : forPages (segmentPage B root ph.writable) (pagesFrom ph.start ph.stop) s with
      | error e' =>
        rw [hloop] at h
        cases h
        exact forPages_broken _ hloop
      | ok r =>
        obtain ⟨ok, s₁⟩ := r
        rw [hloop] at h
        cases ok with
        | false => cases h
        | true =>
          dsimp only at h
          cases hst : storeUser s₁ root ph.pVaddr (ph.bytes img) with
          | error e' =>
            rw [hst] at h
            cases h
            exact Or.inr (storeBytes_error _ hst)
          | ok s₂ =>
            rw [hst] at h
            exact ih h

/-- **`elf_load` reads no byte outside the image.** -/
theorem elfLoad_inside (B : Buddy A) (root : ℕ) (img : List UInt8) (brkEnd : ℕ) (s : Vm A) :
    elfLoad B root img brkEnd s ≠ .error .outside := by
  rw [elfLoad_eq]
  by_cases hok : HeaderOk img
  · rw [if_pos hok]
    cases hload : loadList B root img (segments img) 0 s with
    | error e =>
      intro h
      cases h
      rcases loadList_broken _ hload with ⟨s, he⟩ | ⟨a, s, he⟩
      · cases he
      · cases he
    | ok r => exact fun h => by cases h
  · rw [if_neg hok]
    exact fun h => by cases h

/-! ## What a byte is after loading -/

/-- The byte is not one that a segment's bytes are copied to. -/
def Phdr.Misses (ph : Phdr) (x : ℕ) : Prop := x < ph.pVaddr ∨ ph.pVaddr + ph.pFilesz ≤ x

variable {ph : Phdr} {phs : List Phdr} {x : ℕ} {σ : Space}

theorem Phdr.load_of_misses (hmal : ph.malformed img.length = false) (hx : ph.Misses x) :
    ph.load img σ x = σ.addPages ph.writable ph.start ph.stop x := by
  unfold Phdr.load Space.write
  rw [(Phdr.bytes_in hmal).2.2, if_neg]
  unfold Phdr.Misses at hx
  omega

theorem loadAll_keeps {y : Bool × UInt8} (phs : List Phdr) : ∀ {σ : Space}, σ x = some y →
    (∀ ph ∈ phs, ph.malformed img.length = false ∧ ph.Misses x) → loadAll img phs σ x = some y := by
  induction phs with
  | nil => intro σ h _; exact h
  | cons ph phs ih =>
    intro σ h hall
    obtain ⟨hmal, hmiss⟩ := hall ph (mem_cons_self ..)
    refine ih ?_ fun q hq => hall q (mem_cons_of_mem _ hq)
    show ph.load img σ x = some y
    rw [Phdr.load_of_misses hmal hmiss]
    unfold Space.addPages
    rw [h]
    rfl

/-- A byte that is zero or not there yet. -/
def Blank (σ : Space) (x : ℕ) : Prop := ∀ y, σ x = some y → y.2 = 0

theorem loadAll_blank (phs : List Phdr) : ∀ {σ : Space}, Blank σ x →
    (∀ ph ∈ phs, ph.malformed img.length = false ∧ ph.Misses x) → Blank (loadAll img phs σ) x := by
  induction phs with
  | nil => intro σ h _; exact h
  | cons ph phs ih =>
    intro σ h hall
    obtain ⟨hmal, hmiss⟩ := hall ph (mem_cons_self ..)
    refine ih (σ := loadAll img [ph] σ) ?_ fun q hq => hall q (mem_cons_of_mem _ hq)
    intro y hy
    rw [show loadAll img [ph] σ x = ph.load img σ x from rfl, Phdr.load_of_misses hmal hmiss] at hy
    unfold Space.addPages at hy
    cases hσ : σ x with
    | some z =>
      rw [hσ] at hy
      exact h y (by rw [hσ]; exact hy)
    | none =>
      rw [hσ, Option.none_or] at hy
      split at hy
      · cases hy
        rfl
      · cases hy

theorem Phdr.bounds (hskip : ph.skipped = false) (hend : ph.pVaddr + ph.pMemsz ≤ userMaxVma) :
    userBase ≤ ph.pVaddr ∧ 0 < ph.pMemsz ∧ ph.start ≤ ph.pVaddr ∧
      ph.pVaddr + ph.pMemsz ≤ ph.stop ∧ ph.stop ≤ userMaxVma ∧ ph.stop % 4096 = 0 := by
  simp only [Phdr.skipped, Bool.or_eq_false_iff, decide_eq_false_iff_not, not_lt, not_le] at hskip
  obtain ⟨⟨⟨-, hpos⟩, hlo⟩, -⟩ := hskip
  unfold Phdr.start Phdr.stop alignDown alignUp userMaxVma at *
  refine ⟨hlo, ?_, ?_, ?_, ?_, ?_⟩ <;> omega

/-- **A byte of a segment** after the segment has been loaded over blank
memory. -/
theorem Phdr.load_byte (hskip : ph.skipped = false) (hmal : ph.malformed img.length = false)
    (hend : ph.pVaddr + ph.pMemsz ≤ userMaxVma) {i : ℕ} (hi : i < ph.pMemsz)
    (hblank : Blank σ (ph.pVaddr + i)) :
    ∃ w, ph.load img σ (ph.pVaddr + i) =
      some (w, if i < ph.pFilesz then img.getD (ph.pOffset + i) 0 else 0) := by
  obtain ⟨-, -, hstart, hstop, -, -⟩ := Phdr.bounds hskip hend
  obtain ⟨hin, -, hlen⟩ := Phdr.bytes_in hmal
  -- the page is there
  obtain ⟨y, hy, hzero⟩ : ∃ y, σ.addPages ph.writable ph.start ph.stop (ph.pVaddr + i) = some y ∧
      y.2 = 0 := by
    unfold Space.addPages
    cases hσ : σ (ph.pVaddr + i) with
    | some z => exact ⟨z, rfl, hblank z hσ⟩
    | none =>
      rw [if_pos (by omega)]
      exact ⟨_, rfl, rfl⟩
  unfold Phdr.load Space.write
  rw [hy, hlen]
  by_cases hfile : i < ph.pFilesz
  · refine ⟨y.1, ?_⟩
    rw [if_pos (by omega), if_pos hfile, Option.map_some, Nat.add_sub_cancel_left]
    unfold Phdr.bytes bytesAt
    rw [getD_eq_getElem?_getD, getD_eq_getElem?_getD, getElem?_take_of_lt hfile, getElem?_drop]
  · refine ⟨y.1, ?_⟩
    rw [if_neg (by omega), if_neg hfile, ← hzero]

theorem le_maxStop (phs : List Phdr) : ∀ {m : ℕ}, m ≤ maxStop phs m ∧
    ∀ ph ∈ phs, ph.stop ≤ maxStop phs m := by
  induction phs with
  | nil => intro m; exact ⟨le_rfl, fun _ h => absurd h not_mem_nil⟩
  | cons ph phs ih =>
    intro m
    obtain ⟨hm, hall⟩ := ih (m := if m < ph.stop then ph.stop else m)
    have hstep : m ≤ (if m < ph.stop then ph.stop else m) ∧
        ph.stop ≤ (if m < ph.stop then ph.stop else m) := by
      split <;> omega
    refine ⟨hstep.1.trans hm, fun q hq => ?_⟩
    rcases mem_cons.mp hq with rfl | hq
    · exact hstep.2.trans hm
    · exact hall q hq

theorem maxStop_mem (phs : List Phdr) : ∀ {m : ℕ}, maxStop phs m = m ∨
    ∃ ph ∈ phs, maxStop phs m = ph.stop := by
  induction phs with
  | nil => intro m; exact Or.inl rfl
  | cons ph phs ih =>
    intro m
    rcases ih (m := if m < ph.stop then ph.stop else m) with h | ⟨q, hq, h⟩
    · by_cases hlt : m < ph.stop
      · exact Or.inr ⟨ph, mem_cons_self .., h.trans (if_pos hlt)⟩
      · exact Or.inl (h.trans (if_neg hlt))
    · exact Or.inr ⟨q, mem_cons_of_mem _ hq, h⟩

theorem elfLoad_loaded {entry brkEnd brk : ℕ} (h : Sound B root s)
    (hok : elfLoad B root img brkEnd s = .ok (entry, brk, s')) (hentry : entry ≠ 0) :
    HeaderOk img ∧ entry = entryOf img ∧ Loaded B root img (segments img) s s' ∧
      brk = alignUp (maxStop (segments img) 0) ∧
      ∀ ph ∈ segments img, ph.skipped = false ∧ ph.malformed img.length = false := by
  rw [elfLoad_eq] at hok
  by_cases hhead : HeaderOk img
  · rw [if_pos hhead] at hok
    have hskip : ∀ ph ∈ segments img, ph.skipped = false := fun ph hph => by
      simpa using (mem_filter.mp hph).2
    have hrun := loadList_run (B := B) img (segments img) 0 s h hskip
    cases hload : loadList B root img (segments img) 0 s with
    | error e =>
      rw [hload] at hok
      cases hok
    | ok r =>
      obtain ⟨m, s₁⟩ := r
      rw [hload] at hok hrun
      cases m with
      | none =>
        cases hok
        exact absurd rfl hentry
      | some m =>
        cases hok
        obtain ⟨hloaded, rfl, hmal⟩ := hrun.loaded h
        exact ⟨hhead, rfl, hloaded, rfl, fun ph hph => ⟨hskip ph hph, hmal ph hph⟩⟩
  · rw [if_neg hhead] at hok
    cases hok
    exact absurd rfl hentry

/-- Two segments have no byte in common. -/
def Phdr.Apart (p q : Phdr) : Prop :=
  p.pVaddr + p.pMemsz ≤ q.pVaddr ∨ q.pVaddr + q.pMemsz ≤ p.pVaddr

instance (p q : Phdr) : Decidable (p.Apart q) := inferInstanceAs (Decidable (_ ∨ _))

/-- **The loader loads what the file says.** -/
theorem elf_loads_image (B : Buddy A) (root : ℕ) (img : List UInt8) (brkEnd : ℕ) (s : Vm A) :
    elfLoad B root img brkEnd s ≠ .error .outside ∧
      ∀ entry brk s', Sound B root s → elfLoad B root img brkEnd s = .ok (entry, brk, s') →
        entry ≠ 0 → (∀ ph ∈ segments img, ph.pVaddr + ph.pMemsz ≤ userMaxVma) →
        (segments img).Pairwise Phdr.Apart →
        (∀ ph ∈ segments img, ∀ i, i < ph.pMemsz →
          pageEntry s root (BitVec.ofNat 64 (ph.pVaddr + i)) = none) →
        (∀ ph ∈ segments img, ∀ i, i < ph.pMemsz → userByte s' root (ph.pVaddr + i) =
          some (if i < ph.pFilesz then img.getD (ph.pOffset + i) 0 else 0)) ∧
        brk % 4096 = 0 ∧ ∀ ph ∈ segments img, ph.pVaddr + ph.pMemsz ≤ brk := by
  refine ⟨elfLoad_inside B root img brkEnd s, fun entry brk s' h hok hentry hends hpair hnew => ?_⟩
  obtain ⟨-, -, hloaded, hbrk, hsegs⟩ := elfLoad_loaded h hok hentry
  refine ⟨fun ph hph i hi => ?_, ?_, fun ph hph => ?_⟩
  · obtain ⟨hskip, hmal⟩ := hsegs ph hph
    obtain ⟨hlo, -, -, -, -, -⟩ := Phdr.bounds hskip (hends ph hph)
    have hslot : InSlot (ph.pVaddr + i) := by
      have := hends ph hph
      unfold userMaxVma at this
      exact ⟨by omega, by omega⟩
    -- the segments before this one leave the byte blank, those after it leave it
    obtain ⟨pre, post, hsplit⟩ := append_of_mem hph
    rw [hsplit] at hpair
    obtain ⟨-, hpost, hpre⟩ := pairwise_append.mp hpair
    have hmisses : ∀ q, q.malformed img.length = false → q.Apart ph ∨ ph.Apart q →
        q.Misses (ph.pVaddr + i) := by
      intro q hq hap
      have := (Phdr.bytes_in hq).2.1
      unfold Phdr.Apart at hap
      unfold Phdr.Misses
      omega
    have hmalq : ∀ q ∈ pre ++ ph :: post, q.malformed img.length = false := fun q hq =>
      (hsegs q (by rw [hsplit]; exact hq)).2
    have hblank : Blank (loadAll img pre (space s root)) (ph.pVaddr + i) := by
      refine loadAll_blank pre (fun y hy => ?_) fun q hq => ?_
      · unfold space at hy
        rw [hnew ph hph i hi] at hy
        cases hy
      · have hq' := hmalq q (mem_append_left _ hq)
        exact ⟨hq', hmisses q hq' (Or.inl (hpre q hq ph (mem_cons_self ..)))⟩
    obtain ⟨w, hbyte⟩ := Phdr.load_byte hskip hmal (hends ph hph) hi hblank
    have hfinal : space s' root (ph.pVaddr + i) =
        some (w, if i < ph.pFilesz then img.getD (ph.pOffset + i) 0 else 0) := by
      rw [hloaded.space _ hslot, hsplit]
      unfold loadAll at hbyte ⊢
      rw [foldl_append, foldl_cons]
      refine loadAll_keeps post hbyte fun q hq => ?_
      have hq' := hmalq q (mem_append_right _ (mem_cons_of_mem _ hq))
      exact ⟨hq', hmisses q hq' (Or.inr ((pairwise_cons.mp hpost).1 q hq))⟩
    rw [space_slot hloaded.sound.tree hslot] at hfinal
    rw [userByte_slot hloaded.sound.tree hslot]
    obtain ⟨e, hl, he⟩ := Option.map_eq_some_iff.mp hfinal
    rw [hl, Option.map_some, (Prod.mk.inj he).2]
  · rw [hbrk]
    unfold alignUp
    omega
  obtain ⟨-, -, -, hstop, -, -⟩ := Phdr.bounds (hsegs ph hph).1 (hends ph hph)
  have hmax : maxStop (segments img) 0 ≤ userMaxVma := by
    rcases maxStop_mem (segments img) (m := 0) with h0 | ⟨q, hq, hqs⟩
    · rw [h0]
      exact Nat.zero_le _
    · rw [hqs]
      exact (Phdr.bounds (hsegs q hq).1 (hends q hq)).2.2.2.2.1
  have hle := (le_maxStop (segments img) (m := 0)).2 ph hph
  rw [hbrk]
  unfold alignUp
  unfold userMaxVma at hmax
  omega

/-- Memory in which frame 1 is an address space with nothing in it. -/
def emptySpace (free : Finset ℕ) : Vm (Finset ℕ) := { pool := free, mem := fun _ _ => 0 }

theorem emptySpace_sound (free : Finset ℕ) (h : 1 ∉ free) :
    Sound (Buddy.least 64 (by decide)) 1 (emptySpace free) ∧
      ∀ k, leaf (emptySpace free).mem 1 k = none := by
  refine Sound.of_empty ⟨fun hin => h (Finset.mem_of_mem_inter_left hin), ?_⟩ (by decide)
  exact not_present_zero

/-- Three bytes across a page boundary, and three zeros. -/
def smallSegment : Phdr := ⟨1, 5, 120, 0x7f8000400fff, 3, 6⟩

def smallImage : List UInt8 := elfImage 0x7f8000400fff [smallSegment] [0xaa, 0xbb, 0xcc]

theorem smallImage_loaded :
    ∃ s', elfLoad (Buddy.least 64 (by decide)) 1 smallImage 0 (emptySpace {2, 3, 4, 5, 6, 7}) =
        .ok (0x7f8000400fff, 0x7f8000402000, s') ∧
      userByte s' 1 0x7f8000401001 = some 0xcc ∧ userByte s' 1 0x7f8000401002 = some 0 := by
  have hsegs : segments smallImage = [smallSegment] := by decide +kernel
  have hva : smallSegment.pVaddr = 0x7f8000400fff := rfl
  have hmem : smallSegment.pMemsz = 6 := rfl
  have hrun : ((elfLoad (Buddy.least 64 (by decide)) 1 smallImage 0
      (emptySpace {2, 3, 4, 5, 6, 7})).toOption.map fun r => (r.1, r.2.1)) =
      some (0x7f8000400fff, 0x7f8000402000) := by decide +kernel
  obtain ⟨hsound, hleaf⟩ := emptySpace_sound {2, 3, 4, 5, 6, 7} (by decide)
  cases hload : elfLoad (Buddy.least 64 (by decide)) 1 smallImage 0
      (emptySpace {2, 3, 4, 5, 6, 7}) with
  | error e =>
    rw [hload] at hrun
    cases hrun
  | ok r =>
    obtain ⟨entry, brk, s'⟩ := r
    rw [hload] at hrun
    obtain ⟨rfl, rfl⟩ : entry = 0x7f8000400fff ∧ brk = 0x7f8000402000 :=
      Prod.mk.inj (Option.some.inj hrun)
    obtain ⟨hbytes, -, -⟩ := (elf_loads_image _ 1 smallImage 0 _).2 _ _ s' hsound hload (by decide)
      (by rw [hsegs]; decide) (by rw [hsegs]; exact pairwise_singleton _ _)
      (by
        rw [hsegs]
        intro ph hph i hi
        rw [mem_singleton.mp hph] at hi ⊢
        rw [hva, pageEntry_slot hsound.tree ⟨by unfold userBase; omega, by omega⟩, hleaf]
        rfl)
    have hin : smallSegment ∈ segments smallImage := by
      rw [hsegs]
      exact mem_singleton_self _
    have htwo := hbytes _ hin 2 (by decide)
    have hthree := hbytes _ hin 3 (by decide)
    rw [hva] at htwo hthree
    exact ⟨s', rfl, htwo.trans (by decide +kernel), hthree.trans (by decide +kernel)⟩

end Lnxrm.Exec
