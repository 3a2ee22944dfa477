import Lnxrm.Exec.Helpers.Headers
import Lnxrm.Exec.Helpers.Pages
import Lnxrm.Vmm.Helpers.Sound

/-!
# Loading, as the program sees it

Proof layer. A `Space` is what an address space holds. To load a segment is
to add zeroed pages where there are none and to write the bytes of the
segment (`Phdr.load`); a run of `elf_load` that comes back with an entry
point has done that for one segment after the other (`loadList_ok`).
-/

namespace Lnxrm.Exec

open Vmm

/-- What an address space holds, and whether user mode may write it. -/
abbrev Space := ℕ → Option (Bool × UInt8)

namespace Space

/-- Zeroed pages from `a` to `b`, where there is none and one may be. -/
def addPages (w : Bool) (a b : ℕ) (σ : Space) : Space := fun x =>
  (σ x).or (if a ≤ x ∧ x < b ∧ x < userMaxVma then some (w, 0) else none)

/-- Bytes are written where there is a page. -/
def write (a : ℕ) (bs : List UInt8) (σ : Space) : Space := fun x =>
  if a ≤ x ∧ x < a + bs.length then (σ x).map fun y => (y.1, bs.getD (x - a) 0) else σ x

variable {w : Bool} {a b c x : ℕ} {σ σ' : Space}

theorem addPages_of_le (h : b ≤ a) : addPages w a b σ = σ := by
  funext x
  unfold addPages
  rw [if_neg (by omega), Option.or_none]

theorem addPages_trans (hab : a ≤ b) (hbc : b ≤ c) :
    addPages w b c (addPages w a b σ) x = addPages w a c σ x := by
  unfold addPages
  cases σ x with
  | some y => rfl
  | none =>
    by_cases hx : x < b
    · rw [if_neg (c := b ≤ x ∧ x < c ∧ x < userMaxVma) (by omega), Option.or_none]
      exact if_congr (by omega) rfl rfl
    · rw [if_neg (c := a ≤ x ∧ x < b ∧ x < userMaxVma) (by omega), Option.none_or]
      exact if_congr (by omega) rfl rfl

theorem addPages_congr (h : σ x = σ' x) : addPages w a b σ x = addPages w a b σ' x := by
  unfold addPages
  rw [h]

theorem write_congr {bs : List UInt8} (h : σ x = σ' x) : write a bs σ x = write a bs σ' x := by
  unfold write
  rw [h]

theorem addPages_isSome : (addPages w a b σ x).isSome ↔
    (σ x).isSome ∨ (a ≤ x ∧ x < b ∧ x < userMaxVma) := by
  unfold addPages
  by_cases hin : a ≤ x ∧ x < b ∧ x < userMaxVma
  · rw [if_pos hin]
    cases σ x with
    | none => simp [hin]
    | some y => simp
  · rw [if_neg hin, Option.or_none]
    simp only [hin, or_false]

theorem write_isSome {bs : List UInt8} : (write a bs σ x).isSome ↔ (σ x).isSome := by
  unfold write
  split
  · rw [Option.isSome_map]
  · rfl

end Space

/-- **A segment is loaded.** -/
def Phdr.load (img : List UInt8) (ph : Phdr) (σ : Space) : Space :=
  (σ.addPages ph.writable ph.start ph.stop).write ph.pVaddr (ph.bytes img)

/-- The segments are loaded in turn. -/
def loadAll (img : List UInt8) (phs : List Phdr) (σ : Space) : Space :=
  phs.foldl (fun σ ph => ph.load img σ) σ

theorem loadAll_congr {img : List UInt8} {x : ℕ} (phs : List Phdr) : ∀ {σ σ' : Space}, σ x = σ' x →
    loadAll img phs σ x = loadAll img phs σ' x := by
  induction phs with
  | nil => intro σ σ' h; exact h
  | cons ph phs ih =>
    intro σ σ' h
    exact ih (Space.write_congr (Space.addPages_congr h))

variable {A : Type} {B : Buddy A} {s s' s'' : Vm A} {root : ℕ} {w : Bool} {a b c : ℕ}

/-! ## Pages -/

/-- **Pages have been mapped** from `a` to `b` where there were none. -/
structure Filled (B : Buddy A) (root : ℕ) (w : Bool) (a b : ℕ) (s s' : Vm A) : Prop where
  sound : Sound B root s'
  within : Within B root s s'
  /-- below `USER_MAX_VMA` every frame that is taken is mapped -/
  frames : b ≤ userMaxVma →
    tree 4 s'.mem root + (B.free s'.pool).val = tree 4 s.mem root + (B.free s.pool).val
  kept : ∀ k e, leaf s.mem root k = some e → leaf s'.mem root k = some e
  space : ∀ x, InSlot x → space s' root x = Space.addPages w a b (Vmm.space s root) x

namespace Filled

theorem refl (h : Sound B root s) (hab : b ≤ a) : Filled B root w a b s s where
  sound := h
  within := Within.refl s
  frames _ := rfl
  kept _ _ hl := hl
  space x _ := by rw [Space.addPages_of_le hab]

theorem trans (h : Filled B root w a b s s') (h' : Filled B root w b c s' s'') (hab : a ≤ b)
    (hbc : b ≤ c) : Filled B root w a c s s'' where
  sound := h'.sound
  within := h.within.trans h'.within
  frames hc := (h'.frames hc).trans (h.frames (by omega))
  kept k e hl := h'.kept k e (h.kept k e hl)
  space x hx := by
    rw [h'.space x hx, Space.addPages_congr (h.space x hx), Space.addPages_trans hab hbc]

end Filled

/-- How a loop over the pages from `a` to `b` ends. -/
def PagesEnd (B : Buddy A) (root : ℕ) (w : Bool) (a b : ℕ) (s : Vm A)
    (r : Except (Stop A) (Bool × Vm A)) : Prop :=
  (∃ c s', c ≤ b ∧ r = .ok (false, s') ∧ B.free s'.pool = ∅ ∧ Filled B root w a c s s') ∨
    (∃ s', r = .error (.panic s')) ∨
    ∃ s', r = .ok (true, s') ∧ Filled B root w a b s s'

theorem accepts_ofNat {page : ℕ} (hal : page % 4096 = 0) (hlo : userBase ≤ page)
    (hhi : page < userMaxVma) : Accepts (BitVec.ofNat 64 page) := by
  have hn : (BitVec.ofNat 64 page).toNat = page := by
    unfold userMaxVma at hhi
    rw [BitVec.toNat_ofNat]
    omega
  unfold Accepts IsUser
  rw [hn]
  exact ⟨⟨hlo, hhi⟩, hal⟩

/-- **A fresh page** where none is mapped: its frame is mapped, or lost
above `USER_MAX_VMA`. -/
theorem freshPage_end (h : Sound B root s) {page : ℕ} (hal : page % 4096 = 0)
    (hlo : userBase ≤ page) (hlt : page < 2 ^ 64)
    (hnone : page < userMaxVma → leaf s.mem root (pageKey page) = none) :
    PagesEnd B root w page (page + 4096) s (freshPage B root w page s) := by
  unfold freshPage
  cases halloc : s.pmmAlloc B with
  | none =>
    exact Or.inl ⟨page, s, by omega, rfl, pmmAlloc_none halloc, Filled.refl h le_rfl⟩
  | some r =>
    obtain ⟨f, s₁⟩ := r
    dsimp only
    obtain ⟨hf, hfree, -, hmem, -⟩ := pmmAlloc_some halloc
    obtain ⟨h₁, hleaf₁, htree₁, hspace₁, hft, hff, hfm, hflt⟩ := h.alloc halloc
    have hframes₁ : tree 4 s₁.mem root + (B.free s₁.pool).val + {f} =
        tree 4 s.mem root + (B.free s.pool).val := by
      rw [htree₁, hfree, add_right_comm, add_erase hf]
    have hwithin₁ : ∀ g, g ∉ tree 4 s.mem root → g ∉ B.free s.pool →
        s₁.mem g = s.mem g ∧ g ∉ B.free s₁.pool ∧ g ∉ tree 4 s₁.mem root ∧ g ≠ f := by
      intro g hgt hgf
      refine ⟨hmem g hgf, ?_, by rw [htree₁]; exact hgt, fun e => hgf (e ▸ hf)⟩
      rw [hfree]
      exact fun hin => hgf (Finset.mem_of_mem_erase hin)
    have hroot₁ : s₁.mem root = s.mem root := hmem root h.tree.root_not_free
    by_cases hhi : page < userMaxVma
    · have hacc := accepts_ofNat hal hlo hhi
      have hslot : InSlot page := ⟨hlo, by unfold userMaxVma at hhi; omega⟩
      rcases h₁.place hacc (by rw [hleaf₁]; exact hnone hhi) hft hff hfm hflt w fun _ => 0 with
        ⟨s', he, -⟩ | ⟨s', he, hp⟩
      · rw [he]
        exact Or.inr (Or.inl ⟨s', rfl⟩)
      rw [he]
      refine Or.inr (Or.inr ⟨s', rfl, hp.sound, ⟨fun g hgt hgf => ?_, fun j hj => ?_, ?_⟩,
        fun _ => hp.frames.trans hframes₁, fun k e hl => ?_, fun x hx => ?_⟩)
      · obtain ⟨hg, hgf₁, hgt₁, hgne⟩ := hwithin₁ g hgt hgf
        rw [hp.mem g hgf₁ (fun hin => hgt₁ (Sound.table_mem hin)) hgne, hg]
      · rw [hp.shared j hj, hroot₁]
      · exact (hp.frames.trans hframes₁).le
      · rw [hp.leaf, if_neg, hleaf₁, hl]
        rintro rfl
        rw [show key (BitVec.ofNat 64 page) = pageKey page from rfl, hnone hhi] at hl
        cases hl
      have hpage : x / 4096 = page / 4096 ↔ page ≤ x ∧ x < page + 4096 ∧ x < userMaxVma := by
        unfold userMaxVma at hhi ⊢
        omega
      rw [Placed.space h₁ hp hacc hflt hft hx, toNat_ofNat_slot hslot, hspace₁ x hx]
      unfold Space.addPages
      by_cases hin : page ≤ x ∧ x < page + 4096 ∧ x < userMaxVma
      · have hempty : space s root x = none := by
          rw [space_slot h.tree hx, (pageKey_eq_iff hx hslot).mpr (hpage.mpr hin), hnone hhi]
          rfl
        rw [if_pos (hpage.mpr hin), if_pos hin, hempty, Option.none_or, wordByte_zero]
      · rw [if_neg (fun hx => hin (hpage.mp hx)), if_neg hin, Option.or_none]
    -- `vmm_map_user` refuses the page, and nobody looks at its result
    have hrej : ¬ Accepts (BitVec.ofNat 64 page) := by
      rintro ⟨⟨-, hmax⟩, -⟩
      rw [BitVec.toNat_ofNat, Nat.mod_eq_of_lt hlt] at hmax
      exact hhi hmax
    have hfill : ∀ g, g ≠ f → (s₁.fill f fun _ => 0).mem g = s₁.mem g := fun g hg =>
      Function.update_of_ne hg _ _
    obtain ⟨h₂, hleaf₂, htree₂, hspace₂⟩ := h₁.of_agree (s₁.fill f fun _ => 0)
      (fun g hg => hfill g fun e => hft (e ▸ hg)) fun g hg hin => h₁.not_free hin hg
    rw [map_rejected hrej]
    refine Or.inr (Or.inr ⟨_, rfl, h₂, ⟨fun g hgt hgf => ?_, fun j hj => ?_, ?_⟩, fun hle => ?_,
      fun k e hl => by rw [hleaf₂, hleaf₁, hl], fun x hx => ?_⟩)
    · obtain ⟨hg, -, -, hgne⟩ := hwithin₁ g hgt hgf
      rw [hfill g hgne, hg]
    · rw [hfill root fun e => hft (e ▸ Sound.table_mem Tree.root_mem), hroot₁]
    · rw [htree₂, ← hframes₁]
      exact Multiset.le_add_right _ _
    · omega
    · rw [hspace₂ x hx, hspace₁ x hx]
      unfold Space.addPages
      rw [if_neg (by omega), Option.or_none]

/-- **A page of a segment**, mapped where there is none. -/
theorem segmentPage_end (h : Sound B root s) {page : ℕ} (hal : page % 4096 = 0)
    (hlo : userBase ≤ page) (hlt : page < 2 ^ 64) :
    PagesEnd B root w page (page + 4096) s (segmentPage B root w page s) := by
  unfold segmentPage
  by_cases hz : vmmTranslateIn s root (BitVec.ofNat 64 page) = 0
  · rw [if_neg (not_not.mpr hz)]
    refine freshPage_end h hal hlo hlt fun hhi => (h.translate_eq_zero_iff ⟨hlo, ?_⟩).mp hz
    unfold userMaxVma at hhi
    omega
  rw [if_pos hz]
  refine Or.inr (Or.inr ⟨s, rfl, h, Within.refl s, fun _ => rfl, fun _ _ hl => hl, fun x hx => ?_⟩)
  unfold Space.addPages
  by_cases hin : page ≤ x ∧ x < page + 4096 ∧ x < userMaxVma
  · -- the page is there already
    have hslot : InSlot page := ⟨hlo, by have := hx.2; omega⟩
    have hkey : pageKey x = pageKey page := (pageKey_eq_iff hx hslot).mpr (by omega)
    rw [space_slot h.tree hx, hkey]
    cases hl : leaf s.mem root (pageKey page) with
    | none => exact absurd ((h.translate_eq_zero_iff hslot).mpr hl) hz
    | some e => rfl
  · rw [if_neg hin, Option.or_none]

theorem forPages_end {body : ℕ → Vm A → Except (Stop A) (Bool × Vm A)} {R : ℕ → Vm A → Prop}
    (hbody : ∀ page s, Sound B root s → R page s → page % 4096 = 0 → userBase ≤ page →
      page < b → PagesEnd B root w page (page + 4096) s (body page s))
    (hready : ∀ page s s', R page s → Filled B root w page (page + 4096) s s' → R (page + 4096) s')
    (h : Sound B root s) (hr : R a s) (ha : a % 4096 = 0) (hlo : userBase ≤ a)
    (hb : b % 4096 = 0) : PagesEnd B root w a b s (forPages body (pagesFrom a b) s) := by
  by_cases hab : b ≤ a
  · have hnil : pagesFrom a b = [] := by
      unfold pagesFrom
      rw [show (b - a + 4095) / 4096 = 0 by omega]
      rfl
    rw [hnil]
    exact Or.inr (Or.inr ⟨s, rfl, Filled.refl h hab⟩)
  -- `c` is the page the loop has come to
  refine forPages_rule (Q := fun pages s₁ => ∃ c, pages = pagesFrom c b ∧ a ≤ c ∧ c ≤ b ∧
    c % 4096 = 0 ∧ R c s₁ ∧ Filled B root w a c s s₁) (fun s₁ hq => ?_)
    (fun page pages s₁ hq => ?_) _ ⟨a, rfl, le_rfl, by omega, ha, hr, Filled.refl h le_rfl⟩
  · obtain ⟨c, hnil, hac, hcb, hal, -, hfill⟩ := hq
    have hcend : c = b := by
      by_contra hne
      rw [pagesFrom_cons (by omega)] at hnil
      cases hnil
    subst hcend
    exact Or.inr (Or.inr ⟨s₁, rfl, hfill⟩)
  obtain ⟨c, hcons, hac, hcb, hal, hrc, hfill⟩ := hq
  have hlt : c < b := by
    by_contra hge
    have hnil : pagesFrom c b = [] := by
      unfold pagesFrom
      rw [show (b - c + 4095) / 4096 = 0 by omega]
      rfl
    rw [hnil] at hcons
    cases hcons
  rw [pagesFrom_cons hlt] at hcons
  obtain ⟨rfl, rfl⟩ := List.cons.inj hcons
  rcases hbody page s₁ hfill.sound hrc hal (by omega) hlt with
    ⟨d, s', hd, he, hfree, hfill'⟩ | ⟨s', he⟩ | ⟨s', he, hfill'⟩
  · right
    rw [he]
    refine ⟨?_, fun s'' => by simp⟩
    by_cases hdp : d ≤ page
    · -- nothing was added
      refine Or.inl ⟨page, s', hcb, rfl, hfree, ?_⟩
      have hrefl : Filled B root w page page s₁ s' :=
        ⟨hfill'.sound, hfill'.within, fun hle => hfill'.frames (by omega), hfill'.kept,
          fun x hx => by
            rw [hfill'.space x hx, Space.addPages_of_le hdp, Space.addPages_of_le le_rfl]⟩
      exact hfill.trans hrefl hac le_rfl
    · exact Or.inl ⟨d, s', by omega, rfl, hfree, hfill.trans hfill' hac (by omega)⟩
  · right
    rw [he]
    exact ⟨Or.inr (Or.inl ⟨s', rfl⟩), fun s'' => by simp⟩
  · left
    exact ⟨s', he, page + 4096, rfl, by omega, by omega, by omega,
      hready page s₁ s' hrc hfill', hfill.trans hfill' hac (by omega)⟩

/-- **The pages of a segment** -/
theorem segmentPages_end (h : Sound B root s) {ph : Phdr} (hskip : ph.skipped = false) :
    PagesEnd B root ph.writable ph.start ph.stop s
      (forPages (segmentPage B root ph.writable) (pagesFrom ph.start ph.stop) s) := by
  simp only [Phdr.skipped, Bool.or_eq_false_iff, decide_eq_false_iff_not, not_lt] at hskip
  have hstop : ph.stop ≤ 2 ^ 64 := by
    unfold Phdr.stop alignUp
    omega
  refine forPages_end (R := fun _ _ => True) (fun page s hs _ hal hp hlt =>
    segmentPage_end hs hal hp (by omega)) (fun _ _ _ _ _ => trivial) h trivial ?_ ?_ ?_
  · unfold Phdr.start alignDown
    omega
  · unfold Phdr.start alignDown userBase at *
    omega
  · unfold Phdr.stop alignUp
    omega

/-- **Fresh pages** where none is mapped -/
theorem freshPages_end (h : Sound B root s) (ha : a % 4096 = 0) (hlo : userBase ≤ a)
    (hb : b % 4096 = 0) (hb64 : b ≤ 2 ^ 64)
    (hnone : ∀ x, InSlot x → a ≤ x → x < b → space s root x = none) :
    PagesEnd B root w a b s (forPages (freshPage B root w) (pagesFrom a b) s) := by
  refine forPages_end (R := fun c s => ∀ x, InSlot x → c ≤ x → x < b → space s root x = none)
    (fun page s hs hr hal hp hlt => freshPage_end hs hal hp (by omega) fun hhi => ?_)
    (fun page s s' hr hfill x hslot hx hxb => ?_) h hnone ha hlo hb
  · have hslot : InSlot page := ⟨hp, by unfold userMaxVma at hhi; omega⟩
    have hempty := hr page hslot le_rfl hlt
    rwa [space_slot hs.tree hslot, Option.map_eq_none_iff] at hempty
  · rw [hfill.space x hslot]
    unfold Space.addPages
    rw [hr x hslot (by omega) hxb, if_neg (by omega)]
    rfl

/-! ## Segments -/

/-- **Segments have been loaded.** -/
structure Loaded (B : Buddy A) (root : ℕ) (img : List UInt8) (phs : List Phdr) (s s' : Vm A) :
    Prop where
  sound : Sound B root s'
  within : Within B root s s'
  frames : (∀ ph ∈ phs, ph.stop ≤ userMaxVma) →
    tree 4 s'.mem root + (B.free s'.pool).val = tree 4 s.mem root + (B.free s.pool).val
  space : ∀ x, InSlot x → space s' root x = loadAll img phs (Vmm.space s root) x
  /-- the bytes of every segment have been copied to user addresses -/
  inUser : ∀ ph ∈ phs, ph.pVaddr + ph.pFilesz ≤ userMaxVma

theorem Loaded.nil {img : List UInt8} (h : Sound B root s) : Loaded B root img [] s s :=
  ⟨h, Within.refl s, fun _ => rfl, fun _ _ => rfl, fun _ hph => absurd hph List.not_mem_nil⟩

theorem Loaded.append {img : List UInt8} {phs qs : List Phdr} (h : Loaded B root img phs s s')
    (h' : Loaded B root img qs s' s'') : Loaded B root img (phs ++ qs) s s'' where
  sound := h'.sound
  within := h.within.trans h'.within
  frames hst := (h'.frames fun ph hph => hst ph (List.mem_append_right _ hph)).trans
    (h.frames fun ph hph => hst ph (List.mem_append_left _ hph))
  space x hx := by
    rw [h'.space x hx, loadAll_congr qs (h.space x hx)]
    unfold loadAll
    rw [List.foldl_append]
  inUser ph hph := (List.mem_append.mp hph).elim (h.inUser ph) (h'.inUser ph)

/-- **One segment** is loaded by its pages and its bytes. -/
theorem Loaded.segment {img : List UInt8} {ph : Phdr} (hskip : ph.skipped = false)
    (hmal : ph.malformed img.length = false)
    (hfill : Filled B root ph.writable ph.start ph.stop s s')
    (hok : storeUser s' root ph.pVaddr (ph.bytes img) = .ok s'') :
    Loaded B root img [ph] s s'' := by
  simp only [Phdr.skipped, Bool.or_eq_false_iff, decide_eq_false_iff_not, not_lt, not_le] at hskip
  obtain ⟨⟨-, hlo⟩, hhi⟩ := hskip
  obtain ⟨hend, hsound, hpool, hleaf, htree, hmem, hmem3, -, hspace⟩ :=
    hfill.sound.store hlo hhi hok
  refine ⟨hsound, hfill.within.trans ⟨fun g hg _ => hmem g hg, fun j _ => ?_, ?_⟩, fun hst => ?_,
    fun x hx => ?_, fun q hq => ?_⟩
  · rw [hmem3 root Tree.root_mem]
  · rw [htree, hpool]
  · rw [htree, hpool]
    exact hfill.frames (hst ph (List.mem_singleton_self ph))
  · rw [hspace x hx]
    show _ = ph.load img (Vmm.space s root) x
    unfold Phdr.load
    rw [← Space.write_congr (hfill.space x hx)]
    rfl
  · rw [List.mem_singleton.mp hq, ← (Phdr.bytes_in hmal).2.2]
    exact hend

/-- `max_end` after the segments -/
def maxStop (phs : List Phdr) (maxEnd : ℕ) : ℕ :=
  phs.foldl (fun m ph => if m < ph.stop then ph.stop else m) maxEnd

/-- **The loop over the segments**, from the state `s` to its result. -/
inductive LoadRun (B : Buddy A) (root : ℕ) (img : List UInt8) :
    List Phdr → ℕ → Vm A → Except (Stop A) (Option ℕ × Vm A) → Prop where
  | done (m : ℕ) (s : Vm A) : LoadRun B root img [] m s (.ok (some m, s))
  | malformed {ph : Phdr} {phs : List Phdr} {m : ℕ} {s : Vm A} :
    ph.malformed img.length = true → LoadRun B root img (ph :: phs) m s (.ok (none, s))
  /-- the pages end at `c`, where no frame is free -/
  | noFrame {ph : Phdr} {phs : List Phdr} {m c : ℕ} {s s' : Vm A} :
    ph.malformed img.length = false → c ≤ ph.stop →
    Filled B root ph.writable ph.start c s s' → LoadRun B root img (ph :: phs) m s (.ok (none, s'))
  | panic {ph : Phdr} {phs : List Phdr} {m : ℕ} {s s' : Vm A} :
    LoadRun B root img (ph :: phs) m s (.error (.panic s'))
  /-- the copy finds a page missing -/
  | fault {ph : Phdr} {phs : List Phdr} {m a : ℕ} {s s' s'' : Vm A} :
    ph.malformed img.length = false → Filled B root ph.writable ph.start ph.stop s s' →
    storeUser s' root ph.pVaddr (ph.bytes img) = .error (.fault a s'') →
    LoadRun B root img (ph :: phs) m s (.error (.fault a s''))
  | next {ph : Phdr} {phs : List Phdr} {m : ℕ} {s s' : Vm A}
      {r : Except (Stop A) (Option ℕ × Vm A)} : ph.malformed img.length = false →
    Loaded B root img [ph] s s' →
    LoadRun B root img phs (if m < ph.stop then ph.stop else m) s' r →
    LoadRun B root img (ph :: phs) m s r

theorem storeBytes_error {tr : ℕ → Option ℕ} {e : Stop A} (bs : List UInt8) : ∀ {a : ℕ} {s : Vm A},
    storeBytes tr a bs s = .error e → ∃ x s', e = .fault x s' := by
  induction bs with
  | nil => intro a s h; cases h
  | cons b bs ih =>
    intro a s h
    cases htr : tr a with
    | none =>
      simp only [storeBytes, htr] at h
      cases h
      exact ⟨a, s, rfl⟩
    | some pa =>
      simp only [storeBytes, htr] at h
      exact ih h

/-- **What the loop does**, in an address space in order. -/
theorem loadList_run (img : List UInt8) (phs : List Phdr) : ∀ (m : ℕ) (s : Vm A),
    Sound B root s → (∀ ph ∈ phs, ph.skipped = false) →
      LoadRun B root img phs m s (loadList B root img phs m s) := by
  induction phs with
  | nil => intro m s _ _; exact .done m s
  | cons ph phs ih =>
    intro m s h hskip
    have hsk := hskip ph (List.mem_cons_self ..)
    rw [loadList]
    cases hmal : ph.malformed img.length with
    | true => exact .malformed hmal
    | false =>
      rw [if_neg Bool.false_ne_true]
      rcases segmentPages_end h hsk with ⟨c, s', hc, he, -, hfill⟩ | ⟨s', he⟩ | ⟨s', he, hfill⟩
      · rw [he]
        exact .noFrame hmal hc hfill
      · rw [he]
        exact .panic
      rw [he]
      dsimp only
      cases hst : storeUser s' root ph.pVaddr (ph.bytes img) with
      | error e =>
        obtain ⟨x, s'', rfl⟩ := storeBytes_error _ hst
        exact .fault hmal hfill hst
      | ok s'' =>
        have hload := Loaded.segment hsk hmal hfill hst
        exact .next hmal hload (ih _ s'' hload.sound fun q hq => hskip q (List.mem_cons_of_mem _ hq))

/-- **A loop that goes through has loaded all segments.** -/
theorem LoadRun.loaded {img : List UInt8} {phs : List Phdr} {m m' : ℕ}
    (h : LoadRun B root img phs m s (.ok (some m', s'))) (hs : Sound B root s) :
    Loaded B root img phs s s' ∧ m' = maxStop phs m ∧
      ∀ ph ∈ phs, ph.malformed img.length = false := by
  generalize hr : (Except.ok (some m', s') : Except (Stop A) (Option ℕ × Vm A)) = r at h
  induction h with
  | done m s =>
    cases hr
    exact ⟨Loaded.nil hs, rfl, fun _ hph => absurd hph List.not_mem_nil⟩
  | malformed _ => cases hr
  | noFrame _ _ _ => cases hr
  | panic => cases hr
  | fault _ _ _ => cases hr
  | @next ph phs m s s₁ r hmal hload _ ih =>
    obtain ⟨hrest, hmax, hall⟩ := ih hload.sound hr
    refine ⟨hload.append hrest, hmax, fun q hq => ?_⟩
    rcases List.mem_cons.mp hq with rfl | hq
    · exact hmal
    · exact hall q hq

end Lnxrm.Exec
