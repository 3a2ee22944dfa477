import Lnxrm.Exec.Elf
import Lnxrm.Exec.Helpers.Crowded

/-!
# What a malformed executable costs

`elf_load` looks at the start of a segment only, and not at what
`vmm_map_user` returns: a page above `USER_MAX_VMA` takes a frame that is
mapped nowhere, and the copy behind it runs into a page that is not there.
A segment that ends in the last page of the address space gets no pages at
all. `costless_iff` says which images do no harm.
-/

namespace Lnxrm.Exec

open Vmm List

variable {A : Type} {B : Buddy A} {s s' : Vm A} {root : ℕ} {img : List UInt8}
variable {ph : Phdr} {before : List Phdr}

/-- Every frame that was taken is mapped, if the loader returns; and it does
not touch a page that is not there. -/
def KeepsFrames (B : Buddy A) (root : ℕ) (s : Vm A) : Except (Stop A) (ℕ × ℕ × Vm A) → Prop
  | .ok (_, _, s') =>
    tree 4 s'.mem root + (B.free s'.pool).val = tree 4 s.mem root + (B.free s.pool).val
  | .error (.panic _) => True
  | .error _ => False

/-- The segments that the loader comes to -/
def reached (img : List UInt8) : List Phdr :=
  (segments img).takeWhile fun ph => !ph.malformed img.length

/-- **The executable costs nothing**, in any address space: no frame is
lost, and all bytes go to mapped pages at user addresses. -/
def Costless (img : List UInt8) : Prop :=
  (∀ (A : Type) (B : Buddy A) (root : ℕ) (s : Vm A) (brkEnd : ℕ), Sound B root s →
    KeepsFrames B root s (elfLoad B root img brkEnd s)) ∧
  (HeaderOk img → ∀ ph ∈ reached img, ∀ x, ph.pVaddr ≤ x → x < ph.pVaddr + ph.pFilesz →
    userBase ≤ x ∧ x < userMaxVma)

/-- The segment ends in user space; or its end, rounded up, wraps around and
all its bytes lie on pages of segments before it. -/
def Phdr.FitsAfter (before : List Phdr) (ph : Phdr) : Prop :=
  ph.pVaddr + ph.pMemsz ≤ userMaxVma ∨ (2 ^ 64 - 4096 < ph.pVaddr + ph.pMemsz ∧
      ∀ x, ph.pVaddr ≤ x → x < ph.pVaddr + ph.pFilesz → ∃ q ∈ before, q.start ≤ x ∧ x < q.stop)

/-- Every segment fits, until one is malformed. -/
def FitsFrom (imgsize : ℕ) : List Phdr → List Phdr → Prop
  | _, [] => True
  | before, ph :: phs => ph.malformed imgsize = true ∨
      (ph.FitsAfter before ∧ FitsFrom imgsize (before ++ [ph]) phs)

/-- **The condition**: the header is refused, or every segment fits. -/
def Fits (img : List UInt8) : Prop := HeaderOk img → FitsFrom img.length [] (segments img)

theorem Phdr.FitsAfter.stop_le (h : ph.FitsAfter before)
    (hlt : ph.pVaddr + ph.pMemsz < 2 ^ 64) : ph.stop ≤ userMaxVma := by
  obtain ⟨-, hle, -, hwrap, -⟩ := stop_cases hlt
  rcases h with hend | ⟨hend, -⟩
  · exact hle hend
  · rw [hwrap hend]
    exact Nat.zero_le _

/-- Where the bytes of a segment that fits are: on its own pages or on those
of segments before it. -/
theorem Phdr.FitsAfter.bytes_on (h : ph.FitsAfter before)
    (hlt : ph.pVaddr + ph.pMemsz < 2 ^ 64) (hmal : ph.malformed img.length = false)
    (hstart : ph.start ≤ ph.pVaddr) {x : ℕ} (hlo : ph.pVaddr ≤ x)
    (hhi : x < ph.pVaddr + ph.pFilesz) : ∃ q ∈ before ++ [ph], q.start ≤ x ∧ x < q.stop := by
  obtain ⟨hup, -, -, -, -⟩ := stop_cases hlt
  have hfile := (Phdr.bytes_in hmal).2.1
  rcases h with hend | ⟨-, hbytes⟩
  · unfold userMaxVma at hend
    exact ⟨ph, mem_append_right _ (mem_singleton_self ph), by omega,
      by have := hup (by omega); omega⟩
  · obtain ⟨q, hq, hin⟩ := hbytes x hlo hhi
    exact ⟨q, mem_append_left _ hq, hin⟩

/-! ## Segments that fit -/

/-- The pages of the segments are in user space. -/
def InUser (phs : List Phdr) : Prop := ∀ q ∈ phs, userBase ≤ q.start ∧ q.stop ≤ userMaxVma

theorem InUser.snoc (h : InUser before) (hph : ph ∈ segments img)
    (hfit : ph.FitsAfter before) : InUser (before ++ [ph]) := by
  intro q hq
  rcases mem_append.mp hq with hq | hq
  · exact h q hq
  · obtain ⟨-, -, -, hlt, -, -, hbase⟩ := segments_lt hph
    rw [mem_singleton.mp hq]
    exact ⟨hbase, hfit.stop_le hlt⟩

theorem FitsFrom.inUser (phs : List Phdr) : ∀ {before : List Phdr},
    FitsFrom img.length before phs → InUser before →
    (∀ q ∈ phs, q ∈ segments img ∧ q.malformed img.length = false) → InUser (before ++ phs) := by
  induction phs with
  | nil => intro before _ h _; rwa [append_nil]
  | cons ph phs ih =>
    intro before hfits h hphs
    obtain ⟨hseg, hmal⟩ := hphs ph (mem_cons_self ..)
    rcases hfits with hbad | ⟨hfit, hrest⟩
    · rw [hmal] at hbad
      cases hbad
    · have hall := ih hrest (h.snoc hseg hfit) fun q hq => hphs q (mem_cons_of_mem _ hq)
      rwa [append_assoc, singleton_append] at hall

/-- The pages of the segments are there. -/
def PagesIn (s : Vm A) (root : ℕ) (phs : List Phdr) : Prop :=
  ∀ q ∈ phs, ∀ x, q.start ≤ x → x < q.stop → (space s root x).isSome

theorem addPages_self {w : Bool} {a b x : ℕ} {σ : Space} (ha : a ≤ x) (hb : x < b)
    (hmax : b ≤ userMaxVma) : (Space.addPages w a b σ x).isSome :=
  Space.addPages_isSome.mpr (Or.inr ⟨ha, hb, by omega⟩)

theorem PagesIn.filled (h : PagesIn s root before)
    (hbefore : InUser (before ++ [ph]))
    (hfill : Filled B root ph.writable ph.start ph.stop s s') : PagesIn s' root (before ++ [ph]) := by
  intro q hq x hlo hhi
  obtain ⟨hbase, hmax⟩ := hbefore q hq
  have hslot : InSlot x := ⟨by omega, by unfold userMaxVma at hmax; omega⟩
  rw [hfill.space x hslot]
  rcases mem_append.mp hq with hq | hq
  · exact Space.addPages_isSome.mpr (Or.inl (h q hq x hlo hhi))
  · obtain rfl := mem_singleton.mp hq
    exact addPages_self hlo hhi hmax

theorem PagesIn.loaded (h : PagesIn s root before)
    (hbefore : InUser (before ++ [ph]))
    (hload : Loaded B root img [ph] s s') : PagesIn s' root (before ++ [ph]) := by
  intro q hq x hlo hhi
  obtain ⟨hbase, hmax⟩ := hbefore q hq
  have hslot : InSlot x := ⟨by omega, by unfold userMaxVma at hmax; omega⟩
  rw [hload.space x hslot]
  refine Space.write_isSome.mpr ?_
  rcases mem_append.mp hq with hq | hq
  · exact Space.addPages_isSome.mpr (Or.inl (h q hq x hlo hhi))
  · obtain rfl := mem_singleton.mp hq
    exact addPages_self hlo hhi hmax

theorem storeUser_present (s : Vm A) (root : ℕ) (hmal : ph.malformed img.length = false)
    (h : ∀ x, ph.pVaddr ≤ x → x < ph.pVaddr + ph.pFilesz → (space s root x).isSome) :
    ∃ s', storeUser s root ph.pVaddr (ph.bytes img) = .ok s' := by
  refine storeUser_ok s root ph.pVaddr (ph.bytes img) fun x hlo hhi => ?_
  rw [(Phdr.bytes_in hmal).2.2] at hhi
  have hsome := h x hlo hhi
  unfold space at hsome
  rw [Option.isSome_map] at hsome
  exact hsome

/-- What the loop over the segments should come to -/
def LoopKeeps (B : Buddy A) (root : ℕ) (s : Vm A) : Except (Stop A) (Option ℕ × Vm A) → Prop
  | .ok (_, s') =>
    tree 4 s'.mem root + (B.free s'.pool).val = tree 4 s.mem root + (B.free s.pool).val
  | .error (.panic _) => True
  | .error _ => False

/-- **Segments that fit cost nothing.** -/
theorem LoadRun.keeps {phs : List Phdr} {m : ℕ} {r : Except (Stop A) (Option ℕ × Vm A)}
    (h : LoadRun B root img phs m s r) : ∀ before : List Phdr, (∀ ph ∈ phs, ph ∈ segments img) →
      InUser before → PagesIn s root before →
      FitsFrom img.length before phs → LoopKeeps B root s r := by
  induction h with
  | done m s => exact fun _ _ _ _ _ => rfl
  | malformed _ => exact fun _ _ _ _ _ => rfl
  | panic => exact fun _ _ _ _ _ => trivial
  | @noFrame ph phs m c s s' hmal hc hfill =>
    intro before hsegs _ _ hfits
    rcases hfits with hbad | ⟨hfit, -⟩
    · rw [hmal] at hbad
      cases hbad
    · have hstop := hfit.stop_le (segments_lt (hsegs ph (mem_cons_self ..))).2.2.2.1
      exact hfill.frames (by omega)
  | @fault ph phs m a s s' s'' hmal hfill hst =>
    intro before hsegs hbefore hpages hfits
    rcases hfits with hbad | ⟨hfit, -⟩
    · rw [hmal] at hbad
      cases hbad
    -- all its bytes are on pages that are there
    have hseg := hsegs ph (mem_cons_self ..)
    obtain ⟨-, -, -, hlt, hstart, -, -⟩ := segments_lt hseg
    obtain ⟨s₁, hs₁⟩ := storeUser_present s' root hmal fun x hlo hhi => by
      obtain ⟨q, hq, hqlo, hqhi⟩ := hfit.bytes_on hlt hmal hstart hlo hhi
      exact hpages.filled (hbefore.snoc hseg hfit) hfill q hq x hqlo hqhi
    rw [hst] at hs₁
    cases hs₁
  | @next ph phs m s s' r hmal hload _ ih =>
    intro before hsegs hbefore hpages hfits
    rcases hfits with hbad | ⟨hfit, hrest⟩
    · rw [hmal] at hbad
      cases hbad
    have hseg := hsegs ph (mem_cons_self ..)
    have hall := hbefore.snoc hseg hfit
    have hkeep := ih (before ++ [ph]) (fun q hq => hsegs q (mem_cons_of_mem _ hq)) hall
      (hpages.loaded hall hload) hrest
    have hframes := hload.frames fun q hq => by
      rw [mem_singleton.mp hq]
      exact hfit.stop_le (segments_lt hseg).2.2.2.1
    unfold LoopKeeps at hkeep ⊢
    rw [hframes] at hkeep
    exact hkeep

/-! ## Segments that do not fit -/

theorem forPages_mapped {w : Bool} (pages : List ℕ)
    (h : ∀ page ∈ pages, vmmTranslateIn s root (BitVec.ofNat 64 page) ≠ 0) :
    forPages (segmentPage B root w) pages s = .ok (true, s) := by
  induction pages with
  | nil => rfl
  | cons page pages ih =>
    rw [forPages, segmentPage, if_pos (h page (mem_cons_self ..))]
    exact ih fun q hq => h q (mem_cons_of_mem _ hq)

theorem forPages_append {body : ℕ → Vm A → Except (Stop A) (Bool × Vm A)} (pages rest : List ℕ) :
    ∀ {s s' : Vm A}, forPages body pages s = .ok (true, s') →
      forPages body (pages ++ rest) s = forPages body rest s' := by
  induction pages with
  | nil =>
    intro s s' h
    cases h
    rfl
  | cons page pages ih =>
    intro s s' h
    rw [cons_append, forPages]
    rw [forPages] at h
    cases hbody : body page s with
    | error e =>
      rw [hbody] at h
      cases h
    | ok r =>
      obtain ⟨ok, s₁⟩ := r
      rw [hbody] at h
      cases ok with
      | false => cases h
      | true => exact ih h

theorem forPages_of_empty (root : ℕ) (w : Bool) (h : B.free s.pool = ∅) (pages : List ℕ) :
    ∃ ok, forPages (segmentPage B root w) pages s = .ok (ok, s) := by
  induction pages with
  | nil => exact ⟨true, rfl⟩
  | cons page pages ih =>
    rw [forPages, segmentPage]
    by_cases hz : vmmTranslateIn s root (BitVec.ofNat 64 page) ≠ 0
    · rw [if_pos hz]
      exact ih
    · rw [if_neg hz, freshPage_of_empty h]
      exact ⟨false, rfl⟩

theorem loadList_of_empty {e : Stop A} (phs : List Phdr) : ∀ {m : ℕ} {s : Vm A},
    B.free s.pool = ∅ → loadList B root img phs m s = .error e → ∃ a s', e = .fault a s' := by
  induction phs with
  | nil => intro m s _ h; cases h
  | cons ph phs ih =>
    intro m s hfree h
    rw [loadList] at h
    cases hmal : ph.malformed img.length with
    | true =>
      rw [hmal, if_pos rfl] at h
      cases h
    | false =>
      rw [hmal, if_neg Bool.false_ne_true] at h
      obtain ⟨ok, hloop⟩ := forPages_of_empty root ph.writable hfree
        (pagesFrom ph.start ph.stop)
      rw [hloop] at h
      cases ok with
      | false => cases h
      | true =>
        dsimp only at h
        cases hst : storeUser s root ph.pVaddr (ph.bytes img) with
        | error e' =>
          rw [hst] at h
          cases h
          exact storeBytes_error _ hst
        | ok s' =>
          rw [hst] at h
          refine ih ?_ h
          rw [(storeBytes_mem _ hst).1]
          exact hfree

/-- **Segments whose pages are there** only copy their bytes. -/
theorem loadList_crowded (rest pre : List Phdr) : ∀ {before : List Phdr} {m : ℕ} {s : Vm A},
    Sound B root s → (∀ q ∈ pre, q ∈ segments img ∧ q.malformed img.length = false) →
    InUser before → FitsFrom img.length before pre → PagesIn s root (before ++ pre) →
    ∃ m' s', loadList B root img (pre ++ rest) m s = loadList B root img rest m' s' ∧
      Sound B root s' ∧ s'.pool = s.pool ∧ tree 4 s'.mem root = tree 4 s.mem root ∧
      ∀ k, leaf s'.mem root k = leaf s.mem root k := by
  induction pre with
  | nil => intro before m s h _ _ _ _; exact ⟨m, s, rfl, h, rfl, rfl, fun _ => rfl⟩
  | cons ph pre ih =>
    intro before m s h hpre hbefore hfits hpages
    obtain ⟨hseg, hmal⟩ := hpre ph (mem_cons_self ..)
    obtain ⟨hskip, hlo, hhi, hlt, hstart, hal, hbase⟩ := segments_lt hseg
    rcases hfits with hbad | ⟨hfit, hrest⟩
    · rw [hmal] at hbad
      cases hbad
    have hall := hbefore.snoc hseg hfit
    have huser := hrest.inUser pre hall fun q hq => hpre q (mem_cons_of_mem _ hq)
    have hsplit : before ++ ph :: pre = before ++ [ph] ++ pre := by simp
    rw [hsplit] at hpages
    have hstop := hfit.stop_le hlt
    -- no page is missing, so no frame is taken
    have hloop : forPages (segmentPage B root ph.writable) (pagesFrom ph.start ph.stop) s =
        .ok (true, s) := by
      refine forPages_mapped _ fun page hpage => ?_
      obtain ⟨hpge, hplt, -⟩ := (mem_pagesFrom_iff hal (stop_cases hlt).2.2.2.2).mp hpage
      have hslot : InSlot page := ⟨by omega, by unfold userMaxVma at hstop; omega⟩
      have hsome := hpages ph (by simp) page hpge hplt
      rw [space_slot h.tree hslot, Option.isSome_map] at hsome
      intro hz
      rw [(h.translate_eq_zero_iff hslot).mp hz] at hsome
      cases hsome
    obtain ⟨s₁, hs₁⟩ := storeUser_present s root hmal fun x hxlo hxhi => by
      obtain ⟨q, hq, hqlo, hqhi⟩ := hfit.bytes_on hlt hmal hstart hxlo hxhi
      exact hpages q (mem_append_left _ hq) x hqlo hqhi
    obtain ⟨-, h₁, hpool₁, hleaf₁, htree₁, -, -, -, hspace₁⟩ := h.store hlo hhi hs₁
    have hpages₁ : PagesIn s₁ root (before ++ [ph] ++ pre) := by
      intro q hq x hqlo hqhi
      obtain ⟨hqbase, hqmax⟩ := huser q hq
      rw [hspace₁ x ⟨by omega, by unfold userMaxVma at hqmax; omega⟩]
      exact Space.write_isSome.mpr (hpages q hq x hqlo hqhi)
    obtain ⟨m', s', he, h', hpool', htree', hleaf'⟩ := ih h₁
      (fun q hq => hpre q (mem_cons_of_mem _ hq)) hall hrest hpages₁
    refine ⟨m', s', ?_, h', hpool'.trans hpool₁, htree'.trans htree₁, fun k => by
      rw [hleaf', hleaf₁]⟩
    rw [cons_append, loadList, hmal, if_neg Bool.false_ne_true, hloop]
    dsimp only
    rw [hs₁]
    exact he

theorem exists_first (phs : List Phdr) : ∀ {before : List Phdr}, ¬ FitsFrom img.length before phs →
    ∃ pre ph rest, phs = pre ++ ph :: rest ∧ (∀ q ∈ pre, q.malformed img.length = false) ∧
      FitsFrom img.length before pre ∧ ph.malformed img.length = false ∧
      ¬ ph.FitsAfter (before ++ pre) := by
  induction phs with
  | nil => intro before h; exact absurd trivial h
  | cons ph phs ih =>
    intro before h
    simp only [FitsFrom, not_or, Bool.not_eq_true] at h
    obtain ⟨hmal, hnot⟩ := h
    by_cases hfit : ph.FitsAfter before
    · obtain ⟨pre, q, rest, rfl, hpre, hfits, hq, hbad⟩ := ih fun hrest => hnot ⟨hfit, hrest⟩
      refine ⟨ph :: pre, q, rest, rfl, fun p hp => ?_, Or.inr ⟨hfit, hfits⟩, hq, ?_⟩
      · rcases mem_cons.mp hp with rfl | hp
        · exact hmal
        · exact hpre p hp
      · rwa [append_assoc, singleton_append] at hbad
    · refine ⟨[], ph, phs, rfl, fun _ hp => absurd hp not_mem_nil, trivial, hmal, ?_⟩
      rwa [append_nil]

/-- A segment without pages of its own runs into the first page that is not
there. -/
theorem loadList_wrapped (rest : List Phdr) (m : ℕ) {x : ℕ} (h : Sound B root s)
    (hseg : ph ∈ segments img) (hmal : ph.malformed img.length = false)
    (hwrap : 2 ^ 64 - 4096 < ph.pVaddr + ph.pMemsz) (hlo : ph.pVaddr ≤ x)
    (hhi : x < ph.pVaddr + ph.pFilesz)
    (hnone : x < userMaxVma → leaf s.mem root (pageKey x) = none) :
    ∃ a s', loadList B root img (ph :: rest) m s = .error (.fault a s') := by
  obtain ⟨-, hbase, hmax, hlt, -, -, -⟩ := segments_lt hseg
  have hnil : pagesFrom ph.start ph.stop = [] := by
    rw [(stop_cases hlt).2.2.2.1 hwrap]
    unfold pagesFrom
    rw [Nat.zero_sub]
    rfl
  rw [loadList, hmal, if_neg Bool.false_ne_true, hnil, forPages]
  dsimp only
  cases hst : storeUser s root ph.pVaddr (ph.bytes img) with
  | error e =>
    obtain ⟨a, s', rfl⟩ := storeBytes_error _ hst
    exact ⟨a, s', rfl⟩
  | ok s' =>
    obtain ⟨hend, -, -, -, -, -, -, hmapped, -⟩ := h.store hbase hmax hst
    rw [(Phdr.bytes_in hmal).2.2] at hend hmapped
    have hslot : InSlot x := ⟨by omega, by unfold userMaxVma at hend; omega⟩
    have hsome := hmapped x hlo hhi
    rw [space_slot h.tree hslot, hnone (by omega)] at hsome
    cases hsome

theorem segmentPage_lost {w : Bool} (h : Sound B root s) (hfree : (B.free s.pool).card = 1) :
    ∃ s', segmentPage B root w userMaxVma s = .ok (true, s') ∧ Sound B root s' ∧
      B.free s'.pool = ∅ ∧ tree 4 s'.mem root = tree 4 s.mem root := by
  have hslot : InSlot userMaxVma := ⟨by decide, by decide⟩
  have hz : vmmTranslateIn s root (BitVec.ofNat 64 userMaxVma) = 0 := by
    rw [h.translate_eq_zero_iff hslot, pageKey_top]
    exact h.top
  unfold segmentPage freshPage
  rw [if_neg (not_not.mpr hz)]
  cases halloc : s.pmmAlloc B with
  | none =>
    rw [pmmAlloc_none halloc] at hfree
    cases hfree
  | some r =>
    obtain ⟨f, s₁⟩ := r
    obtain ⟨hf, hfree₁, -⟩ := pmmAlloc_some halloc
    obtain ⟨h₁, -, htree₁, -, hft, -⟩ := h.alloc halloc
    obtain ⟨h₂, -, htree₂, -⟩ := h₁.of_agree (s₁.fill f fun _ => 0)
      (fun g hg => Function.update_of_ne (fun e : g = f => hft (e ▸ hg)) _ _)
      fun g hg hin => h₁.not_free hin hg
    dsimp only
    rw [map_rejected (by decide)]
    refine ⟨_, rfl, h₂, ?_, htree₂.trans htree₁⟩
    show B.free s₁.pool = ∅
    rw [hfree₁, ← Finset.card_eq_zero, Finset.card_erase_of_mem hf, hfree]

/-- A loop over segments stays within the address space and the free
frames. -/
theorem LoadRun.within {phs : List Phdr} {m : ℕ} {o : Option ℕ}
    (h : LoadRun B root img phs m s (.ok (o, s'))) : Within B root s s' := by
  generalize hr : (Except.ok (o, s') : Except (Stop A) (Option ℕ × Vm A)) = r at h
  induction h with
  | done m s =>
    cases hr
    exact Within.refl _
  | malformed _ =>
    cases hr
    exact Within.refl _
  | noFrame _ _ hfill =>
    cases hr
    exact hfill.within
  | panic => cases hr
  | fault _ _ _ => cases hr
  | next _ hload _ ih => exact hload.within.trans (ih hr)

/-- **A segment that straddles `USER_MAX_VMA`** loses the last free frame
of a crowded address space. -/
theorem loadList_straddling {rest : List Phdr} {m : ℕ} (h : Sound B root s)
    (hfree : (B.free s.pool).card = 1) (hseg : ph ∈ segments img)
    (hrest : ∀ q ∈ rest, q ∈ segments img) (hmal : ph.malformed img.length = false)
    (hover : userMaxVma < ph.pVaddr + ph.pMemsz) (hend : ph.pVaddr + ph.pMemsz ≤ 2 ^ 64 - 4096)
    (hfull : ∀ x, userBase ≤ x → x < userMaxVma → (leaf s.mem root (pageKey x)).isSome) :
    ¬ LoopKeeps B root s (loadList B root img (ph :: rest) m s) := by
  obtain ⟨-, hlo, hhi, hlt, hstart, hal, hbase⟩ := segments_lt hseg
  have hstop := (stop_cases hlt).2.2.1 hover hend
  have hmax : userMaxVma % 4096 = 0 := by decide
  -- the pages below the limit are there
  have hbelow : forPages (segmentPage B root ph.writable) (pagesFrom ph.start userMaxVma) s =
      .ok (true, s) := by
    refine forPages_mapped _ fun page hpage => ?_
    obtain ⟨hpge, hplt, -⟩ := (mem_pagesFrom_iff hal hmax).mp hpage
    have hslot : InSlot page := ⟨hbase.trans hpge, hplt.trans (by decide)⟩
    intro hz
    have hsome := hfull page (hbase.trans hpge) hplt
    rw [(h.translate_eq_zero_iff hslot).mp hz] at hsome
    cases hsome
  obtain ⟨s₁, he₁, h₁, hfree₁, htree₁⟩ := segmentPage_lost (w := ph.writable) h hfree
  obtain ⟨ok, hafter⟩ := forPages_of_empty root ph.writable hfree₁
    (pagesFrom (userMaxVma + 4096) ph.stop)
  have hloop : forPages (segmentPage B root ph.writable) (pagesFrom ph.start ph.stop) s =
      .ok (ok, s₁) := by
    have hle : ph.start ≤ userMaxVma := hstart.trans hhi.le
    have hlt' : userMaxVma < ph.stop := (Nat.lt_add_of_pos_right (by decide)).trans_le hstop
    rw [pagesFrom_append hle hlt'.le hal hmax, forPages_append _ _ hbelow, pagesFrom_cons hlt',
      forPages, he₁]
    exact hafter
  -- a frame is missing from now on
  have hlost : ∀ s', Within B root s₁ s' →
      tree 4 s'.mem root + (B.free s'.pool).val ≠ tree 4 s.mem root + (B.free s.pool).val := by
    intro s' hwithin heq
    have hle := hwithin.frames
    rw [heq, htree₁, hfree₁] at hle
    have hcard := Multiset.card_le_card hle
    rw [Multiset.card_add, Multiset.card_add, Finset.card_val, Finset.card_val, hfree,
      Finset.card_empty] at hcard
    omega
  rw [loadList, hmal, if_neg Bool.false_ne_true, hloop]
  cases ok with
  | false => exact hlost s₁ (Within.refl s₁)
  | true =>
    dsimp only
    cases hst : storeUser s₁ root ph.pVaddr (ph.bytes img) with
    | error e =>
      obtain ⟨a, s', rfl⟩ := storeBytes_error _ hst
      exact fun hkeep => hkeep
    | ok s₂ =>
      obtain ⟨-, h₂, hpool₂, -, htree₂, hmem₂, hmem3₂, -, -⟩ := h₁.store hlo hhi hst
      have hwithin₂ : Within B root s₁ s₂ :=
        ⟨fun g hg _ => hmem₂ g hg, fun j _ => by rw [hmem3₂ root Tree.root_mem],
          by rw [htree₂, hpool₂]⟩
      dsimp only
      generalize (if m < ph.stop then ph.stop else m) = m'
      have hrun := loadList_run (B := B) img rest m' s₂ h₂ fun q hq => (segments_lt (hrest q hq)).1
      cases hr : loadList B root img rest m' s₂ with
      | error e =>
        obtain ⟨a, s', rfl⟩ := loadList_of_empty rest (by rw [hpool₂]; exact hfree₁) hr
        exact fun hkeep => hkeep
      | ok r =>
        obtain ⟨o, s'⟩ := r
        rw [hr] at hrun
        exact hlost s' (hwithin₂.trans hrun.within)

/-! ## Which images cost nothing -/

theorem keepsFrames_map {brkEnd : ℕ} {r : Except (Stop A) (Option ℕ × Vm A)} :
    KeepsFrames B root s (r.map (loadResult img brkEnd)) ↔ LoopKeeps B root s r := by
  cases r with
  | error e =>
    cases e <;> exact Iff.rfl
  | ok r =>
    obtain ⟨o, s'⟩ := r
    cases o <;> exact Iff.rfl

theorem FitsFrom.bytes (phs : List Phdr) : ∀ {before : List Phdr},
    FitsFrom img.length before phs → InUser before → (∀ q ∈ phs, q ∈ segments img) →
    ∀ ph ∈ phs.takeWhile (fun ph => !ph.malformed img.length), ∀ x, ph.pVaddr ≤ x →
      x < ph.pVaddr + ph.pFilesz → userBase ≤ x ∧ x < userMaxVma := by
  induction phs with
  | nil => intro before _ _ _ ph hph; exact absurd hph not_mem_nil
  | cons q phs ih =>
    intro before hfits hbefore hsegs ph hph x hlo hhi
    rcases hfits with hbad | ⟨hfit, hrest⟩
    · rw [takeWhile_cons_of_neg (by simp [hbad])] at hph
      exact absurd hph not_mem_nil
    have hseg := hsegs q (mem_cons_self ..)
    have hall := hbefore.snoc hseg hfit
    cases hmal : q.malformed img.length with
    | true =>
      rw [takeWhile_cons_of_neg (by simp [hmal])] at hph
      exact absurd hph not_mem_nil
    | false =>
      rw [takeWhile_cons_of_pos (by simp [hmal])] at hph
      rcases mem_cons.mp hph with rfl | hph
      · obtain ⟨-, hbase, -, hlt, hstart, -, -⟩ := segments_lt hseg
        obtain ⟨p, hp, -, hphi⟩ := hfit.bytes_on hlt hmal hstart hlo hhi
        have := (hall p hp).2
        exact ⟨by omega, by omega⟩
      · exact ih hrest hall (fun p hp => hsegs p (mem_cons_of_mem _ hp)) ph hph x hlo hhi

/-- An image with a segment that does not fit costs something in some
address space. -/
theorem not_costless (hhead : HeaderOk img) (h : ¬ FitsFrom img.length [] (segments img)) :
    ¬ Costless img := by
  rintro ⟨hkeep, -⟩
  obtain ⟨pre, ph, rest, hsplit, hpremal, hfits, hmal, hbad⟩ := exists_first (segments img) h
  have hin : ∀ q ∈ pre ++ ph :: rest, q ∈ segments img := fun q hq => by rw [hsplit]; exact hq
  have hpre : ∀ q ∈ pre, q ∈ segments img ∧ q.malformed img.length = false := fun q hq =>
    ⟨hin q (mem_append_left _ hq), hpremal q hq⟩
  have hseg : ph ∈ segments img := hin ph (by simp)
  have huser : InUser pre := by
    have := hfits.inUser pre (fun _ hq => absurd hq not_mem_nil) hpre
    simpa using this
  have hloop : ∀ (A : Type) (B : Buddy A) (s : Vm A), Sound B 1 s →
      LoopKeeps B 1 s (loadList B 1 img (pre ++ ph :: rest) 0 s) := by
    intro A B s hs
    have hk := hkeep A B 1 s 0 hs
    rw [elfLoad_eq, if_pos hhead, keepsFrames_map, hsplit] at hk
    exact hk
  by_cases hend : ph.pVaddr + ph.pMemsz ≤ 2 ^ 64 - 4096
  · -- the segment straddles the limit: every page is there, and one frame is free
    have hover : userMaxVma < ph.pVaddr + ph.pMemsz := by
      by_contra hle
      exact hbad (Or.inl (by omega))
    obtain ⟨B, mem, f, -, hfree, hsound, hmapped⟩ := exists_space fun _ => True
    have hs := hsound {f} (Finset.Subset.refl _)
    have hfull : ∀ x, userBase ≤ x → x < userMaxVma → (leaf mem 1 (pageKey x)).isSome :=
      fun x hlo hhi => (hmapped x hlo hhi).mpr trivial
    obtain ⟨m', s', he, hs', hpool, htree, hleaf⟩ := loadList_crowded (ph :: rest) pre
      (m := 0) hs hpre (fun _ hq => absurd hq not_mem_nil) hfits
      (fun q hq x hqlo hqhi => by
        obtain ⟨hqbase, hqmax⟩ := huser q (by simpa using hq)
        rw [space_slot hs.tree ⟨by omega, by unfold userMaxVma at hqmax; omega⟩, Option.isSome_map]
        exact hfull x (by omega) (by omega))
    have hcard : (B.free s'.pool).card = 1 := by
      rw [hpool]
      rw [hfree, Finset.card_singleton]
    have hnot := loadList_straddling (m := m') hs' hcard hseg
      (fun q hq => hin q (mem_append_right _ (mem_cons_of_mem _ hq))) hmal hover hend
      fun x hlo hhi => by rw [hleaf]; exact hfull x hlo hhi
    refine hnot ?_
    have hk := hloop _ B _ hs
    rw [he] at hk
    unfold LoopKeeps at hk ⊢
    rw [htree, hpool]
    exact hk
  -- the segment gets no pages: all are there but one that it needs
  have hwrap : 2 ^ 64 - 4096 < ph.pVaddr + ph.pMemsz := by omega
  obtain ⟨x, hxlo, hxhi, hxnot⟩ : ∃ x, ph.pVaddr ≤ x ∧ x < ph.pVaddr + ph.pFilesz ∧
      ∀ q ∈ pre, ¬ (q.start ≤ x ∧ x < q.stop) := by
    by_contra hno
    refine hbad (Or.inr ⟨hwrap, fun x hxlo hxhi => ?_⟩)
    by_contra hnone
    exact hno ⟨x, hxlo, hxhi, fun q hq hqx => hnone ⟨q, by simpa using hq, hqx⟩⟩
  obtain ⟨B, mem, f, hfree, -, hsound, hmapped⟩ := exists_space fun k => k ≠ x / 4096
  have hs := hsound ∅ (Finset.empty_subset _)
  obtain ⟨m', s', he, hs', -, -, hleaf⟩ := loadList_crowded (ph :: rest) pre
    (m := 0) hs hpre (fun _ hq => absurd hq not_mem_nil) hfits
    (fun q hq y hqlo hqhi => by
      have hq' : q ∈ pre := by simpa using hq
      obtain ⟨hqbase, hqmax⟩ := huser q hq'
      obtain ⟨-, -, -, hqlt, -, hqal, -⟩ := segments_lt (hpre q hq').1
      have hqstop := (stop_cases hqlt).2.2.2.2
      have hne : y / 4096 ≠ x / 4096 := fun heq => hxnot q hq' (by omega)
      rw [space_slot hs.tree ⟨by omega, by unfold userMaxVma at hqmax; omega⟩, Option.isSome_map]
      exact (hmapped y (by omega) (by omega)).mpr hne)
  obtain ⟨a, s₂, hfault⟩ := loadList_wrapped rest m' hs' hseg hmal hwrap hxlo hxhi
    fun hxmax => by
      have hxbase := (segments_lt hseg).2.1
      rw [hleaf, ← Option.not_isSome_iff_eq_none, hmapped x (by omega) hxmax]
      exact fun hne => hne rfl
  have hk := hloop _ B _ hs
  rw [he, hfault] at hk
  exact hk

/-- **An executable costs nothing** exactly if all its segments fit. -/
theorem costless_iff (img : List UInt8) : Costless img ↔ Fits img := by
  constructor
  · intro hcost hhead
    by_contra hno
    exact not_costless hhead hno hcost
  intro hfits
  refine ⟨fun A B root s brkEnd hs => ?_, fun hhead => ?_⟩
  · rw [elfLoad_eq]
    by_cases hhead : HeaderOk img
    · rw [if_pos hhead, keepsFrames_map]
      have hrun := loadList_run (B := B) img (segments img) 0 s hs fun q hq => (segments_lt hq).1
      exact hrun.keeps [] (fun _ hq => hq) (fun _ hq => absurd hq not_mem_nil)
        (fun _ hq => absurd hq not_mem_nil) (hfits hhead)
    · rw [if_neg hhead]
      exact rfl
  · exact FitsFrom.bytes (segments img) (hfits hhead) (fun _ hq => absurd hq not_mem_nil)
      fun _ hq => hq

/-- A segment of two pages, the second of them at `USER_MAX_VMA` -/
def straddlingImage : List UInt8 :=
  elfImage 0x7fffffffe000 [⟨1, 6, 0, 0x7fffffffe000, 0, 8192⟩] []

/-- **The second page costs a frame.** -/
theorem straddlingImage_costs : ¬ Costless straddlingImage := by
  have hsegs : segments straddlingImage = [⟨1, 6, 0, 0x7fffffffe000, 0, 8192⟩] := by decide +kernel
  refine not_costless (by decide +kernel) ?_
  rw [hsegs]
  rintro (hmal | ⟨hend | ⟨hwrap, -⟩, -⟩)
  · exact absurd hmal (by decide +kernel)
  · exact absurd hend (by decide)
  · exact absurd hwrap (by decide)

end Lnxrm.Exec
