import Lnxrm.Exec.Elf
import Lnxrm.Exec.Helpers.Crowded
import Lnxrm.Exec.Helpers.Pushing

/-!
# A program in its new address space

Proof layer. `Stages` takes a `sys_execve` that comes back with 0 apart, and
`Stages.spec` says what the new address space then is: the stack, the
segments over it, the trampoline page where nothing else is, and the
arguments. The old address space is in the way nowhere, since the new one is
made of frames that were free.
-/

namespace Lnxrm.Exec

open Function
open Vmm

variable {A : Type} {B : Buddy A} {s s' : Vm A} {root g : ℕ} {code : Page} {p p' : Proc A}
variable {argv : List (List UInt8)} {img path : List UInt8}

/-- A frame that is neither free nor part of the address space. -/
def Outside (B : Buddy A) (root : ℕ) (s : Vm A) (g : ℕ) : Prop :=
  g ∉ tree 4 s.mem root ∧ g ∉ B.free s.pool

/-- The tables behind `FIXMAP_VA` are the kernel's. -/
def Fixmap (B : Buddy A) (root : ℕ) (s : Vm A) : Prop :=
  Outside B root s pdHi ∧ (present (s.mem pdHi (index fixmapVa 21)) = true →
    Outside B root s (frameOf (s.mem pdHi (index fixmapVa 21))))

/-- **What `sys_execve` relies on**: the address space of its caller is in
order and has the kernel's first and last slot beside its own, and the
tables of the kernel are not free. -/
structure Caller (B : Buddy A) (root : ℕ) (s : Vm A) : Prop where
  sound : Sound B root s
  slots : ∀ i, i ≠ 0 → i ≠ 511 → i ≠ userSlot → present (s.mem root i) = false
  master : masterPml4 ∉ B.free s.pool
  fixmap : Fixmap B root s

/-- **The stages of a successful `sys_execve`** -/
structure Stages (B : Buddy A) (code : Page) (p : Proc A) (argv : List (List UInt8))
    (img : List UInt8) (root entry brkEnd sp : ℕ) (s₀ s₁ s₂ s₃ s₄ : Vm A) : Prop where
  aspace : vmmNewUserAspace B p.vm = .ok (root, s₀)
  stack : forPages (freshPage B root true) stackPages s₀ = .ok (true, s₁)
  load : elfLoad B root img 0 s₁ = .ok (entry, brkEnd, s₂)
  entry_ne : entry ≠ 0
  trampoline : signalInitTrampoline B code root (vmmDestroyUserAspace B s₂ p.pml4) = .ok s₃
  push : pushArgs root argv s₃ = .ok (sp, s₄)

/-- The process after them -/
def Proc.entered (p : Proc A) (path : List UInt8) (root entry brkEnd sp : ℕ) (s : Vm A) : Proc A where
  vm := s
  pml4 := root
  brkBase := BitVec.ofNat 64 (alignUp brkEnd)
  brkCur := BitVec.ofNat 64 (alignUp brkEnd)
  name := path.take 15
  saHandler := fun sig => if 1 ≤ sig ∧ sig < Signal.nsig then 0 else p.saHandler sig
  signalPending := 0
  tf := entryFrame p.tf entry sp

theorem orPanic_ok {α : Type} {r : Except (Vm A) α} {a : α} (h : orPanic r = .ok a) : r = .ok a := by
  cases r with
  | error e => cases h
  | ok b => exact congrArg _ (Except.ok.inj h)

theorem execImage_iff : execImage B code p path argv img = .ok (0, p') ↔
    ∃ root entry brkEnd sp s₀ s₁ s₂ s₃ s₄,
      Stages B code p argv img root entry brkEnd sp s₀ s₁ s₂ s₃ s₄ ∧
        p' = p.entered path root entry brkEnd sp s₄ := by
  constructor
  · intro h
    obtain ⟨⟨root, s₀⟩, hnew, h⟩ := ok_of_bind h
    obtain ⟨⟨ok, s₁⟩, hstack, h⟩ := ok_of_bind h
    cases ok with
    | false => cases h
    | true =>
      obtain ⟨⟨entry, brkEnd, s₂⟩, hload, h⟩ := ok_of_bind h
      dsimp only at h
      by_cases hentry : entry = 0
      · rw [if_pos hentry] at h
        cases h
      rw [if_neg hentry] at h
      obtain ⟨s₃, htramp, h⟩ := ok_of_bind h
      obtain ⟨⟨sp, s₄⟩, hpush, h⟩ := ok_of_bind h
      cases h
      exact ⟨root, entry, brkEnd, sp, s₀, s₁, s₂, s₃, s₄,
        ⟨orPanic_ok hnew, hstack, hload, hentry, htramp, hpush⟩, rfl⟩
  rintro ⟨root, entry, brkEnd, sp, s₀, s₁, s₂, s₃, s₄, h, rfl⟩
  unfold execImage
  rw [h.aspace, bind_of_ok (show orPanic (.ok (root, s₀)) = .ok (root, s₀) from rfl)]
  dsimp only
  rw [bind_of_ok h.stack]
  dsimp only
  rw [if_neg (by decide), bind_of_ok h.load]
  rw [if_neg h.entry_ne, bind_of_ok h.trampoline, bind_of_ok h.push]
  rfl

/-- A file that cannot be had is an error. -/
def Refuses (file : List UInt8 → Except Int (List UInt8)) : Prop :=
  ∀ path err, file path = .error err → err < 0

/-- **A successful `sys_execve`** has its path, its arguments and its file. -/
theorem sysExecve_ok {turns : ℕ} {file : List UInt8 → Except Int (List UInt8)}
    {upath uargv : BitVec 64} (hfile : Refuses file)
    (h : sysExecve B turns file code p upath uargv = .ok (0, p')) :
    ∃ path argv img, execArgs turns p.vm p.pml4 uargv = .ok argv ∧ file path = .ok img ∧
      execImage B code p path argv img = .ok (0, p') := by
  obtain ⟨⟨rc, path⟩, -, h⟩ := ok_of_bind h
  dsimp only at h
  by_cases hrc : rc < 0
  · rw [if_pos hrc] at h
    cases h
  rw [if_neg hrc] at h
  obtain ⟨argv, hargs, h⟩ := ok_of_bind h
  cases himg : file path with
  | error err =>
    rw [himg] at h
    cases h
    exact absurd (hfile path 0 himg) (lt_irrefl 0)
  | ok img =>
    rw [himg] at h
    exact ⟨path, argv, img, hargs, himg, h⟩

theorem sysExecve_of {turns : ℕ} {file : List UInt8 → Except Int (List UInt8)}
    {upath uargv : BitVec 64} (hpath : copyUserStr turns p.vm p.pml4 upath 128 = .ok (0, path))
    (hargs : execArgs turns p.vm p.pml4 uargv = .ok argv) (himg : file path = .ok img)
    (h : execImage B code p path argv img = .ok (0, p')) :
    sysExecve B turns file code p upath uargv = .ok (0, p') := by
  unfold sysExecve
  rw [bind_of_ok hpath]
  dsimp only
  rw [if_neg (lt_irrefl 0), bind_of_ok hargs, himg]
  exact h

theorem Fixmap.of_outside {root' : ℕ} (h : Fixmap B root s)
    (hout : ∀ g, Outside B root s g → s'.mem g = s.mem g ∧ Outside B root' s' g) :
    Fixmap B root' s' := by
  obtain ⟨hpd, hpt⟩ := h
  obtain ⟨hmem, hpd'⟩ := hout pdHi hpd
  refine ⟨hpd', fun hp => ?_⟩
  rw [hmem] at hp ⊢
  exact (hout _ (hpt hp)).2

/-! ## The trampoline -/

/-- The page of the trampoline -/
def trampolinePage : ℕ := 0x7fffff800

theorem frameOf_kernelEntry {t : ℕ} (ht : t * 4096 < 2 ^ 64) :
    frameOf (addrOf t ||| pgP ||| pgW) = t := by
  have ha := toNat_addrOf ht
  unfold frameOf
  rw [BitVec.or_assoc, toNat_flags (by omega) (by decide), ha]
  show (t * 4096 + 3) / 4096 = t
  omega

/-- **`vmm_map_kernel_page`** at `FIXMAP_VA` leaves an address space
alone. -/
theorem mapKernelPage_end {pa : BitVec 64} (h : Sound B root s) (hfix : Fixmap B root s)
    (hok : vmmMapKernelPage B s fixmapVa pa 0 = .ok s') :
    Sound B root s' ∧ (∀ k, leaf s'.mem root k = leaf s.mem root k) ∧
      tree 4 s'.mem root = tree 4 s.mem root ∧
      (∀ a, InSlot a → space s' root a = space s root a) ∧
      B.free s'.pool ⊆ B.free s.pool := by
  obtain ⟨⟨hpdt, hpdf⟩, hpt⟩ := hfix
  unfold vmmMapKernelPage at hok
  by_cases hp : present (s.mem pdHi (index fixmapVa 21)) = true
  · rw [if_pos hp] at hok
    cases hok
    obtain ⟨hptt, -⟩ := hpt hp
    obtain ⟨h', hleaf, htree, hspace⟩ := h.of_agree
      (s.store (frameOf (s.mem pdHi (index fixmapVa 21))) (index fixmapVa 12)
        ((pa &&& ~~~0xfff#64) ||| pgP ||| pgW ||| 0))
      (fun g hg => update_of_ne (ne_of_mem_of_not_mem hg hptt) _ _)
      fun g hg hin => h.not_free hin hg
    exact ⟨h', hleaf, htree, hspace, Finset.Subset.refl _⟩
  rw [if_neg hp] at hok
  cases halloc : s.pmmAlloc B with
  | none =>
    rw [halloc] at hok
    cases hok
  | some r =>
    obtain ⟨t, s₁⟩ := r
    rw [halloc] at hok
    cases hok
    obtain ⟨-, hfree, -⟩ := pmmAlloc_some halloc
    obtain ⟨h₁, hleaf₁, htree₁, hspace₁, htt, -, -, htlt⟩ := h.alloc halloc
    have hword : ((s₁.fill t fun _ => 0).store pdHi (index fixmapVa 21)
        (addrOf t ||| pgP ||| pgW)).mem pdHi (index fixmapVa 21) = addrOf t ||| pgP ||| pgW := by
      dsimp only [Vm.store]
      rw [update_self, update_self]
    have hpd₁ : pdHi ∉ tree 4 s₁.mem root := by
      rw [htree₁]
      exact hpdt
    obtain ⟨h', hleaf, htree, hspace⟩ := h₁.of_agree
      (((s₁.fill t fun _ => 0).store pdHi (index fixmapVa 21) (addrOf t ||| pgP ||| pgW)).store
        t (index fixmapVa 12) ((pa &&& ~~~0xfff#64) ||| pgP ||| pgW ||| 0))
      (fun g hg => by
        have hgt : g ≠ t := fun e => htt (e ▸ hg)
        have hgp : g ≠ pdHi := fun e => hpd₁ (e ▸ hg)
        dsimp only [Vm.store, Vm.fill]
        rw [update_of_ne hgt, update_of_ne hgp, update_of_ne hgt])
      fun g hg hin => h₁.not_free hin hg
    rw [hword, frameOf_kernelEntry htlt]
    refine ⟨h', fun k => (hleaf k).trans (hleaf₁ k), htree.trans htree₁,
      fun a ha => (hspace a ha).trans (hspace₁ a ha), ?_⟩
    show B.free s₁.pool ⊆ B.free s.pool
    rw [hfree]
    exact Finset.erase_subset _ _

theorem accepts_trampoline : Accepts Signal.sigTrampolineVa := by decide

theorem inSlot_trampoline : InSlot 0x7fffff800000 := ⟨by decide, by decide⟩

theorem trampoline_placed {f : ℕ} {s₁ s₂ s₃ : Vm A} {rc : Int} (h : Sound B root s)
    (hfix : Fixmap B root s) (hnone : leaf s.mem root (key Signal.sigTrampolineVa) = none)
    (halloc : s.pmmAlloc B = some (f, s₁)) (hk : vmmMapKernelPage B s₁ fixmapVa (addrOf f) 0 = .ok s₂)
    (he : vmmMapUser B (s₂.fill f code) root Signal.sigTrampolineVa (addrOf f) true true =
      .ok (rc, s₃)) :
    Placed B root Signal.sigTrampolineVa true f code s₂ s₃ ∧
      ∀ x, InSlot x → x / 4096 ≠ trampolinePage → space s₃ root x = space s root x := by
  obtain ⟨hf, hfree₁, -, hmem₁, -⟩ := pmmAlloc_some halloc
  obtain ⟨h₁, hleaf₁, htree₁, hspace₁, hft₁, hff₁, hfm, hflt⟩ := h.alloc halloc
  have hfix₁ : Fixmap B root s₁ := by
    refine hfix.of_outside fun g hg => ⟨hmem₁ g hg.2, by rw [htree₁]; exact hg.1, ?_⟩
    rw [hfree₁]
    exact fun hin => hg.2 (Finset.mem_of_mem_erase hin)
  obtain ⟨h₂, hleaf₂, htree₂, hspace₂, hsub₂⟩ := mapKernelPage_end h₁ hfix₁ hk
  have hft₂ : f ∉ tree 4 s₂.mem root := by
    rw [htree₂]
    exact hft₁
  rcases h₂.place accepts_trampoline (by rw [hleaf₂, hleaf₁]; exact hnone) hft₂
    (fun hin => hff₁ (hsub₂ hin)) hfm hflt true code with ⟨s', he', -⟩ | ⟨s', he', hp⟩
  · rw [he'] at he
    cases he
  · rw [he'] at he
    cases he
    refine ⟨hp, fun x hx hpage => ?_⟩
    rw [Placed.space h₂ hp accepts_trampoline hflt hft₂ hx, if_neg, hspace₂ x hx, hspace₁ x hx]
    exact hpage

/-- **`signal_init_trampoline`** adds its page where none is mapped. -/
theorem trampoline_end (h : Sound B root s) (hfix : Fixmap B root s)
    (hok : signalInitTrampoline B code root s = .ok s') :
    Sound B root s' ∧ ∀ x, InSlot x → (x / 4096 ≠ trampolinePage ∨ (space s root x).isSome) →
      space s' root x = space s root x := by
  unfold signalInitTrampoline at hok
  by_cases hz : vmmTranslateIn s root Signal.sigTrampolineVa = 0
  · rw [if_neg (not_not.mpr hz)] at hok
    have hnone : leaf s.mem root (key Signal.sigTrampolineVa) = none :=
      (h.translate_eq_zero_iff inSlot_trampoline).mp hz
    cases halloc : s.pmmAlloc B with
    | none =>
      rw [halloc] at hok
      cases hok
      exact ⟨h, fun _ _ _ => rfl⟩
    | some r =>
      obtain ⟨f, s₁⟩ := r
      rw [halloc] at hok
      simp only [bind, Except.bind] at hok
      cases hk : vmmMapKernelPage B s₁ fixmapVa (addrOf f) 0 with
      | error e =>
        rw [hk] at hok
        cases hok
      | ok s₂ =>
        rw [hk] at hok
        dsimp only at hok
        cases he : vmmMapUser B (s₂.fill f code) root Signal.sigTrampolineVa (addrOf f) true true with
        | error e =>
          rw [he] at hok
          cases hok
        | ok r =>
          rw [he] at hok
          cases hok
          obtain ⟨hp, hspace⟩ := trampoline_placed h hfix hnone halloc hk he
          refine ⟨hp.sound, fun x hx hkeep => hspace x hx (hkeep.elim id fun hsome heq => ?_)⟩
          -- the page was not there
          have hkey : pageKey x = key Signal.sigTrampolineVa :=
            (pageKey_eq_iff hx inSlot_trampoline).mpr heq
          rw [space_slot h.tree hx, hkey, hnone] at hsome
          cases hsome
  · rw [if_pos hz] at hok
    cases hok
    exact ⟨h, fun _ _ _ => rfl⟩

theorem pmmAlloc_of_card (h : 0 < (B.free s.pool).card) : ∃ f s', s.pmmAlloc B = some (f, s') ∧
    (B.free s'.pool).card + 1 = (B.free s.pool).card := by
  cases halloc : s.pmmAlloc B with
  | none =>
    rw [pmmAlloc_none halloc, Finset.card_empty] at h
    omega
  | some r =>
    obtain ⟨f, s₁⟩ := r
    obtain ⟨hf, hfree, -⟩ := pmmAlloc_some halloc
    refine ⟨f, s₁, rfl, ?_⟩
    rw [hfree, Finset.card_erase_add_one hf]

theorem mapKernelPage_ok (pa : BitVec 64) (h : 0 < (B.free s.pool).card) :
    ∃ s', vmmMapKernelPage B s fixmapVa pa 0 = .ok s' ∧
      (B.free s.pool).card ≤ (B.free s'.pool).card + 1 := by
  unfold vmmMapKernelPage
  split
  · exact ⟨_, rfl, Nat.le_succ _⟩
  · obtain ⟨f, s₁, halloc, hcard⟩ := pmmAlloc_of_card h
    rw [halloc]
    exact ⟨_, rfl, hcard.ge⟩

theorem trampoline_ok (code : Page) (h : Sound B root s) (hfix : Fixmap B root s)
    (hcard : 5 ≤ (B.free s.pool).card) :
    ∃ s', signalInitTrampoline B code root s = .ok s' ∧
      (leaf s'.mem root (pageKey 0x7fffff800000)).isSome ∧
      (B.free s.pool).card ≤ (B.free s'.pool).card + 5 := by
  unfold signalInitTrampoline
  by_cases hz : vmmTranslateIn s root Signal.sigTrampolineVa = 0
  · obtain ⟨f, s₁, halloc, hcard₁⟩ := pmmAlloc_of_card (B := B) (s := s) (by omega)
    obtain ⟨s₂, hk, hcard₂⟩ := mapKernelPage_ok (B := B) (s := s₁) (addrOf f) (by omega)
    obtain ⟨s₃, he, hcard₃⟩ := mapUser_ok (B := B) (s := s₂.fill f code) root (addrOf f) true true
      accepts_trampoline (show 3 ≤ (B.free s₂.pool).card by omega)
    have hnone : leaf s.mem root (key Signal.sigTrampolineVa) = none :=
      (h.translate_eq_zero_iff inSlot_trampoline).mp hz
    rw [if_neg (not_not.mpr hz), halloc]
    simp only [bind, Except.bind, hk, he]
    refine ⟨s₃, rfl, ?_, ?_⟩
    · rw [(trampoline_placed h hfix hnone halloc hk he).1.leaf]
      exact Option.isSome_iff_exists.mpr ⟨_, if_pos rfl⟩
    · have : (B.free s₂.pool).card ≤ (B.free s₃.pool).card + 3 := hcard₃
      omega
  · rw [if_pos hz]
    refine ⟨s, rfl, ?_, Nat.le_add_right _ _⟩
    rw [Option.isSome_iff_ne_none]
    exact fun hnone => hz ((h.translate_eq_zero_iff inSlot_trampoline).mpr hnone)

/-! ## The new address space -/

/-- The stack, and the segments over it -/
def programSpace (img : List UInt8) : Space :=
  loadAll img (segments img) (Space.addPages true (userStackTop - 0x4000) userStackTop fun _ => none)

/-- **The address space before the trampoline**: the old one has been given
back, and the new one is in order. -/
theorem beforeTrampoline {entry brkEnd : ℕ} {s₀ s₁ s₂ : Vm A} (hc : Caller B p.pml4 p.vm)
    (haspace : vmmNewUserAspace B p.vm = .ok (root, s₀))
    (hstack : forPages (freshPage B root true) stackPages s₀ = .ok (true, s₁))
    (hload : elfLoad B root img 0 s₁ = .ok (entry, brkEnd, s₂)) (hentry : entry ≠ 0) :
    Sound B root (vmmDestroyUserAspace B s₂ p.pml4) ∧
      Fixmap B root (vmmDestroyUserAspace B s₂ p.pml4) ∧
      (∀ x, InSlot x → space (vmmDestroyUserAspace B s₂ p.pml4) root x = programSpace img x) ∧
      B.free s₂.pool ⊆ B.free (vmmDestroyUserAspace B s₂ p.pml4).pool ∧
      brkEnd = alignUp (maxStop (segments img) 0) ∧
      ∀ ph ∈ segments img, ph.skipped = false ∧ ph.malformed img.length = false := by
  -- the new address space, its stack and its segments
  rcases Sound.new hc.master with ⟨s', he, -⟩ | ⟨root', s', he, h₀, hleaf₀, hframes₀, hmem₀, -⟩
  · rw [he] at haspace
    cases haspace
  rw [he] at haspace
  cases haspace
  have hspace₀ : ∀ x, InSlot x → space s₀ root x = none := fun x hx => by
    rw [space_slot h₀.tree hx, hleaf₀]
    rfl
  rcases freshPages_end (w := true) (a := userStackTop - 0x4000) (b := userStackTop) h₀ (by decide)
    (by decide) (by decide) (by decide) (fun x hx _ _ => hspace₀ x hx) with
    ⟨c, s', -, he, -⟩ | ⟨s', he⟩ | ⟨s', he, hfill⟩
  · rw [stackPages, he] at hstack
    cases hstack
  · rw [stackPages, he] at hstack
    cases hstack
  rw [stackPages, he] at hstack
  cases hstack
  obtain ⟨-, -, hloaded, hbrk, hsegs⟩ := elfLoad_loaded hfill.sound hload hentry
  have hwithin := hfill.within.trans hloaded.within
  -- what was not free has stayed as it was
  have hkept : ∀ g, g ∉ B.free p.vm.pool → s₂.mem g = p.vm.mem g ∧ Outside B root s₂ g := by
    intro g hg
    have hout : g ∉ tree 4 s₀.mem root ∧ g ∉ B.free s₀.pool := by
      rw [← not_or, ← Finset.mem_val, ← Multiset.mem_add, hframes₀]
      exact hg
    exact ⟨by rw [hwithin.mem g hout.1 hout.2, hmem₀ g hg], hwithin.not_mem hout.1 hout.2⟩
  have hold : ∀ g ∈ tree 4 p.vm.mem p.pml4, s₂.mem g = p.vm.mem g ∧ Outside B root s₂ g :=
    fun g hg => hkept g (hc.sound.not_free hg)
  obtain ⟨hsound, -, htree, -⟩ := hc.sound.of_agree s₂ (fun g hg => (hold g hg).1)
    fun g hg hin => (hold g hin).2.2 hg
  have hroot : s₂.mem p.pml4 = p.vm.mem p.pml4 :=
    (hold p.pml4 (Sound.table_mem Tree.root_mem)).1
  have hfrees := destroy_frees (Finset.Subset.refl B.managed) hsound.tree hsound.managed hsound.nodup
    (fun i h0 h511 hu => by rw [hroot]; exact hc.slots i h0 h511 hu)
  rw [htree] at hfrees
  generalize vmmDestroyUserAspace B s₂ p.pml4 = s at hfrees ⊢
  -- the frames that come back are none of the new address space
  have hnew : ∀ g ∈ tree 4 s₂.mem root, g ∉ B.free s.pool := by
    intro g hg hin
    rcases hfrees.mem_free.mp hin with hfree | hin
    · exact hloaded.sound.not_free hg hfree
    · exact (hold g hin).2.1 hg
  obtain ⟨hs, -, htree', hspace⟩ := hloaded.sound.of_agree s (fun g hg => hfrees.mem g (hnew g hg))
    fun g hg hin => hnew g hin hg
  refine ⟨hs, hc.fixmap.of_outside fun g hg => ?_, fun x hx => ?_, fun g hg => ?_, hbrk, hsegs⟩
  · obtain ⟨hmem, hgt, hgf⟩ := hkept g hg.2
    have hgs : g ∉ B.free s.pool := fun hin => (hfrees.mem_free.mp hin).elim hgf hg.1
    exact ⟨by rw [hfrees.mem g hgs, hmem], by rw [htree']; exact hgt, hgs⟩
  · rw [hspace x hx, hloaded.space x hx]
    refine loadAll_congr _ ?_
    rw [hfill.space x hx]
    exact Space.addPages_congr (hspace₀ x hx)
  · exact hfrees.mem_free.mpr (Or.inl hg)

theorem loadAll_isSome {x : ℕ} (phs : List Phdr) : ∀ {σ : Space}, (loadAll img phs σ x).isSome ↔
    (σ x).isSome ∨ ∃ ph ∈ phs, ph.start ≤ x ∧ x < ph.stop ∧ x < userMaxVma := by
  induction phs with
  | nil => intro σ; simp [loadAll]
  | cons ph phs ih =>
    intro σ
    show (loadAll img phs (ph.load img σ) x).isSome ↔ _
    rw [ih, Phdr.load, Space.write_isSome, Space.addPages_isSome, List.exists_mem_cons_iff, or_assoc]

/-- **The pages of a program**: those of the stack and of the segments. -/
theorem programSpace_isSome {x : ℕ} : (programSpace img x).isSome ↔
    (userStackTop - 0x4000 ≤ x ∧ x < userStackTop) ∨
      ∃ ph ∈ segments img, ph.start ≤ x ∧ x < ph.stop ∧ x < userMaxVma := by
  unfold programSpace
  rw [loadAll_isSome, Space.addPages_isSome]
  refine or_congr_left ⟨?_, fun h => Or.inr ⟨h.1, h.2, h.2.trans (by decide)⟩⟩
  rintro (hnone | ⟨hlo, hhi, -⟩)
  · cases hnone
  · exact ⟨hlo, hhi⟩

/-- **The program is ready**: its address space is in order, it has its
stack and its segments, and perhaps the trampoline, and the arguments have
been stored. -/
structure Started (B : Buddy A) (img : List UInt8) (argv : List (List UInt8)) (root : ℕ)
    (s₃ s₄ : Vm A) : Prop where
  sound₃ : Sound B root s₃
  space₃ : ∀ x, InSlot x → (x / 4096 ≠ trampolinePage ∨ (programSpace img x).isSome) →
    space s₃ root x = programSpace img x
  stack : ∀ x, userStackTop - 0x4000 ≤ x → x < userStackTop → (space s₃ root x).isSome
  written : Overwritten B root s₃ s₄
  space : ∀ x, InSlot x → space s₄ root x = writeAll (argWrites argv) (Vmm.space s₃ root) x

theorem inSlot_stack {x : ℕ} (hlo : userStackTop - 0x4000 ≤ x) (hhi : x < userStackTop) :
    InSlot x := by
  have htop : userStackTop = 0x7fffffbff000 := rfl
  exact ⟨by unfold userBase; omega, by omega⟩

theorem pushArgs_spec (h : Sound B root s) (hargs : Fitting argv)
    (hstack : ∀ x, userStackTop - 0x4000 ≤ x → x < userStackTop → (space s root x).isSome) :
    ∃ s', pushArgs root argv s = .ok (entrySp argv, s') ∧ Overwritten B root s s' ∧
      ∀ x, InSlot x → space s' root x = writeAll (argWrites argv) (space s root) x := by
  obtain ⟨s', hs', hover, hspace⟩ := storeAll_spec (argWrites argv) h fun w hw => by
    obtain ⟨hlo, hhi, hpos⟩ := argWrites_in hargs w hw
    refine ⟨hpos, fun x hx => ?_⟩
    have htop : userStackTop = 0x7fffffbff000 := rfl
    unfold Write.Covers at hx
    exact ⟨⟨by unfold userBase; omega, by unfold userMaxVma; omega⟩, hstack x (by omega) (by omega)⟩
  exact ⟨s', by rw [pushArgs_eq, hs']; rfl, hover, hspace⟩

/-- **What a successful `sys_execve` has done** -/
theorem Stages.spec {entry brkEnd sp : ℕ} {s₀ s₁ s₂ s₃ s₄ : Vm A} (hc : Caller B p.pml4 p.vm)
    (hargs : Fitting argv) (h : Stages B code p argv img root entry brkEnd sp s₀ s₁ s₂ s₃ s₄) :
    Started B img argv root s₃ s₄ ∧ sp = entrySp argv ∧
      brkEnd = alignUp (maxStop (segments img) 0) ∧
      ∀ ph ∈ segments img, ph.skipped = false ∧ ph.malformed img.length = false := by
  obtain ⟨hs, hfix, hspace, -, hbrk, hsegs⟩ :=
    beforeTrampoline hc h.aspace h.stack h.load h.entry_ne
  obtain ⟨h₃, hspace₃⟩ := trampoline_end hs hfix h.trampoline
  have hkeep : ∀ x, InSlot x → (x / 4096 ≠ trampolinePage ∨ (programSpace img x).isSome) →
      space s₃ root x = programSpace img x := by
    intro x hx hor
    rw [← hspace x hx] at hor ⊢
    exact hspace₃ x hx hor
  have hstack : ∀ x, userStackTop - 0x4000 ≤ x → x < userStackTop → (space s₃ root x).isSome := by
    intro x hlo hhi
    have hsome : (programSpace img x).isSome := programSpace_isSome.mpr (Or.inl ⟨hlo, hhi⟩)
    rw [hkeep x (inSlot_stack hlo hhi) (Or.inr hsome)]
    exact hsome
  obtain ⟨s', hs', hover, hspace'⟩ := pushArgs_spec h₃ hargs hstack
  have hpush := h.push
  rw [hs'] at hpush
  cases hpush
  exact ⟨⟨h₃, hkeep, hstack, hover, hspace'⟩, rfl, hbrk, hsegs⟩

/-- **`sys_execve` succeeds** where its executable can be loaded and five
frames are left; the trampoline is there then. -/
theorem execImage_ok {entry brkEnd : ℕ} {s₀ s₁ s₂ : Vm A} (code : Page) (path : List UInt8)
    (hc : Caller B p.pml4 p.vm) (hargs : Fitting argv)
    (haspace : vmmNewUserAspace B p.vm = .ok (root, s₀))
    (hstack : forPages (freshPage B root true) stackPages s₀ = .ok (true, s₁))
    (hload : elfLoad B root img 0 s₁ = .ok (entry, brkEnd, s₂)) (hentry : entry ≠ 0)
    (hcard : 5 ≤ (B.free s₂.pool).card) :
    ∃ s₄, execImage B code p path argv img =
        .ok (0, p.entered path root entry brkEnd (entrySp argv) s₄) ∧
      (leaf s₄.mem root (pageKey 0x7fffff800000)).isSome ∧
      (B.free s₂.pool).card ≤ (B.free s₄.pool).card + 5 := by
  obtain ⟨hs, hfix, hspace, hsub, -, -⟩ := beforeTrampoline hc haspace hstack hload hentry
  have hle := Finset.card_le_card hsub
  obtain ⟨s₃, htramp, hleaf, hcard₃⟩ := trampoline_ok code hs hfix (by omega)
  obtain ⟨h₃, hspace₃⟩ := trampoline_end hs hfix htramp
  obtain ⟨s₄, hpush, hover, -⟩ := pushArgs_spec h₃ hargs fun x hlo hhi => by
    have hx := inSlot_stack hlo hhi
    have hsome : (space (vmmDestroyUserAspace B s₂ p.pml4) root x).isSome := by
      rw [hspace x hx]
      exact programSpace_isSome.mpr (Or.inl ⟨hlo, hhi⟩)
    rw [hspace₃ x hx (Or.inr hsome)]
    exact hsome
  refine ⟨s₄, execImage_iff.mpr ⟨root, entry, brkEnd, entrySp argv, s₀, s₁, s₂, s₃, s₄,
    ⟨haspace, hstack, hload, hentry, htramp, hpush⟩, rfl⟩, ?_, ?_⟩
  · rw [hover.leaf]
    exact hleaf
  · rw [hover.pool]
    omega

/-! ## A caller -/

/-- The stages that read the executable, and whether `k` frames are left -/
def loadRun (B : Buddy A) (vm : Vm A) (img : List UInt8) (k : ℕ) :
    Except (Stop A) (Bool × ℕ × ℕ × Bool) := do
  let (root, s) ← orPanic (vmmNewUserAspace B vm)
  let (ok, s) ← forPages (freshPage B root true) stackPages s
  let (entry, brkEnd, s) ← elfLoad B root img 0 s
  return (ok, entry, brkEnd, decide (k ≤ (B.free s.pool).card))

theorem execImage_run {entry brkEnd k : ℕ} (code : Page) (path : List UInt8)
    (hc : Caller B p.pml4 p.vm) (hargs : Fitting argv)
    (hrun : (loadRun B p.vm img k).toOption = some (true, entry, brkEnd, true)) (hk : 5 ≤ k)
    (hentry : entry ≠ 0) :
    ∃ root s, execImage B code p path argv img =
        .ok (0, p.entered path root entry brkEnd (entrySp argv) s) ∧
      (leaf s.mem root (pageKey 0x7fffff800000)).isSome ∧ k ≤ (B.free s.pool).card + 5 := by
  have hr := ok_of_toOption hrun
  obtain ⟨⟨root, s₀⟩, hnew, hr⟩ := ok_of_bind hr
  obtain ⟨⟨ok, s₁⟩, hstack, hr⟩ := ok_of_bind hr
  obtain ⟨⟨entry', brkEnd', s₂⟩, hload, hr⟩ := ok_of_bind hr
  have hr' := Except.ok.inj hr
  simp only [Prod.mk.injEq, decide_eq_true_eq] at hr'
  obtain ⟨rfl, rfl, rfl, hcard⟩ := hr'
  obtain ⟨s₄, himage, hleaf, hle⟩ := execImage_ok code path hc hargs (orPanic_ok hnew) hstack hload
    hentry (hk.trans hcard)
  exact ⟨root, s₄, himage, hleaf, hcard.trans hle⟩

theorem sixtyFour_le : 64 ≤ 2 ^ 52 := by decide

/-- An allocator of 63 frames -/
def smallBuddy : Buddy (Finset ℕ) := Buddy.least 64 sixtyFour_le

/-- The memory of a caller: a path that is empty, a vector of one argument
and the argument -/
def callerBytes : List UInt8 :=
  wordBytes 0 ++ wordBytes (userBase + 32) ++ wordBytes 0 ++ wordBytes 0 ++ [0x61, 0]

/-- An address space with this memory in its first page -/
def callerVm : Vm (Finset ℕ) :=
  ((freshPage smallBuddy 1 true userBase (emptySpace (Finset.range 40 \ {0, 1}))).bind fun r =>
    storeUser r.2 1 userBase callerBytes).toOption.getD (emptySpace ∅)

def caller : Proc (Finset ℕ) where
  vm := callerVm
  pml4 := 1
  brkBase := 0
  brkCur := 0
  name := []
  saHandler := fun _ => 0
  signalPending := 0
  tf := clearedFrame

theorem caller_ready : Caller smallBuddy caller.pml4 caller.vm := by
  unfold caller
  obtain ⟨h₀, hleaf₀⟩ := emptySpace_sound (Finset.range 40 \ {0, 1}) (by decide)
  have hrun : ((freshPage smallBuddy 1 true userBase
      (emptySpace (Finset.range 40 \ {0, 1}))).toOption.map fun r => r.1) = some true := by
    decide +kernel
  have hend := freshPage_end (B := smallBuddy) (w := true) h₀
    (show userBase % 4096 = 0 by decide) le_rfl (by decide) fun _ => hleaf₀ _
  unfold callerVm
  cases hfresh : freshPage smallBuddy 1 true userBase (emptySpace (Finset.range 40 \ {0, 1})) with
  | error e =>
    rw [hfresh] at hrun
    cases hrun
  | ok r =>
    rw [hfresh] at hrun hend
    rcases hend with ⟨c, s', -, he, -⟩ | ⟨s', he⟩ | ⟨s₁, he, hfill⟩
    · cases he
      cases hrun
    · cases he
    cases he
    -- the bytes go to the page
    obtain ⟨s₂, hstore⟩ := storeUser_ok s₁ 1 userBase callerBytes fun x hlo hhi => by
      have hx : x < userBase + 4096 := hhi.trans (by decide)
      unfold userBase at hlo hx
      have hsome : (space s₁ 1 x).isSome := by
        rw [hfill.space x ⟨hlo, by omega⟩]
        exact Space.addPages_isSome.mpr (Or.inr ⟨hlo, hx, by unfold userMaxVma; omega⟩)
      unfold space at hsome
      rwa [Option.isSome_map] at hsome
    obtain ⟨-, h₂, hpool, -, htree, hmem, hmem3, -, -⟩ := hfill.sound.store le_rfl (by decide) hstore
    show Caller smallBuddy 1 ((storeUser s₁ 1 userBase callerBytes).toOption.getD (emptySpace ∅))
    rw [hstore]
    show Caller smallBuddy 1 s₂
    -- the frames of the kernel are not among the 63
    have hout : ∀ g, 64 ≤ g → Outside smallBuddy 1 s₂ g ∧ s₂.mem g = fun _ => 0 := by
      intro g hg
      have hman : g ∉ smallBuddy.managed := fun hin => by
        have := (Finset.mem_Ico.mp hin).2
        omega
      have hgt : g ∉ tree 4 s₂.mem 1 := fun hin => hman (h₂.managed g hin)
      have hgf : ∀ pool, g ∉ smallBuddy.free pool := fun pool hin => hman (smallBuddy.free_subset _ hin)
      refine ⟨⟨hgt, hgf _⟩, ?_⟩
      rw [hmem g (fun hin => hman (hfill.sound.managed g hin)),
        hfill.within.mem g (fun hin => hman (h₀.managed g hin)) (hgf _)]
      rfl
    refine ⟨h₂, fun i _ _ hi => ?_, (hout masterPml4 (by decide)).1.2, (hout pdHi (by decide)).1,
      fun hp => ?_⟩
    · rw [hmem3 1 Tree.root_mem, hfill.within.shared i hi]
      exact not_present_zero
    · rw [(hout pdHi (by decide)).2] at hp
      exact absurd hp (by decide)

end Lnxrm.Exec
