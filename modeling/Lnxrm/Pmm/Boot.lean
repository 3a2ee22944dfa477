import Lnxrm.Pmm.Returned
import Mathlib.Order.Interval.Finset.Nat
import Mathlib.Algebra.Order.BigOperators.Group.Finset

/-!
# The window `pmm_init` chooses

The first half of `pmm_init` in `kernel/mm/pmm.c`, with `pmm_reserve` and
`kheap_place` of `kernel/mm/vmm.c`: from the E820 map and the end of the
kernel image to the window that the allocator manages. The upper end comes
from the largest region of RAM, the lower end from the kernel image, which
may lie in another region.
-/

namespace Lnxrm.Pmm

open List

/-- `struct e820_entry` -/
structure E820Entry where
  addr : BitVec 64
  size : BitVec 64
  type : BitVec 32
deriving DecidableEq, Repr

/-- `E820_RAM` -/
def e820Ram : BitVec 32 := 1

/-- `e->addr + e->size`, in 64 bits -/
def E820Entry.hi (e : E820Entry) : ℕ := (e.addr + e.size).toNat

/-- The address lies in an entry of type `E820_RAM`. -/
def InRam (map : List E820Entry) (x : ℕ) : Prop :=
  ∃ e ∈ map, e.type = e820Ram ∧ e.addr.toNat ≤ x ∧ x < e.hi

instance (map : List E820Entry) (x : ℕ) : Decidable (InRam map x) := by
  unfold InRam
  infer_instance

/-- `ALIGN_UP` -/
def alignUp (x a : ℕ) : ℕ := (x + a - 1) / a * a

/-- `ALIGN_DOWN` -/
def alignDown (x a : ℕ) : ℕ := x / a * a

/-- `RESV_MAX` -/
def resvMax : ℕ := 4

/-- `pmm_reserve` -/
def pmmReserve (resv : List (ℕ × ℕ)) (r : ℕ × ℕ) : List (ℕ × ℕ) :=
  if r.2 ≤ r.1 ∨ resvMax ≤ resv.length then resv else resv ++ [r]

/-- The part of an entry that `pmm_init` considers: from 1 MiB up to 4 GiB. -/
def E820Entry.clip (e : E820Entry) : ℕ × ℕ := (max e.addr.toNat 0x100000, min e.hi 0x100000000)

/-- The entry is one that `pmm_init` does not pass over. -/
def E820Entry.Usable (e : E820Entry) : Prop :=
  e.type = e820Ram ∧ max e.addr.toNat 0x100000 < e.hi ∧ max e.addr.toNat 0x100000 ≤ 0x100000000

instance (e : E820Entry) : Decidable e.Usable := by
  unfold E820Entry.Usable
  infer_instance

/-- The body of the loop that looks for the largest region. -/
def takeLarger (best : ℕ × ℕ) (e : E820Entry) : ℕ × ℕ :=
  if e.Usable ∧ best.2 - best.1 < e.clip.2 - e.clip.1 then e.clip else best

/-- `best` and `best_end`: the largest region of RAM, the first of its
size. -/
def largestRegion (map : List E820Entry) : ℕ × ℕ := map.foldl takeLarger (0, 0)

/-- `kheap_place`: the new top of the region, which is where the heap
starts. The subtraction is unsigned. -/
def kheapPlace (regionTop size : ℕ) : ℕ :=
  alignDown ((alignDown regionTop 4096 + 2 ^ 64 - size) % 2 ^ 64) 4096

/-- The size of the kernel heap. -/
def heapSize : ℕ := 16 <<< 20

/-- `base_addr`, from the physical address of `__bss_end` -/
def baseAddr (bssEnd : ℕ) : ℕ := alignUp (alignUp bssEnd 4096) 4096 + 0x200000

/-- `top_addr`, which is `heap_phys` -/
def topAddr (map : List E820Entry) : ℕ :=
  kheapPlace (alignDown (largestRegion map).2 0x200000) heapSize

/-- `KERNEL_LMA` -/
def kernelLma : ℕ := 0x100000

/-- The kernel image ends at `bssEnd`, is linked into the top 2 GiB, and lies
inside an entry of RAM. -/
structure KernelInRam (map : List E820Entry) (bssEnd : ℕ) : Prop where
  nonempty : kernelLma < bssEnd
  linked : bssEnd ≤ 2 ^ 31
  inside : ∃ e ∈ map, e.type = e820Ram ∧ e.addr.toNat ≤ kernelLma ∧ bssEnd ≤ e.hi

/-- **What the window should be**: proper, and nothing the allocator ever
returns lies outside RAM, in the kernel image, in the heap or in a reserved
range. -/
def ManagesRam (map : List E820Entry) (bssEnd : ℕ) (ranges : List (ℕ × ℕ)) (mem : ℕ → UInt8) :
    Prop :=
  ∃ w : Window, w.base = baseAddr bssEnd ∧ w.top = topAddr map ∧
    ∀ b, Returns w (ranges.foldl pmmReserve []) mem b → ∀ x, Holds b x →
      InRam map x ∧ bssEnd ≤ x ∧ x < topAddr map ∧ ∀ r ∈ ranges, ¬(r.1 ≤ x ∧ x < r.2)

/-- The largest region, cut to 2 MiB, has room for the heap above the kernel
image and its margin of 2 MiB. -/
def Roomy (map : List E820Entry) (bssEnd : ℕ) : Prop :=
  baseAddr bssEnd + heapSize ≤ alignDown (largestRegion map).2 0x200000

/-- What lies between the margin and the largest region is RAM too. -/
def GapIsRam (map : List E820Entry) (bssEnd : ℕ) : Prop :=
  ∀ x, baseAddr bssEnd ≤ x → x < (largestRegion map).1 → x < topAddr map → InRam map x

/-! ## The largest region -/

variable {map : List E820Entry} {bssEnd : ℕ}

/-- **The scan** ends with a region at least as large as every usable entry,
which is empty or lies in an entry. -/
theorem foldl_takeLarger (map : List E820Entry) (best : ℕ × ℕ) : let r := map.foldl takeLarger best
    best.2 - best.1 ≤ r.2 - r.1 ∧ (r = best ∨ ∃ e ∈ map, e.Usable ∧ r = e.clip) ∧
      ∀ e ∈ map, e.Usable → e.clip.2 - e.clip.1 ≤ r.2 - r.1 := by
  induction map generalizing best with
  | nil => exact ⟨le_rfl, Or.inl rfl, fun e he => absurd he not_mem_nil⟩
  | cons a map ih =>
    obtain ⟨hle, hfrom, hmax⟩ := ih (takeLarger best a)
    have hstep : best.2 - best.1 ≤ (takeLarger best a).2 - (takeLarger best a).1 ∧
        (a.Usable → a.clip.2 - a.clip.1 ≤ (takeLarger best a).2 - (takeLarger best a).1) ∧
        (takeLarger best a = best ∨ a.Usable ∧ takeLarger best a = a.clip) := by
      unfold takeLarger
      split_ifs with h
      · exact ⟨le_of_lt h.2, fun _ => le_rfl, Or.inr ⟨h.1, rfl⟩⟩
      · refine ⟨le_rfl, fun ha => ?_, Or.inl rfl⟩
        by_contra hlt
        exact h ⟨ha, by omega⟩
    refine ⟨le_trans hstep.1 hle, ?_, fun e he hu => ?_⟩
    · rcases hfrom with hr | ⟨e, he, hu, hr⟩
      · rcases hstep.2.2 with hb | ⟨ha, hb⟩
        · exact Or.inl (hr.trans hb)
        · exact Or.inr ⟨a, mem_cons_self, ha, hr.trans hb⟩
      · exact Or.inr ⟨e, mem_cons_of_mem _ he, hu, hr⟩
    · rcases mem_cons.mp he with rfl | he
      · exact le_trans (hstep.2.1 hu) hle
      · exact hmax e he hu

theorem largestRegion_ram (map : List E820Entry) : (largestRegion map).2 ≤ 2 ^ 32 ∧
      ∀ x, (largestRegion map).1 ≤ x → x < (largestRegion map).2 → InRam map x := by
  obtain ⟨-, hfrom, -⟩ := foldl_takeLarger map (0, 0)
  rcases hfrom with hr | ⟨e, he, hu, hr⟩
  · unfold largestRegion
    rw [hr]
    exact ⟨by decide, fun x _ hx => absurd hx (Nat.not_lt_zero x)⟩
  unfold largestRegion
  rw [hr]
  unfold E820Entry.clip
  refine ⟨by omega, fun x h1 h2 => ⟨e, he, hu.1, ?_, ?_⟩⟩
  · omega
  · omega

theorem clip_le_largestRegion {e : E820Entry} (he : e ∈ map) (hu : e.Usable) :
    e.clip.2 - e.clip.1 ≤ (largestRegion map).2 - (largestRegion map).1 :=
  (foldl_takeLarger map (0, 0)).2.2 e he hu

theorem topAddr_eq (map : List E820Entry) : topAddr map =
      if heapSize ≤ alignDown (largestRegion map).2 0x200000 then
        alignDown (largestRegion map).2 0x200000 - heapSize
      else 2 ^ 64 + alignDown (largestRegion map).2 0x200000 - heapSize := by
  have hle := (largestRegion_ram map).1
  unfold topAddr kheapPlace alignDown heapSize
  rw [Nat.shiftLeft_eq]
  generalize (largestRegion map).2 = t at *
  split_ifs <;> omega

/-! ## Small memories -/

/-- **A map of 64 small entries does not fill 4 GiB**: if no usable entry has
16 MiB, some address of every long enough range is not RAM. -/
theorem exists_not_inRam (hlen : map.length ≤ 64)
    (hsmall : ∀ e ∈ map, e.Usable → e.clip.2 - e.clip.1 ≤ 2 ^ 24) {a : ℕ} (ha : 0x100000 ≤ a)
    (ha' : a + 2 ^ 31 ≤ 2 ^ 32) : ∃ x, a ≤ x ∧ x < 2 ^ 32 ∧ ¬ InRam map x := by
  by_contra hall
  push Not at hall
  have hcover : Finset.Ico a (2 ^ 32) ⊆
      map.toFinset.biUnion fun e => if e.Usable then Finset.Ico e.clip.1 e.clip.2 else ∅ := by
    intro x hx
    rw [Finset.mem_Ico] at hx
    obtain ⟨e, he, htype, hlo, hhi⟩ := hall x hx.1 hx.2
    have hu : e.Usable := ⟨htype, by omega, by omega⟩
    rw [Finset.mem_biUnion]
    refine ⟨e, mem_toFinset.mpr he, ?_⟩
    rw [if_pos hu, Finset.mem_Ico]
    unfold E820Entry.clip
    omega
  have hcard := (Finset.card_le_card hcover).trans
    (Finset.card_biUnion_le_card_mul map.toFinset _ (2 ^ 24) fun e he => ?_)
  · have hmap := toFinset_card_le map
    rw [Nat.card_Ico] at hcard
    omega
  · split_ifs with hu
    · rw [Nat.card_Ico]
      exact hsmall e (mem_toFinset.mp he) hu
    · exact Nat.zero_le _

/-! ## Reserved ranges -/

theorem mem_foldl_pmmReserve {ranges resv : List (ℕ × ℕ)}
    (hlen : resv.length + ranges.length ≤ resvMax) {r : ℕ × ℕ} :
    (r ∈ resv ∨ r ∈ ranges ∧ r.1 < r.2) → r ∈ ranges.foldl pmmReserve resv := by
  induction ranges generalizing resv with
  | nil =>
    rintro (h | ⟨h, -⟩)
    · exact h
    · exact absurd h not_mem_nil
  | cons q ranges ih =>
    rw [length_cons] at hlen
    intro h
    rw [foldl_cons]
    unfold pmmReserve
    split_ifs with hq
    · refine ih (by omega) ?_
      rcases h with h | ⟨h, hr⟩
      · exact Or.inl h
      · rcases mem_cons.mp h with rfl | h
        · omega
        · exact Or.inr ⟨h, hr⟩
    · refine ih (by rw [length_append, length_singleton]; omega) ?_
      rcases h with h | ⟨h, hr⟩
      · exact Or.inl (mem_append_left _ h)
      · rcases mem_cons.mp h with rfl | h
        · exact Or.inl (mem_append_right _ (mem_singleton_self r))
        · exact Or.inr ⟨h, hr⟩

theorem Seeded.not_reserved {w : Window} {ranges : List (ℕ × ℕ)} {x : ℕ}
    (hlen : ranges.length ≤ resvMax) (hx : Seeded w (ranges.foldl pmmReserve []) x) :
    ∀ r ∈ ranges, ¬(r.1 ≤ x ∧ x < r.2) := by
  rintro r hr ⟨hlo, hhi⟩
  have hmem : r ∈ ranges.foldl pmmReserve [] :=
    mem_foldl_pmmReserve (by simpa using hlen) (Or.inr ⟨hr, by omega⟩)
  have hclear := hx.2.2
  simp only [resvHits, any_eq_false, Bool.and_eq_true, decide_eq_true_eq, not_and] at hclear
  have := hclear r hmem
  rw [blockSize_zero] at this
  omega

/-! ## The window -/

theorem baseAddr_bounds (bssEnd : ℕ) :
    bssEnd + 0x200000 ≤ baseAddr bssEnd ∧ baseAddr bssEnd ≤ bssEnd + 0x201000 ∧
      blockSize 0 ∣ baseAddr bssEnd := by
  unfold baseAddr alignUp
  rw [blockSize_zero]
  omega

theorem Roomy.window (h : Roomy map bssEnd) :
    ∃ w : Window, w.base = baseAddr bssEnd ∧ w.top = topAddr map ∧
      topAddr map ≤ (largestRegion map).2 := by
  have hle := (largestRegion_ram map).1
  have hbase := baseAddr_bounds bssEnd
  unfold Roomy at h
  have htop := topAddr_eq map
  rw [if_pos (by omega)] at htop
  have hdown : alignDown (largestRegion map).2 0x200000 ≤ (largestRegion map).2 :=
    Nat.div_mul_le_self _ _
  refine ⟨⟨baseAddr bssEnd, topAddr map, hbase.2.2, ?_, ?_, ?_, ?_⟩, rfl, rfl, ?_⟩
  · rw [htop, blockSize_zero]
    unfold alignDown heapSize
    rw [Nat.shiftLeft_eq]
    omega
  all_goals omega

/-- **Without room** the window is upside down, or it is not all RAM. -/
theorem not_managesRam_of_not_roomy (hlen : map.length ≤ 64) (hk : KernelInRam map bssEnd)
    (hroom : ¬ Roomy map bssEnd) (mem : ℕ → UInt8) : ¬ ManagesRam map bssEnd [] mem := by
  rintro ⟨w, hbase, htop, hram⟩
  have hbounds := baseAddr_bounds bssEnd
  have heq := topAddr_eq map
  have hwin := w.base_le
  unfold Roomy at hroom
  rw [hbase, htop, heq] at hwin
  split_ifs at heq hwin with hheap
  · omega
  -- the subtraction wraps: then no entry has 16 MiB, and the window ends near `2 ^ 64`
  have hsize : heapSize = 2 ^ 24 := by decide
  have hregion : (largestRegion map).2 ≤ 2 ^ 24 := by
    unfold alignDown at hheap
    omega
  have hsmall : ∀ e ∈ map, e.Usable → e.clip.2 - e.clip.1 ≤ 2 ^ 24 := by
    intro e he hu
    have := clip_le_largestRegion he hu
    omega
  have hbss : bssEnd ≤ 2 ^ 25 := by
    obtain ⟨e, he, htype, hlo, hhi⟩ := hk.inside
    have hlt := hk.nonempty
    have hlink := hk.linked
    unfold kernelLma at hlo hlt
    have hclip := hsmall e he ⟨htype, by omega, by omega⟩
    unfold E820Entry.clip at hclip
    simp only at hclip
    omega
  obtain ⟨x, hx, hx', hnot⟩ := exists_not_inRam (a := baseAddr bssEnd) hlen hsmall (by omega)
    (by omega)
  have hseeded : Seeded w [] x := by
    refine ⟨by omega, ?_, rfl⟩
    rw [htop, heq]
    omega
  obtain ⟨b, hb, hholds⟩ := (returns_iff_seeded w [] mem x).mpr hseeded
  exact hnot (hram b hb x hholds).1

/-- **Only RAM is managed exactly when** the largest region has room for the
heap above the kernel image, and what lies between the two is RAM. -/
theorem managesRam_iff (hlen : map.length ≤ 64) (hk : KernelInRam map bssEnd) :
    (∀ ranges : List (ℕ × ℕ), ranges.length ≤ resvMax → ∀ mem, ManagesRam map bssEnd ranges mem) ↔
      Roomy map bssEnd ∧ GapIsRam map bssEnd := by
  constructor
  · intro h
    have hroom : Roomy map bssEnd := by
      by_contra hroom
      exact not_managesRam_of_not_roomy hlen hk hroom (fun _ => 0) (h [] (Nat.zero_le _) _)
    refine ⟨hroom, fun x hx _ hx' => ?_⟩
    obtain ⟨w, hbase, htop, hram⟩ := h [] (Nat.zero_le _) fun _ => 0
    have hseeded : Seeded w [] x := ⟨by omega, by omega, rfl⟩
    obtain ⟨b, hb, hholds⟩ := (returns_iff_seeded w [] _ x).mpr hseeded
    exact (hram b hb x hholds).1
  rintro ⟨hroom, hgap⟩ ranges hranges mem
  obtain ⟨w, hbase, htop, hend⟩ := hroom.window
  refine ⟨w, hbase, htop, fun b hb x hx => ?_⟩
  have hseeded := (returns_iff_seeded w _ mem x).mp ⟨b, hb, hx⟩
  have hlo := hseeded.1
  have hhi := hseeded.2.1
  have hbounds := baseAddr_bounds bssEnd
  refine ⟨?_, by omega, by omega, hseeded.not_reserved hranges⟩
  by_cases hregion : (largestRegion map).1 ≤ x
  · exact (largestRegion_ram map).2 x hregion (by omega)
  · exact hgap x (by omega) (by omega) (by omega)

/-- A PC with 128 MiB and the memory hole at 15 MiB switched on. -/
def holeMap : List E820Entry :=
  [⟨0, 0x9fc00, e820Ram⟩, ⟨0x100000, 0xe00000, e820Ram⟩, ⟨0x1000000, 0x7000000, e820Ram⟩]

/-- **Memory that is not there is handed out**: the kernel image ends at
4 MiB, the largest region starts at 16 MiB, and the allocator returns a
block in the hole below it. -/
theorem hole_returned : KernelInRam holeMap 0x400000 ∧
    ¬ ∀ ranges : List (ℕ × ℕ), ranges.length ≤ resvMax → ∀ mem,
      ManagesRam holeMap 0x400000 ranges mem := by
  refine ⟨⟨by decide, by decide, by decide⟩, fun h => ?_⟩
  obtain ⟨w, hbase, htop, hram⟩ := h [] (Nat.zero_le _) fun _ => 0
  have hseeded : Seeded w [] 0xf80000 := by
    refine ⟨?_, ?_, rfl⟩
    · rw [hbase]
      decide
    · rw [htop]
      decide
  obtain ⟨b, hb, hholds⟩ := (returns_iff_seeded w [] _ _).mpr hseeded
  exact absurd (hram b hb _ hholds).1 (by decide)

/-- The same PC without the hole. -/
theorem managesRam_iff_plain : (∀ ranges : List (ℕ × ℕ), ranges.length ≤ resvMax → ∀ mem,
      ManagesRam [⟨0, 0x9fc00, e820Ram⟩, ⟨0x100000, 0x7f00000, e820Ram⟩] 0x400000 ranges mem) ∧
      Roomy [⟨0, 0x9fc00, e820Ram⟩, ⟨0x100000, 0x7f00000, e820Ram⟩] 0x400000 := by
  have hroom : Roomy [⟨0, 0x9fc00, e820Ram⟩, ⟨0x100000, 0x7f00000, e820Ram⟩] 0x400000 := by
    unfold Roomy
    decide
  refine ⟨(managesRam_iff (by decide) ⟨by decide, by decide, by decide⟩).mpr ⟨hroom, ?_⟩, hroom⟩
  intro x hx hx' _
  have hregion : (largestRegion [⟨0, 0x9fc00, e820Ram⟩, ⟨0x100000, 0x7f00000, e820Ram⟩]).1 =
      0x100000 := by decide
  have hbase : baseAddr 0x400000 = 0x600000 := by decide
  omega

end Lnxrm.Pmm
