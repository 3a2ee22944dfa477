import Lnxrm.Fat32.Layout
import Mathlib.Data.List.Flatten
import Mathlib.Data.List.GetD
import Mathlib.Data.List.Range
import Mathlib.Tactic.Ring

/-!
# FAT32 — the geometry of chains

Proof layer. Clusters have sectors of their own, so chains with
different clusters have different sectors and different record places;
no cluster of a chain is free.
-/

namespace Lnxrm.Fat32

open List

variable {m : Mount} {fat fat' : ℕ → ℕ} {c d x : ℕ} {l l' : List ℕ}

/-! ## Chains -/

theorem nextOf_of_lt (h : c < m.maxCluster) : nextOf m fat c = fat c % 2 ^ 28 :=
  if_neg (by omega)

theorem clusterIsEoc_iff : clusterIsEoc c = true ↔ 0x0FFFFFF8 ≤ c := by
  simp [clusterIsEoc]

theorem Mount.not_eoc_of_lt (m : Mount) (h : c < m.maxCluster) : ¬ clusterIsEoc c = true := by
  have := m.max_le
  rw [clusterIsEoc_iff]
  omega

namespace IsChain

theorem nodup (h : IsChain m fat c l) : l.Nodup := h.walk.nodup

theorem length_lt (h : IsChain m fat c l) : l.length ≤ m.maxCluster :=
  length_le_of_nodup_lt h.nodup fun x hx => (h.range x hx).2

theorem toWalk (h : IsChain m fat c l) :
    Walk (nextOf m fat) (fun c => clusterIsEoc c = true ∨ c < 2) c l := by
  refine h.walk.mono (fun _ hy => Or.inl hy) fun y hy => ?_
  have hr := h.range y hy
  rintro (he | hlt)
  · exact m.not_eoc_of_lt hr.2 he
  · omega

theorem head_eq (h : IsChain m fat c (x :: l)) : x = c := h.walk.1

theorem congr (h : IsChain m fat c l) (hf : ∀ x ∈ l, fat' x % 2 ^ 28 = fat x % 2 ^ 28) :
    IsChain m fat' c l := by
  refine ⟨h.walk.congr fun y hy => ?_, h.range⟩
  rw [nextOf_of_lt (h.range y hy).2, nextOf_of_lt (h.range y hy).2, hf y hy]

theorem next_mem_or_eoc (h : IsChain m fat c l) (hx : x ∈ l) :
    nextOf m fat x ∈ l ∨ clusterIsEoc (nextOf m fat x) = true := by
  obtain ⟨l₁, l₂, rfl⟩ := append_of_mem hx
  cases l₂ with
  | nil => exact Or.inr h.walk.stop_last
  | cons y l₂ =>
    left
    rw [h.walk.next_eq]
    simp

theorem not_free (h : IsChain m fat c l) (hx : x ∈ l) : ¬ IsFree m fat x := by
  rintro ⟨-, hlt, h0⟩
  rw [← nextOf_of_lt hlt] at h0
  rcases h.next_mem_or_eoc hx with hn | hn
  · have := (h.range _ hn).1
    omega
  · rw [clusterIsEoc_iff] at hn
    omega

end IsChain

namespace HasChain

theorem range (h : HasChain m fat c l) : ∀ x ∈ l, 2 ≤ x ∧ x < m.maxCluster := by
  rcases h with ⟨-, rfl⟩ | ⟨-, h⟩
  · simp
  · exact h.range

theorem nodup (h : HasChain m fat c l) : l.Nodup := by
  rcases h with ⟨-, rfl⟩ | ⟨-, h⟩
  · exact nodup_nil
  · exact h.nodup

theorem not_free (h : HasChain m fat c l) (hx : x ∈ l) : ¬ IsFree m fat x := by
  rcases h with ⟨-, rfl⟩ | ⟨-, h⟩
  · simp at hx
  · exact h.not_free hx

theorem toWalk (h : HasChain m fat c l) :
    Walk (nextOf m fat) (fun c => clusterIsEoc c = true ∨ c < 2) c l := by
  rcases h with ⟨rfl, rfl⟩ | ⟨-, h⟩
  · exact Or.inr (by omega)
  · exact h.toWalk

theorem length_le (h : HasChain m fat c l) : l.length ≤ m.maxCluster :=
  length_le_of_nodup_lt h.nodup fun x hx => (h.range x hx).2

theorem congr (h : HasChain m fat c l) (hf : ∀ x ∈ l, fat' x % 2 ^ 28 = fat x % 2 ^ 28) :
    HasChain m fat' c l :=
  h.imp id fun h => ⟨h.1, h.2.congr hf⟩

theorem zero_iff (h : HasChain m fat c l) : c = 0 ↔ l = [] := by
  rcases h with ⟨rfl, rfl⟩ | ⟨hne, h⟩
  · simp
  refine ⟨fun hc => absurd ?_ hne, fun hl => absurd hl hne⟩
  subst hc
  cases l with
  | nil => rfl
  | cons x l =>
    have := (h.range x (by simp)).1
    rw [h.head_eq] at this
    omega

theorem first_lt (h : HasChain m fat c l) : c < 2 ^ 32 := by
  have hmax := m.max_le
  rcases h with ⟨rfl, -⟩ | ⟨hne, h⟩
  · omega
  · obtain ⟨x, l, rfl⟩ := exists_cons_of_ne_nil hne
    have := (h.range x (by simp)).2
    rw [h.head_eq] at this
    omega

end HasChain

theorem mem_freeClusters : c ∈ freeClusters m fat ↔ IsFree m fat c := by
  simp only [freeClusters, mem_filter, mem_range'_1, decide_eq_true_eq, IsFree]
  omega

/-- A list with all free clusters in it is at least as long as their
number. -/
theorem length_freeClusters_le (h : ∀ x, IsFree m fat x → x ∈ l) :
    (freeClusters m fat).length ≤ l.length := by
  have hnd : (freeClusters m fat).Nodup := Nodup.filter _ nodup_range'
  exact (subperm_of_subset hnd fun x hx => h x (mem_freeClusters.mp hx)).length_le

/-! ## Sectors -/

theorem clusterLba_of_ge (h2 : 2 ≤ c) (hlt : c < 2 ^ 32) :
    clusterLba m c = m.dataStartLba + (c - 2) * m.sectorsPerCluster := by
  unfold clusterLba
  have : (c + (2 ^ 32 - 2)) % 2 ^ 32 = c - 2 := by omega
  rw [this]

theorem clusterLba_ge (m : Mount) (c : ℕ) : m.dataStartLba ≤ clusterLba m c :=
  Nat.le_add_right _ _

/-- Different clusters have different sectors, also past the end of the
volume. -/
theorem clusterLba_inj {s t : ℕ} (hc2 : 2 ≤ c) (hc : c < 2 ^ 32) (hd2 : 2 ≤ d) (hd : d < 2 ^ 32)
    (hs : s < m.sectorsPerCluster) (ht : t < m.sectorsPerCluster)
    (h : clusterLba m c + s = clusterLba m d + t) : c = d ∧ s = t := by
  rw [clusterLba_of_ge hc2 hc, clusterLba_of_ge hd2 hd] at h
  have hmod : ∀ a b, b < m.sectorsPerCluster →
      (a * m.sectorsPerCluster + b) / m.sectorsPerCluster = a := by
    intro a b hb
    rw [Nat.mul_comm, Nat.mul_add_div m.spc_pos, Nat.div_eq_of_lt hb, Nat.add_zero]
  have heq : (c - 2) * m.sectorsPerCluster + s = (d - 2) * m.sectorsPerCluster + t := by omega
  have hcd : c - 2 = d - 2 := by
    rw [← hmod (c - 2) s hs, heq, hmod (d - 2) t ht]
  refine ⟨by omega, ?_⟩
  rw [hcd] at heq
  omega

theorem Mount.lt_two_pow (m : Mount) (h : c < m.maxCluster) : c < 2 ^ 32 := by
  have := m.max_le
  omega

theorem mem_clusterSectors {lba : ℕ} :
    lba ∈ clusterSectors m c ↔ ∃ s < m.sectorsPerCluster, lba = clusterLba m c + s := by
  simp only [clusterSectors, mem_map, mem_range]
  exact exists_congr fun s => and_congr_right fun _ => eq_comm

theorem mem_sectors {lba : ℕ} :
    lba ∈ sectors m l ↔ ∃ c ∈ l, ∃ s < m.sectorsPerCluster, lba = clusterLba m c + s := by
  simp [sectors, mem_clusterSectors]

theorem sectors_ge {lba : ℕ} (h : lba ∈ sectors m l) : m.dataStartLba ≤ lba := by
  obtain ⟨c, -, s, -, rfl⟩ := mem_sectors.mp h
  have := clusterLba_ge m c
  omega

@[simp]
theorem sectors_nil : sectors m [] = [] := rfl

theorem sectors_cons : sectors m (c :: l) = clusterSectors m c ++ sectors m l := rfl

theorem sectors_append : sectors m (l ++ l') = sectors m l ++ sectors m l' :=
  flatMap_append

@[simp]
theorem length_clusterSectors : (clusterSectors m c).length = m.sectorsPerCluster := by
  simp [clusterSectors]

@[simp]
theorem length_sectors : (sectors m l).length = l.length * m.sectorsPerCluster := by
  induction l with
  | nil => simp
  | cons c l ih =>
    rw [sectors_cons, length_append, ih, length_clusterSectors, length_cons]
    ring

/-- **Chains apart have sectors apart.** -/
theorem sectors_disjoint (hl : ∀ x ∈ l, 2 ≤ x ∧ x < m.maxCluster)
    (hl' : ∀ x ∈ l', 2 ≤ x ∧ x < m.maxCluster) (h : l.Disjoint l') :
    (sectors m l).Disjoint (sectors m l') := by
  intro lba h₁ h₂
  obtain ⟨c, hc, s, hs, rfl⟩ := mem_sectors.mp h₁
  obtain ⟨d, hd, t, ht, heq⟩ := mem_sectors.mp h₂
  obtain ⟨rfl, -⟩ := clusterLba_inj (hl c hc).1 (m.lt_two_pow (hl c hc).2) (hl' d hd).1
    (m.lt_two_pow (hl' d hd).2) hs ht heq
  exact h hc hd

theorem HasChain.range_u32 (h : HasChain m fat c l) : ∀ x ∈ l, 2 ≤ x ∧ x < 2 ^ 32 :=
  fun x hx => ⟨(h.range x hx).1, m.lt_two_pow (h.range x hx).2⟩

theorem nodup_sectors (hl : ∀ x ∈ l, 2 ≤ x ∧ x < 2 ^ 32) (hnd : l.Nodup) :
    (sectors m l).Nodup := by
  induction l with
  | nil => exact nodup_nil
  | cons c l ih =>
    rw [sectors_cons]
    refine Nodup.append ?_ (ih (fun x hx => hl x (by simp [hx])) (nodup_cons.mp hnd).2) ?_
    · exact (nodup_range).map fun s t h => by simpa using h
    intro lba h₁ h₂
    obtain ⟨s, hs, rfl⟩ := mem_clusterSectors.mp h₁
    obtain ⟨d, hd, t, ht, heq⟩ := mem_sectors.mp h₂
    have hc := hl c (by simp)
    have hd' := hl d (by simp [hd])
    obtain ⟨rfl, -⟩ := clusterLba_inj hc.1 hc.2 hd'.1 hd'.2 hs ht heq
    exact (nodup_cons.mp hnd).1 hd

/-- The sector with index `j` of a chain lies in its cluster with index
`j / sectors_per_cluster`. -/
theorem getD_sectors {j : ℕ} (hj : j < l.length * m.sectorsPerCluster) : (sectors m l).getD j 0 =
      clusterLba m (l.getD (j / m.sectorsPerCluster) 0) + j % m.sectorsPerCluster := by
  induction l generalizing j with
  | nil => simp at hj
  | cons c l ih =>
    have hpos := m.spc_pos
    rw [sectors_cons]
    by_cases h : j < m.sectorsPerCluster
    · rw [getD_append _ _ _ _ (by simpa using h), Nat.div_eq_of_lt h, Nat.mod_eq_of_lt h]
      simp [clusterSectors, getD_eq_getElem?_getD, h]
    · rw [getD_append_right _ _ _ _ (by simpa using h), length_clusterSectors]
      rw [length_cons, Nat.add_mul] at hj
      have hdiv : j / m.sectorsPerCluster = (j - m.sectorsPerCluster) / m.sectorsPerCluster + 1 :=
        Nat.div_eq_sub_div hpos (by omega)
      rw [ih (by omega), hdiv, getD_cons_succ, Nat.mod_eq_sub_mod (Nat.le_of_not_lt h)]

/-! ## Record places -/

theorem mem_sectorSlots {lba : ℕ} {p : DirentPos} :
    p ∈ sectorSlots lba ↔ p.lba = lba ∧ ∃ k < 16, p.off = k * 32 := by
  simp only [sectorSlots, mem_map, mem_range, sectorSize, direntSize]
  constructor
  · rintro ⟨k, hk, rfl⟩
    exact ⟨rfl, k, by omega, rfl⟩
  · rintro ⟨rfl, k, hk, ho⟩
    exact ⟨k, by omega, by rw [← ho]⟩

theorem mem_slots {p : DirentPos} :
    p ∈ slots m l ↔ p.lba ∈ sectors m l ∧ ∃ k < 16, p.off = k * 32 := by
  simp only [slots, mem_flatMap, mem_sectorSlots]
  constructor
  · rintro ⟨lba, hlba, rfl, hk⟩
    exact ⟨hlba, hk⟩
  · rintro ⟨hlba, hk⟩
    exact ⟨p.lba, hlba, rfl, hk⟩

theorem slots_ge {p : DirentPos} (h : p ∈ slots m l) : m.dataStartLba ≤ p.lba :=
  sectors_ge (mem_slots.mp h).1

theorem nodup_sectorSlots (lba : ℕ) : (sectorSlots lba).Nodup := by
  refine (nodup_range).map fun k k' h => ?_
  have : k * direntSize = k' * direntSize := congrArg DirentPos.off h
  simpa [direntSize] using this

theorem nodup_slots (hl : ∀ x ∈ l, 2 ≤ x ∧ x < 2 ^ 32) (hnd : l.Nodup) :
    (slots m l).Nodup := by
  have hs := nodup_sectors (m := m) hl hnd
  rw [slots]
  refine nodup_flatMap.mpr ⟨fun lba _ => nodup_sectorSlots lba, hs.imp ?_⟩
  intro a b hab p ha hb
  exact hab ((mem_sectorSlots.mp ha).1.symm.trans (mem_sectorSlots.mp hb).1)

theorem slots_disjoint (hl : ∀ x ∈ l, 2 ≤ x ∧ x < m.maxCluster)
    (hl' : ∀ x ∈ l', 2 ≤ x ∧ x < m.maxCluster) (h : l.Disjoint l') :
    (slots m l).Disjoint (slots m l') := fun _ h₁ h₂ =>
  sectors_disjoint hl hl' h (mem_slots.mp h₁).1 (mem_slots.mp h₂).1

end Lnxrm.Fat32
