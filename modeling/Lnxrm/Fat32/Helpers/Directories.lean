import Lnxrm.Fat32.Helpers.Calls
import Lnxrm.Fat32.Helpers.Edits
import Lnxrm.Fat32.Helpers.PathNames

/-!
# FAT32 — the directories after a call

Proof layer. What the records that the namespace calls write are: where
they lead, what their first bytes are, and what a new directory's cluster
holds; and the general facts about the directories of a volume whose
chains are disjoint.
-/

namespace Lnxrm.Fat32

variable {m : Mount} {data data' : ℕ → Sector} {fat fat' : ℕ → ℕ} {d c : ℕ} {p q : DirentPos}
  {name : Str}

/-! ## Names -/

theorem asciiToupper_ne_zero {b : UInt8} (h : b ≠ 0) : asciiToupper b ≠ 0 := by
  unfold asciiToupper
  split
  · rename_i hb
    obtain ⟨h₁, h₂⟩ := hb
    rw [UInt8.le_iff_toNat_le] at h₁
    intro h0
    have hval := congrArg UInt8.toNat h0
    rw [UInt8.toNat_sub_of_le _ _ (by rw [UInt8.le_iff_toNat_le]; exact le_trans (by decide) h₁)] at hval
    have h97 : (97 : UInt8).toNat = 97 := rfl
    have h32 : (32 : UInt8).toNat = 32 := rfl
    have hz : (0 : UInt8).toNat = 0 := rfl
    omega
  · exact h

theorem nameToShort_zero (h : (0 : UInt8) ∉ name) : nameToShort name 0 ≠ entFree := by
  show (((name.takeWhile (· != 46)).take 8).map asciiToupper).getD 0 32 ≠ 0
  cases hb : (name.takeWhile (· != 46)).take 8 with
  | nil => decide
  | cons b bs =>
    have hmem : b ∈ name := by
      have hin : b ∈ (name.takeWhile (· != 46)).take 8 := by simp [hb]
      exact (List.takeWhile_sublist _).subset (List.mem_of_mem_take hin)
    exact asciiToupper_ne_zero fun h0 => h (h0 ▸ hmem)

theorem newRecord_zero (attr : UInt8) (c : ℕ) : newRecord name attr c 0 = nameToShort name 0 := rfl

theorem newRecord_attr (attr : UInt8) (c : ℕ) : (newRecord name attr c).attr = attr := rfl

theorem isSubdir_of_attr {e : Dirent} (h : e.attr &&& attrDir = 0) : e.isSubdir = false := by
  simp [Dirent.isSubdir, Dirent.isDir, h]

theorem renamedRecord_zero (e : Dirent) (short : Fin 11 → UInt8) :
    renamedRecord e short 0 = short 0 := rfl

theorem renamedRecord_clus (e : Dirent) (short : Fin 11 → UInt8) :
    (renamedRecord e short).clus = e.clus := rfl

theorem isSubdir_of_renamedRecord {e : Dirent} {short : Fin 11 → UInt8} (hu : entryUsed e = true)
    (h : (renamedRecord e short).isSubdir = true) : e.isSubdir = true := by
  have hattr : (renamedRecord e short).attr = e.attr := rfl
  simp only [Dirent.isSubdir, Dirent.isLfn, Dirent.isVolume, Dirent.isDir, hattr,
    Bool.and_eq_true] at h ⊢
  exact ⟨⟨⟨hu, h.1.1.2⟩, h.1.2⟩, h.2⟩

/-! ## Directories -/

/-- The strings a call is given. -/
def NsOp.paths : NsOp → List Str
  | .create path | .mkdir path | .unlink path | .rmdir path => [path]
  | .rename oldpath newpath => [oldpath, newpath]

/-- The strings are C strings: no byte of them is NUL. -/
def NsOp.Plain (op : NsOp) : Prop := ∀ path ∈ op.paths, (0 : UInt8) ∉ path

/-- What contains the root and every directory its members name contains
every directory. -/
theorem Reached.mem_of_leads {S : ℕ → Prop} (h : Reached m data fat d) (hroot : S m.rootCluster)
    (hS : ∀ d, S d → Leads (slots m (chainOf m fat d)) S data) : S d := by
  induction h with
  | root => exact hroot
  | sub _ hp hsub ih => exact hS _ ih _ hp hsub

theorem reached_leads (h : Reached m data fat d) :
    Leads (slots m (chainOf m fat d)) (Reached m data fat) data := fun _ hp hsub => .sub h hp hsub

theorem aligned_slots (m : Mount) (l : List ℕ) : ∀ q ∈ slots m l, Aligned q :=
  fun _ hq => aligned_of_mem_slots hq

theorem ChainsApart.nodup (ha : ChainsApart m data fat) (hd : Reached m data fat d) :
    (slots m (chainOf m fat d)).Nodup := by
  obtain ⟨l, hl⟩ := ha.dir hd
  rw [hl.chainOf_eq]
  exact nodup_slots hl.range_u32 hl.nodup

theorem ChainsApart.not_mem (ha : ChainsApart m data fat) (hd : Reached m data fat d)
    (hc : Reached m data fat c) (hne : c ≠ d) (hp : p ∈ slots m (chainOf m fat d)) :
    p ∉ slots m (chainOf m fat c) := by
  obtain ⟨l, hl⟩ := ha.dir hd
  obtain ⟨l', hl'⟩ := ha.dir hc
  have hdis := ha.dirs hc hd hne
  rw [hl.chainOf_eq] at hp hdis
  rw [hl'.chainOf_eq] at hdis ⊢
  exact fun hp' => slots_disjoint hl'.range hl.range hdis hp' hp

/-! ## Located records -/

theorem Located.inUse {sn : Fin 11 → UInt8} {l : List ℕ} {loc : DirentLoc}
    {A run B : List DirentPos} (h : Located data sn (slots m l) loc A run B) :
    (Aligned loc.pos ∧ recOf data loc.pos 0 ≠ entFree) ∧
      ∀ q ∈ loc.lfn, Aligned q ∧ recOf data q 0 ≠ entFree := by
  refine ⟨⟨aligned_of_mem_slots h.pos_mem, ?_⟩, fun q hq => ⟨aligned_of_mem_slots (h.lfn_mem q hq), ?_⟩⟩
  · have hu := h.used
    rw [h.de] at hu
    simp only [entryUsed, Bool.and_eq_true, bne_iff_ne] at hu
    exact hu.1
  · exact (h.before q (List.mem_append_right _ (h.lfn_subset q hq))).1

theorem renameName_plain {newpath : Str} (h : (0 : UInt8) ∉ newpath) : (0 : UInt8) ∉ renameName newpath := by
  intro h0
  exact h (List.mem_of_mem_take (mem_of_mem_pathTrim (mem_of_mem_pathTail (List.mem_of_mem_take h0))))

theorem Located.leads {sn : Fin 11 → UInt8} {loc : DirentLoc} {A run B : List DirentPos}
    (h : Located data sn (slots m (chainOf m fat d)) loc A run B) (hd : Reached m data fat d)
    (short : Fin 11 → UInt8) :
    (renamedRecord loc.de short).isSubdir = true →
      Reached m data fat (renamedRecord loc.de short).clus := by
  intro hsub
  have hold := isSubdir_of_renamedRecord h.used hsub
  rw [renamedRecord_clus, h.de]
  rw [h.de] at hold
  exact .sub hd h.pos_mem hold

theorem isSubdir_refreshRecord (de e : Dirent) : (refreshRecord de e).isSubdir = e.isSubdir := by
  obtain ⟨h₁, h₂, h₃, h₄⟩ := refreshRecord_kind de e
  rw [Dirent.isSubdir, Dirent.isSubdir, h₁, h₂, h₃, h₄]

/-! ## A new directory -/

theorem slots_singleton (m : Mount) (c : ℕ) :
    ∃ rest, slots m [c] = ⟨clusterLba m c, 0⟩ :: ⟨clusterLba m c, 32⟩ :: rest := by
  obtain ⟨k, hk⟩ := Nat.exists_eq_succ_of_ne_zero (Nat.ne_of_gt m.spc_pos)
  have hfirst : ∀ lba : ℕ, ∃ rest, sectorSlots lba = ⟨lba, 0⟩ :: ⟨lba, 32⟩ :: rest :=
    fun lba => ⟨_, rfl⟩
  obtain ⟨rest, hrest⟩ := hfirst (clusterLba m c)
  refine ⟨rest ++ ((List.range k).map fun s => clusterLba m c + (s + 1)).flatMap sectorSlots, ?_⟩
  rw [slots, sectors, List.flatMap_singleton, clusterSectors, hk, List.range_succ_eq_map,
    List.map_cons, List.flatMap_cons, Nat.add_zero, hrest, List.map_map]
  rfl

theorem recAt_dirSector_zero (c parent : ℕ) : recAt (dirSector c parent) 0 = dotRecord 1 c := by
  rw [dirSector, recAt_putRec_of_apart _ _ (by decide), recAt_putRec]

theorem recAt_dirSector_dotdot (c parent : ℕ) : recAt (dirSector c parent) 32 = dotRecord 2 parent :=
  recAt_putRec _ _ _

theorem recOf_newDir_rest (data : ℕ → Sector) (parent : ℕ) (hq : q ∈ slots m [c]) (h₀ : q ≠ ⟨clusterLba m c, 0⟩)
    (h₁ : q ≠ ⟨clusterLba m c, 32⟩) : recOf (newDir m data c parent) q 0 = entFree := by
  obtain ⟨hlba, k, -, hk⟩ := mem_slots.mp hq
  rw [sectors, List.flatMap_singleton] at hlba
  obtain ⟨lba, off⟩ := q
  simp only at hlba hk
  unfold recOf newDir
  simp only
  by_cases hfirst : lba = clusterLba m c
  · subst hfirst
    have hk₀ : k ≠ 0 := fun h => h₀ (by rw [hk, h])
    have hk₁ : k ≠ 1 := fun h => h₁ (by rw [hk, h])
    rw [if_pos rfl, dirSector, recAt_putRec_of_apart _ _ (by simp only [direntSize]; omega),
      recAt_putRec_of_apart _ _ (by omega)]
    rfl
  · rw [if_neg hfirst, if_pos hlba]
    rfl

theorem recOf_newDir_first (m : Mount) (data : ℕ → Sector) (c parent : ℕ) :
    recOf (newDir m data c parent) ⟨clusterLba m c, 0⟩ = dotRecord 1 c ∧
      recOf (newDir m data c parent) ⟨clusterLba m c, 32⟩ = dotRecord 2 parent := by
  constructor
  · rw [recOf, newDir, if_pos rfl, recAt_dirSector_zero]
  · rw [recOf, newDir, if_pos rfl, recAt_dirSector_dotdot]

theorem Leads.newDir {S : ℕ → Prop} {parent : ℕ} (hc : c < 2 ^ 32) (hp : parent < 2 ^ 32) (hcS : S c)
    (hpS : S parent) : Leads (slots m [c]) S (newDir m data c parent) := by
  intro q hq hsub
  obtain ⟨hdot, hdotdot⟩ := recOf_newDir_first m data c parent
  by_cases h₀ : q = ⟨clusterLba m c, 0⟩
  · rw [h₀, hdot, dotRecord, Dirent.clus_setClus hc]
    exact hcS
  by_cases h₁ : q = ⟨clusterLba m c, 32⟩
  · rw [h₁, hdotdot, dotRecord, Dirent.clus_setClus hp]
    exact hpS
  · have hz := recOf_newDir_rest data parent hq h₀ h₁
    simp [Dirent.isSubdir, entryUsed, hz] at hsub

theorem ChainsApart.recOf_newDir {parent : ℕ} (ha : ChainsApart m data fat) (hc : IsFree m fat c)
    (hd : Reached m data fat d) (hq : q ∈ slots m (chainOf m fat d)) :
    recOf (newDir m data c parent) q = recOf data q := by
  obtain ⟨l, hl⟩ := ha.dir hd
  rw [hl.chainOf_eq] at hq
  exact Fat32.recOf_newDir hl.range ⟨hc.1, hc.2.1⟩ (fun hm => hl.not_free hm hc) hq

end Lnxrm.Fat32
