import Lnxrm.Fat32.Helpers.FileIo
import Lnxrm.Fat32.Tree

/-!
# FAT32 — scans and path resolution on a volume at rest

Proof layer. The scans, which read past the cache, see a directory whose
sectors are on the device (`Legible`), and the driver resolves a path to
the record it names (`wp_resolveFrom`).
-/

namespace Lnxrm.Fat32

open Prog (wp wp_bind wp_pure)

variable {m : Mount} {v : Vol} {data : ℕ → Sector} {fat : ℕ → ℕ} {d c : ℕ} {l : List ℕ}
  {e : Dirent} {p : DirentPos} {want : Str}

theorem HasChain.chainOf_eq (h : HasChain m fat c l) : chainOf m fat c = l :=
  h.toWalk.walkFrom_eq h.length_le

/-- A scan past the cache sees the directory: it has a chain, and what the
chain holds is on the device. -/
def Legible (m : Mount) (v : Vol) (d : ℕ) : Prop :=
  ∃ l, HasChain m v.fat d l ∧ ∀ lba ∈ sectors m l, lba ∉ v.dirty

/-! ## Scans -/

theorem scanStep_find_inr {st : LfnState × Option Dirent} {r : Option Dirent}
    (h : scanStep (fatScanFindCb want) st e = .inr (true, r)) : r = some e ∧ e.isLive = true := by
  unfold scanStep at h
  split_ifs at h with hend hused hlfn hvol
  · simp at h
  · simp only [Bool.not_eq_true, Bool.not_eq_false'] at hused hlfn hvol
    refine ⟨?_, by simp [Dirent.isLive, hend, hused, hlfn, hvol]⟩
    unfold fatScanFindCb at h
    by_cases hname : (strcaseEq (lfnName st.1 e) want || fatNameEqShort want e) = true
    · simpa [hname] using h.symm
    · simp [hname] at h

theorem findRecord_some (h : findRecord m data fat d want = some p) :
    p ∈ slots m (chainOf m fat d) ∧ (recOf data p).isLive = true := by
  unfold findRecord at h
  split at h
  · rename_i r q hfind
    cases h
    obtain ⟨hmem, st, hst⟩ := mem_of_findIn hfind
    exact ⟨hmem, (scanStep_find_inr hst).2⟩
  · cases h

theorem findIn_map_fst {β γ : Type} (data : ℕ → Sector) (f : β → Dirent → β ⊕ γ) (b : β)
    (ps : List DirentPos) :
    foldExit (fun b p => f b (recOf data p)) b ps = (findIn data f b ps).map id Prod.fst := by
  rw [findIn, ← foldExit_mapExit]
  refine foldExit_congr (fun b p _ => ?_) b
  cases f b (recOf data p) <;> rfl

/-- **A scan.** -/
theorem wp_fatScanDir {κ : Type} {cb : κ → Str → Dirent → κ × Bool} {ctx : κ}
    {Q : Bool × κ → Vol → Prop} (h : Legible m v d)
    (hinl : ∀ st, findIn v.data (scanStep cb) (lfnInit m, ctx) (slots m (chainOf m v.fat d)) =
      .inl st → Q (false, st.2) v)
    (hinr : ∀ r p, findIn v.data (scanStep cb) (lfnInit m, ctx) (slots m (chainOf m v.fat d)) =
      .inr (r, p) → Q r v) :
    wp (volume m) (fatScanDir m d cb ctx) Q v := by
  obtain ⟨l, hl, hclean⟩ := h
  rw [hl.chainOf_eq] at hinl hinr
  unfold fatScanDir
  rw [wp_bind]
  refine wp_scanDevice hl.toWalk hl.length_le hclean (lfnInit m, ctx) ?_
  rw [findIn_map_fst]
  cases hfind : findIn v.data (scanStep cb) (lfnInit m, ctx) (slots m l) with
  | inl st => exact hinl st hfind
  | inr r => exact hinr r.1 r.2 hfind

/-- **A scan for a name.** -/
theorem wp_fatScanFind {Q : Option Dirent → Vol → Prop} (h : Legible m v d)
    (hQ : Q ((findRecord m v.data v.fat d want).map (recOf v.data)) v) :
    wp (volume m) (fatScanFind m d want) Q v := by
  unfold findRecord at hQ
  unfold fatScanFind
  rw [wp_bind]
  refine wp_fatScanDir h (fun st hfind => ?_) fun r p hfind => ?_
  · rwa [hfind] at hQ
  rw [hfind] at hQ
  obtain ⟨hit, found⟩ := r
  cases hit with
  | false => exact hQ
  | true =>
    obtain ⟨-, st, hst⟩ := mem_of_findIn hfind
    rw [(scanStep_find_inr hst).1]
    exact hQ

/-! ## Paths -/

theorem wp_resolveFrom {trailing : Bool} {Q : Option Resolve → Vol → Prop}
    {R : ℕ → List Str → Prop} (hlegible : ∀ {cur comp rest}, R cur (comp :: rest) → Legible m v cur)
    (hnext : ∀ {cur comp rest p}, R cur (comp :: rest) →
      findRecord m v.data v.fat cur comp = some p → (recOf v.data p).isDir = true →
      R (recOf v.data p).clus rest)
    (comps : List Str) : ∀ {cur : ℕ}, R cur comps →
      Q ((targetFrom m v.data v.fat trailing cur comps).map (Target.resolve v.data)) v →
      wp (volume m) (resolveFrom m trailing cur comps) Q v := by
  induction comps with
  | nil => exact fun _ hQ => hQ
  | cons comp rest ih =>
    intro cur hin hQ
    rw [targetFrom] at hQ
    rw [resolveFrom]
    by_cases hlen : 56 ≤ comp.length
    · rw [if_pos hlen] at hQ ⊢
      exact hQ
    rw [if_neg hlen] at hQ ⊢
    rw [wp_bind]
    refine wp_fatScanFind (hlegible hin) ?_
    cases hfind : findRecord m v.data v.fat cur comp with
    | none =>
      rw [hfind] at hQ
      exact hQ
    | some p =>
      simp only [hfind] at hQ
      simp only [Option.map_some]
      split_ifs at hQ ⊢ with hlast hdir hnil
      · exact hQ
      · exact hQ
      · exact hQ
      · exact ih (hnext hin hfind (by simpa using hdir)) hQ

end Lnxrm.Fat32
