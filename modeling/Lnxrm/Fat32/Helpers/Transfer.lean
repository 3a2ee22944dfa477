import Lnxrm.Fat32.Helpers.Rules

/-!
# FAT32 — the transfer loops

Proof layer. `fat_read_impl` and `fat_write_impl` skip to an
offset and go on sector by sector; both loops are `transfer`. With the
cursor at byte `off + done`, its sector is the chain's sector number
`(off + done) / 512` (`cursor_lba`), so one rule (`wp_transfer`) carries an
invariant over the bytes done to the end of the request or of the chain.
-/

namespace Lnxrm.Fat32

open Prog (wp wp_bind wp_pure wp_perform)

variable {m : Mount} {v : Vol} {β : Type} {l : List ℕ} {n off : ℕ}

theorem Mount.clusterSize_pos (m : Mount) : 0 < m.clusterSize := by
  have := m.spc_pos
  simp only [Mount.clusterSize, sectorSize]
  omega

theorem wp_skipClusters {clus skip fuel : ℕ} {Q : ℕ × ℕ → Vol → Prop}
    (hw : Walk (nextOf m v.fat) Ends clus l) (hfuel : l.length < fuel)
    (hQ : ∀ skip' c', skip' % m.clusterSize = skip % m.clusterSize →
      Walk (nextOf m v.fat) Ends c' (l.drop (skip / m.clusterSize)) → Q (skip', c') v) :
    wp (volume m) (skipClusters m fuel skip clus) Q v := by
  have hpos := m.clusterSize_pos
  induction l generalizing clus skip fuel with
  | nil =>
    obtain ⟨fuel, rfl⟩ := Nat.exists_eq_succ_of_ne_zero (Nat.ne_zero_of_lt hfuel)
    have hend : Ends clus := hw
    rw [skipClusters, if_neg (by rcases hend with h | h <;> simp [h])]
    exact hQ skip clus rfl (by simpa using hw)
  | cons x l ih =>
    obtain ⟨fuel, rfl⟩ := Nat.exists_eq_succ_of_ne_zero (Nat.ne_zero_of_lt hfuel)
    by_cases hskip : m.clusterSize ≤ skip
    · obtain ⟨rfl, hns, hrest⟩ := hw
      have hgo : m.clusterSize ≤ skip ∧ (!clusterIsEoc x) = true ∧ 2 ≤ x := by
        refine ⟨hskip, ?_, ?_⟩
        · simpa using fun h => hns (Or.inl h)
        · exact Nat.le_of_not_lt fun h => hns (Or.inr h)
      rw [skipClusters, if_pos hgo]
      simp only [wp_bind, wp_fatNextCluster]
      refine ih hrest (by simpa using hfuel) fun skip' c' hmod hc' => hQ skip' c' ?_ ?_
      · rw [hmod, ← Nat.mod_eq_sub_mod hskip]
      · rw [Nat.div_eq_sub_div hpos hskip]
        exact hc'
    · rw [skipClusters, if_neg (fun h => hskip h.1)]
      refine hQ skip clus rfl ?_
      rwa [Nat.div_eq_of_lt (Nat.lt_of_not_le hskip), List.drop_zero]

/-- **The cursor's sector** is the chain's sector the byte falls in. -/
theorem cursor_lba {cu : Cursor} {pos : ℕ} (hin : cu.inClus = pos % m.clusterSize)
    (hclus : cu.clus = l.getD (pos / m.clusterSize) 0) (hpos : pos / m.clusterSize < l.length) :
    cu.lba m = (sectors m l).getD (pos / sectorSize) 0 := by
  have hspc := m.spc_pos
  have hdiv : pos / sectorSize / m.sectorsPerCluster = pos / m.clusterSize := by
    rw [Nat.div_div_eq_div_mul, Mount.clusterSize]
  have hlt : pos / sectorSize < l.length * m.sectorsPerCluster := by
    rw [← hdiv] at hpos
    exact (Nat.div_lt_iff_lt_mul hspc).mp hpos
  rw [getD_sectors hlt, hdiv, Cursor.lba, hclus, hin, Mount.clusterSize, Nat.mod_mul_right_div_self]

theorem advance_pos {pos chunk cs spc : ℕ} (hcs : cs = 512 * spc) (hspc : 0 < spc)
    (hchunk : chunk ≤ 512 - pos % cs % 512) :
    (cs ≤ pos % cs + chunk → (pos + chunk) % cs = 0 ∧ (pos + chunk) / cs = pos / cs + 1) ∧
    (pos % cs + chunk < cs →
      (pos + chunk) % cs = pos % cs + chunk ∧ (pos + chunk) / cs = pos / cs) := by
  have hlt : pos % cs < cs := Nat.mod_lt _ (by omega)
  have hpos := Nat.div_add_mod pos cs
  have heq : pos + chunk = cs * (pos / cs) + (pos % cs + chunk) := by omega
  refine ⟨fun hge => ?_, fun hlt' => ?_⟩
  · have hcs' : pos % cs + chunk = cs := by omega
    have hmul : pos + chunk = cs * (pos / cs + 1) := by rw [heq, hcs']; ring
    rw [hmul]
    exact ⟨Nat.mul_mod_right _ _, Nat.mul_div_cancel_left _ (by omega)⟩
  · rw [heq]
    refine ⟨?_, ?_⟩
    · rw [Nat.mul_add_mod, Nat.mod_eq_of_lt hlt']
    · rw [Nat.mul_add_div (by omega), Nat.div_eq_of_lt hlt', Nat.add_zero]

/-- The cursor stands at a byte of the chain. -/
structure CursorAt (m : Mount) (fat : ℕ → ℕ) (l : List ℕ) (off : ℕ) (cu : Cursor) : Prop where
  inClus : cu.inClus = (off + cu.done) % m.clusterSize
  walk : Walk (nextOf m fat) Ends cu.clus (l.drop ((off + cu.done) / m.clusterSize))

theorem CursorAt.getD_eq {fat : ℕ → ℕ} {cu : Cursor} (h : CursorAt m fat l off cu)
    (hlt : (off + cu.done) / m.clusterSize < l.length) :
    cu.clus = l.getD ((off + cu.done) / m.clusterSize) 0 := by
  have hw := h.walk
  rw [List.drop_eq_getElem_cons hlt] at hw
  rw [List.getD_eq_getElem _ _ hlt]
  exact hw.1.symm

theorem wp_advance {fat : ℕ → ℕ} {cu : Cursor} (h : CursorAt m fat l off cu) (hfat : v.fat = fat)
    (hlt : (off + cu.done) / m.clusterSize < l.length) {Q : Cursor → Vol → Prop}
    (hQ : ∀ cu', cu'.done = cu.done + cu.chunk n → CursorAt m fat l off cu' → Q cu' v) :
    wp (volume m) (cu.advance m n) Q v := by
  have hchunk : cu.chunk n ≤ 512 - (off + cu.done) % m.clusterSize % 512 := by
    unfold Cursor.chunk
    rw [h.inClus]
    exact Nat.min_le_right _ _
  obtain ⟨hnext, hstay⟩ :=
    advance_pos (show m.clusterSize = 512 * m.sectorsPerCluster from rfl) m.spc_pos hchunk
  have hadd : off + (cu.done + cu.chunk n) = off + cu.done + cu.chunk n := by omega
  unfold Cursor.advance
  rw [h.inClus]
  by_cases hge : m.clusterSize ≤ (off + cu.done) % m.clusterSize + cu.chunk n
  · obtain ⟨hmod, hdiv⟩ := hnext hge
    have hw := h.walk
    rw [List.drop_eq_getElem_cons hlt] at hw
    simp only [if_pos hge, wp_bind, wp_fatNextCluster, wp_pure]
    refine hQ _ rfl ⟨?_, ?_⟩
    · rw [hadd]
      exact hmod.symm
    · rw [hadd, hdiv, hfat]
      exact hw.2.2
  obtain ⟨hmod, hdiv⟩ := hstay (by omega)
  simp only [if_neg hge, wp_pure]
  refine hQ _ rfl ⟨?_, ?_⟩
  · rw [hadd]
    exact hmod.symm
  · rw [hadd, hdiv]
    exact h.walk

/-- **The rule of the transfer loops.** An invariant over the bytes done
holds at the end, and the loop has done all it could: the request, or the
chain from the offset on. -/
theorem wp_transfer (l : List ℕ) (off : ℕ) {body : β → Cursor → Fat (Option β)}
    {I : β → ℕ → Vol → Prop} {fat : ℕ → ℕ}
    (hfat : ∀ b k v, I b k v → v.fat = fat)
    (hbody : ∀ b v cu, I b cu.done v → cu.done < n →
      off + cu.done < capacity m l → cu.lba m = (sectors m l).getD ((off + cu.done) / sectorSize) 0 →
      cu.inClus % sectorSize = (off + cu.done) % sectorSize →
      wp (volume m) (body b cu) (fun r v' => ∃ b', r = some b' ∧ I b' (cu.done + cu.chunk n) v') v)
    (turns : ℕ) :
    ∀ {b : β} {cu : Cursor} {v : Vol}, I b cu.done v → CursorAt m fat l off cu →
      n ≤ cu.done + turns → cu.done ≤ n → off + cu.done ≤ capacity m l ∨ cu.done = 0 →
      wp (volume m) (transfer m n body turns b cu)
        (fun r v' => I r.1 r.2 v' ∧ r.2 = min n (capacity m l - off)) v := by
  have hcs := m.clusterSize_pos
  induction turns with
  | zero =>
    intro b cu v hI _ hturns hle hcap
    exact ⟨hI, by show cu.done = _; omega⟩
  | succ turns ih =>
    intro b cu v hI hcu hturns hle hcap
    have hdrop : (off + cu.done) / m.clusterSize < l.length ↔ off + cu.done < capacity m l :=
      Nat.div_lt_iff_lt_mul hcs
    by_cases hgo : cu.done < n ∧ (!clusterIsEoc cu.clus) = true ∧ 2 ≤ cu.clus
    · have hlt : (off + cu.done) / m.clusterSize < l.length := by
        by_contra hge
        have hw := hcu.walk
        rw [List.drop_eq_nil_of_le (by omega)] at hw
        rcases (hw : Ends cu.clus) with h | h
        · simp [h] at hgo
        · omega
      have hmod : cu.inClus % sectorSize = (off + cu.done) % sectorSize := by
        rw [hcu.inClus, Mount.clusterSize, Nat.mod_mul_right_mod]
      rw [transfer, if_pos hgo, wp_bind]
      refine Prog.wp_mono (hbody b v cu hI hgo.1 (hdrop.mp hlt)
        (cursor_lba hcu.inClus (hcu.getD_eq hlt) hlt) hmod) ?_
      rintro _ v' ⟨b', rfl, hI'⟩
      simp only [wp_bind]
      refine wp_advance hcu (hfat _ _ _ hI') hlt fun cu' hdone hcu' => ?_
      have hpos : 0 < cu.chunk n := by
        unfold Cursor.chunk
        simp only [sectorSize]
        omega
      have hchunk : cu.chunk n ≤ n - cu.done := Nat.min_le_left _ _
      refine ih (hdone ▸ hI') hcu' (by omega) (by omega) (Or.inl ?_)
      have hsec : cu.chunk n ≤ 512 - (off + cu.done) % 512 := by
        unfold Cursor.chunk
        rw [hmod]
        exact Nat.min_le_right _ _
      have hcapeq : capacity m l = 512 * (l.length * m.sectorsPerCluster) := by
        simp only [capacity, Mount.clusterSize, sectorSize]
        ring
      have hin := hdrop.mp hlt
      generalize l.length * m.sectorsPerCluster = k at hcapeq
      omega
    rw [transfer, if_neg hgo]
    refine ⟨hI, ?_⟩
    show cu.done = _
    by_cases hdone : cu.done < n
    · have hend : Ends cu.clus := by
        by_contra hne
        refine hgo ⟨hdone, by simpa using fun h => hne (Or.inl h), ?_⟩
        exact Nat.le_of_not_lt fun h => hne (Or.inr h)
      have hnil := hcu.walk.eq_nil_of_stop hend
      have hge : ¬ (off + cu.done) / m.clusterSize < l.length := by
        have := List.drop_eq_nil_iff.mp hnil
        omega
      rw [hdrop] at hge
      omega
    · omega

end Lnxrm.Fat32
