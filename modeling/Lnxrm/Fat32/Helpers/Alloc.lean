import Lnxrm.Fat32.Helpers.Rules

/-!
# FAT32 — growing and freeing chains

Proof layer. `alloc_chain` appends free clusters to a chain one
by one (`IsChain.extend`), and `freeChain` clears the entries of one; both
leave every other chain as it was, because they touch only free clusters
and clusters of their own chain.
-/

namespace Lnxrm.Fat32

open List

open Prog (wp wp_bind wp_pure wp_perform)

variable {m : Mount} {v : Vol} {fat fat' : ℕ → ℕ} {c x : ℕ} {l ext : List ℕ}

theorem eoc_mod : clusterIsEoc (0x0FFFFFFF % 2 ^ 28) = true := by decide

/-- **A chain grows by one free cluster**, linked to its last one. -/
theorem IsChain.extend {p nc : ℕ} (h : IsChain m fat c (l ++ [p])) (hnc : IsFree m fat nc) :
    IsChain m (setEntry (setEntry fat nc 0x0FFFFFFF) p nc) c (l ++ [p] ++ [nc]) := by
  have hmax := m.max_le
  have hp := h.range p (by simp)
  have hne : ∀ y ∈ l ++ [p], y ≠ nc := fun y hy heq => h.not_free hy (heq ▸ hnc)
  have hnep : nc ≠ p := (hne p (by simp)).symm
  have hnext_p : nextOf m (setEntry (setEntry fat nc 0x0FFFFFFF) p nc) p = nc := by
    rw [nextOf_of_lt hp.2, setEntry_self, Nat.mod_eq_of_lt (by have := hnc.2.1; omega)]
  have hnext_nc : nextOf m (setEntry (setEntry fat nc 0x0FFFFFFF) p nc) nc = 0x0FFFFFFF % 2 ^ 28 := by
    rw [nextOf_of_lt hnc.2.1, setEntry_of_ne hnep, setEntry_self]
  refine ⟨?_, ?_⟩
  · rw [append_assoc, singleton_append]
    have htail : Walk (nextOf m (setEntry (setEntry fat nc 0x0FFFFFFF) p nc))
        (fun c => clusterIsEoc c = true) nc [nc] :=
      ⟨rfl, m.not_eoc_of_lt hnc.2.1, hnext_nc ▸ eoc_mod⟩
    refine h.walk.append (hnext_p.symm ▸ htail) (fun y hy => ?_)
      fun y hy => m.not_eoc_of_lt (h.range y hy).2
    have hyp : y ≠ p := by
      rintro rfl
      have := h.nodup
      rw [nodup_append] at this
      exact this.2.2 y hy y (by simp) rfl
    have hlt := (h.range y (by simp [hy])).2
    rw [nextOf_of_lt hlt, nextOf_of_lt hlt, setEntry_of_ne hyp, setEntry_of_ne (hne y (by simp [hy]))]
  · intro y hy
    rcases mem_append.mp hy with hy | hy
    · exact h.range y hy
    · rw [mem_singleton.mp hy]
      exact ⟨hnc.1, hnc.2.1⟩

theorem IsChain.fresh {nc : ℕ} (hnc : IsFree m fat nc) :
    IsChain m (setEntry fat nc 0x0FFFFFFF) nc [nc] := by
  refine ⟨⟨rfl, m.not_eoc_of_lt hnc.2.1, ?_⟩, ?_⟩
  · rw [nextOf_of_lt hnc.2.1, setEntry_self]
    exact eoc_mod
  · intro y hy
    rw [mem_singleton.mp hy]
    exact ⟨hnc.1, hnc.2.1⟩

/-- **What growing a chain does to the FAT**: the chain `l` from `first`
has become `l ++ ext` from `head`; `ext` was free, and no other entry has
changed but that of the last cluster of `l`. -/
structure Grown (m : Mount) (fat : ℕ → ℕ) (first : ℕ) (l ext : List ℕ) (fat' : ℕ → ℕ) (head : ℕ) :
    Prop where
  chain : HasChain m fat' head (l ++ ext)
  nodup : ext.Nodup
  free : ∀ x ∈ ext, IsFree m fat x
  frame : ∀ x, x ∉ l → x ∉ ext → fat' x = fat x
  inner : ∀ x ∈ l.dropLast, fat' x = fat x
  same : ext = [] → fat' = fat
  head_eq : l ≠ [] → head = first

theorem Grown.refl (h : HasChain m fat c l) : Grown m fat c l [] fat c where
  chain := by simpa using h
  nodup := nodup_nil
  free := by simp
  frame _ _ _ := rfl
  inner _ _ := rfl
  same _ := rfl
  head_eq _ := rfl

theorem Grown.trans {fat₁ : ℕ → ℕ} {head₁ head : ℕ} {e₁ e₂ : List ℕ}
    (h₁ : Grown m fat c l e₁ fat₁ head₁) (h₂ : Grown m fat₁ head₁ (l ++ e₁) e₂ fat' head)
    (hne : e₁ ≠ []) : Grown m fat c l (e₁ ++ e₂) fat' head := by
  have hnew : ∀ x ∈ e₂, x ∉ l ++ e₁ := fun x hx hm => h₁.chain.not_free hm (h₂.free x hx)
  refine ⟨by simpa using h₂.chain, ?_, fun x hx => ?_, fun x hl hx => ?_, fun x hx => ?_,
    fun he => absurd (append_eq_nil_iff.mp he).1 hne, fun hl => ?_⟩
  · rw [nodup_append]
    refine ⟨h₁.nodup, h₂.nodup, fun a ha b hb heq => hnew b hb ?_⟩
    rw [← heq]
    exact mem_append_right _ ha
  · rcases mem_append.mp hx with hx | hx
    · exact h₁.free x hx
    · have hm := hnew x hx
      rw [mem_append, not_or] at hm
      have hf := h₂.free x hx
      exact ⟨hf.1, hf.2.1, by rw [← h₁.frame x hm.1 hm.2]; exact hf.2.2⟩
  · rw [mem_append, not_or] at hx
    rw [h₂.frame x (by simp [hl, hx.1]) hx.2, h₁.frame x hl hx.1]
  · rw [h₂.inner x ?_, h₁.inner x hx]
    rw [dropLast_append_of_ne_nil hne]
    exact mem_append_left _ (mem_of_mem_dropLast hx)
  · rw [h₂.head_eq (by simp [hne]), h₁.head_eq hl]

theorem wp_chainTail {fuel prev cnt : ℕ} {Q : ℕ × ℕ → Vol → Prop}
    (hw : Walk (nextOf m v.fat) Ends c l) (hfuel : l.length < fuel)
    (hQ : Q (l.getLastD prev, cnt + l.length) v) :
    wp (volume m) (chainTail m fuel prev cnt c) Q v := by
  induction l generalizing c fuel prev cnt with
  | nil =>
    obtain ⟨fuel, rfl⟩ := Nat.exists_eq_succ_of_ne_zero (Nat.ne_zero_of_lt hfuel)
    have hend : Ends c := hw
    rw [chainTail, if_neg (by rcases hend with h | h <;> simp [h])]
    exact hQ
  | cons x l ih =>
    obtain ⟨fuel, rfl⟩ := Nat.exists_eq_succ_of_ne_zero (Nat.ne_zero_of_lt hfuel)
    obtain ⟨rfl, hns, hrest⟩ := hw
    rw [chainTail, if_pos ⟨by simpa using fun h => hns (Or.inl h),
      Nat.le_of_not_lt fun h => hns (Or.inr h)⟩]
    simp only [wp_bind, wp_fatNextCluster]
    refine ih hrest (by simpa using hfuel) ?_
    have hlen : cnt + 1 + l.length = cnt + (x :: l).length := by
      rw [length_cons]
      omega
    rw [hlen]
    rwa [getLastD_cons] at hQ

theorem Grown.one {nc : ℕ} (h : HasChain m fat c l) (hnc : IsFree m fat nc) : Grown m fat c l [nc]
      (if l.getLastD 0 ≠ 0 then setEntry (setEntry fat nc 0x0FFFFFFF) (l.getLastD 0) nc
        else setEntry fat nc 0x0FFFFFFF)
      (if l.getLastD 0 ≠ 0 then c else nc) := by
  rcases h with ⟨rfl, rfl⟩ | ⟨hne, h⟩
  · refine ⟨Or.inr ⟨by simp, IsChain.fresh hnc⟩, by simp, by simpa using hnc, ?_, by simp, by simp,
      by simp⟩
    intro x _ hx
    exact setEntry_of_ne (by simpa using hx)
  obtain ⟨l₀, p, rfl⟩ := (eq_nil_or_concat' l).resolve_left hne
  have hp := h.range p (by simp)
  have hlast : (l₀ ++ [p]).getLastD 0 = p := by simp
  rw [hlast, if_pos (by omega), if_pos (by omega)]
  refine ⟨Or.inr ⟨by simp, h.extend hnc⟩, by simp, by simpa using hnc, fun x hl hx => ?_,
    fun x hx => ?_, by simp, fun _ => rfl⟩
  · rw [setEntry_of_ne (by rintro rfl; simp at hl), setEntry_of_ne (by simpa using hx)]
  rw [dropLast_concat] at hx
  have hxp : x ≠ p := by
    rintro rfl
    have hnd := h.nodup
    rw [nodup_append] at hnd
    exact hnd.2.2 x hx x (by simp) rfl
  have hxnc : x ≠ nc := fun e => h.not_free (mem_append_left _ hx) (e ▸ hnc)
  rw [setEntry_of_ne hxp, setEntry_of_ne hxnc]

/-- **The loop of `alloc_chain`**: the chain grows by all the clusters that
are missing, or by fewer and then the volume is full. -/
theorem wp_appendClusters (missing : ℕ) {Q : ℕ → Vol → Prop} :
    ∀ {v : Vol} {c : ℕ} {l : List ℕ}, HasChain m v.fat c l →
      (∀ ext fat' head, Grown m v.fat c l ext fat' head → ext.length = missing →
        Q head { v with fat := fat' }) →
      (∀ ext fat' head, Grown m v.fat c l ext fat' head → ext.length < missing →
        (∀ x, ¬ IsFree m fat' x) → Q 0 { v with fat := fat' }) →
      wp (volume m) (appendClusters m missing (l.getLastD 0) c) Q v := by
  induction missing with
  | zero => exact fun h hok _ => hok [] _ _ (Grown.refl h) rfl
  | succ missing ih =>
    intro v c l h hok hfull
    rw [appendClusters, wp_bind]
    refine wp_fatFindFreeCluster (fun nc hnc => ?_) fun hno => ?_
    · have hone := Grown.one h hnc
      have hnc0 : nc ≠ 0 := by have := hnc.1; omega
      rw [if_neg hnc0, wp_bind]
      refine wp_fatSetEntry hnc.2.1 ?_
      have hgo : ∀ (fat₁ : ℕ → ℕ) (head₁ : ℕ), Grown m v.fat c l [nc] fat₁ head₁ →
          wp (volume m) (appendClusters m missing nc head₁) Q { v with fat := fat₁ } := by
        intro fat₁ head₁ h₁
        have hlast : (l ++ [nc]).getLastD 0 = nc := by simp
        rw [← hlast]
        refine ih h₁.chain (fun ext fat' head h₂ hlen => ?_) fun ext fat' head h₂ hlen hno => ?_
        · exact hok ([nc] ++ ext) fat' head (h₁.trans h₂ (by simp)) (by simp [hlen])
        · exact hfull ([nc] ++ ext) fat' head (h₁.trans h₂ (by simp)) (by simpa using hlen) hno
      by_cases hprev : l.getLastD 0 ≠ 0
      · rw [if_pos hprev, if_pos hprev] at hone
        rw [if_pos hprev, wp_bind]
        have hlt : l.getLastD 0 < m.maxCluster := by
          rcases h with ⟨-, rfl⟩ | ⟨hne, h⟩
          · simp at hprev
          · obtain ⟨l₀, p, rfl⟩ := (eq_nil_or_concat' l).resolve_left hne
            exact (h.range _ (by simp)).2
        exact wp_fatSetEntry hlt (hgo _ _ hone)
      · rw [if_neg hprev, if_neg hprev] at hone
        rw [if_neg hprev]
        exact hgo _ _ hone
    · rw [if_pos rfl]
      exact hfull [] _ _ (Grown.refl h) (by simp) hno

/-- **`alloc_chain`.** -/
theorem wp_allocChain {first need : ℕ} {Q : ℕ → Vol → Prop} (h : HasChain m v.fat first l)
    (hok : ∀ ext fat' head, Grown m v.fat first l ext fat' head →
      ext.length = clustersFor m need - l.length → Q head { v with fat := fat' })
    (hfull : ∀ ext fat' head, Grown m v.fat first l ext fat' head →
      ext.length < clustersFor m need - l.length → (∀ x, ¬ IsFree m fat' x) →
      Q 0 { v with fat := fat' }) :
    wp (volume m) (allocChain m first need) Q v := by
  unfold allocChain chainEnd
  rw [wp_bind]
  have happ := wp_appendClusters _ h hok hfull
  rcases h with ⟨rfl, rfl⟩ | ⟨hne, h⟩
  · simpa using happ
  have hfirst : first ≠ 0 := by
    rw [Ne, HasChain.zero_iff (Or.inr ⟨hne, h⟩)]
    exact hne
  have hneoc : ¬ (first ≠ 0 ∧ clusterIsEoc first = true) := by
    rintro ⟨-, heoc⟩
    exact hne (h.walk.eq_nil_of_stop heoc)
  rw [if_neg hneoc, if_pos hfirst]
  refine wp_chainTail h.toWalk (Mount.lt_fuel h.length_lt) ?_
  simpa using happ

/-- A chain that could not grow as far as wanted has taken every free
cluster. -/
theorem Grown.free_le {head : ℕ} (h : Grown m fat c l ext fat' head) (hl : HasChain m fat c l)
    (hno : ∀ x, ¬ IsFree m fat' x) : (freeClusters m fat).length ≤ ext.length := by
  refine length_freeClusters_le fun x hx => ?_
  by_contra hext
  refine hno x ⟨hx.1, hx.2.1, ?_⟩
  rw [h.frame x (fun hm => hl.not_free hm hx) hext]
  exact hx.2.2

theorem Grown.other {head d : ℕ} {l' : List ℕ} (h : Grown m fat c l ext fat' head)
    (h' : HasChain m fat d l') (hdis : l.Disjoint l') :
    HasChain m fat' d l' ∧ (l ++ ext).Disjoint l' := by
  have hext : ext.Disjoint l' := fun x hx hx' => h'.not_free hx' (h.free x hx)
  refine ⟨h'.congr fun x hx => ?_, fun x hx hx' => ?_⟩
  · rw [h.frame x (fun hl => hdis hl hx) fun he => hext he hx]
  · rcases mem_append.mp hx with hl | he
    · exact hdis hl hx'
    · exact hext he hx'

end Lnxrm.Fat32
