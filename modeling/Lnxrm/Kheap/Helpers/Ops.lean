import Lnxrm.Kheap.Helpers.Layout

/-!
# The operations of the heap

Proof layer. Each operation keeps the layout: a page is carved chunk by
chunk, an allocation takes the head of its list or a block of its own, and
`kfree` finds in the header where the chunk came from.
-/

namespace Lnxrm.Kheap

open Function

variable {A : Type} {B : Buddy A} {s s' : Heap A} {C : Set (ℕ × ℕ)} {L : ℕ → List ℕ}
  {live : List (ℕ × ℕ)} {b p n f k : ℕ}

/-! ## Sizes -/

theorem shiftUp_le {n c : ℕ} (hn : n ≤ 2 ^ c) : ∀ (fuel b : ℕ), b ≤ c → shiftUp n fuel b ≤ c
  | 0, b, hb => hb
  | fuel + 1, b, hb => by
    rw [shiftUp]
    split
    · rename_i hlt
      refine shiftUp_le hn fuel (b + 1) ?_
      -- at `c` the loop would have stopped
      by_contra hno
      have : b = c := by omega
      rw [this] at hlt
      omega
    · exact hb

theorem le_shiftUp (n : ℕ) : ∀ (fuel b : ℕ), b ≤ shiftUp n fuel b
  | 0, b => le_rfl
  | fuel + 1, b => by
    rw [shiftUp]
    split
    · exact (Nat.le_succ b).trans (le_shiftUp n fuel (b + 1))
    · exact le_rfl

theorem shiftUp_enough {n : ℕ} : ∀ (fuel b : ℕ), n ≤ 2 ^ (b + fuel) → n ≤ 2 ^ shiftUp n fuel b
  | 0, b, h => h
  | fuel + 1, b, h => by
    rw [shiftUp]
    split
    · refine shiftUp_enough fuel (b + 1) ?_
      rwa [show b + 1 + fuel = b + (fuel + 1) by omega]
    · omega

theorem binOf_spec {n : ℕ} (hn : n ≤ 4096) : binOf n < 9 ∧ n ≤ 2 ^ (binOf n + 4) := by
  have hle := shiftUp_le (show n ≤ 2 ^ 12 from hn) 60 4 (by decide)
  have hge := le_shiftUp n 60 4
  have henough : n ≤ 2 ^ shiftUp n 60 4 :=
    shiftUp_enough 60 4 (hn.trans (show 4096 ≤ 2 ^ (4 + 60) by decide))
  unfold binOf
  refine ⟨by omega, ?_⟩
  rwa [Nat.sub_add_cancel hge]

theorem orderOf_spec {n : ℕ} (hn : n + 8 < 2 ^ 63) :
    orderOf n < 52 ∧ n + 8 ≤ 4096 * 2 ^ orderOf n := by
  have hneed : n + 8 ≤ needOf n ∧ needOf n ≤ 2 ^ 63 := by
    unfold needOf hdrSize
    omega
  have hle := shiftUp_le hneed.2 52 12 (by decide)
  have hge := le_shiftUp (needOf n) 52 12
  have henough : needOf n ≤ 2 ^ shiftUp (needOf n) 52 12 :=
    shiftUp_enough 52 12 (hneed.2.trans (by decide))
  have hpow : 4096 * 2 ^ orderOf n = 2 ^ shiftUp (needOf n) 52 12 := by
    unfold orderOf
    rw [show 4096 = 2 ^ 12 from rfl, ← pow_add]
    congr 1
    omega
  refine ⟨?_, by omega⟩
  unfold orderOf
  omega

/-! ## The allocator below -/

theorem bytesOf_framesOf {m : ℕ → UInt8} {m' : ℕ → Bytes} {x : ℕ}
    (h : m' (x / 4096) = framesOf m (x / 4096)) : bytesOf m' x = m x := by
  unfold bytesOf
  rw [h]
  show m (x / 4096 * 4096 + x % 4096) = m x
  congr 1
  omega

theorem pmmAllocOrder_some (h : s.pmmAllocOrder B k = some (f, s')) :
    2 ^ k ∣ f ∧ (∀ g, f ≤ g → g < f + 2 ^ k → g ∈ B.free s.pool) ∧
      (∀ g, g ∈ B.free s'.pool ↔ g ∈ B.free s.pool ∧ ¬ (f ≤ g ∧ g < f + 2 ^ k)) ∧
      (∀ x, x / 4096 ∉ B.free s.pool → s'.mem x = s.mem x) ∧ s'.freelist = s.freelist := by
  obtain ⟨⟨f', a', m'⟩, hr, e⟩ := Option.map_eq_some_iff.mp h
  cases e
  obtain ⟨hd, hsub, hfree, hmem⟩ := B.allocOrder_some hr
  refine ⟨hd, fun g hlo hhi => hsub (Finset.mem_Ico.mpr ⟨hlo, hhi⟩), fun g => ?_, fun x hx => ?_, rfl⟩
  · rw [hfree, Finset.mem_sdiff, Finset.mem_Ico]
  · exact bytesOf_framesOf (hmem _ hx)

namespace Layout

/-- **A block is taken** from the allocator: it is fresh, and the heap as it
was. -/
theorem alloc (h : Layout B s C L live) (ha : s.pmmAllocOrder B k = some (f, s')) :
    Layout B s' C L live ∧ Fresh B s' C (f * 4096) (f * 4096 + 4096 * 2 ^ k) := by
  obtain ⟨-, hblock, hfree, hmem, hlist⟩ := pmmAllocOrder_some ha
  have hsame : ∀ c ∈ C, ∀ x, c.1 ≤ x → x < c.1 + size c.2 → s'.mem x = s.mem x :=
    fun c hc x hx hx' => hmem x (h.owned c hc x hx hx').1
  refine ⟨h.congr (fun c hc x hx hx' => ?_) (fun b q hq x hx hx' => ?_) hlist
    (fun g hg => ((hfree g).mp hg).1), fun x hlo hhi => ?_⟩
  · have := size_pos c.2
    exact hsame c hc x hx (by omega)
  · obtain ⟨-, h8, hqc⟩ := h.chunk b q hq
    have := size_pos b
    exact hsame _ hqc x (show q - 8 ≤ x by omega) (show x < q - 8 + size b by omega)
  have hin : f ≤ x / 4096 ∧ x / 4096 < f + 2 ^ k := by
    constructor
    · omega
    · omega
  have hwas := hblock _ hin.1 hin.2
  refine ⟨fun hg => ((hfree _).mp hg).2 hin, B.free_subset _ hwas, fun c hc hx => ?_⟩
  exact (h.owned c hc x hx.1 hx.2).1 hwas

/-- **A chunk is carved.** -/
theorem carve (h : Layout B s C L live) {a : ℕ} (hb : b < 9) (hfresh : Fresh B s C a (a + 2 ^ (b + 4))) :
    Layout B (s.carve b a) (insert (a, b) C) (update L b ((a + 8) :: L b)) live := by
  have hsize : size b = 2 ^ (b + 4) := if_pos (by omega)
  have hpos := size_pos b
  have hout := (hfresh a le_rfl (by omega)).2.2
  rw [← hsize] at hfresh
  -- the chunk was on no list and not live, for it was no chunk
  have hnoC : ∀ t, (a, t) ∉ C := by
    intro t ht
    have := size_pos t
    exact hout _ ht ⟨le_rfl, show a < a + size t by omega⟩
  refine (h.addChunk hfresh (Or.inl hb)).push hb (show 8 ≤ a + 8 by omega) ?_ (fun hin => ?_)
    (fun hin => ?_)
  · rw [show a + hdrSize - 8 = a from Nat.add_sub_cancel a 8]
    exact Set.mem_insert _ _
  · have := (h.chunk b _ hin).2.2
    rw [show a + hdrSize - 8 = a from Nat.add_sub_cancel a 8] at this
    exact hnoC b this
  · obtain ⟨v, hv, hva⟩ := List.mem_map.mp hin
    have := (h.alive v hv).2.1
    rw [hva, show a + hdrSize - 8 = a from Nat.add_sub_cancel a 8] at this
    exact hnoC _ this

/-- **A page is carved** into chunks of one bin. -/
theorem refill (h : Layout B s C L live) {base : ℕ} (hb : b < 9)
    (hfresh : Fresh B s C base (base + 4096)) :
    ∃ C' L', Layout B (s.refill b base) C' L' live ∧ L' b ≠ [] ∧ (s.refill b base).pool = s.pool := by
  have hpage : pageSize / 2 ^ (b + 4) * 2 ^ (b + 4) = 4096 ∧ 0 < pageSize / 2 ^ (b + 4) := by
    have : ∀ b, b < 9 → pageSize / 2 ^ (b + 4) * 2 ^ (b + 4) = 4096 ∧ 0 < pageSize / 2 ^ (b + 4) := by
      decide
    exact this b hb
  have hsize : size b = 2 ^ (b + 4) := if_pos (by omega)
  have hcarve : ∀ {s : Heap A} {C L a}, Layout B s C L live → Fresh B s C a (a + 2 ^ (b + 4)) →
      Layout B (s.carve b a) (insert (a, b) C) (update L b ((a + 8) :: L b)) live :=
    fun h hf => h.carve hb hf
  unfold Heap.refill
  generalize 2 ^ (b + 4) = Z at hpage hsize hcarve ⊢
  -- after `j` chunks the rest of the page is still fresh
  have hloop : ∀ j, j ≤ pageSize / Z →
      ∃ C' L', Layout B ((List.range j).foldl (fun s i => s.carve b (base + i * Z)) s) C' L' live ∧
        (0 < j → L' b ≠ []) ∧
        ((List.range j).foldl (fun s i => s.carve b (base + i * Z)) s).pool = s.pool ∧
        Fresh B s C' (base + j * Z) (base + 4096) := by
    intro j
    induction j with
    | zero =>
      intro _
      refine ⟨C, L, h, by omega, rfl, ?_⟩
      rwa [Nat.zero_mul, Nat.add_zero]
    | succ j ih =>
      intro hj
      obtain ⟨C', L', hl, -, hpool, hf⟩ := ih (by omega)
      rw [List.range_succ, List.foldl_append, List.foldl_cons, List.foldl_nil]
      generalize (List.range j).foldl (fun s i => s.carve b (base + i * Z)) s = s₁ at hl hpool
      have hmul : (j + 1) * Z = j * Z + Z := Nat.succ_mul _ _
      have hend : (j + 1) * Z ≤ 4096 := by
        rw [← hpage.1]
        exact Nat.mul_le_mul_right _ hj
      have hf₁ : Fresh B s₁ C' (base + j * Z) (base + j * Z + Z) := by
        intro x hlo hhi
        rw [hpool]
        exact hf x hlo (by omega)
      refine ⟨_, _, hcarve hl hf₁, fun _ => by rw [update_self]; simp, hpool, ?_⟩
      intro x hlo hhi
      obtain ⟨hfree, hman, hout⟩ := hf x (by omega) hhi
      refine ⟨hfree, hman, fun c hc hx => ?_⟩
      rcases Set.mem_insert_iff.mp hc with rfl | hc
      · have hx' : x < base + j * Z + size b := hx.2
        omega
      · exact hout c hc hx
  obtain ⟨C', L', hl, hne, hpool, -⟩ := hloop _ le_rfl
  exact ⟨C', L', hl, hne hpage.2, hpool⟩

end Layout

/-! ## `kmalloc` -/

/-- The buddy allocator has returned `0`. -/
def Refused (B : Buddy A) : Panic × Heap A → Prop
  | (.outOfMemory n, s) =>
    B.allocOrder s.pool (framesOf s.mem) (if 4096 < n + hdrSize then orderOf n else 0) = none
  | (.badMagic _, _) => False

theorem tagOf_spec (hn : n + 8 < 2 ^ 63) :
    n + 8 ≤ size (tagOf n) ∧ (tagOf n < 9 ∨ ∃ o, o < 52 ∧ tagOf n = 128 + o) := by
  unfold tagOf
  generalize hm : (if n = 0 then 1 else n) = m
  have hmn : n ≤ m ∧ m + 8 < 2 ^ 63 := by
    split at hm <;> omega
  by_cases hlarge : 4096 < m + 8
  · simp only [if_pos (show 4096 < m + hdrSize from hlarge)]
    obtain ⟨ho, hfit⟩ := orderOf_spec hmn.2
    have hsize : size (128 + orderOf m) = 4096 * 2 ^ orderOf m := by
      unfold size
      rw [if_neg (by omega), Nat.add_sub_cancel_left]
    exact ⟨by omega, Or.inr ⟨_, ho, rfl⟩⟩
  · simp only [if_neg (show ¬ 4096 < m + hdrSize from hlarge)]
    obtain ⟨hb, hfit⟩ := binOf_spec (show m + hdrSize ≤ 4096 by unfold hdrSize; omega)
    have hsize : size (binOf (m + hdrSize)) = 2 ^ (binOf (m + hdrSize) + 4) := if_pos (by omega)
    refine ⟨?_, Or.inl hb⟩
    rw [hsize]
    exact le_trans (show n + 8 ≤ m + hdrSize by unfold hdrSize; omega) hfit

/-- **`kmalloc`** gives a chunk of its own, or panics because the buddy
allocator returned `0`. -/
theorem kmalloc_spec (h : Layout B s C L live) (hn : n + 8 < 2 ^ 63) :
    (∃ e, kmalloc B s n = .error e ∧ Refused B e) ∨
      ∃ p s' C' L', kmalloc B s n = .ok (p, s') ∧ Layout B s' C' L' ((p, n) :: live) := by
  obtain ⟨hfit, -⟩ := tagOf_spec hn
  have htag : tagOf n = (let n := if n = 0 then 1 else n
    if 4096 < n + hdrSize then 128 + orderOf n else binOf (n + hdrSize)) := rfl
  unfold kmalloc
  generalize hm : (if n = 0 then 1 else n) = m at htag
  have hm63 : m + 8 < 2 ^ 63 := by
    split at hm <;> omega
  have hmod : (m + hdrSize) % 2 ^ 64 = m + 8 := Nat.mod_eq_of_lt (show m + 8 < 2 ^ 64 by omega)
  simp only [hmod]
  by_cases hlarge : 4096 < m + 8
  · -- a block of its own
    rw [if_pos (show 4096 < m + hdrSize from hlarge)] at htag
    rw [if_pos hlarge]
    cases halloc : s.pmmAllocOrder B (orderOf m) with
    | none =>
      refine Or.inl ⟨_, rfl, ?_⟩
      show B.allocOrder s.pool (framesOf s.mem) (if 4096 < m + hdrSize then orderOf m else 0) = none
      rw [if_pos (show 4096 < m + hdrSize from hlarge)]
      exact Option.map_eq_none_iff.mp halloc
    | some r =>
      obtain ⟨f, s₁⟩ := r
      obtain ⟨ho, -⟩ := orderOf_spec hm63
      obtain ⟨h₁, hfresh⟩ := h.alloc halloc
      have hdvd := (pmmAllocOrder_some halloc).1
      have hor : 0x80 ||| orderOf m = tagOf n := by
        have : ∀ o, o < 52 → 0x80 ||| o = 128 + o := by decide
        rw [htag, this _ ho]
      have hsize : size (tagOf n) = 4096 * 2 ^ orderOf m := by
        rw [htag]
        unfold size
        rw [if_neg (by omega), Nat.add_sub_cancel_left]
      have hnoC : ∀ t, (f * 4096, t) ∉ C := by
        intro t ht
        have hpos := size_pos t
        exact (hfresh (f * 4096) le_rfl (by omega)).2.2 _ ht
          ⟨le_rfl, show f * 4096 < f * 4096 + size t by omega⟩
      rw [← hsize] at hfresh
      have h₂ := h₁.addChunk hfresh (Or.inr ⟨orderOf m, ho, htag,
        by rw [Nat.mul_comm]; exact Nat.mul_dvd_mul_right hdvd 4096⟩)
      refine Or.inr ⟨_, _, insert (f * 4096, tagOf n) C, L, rfl, ?_⟩
      simp only [hor]
      refine (h₂.setUsed _).addLive (Set.mem_insert _ _) (fun hin => ?_) (fun hin => ?_) hfit
      · have := (h.chunk _ _ hin).1
        omega
      · obtain ⟨v, hv, hva⟩ := List.mem_map.mp hin
        have := (h.alive v hv).2.1
        rw [hva, Nat.add_sub_cancel] at this
        exact hnoC _ this
  -- a chunk of a bin
  rw [if_neg (show ¬ 4096 < m + hdrSize from hlarge)] at htag
  rw [if_neg hlarge]
  have htag' : tagOf n = binOf (m + 8) := htag
  obtain ⟨hb, -⟩ := binOf_spec (show m + 8 ≤ 4096 by omega)
  rw [htag'] at hfit
  rcases h.head (binOf (m + 8)) with ⟨hz, -⟩ | ⟨l, hl, hnz, -⟩
  · rw [if_neg (by rw [hz]; simp)]
    cases halloc : s.pmmAllocOrder B 0 with
    | none =>
      refine Or.inl ⟨_, rfl, ?_⟩
      show B.allocOrder s.pool (framesOf s.mem) (if 4096 < m + hdrSize then orderOf m else 0) = none
      rw [if_neg (show ¬ 4096 < m + hdrSize from hlarge)]
      exact Option.map_eq_none_iff.mp halloc
    | some r =>
      obtain ⟨f, s₁⟩ := r
      obtain ⟨h₁, hfresh⟩ := h.alloc halloc
      obtain ⟨C', L', h₂, hne, -⟩ := h₁.refill hb (by simpa using hfresh)
      rcases h₂.head (binOf (m + 8)) with ⟨-, hnil⟩ | ⟨l, hl, -, -⟩
      · exact absurd hnil hne
      · exact Or.inr ⟨_, _, C', _, rfl, h₂.pop hl htag' hfit⟩
  · rw [if_pos hnz]
    exact Or.inr ⟨_, _, C, _, rfl, h.pop hl htag' hfit⟩

/-! ## `kfree` and the owners of the chunks -/

/-- The allocations that are left when `p` is freed. -/
def without (live : List (ℕ × ℕ)) (p : ℕ) : List (ℕ × ℕ) := live.filter fun a => a.1 ≠ p

theorem not_mem_without : p ∉ (without live p).map Prod.fst := by
  intro hin
  obtain ⟨a, ha, hap⟩ := List.mem_map.mp hin
  have := (List.mem_filter.mp ha).2
  simp [hap] at this

/-- **`kfree`** of a chunk of a bin puts it back on that list. -/
theorem kfree_small (h : Layout B s C L live) (ha : (p, n) ∈ live) (hb : tagOf n < 9) :
    ∃ s', kfree B s p = .ok s' ∧ s'.freelist = update s.freelist (tagOf n) p ∧
      s'.pool = s.pool ∧ s'.mem = (s.push (tagOf n) p).mem ∧
      Layout B s' C (update L (tagOf n) (p :: L (tagOf n))) (without live p) := by
  obtain ⟨h8, hc, hnot, -⟩ := h.alive _ ha
  obtain ⟨htag, hmagic⟩ := h.header _ hc
  have htag : load32 s.mem (p - 8) = tagOf n := htag
  have hmagic : load32 s.mem (p - 8 + 4) = heapMagic := hmagic
  have hand : tagOf n &&& 0x80 = 0 := by
    have : ∀ b, b < 9 → b &&& 0x80 = 0 := by decide
    exact this _ hb
  refine ⟨{ s.push (tagOf n) p with
    heapUsed := (s.push (tagOf n) p).heapUsed - BitVec.ofNat 64 (2 ^ (tagOf n + 4)) },
    ?_, rfl, rfl, rfl, ?_⟩
  · have hp : p ≠ 0 := Nat.pos_iff_ne_zero.mp (show 0 < p from lt_of_lt_of_le (by decide) h8)
    unfold kfree
    rw [if_neg hp]
    simp only [hdrSize, htag, hmagic]
    rw [if_neg (by simp), if_neg (by simp [hand])]
  · exact ((h.sublist List.filter_sublist).push hb h8 hc hnot not_mem_without).setUsed _

/-- **`kfree`** of a block gives it back in the order it came in. -/
theorem kfree_large (h : Layout B s C L live) (ha : (p, n) ∈ live) {o : ℕ} (ho : o < 52)
    (ht : tagOf n = 128 + o) :
    ∃ s', kfree B s p = .ok s' ∧ s'.freelist = s.freelist ∧
      s'.pool = (B.release s.pool (framesOf s.mem) ((p - 8) / 4096) o).1 ∧
      ∃ C', Layout B s' C' L (without live p) := by
  obtain ⟨h8, hc, -, -⟩ := h.alive _ ha
  obtain ⟨htag, hmagic⟩ := h.header _ hc
  have htag : load32 s.mem (p - 8) = tagOf n := htag
  have hmagic : load32 s.mem (p - 8 + 4) = heapMagic := hmagic
  have hc : (p - 8, tagOf n) ∈ C := hc
  have hand : tagOf n &&& 0x80 ≠ 0 ∧ tagOf n &&& 0x7f = o := by
    have : ∀ o, o < 52 → (128 + o) &&& 0x80 ≠ 0 ∧ (128 + o) &&& 0x7f = o := by decide
    rw [ht]
    exact this o ho
  have hdvd : 4096 * 2 ^ o ∣ p - 8 := by
    rcases h.tags _ hc with hlt | ⟨o', -, ho', hd⟩
    · have : tagOf n < 9 := hlt
      omega
    · obtain rfl : o = o' := by omega
      exact hd
  have hsize : size (tagOf n) = 4096 * 2 ^ o := by
    rw [ht]
    unfold size
    rw [if_neg (by omega), Nat.add_sub_cancel_left]
  -- the frames of the block
  generalize hf : (p - 8) / 4096 = f
  have hpf : p - 8 = f * 4096 := by
    obtain ⟨q, hq⟩ := hdvd
    rw [Nat.mul_assoc] at hq
    omega
  have hdf : 2 ^ o ∣ f := by
    rw [hpf, Nat.mul_comm] at hdvd
    exact Nat.dvd_of_mul_dvd_mul_right (show 0 < 4096 by decide) hdvd
  have hbytes : ∀ g, f ≤ g → g < f + 2 ^ o →
      (p - 8, tagOf n).1 ≤ g * 4096 ∧ g * 4096 < (p - 8, tagOf n).1 + size (p - 8, tagOf n).2 := by
    intro g hlo hhi
    have hmul : (f + 2 ^ o) * 4096 = f * 4096 + 4096 * 2 ^ o := by
      rw [Nat.add_mul, Nat.mul_comm (2 ^ o)]
    rw [hsize, hpf]
    omega
  have hblock : ∀ g, g ∈ Finset.Ico f (f + 2 ^ o) → g ∉ B.free s.pool ∧ g ∈ B.managed := by
    intro g hg
    obtain ⟨hlo, hhi⟩ := Finset.mem_Ico.mp hg
    obtain ⟨hb₁, hb₂⟩ := hbytes g hlo hhi
    have := h.owned _ hc (g * 4096) hb₁ hb₂
    rwa [Nat.mul_div_cancel _ (by decide)] at this
  obtain ⟨hfree, hmem⟩ := B.release_spec (a := s.pool) (m := framesOf s.mem) hdf
    (fun g hg => (hblock g hg).2) (Finset.disjoint_left.mpr fun g hg => (hblock g hg).1)
  have hL : ∀ b, ∀ q ∈ L b, (q - 8, b) ≠ (p - 8, tagOf n) := by
    intro b q hq e
    have := (h.chunk b q hq).1
    have := (Prod.mk.inj e).2
    omega
  have hlive : ∀ a ∈ without live p, (a.1 - 8, tagOf a.2) ≠ (p - 8, tagOf n) := by
    intro a ha' e
    obtain ⟨hal, hap⟩ := List.mem_filter.mp ha'
    have h8' := (h.alive a hal).1
    have := (Prod.mk.inj e).1
    have hne : a.1 ≠ p := by simpa using hap
    omega
  have hsub : Layout B s C L (without live p) := h.sublist List.filter_sublist
  have hdrop := hsub.dropChunk hL hlive
  -- the other chunks lie in other frames
  have hother : ∀ c ∈ C \ {(p - 8, tagOf n)}, ∀ x, c.1 ≤ x → x < c.1 + size c.2 →
      x / 4096 ∉ B.free s.pool ∪ Finset.Ico f (f + 2 ^ o) := by
    intro c hcC x hx hx' hin
    rcases Finset.mem_union.mp hin with hin | hin
    · exact (h.owned c hcC.1 x hx hx').1 hin
    obtain ⟨hlo, hhi⟩ := Finset.mem_Ico.mp hin
    have hmul : (f + 2 ^ o) * 4096 = f * 4096 + 4096 * 2 ^ o := by
      rw [Nat.add_mul, Nat.mul_comm (2 ^ o)]
    have hxlo : (p - 8, tagOf n).1 ≤ x := by
      show p - 8 ≤ x
      omega
    have hxhi : x < (p - 8, tagOf n).1 + size (p - 8, tagOf n).2 := by
      show x < p - 8 + size (tagOf n)
      rw [hsize, hpf]
      omega
    exact hcC.2 (h.eq_of_overlap hcC.1 hc hx hx' hxlo hxhi)
  refine ⟨({ s with heapUsed := s.heapUsed - BitVec.ofNat 64 (pageSize * 2 ^ o) } :
    Heap A).pmmFreeOrder B f o, ?_, rfl, rfl, C \ {(p - 8, tagOf n)}, ?_⟩
  · unfold kfree
    rw [if_neg (by omega)]
    simp only [hdrSize, htag, hmagic, hand.2, hf]
    rw [if_neg (by simp), if_pos hand.1]
  refine hdrop.congr_owned (fun c hcC x hx hx' => ?_) (fun b q hq x hx hx' => ?_) rfl
    (fun c hcC x hx hx' => ?_)
  · have := size_pos c.2
    exact bytesOf_framesOf (hmem _ (hother c hcC x hx (by omega)))
  · obtain ⟨-, hq8, hqc⟩ := hdrop.chunk b q hq
    have := size_pos b
    exact bytesOf_framesOf (hmem _ (hother _ hqc x (show q - 8 ≤ x by omega)
      (show x < q - 8 + size b by omega)))
  · show x / 4096 ∉ B.free (B.release s.pool (framesOf s.mem) f o).1
    rw [hfree]
    exact hother c hcC x hx hx'

/-- **The owner of a chunk writes** its bytes. -/
theorem Layout.write (h : Layout B s C L live) (ha : (p, n) ∈ live) {x : ℕ} (hlo : p ≤ x)
    (hhi : x < p + n) (v : UInt8) :
    Layout B { s with mem := update s.mem x v } C L live := by
  obtain ⟨h8, hc, hnot, hfit⟩ := h.alive _ ha
  have hc : (p - 8, tagOf n) ∈ C := hc
  have hnot : p ∉ L (tagOf n) := hnot
  have hfit : n + 8 ≤ size (tagOf n) := hfit
  have hin : (p - 8, tagOf n).1 ≤ x ∧ x < (p - 8, tagOf n).1 + size (p - 8, tagOf n).2 := by
    show p - 8 ≤ x ∧ x < p - 8 + size (tagOf n)
    omega
  refine h.congr (fun c hcC y hy hy' => ?_) (fun b q hq y hy hy' => ?_) rfl fun _ hg => hg
  · refine update_of_ne ?_ _ _
    rintro rfl
    have := size_pos c.2
    have heq := h.eq_of_overlap hcC hc hy (by omega) hin.1 hin.2
    rw [heq] at hy'
    omega
  refine update_of_ne ?_ _ _
  rintro rfl
  obtain ⟨-, hq8, hqc⟩ := h.chunk b q hq
  have := size_pos b
  have heq := h.eq_of_overlap hqc hc (show q - 8 ≤ y by omega)
    (show y < q - 8 + size b by omega) hin.1 hin.2
  obtain ⟨hqp, hbt⟩ := Prod.mk.inj heq
  have hqp' : q = p := by omega
  rw [hqp', hbt] at hq
  exact hnot hq

end Lnxrm.Kheap
