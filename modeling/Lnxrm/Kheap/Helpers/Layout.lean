import Lnxrm.Kheap.Model
import Mathlib.Order.CompletePartialOrder

/-!
# The layout of the heap

Proof layer. The heap is a set of chunks that do not overlap, each with its
header in front; a chunk of a bin is on the free list of that bin or live,
and a large chunk is live. `Layout` says so of a state, and the lemmas here
say how it is kept: memory may change where no header and no link lies, a
fresh chunk may be added, and a chunk may change between its list and the
live ones.
-/

namespace Lnxrm.Kheap

open Function

/-- The bytes of a chunk, header and all, from what its header says. -/
def size (tag : ℕ) : ℕ := if tag < 128 then 2 ^ (tag + 4) else 4096 * 2 ^ (tag - 128)

/-- What the header of an allocation of `n` bytes says. -/
def tagOf (n : ℕ) : ℕ :=
  let n := if n = 0 then 1 else n
  if 4096 < n + hdrSize then 128 + orderOf n else binOf (n + hdrSize)

variable {A : Type} {B : Buddy A} {s s' : Heap A} {C : Set (ℕ × ℕ)} {L : ℕ → List ℕ}
  {live : List (ℕ × ℕ)} {b p n f k : ℕ}

theorem size_pos (tag : ℕ) : 16 ≤ size tag := by
  unfold size
  split
  · calc 16 = 2 ^ 4 := rfl
      _ ≤ 2 ^ (tag + 4) := Nat.pow_le_pow_right (by decide) (by omega)
  · have := Nat.two_pow_pos (tag - 128)
    omega

/-- **The layout**: the chunks `C`, the free lists `L` and the live
allocations with their sizes. -/
structure Layout (B : Buddy A) (s : Heap A) (C : Set (ℕ × ℕ)) (L : ℕ → List ℕ)
    (live : List (ℕ × ℕ)) : Prop where
  apart : ∀ c ∈ C, ∀ c' ∈ C, c ≠ c' → c.1 + size c.2 ≤ c'.1 ∨ c'.1 + size c'.2 ≤ c.1
  /-- no byte of a chunk belongs to a free frame -/
  owned : ∀ c ∈ C, ∀ x, c.1 ≤ x → x < c.1 + size c.2 →
    x / 4096 ∉ B.free s.pool ∧ x / 4096 ∈ B.managed
  tags : ∀ c ∈ C, c.2 < 9 ∨ ∃ o, o < 52 ∧ c.2 = 128 + o ∧ 4096 * 2 ^ o ∣ c.1
  header : ∀ c ∈ C, load32 s.mem c.1 = c.2 ∧ load32 s.mem (c.1 + 4) = heapMagic
  linked : ∀ b, Linked (link s.mem) (s.freelist b) (L b)
  nodup : ∀ b, (L b).Nodup
  chunk : ∀ b, ∀ q ∈ L b, b < 9 ∧ 8 ≤ q ∧ (q - 8, b) ∈ C
  alive : ∀ a ∈ live, 8 ≤ a.1 ∧ (a.1 - 8, tagOf a.2) ∈ C ∧ a.1 ∉ L (tagOf a.2) ∧
    a.2 + 8 ≤ size (tagOf a.2)
  once : (live.map Prod.fst).Nodup

namespace Layout

theorem eq_of_overlap (h : Layout B s C L live) {c c' : ℕ × ℕ} (hc : c ∈ C) (hc' : c' ∈ C) {x : ℕ}
    (hx : c.1 ≤ x) (hx' : x < c.1 + size c.2) (hy : c'.1 ≤ x) (hy' : x < c'.1 + size c'.2) :
    c = c' := by
  by_contra hne
  rcases h.apart c hc c' hc' hne with hle | hle
  · omega
  · omega

theorem tag_unique (h : Layout B s C L live) {a t t' : ℕ} (hc : (a, t) ∈ C) (hc' : (a, t') ∈ C) :
    t = t' := by
  have ht := size_pos t
  have ht' := size_pos t'
  have := h.eq_of_overlap hc hc' (x := a) le_rfl (by show a < a + size t; omega) le_rfl
    (by show a < a + size t'; omega)
  exact (Prod.mk.inj this).2

/-- **Frame.** Memory may change where no header and no link of a free list
lies, and frames may be freed that no chunk lies in. -/
theorem congr_owned (h : Layout B s C L live)
    (hheader : ∀ c ∈ C, ∀ x, c.1 ≤ x → x < c.1 + 8 → s'.mem x = s.mem x)
    (hlink : ∀ b, ∀ q ∈ L b, ∀ x, q ≤ x → x < q + 8 → s'.mem x = s.mem x)
    (hlist : s'.freelist = s.freelist)
    (howned : ∀ c ∈ C, ∀ x, c.1 ≤ x → x < c.1 + size c.2 → x / 4096 ∉ B.free s'.pool) :
    Layout B s' C L live where
  apart := h.apart
  owned c hc x hx hx' := ⟨howned c hc x hx hx', (h.owned c hc x hx hx').2⟩
  tags := h.tags
  header c hc := by
    have hsame : load32 s'.mem c.1 = load32 s.mem c.1 :=
      load32_congr fun x hx hx' => hheader c hc x hx (by omega)
    have hsame' : load32 s'.mem (c.1 + 4) = load32 s.mem (c.1 + 4) :=
      load32_congr fun x hx hx' => hheader c hc x (by omega) (by omega)
    rw [hsame, hsame']
    exact h.header c hc
  linked b := by
    rw [hlist]
    refine (h.linked b).congr fun q hq => ?_
    unfold link
    rw [load64_congr fun x hx hx' => hlink b q hq x hx hx']
  nodup := h.nodup
  chunk := h.chunk
  alive := h.alive
  once := h.once

theorem congr (h : Layout B s C L live)
    (hheader : ∀ c ∈ C, ∀ x, c.1 ≤ x → x < c.1 + 8 → s'.mem x = s.mem x)
    (hlink : ∀ b, ∀ q ∈ L b, ∀ x, q ≤ x → x < q + 8 → s'.mem x = s.mem x)
    (hlist : s'.freelist = s.freelist)
    (hpool : ∀ g, g ∈ B.free s'.pool → g ∈ B.free s.pool) : Layout B s' C L live :=
  h.congr_owned hheader hlink hlist fun c hc x hx hx' hin => (h.owned c hc x hx hx').1 (hpool _ hin)

theorem setUsed (h : Layout B s C L live) (u : BitVec 64) :
    Layout B { s with heapUsed := u } C L live :=
  h.congr (fun _ _ _ _ _ => rfl) (fun _ _ _ _ _ _ => rfl) rfl fun _ hg => hg

/-- **The head of a free list** is its chunk, or there is none. -/
theorem head (h : Layout B s C L live) (b : ℕ) : (s.freelist b = 0 ∧ L b = []) ∨
      ∃ l, L b = s.freelist b :: l ∧ s.freelist b ≠ 0 ∧ Linked (link s.mem) (link s.mem (s.freelist b)) l := by
  have hl := h.linked b
  cases hL : L b with
  | nil =>
    rw [hL] at hl
    exact Or.inl ⟨hl, rfl⟩
  | cons q l =>
    rw [hL] at hl
    obtain ⟨hq, hrest⟩ := hl
    have hpos := (h.chunk b q (by rw [hL]; simp)).2.1
    refine Or.inr ⟨l, by rw [hq], by omega, ?_⟩
    rw [hq]
    exact hrest

/-- **A chunk is taken from its list.** -/
theorem pop (h : Layout B s C L live) {l : List ℕ} (hL : L b = s.freelist b :: l)
    (hn : tagOf n = b) (hfit : n + 8 ≤ size b) :
    Layout B (s.pop b).2 C (update L b l) ((s.freelist b, n) :: live) := by
  have hmem : s.freelist b ∈ L b := by
    rw [hL]
    simp
  obtain ⟨hb, hpos, hc⟩ := h.chunk b _ hmem
  have hnd := h.nodup b
  rw [hL, List.nodup_cons] at hnd
  have hsub : ∀ b', ∀ q ∈ update L b l b', q ∈ L b' := by
    intro b' q hq
    by_cases hbb : b' = b
    · subst hbb
      rw [update_self] at hq
      rw [hL]
      exact List.mem_cons_of_mem _ hq
    · rwa [update_of_ne hbb] at hq
  refine ⟨h.apart, h.owned, h.tags, h.header, fun b' => ?_, fun b' => ?_, fun b' q hq => ?_,
    fun a ha => ?_, ?_⟩
  · show Linked (link s.mem) (update s.freelist b (link s.mem (s.freelist b)) b')
      (update L b l b')
    by_cases hbb : b' = b
    · subst hbb
      rw [update_self, update_self]
      have hl := h.linked b'
      rw [hL] at hl
      exact hl.2
    · rw [update_of_ne hbb, update_of_ne hbb]
      exact h.linked b'
  · by_cases hbb : b' = b
    · subst hbb
      rw [update_self]
      exact hnd.2
    · rw [update_of_ne hbb]
      exact h.nodup b'
  · exact h.chunk b' q (hsub b' q hq)
  · rcases List.mem_cons.mp ha with rfl | ha
    · refine ⟨hpos, ?_, ?_, ?_⟩
      · rw [hn]
        exact hc
      · rw [hn, update_self]
        exact hnd.1
      · rw [hn]
        exact hfit
    · obtain ⟨h8, hc', hnot, hle⟩ := h.alive a ha
      exact ⟨h8, hc', fun hin => hnot (hsub _ _ hin), hle⟩
  rw [List.map_cons, List.nodup_cons]
  refine ⟨fun hin => ?_, h.once⟩
  -- a live chunk is not on a free list
  obtain ⟨a, ha, hae⟩ := List.mem_map.mp hin
  obtain ⟨-, hc', hnot, -⟩ := h.alive a ha
  rw [hae] at hc' hnot
  rw [h.tag_unique hc' hc] at hnot
  exact hnot hmem

theorem addr_lt (h : Layout B s C L live) {c : ℕ × ℕ} (hc : c ∈ C) {x : ℕ} (hx : c.1 ≤ x)
    (hx' : x < c.1 + size c.2) : x < 2 ^ 64 := by
  have := B.addr_lt _ (h.owned c hc x hx hx').2
  omega

/-- **A chunk is put on its list.** -/
theorem push (h : Layout B s C L live) (hb : b < 9) (hp : 8 ≤ p) (hc : (p - 8, b) ∈ C)
    (hL : p ∉ L b) (hlive : p ∉ live.map Prod.fst) :
    Layout B (s.push b p) C (update L b (p :: L b)) live := by
  have hsize := size_pos b
  have hin : ∀ x, p ≤ x → x < p + 8 → (p - 8, b).1 ≤ x ∧ x < (p - 8, b).1 + size (p - 8, b).2 := by
    intro x hx hx'
    show p - 8 ≤ x ∧ x < p - 8 + size b
    omega
  have hmem : ∀ x, x < p ∨ p + 8 ≤ x → (s.push b p).mem x = s.mem x := fun x hx => store64_of_out hx
  -- the link that is stored overlaps no header and no other link
  have hheader : ∀ c ∈ C, ∀ x, c.1 ≤ x → x < c.1 + 8 → (s.push b p).mem x = s.mem x := by
    intro c hcC x hx hx'
    refine hmem x ?_
    by_contra hno
    have hsc := size_pos c.2
    obtain ⟨hlo, hhi⟩ := hin x (by omega) (by omega)
    have heq := h.eq_of_overlap hcC hc hx (by omega) hlo hhi
    rw [heq] at hx'
    omega
  have hlink : ∀ b', ∀ q ∈ L b', ∀ x, q ≤ x → x < q + 8 → (s.push b p).mem x = s.mem x := by
    intro b' q hq x hx hx'
    refine hmem x ?_
    by_contra hno
    obtain ⟨-, h8, hqc⟩ := h.chunk b' q hq
    have hsb := size_pos b'
    obtain ⟨hlo, hhi⟩ := hin x (by omega) (by omega)
    have heq := h.eq_of_overlap hqc hc (show q - 8 ≤ x by omega)
      (show x < q - 8 + size b' by omega) hlo hhi
    obtain ⟨hqp, hbb⟩ := Prod.mk.inj heq
    have hqp' : q = p := by omega
    rw [hbb, hqp'] at hq
    exact hL hq
  have hhead : s.freelist b < 2 ^ 64 := by
    rcases h.head b with ⟨h0, -⟩ | ⟨l, hl, -, -⟩
    · rw [h0]
      decide
    · obtain ⟨-, h8, hqc⟩ := h.chunk b (s.freelist b) (by rw [hl]; simp)
      exact h.addr_lt hqc (show s.freelist b - 8 ≤ s.freelist b by omega)
        (show s.freelist b < s.freelist b - 8 + size b by omega)
  have hsame : Layout B { s with mem := (s.push b p).mem } C L live :=
    h.congr hheader hlink rfl fun _ hg => hg
  refine ⟨hsame.apart, hsame.owned, hsame.tags, hsame.header, fun b' => ?_, fun b' => ?_,
    fun b' q hq => ?_, fun a ha => ?_, hsame.once⟩
  · show Linked (link (s.push b p).mem) (update s.freelist b p b') _
    by_cases hbb : b' = b
    · subst hbb
      rw [update_self, update_self]
      refine ⟨rfl, ?_⟩
      have hread : link (s.push b' p).mem p = s.freelist b' := by
        show (load64 (store64 s.mem p (BitVec.ofNat 64 (s.freelist b'))) p).toNat = _
        rw [load64_store64, BitVec.toNat_ofNat, Nat.mod_eq_of_lt hhead]
      rw [hread]
      exact hsame.linked b'
    · rw [update_of_ne hbb, update_of_ne hbb]
      exact hsame.linked b'
  · by_cases hbb : b' = b
    · subst hbb
      rw [update_self, List.nodup_cons]
      exact ⟨hL, h.nodup b'⟩
    · rw [update_of_ne hbb]
      exact h.nodup b'
  · by_cases hbb : b' = b
    · subst hbb
      rw [update_self] at hq
      rcases List.mem_cons.mp hq with rfl | hq
      · exact ⟨hb, hp, hc⟩
      · exact h.chunk b' q hq
    · rw [update_of_ne hbb] at hq
      exact h.chunk b' q hq
  obtain ⟨h8, hac, hnot, hle⟩ := h.alive a ha
  refine ⟨h8, hac, fun hin => ?_, hle⟩
  by_cases hbb : tagOf a.2 = b
  · rw [hbb, update_self] at hin
    rcases List.mem_cons.mp hin with hap | hin
    · exact hlive (hap ▸ List.mem_map_of_mem ha)
    · rw [hbb] at hnot
      exact hnot hin
  · rw [update_of_ne hbb] at hin
    exact hnot hin

theorem sublist (h : Layout B s C L live) {live' : List (ℕ × ℕ)} (hsub : live'.Sublist live) :
    Layout B s C L live' :=
  { h with
    alive := fun a ha => h.alive a (hsub.subset ha)
    once := h.once.sublist (hsub.map _) }

/-- **A chunk that is on no list becomes live.** -/
theorem addLive (h : Layout B s C L live) {a : ℕ} (hc : (a, tagOf n) ∈ C) (hL : a + 8 ∉ L (tagOf n))
    (hlive : a + 8 ∉ live.map Prod.fst) (hfit : n + 8 ≤ size (tagOf n)) :
    Layout B s C L ((a + 8, n) :: live) :=
  { h with
    alive := by
      intro v hv
      rcases List.mem_cons.mp hv with rfl | hv
      · exact ⟨by omega, by rw [Nat.add_sub_cancel]; exact hc, hL, hfit⟩
      · exact h.alive v hv
    once := by
      rw [List.map_cons, List.nodup_cons]
      exact ⟨hlive, h.once⟩ }

/-- **A chunk is given up** that is on no list and not live. -/
theorem dropChunk (h : Layout B s C L live) {c : ℕ × ℕ} (hL : ∀ b, ∀ q ∈ L b, (q - 8, b) ≠ c)
    (hlive : ∀ a ∈ live, (a.1 - 8, tagOf a.2) ≠ c) : Layout B s (C \ {c}) L live :=
  { h with
    apart := fun d hd d' hd' hne => h.apart d hd.1 d' hd'.1 hne
    owned := fun d hd => h.owned d hd.1
    tags := fun d hd => h.tags d hd.1
    header := fun d hd => h.header d hd.1
    chunk := by
      intro b q hq
      obtain ⟨hb, h8, hqc⟩ := h.chunk b q hq
      exact ⟨hb, h8, hqc, hL b q hq⟩
    alive := by
      intro a ha
      obtain ⟨h8, hac, hnot, hle⟩ := h.alive a ha
      exact ⟨h8, ⟨hac, hlive a ha⟩, hnot, hle⟩ }

/-- The bytes from `lo` to `hi` are taken from the pool and in no chunk. -/
def Fresh (B : Buddy A) (s : Heap A) (C : Set (ℕ × ℕ)) (lo hi : ℕ) : Prop :=
  ∀ x, lo ≤ x → x < hi → x / 4096 ∉ B.free s.pool ∧ x / 4096 ∈ B.managed ∧
    ∀ c ∈ C, ¬ (c.1 ≤ x ∧ x < c.1 + size c.2)

/-- **A fresh chunk** gets its header. -/
theorem addChunk (h : Layout B s C L live) {a t : ℕ} (hfresh : Fresh B s C a (a + size t))
    (ht : t < 9 ∨ ∃ o, o < 52 ∧ t = 128 + o ∧ 4096 * 2 ^ o ∣ a) :
    Layout B { s with mem := setHeader s.mem a t } (insert (a, t) C) L live := by
  have hsize := size_pos t
  have htlt : t < 2 ^ 32 := by
    rcases ht with ht | ⟨o, ho, rfl, -⟩
    · omega
    · omega
  have hmem : ∀ x, x < a ∨ a + 8 ≤ x → setHeader s.mem a t x = s.mem x := by
    intro x hx
    unfold setHeader
    rw [store32_of_out (by omega), store32_of_out (by omega)]
  have hnew : ∀ c ∈ C, a + size t ≤ c.1 ∨ c.1 + size c.2 ≤ a := by
    intro c hc
    have hsc := size_pos c.2
    rcases Nat.lt_or_ge a c.1 with hlt | hge
    · refine Or.inl ?_
      by_contra hno
      exact (hfresh c.1 (by omega) (by omega)).2.2 c hc ⟨le_rfl, by omega⟩
    · refine Or.inr ?_
      by_contra hno
      exact (hfresh a le_rfl (by omega)).2.2 c hc ⟨hge, by omega⟩
  have hsame : Layout B { s with mem := setHeader s.mem a t } C L live := by
    refine h.congr (fun c hc x hx hx' => hmem x ?_) (fun b q hq x hx hx' => hmem x ?_) rfl
      fun _ hg => hg
    · have hsc := size_pos c.2
      rcases hnew c hc with hle | hle
      · omega
      · omega
    obtain ⟨-, h8, hqc⟩ := h.chunk b q hq
    have hsb := size_pos b
    rcases hnew _ hqc with hle | hle
    · omega
    · have : q - 8 + size b ≤ a := hle
      omega
  refine ⟨fun c hc c' hc' hne => ?_, fun c hc x hx hx' => ?_, fun c hc => ?_, fun c hc => ?_,
    hsame.linked, hsame.nodup, fun b q hq => ?_, fun v hv => ?_, hsame.once⟩
  · rcases Set.mem_insert_iff.mp hc with rfl | hc
    · rcases Set.mem_insert_iff.mp hc' with rfl | hc'
      · exact absurd rfl hne
      · exact hnew c' hc'
    · rcases Set.mem_insert_iff.mp hc' with rfl | hc'
      · exact (hnew c hc).symm
      · exact h.apart c hc c' hc' hne
  · rcases Set.mem_insert_iff.mp hc with rfl | hc
    · obtain ⟨hf, hm, -⟩ := hfresh x hx hx'
      exact ⟨hf, hm⟩
    · exact h.owned c hc x hx hx'
  · rcases Set.mem_insert_iff.mp hc with rfl | hc
    · exact ht
    · exact h.tags c hc
  · rcases Set.mem_insert_iff.mp hc with rfl | hc
    · show load32 (setHeader s.mem a t) a = t ∧ load32 (setHeader s.mem a t) (a + 4) = heapMagic
      unfold setHeader
      refine ⟨?_, load32_store32 _ _ (by decide)⟩
      rw [load32_congr fun x _ hx' => store32_of_out (by omega), load32_store32 _ _ htlt]
    · exact hsame.header c hc
  · obtain ⟨hb, h8, hqc⟩ := h.chunk b q hq
    exact ⟨hb, h8, Set.mem_insert_of_mem _ hqc⟩
  · obtain ⟨h8, hvc, hnot, hle⟩ := h.alive v hv
    exact ⟨h8, Set.mem_insert_of_mem _ hvc, hnot, hle⟩

end Layout

end Lnxrm.Kheap
