import Lnxrm.Common.Run
import Lnxrm.Kheap.Helpers.Ops

/-!
# Heap safety

Any sequence of `kmalloc` and `kfree`, with the owners of live allocations
writing their bytes in between, leaves every allocation in a block of its
own with its header intact, and every free list a list of distinct chunks
of its size. The heap panics only when the buddy allocator returns `0`.
-/

namespace Lnxrm.Kheap

open Function

variable {A : Type}

/-- What happens to the heap. -/
inductive Op where
  | malloc (n : ℕ)
  | free (p : ℕ)
  /-- a byte is written by the owner of an allocation -/
  | write (x : ℕ) (v : UInt8)

/-- The heap and the live allocations with the sizes asked for. -/
abbrev State (A : Type) := Heap A × List (ℕ × ℕ)

/-- One step; `kmalloc` answers with the pointer. -/
def step (B : Buddy A) (st : State A) : Op → Except (Panic × Heap A) (ℕ × State A)
  | .malloc n =>
    match kmalloc B st.1 n with
    | .error e => .error e
    | .ok (p, s) => .ok (p, s, (p, n) :: st.2)
  | .free p =>
    match kfree B st.1 p with
    | .error e => .error e
    | .ok s => .ok (0, s, without st.2 p)
  | .write x v => .ok (0, { st.1 with mem := update st.1.mem x v }, st.2)

/-- Sizes that do not wrap are asked for, only live pointers are freed, and
an owner writes its own bytes only. -/
def Legal (st : State A) : Op → Prop
  | .malloc n => n + 8 < 2 ^ 63
  | .free p => p ∈ st.2.map Prod.fst
  | .write x _ => ∃ a ∈ st.2, a.1 ≤ x ∧ x < a.1 + a.2

instance (st : State A) : DecidablePred (Legal st)
  | .malloc _ => inferInstanceAs (Decidable (_ < _))
  | .free _ => inferInstanceAs (Decidable (_ ∈ _))
  | .write _ _ => inferInstanceAs (Decidable (∃ _ ∈ _, _))

/-- The heap before the first call. -/
def initial (pool : A) (mem : ℕ → UInt8) : State A :=
  ({ pool, mem, freelist := fun _ => 0, heapUsed := 0 }, [])

/-- The block of an allocation, header and all. -/
def blockOf (a : ℕ × ℕ) : Set ℕ := Set.Ico (a.1 - 8) (a.1 - 8 + size (tagOf a.2))

/-- The chunk of a pointer on the free list of a bin. -/
def chunkOf (b q : ℕ) : Set ℕ := Set.Ico (q - 8) (q - 8 + 2 ^ (b + 4))

/-- **The heap is safe**; `L` are the free lists. -/
structure Safe (B : Buddy A) (s : Heap A) (live : List (ℕ × ℕ)) (L : ℕ → List ℕ) : Prop where
  /-- the bytes of an allocation lie in its block, behind the header -/
  inside : ∀ a ∈ live, 8 ≤ a.1 ∧ Set.Ico a.1 (a.1 + a.2) ⊆ blockOf a
  /-- no frame of the block is free -/
  owned : ∀ a ∈ live, ∀ x ∈ blockOf a, x / 4096 ∉ B.free s.pool
  disjoint : live.Pairwise fun a a' => Disjoint (blockOf a) (blockOf a')
  /-- the header says where the block came from -/
  header : ∀ a ∈ live, load32 s.mem (a.1 - 8) = tagOf a.2 ∧ load32 s.mem (a.1 - 8 + 4) = heapMagic
  /-- each free list is acyclic -/
  linked : ∀ b, Linked (link s.mem) (s.freelist b) (L b) ∧ (L b).Nodup
  /-- its chunks are of its size, apart from each other and from every
  allocation, with their headers in place -/
  chunks : ∀ b, ∀ q ∈ L b, b < 9 ∧ 8 ≤ q ∧ load32 s.mem (q - 8) = b ∧
    load32 s.mem (q - 8 + 4) = heapMagic ∧
    (∀ b', ∀ q' ∈ L b', q' ≠ q → Disjoint (chunkOf b q) (chunkOf b' q')) ∧
    ∀ a ∈ live, Disjoint (chunkOf b q) (blockOf a)
  /-- `kfree` puts the block back where it came from -/
  freed : ∀ a ∈ live, ∃ s', kfree B s a.1 = .ok s' ∧
    ((tagOf a.2 < 9 ∧ s'.freelist = update s.freelist (tagOf a.2) a.1 ∧
        link s'.mem a.1 = s.freelist (tagOf a.2) ∧ s'.pool = s.pool) ∨
      ∃ o, tagOf a.2 = 128 + o ∧ s'.freelist = s.freelist ∧
        s'.pool = (B.release s.pool (framesOf s.mem) ((a.1 - 8) / 4096) o).1)

variable {B : Buddy A}

theorem Layout.safe {s : Heap A} {C : Set (ℕ × ℕ)} {L : ℕ → List ℕ} {live : List (ℕ × ℕ)}
    (h : Layout B s C L live) : Safe B s live L := by
  have hdisj : ∀ c ∈ C, ∀ c' ∈ C, c ≠ c' →
      Disjoint (Set.Ico c.1 (c.1 + size c.2)) (Set.Ico c'.1 (c'.1 + size c'.2)) := by
    intro c hc c' hc' hne
    refine Set.disjoint_left.mpr fun x hx hx' => hne ?_
    exact h.eq_of_overlap hc hc' hx.1 hx.2 hx'.1 hx'.2
  have hchunk : ∀ b, b < 9 → ∀ q, chunkOf b q = Set.Ico (q - 8) (q - 8 + size b) := by
    intro b hb q
    have hsize : size b = 2 ^ (b + 4) := if_pos (by omega)
    rw [hsize]
    rfl
  refine ⟨fun a ha => ?_, fun a ha x hx => ?_, ?_, fun a ha => ?_, fun b => ⟨h.linked b, h.nodup b⟩,
    fun b q hq => ?_, fun a ha => ?_⟩
  · obtain ⟨h8, -, -, hfit⟩ := h.alive a ha
    refine ⟨h8, fun x hx => ?_⟩
    have hlo : a.1 ≤ x := hx.1
    have hhi : x < a.1 + a.2 := hx.2
    exact ⟨by omega, by omega⟩
  · exact (h.owned _ (h.alive a ha).2.1 x hx.1 hx.2).1
  · refine (List.pairwise_map.mp h.once).imp_of_mem fun {a a'} ha ha' hne => ?_
    obtain ⟨h8, hc, -, -⟩ := h.alive a ha
    obtain ⟨h8', hc', -, -⟩ := h.alive a' ha'
    refine hdisj _ hc _ hc' fun e => hne ?_
    have := (Prod.mk.inj e).1
    omega
  · exact h.header _ (h.alive a ha).2.1
  · obtain ⟨hb, h8, hqc⟩ := h.chunk b q hq
    obtain ⟨htag, hmagic⟩ := h.header _ hqc
    refine ⟨hb, h8, htag, hmagic, fun b' q' hq' hne => ?_, fun a ha => ?_⟩
    · obtain ⟨hb', h8', hqc'⟩ := h.chunk b' q' hq'
      rw [hchunk b hb, hchunk b' hb']
      refine hdisj _ hqc _ hqc' fun e => hne ?_
      have := (Prod.mk.inj e).1
      omega
    obtain ⟨ha8, hac, hnot, -⟩ := h.alive a ha
    rw [hchunk b hb]
    refine hdisj _ hqc _ hac fun e => hnot ?_
    obtain ⟨hqa, hbt⟩ := Prod.mk.inj e
    have hqa' : q = a.1 := by omega
    rw [← hbt, ← hqa']
    exact hq
  rcases h.tags _ (h.alive a ha).2.1 with hb | ⟨o, ho, ht, -⟩
  · obtain ⟨s', hs', hlist, hpool, hmem, hl⟩ := kfree_small h ha hb
    refine ⟨s', hs', Or.inl ⟨hb, hlist, ?_, hpool⟩⟩
    have hhead := hl.linked (tagOf a.2)
    rw [hlist, update_self, update_self] at hhead
    obtain ⟨-, hrest⟩ := hhead
    rcases h.head (tagOf a.2) with ⟨hz, hnil⟩ | ⟨l, hcons, -, -⟩
    · rw [hnil] at hrest
      rw [hz]
      exact hrest
    · rw [hcons] at hrest
      exact hrest.1
  · obtain ⟨s', hs', hlist, hpool, -⟩ := kfree_large h ha ho ht
    exact ⟨s', hs', Or.inr ⟨o, ht, hlist, hpool⟩⟩

/-- **One step** keeps the layout, or panics because the buddy allocator
returned `0`. -/
theorem step_layout {st : State A} (op : Op) (hl : Legal st op)
    (h : ∃ C L, Layout B st.1 C L st.2) :
    (∃ e, step B st op = .error e ∧ Refused B e) ∨
      ∃ p st', step B st op = .ok (p, st') ∧ ∃ C L, Layout B st'.1 C L st'.2 := by
  obtain ⟨C, L, h⟩ := h
  cases op with
  | malloc n =>
    rcases kmalloc_spec h (show n + 8 < 2 ^ 63 from hl) with ⟨e, he, hr⟩ | ⟨p, s', C', L', he, h'⟩
    · exact Or.inl ⟨e, by simp only [step, he], hr⟩
    · exact Or.inr ⟨p, (s', (p, n) :: st.2), by simp only [step, he], C', L', h'⟩
  | free p =>
    obtain ⟨⟨p', n⟩, ha, rfl⟩ := List.mem_map.mp (show p ∈ st.2.map Prod.fst from hl)
    refine Or.inr ?_
    rcases h.tags _ (h.alive _ ha).2.1 with hb | ⟨o, ho, ht, -⟩
    · obtain ⟨s', hs', -, -, -, h'⟩ := kfree_small h ha hb
      exact ⟨0, (s', without st.2 p'), by simp only [step, hs'], _, _, h'⟩
    · obtain ⟨s', hs', -, -, C', h'⟩ := kfree_large h ha ho ht
      exact ⟨0, (s', without st.2 p'), by simp only [step, hs'], _, _, h'⟩
  | write x v =>
    obtain ⟨⟨p, n⟩, ha, hlo, hhi⟩ := hl
    exact Or.inr ⟨0, _, rfl, C, L, h.write ha hlo hhi v⟩

/-- **Heap safety.** -/
theorem heap_safe (B : Buddy A) (pool : A) (mem : ℕ → UInt8) (ops : List Op)
    (hlegal : GuardedTry (step B) Legal (initial pool mem) ops) :
    match runTry (step B) (initial pool mem) ops with
    | .error e => Refused B e
    | .ok (_, s, live) => ∃ L, Safe B s live L := by
  have hinit : ∃ C L, Layout B (initial pool mem).1 C L (initial pool mem).2 := by
    refine ⟨∅, fun _ => [], ?_⟩
    constructor
    all_goals simp [initial, Linked]
  rcases runTry_guarded (fun st op h hl => step_layout op hl h) ops hinit hlegal with
    ⟨e, he, hr⟩ | ⟨ps, ⟨s, live⟩, he, C, L, h⟩
  · rw [he]
    exact hr
  · rw [he]
    exact ⟨L, h.safe⟩

/-- A chunk and a block of two pages are taken, the chunk is written and
freed again. -/
theorem heap_safe_two_sizes :
    let B : Buddy (Finset ℕ) := { BlockPool.first Bytes 16 with
      addr_lt := fun f hf => by have := (Finset.mem_Ico.mp hf).2; omega }
    match runTry (step B) (initial {1, 2, 3, 4, 5} fun _ => 0)
        [.malloc 100, .malloc 5000, .write 8100 7, .free 8072] with
    | .error _ => False
    | .ok (ps, s, live) => ps = [8072, 8200, 0, 0] ∧ live = [(8200, 5000)] ∧ ∃ L, Safe B s live L := by
  intro B
  generalize hops : [Op.malloc 100, .malloc 5000, .write 8100 7, .free 8072] = ops
  have hlegal : GuardedTry (step B) Legal (initial {1, 2, 3, 4, 5} fun _ => 0) ops := by
    rw [← hops]
    decide +kernel
  have hok : (match runTry (step B) (initial {1, 2, 3, 4, 5} fun _ => 0) ops with
      | .error _ => false
      | .ok (ps, _, live) => ps = [8072, 8200, 0, 0] ∧ live = [(8200, 5000)]) = true := by
    rw [← hops]
    decide +kernel
  have h := heap_safe B {1, 2, 3, 4, 5} (fun _ => 0) ops hlegal
  cases hrun : runTry (step B) (initial {1, 2, 3, 4, 5} fun _ => 0) ops with
  | error e => simp [hrun] at hok
  | ok r =>
    simp only [hrun, decide_eq_true_eq] at hok h ⊢
    exact ⟨hok.1, hok.2, h⟩

end Lnxrm.Kheap
