import Lnxrm.Exec.Helpers.Loading

/-!
# The user stack as a list of stores

Proof layer. `pushArgs` stores words and strings one after the other;
`argWrites` is the list of them, and the addresses depend on the lengths of
the strings only. Stores to mapped pages do not fault, and stores that do
not overlap can all be read afterwards (`writeAll_apply`).
-/

namespace Lnxrm.Exec

open Vmm List

variable {A : Type} {B : Buddy A} {s s' : Vm A} {root : ℕ}
variable {argv : List (List UInt8)}

/-! ## Lists of stores -/

/-- Bytes, and where they are stored -/
abbrev Write := ℕ × List UInt8

/-- The stores, in turn -/
def storeAll (root : ℕ) : List Write → Vm A → Except (Stop A) (Vm A)
  | [], s => .ok s
  | w :: ws, s => (storeUser s root w.1 w.2).bind (storeAll root ws)

/-- What they come to -/
def writeAll (ws : List Write) (σ : Space) : Space := ws.foldl (fun σ w => σ.write w.1 w.2) σ

/-- Two stores have no byte in common. -/
def Write.Apart (v w : Write) : Prop := v.1 + v.2.length ≤ w.1 ∨ w.1 + w.2.length ≤ v.1

/-- The address is one of the store's. -/
def Write.Covers (w : Write) (x : ℕ) : Prop := w.1 ≤ x ∧ x < w.1 + w.2.length

theorem storeAll_append (ws ws' : List Write) : ∀ s : Vm A,
    storeAll root (ws ++ ws') s = (storeAll root ws s).bind (storeAll root ws') := by
  induction ws with
  | nil => intro s; rfl
  | cons w ws ih =>
    intro s
    rw [cons_append, storeAll, storeAll]
    cases storeUser s root w.1 w.2 with
    | error e => rfl
    | ok s' => exact ih s'

theorem writeAll_of_not (ws : List Write) {x : ℕ} : ∀ {σ : Space}, (∀ w ∈ ws, ¬ w.Covers x) →
    writeAll ws σ x = σ x := by
  induction ws with
  | nil => intro σ _; rfl
  | cons w ws ih =>
    intro σ h
    show writeAll ws (σ.write w.1 w.2) x = σ x
    rw [ih fun v hv => h v (mem_cons_of_mem _ hv)]
    exact if_neg (h w (mem_cons_self ..))

/-- **Stores that do not overlap** can all be read. -/
theorem writeAll_apply (ws : List Write) {x : ℕ} {y : Bool × UInt8} : ∀ {σ : Space},
    ws.Pairwise Write.Apart → σ x = some y → ∀ w ∈ ws, w.Covers x →
      writeAll ws σ x = some (y.1, w.2.getD (x - w.1) 0) := by
  induction ws with
  | nil => intro σ _ _ w hw; exact absurd hw not_mem_nil
  | cons v ws ih =>
    intro σ hpair hσ w hw hx
    obtain ⟨hv, hpair⟩ := pairwise_cons.mp hpair
    show writeAll ws (σ.write v.1 v.2) x = _
    rcases mem_cons.mp hw with rfl | hw
    · -- no later store touches the byte
      rw [writeAll_of_not ws fun u hu hux => ?_]
      · unfold Space.write
        rw [if_pos (show w.1 ≤ x ∧ x < w.1 + w.2.length from hx), hσ, Option.map_some]
      · have := hv u hu
        unfold Write.Apart at this
        unfold Write.Covers at hx hux
        omega
    refine ih hpair ?_ w hw hx
    have hnot : ¬ (v.1 ≤ x ∧ x < v.1 + v.2.length) := by
      intro hvx
      have := hv w hw
      unfold Write.Apart at this
      unfold Write.Covers at hx
      omega
    unfold Space.write
    rw [if_neg hnot, hσ]

/-- **Only bytes of pages have changed.** -/
structure Overwritten (B : Buddy A) (root : ℕ) (s s' : Vm A) : Prop where
  sound : Sound B root s'
  pool : s'.pool = s.pool
  leaf : ∀ k, leaf s'.mem root k = Vmm.leaf s.mem root k
  tree : Vmm.tree 4 s'.mem root = Vmm.tree 4 s.mem root
  mem : ∀ g, g ∉ Vmm.tree 4 s.mem root → s'.mem g = s.mem g

/-- **Stores to mapped pages do not fault.** -/
theorem storeAll_spec (ws : List Write) : ∀ {s : Vm A}, Sound B root s →
    (∀ w ∈ ws, 0 < w.2.length ∧ ∀ x, w.Covers x →
      (userBase ≤ x ∧ x < userMaxVma) ∧ (space s root x).isSome) →
    ∃ s', storeAll root ws s = .ok s' ∧ Overwritten B root s s' ∧
      ∀ x, InSlot x → space s' root x = writeAll ws (space s root) x := by
  induction ws with
  | nil =>
    intro s h _
    exact ⟨s, rfl, ⟨h, rfl, fun _ => rfl, rfl, fun _ _ => rfl⟩, fun _ _ => rfl⟩
  | cons w ws ih =>
    intro s h hws
    obtain ⟨hpos, hw⟩ := hws w (mem_cons_self ..)
    obtain ⟨⟨hlo, hhi⟩, -⟩ := hw w.1 ⟨le_rfl, by omega⟩
    obtain ⟨s₁, hs₁⟩ := storeUser_ok s root w.1 w.2 fun x hx hx' => by
      have hsome := (hw x ⟨hx, hx'⟩).2
      unfold space at hsome
      rwa [Option.isSome_map] at hsome
    obtain ⟨-, h₁, hpool, hleaf, htree, hmem, -, -, hspace⟩ := h.store hlo hhi hs₁
    have hws₁ : ∀ v ∈ ws, 0 < v.2.length ∧ ∀ x, v.Covers x →
        (userBase ≤ x ∧ x < userMaxVma) ∧ (space s₁ root x).isSome := by
      intro v hv
      obtain ⟨hvpos, hvx⟩ := hws v (mem_cons_of_mem _ hv)
      refine ⟨hvpos, fun x hx => ?_⟩
      obtain ⟨hxu, hsome⟩ := hvx x hx
      refine ⟨hxu, ?_⟩
      rw [hspace x ⟨hxu.1, by have := hxu.2; unfold userMaxVma at this; omega⟩]
      split
      · rwa [Option.isSome_map]
      · exact hsome
    obtain ⟨s', hs', hover, hspace'⟩ := ih h₁ hws₁
    refine ⟨s', ?_, ⟨hover.sound, hover.pool.trans hpool, fun k => by rw [hover.leaf, hleaf],
      hover.tree.trans htree, fun g hg => ?_⟩, fun x hx => ?_⟩
    · rw [storeAll, hs₁]
      exact hs'
    · rw [hover.mem g (by rw [htree]; exact hg), hmem g hg]
    rw [hspace' x hx]
    have hcongr : ∀ (vs : List Write) {σ σ' : Space}, σ x = σ' x →
        writeAll vs σ x = writeAll vs σ' x := by
      intro vs
      induction vs with
      | nil => intro σ σ' he; exact he
      | cons v vs ih => intro σ σ' he; exact ih (Space.write_congr he)
    exact hcongr ws (hspace x hx)

/-! ## The layout of the stack -/

/-- The eight bytes of a number -/
def wordBytes (v : ℕ) : List UInt8 := (List.range 8).map (wordByte (BitVec.ofNat 64 v))

theorem wordBytes_length (v : ℕ) : (wordBytes v).length = 8 := by
  unfold wordBytes
  rw [length_map, length_range]

/-- `sp` after the strings have been pushed -/
def stringsSp : List (List UInt8) → ℕ
  | [] => userStackTop - 64
  | str :: strs => stringsSp strs - (str.length + 1)

/-- `argv_ptrs` -/
def argPtrs : List (List UInt8) → List ℕ
  | [] => []
  | str :: strs => stringsSp (str :: strs) :: argPtrs strs

/-- `ap` -/
def auxSp (argv : List (List UInt8)) : ℕ := stringsSp argv / 16 * 16 - 24

/-- The stack pointer of the program -/
def entrySp (argv : List (List UInt8)) : ℕ := auxSp argv - (argv.length + 2) * 8

def stringWrites : List (List UInt8) → List Write
  | [] => []
  | str :: strs => stringWrites strs ++ [(stringsSp (str :: strs), str ++ [0])]

def vectorWrites : ℕ → List ℕ → List Write
  | _, [] => []
  | a, v :: vs => (a, wordBytes v) :: vectorWrites (a + 8) vs

/-- All that is stored -/
def argWrites (argv : List (List UInt8)) : List Write :=
  (userStackTop - 64, wordBytes 0) :: (stringWrites argv ++
    ((auxSp argv, wordBytes 0) :: (auxSp argv + 8, wordBytes 0) ::
      (entrySp argv, wordBytes argv.length) :: (vectorWrites (entrySp argv + 8) (argPtrs argv) ++
        [(entrySp argv + 8 + 8 * argv.length, wordBytes 0)])))

theorem storeVector_eq (vs : List ℕ) : ∀ (a : ℕ) (s : Vm A),
    storeVector root a vs s = storeAll root (vectorWrites a vs) s := by
  induction vs with
  | nil => intro a s; rfl
  | cons v vs ih =>
    intro a s
    rw [storeVector, vectorWrites, storeAll]
    show Except.bind (storeUser s root a (wordBytes v)) _ = _
    cases storeUser s root a (wordBytes v) with
    | error e => rfl
    | ok s' => exact ih (a + 8) s'

theorem pushStrings_eq (strs : List (List UInt8)) : ∀ s : Vm A, pushStrings root strs s =
      (storeAll root (stringWrites strs) s).map fun s' => (stringsSp strs, argPtrs strs, s') := by
  induction strs with
  | nil => intro s; rfl
  | cons str strs ih =>
    intro s
    rw [pushStrings, ih, stringWrites, storeAll_append]
    cases storeAll root (stringWrites strs) s with
    | error e => rfl
    | ok s₁ =>
      show Except.bind (storeUser s₁ root (stringsSp strs - (str.length + 1)) (str ++ [0])) _ =
        Except.map _ (Except.bind (storeUser s₁ root (stringsSp strs - (str.length + 1)) (str ++ [0])) _)
      cases storeUser s₁ root (stringsSp strs - (str.length + 1)) (str ++ [0]) with
      | error e => rfl
      | ok s₂ => rfl

theorem storeWord_eq (s : Vm A) (root a v : ℕ) :
    storeWord s root a v = storeUser s root a (wordBytes v) := rfl

/-- **`pushArgs` is a list of stores.** -/
theorem pushArgs_eq (argv : List (List UInt8)) (s : Vm A) :
    pushArgs root argv s = (storeAll root (argWrites argv) s).map (entrySp argv, ·) := by
  unfold pushArgs argWrites
  simp only [bind, Except.bind, pushStrings_eq, storeVector_eq, storeWord_eq, storeAll]
  cases storeUser s root (userStackTop - 64) (wordBytes 0) with
  | error e => rfl
  | ok s₁ =>
    dsimp only
    rw [storeAll_append]
    cases storeAll root (stringWrites argv) s₁ with
    | error e => rfl
    | ok s₂ =>
      show Except.bind (storeUser s₂ root (auxSp argv) (wordBytes 0)) _ =
        Except.map _ (Except.bind (storeUser s₂ root (auxSp argv) (wordBytes 0)) _)
      cases storeUser s₂ root (auxSp argv) (wordBytes 0) with
      | error e => rfl
      | ok s₃ =>
        show Except.bind (storeUser s₃ root (auxSp argv + 8) (wordBytes 0)) _ =
          Except.map _ (Except.bind (storeUser s₃ root (auxSp argv + 8) (wordBytes 0)) _)
        cases storeUser s₃ root (auxSp argv + 8) (wordBytes 0) with
        | error e => rfl
        | ok s₄ =>
          show Except.bind (storeUser s₄ root (entrySp argv) (wordBytes argv.length)) _ =
            Except.map _ (Except.bind (storeUser s₄ root (entrySp argv) (wordBytes argv.length)) _)
          cases storeUser s₄ root (entrySp argv) (wordBytes argv.length) with
          | error e => rfl
          | ok s₅ =>
            show Except.bind (storeAll root (vectorWrites (entrySp argv + 8) (argPtrs argv)) s₅) _ =
              Except.map _ (storeAll root (_ ++ _) s₅)
            rw [storeAll_append]
            cases storeAll root (vectorWrites (entrySp argv + 8) (argPtrs argv)) s₅ with
            | error e => rfl
            | ok s₆ =>
              show Except.bind (storeUser s₆ root (entrySp argv + 8 + 8 * argv.length) (wordBytes 0))
                  _ = Except.map _ (Except.bind
                    (storeUser s₆ root (entrySp argv + 8 + 8 * argv.length) (wordBytes 0)) _)
              cases storeUser s₆ root (entrySp argv + 8 + 8 * argv.length) (wordBytes 0) with
              | error e => rfl
              | ok s₇ => rfl

/-! ## Where the stores go -/

/-- Arguments as `sys_execve` takes them: sixteen strings of 63 bytes at
most. -/
def Fitting (argv : List (List UInt8)) : Prop :=
  argv.length ≤ 16 ∧ ∀ str ∈ argv, str.length ≤ 63

theorem Fitting.tail {str : List UInt8} {strs : List (List UInt8)} (h : Fitting (str :: strs)) :
    Fitting strs :=
  ⟨by have := h.1; rw [length_cons] at this; omega,
    fun q hq => h.2 q (mem_cons_of_mem _ hq)⟩

theorem stringsSp_bounds (argv : List (List UInt8)) : Fitting argv →
    userStackTop ≤ stringsSp argv + 64 + 64 * argv.length ∧ stringsSp argv + 64 ≤ userStackTop := by
  induction argv with
  | nil => intro _; decide
  | cons str strs ih =>
    intro h
    obtain ⟨hlo, hhi⟩ := ih h.tail
    have hlen := h.2 str (mem_cons_self ..)
    have hn := h.1
    rw [length_cons] at hn ⊢
    rw [stringsSp]
    omega

theorem stringsSp_cons {str : List UInt8} {strs : List (List UInt8)} (h : Fitting (str :: strs)) :
    stringsSp (str :: strs) + (str.length + 1) = stringsSp strs := by
  obtain ⟨hlo, -⟩ := stringsSp_bounds strs h.tail
  have hlen := h.2 str (mem_cons_self ..)
  have hn := h.tail.1
  have htop : userStackTop = 0x7fffffbff000 := rfl
  rw [stringsSp]
  omega

/-- **The words below the strings.** -/
theorem layout (h : Fitting argv) :
    auxSp argv + 24 ≤ stringsSp argv ∧ stringsSp argv < auxSp argv + 40 ∧
      entrySp argv + 16 + 8 * argv.length = auxSp argv ∧ userStackTop ≤ entrySp argv + 0x1000 := by
  obtain ⟨hlo, hhi⟩ := stringsSp_bounds argv h
  have hn := h.1
  have htop : userStackTop = 0x7fffffbff000 := rfl
  unfold entrySp auxSp
  omega

/-- **The stack pointer is a multiple of 16** for an odd number of arguments
only. -/
theorem entrySp_mod (h : Fitting argv) : entrySp argv % 16 = 0 ↔ argv.length % 2 = 1 := by
  obtain ⟨hlo, hhi⟩ := stringsSp_bounds argv h
  have hn := h.1
  have htop : userStackTop = 0x7fffffbff000 := rfl
  unfold entrySp auxSp
  omega

theorem stringWrites_in (argv : List (List UInt8)) : Fitting argv → ∀ w ∈ stringWrites argv,
    stringsSp argv ≤ w.1 ∧ w.1 + w.2.length + 64 ≤ userStackTop ∧ 0 < w.2.length := by
  induction argv with
  | nil => intro _ w hw; exact absurd hw not_mem_nil
  | cons str strs ih =>
    intro h w hw
    have hcons := stringsSp_cons h
    rcases mem_append.mp hw with hw | hw
    · obtain ⟨hlo, hhi⟩ := ih h.tail w hw
      exact ⟨by omega, hhi⟩
    · rw [mem_singleton.mp hw]
      have := (stringsSp_bounds strs h.tail).2
      rw [length_append, length_singleton]
      exact ⟨le_rfl, by omega, by omega⟩

theorem stringWrites_apart (argv : List (List UInt8)) : Fitting argv →
    (stringWrites argv).Pairwise Write.Apart := by
  induction argv with
  | nil => intro _; exact List.Pairwise.nil
  | cons str strs ih =>
    intro h
    refine pairwise_append.mpr ⟨ih h.tail, pairwise_singleton _ _, fun v hv w hw => ?_⟩
    have hlo := (stringWrites_in strs h.tail v hv).1
    have hcons := stringsSp_cons h
    rw [mem_singleton.mp hw]
    unfold Write.Apart
    rw [length_append, length_singleton]
    omega

theorem vectorWrites_in (vs : List ℕ) : ∀ {a : ℕ}, ∀ w ∈ vectorWrites a vs,
    a ≤ w.1 ∧ w.1 + 8 ≤ a + 8 * vs.length ∧ w.2.length = 8 := by
  induction vs with
  | nil => intro a w hw; exact absurd hw not_mem_nil
  | cons v vs ih =>
    intro a w hw
    rw [length_cons]
    rcases mem_cons.mp hw with rfl | hw
    · exact ⟨le_rfl, by omega, wordBytes_length v⟩
    · obtain ⟨hlo, hhi, hlen⟩ := ih w hw
      exact ⟨by omega, by omega, hlen⟩

theorem vectorWrites_apart (vs : List ℕ) : ∀ {a : ℕ}, (vectorWrites a vs).Pairwise Write.Apart := by
  induction vs with
  | nil => intro a; exact List.Pairwise.nil
  | cons v vs ih =>
    intro a
    refine pairwise_cons.mpr ⟨fun w hw => ?_, ih⟩
    have hlo := (vectorWrites_in vs w hw).1
    unfold Write.Apart
    rw [wordBytes_length]
    omega

theorem argPtrs_length (argv : List (List UInt8)) : (argPtrs argv).length = argv.length := by
  induction argv with
  | nil => rfl
  | cons str strs ih => rw [argPtrs, length_cons, length_cons, ih]

theorem mem_stringWrites (argv : List (List UInt8)) : ∀ i, i < argv.length →
    ((argPtrs argv).getD i 0, argv.getD i [] ++ [0]) ∈ stringWrites argv := by
  induction argv with
  | nil => intro i hi; exact absurd hi (Nat.not_lt_zero i)
  | cons str strs ih =>
    intro i hi
    cases i with
    | zero => exact mem_append_right _ (mem_singleton_self _)
    | succ i => exact mem_append_left _ (ih i (Nat.lt_of_succ_lt_succ hi))

theorem mem_vectorWrites (vs : List ℕ) : ∀ {a : ℕ} (i : ℕ), i < vs.length →
    (a + 8 * i, wordBytes (vs.getD i 0)) ∈ vectorWrites a vs := by
  induction vs with
  | nil => intro a i hi; exact absurd hi (Nat.not_lt_zero i)
  | cons v vs ih =>
    intro a i hi
    cases i with
    | zero => exact mem_cons_self ..
    | succ i =>
      refine mem_cons_of_mem _ ?_
      have hin := ih (a := a + 8) i (Nat.lt_of_succ_lt_succ hi)
      rwa [show a + 8 + 8 * i = a + 8 * (i + 1) by omega] at hin

/-- **All stores are in the last page of the stack.** -/
theorem argWrites_in (h : Fitting argv) : ∀ w ∈ argWrites argv,
    userStackTop ≤ w.1 + 0x1000 ∧ w.1 + w.2.length ≤ userStackTop ∧ 0 < w.2.length := by
  obtain ⟨haux, -, hentry, htop⟩ := layout h
  have hstr := (stringsSp_bounds argv h).2
  intro w hw
  unfold argWrites at hw
  simp only [mem_cons, mem_append, not_mem_nil, or_false] at hw
  rcases hw with rfl | hw | rfl | rfl | rfl | hw | rfl
  · rw [wordBytes_length]
    omega
  · obtain ⟨hlo, hhi, hpos⟩ := stringWrites_in argv h w hw
    omega
  · rw [wordBytes_length]
    omega
  · rw [wordBytes_length]
    omega
  · rw [wordBytes_length]
    omega
  · obtain ⟨hlo, hhi, hlen⟩ := vectorWrites_in _ w hw
    rw [argPtrs_length] at hhi
    omega
  · rw [wordBytes_length]
    omega

theorem lowWrites_apart (h : Fitting argv) :
    ((auxSp argv, wordBytes 0) :: (auxSp argv + 8, wordBytes 0) ::
      (entrySp argv, wordBytes argv.length) :: (vectorWrites (entrySp argv + 8) (argPtrs argv) ++
        [(entrySp argv + 8 + 8 * argv.length, wordBytes 0)])).Pairwise Write.Apart := by
  obtain ⟨-, -, hentry, -⟩ := layout h
  have hvector : ∀ w ∈ vectorWrites (entrySp argv + 8) (argPtrs argv),
      entrySp argv + 8 ≤ w.1 ∧ w.1 + 8 ≤ entrySp argv + 8 + 8 * argv.length ∧ w.2.length = 8 := by
    intro w hw
    have := vectorWrites_in _ w hw
    rwa [argPtrs_length] at this
  have hlow : ∀ w ∈ vectorWrites (entrySp argv + 8) (argPtrs argv) ++
      [((entrySp argv + 8 + 8 * argv.length, wordBytes 0) : Write)],
      entrySp argv + 8 ≤ w.1 ∧ w.1 + w.2.length ≤ auxSp argv := by
    intro w hw
    rcases mem_append.mp hw with hw | hw
    · obtain ⟨hlo, hhi, hlen⟩ := hvector w hw
      omega
    · rw [mem_singleton.mp hw, wordBytes_length]
      omega
  refine pairwise_cons.mpr ⟨fun w hw => ?_, pairwise_cons.mpr ⟨fun w hw => ?_,
    pairwise_cons.mpr ⟨fun w hw => ?_, pairwise_append.mpr
      ⟨vectorWrites_apart _, pairwise_singleton _ _, fun v hv w hw => ?_⟩⟩⟩⟩
  · unfold Write.Apart
    rw [wordBytes_length]
    rcases mem_cons.mp hw with rfl | hw
    · exact Or.inl le_rfl
    rcases mem_cons.mp hw with rfl | hw
    · rw [wordBytes_length]
      omega
    · have := hlow w hw
      omega
  · unfold Write.Apart
    rw [wordBytes_length]
    rcases mem_cons.mp hw with rfl | hw
    · rw [wordBytes_length]
      omega
    · have := hlow w hw
      omega
  · have := hlow w hw
    unfold Write.Apart
    rw [wordBytes_length]
    omega
  · obtain ⟨-, hhi, hlen⟩ := hvector v hv
    rw [mem_singleton.mp hw]
    unfold Write.Apart
    omega

/-- **No two stores overlap.** -/
theorem argWrites_apart (h : Fitting argv) : (argWrites argv).Pairwise Write.Apart := by
  obtain ⟨haux, -, hentry, -⟩ := layout h
  have hstr := (stringsSp_bounds argv h).2
  have hlow : ∀ w ∈ ((auxSp argv, wordBytes 0) :: (auxSp argv + 8, wordBytes 0) ::
      (entrySp argv, wordBytes argv.length) :: (vectorWrites (entrySp argv + 8) (argPtrs argv) ++
        [(entrySp argv + 8 + 8 * argv.length, wordBytes 0)]) : List Write),
      w.1 + w.2.length ≤ stringsSp argv := by
    intro w hw
    simp only [mem_cons, mem_append, not_mem_nil, or_false] at hw
    rcases hw with rfl | rfl | rfl | hw | rfl
    · rw [wordBytes_length]
      omega
    · rw [wordBytes_length]
      omega
    · rw [wordBytes_length]
      omega
    · obtain ⟨-, hhi, hlen⟩ := vectorWrites_in _ w hw
      rw [argPtrs_length] at hhi
      omega
    · rw [wordBytes_length]
      omega
  refine pairwise_cons.mpr ⟨fun w hw => Or.inr ?_, pairwise_append.mpr
    ⟨stringWrites_apart argv h, lowWrites_apart h, fun v hv w hw => Or.inr ?_⟩⟩
  · rcases mem_append.mp hw with hw | hw
    · have := (stringWrites_in argv h w hw).2.1
      omega
    · have := hlow w hw
      omega
  · exact (hlow w hw).trans (stringWrites_in argv h v hv).1

end Lnxrm.Exec
