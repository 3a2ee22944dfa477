import Lnxrm.Block.Transaction

/-!
# The block layer — transactions that are aborted

`fat32_journal.c` promises atomic updates. `fat32_journal_abort` empties
the journal, but an update is also in the cache, where later reads find
it, and a commit that fails has already written its first images to the
device. `AllOrNothing` is the promise, for a transaction cut short after
any number of updates and a failure at any device write; the code keeps
it exactly for transactions that change nothing
(`allOrNothing_iff_unchanged`).
-/

namespace Lnxrm

open List

namespace Block

variable {δ α : Type} [DecidableEq δ]

seal blkCacheFlush

/-- The updates of a list as the driver makes them: the sector is read
through the cache, changed, journaled and written. -/
def driverOps (us : List (ℕ × α)) : List (TxnOp α) :=
  us.flatMap fun u => [.read u.1 u.2, .update u.1 u.2]

/-- How the driver ends a transaction. -/
inductive Ending where
  | commit
  | abort

/-- The end of a transaction: whether it was aborted, and the state. -/
def Ending.run (s : Storage δ α) : Ending → Bool × Storage δ α
  | .commit => (decide ((fat32JournalCommit s).1 ≠ 0), (fat32JournalCommit s).2)
  | .abort => (true, (fat32JournalAbort s).2)

/-- The storage under another schedule of failing writes. -/
def Storage.withFaults (s : Storage δ α) (g : ℕ → Option DevErr) : Storage δ α :=
  { s with blk := { s.blk with disks := { s.blk.disks with writeFault := g } } }

/-- The schedule in which the `k`-th write fails and no other. -/
def failAt (k : ℕ) (err : DevErr) : ℕ → Option DevErr := fun n => if n = k then some err else none

/-- **All or nothing.** If one device write fails, whichever it is, and
the transaction is aborted, after all of its updates or after some, then
every sector updated so far still has its old contents, on the device
and as a later read returns it. -/
def AllOrNothing (s : Storage δ α) (us : List (ℕ × α)) : Prop :=
  ∀ (n k : ℕ) (err : DevErr) (e : Ending),
    let r := e.run ((driverOps (us.take n)).foldl (TxnOp.exec s.journal.dev)
      (fat32JournalBegin (s.withFaults (failAt k err))).2)
    r.1 = true → ∀ u ∈ us.take n,
      r.2.blk.disks.sector s.journal.dev u.1 = s.blk.disks.sector s.journal.dev u.1 ∧
      ∀ b, (blkCacheRead r.2.blk s.journal.dev u.1 (some b)).1 = 0 →
        (blkCacheRead r.2.blk s.journal.dev u.1 (some b)).2.1 =
          some (s.blk.disks.sector s.journal.dev u.1)

/-! ## A transaction that changes nothing -/

/-- The storage still stands as it did in `s₀`, as far as the sectors `K`
are concerned: the view is the same, `K` is the same on the device, and
the journal holds old contents of `K` only. -/
structure Kept (dev : δ) (s₀ : Storage δ α) (K : ℕ → Prop) (s : Storage δ α) : Prop where
  inv : CacheInv s.blk
  reads : s.blk.disks.ReadsOk
  dev_eq : s.journal.dev = dev
  view : ∀ lba, s.blk.view dev lba = s₀.blk.view dev lba
  sector : ∀ lba, K lba → s.blk.disks.sector dev lba = s₀.blk.disks.sector dev lba
  entries : ∀ e ∈ s.journal.entries, e.valid = true ∧ K e.lba ∧
    e.data = s₀.blk.disks.sector dev e.lba

variable {dev : δ} {s₀ s : Storage δ α} {K : ℕ → Prop}

theorem Kept.settles (hco : ∀ lba, K lba → s₀.blk.view dev lba = s₀.blk.disks.sector dev lba)
    (h : Kept dev s₀ K s) {b : Blk δ α} (hset : Settles s.blk b) :
    Kept dev s₀ K { s with blk := b } where
  inv := hset.inv
  reads := hset.reads h.reads
  dev_eq := h.dev_eq
  view lba := (hset.view dev lba).trans (h.view lba)
  sector lba hK := by
    rcases hset.sector dev lba with h₁ | h₁
    · exact h₁.trans (h.sector lba hK)
    · rw [← hco lba hK, ← h.view lba]
      exact h₁
  entries := h.entries

theorem Kept.puts (hco : ∀ lba, K lba → s₀.blk.view dev lba = s₀.blk.disks.sector dev lba)
    (h : Kept dev s₀ K s) {lba : ℕ} (hK : K lba) {b : Blk δ α}
    (hput : Puts s.blk dev lba (s₀.blk.disks.sector dev lba) b) :
    Kept dev s₀ K { s with blk := b } where
  inv := hput.inv
  reads := hput.reads h.reads
  dev_eq := h.dev_eq
  view l := by
    rw [hput.view]
    unfold setSector
    split
    · rename_i hl
      rw [hl.2, hco lba hK]
    · exact h.view l
  sector l hl := by
    rcases hput.sector dev l with h₁ | h₁
    · exact h₁.trans (h.sector l hl)
    · rw [← hco l hl, ← h.view l]
      exact h₁
  entries := h.entries

theorem Kept.journalAdd (h : Kept dev s₀ K s) {lba : ℕ} (hK : K lba) :
    Kept dev s₀ K (fat32JournalAdd s lba (s₀.blk.disks.sector dev lba)).2 := by
  unfold fat32JournalAdd
  split
  · exact h
  split
  · exact h
  · refine ⟨h.inv, h.reads, h.dev_eq, h.view, h.sector, fun e he => ?_⟩
    rcases mem_append.mp he with he | he
    · exact h.entries e he
    · obtain rfl := mem_singleton.mp he
      exact ⟨rfl, hK, rfl⟩

/-- **One operation** that writes back what was there. -/
theorem Kept.exec (hco : ∀ lba, K lba → s₀.blk.view dev lba = s₀.blk.disks.sector dev lba)
    (h : Kept dev s₀ K s) (op : TxnOp α)
    (hop : ∀ u ∈ updatesOf [op], K u.1 ∧ u.2 = s₀.blk.disks.sector dev u.1) :
    Kept dev s₀ K (op.exec dev s) := by
  cases op with
  | read lba buf => exact h.settles hco (blkCacheRead_spec h.inv h.reads dev lba buf).1
  | update lba x =>
    obtain ⟨hK, hx⟩ := hop (lba, x) (by simp [updatesOf])
    dsimp only at hK hx
    subst hx
    have hj := h.journalAdd hK
    obtain ⟨hput, hfail, -⟩ := blkCacheWrite_spec hj.inv dev lba (s₀.blk.disks.sector dev lba)
    by_cases hret : (blkCacheWrite
        (fat32JournalAdd s lba (s₀.blk.disks.sector dev lba)).2.blk dev lba
        (some (s₀.blk.disks.sector dev lba))).1 = 0
    · exact hj.puts hco hK (hput hret)
    · exact hj.settles hco (hfail hret)

/-- **Any number of them.** -/
theorem Kept.foldl_exec (hco : ∀ lba, K lba → s₀.blk.view dev lba = s₀.blk.disks.sector dev lba)
    (ops : List (TxnOp α)) : ∀ {s : Storage δ α}, Kept dev s₀ K s →
      (∀ u ∈ updatesOf ops, K u.1 ∧ u.2 = s₀.blk.disks.sector dev u.1) →
      Kept dev s₀ K (ops.foldl (TxnOp.exec dev) s) := by
  induction ops with
  | nil => intro s h _; exact h
  | cons op ops ih =>
    intro s h hops
    have hsplit : updatesOf (op :: ops) = updatesOf [op] ++ updatesOf ops := by cases op <;> rfl
    rw [hsplit] at hops
    exact ih (h.exec hco op fun u hu => hops u (mem_append_left _ hu))
      fun u hu => hops u (mem_append_right _ hu)

theorem Kept.ending (h : Kept dev s₀ K s) (e : Ending) (hab : (e.run s).1 = true) :
    CacheInv (e.run s).2.blk ∧ (e.run s).2.blk.disks.ReadsOk ∧
    (∀ lba, (e.run s).2.blk.view dev lba = s₀.blk.view dev lba) ∧
    ∀ lba, K lba → (e.run s).2.blk.disks.sector dev lba = s₀.blk.disks.sector dev lba := by
  cases e with
  | abort => exact ⟨h.inv, h.reads, h.view, h.sector⟩
  | commit =>
    simp only [Ending.run, decide_eq_true_eq] at hab ⊢
    by_cases hact : s.journal.active = true
    · obtain ⟨⟨n, hsec, -⟩, hoth, hrd, -⟩ := commitEntries_spec s.journal.dev s.journal.entries
        s.blk.disks fun e he => (h.entries e he).1
      rw [h.dev_eq] at hsec hoth
      -- the images written are the contents the sectors have
      have hsame : ∀ d lba, (commitEntries s.journal.dev s.journal.entries s.blk.disks).2.sector
          d lba = s.blk.disks.sector d lba := by
        rw [h.dev_eq]
        intro d lba
        by_cases hd : d = dev
        · subst hd
          rw [hsec, applyWrites_eq_self]
          intro w hw
          obtain ⟨e, he, rfl⟩ := mem_map.mp hw
          obtain ⟨-, hK, hdata⟩ := h.entries e (mem_of_mem_take he)
          exact hdata.trans (h.sector e.lba hK).symm
        · rw [hoth d hd]
      have hret : (commitEntries s.journal.dev s.journal.entries s.blk.disks).1 ≠ 0 := by
        intro h0
        exact hab (by simp [fat32JournalCommit, hact, h0])
      have heq : (fat32JournalCommit s).2.blk = { s.blk with
          disks := (commitEntries s.journal.dev s.journal.entries s.blk.disks).2 } := by
        simp [fat32JournalCommit, hact, hret, fat32JournalAbort]
      have hset : Settles s.blk { s.blk with
          disks := { (commitEntries s.journal.dev s.journal.entries s.blk.disks).2 with
            writeFault := s.blk.disks.writeFault } } :=
        settles_of_disks h.inv (fun d lba => Or.inl (hsame d lba)) hrd fun hw => hw
      rw [heq]
      exact ⟨⟨fun hi hj => hset.inv.unique hi hj, fun hi hd => hset.inv.clean hi hd,
        hset.inv.named⟩, hrd h.reads, fun lba => (hset.view dev lba).trans (h.view lba),
        fun lba hK => (hsame dev lba).trans (h.sector lba hK)⟩
    · have heq : (fat32JournalCommit s).2 = s := by simp [fat32JournalCommit, hact]
      rw [heq]
      exact ⟨h.inv, h.reads, h.view, h.sector⟩

/-! ## Placing the failure

The device writes of an operation are counted by running it under
`pad w g`, which lets `w` writes succeed and then goes on as `g`: for
the right `w` the operation ends with exactly `g` to come. -/

/-- The schedule `g` after `w` writes that succeed. -/
def pad (w : ℕ) (g : ℕ → Option DevErr) : ℕ → Option DevErr :=
  fun n => if n < w then none else g (n - w)

theorem pad_zero (g : ℕ → Option DevErr) : pad 0 g = g := rfl

theorem pad_add (v w : ℕ) (g : ℕ → Option DevErr) : pad (v + w) g = pad v (pad w g) := by
  funext n
  unfold pad
  by_cases h₁ : n < v
  · simp [h₁, Nat.lt_add_right w h₁]
  · by_cases h₂ : n - v < w
    · simp [h₁, h₂, show n < v + w by omega]
    · simp [h₁, h₂, show ¬ n < v + w by omega, Nat.sub_add_eq]

theorem pad_failAt (w : ℕ) (err : DevErr) : pad w (failAt 0 err) = failAt w err := by
  funext n
  unfold pad failAt
  by_cases h : n < w
  · simp [h, show n ≠ w by omega]
  · simp [h, show n - w = 0 ↔ n = w by omega]

/-- The block layer under another schedule of failing writes. -/
def Blk.withFaults (s : Blk δ α) (g : ℕ → Option DevErr) : Blk δ α :=
  { s with disks := { s.disks with writeFault := g } }

theorem cacheFind_withFaults (b : Blk δ α) (g : ℕ → Option DevErr) (dev : δ) (lba : ℕ) :
    cacheFind (b.withFaults g) dev lba =
      ((cacheFind b dev lba).1, (cacheFind b dev lba).2.withFaults g) := by
  unfold cacheFind
  simp only [Blk.withFaults]
  cases firstIdx fun i => (b.cache i).hits dev lba <;> rfl

omit [DecidableEq δ] in
theorem cacheFindVictim_withFaults (b : Blk δ α) (g : ℕ → Option DevErr) :
    cacheFindVictim (b.withFaults g) =
      ((cacheFindVictim b).1, (cacheFindVictim b).2.withFaults g) := by
  unfold cacheFindVictim
  simp only [Blk.withFaults]
  cases firstIdx fun i => !(b.cache i).valid with
  | some i => rfl
  | none =>
    cases firstIdx fun i => !(b.cache i).used with
    | some i => rfl
    | none =>
      cases firstIdx (fun _ => !false) <;> rfl

theorem cacheWriteback_paced (b : Blk δ α) (idx : Fin cacheEntries) :
    ∃ w, ∀ g, cacheWriteback (b.withFaults (pad w g)) idx =
      ((cacheWriteback (b.withFaults fun _ => none) idx).1,
        (cacheWriteback (b.withFaults fun _ => none) idx).2.withFaults g) := by
  by_cases hid : (!(b.cache idx).valid || !(b.cache idx).dirty) = true
  · exact ⟨0, fun g => by simp only [cacheWriteback, Blk.withFaults, hid, pad_zero, if_true]⟩
  cases hdev : (b.cache idx).dev with
  | none =>
    exact ⟨0, fun g => by simp only [cacheWriteback, Blk.withFaults, hid, hdev, pad_zero]; rfl⟩
  | some dev =>
    refine ⟨1, fun g => ?_⟩
    have hshift : (fun n => pad 1 g (n + 1)) = g := by
      funext n
      simp [pad]
    have h0 : pad 1 g 0 = none := rfl
    simp only [cacheWriteback, Blk.withFaults, hid, hdev, Disks.write, h0, hshift]
    rfl

theorem cacheEvict_paced (b : Blk δ α) : ∃ w, ∀ g, cacheEvict (b.withFaults (pad w g)) =
      ((cacheEvict (b.withFaults fun _ => none)).1, (cacheEvict (b.withFaults fun _ => none)).2.1,
        (cacheEvict (b.withFaults fun _ => none)).2.2.withFaults g) := by
  obtain ⟨w, hw⟩ := cacheWriteback_paced (cacheFindVictim b).2 (cacheFindVictim b).1
  unfold cacheEvict
  simp only [cacheFindVictim_withFaults]
  generalize cacheFindVictim b = v at hw
  obtain ⟨idx, b₁⟩ := v
  by_cases hd : ((b₁.cache idx).valid && (b₁.cache idx).dirty) = true
  · refine ⟨w, fun g => ?_⟩
    have hd' : ∀ g, (((b₁.withFaults g).cache idx).valid && ((b₁.withFaults g).cache idx).dirty)
        = true := fun _ => hd
    simp only [hd', if_true, hw]
  · refine ⟨0, fun g => ?_⟩
    have hd' : ∀ g, ¬ (((b₁.withFaults g).cache idx).valid &&
        ((b₁.withFaults g).cache idx).dirty) = true := fun _ => hd
    simp only [hd', pad_zero]
    rfl

theorem blkCacheRead_paced (b : Blk δ α) (dev : δ) (lba : ℕ) (x : α) :
    ∃ w, ∀ g, (blkCacheRead (b.withFaults (pad w g)) dev lba (some x)).2.2 =
      (blkCacheRead (b.withFaults fun _ => none) dev lba (some x)).2.2.withFaults g := by
  unfold blkCacheRead
  simp only [cacheFind_withFaults]
  generalize cacheFind b dev lba = f
  obtain ⟨idx | idx, b₁⟩ := f
  · obtain ⟨w, hw⟩ := cacheEvict_paced b₁
    refine ⟨w, fun g => ?_⟩
    dsimp only
    rw [hw]
    generalize cacheEvict (b₁.withFaults fun _ => none) = ev
    obtain ⟨ret, idx, b₂⟩ := ev
    by_cases hret : ret = 0
    · cases hrf : b₂.disks.readFault 0 with
      | none => simp [hret, Disks.read, Blk.withFaults, hrf]
      | some e => simp [hret, Disks.read, Blk.withFaults, hrf, e.1.2]
    · simp [hret]
  · exact ⟨0, fun g => rfl⟩

theorem blkCacheWrite_paced (b : Blk δ α) (dev : δ) (lba : ℕ) (x : α) :
    ∃ w, ∀ g, (blkCacheWrite (b.withFaults (pad w g)) dev lba (some x)).2 =
      (blkCacheWrite (b.withFaults fun _ => none) dev lba (some x)).2.withFaults g := by
  unfold blkCacheWrite
  simp only [cacheFind_withFaults]
  generalize cacheFind b dev lba = f
  obtain ⟨idx | idx, b₁⟩ := f
  · obtain ⟨w, hw⟩ := cacheEvict_paced b₁
    refine ⟨w, fun g => ?_⟩
    dsimp only
    rw [hw]
    generalize cacheEvict (b₁.withFaults fun _ => none) = ev
    obtain ⟨ret, idx, b₂⟩ := ev
    by_cases hret : ret = 0
    · simp [hret, Blk.withFaults]
    · simp [hret]
  · exact ⟨0, fun g => rfl⟩

omit [DecidableEq δ] in
theorem journalAdd_withFaults (s : Storage δ α) (g : ℕ → Option DevErr) (lba : ℕ) (x : α) :
    (fat32JournalAdd (s.withFaults g) lba x).2 = (fat32JournalAdd s lba x).2.withFaults g := by
  by_cases hact : s.journal.active = true
  · by_cases hfull : s.journal.entries.length ≥ maxJournalEntries
    · simp [fat32JournalAdd, Storage.withFaults, hact, hfull]
    · simp [fat32JournalAdd, Storage.withFaults, hact, hfull]
  · simp [fat32JournalAdd, Storage.withFaults, hact]

theorem exec_paced (dev : δ) (op : TxnOp α) (s : Storage δ α) :
    ∃ w, ∀ g, op.exec dev (s.withFaults (pad w g)) =
      (op.exec dev (s.withFaults fun _ => none)).withFaults g := by
  cases op with
  | read lba buf =>
    obtain ⟨w, hw⟩ := blkCacheRead_paced s.blk dev lba buf
    refine ⟨w, fun g => ?_⟩
    change Storage.mk (blkCacheRead (s.blk.withFaults (pad w g)) dev lba (some buf)).2.2 s.journal = _
    rw [hw]
    rfl
  | update lba x =>
    obtain ⟨w, hw⟩ := blkCacheWrite_paced (fat32JournalAdd s lba x).2.blk dev lba x
    refine ⟨w, fun g => ?_⟩
    simp only [TxnOp.exec, journalAdd_withFaults]
    change Storage.mk (blkCacheWrite ((fat32JournalAdd s lba x).2.blk.withFaults (pad w g)) dev lba
      (some x)).2 (fat32JournalAdd s lba x).2.journal = _
    rw [hw]
    rfl

/-- **A whole transaction up to its end** makes a fixed number of writes,
as long as they succeed. -/
theorem foldl_exec_paced (dev : δ) (ops : List (TxnOp α)) : ∀ s : Storage δ α,
    ∃ w, ∀ g, ops.foldl (TxnOp.exec dev) (s.withFaults (pad w g)) =
      (ops.foldl (TxnOp.exec dev) (s.withFaults fun _ => none)).withFaults g := by
  induction ops with
  | nil => intro s; exact ⟨0, fun g => rfl⟩
  | cons op ops ih =>
    intro s
    obtain ⟨v, hv⟩ := exec_paced dev op s
    obtain ⟨w, hw⟩ := ih (op.exec dev (s.withFaults fun _ => none))
    have hok : (op.exec dev (s.withFaults fun _ => none)).withFaults (fun _ => none) =
        op.exec dev (s.withFaults fun _ => none) := by
      rw [← hv]
      congr 2
      funext n
      simp [pad]
    refine ⟨v + w, fun g => ?_⟩
    rw [foldl_cons, foldl_cons, pad_add, hv, hw, hok]

/-! ## Exactly when the promise is kept -/

theorem updatesOf_driverOps (us : List (ℕ × α)) : updatesOf (driverOps us) = us := by
  induction us with
  | nil => rfl
  | cons u us ih =>
    exact congrArg _ ih

omit [DecidableEq δ] in
theorem begin_withFaults {s : Storage δ α} (hin : s.journal.active = false)
    (g : ℕ → Option DevErr) :
    (fat32JournalBegin (s.withFaults g)).2 = Storage.withFaults
      { s with journal := { s.journal with entries := [], active := true } } g := by
  simp [fat32JournalBegin, Storage.withFaults, hin]

/-- **A commit whose first write fails.** The abort drops the journal and
leaves the cache as the updates made it. -/
theorem commit_first_write_fails (s : Storage δ α) (hact : s.journal.active = true) {err : DevErr}
    (hf : s.blk.disks.writeFault 0 = some err) {e : JournalEntry α} {es : List (JournalEntry α)}
    (hent : s.journal.entries = e :: es) (hval : e.valid = true) :
    (fat32JournalCommit s).1 ≠ 0 ∧
    (fat32JournalCommit s).2.blk =
      { s.blk with disks := { s.blk.disks with
        writeFault := fun n => s.blk.disks.writeFault (n + 1) } } := by
  have hce : commitEntries s.journal.dev s.journal.entries s.blk.disks =
      (err.1, { s.blk.disks with writeFault := fun n => s.blk.disks.writeFault (n + 1) }) := by
    simp [hent, commitEntries, hval, write_fails _ _ _ hf, err.2]
  constructor
  · simp [fat32JournalCommit, hact, hce, err.2]
  · simp [fat32JournalCommit, hact, hce, err.2, fat32JournalAbort]

/-- **Some failure leaves every update in the cache.** For a transaction
with updates there is a device write, the first of the commit, whose
failure aborts it in a state whose cache is the one the updates made. -/
theorem exists_failing_write {s : Storage δ α} {us : List (ℕ × α)} (hinv : CacheInv s.blk)
    (hr : s.blk.disks.ReadsOk) (hin : s.journal.active = false) (hne : us ≠ []) :
    ∃ (k : ℕ) (err : DevErr) (t : Storage δ α),
      InTxn s.journal.dev (s.blk.view s.journal.dev) us t ∧
      (Ending.commit.run ((driverOps us).foldl (TxnOp.exec s.journal.dev)
        (fat32JournalBegin (s.withFaults (failAt k err))).2)).1 = true ∧
      (Ending.commit.run ((driverOps us).foldl (TxnOp.exec s.journal.dev)
        (fat32JournalBegin (s.withFaults (failAt k err))).2)).2.blk = t.blk := by
  let s₁ : Storage δ α := { s with journal := { s.journal with entries := [], active := true } }
  obtain ⟨w, hw⟩ := foldl_exec_paced s.journal.dev (driverOps us) s₁
  generalize ht : (driverOps us).foldl (TxnOp.exec s.journal.dev)
    (s₁.withFaults fun _ => none) = t at hw
  have htxn : InTxn s.journal.dev (s.blk.view s.journal.dev) us t := by
    have hbeg : InTxn s.journal.dev (s.blk.view s.journal.dev) [] (s₁.withFaults fun _ => none) :=
      ⟨⟨fun hi hj => hinv.unique hi hj, fun hi hd => hinv.clean hi hd, hinv.named⟩, hr, rfl, rfl,
        rfl, fun _ => rfl, rfl⟩
    have hend := foldl_exec_inTxn (driverOps us) hbeg
    rwa [nil_append, updatesOf_driverOps, ht] at hend
  obtain ⟨e, es, hent, hval⟩ : ∃ e es, t.journal.entries = e :: es ∧ e.valid = true := by
    obtain ⟨u, us', rfl⟩ := exists_cons_of_ne_nil hne
    rw [htxn.entries, take_succ_cons, map_cons]
    exact ⟨_, _, rfl, rfl⟩
  let err : DevErr := ⟨Errno.efail, by decide⟩
  have hrun : (driverOps us).foldl (TxnOp.exec s.journal.dev)
      (fat32JournalBegin (s.withFaults (failAt w err))).2 = t.withFaults (failAt 0 err) := by
    rw [begin_withFaults hin, ← pad_failAt]
    exact hw _
  obtain ⟨hret, hblk⟩ := commit_first_write_fails (t.withFaults (failAt 0 err))
    htxn.active rfl hent hval
  refine ⟨w, err, t, htxn, ?_, ?_⟩
  · rw [hrun]
    exact decide_eq_true hret
  · rw [hrun]
    refine hblk.trans ?_
    have hok : t.blk.disks.writeFault = fun _ => none := htxn.writes
    have hback : t.blk = t.blk.withFaults t.blk.disks.writeFault := rfl
    rw [hback, hok]
    rfl

/-- A promise kept for the transaction cut after an update makes that
update one that changes nothing: a later read finds it in the cache. -/
theorem unchanged_of_allOrNothing {s : Storage δ α} {us : List (ℕ × α)} (hinv : CacheInv s.blk)
    (hr : s.blk.disks.ReadsOk) (hin : s.journal.active = false) (h : AllOrNothing s us)
    {i : ℕ} (hi : i < us.length) : us[i].2 = s.blk.disks.sector s.journal.dev us[i].1 := by
  have htake : us.take (i + 1) = us.take i ++ [us[i]] := (take_append_getElem hi).symm
  have hmem : us[i] ∈ us.take (i + 1) := by
    rw [htake]
    exact mem_append_right _ mem_cons_self
  obtain ⟨k, err, t, htxn, hab, hblk⟩ := exists_failing_write hinv hr hin (ne_nil_of_mem hmem)
  have hview : t.blk.view s.journal.dev us[i].1 = us[i].2 := by
    rw [htxn.view, htake, applyWrites_append, applyWrites_cons, applyWrites_nil,
      Function.update_self]
  have hread := (h (i + 1) k err .commit hab us[i] hmem).2 us[i].2
  rw [hblk] at hread
  obtain ⟨-, hval, hok⟩ := blkCacheRead_spec htxn.inv htxn.reads s.journal.dev us[i].1 us[i].2
  have hzero := hok htxn.writes
  have hsome := (hval hzero).symm.trans (hread hzero)
  rw [hview] at hsome
  exact Option.some.inj hsome

/-- **Exactly when a transaction is all or nothing.** From a cache and a
device that agree on the sectors to be updated, it is so if and only if
every update writes back what its sector already holds. -/
theorem allOrNothing_iff_unchanged (s : Storage δ α) (us : List (ℕ × α)) (hinv : CacheInv s.blk)
    (hr : s.blk.disks.ReadsOk) (hin : s.journal.active = false)
    (hco : ∀ u ∈ us, s.blk.view s.journal.dev u.1 = s.blk.disks.sector s.journal.dev u.1) :
    AllOrNothing s us ↔ ∀ u ∈ us, u.2 = s.blk.disks.sector s.journal.dev u.1 := by
  constructor
  · intro h u hu
    obtain ⟨i, hi, rfl⟩ := getElem_of_mem hu
    exact unchanged_of_allOrNothing hinv hr hin h hi
  intro h n k err e r hab u hu
  let K : ℕ → Prop := fun lba => ∃ u ∈ us, u.1 = lba
  have hcoK : ∀ lba, K lba →
      s.blk.view s.journal.dev lba = s.blk.disks.sector s.journal.dev lba := by
    rintro lba ⟨v, hv, rfl⟩
    exact hco v hv
  have hbeg : Kept s.journal.dev s K (fat32JournalBegin (s.withFaults (failAt k err))).2 := by
    rw [begin_withFaults hin]
    exact ⟨⟨fun hi hj => hinv.unique hi hj, fun hi hd => hinv.clean hi hd, hinv.named⟩, hr, rfl,
      fun _ => rfl, fun _ _ => rfl, fun e he => by simp [Storage.withFaults] at he⟩
  have hkept := hbeg.foldl_exec hcoK (driverOps (us.take n)) fun v hv => by
    rw [updatesOf_driverOps] at hv
    exact ⟨⟨v, mem_of_mem_take hv, rfl⟩, h v (mem_of_mem_take hv)⟩
  obtain ⟨hinv', hr', hview', hsec'⟩ := hkept.ending e hab
  have hK : K u.1 := ⟨u, mem_of_mem_take hu, rfl⟩
  refine ⟨hsec' u.1 hK, fun b hb => ?_⟩
  rw [(blkCacheRead_spec hinv' hr' s.journal.dev u.1 b).2.1 hb, hview', hcoK u.1 hK]

/-- Writing back what a sector holds is all or nothing. -/
theorem freshStorage_allOrNothing : AllOrNothing freshStorage [(5, 5)] :=
  (allOrNothing_iff_unchanged freshStorage [(5, 5)] freshStorage_coherent.inv rfl rfl
    fun u _ => (freshStorage_coherent.sector_eq_view u.1).symm).mpr fun u hu => by
      obtain rfl := mem_singleton.mp hu
      rfl

/-- **Two updates, and the second write of the commit fails.** Sector `5`
has its new contents on the device, and the abort has not taken them
back. -/
theorem freshStorage_not_allOrNothing : ¬ AllOrNothing freshStorage [(5, 9), (6, 9)] := by
  intro h
  have hdev := (h 2 1 ⟨Errno.efail, by decide⟩ .commit (by decide +kernel) (5, 9) (by decide)).1
  revert hdev
  decide +kernel

end Block

end Lnxrm
