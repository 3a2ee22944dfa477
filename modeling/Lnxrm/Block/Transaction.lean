import Lnxrm.Block.Helpers.Journal

/-!
# The block layer — transactions that succeed

A transaction of the FAT32 driver is `fat32_journal_begin`, sector
updates, `fat32_journal_commit`. An update is added to the journal and
written to the cache, in that order; cached reads come in between. The
journal keeps the first 32 images and drops the rest without a word, so
the commit is sound for a reason that has two cases: either nothing was
dropped, or no sector was updated twice (`inTxn_journalCurrent`).
-/

namespace Lnxrm

open List

namespace Block

variable {δ α : Type} [DecidableEq δ]
variable {dev : δ} {s : Storage δ α} {us : List (ℕ × α)} {base : ℕ → α}

seal blkCacheFlush

/-- What the driver does between begin and commit: a cached read, or an
update of a sector. -/
inductive TxnOp (α : Type) where
  | read (lba : ℕ) (buf : α)
  | update (lba : ℕ) (data : α)

/-- One operation inside a transaction. What the calls return is ignored,
as the driver ignores it. -/
def TxnOp.exec (dev : δ) (s : Storage δ α) : TxnOp α → Storage δ α
  | .read lba buf => (fatReadSector s dev lba buf).2.2
  | .update lba data => (fatWriteSector (fat32JournalAdd s lba data).2 dev lba data).2

/-- The updates among the operations, in order. -/
def updatesOf : List (TxnOp α) → List (ℕ × α)
  | [] => []
  | .read _ _ :: ops => updatesOf ops
  | .update lba data :: ops => (lba, data) :: updatesOf ops

/-- `fat32_journal_begin`, the operations, `fat32_journal_commit`. -/
def transaction (dev : δ) (s : Storage δ α) (ops : List (TxnOp α)) : Int × Storage δ α :=
  fat32JournalCommit (ops.foldl (TxnOp.exec dev) (fat32JournalBegin s).2)

/-- The cache is coherent with a device: the table keeps its invariant,
and every valid line of the device holds what the device holds. -/
structure Coherent (s : Blk δ α) (dev : δ) : Prop where
  inv : CacheInv s
  lines : ∀ i lba, (s.cache i).hits dev lba = true → (s.cache i).data = s.disks.sector dev lba

theorem Coherent.sector_eq_view {s : Blk δ α} (h : Coherent s dev) (lba : ℕ) :
    s.disks.sector dev lba = s.view dev lba := by
  rcases hit_or_miss s dev lba with ⟨i, hi⟩ | hmiss
  · rw [view_of_hit h.inv hi, h.lines i lba hi]
  · rw [view_of_miss hmiss]

/-- **Inside a transaction**, after the updates `us` to a device that held
`base`: the view has all of them, the journal the first 32. -/
structure InTxn (dev : δ) (base : ℕ → α) (us : List (ℕ × α)) (s : Storage δ α) : Prop where
  inv : CacheInv s.blk
  reads : s.blk.disks.ReadsOk
  writes : s.blk.disks.WritesOk
  active : s.journal.active = true
  dev_eq : s.journal.dev = dev
  view : ∀ lba, s.blk.view dev lba = applyWrites us base lba
  entries : s.journal.entries =
    (us.take maxJournalEntries).map fun u => { lba := u.1, data := u.2, valid := true }

theorem begin_inTxn (hdev : s.journal.dev = dev)
    (hin : s.journal.active = false) (hco : Coherent s.blk dev) (hr : s.blk.disks.ReadsOk)
    (hw : s.blk.disks.WritesOk) :
    InTxn dev (s.blk.disks.sector dev) [] (fat32JournalBegin s).2 := by
  have heq : fat32JournalBegin s =
      (0, { s with journal := { s.journal with entries := [], active := true } }) := by
    simp [fat32JournalBegin, hin]
  rw [heq]
  exact ⟨hco.inv, hr, hw, rfl, hdev, fun lba => (hco.sector_eq_view lba).symm, rfl⟩

omit [DecidableEq δ] in
/-- What `fat32_journal_add` does to an active journal: the image is kept
if there is room. -/
theorem journalAdd_entries (hact : s.journal.active = true)
    (hent : s.journal.entries =
      (us.take maxJournalEntries).map fun u => { lba := u.1, data := u.2, valid := true })
    (lba : ℕ) (x : α) :
    (fat32JournalAdd s lba x).2.blk = s.blk ∧
    (fat32JournalAdd s lba x).2.journal.active = true ∧
    (fat32JournalAdd s lba x).2.journal.dev = s.journal.dev ∧
    (fat32JournalAdd s lba x).2.journal.entries = ((us ++ [(lba, x)]).take maxJournalEntries).map
        fun u => { lba := u.1, data := u.2, valid := true } := by
  have hlen : s.journal.entries.length = min maxJournalEntries us.length := by
    rw [hent, length_map, length_take]
  unfold fat32JournalAdd
  simp only [hact, Bool.not_true, Bool.false_eq_true, if_false, hlen]
  split
  · rename_i hfull
    refine ⟨rfl, hact, rfl, ?_⟩
    rw [hent, take_append_of_le_length (by omega)]
  · rename_i hroom
    refine ⟨rfl, rfl, rfl, ?_⟩
    rw [hent, take_of_length_le (by omega), take_of_length_le (by simp; omega),
      map_append]
    rfl

/-- **One operation inside a transaction.** -/
theorem exec_inTxn
    (h : InTxn dev base us s) (op : TxnOp α) :
    InTxn dev base (us ++ updatesOf [op]) (op.exec dev s) := by
  cases op with
  | read lba buf =>
    obtain ⟨hset, -, -⟩ := blkCacheRead_spec h.inv h.reads dev lba buf
    simp only [updatesOf, append_nil]
    exact ⟨hset.inv, hset.reads h.reads, hset.writes h.writes, h.active, h.dev_eq,
      fun l => (hset.view dev l).trans (h.view l), h.entries⟩
  | update lba x =>
    obtain ⟨hblk, hact, hdev, hent⟩ := journalAdd_entries h.active h.entries lba x
    obtain ⟨hput, -, hok⟩ := blkCacheWrite_spec h.inv dev lba x
    have hp := hput (hok h.writes)
    have heq : TxnOp.exec dev s (.update lba x) =
        { blk := (blkCacheWrite s.blk dev lba (some x)).2
          journal := (fat32JournalAdd s lba x).2.journal } := by
      simp [TxnOp.exec, fatWriteSector, hblk]
    rw [heq]
    refine ⟨hp.inv, hp.reads h.reads, hp.writes h.writes, hact, hdev.trans h.dev_eq,
      fun l => ?_, hent⟩
    rw [hp.view, updatesOf, updatesOf, applyWrites_append, applyWrites_cons, applyWrites_nil]
    unfold setSector
    by_cases hl : l = lba
    · subst hl; simp
    · simp [hl, h.view]

/-- **Any number of operations inside a transaction.** -/
theorem foldl_exec_inTxn (ops : List (TxnOp α)) :
    ∀ {us : List (ℕ × α)} {s : Storage δ α}, InTxn dev base us s →
      InTxn dev base (us ++ updatesOf ops) (ops.foldl (TxnOp.exec dev) s) := by
  induction ops with
  | nil => intro us s h; simpa [updatesOf] using h
  | cons op ops ih =>
    intro us s h
    have h' := ih (exec_inTxn h op)
    have hsplit : updatesOf [op] ++ updatesOf ops = updatesOf (op :: ops) := by
      cases op <;> rfl
    rwa [append_assoc, hsplit] at h'

/-- **No stale image.** The journal holds the newest image of each sector
it holds, if nothing was dropped or no sector was updated twice. -/
theorem inTxn_journalCurrent
    (h : InTxn dev base us s)
    (hlim : us.length ≤ maxJournalEntries ∨ (us.map Prod.fst).Nodup) : JournalCurrent s := by
  have himg : images s.journal.entries = us.take maxJournalEntries := by
    rw [h.entries, images, map_map]
    exact map_id _
  constructor
  · intro e he
    rw [h.entries] at he
    obtain ⟨u, -, rfl⟩ := mem_map.mp he
    rfl
  intro e he f
  have hmem : ∃ w ∈ us.take maxJournalEntries, w.1 = e.lba :=
    ⟨(e.lba, e.data), himg ▸ mem_map_of_mem he, rfl⟩
  rw [himg, h.dev_eq, h.view]
  rcases hlim with hle | hnd
  · rw [take_of_length_le hle] at hmem ⊢
    exact applyWrites_congr (Or.inl hmem)
  · rw [applyWrites_take_of_nodup hnd _ hmem]
    obtain ⟨w, hw, hwe⟩ := hmem
    exact applyWrites_congr (Or.inl ⟨w, mem_of_mem_take hw, hwe⟩)

/-- **Commit makes the device current.** From a cache coherent with the
device, a transaction of at most 32 updates, or of updates to distinct
sectors, with any cached reads in between, leaves the device with all
updates applied in order, every valid line of the device clean and equal
to its sector, and the journal inactive and empty. -/
theorem transaction_device_current (dev : δ) (s : Storage δ α) (ops : List (TxnOp α))
    (hdev : s.journal.dev = dev) (hin : s.journal.active = false) (hco : Coherent s.blk dev)
    (hr : s.blk.disks.ReadsOk) (hw : s.blk.disks.WritesOk)
    (hlim : (updatesOf ops).length ≤ maxJournalEntries ∨ ((updatesOf ops).map Prod.fst).Nodup) :
    let t := (transaction dev s ops).2
    (transaction dev s ops).1 = 0 ∧
    (∀ lba, t.blk.disks.sector dev lba = applyWrites (updatesOf ops) (s.blk.disks.sector dev) lba) ∧
    (∀ i lba, (t.blk.cache i).hits dev lba = true →
      (t.blk.cache i).dirty = false ∧ (t.blk.cache i).data = t.blk.disks.sector dev lba) ∧
    t.journal.active = false ∧ t.journal.entries = [] := by
  have hbeg := begin_inTxn hdev hin hco hr hw
  have hend := foldl_exec_inTxn ops hbeg
  rw [nil_append] at hend
  obtain ⟨hret, hset, hclean, hsec, hjour⟩ :=
    commit_spec hend.inv hend.writes hend.active (inTxn_journalCurrent hend hlim)
  rw [hend.dev_eq] at hclean hsec
  refine ⟨hret, fun lba => ?_, fun i lba hi => ?_, ?_, ?_⟩
  · exact (hsec lba).trans (hend.view lba)
  · exact ⟨hclean i lba hi, hset.inv.clean hi (hclean i lba hi)⟩
  · exact congrArg Journal.active hjour
  · exact congrArg Journal.entries hjour

/-- One device of numbered sectors behind an empty cache, and an idle
journal for it. -/
def freshStorage : Storage Unit ℕ where
  blk :=
    { cache := fun _ =>
        { lba := 0, data := 0, valid := false, dirty := false, used := false, dev := none }
      disks :=
        { sector := fun _ lba => lba, readFault := fun _ => none, writeFault := fun _ => none } }
  journal := { entries := [], active := false, dev := () }

theorem freshStorage_coherent : Coherent freshStorage.blk () where
  inv := ⟨fun h => by simp [freshStorage, CacheEntry.hits] at h,
    fun h => by simp [freshStorage, CacheEntry.hits] at h, fun i h => by simp [freshStorage] at h⟩
  lines i lba h := by simp [freshStorage, CacheEntry.hits] at h

/-- A sector updated twice in one transaction ends with its second
contents on the device. -/
theorem freshStorage_device_current :
    (transaction () freshStorage [.update 5 7, .read 6 0, .update 5 9]).2.blk.disks.sector () 5 = 9 :=
  (transaction_device_current () freshStorage [.update 5 7, .read 6 0, .update 5 9] rfl rfl
    freshStorage_coherent rfl rfl (Or.inl (by decide))).2.1 5

end Block

end Lnxrm
