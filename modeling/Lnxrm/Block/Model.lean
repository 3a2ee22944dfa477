import Lnxrm.Abi
import Mathlib.Data.List.FinRange

/-!
# The block layer — devices, the sector cache and the journal

The model of `kernel/fs/blk_cache.c` and `kernel/fs/fat32/fat32_journal.c`
over the `struct blkdev` of `include/sys/vfs.h`. A sector's contents are
an opaque type `α`: nothing here looks inside one. Devices are named by
`δ`, the pointer the code compares.

Each function is called with its lock held, so it is one state
transformer; what it returns in C is the first component of its result.
Devices may fail. `Disks` carries, for the reads and the writes still to
come, which of them fail and with what: the schedule moves on by one
with each operation, so a schedule without failures never changes.
-/

namespace Lnxrm

open Function

namespace Block

/-- The error a device operation returned: any `int` but `0`. -/
abbrev DevErr := { e : Int // e ≠ 0 }

/-- The block devices. `readFault n` says how the `n`-th read from now
fails, with the bytes it leaves in each sector of the buffer, and
`writeFault n` how the `n`-th write from now fails. -/
structure Disks (δ α : Type) where
  /-- What each sector of each device holds. -/
  sector : δ → ℕ → α
  /-- The reads that fail. -/
  readFault : ℕ → Option (DevErr × (ℕ → α))
  /-- The writes that fail. -/
  writeFault : ℕ → Option DevErr

/-- `struct cache_entry` of `include/disk.h`; `dev` is `none` for `NULL`. -/
structure CacheEntry (δ α : Type) where
  lba : ℕ
  data : α
  valid : Bool
  dirty : Bool
  used : Bool
  dev : Option δ

/-- `CACHE_ENTRIES` -/
abbrev cacheEntries : ℕ := 64

/-- The block layer: the cache table in front of the devices. -/
structure Blk (δ α : Type) where
  cache : Fin cacheEntries → CacheEntry δ α
  disks : Disks δ α

variable {δ α : Type} [DecidableEq δ]

/-! ## Devices -/

/-- The contents of all sectors with one of them replaced. -/
def setSector (f : δ → ℕ → α) (dev : δ) (lba : ℕ) (x : α) : δ → ℕ → α :=
  fun dev' lba' => if dev' = dev ∧ lba' = lba then x else f dev' lba'

namespace Disks

/-- `dev->read(dev, lba, count, buf)`: what it returns and, sector by
sector, the contents of `buf` afterwards. -/
def read (d : Disks δ α) (dev : δ) (lba : ℕ) : Int × (ℕ → α) × Disks δ α :=
  let rest := { d with readFault := fun n => d.readFault (n + 1) }
  match d.readFault 0 with
  | none => (0, fun i => d.sector dev (lba + i), rest)
  | some (e, junk) => (e.1, junk, rest)

/-- `dev->write(dev, lba, 1, buf)`: a write that fails leaves the sector
alone. -/
def write (d : Disks δ α) (dev : δ) (lba : ℕ) (x : α) : Int × Disks δ α :=
  let rest := { d with writeFault := fun n => d.writeFault (n + 1) }
  match d.writeFault 0 with
  | none => (0, { rest with sector := setSector d.sector dev lba x })
  | some e => (e.1, rest)

/-- No read fails. -/
def ReadsOk (d : Disks δ α) : Prop := d.readFault = fun _ => none

/-- No write fails. -/
def WritesOk (d : Disks δ α) : Prop := d.writeFault = fun _ => none

end Disks

/-! ## The sector cache -/

/-- The first index of the table a predicate accepts, the search each
`for` loop of the cache makes. -/
def firstIdx (p : Fin cacheEntries → Bool) : Option (Fin cacheEntries) :=
  (List.finRange cacheEntries).find? p

/-- The line holds this sector of this device. -/
def CacheEntry.hits (e : CacheEntry δ α) (dev : δ) (lba : ℕ) : Bool :=
  e.valid && decide (e.dev = some dev) && decide (e.lba = lba)

/-- `blk_cache_init`. The data of a line is left as it was. -/
def blkCacheInit (s : Blk δ α) : Blk δ α :=
  { s with cache := fun i =>
      { s.cache i with valid := false, dirty := false, used := false, dev := none, lba := 0 } }

/-- `cache_find`: the line found is marked used. -/
def cacheFind (s : Blk δ α) (dev : δ) (lba : ℕ) : Option (Fin cacheEntries) × Blk δ α :=
  match firstIdx fun i => (s.cache i).hits dev lba with
  | some i =>
    (some i, { s with cache := update s.cache i { s.cache i with used := true } })
  | none => (none, s)

/-- `cache_find_victim`: an invalid line, else an unused one, else the
first unused one after every flag is cleared. -/
def cacheFindVictim (s : Blk δ α) : Fin cacheEntries × Blk δ α :=
  match firstIdx fun i => !(s.cache i).valid with
  | some i => (i, s)
  | none =>
    match firstIdx fun i => !(s.cache i).used with
    | some i => (i, s)
    | none =>
      let s := { s with cache := fun i => { s.cache i with used := false } }
      match firstIdx fun i => !(s.cache i).used with
      | some i => (i, s)
      | none => (0, s)

/-- `cache_writeback` -/
def cacheWriteback (s : Blk δ α) (idx : Fin cacheEntries) : Int × Blk δ α :=
  let e := s.cache idx
  if !e.valid || !e.dirty then (0, s)
  else
    match e.dev with
    | none => (0, s)
    | some dev =>
      let (ret, d) := s.disks.write dev e.lba e.data
      if ret = 0 then
        (ret, { cache := update s.cache idx { e with dirty := false }, disks := d })
      else (ret, { s with disks := d })

/-- One turn of the loop of `cache_flush_locked`. -/
def flushOne (dev : δ) (acc : Int × Blk δ α) (i : Fin cacheEntries) : Int × Blk δ α :=
  let e := acc.2.cache i
  if e.valid && e.dirty && decide (e.dev = some dev) then
    let (r, s) := cacheWriteback acc.2 i
    (if r ≠ 0 then r else acc.1, s)
  else acc

/-- `cache_flush_locked`: every dirty line of the device is written back;
the last error is returned. -/
def cacheFlushLocked (s : Blk δ α) (dev : δ) : Int × Blk δ α :=
  (List.finRange cacheEntries).foldl (flushOne dev) (0, s)

/-- `blk_cache_flush` -/
def blkCacheFlush (s : Blk δ α) (dev : δ) : Int × Blk δ α := cacheFlushLocked s dev

/-- What `blk_cache_read` and `blk_cache_write` do on a miss: choose a
victim and write it back if it is dirty. -/
def cacheEvict (s : Blk δ α) : Int × Fin cacheEntries × Blk δ α :=
  let (idx, s) := cacheFindVictim s
  if (s.cache idx).valid && (s.cache idx).dirty then
    let (ret, s) := cacheWriteback s idx
    (ret, idx, s)
  else (0, idx, s)

/-- `blk_cache_read`: `buf` is the caller's buffer, `none` for `NULL`;
the second component is what it holds on return. -/
def blkCacheRead (s : Blk δ α) (dev : δ) (lba : ℕ) (buf : Option α) : Int × Option α × Blk δ α :=
  match buf with
  | none => (Errno.efail, none, s)
  | some _ =>
    match cacheFind s dev lba with
    | (some idx, s) => (0, some (s.cache idx).data, s)
    | (none, s) =>
      let (ret, idx, s) := cacheEvict s
      if ret ≠ 0 then (ret, buf, s)
      else
        -- the device reads straight into the line, whether or not it succeeds
        let (ret, data, d) := s.disks.read dev lba
        let s := { cache := update s.cache idx { s.cache idx with data := data 0 },
                   disks := d }
        if ret ≠ 0 then (ret, buf, s)
        else
          let e := { s.cache idx with
            lba := lba, dev := some dev, valid := true, dirty := false, used := true }
          (0, some e.data, { s with cache := update s.cache idx e })

/-- `blk_cache_write` -/
def blkCacheWrite (s : Blk δ α) (dev : δ) (lba : ℕ) (buf : Option α) : Int × Blk δ α :=
  match buf with
  | none => (Errno.efail, s)
  | some x =>
    match cacheFind s dev lba with
    | (some idx, s) =>
      let e := { s.cache idx with data := x, dirty := true }
      (0, { s with cache := update s.cache idx e })
    | (none, s) =>
      let (ret, idx, s) := cacheEvict s
      if ret ≠ 0 then (ret, s)
      else
        let e := { s.cache idx with lba := lba, dev := some dev, valid := true, used := true }
        let e := { e with data := x, dirty := true }
        (0, { s with cache := update s.cache idx e })

/-! ## The journal -/

/-- `struct journal_entry` -/
structure JournalEntry (α : Type) where
  lba : ℕ
  data : α
  valid : Bool

/-- `struct journal`, with `entries` the first `count` slots of its
array: the slots past `count` are never read. -/
structure Journal (δ α : Type) where
  entries : List (JournalEntry α)
  active : Bool
  dev : δ

/-- `MAX_JOURNAL_ENTRIES` -/
abbrev maxJournalEntries : ℕ := 32

/-- The storage below the FAT32 driver: the block layer and the journal. -/
structure Storage (δ α : Type) where
  blk : Blk δ α
  journal : Journal δ α

/-- `fat32_journal_init` -/
def fat32JournalInit (s : Storage δ α) (dev : δ) : Storage δ α :=
  { s with journal := { entries := [], active := false, dev := dev } }

/-- `fat32_journal_begin` -/
def fat32JournalBegin (s : Storage δ α) : Int × Storage δ α :=
  if s.journal.active then (Errno.efail, s)
  else (0, { s with journal := { s.journal with entries := [], active := true } })

/-- `fat32_journal_add` -/
def fat32JournalAdd (s : Storage δ α) (lba : ℕ) (data : α) : Int × Storage δ α :=
  if !s.journal.active then (Errno.efail, s)
  else if s.journal.entries.length ≥ maxJournalEntries then (Errno.enoent, s)
  else
    let entry := { lba := lba, data := data, valid := true }
    (0, { s with journal := { s.journal with entries := s.journal.entries ++ [entry] } })

/-- `fat32_journal_abort` -/
def fat32JournalAbort (s : Storage δ α) : Int × Storage δ α :=
  (0, { s with journal := { s.journal with entries := [], active := false } })

/-- The loop of `fat32_journal_commit` over the entries: the first write
that fails ends it. -/
def commitEntries (dev : δ) : List (JournalEntry α) → Disks δ α → Int × Disks δ α
  | [], d => (0, d)
  | e :: es, d =>
    if e.valid then
      let (ret, d) := d.write dev e.lba e.data
      if ret ≠ 0 then (ret, d) else commitEntries dev es d
    else commitEntries dev es d

/-- `fat32_journal_commit` -/
def fat32JournalCommit (s : Storage δ α) : Int × Storage δ α :=
  if !s.journal.active then (Errno.efail, s)
  else
    let (ret, d) := commitEntries s.journal.dev s.journal.entries s.blk.disks
    let s := { s with blk := { s.blk with disks := d } }
    if ret ≠ 0 then (ret, (fat32JournalAbort s).2)
    else
      let s := { s with journal := { s.journal with entries := [], active := false } }
      -- the result of the flush is ignored
      (0, { s with blk := (blkCacheFlush s.blk s.journal.dev).2 })

/-- `fat_read_sector` of `include/fat32_priv.h`, for the mounted device. -/
def fatReadSector (s : Storage δ α) (dev : δ) (lba : ℕ) (buf : α) : Int × Option α × Storage δ α :=
  let (ret, buf, b) := blkCacheRead s.blk dev lba (some buf)
  (ret, buf, { s with blk := b })

/-- `fat_write_sector` of `include/fat32_priv.h`, for the mounted device. -/
def fatWriteSector (s : Storage δ α) (dev : δ) (lba : ℕ) (buf : α) : Int × Storage δ α :=
  let (ret, b) := blkCacheWrite s.blk dev lba (some buf)
  (ret, { s with blk := b })

end Block

end Lnxrm
