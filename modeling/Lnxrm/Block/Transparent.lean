import Lnxrm.Block.Helpers.Cache
import Lnxrm.Common.Run

/-!
# The block layer — the cache is transparent

Devices reached only through the cache behave as one plain map from
sectors to contents: `CacheOp.spec` says what such a map answers, and
`cacheOp_sim` that every call of the cache answers the same and keeps
the view equal to the map. The run form, with what holds of the table
and of the devices after it, is `blkCache_transparent`.
-/

namespace Lnxrm

namespace Block

variable {δ α : Type} [DecidableEq δ]

/-- A call of the cache's interface. A buffer is `none` for `NULL`; for a
read it carries what it holds before the call. -/
inductive CacheOp (δ α : Type) where
  | read (dev : δ) (lba : ℕ) (buf : Option α)
  | write (dev : δ) (lba : ℕ) (buf : Option α)
  | flush (dev : δ)

/-- A call: what it returns, the buffer of a read, and the state after. -/
def CacheOp.exec (s : Blk δ α) : CacheOp δ α → (Int × Option α) × Blk δ α
  | .read dev lba buf =>
    let r := blkCacheRead s dev lba buf
    ((r.1, r.2.1), r.2.2)
  | .write dev lba buf =>
    let r := blkCacheWrite s dev lba buf
    ((r.1, none), r.2)
  | .flush dev =>
    let r := blkCacheFlush s dev
    ((r.1, none), r.2)

/-- The same call of a plain sector map. -/
def CacheOp.spec (m : δ → ℕ → α) : CacheOp δ α → (Int × Option α) × (δ → ℕ → α)
  | .read _ _ none => ((Errno.efail, none), m)
  | .read dev lba (some _) => ((0, some (m dev lba)), m)
  | .write _ _ none => ((Errno.efail, none), m)
  | .write dev lba (some x) => ((0, none), setSector m dev lba x)
  | .flush _ => ((0, none), m)

/-- The cache stands for the map: its view is the map, and no device
operation fails. -/
structure Represents (s : Blk δ α) (m : δ → ℕ → α) : Prop where
  inv : CacheInv s
  reads : s.disks.ReadsOk
  writes : s.disks.WritesOk
  view : s.view = m

theorem Settles.represents {s s' : Blk δ α} {m : δ → ℕ → α} (h : Settles s s')
    (hs : Represents s m) : Represents s' m where
  inv := h.inv
  reads := h.reads hs.reads
  writes := h.writes hs.writes
  view := by
    rw [← hs.view]
    funext dev lba
    exact h.view dev lba

/-- **One call.** The cache answers what the map answers, and goes on
standing for it. -/
theorem cacheOp_sim (s : Blk δ α) (m : δ → ℕ → α) (op : CacheOp δ α) (hs : Represents s m) :
    (op.exec s).1 = (op.spec m).1 ∧ Represents (op.exec s).2 (op.spec m).2 := by
  cases op with
  | read dev lba buf =>
    cases buf with
    | none => exact ⟨rfl, hs⟩
    | some b =>
      obtain ⟨hset, hval, hok⟩ := blkCacheRead_spec hs.inv hs.reads dev lba b
      have hrc := hok hs.writes
      refine ⟨?_, hset.represents hs⟩
      simp only [CacheOp.exec, CacheOp.spec, hrc, hval hrc, hs.view]
  | write dev lba buf =>
    cases buf with
    | none => exact ⟨rfl, hs⟩
    | some x =>
      obtain ⟨hput, -, hok⟩ := blkCacheWrite_spec hs.inv dev lba x
      have hrc := hok hs.writes
      have hp := hput hrc
      refine ⟨by simp only [CacheOp.exec, CacheOp.spec, hrc], hp.inv, hp.reads hs.reads,
        hp.writes hs.writes, ?_⟩
      funext dev' lba'
      change (blkCacheWrite s dev lba (some x)).2.view dev' lba' = setSector m dev lba x dev' lba'
      rw [hp.view, hs.view]
  | flush dev =>
    obtain ⟨hset, -, hok⟩ := blkCacheFlush_spec hs.inv dev
    refine ⟨by simp only [CacheOp.exec, CacheOp.spec, (hok hs.writes).1], ?_⟩
    have hrep := hset.represents hs
    simpa only [CacheOp.exec, CacheOp.spec] using hrep

theorem blkCacheInit_inv (s : Blk δ α) : CacheInv (blkCacheInit s) where
  unique h := by simp [blkCacheInit, CacheEntry.hits] at h
  clean h := by simp [blkCacheInit, CacheEntry.hits] at h
  named i h := by simp [blkCacheInit] at h

theorem blkCacheInit_represents {s : Blk δ α} (hr : s.disks.ReadsOk) (hw : s.disks.WritesOk) :
    Represents (blkCacheInit s) s.disks.sector where
  inv := blkCacheInit_inv s
  reads := hr
  writes := hw
  view := by
    funext dev lba
    exact view_of_miss fun i => by simp [blkCacheInit, CacheEntry.hits]

/-- **The block cache is transparent.** Over any sequence of calls, on any
number of devices whose operations succeed, every call answers what a
plain sector map answers; a sector has at most one valid line; a clean
line holds what its device holds; and a flush leaves its device holding
the map and every other device as it was. -/
theorem blkCache_transparent (s₀ : Blk δ α) (hr : s₀.disks.ReadsOk) (hw : s₀.disks.WritesOk)
    (ops : List (CacheOp δ α)) :
    let run := runTrace CacheOp.exec (blkCacheInit s₀) ops
    let map := runTrace CacheOp.spec s₀.disks.sector ops
    run.1 = map.1 ∧
    (∀ i j, (run.2.cache i).valid = true → (run.2.cache j).valid = true →
      (run.2.cache i).dev = (run.2.cache j).dev → (run.2.cache i).lba = (run.2.cache j).lba →
      i = j) ∧
    (∀ i dev, (run.2.cache i).valid = true → (run.2.cache i).dirty = false →
      (run.2.cache i).dev = some dev →
      (run.2.cache i).data = run.2.disks.sector dev (run.2.cache i).lba) ∧
    ∀ dev, (∀ lba, (blkCacheFlush run.2 dev).2.disks.sector dev lba = map.2 dev lba) ∧
      ∀ dev', dev' ≠ dev →
        (blkCacheFlush run.2 dev).2.disks.sector dev' = run.2.disks.sector dev' := by
  intro run map
  obtain ⟨hans, hrep⟩ := runTrace_sim cacheOp_sim ops (blkCacheInit_represents hr hw)
  change Represents run.2 map.2 at hrep
  refine ⟨hans, fun i j hi hj hdev hlba => ?_, fun i dev hi hd hdev => ?_, fun dev => ?_⟩
  · obtain ⟨dev, hd⟩ := hrep.inv.named i hi
    have hdj : (run.2.cache j).dev = some dev := hdev.symm.trans hd
    exact hrep.inv.unique (hits_iff.mpr ⟨hi, hd, rfl⟩) (hits_iff.mpr ⟨hj, hdj, hlba.symm⟩)
  · exact hrep.inv.clean (hits_iff.mpr ⟨hi, hdev, rfl⟩) hd
  · obtain ⟨hset, hother, hok⟩ := blkCacheFlush_spec hrep.inv dev
    refine ⟨fun lba => ?_, hother⟩
    rw [sector_eq_view_of_clean hset.inv (hok hrep.writes).2, hset.view, hrep.view]

/-- Two devices of numbered sectors, nothing cached yet. -/
def twoDisks : Blk Bool ℕ where
  cache := fun _ =>
    { lba := 0, data := 0, valid := false, dirty := false, used := false, dev := none }
  disks := { sector := fun _ lba => lba, readFault := fun _ => none, writeFault := fun _ => none }

/-- On two devices, a write to one is read back from it, and the other
still holds its own sector. -/
theorem twoDisks_transparent : (runTrace CacheOp.exec (blkCacheInit twoDisks)
      [.write true 5 (some 9), .read true 5 (some 0), .read false 5 (some 0)]).1 =
      [(0, none), (0, some 9), (0, some 5)] :=
  (blkCache_transparent twoDisks rfl rfl _).1

end Block

end Lnxrm
