import Lnxrm.Common.Partial
import Lnxrm.Fat32.Helpers.Resolve
import Lnxrm.Fat32.Mounted

/-!
# FAT32 — the loops of the driver on any FAT

Proof layer. Whatever the FAT says, a loop over a chain meets the clusters
of `walked`, among them no more than the first `maxCluster + 2`
(`mem_walked`). As long as no device read fails, a scan past the cache
leaves the state alone, and is the fold over the records of these
clusters; it does not return if the walk has no end and no record stops it
(`exec_scanDevice`).
-/

namespace Lnxrm.Fat32

open List

open Prog (exec exec_bind wlp wlp_bind wlp_pure wlp_mono)

variable {δ : Type} [DecidableEq δ] {m : Mount} {dev : δ} {s : Fs δ} {fat : ℕ → ℕ} {c d x n : ℕ}
  {β γ : Type}

/-! ## Walks -/

/-- The clusters a loop over the chain from `c` meets, with as many turns as
it has. -/
def walked (m : Mount) (fat : ℕ → ℕ) (c : ℕ) : List ℕ := walkFrom (nextOf m fat) Ends m.fuel c

theorem lt_maxCluster_of_next (h : ¬ Ends (nextOf m fat x)) : x < m.maxCluster := by
  by_contra hx
  refine h (Or.inl ?_)
  rw [nextOf, if_pos (by omega)]
  decide

/-- **All clusters a walk can meet** it meets in `maxCluster + 2` turns. -/
theorem walkFrom_subset (m : Mount) (fat : ℕ → ℕ) (n c : ℕ) :
    walkFrom (nextOf m fat) Ends n c ⊆ walkFrom (nextOf m fat) Ends (m.maxCluster + 2) c := by
  by_cases hn : n ≤ m.maxCluster + 2
  · obtain ⟨l, hl⟩ := walkFrom_add (nextOf m fat) Ends n (m.maxCluster + 2 - n) c
    rw [Nat.add_sub_of_le hn] at hl
    rw [hl]
    exact subset_append_left _ _
  by_cases hnd : (walkFrom (nextOf m fat) Ends (m.maxCluster + 2) c).Nodup
  · obtain ⟨k, hk, heq, hstop⟩ := walkFrom_eq_map_range (nextOf m fat) Ends (m.maxCluster + 2) c
    by_cases hlt : k < m.maxCluster + 2
    · have hlen : (walkFrom (nextOf m fat) Ends (m.maxCluster + 2) c).length < m.maxCluster + 2 := by
        simpa [heq] using hlt
      rw [(walk_walkFrom hlen).walkFrom_eq (by omega)]
      exact Subset.refl _
    -- all of them but the last have an entry, and they are too many
    exfalso
    obtain rfl : k = m.maxCluster + 2 := by omega
    rw [heq, range_succ, map_append] at hnd
    have hrange : ∀ x ∈ (List.range (m.maxCluster + 1)).map fun i => (nextOf m fat)^[i] c,
        x < m.maxCluster := by
      intro x hx
      obtain ⟨i, hi, rfl⟩ := mem_map.mp hx
      rw [mem_range] at hi
      have hnext : (nextOf m fat)^[i + 1] c ∈
          walkFrom (nextOf m fat) Ends (m.maxCluster + 2) c := by
        rw [heq]
        exact mem_map.mpr ⟨i + 1, mem_range.mpr (by omega), rfl⟩
      have hgo := not_stop_of_mem_walkFrom hnext
      rw [Function.iterate_succ_apply'] at hgo
      exact lt_maxCluster_of_next hgo
    have := length_le_of_nodup_lt hnd.of_append_left hrange
    simp at this
  · exact walkFrom_subset_of_not_nodup hnd n

theorem lt_maxCluster_of_mem_dropLast {l : List ℕ} (h : Walk (nextOf m fat) Ends c l) :
    ∀ y ∈ l.dropLast, y < m.maxCluster := by
  induction l generalizing c with
  | nil => simp
  | cons x l ih =>
    obtain ⟨rfl, -, hl⟩ := h
    cases l with
    | nil => simp
    | cons z l =>
      rw [dropLast_cons_cons]
      exact forall_mem_cons.mpr ⟨lt_maxCluster_of_next hl.2.1, ih hl⟩

/-- **A walk that ends** has a cluster without an entry at most as its
last. -/
theorem length_le_of_walk {l : List ℕ} (h : Walk (nextOf m fat) Ends c l) :
    l.length ≤ max m.maxCluster 1 := by
  have hnd : (0 :: l.dropLast).Nodup := by
    refine nodup_cons.mpr ⟨fun h0 => ?_, h.nodup.sublist (dropLast_sublist l)⟩
    exact h.not_stop_of_mem (mem_of_mem_dropLast h0) (Or.inr (by decide))
  have hlt : ∀ y ∈ 0 :: l.dropLast, y < max m.maxCluster 1 :=
    forall_mem_cons.mpr ⟨by omega, fun y hy =>
      (lt_maxCluster_of_mem_dropLast h y hy).trans_le (le_max_left _ _)⟩
  have := length_le_of_nodup_lt hnd hlt
  rw [length_cons, length_dropLast] at this
  omega

/-! ## Loops that look -/

theorem exec_fatNextCluster (m : Mount) (dev : δ) (s : Fs δ) (c : ℕ) :
    exec (fatImpl m dev) (fatNextCluster m c) s = some (nextOf m s.fat c, s) := by
  unfold fatNextCluster nextOf
  split_ifs <;> rfl

theorem exec_devRead (hr : s.storage.blk.disks.ReadsOk) (lba count : ℕ) :
    exec (fatImpl m dev) (devRead lba count) s =
      some ((0, bufferOf count fun i => s.storage.blk.disks.sector dev (lba + i)), s) := by
  obtain ⟨⟨⟨cache, ⟨sector, readFault, writeFault⟩⟩, journal⟩, fat⟩ := s
  obtain rfl : readFault = fun _ => none := hr
  rfl

/-- **A loop over a chain whose body only looks**: the fold over the
clusters walked. It does not return if all turns are used up. -/
theorem exec_forChain {body : β → ℕ → Fat (β ⊕ γ)} {f : β → ℕ → β ⊕ γ}
    (hbody : ∀ b c, exec (fatImpl m dev) (body b c) s = some (f b c, s)) (n : ℕ) :
    ∀ (b : β) (c : ℕ), exec (fatImpl m dev) (forChain m body n b c) s =
      (foldExit f b (walkFrom (nextOf m s.fat) Ends n c)).elim
        (fun b => if (walkFrom (nextOf m s.fat) Ends n c).length < n then some (.inl b, s) else none)
        fun r => some (.inr r, s) := by
  induction n with
  | zero => exact fun _ _ => rfl
  | succ n ih =>
    intro b c
    rw [forChain, walkFrom]
    by_cases hc : Ends c
    · rw [if_pos hc, if_pos hc]
      rfl
    rw [if_neg hc, if_neg hc, exec_bind, hbody, Option.bind_some, foldExit]
    cases f b c with
    | inr r => rfl
    | inl b =>
      rw [exec_bind, exec_fatNextCluster, Option.bind_some, ih]
      simp only [length_cons, Nat.add_lt_add_iff_right]

/-- The records of these clusters, as the device holds them. -/
def Fs.deviceRecords (m : Mount) (dev : δ) (s : Fs δ) (l : List ℕ) : List Dirent :=
  (slots m l).map (recOf (s.storage.blk.disks.sector dev))

omit [DecidableEq δ] in
theorem length_deviceRecords (m : Mount) (dev : δ) (s : Fs δ) (l : List ℕ) :
    (s.deviceRecords m dev l).length = l.length * m.sectorsPerCluster * 16 := by
  have hslots : ∀ ls : List ℕ, (ls.flatMap sectorSlots).length = ls.length * 16 := by
    intro ls
    induction ls with
    | nil => rfl
    | cons x ls ih =>
      rw [flatMap_cons, length_append, ih, length_cons, sectorSlots, length_map, length_range]
      simp only [sectorSize, direntSize]
      omega
  rw [Fs.deviceRecords, length_map, slots, hslots, length_sectors]

/-- The records a scan past the cache comes across. -/
def Fs.walkedRecords (m : Mount) (dev : δ) (s : Fs δ) (d : ℕ) : List Dirent :=
  s.deviceRecords m dev (walked m s.fat d)

/-- **A scan past the cache**, on any FAT. -/
theorem exec_scanDevice (hr : s.storage.blk.disks.ReadsOk) (d : ℕ)
    (f : β → DirentPos → Dirent → β ⊕ γ) (b : β) :
    exec (fatImpl m dev) (scanDevice m d f b) s =
      (foldExit (fun b p => f b p (recOf (s.storage.blk.disks.sector dev) p)) b
          (slots m (walked m s.fat d))).elim
        (fun b => if (walked m s.fat d).length < m.fuel then some (.inl b, s) else none)
        fun r => some (.inr r, s) := by
  have hbody : ∀ b c, exec (fatImpl m dev) (do
      let r ← devRead (clusterLba m c) m.sectorsPerCluster
      pure (foldExit (fun b k =>
          f b ⟨clusterLba m c + k * direntSize / sectorSize, k * direntSize % sectorSize⟩
            (recAt (r.2 (k * direntSize / sectorSize)) (k * direntSize % sectorSize)))
        b (List.range (m.clusterSize / direntSize)))) s =
      some (foldExit (fun b p => f b p (recOf (s.storage.blk.disks.sector dev) p)) b
        ((clusterSectors m c).flatMap sectorSlots), s) := by
    intro b c
    rw [exec_bind, exec_devRead hr, Option.bind_some, clusterSlots_eq, foldExit_map]
    refine congrArg (fun x => some (x, s)) (foldExit_congr (fun b k hk => ?_) b)
    have hlt : k * direntSize / sectorSize < m.sectorsPerCluster := by
      simp only [mem_range, Mount.clusterSize, sectorSize, direntSize] at hk ⊢
      omega
    simp only [recOf, bufferOf, if_pos hlt]
  rw [scanDevice, exec_forChain hbody, slots, sectors, flatMap_assoc, foldExit_flatMap]
  rfl

/-- **A scan of a directory**, on any FAT. -/
theorem exec_fatScanDir (hr : s.storage.blk.disks.ReadsOk) {κ : Type} (d : ℕ)
    (cb : κ → Str → Dirent → κ × Bool) (ctx : κ) :
    exec (fatImpl m dev) (fatScanDir m d cb ctx) s =
      (foldExit (scanStep cb) (lfnInit m, ctx) (s.walkedRecords m dev d)).elim
        (fun st => if (walked m s.fat d).length < m.fuel then some ((false, st.2), s) else none)
        fun r => some (r, s) := by
  rw [fatScanDir, exec_bind, exec_scanDevice hr, Fs.walkedRecords, Fs.deviceRecords, foldExit_map]
  cases foldExit (fun st p => scanStep cb st (recOf (s.storage.blk.disks.sector dev) p))
    (lfnInit m, ctx) (slots m (walked m s.fat d)) with
  | inr r => rfl
  | inl st =>
    split_ifs <;> rfl

/-! ## Paths -/

theorem wlp_fatScanFind (hr : s.storage.blk.disks.ReadsOk) (d : ℕ) (want : Str) :
    wlp (fatImpl m dev) (fatScanFind m d want) (fun _ s' => s' = s) s := by
  rw [fatScanFind, wlp_bind]
  intro x s' hrun
  rw [exec_fatScanDir hr] at hrun
  cases hfold : foldExit (scanStep (fatScanFindCb want)) (lfnInit m, none)
      (s.walkedRecords m dev d) with
  | inl st =>
    rw [hfold, Sum.elim_inl] at hrun
    split_ifs at hrun
    cases hrun
    exact (wlp_pure _ _ _).mpr rfl
  | inr x =>
    rw [hfold] at hrun
    cases hrun
    exact (wlp_pure _ _ _).mpr rfl

/-- **Path resolution leaves the state alone.** -/
theorem wlp_resolveFrom (hr : s.storage.blk.disks.ReadsOk) (trailing : Bool) (comps : List Str) :
    ∀ cur : ℕ, wlp (fatImpl m dev) (resolveFrom m trailing cur comps) (fun _ s' => s' = s) s := by
  induction comps with
  | nil => exact fun _ => (wlp_pure _ _ _).mpr rfl
  | cons comp rest ih =>
    intro cur
    rw [resolveFrom]
    by_cases hlen : 56 ≤ comp.length
    · rw [if_pos hlen]
      exact (wlp_pure _ _ _).mpr rfl
    rw [if_neg hlen, wlp_bind]
    refine wlp_mono (wlp_fatScanFind hr cur comp) fun found s' hs' => ?_
    subst hs'
    cases found with
    | none => exact (wlp_pure _ _ _).mpr rfl
    | some e =>
      dsimp only
      split_ifs
      · exact (wlp_pure _ _ _).mpr rfl
      · exact (wlp_pure _ _ _).mpr rfl
      · exact (wlp_pure _ _ _).mpr rfl
      · exact ih e.clus

end Lnxrm.Fat32
