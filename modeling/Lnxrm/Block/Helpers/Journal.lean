import Lnxrm.Block.Helpers.Cache
import Lnxrm.Common.Store

/-!
# The block layer — the journal over the cache

A commit writes the journal's images straight to the device, under the
cache. It is harmless where each image is the newest contents of its
sector: then the device changes only toward the view, and the cache
settles (`settles_of_disks`). `commit_spec` says what a commit leaves
when that is so and nothing fails.
-/

namespace Lnxrm

namespace Block

variable {δ α : Type} [DecidableEq δ]

-- the flush is used through `blkCacheFlush_spec`; unfolding it unrolls 64 lines
seal blkCacheFlush

/-- The writes a list of journal entries stands for. -/
def images (es : List (JournalEntry α)) : List (ℕ × α) := es.map fun e => (e.lba, e.data)

/-- **Devices may change under the cache toward the view.** -/
theorem settles_of_disks {s : Blk δ α} (hs : CacheInv s) {d : Disks δ α}
    (hsec : ∀ dev lba, d.sector dev lba = s.disks.sector dev lba ∨
      d.sector dev lba = s.view dev lba)
    (hr : s.disks.ReadsOk → d.ReadsOk) (hw : s.disks.WritesOk → d.WritesOk) :
    Settles s { s with disks := d } := by
  have hhit : ∀ {i dev lba}, (s.cache i).hits dev lba = true → (s.cache i).dirty = false →
      (s.cache i).data = d.sector dev lba := by
    intro i dev lba hi hd
    rcases hsec dev lba with h | h
    · rw [h, hs.clean hi hd]
    · rw [h, view_of_hit hs hi]
  have hinv : CacheInv { s with disks := d } :=
    ⟨fun hi hj => hs.unique hi hj, fun hi hd => hhit hi hd, hs.named⟩
  refine ⟨hinv, fun dev lba => ?_, hsec, fun _ _ _ h h' => ⟨h, h'⟩, hr, hw⟩
  rcases hit_or_miss s dev lba with ⟨i, hi⟩ | hmiss
  · rw [view_of_hit hs hi, view_of_hit hinv (i := i) hi]
  · have hd : d.sector dev lba = s.view dev lba := by
      rcases hsec dev lba with h | h
      · rw [h, view_of_miss hmiss]
      · exact h
    rw [← hd]
    exact view_of_miss hmiss

/-- **The commit loop.** However it ends, the device holds the images of
some first part of the entries, and all of them when it returns `0`. -/
theorem commitEntries_spec (dev : δ) : ∀ (es : List (JournalEntry α)) (d : Disks δ α),
    (∀ e ∈ es, e.valid = true) →
    (∃ n, (∀ lba, (commitEntries dev es d).2.sector dev lba =
        applyWrites (images (es.take n)) (d.sector dev) lba) ∧
      ((commitEntries dev es d).1 = 0 → es.take n = es)) ∧
    (∀ dev', dev' ≠ dev → (commitEntries dev es d).2.sector dev' = d.sector dev') ∧
    (d.ReadsOk → (commitEntries dev es d).2.ReadsOk) ∧
    (d.WritesOk → (commitEntries dev es d).1 = 0 ∧ (commitEntries dev es d).2.WritesOk) := by
  intro es
  induction es with
  | nil =>
    intro d _
    exact ⟨⟨0, fun _ => rfl, fun _ => rfl⟩, fun _ _ => rfl, fun h => h, fun h => ⟨rfl, h⟩⟩
  | cons e es ih =>
    intro d hv
    have he : e.valid = true := hv e List.mem_cons_self
    cases hf : d.writeFault 0 with
    | none =>
      have heq : commitEntries dev (e :: es) d = commitEntries dev es { d with
          sector := setSector d.sector dev e.lba e.data
          writeFault := fun n => d.writeFault (n + 1) } := by
        simp [commitEntries, he, write_ok dev _ _ hf]
      rw [heq]
      obtain ⟨⟨n, hsec, hall⟩, hoth, hrd, hwr⟩ := ih { d with
        sector := setSector d.sector dev e.lba e.data
        writeFault := fun n => d.writeFault (n + 1) } fun e' he' => hv e' (List.mem_cons_of_mem _ he')
      refine ⟨⟨n + 1, fun lba => ?_, fun h => ?_⟩, fun dev' hne => ?_, hrd, fun h => hwr ?_⟩
      · rw [hsec]
        have hup : setSector d.sector dev e.lba e.data dev =
            Function.update (d.sector dev) e.lba e.data := by
          funext l
          by_cases hl : l = e.lba
          · subst hl; simp [setSector]
          · simp [setSector, hl]
        simp only [hup, List.take_succ_cons, images, List.map_cons, applyWrites_cons]
      · rw [List.take_succ_cons, hall h]
      · rw [hoth dev' hne]
        funext lba
        exact setSector_of_ne _ _ fun h => hne h.1
      · change (fun n => d.writeFault (n + 1)) = _
        rw [h]
    | some err =>
      have heq : commitEntries dev (e :: es) d =
          (err.1, { d with writeFault := fun n => d.writeFault (n + 1) }) := by
        simp [commitEntries, he, write_fails dev _ _ hf, err.2]
      rw [heq]
      refine ⟨⟨0, fun _ => rfl, fun h => absurd h err.2⟩, fun _ _ => rfl, fun h => h, fun h => ?_⟩
      rw [h] at hf
      simp at hf

/-- The journal's entries are sound: each was added by
`fat32_journal_add`, and the last image of a sector is what the view
holds for it. -/
structure JournalCurrent (s : Storage δ α) : Prop where
  valid : ∀ e ∈ s.journal.entries, e.valid = true
  newest : ∀ e ∈ s.journal.entries, ∀ f : ℕ → α,
    applyWrites (images s.journal.entries) f e.lba = s.blk.view s.journal.dev e.lba

/-- **What a commit leaves** when no device operation fails and no image
is stale: the view is kept and is on the device, every line of the
device is clean, and the journal is inactive and empty. -/
theorem commit_spec {s : Storage δ α} (hinv : CacheInv s.blk)
    (hw : s.blk.disks.WritesOk) (hact : s.journal.active = true) (hcur : JournalCurrent s) :
    (fat32JournalCommit s).1 = 0 ∧ Settles s.blk (fat32JournalCommit s).2.blk ∧
    (∀ i lba, ((fat32JournalCommit s).2.blk.cache i).hits s.journal.dev lba = true →
      ((fat32JournalCommit s).2.blk.cache i).dirty = false) ∧
    (∀ lba, (fat32JournalCommit s).2.blk.disks.sector s.journal.dev lba =
      s.blk.view s.journal.dev lba) ∧
    (fat32JournalCommit s).2.journal = { s.journal with entries := [], active := false } := by
  obtain ⟨⟨n, hsec, hall⟩, hoth, hrd, hwr⟩ :=
    commitEntries_spec s.journal.dev s.journal.entries s.blk.disks hcur.valid
  obtain ⟨hret, hw'⟩ := hwr hw
  have heq : fat32JournalCommit s = (0,
      { blk := (blkCacheFlush { s.blk with
          disks := (commitEntries s.journal.dev s.journal.entries s.blk.disks).2 } s.journal.dev).2
        journal := { s.journal with entries := [], active := false } }) := by
    simp [fat32JournalCommit, hact, hret]
  have hset : Settles s.blk { s.blk with
      disks := (commitEntries s.journal.dev s.journal.entries s.blk.disks).2 } := by
    refine settles_of_disks hinv (fun dev lba => ?_) hrd fun _ => hw'
    by_cases hdev : dev = s.journal.dev
    · subst hdev
      rw [hsec, hall hret]
      by_cases hk : ∃ e ∈ s.journal.entries, e.lba = lba
      · obtain ⟨e, he, rfl⟩ := hk
        exact Or.inr (hcur.newest e he _)
      · left
        refine applyWrites_of_forall_ne fun w hwm heq => hk ?_
        obtain ⟨e, he, rfl⟩ := List.mem_map.mp hwm
        exact ⟨e, he, heq⟩
    · exact Or.inl (by rw [hoth dev hdev])
  obtain ⟨hfl, -, hok⟩ := blkCacheFlush_spec hset.inv s.journal.dev
  rw [heq]
  refine ⟨rfl, hset.trans hfl, (hok hw').2, fun lba => ?_, rfl⟩
  rw [sector_eq_view_of_clean hfl.inv (hok hw').2, hfl.view, hset.view]

end Block

end Lnxrm
