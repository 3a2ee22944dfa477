import Lnxrm.Fat32.Helpers.Layout
import Lnxrm.Fat32.Volume

/-!
# FAT32 — what the driver's steps do to the volume

Proof layer: one rule for each primitive and each loop of the
driver, stated for an arbitrary postcondition. A loop over a directory
that only looks computes the fold over its records (`wp_scanDevice`,
`wp_scanCached`). Inside a transaction, `InTxn` says that replaying the
journal would change nothing; an update keeps that unless the journal is
full and already holds an older image of the sector.
-/

namespace Lnxrm.Fat32

open Function List
open Prog (wp wp_bind wp_pure wp_perform)

variable {m : Mount} {v : Vol} {β γ : Type}

/-! ## Primitives -/

@[simp]
theorem wp_fatReadSector {lba : ℕ} {buf : Sector} {Q : Int × Sector → Vol → Prop} :
    wp (volume m) (fatReadSector lba buf) Q v ↔ m.dataStartLba ≤ lba ∧ Q (0, v.data lba) v :=
  Iff.rfl

@[simp]
theorem wp_devRead {lba count : ℕ} {Q : Int × (ℕ → Sector) → Vol → Prop} :
    wp (volume m) (devRead lba count) Q v ↔
      (m.dataStartLba ≤ lba ∧ ∀ i < count, lba + i ∉ v.dirty) ∧
        Q (0, bufferOf count fun i => v.data (lba + i)) v :=
  Iff.rfl

@[simp]
theorem wp_fatLoad {clus : ℕ} {Q : ℕ → Vol → Prop} :
    wp (volume m) (fatLoad clus) Q v ↔ Q (v.fat clus) v :=
  ⟨fun h => h.2, fun h => ⟨trivial, h⟩⟩

@[simp]
theorem wp_fatStore {clus val : ℕ} {Q : Unit → Vol → Prop} : wp (volume m) (fatStore clus val) Q v ↔
      clus < m.maxCluster ∧ Q () { v with fat := update v.fat clus val } :=
  Iff.rfl

@[simp]
theorem wp_fatNextCluster {clus : ℕ} {Q : ℕ → Vol → Prop} :
    wp (volume m) (fatNextCluster m clus) Q v ↔ Q (nextOf m v.fat clus) v := by
  unfold fatNextCluster nextOf
  split <;> simp

/-- What `fat_set_entry` makes of the FAT: the top four bits stay. -/
def setEntry (fat : ℕ → ℕ) (clus val : ℕ) : ℕ → ℕ :=
  update fat clus (fat clus / 2 ^ 28 * 2 ^ 28 + val % 2 ^ 28)

theorem setEntry_self (fat : ℕ → ℕ) (clus val : ℕ) :
    setEntry fat clus val clus % 2 ^ 28 = val % 2 ^ 28 := by
  rw [setEntry, update_self]
  omega

theorem setEntry_of_ne {fat : ℕ → ℕ} {clus val c : ℕ} (h : c ≠ clus) :
    setEntry fat clus val c = fat c :=
  update_of_ne h _ _

theorem wp_fatSetEntry {clus val : ℕ} {Q : Unit → Vol → Prop} (hc : clus < m.maxCluster)
    (h : Q () { v with fat := setEntry v.fat clus val }) :
    wp (volume m) (fatSetEntry m clus val) Q v := by
  unfold fatSetEntry
  rw [if_neg (by omega)]
  simp only [wp_bind, wp_fatLoad, wp_fatStore]
  exact ⟨hc, h⟩

theorem wp_fatFindFreeCluster {Q : ℕ → Vol → Prop}
    (hsome : ∀ c, IsFree m v.fat c → Q c v) (hnone : (∀ c, ¬ IsFree m v.fat c) → Q 0 v) :
    wp (volume m) (fatFindFreeCluster m) Q v := by
  unfold fatFindFreeCluster
  rw [wp_bind]
  refine Prog.wp_forEach_of_reads
    (f := fun _ i => if v.fat i % 2 ^ 28 = 0 then .inr i else .inl ()) (fun _ i _ Q hQ => ?_) () ?_
  · simpa using hQ
  cases hr : foldExit (fun (_ : Unit) i => if v.fat i % 2 ^ 28 = 0 then Sum.inr i else .inl ()) ()
      (range' 2 (m.maxCluster - 2)) with
  | inr i =>
    obtain ⟨l₁, j, l₂, -, hl, -, hj⟩ := foldExit_inr hr
    have hmem : j ∈ range' 2 (m.maxCluster - 2) := by rw [hl]; simp
    rw [mem_range'_1] at hmem
    split at hj
    · rename_i h0
      obtain rfl := Sum.inr.inj hj
      exact hsome j ⟨by omega, by omega, h0⟩
    · cases hj
  | inl u =>
    refine hnone fun c hc => ?_
    have hmem : c ∈ range' 2 (m.maxCluster - 2) := by
      rw [mem_range'_1]
      have := hc.1
      have := hc.2.1
      omega
    obtain ⟨_, _, hi⟩ := foldExit_inl hr hmem
    rw [if_pos hc.2.2] at hi
    cases hi

/-! ## Loops -/

theorem Mount.lt_fuel {m : Mount} {n : ℕ} (h : n ≤ m.maxCluster) : n < m.fuel := by
  unfold Mount.fuel
  omega

/-- Where the loops over a chain stop. -/
abbrev Ends (c : ℕ) : Prop := clusterIsEoc c = true ∨ c < 2

/-- **A loop over a chain whose body only looks** is the fold over it. -/
theorem wp_forChain_of_reads {body : β → ℕ → Fat (β ⊕ γ)} {f : β → ℕ → β ⊕ γ} {c fuel : ℕ}
    {l : List ℕ} {Q : β ⊕ γ → Vol → Prop} (hw : Walk (nextOf m v.fat) Ends c l)
    (hbody : ∀ b, ∀ x ∈ l, ∀ Q : β ⊕ γ → Vol → Prop, Q (f b x) v → wp (volume m) (body b x) Q v)
    (hfuel : l.length < fuel) (b : β) (hQ : Q (foldExit f b l) v) :
    wp (volume m) (forChain m body fuel b c) Q v := by
  induction l generalizing c fuel b with
  | nil =>
    obtain ⟨fuel, rfl⟩ := Nat.exists_eq_succ_of_ne_zero (Nat.ne_of_gt hfuel)
    have hc : Ends c := hw
    rw [forChain, if_pos hc]
    exact hQ
  | cons x l ih =>
    obtain ⟨rfl, hns, hrest⟩ := hw
    obtain ⟨fuel, rfl⟩ := Nat.exists_eq_succ_of_ne_zero (Nat.ne_zero_of_lt hfuel)
    rw [forChain, if_neg hns, wp_bind]
    refine hbody b x (by simp) _ ?_
    rw [foldExit] at hQ
    cases hf : f b x with
    | inl b' =>
      rw [hf] at hQ
      simp only [wp_bind, wp_fatNextCluster]
      exact ih hrest (fun b y hy => hbody b y (by simp [hy])) (by simpa using hfuel) b' hQ
    | inr r =>
      rw [hf] at hQ
      exact hQ

theorem range_mul_sixteen (n : ℕ) :
    List.range (n * 16) = (List.range n).flatMap fun s => (List.range 16).map (s * 16 + ·) := by
  induction n with
  | zero => rfl
  | succ n ih =>
    rw [Nat.succ_mul, range_add, ih, range_succ (n := n), flatMap_append]
    simp

theorem clusterSlots_eq (m : Mount) (c : ℕ) : (clusterSectors m c).flatMap sectorSlots =
      (List.range (m.clusterSize / direntSize)).map fun k =>
        ⟨clusterLba m c + k * direntSize / sectorSize, k * direntSize % sectorSize⟩ := by
  have hcs : m.clusterSize / direntSize = m.sectorsPerCluster * 16 := by
    simp only [Mount.clusterSize, sectorSize, direntSize]
    omega
  rw [hcs, range_mul_sixteen, map_flatMap, clusterSectors, flatMap_map]
  refine flatMap_congr fun s _ => ?_
  rw [sectorSlots, map_map]
  refine map_congr_left fun k hk => ?_
  simp only [mem_range, sectorSize, direntSize, Function.comp_apply] at hk ⊢
  congr 1 <;> omega

/-- **A scan past the cache** is the fold over the directory's records. -/
theorem wp_scanDevice {f : β → DirentPos → Dirent → β ⊕ γ} {d : ℕ} {l : List ℕ}
    {Q : β ⊕ γ → Vol → Prop} (hw : Walk (nextOf m v.fat) Ends d l) (hlen : l.length ≤ m.maxCluster)
    (hclean : ∀ lba ∈ sectors m l, lba ∉ v.dirty) (b : β)
    (hQ : Q (foldExit (fun b p => f b p (recOf v.data p)) b (slots m l)) v) :
    wp (volume m) (scanDevice m d f b) Q v := by
  refine wp_forChain_of_reads
    (f := fun b c => foldExit (fun b p => f b p (recOf v.data p)) b
      ((clusterSectors m c).flatMap sectorSlots)) hw (fun b c hc Q hQ => ?_)
    (Mount.lt_fuel hlen) b ?_
  · refine ⟨⟨clusterLba_ge m c, fun i hi => hclean _ (mem_sectors.mpr ⟨c, hc, i, hi, rfl⟩)⟩, ?_⟩
    rw [clusterSlots_eq, foldExit_map] at hQ
    refine cast (congrArg (Q · v) (foldExit_congr (fun b k hk => ?_) b)) hQ
    have hlt : k * direntSize / sectorSize < m.sectorsPerCluster := by
      simp only [mem_range, Mount.clusterSize, sectorSize, direntSize] at hk ⊢
      omega
    simp only [recOf, bufferOf, if_pos hlt]
  · rwa [slots, sectors, flatMap_assoc, foldExit_flatMap] at hQ

/-- The fold a cached scan computes: with a result, the place it was
found at. -/
def findIn (data : ℕ → Sector) (f : β → Dirent → β ⊕ γ) (b : β) (ps : List DirentPos) :
    β ⊕ (γ × DirentPos) :=
  foldExit (fun b p => (f b (recOf data p)).map id fun r => (r, p)) b ps

/-- One sector of a cached scan. -/
def scanSector (data : ℕ → Sector) (f : β → Dirent → β ⊕ γ) (st : β × Sector) (lba : ℕ) :
    (β × Sector) ⊕ (γ × DirentPos × Sector) :=
  (findIn data f st.1 (sectorSlots lba)).map (fun b => (b, data lba)) fun r => (r.1, r.2, data lba)

theorem scanSector_eq (data : ℕ → Sector) (f : β → Dirent → β ⊕ γ) (st : β × Sector) (lba : ℕ) :
    scanSector data f st lba =
      match foldExit (fun b k =>
          match f b (recAt (data lba) (k * direntSize)) with
          | .inl b => .inl b
          | .inr r => .inr (r, (⟨lba, k * direntSize⟩ : DirentPos), data lba))
        st.1 (List.range (sectorSize / direntSize)) with
      | .inl b => .inl (b, data lba)
      | .inr r => .inr r := by
  have hcode : foldExit (fun b k =>
        match f b (recAt (data lba) (k * direntSize)) with
        | .inl b => .inl b
        | .inr r => .inr (r, (⟨lba, k * direntSize⟩ : DirentPos), data lba))
      st.1 (List.range (sectorSize / direntSize)) =
      (findIn data f st.1 (sectorSlots lba)).map id fun r => (r.1, r.2, data lba) := by
    rw [findIn, sectorSlots, foldExit_map, ← foldExit_mapExit]
    refine foldExit_congr (fun b k _ => ?_) _
    simp only [recOf]
    cases f b (recAt (data lba) (k * direntSize)) <;> rfl
  rw [hcode, scanSector]
  cases findIn data f st.1 (sectorSlots lba) <;> rfl

theorem foldExit_scanSector (data : ℕ → Sector) (f : β → Dirent → β ⊕ γ) (lbas : List ℕ) :
    ∀ (b : β) (buf : Sector), ∃ buf', foldExit (scanSector data f) (b, buf) lbas =
      (findIn data f b (lbas.flatMap sectorSlots)).map (fun b => (b, buf'))
        fun r => (r.1, r.2, data r.2.lba) := by
  induction lbas with
  | nil => exact fun b buf => ⟨buf, rfl⟩
  | cons lba lbas ih =>
    intro b buf
    rw [flatMap_cons, findIn, foldExit_append, foldExit, scanSector, findIn]
    cases hf : foldExit (fun b p => (f b (recOf data p)).map id fun r => (r, p)) b
        (sectorSlots lba) with
    | inl b' => exact ih b' (data lba)
    | inr r =>
      obtain ⟨l₁, p, l₂, b', hl, -, hp⟩ := foldExit_inr hf
      have hmem : p ∈ sectorSlots lba := by rw [hl]; simp
      have hr : r.2 = p := by
        cases hfp : f b' (recOf data p) with
        | inl b'' => simp [hfp] at hp
        | inr r' =>
          rw [hfp] at hp
          exact (congrArg Prod.snd (Sum.inr.inj hp)).symm
      refine ⟨buf, ?_⟩
      simp only [Sum.map_inr, hr, (mem_sectorSlots.mp hmem).1]

/-- **A scan through the cache** finds the first record that stops it. -/
theorem wp_scanCached {f : β → Dirent → β ⊕ γ} {d : ℕ} {l : List ℕ} {b : β}
    {Q : (β × Sector) ⊕ (γ × DirentPos × Sector) → Vol → Prop}
    (hw : Walk (nextOf m v.fat) Ends d l) (hlen : l.length ≤ m.maxCluster)
    (hinl : ∀ b' buf, findIn v.data f b (slots m l) = .inl b' → Q (.inl (b', buf)) v)
    (hinr : ∀ r p, findIn v.data f b (slots m l) = .inr (r, p) → Q (.inr (r, p, v.data p.lba)) v) :
    wp (volume m) (scanCached m d f b) Q v := by
  refine wp_forChain_of_reads
    (f := fun st c => foldExit (scanSector v.data f) st (clusterSectors m c)) hw
    (fun st c hc Q hQ => ?_) (Mount.lt_fuel hlen) (b, m.junk) ?_
  · rw [clusterSectors, foldExit_map] at hQ
    refine Prog.wp_forEach_of_reads (fun st s _ Q hQ => ?_) st hQ
    have := clusterLba_ge m c
    simp only [wp_bind, wp_fatReadSector, wp_pure]
    refine ⟨by omega, ?_⟩
    refine cast (congrArg (Q · v) ?_) hQ
    exact scanSector_eq v.data f st _
  · rw [← foldExit_flatMap]
    obtain ⟨buf', hfold⟩ := foldExit_scanSector v.data f (sectors m l) b m.junk
    rw [show l.flatMap (fun c => clusterSectors m c) = sectors m l from rfl, hfold]
    cases hfind : findIn v.data f b ((sectors m l).flatMap sectorSlots) with
    | inl b' => exact hinl b' buf' hfind
    | inr r => exact hinr r.1 r.2 hfind

/-! ## Transactions -/

/-- **Inside a transaction** that has updated the sectors `ks`: replaying
the journal would change nothing. -/
structure InTxn (v : Vol) (ks : List ℕ) : Prop where
  active : v.active = true
  current : applyWrites v.log v.data = v.data
  keys : ∀ e ∈ v.log, e.1 ∈ ks
  room : v.log.length ≤ ks.length

theorem wp_fat32JournalBegin {Q : Int → Vol → Prop} (h : v.active = false)
    (hQ : InTxn { v with active := true, log := [] } [] → Q 0 { v with active := true, log := [] }) :
    wp (volume m) fat32JournalBegin Q v :=
  ⟨h, hQ ⟨rfl, rfl, by simp, Nat.le_refl _⟩⟩

theorem wp_fat32JournalCommit {Q : Int → Vol → Prop} {ks : List ℕ} (h : InTxn v ks)
    (hQ : Q 0 { v with active := false, log := [], dirty := ∅ }) :
    wp (volume m) fat32JournalCommit Q v :=
  ⟨⟨h.active, h.current⟩, hQ⟩

theorem wp_fat32JournalAbort {Q : Int → Vol → Prop}
    (hQ : Q 0 { v with active := false, log := [] }) : wp (volume m) fat32JournalAbort Q v :=
  ⟨trivial, hQ⟩

/-- Replaying a journal does not see what a sector it has no image of
holds. -/
theorem applyWrites_update_of_not_mem {log : List (ℕ × Sector)} {data : ℕ → Sector}
    (h : applyWrites log data = data) {lba : ℕ} (x : Sector) (hlba : ∀ e ∈ log, e.1 ≠ lba) :
    applyWrites log (update data lba x) = update data lba x := by
  funext k
  by_cases hk : k = lba
  · subst hk
    exact applyWrites_of_forall_ne hlba
  · rw [applyWrites_congr (g := data) (Or.inr (update_of_ne hk _ _)), h, update_of_ne hk]

/-- The volume after an update of a sector, with the journal it leaves. -/
def Vol.put (v : Vol) (lba : ℕ) (x : Sector) (log : List (ℕ × Sector)) : Vol :=
  { v with
    data := update v.data lba x
    dirty := insert lba v.dirty
    log := log }

@[simp] theorem Vol.put_data (lba : ℕ) (x : Sector) (log : List (ℕ × Sector)) :
    (v.put lba x log).data = update v.data lba x := rfl

@[simp] theorem Vol.put_fat (lba : ℕ) (x : Sector) (log : List (ℕ × Sector)) :
    (v.put lba x log).fat = v.fat := rfl

@[simp] theorem Vol.put_log (lba : ℕ) (x : Sector) (log : List (ℕ × Sector)) :
    (v.put lba x log).log = log := rfl

/-- **An update inside a transaction.** The image is dropped if the
journal is full; then it must hold none of the sector. -/
theorem wp_updateSector {lba : ℕ} {x : Sector} {ks : List ℕ} {Q : Unit → Vol → Prop}
    (h : InTxn v ks) (hl : m.dataStartLba ≤ lba)
    (hlim : ks.length < Block.maxJournalEntries ∨ lba ∉ ks)
    (hQ : ∀ log, InTxn (v.put lba x log) (lba :: ks) → Q () (v.put lba x log)) :
    wp (volume m) (updateSector lba x) Q v := by
  unfold updateSector
  rw [wp_bind]
  refine ⟨⟨h.active, hl⟩, ?_⟩
  have hroom := h.room
  by_cases hfull : Block.maxJournalEntries ≤ v.log.length
  · have hact : (volume m).act (.journalAdd lba x) v = (Errno.enoent, v) := if_pos hfull
    rw [hact]
    refine ⟨hl, hQ v.log ⟨h.active, ?_, ?_, ?_⟩⟩
    · refine applyWrites_update_of_not_mem h.current x fun e he heq => ?_
      rcases hlim with hlt | hmem
      · omega
      · exact hmem (heq ▸ h.keys e he)
    · exact fun e he => mem_cons_of_mem _ (h.keys e he)
    · simpa using Nat.le_succ_of_le hroom
  have hact : (volume m).act (.journalAdd lba x) v =
      ((0 : Int), { v with log := v.log ++ [(lba, x)] }) := if_neg hfull
  rw [hact]
  refine ⟨hl, hQ (v.log ++ [(lba, x)]) ⟨h.active, ?_, ?_, by simpa using hroom⟩⟩
  · show applyWrites (v.log ++ [(lba, x)]) (update v.data lba x) = update v.data lba x
    rw [applyWrites_append, applyWrites_cons, applyWrites_nil]
    funext k
    by_cases hk : k = lba
    · subst hk
      simp
    · rw [update_of_ne hk,
        applyWrites_congr (g := v.data) (Or.inr (update_of_ne hk _ _)), h.current,
        update_of_ne hk]
  · intro e he
    rcases mem_append.mp he with he | he
    · exact mem_cons_of_mem _ (h.keys e he)
    · rw [mem_singleton.mp he]
      exact mem_cons_self

end Lnxrm.Fat32
