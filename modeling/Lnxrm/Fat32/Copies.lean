import Lnxrm.Common.Run
import Lnxrm.Fat32.Helpers.Apart
import Lnxrm.Fat32.Helpers.FileIo
import Lnxrm.Fat32.Helpers.Stays
import Lnxrm.Fat32.Mounted

/-!
# FAT32 — the copies of the table

`fat_mount` takes volumes with one or two copies of the FAT and lays the
data area out behind them, but `fat_set_entry` writes the sector it
touched to the first copy only. The copies of a volume stay equal as long
as there is one only, or no operation stores an entry
(`copies_stay_equal`). With two, the first `mkdir` parts them
(`mkdir_parts_copies`).
-/

namespace Lnxrm.Fat32

open Block (Confined LinesIn)
open Prog (wlp wlp_bind wlp_pure wlp_perform wlp_mono Only)

variable {δ : Type} [DecidableEq δ] {m : Mount} {dev : δ} {s₀ s s' : Fs δ} {β : Type}

/-- `num_fats` and `fatsz` of a volume `fat_mount` accepts: the copies lie
below the data area, and each holds an entry for every cluster. -/
structure Copies (m : Mount) where
  numFats : ℕ
  fatsz : ℕ
  num : numFats = 1 ∨ numFats = 2
  entries : m.maxCluster < fatsz * sectorSize / 4
  layout : m.reservedSectors + numFats * fatsz ≤ m.dataStartLba

/-- **All copies of the table are equal on the device.** -/
def Copies.Equal (g : Copies m) (dev : δ) (s : Fs δ) : Prop :=
  ∀ i < g.numFats, ∀ k < g.fatsz, ∀ j < sectorSize,
    s.storage.blk.disks.sector dev (m.reservedSectors + i * g.fatsz + k) j =
      s.storage.blk.disks.sector dev (m.reservedSectors + k) j

/-- **The storage when the volume is mounted**: `fat_mount` has read past
the cache and initialised the journal. -/
structure JustMounted (m : Mount) (dev : δ) (s : Fs δ) : Prop where
  lines : LinesIn (fun dev' lba => dev' = dev → m.dataStartLba ≤ lba) s.storage.blk
  journal : s.storage.journal = { entries := [], active := false, dev := dev }

/-- Whatever the path resolves to has a property. -/
def Naming (m : Mount) (dev : δ) (s : Fs δ) (path : Str) (P : Dirent → Prop) : Prop :=
  ∀ r s', Fs.call m dev (fatResolvePath m path) s = some (some r, s') → P r.de

/-- **The call has no cluster to allocate and none to free**: there is none
left for a new directory, what is removed has no chain, and the chain of a
file that is written is long enough. -/
def LeavesTable (m : Mount) (dev : δ) (s : Fs δ) : FsOp → Prop
  | .ns (.mkdir _) => ∀ c, ¬ IsFree m s.fat c
  | .ns (.rmdir path) => Naming m dev s path fun de => de.isDir = false ∨ de.clus < 2
  | .ns (.unlink path) => Naming m dev s path fun de => de.isDir = true ∨ de.clus < 2
  | .write r off buf n => r.de.isDir = true ∨ buf = none ∨ ∃ l, HasChain m s.fat r.de.clus l ∧
      clustersFor m (max ((off + clampIo n) % 2 ^ 64) r.de.filesize) ≤ l.length
  | _ => True

/-! ## What stays -/

/-- **Everything below the data area is as it was.** -/
structure Kept (m : Mount) (dev : δ) (s₀ s : Fs δ) : Prop where
  blk : Confined (fun dev' lba => dev' = dev → m.dataStartLba ≤ lba) s₀.storage.blk s.storage.blk
  dev_eq : s.storage.journal.dev = dev
  logged : ∀ e ∈ s.storage.journal.entries, m.dataStartLba ≤ e.lba
  fat : s.fat = s₀.fat

theorem JustMounted.kept (h : JustMounted m dev s) : Kept m dev s s where
  blk := .refl h.lines
  dev_eq := by rw [h.journal]
  logged := by simp [h.journal]
  fat := rfl

namespace Kept

theorem start (h : Kept m dev s₀ s) : Kept m dev s s := ⟨.refl h.blk.lines, h.dev_eq, h.logged, rfl⟩

theorem trans (h : Kept m dev s₀ s) (h' : Kept m dev s s') : Kept m dev s₀ s' :=
  ⟨h.blk.trans h'.blk, h'.dev_eq, h'.logged, h'.fat.trans h.fat⟩

theorem sector (h : Kept m dev s₀ s) {lba : ℕ} (hlba : lba < m.dataStartLba) :
    s.storage.blk.disks.sector dev lba = s₀.storage.blk.disks.sector dev lba :=
  h.blk.sector dev lba fun hP => absurd (hP rfl) (by omega)

/-- **One call of the driver** that stays in the data area. -/
theorem call (h : Kept m dev s₀ s) (o : FatOp) (ho : Stays m o) :
    Kept m dev s₀ (fatImpl m dev o s).2 := by
  cases o with
  | readSector lba buf =>
    have hP : dev = dev → m.dataStartLba ≤ lba := fun _ => ho
    exact ⟨h.blk.trans (Block.blkCacheRead_confined h.blk.lines hP (some buf)), h.dev_eq, h.logged,
      h.fat⟩
  | writeSector lba buf =>
    have hP : dev = dev → m.dataStartLba ≤ lba := fun _ => ho
    exact ⟨h.blk.trans (Block.blkCacheWrite_confined h.blk.lines hP (some buf)), h.dev_eq, h.logged,
      h.fat⟩
  | devRead lba count =>
    exact ⟨h.blk.trans (.disk_read h.blk.lines dev lba), h.dev_eq, h.logged, h.fat⟩
  | fatLoad clus => exact h
  | fatStore clus val => exact ho.elim
  | journalBegin =>
    simp only [fatImpl, Block.fat32JournalBegin]
    split
    · exact h
    · exact ⟨h.blk, h.dev_eq, List.forall_mem_nil _, h.fat⟩
  | journalAdd lba data =>
    simp only [fatImpl, Block.fat32JournalAdd]
    split
    · exact h
    split
    · exact h
    · have hlba : m.dataStartLba ≤ lba := ho
      exact ⟨h.blk, h.dev_eq, List.forall_mem_append.mpr ⟨h.logged, by simpa using hlba⟩, h.fat⟩
  | journalCommit =>
    have hc := Block.fat32JournalCommit_confined h.blk.lines fun e he _ => h.logged e he
    have hj : (Block.fat32JournalCommit s.storage).2.journal.dev = dev ∧
        ∀ e ∈ (Block.fat32JournalCommit s.storage).2.journal.entries, m.dataStartLba ≤ e.lba := by
      unfold Block.fat32JournalCommit
      dsimp only
      split
      · exact ⟨h.dev_eq, h.logged⟩
      split
      · exact ⟨h.dev_eq, List.forall_mem_nil _⟩
      · exact ⟨h.dev_eq, List.forall_mem_nil _⟩
    exact ⟨h.blk.trans hc, hj.1, hj.2, h.fat⟩
  | journalAbort => exact ⟨h.blk, h.dev_eq, List.forall_mem_nil _, h.fat⟩

theorem wlp_stays {p : Fat β} (h : Kept m dev s₀ s) (hp : p.Only (Stays m)) :
    wlp (fatImpl m dev) p (fun _ s' => Kept m dev s₀ s') s :=
  hp.keeps (fun o _ ho hs => hs.call o ho) h

/-! ## Operations that leave the table alone -/

theorem wlp_mkdir (h : Kept m dev s s) (hfull : ∀ c, ¬ IsFree m s.fat c) (path : Str) :
    wlp (fatImpl m dev) (fatMkdirImpl m path) (fun _ s' => Kept m dev s s') s := by
  unfold fatMkdirImpl
  rw [wlp_bind]
  refine wlp_mono (h.wlp_stays (stays_of_looks (looks_parentDirInit path))) fun r s₁ hs₁ => ?_
  cases r with
  | error rc => exact (wlp_pure _ _ _).mpr hs₁
  | ok pd =>
    rw [wlp_bind]
    refine wlp_mono (wlp_fatFindFreeCluster (fun _ h => h.fat) hs₁) fun c s₂ ⟨hs₂, hc⟩ => ?_
    have hc0 : c = 0 := by
      by_contra hne
      exact hfull c (hc hne)
    rw [if_pos hc0]
    exact (wlp_pure _ _ _).mpr hs₂

theorem wlp_resolve {path : Str} {P : Dirent → Prop} (h : Kept m dev s s)
    (hP : Naming m dev s path P) :
    wlp (fatImpl m dev) (fatResolvePath m path)
      (fun r s' => Kept m dev s s' ∧ ∀ r', r = some r' → P r'.de) s := by
  intro r s' hrun
  refine ⟨h.wlp_stays (stays_of_looks (looks_fatResolvePath path)) r s' hrun, ?_⟩
  rintro r' rfl
  exact hP r' s' hrun

theorem stays_locate_remove {clus : ℕ} (hclus : clus < 2) (d : ℕ) (sn : Fin 11 → UInt8) :
    Only (Stays m) (do
      match ← direntLocate m d sn with
      | none => pure Errno.enoent
      | some loc => removeRecord m loc clus) := by
  refine (stays_of_looks (looks_direntLocate d sn)).bind_of (yields_direntLocate d sn) fun r hr => ?_
  cases r with
  | none => exact Prog.only_pure _
  | some loc => exact stays_removeRecord (hr loc rfl) hclus

theorem wlp_rmdir {path : Str} (h : Kept m dev s s)
    (hP : Naming m dev s path fun de => de.isDir = false ∨ de.clus < 2) :
    wlp (fatImpl m dev) (fatRmdirImpl m path) (fun _ s' => Kept m dev s s') s := by
  unfold fatRmdirImpl
  rw [wlp_bind]
  refine wlp_mono (h.wlp_resolve hP) fun r s₁ ⟨hs₁, hr⟩ => ?_
  cases r with
  | none => exact (wlp_pure _ _ _).mpr hs₁
  | some r =>
    rcases hr r rfl with hdir | hclus
    · simpa [hdir] using hs₁
    · by_cases hdir : r.de.isDir = true <;> simpa [hdir, hclus] using hs₁

theorem wlp_unlink {path : Str} (h : Kept m dev s s)
    (hP : Naming m dev s path fun de => de.isDir = true ∨ de.clus < 2) :
    wlp (fatImpl m dev) (fatUnlinkImpl m path) (fun _ s' => Kept m dev s s') s := by
  unfold fatUnlinkImpl
  rw [wlp_bind]
  refine wlp_mono (h.wlp_resolve hP) fun r s₁ ⟨hs₁, hr⟩ => ?_
  cases r with
  | none => exact (wlp_pure _ _ _).mpr hs₁
  | some r =>
    dsimp only
    by_cases hdir : r.de.isDir = true
    · rw [if_pos hdir]
      exact (wlp_pure _ _ _).mpr hs₁
    · rw [if_neg hdir]
      exact hs₁.wlp_stays (stays_locate_remove ((hr r rfl).resolve_left hdir) _ _)

theorem wlp_fatNextCluster {clus : ℕ} {Q : ℕ → Fs δ → Prop} (hQ : Q (nextOf m s.fat clus) s) :
    wlp (fatImpl m dev) (fatNextCluster m clus) Q s := by
  unfold fatNextCluster
  unfold nextOf at hQ
  split
  · rename_i hle
    rw [if_pos hle] at hQ
    exact (wlp_pure _ _ _).mpr hQ
  · rename_i hlt
    rw [if_neg hlt] at hQ
    rw [wlp_bind]
    exact (wlp_perform _ _ _).mpr ((wlp_pure _ _ _).mpr hQ)

theorem wlp_chainTail {c fuel prev cnt : ℕ} {l : List ℕ} (hw : Walk (nextOf m s.fat) Ends c l) :
    wlp (fatImpl m dev) (chainTail m fuel prev cnt c)
      (fun r s' => s' = s ∧ r.2 = cnt + l.length) s := by
  induction l generalizing c fuel prev cnt with
  | nil =>
    cases fuel with
    | zero => exact nofun
    | succ fuel =>
      have hend : Ends c := hw
      rw [chainTail, if_neg (by rcases hend with h | h <;> simp [h])]
      exact (wlp_pure _ _ _).mpr ⟨rfl, rfl⟩
  | cons x l ih =>
    cases fuel with
    | zero => exact nofun
    | succ fuel =>
      obtain ⟨rfl, hns, hrest⟩ := hw
      rw [chainTail, if_pos ⟨by simpa using fun h => hns (Or.inl h),
        Nat.le_of_not_lt fun h => hns (Or.inr h)⟩, wlp_bind]
      refine wlp_fatNextCluster (wlp_mono (ih hrest) ?_)
      rintro r s' ⟨hs', hr⟩
      refine ⟨hs', ?_⟩
      rw [hr, List.length_cons]
      omega

theorem wlp_allocChain {first need : ℕ} {l : List ℕ} (hl : HasChain m s.fat first l)
    (hlen : clustersFor m need ≤ l.length) :
    wlp (fatImpl m dev) (allocChain m first need) (fun _ s' => s' = s) s := by
  have hcount : wlp (fatImpl m dev) (chainEnd m first) (fun r s' => s' = s ∧ r.2 = l.length) s := by
    unfold chainEnd
    rcases hl with ⟨rfl, rfl⟩ | ⟨hne, hl⟩
    · rw [if_neg (by simp), if_neg (by simp)]
      exact (wlp_pure _ _ _).mpr ⟨rfl, rfl⟩
    · rw [if_neg fun h => hne (hl.walk.eq_nil_of_stop h.2),
        if_pos fun h0 => hne ((HasChain.zero_iff (Or.inr ⟨hne, hl⟩)).mp h0)]
      refine wlp_mono (wlp_chainTail hl.toWalk) fun r s' ⟨hs', hr⟩ => ⟨hs', ?_⟩
      rw [hr, Nat.zero_add]
  unfold allocChain
  rw [wlp_bind]
  refine wlp_mono hcount fun ⟨prev, cnt⟩ s' ⟨hs', hr⟩ => ?_
  dsimp only at hr ⊢
  rw [hr, Nat.sub_eq_zero_of_le hlen, appendClusters]
  exact (wlp_pure _ _ _).mpr hs'

theorem wlp_write {r : Resolve} {off n : ℕ} {buf : Option (ℕ → UInt8)} (h : Kept m dev s s)
    (hg : r.de.isDir = true ∨ buf = none ∨ ∃ l, HasChain m s.fat r.de.clus l ∧
      clustersFor m (max ((off + clampIo n) % 2 ^ 64) r.de.filesize) ≤ l.length) :
    wlp (fatImpl m dev) (fatWriteImpl m r off buf n) (fun _ s' => Kept m dev s s') s := by
  unfold fatWriteImpl
  by_cases hdir : r.de.isDir = true
  · rw [if_pos hdir]
    exact (wlp_pure _ _ _).mpr h
  rw [if_neg hdir]
  cases buf with
  | none =>
    dsimp only
    split <;> exact (wlp_pure _ _ _).mpr h
  | some b =>
    obtain ⟨l, hl, hlen⟩ := (hg.resolve_left hdir).resolve_left (by simp)
    rw [wlp_bind]
    refine wlp_mono (h.wlp_stays stays_journalBegin) fun _ s₁ hs₁ => ?_
    rw [wlp_bind]
    refine wlp_mono (wlp_allocChain (hs₁.fat ▸ hl) hlen) ?_
    rintro clus _ rfl
    by_cases hc : clus = 0
    · rw [if_pos hc]
      exact hs₁.wlp_stays (stays_journalAbort.bind fun _ => Prog.only_pure _)
    · rw [if_neg hc]
      refine hs₁.wlp_stays ((stays_of_looks (looks_skipClusters _ _ _)).bind fun ⟨skip, c⟩ => ?_)
      refine (stays_transfer (stays_writeChunk _ _) _ _ _).bind fun _ => ?_
      exact (stays_writeBack _).bind fun _ => Prog.only_pure _

/-- **A call that has no cluster to allocate and none to free.** -/
theorem step (h : Kept m dev s s) {op : FsOp} (hg : LeavesTable m dev s op) :
    wlp (fatImpl m dev) (op.prog m) (fun _ s' => Kept m dev s s') s := by
  have hdrop : ∀ {β : Type} {p : Fat β}, wlp (fatImpl m dev) p (fun _ s' => Kept m dev s s') s →
      wlp (fatImpl m dev) (do let _ ← p) (fun _ s' => Kept m dev s s') s := by
    intro β p hp
    rw [wlp_bind]
    exact wlp_mono hp fun _ _ hs => (wlp_pure _ _ _).mpr hs
  cases op with
  | ns op =>
    refine hdrop ?_
    cases op with
    | create path => exact h.wlp_stays (stays_fatCreateImpl path)
    | mkdir path => exact h.wlp_mkdir hg path
    | unlink path => exact h.wlp_unlink hg
    | rmdir path => exact h.wlp_rmdir hg
    | rename oldpath newpath => exact h.wlp_stays (stays_fatRenameImpl oldpath newpath)
  | lookup path => exact hdrop (h.wlp_stays (stays_of_looks (looks_fatLookupImpl path)))
  | getdent r cookie => exact hdrop (h.wlp_stays (stays_of_looks (looks_fat32GetdentImpl r cookie)))
  | read r off ubuf n => exact hdrop (h.wlp_stays (stays_fatReadImpl r off ubuf n))
  | write r off buf n => exact hdrop (h.wlp_write hg)
  | freespace => exact hdrop (h.wlp_stays (stays_of_looks looks_fatFreespaceImpl))

end Kept

/-! ## Runs -/

theorem Copies.Equal.kept {g : Copies m} (h : g.Equal dev s₀) (hs : Kept m dev s₀ s) :
    g.Equal dev s := by
  intro i hi k hk j hj
  have hfit : m.reservedSectors + i * g.fatsz + k < m.dataStartLba := by
    have hl := g.layout
    have hle : (i + 1) * g.fatsz ≤ g.numFats * g.fatsz := Nat.mul_le_mul_right _ hi
    rw [Nat.add_mul, Nat.one_mul] at hle
    omega
  rw [hs.sector hfit, hs.sector (by omega)]
  exact h i hi k hk j hj

omit [DecidableEq δ] in
theorem Copies.equal_of_one (g : Copies m) (h : g.numFats = 1) (s : Fs δ) : g.Equal dev s := by
  intro i hi k _ j _
  have hi0 : i = 0 := by omega
  rw [hi0, Nat.zero_mul, Nat.add_zero]

/-- **The copies stay equal** in every run on a volume with one copy, and
in every run without a call that stores an entry. -/
theorem copies_stay_equal (g : Copies m) (hm : JustMounted m dev s) (heq : g.Equal dev s)
    (ops : List FsOp)
    (hg : Guarded (Fs.step m dev) (fun s op => g.numFats = 1 ∨ LeavesTable m dev s op) s ops)
    (hrun : runSteps (Fs.step m dev) s ops = some s') : g.Equal dev s' := by
  by_cases hone : g.numFats = 1
  · exact g.equal_of_one hone s'
  refine heq.kept (runSteps_guarded (I := Kept m dev s) (fun t op t' ht hop ht' => ?_) ops hm.kept
    hg hrun)
  obtain ⟨⟨u, t''⟩, hcall, rfl⟩ := Option.map_eq_some_iff.mp ht'
  exact ht.trans (ht.start.step (hop.resolve_left hone) u t'' hcall)

/-- A volume like `smallMount` with a second copy of the table. -/
def twoFats : Mount := { smallMount with dataStartLba := 3, fat_below := by decide }

/-- Its copies, of one sector each. -/
def twoFatsCopies : Copies twoFats where
  numFats := 2
  fatsz := 1
  num := by decide
  entries := by decide
  layout := by decide

/-- It is mounted with an empty root directory. -/
def twoFatsFs : Fs Unit :=
  let fat : ℕ → ℕ := fun c => if c = 2 then 0x0FFFFFFF else 0
  freshFs (fun lba => if lba = 1 ∨ lba = 2 then fatSector fat 0 else fun _ => 0) fat

theorem twoFatsFs_justMounted : JustMounted twoFats () twoFatsFs :=
  ⟨(freshFs_mounted twoFats _ _).lines, rfl⟩

theorem twoFatsFs_equal : twoFatsCopies.Equal () twoFatsFs := by
  intro i hi k hk j _
  obtain rfl : k = 0 := Nat.lt_one_iff.mp hk
  have hi2 : i < 2 := hi
  obtain rfl | rfl : i = 0 ∨ i = 1 := by omega
  · rfl
  · rfl

/-- Creating a file keeps the two copies equal. -/
theorem create_keeps_copies :
    ∃ s', runSteps (Fs.step twoFats ()) twoFatsFs [.ns (.create [98])] = some s' ∧
      twoFatsCopies.Equal () s' := by
  have hsome : (runSteps (Fs.step twoFats ()) twoFatsFs [.ns (.create [98])]).isSome = true := by
    decide +kernel
  obtain ⟨s', hs'⟩ := Option.isSome_iff_exists.mp hsome
  refine ⟨s', hs', copies_stay_equal twoFatsCopies twoFatsFs_justMounted twoFatsFs_equal _ ?_ hs'⟩
  refine ⟨Or.inr trivial, ?_⟩
  split <;> trivial

/-- **The first `mkdir` parts the copies**: the mark of its cluster is in
the first one only. -/
theorem mkdir_parts_copies : JustMounted twoFats () twoFatsFs ∧ twoFatsCopies.Equal () twoFatsFs ∧
      ∃ s', Fs.step twoFats () twoFatsFs (.ns (.mkdir [97])) = some s' ∧
        ¬ twoFatsCopies.Equal () s' := by
  refine ⟨twoFatsFs_justMounted, twoFatsFs_equal, ?_⟩
  have hbytes : (Fs.step twoFats () twoFatsFs (.ns (.mkdir [97]))).map (fun s' =>
      (s'.storage.blk.disks.sector () 1 12, s'.storage.blk.disks.sector () 2 12)) =
        some (0xFF, 0) := by
    decide +kernel
  obtain ⟨s', hs', hb⟩ := Option.map_eq_some_iff.mp hbytes
  refine ⟨s', hs', fun heq => ?_⟩
  have h12 := heq 1 (by decide) 0 (by decide) 12 (by decide)
  have hfst : s'.storage.blk.disks.sector () 1 12 = 0xFF := congrArg Prod.fst hb
  have hsnd : s'.storage.blk.disks.sector () 2 12 = 0 := congrArg Prod.snd hb
  exact absurd (hsnd.symm.trans (h12.trans hfst)) (by decide)

end Lnxrm.Fat32
