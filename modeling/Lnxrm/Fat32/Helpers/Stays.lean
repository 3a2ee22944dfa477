import Lnxrm.Fat32.Helpers.Looks

/-!
# FAT32 — the functions that stay in the data area

Proof layer. A record is found at a place of a cluster, so it lies in the
data area whatever was read on the way (`yields_direntLocate`,
`yields_dirClaimRun`, `yields_scanCached`). Creating and renaming go
through the cache and the journal there and store nothing in the table;
so do a removal without a chain to free and a write that needs no cluster
more.
-/

namespace Lnxrm.Fat32

open Prog (Only Yields only_pure only_perform yields_pure yields_any)

/-- The calls that leave the sectors below the data area alone. -/
def Stays (m : Mount) : FatOp → Prop
  | .readSector lba _ => m.dataStartLba ≤ lba
  | .writeSector lba _ => m.dataStartLba ≤ lba
  | .journalAdd lba _ => m.dataStartLba ≤ lba
  | .fatStore _ _ => False
  | _ => True

variable {m : Mount} {β γ : Type}

theorem Looks.stays (o : FatOp) (h : Looks m o) : Stays m o := by
  cases o with
  | readSector lba buf => exact h
  | devRead lba count => trivial
  | fatLoad clus => trivial
  | _ => exact h.elim

theorem stays_of_looks {p : Fat β} (h : p.Only (Looks m)) : p.Only (Stays m) := h.mono Looks.stays

/-! ## Where records are found -/

theorem yields_forChain {body : β → ℕ → Fat (β ⊕ γ)} {P : β → Prop} {P' : γ → Prop}
    (hbody : ∀ b c, P b → (body b c).Yields (Sum.elim P P')) (fuel : ℕ) (b : β) (c : ℕ) (hb : P b) :
    (forChain m body fuel b c).Yields (Sum.elim P P') := by
  induction fuel generalizing b c with
  | zero => trivial
  | succ fuel ih =>
    rw [forChain]
    split
    · exact yields_pure hb
    · refine (hbody b c hb).bind fun r hr => ?_
      cases r with
      | inl b' => exact (yields_any _).bind fun c' _ => ih b' c' hr
      | inr r => exact yields_pure hr

theorem yields_scanDevice {f : β → DirentPos → Dirent → β ⊕ γ} {P : β → Prop} {P' : γ → Prop}
    (hf : ∀ b p e, m.dataStartLba ≤ p.lba → P b → Sum.elim P P' (f b p e)) (d : ℕ) (b : β)
    (hb : P b) : (scanDevice m d f b).Yields (Sum.elim P P') := by
  refine yields_forChain (fun b c hb => ?_) _ _ _ hb
  refine (yields_any _).bind fun r _ => yields_pure (foldExit_elim (fun b k _ hb => ?_) hb)
  exact hf b _ _ (Nat.le_add_right_of_le (clusterLba_ge m c)) hb

theorem yields_scanCached (d : ℕ) (f : β → Dirent → β ⊕ γ) (b : β) : (scanCached m d f b).Yields
      (Sum.elim (fun _ => True) fun r => m.dataStartLba ≤ r.2.1.lba) := by
  refine yields_forChain (fun b c _ => Yields.forEach (fun b s _ _ => ?_) b trivial) _ _ _ trivial
  refine (yields_any _).bind fun buf _ => yields_pure ?_
  split
  · trivial
  · rename_i r hr
    obtain ⟨-, k, -, b', -, -, hk⟩ := foldExit_inr hr
    split at hk
    · cases hk
    · cases hk
      exact Nat.le_add_right_of_le (clusterLba_ge m c)

/-- The records `dirent_locate` finds lie in the data area. -/
def DirentLoc.InData (m : Mount) (loc : DirentLoc) : Prop :=
  m.dataStartLba ≤ loc.pos.lba ∧ ∀ p ∈ loc.lfn, m.dataStartLba ≤ p.lba

theorem yields_direntLocate (d : ℕ) (sn : Fin 11 → UInt8) :
    (direntLocate m d sn).Yields fun r => ∀ loc, r = some loc → loc.InData m := by
  have hscan : (scanDevice m d (locateStep sn) []).Yields
      (Sum.elim (fun run => ∀ p ∈ run, m.dataStartLba ≤ p.lba)
        fun r => ∀ loc, r = some loc → loc.InData m) := by
    refine yields_scanDevice (fun run p e hp hrun => ?_) d [] (by simp)
    unfold locateStep
    split_ifs
    · exact fun _ h => by cases h
    · exact List.forall_mem_nil _
    · exact List.forall_mem_append.mpr ⟨hrun, by simpa using hp⟩
    · rintro loc ⟨⟩
      exact ⟨hp, fun q hq => hrun q (List.mem_of_mem_take hq)⟩
    · exact List.forall_mem_nil _
  refine hscan.bind fun r hr => ?_
  cases r with
  | inl run => exact yields_pure fun _ h => by cases h
  | inr loc => exact yields_pure hr

theorem yields_dirClaimRun (d need : ℕ) :
    (dirClaimRun m d need).Yields fun r => ∀ slots, r = .ok slots →
      slots.length = need ∧ ∀ p ∈ slots, m.dataStartLba ≤ p.lba := by
  unfold dirClaimRun
  split
  · exact yields_pure fun _ h => by cases h
  have hscan : (scanDevice m d (claimStep need) ([], false)).Yields
      (Sum.elim (fun st => ∀ p ∈ st.1, m.dataStartLba ≤ p.lba) fun r => ∀ slots, r = .ok slots →
          slots.length = need ∧ ∀ p ∈ slots, m.dataStartLba ≤ p.lba) := by
    refine yields_scanDevice (fun ⟨run, inTail⟩ p e hp hrun => ?_) d ([], false) (by simp)
    have happ : ∀ q ∈ run ++ [p], m.dataStartLba ≤ q.lba :=
      List.forall_mem_append.mpr ⟨hrun, by simpa using hp⟩
    unfold claimStep
    dsimp only
    split_ifs with _ _ hlen
    · exact fun _ h => by cases h
    · exact List.forall_mem_nil _
    · rintro slots ⟨⟩
      exact ⟨hlen, happ⟩
    · exact happ
  refine hscan.bind fun r hr => ?_
  cases r with
  | inl st => exact yields_pure fun _ h => by cases h
  | inr r => exact yields_pure hr

/-! ## Updates -/

theorem stays_updateSector {lba : ℕ} (h : m.dataStartLba ≤ lba) (x : Sector) :
    (updateSector lba x).Only (Stays m) :=
  Only.bind (only_perform (o := FatOp.journalAdd _ _) h) fun _ =>
    Only.bind (only_perform (o := FatOp.writeSector _ _) h) fun _ => only_pure _

theorem stays_journalBegin : (fat32JournalBegin).Only (Stays m) :=
  only_perform (o := FatOp.journalBegin) trivial

theorem stays_journalCommit : (fat32JournalCommit).Only (Stays m) :=
  only_perform (o := FatOp.journalCommit) trivial

theorem stays_journalAbort : (fat32JournalAbort).Only (Stays m) :=
  only_perform (o := FatOp.journalAbort) trivial

theorem stays_parentEntryAdd (d : ℕ) (name : Str) (attr : UInt8) (c : ℕ) :
    (parentEntryAdd m d name attr c).Only (Stays m) := by
  refine stays_journalBegin.bind fun _ => ?_
  refine (stays_of_looks (looks_scanCached d _ _)).bind_of (yields_scanCached d _ _) fun r hr => ?_
  rcases r with _ | ⟨⟨⟩, pos, pbuf⟩
  · exact stays_journalAbort.bind fun _ => only_pure _
  · exact (stays_updateSector hr _).bind fun _ => stays_journalCommit.bind fun _ => only_pure _

theorem stays_direntWrite {p : DirentPos} (h : m.dataStartLba ≤ p.lba) (e : Dirent) :
    (direntWrite m p e).Only (Stays m) :=
  Only.bind (only_perform (o := FatOp.readSector _ _) h) fun _ => stays_updateSector h _

theorem stays_direntFree {p : DirentPos} (h : m.dataStartLba ≤ p.lba) :
    (direntFree m p).Only (Stays m) :=
  Only.bind (only_perform (o := FatOp.readSector _ _) h) fun _ => stays_updateSector h _

theorem stays_direntFreeAll (ps : List DirentPos) (h : ∀ p ∈ ps, m.dataStartLba ≤ p.lba) :
    (direntFreeAll m ps).Only (Stays m) := by
  induction ps with
  | nil => exact only_pure _
  | cons p ps ih =>
    rw [List.forall_mem_cons] at h
    exact (stays_direntFree h.1).bind fun _ => ih h.2

theorem stays_freeDirentRecord {loc : DirentLoc} (h : loc.InData m) :
    (freeDirentRecord m loc).Only (Stays m) :=
  (stays_direntFreeAll _ h.2).bind fun _ => stays_direntFree h.1

theorem stays_writeLfnRun (total : ℕ) (sum : UInt8) (nname : Str) (ps : List DirentPos)
    (h : ∀ p ∈ ps, m.dataStartLba ≤ p.lba) : (writeLfnRun m total sum nname ps).Only (Stays m) := by
  induction ps with
  | nil => exact only_pure _
  | cons p ps ih =>
    rw [List.forall_mem_cons] at h
    exact (stays_direntWrite h.1 _).bind fun _ => ih h.2

/-! ## Create and rename -/

/-- **`fat_create_impl`** stores nothing in the table. -/
theorem stays_fatCreateImpl (path : Str) : (fatCreateImpl m path).Only (Stays m) := by
  refine (stays_of_looks (looks_parentDirInit path)).bind fun r => ?_
  cases r with
  | error rc => exact only_pure _
  | ok pd => exact (stays_parentEntryAdd _ _ _ _).bind fun _ => only_pure _

theorem stays_renameInPlace {loc : DirentLoc} (h : loc.InData m) (nLfn : ℕ) (nname : Str)
    (short : Fin 11 → UInt8) (sum : UInt8) :
    (renameInPlace m loc nLfn nname short sum).Only (Stays m) := by
  refine stays_journalBegin.bind fun _ => ?_
  refine (stays_direntFreeAll _ fun p hp => h.2 p (List.mem_of_mem_take hp)).bind fun _ => ?_
  refine (stays_writeLfnRun _ _ _ _ fun p hp => h.2 p (List.mem_of_mem_drop hp)).bind fun _ => ?_
  exact (stays_direntWrite h.1 _).bind fun _ => stays_journalCommit.bind fun _ => only_pure _

theorem stays_repointDotdot (moved : Option (ℕ × ℕ)) : (repointDotdot m moved).Only (Stays m) := by
  rcases moved with _ | ⟨clus, parent⟩
  · exact only_pure _
  have hge := clusterLba_ge m clus
  refine Only.bind (only_perform (o := FatOp.readSector _ _) hge) fun r => ?_
  dsimp only
  split
  · exact only_pure _
  · split
    · exact only_pure _
    · exact stays_updateSector hge _

theorem stays_renameMove {loc : DirentLoc} (h : loc.InData m) {slots : List DirentPos} {nLfn : ℕ}
    (hlen : slots.length = nLfn + 1) (hslots : ∀ p ∈ slots, m.dataStartLba ≤ p.lba) (nname : Str)
    (short : Fin 11 → UInt8) (sum : UInt8) (moved : Option (ℕ × ℕ)) :
    (renameMove m loc slots nLfn nname short sum moved).Only (Stays m) := by
  have hlast : m.dataStartLba ≤ (slots.getD nLfn ⟨0, 0⟩).lba := by
    rw [List.getD_eq_getElem _ _ (by omega)]
    exact hslots _ (List.getElem_mem _)
  refine stays_journalBegin.bind fun _ => ?_
  refine (stays_writeLfnRun _ _ _ _ fun p hp => hslots p (List.mem_of_mem_take hp)).bind fun _ => ?_
  refine (stays_direntWrite hlast _).bind fun _ => (stays_freeDirentRecord h).bind fun _ => ?_
  exact (stays_repointDotdot _).bind fun _ => stays_journalCommit.bind fun _ => only_pure _

theorem stays_renameTo (ro : Resolve) (newDir : ℕ) (nname : Str) :
    (renameTo m ro newDir nname).Only (Stays m) := by
  refine (stays_of_looks (looks_fatScanDir _ _ _)).bind fun r => ?_
  dsimp only
  split
  · exact only_pure _
  refine (stays_of_looks (looks_movesIntoItself _ _)).bind fun inside => ?_
  split
  · exact only_pure _
  split
  · exact only_pure _
  refine (stays_of_looks (looks_direntLocate _ _)).bind_of (yields_direntLocate _ _) fun r hr => ?_
  cases r with
  | none => exact only_pure _
  | some loc =>
    have hloc := hr loc rfl
    dsimp only
    split
    · exact stays_renameInPlace hloc _ _ _ _
    refine (stays_of_looks (looks_dirClaimRun _ _)).bind_of (yields_dirClaimRun _ _) fun r hr => ?_
    cases r with
    | error err => exact only_pure _
    | ok slots =>
      obtain ⟨hlen, hslots⟩ := hr slots rfl
      exact stays_renameMove hloc hlen hslots _ _ _ _

/-- **`fat_rename_impl`** stores nothing in the table. -/
theorem stays_fatRenameImpl (oldpath newpath : Str) :
    (fatRenameImpl m oldpath newpath).Only (Stays m) := by
  refine (stays_of_looks (looks_fatResolvePath _)).bind fun r => ?_
  cases r with
  | none => exact only_pure _
  | some ro =>
    dsimp only
    split
    · exact only_pure _
    split
    · exact only_pure _
    refine (stays_of_looks (looks_resolveParent _ _ _)).bind fun r => ?_
    cases r with
    | error e => exact only_pure _
    | ok newDir =>
      dsimp only
      split
      · exact only_pure _
      · exact stays_renameTo ro newDir _

/-! ## Removing, reading and writing -/

theorem stays_removeRecord {loc : DirentLoc} (h : loc.InData m) {clus : ℕ} (hclus : clus < 2) :
    (removeRecord m loc clus).Only (Stays m) := by
  have hfree : freeChain m m.fuel clus = pure () := by
    rw [Mount.fuel, freeChain, if_neg (by omega)]
  unfold removeRecord
  rw [hfree]
  refine stays_journalBegin.bind fun _ => (stays_freeDirentRecord h).bind fun _ => ?_
  exact (only_pure _).bind fun _ => stays_journalCommit.bind fun _ => only_pure _

theorem looks_skipClusters (fuel skip clus : ℕ) : (skipClusters m fuel skip clus).Only (Looks m) := by
  induction fuel generalizing skip clus with
  | zero => trivial
  | succ fuel ih =>
    rw [skipClusters]
    split
    · exact (looks_fatNextCluster clus).bind fun next => ih _ next
    · exact only_pure _

theorem stays_transfer {n : ℕ} {body : β → Cursor → Fat (Option β)}
    (hbody : ∀ b cu, (body b cu).Only (Stays m)) (turns : ℕ) (b : β) (cu : Cursor) :
    (transfer m n body turns b cu).Only (Stays m) := by
  induction turns generalizing b cu with
  | zero => exact only_pure _
  | succ turns ih =>
    rw [transfer]
    split
    · refine (hbody b cu).bind fun r => ?_
      cases r with
      | none => exact only_pure _
      | some b' =>
        have hadv : (cu.advance m n).Only (Stays m) := by
          unfold Cursor.advance
          dsimp only
          split
          · exact (stays_of_looks (looks_fatNextCluster _)).bind fun _ => only_pure _
          · exact only_pure _
        exact hadv.bind fun cu' => ih b' cu'
    · exact only_pure _

theorem cursor_lba_ge (cu : Cursor) : m.dataStartLba ≤ cu.lba m :=
  Nat.le_add_right_of_le (clusterLba_ge m cu.clus)

theorem stays_fatReadImpl (r : Resolve) (off : ℕ) (ubuf : Option (ℕ → UInt8)) (n : ℕ) :
    (fatReadImpl m r off ubuf n).Only (Stays m) := by
  unfold fatReadImpl
  split_ifs
  · exact only_pure _
  · exact only_pure _
  dsimp only
  split
  · exact only_pure _
  split
  · exact only_pure _
  refine (stays_of_looks (looks_skipClusters _ _ _)).bind fun ⟨skip, clus⟩ => ?_
  refine Only.bind (stays_transfer (fun buf cu => ?_) _ _ _) fun _ => only_pure _
  refine Only.bind (only_perform (o := FatOp.devRead _ _) trivial) fun ⟨ret, tmp⟩ => ?_
  dsimp only
  split <;> exact only_pure _

theorem stays_writeChunk (n : ℕ) (buf : ℕ → UInt8) (tmp : Sector) (cu : Cursor) :
    (writeChunk m n buf tmp cu).Only (Stays m) :=
  Only.bind (only_perform (o := FatOp.readSector _ _) (cursor_lba_ge cu)) fun _ =>
    (stays_updateSector (cursor_lba_ge cu) _).bind fun _ => only_pure _

theorem stays_writeBack (r : Resolve) : (writeBack m r).Only (Stays m) := by
  refine (stays_of_looks (looks_scanCached _ _ _)).bind_of (yields_scanCached _ _ _) fun res hr => ?_
  rcases res with _ | ⟨_ | _, pos, dbuf⟩
  · exact stays_journalCommit.bind fun _ => only_pure _
  · exact stays_journalCommit.bind fun _ => only_pure _
  · exact (stays_updateSector hr _).bind fun _ => stays_journalCommit.bind fun _ => only_pure _

end Lnxrm.Fat32
