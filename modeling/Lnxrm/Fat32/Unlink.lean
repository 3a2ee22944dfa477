import Lnxrm.Fat32.Helpers.Rewrites
import Lnxrm.Fat32.LongNames
import Lnxrm.Fat32.Terminator

/-!
# FAT32 — unlink removes one file

`fat_unlink_impl` looks a file up with `fat_scan_dir` and then looks for
its record again, by its eleven bytes, with `dirent_locate`. Where no two
records of a directory have the same eleven bytes the second search finds
the record of the first. Marking it and the long-name records in front of
it free, and freeing its chain, is all that happens to the volume
(`unlink_removes_one`).
-/

namespace Lnxrm.Fat32

open Function List
open Prog (wp)

variable {δ : Type} [DecidableEq δ] {m : Mount} {dev : δ} {s s' : Fs δ} {data : ℕ → Sector}
  {fat : ℕ → ℕ} {d c : ℕ} {l : List ℕ} {t : Target} {run : List DirentPos} {path : Str}

/-- The place holds a long-name record in use. -/
def IsLong (data : ℕ → Sector) (q : DirentPos) : Prop :=
  entryUsed (recOf data q) = true ∧ (recOf data q).isLfn = true

/-- The place holds a record in use that is no long-name record. -/
def IsShort (data : ℕ → Sector) (q : DirentPos) : Prop :=
  entryUsed (recOf data q) = true ∧ (recOf data q).isLfn = false

/-- **Directories in order**: no run of long-name records is longer than
`LFN_ENTRIES_MAX`, and no two other records, volume labels included, have
the same eleven bytes. -/
structure Orderly (m : Mount) (data : ℕ → Sector) (fat : ℕ → ℕ) : Prop where
  runs : ∀ {d A run B}, Reached m data fat d → slots m (chainOf m fat d) = A ++ run ++ B →
    (∀ q ∈ run, IsLong data q) → run.length ≤ lfnEntriesMax
  unique : ∀ {d p q}, Reached m data fat d → p ∈ slots m (chainOf m fat d) →
    q ∈ slots m (chainOf m fat d) → IsShort data p → IsShort data q →
    (recOf data p).name = (recOf data q).name → p = q

/-- **The removal of one file**: the record `t` with the long-name records
`run` in front of it, and the chain `l`. -/
structure RemovedFile (m : Mount) (dev : δ) (s s' : Fs δ) (t : Target) (run : List DirentPos)
    (l : List ℕ) : Prop where
  /-- the run lies in front of the record, and is as long as it can be -/
  front : ∃ A B, slots m (chainOf m s.fat t.dirCluster) = A ++ run ++ t.pos :: B ∧
    ∀ q, A.getLast? = some q → ¬ IsLong (s.contents dev) q
  long : ∀ q ∈ run, IsLong (s.contents dev) q
  /-- the first byte of each of these records, and no other byte -/
  bytes : ∀ lba, m.dataStartLba ≤ lba → ∀ off, s'.contents dev lba off =
    if ⟨lba, off⟩ ∈ run ++ [t.pos] then entE5 else s.contents dev lba off
  chain : HasChain m s.fat (recOf (s.contents dev) t.pos).clus l
  freed : ∀ c, IsFree m s'.fat c ∧ ¬ IsFree m s.fat c ↔ c ∈ l
  kept : ∀ c, c ∉ l → s'.fat c = s.fat c
  count : (freeClusters m s'.fat).length = (freeClusters m s.fat).length + l.length

/-! ## Bytes -/

theorem freeAt_apply (data : ℕ → Sector) (p : DirentPos) (lba off : ℕ) :
    freeAt data p lba off = if p = ⟨lba, off⟩ then entE5 else data lba off := by
  rw [freeAt_eq]
  by_cases hlba : lba = p.lba
  · subst hlba
    rw [update_self]
    by_cases hoff : off = p.off
    · subst hoff
      rw [update_self, if_pos rfl]
    · rw [update_of_ne hoff, if_neg fun h => hoff (congrArg DirentPos.off h).symm]
  · rw [update_of_ne hlba, if_neg fun h => hlba (congrArg DirentPos.lba h).symm]

theorem freeAll_apply (ps : List DirentPos) (data : ℕ → Sector) (lba off : ℕ) :
    ps.foldl freeAt data lba off = if ⟨lba, off⟩ ∈ ps then entE5 else data lba off := by
  induction ps generalizing data with
  | nil => rfl
  | cons p ps ih =>
    rw [foldl_cons, ih, freeAt_apply]
    by_cases hps : (⟨lba, off⟩ : DirentPos) ∈ ps
    · rw [if_pos hps, if_pos (mem_cons_of_mem _ hps)]
    by_cases hp : p = ⟨lba, off⟩
    · rw [if_neg hps, if_pos hp, hp, if_pos mem_cons_self]
    · rw [if_neg hps, if_neg hp, if_neg]
      intro hmem
      rcases mem_cons.mp hmem with h | h
      · exact hp h.symm
      · exact hps h

/-! ## The FAT -/

theorem isFree_freed_iff (hl : HasChain m fat c l) (x : ℕ) :
    IsFree m (freed fat l) x ∧ ¬ IsFree m fat x ↔ x ∈ l := by
  constructor
  · rintro ⟨hfree, hnot⟩
    by_contra hx
    have hsame : freed fat l x = fat x := freed_of_not_mem l hx
    unfold IsFree at hfree hnot
    rw [hsame] at hfree
    exact hnot hfree
  · intro hx
    have hr := hl.range x hx
    exact ⟨⟨hr.1, hr.2, freed_mod_of_mem l hx⟩, hl.not_free hx⟩

theorem length_freeClusters_freed (hl : HasChain m fat c l) :
    (freeClusters m (freed fat l)).length = (freeClusters m fat).length + l.length := by
  have hnd : (freeClusters m (freed fat l)).Nodup := Nodup.filter _ nodup_range'
  have hnd' : (freeClusters m fat ++ l).Nodup := by
    refine Nodup.append (Nodup.filter _ nodup_range') hl.nodup fun x hx hxl => ?_
    exact hl.not_free hxl (mem_freeClusters.mp hx)
  have hperm : (freeClusters m (freed fat l)).Perm (freeClusters m fat ++ l) := by
    refine (perm_ext_iff_of_nodup hnd hnd').mpr fun x => ?_
    rw [mem_append, mem_freeClusters, mem_freeClusters]
    constructor
    · intro hx
      by_cases hold : IsFree m fat x
      · exact Or.inl hold
      · exact Or.inr ((isFree_freed_iff hl x).mp ⟨hx, hold⟩)
    · rintro (hx | hx)
      · have hxl : x ∉ l := fun h => hl.not_free h hx
        have hsame : freed fat l x = fat x := freed_of_not_mem l hxl
        unfold IsFree at hx ⊢
        rwa [hsame]
      · exact ((isFree_freed_iff hl x).mpr hx).1
  rw [hperm.length_eq, length_append]

/-! ## The record -/

/-- **The second search finds the record of the first**, and the whole run
in front of it. -/
theorem Orderly.located {loc : DirentLoc} (ho : Orderly m data fat) (hf : Found m data fat t d)
    (hfile : (recOf data t.pos).isDir = false)
    (hloc : locateRecord m data fat t.dirCluster (recOf data t.pos).name = some loc) :
    loc.pos = t.pos ∧ (∀ q ∈ loc.lfn, IsLong data q) ∧
      ∃ A B, slots m (chainOf m fat t.dirCluster) = A ++ loc.lfn ++ t.pos :: B ∧
        ∀ q, A.getLast? = some q → ¬ IsLong data q := by
  obtain ⟨A, run, B, hL⟩ := locateRecord_some hloc
  have hd : t.dirCluster = d := hf.parent.resolve_right fun h => by simp [hfile] at h
  have hlive := hf.live
  simp only [Dirent.isLive, Bool.and_eq_true, Bool.not_eq_true'] at hlive
  have hmem : t.pos ∈ slots m (chainOf m fat t.dirCluster) := hd ▸ hf.mem
  have hreach : Reached m data fat t.dirCluster := hf.reached_dirCluster
  have hpos : loc.pos = t.pos := by
    refine ho.unique hreach hL.pos_mem hmem ⟨hL.de ▸ hL.used, hL.de ▸ hL.short⟩
      ⟨hlive.1.1.2, hlive.1.2⟩ ?_
    rw [← hL.de]
    exact hL.name
  have hsplit : slots m (chainOf m fat t.dirCluster) = A ++ run ++ t.pos :: B := hpos ▸ hL.split
  have hlen := ho.runs hreach hsplit hL.long
  have hlfn : loc.lfn = run := by rw [hL.lfn, take_of_length_le hlen]
  rw [hlfn]
  exact ⟨hpos, hL.long, A, B, hsplit, hL.last⟩

/-! ## Unlink -/

/-- **Unlink removes exactly one file**: where it returns `0`, the record
that `fat_resolve_path` finds is marked free with the long-name records in
front of it, the file's chain is free, and nothing else has changed. -/
theorem unlink_removes_one (hs : Resting m dev s) (ha : ChainsApart m (s.contents dev) s.fat)
    (ho : Orderly m (s.contents dev) s.fat) (path : Str) :
    ∃ rc s', Fs.call m dev (fatUnlinkImpl m path) s = some (rc, s') ∧ (rc = 0 → ∃ t run l,
      pathTarget m (s.contents dev) s.fat path = some t ∧
      (Fs.call m dev (fatResolvePath m path) s).map Prod.fst =
        some (some (t.resolve (s.contents dev))) ∧
      RemovedFile m dev s s' t run l) := by
  have hread := hs.readable ha
  have hunlink : wp (volume m) (fatUnlinkImpl m path)
      (Outcome m (s.volumeOf dev) (.unlink path)) (s.volumeOf dev) := wp_fatUnlinkImpl hread
  obtain ⟨rc, s', v', hcall, hout, hb⟩ := hs.backs.call hunlink
  refine ⟨rc, s', hcall, ?_⟩
  rintro rfl
  obtain ⟨-, heff, -, -⟩ := hout
  have hfat := hb.fat
  have hview := hb.view
  generalize v'.data = data' at heff hview
  generalize v'.fat = fat' at heff hfat
  cases heff with
  | refused hne => exact absurd rfl hne
  | @unlinked _ t loc ht hfile hloc =>
    obtain ⟨d, hf⟩ := pathTarget_found ht
    obtain ⟨hpos, hlong, A, B, hsplit, hlast⟩ := ho.located hf hfile hloc
    obtain ⟨l, hl⟩ := hf.hasChain hread
    have hwp : wp (volume m) (fatResolvePath m path)
        (fun r _ => r = some (t.resolve (s.contents dev))) (s.volumeOf dev) :=
      wp_fatResolvePath hread (by
        show (pathTarget m (s.contents dev) s.fat path).map _ = _
        rw [show pathTarget m (s.contents dev) s.fat path = some t from ht]
        rfl)
    obtain ⟨r, s₁, -, hres, rfl, -⟩ := hs.backs.call hwp
    refine ⟨t, loc.lfn, l, ht, by rw [hres]; rfl, ?_⟩
    have hchain : HasChain m s.fat (recOf (s.contents dev) t.pos).clus l := hl
    have hfat' : s'.fat = freed s.fat l := by
      rw [hfat, ← hchain.chainOf_eq]
      rfl
    refine ⟨⟨A, B, hsplit, hlast⟩, hlong, fun lba hlba off => ?_, hchain, ?_, ?_, ?_⟩
    · have hsec : s'.contents dev lba = freeLoc (s.contents dev) loc lba := hview lba hlba
      rw [hsec, freeLoc_eq, freeAll_apply, hpos]
    · rw [hfat']
      exact isFree_freed_iff hchain
    · rw [hfat']
      exact fun c hc => freed_of_not_mem l hc
    · rw [hfat']
      exact length_freeClusters_freed hchain

/-! ## A file with a long name -/

theorem reached_flat (hflat : ∀ p ∈ slots m (chainOf m fat m.rootCluster),
    (recOf data p).isSubdir = false) (h : Reached m data fat d) : d = m.rootCluster := by
  refine h.mem_of_leads (S := (· = m.rootCluster)) rfl ?_
  rintro _ rfl p hp hsub
  rw [hflat p hp] at hsub
  cases hsub

/-- A file of five bytes in cluster 3, with the long name `a b`. -/
def spacedFs : Fs Unit :=
  dirFs (lfnRun 1 0 [97, 32, 98] 1 ++ [(smallHandle 3 5).de])

theorem spacedFs_reached (h : Reached smallMount (spacedFs.contents ()) spacedFs.fat d) : d = 2 :=
  reached_flat (by decide +kernel) h

theorem spacedFs_chainsApart : ChainsApart smallMount (spacedFs.contents ()) spacedFs.fat where
  dir hd := ⟨[2], by rw [spacedFs_reached hd]; decide⟩
  dirs hd hd' hne := absurd ((spacedFs_reached hd).trans (spacedFs_reached hd').symm) hne
  file {d p} hd hp hfile := by
    rw [spacedFs_reached hd] at hp
    have hfiles : ∀ p ∈ slots smallMount (chainOf smallMount spacedFs.fat 2),
        (recOf (spacedFs.contents ()) p).isFile = true →
          (recOf (spacedFs.contents ()) p).clus = 3 := by decide +kernel
    rw [hfiles p hp hfile]
    refine ⟨⟨[3], by decide⟩, fun {d'} hd' => ?_⟩
    rw [spacedFs_reached hd']
    have hdis : ∀ x ∈ chainOf smallMount spacedFs.fat 3, x ∉ chainOf smallMount spacedFs.fat 2 := by
      decide
    exact fun x hx hx' => hdis x hx hx'

theorem spacedFs_orderly : Orderly smallMount (spacedFs.contents ()) spacedFs.fat where
  runs {d A run B} hd hsplit _ := by
    rw [spacedFs_reached hd] at hsplit
    have hlen : (slots smallMount (chainOf smallMount spacedFs.fat 2)).length = 16 := by
      decide +kernel
    rw [hsplit, length_append, length_append] at hlen
    unfold lfnEntriesMax
    omega
  unique {d p q} hd hp hq := by
    rw [spacedFs_reached hd] at hp hq
    have huniq : ∀ p ∈ slots smallMount (chainOf smallMount spacedFs.fat 2),
        ∀ q ∈ slots smallMount (chainOf smallMount spacedFs.fat 2),
          entryUsed (recOf (spacedFs.contents ()) p) = true ∧
            (recOf (spacedFs.contents ()) p).isLfn = false →
          entryUsed (recOf (spacedFs.contents ()) q) = true ∧
            (recOf (spacedFs.contents ()) q).isLfn = false → p = q := by decide +kernel
    exact fun hps hqs _ => huniq p hp q hq hps hqs

/-- Unlinking the file frees its record, the record of its long name and
its cluster. -/
theorem spaced_file_removed :
    (Fs.call smallMount () (fatUnlinkImpl smallMount [47, 97, 32, 98]) spacedFs).map Prod.fst =
        some 0 ∧
      ∃ s' t run l, RemovedFile smallMount () spacedFs s' t run l := by
  have hrc : (Fs.call smallMount () (fatUnlinkImpl smallMount [47, 97, 32, 98]) spacedFs).map
      Prod.fst = some 0 := by decide +kernel
  obtain ⟨rc, s', hcall, hok⟩ := unlink_removes_one (freshFs_mounted smallMount _ _).resting
    spacedFs_chainsApart spacedFs_orderly [47, 97, 32, 98]
  have hzero : rc = 0 := by
    have hcall' := hrc
    rw [show Fs.call smallMount () (fatUnlinkImpl smallMount [47, 97, 32, 98]) spacedFs =
      some (rc, s') from hcall] at hcall'
    simpa using hcall'
  obtain ⟨t, run, l, -, -, hremoved⟩ := hok hzero
  exact ⟨hrc, s', t, run, l, hremoved⟩

end Lnxrm.Fat32
