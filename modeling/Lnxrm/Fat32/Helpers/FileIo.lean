import Lnxrm.Fat32.Helpers.Alloc
import Lnxrm.Fat32.Helpers.Records
import Lnxrm.Fat32.Helpers.Transfer

/-!
# FAT32 — what reading and writing a file do

Proof layer. `overwrite` is the data area after the first bytes
of a write: a byte of the chain in the written range comes from the
caller's buffer, every other byte of every sector is as before. The write
loop makes it (`wp_writeLoop`), updating no sector twice, so the journal
never holds a stale image; the read loop collects `byteAt`
(`wp_fatReadImpl`).
-/

namespace Lnxrm.Fat32

open Prog (wp wp_bind wp_pure wp_perform)

variable {m : Mount} {v : Vol} {l : List ℕ} {n off k : ℕ} {buf : ℕ → UInt8} {data : ℕ → Sector}

/-- The data area after `k` bytes of a write at `off`. -/
def overwrite (m : Mount) (l : List ℕ) (off k : ℕ) (buf : ℕ → UInt8) (data : ℕ → Sector) :
    ℕ → Sector := fun lba b =>
  let pos := (sectors m l).idxOf lba * sectorSize + b
  if lba ∈ sectors m l ∧ b < sectorSize ∧ off ≤ pos ∧ pos < off + k then buf (pos - off)
  else data lba b

theorem overwrite_zero : overwrite m l off 0 buf data = data := by
  funext lba b
  exact if_neg (by omega)

theorem overwrite_of_not_mem {lba : ℕ} (h : lba ∉ sectors m l) :
    overwrite m l off k buf data lba = data lba := by
  funext b
  exact if_neg fun hc => h hc.1

theorem idxOf_getD_sectors (hnd : (sectors m l).Nodup) {j : ℕ} (hj : j < (sectors m l).length) :
    (sectors m l).idxOf ((sectors m l).getD j 0) = j := by
  rw [List.getD_eq_getElem _ _ hj]
  exact List.Nodup.idxOf_getElem hnd j hj

theorem getD_mem_sectors {j : ℕ} (hj : j < (sectors m l).length) :
    (sectors m l).getD j 0 ∈ sectors m l := by
  rw [List.getD_eq_getElem _ _ hj]
  exact List.getElem_mem hj

theorem lt_length_sectors {pos : ℕ} (h : pos < capacity m l) :
    pos / sectorSize < (sectors m l).length := by
  have hcap : capacity m l = sectorSize * (l.length * m.sectorsPerCluster) := by
    simp only [capacity, Mount.clusterSize]
    ring
  rw [length_sectors, Nat.div_lt_iff_lt_mul (by decide)]
  rw [hcap, Nat.mul_comm] at h
  exact h

/-- **Bytes after a write.** -/
theorem byteAt_overwrite (hnd : (sectors m l).Nodup) {i : ℕ} (hi : i < capacity m l) :
    byteAt m (overwrite m l off k buf data) l i =
      if off ≤ i ∧ i < off + k then buf (i - off) else byteAt m data l i := by
  have hj := lt_length_sectors hi
  have hpos : i / sectorSize * sectorSize + i % sectorSize = i := Nat.div_add_mod' _ _
  simp only [byteAt, overwrite, idxOf_getD_sectors hnd hj, hpos, getD_mem_sectors hj, true_and]
  have hb : i % sectorSize < sectorSize := Nat.mod_lt _ (by decide)
  simp only [hb, true_and]

/-- **One turn of the write loop** writes one chunk more. -/
theorem overwrite_step (hnd : (sectors m l).Nodup) {chunk : ℕ} (hpos : off + k < capacity m l)
    (hchunk : chunk ≤ sectorSize - (off + k) % sectorSize) :
    Function.update (overwrite m l off k buf data) ((sectors m l).getD ((off + k) / sectorSize) 0)
      (copyBytes (overwrite m l off k buf data ((sectors m l).getD ((off + k) / sectorSize) 0))
        ((off + k) % sectorSize) buf k chunk) =
      overwrite m l off (k + chunk) buf data := by
  have hj := lt_length_sectors hpos
  have hmod := Nat.div_add_mod' (off + k) sectorSize
  generalize hq : (off + k) / sectorSize = q at *
  generalize hr : (off + k) % sectorSize = r at *
  funext lba b
  by_cases hlba : lba = (sectors m l).getD q 0
  · subst hlba
    rw [Function.update_self]
    simp only [copyBytes, overwrite, idxOf_getD_sectors hnd hj, getD_mem_sectors hj, true_and]
    by_cases hin : r ≤ b ∧ b < r + chunk
    · rw [if_pos hin, if_pos (by omega)]
      congr 1
      omega
    · rw [if_neg hin]
      by_cases hold : b < sectorSize ∧ off ≤ q * sectorSize + b ∧ q * sectorSize + b < off + k
      · rw [if_pos hold, if_pos (by omega)]
      · rw [if_neg hold, if_neg (by omega)]
  rw [Function.update_of_ne hlba]
  simp only [overwrite]
  by_cases hmem : lba ∈ sectors m l
  · have hidx : (sectors m l).idxOf lba ≠ q := by
      intro heq
      have hget := List.getElem_idxOf (List.idxOf_lt_length_of_mem hmem)
      refine hlba ?_
      rw [List.getD_eq_getElem _ _ hj]
      simp only [← heq]
      exact hget.symm
    simp only [hmem, true_and]
    generalize (sectors m l).idxOf lba = j at hidx
    have hsector : b < sectorSize → (q * sectorSize + r ≤ j * sectorSize + b →
        j * sectorSize + b < q * sectorSize + r + chunk → False) := by
      simp only [sectorSize] at *
      omega
    by_cases hold : b < sectorSize ∧ off ≤ j * sectorSize + b ∧ j * sectorSize + b < off + k
    · rw [if_pos hold, if_pos (by omega)]
    · rw [if_neg hold, if_neg]
      rintro ⟨hb, h₁, h₂⟩
      exact hsector hb (by omega) (by omega)
  · simp only [hmem, false_and, if_false]

/-- What the write loop keeps, after `k` of `n` bytes: the sectors it has
updated lie before the one it is at. -/
structure Writing (m : Mount) (l : List ℕ) (off n : ℕ) (buf : ℕ → UInt8) (v₀ : Vol) (k : ℕ) (v : Vol) :
    Prop where
  fat : v.fat = v₀.fat
  data : v.data = overwrite m l off k buf v₀.data
  txn : ∃ ks, InTxn v ks ∧ (∀ x ∈ ks, x ∈ sectors m l) ∧
    (k < n → ∀ x ∈ ks, (sectors m l).idxOf x < (off + k) / sectorSize)

/-- **The write loop.** -/
theorem wp_writeLoop (l : List ℕ) (off n : ℕ) {v₀ : Vol} (htxn : InTxn v₀ []) (hnd : (sectors m l).Nodup) {cu : Cursor}
    (hdone : cu.done = 0) (hcu : CursorAt m v₀.fat l off cu) {Q : Sector × ℕ → Vol → Prop}
    (hQ : ∀ tmp v, Writing m l off n buf v₀ (min n (capacity m l - off)) v →
      Q (tmp, min n (capacity m l - off)) v) :
    wp (volume m) (transfer m n (writeChunk m n buf) n m.junk cu) Q v₀ := by
  have hstart : Writing m l off n buf v₀ cu.done v₀ := by
    rw [hdone]
    exact ⟨rfl, overwrite_zero.symm, [], htxn, by simp, by simp⟩
  refine Prog.wp_mono (wp_transfer l off (I := fun _ k v => Writing m l off n buf v₀ k v)
    (fun _ _ _ h => h.fat) (fun tmp v cu hI hlt hcap hlba hmod => ?_) n hstart hcu (by omega) (by omega)
    (Or.inr hdone)) ?_
  · obtain ⟨hfat, hdata, ks, htx, hks, hord⟩ := hI
    have hj := lt_length_sectors hcap
    have hmem := getD_mem_sectors hj
    unfold writeChunk
    simp only [wp_bind, wp_fatReadSector, hlba]
    refine ⟨sectors_ge hmem, ?_⟩
    refine wp_updateSector htx (sectors_ge hmem) (Or.inr fun hin => ?_) fun log htx' => ?_
    · have := hord hlt _ hin
      rw [idxOf_getD_sectors hnd hj] at this
      omega
    have hchunk : cu.chunk n ≤ sectorSize - (off + cu.done) % sectorSize := by
      rw [← hmod]
      exact Nat.min_le_right _ _
    refine ⟨_, rfl, hfat, ?_, _, htx', ?_, fun hmore => ?_⟩
    · rw [Vol.put_data, hdata, hmod]
      exact overwrite_step hnd hcap hchunk
    · intro x hx
      rcases List.mem_cons.mp hx with rfl | hx
      · exact hmem
      · exact hks x hx
    -- not at the end of the request, so the chunk ended with its sector
    have hfull : (off + (cu.done + cu.chunk n)) / sectorSize = (off + cu.done) / sectorSize + 1 := by
      unfold Cursor.chunk at hmore ⊢
      simp only [sectorSize] at hmod hmore ⊢
      omega
    rw [hfull]
    intro x hx
    rcases List.mem_cons.mp hx with rfl | hx
    · rw [idxOf_getD_sectors hnd hj]
      omega
    · have := hord hlt x hx
      omega
  · rintro ⟨tmp, k⟩ v ⟨hI, rfl⟩
    exact hQ tmp v hI

/-- The data area after `fat_write_impl` has rewritten the record in the
parent directory, if it finds it. -/
def writtenBack (de : Dirent) (ps : List DirentPos) (data : ℕ → Sector) : ℕ → Sector :=
  match findIn data (matchRecord de.name) () ps with
  | .inr (true, p) => putAt data p (refreshRecord de (recOf data p))
  | _ => data

theorem mem_of_findIn {β γ : Type} {f : β → Dirent → β ⊕ γ} {b : β} {ps : List DirentPos} {r : γ}
    {p : DirentPos} (h : findIn data f b ps = .inr (r, p)) :
    p ∈ ps ∧ ∃ b', f b' (recOf data p) = .inr r := by
  obtain ⟨l₁, q, l₂, b', rfl, -, hq⟩ := foldExit_inr h
  cases hf : f b' (recOf data q) with
  | inl b'' => simp [hf] at hq
  | inr r' =>
    rw [hf] at hq
    obtain ⟨rfl, rfl⟩ := Prod.mk.inj (Sum.inr.inj hq)
    exact ⟨by simp, b', hf⟩

theorem writtenBack_cases (de : Dirent) (ps : List DirentPos) (data : ℕ → Sector) :
    writtenBack de ps data = data ∨
      ∃ p ∈ ps, findIn data (matchRecord de.name) () ps = .inr (true, p) ∧
        writtenBack de ps data = putAt data p (refreshRecord de (recOf data p)) := by
  unfold writtenBack
  cases hfind : findIn data (matchRecord de.name) () ps with
  | inl b => exact Or.inl rfl
  | inr r =>
    obtain ⟨found, p⟩ := r
    cases found with
    | false => exact Or.inl rfl
    | true => exact Or.inr ⟨p, (mem_of_findIn hfind).1, rfl, rfl⟩

theorem writtenBack_of_not_mem {de : Dirent} {ld : List ℕ} {lba : ℕ} (h : lba ∉ sectors m ld) :
    writtenBack de (slots m ld) data lba = data lba := by
  rcases writtenBack_cases de (slots m ld) data with heq | ⟨p, hp, -, heq⟩
  · rw [heq]
  · rw [heq, putAt_of_ne]
    rintro rfl
    exact h (mem_slots.mp hp).1

theorem wp_writeBack {r : Resolve} {ks ld : List ℕ} {Q : Unit → Vol → Prop} (htx : InTxn v ks)
    (hdir : HasChain m v.fat r.dirCluster ld) (hks : ∀ lba ∈ sectors m ld, lba ∉ ks)
    (hQ : Q () (.settled (writtenBack r.de (slots m ld) v.data) v.fat)) :
    wp (volume m) (writeBack m r) Q v := by
  have hcommit : writtenBack r.de (slots m ld) v.data = v.data →
      wp (volume m) (do let _ ← fat32JournalCommit; pure ()) Q v := by
    intro heq
    rw [heq] at hQ
    rw [wp_bind]
    exact wp_fat32JournalCommit htx hQ
  unfold writeBack
  rw [wp_bind]
  refine wp_scanCached hdir.toWalk hdir.length_le (fun b buf hfind => ?_) fun found p hfind => ?_
  · exact hcommit (by rw [writtenBack, hfind])
  cases found with
  | false => exact hcommit (by rw [writtenBack, hfind])
  | true =>
    have hmem := (mem_slots.mp (mem_of_findIn hfind).1).1
    simp only [wp_bind]
    refine wp_updateSector htx (sectors_ge hmem) (Or.inr (hks _ hmem)) fun log htx' => ?_
    refine wp_fat32JournalCommit htx' ?_
    rw [writtenBack, hfind] at hQ
    exact hQ

/-- The length `fat_write_impl` works with. -/
def clampIo (n : ℕ) : ℕ := if maxIo < n then maxIo else n

/-- The size `fat_write_impl` allocates for. -/
def needBytes (de : Dirent) (off n : ℕ) : ℕ := max ((off + n) % 2 ^ 64) de.filesize

/-- The handle's record after a write. -/
def grownRecord (de : Dirent) (head off n : ℕ) : Dirent :=
  (de.setClus head).setSize
    (if (off + n) % 2 ^ 64 < needBytes de off n then de.filesize else (off + n) % 2 ^ 64)

/-- **What `fat_write_impl` does** to a regular file with a chain apart
from its directory's. If there is room, the chain has grown, the bytes
are in it as far as it reaches, and the record is written back; if not,
the chain may have grown and nothing else has changed. -/
theorem wp_fatWriteImpl {r : Resolve} {ld : List ℕ} {Q : Int × Resolve → Vol → Prop}
    (hidle : v.active = false) (hreg : r.de.isDir = false) (hfile : HasChain m v.fat r.de.clus l)
    (hdir : HasChain m v.fat r.dirCluster ld) (hdis : l.Disjoint ld)
    (hok : ∀ ext fat' head, Grown m v.fat r.de.clus l ext fat' head →
      ext.length = clustersFor m (needBytes r.de off (clampIo n)) - l.length → l ++ ext ≠ [] →
      Q (((min (clampIo n) (capacity m (l ++ ext) - off) : ℕ) : Int),
          { r with de := grownRecord r.de head off (clampIo n) })
        (.settled (writtenBack (grownRecord r.de head off (clampIo n)) (slots m ld)
          (overwrite m (l ++ ext) off (min (clampIo n) (capacity m (l ++ ext) - off)) buf v.data))
          fat'))
    (hfail : ∀ ext fat' head, Grown m v.fat r.de.clus l ext fat' head →
      (l ++ ext = [] ∧ ext.length = clustersFor m (needBytes r.de off (clampIo n)) - l.length ∨
        ext.length < clustersFor m (needBytes r.de off (clampIo n)) - l.length ∧
          ∀ x, ¬ IsFree m fat' x) →
      Q (Errno.eio, r) { v with fat := fat', active := false, log := [] }) :
    wp (volume m) (fatWriteImpl m r off (some buf) n) Q v := by
  unfold fatWriteImpl
  simp only [hreg, Bool.false_eq_true, if_false]
  rw [wp_bind]
  refine wp_fat32JournalBegin hidle fun htx => ?_
  rw [wp_bind]
  refine wp_allocChain (v := { v with active := true, log := [] }) hfile
    (fun ext fat' head hg hlen => ?_) fun ext fat' head hg hlen hno => ?_
  · by_cases hne : l ++ ext = []
    · rw [if_pos (hg.chain.zero_iff.mpr hne), wp_bind]
      exact wp_fat32JournalAbort (hfail ext fat' head hg (Or.inl ⟨hne, hlen⟩))
    rw [if_neg (fun h => hne (hg.chain.zero_iff.mp h)), wp_bind]
    have hchain := hg.chain
    have hnd := nodup_sectors (m := m) hchain.range_u32 hchain.nodup
    obtain ⟨hdir', hdis'⟩ := hg.other hdir hdis
    refine wp_skipClusters hchain.toWalk (Mount.lt_fuel hchain.length_le)
      fun skip' c' hskip hwalk => ?_
    simp only [wp_bind]
    refine wp_writeLoop (l ++ ext) off (clampIo n) ?_ hnd rfl ⟨?_, ?_⟩
      fun tmp v' hwr => ?_
    · exact ⟨htx.active, htx.current, htx.keys, htx.room⟩
    · exact hskip
    · exact hwalk
    · obtain ⟨hfat, hdata, ks, htx', hks, -⟩ := hwr
      refine wp_writeBack htx' (by rw [hfat]; exact hdir') (fun lba hlba hin => ?_) ?_
      · exact sectors_disjoint hchain.range hdir.range hdis' (hks lba hin) hlba
      · rw [hdata, hfat]
        exact hok ext fat' head hg hlen hne
  · rw [if_pos rfl, wp_bind]
    exact wp_fat32JournalAbort (hfail ext fat' head hg (Or.inr ⟨hlen, hno⟩))

/-! ## Reading -/

/-- The bytes `fat_read_impl` asks the chain for. -/
def readLen (size off n : ℕ) : ℕ := clampIo (if size < (off + n) % 2 ^ 64 then size - off else n)

/-- The bytes it gets. -/
def readCount (m : Mount) (l : List ℕ) (size off n : ℕ) : ℕ :=
  if size ≤ off then 0 else min (readLen size off n) (capacity m l - off)

/-- **The read loop.** -/
theorem wp_readLoop (l : List ℕ) (off n : ℕ) {ubuf : ℕ → UInt8} {cu : Cursor} (hdone : cu.done = 0)
    (hcu : CursorAt m v.fat l off cu) (hclean : ∀ lba ∈ sectors m l, lba ∉ v.dirty)
    {Q : (ℕ → UInt8) × ℕ → Vol → Prop}
    (hQ : ∀ out : ℕ → UInt8, (∀ i, out i =
        if i < min n (capacity m l - off) then byteAt m v.data l (off + i) else ubuf i) →
      Q (out, min n (capacity m l - off)) v) :
    wp (volume m) (transfer m n (readChunk m n) n ubuf cu) Q v := by
  have hstart : ∀ i, ubuf i = if i < cu.done then byteAt m v.data l (off + i) else ubuf i := by
    intro i
    rw [if_neg (by omega)]
  refine Prog.wp_mono (wp_transfer l off (I := fun out k v' => v' = v ∧ ∀ i, out i =
      if i < k then byteAt m v.data l (off + i) else ubuf i)
    (fun _ _ _ h => congrArg Vol.fat h.1) (fun out v' cu hI hlt hcap hlba hmod => ?_) n
    ⟨rfl, hstart⟩ hcu (by omega) (by omega) (Or.inr hdone)) ?_
  · obtain ⟨rfl, hout⟩ := hI
    have hmem := getD_mem_sectors (lt_length_sectors hcap)
    have hchunk : cu.chunk n ≤ sectorSize - (off + cu.done) % sectorSize := by
      rw [← hmod]
      exact Nat.min_le_right _ _
    unfold readChunk
    simp only [wp_bind, wp_devRead, hlba, ne_eq, not_true_eq_false, if_false, wp_pure]
    refine ⟨⟨sectors_ge hmem, fun i hi => ?_⟩, _, rfl, trivial, fun i => ?_⟩
    · obtain rfl : i = 0 := by omega
      exact hclean _ hmem
    simp only [copyBytes, bufferOf, Nat.zero_lt_one, if_true, Nat.add_zero, hmod]
    by_cases hin : cu.done ≤ i ∧ i < cu.done + cu.chunk n
    · -- the chunk lies in one sector
      have hdiv : (off + i) / sectorSize = (off + cu.done) / sectorSize := by
        simp only [sectorSize] at hchunk ⊢
        omega
      have hrem : (off + i) % sectorSize = (off + cu.done) % sectorSize + (i - cu.done) := by
        simp only [sectorSize] at hchunk ⊢
        omega
      rw [if_pos hin, if_pos (by omega), byteAt, hdiv, hrem]
    · rw [if_neg hin, hout i]
      by_cases hold : i < cu.done
      · rw [if_pos hold, if_pos (by omega)]
      · rw [if_neg hold, if_neg (by omega)]
  · rintro ⟨out, k⟩ v' ⟨⟨rfl, hout⟩, rfl⟩
    exact hQ out hout

/-- **What `fat_read_impl` does** to a regular file whose sectors are on
the device. -/
theorem wp_fatReadImpl {r : Resolve} {ubuf : ℕ → UInt8}
    {Q : Int × Option (ℕ → UInt8) → Vol → Prop} (hreg : r.de.isDir = false)
    (hfile : HasChain m v.fat r.de.clus l) (hclean : ∀ lba ∈ sectors m l, lba ∉ v.dirty)
    (hQ : ∀ out : ℕ → UInt8, (∀ i, out i =
        if i < readCount m l r.de.filesize off n then byteAt m v.data l (off + i) else ubuf i) →
      Q ((readCount m l r.de.filesize off n : ℕ), some out) v) :
    wp (volume m) (fatReadImpl m r off (some ubuf) n) Q v := by
  unfold fatReadImpl
  simp only [hreg, Bool.false_eq_true, if_false, reduceCtorEq, false_and]
  by_cases hoff : r.de.filesize ≤ off
  · rw [if_pos hoff]
    simp only [readCount, if_pos hoff] at hQ
    exact hQ ubuf fun i => rfl
  · rw [if_neg hoff]
    simp only [readCount, if_neg hoff] at hQ
    simp only [wp_bind]
    refine wp_skipClusters hfile.toWalk (Mount.lt_fuel hfile.length_le)
      fun skip' c' hskip hwalk => ?_
    exact wp_readLoop l off (readLen r.de.filesize off n) rfl ⟨hskip, hwalk⟩ hclean hQ

end Lnxrm.Fat32
