import Lnxrm.Fat32.Resting

/-!
# FAT32 — the directory terminator

`fat_scan_dir` passes over a record whose first byte is zero, while
`dirent_locate` and `dir_claim_run` take it for the end of the directory.
They agree on a directory that is closed: after its first such record
there are only such records. Every call leaves every directory closed
(`call_keeps_closed`). A new record goes to the first slot that is free,
a run of new records has no terminator before it, freed records are
marked with another byte, and a new directory's cluster is zeroed.
-/

namespace Lnxrm.Fat32

open List

variable {δ : Type} [DecidableEq δ] {m : Mount} {dev : δ} {s : Fs δ}
  {data data' : ℕ → Sector} {fat fat' : ℕ → ℕ} {d c : ℕ} {p q : DirentPos}
  {ps W : List DirentPos} {name : Str}
variable {h : Resolve} {pd : ParentDir} {loc : DirentLoc} {l ext : List ℕ}

/-- **A closed directory**: after the first record whose first byte is
zero there are only such records. -/
def Closed (data : ℕ → Sector) (ps : List DirentPos) : Prop :=
  ps.Pairwise fun p q => recOf data p 0 = entFree → recOf data q 0 = entFree

/-- Every directory is closed. -/
def AllClosed (m : Mount) (data : ℕ → Sector) (fat : ℕ → ℕ) : Prop :=
  ∀ d, Reached m data fat d → Closed data (slots m (chainOf m fat d))

/-! ## Closed directories -/

theorem Closed.front {ps' : List DirentPos} (h : Closed data ps) (hp : ps' <+: ps) :
    Closed data ps' :=
  List.Pairwise.sublist hp.sublist h

/-- Filling slots keeps a directory closed if an unused slot that is left
has no filled one after it. -/
theorem Closed.filled (h : Closed data ps) (hf : Filled W data data') (hal : ∀ q ∈ ps, Aligned q)
    (hord : ps.Pairwise fun p q => recOf data p 0 = entFree → p ∉ W → q ∉ W) : Closed data' ps := by
  refine (List.Pairwise.and h hord).imp_of_mem fun {p q} hp hq hpq hz => ?_
  obtain ⟨hpz, hpW⟩ := (hf p (hal p hp)).mp hz
  exact (hf q (hal q hq)).mpr ⟨hpq.1 hpz, hpq.2 hpz hpW⟩

theorem Closed.congr (h : Closed data ps) (heq : ∀ q ∈ ps, recOf data' q = recOf data q) :
    Closed data' ps :=
  List.Pairwise.imp_of_mem (fun {p q} hp hq hpq => by rwa [heq p hp, heq q hq]) h

theorem Closed.filled_apart (h : Closed data ps) (hf : Filled W data data')
    (hal : ∀ q ∈ ps, Aligned q) (hW : ∀ q ∈ ps, q ∉ W) : Closed data' ps :=
  h.filled hf hal (pairwise_of_forall_mem_list fun _ _ q hq _ _ => hW q hq)

theorem Closed.filled_run {A B : List DirentPos} (h : Closed data ps) (hf : Filled W data data')
    (hal : ∀ q ∈ ps, Aligned q) (hnd : ps.Nodup) (hsplit : ps = A ++ W ++ B)
    (hA : ∀ q ∈ A, recOf data q 0 ≠ entFree) : Closed data' ps := by
  refine h.filled hf hal ?_
  subst hsplit
  rw [pairwise_append]
  refine ⟨?_, ?_, ?_⟩
  · refine pairwise_of_forall_mem_list fun p hp q hq hz hpW => ?_
    rcases mem_append.mp hp with hp | hp
    · exact absurd hz (hA p hp)
    · exact absurd hp hpW
  · -- behind the run nothing is filled
    refine pairwise_of_forall_mem_list fun p hp q hq _ _ hqW => ?_
    exact (nodup_append.mp hnd).2.2 q (mem_append_right _ hqW) q hq rfl
  · intro p hp q hq hz hpW
    rcases mem_append.mp hp with hp | hp
    · exact absurd hz (hA p hp)
    · exact absurd hp hpW

/-! ## The namespace calls -/

/-- **An edit that makes no directory.** The directories keep a first part
of their chains, the records still lead to directories, and the slots
filled are a run of one directory with no terminator before it. -/
theorem AllClosed.edit {A B : List DirentPos} (hc : AllClosed m data fat)
    (ha : ChainsApart m data fat) (hd : Reached m data fat d)
    (hchain : ∀ c, Reached m data fat c → chainOf m fat' c <+: chainOf m fat c)
    (hleads : ∀ c, Reached m data fat c →
      Leads (slots m (chainOf m fat c)) (Reached m data fat) data')
    (hf : Filled W data data') (hsplit : slots m (chainOf m fat d) = A ++ W ++ B)
    (hA : ∀ q ∈ A, recOf data q 0 ≠ entFree) : AllClosed m data' fat' := by
  have hfront : ∀ c, Reached m data fat c →
      slots m (chainOf m fat' c) <+: slots m (chainOf m fat c) := by
    intro c hr
    obtain ⟨t, ht⟩ := hchain c hr
    exact ⟨slots m t, by rw [← ht, slots, slots, slots, sectors_append, flatMap_append]⟩
  intro c hreach
  have hold : Reached m data fat c := hreach.mem_of_leads .root fun x hx q hq hsub =>
    hleads x hx q ((hfront x hx).subset hq) hsub
  refine Closed.front ?_ (hfront c hold)
  by_cases hcd : c = d
  · subst hcd
    exact (hc c hold).filled_run hf (aligned_slots m _) (ha.nodup hold) hsplit hA
  · refine (hc c hold).filled_apart hf (aligned_slots m _) fun q hq hqW => ?_
    have hqd : q ∈ slots m (chainOf m fat d) := by
      rw [hsplit]
      simp [hqW]
    exact ha.not_mem hd hold hcd hqd hq

theorem AllClosed.edit_nil (hc : AllClosed m data fat) (ha : ChainsApart m data fat)
    (hchain : ∀ c, Reached m data fat c → chainOf m fat' c <+: chainOf m fat c)
    (hleads : ∀ c, Reached m data fat c →
      Leads (slots m (chainOf m fat c)) (Reached m data fat) data')
    (hf : Filled [] data data') : AllClosed m data' fat' :=
  hc.edit (A := []) (B := slots m (chainOf m fat m.rootCluster)) ha .root hchain hleads hf rfl
    (by simp)

theorem newRecord_used {path : Str} (hplain : (0 : UInt8) ∉ path)
    (ht : newTarget m data fat path = .ok pd) (attr : UInt8) (c : ℕ) :
    newRecord pd.name attr c 0 ≠ entFree := by
  obtain ⟨-, hname, -, -⟩ := newTarget_ok ht
  rw [newRecord_zero]
  refine nameToShort_zero fun h0 => hplain ?_
  rw [hname] at h0
  exact mem_of_mem_take (mem_of_mem_pathTail h0)

theorem AllClosed.created {path : Str} (hc : AllClosed m data fat)
    (ha : ChainsApart m data fat) (hplain : (0 : UInt8) ∉ path)
    (ht : newTarget m data fat path = .ok pd) (hp : freePlace m data fat pd.cluster = some p) :
    AllClosed m (putAt data p (newRecord pd.name attrArchive 0)) fat := by
  obtain ⟨hreach, -, -, -⟩ := newTarget_ok ht
  obtain ⟨A, B, hsplit, hA, -⟩ := freePlace_some hp
  have hal : Aligned p := aligned_of_mem_slots (m := m) (l := chainOf m fat pd.cluster)
    (by rw [hsplit]; simp)
  have hzero := newRecord_used hplain ht attrArchive 0
  refine hc.edit (A := A) (B := B) ha hreach (fun _ _ => prefix_rfl) (fun x hx => ?_)
    (Filled.put hal hzero) (by simpa using hsplit) fun q hq h0 => hA q hq (Or.inr (Or.inl h0))
  refine (reached_leads hx).put (aligned_slots m _) hal fun hsub => ?_
  rw [isSubdir_of_attr (by rw [newRecord_attr]; decide)] at hsub
  cases hsub

theorem AllClosed.freed {sn : Fin 11 → UInt8} {first : ℕ}
    (hc : AllClosed m data fat) (ha : ChainsApart m data fat)
    (hloc : locateRecord m data fat d sn = some loc)
    (hchain : ∀ c, Reached m data fat c →
      chainOf m (Fat32.freed fat (chainOf m fat first)) c <+: chainOf m fat c) :
    AllClosed m (freeLoc data loc) (Fat32.freed fat (chainOf m fat first)) := by
  obtain ⟨A, run, B, hl⟩ := locateRecord_some hloc
  have hpos : Aligned loc.pos := aligned_of_mem_slots hl.pos_mem
  have hlfn : ∀ q ∈ loc.lfn, Aligned q := fun q hq => aligned_of_mem_slots (hl.lfn_mem q hq)
  have hposUsed : recOf data loc.pos 0 ≠ entFree := by
    have hu := hl.used
    rw [hl.de] at hu
    simp only [entryUsed, Bool.and_eq_true, bne_iff_ne] at hu
    exact hu.1
  have hlfnUsed : ∀ q ∈ loc.lfn, recOf data q 0 ≠ entFree := fun q hq =>
    (hl.before q (mem_append_right _ (hl.lfn_subset q hq))).1
  refine hc.edit_nil ha hchain (fun x hx => ?_)
    (Filled.freeLoc ⟨hpos, hposUsed⟩ fun q hq => ⟨hlfn q hq, hlfnUsed q hq⟩)
  exact (reached_leads hx).freeLoc (aligned_slots m _) hpos hlfn

theorem AllClosed.renamed {oldpath newpath : Str} {t : Target} {n : ℕ}
    {sum : UInt8} (hc : AllClosed m data fat) (ha : ChainsApart m data fat)
    (hplain : (0 : UInt8) ∉ newpath)
    (hren : Renaming m data fat oldpath newpath t t.dirCluster loc n) :
    AllClosed m (putAt (putLfns n sum (renameName newpath) (loc.lfn.drop (loc.lfn.length - n))
        ((loc.lfn.take (loc.lfn.length - n)).foldl freeAt data))
      loc.pos (renamedRecord loc.de (nameToShort (renameName newpath)))) fat := by
  obtain ⟨A, run, B, hl⟩ := locateRecord_some hren.located
  obtain ⟨d', hfound⟩ := pathTarget_found hren.target
  obtain ⟨⟨hpos, hposUsed⟩, hlfn⟩ := hl.inUse
  have hlen : (loc.lfn.drop (loc.lfn.length - n)).length ≤ 20 := by
    have hle : loc.lfn.length ≤ 20 := hl.length_le
    rw [length_drop]
    omega
  have htake : ∀ q ∈ loc.lfn.take (loc.lfn.length - n), Aligned q ∧ recOf data q 0 ≠ entFree :=
    fun q hq => hlfn q (mem_of_mem_take hq)
  have hdrop : ∀ q ∈ loc.lfn.drop (loc.lfn.length - n), Aligned q ∧ recOf data q 0 ≠ entFree :=
    fun q hq => hlfn q (mem_of_mem_drop hq)
  have hfree := Filled.freeAll _ htake
  have hlfns := hfree.trans (Filled.putLfns n sum (renameName newpath) _
    (fun q hq => (hdrop q hq).1) hlen)
  have hsame := hlfns.of_used fun q hq => (hdrop q (by simpa using hq)).2
  have hzero : renamedRecord loc.de (nameToShort (renameName newpath)) 0 ≠ entFree := by
    rw [renamedRecord_zero]
    exact nameToShort_zero (renameName_plain hplain)
  refine hc.edit_nil ha (fun _ _ => prefix_rfl) (fun x hx => ?_)
    (hsame.trans (Filled.replace hpos (hsame.used hpos hposUsed) hzero))
  have hal := aligned_slots m (chainOf m fat x)
  refine (Leads.putLfns hal _ (Leads.freeAll hal _ (reached_leads hx) fun q hq => (htake q hq).1)
    fun q hq => (hdrop q hq).1).put hal hpos (hl.leads hfound.reached_dirCluster _)

theorem AllClosed.moved {oldpath newpath : Str} {t : Target} {n : ℕ}
    {sum : UInt8} {ps : List DirentPos} {moved : Option (ℕ × ℕ)} (hc : AllClosed m data fat)
    (ha : ChainsApart m data fat) (hplain : (0 : UInt8) ∉ newpath)
    (hren : Renaming m data fat oldpath newpath t d loc n)
    (hrun : claimedRun m data fat d (n + 1) = .ok ps)
    (hmoved : ∀ cp, moved = some cp → cp.2 = d) :
    AllClosed m (repointed m (freeLoc (putAt (putLfns n sum (renameName newpath) (ps.take n) data)
        (ps.getD n ⟨0, 0⟩) (renamedRecord loc.de (nameToShort (renameName newpath)))) loc) moved)
      fat := by
  obtain ⟨A, run, B, hl⟩ := locateRecord_some hren.located
  obtain ⟨d', hfound⟩ := pathTarget_found hren.target
  have hd := parentTarget_reached hren.parent
  obtain ⟨ld, hld⟩ := ha.dir hd
  obtain ⟨⟨hpos, hposUsed⟩, hlfn⟩ := hl.inUse
  obtain ⟨hlen, A', B', hsplit, hA', -⟩ := claimedRun_ok hrun
  have hpsal : ∀ q ∈ ps, Aligned q := fun q hq =>
    aligned_of_mem_slots (m := m) (l := chainOf m fat d) (by rw [hsplit]; simp [hq])
  have hn : n ≤ 5 := by
    refine fatLfnCount_le ?_ hren.count
    rw [renameName, length_take]
    exact Nat.min_le_left _ _
  have hparts : ps.take n ++ [ps.getD n ⟨0, 0⟩] = ps := by
    rw [getD_eq_getElem _ _ (by omega), take_append_getElem,
      take_of_length_le (by omega)]
  have hlast : Aligned (ps.getD n ⟨0, 0⟩) := by
    rw [getD_eq_getElem _ _ (by omega)]
    exact hpsal _ (getElem_mem _)
  have hzero : renamedRecord loc.de (nameToShort (renameName newpath)) 0 ≠ entFree := by
    rw [renamedRecord_zero]
    exact nameToShort_zero (renameName_plain hplain)
  -- the new records fill the run; the rest fills nothing
  have hnew : Filled ps data (putAt (putLfns n sum (renameName newpath) (ps.take n) data)
      (ps.getD n ⟨0, 0⟩) (renamedRecord loc.de (nameToShort (renameName newpath)))) := by
    have hlfns : Filled (ps.take n) data (putLfns n sum (renameName newpath) (ps.take n) data) :=
      Filled.putLfns n sum (renameName newpath) (ps.take n)
        (fun q hq => hpsal q (mem_of_mem_take hq)) (by rw [length_take]; omega)
    have h := hlfns.trans (Filled.put hlast hzero)
    rwa [hparts] at h
  have hfreed := hnew.trans (Filled.freeLoc ⟨hpos, hnew.used hpos hposUsed⟩
    fun q hq => ⟨(hlfn q hq).1, hnew.used (hlfn q hq).1 (hlfn q hq).2⟩)
  rw [append_nil] at hfreed
  have hall := hfreed.trans (Filled.repointed m moved)
  rw [append_nil] at hall
  refine hc.edit ha hd (fun _ _ => prefix_rfl) (fun x hx => ?_) hall hsplit hA'
  have hal := aligned_slots m (chainOf m fat x)
  have hlfns : Leads _ _ (putLfns n sum (renameName newpath) (ps.take n) data) :=
    Leads.putLfns hal (ps.take n) (reached_leads hx) fun q hq => hpsal q (mem_of_mem_take hq)
  have hput := hlfns.put hal hlast
    (hl.leads hfound.reached_dirCluster (nameToShort (renameName newpath)))
  refine (hput.freeLoc hal hpos fun q hq => (hlfn q hq).1).repointed hal fun cp hcp => ?_
  rw [hmoved cp hcp]
  exact ⟨hld.first_lt, hd⟩

/-! ## A new directory -/

theorem Closed.newDir {parent : ℕ} (hc : 2 ≤ c ∧ c < m.maxCluster) :
    Closed (newDir m data c parent) (slots m [c]) := by
  have hnd : (slots m [c]).Nodup := nodup_slots (by simpa using ⟨hc.1, m.lt_two_pow hc.2⟩) (by simp)
  obtain ⟨rest, hrest⟩ := slots_singleton m c
  have hzero : ∀ q ∈ rest, recOf (Fat32.newDir m data c parent) q 0 = entFree := by
    intro q hq
    rw [hrest, nodup_cons, nodup_cons] at hnd
    refine recOf_newDir_rest data parent (by rw [hrest]; simp [hq]) ?_ ?_
    · rintro rfl
      exact hnd.1 (mem_cons_of_mem _ hq)
    · rintro rfl
      exact hnd.2.1 hq
  obtain ⟨hdot, hdotdot⟩ := recOf_newDir_first m data c parent
  unfold Closed
  rw [hrest, pairwise_cons, pairwise_cons]
  refine ⟨fun q _ hz => ?_, fun q hq _ => hzero q hq,
    pairwise_of_forall_mem_list fun _ _ q hq _ => hzero q hq⟩
  rw [hdot, show dotRecord 1 c 0 = 46 from rfl] at hz
  exact absurd hz (by decide)

theorem AllClosed.abandoned {parent : ℕ} (hc : AllClosed m data fat) (ha : ChainsApart m data fat)
    (hfree : IsFree m fat c) : AllClosed m (Fat32.newDir m data c parent) fat := by
  intro d hreach
  have hold : Reached m data fat d := by
    refine hreach.mem_of_leads .root fun x hx q hq hsub => ?_
    rw [ha.recOf_newDir hfree hx hq] at hsub ⊢
    exact .sub hx hq hsub
  exact (hc d hold).congr fun q hq => ha.recOf_newDir hfree hold hq

theorem AllClosed.made {path : Str} (hc : AllClosed m data fat)
    (ha : ChainsApart m data fat) (hplain : (0 : UInt8) ∉ path)
    (ht : newTarget m data fat path = .ok pd) (hfree : IsFree m fat c)
    (hp : freePlace m data fat pd.cluster = some p) :
    AllClosed m (putAt (Fat32.newDir m data c pd.cluster) p
      (newRecord pd.name (attrDir ||| attrArchive) c)) (setEntry fat c 0x0FFFFFFF) := by
  obtain ⟨hreach, -, -, -⟩ := newTarget_ok ht
  obtain ⟨A, B, hsplit, hA, -⟩ := freePlace_some hp
  obtain ⟨lp, hlp⟩ := ha.dir hreach
  have hmax := m.max_le
  have hclt : c < 2 ^ 32 := by
    have := hfree.2.1
    omega
  have hmem : p ∈ slots m (chainOf m fat pd.cluster) := by
    rw [hsplit]
    simp
  have hal : Aligned p := aligned_of_mem_slots hmem
  have hpc : p ∉ slots m [c] := by
    rw [hlp.chainOf_eq] at hmem
    refine fun hin => slots_disjoint hlp.range (by simpa using ⟨hfree.1, hfree.2.1⟩) ?_ hmem hin
    simpa using fun hm => hlp.not_free hm hfree
  have hchain : ∀ x, Reached m data fat x →
      chainOf m (setEntry fat c 0x0FFFFFFF) x = chainOf m fat x := by
    intro x hx
    obtain ⟨l, hl⟩ := ha.dir hx
    rw [(hl.setEntry hfree _).1.chainOf_eq, hl.chainOf_eq]
  have hown : chainOf m (setEntry fat c 0x0FFFFFFF) c = [c] :=
    HasChain.chainOf_eq (Or.inr ⟨by simp, IsChain.fresh hfree⟩)
  have hzero := newRecord_used hplain ht (attrDir ||| attrArchive) c
  -- the new directory's records are not touched by the record for it
  have hkeep : ∀ q ∈ slots m [c], recOf (putAt (Fat32.newDir m data c pd.cluster) p
      (newRecord pd.name (attrDir ||| attrArchive) c)) q = recOf (Fat32.newDir m data c pd.cluster) q := by
    intro q hq
    have hne : q ≠ p := fun heq => hpc (heq ▸ hq)
    rw [recOf_putAt hal (aligned_of_mem_slots hq), if_neg hne]
  have hleadsOld : ∀ x, Reached m data fat x → Leads (slots m (chainOf m fat x))
      (fun y => Reached m data fat y ∨ y = c) (Fat32.newDir m data c pd.cluster) := by
    intro x hx q hq hsub
    rw [ha.recOf_newDir hfree hx hq] at hsub ⊢
    exact Or.inl (.sub hx hq hsub)
  intro d hd
  have hS : Reached m data fat d ∨ d = c := by
    refine hd.mem_of_leads (S := fun y => Reached m data fat y ∨ y = c) (Or.inl .root) ?_
    rintro x (hx | rfl)
    · rw [hchain x hx]
      refine (hleadsOld x hx).put (aligned_slots m _) hal fun _ => Or.inr ?_
      exact Dirent.clus_setClus hclt
    · rw [hown]
      intro q hq
      rw [hkeep q hq]
      exact Leads.newDir (S := fun y => Reached m data fat y ∨ y = x) hclt hlp.first_lt
        (Or.inr rfl) (Or.inl hreach) q hq
  rcases hS with hold | rfl
  · rw [hchain d hold]
    have hnew : Closed (Fat32.newDir m data c pd.cluster) (slots m (chainOf m fat d)) :=
      (hc d hold).congr fun q hq => ha.recOf_newDir hfree hold hq
    by_cases hdp : d = pd.cluster
    · subst hdp
      refine hnew.filled_run (Filled.put hal hzero) (aligned_slots m _) (ha.nodup hold) (A := A)
        (B := B) (by simpa using hsplit) fun q hq => ?_
      rw [ha.recOf_newDir hfree hold (by rw [hsplit]; simp [hq])]
      exact fun h0 => hA q hq (Or.inr (Or.inl h0))
    · refine hnew.filled_apart (Filled.put hal hzero) (aligned_slots m _) fun q hq hqp => ?_
      rw [mem_singleton.mp hqp] at hq
      exact ha.not_mem hreach hold hdp hmem hq
  · rw [hown]
    exact (Closed.newDir ⟨hfree.1, hfree.2.1⟩).congr hkeep

/-- **Every effect leaves every directory closed.** -/
theorem AllClosed.effect {op : NsOp} {rc : Int} (hc : AllClosed m data fat)
    (ha : ChainsApart m data fat) (hop : op.Plain) (he : Effect m data fat op rc data' fat') :
    AllClosed m data' fat' := by
  cases he with
  | refused _ => exact hc
  | same _ _ _ => exact hc
  | created ht hp => exact hc.created ha (hop _ (by simp [NsOp.paths])) ht hp
  | made ht hfree hp => exact hc.made ha (hop _ (by simp [NsOp.paths])) ht hfree hp
  | abandoned _ hfree => exact hc.abandoned ha hfree
  | unlinked ht hdir hloc =>
    obtain ⟨d, hf⟩ := pathTarget_found ht
    obtain ⟨-, hdis⟩ := ha.file hf.reached hf.mem (isFile_of_isLive hf.live hdir)
    refine hc.freed ha hloc fun x hx => ?_
    obtain ⟨l, hl⟩ := ha.dir hx
    have hdis' := hdis hx
    rw [hl.chainOf_eq] at hdis' ⊢
    rw [(hl.freed hdis').chainOf_eq]
  | @removed _ t _ _ ht hdir _ _ _ hloc =>
    obtain ⟨d, hf⟩ := pathTarget_found ht
    have hr := hf.reached_clus hdir
    refine hc.freed ha hloc fun x hx => ?_
    obtain ⟨l, hl⟩ := ha.dir hx
    by_cases hxr : x = (recOf data t.pos).clus
    · rw [← hxr, hl.chainOf_eq]
      exact hl.chainOf_freed
    · have hdis := ha.dirs hr hx (Ne.symm hxr)
      rw [hl.chainOf_eq] at hdis ⊢
      rw [(hl.freed hdis).chainOf_eq]
  | renamed hren _ => exact hc.renamed ha (hop _ (by simp [NsOp.paths])) hren
  | moved hren _ hrun =>
    refine hc.moved ha (hop _ (by simp [NsOp.paths])) hren hrun fun cp hcp => ?_
    split_ifs at hcp
    cases hcp
    rfl

/-! ## Writes -/

/-- **A handle that agrees with its record** on the volume: the first
record in use with the handle's short name in its parent directory, which
is how `fat_write_impl` finds it, is a file's, with the first cluster and
the size the handle has. -/
structure Agrees (m : Mount) (data : ℕ → Sector) (fat : ℕ → ℕ) (h : Resolve) (p : DirentPos) : Prop where
  parent : Reached m data fat h.dirCluster
  found : findIn data (matchRecord h.de.name) () (slots m (chainOf m fat h.dirCluster)) =
    .inr (true, p)
  file : (recOf data p).isFile = true
  clus : (recOf data p).clus = h.de.clus
  size : (recOf data p).filesize = h.de.filesize

theorem Agrees.mem (ha : Agrees m data fat h p) :
    p ∈ slots m (chainOf m fat h.dirCluster) := (mem_of_findIn ha.found).1

theorem Agrees.chainOf_grown {head x : ℕ} (ha : ChainsApart m data fat)
    (hagree : Agrees m data fat h p) (hl : HasChain m fat h.de.clus l)
    (hg : Grown m fat h.de.clus l ext fat' head) (hx : Reached m data fat x) :
    chainOf m fat' x = chainOf m fat x ∧ (l ++ ext).Disjoint (chainOf m fat x) := by
  obtain ⟨-, hdis⟩ := ha.file hagree.parent hagree.mem hagree.file
  rw [hagree.clus, hl.chainOf_eq] at hdis
  obtain ⟨lx, hlx⟩ := ha.dir hx
  have hdx := hdis hx
  rw [hlx.chainOf_eq] at hdx ⊢
  exact ⟨(hg.other hlx hdx).1.chainOf_eq, (hg.other hlx hdx).2⟩

/-- **A write keeps every directory closed**: it writes to the file's own
chain and to free clusters, and rewrites a record that is in use. -/
theorem AllClosed.written {head off k : ℕ} {buf : ℕ → UInt8}
    {de : Dirent} (hc : AllClosed m data fat) (ha : ChainsApart m data fat)
    (hagree : Agrees m data fat h p) (hl : HasChain m fat h.de.clus l) (hname : de.name = h.de.name)
    (hg : Grown m fat h.de.clus l ext fat' head) :
    AllClosed m (writtenBack de (slots m (chainOf m fat h.dirCluster))
      (overwrite m (l ++ ext) off k buf data)) fat' := by
  have hother : ∀ {x}, Reached m data fat x → _ := hagree.chainOf_grown ha hl hg
  -- the data of the file are in no directory
  have hrec : ∀ x, Reached m data fat x → ∀ q ∈ slots m (chainOf m fat x),
      recOf (overwrite m (l ++ ext) off k buf data) q = recOf data q := by
    intro x hx q hq
    obtain ⟨lx, hlx⟩ := ha.dir hx
    have hdx := (hother hx).2
    rw [hlx.chainOf_eq] at hdx hq
    have hsec := sectors_disjoint hg.chain.range hlx.range hdx
    unfold recOf
    rw [overwrite_of_not_mem fun hin => hsec hin (mem_slots.mp hq).1]
  have hfind : findIn (overwrite m (l ++ ext) off k buf data) (matchRecord de.name) ()
      (slots m (chainOf m fat h.dirCluster)) = .inr (true, p) := by
    rw [findIn_congr (hrec _ hagree.parent), hname, hagree.found]
  have hal : Aligned p := aligned_of_mem_slots hagree.mem
  have hpos := hrec _ hagree.parent p hagree.mem
  have hused : recOf data p 0 ≠ entFree := by
    have hfile := hagree.file
    simp only [Dirent.isFile, entryUsed, Bool.and_eq_true, bne_iff_ne] at hfile
    exact hfile.1.1.1.1
  have hnot : (recOf data p).isSubdir = false := by
    have hfile := hagree.file
    simp only [Dirent.isFile, Bool.and_eq_true, Bool.not_eq_true'] at hfile
    simp [Dirent.isSubdir, hfile.2]
  rw [writtenBack, hfind]
  simp only [hpos]
  intro d hd
  have hold : Reached m data fat d := by
    refine hd.mem_of_leads .root fun x hx => ?_
    rw [(hother hx).1]
    refine Leads.put (fun q hq => ?_) (aligned_slots m _) hal fun hsub => ?_
    · rw [hrec x hx q hq]
      exact reached_leads hx q hq
    · rw [isSubdir_refreshRecord, hnot] at hsub
      cases hsub
  rw [(hother hold).1]
  have hover := (hc d hold).congr (hrec d hold)
  refine hover.filled_apart (Filled.replace hal ?_ ?_) (aligned_slots m _) (by simp)
  · rw [hpos]
    exact hused
  · exact hused

theorem AllClosed.grown {head : ℕ} (hc : AllClosed m data fat)
    (ha : ChainsApart m data fat) (hagree : Agrees m data fat h p)
    (hl : HasChain m fat h.de.clus l) (hg : Grown m fat h.de.clus l ext fat' head) :
    AllClosed m data fat' := by
  refine hc.edit_nil ha (fun x hx => ?_) (fun x hx => reached_leads hx) (Filled.refl _)
  rw [(hagree.chainOf_grown ha hl hg hx).1]

/-! ## The calls on the storage -/

theorem AllClosed.congr (h : AllClosed m data fat)
    (heq : ∀ lba, m.dataStartLba ≤ lba → data' lba = data lba) : AllClosed m data' fat := by
  have hrec : ∀ {l : List ℕ}, ∀ q ∈ slots m l, recOf data' q = recOf data q := fun q hq => by
    unfold recOf
    rw [heq _ (slots_ge hq)]
  intro d hd
  have hold : Reached m data fat d := by
    refine hd.mem_of_leads .root fun x hx q hq hsub => ?_
    rw [hrec q hq] at hsub ⊢
    exact .sub hx hq hsub
  exact (h d hold).congr hrec

/-- The calls that may change a directory: those of the namespace with C
strings for paths, and writes through the handle of a directory, which
fail, or of a file with which the handle agrees. -/
def FsOp.Changes (m : Mount) (data : ℕ → Sector) (fat : ℕ → ℕ) : FsOp → Prop
  | .ns op => op.Plain
  | .write h _ _ _ => h.de.isDir = true ∨ ∃ p, Agrees m data fat h p
  | _ => False

open Prog (wp wp_bind wp_pure)

theorem AllClosed.wp_write {v : Vol} {off n : ℕ} {buf : Option (ℕ → UInt8)}
    (hc : AllClosed m v.data v.fat) (ha : ChainsApart m v.data v.fat) (hidle : v.active = false)
    (hop : h.de.isDir = true ∨ ∃ p, Agrees m v.data v.fat h p) :
    wp (volume m) (fatWriteImpl m h off buf n) (fun _ v' => AllClosed m v'.data v'.fat) v := by
  by_cases hdir : h.de.isDir = true
  · unfold fatWriteImpl
    rw [if_pos hdir]
    exact hc
  obtain ⟨p, hagree⟩ := hop.resolve_left hdir
  have hreg : h.de.isDir = false := by simpa using hdir
  cases buf with
  | none =>
    unfold fatWriteImpl
    rw [if_neg hdir]
    by_cases hn : n = 0
    · simp only [if_pos hn]
      exact hc
    · simp only [if_neg hn]
      exact hc
  | some buf =>
    obtain ⟨⟨l, hl⟩, hdis⟩ := ha.file hagree.parent hagree.mem hagree.file
    rw [hagree.clus] at hl hdis
    obtain ⟨ld, hld⟩ := ha.dir hagree.parent
    have hdis' := hdis hagree.parent
    rw [hl.chainOf_eq, hld.chainOf_eq] at hdis'
    refine wp_fatWriteImpl hidle hreg hl hld hdis' (fun ext fat' head hg _ _ => ?_)
      fun ext fat' head hg _ => ?_
    · rw [← hld.chainOf_eq]
      exact hc.written ha hagree hl (by simp [grownRecord]) hg
    · exact hc.grown ha hagree hl hg

/-- **The directory terminator.** On a volume whose chains are disjoint
and whose directories are all closed, every call returns and leaves every
directory closed. -/
theorem call_keeps_closed (op : FsOp) (hs : Resting m dev s)
    (ha : ChainsApart m (s.contents dev) s.fat) (hc : AllClosed m (s.contents dev) s.fat)
    (hop : op.Changes m (s.contents dev) s.fat) :
    ∃ s', Fs.step m dev s op = some s' ∧ AllClosed m (s'.contents dev) s'.fat := by
  have hwp : wp (volume m) (op.prog m) (fun _ v' => AllClosed m v'.data v'.fat) (s.volumeOf dev) := by
    cases op with
    | ns op =>
      show wp _ (op.prog m >>= fun _ => pure ()) _ _
      rw [wp_bind]
      refine Prog.wp_mono (wp_nsOp (hs.readable ha) op) fun rc v' hout => ?_
      exact hc.effect ha hop hout.effect
    | write h off buf n =>
      show wp _ (fatWriteImpl m h off buf n >>= fun _ => pure ()) _ _
      rw [wp_bind]
      exact AllClosed.wp_write (v := s.volumeOf dev) hc ha rfl hop
    | lookup path => exact hop.elim
    | getdent r cookie => exact hop.elim
    | read r off ubuf n => exact hop.elim
    | freespace => exact hop.elim
  obtain ⟨r, s', v', hcall, hv', hb⟩ := hs.backs.call hwp
  refine ⟨s', by rw [Fs.step, hcall]; rfl, ?_⟩
  rw [hb.fat]
  exact hv'.congr fun lba hlba => hb.view lba hlba

/-! ## An empty volume -/

/-- A directory made on an empty volume. -/
theorem mkdir_keeps_closed : ∃ s', Fs.step smallMount () blankFs (.ns (.mkdir [97])) = some s' ∧
      AllClosed smallMount (s'.contents ()) s'.fat := by
  refine call_keeps_closed (.ns (.mkdir [97])) (freshFs_mounted smallMount _ _).resting ?_ ?_ ?_
  · rw [blankFs_contents]
    exact blank_chainsApart
  · rw [blankFs_contents]
    exact fun d _ => pairwise_of_forall_mem_list fun _ _ _ _ _ => rfl
  · show ∀ path ∈ [[97]], (0 : UInt8) ∉ path
    decide

end Lnxrm.Fat32
