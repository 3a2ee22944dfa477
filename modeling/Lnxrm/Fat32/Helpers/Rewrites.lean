import Lnxrm.Fat32.Helpers.Directories

/-!
# FAT32 — the records a rename writes

Proof layer. What lies at a place after records were marked free
(`recOf_freeAll`), after a run of long-name records was written
(`map_recOf_putLfns`), and after a `..` record was set anew
(`recOf_repointed`).
-/

namespace Lnxrm.Fat32

open List

variable {m : Mount} {data : ℕ → Sector} {fat : ℕ → ℕ} {e : Dirent} {p q : DirentPos}
  {ps : List DirentPos} {total : ℕ} {sum : UInt8} {w : Str} {loc : DirentLoc} {d c parent : ℕ}

theorem freedRecord_idem (e : Dirent) : freedRecord (freedRecord e) = freedRecord e := by
  unfold freedRecord
  rw [Function.update_idem]

theorem recOf_freeAt (hp : Aligned p) (hq : Aligned q) :
    recOf (freeAt data p) q = if q = p then freedRecord (recOf data q) else recOf data q := by
  rw [freeAt, recOf_putAt hp hq]
  by_cases h : q = p
  · rw [if_pos h, if_pos h, h]
  · rw [if_neg h, if_neg h]

theorem recOf_freeAll (hps : ∀ p ∈ ps, Aligned p) (hq : Aligned q) :
    recOf (ps.foldl freeAt data) q =
      if q ∈ ps then freedRecord (recOf data q) else recOf data q := by
  induction ps generalizing data with
  | nil => rfl
  | cons p ps ih =>
    have hp := hps p mem_cons_self
    rw [foldl_cons, ih fun x hx => hps x (mem_cons_of_mem _ hx), recOf_freeAt hp hq]
    by_cases hqp : q = p
    · rw [if_pos hqp, freedRecord_idem, ite_self, if_pos (hqp ▸ mem_cons_self)]
    · rw [if_neg hqp]
      simp only [mem_cons, hqp, false_or]

theorem freeLoc_eq (data : ℕ → Sector) (loc : DirentLoc) :
    freeLoc data loc = (loc.lfn ++ [loc.pos]).foldl freeAt data := by
  rw [foldl_append]
  rfl

theorem recOf_freeLoc (hloc : ∀ p ∈ loc.lfn ++ [loc.pos], Aligned p) (hq : Aligned q) :
    recOf (freeLoc data loc) q =
      if q ∈ loc.lfn ++ [loc.pos] then freedRecord (recOf data q) else recOf data q := by
  rw [freeLoc_eq, recOf_freeAll hloc hq]

/-! ## Long names -/

theorem recOf_putLfns_of_not_mem (hps : ∀ p ∈ ps, Aligned p) (hq : Aligned q) (hn : q ∉ ps) :
    recOf (putLfns total sum w ps data) q = recOf data q := by
  induction ps generalizing data with
  | nil => rfl
  | cons p ps ih =>
    rw [mem_cons, not_or] at hn
    rw [putLfns, ih (fun x hx => hps x (mem_cons_of_mem _ hx)) hn.2,
      recOf_putAt (hps p mem_cons_self) hq, if_neg hn.1]

/-- **The records of a long name**, in the places they were written to. -/
theorem map_recOf_putLfns (hps : ∀ p ∈ ps, Aligned p) (hnd : ps.Nodup) :
    ps.map (recOf (putLfns total sum w ps data)) = lfnRun total sum w ps.length := by
  induction ps generalizing data with
  | nil => rfl
  | cons p ps ih =>
    obtain ⟨hp, hnd⟩ := nodup_cons.mp hnd
    have hps' : ∀ x ∈ ps, Aligned x := fun x hx => hps x (mem_cons_of_mem _ hx)
    have hal := hps p mem_cons_self
    have hfirst : recOf (putLfns total sum w (p :: ps) data) p =
        lfnFill (ps.length + 1) total sum w := by
      rw [putLfns, recOf_putLfns_of_not_mem hps' hal hp, recOf_putAt_self]
    rw [map_cons, hfirst, putLfns, ih hps' hnd]
    rfl

/-! ## The `..` record -/

/-- Setting the `..` record of a directory leaves the records of the
others. -/
theorem recOf_repointed (ha : ChainsApart m data fat) (hc : Reached m data fat c)
    (hrange : 2 ≤ c ∧ c < m.maxCluster) {data' : ℕ → Sector} (hd : Reached m data fat d)
    (hne : c ≠ d) (hq : q ∈ slots m (chainOf m fat d)) :
    recOf (setDotdot m data' c parent) q = recOf data' q := by
  rcases setDotdot_cases m data' c parent with heq | ⟨p, hlba, hal, -, heq⟩
  · rw [heq]
  rw [heq, recOf_putAt hal (aligned_of_mem_slots hq), if_neg]
  rintro rfl
  obtain ⟨l, hl⟩ := ha.dir hc
  obtain ⟨l', hl'⟩ := ha.dir hd
  have hdis := ha.dirs hc hd hne
  rw [hl.chainOf_eq, hl'.chainOf_eq] at hdis
  rw [hl'.chainOf_eq] at hq
  have hcl : c ∈ l := by
    rcases hl with ⟨h0, -⟩ | ⟨hne, hchain⟩
    · omega
    · obtain ⟨x, xs, rfl⟩ := exists_cons_of_ne_nil hne
      rw [hchain.head_eq]
      exact mem_cons_self
  have hin : q.lba ∈ sectors m l := by
    rw [hlba]
    exact mem_sectors.mpr ⟨c, hcl, 0, m.spc_pos, (Nat.add_zero _).symm⟩
  exact sectors_disjoint hl.range hl'.range hdis hin (mem_slots.mp hq).1

end Lnxrm.Fat32
