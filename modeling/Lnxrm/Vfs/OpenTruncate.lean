import Lnxrm.Fat32.PathLaws
import Lnxrm.Vfs.Seek

/-!
# VFS — opening with `O_TRUNC`

A file has three sizes: the one in its record, the one in the handle of an
open file, which writes update and write back, and the one in the vnode.
`O_TRUNC` clears the second and the third. As long as nothing is written
nothing of it reaches the volume, so the next lookup of the path reports
the size in the record: the truncation lasts exactly if the file was empty
already (`truncation_iff`).
-/

namespace Lnxrm.Vfs

open Fat32
open Prog (exec exec_bind)

variable {δ : Type} [DecidableEq δ] {m : Mount} {dev : δ} {s : Fs δ} {t : Target} {l : List ℕ}
  {path : Str} {file : Option RegFile}

/-- The call writes nothing. -/
def FileOp.NoWrite : FileOp → Prop
  | .write _ _ => False
  | _ => True

/-- The handle says that the file is empty, if it is still open. -/
def Emptied (file : Option RegFile) : Prop := ∀ f, file = some f → f.vn.fsData.de.filesize = 0

/-- **One call that is not a write**: it finds the file empty and leaves the
volume alone. -/
theorem exec_noWrite (m : Mount) (dev : δ) (s : Fs δ) {op : FileOp} (hop : op.NoWrite) (h : Emptied file) :
    ∃ r file', exec (fatImpl m dev) (op.run m file) s = some ((r, file'), s) ∧ Emptied file' := by
  cases file with
  | none => exact ⟨_, none, rfl, h⟩
  | some f =>
    have hempty := h f rfl
    cases op with
    | write buf n => exact hop.elim
    | close => exact ⟨_, none, rfl, fun _ hnone => by cases hnone⟩
    | lseek off whence =>
      refine ⟨_, _, rfl, ?_⟩
      rintro _ ⟨⟩
      exact hempty
    | read n =>
      have hread : ∃ r, ∀ n, fatReadImpl m f.vn.fsData f.pos (some m.junk) n =
          pure (r, some m.junk) := by
        unfold fatReadImpl
        by_cases hdir : f.vn.fsData.de.isDir = true
        · exact ⟨_, fun n => if_pos hdir⟩
        · refine ⟨0, fun n => ?_⟩
          rw [if_neg hdir, if_neg (by simp)]
          exact if_pos (by omega)
      obtain ⟨r, hread⟩ := hread
      refine ⟨r, some (f.advance r), ?_, ?_⟩
      · rw [FileOp.run, regRead, hread]
        rfl
      · rintro _ ⟨⟩
        unfold RegFile.advance
        split_ifs <;> exact hempty

/-- **Any number of them.** -/
theorem exec_runOps_noWrite (m : Mount) (dev : δ) (s : Fs δ) (ops : List FileOp) : ∀ {file : Option RegFile},
    (∀ op ∈ ops, op.NoWrite) → Emptied file →
      ∃ file', exec (fatImpl m dev) (runOps m ops file) s = some (file', s) := by
  induction ops with
  | nil => exact fun _ _ => ⟨_, rfl⟩
  | cons op ops ih =>
    intro file hops h
    obtain ⟨r, file₁, hrun, h₁⟩ := exec_noWrite m dev s (hops op List.mem_cons_self) h
    obtain ⟨file', hrest⟩ := ih (fun op hop => hops op (List.mem_cons_of_mem _ hop)) h₁
    refine ⟨file', ?_⟩
    rw [runOps, exec_bind, hrun, Option.bind_some]
    exact hrest

/-- The vnode of a regular file, from its record. -/
def vnodeOf (r : Resolve) : Vnode := { isDir := false, size := r.de.filesize, fsData := r }

/-- **A lookup** of a regular file. -/
theorem exec_fatLookupImpl (hs : Resting m dev s)
    (hdirs : ∀ {d}, Reached m (s.contents dev) s.fat d → ∃ l, HasChain m s.fat d l)
    (ht : pathTarget m (s.contents dev) s.fat path = some t)
    (hfile : (recOf (s.contents dev) t.pos).isDir = false) :
    exec (fatImpl m dev) (fatLookupImpl m path) s =
      some ((0, some (vnodeOf (t.resolve (s.contents dev)))), s) := by
  have hne : pathComponents path ≠ [] := by
    intro hnil
    rw [pathTarget, hnil] at ht
    cases ht
  have hres := fatResolvePath_call hs hdirs path
  rw [Fs.call, ht] at hres
  rw [fatLookupImpl, if_neg hne, exec_bind, hres, Option.bind_some, Option.map_some]
  have hdir : (t.resolve (s.contents dev)).de.isDir = false := hfile
  simp only [hdir, Bool.false_eq_true, if_false]
  rfl

theorem exec_vfsLookup (hs : Resting m dev s)
    (hdirs : ∀ {d}, Reached m (s.contents dev) s.fat d → ∃ l, HasChain m s.fat d l)
    (ht : pathTarget m (s.contents dev) s.fat (fsForPath path) = some t)
    (hfile : (recOf (s.contents dev) t.pos).isDir = false) (creat : Bool) :
    exec (fatImpl m dev) (vfsLookup m path creat false) s =
        some (.ok (.fat (vnodeOf (t.resolve (s.contents dev)))), s) ∧
      ∃ r, r.de.filesize = 0 ∧ exec (fatImpl m dev) (vfsLookup m path creat true) s =
        some (.ok (.fat { isDir := false, size := 0, fsData := r }), s) := by
  have hne : path ≠ [47] := by
    rintro rfl
    cases ht
  have hlook := exec_fatLookupImpl hs hdirs ht hfile
  constructor
  · rw [vfsLookup, exec_bind, hlook, Option.bind_some]
    dsimp only
    rw [if_neg (by simp)]
    rfl
  have hdir : (t.resolve (s.contents dev)).de.isDir = false := hfile
  refine ⟨{ t.resolve (s.contents dev) with de := (t.resolve (s.contents dev)).de.setSize 0 },
    Dirent.filesize_setSize (by decide), ?_⟩
  rw [vfsLookup, exec_bind, hlook, Option.bind_some]
  dsimp only
  rw [if_pos ⟨hne, rfl, rfl⟩, fatWriteImpl, vnodeOf]
  rw [hdir]
  rfl

/-- **The file opened with `O_TRUNC`, used and looked up again**: the
descriptor says that it is empty, and nothing has changed. -/
theorem opened_truncated (hs : Resting m dev s)
    (hdirs : ∀ {d}, Reached m (s.contents dev) s.fat d → ∃ l, HasChain m s.fat d l)
    (ht : pathTarget m (s.contents dev) s.fat (fsForPath (absPath path 128)) = some t)
    (hfile : (recOf (s.contents dev) t.pos).isDir = false) (creat : Bool)
    {ops : List FileOp} (hops : ∀ op ∈ ops, op.NoWrite) :
    ∃ f₀ file, f₀.vn.size = 0 ∧ f₀.currentSize = 0 ∧
      Fs.call m dev (openFile m path creat true) s = some (.ok (.reg f₀), s) ∧
      Fs.call m dev (runOps m ops (some f₀)) s = some (file, s) ∧
      Fs.call m dev (vfsLookup m (absPath path 128) false false) s =
        some (.ok (.fat (vnodeOf (t.resolve (s.contents dev)))), s) := by
  obtain ⟨hlook, -⟩ := exec_vfsLookup hs hdirs ht hfile false
  obtain ⟨-, r, hr, htrunc⟩ := exec_vfsLookup hs hdirs ht hfile creat
  have hempty : Emptied (some { pos := 0, vn := { isDir := false, size := 0, fsData := r } }) := by
    rintro _ ⟨⟩
    exact hr
  obtain ⟨file, hrun⟩ := exec_runOps_noWrite m dev s ops hops hempty
  refine ⟨{ pos := 0, vn := { isDir := false, size := 0, fsData := r } }, file, rfl, hr, ?_, hrun, hlook⟩
  rw [Fs.call, openFile, exec_bind, htrunc]
  rfl

/-- **Truncation lasts** exactly if the file was empty before. The path
names a regular file with the clusters `l`; it is opened with `O_TRUNC`,
any calls but writes are made with the descriptor, and the path is looked
up again. -/
theorem truncation_iff (hs : Resting m dev s)
    (hdirs : ∀ {d}, Reached m (s.contents dev) s.fat d → ∃ l, HasChain m s.fat d l)
    (ht : pathTarget m (s.contents dev) s.fat (fsForPath (absPath path 128)) = some t)
    (hfile : (recOf (s.contents dev) t.pos).isDir = false)
    (hl : HasChain m s.fat (recOf (s.contents dev) t.pos).clus l) (creat : Bool)
    {ops : List FileOp} (hops : ∀ op ∈ ops, op.NoWrite) :
    (∃ f₀ s₁ file s₂ vn s₃,
        Fs.call m dev (openFile m path creat true) s = some (.ok (.reg f₀), s₁) ∧
        Fs.call m dev (runOps m ops (some f₀)) s₁ = some (file, s₂) ∧
        Fs.call m dev (vfsLookup m (absPath path 128) false false) s₂ = some (.ok (.fat vn), s₃) ∧
        vn.size = 0 ∧ ∀ c ∈ l, IsFree m s₂.fat c ∨ c ∈ chainOf m s₂.fat vn.fsData.de.clus) ↔
      (recOf (s.contents dev) t.pos).filesize = 0 := by
  obtain ⟨f, file, -, -, hopen, hrun, hlook⟩ := opened_truncated hs hdirs ht hfile creat hops
  constructor
  · rintro ⟨f₀, s₁, file', s₂, vn, s₃, hopen', hrun', hlook', hsize, -⟩
    cases hopen.symm.trans hopen'
    cases hrun.symm.trans hrun'
    cases hlook.symm.trans hlook'
    exact hsize
  · intro hzero
    refine ⟨_, s, file, s, _, s, hopen, hrun, hlook, hzero, fun c hc => Or.inr ?_⟩
    have hclus : chainOf m s.fat (vnodeOf (t.resolve (s.contents dev))).fsData.de.clus = l :=
      hl.chainOf_eq
    rwa [hclus]

/-- A root directory with one file `a` of this size in cluster 3. -/
def sizedFs (size : ℕ) : Fs Unit :=
  freshFs (fun lba => if lba = 2 then putRec (fun _ => 0) 0 (smallHandle 3 size).de
    else fun _ => 0) smallFat

theorem sizedFs_target {size : ℕ} (h : size = 0 ∨ size = 5) :
    ∃ t, pathTarget smallMount ((sizedFs size).contents ()) (sizedFs size).fat
        (fsForPath (absPath [97] 128)) = some t ∧
      (recOf ((sizedFs size).contents ()) t.pos).isDir = false ∧
      HasChain smallMount (sizedFs size).fat (recOf ((sizedFs size).contents ()) t.pos).clus [3] ∧
      (recOf ((sizedFs size).contents ()) t.pos).filesize = size := by
  have htarget : (pathTarget smallMount ((sizedFs size).contents ()) (sizedFs size).fat
      (fsForPath (absPath [97] 128))).map Target.pos = some ⟨2, 0⟩ := by
    rcases h with rfl | rfl <;> decide +kernel
  have hrec : (recOf ((sizedFs size).contents ()) ⟨2, 0⟩).isDir = false ∧
      HasChain smallMount (sizedFs size).fat
        (recOf ((sizedFs size).contents ()) ⟨2, 0⟩).clus [3] ∧
      (recOf ((sizedFs size).contents ()) ⟨2, 0⟩).filesize = size := by
    rcases h with rfl | rfl <;> decide +kernel
  obtain ⟨t, ht, hpos⟩ := Option.map_eq_some_iff.mp htarget
  rw [← hpos] at hrec
  exact ⟨t, ht, hrec⟩

theorem sizedFs_hasChain {size d : ℕ} (h : size = 0 ∨ size = 5)
    (hd : Reached smallMount ((sizedFs size).contents ()) (sizedFs size).fat d) :
    ∃ l, HasChain smallMount (sizedFs size).fat d l := by
  have hroot : smallMount.rootCluster ∈ [2] := by decide
  have hmem := reached_mem hroot (by rcases h with rfl | rfl <;> decide +kernel) hd
  rw [List.mem_singleton] at hmem
  have hchain : HasChain smallMount smallFat 2 [2] := by decide
  exact ⟨[2], hmem ▸ hchain⟩

theorem noWrite_read_close : ∀ op ∈ [FileOp.read 10, .close], op.NoWrite := by
  intro op hop
  rcases List.mem_cons.mp hop with rfl | hop
  · trivial
  · rw [List.mem_singleton.mp hop]
    trivial

/-- An empty file is empty after it was opened with `O_TRUNC`, read and
closed. -/
theorem empty_file_truncated : ∃ f₀ s₁ file s₂ vn s₃,
    Fs.call smallMount () (openFile smallMount [97] false true) (sizedFs 0) =
        some (.ok (.reg f₀), s₁) ∧
      Fs.call smallMount () (runOps smallMount [.read 10, .close] (some f₀)) s₁ = some (file, s₂) ∧
      Fs.call smallMount () (vfsLookup smallMount (absPath [97] 128) false false) s₂ =
        some (.ok (.fat vn), s₃) ∧
      vn.size = 0 ∧
      ∀ c ∈ [3], IsFree smallMount s₂.fat c ∨ c ∈ chainOf smallMount s₂.fat vn.fsData.de.clus := by
  obtain ⟨t, ht, hfile, hchain, hsize⟩ := sizedFs_target (Or.inl rfl)
  have hs : Resting smallMount () (sizedFs 0) := (freshFs_mounted _ _ _).resting
  exact (truncation_iff hs (sizedFs_hasChain (Or.inl rfl)) ht hfile hchain false
    noWrite_read_close).mpr hsize

/-- **Five bytes come back**: after the file was opened with `O_TRUNC`, read
and closed, a lookup reports its old size. -/
theorem truncated_file_returns : ∃ f₀ s₁ file s₂ vn s₃,
    Fs.call smallMount () (openFile smallMount [97] false true) (sizedFs 5) =
        some (.ok (.reg f₀), s₁) ∧
      Fs.call smallMount () (runOps smallMount [.read 10, .close] (some f₀)) s₁ = some (file, s₂) ∧
      Fs.call smallMount () (vfsLookup smallMount (absPath [97] 128) false false) s₂ =
        some (.ok (.fat vn), s₃) ∧
      f₀.vn.size = 0 ∧ f₀.currentSize = 0 ∧ vn.size = 5 := by
  obtain ⟨t, ht, hfile, -, hsize⟩ := sizedFs_target (Or.inr rfl)
  have hs : Resting smallMount () (sizedFs 5) := (freshFs_mounted _ _ _).resting
  obtain ⟨f₀, file, hf₀, hempty, hopen, hrun, hlook⟩ := opened_truncated hs
    (sizedFs_hasChain (Or.inr rfl)) ht hfile false noWrite_read_close
  exact ⟨f₀, _, file, _, _, _, hopen, hrun, hlook, hf₀, hempty, hsize⟩

end Lnxrm.Vfs
