import Lnxrm.Common.Partial
import Lnxrm.Fat32.Helpers.Layout
import Lnxrm.Fat32.Model.Rename

/-!
# FAT32 — the functions that only look

Proof layer. Path resolution, the directory scans and the checks of the
namespace operations call nothing that changes the volume, whatever they
read. They go through the cache in the data area only.
-/

namespace Lnxrm.Fat32

open Prog (Only only_pure only_perform)

/-- The calls that only look. -/
def Looks (m : Mount) : FatOp → Prop
  | .readSector lba _ => m.dataStartLba ≤ lba
  | .devRead _ _ => True
  | .fatLoad _ => True
  | _ => False

variable {m : Mount} {β γ : Type}

theorem looks_fatNextCluster (clus : ℕ) : (fatNextCluster m clus).Only (Looks m) := by
  unfold fatNextCluster
  split
  · exact only_pure _
  · exact Only.bind (only_perform trivial) fun _ => only_pure _

theorem looks_forChain {body : β → ℕ → Fat (β ⊕ γ)} (hbody : ∀ b c, (body b c).Only (Looks m))
    (fuel : ℕ) (b : β) (c : ℕ) : (forChain m body fuel b c).Only (Looks m) := by
  induction fuel generalizing b c with
  | zero => trivial
  | succ fuel ih =>
    rw [forChain]
    split
    · exact only_pure _
    · refine (hbody b c).bind fun r => ?_
      cases r with
      | inl b' => exact (looks_fatNextCluster c).bind fun c' => ih b' c'
      | inr r => exact only_pure _

theorem looks_scanDevice (d : ℕ) (f : β → DirentPos → Dirent → β ⊕ γ) (b : β) :
    (scanDevice m d f b).Only (Looks m) := by
  refine looks_forChain (fun b c => ?_) _ _ _
  exact Only.bind (only_perform (o := FatOp.devRead _ _) trivial) fun _ => only_pure _

theorem looks_scanCached (d : ℕ) (f : β → Dirent → β ⊕ γ) (b : β) :
    (scanCached m d f b).Only (Looks m) := by
  refine looks_forChain (fun b c => Only.forEach (fun b s _ => ?_) b) _ _ _
  have hlba : m.dataStartLba ≤ clusterLba m c + s := Nat.le_add_right_of_le (clusterLba_ge m c)
  exact Only.bind (only_perform hlba) fun _ => only_pure _

/-! ## Scans and paths -/

theorem looks_fatScanDir {κ : Type} (d : ℕ) (cb : κ → Str → Dirent → κ × Bool) (ctx : κ) :
    (fatScanDir m d cb ctx).Only (Looks m) := by
  refine (looks_scanDevice d _ _).bind fun r => ?_
  cases r <;> exact only_pure _

theorem looks_fatScanFind (d : ℕ) (want : Str) : (fatScanFind m d want).Only (Looks m) :=
  (looks_fatScanDir d _ _).bind fun _ => only_pure _

theorem looks_resolveFrom (trailing : Bool) (cur : ℕ) (comps : List Str) :
    (resolveFrom m trailing cur comps).Only (Looks m) := by
  induction comps generalizing cur with
  | nil => exact only_pure _
  | cons comp rest ih =>
    rw [resolveFrom]
    split
    · exact only_pure _
    refine (looks_fatScanFind cur comp).bind fun r => ?_
    cases r with
    | none => exact only_pure _
    | some e =>
      dsimp only
      split
      · exact only_pure _
      split
      · exact only_pure _
      split
      · exact only_pure _
      · exact ih e.clus

theorem looks_fatResolvePath (path : Str) : (fatResolvePath m path).Only (Looks m) :=
  looks_resolveFrom _ _ _

theorem looks_fatLookupImpl (path : Str) : (fatLookupImpl m path).Only (Looks m) := by
  unfold fatLookupImpl
  split
  · exact only_pure _
  · refine (looks_fatResolvePath path).bind fun r => ?_
    cases r with
    | none => exact only_pure _
    | some r =>
      dsimp only
      split <;> exact only_pure _

theorem looks_fat32GetdentImpl (r : Resolve) (cookie : ℕ) :
    (fat32GetdentImpl m r cookie).Only (Looks m) := by
  unfold fat32GetdentImpl
  split
  · exact only_pure _
  · refine (looks_fatScanDir _ _ _).bind fun ⟨_, c⟩ => ?_
    dsimp only
    split <;> exact only_pure _

theorem looks_fatFreespaceImpl : (fatFreespaceImpl m).Only (Looks m) := by
  refine Only.bind (Only.forEach (fun _ i _ => ?_) 0) fun r => ?_
  · exact Only.bind (only_perform trivial) fun _ => only_pure _
  · cases r with
    | inl free => exact only_pure _
    | inr e => exact e.elim

theorem looks_resolveParent (parent : Str) (missing notDir : Int) :
    (resolveParent m parent missing notDir).Only (Looks m) := by
  unfold resolveParent
  split
  · exact only_pure _
  · refine (looks_fatResolvePath parent).bind fun r => ?_
    cases r <;> exact only_pure _

theorem looks_parentDirInit (path : Str) : (parentDirInit m path).Only (Looks m) := by
  refine (looks_resolveParent _ _ _).bind fun r => ?_
  cases r with
  | error e => exact only_pure _
  | ok cluster =>
    dsimp only
    split
    · exact only_pure _
    · refine (looks_fatScanFind _ _).bind fun r => ?_
      cases r <;> exact only_pure _

theorem looks_direntLocate (d : ℕ) (sn : Fin 11 → UInt8) : (direntLocate m d sn).Only (Looks m) := by
  refine (looks_scanDevice d _ _).bind fun r => ?_
  cases r <;> exact only_pure _

theorem looks_dirClaimRun (d need : ℕ) : (dirClaimRun m d need).Only (Looks m) := by
  unfold dirClaimRun
  split
  · exact only_pure _
  · refine (looks_scanDevice d _ _).bind fun r => ?_
    cases r <;> exact only_pure _

theorem looks_dirIsEmpty (d : ℕ) : (dirIsEmpty m d).Only (Looks m) := by
  refine (looks_scanCached d _ _).bind fun r => ?_
  rcases r with ⟨_, _⟩ | ⟨⟨_, _⟩, _, _⟩ <;> exact only_pure _

theorem looks_dirDotdot (clus : ℕ) : (dirDotdot m clus).Only (Looks m) := by
  refine Only.bind (only_perform (clusterLba_ge m clus)) fun r => ?_
  dsimp only
  split
  · exact only_pure _
  · split <;> exact only_pure _

theorem looks_dirContainsFrom (dir turns c : ℕ) :
    (dirContainsFrom m dir turns c).Only (Looks m) := by
  induction turns generalizing c with
  | zero => exact only_pure _
  | succ turns ih =>
    rw [dirContainsFrom]
    split
    · split
      · exact only_pure _
      · refine (looks_dirDotdot c).bind fun p => ?_
        split
        · exact only_pure _
        · exact ih p
    · exact only_pure _

theorem looks_movesIntoItself (de : Dirent) (newDir : ℕ) :
    (movesIntoItself m de newDir).Only (Looks m) := by
  unfold movesIntoItself
  split
  · exact looks_dirContainsFrom _ _ _
  · exact only_pure _

end Lnxrm.Fat32
