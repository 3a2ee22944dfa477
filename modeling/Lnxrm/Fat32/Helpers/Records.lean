import Lnxrm.Fat32.Helpers.Layout
import Lnxrm.Fat32.Model.File
import Mathlib.Tactic.FinCases

/-!
# FAT32 — directory records

Proof layer: the fields of a record after one of them is set,
and the records of a sector after one of them is replaced.
-/

namespace Lnxrm.Fat32

open Function

variable {m : Mount} {e : Dirent} {data : ℕ → Sector} {p q : DirentPos}

/-! ## Fields -/

namespace Dirent

@[simp] theorem clus_setSize (n : ℕ) : (e.setSize n).clus = e.clus := rfl
@[simp] theorem clus_setAttr (a : UInt8) : (e.setAttr a).clus = e.clus := rfl
@[simp] theorem clus_setName (sn : Fin 11 → UInt8) : (e.setName sn).clus = e.clus := rfl
@[simp] theorem filesize_setClus (c : ℕ) : (e.setClus c).filesize = e.filesize := rfl
@[simp] theorem filesize_setAttr (a : UInt8) : (e.setAttr a).filesize = e.filesize := rfl
@[simp] theorem filesize_setName (sn : Fin 11 → UInt8) : (e.setName sn).filesize = e.filesize := rfl
@[simp] theorem attr_setSize (n : ℕ) : (e.setSize n).attr = e.attr := rfl
@[simp] theorem attr_setClus (c : ℕ) : (e.setClus c).attr = e.attr := rfl
@[simp] theorem attr_setName (sn : Fin 11 → UInt8) : (e.setName sn).attr = e.attr := rfl
@[simp] theorem attr_setAttr (a : UInt8) : (e.setAttr a).attr = a := rfl

theorem name_apply (i : Fin 11) : e.name i = e (i.castLE (by decide)) := rfl

@[simp] theorem name_setSize (n : ℕ) : (e.setSize n).name = e.name := by
  funext i
  fin_cases i <;> rfl

@[simp] theorem name_setClus (c : ℕ) : (e.setClus c).name = e.name := by
  funext i
  fin_cases i <;> rfl

theorem bytes_of_lt {n : ℕ} (h : n < 2 ^ 32) :
    (UInt8.ofNat n).toNat + 256 * ((UInt8.ofNat (n / 256)).toNat +
      256 * ((UInt8.ofNat (n / 256 ^ 2)).toNat + 256 * (UInt8.ofNat (n / 256 ^ 3)).toNat)) = n := by
  simp only [UInt8.toNat_ofNat']
  omega

theorem clus_setClus {c : ℕ} (h : c < 2 ^ 32) : (e.setClus c).clus = c := bytes_of_lt h

theorem filesize_setSize {n : ℕ} (h : n < 2 ^ 32) : (e.setSize n).filesize = n := bytes_of_lt h

theorem filesize_lt (e : Dirent) : e.filesize < 2 ^ 32 := by
  have h₀ := (e 28).toNat_lt
  have h₁ := (e 29).toNat_lt
  have h₂ := (e 30).toNat_lt
  have h₃ := (e 31).toNat_lt
  unfold filesize
  omega

end Dirent

theorem or_and_of_and_eq_zero {a x y : UInt8} (h : x &&& y = 0) : (a ||| x) &&& y = a &&& y := by
  have hb : x.toBitVec &&& y.toBitVec = 0#8 := congrArg UInt8.toBitVec h
  apply UInt8.toBitVec_inj.mp
  simp only [UInt8.toBitVec_and, UInt8.toBitVec_or]
  rw [BitVec.and_or_distrib_right, hb, BitVec.or_zero]

theorem refreshRecord_kind (de e : Dirent) :
    (refreshRecord de e).isDir = e.isDir ∧ (refreshRecord de e).isLfn = e.isLfn ∧
      (refreshRecord de e).isVolume = e.isVolume ∧ entryUsed (refreshRecord de e) = entryUsed e := by
  have hattr : (refreshRecord de e).attr = e.attr ||| attrArchive := rfl
  refine ⟨?_, ?_, ?_, rfl⟩
  · rw [Dirent.isDir, Dirent.isDir, hattr, or_and_of_and_eq_zero (by decide)]
  · rw [Dirent.isLfn, Dirent.isLfn, hattr, or_and_of_and_eq_zero (by decide)]
  · rw [Dirent.isVolume, Dirent.isVolume, hattr, or_and_of_and_eq_zero (by decide)]

/-! ## Places -/

/-- The data area with one record replaced. -/
def putAt (data : ℕ → Sector) (p : DirentPos) (e : Dirent) : ℕ → Sector :=
  update data p.lba (putRec (data p.lba) p.off e)

theorem recAt_putRec (s : Sector) (off : ℕ) (e : Dirent) : recAt (putRec s off e) off = e := by
  funext i
  unfold recAt putRec
  rw [dif_pos (by omega)]
  congr 1
  ext
  simp

theorem recAt_putRec_of_apart (s : Sector) {off off' : ℕ} (e : Dirent)
    (h : off + 32 ≤ off' ∨ off' + 32 ≤ off) : recAt (putRec s off e) off' = recAt s off' := by
  funext i
  unfold recAt putRec
  rw [dif_neg (by omega)]

theorem putAt_of_ne {lba : ℕ} (h : lba ≠ p.lba) : putAt data p e lba = data lba :=
  update_of_ne h _ _

theorem recOf_putAt_self : recOf (putAt data p e) p = e := by
  rw [recOf, putAt, update_self, recAt_putRec]

theorem recOf_putAt_of_ne (hp : ∃ k, p.off = k * 32) (hq : ∃ k, q.off = k * 32) (h : q ≠ p) :
    recOf (putAt data p e) q = recOf data q := by
  unfold recOf putAt
  by_cases hlba : q.lba = p.lba
  · have hoff : q.off ≠ p.off := fun ho => h (by cases p; cases q; simp_all)
    obtain ⟨j, hj⟩ := hq
    rw [hlba, update_self]
    refine recAt_putRec_of_apart _ e ?_
    omega
  · rw [update_of_ne hlba]

end Lnxrm.Fat32
