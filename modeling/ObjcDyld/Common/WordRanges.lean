import Mathlib

/-!
# Ranges of machine words

A range is given by its start and its size, both machine words. As a set of numbers it has no
wrap-around; the end that a machine computes has.
-/

namespace ObjcDyld.WordRanges

variable {w : ℕ}

/-- The numbers from the start up to the end of a range, without wrap-around. -/
def extent (start size : BitVec w) : Set ℕ := Set.Ico start.toNat (start.toNat + size.toNat)

/-- The machine's end of the range is not its end. -/
def Wraps (start size : BitVec w) : Prop := 2 ^ w ≤ start.toNat + size.toNat

instance (start size : BitVec w) : Decidable (Wraps start size) := inferInstanceAs (Decidable (_ ≤ _))

theorem toNat_end {start size : BitVec w} (fits : ¬Wraps start size) :
    (start + size).toNat = start.toNat + size.toNat := by
  rw [BitVec.toNat_add, Nat.mod_eq_of_lt (Nat.lt_of_not_le fits)]

theorem toNat_end_of_wraps {start size : BitVec w} (wraps : Wraps start size) :
    (start + size).toNat + 2 ^ w = start.toNat + size.toNat := by
  have small := start.isLt
  have small' := size.isLt
  have wrapped : (start.toNat + size.toNat) % 2 ^ w = start.toNat + size.toNat - 2 ^ w := by
    rw [Nat.mod_eq_sub_mod wraps, Nat.mod_eq_of_lt (by omega)]
  rw [Wraps] at wraps
  rw [BitVec.toNat_add, wrapped]
  omega

/-- The test of two ranges for overlap by their starts and the machine's ends. -/
def overlap (start end' start' end'' : BitVec w) : Bool :=
  (start' ≤ start && end'' > start && end' > start) || (start' ≥ start && start' < end' && end'' > start')

theorem overlap_iff {start size start' size' : BitVec w} (fits : ¬Wraps start size) (fits' : ¬Wraps start' size') :
    overlap start (start + size) start' (start' + size') = false ↔
      Disjoint (extent start size) (extent start' size') := by
  rw [extent, extent, Set.Ico_disjoint_Ico, overlap]
  simp only [Bool.or_eq_false_iff, Bool.and_eq_false_iff, decide_eq_false_iff_not, BitVec.le_def, BitVec.lt_def,
    gt_iff_lt, ge_iff_le, toNat_end fits, toNat_end fits']
  omega

theorem extent_subset_iff {start size start' size' : BitVec w} (nonempty : 0 < size.toNat) :
    extent start size ⊆ extent start' size' ↔
      start'.toNat ≤ start.toNat ∧ start.toNat + size.toNat ≤ start'.toNat + size'.toNat :=
  Set.Ico_subset_Ico_iff (by omega)

theorem extent_empty {start size : BitVec w} (empty : size.toNat = 0) : extent start size = ∅ := by
  rw [extent, empty, Nat.add_zero, Set.Ico_self]

def greaterThanAddOrOverflow (addLHS addRHS b : BitVec w) : Bool := addLHS > b || addRHS > b - addLHS

theorem greaterThanAddOrOverflow_iff (addLHS addRHS b : BitVec w) :
    greaterThanAddOrOverflow addLHS addRHS b = false ↔ addLHS.toNat + addRHS.toNat ≤ b.toNat := by
  simp only [greaterThanAddOrOverflow, Bool.or_eq_false_iff, decide_eq_false_iff_not, gt_iff_lt, BitVec.lt_def,
    Nat.not_lt]
  constructor
  · rintro ⟨le, le'⟩
    rw [BitVec.toNat_sub_of_le le] at le'
    omega
  · intro le
    have le_b : addLHS ≤ b := BitVec.le_def.mpr (by omega)
    exact ⟨by omega, by rw [BitVec.toNat_sub_of_le le_b]; omega⟩

end ObjcDyld.WordRanges
