import Mathlib

/-!
# Numbers in the spare bits of a word

A word whose bits under a mask are known to be zero has room for a small number.
Packing the number there and taking it out again loses neither the number nor
the rest of the word.
-/

namespace ObjcDyld.SpareBits

variable {w : ℕ}

/-- The mask of the `n` bits from bit `s` on. -/
def field (w s n : ℕ) : BitVec w := BitVec.ofNat w (2 ^ n - 1) <<< s

theorem ofNat_shiftLeft_and_field {s n k : ℕ} (small : k < 2 ^ n) :
    (BitVec.ofNat w k <<< s) &&& field w s n = BitVec.ofNat w k <<< s := by
  rw [field, ← BitVec.shiftLeft_and_distrib]
  congr 1
  apply BitVec.eq_of_toNat_eq
  rw [BitVec.toNat_and, BitVec.toNat_ofNat, BitVec.toNat_ofNat]
  apply Nat.eq_of_testBit_eq
  intro i
  rw [Nat.testBit_and, Nat.testBit_mod_two_pow, Nat.testBit_mod_two_pow, Nat.testBit_two_pow_sub_one]
  by_cases inside : i < n
  · simp +contextual [inside]
  · rw [Nat.testBit_lt_two_pow (Nat.lt_of_lt_of_le small (Nat.pow_le_pow_right (by decide)
      (Nat.le_of_not_lt inside)))]
    simp

theorem toNat_ofNat_shiftLeft_shiftRight {s k : ℕ} (fits : k * 2 ^ s < 2 ^ w) :
    ((BitVec.ofNat w k <<< s) >>> s).toNat = k := by
  have below : k < 2 ^ w := Nat.lt_of_le_of_lt (Nat.le_mul_of_pos_right k (Nat.two_pow_pos s)) fits
  rw [BitVec.toNat_ushiftRight, BitVec.toNat_shiftLeft, BitVec.toNat_ofNat, Nat.mod_eq_of_lt below,
    Nat.shiftLeft_eq, Nat.mod_eq_of_lt fits, Nat.shiftRight_eq_div_pow,
    Nat.mul_div_cancel _ (Nat.two_pow_pos s)]

theorem and_shiftLeft_eq_zero {s : ℕ} {x : BitVec w} (small : x.toNat < 2 ^ s) (y : BitVec w) :
    x &&& (y <<< s) = 0#w := by
  apply BitVec.eq_of_getLsbD_eq
  intro i hi
  rw [BitVec.getLsbD_and, BitVec.getLsbD_shiftLeft, BitVec.getLsbD_zero]
  by_cases low : i < s
  · simp [low]
  · have clear : x.getLsbD i = false := by
      rw [BitVec.getLsbD, Nat.testBit_lt_two_pow
        (Nat.lt_of_lt_of_le small (Nat.pow_le_pow_right Nat.two_pos (Nat.le_of_not_lt low)))]
    rw [clear, Bool.false_and]

section Pack

variable (x m d : BitVec w)

theorem pack_and (inside : d &&& m = d) : ((x &&& ~~~m) ||| d) &&& m = d := by
  rw [BitVec.and_or_distrib_right, inside, BitVec.and_assoc]
  simp [BitVec.and_comm]

theorem pack_and_not (inside : d &&& m = d) : ((x &&& ~~~m) ||| d) &&& ~~~m = x &&& ~~~m := by
  have outside : d &&& ~~~m = 0#w := by
    rw [← inside, BitVec.and_assoc]
    simp
  rw [BitVec.and_or_distrib_right, BitVec.and_assoc, BitVec.and_self, outside, BitVec.or_zero]

theorem and_not_eq_self {x m : BitVec w} (spare : x &&& m = 0#w) : x &&& ~~~m = x := by
  ext i hi
  have here : (x &&& m)[i] = (0#w)[i] := by rw [spare]
  simp only [BitVec.getElem_and, BitVec.getElem_zero] at here
  simp only [BitVec.getElem_and, BitVec.getElem_not]
  revert here
  cases x[i] <;> cases m[i] <;> simp

end Pack

end ObjcDyld.SpareBits
