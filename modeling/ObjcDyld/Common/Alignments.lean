import Mathlib

/-!
# Rounding up to an alignment

The usual expression `(value + mask) & ~mask` in words of a fixed width, and
the rounding it stands for as long as the word does not wrap.
-/

namespace ObjcDyld.Alignments

/-! ## Rounding without a word size -/

/-- The least multiple of the unit that is not below the value. -/
def roundUp (value unit : ℕ) : ℕ := (value + unit - 1) / unit * unit

theorem unit_dvd_roundUp (value unit : ℕ) : unit ∣ roundUp value unit := Nat.dvd_mul_left _ _

theorem le_roundUp (value : ℕ) {unit : ℕ} (positive : 0 < unit) : value ≤ roundUp value unit := by
  have split := Nat.div_add_mod' (value + unit - 1) unit
  have rest := Nat.mod_lt (value + unit - 1) positive
  unfold roundUp
  omega

theorem roundUp_lt (value : ℕ) {unit : ℕ} (positive : 0 < unit) :
    roundUp value unit < value + unit := by
  have split := Nat.div_add_mod' (value + unit - 1) unit
  unfold roundUp
  omega

theorem roundUp_le {value unit bound : ℕ} (positive : 0 < unit) (least : value ≤ bound)
    (aligned : unit ∣ bound) : roundUp value unit ≤ bound := by
  obtain ⟨times, rfl⟩ := aligned
  have short := roundUp_lt value positive
  obtain ⟨rounded, same⟩ := unit_dvd_roundUp value unit
  rw [same] at short ⊢
  have : unit * rounded < unit * (times + 1) := by
    rw [Nat.mul_add_one]
    omega
  exact Nat.mul_le_mul_left unit (Nat.le_of_lt_succ (Nat.lt_of_mul_lt_mul_left this))

/-! ## Rounding with a mask -/

/-- `(value + mask) & ~mask` in words of the given width. -/
def maskUp (bits mask value : ℕ) : ℕ :=
  (value + mask) % 2 ^ bits &&& (2 ^ bits - 1 - mask)

theorem and_clear {bits k word : ℕ} (bound : k ≤ bits) (fits : word < 2 ^ bits) :
    word &&& (2 ^ bits - 1 - (2 ^ k - 1)) = word / 2 ^ k * 2 ^ k := by
  have mask : 2 ^ bits - 1 - (2 ^ k - 1) = 2 ^ k * (2 ^ (bits - k) - 1) := by
    have whole : 2 ^ k * 2 ^ (bits - k) = 2 ^ bits := by
      rw [← Nat.pow_add, Nat.add_sub_cancel' bound]
    have positive : 0 < 2 ^ k := Nat.two_pow_pos k
    rw [Nat.mul_sub, whole, Nat.mul_one]
    omega
  rw [mask, Nat.mul_comm _ (2 ^ k)]
  refine Nat.eq_of_testBit_eq fun i => ?_
  rw [Nat.testBit_and, Nat.testBit_two_pow_mul, Nat.testBit_two_pow_mul, Nat.testBit_two_pow_sub_one,
    Nat.testBit_div_two_pow]
  by_cases low : k ≤ i
  · have high : word.testBit i = true → i < bits := fun set => by
      by_contra above
      rw [Nat.testBit_lt_two_pow (fits.trans_le (Nat.pow_le_pow_right (by decide) (by omega)))] at set
      exact Bool.false_ne_true set
    have shifted : i - k + k = i := Nat.sub_add_cancel low
    cases set : word.testBit i with
    | false => simp [low, shifted, set]
    | true =>
        have := high set
        simp [low, shifted, set]
        omega
  · simp [low]

theorem maskUp_eq {bits k value : ℕ} (bound : k ≤ bits) (fits : value < 2 ^ bits) :
    maskUp bits (2 ^ k - 1) value = roundUp value (2 ^ k) % 2 ^ bits := by
  have positive : 0 < 2 ^ k := Nat.two_pow_pos k
  have least : 2 ^ k ≤ 2 ^ bits := Nat.pow_le_pow_right (by decide) bound
  have whole : 2 ^ k ∣ 2 ^ bits := Nat.pow_dvd_pow 2 bound
  rw [maskUp, and_clear bound (Nat.mod_lt _ (Nat.two_pow_pos bits))]
  have sum : value + 2 ^ k - 1 = value + (2 ^ k - 1) := by omega
  obtain short | wraps := Nat.lt_or_ge (value + (2 ^ k - 1)) (2 ^ bits)
  · have below : roundUp value (2 ^ k) < 2 ^ bits := by
      refine Nat.lt_of_le_of_lt ?_ short
      rw [roundUp, sum]
      exact Nat.div_mul_le_self _ _
    rw [Nat.mod_eq_of_lt short, Nat.mod_eq_of_lt below, roundUp, sum]
  · have rounded : roundUp value (2 ^ k) = 2 ^ bits := by
      refine Nat.le_antisymm (roundUp_le positive fits.le whole) ?_
      obtain ⟨times, size⟩ := whole
      rw [roundUp, sum, size, Nat.mul_comm]
      refine Nat.mul_le_mul_right _ ?_
      rw [Nat.le_div_iff_mul_le positive, Nat.mul_comm, ← size]
      exact wraps
    rw [rounded, Nat.mod_self, Nat.mod_eq_sub_mod wraps, Nat.mod_eq_of_lt (by omega)]
    rw [Nat.div_eq_of_lt (by omega), Nat.zero_mul]

theorem maskUp_eq_roundUp {bits k value : ℕ} (bound : k ≤ bits)
    (fits : roundUp value (2 ^ k) < 2 ^ bits) :
    maskUp bits (2 ^ k - 1) value = roundUp value (2 ^ k) := by
  have small := (le_roundUp value (Nat.two_pow_pos k)).trans_lt fits
  rw [maskUp_eq bound small, Nat.mod_eq_of_lt fits]

end ObjcDyld.Alignments
