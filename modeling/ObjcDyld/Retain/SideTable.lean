import ObjcDyld.Retain.Object

/-!
# The side table's retain count

One word in `SideTable::refcnts` holds a weakly-referenced bit, a deallocating
bit, the retain count above them and a pinned bit on top.  An object without
an entry behaves as one whose word is zero, because `DenseMap` may purge the
entries whose value is zero.
-/

namespace ObjcDyld.Retain

/-! ## The functions -/

/-- `count << SIDE_TABLE_RC_SHIFT` in a machine word. -/
def shiftRC (arch : Arch) (count : ℕ) : ℕ :=
  (count <<< sideTableRCShift) % 2 ^ arch.wordBits

/-- `sidetable_moveExtraRC_nolock` -/
def sidetableMoveExtraRC (arch : Arch) (extraRC : ℕ) (isDeallocating weaklyReferenced : Bool)
    (storage : Option ℕ) : Option ℕ :=
  let oldRefcnt := storage.getD 0
  let (sum, carry) := addc arch.wordBits oldRefcnt (shiftRC arch extraRC)
  let refcnt := if carry then arch.sideTableRCPinned else sum
  let refcnt := if isDeallocating then refcnt ||| sideTableDeallocating else refcnt
  let refcnt := if weaklyReferenced then refcnt ||| sideTableWeaklyReferenced else refcnt
  some refcnt

/-- `sidetable_addExtraRC_nolock`: whether the object is now pinned, and the new entry. -/
def sidetableAddExtraRC (arch : Arch) (deltaRC : ℕ) (storage : Option ℕ) : Bool × Option ℕ :=
  let oldRefcnt := storage.getD 0
  if oldRefcnt &&& arch.sideTableRCPinned ≠ 0 then (true, some oldRefcnt)
  else
    let (newRefcnt, carry) := addc arch.wordBits oldRefcnt (shiftRC arch deltaRC)
    if carry then (true, some (arch.sideTableRCPinned ||| (oldRefcnt &&& sideTableFlagMask)))
    else (false, some newRefcnt)

/-- `sidetable_subExtraRC_nolock`: the count subtracted, and the new entry. -/
def sidetableSubExtraRC (arch : Arch) (deltaRC : ℕ) (storage : Option ℕ) : ℕ × Option ℕ :=
  match storage with
  | none => (0, none)
  | some oldRefcnt =>
      if oldRefcnt = 0 then (0, some oldRefcnt)
      else (deltaRC, some (subc arch.wordBits oldRefcnt (shiftRC arch deltaRC)).1)

/-- `sidetable_getExtraRC_nolock` -/
def sidetableGetExtraRC (storage : Option ℕ) : ℕ :=
  match storage with
  | none => 0
  | some refcnt => refcnt >>> sideTableRCShift

def sidetableRetain (arch : Arch) (storage : Option ℕ) : Option ℕ :=
  let refcnt := storage.getD 0
  if refcnt &&& arch.sideTableRCPinned = 0 then
    some (addc arch.wordBits refcnt sideTableRCOne).1
  else some refcnt

def sidetableTryRetain (arch : Arch) (storage : Option ℕ) : Bool × Option ℕ :=
  match storage with
  | none => (true, some sideTableRCOne)
  | some refcnt =>
      if refcnt &&& sideTableDeallocating ≠ 0 then (false, some refcnt)
      else if refcnt &&& arch.sideTableRCPinned = 0 then
        (true, some (addc arch.wordBits refcnt sideTableRCOne).1)
      else (true, some refcnt)

def sidetableRetainCount (storage : Option ℕ) : ℕ :=
  match storage with
  | none => 1
  | some refcnt => 1 + refcnt >>> sideTableRCShift

def sidetableIsDeallocating (storage : Option ℕ) : Bool :=
  match storage with
  | none => false
  | some refcnt => refcnt &&& sideTableDeallocating ≠ 0

/-- `sidetable_setWeaklyReferenced_nolock` -/
def sidetableSetWeaklyReferenced (storage : Option ℕ) : Option ℕ :=
  some (storage.getD 0 ||| sideTableWeaklyReferenced)

/-- `sidetable_release`: whether to deallocate, and the new entry. -/
def sidetableRelease (arch : Arch) (storage : Option ℕ) : Bool × Option ℕ :=
  match storage with
  | none => (true, some sideTableDeallocating)
  | some refcnt =>
      if refcnt < sideTableDeallocating then (true, some (refcnt ||| sideTableDeallocating))
      else if refcnt &&& arch.sideTableRCPinned = 0 then
        (false, some (subc arch.wordBits refcnt sideTableRCOne).1)
      else (false, some refcnt)

/-! ## The word -/

/-- The word of a side-table entry that is not pinned. -/
def packRefcnt (count : ℕ) (deallocating weaklyReferenced : Bool) : ℕ :=
  4 * count + (2 * deallocating.toNat + weaklyReferenced.toNat)

theorem flags_lt (deallocating weaklyReferenced : Bool) :
    2 * deallocating.toNat + weaklyReferenced.toNat < 4 := by
  cases deallocating <;> cases weaklyReferenced <;> decide

@[simp] theorem packRefcnt_shift (count : ℕ) (dealloc weak : Bool) :
    packRefcnt count dealloc weak >>> sideTableRCShift = count := by
  have := flags_lt dealloc weak
  rw [packRefcnt, sideTableRCShift, Nat.shiftRight_eq_div_pow]
  omega

theorem packRefcnt_or (count flags : ℕ) (dealloc weak : Bool) (hflags : flags < 4) :
    packRefcnt count dealloc weak ||| flags =
      4 * count + ((2 * dealloc.toNat + weak.toNat) ||| flags) := by
  have merged : (2 * dealloc.toNat + weak.toNat) ||| flags < 2 ^ 2 :=
    Nat.or_lt_two_pow (flags_lt dealloc weak) hflags
  have split (rest : ℕ) (small : rest < 2 ^ 2) : 4 * count + rest = 2 ^ 2 * count ||| rest :=
    Nat.two_pow_add_eq_or_of_lt small count
  rw [packRefcnt, split _ (flags_lt dealloc weak), split _ merged, Nat.or_assoc]

theorem packRefcnt_or_deallocating (count : ℕ) (dealloc weak : Bool) :
    packRefcnt count dealloc weak ||| sideTableDeallocating = packRefcnt count true weak := by
  rw [packRefcnt_or _ _ _ _ (by decide)]
  cases dealloc <;> cases weak <;> rfl

theorem packRefcnt_or_weaklyReferenced (count : ℕ) (dealloc weak : Bool) :
    packRefcnt count dealloc weak ||| sideTableWeaklyReferenced = packRefcnt count dealloc true := by
  rw [packRefcnt_or _ _ _ _ (by decide)]
  cases dealloc <;> cases weak <;> rfl

theorem packRefcnt_and_deallocating (count : ℕ) (dealloc weak : Bool) :
    packRefcnt count dealloc weak &&& sideTableDeallocating = 2 * dealloc.toNat := by
  rw [sideTableDeallocating, Nat.and_two_pow, Nat.testBit_eq_decide_div_mod_eq, packRefcnt]
  cases dealloc <;> cases weak <;> simp <;> omega

theorem and_pinned {arch : Arch} {refcnt : ℕ} (small : refcnt < arch.sideTableRCPinned) :
    refcnt &&& arch.sideTableRCPinned = 0 := by
  rw [Arch.sideTableRCPinned, Nat.and_two_pow, Nat.testBit_lt_two_pow small, Bool.toNat_false,
    Nat.zero_mul]

theorem pinned_double (arch : Arch) : 2 ^ arch.wordBits = 2 * arch.sideTableRCPinned := by
  cases arch <;> simp [Arch.wordBits, Arch.sideTableRCPinned]

theorem shiftRC_eq {arch : Arch} {count : ℕ} (small : 4 * count < 2 ^ arch.wordBits) :
    shiftRC arch count = 4 * count := by
  rw [shiftRC, Nat.shiftLeft_eq, sideTableRCShift]
  rw [Nat.mod_eq_of_lt (by omega)]
  omega

/-! ## What the functions do to an unpinned count -/

/--
The object's entry holds this count and these flags and is not pinned; a missing entry holds
nothing.
-/
def Holds (arch : Arch) (storage : Option ℕ) (count : ℕ) (dealloc weak : Bool) : Prop :=
  storage.getD 0 = packRefcnt count dealloc weak ∧
    packRefcnt count dealloc weak < arch.sideTableRCPinned

namespace Holds

variable {arch : Arch} {storage : Option ℕ} {count : ℕ} {dealloc weak : Bool}

theorem of_none (held : Holds arch none count dealloc weak) :
    count = 0 ∧ dealloc = false ∧ weak = false := by
  have zero := held.1
  rw [packRefcnt] at zero
  cases dealloc <;> cases weak <;> simp at zero ⊢
  omega

theorem moveExtraRC {extraRC : ℕ} (held : Holds arch storage count false false)
    (small : packRefcnt (count + extraRC) dealloc weak < arch.sideTableRCPinned) :
    Holds arch (sidetableMoveExtraRC arch extraRC dealloc weak storage)
      (count + extraRC) dealloc weak := by
  have double := pinned_double arch
  have bound : packRefcnt (count + extraRC) dealloc weak < 2 ^ arch.wordBits := by omega
  have old : packRefcnt count false false = 4 * count := by simp [packRefcnt]
  have sum : addc arch.wordBits (storage.getD 0) (shiftRC arch extraRC) =
      (packRefcnt (count + extraRC) false false, false) := by
    rw [packRefcnt] at bound
    rw [held.1, old, shiftRC_eq (by omega), addc, Nat.mod_eq_of_lt (by omega)]
    refine Prod.ext ?_ (decide_eq_false (by omega))
    simp only [packRefcnt, Bool.toNat_false]
    omega
  refine ⟨?_, small⟩
  rw [sidetableMoveExtraRC, sum]
  cases dealloc <;> cases weak <;>
    simp [packRefcnt_or_deallocating, packRefcnt_or_weaklyReferenced]

theorem addExtraRC {deltaRC : ℕ} (held : Holds arch storage count false false)
    (small : packRefcnt (count + deltaRC) false false < arch.sideTableRCPinned) :
    Holds arch (sidetableAddExtraRC arch deltaRC storage).2 (count + deltaRC) false false := by
  have double := pinned_double arch
  have old : packRefcnt count false false = 4 * count := by simp [packRefcnt]
  have new : packRefcnt (count + deltaRC) false false = 4 * count + 4 * deltaRC := by
    simp [packRefcnt, Nat.mul_add]
  have sum : addc arch.wordBits (packRefcnt count false false) (shiftRC arch deltaRC) =
      (packRefcnt (count + deltaRC) false false, false) := by
    rw [old, shiftRC_eq (by omega), addc, Nat.mod_eq_of_lt (by omega), new]
    exact Prod.ext rfl (decide_eq_false (by omega))
  refine ⟨?_, small⟩
  simp [sidetableAddExtraRC, held.1, and_pinned held.2, sum]

theorem subExtraRC_zero (deltaRC : ℕ) (held : Holds arch storage 0 false false) :
    sidetableSubExtraRC arch deltaRC storage = (0, storage) := by
  cases storage with
  | none => rfl
  | some refcnt =>
      have zero : refcnt = 0 := by simpa [packRefcnt] using held.1
      simp [sidetableSubExtraRC, zero]

theorem subExtraRC {deltaRC : ℕ} (held : Holds arch storage (count + deltaRC) false false)
    (some_asked : 0 < deltaRC) :
    (sidetableSubExtraRC arch deltaRC storage).1 = deltaRC ∧
      Holds arch (sidetableSubExtraRC arch deltaRC storage).2 count false false := by
  have double := pinned_double arch
  obtain ⟨value, small⟩ := held
  have old : packRefcnt (count + deltaRC) false false = 4 * count + 4 * deltaRC := by
    simp [packRefcnt, Nat.mul_add]
  have new : packRefcnt count false false = 4 * count := by simp [packRefcnt]
  cases storage with
  | none =>
      have zero : 0 = packRefcnt (count + deltaRC) false false := value
      omega
  | some refcnt =>
      have value : refcnt = packRefcnt (count + deltaRC) false false := value
      have difference : (subc arch.wordBits refcnt (shiftRC arch deltaRC)).1 = 4 * count := by
        rw [shiftRC_eq (by omega), subc, value, old]
        have : 4 * count + 4 * deltaRC + 2 ^ arch.wordBits - 4 * deltaRC =
            4 * count + 2 ^ arch.wordBits := by omega
        rw [this, Nat.add_mod_right, Nat.mod_eq_of_lt (by omega)]
      have nonzero : refcnt ≠ 0 := by omega
      simp only [sidetableSubExtraRC, nonzero, if_false, difference, Holds, Option.getD_some,
        true_and]
      omega

theorem getExtraRC (held : Holds arch storage count dealloc weak) :
    sidetableGetExtraRC storage = count := by
  cases storage with
  | none => exact held.of_none.1.symm
  | some refcnt =>
      have value : refcnt = packRefcnt count dealloc weak := held.1
      rw [sidetableGetExtraRC, value, packRefcnt_shift]

theorem retainCount (held : Holds arch storage count dealloc weak) :
    sidetableRetainCount storage = 1 + count := by
  cases storage with
  | none => rw [held.of_none.1]; rfl
  | some refcnt =>
      have value : refcnt = packRefcnt count dealloc weak := held.1
      rw [sidetableRetainCount, value, packRefcnt_shift]

theorem isDeallocating (held : Holds arch storage count dealloc weak) :
    sidetableIsDeallocating storage = dealloc := by
  cases storage with
  | none => rw [held.of_none.2.1]; rfl
  | some refcnt =>
      have value : refcnt = packRefcnt count dealloc weak := held.1
      rw [sidetableIsDeallocating, value, packRefcnt_and_deallocating]
      cases dealloc <;> rfl

theorem setWeaklyReferenced (held : Holds arch storage count dealloc weak) :
    Holds arch (sidetableSetWeaklyReferenced storage) count dealloc true := by
  have double : packRefcnt count dealloc true < arch.sideTableRCPinned := by
    have := held.2
    have even : 4 ∣ arch.sideTableRCPinned := by cases arch <;> decide
    rw [packRefcnt] at *
    cases dealloc <;> simp at * <;> omega
  refine ⟨?_, double⟩
  simp [sidetableSetWeaklyReferenced, held.1, packRefcnt_or_weaklyReferenced]

theorem retain_word (small : packRefcnt (count + 1) dealloc weak < arch.sideTableRCPinned) :
    (addc arch.wordBits (packRefcnt count dealloc weak) sideTableRCOne).1 =
      packRefcnt (count + 1) dealloc weak := by
  have double := pinned_double arch
  have new : packRefcnt count dealloc weak + 4 = packRefcnt (count + 1) dealloc weak := by
    simp only [packRefcnt]; omega
  have one : sideTableRCOne = 4 := rfl
  rw [addc, one, new, Nat.mod_eq_of_lt (by omega)]

theorem retain (held : Holds arch storage count dealloc weak)
    (small : packRefcnt (count + 1) dealloc weak < arch.sideTableRCPinned) :
    Holds arch (sidetableRetain arch storage) (count + 1) dealloc weak := by
  refine ⟨?_, small⟩
  simp [sidetableRetain, held.1, and_pinned held.2, retain_word small]

theorem tryRetain_deallocating (held : Holds arch storage count true weak) :
    sidetableTryRetain arch storage = (false, storage) := by
  cases storage with
  | none => exact absurd held.of_none.2.1 (by decide)
  | some refcnt =>
      have value : refcnt = packRefcnt count true weak := held.1
      simp [sidetableTryRetain, value, packRefcnt_and_deallocating]

theorem tryRetain (held : Holds arch storage count false weak)
    (small : packRefcnt (count + 1) false weak < arch.sideTableRCPinned) :
    (sidetableTryRetain arch storage).1 = true ∧
      Holds arch (sidetableTryRetain arch storage).2 (count + 1) false weak := by
  cases storage with
  | none =>
      obtain ⟨rfl, -, rfl⟩ := held.of_none
      exact ⟨rfl, rfl, small⟩
  | some refcnt =>
      have value : refcnt = packRefcnt count false weak := held.1
      have unpinned := and_pinned held.2
      simp [sidetableTryRetain, value, packRefcnt_and_deallocating, unpinned, retain_word small,
        Holds, small]

theorem release_last (held : Holds arch storage 0 false weak) :
    (sidetableRelease arch storage).1 = true ∧
      Holds arch (sidetableRelease arch storage).2 0 true weak := by
  have small : packRefcnt 0 true weak < arch.sideTableRCPinned := by
    cases arch <;> cases weak <;> decide
  cases storage with
  | none =>
      obtain ⟨-, -, rfl⟩ := held.of_none
      exact ⟨rfl, rfl, small⟩
  | some refcnt =>
      have value : refcnt = packRefcnt 0 false weak := held.1
      have last : packRefcnt 0 false weak < sideTableDeallocating := by cases weak <;> decide
      simp [sidetableRelease, value, last, packRefcnt_or_deallocating, Holds, small]

theorem release (held : Holds arch storage (count + 1) dealloc weak) :
    (sidetableRelease arch storage).1 = false ∧
      Holds arch (sidetableRelease arch storage).2 count dealloc weak := by
  have double := pinned_double arch
  obtain ⟨value, small⟩ := held
  have old : packRefcnt (count + 1) dealloc weak = packRefcnt count dealloc weak + 4 := by
    simp only [packRefcnt]; omega
  have one : sideTableRCOne = 4 := rfl
  cases storage with
  | none =>
      have zero : 0 = packRefcnt (count + 1) dealloc weak := value
      omega
  | some refcnt =>
      have value : refcnt = packRefcnt (count + 1) dealloc weak := value
      have more : ¬ packRefcnt (count + 1) dealloc weak < sideTableDeallocating := by
        rw [old, show sideTableDeallocating = 2 from rfl]; omega
      have difference : (subc arch.wordBits (packRefcnt (count + 1) dealloc weak)
          sideTableRCOne).1 = packRefcnt count dealloc weak := by
        have : packRefcnt count dealloc weak + 4 + 2 ^ arch.wordBits - 4 =
            packRefcnt count dealloc weak + 2 ^ arch.wordBits := by omega
        rw [subc, one, old, this, Nat.add_mod_right, Nat.mod_eq_of_lt (by omega)]
      have still : packRefcnt count dealloc weak < arch.sideTableRCPinned := by omega
      simp [sidetableRelease, value, more, and_pinned small, difference, Holds, still]

end Holds

end ObjcDyld.Retain
