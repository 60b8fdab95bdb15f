import Mathlib

/-!
# Retain counts split between isa and side table

A nonpointer isa keeps the extra retain count in its most significant bits.
When that field overflows half of it moves to the object's side-table entry,
and releases borrow it back.  A raw isa has no room for a count, so the whole
count then lives in the side table.
-/

namespace ObjcDyld.Retain

/-! ## Machine words -/

/-- The architectures with a nonpointer isa (`isa.h`). -/
inductive Arch where
  | x86_64
  | arm64
  | armv7k
  deriving DecidableEq, Repr

namespace Arch

def wordBits : Arch → ℕ
  | x86_64 => 64
  | arm64 => 64
  | armv7k => 32

/-- The width of `extra_rc`, the most significant field of the isa. -/
def extraRCBits : Arch → ℕ
  | x86_64 => 8
  | arm64 => 19
  | armv7k => 7

/-- One past the largest value of `extra_rc`. -/
def rcRange (arch : Arch) : ℕ := 2 ^ arch.extraRCBits

def rcOne (arch : Arch) : ℕ := 2 ^ (arch.wordBits - arch.extraRCBits)

def rcHalf (arch : Arch) : ℕ := 2 ^ (arch.extraRCBits - 1)

def sideTableRCPinned (arch : Arch) : ℕ := 2 ^ (arch.wordBits - 1)

end Arch

def sideTableWeaklyReferenced : ℕ := 2 ^ 0

def sideTableDeallocating : ℕ := 2 ^ 1

def sideTableRCOne : ℕ := 2 ^ 2

def sideTableRCShift : ℕ := 2

def sideTableFlagMask : ℕ := sideTableRCOne - 1

/-- `addc` without carry in: the sum modulo the word size and the carry out. -/
def addc (bits lhs rhs : ℕ) : ℕ × Bool := ((lhs + rhs) % 2 ^ bits, decide (2 ^ bits ≤ lhs + rhs))

/-- `subc` without borrow in: the difference modulo the word size and the borrow out. -/
def subc (bits lhs rhs : ℕ) : ℕ × Bool :=
  ((lhs + 2 ^ bits - rhs) % 2 ^ bits, decide (lhs < rhs))

/-! ## The object -/

/-- What the retain code asks of a class. -/
structure Class where
  address : ℕ
  classArrayIndex : ℕ
  isMetaClass : Bool
  isFuture : Bool
  canAllocNonpointer : Bool
  hasCxxDtor : Bool
  deriving DecidableEq, Repr

/-- The fields of a nonpointer `isa_t`. -/
structure IsaFields where
  hasAssoc : Bool
  hasCxxDtor : Bool
  shiftcls : ℕ
  magic : ℕ
  weaklyReferenced : Bool
  deallocating : Bool
  hasSidetableRC : Bool
  extraRC : ℕ
  deriving DecidableEq, Repr

/-- `isa_t`: a raw class pointer, or packed fields with the `nonpointer` bit set. -/
inductive Isa where
  | raw (cls : Class)
  | nonpointer (fields : IsaFields)
  deriving DecidableEq, Repr

/-- An object's isa, and its entry in `SideTable::refcnts` if there is one. -/
structure Object where
  isa : Isa
  refcnt : Option ℕ
  deriving DecidableEq, Repr

namespace IsaFields

/--
The word that packs the fields; `low` are the bits below `weakly_referenced`,
whose order differs between the architectures.
-/
def bits (arch : Arch) (low : ℕ) (fields : IsaFields) : ℕ :=
  low + 2 ^ (arch.wordBits - arch.extraRCBits - 3) *
    (fields.weaklyReferenced.toNat + 2 * fields.deallocating.toNat +
      4 * fields.hasSidetableRC.toNat + 8 * fields.extraRC)

/-- `addc(newisa.bits, RC_ONE * n, 0, &carry)` -/
def addRC (arch : Arch) (fields : IsaFields) (n : ℕ) : IsaFields × Bool :=
  ({ fields with extraRC := (fields.extraRC + n) % arch.rcRange },
    decide (arch.rcRange ≤ fields.extraRC + n))

/-- `subc(newisa.bits, RC_ONE, 0, &carry)` -/
def subRC (arch : Arch) (fields : IsaFields) : IsaFields × Bool :=
  ({ fields with extraRC := (fields.extraRC + arch.rcRange - 1) % arch.rcRange },
    decide (fields.extraRC < 1))

end IsaFields

/--
A word split into `low` bits below `unit` and a field of `range` values above them: counting the
field up by `n` leaves the low bits alone, and carries out of the word when the field overflows.
-/
theorem field_add {unit range low field n : ℕ} (below : low < unit) :
    (low + unit * field + unit * n) % (unit * range) = low + unit * ((field + n) % range) ∧
      (unit * range ≤ low + unit * field + unit * n ↔ range ≤ field + n) := by
  have positive : 0 < unit := by omega
  have whole : low + unit * field + unit * n = low + unit * (field + n) := by ring
  rw [whole]
  refine ⟨?_, ?_⟩
  · rw [Nat.mod_mul, Nat.add_mul_mod_self_left, Nat.mod_eq_of_lt below,
      Nat.add_mul_div_left _ _ positive, Nat.div_eq_of_lt below, Nat.zero_add]
  · constructor
    · intro carried
      by_contra short
      have : unit * (field + n + 1) ≤ unit * range := Nat.mul_le_mul_left unit (by omega)
      rw [Nat.mul_add_one] at this
      omega
    · intro carried
      have : unit * range ≤ unit * (field + n) := Nat.mul_le_mul_left unit carried
      omega

/-- The bits of the word below `extra_rc`. -/
def IsaFields.below (arch : Arch) (low : ℕ) (fields : IsaFields) : ℕ :=
  low + 2 ^ (arch.wordBits - arch.extraRCBits - 3) *
    (fields.weaklyReferenced.toNat + 2 * fields.deallocating.toNat + 4 * fields.hasSidetableRC.toNat)

theorem IsaFields.below_lt (arch : Arch) {low : ℕ} (fields : IsaFields)
    (hlow : low < 2 ^ (arch.wordBits - arch.extraRCBits - 3)) :
    fields.below arch low < arch.rcOne := by
  have weak := fields.weaklyReferenced.toNat_le
  have dealloc := fields.deallocating.toNat_le
  have side := fields.hasSidetableRC.toNat_le
  unfold IsaFields.below
  cases arch <;> simp only [Arch.wordBits, Arch.extraRCBits, Arch.rcOne] at hlow ⊢ <;> omega

theorem IsaFields.bits_eq (arch : Arch) (low : ℕ) (fields : IsaFields) :
    fields.bits arch low = fields.below arch low + arch.rcOne * fields.extraRC := by
  unfold IsaFields.below IsaFields.bits
  cases arch <;> simp only [Arch.wordBits, Arch.extraRCBits, Arch.rcOne] <;> omega

theorem Arch.word_eq (arch : Arch) : 2 ^ arch.wordBits = arch.rcOne * arch.rcRange := by
  cases arch <;> simp [Arch.wordBits, Arch.extraRCBits, Arch.rcOne, Arch.rcRange]

theorem addc_bits (arch : Arch) {low : ℕ} (fields : IsaFields) (n : ℕ)
    (hlow : low < 2 ^ (arch.wordBits - arch.extraRCBits - 3)) :
    addc arch.wordBits (fields.bits arch low) (arch.rcOne * n) =
      ((fields.addRC arch n).1.bits arch low, (fields.addRC arch n).2) := by
  obtain ⟨sum, carry⟩ := field_add (fields.below_lt arch hlow)
  rw [addc, Arch.word_eq, IsaFields.bits_eq, IsaFields.bits_eq, sum]
  exact Prod.ext rfl (decide_eq_decide.mpr carry)

theorem subc_bits (arch : Arch) {low : ℕ} (fields : IsaFields)
    (hlow : low < 2 ^ (arch.wordBits - arch.extraRCBits - 3)) (hextra : fields.extraRC < arch.rcRange) :
    subc arch.wordBits (fields.bits arch low) arch.rcOne =
      ((fields.subRC arch).1.bits arch low, (fields.subRC arch).2) := by
  have below := fields.below_lt arch hlow
  have range : 0 < arch.rcRange := by omega
  have whole : fields.below arch low + arch.rcOne * fields.extraRC + arch.rcOne * arch.rcRange -
      arch.rcOne = fields.below arch low + arch.rcOne * fields.extraRC +
        arch.rcOne * (arch.rcRange - 1) := by
    have : arch.rcOne * arch.rcRange = arch.rcOne * (arch.rcRange - 1) + arch.rcOne := by
      rw [← Nat.mul_add_one, Nat.sub_add_cancel range]
    omega
  have borrow : fields.below arch low + arch.rcOne * fields.extraRC < arch.rcOne ↔
      fields.extraRC < 1 := by
    constructor
    · intro less
      by_contra some
      have : arch.rcOne * 1 ≤ arch.rcOne * fields.extraRC := Nat.mul_le_mul_left _ (by omega)
      omega
    · intro none
      have : fields.extraRC = 0 := by omega
      simpa [this] using below
  rw [subc, Arch.word_eq, IsaFields.bits_eq, IsaFields.bits_eq, whole, (field_add below).1]
  refine Prod.ext ?_ (decide_eq_decide.mpr borrow)
  have : fields.extraRC + (arch.rcRange - 1) = fields.extraRC + arch.rcRange - 1 := by omega
  simp only [IsaFields.subRC, this]
  rfl

end ObjcDyld.Retain
