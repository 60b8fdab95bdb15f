import Mathlib

/-!
# Instance variables

The part of `class_ro_t` that lays out a class's instances, and what it means
that instance variables stay apart.
-/

namespace ObjcDyld.Ivars

/-- The two data models the runtime is built for. -/
inductive Width where
  | lp64
  | ilp32
  deriving DecidableEq, Repr

namespace Width

def wordShift : Width → ℕ
  | lp64 => 3
  | ilp32 => 2

/-- `sizeof(ivar_t)`: three pointers and two 32-bit fields. -/
def sizeofIvar : Width → ℕ
  | lp64 => 32
  | ilp32 => 20

/-- `sizeof(id)` -/
def sizeofId : Width → ℕ
  | lp64 => 8
  | ilp32 => 4

end Width

/-- `1<<count` for a 32-bit operand, whose shift instructions count modulo the operand's width. -/
def shiftOne (count : ℕ) : ℕ := 2 ^ (count % 32)

theorem shiftOne_of_lt {count : ℕ} (small : count < 32) : shiftOne count = 2 ^ count := by
  rw [shiftOne, Nat.mod_eq_of_lt small]

/--
`ivar_t`.  The `offset` is the variable that the field points to, whose 32 bits the layout code
reads and writes as `uint32_t`; an anonymous bitfield has none.
-/
structure Ivar where
  offset : Option ℕ
  name : Option String
  type : String
  alignmentRaw : ℕ
  size : ℕ
  deriving DecidableEq, Repr

/-- `ivar_t::alignment` -/
def Ivar.alignment (width : Width) (ivar : Ivar) : ℕ :=
  if ivar.alignmentRaw = 2 ^ 32 - 1 then 2 ^ width.wordShift else shiftOne ivar.alignmentRaw

/-- `ivar_list_t` -/
structure IvarList where
  entsize : ℕ
  elements : List Ivar
  deriving DecidableEq, Repr

/-- `class_ro_t` -/
structure ClassRo where
  instanceStart : ℕ
  instanceSize : ℕ
  ivars : Option IvarList
  deriving DecidableEq, Repr

/-- The elements of `ro->ivars`. -/
def ClassRo.ivarList (ro : ClassRo) : List Ivar :=
  match ro.ivars with
  | none => []
  | some list => list.elements

/-! ## Extents -/

namespace Ivar

def StartsFrom (place : ℕ) (ivar : Ivar) : Prop := ∀ offset ∈ ivar.offset, place ≤ offset

def EndsBy (place : ℕ) (ivar : Ivar) : Prop := ∀ offset ∈ ivar.offset, offset + ivar.size ≤ place

/-- No byte belongs to both. -/
def Apart (first second : Ivar) : Prop :=
  ∀ start ∈ first.offset, ∀ other ∈ second.offset,
    start + first.size ≤ other ∨ other + second.size ≤ start

instance (place : ℕ) (ivar : Ivar) : Decidable (ivar.StartsFrom place) :=
  inferInstanceAs (Decidable (∀ offset ∈ ivar.offset, place ≤ offset))

instance (place : ℕ) (ivar : Ivar) : Decidable (ivar.EndsBy place) :=
  inferInstanceAs (Decidable (∀ offset ∈ ivar.offset, offset + ivar.size ≤ place))

instance (first second : Ivar) : Decidable (first.Apart second) :=
  inferInstanceAs (Decidable (∀ start ∈ first.offset, ∀ other ∈ second.offset,
    start + first.size ≤ other ∨ other + second.size ≤ start))

theorem EndsBy.mono {ivar : Ivar} {place later : ℕ} (ends : ivar.EndsBy place)
    (le : place ≤ later) : ivar.EndsBy later :=
  fun offset member => (ends offset member).trans le

theorem StartsFrom.mono {ivar : Ivar} {place earlier : ℕ} (starts : ivar.StartsFrom place)
    (le : earlier ≤ place) : ivar.StartsFrom earlier :=
  fun offset member => le.trans (starts offset member)

theorem EndsBy.apart {first second : Ivar} {place : ℕ} (ends : first.EndsBy place)
    (starts : second.StartsFrom place) : first.Apart second :=
  fun start isStart other isOther =>
    .inl ((ends start isStart).trans (starts other isOther))

end Ivar

end ObjcDyld.Ivars
