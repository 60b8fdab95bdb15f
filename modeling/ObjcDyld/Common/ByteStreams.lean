import Mathlib

/-!
# Byte streams

Values of a fixed size written to and read from a stream of bytes, one after another.
A reader fails when the stream is too short.
-/

namespace ObjcDyld.ByteStreams

abbrev Bytes := List (BitVec 8)

/-- How values of one type are laid out in a fixed number of bytes. -/
structure Layout (α : Type*) where
  size : ℕ
  write : α → Bytes
  value : Bytes → α
  length_write : ∀ a, (write a).length = size
  value_write : ∀ a, value (write a) = a

/-- The little-endian bytes of a number. -/
def bytesOf : ℕ → ℕ → Bytes
  | 0, _ => []
  | n + 1, number => BitVec.ofNat 8 number :: bytesOf n (number / 2 ^ 8)

def numberOf : Bytes → ℕ
  | [] => 0
  | byte :: rest => byte.toNat + 2 ^ 8 * numberOf rest

@[simp] theorem bytesOf_length (n number : ℕ) : (bytesOf n number).length = n := by
  induction n generalizing number with
  | zero => rfl
  | succ n ih => rw [bytesOf, List.length_cons, ih]

theorem numberOf_bytesOf (n number : ℕ) : numberOf (bytesOf n number) = number % 2 ^ (8 * n) := by
  induction n generalizing number with
  | zero => exact (Nat.mod_one number).symm
  | succ n ih =>
      rw [bytesOf, numberOf, ih, BitVec.toNat_ofNat, show 8 * (n + 1) = 8 + 8 * n by omega, Nat.pow_add,
        Nat.mod_mul]

namespace Layout

variable {α β : Type*}

/-- A word of `n` bytes. -/
def word (n : ℕ) : Layout (BitVec (8 * n)) where
  size := n
  write word := bytesOf n word.toNat
  value bytes := BitVec.ofNat (8 * n) (numberOf bytes)
  length_write _ := bytesOf_length _ _
  value_write word := by
    rw [numberOf_bytesOf, Nat.mod_eq_of_lt word.isLt, BitVec.ofNat_toNat, BitVec.setWidth_eq]

/-- Values that are laid out as values of another type. -/
def map (layout : Layout α) (pack : β → α) (unpack : α → β) (unpack_pack : ∀ b, unpack (pack b) = b) :
    Layout β where
  size := layout.size
  write b := layout.write (pack b)
  value bytes := unpack (layout.value bytes)
  length_write b := layout.length_write (pack b)
  value_write b := by rw [layout.value_write, unpack_pack]

/-- The value at the front of a stream and the stream after it. -/
def read (layout : Layout α) (stream : Bytes) : Option (α × Bytes) :=
  if layout.size ≤ stream.length then
    some (layout.value (stream.take layout.size), stream.drop layout.size)
  else none

/-- An array of values at the front of a stream. -/
def readArray (layout : Layout α) : ℕ → Bytes → Option (List α × Bytes)
  | 0, stream => some ([], stream)
  | count + 1, stream => do
      let (first, stream) ← layout.read stream
      let (rest, stream) ← readArray layout count stream
      some (first :: rest, stream)

def writeArray (layout : Layout α) (values : List α) : Bytes := values.flatMap layout.write

@[simp] theorem read_write (layout : Layout α) (a : α) (rest : Bytes) :
    layout.read (layout.write a ++ rest) = some (a, rest) := by
  have size := layout.length_write a
  rw [read, if_pos (by rw [List.length_append, size]; exact Nat.le_add_right ..), List.take_left' size,
    List.drop_left' size, layout.value_write]

@[simp] theorem readArray_writeArray (layout : Layout α) (values : List α) (rest : Bytes) :
    layout.readArray values.length (layout.writeArray values ++ rest) = some (values, rest) := by
  induction values with
  | nil => rfl
  | cons a values ih =>
      rw [writeArray, List.flatMap_cons, List.append_assoc, List.length_cons, readArray, read_write, ← writeArray]
      change (layout.readArray values.length (layout.writeArray values ++ rest) >>= _) = _
      rw [ih]
      rfl

end Layout

end ObjcDyld.ByteStreams
