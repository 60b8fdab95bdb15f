import Mathlib

/-!
# Immediates in instructions

The instructions that split-seg info refers to: where their immediates are, how
the Adjustor reads and writes them, and that a write leaves the other bits alone.
-/

namespace ObjcDyld.SplitSeg

/-! ## Pairs of `movw` and `movt` -/

def isThumbMovw (instruction : BitVec 32) : Bool := instruction &&& 0x8000FBF0 == 0x0000F240

def isThumbMovt (instruction : BitVec 32) : Bool := instruction &&& 0x8000FBF0 == 0x0000F2C0

def getThumbWord (instruction : BitVec 32) : BitVec 16 :=
  let i := (instruction &&& 0x00000400) >>> 10
  let imm4 := instruction &&& 0x0000000F
  let imm3 := (instruction &&& 0x70000000) >>> 28
  let imm8 := (instruction &&& 0x00FF0000) >>> 16
  ((imm4 <<< 12) ||| (i <<< 11) ||| (imm3 <<< 8) ||| imm8).setWidth 16

def setThumbWord (instruction : BitVec 32) (word : BitVec 16) : BitVec 32 :=
  let imm4 := (word.setWidth 32 &&& 0xF000) >>> 12
  let i := (word.setWidth 32 &&& 0x0800) >>> 11
  let imm3 := (word.setWidth 32 &&& 0x0700) >>> 8
  let imm8 := word.setWidth 32 &&& 0x00FF
  (instruction &&& 0x8F00FBF0) ||| imm4 ||| (i <<< 10) ||| (imm3 <<< 28) ||| (imm8 <<< 16)

def isArmMovw (instruction : BitVec 32) : Bool := instruction &&& 0x0FF00000 == 0x03000000

def isArmMovt (instruction : BitVec 32) : Bool := instruction &&& 0x0FF00000 == 0x03400000

def getArmWord (instruction : BitVec 32) : BitVec 16 :=
  let imm4 := (instruction &&& 0x000F0000) >>> 16
  let imm12 := instruction &&& 0x00000FFF
  ((imm4 <<< 12) ||| imm12).setWidth 16

def setArmWord (instruction : BitVec 32) (word : BitVec 16) : BitVec 32 :=
  let imm4 := (word.setWidth 32 &&& 0xF000) >>> 12
  let imm12 := word.setWidth 32 &&& 0x0FFF
  (instruction &&& 0xFFF0F000) ||| (imm4 <<< 16) ||| imm12

/-- The instruction set of a pair; the code for both is the same up to these. -/
inductive MovInstructions where
  | thumb
  | arm
  deriving DecidableEq, Repr

namespace MovInstructions

def isMovw : MovInstructions → BitVec 32 → Bool
  | thumb => isThumbMovw
  | arm => isArmMovw

def isMovt : MovInstructions → BitVec 32 → Bool
  | thumb => isThumbMovt
  | arm => isArmMovt

def getWord : MovInstructions → BitVec 32 → BitVec 16
  | thumb => getThumbWord
  | arm => getArmWord

def setWord : MovInstructions → BitVec 32 → BitVec 16 → BitVec 32
  | thumb => setThumbWord
  | arm => setArmWord

/-- The bits that are not part of the immediate. -/
def kept : MovInstructions → BitVec 32
  | thumb => 0x8F00FBF0
  | arm => 0xFFF0F000

/-- The 32-bit value that two paired instructions make, in either order. -/
def full (instructions : MovInstructions) (instruction1 instruction2 : BitVec 32) :
    Option (BitVec 32) :=
  if instructions.isMovw instruction1 && instructions.isMovt instruction2 then
    some ((instructions.getWord instruction2).setWidth 32 <<< 16 |||
      (instructions.getWord instruction1).setWidth 32)
  else if instructions.isMovt instruction1 && instructions.isMovw instruction2 then
    some ((instructions.getWord instruction1).setWidth 32 <<< 16 |||
      (instructions.getWord instruction2).setWidth 32)
  else none

/-- Write the value of two paired instructions. -/
def setFull (instructions : MovInstructions) (instruction1 instruction2 full : BitVec 32) :
    BitVec 32 × BitVec 32 :=
  let low := (full &&& 0xFFFF).setWidth 16
  let high := (full >>> 16).setWidth 16
  if instructions.isMovw instruction1 && instructions.isMovt instruction2 then
    (instructions.setWord instruction1 low, instructions.setWord instruction2 high)
  else (instructions.setWord instruction1 high, instructions.setWord instruction2 low)

end MovInstructions

theorem and_eq_of_kept {a b kept : BitVec 32} (same : a &&& kept = b &&& kept) (mask : BitVec 32)
    (inside : kept &&& mask = mask) : a &&& mask = b &&& mask := by
  rw [← inside, ← BitVec.and_assoc, ← BitVec.and_assoc, same]

theorem getThumbWord_setThumbWord (instruction : BitVec 32) (word : BitVec 16) :
    getThumbWord (setThumbWord instruction word) = word := by
  apply BitVec.eq_of_getLsbD_eq
  intro bit lt
  simp only [getThumbWord, setThumbWord, BitVec.getLsbD_setWidth, BitVec.getLsbD_or,
    BitVec.getLsbD_and, BitVec.getLsbD_shiftLeft, BitVec.getLsbD_ushiftRight]
  interval_cases bit <;> simp

theorem setThumbWord_kept (instruction : BitVec 32) (word : BitVec 16) :
    setThumbWord instruction word &&& 0x8F00FBF0 = instruction &&& 0x8F00FBF0 := by
  apply BitVec.eq_of_getLsbD_eq
  intro bit lt
  simp only [setThumbWord, BitVec.getLsbD_setWidth, BitVec.getLsbD_or, BitVec.getLsbD_and,
    BitVec.getLsbD_shiftLeft, BitVec.getLsbD_ushiftRight]
  interval_cases bit <;> simp

theorem getArmWord_setArmWord (instruction : BitVec 32) (word : BitVec 16) :
    getArmWord (setArmWord instruction word) = word := by
  apply BitVec.eq_of_getLsbD_eq
  intro bit lt
  simp only [getArmWord, setArmWord, BitVec.getLsbD_setWidth, BitVec.getLsbD_or,
    BitVec.getLsbD_and, BitVec.getLsbD_shiftLeft, BitVec.getLsbD_ushiftRight]
  interval_cases bit <;> simp

theorem setArmWord_kept (instruction : BitVec 32) (word : BitVec 16) :
    setArmWord instruction word &&& 0xFFF0F000 = instruction &&& 0xFFF0F000 := by
  apply BitVec.eq_of_getLsbD_eq
  intro bit lt
  simp only [setArmWord, BitVec.getLsbD_setWidth, BitVec.getLsbD_or, BitVec.getLsbD_and,
    BitVec.getLsbD_shiftLeft, BitVec.getLsbD_ushiftRight]
  interval_cases bit <;> simp

namespace MovInstructions

variable (instructions : MovInstructions) (instruction instruction1 instruction2 : BitVec 32)

@[simp] theorem getWord_setWord (word : BitVec 16) :
    instructions.getWord (instructions.setWord instruction word) = word := by
  cases instructions with
  | thumb => exact getThumbWord_setThumbWord instruction word
  | arm => exact getArmWord_setArmWord instruction word

@[simp] theorem setWord_kept (word : BitVec 16) :
    instructions.setWord instruction word &&& instructions.kept =
      instruction &&& instructions.kept := by
  cases instructions with
  | thumb => exact setThumbWord_kept instruction word
  | arm => exact setArmWord_kept instruction word

@[simp] theorem isMovw_setWord (word : BitVec 16) :
    instructions.isMovw (instructions.setWord instruction word) =
      instructions.isMovw instruction := by
  cases instructions with
  | thumb =>
      simp only [isMovw, isThumbMovw, setWord,
        and_eq_of_kept (setThumbWord_kept instruction word) 0x8000FBF0 (by decide)]
  | arm =>
      simp only [isMovw, isArmMovw, setWord,
        and_eq_of_kept (setArmWord_kept instruction word) 0x0FF00000 (by decide)]

@[simp] theorem isMovt_setWord (word : BitVec 16) :
    instructions.isMovt (instructions.setWord instruction word) =
      instructions.isMovt instruction := by
  cases instructions with
  | thumb =>
      simp only [isMovt, isThumbMovt, setWord,
        and_eq_of_kept (setThumbWord_kept instruction word) 0x8000FBF0 (by decide)]
  | arm =>
      simp only [isMovt, isArmMovt, setWord,
        and_eq_of_kept (setArmWord_kept instruction word) 0x0FF00000 (by decide)]

theorem halves (value : BitVec 32) :
    ((value >>> 16).setWidth 16).setWidth 32 <<< 16 |||
      ((value &&& 0xFFFF).setWidth 16).setWidth 32 = value := by
  apply BitVec.eq_of_getLsbD_eq
  intro bit lt
  simp only [BitVec.getLsbD_setWidth, BitVec.getLsbD_or, BitVec.getLsbD_and,
    BitVec.getLsbD_shiftLeft, BitVec.getLsbD_ushiftRight]
  interval_cases bit <;> simp

theorem full_setFull {before : BitVec 32}
    (paired : instructions.full instruction1 instruction2 = some before) (value : BitVec 32) :
    instructions.full (instructions.setFull instruction1 instruction2 value).1
      (instructions.setFull instruction1 instruction2 value).2 = some value := by
  rw [full] at paired
  rw [setFull]
  by_cases lowFirst : instructions.isMovw instruction1 && instructions.isMovt instruction2
  · simp only [if_pos lowFirst, full, isMovw_setWord, isMovt_setWord, getWord_setWord, halves]
  · rw [if_neg lowFirst] at paired
    by_cases highFirst : instructions.isMovt instruction1 && instructions.isMovw instruction2
    · simp only [if_neg lowFirst, if_pos highFirst, full, isMovw_setWord, isMovt_setWord,
        getWord_setWord, halves]
    · rw [if_neg highFirst] at paired
      cases paired

theorem setFull_kept (value : BitVec 32) :
    (instructions.setFull instruction1 instruction2 value).1 &&& instructions.kept =
        instruction1 &&& instructions.kept ∧
      (instructions.setFull instruction1 instruction2 value).2 &&& instructions.kept =
        instruction2 &&& instructions.kept := by
  rw [setFull]
  split <;> exact ⟨setWord_kept .., setWord_kept ..⟩

end MovInstructions

/-! ## `adrp` -/

def isAdrp (instruction : BitVec 32) : Bool := instruction &&& 0x9F000000 == 0x90000000

/-- The distance in pages that an `adrp` encodes. -/
def page21 (instruction : BitVec 32) : BitVec 21 :=
  (((instruction >>> 5) &&& 0x7FFFF) <<< 2 ||| ((instruction >>> 29) &&& 3)).setWidth 21

def setPage21 (instruction : BitVec 32) (newPage21 : BitVec 64) : BitVec 32 :=
  ((instruction.setWidth 64 &&& 0x9F00001F) ||| ((newPage21 <<< 29) &&& 0x60000000) |||
    ((newPage21 <<< 3) &&& 0x00FFFFE0)).setWidth 32

@[simp] theorem page21_setPage21 (instruction : BitVec 32) (newPage21 : BitVec 64) :
    page21 (setPage21 instruction newPage21) = newPage21.setWidth 21 := by
  apply BitVec.eq_of_getLsbD_eq
  intro bit lt
  simp only [page21, setPage21, BitVec.getLsbD_setWidth, BitVec.getLsbD_or, BitVec.getLsbD_and,
    BitVec.getLsbD_shiftLeft, BitVec.getLsbD_ushiftRight]
  interval_cases bit <;> simp

theorem setPage21_kept (instruction : BitVec 32) (newPage21 : BitVec 64) :
    setPage21 instruction newPage21 &&& 0x9F00001F = instruction &&& 0x9F00001F := by
  apply BitVec.eq_of_getLsbD_eq
  intro bit lt
  simp only [setPage21, BitVec.getLsbD_setWidth, BitVec.getLsbD_or, BitVec.getLsbD_and,
    BitVec.getLsbD_shiftLeft]
  interval_cases bit <;> simp

/-! ## Offsets in a page -/

/-- The immediate of a load, a store or an addition. -/
def addend12 (instruction : BitVec 32) : ℕ := ((instruction &&& 0x003FFC00) >>> 10).toNat

def setAddend12 (instruction : BitVec 32) (newAddend : ℕ) : BitVec 32 :=
  (instruction &&& 0xFFC003FF) ||| (BitVec.ofNat 32 newAddend <<< 10)

/-- The unit in which a load or a store (`LDR/STR imm12`) counts. -/
def accessSize (instruction : BitVec 32) : ℕ :=
  if instruction &&& 0xC0000000 = 0 then
    if instruction &&& 0x04800000 = 0x04800000 then 16 else 1
  else if instruction &&& 0xC0000000 = 0x40000000 then 2
  else if instruction &&& 0xC0000000 = 0x80000000 then 4
  else 8

def isLoadStore12 (instruction : BitVec 32) : Bool := instruction &&& 0x3B000000 == 0x39000000

def isAdd12 (instruction : BitVec 32) : Bool := instruction &&& 0xFFC00000 == 0x91000000

/-- The unit of the immediate of an instruction that has an offset in a page. -/
def off12Scale (instruction : BitVec 32) : Option ℕ :=
  if isLoadStore12 instruction then some (accessSize instruction)
  else if isAdd12 instruction then some 1
  else none

theorem ofNat_eq_setWidth {newAddend : ℕ} (lt : newAddend < 4096) :
    BitVec.ofNat 32 newAddend = (BitVec.ofNat 12 newAddend).setWidth 32 := by
  apply BitVec.eq_of_toNat_eq
  rw [BitVec.toNat_setWidth, BitVec.toNat_ofNat, BitVec.toNat_ofNat]
  omega

theorem setAddend12_kept (instruction : BitVec 32) {newAddend : ℕ} (lt : newAddend < 4096) :
    setAddend12 instruction newAddend &&& 0xFFC003FF = instruction &&& 0xFFC003FF := by
  rw [setAddend12, ofNat_eq_setWidth lt]
  apply BitVec.eq_of_getLsbD_eq
  intro bit lt32
  simp only [BitVec.getLsbD_setWidth, BitVec.getLsbD_or, BitVec.getLsbD_and,
    BitVec.getLsbD_shiftLeft]
  interval_cases bit <;> simp

@[simp] theorem addend12_setAddend12 (instruction : BitVec 32) {newAddend : ℕ}
    (lt : newAddend < 4096) : addend12 (setAddend12 instruction newAddend) = newAddend := by
  have word : (setAddend12 instruction newAddend &&& 0x003FFC00) >>> 10 =
      (BitVec.ofNat 12 newAddend).setWidth 32 := by
    rw [setAddend12, ofNat_eq_setWidth lt]
    apply BitVec.eq_of_getLsbD_eq
    intro bit lt32
    simp only [BitVec.getLsbD_setWidth, BitVec.getLsbD_or, BitVec.getLsbD_and,
      BitVec.getLsbD_shiftLeft, BitVec.getLsbD_ushiftRight]
    interval_cases bit <;> simp
  rw [addend12, word, BitVec.toNat_setWidth, BitVec.toNat_ofNat]
  omega

@[simp] theorem off12Scale_setAddend12 (instruction : BitVec 32) {newAddend : ℕ}
    (lt : newAddend < 4096) :
    off12Scale (setAddend12 instruction newAddend) = off12Scale instruction := by
  have masked := and_eq_of_kept (setAddend12_kept instruction lt)
  unfold off12Scale isLoadStore12 isAdd12 accessSize
  rw [masked 0x3B000000 (by decide), masked 0xFFC00000 (by decide), masked 0xC0000000 (by decide),
    masked 0x04800000 (by decide)]

end ObjcDyld.SplitSeg
