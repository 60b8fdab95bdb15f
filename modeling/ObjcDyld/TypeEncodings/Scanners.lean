import Mathlib

/-!
# Scanning method type strings

The functions of `objc-typeencoding.mm`.  A C string is the list of its
characters before the terminator; a scan that runs past the terminator, or that
ends in `_objc_fatal`, has no result.
-/

namespace ObjcDyld.TypeEncodings

/-! ## One type -/

/-- `SubtypeUntil`: how many characters come before `stop` at level zero. -/
def subtypeUntil (stop : Char) (level : ℤ) : List Char → Option ℕ
  | [] => none
  | c :: type =>
      if level = 0 ∧ c = stop then some 0
      else
        let level :=
          if c = ']' ∨ c = '}' ∨ c = ')' then level - 1
          else if c = '[' ∨ c = '{' ∨ c = '(' then level + 1
          else level
        (subtypeUntil stop level type).map (· + 1)

/-- `while ((*type >= '0') && (*type <= '9')) type += 1;` -/
def skipDigits (type : List Char) : List Char := type.dropWhile Char.isDigit

/-- Bycopy, in, out, inout, const, oneway and pointers. -/
def isQualifier (c : Char) : Bool :=
  c = 'O' || c = 'n' || c = 'o' || c = 'N' || c = 'r' || c = 'V' || c = '^'

/-- The rest of the string behind the bracket that closes the one before it. -/
def skipSubtype (stop : Char) (type : List Char) : Option (List Char) :=
  (subtypeUntil stop 0 type).map fun length => type.drop (length + 1)

def skipFirstType : List Char → Option (List Char)
  | [] => none
  | c :: type =>
      if isQualifier c then skipFirstType type
      else if c = '@' then
        -- blocks
        if type.head? = some '?' then some type.tail else some type
      else if c = '[' then skipSubtype ']' (skipDigits type)
      else if c = '{' then skipSubtype '}' type
      else if c = '(' then skipSubtype ')' type
      else some type

/-- Skipping GNU runtime's register parameter hint. -/
def skipHint (typedesc : List Char) : List Char :=
  if typedesc.head? = some '+' then typedesc.tail else typedesc

/-- Skipping a hint and a possibly negative argument offset. -/
def skipOffset (typedesc : List Char) : List Char :=
  let typedesc := skipHint typedesc
  let typedesc := if typedesc.head? = some '-' then typedesc.tail else typedesc
  skipDigits typedesc

/-- A C `int`, which wraps around in two's complement. -/
def wrapInt (value : ℤ) : ℤ := value.bmod (2 ^ 32)

/-- `*typedesc - '0'` -/
def digitValue (c : Char) : ℕ := c.toNat - '0'.toNat

/-- Skipping a hint and picking up a possibly negative argument offset. -/
def readOffset (initial : ℤ) (typedesc : List Char) : ℤ × List Char :=
  let typedesc := skipHint typedesc
  let negative := typedesc.head? = some '-'
  let typedesc := if negative then typedesc.tail else typedesc
  let offset := (typedesc.takeWhile Char.isDigit).foldl
    (fun offset c => wrapInt (offset * 10 + digitValue c)) initial
  (if negative then wrapInt (-offset) else offset, skipDigits typedesc)

/-! ## Every scan gets shorter -/

theorem length_skipDigits_le (type : List Char) : (skipDigits type).length ≤ type.length :=
  (List.dropWhile_suffix _).length_le

theorem length_skipOffset_le (typedesc : List Char) :
    (skipOffset typedesc).length ≤ typedesc.length := by
  have tail (list : List Char) (c : Char) :
      (if list.head? = some c then list.tail else list).length ≤ list.length := by
    split
    next => rw [List.length_tail]; exact Nat.sub_le _ _
    next => exact Nat.le_refl _
  exact (length_skipDigits_le _).trans ((tail _ _).trans (tail _ _))

theorem length_skipSubtype_le {stop : Char} {type rest : List Char}
    (skipped : skipSubtype stop type = some rest) : rest.length ≤ type.length := by
  obtain ⟨length, -, rfl⟩ := Option.map_eq_some_iff.mp skipped
  exact (List.drop_suffix _ _).length_le

theorem length_skipFirstType_lt {type rest : List Char} (skipped : skipFirstType type = some rest) :
    rest.length < type.length := by
  induction type with
  | nil => exact absurd skipped.symm (Option.some_ne_none _)
  | cons c type ih =>
      rw [List.length_cons, Nat.lt_succ_iff]
      unfold skipFirstType at skipped
      split at skipped
      next => exact (ih skipped).le
      next =>
        split at skipped
        next =>
          split at skipped
          next =>
            obtain rfl := Option.some.inj skipped
            rw [List.length_tail]
            exact Nat.sub_le _ _
          next => exact (congrArg List.length (Option.some.inj skipped)).ge
        next =>
          split at skipped
          next => exact (length_skipSubtype_le skipped).trans (length_skipDigits_le _)
          next =>
            split at skipped
            next => exact length_skipSubtype_le skipped
            next =>
              split at skipped
              next => exact length_skipSubtype_le skipped
              next => exact (congrArg List.length (Option.some.inj skipped)).ge

/-! ## The functions on method type strings -/

/-- The counting loop of `encoding_getNumberOfArguments`. -/
def countArguments (typedesc : List Char) (nargs : ℕ) : Option ℕ :=
  if typedesc = [] then some nargs
  else
    match skipped : skipFirstType typedesc with
    | none => none
    | some rest => countArguments (skipOffset rest) ((nargs + 1) % 2 ^ 32)
termination_by typedesc.length
decreasing_by exact (length_skipOffset_le rest).trans_lt (length_skipFirstType_lt skipped)

def encodingGetNumberOfArguments (typedesc : List Char) : Option ℕ := do
  let typedesc ← skipFirstType typedesc
  countArguments (skipDigits typedesc) 0

def encodingGetSizeOfArguments (typedesc : List Char) : Option ℕ := do
  let typedesc ← skipFirstType typedesc
  return (typedesc.takeWhile Char.isDigit).foldl
    (fun stackSize c => (stackSize * 10 + digitValue c) % 2 ^ 32) 0

/-- The loop of `encoding_getArgumentInfo` that positions `typedesc` to the appropriate argument. -/
def positionArgument (arg : ℕ) (typedesc : List Char) (nargs : ℕ) (selfOffset : ℤ) :
    Option (List Char × ℕ × ℤ) :=
  if typedesc = [] ∨ nargs = arg then some (typedesc, nargs, selfOffset)
  else
    match skipped : skipFirstType typedesc with
    | none => none
    | some rest =>
        if nargs = 0 then
          positionArgument arg (skipOffset rest) ((nargs + 1) % 2 ^ 32) (readOffset selfOffset rest).1
        else positionArgument arg (skipOffset rest) ((nargs + 1) % 2 ^ 32) selfOffset
termination_by typedesc.length
decreasing_by
  all_goals exact (length_skipOffset_le rest).trans_lt (length_skipFirstType_lt skipped)

/-- What `encoding_getArgumentInfo` answers; the type is the string that starts with it. -/
structure ArgumentInfo where
  nargs : ℕ
  type : Option (List Char)
  offset : ℤ
  deriving DecidableEq, Repr

def encodingGetArgumentInfo (typedesc : List Char) (arg : ℕ) : Option ArgumentInfo := do
  let typedesc ← skipFirstType typedesc
  let (typedesc, nargs, selfOffset) ← positionArgument arg (skipDigits typedesc) 0 0
  if typedesc = [] then return ⟨nargs, none, 0⟩
  let rest ← skipFirstType typedesc
  if arg = 0 then return ⟨nargs, some typedesc, 0⟩
  return ⟨nargs, some typedesc, wrapInt ((readOffset 0 rest).1 - selfOffset)⟩

/-- The first type of the string, copied. -/
def copyFirstType (type : List Char) : Option (List Char) := do
  let rest ← skipFirstType type
  return type.take (type.length - rest.length)

/-- `encoding_copyReturnType`; the inner `none` is `NULL`. -/
def encodingCopyReturnType (typedesc : Option (List Char)) : Option (Option (List Char)) :=
  match typedesc with
  | none => some none
  | some typedesc => (copyFirstType typedesc).map some

/-- `encoding_copyArgumentType`; the inner `none` is `NULL`. -/
def encodingCopyArgumentType (typedesc : Option (List Char)) (index : ℕ) :
    Option (Option (List Char)) := do
  match typedesc with
  | none => some none
  | some typedesc =>
      let info ← encodingGetArgumentInfo typedesc index
      match info.type with
      | none => some none
      | some type => (copyFirstType type).map some

end ObjcDyld.TypeEncodings
