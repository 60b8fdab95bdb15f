import ObjcDyld.TypeEncodings.Scanners

/-!
# The grammar of method encodings

Types, arguments and whole method encodings as data, and the strings that spell
them.
-/

namespace ObjcDyld.TypeEncodings

/-! ## Types -/

/-- The three kinds of brackets. -/
inductive Bracket where
  | square
  | curly
  | round
  deriving DecidableEq, Repr

namespace Bracket

def openChar : Bracket → Char
  | square => '['
  | curly => '{'
  | round => '('

def closeChar : Bracket → Char
  | square => ']'
  | curly => '}'
  | round => ')'

end Bracket

/-- The character opens or closes a bracket. -/
def isBracket (c : Char) : Bool :=
  c = ']' || c = '}' || c = ')' || c = '[' || c = '{' || c = '('

/-- Text with properly nested brackets. -/
inductive Text where
  | nil
  | char (c : Char) (plain : isBracket c = false) (rest : Text)
  | group (kind : Bracket) (body rest : Text)

/-- The characters of the text. -/
def Text.spell : Text → List Char
  | nil => []
  | char c _ rest => c :: rest.spell
  | group kind body rest => kind.openChar :: (body.spell ++ kind.closeChar :: rest.spell)

/-- The qualifiers and the pointer mark, which stand before a type. -/
inductive Qualifier where
  | bycopy
  | in
  | out
  | inout
  | const
  | oneway
  | pointer
  deriving DecidableEq, Repr

def Qualifier.char : Qualifier → Char
  | bycopy => 'O'
  | .in => 'n'
  | out => 'o'
  | inout => 'N'
  | const => 'r'
  | oneway => 'V'
  | pointer => '^'

/-- The characters that do not make up a type by themselves. -/
def isSpecial (c : Char) : Bool := isQualifier c || c = '@' || c = '[' || c = '{' || c = '('

/-- A type behind its qualifiers. -/
inductive Base where
  | object
  | block
  | array (count : ℕ) (element : Text)
  | struct (body : Text)
  | union (body : Text)
  | basic (c : Char) (plain : isSpecial c = false)

/-- The characters of the type. -/
def Base.spell : Base → List Char
  | object => ['@']
  | block => ['@', '?']
  | array count element => '[' :: (Nat.toDigits 10 count ++ (element.spell ++ [']']))
  | struct body => '{' :: (body.spell ++ ['}'])
  | union body => '(' :: (body.spell ++ [')'])
  | basic c _ => [c]

structure EncodedType where
  qualifiers : List Qualifier
  base : Base

/-- The characters of the type. -/
def EncodedType.spell (type : EncodedType) : List Char :=
  type.qualifiers.map Qualifier.char ++ type.base.spell

/-- The type ends in the `@` of an object, which a `?` would turn into a block. -/
def EncodedType.endsInObject (type : EncodedType) : Bool :=
  match type.base with
  | .object => true
  | _ => false

/-! ## Methods -/

/-- An optionally negative offset. -/
structure Offset where
  negative : Bool
  magnitude : ℕ
  deriving DecidableEq, Repr

/-- The number that the offset stands for. -/
def Offset.value (offset : Offset) : ℤ :=
  if offset.negative then -offset.magnitude else offset.magnitude

/-- The characters of the offset. -/
def Offset.spell (offset : Offset) : List Char :=
  (if offset.negative then ['-'] else []) ++ Nat.toDigits 10 offset.magnitude

/-- An argument's type, register parameter hint and offset; the offset may be left out. -/
structure Argument where
  type : EncodedType
  hint : Bool
  offset : Option Offset

namespace Argument

/-- The characters behind the type and the hint. -/
def spellOffset (argument : Argument) : List Char :=
  match argument.offset with
  | none => []
  | some offset => offset.spell

/-- The characters behind the type. -/
def spellPlace (argument : Argument) : List Char :=
  (if argument.hint then ['+'] else []) ++ argument.spellOffset

/-- The characters of the argument. -/
def spell (argument : Argument) : List Char := argument.type.spell ++ argument.spellPlace

/-- The number that the offset stands for, zero where there is none. -/
def offsetValue (argument : Argument) : ℤ :=
  match argument.offset with
  | none => 0
  | some offset => offset.value

/-- The character would be read as part of the argument if it followed immediately. -/
def absorbs (argument : Argument) (c : Char) : Bool :=
  match argument.offset with
  | some _ => c.isDigit
  | none =>
      c.isDigit || c = '-' ||
        (!argument.hint && (c = '+' || (argument.type.endsInObject && c = '?')))

end Argument

/-- The characters of the arguments. -/
def spellArguments : List Argument → List Char
  | [] => []
  | argument :: arguments => argument.spell ++ spellArguments arguments

/-- A method's return type, frame size, which may be left out, and arguments. -/
structure MethodEncoding where
  returnType : EncodedType
  frameSize : Option ℕ
  arguments : List Argument

namespace MethodEncoding

def spellFrameSize (method : MethodEncoding) : List Char :=
  match method.frameSize with
  | none => []
  | some size => Nat.toDigits 10 size

/-- The method type string. -/
def spell (method : MethodEncoding) : List Char :=
  method.returnType.spell ++ (method.spellFrameSize ++ spellArguments method.arguments)

/-- The character would be read as part of what stands before the arguments. -/
def absorbs (method : MethodEncoding) (c : Char) : Bool :=
  match method.frameSize with
  | some _ => c.isDigit
  | none => c.isDigit || (method.returnType.endsInObject && c = '?')

end MethodEncoding

/-- No argument's type starts with a character that is read as part of what stands before it. -/
def SetApart : (Char → Bool) → List Argument → Prop
  | _, [] => True
  | absorbs, argument :: arguments =>
      (∀ c ∈ argument.type.spell.head?, absorbs c = false) ∧ SetApart argument.absorbs arguments

/-- The numbers of a method fit in the types that the functions return them in. -/
structure MethodEncoding.FitsInts (method : MethodEncoding) : Prop where
  arguments : method.arguments.length < 2 ^ 32
  frameSize : ∀ size ∈ method.frameSize, size < 2 ^ 32
  offsets : ∀ argument ∈ method.arguments, -2 ^ 31 < argument.offsetValue ∧
    argument.offsetValue < 2 ^ 31
  differences : ∀ argument ∈ method.arguments, ∀ first ∈ method.arguments.head?,
    -2 ^ 31 ≤ argument.offsetValue - first.offsetValue ∧
      argument.offsetValue - first.offsetValue < 2 ^ 31

end ObjcDyld.TypeEncodings
