import Mathlib

/-!
# Property attribute strings

The encoder and the decoder of property attribute strings.  A C string is the
list of its characters before the terminator.
-/

namespace ObjcDyld.PropertyAttributes

/-! ## Encoding -/

/-- `objc_property_attribute_t`; the value may be `NULL`. -/
structure Attribute where
  name : List Char
  value : Option (List Char)
  deriving DecidableEq, Repr

/-- `INT_MAX`, the most characters that one `sprintf` writes. -/
def intMax : ℕ := 2 ^ 31 - 1

/-- What `sprintf` writes for an attribute: long names get quoted. -/
def formatAttribute (name value : List Char) : List Char :=
  if 1 < name.length then '"' :: (name ++ '"' :: (value ++ [','])) else name ++ (value ++ [','])

/-- `s += sprintf(s, ...)`: there is no result when the length does not fit in an `int`. -/
def sprintf (s formatted : List Char) : Option (List Char) :=
  if formatted.length ≤ intMax then some (s ++ formatted) else none

/-- What an attribute adds to the length that is allocated. -/
def attributeLength (attr : Attribute) : ℕ :=
  match attr.value with
  | none => 0
  | some value =>
      let namelen := if 1 < attr.name.length then attr.name.length + 2 else attr.name.length
      namelen + value.length + 1

def encodedLength (attrs : List Attribute) : ℕ :=
  attrs.foldl (fun len attr => len + attributeLength attr) 0

/-- The body of the loop that writes the attributes with a value. -/
def writeAttribute (s : List Char) (attr : Attribute) : Option (List Char) :=
  match attr.value with
  | none => some s
  | some value => sprintf s (formatAttribute attr.name value)

/--
`copyPropertyAttributeString`: the string in the buffer that is returned.  There is none when
nothing was written to the buffer, since `malloc` does not clear it.
-/
def copyPropertyAttributeString (attrs : List Attribute) : Option (List Char) :=
  if attrs = [] then some []
  else do
    let s ← attrs.foldlM writeAttribute []
    -- remove trailing ',' if any
    if s = [] then none else some s.dropLast

/-! ## Iterating -/

/-- The name and the value of one non-empty attribute, which has no comma. -/
def splitAttribute : List Char → List Char × List Char
  | [] => ([], [])
  | c :: start =>
      if c ≠ '"' then
        -- single-char short name
        ([c], start)
      else
        -- double-quoted long name
        let name := start.takeWhile fun c => c ≠ '"' && c ≠ ','
        let start := start.drop name.length
        (name, if start.head? = some '"' then start.tail else start)

theorem length_rest_lt {attrs : List Char} (more : attrs ≠ []) :
    (attrs.dropWhile (· ≠ ',')).tail.length < attrs.length := by
  have shorter := (List.dropWhile_suffix (l := attrs) (· ≠ ',')).length_le
  have positive := List.length_pos_iff.mpr more
  rw [List.length_tail]
  omega

/--
`iteratePropertyAttributes`, from an attribute count on: the count after it, and what the calls of
`fn` have made of their context.
-/
def iteratePropertyAttributes {σ : Type} (fn : σ → List Char → List Char → Bool × σ)
    (attrs : List Char) (attrcount : ℕ) (context : σ) : ℕ × σ :=
  if _ : attrs = [] then (attrcount, context)
  else
    -- find the next comma-separated attribute, and move past it and the comma
    let piece := attrs.takeWhile (· ≠ ',')
    let rest := (attrs.dropWhile (· ≠ ',')).tail
    if piece = [] then iteratePropertyAttributes fn rest attrcount context
    else
      let (name, value) := splitAttribute piece
      let (continues, context) := fn context name value
      let attrcount := (attrcount + 1) % 2 ^ 32
      if continues then iteratePropertyAttributes fn rest attrcount context
      else (attrcount, context)
termination_by attrs.length
decreasing_by all_goals exact length_rest_lt ‹_›

/-! ## Decoding -/

/-- `sizeof(objc_property_attribute_t)` -/
def sizeofAttribute : ℕ := 16

/--
The block that `copyPropertyAttributeList` fills: its size, where its strings start, the two
pointers that each element of the array has been given, as offsets into the strings, and the
characters of the strings so far.
-/
structure AttributeBlock where
  size : ℕ
  strings : ℕ
  array : List (ℕ × ℕ)
  chars : List Char
  deriving DecidableEq, Repr

def copyOneAttribute (block : AttributeBlock) (name value : List Char) : Bool × AttributeBlock :=
  let nameAt := block.chars.length
  let valueAt := nameAt + name.length + 1
  (true,
    { block with
      array := block.array ++ [(nameAt, valueAt)]
      chars := block.chars ++ (name ++ '\x00' :: (value ++ ['\x00'])) })

/-- The upper bound for the number of attributes, an `unsigned int`. -/
def attributeBound (attrs : List Char) : ℕ :=
  attrs.foldl (fun attrcount c => if c = ',' then (attrcount + 1) % 2 ^ 32 else attrcount) 1

/-- The new block, which is laid out for that many attributes and the array's terminator. -/
def newBlock (attrs : List Char) : AttributeBlock where
  size :=
    attributeBound attrs * sizeofAttribute + sizeofAttribute + attrs.length +
      attributeBound attrs * 2 % 2 ^ 32
  strings := (attributeBound attrs + 1) * sizeofAttribute
  array := []
  chars := []

/-- `copyPropertyAttributeList`: the number of attributes, and the block as it has been filled. -/
def copyPropertyAttributeList (attrs : List Char) : ℕ × AttributeBlock :=
  iteratePropertyAttributes copyOneAttribute attrs 0 (newBlock attrs)

namespace AttributeBlock

/-- Everything was written inside the block. -/
def Inside (block : AttributeBlock) : Prop :=
  block.array.length * sizeofAttribute ≤ block.size ∧
    block.strings + block.chars.length ≤ block.size

instance (block : AttributeBlock) : Decidable block.Inside :=
  inferInstanceAs (Decidable (_ ∧ _))

def stringAt (block : AttributeBlock) (offset : ℕ) : List Char :=
  (block.chars.drop offset).takeWhile (· ≠ '\x00')

/-- The attributes that are read back, unless the array has run into the strings. -/
def attributes (block : AttributeBlock) : Option (List (List Char × List Char)) :=
  if block.Inside ∧ block.array.length * sizeofAttribute ≤ block.strings then
    some (block.array.map fun (name, value) => (block.stringAt name, block.stringAt value))
  else none

end AttributeBlock

def findOneAttribute (query : List Char) (result : Option (List Char)) (name value : List Char) :
    Bool × Option (List Char) :=
  if query = name then (false, some value) else (true, result)

def copyPropertyAttributeValue (attrs name : List Char) : Option (List Char) :=
  (iteratePropertyAttributes (findOneAttribute name) attrs 0 none).2

end ObjcDyld.PropertyAttributes
