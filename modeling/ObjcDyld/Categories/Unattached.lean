import ObjcDyld.Common.Prefixes

/-!
# Unattached categories

`category_list` is one element or a growable array, and `UnattachedCategories` maps classes to lists.
Removing an element from an array shifts the later ones, but leaves the count as it was.
-/

namespace ObjcDyld.Categories

/-- `locstamped_category_t`, by the addresses of the category and of its image's header. -/
structure LocstampedCategory where
  cat : ℕ
  hi : ℕ
  deriving DecidableEq

/-- `category_list`. The inline element is `none` if its `cat` is null; a slot of the array is `none`
before it has been written. -/
inductive CategoryList where
  | inline (lc : Option LocstampedCategory)
  | array (slots : List (Option LocstampedCategory)) (count size : ℕ)
  deriving DecidableEq

/-- `sizeof(locstamped_category_t) * size` as a `uint32_t`. -/
def arrayByteSize (size : ℕ) : ℕ := 16 * size % 2 ^ 32

/-- The number of the highest bit that is set, from one. -/
def fls (word : ℕ) : ℕ := if word = 0 then 0 else Nat.log2 word + 1

/-- `reallocf`: the slots that fit into a number of bytes. -/
def reallocf (slots : List (Option LocstampedCategory)) (bytes : ℕ) : List (Option LocstampedCategory) :=
  slots.take (bytes / 16) ++ List.replicate (bytes / 16 - slots.length) none

/-- Have a typical malloc growth. -/
def grownSize (size : ℕ) : ℕ := (size + if size < 8 then 2 else 2 ^ (fls size - 2)) % 2 ^ 32

namespace CategoryList

def count : CategoryList → ℕ
  | .inline lc => if lc.isSome then 1 else 0
  | .array _ count _ => count

/-- What `array()` points to, as far as `count()` goes. -/
def elements (list : CategoryList) : List (Option LocstampedCategory) :=
  match list with
  | .inline lc => [lc].take list.count
  | .array slots count _ => slots.take count

/-- `append`; `none` if it writes after the end of the array. -/
def append (lc : LocstampedCategory) : CategoryList → Option CategoryList
  | .array slots count size =>
      let size' := if count = size then grownSize size else size
      let slots' := if count = size then reallocf slots (arrayByteSize size') else slots
      if count < slots'.length then some (.array (slots'.set count (some lc)) ((count + 1) % 2 ^ 31) size') else none
  | .inline none => some (.inline (some lc))
  | .inline (some first) => some (.array [some first, some lc] 2 2)

/-- `memmove(&array[i], &array[i+1], bytes)`. -/
def shift (slots : List (Option LocstampedCategory)) (i bytes : ℕ) : List (Option LocstampedCategory) :=
  slots.take i ++ (slots.drop (i + 1)).take (bytes / 16) ++ slots.drop (i + bytes / 16)

def erase (cat : ℕ) : CategoryList → CategoryList
  | .array slots count size =>
      match (slots.take count).findIdx? fun slot => slot.any (·.cat = cat) with
      | some i => .array (shift slots i (arrayByteSize (count - i - 1))) count size
      | none => .array slots count size
  | .inline lc => if lc.any (·.cat = cat) then .inline none else .inline lc

end CategoryList

/-- `UnattachedCategories`: a map from classes, by their addresses, to lists. -/
abbrev UnattachedCategories := ℕ → Option CategoryList

namespace UnattachedCategories

def addForClass (map : UnattachedCategories) (lc : LocstampedCategory) (cls : ℕ) : Option UnattachedCategories :=
  match map cls with
  | none => some (Function.update map cls (some (.inline (some lc))))
  | some list => do
      let list ← list.append lc
      return Function.update map cls (some list)

def eraseCategoryForClass (map : UnattachedCategories) (cat cls : ℕ) : UnattachedCategories :=
  match map cls with
  | none => map
  | some list =>
      let list := list.erase cat
      Function.update map cls (if list.count = 0 then none else some list)

/-- What `attachToClass` attaches. -/
def attached (map : UnattachedCategories) (previously : ℕ) : List (Option LocstampedCategory) :=
  match map previously with
  | none => []
  | some list => list.elements

/-- `attachToClass` and `eraseClass` drop the list of the class. -/
def eraseClass (map : UnattachedCategories) (cls : ℕ) : UnattachedCategories := Function.update map cls none

end UnattachedCategories

inductive Call where
  | addForClass (lc : LocstampedCategory) (cls : ℕ)
  | eraseCategoryForClass (cat cls : ℕ)
  | attachToClass (previously : ℕ)
  | eraseClass (cls : ℕ)
  deriving DecidableEq

def Call.run (map : UnattachedCategories) : Call → Option UnattachedCategories
  | .addForClass lc cls => map.addForClass lc cls
  | .eraseCategoryForClass cat cls => some (map.eraseCategoryForClass cat cls)
  | .attachToClass previously => some (map.eraseClass previously)
  | .eraseClass cls => some (map.eraseClass cls)

def runCalls (calls : List Call) : Option UnattachedCategories := calls.foldlM Call.run fun _ => none

/-- The categories that wait for each class, in load order. -/
abbrev Waiting := ℕ → List LocstampedCategory

def Call.expected (waiting : Waiting) : Call → Waiting
  | .addForClass lc cls => Function.update waiting cls (waiting cls ++ [lc])
  | .eraseCategoryForClass cat cls => Function.update waiting cls ((waiting cls).eraseP (·.cat = cat))
  | .attachToClass previously => Function.update waiting previously []
  | .eraseClass cls => Function.update waiting cls []

def expectedCalls (calls : List Call) : Waiting := calls.foldl Call.expected fun _ => []

/-- The map has an entry for the classes for which categories wait, with just these categories. -/
structure Agrees (map : UnattachedCategories) (waiting : Waiting) : Prop where
  entry : ∀ cls, (map cls).isSome = true ↔ waiting cls ≠ []
  count : ∀ cls list, map cls = some list → list.count = (waiting cls).length
  elements : ∀ cls list, map cls = some list → list.elements = (waiting cls).map some

/-- The number of elements at which the size of an array of them is no `uint32_t` any more. -/
def maximalCount : ℕ := 3 * 2 ^ 26

/-- The call does not remove a category from a list of two or more, and does not grow a list over the maximum. -/
def Call.Safe (waiting : Waiting) : Call → Prop
  | .addForClass _ cls => (waiting cls).length ≠ maximalCount
  | .eraseCategoryForClass cat cls => (waiting cls).length < 2 ∨ ∀ lc ∈ waiting cls, lc.cat ≠ cat
  | .attachToClass _ => True
  | .eraseClass _ => True

def AllSafe (calls : List Call) : Prop :=
  ∀ before call after, calls = before ++ call :: after → call.Safe (expectedCalls before)

/-- After every call, the map is what the calls so far say. -/
def AlwaysAgrees (calls : List Call) : Prop :=
  ∀ before, before <+: calls → ∃ map, runCalls before = some map ∧ Agrees map (expectedCalls before)

end ObjcDyld.Categories
