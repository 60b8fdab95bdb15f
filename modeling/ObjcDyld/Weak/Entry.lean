import ObjcDyld.Common.HashDisplace
import ObjcDyld.Common.Loops

/-!
# Weak entries

One entry of the weak table: the object and the addresses of the weak
variables that hold it.  Up to four addresses are kept inline; more are kept in
a hash table allocated out of line.  The two representations share four words
of storage, so the fields of either are readings of the same words.
-/

namespace ObjcDyld.Weak

open Function (update)
open Probing

/-- How a run of the weak-reference code stops short. -/
inductive WeakError where
  | badWeakTable
  | cannotFormWeakReference
  | assertFailed
  | outOfFuel
  deriving DecidableEq, Repr

/-- `DisguisedPtr::disguise`: pointers are stored negated. -/
def disguise (ptr : ℕ) : ℕ := (2 ^ 64 - ptr) % 2 ^ 64

/-- `DisguisedPtr::undisguise`. -/
def undisguise (val : ℕ) : ℕ := (2 ^ 64 - val) % 2 ^ 64

/-- The address of a `__weak` variable: not nil, a machine word, pointer-aligned. -/
def Location (referrer : ℕ) : Prop := 0 < referrer ∧ referrer < 2 ^ 64 ∧ 8 ∣ referrer

instance (referrer : ℕ) : Decidable (Location referrer) :=
  inferInstanceAs (Decidable (_ ∧ _ ∧ _))

def weakInlineCount : ℕ := 4

def referrersOutOfLine : ℕ := 2

/--
`weak_entry_t`.  `word` is the storage of the union; `block` is the memory that
`referrers` points to while the entry is out of line.  Nil pointers are `0`.
-/
structure WeakEntry where
  referent : ℕ
  word : Fin 4 → ℕ
  block : ℕ → ℕ

/-- The key of a cell that holds a pointer: nil cells are free. -/
def pointerKey (ptr : ℕ) : Option ℕ := if ptr = 0 then none else some ptr

@[simp] theorem pointerKey_eq_none (ptr : ℕ) : pointerKey ptr = none ↔ ptr = 0 := by
  simp [pointerKey]

@[simp] theorem pointerKey_eq_some (ptr k : ℕ) : pointerKey ptr = some k ↔ ptr = k ∧ k ≠ 0 := by
  unfold pointerKey
  split
  · simp_all
  · simp only [Option.some.injEq]
    constructor
    · rintro rfl
      exact ⟨rfl, ‹_›⟩
    · exact And.left

namespace WeakEntry

/-! ## The inline reading of the union -/

def inlineReferrers (entry : WeakEntry) (i : Fin 4) : ℕ := undisguise (entry.word i)

def setInlineReferrers (entry : WeakEntry) (i : Fin 4) (referrer : ℕ) : WeakEntry :=
  { entry with word := update entry.word i (disguise referrer) }

/-! ## The out-of-line reading of the union -/

def referrers (entry : WeakEntry) : ℕ := entry.word 0

def outOfLineNess (entry : WeakEntry) : ℕ := entry.word 1 % 4

def numRefs (entry : WeakEntry) : ℕ := entry.word 1 / 4

def mask (entry : WeakEntry) : ℕ := entry.word 2

def maxHashDisplacement (entry : WeakEntry) : ℕ := entry.word 3

def setReferrers (entry : WeakEntry) (address : ℕ) (block : ℕ → ℕ) : WeakEntry :=
  { entry with word := update entry.word 0 address, block := block }

def setOutOfLineNess (entry : WeakEntry) (value : ℕ) : WeakEntry :=
  { entry with word := update entry.word 1 (4 * entry.numRefs + value % 4) }

def setNumRefs (entry : WeakEntry) (value : ℕ) : WeakEntry :=
  { entry with word := update entry.word 1 (4 * value + entry.outOfLineNess) }

def setMask (entry : WeakEntry) (value : ℕ) : WeakEntry :=
  { entry with word := update entry.word 2 value }

def setMaxHashDisplacement (entry : WeakEntry) (value : ℕ) : WeakEntry :=
  { entry with word := update entry.word 3 value }

/-- `weak_entry_t::out_of_line` -/
def outOfLine (entry : WeakEntry) : Bool := entry.outOfLineNess == referrersOutOfLine

/-- Store a referrer in a free slot, as the end of `append_referrer` does. -/
def fillSlot (entry : WeakEntry) (index hashDisplacement newReferrer : ℕ) : WeakEntry :=
  let entry :=
    if hashDisplacement > entry.maxHashDisplacement then
      entry.setMaxHashDisplacement hashDisplacement
    else entry
  let entry := { entry with block := update entry.block index newReferrer }
  entry.setNumRefs (entry.numRefs + 1)

/-- Clear a slot, as the end of `remove_referrer` does. -/
def clearSlot (entry : WeakEntry) (index : ℕ) : WeakEntry :=
  let entry := { entry with block := update entry.block index 0 }
  entry.setNumRefs (entry.numRefs - 1)

/-- Point the entry at a new empty table, as `grow_refs_and_insert` does. -/
def resetTable (entry : WeakEntry) (newSize address : ℕ) : WeakEntry :=
  (((entry.setMask (newSize - 1)).setReferrers address fun _ => 0).setNumRefs
    0).setMaxHashDisplacement 0

/-- The constructor `weak_entry_t(newReferent, newReferrer)`. -/
def new (newReferent newReferrer : ℕ) : WeakEntry where
  referent := newReferent
  word := ![disguise newReferrer, disguise 0, disguise 0, disguise 0]
  block := fun _ => 0

/-- An entry as `calloc` and `bzero` leave it. -/
def zero : WeakEntry := ⟨0, fun _ => 0, fun _ => 0⟩

end WeakEntry

def tableSize (mask : ℕ) : ℕ := if mask = 0 then 0 else mask + 1

/-- The successor of a slot in the probing loops. -/
def nextIndex (mask index : ℕ) : ℕ := (index + 1) &&& mask

section Operations

-- `ptr_hash`, and the address `calloc` returns for a number of cells
variable (hash : ℕ → ℕ) (calloc : ℕ → ℕ)

/-- The `// Try to insert inline.` loop of `append_referrer`. -/
def appendInline (entry : WeakEntry) (newReferrer : ℕ) : Option WeakEntry :=
  ((List.finRange 4).find? fun i => entry.inlineReferrers i == 0).map fun i =>
    entry.setInlineReferrers i newReferrer

/-- The switch of `append_referrer` from a full inline array to an out-of-line table. -/
def allocateOutOfLine (entry : WeakEntry) : WeakEntry :=
  let newReferrers : ℕ → ℕ := fun i => if h : i < 4 then entry.inlineReferrers ⟨i, h⟩ else 0
  ((((entry.setReferrers (calloc weakInlineCount) newReferrers).setNumRefs
    weakInlineCount).setOutOfLineNess referrersOutOfLine).setMask
      (weakInlineCount - 1)).setMaxHashDisplacement 0

/-- The last part of `append_referrer`: probe for a free slot and take it. -/
def insertOutOfLine (entry : WeakEntry) (newReferrer : ℕ) : Except WeakError WeakEntry :=
  let start := hash newReferrer &&& entry.mask
  match probe (nextIndex entry.mask) (freeVisit pointerKey entry.block) start
      (tableSize entry.mask) start 0 with
  | .found (index, displacement) => .ok (entry.fillSlot index displacement newReferrer)
  | .wrapped => .error .badWeakTable
  | .exhausted => .error .outOfFuel

/--
`grow_refs_and_insert`.  The copying loop stops early once `num_refs` referrers
are copied; `append` is the call back into `append_referrer`.
-/
def growRefsAndInsert (append : WeakEntry → ℕ → Except WeakError WeakEntry)
    (entry : WeakEntry) (newReferrer : ℕ) : Except WeakError WeakEntry := do
  let oldSize := tableSize entry.mask
  let newSize := if oldSize ≠ 0 then oldSize * 2 else 8
  let oldRefs := entry.block
  let grown := entry.resetTable newSize (calloc (tableSize (newSize - 1)))
  let (copied, _) ← (List.range oldSize).foldlM (fun (state : WeakEntry × ℕ) i =>
    if 0 < state.2 ∧ oldRefs i ≠ 0 then do
      let next ← append state.1 (oldRefs i)
      pure (next, state.2 - 1)
    else pure state) (grown, entry.numRefs)
  append copied newReferrer

/-- `append_referrer`; the fuel bounds the mutual recursion with `grow_refs_and_insert`. -/
def appendReferrer : ℕ → WeakEntry → ℕ → Except WeakError WeakEntry
  | 0, _, _ => .error .outOfFuel
  | fuel + 1, entry, newReferrer =>
      match if entry.outOfLine then none else appendInline entry newReferrer with
      | some done => .ok done
      | none =>
          let entry := if entry.outOfLine then entry else allocateOutOfLine calloc entry
          if entry.numRefs ≥ tableSize entry.mask * 3 / 4 then
            growRefsAndInsert calloc (appendReferrer fuel) entry newReferrer
          else insertOutOfLine hash entry newReferrer

/--
`remove_referrer`.  The flag is false when the referrer is not found and
`objc_weak_error` is called instead.
-/
def removeReferrer (entry : WeakEntry) (oldReferrer : ℕ) : Except WeakError (WeakEntry × Bool) :=
  if !entry.outOfLine then
    match (List.finRange 4).find? fun i => entry.inlineReferrers i == oldReferrer with
    | some i => .ok (entry.setInlineReferrers i 0, true)
    | none => .ok (entry, false)
  else
    let start := hash oldReferrer &&& entry.mask
    match probe (nextIndex entry.mask)
        (lookupVisit (· == oldReferrer) entry.block entry.maxHashDisplacement) start
        (tableSize entry.mask) start 0 with
    | .found (some index) => .ok (entry.clearSlot index, true)
    | .found none => .ok (entry, false)
    | .wrapped => .error .badWeakTable
    | .exhausted => .error .outOfFuel

/-- The emptiness test that `weak_unregister_no_lock` makes after a removal. -/
def isEmptyAfterRemoval (entry : WeakEntry) : Bool :=
  if entry.outOfLine && entry.numRefs != 0 then false
  else (List.finRange 4).all fun i => entry.inlineReferrers i == 0

end Operations

/-! ## What is stored, in either representation -/

/-- The number of slots `weak_clear_no_lock` walks through. -/
def WeakEntry.slotCount (entry : WeakEntry) : ℕ :=
  if entry.outOfLine then tableSize entry.mask else weakInlineCount

/-- The referrer in one of these slots. -/
def WeakEntry.slot (entry : WeakEntry) (i : ℕ) : ℕ :=
  if entry.outOfLine then entry.block i
  else if h : i < 4 then entry.inlineReferrers ⟨i, h⟩ else 0

/-- How many slots hold `referrer`. -/
def WeakEntry.occurrences (entry : WeakEntry) (referrer : ℕ) : ℕ :=
  ((Finset.range entry.slotCount).filter fun i => entry.slot i = referrer).card

end ObjcDyld.Weak
