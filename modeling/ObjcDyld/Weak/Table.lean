import ObjcDyld.Weak.Entry

/-!
# The weak table

The table maps an object to its weak entry by open addressing.  It grows when
three quarters of its buckets are used and shrinks when nearly all are empty;
both move every entry to a new array.
-/

namespace ObjcDyld.Weak

open Function (update)
open Probing

/-- `weak_table_t`; `weakEntries` is `none` while the pointer is nil. -/
structure WeakTable where
  weakEntries : Option (ℕ → WeakEntry)
  numEntries : ℕ
  mask : ℕ
  maxHashDisplacement : ℕ

namespace WeakTable

/-- The zeroed table a `SideTable` starts with. -/
def empty : WeakTable := ⟨none, 0, 0, 0⟩

def entry (table : WeakTable) (index : ℕ) : WeakEntry :=
  (table.weakEntries.getD fun _ => WeakEntry.zero) index

/-- Write one entry of the array. -/
def setEntry (table : WeakTable) (index : ℕ) (entry : WeakEntry) : WeakTable :=
  { table with weakEntries := table.weakEntries.map fun entries => update entries index entry }

end WeakTable

/-- An entry is keyed by its referent; a nil referent marks a free bucket. -/
def entryKey (entry : WeakEntry) : Option ℕ := pointerKey entry.referent

/-- What `weak_register_no_lock` asks of the referent. -/
structure Viability where
  isTaggedPointer : Bool
  hasCustomRR : Bool
  rootIsDeallocating : Bool
  /-- The answer of `-allowsWeakReference`; `none` when the method is `_objc_msgForward`. -/
  allowsWeakReference : Option Bool

/-- The `deallocating` of `weak_register_no_lock`; `none` where it returns nil at once. -/
def Viability.deallocating (viability : Viability) : Option Bool :=
  if !viability.hasCustomRR then some viability.rootIsDeallocating
  else viability.allowsWeakReference.map (!·)

section Operations

variable (hash : ℕ → ℕ)

def weakEntryInsert (table : WeakTable) (newEntry : WeakEntry) : Except WeakError WeakTable :=
  match table.weakEntries with
  | none => .error .assertFailed
  | some weakEntries =>
      let start := hash newEntry.referent &&& table.mask
      match probe (nextIndex table.mask) (freeVisit entryKey weakEntries) start
          (tableSize table.mask) start 0 with
      | .found (index, hashDisplacement) =>
          .ok { table with
            weakEntries := some (update weakEntries index newEntry)
            numEntries := table.numEntries + 1
            maxHashDisplacement :=
              if hashDisplacement > table.maxHashDisplacement then hashDisplacement
              else table.maxHashDisplacement }
      | .wrapped => .error .badWeakTable
      | .exhausted => .error .outOfFuel

def weakResize (table : WeakTable) (newSize : ℕ) : Except WeakError WeakTable :=
  let oldSize := tableSize table.mask
  let resized : WeakTable :=
    { weakEntries := some fun _ => WeakEntry.zero
      numEntries := 0
      mask := newSize - 1
      maxHashDisplacement := 0 }
  match table.weakEntries with
  | none => .ok resized
  | some oldEntries =>
      (List.range oldSize).foldlM (fun table i =>
        if (oldEntries i).referent ≠ 0 then weakEntryInsert hash table (oldEntries i)
        else .ok table) resized

def weakGrowMaybe (table : WeakTable) : Except WeakError WeakTable :=
  let oldSize := tableSize table.mask
  if table.numEntries ≥ oldSize * 3 / 4 then
    weakResize hash table (if oldSize ≠ 0 then oldSize * 2 else 64)
  else .ok table

def weakCompactMaybe (table : WeakTable) : Except WeakError WeakTable :=
  let oldSize := tableSize table.mask
  if oldSize ≥ 1024 ∧ oldSize / 16 ≥ table.numEntries then weakResize hash table (oldSize / 8)
  else .ok table

def weakEntryRemove (table : WeakTable) (index : ℕ) : Except WeakError WeakTable :=
  let table := table.setEntry index WeakEntry.zero
  weakCompactMaybe hash { table with numEntries := table.numEntries - 1 }

/-- `weak_entry_for_referent`, answering the index of the entry. -/
def weakEntryForReferent (table : WeakTable) (referent : ℕ) : Except WeakError (Option ℕ) :=
  match table.weakEntries with
  | none => .ok none
  | some weakEntries =>
      let start := hash referent &&& table.mask
      match probe (nextIndex table.mask)
          (lookupVisit (·.referent == referent) weakEntries table.maxHashDisplacement) start
          (tableSize table.mask) start 0 with
      | .found index => .ok index
      | .wrapped => .error .badWeakTable
      | .exhausted => .error .outOfFuel

def weakUnregisterNoLock (table : WeakTable) (referent referrer : ℕ) :
    Except WeakError WeakTable := do
  if referent = 0 then return table
  match ← weakEntryForReferent hash table referent with
  | none => return table
  | some index =>
      let (entry, _) ← removeReferrer hash (table.entry index) referrer
      let table := table.setEntry index entry
      if isEmptyAfterRemoval entry then weakEntryRemove hash table index else return table

/-- `weak_register_no_lock`, returning the id it answers and the table. -/
def weakRegisterNoLock (calloc : ℕ → ℕ) (viability : Viability) (crashIfDeallocating : Bool)
    (table : WeakTable) (referent referrer : ℕ) : Except WeakError (ℕ × WeakTable) := do
  if referent = 0 ∨ viability.isTaggedPointer then return (referent, table)
  match viability.deallocating with
  | none => return (0, table)
  | some true => if crashIfDeallocating then .error .cannotFormWeakReference else return (0, table)
  | some false =>
      match ← weakEntryForReferent hash table referent with
      | some index =>
          -- one call back from `grow_refs_and_insert` is the deepest the recursion goes
          let entry ← appendReferrer hash calloc 2 (table.entry index) referrer
          return (referent, table.setEntry index entry)
      | none =>
          let table ← weakGrowMaybe hash table
          let table ← weakEntryInsert hash table (WeakEntry.new referent referrer)
          return (referent, table)

/-- The `// zero out references` loop of `weak_clear_no_lock`; `memory` is what locations hold. -/
def zeroReferences (entry : WeakEntry) (referent : ℕ) (memory : ℕ → ℕ) : ℕ → ℕ :=
  (List.range entry.slotCount).foldl (fun memory i =>
    let referrer := entry.slot i
    if referrer ≠ 0 ∧ memory referrer = referent then update memory referrer 0 else memory) memory

def weakClearNoLock (table : WeakTable) (memory : ℕ → ℕ) (referent : ℕ) :
    Except WeakError (WeakTable × (ℕ → ℕ)) := do
  match ← weakEntryForReferent hash table referent with
  | none => return (table, memory)
  | some index =>
      let memory := zeroReferences (table.entry index) referent memory
      let table ← weakEntryRemove hash table index
      return (table, memory)

end Operations

/-! ## Runs -/

/-- One call on the table, with everything the call reads from outside it. -/
inductive WeakOp where
  | register (calloc : ℕ → ℕ) (viability : Viability) (crashIfDeallocating : Bool)
      (referent referrer : ℕ)
  | unregister (referent referrer : ℕ)
  | clear (referent : ℕ)

/-- The weak table and the contents of the weak variables. -/
structure WeakState where
  table : WeakTable
  memory : ℕ → ℕ

/-- Perform one call. -/
def WeakOp.run (hash : ℕ → ℕ) (state : WeakState) : WeakOp → Except WeakError WeakState
  | .register calloc viability crashIfDeallocating referent referrer => do
      let (_, table) ←
        weakRegisterNoLock hash calloc viability crashIfDeallocating state.table referent referrer
      return { state with table := table }
  | .unregister referent referrer => do
      let table ← weakUnregisterNoLock hash state.table referent referrer
      return { state with table := table }
  | .clear referent => do
      let (table, memory) ← weakClearNoLock hash state.table state.memory referent
      return ⟨table, memory⟩

/-- Perform a sequence of calls, starting with the zeroed table. -/
def runWeakOps (hash : ℕ → ℕ) (memory : ℕ → ℕ) (ops : List WeakOp) : Except WeakError WeakState :=
  ops.foldlM (WeakOp.run hash) ⟨WeakTable.empty, memory⟩

end ObjcDyld.Weak
