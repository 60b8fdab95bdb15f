import ObjcDyld.Common.ByteMemory

/-!
# Records edited and removed in place

A pass over records of any sizes that lie one after another in a memory.  What follows a record that
is removed is moved down over it, and the space that gets free is cleared at the end.
-/

namespace ObjcDyld.Records

open ByteMemory

abbrev Bytes := List (BitVec 8)

/-- The memory as it is seen from an address. -/
def view (memory : Memory) (address : ℕ) : Memory := fun k => memory (address + k)

def embed (memory : Memory) (address : ℕ) (seen : Memory) : Memory := fun k =>
  if address ≤ k then seen (k - address) else memory k

/-- `memmove`. -/
def move (memory : Memory) (target source count : ℕ) : Memory := fun k =>
  if target ≤ k ∧ k < target + count then memory (source + (k - target)) else memory k

/-- `bzero`. -/
def clear (memory : Memory) (address count : ℕ) : Memory := fun k =>
  if address ≤ k ∧ k < address + count then 0 else memory k

def bytesAt (memory : Memory) (address count : ℕ) : Bytes := (List.range count).map fun k => memory (address + k)

def memoryOf (bytes : Bytes) : Memory := fun k => bytes.getD k 0

/-- What an edit of a record leaves behind, and whether the record is removed. -/
structure Edit (σ : Type) where
  state : σ
  memory : Memory
  removed : Bool

/-- A pass finds out the size of a record and edits it, as it is seen from its start. -/
structure Pass (σ : Type) where
  size : Memory → BitVec 32
  edit : σ → Memory → Edit σ

/-- Where a pass is. -/
structure Progress (σ : Type) where
  state : σ
  memory : Memory
  place : ℕ
  remaining : BitVec 32
  removedCount : ℕ

variable {σ : Type} {memory other : Memory} {address count : ℕ} {bytes : Bytes}

namespace Pass

def step (pass : Pass σ) (progress : Progress σ) : Progress σ :=
  let seen := view progress.memory progress.place
  let size := pass.size seen
  let edit := pass.edit progress.state seen
  let memory := embed progress.memory progress.place edit.memory
  if edit.removed then
    { progress with
      state := edit.state
      memory := move memory progress.place (progress.place + size.toNat) progress.remaining.toNat
      removedCount := progress.removedCount + 1 }
  else
    { state := edit.state
      memory := memory
      place := progress.place + size.toNat
      remaining := progress.remaining - size
      removedCount := progress.removedCount }

def run (pass : Pass σ) : ℕ → Progress σ → Progress σ
  | 0, progress => progress
  | rounds + 1, progress => run pass rounds (pass.step progress)

/-- A pass stays inside of a record and looks at nothing else. -/
structure IsLocal (pass : Pass σ) (record : Bytes) : Prop where
  size : ∀ seen, bytesAt seen 0 record.length = record → (pass.size seen).toNat = record.length
  state : ∀ state seen, bytesAt seen 0 record.length = record →
    (pass.edit state seen).state = (pass.edit state (memoryOf record)).state
  removed : ∀ state seen, bytesAt seen 0 record.length = record →
    (pass.edit state seen).removed = (pass.edit state (memoryOf record)).removed
  inside : ∀ state seen, bytesAt seen 0 record.length = record →
    bytesAt (pass.edit state seen).memory 0 record.length =
      bytesAt (pass.edit state (memoryOf record)).memory 0 record.length
  outside : ∀ state seen k, bytesAt seen 0 record.length = record → record.length ≤ k →
    (pass.edit state seen).memory k = seen k

/-- The records that are left. -/
def stripped (pass : Pass σ) (state : σ) : List Bytes → List Bytes
  | [] => []
  | record :: records =>
      let edit := pass.edit state (memoryOf record)
      if edit.removed then stripped pass edit.state records
      else bytesAt edit.memory 0 record.length :: stripped pass edit.state records

end Pass

/-! ## Bytes of a memory -/

@[simp] theorem bytesAt_length (memory : Memory) (address count : ℕ) : (bytesAt memory address count).length = count := by
  rw [bytesAt, List.length_map, List.length_range]

theorem bytesAt_eq_iff {address' : ℕ} :
    bytesAt memory address count = bytesAt other address' count ↔ ∀ k < count, memory (address + k) = other (address' + k) := by
  simp [bytesAt]

theorem bytesAt_append (memory : Memory) (address first second : ℕ) :
    bytesAt memory address (first + second) = bytesAt memory address first ++ bytesAt memory (address + first) second := by
  simp [bytesAt, List.range_add, Nat.add_assoc]

theorem bytesAt_memoryOf (bytes : Bytes) : bytesAt (memoryOf bytes) 0 bytes.length = bytes := by
  apply List.ext_getElem
  · exact bytesAt_length ..
  · intro k _ inside
    simp [bytesAt, memoryOf, inside]

theorem bytesAt_view (place : ℕ) : bytesAt (view memory place) address count = bytesAt memory (place + address) count := by
  simp only [bytesAt, view, Nat.add_assoc]

/-! ## A whole pass -/

/-- What a pass over records does that lie at a place, with some bytes left to look at. -/
structure Strips (pass : Pass σ) (records : List Bytes) (before after : Progress σ) : Prop where
  place : after.place = before.place + (pass.stripped before.state records).flatten.length
  remaining : after.remaining.toNat + (pass.stripped before.state records).flatten.length = before.remaining.toNat
  removedCount : after.removedCount + (pass.stripped before.state records).length = before.removedCount + records.length
  kept : bytesAt after.memory before.place (pass.stripped before.state records).flatten.length =
    (pass.stripped before.state records).flatten
  frame : ∀ k, k < before.place ∨ before.place + before.remaining.toNat ≤ k → after.memory k = before.memory k

variable {pass : Pass σ} {record : Bytes} {progress : Progress σ}

theorem embed_outside {state : σ} {place : ℕ} (locals : pass.IsLocal record)
    (here : bytesAt (view memory place) 0 record.length = record) {k : ℕ} (outside : k < place ∨ place + record.length ≤ k) :
    embed memory place (pass.edit state (view memory place)).memory k = memory k := by
  unfold embed
  split
  · rename_i inside
    rw [locals.outside state _ _ here (by omega), view, Nat.add_sub_cancel' inside]
  · rfl

theorem bytesAt_embed {place : ℕ} : bytesAt (embed memory place other) place count = bytesAt other 0 count := by
  rw [bytesAt_eq_iff]
  intro k _
  simp [embed]

structure Removes (pass : Pass σ) (record : Bytes) (before after : Progress σ) : Prop where
  state : after.state = (pass.edit before.state (memoryOf record)).state
  place : after.place = before.place
  remaining : after.remaining = before.remaining
  removedCount : after.removedCount = before.removedCount + 1
  moved : ∀ k < before.remaining.toNat, after.memory (before.place + k) = before.memory (before.place + record.length + k)
  frame : ∀ k, k < before.place ∨ before.place + before.remaining.toNat ≤ k → after.memory k = before.memory k

structure Keeps (pass : Pass σ) (record : Bytes) (before after : Progress σ) : Prop where
  state : after.state = (pass.edit before.state (memoryOf record)).state
  place : after.place = before.place + record.length
  remaining : after.remaining.toNat = before.remaining.toNat - record.length
  removedCount : after.removedCount = before.removedCount
  edited : bytesAt after.memory before.place record.length =
    bytesAt (pass.edit before.state (memoryOf record)).memory 0 record.length
  frame : ∀ k, k < before.place ∨ before.place + record.length ≤ k → after.memory k = before.memory k

theorem step_removes (locals : pass.IsLocal record)
    (here : bytesAt (view progress.memory progress.place) 0 record.length = record)
    (room : record.length ≤ progress.remaining.toNat)
    (removed : (pass.edit progress.state (memoryOf record)).removed = true) :
    Removes pass record progress (pass.step progress) := by
  have size := locals.size _ here
  have flag := (locals.removed progress.state _ here).trans removed
  have outside (k : ℕ) (away : k < progress.place ∨ progress.place + record.length ≤ k) :
      embed progress.memory progress.place (pass.edit progress.state (view progress.memory progress.place)).memory k =
        progress.memory k :=
    embed_outside locals here away
  simp only [Pass.step, flag, if_true, size]
  constructor
  · exact locals.state _ _ here
  · rfl
  · rfl
  · rfl
  · intro k inside
    simp only [move]
    rw [if_pos ⟨Nat.le_add_right _ _, by omega⟩, Nat.add_sub_cancel_left]
    exact outside _ (by omega)
  · intro k away
    simp only [move]
    rw [if_neg (by omega)]
    exact outside k (by omega)

theorem step_keeps (locals : pass.IsLocal record)
    (here : bytesAt (view progress.memory progress.place) 0 record.length = record)
    (room : record.length ≤ progress.remaining.toNat)
    (kept : (pass.edit progress.state (memoryOf record)).removed = false) :
    Keeps pass record progress (pass.step progress) := by
  have size := locals.size _ here
  have flag := (locals.removed progress.state _ here).trans kept
  simp only [Pass.step, flag, Bool.false_eq_true, if_false]
  constructor
  · exact locals.state _ _ here
  · simp only [size]
  · have bound := progress.remaining.isLt
    rw [BitVec.toNat_sub, size]
    omega
  · rfl
  · rw [bytesAt_embed]
    exact locals.inside _ _ here
  · exact fun k away => embed_outside locals here away

theorem run_strips (records : List Bytes) (locals : ∀ record ∈ records, pass.IsLocal record)
    (here : bytesAt progress.memory progress.place records.flatten.length = records.flatten)
    (room : records.flatten.length ≤ progress.remaining.toNat) :
    Strips pass records progress (pass.run records.length progress) := by
  induction records generalizing progress with
  | nil => constructor <;> simp [Pass.run, Pass.stripped, bytesAt]
  | cons record records ih =>
      rw [List.forall_mem_cons] at locals
      simp only [List.flatten_cons, List.length_append] at here room
      rw [bytesAt_append] at here
      obtain ⟨first, others⟩ := List.append_inj here (bytesAt_length ..)
      have seen : bytesAt (view progress.memory progress.place) 0 record.length = record := by
        rw [bytesAt_view]
        exact first
      rw [List.length_cons, Pass.run]
      cases removed : (pass.edit progress.state (memoryOf record)).removed with
      | true =>
          have left : pass.stripped progress.state (record :: records) =
              pass.stripped (pass.edit progress.state (memoryOf record)).state records := by
            rw [Pass.stripped, removed, if_pos rfl]
          have step := step_removes locals.1 seen (by omega) removed
          have follows : bytesAt (pass.step progress).memory (pass.step progress).place records.flatten.length =
              records.flatten := by
            refine Eq.trans ?_ others
            rw [step.place, bytesAt_eq_iff]
            exact fun k inside => step.moved k (by omega)
          have rest := ih locals.2 follows (by rw [step.remaining]; omega)
          rw [← step.state] at left
          constructor
          · rw [left, rest.place, step.place]
          · rw [left, ← step.remaining]
            exact rest.remaining
          · have count := rest.removedCount
            rw [step.removedCount] at count
            rw [left, List.length_cons]
            omega
          · rw [left, ← step.place]
            exact rest.kept
          · intro k away
            rw [rest.frame k (by rwa [step.place, step.remaining]), step.frame k away]
      | false =>
          have left : pass.stripped progress.state (record :: records) =
              bytesAt (pass.edit progress.state (memoryOf record)).memory 0 record.length ::
                pass.stripped (pass.edit progress.state (memoryOf record)).state records := by
            rw [Pass.stripped, removed, if_neg Bool.false_ne_true]
          have step := step_keeps locals.1 seen (by omega) removed
          have follows : bytesAt (pass.step progress).memory (pass.step progress).place records.flatten.length =
              records.flatten := by
            refine Eq.trans ?_ others
            rw [step.place, bytesAt_eq_iff]
            exact fun k _ => step.frame _ (by omega)
          have rest := ih locals.2 follows (by rw [step.remaining]; omega)
          rw [← step.state] at left
          constructor
          · rw [left, rest.place, step.place, List.flatten_cons, List.length_append, bytesAt_length]
            omega
          · have total := rest.remaining
            rw [step.remaining] at total
            rw [left, List.flatten_cons, List.length_append, bytesAt_length]
            omega
          · have count := rest.removedCount
            rw [step.removedCount] at count
            rw [left, List.length_cons, List.length_cons]
            omega
          · rw [left, List.flatten_cons, List.length_append, bytesAt_length, bytesAt_append, ← step.edited, ← step.place,
              rest.kept]
            refine congrArg (· ++ _) ?_
            rw [bytesAt_eq_iff]
            exact fun k inside => rest.frame _ (.inl (by rw [step.place]; omega))
          · intro k away
            rw [rest.frame k (by rw [step.place, step.remaining]; omega), step.frame k (by omega)]

/-! ## Updates of fields -/

/-- Two memories that agree on the first bytes. -/
def Agree (count : ℕ) (memory other : Memory) : Prop := ∀ k < count, memory k = other k

theorem agree_of_bytesAt {record : Bytes} (same : bytesAt memory 0 record.length = record) :
    Agree record.length memory (memoryOf record) := by
  rw [← bytesAt_memoryOf record, bytesAt_length, bytesAt_eq_iff] at same
  intro k bound
  simpa using same k bound

/-- A value that is found in the first bytes. -/
def IsFound {α : Type} (count : ℕ) (value : Memory → α) : Prop :=
  ∀ memory other, Agree count memory other → value memory = value other

/-- An update of some fields, given as offsets and sizes, whose values are found in the first bytes. -/
structure IsUpdate (count : ℕ) (fields : List (ℕ × ℕ)) (update : Memory → Memory) : Prop where
  congr : ∀ memory other, Agree count memory other → Agree count (update memory) (update other)
  frame : ∀ memory k, (∀ field ∈ fields, k < field.1 ∨ field.1 + field.2 ≤ k) → update memory k = memory k

theorem IsFound.const {α : Type} (value : α) : IsFound count fun _ => value := fun _ _ _ => rfl

theorem isFound_get32 {offset : ℕ} (room : offset + 4 ≤ count) : IsFound count fun memory => get32 memory offset :=
  fun _ _ agree => get32_congr fun k _ bound => agree k (by omega)

theorem isFound_get64 {offset : ℕ} (room : offset + 8 ≤ count) : IsFound count fun memory => get64 memory offset :=
  fun _ _ agree => get64_congr fun k _ bound => agree k (by omega)

theorem isFound_bytesAt {offset size : ℕ} (room : offset + size ≤ count) :
    IsFound count fun memory => bytesAt memory offset size :=
  fun _ _ agree => bytesAt_eq_iff.2 fun k bound => agree _ (by omega)

theorem IsFound.map {α β : Type} {value : Memory → α} (found : IsFound count value) (f : α → β) :
    IsFound count fun memory => f (value memory) :=
  fun memory other agree => congrArg f (found memory other agree)

theorem IsFound.map₂ {α β γ : Type} {one : Memory → α} {two : Memory → β} (first : IsFound count one)
    (second : IsFound count two) (f : α → β → γ) : IsFound count fun memory => f (one memory) (two memory) :=
  fun memory other agree => congrArg₂ f (first memory other agree) (second memory other agree)

theorem store_agree {size : ℕ} (value : ℕ) {k : ℕ} (same : memory k = other k) :
    store memory address size value k = store other address size value k := by
  induction size generalizing memory other address value with
  | zero => exact same
  | succ size ih =>
      refine ih (value / 2 ^ 8) ?_
      by_cases here : k = address
      · rw [here, Function.update_self, Function.update_self]
      · rw [Function.update_of_ne here, Function.update_of_ne here, same]

namespace IsUpdate

variable {fields : List (ℕ × ℕ)} {first second : Memory → Memory}

theorem keep : IsUpdate count fields fun memory => memory where
  congr _ _ agree := agree
  frame _ _ _ := rfl

theorem isFound {α : Type} {value : Memory → α} (one : IsUpdate count fields first) (found : IsFound count value) :
    IsFound count fun memory => value (first memory) :=
  fun memory other agree => found _ _ (one.congr memory other agree)

theorem comp (one : IsUpdate count fields first) (two : IsUpdate count fields fun memory => second memory) :
    IsUpdate count fields fun memory => second (first memory) where
  congr memory other agree := two.congr _ _ (one.congr memory other agree)
  frame memory k away := (two.frame _ k away).trans (one.frame memory k away)

theorem bind {α : Type} {value : Memory → α} {update : α → Memory → Memory} (one : IsUpdate count fields first)
    (found : IsFound count value) (each : ∀ a, IsUpdate count fields (update a)) :
    IsUpdate count fields fun memory => update (value memory) (first memory) where
  congr memory other agree := by
    rw [found memory other agree]
    exact (each _).congr _ _ (one.congr memory other agree)
  frame memory k away := ((each _).frame _ k away).trans (one.frame memory k away)

theorem ite {test : Memory → Bool} (found : IsFound count test) (one : IsUpdate count fields first)
    (two : IsUpdate count fields second) :
    IsUpdate count fields fun memory => if test memory then first memory else second memory where
  congr memory other agree := by
    rw [found memory other agree]
    cases test other with
    | true => exact one.congr memory other agree
    | false => exact two.congr memory other agree
  frame memory k away := by
    cases test memory with
    | true => exact one.frame memory k away
    | false => exact two.frame memory k away

theorem set32 {offset : ℕ} {value : Memory → BitVec 32} (one : IsUpdate count fields first) (found : IsFound count value)
    (listed : (offset, 4) ∈ fields) : IsUpdate count fields fun memory => ByteMemory.set32 (first memory) offset (value memory) where
  congr memory other agree k bound := by
    rw [found memory other agree]
    exact store_agree _ (one.congr memory other agree k bound)
  frame memory k away := (set32_other _ (away _ listed)).trans (one.frame memory k away)

theorem set64 {offset : ℕ} {value : Memory → BitVec 64} (one : IsUpdate count fields first) (found : IsFound count value)
    (listed : (offset, 8) ∈ fields) : IsUpdate count fields fun memory => ByteMemory.set64 (first memory) offset (value memory) where
  congr memory other agree k bound := by
    rw [found memory other agree]
    exact store_agree _ (one.congr memory other agree k bound)
  frame memory k away := (set64_other _ (away _ listed)).trans (one.frame memory k away)

end IsUpdate

end ObjcDyld.Records
