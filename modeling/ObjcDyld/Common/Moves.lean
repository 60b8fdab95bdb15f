import Mathlib

/-!
# Copying loops

A loop that copies the items of an array to an offset of another one, in any order of the indices.
-/

namespace ObjcDyld.Copies

variable {α : Type*} {target source : List (Option α)} {offset : ℕ}

/-- The loop over some indices of the source; a slot is `none` before it is written. -/
def copy (target : List (Option α)) (offset : ℕ) (source : List (Option α)) (indices : List ℕ) : List (Option α) :=
  indices.foldl (fun target i => target.set (offset + i) (source.getD i none)) target

theorem getElem?_copy (indices : List ℕ) (place : ℕ) :
    (copy target offset source indices)[place]? =
      if offset ≤ place ∧ place - offset ∈ indices ∧ place < target.length then some (source.getD (place - offset) none)
      else target[place]? := by
  induction indices generalizing target with
  | nil => simp [copy]
  | cons i indices ih =>
      rw [copy, List.foldl_cons, ← copy, ih, List.length_set, List.getElem?_set]
      simp only [List.mem_cons]
      by_cases here : offset + i = place
      · obtain rfl : i = place - offset := by omega
        by_cases inside : place < target.length
        · simp [here, inside, show offset ≤ place by omega]
        · simp [here, inside]
      · have other (le : offset ≤ place) : place - offset ≠ i := by omega
        simp only [here, if_false]
        by_cases le : offset ≤ place
        · simp [le, other le]
        · simp [le]

theorem copy_all {indices : List ℕ} (all : indices.Perm (List.range source.length)) {before after : List (Option α)}
    (length : before.length = offset) (fits : target = before ++ List.replicate source.length none ++ after) :
    copy target offset source indices = before ++ source ++ after := by
  subst fits length
  refine List.ext_getElem? fun place => ?_
  rw [getElem?_copy]
  simp only [all.mem_iff, List.mem_range]
  by_cases first : place < before.length
  · rw [if_neg (by omega), List.append_assoc, List.append_assoc, List.getElem?_append_left first, List.getElem?_append_left first]
  · have right (middle : List (Option α)) : (before ++ middle ++ after)[place]? = (middle ++ after)[place - before.length]? := by
      rw [List.append_assoc, List.getElem?_append_right (by omega)]
    rw [right, right]
    by_cases second : place - before.length < source.length
    · rw [if_pos ⟨by omega, second, by simp only [List.length_append, List.length_replicate]; omega⟩, List.getElem?_append_left second,
        List.getD_eq_getElem _ _ second, List.getElem?_eq_getElem second]
    · rw [if_neg (by omega), List.getElem?_append_right (by rw [List.length_replicate]; omega),
        List.getElem?_append_right (by omega), List.length_replicate]

end ObjcDyld.Copies

/-!
## Moving cells within a list

Cells of a list are copied one at a time to other places of the same list. A cell may not have been written
yet, and must not be read then. The result does not depend on the order as long as no cell is overwritten before it
is read.
-/

namespace ObjcDyld.Moves

variable {α : Type*} {cells cells' : List (Option α)} {src dst index : ℕ} {order : List ℕ} {value : α}

/-- A cell that is there and was written. -/
def read (cells : List (Option α)) (index : ℕ) : Option α := cells[index]?.join

def write (cells : List (Option α)) (index : ℕ) (value : α) : Option (List (Option α)) :=
  if index < cells.length then some (cells.set index (some value)) else none

/-- Copy the cell at one place behind `src` to the same place behind `dst`. -/
def copy (src dst : ℕ) (cells : List (Option α)) (pos : ℕ) : Option (List (Option α)) := do
  let value ← read cells (src + pos)
  write cells (dst + pos) value

theorem read_eq_some_iff : read cells index = some value ↔ cells[index]? = some (some value) := by
  rw [read]
  cases cells[index]? with
  | none => simp
  | some cell => simp

theorem write_spec (write : write cells index value = some cells') :
    cells'.length = cells.length ∧ ∀ i, cells'[i]? = if i = index then some (some value) else cells[i]? := by
  rw [Moves.write] at write
  split at write
  next inside =>
    obtain rfl := Option.some.inj write
    refine ⟨List.length_set, fun i => ?_⟩
    rw [List.getElem?_set]
    by_cases here : i = index
    · rw [if_pos here.symm, if_pos inside, if_pos here]
    · rw [if_neg (Ne.symm here), if_neg here]
  next => exact nomatch write

theorem write_isSome (inside : index < cells.length) : ∃ cells', write cells index value = some cells' := ⟨_, if_pos inside⟩

theorem foldlM_write (value : α) (order : List ℕ) (inside : ∀ index ∈ order, index < cells.length) :
    ∃ cells', order.foldlM (fun cells index => write cells index value) cells = some cells' ∧ cells'.length = cells.length ∧
      ∀ i, cells'[i]? = if i ∈ order then some (some value) else cells[i]? := by
  induction order generalizing cells with
  | nil => exact ⟨cells, rfl, rfl, fun i => (if_neg List.not_mem_nil).symm⟩
  | cons index order ih =>
      obtain ⟨middle, step⟩ := @write_isSome _ cells index value (inside index List.mem_cons_self)
      obtain ⟨length, first⟩ := write_spec step
      obtain ⟨cells', run, length', rest⟩ := @ih middle fun other member => length ▸ inside other (List.mem_cons_of_mem _ member)
      refine ⟨cells', ?_, length'.trans length, fun i => ?_⟩
      · rw [List.foldlM_cons, step]
        exact run
      · rw [rest, first]
        by_cases later : i ∈ order
        · rw [if_pos later, if_pos (List.mem_cons_of_mem _ later)]
        · rw [if_neg later]
          by_cases here : i = index
          · rw [if_pos here, if_pos (here ▸ List.mem_cons_self)]
          · rw [if_neg here, if_neg fun member => (List.mem_cons.mp member).elim here later]

theorem foldlM_copy (order : List ℕ) (apart : order.Pairwise fun earlier later => dst + earlier ≠ src + later)
    (written : ∀ pos ∈ order, ∃ value, cells[src + pos]? = some (some value)) (inside : ∀ pos ∈ order, dst + pos < cells.length) :
    ∃ cells', order.foldlM (copy src dst) cells = some cells' ∧ cells'.length = cells.length ∧
      (∀ pos ∈ order, cells'[dst + pos]? = cells[src + pos]?) ∧ ∀ i, (∀ pos ∈ order, i ≠ dst + pos) → cells'[i]? = cells[i]? := by
  induction order generalizing cells with
  | nil => exact ⟨cells, rfl, rfl, fun _ member => absurd member List.not_mem_nil, fun _ _ => rfl⟩
  | cons pos order ih =>
      obtain ⟨behind, apart⟩ := List.pairwise_cons.mp apart
      obtain ⟨value, here⟩ := written pos List.mem_cons_self
      obtain ⟨middle, step⟩ := @write_isSome _ cells (dst + pos) value (inside pos List.mem_cons_self)
      obtain ⟨length, first⟩ := write_spec step
      have kept (other : ℕ) (member : other ∈ order) : middle[src + other]? = cells[src + other]? := by
        rw [first, if_neg (Ne.symm (behind other member))]
      obtain ⟨cells', run, length', moved, outside⟩ := @ih middle apart
        (fun other member => by rw [kept other member]; exact written other (List.mem_cons_of_mem _ member))
        (fun other member => length ▸ inside other (List.mem_cons_of_mem _ member))
      refine ⟨cells', ?_, length'.trans length, fun other member => ?_, fun i other => ?_⟩
      · rw [List.foldlM_cons, copy, read_eq_some_iff.mpr here]
        show (write cells (dst + pos) value).bind _ = _
        rw [step]
        exact run
      · by_cases again : other ∈ order
        · rw [moved other again, kept other again]
        · obtain rfl := (List.mem_cons.mp member).resolve_right again
          have last : cells'[dst + other]? = middle[dst + other]? :=
            outside _ fun later member same => again (Nat.add_left_cancel same ▸ member)
          rw [last, first, if_pos rfl, here]
      · rw [outside i fun later member => other later (List.mem_cons_of_mem _ member), first, if_neg (other pos List.mem_cons_self)]

theorem foldlM_copy_up (up : src < dst) (count : ℕ) (written : ∀ pos < count, ∃ value, cells[src + pos]? = some (some value))
    (inside : dst + count ≤ cells.length) :
    ∃ cells', (List.range count).reverse.foldlM (copy src dst) cells = some cells' ∧ cells'.length = cells.length ∧
      (∀ pos < count, cells'[dst + pos]? = cells[src + pos]?) ∧ ∀ i, i < dst ∨ dst + count ≤ i → cells'[i]? = cells[i]? := by
  have below (pos : ℕ) (member : pos ∈ (List.range count).reverse) : pos < count := List.mem_range.mp (List.mem_reverse.mp member)
  have apart : (List.range count).reverse.Pairwise fun earlier later => dst + earlier ≠ src + later :=
    List.pairwise_reverse.mpr (List.pairwise_lt_range.imp fun lt => by omega)
  obtain ⟨cells', run, length, moved, outside⟩ := foldlM_copy _ apart (fun pos member => written pos (below pos member))
    fun pos member => by have := below pos member; omega
  refine ⟨cells', run, length, fun pos lt => moved pos (List.mem_reverse.mpr (List.mem_range.mpr lt)), fun i beyond => ?_⟩
  exact outside i fun pos member same => by have := below pos member; omega

theorem foldlM_copy_down (down : dst < src) (count : ℕ) (written : ∀ pos < count, ∃ value, cells[src + pos]? = some (some value))
    (inside : dst + count ≤ cells.length) :
    ∃ cells', (List.range count).foldlM (copy src dst) cells = some cells' ∧ cells'.length = cells.length ∧
      (∀ pos < count, cells'[dst + pos]? = cells[src + pos]?) ∧ ∀ i, i < dst ∨ dst + count ≤ i → cells'[i]? = cells[i]? := by
  have below (pos : ℕ) (member : pos ∈ List.range count) : pos < count := List.mem_range.mp member
  have apart : (List.range count).Pairwise fun earlier later => dst + earlier ≠ src + later :=
    List.pairwise_lt_range.imp fun lt => by omega
  obtain ⟨cells', run, length, moved, outside⟩ := foldlM_copy _ apart (fun pos member => written pos (below pos member))
    fun pos member => by have := below pos member; omega
  refine ⟨cells', run, length, fun pos lt => moved pos (List.mem_range.mpr lt), fun i beyond => ?_⟩
  exact outside i fun pos member same => by have := below pos member; omega

end ObjcDyld.Moves
