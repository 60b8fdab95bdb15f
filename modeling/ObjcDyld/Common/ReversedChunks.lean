import Mathlib

/-!
# Collecting back to front

Items are collected in a buffer from its end to its front. When the buffer is full, it is handed on, and
the collecting starts again at the end. What is handed on are the chunks of the items, each with its
newest item first.
-/

namespace ObjcDyld.ReversedChunks

variable {σ α : Type*}

/-- What the chunks went to, and the buffer; a slot is `none` before it has been written. -/
structure Collecting (σ α : Type*) where
  target : σ
  slots : List (Option α)
  count : ℕ

variable (size : ℕ) (handOn : List (Option α) → σ → σ)

def start (target : σ) : Collecting σ α := ⟨target, List.replicate size none, 0⟩

def push (state : Collecting σ α) (item : Option α) : Collecting σ α :=
  match item with
  | none => state
  | some item =>
      let state := if state.count = size then { state with target := handOn (state.slots.take state.count) state.target, count := 0 } else state
      { state with slots := state.slots.set (size - (state.count + 1)) (some item), count := state.count + 1 }

/-- The last slots that were filled. -/
def Collecting.rest (state : Collecting σ α) : List (Option α) := (state.slots.drop (size - state.count)).take state.count

/-- The chunks are handed on one after the other. -/
def handOnChunks (start : σ) (chunks : List (List α)) : σ :=
  chunks.foldl (fun target chunk => handOn (chunk.reverse.map some) target) start

/-- The items are in the chunks and in the buffer. -/
structure Collects (start : σ) (items : List α) (state : Collecting σ α) (chunks : List (List α)) (pending : List α) : Prop where
  target : state.target = handOnChunks handOn start chunks
  items : chunks.flatten ++ pending = items
  count : state.count = pending.length
  fits : pending.length ≤ size
  length : state.slots.length = size
  slots : state.slots.drop (size - pending.length) = pending.reverse.map some

variable {size handOn} {target : σ} {items pending : List α} {state : Collecting σ α} {chunks : List (List α)}

theorem collects_start (target : σ) : Collects size handOn target [] (start size target) [] [] := by
  refine ⟨rfl, rfl, rfl, Nat.zero_le _, List.length_replicate, ?_⟩
  exact List.drop_eq_nil_of_le (by rw [start, List.length_replicate, List.length_nil, Nat.sub_zero])

theorem drop_set {slots filled : List (Option α)} {count : ℕ} (item : Option α) (length : slots.length = size) (room : count < size)
    (last : slots.drop (size - count) = filled) :
    (slots.set (size - (count + 1)) item).drop (size - (count + 1)) = item :: filled := by
  have inside : size - (count + 1) < slots.length := by omega
  rw [List.set_eq_take_append_cons_drop, if_pos inside, List.drop_left' (by rw [List.length_take]; omega), ← last]
  congr 2
  omega

theorem Collects.push (nonempty : 0 < size) (collects : Collects size handOn target items state chunks pending) (item : α) :
    ∃ chunks' pending', Collects size handOn target (items ++ [item]) (push size handOn state (some item)) chunks' pending' := by
  by_cases full : state.count = size
  · have whole : state.slots.take state.count = pending.reverse.map some := by
      rw [← collects.slots, ← collects.count, full, Nat.sub_self, List.drop_zero, List.take_of_length_le collects.length.le]
    have flushed : ReversedChunks.push size handOn state (some item) =
        ⟨handOn (pending.reverse.map some) state.target, state.slots.set (size - 1) (some item), 1⟩ := by
      simp only [ReversedChunks.push, if_pos full, whole]
    rw [flushed]
    refine ⟨chunks ++ [pending], [item], ?_, ?_, rfl, nonempty, (List.length_set ..).trans collects.length, ?_⟩
    · rw [collects.target, handOnChunks, handOnChunks, List.foldl_append, List.foldl_cons, List.foldl_nil]
    · rw [List.flatten_append, List.flatten_singleton, collects.items]
    · exact drop_set (some item) collects.length nonempty (List.drop_eq_nil_of_le collects.length.le)
  · have room : pending.length < size := lt_of_le_of_ne collects.fits (collects.count ▸ full)
    have put : ReversedChunks.push size handOn state (some item) =
        ⟨state.target, state.slots.set (size - (pending.length + 1)) (some item), pending.length + 1⟩ := by
      simp only [ReversedChunks.push, if_neg full]
      rw [collects.count]
    have length : (pending ++ [item]).length = pending.length + 1 := List.length_append
    rw [put]
    refine ⟨chunks, pending ++ [item], collects.target, ?_, length.symm, length ▸ room, (List.length_set ..).trans collects.length, ?_⟩
    · rw [← List.append_assoc, collects.items]
    · rw [length, List.reverse_append, List.reverse_singleton, List.map_append]
      exact drop_set (some item) collects.length room collects.slots

theorem Collects.rest (collects : Collects size handOn target items state chunks pending) : state.rest size = pending.reverse.map some := by
  rw [Collecting.rest, collects.count, collects.slots, List.take_of_length_le]
  rw [List.length_map, List.length_reverse]

theorem exists_chunks (nonempty : 0 < size) (target : σ) (entries : List (Option α)) :
    ∃ chunks : List (List α), chunks.flatten = entries.reduceOption ∧
      handOn ((entries.foldl (push size handOn) (start size target)).rest size) (entries.foldl (push size handOn) (start size target)).target =
        handOnChunks handOn target chunks := by
  have collected : ∀ (entries : List (Option α)) (state : Collecting σ α) (items : List α) (chunks : List (List α)) (pending : List α),
      Collects size handOn target items state chunks pending →
      ∃ chunks' pending', Collects size handOn target (items ++ entries.reduceOption) (entries.foldl (push size handOn) state) chunks' pending' := by
    intro entries
    induction entries with
    | nil =>
        intro state items chunks pending collects
        refine ⟨chunks, pending, ?_⟩
        rw [List.reduceOption_nil, List.append_nil]
        exact collects
    | cons entry entries ih =>
        intro state items chunks pending collects
        cases entry with
        | none => exact ih _ _ _ _ collects
        | some item =>
            obtain ⟨chunks', pending', collects'⟩ := collects.push nonempty item
            rw [List.reduceOption_cons_of_some, List.append_cons]
            exact ih _ _ _ _ collects'
  obtain ⟨chunks, pending, collects⟩ := collected entries _ _ _ _ (collects_start target)
  refine ⟨chunks ++ [pending], ?_, ?_⟩
  · rw [List.flatten_append, List.flatten_singleton, collects.items, List.nil_append]
  · rw [collects.rest, collects.target, handOnChunks, handOnChunks, List.foldl_append, List.foldl_cons, List.foldl_nil]

end ObjcDyld.ReversedChunks
