import Mathlib

/-!
# A stack that is unwound to marks

Items are added to a stack, and marks between them.  Popping a mark releases
the items above it one by one; each release may add and pop again before the
next, as long as it pops nothing below the marks that are being popped.
-/

namespace ObjcDyld.Unwinding

/-- What lies on the stack. -/
inductive Entry (τ α : Type) where
  | mark (token : τ)
  | item (value : α)
  deriving DecidableEq, Repr

/--
The stack, coldest entry first, and the heights down to which the pops in progress go, the
innermost first.
-/
structure State (τ α : Type) where
  entries : List (Entry τ α)
  stops : List ℕ
  deriving DecidableEq, Repr

/-- What happens to the stack. -/
inductive Event (τ α : Type) where
  | pushed (token : τ)
  | added (value : α)
  /-- A pop of the token's mark begins. -/
  | popping (token : τ)
  /-- The innermost pop releases an item. -/
  | released (value : α)
  /-- The innermost pop drops a mark. -/
  | closed
  /-- The innermost pop ends. -/
  | popped
  deriving DecidableEq, Repr

variable {τ α : Type}

def items (entries : List (Entry τ α)) : List α :=
  entries.filterMap fun entry => match entry with
    | .item value => some value
    | .mark _ => none

/-- The items that are added in the course of some events. -/
def added (events : List (Event τ α)) : List α :=
  events.filterMap fun event => match event with
    | .added value => some value
    | _ => none

/-- The items that are released in the course of some events. -/
def released (events : List (Event τ α)) : List α :=
  events.filterMap fun event => match event with
    | .released value => some value
    | _ => none

@[simp] theorem items_append (upper lower : List (Entry τ α)) :
    items (upper ++ lower) = items upper ++ items lower := List.filterMap_append

theorem added_append (first rest : List (Event τ α)) :
    added (first ++ rest) = added first ++ added rest :=
  List.filterMap_append

theorem released_append (first rest : List (Event τ α)) :
    released (first ++ rest) = released first ++ released rest :=
  List.filterMap_append

namespace State

/-- The stack before anything happens. -/
def start : State τ α := ⟨[], []⟩

/-- Takes the hottest entry off for the innermost pop, if the entry is above its stop. -/
def take (state : State τ α) (wanted : Entry τ α → Bool) : Option (State τ α) :=
  match state.stops, state.entries.getLast? with
  | stop :: _, some entry =>
      if stop < state.entries.length ∧ wanted entry then
        some { state with entries := state.entries.dropLast }
      else none
  | _, _ => none

theorem take_eq_some {state next : State τ α} {wanted : Entry τ α → Bool} :
    state.take wanted = some next ↔
      ∃ stop stops lower entry, state.stops = stop :: stops ∧ state.entries = lower ++ [entry] ∧
        stop ≤ lower.length ∧ wanted entry = true ∧ next = ⟨lower, state.stops⟩ := by
  constructor
  · intro taken
    unfold take at taken
    split at taken
    next stop stops entry pops last =>
      obtain ⟨lower, shape⟩ := List.getLast?_eq_some_iff.mp last
      obtain ⟨above, ⟨⟩⟩ := Option.ite_none_right_eq_some.mp taken
      refine ⟨stop, stops, lower, entry, pops, shape, ?_, above.2, ?_⟩
      · simpa [shape, Nat.lt_succ_iff] using above.1
      · simp [shape]
    next => cases taken
  · rintro ⟨stop, stops, lower, entry, pops, shape, above, want, rfl⟩
    simp [take, pops, shape, above, want]

/-- The pops in progress lie on the stack, each above the one it interrupts. -/
structure Nested (state : State τ α) : Prop where
  sorted : state.stops.Pairwise (· > ·)
  below : ∀ stop ∈ state.stops, stop ≤ state.entries.length

theorem nested_start : (start : State τ α).Nested := ⟨List.Pairwise.nil, nofun⟩

variable [DecidableEq τ] [DecidableEq α]

def position (state : State τ α) (token : τ) : ℕ := state.entries.idxOf (.mark token)

/-- One event, if the stack allows it. -/
def apply (state : State τ α) : Event τ α → Option (State τ α)
  | .pushed token => some { state with entries := state.entries ++ [.mark token] }
  | .added value => some { state with entries := state.entries ++ [.item value] }
  | .popping token =>
      if state.position token < state.entries.length ∧
          ∀ stop ∈ state.stops.head?, stop < state.position token then
        some { state with stops := state.position token :: state.stops }
      else none
  | .released value => state.take (· = .item value)
  | .closed => state.take fun entry => match entry with
      | .mark _ => true
      | .item _ => false
  | .popped =>
      match state.stops with
      | stop :: stops => if state.entries.length = stop then some { state with stops := stops } else none
      | [] => none

def run (state : State τ α) : List (Event τ α) → Option (State τ α)
  | [] => some state
  | event :: events => (state.apply event).bind fun state => state.run events

/-- More than `depth` pops are in progress throughout the events. -/
def During (depth : ℕ) (state : State τ α) : List (Event τ α) → Prop
  | [] => depth < state.stops.length
  | event :: events =>
      depth < state.stops.length ∧ ∀ next, state.apply event = some next → During depth next events

variable {state next : State τ α}

theorem run_append (events rest : List (Event τ α)) :
    state.run (events ++ rest) = (state.run events).bind fun next => next.run rest := by
  induction events generalizing state with
  | nil => rfl
  | cons event events ih =>
      rw [List.cons_append, run, run]
      cases state.apply event with
      | none => rfl
      | some next => exact ih

theorem apply_released {value : α} (step : state.apply (.released value) = some next) :
    ∃ lower, state.entries = lower ++ [.item value] ∧ next = ⟨lower, state.stops⟩ := by
  obtain ⟨_, _, lower, entry, _, shape, _, want, rfl⟩ := take_eq_some.mp step
  rw [of_decide_eq_true want] at shape
  exact ⟨lower, shape, rfl⟩

theorem Nested.apply (nested : state.Nested) {event : Event τ α}
    (step : state.apply event = some next) : next.Nested := by
  have taken {wanted : Entry τ α → Bool} (take : state.take wanted = some next) : next.Nested := by
    obtain ⟨stop, stops, lower, entry, pops, shape, above, _, rfl⟩ := take_eq_some.mp take
    refine ⟨nested.sorted, ?_⟩
    intro other mem
    have sorted := nested.sorted
    rw [pops] at mem sorted
    cases mem with
    | head => exact above
    | tail _ mem => exact ((List.pairwise_cons.mp sorted).1 other mem).le.trans above
  have grown {entry : Entry τ α} : Nested ⟨state.entries ++ [entry], state.stops⟩ :=
    ⟨nested.sorted, fun stop mem => (nested.below stop mem).trans (by simp)⟩
  cases event with
  | pushed token => cases step; exact grown
  | added value => cases step; exact grown
  | popping token =>
      obtain ⟨⟨held, inner⟩, ⟨⟩⟩ := Option.ite_none_right_eq_some.mp step
      refine ⟨List.pairwise_cons.mpr ⟨?_, nested.sorted⟩, ?_⟩
      · intro stop mem
        cases pops : state.stops with
        | nil => rw [pops] at mem; cases mem
        | cons first rest =>
            have sorted := nested.sorted
            have first_lt := inner first (by rw [pops]; rfl)
            rw [pops] at mem sorted
            cases mem with
            | head => exact first_lt
            | tail _ mem => exact ((List.pairwise_cons.mp sorted).1 stop mem).trans first_lt
      · intro stop mem
        cases mem with
        | head => exact held.le
        | tail _ mem => exact nested.below stop mem
  | released value => exact taken step
  | closed => exact taken step
  | popped =>
      cases pops : state.stops with
      | nil => simp [State.apply, pops] at step
      | cons stop stops =>
          simp only [State.apply, pops] at step
          obtain ⟨_, ⟨⟩⟩ := Option.ite_none_right_eq_some.mp step
          have sorted := nested.sorted
          rw [pops] at sorted
          refine ⟨(List.pairwise_cons.mp sorted).2, fun other mem => nested.below other ?_⟩
          rw [pops]
          exact List.mem_cons_of_mem _ mem

theorem Nested.run (nested : state.Nested) {events : List (Event τ α)}
    (steps : state.run events = some next) : next.Nested := by
  induction events generalizing state with
  | nil => cases steps; exact nested
  | cons event events ih =>
      obtain ⟨mid, step, rest⟩ := Option.bind_eq_some_iff.mp steps
      exact ih (nested.apply step) rest

/-! ## A whole pop -/

/--
A pop from its beginning to its end: the events in between happen while it is in progress, and
its own end leaves the pops that it interrupted.
-/
structure PopRun (first : State τ α) (token : τ) (during : List (Event τ α)) (last : State τ α) :
    Prop where
  steps : ∃ begun ended, first.apply (.popping token) = some begun ∧ begun.run during = some ended ∧
    During first.stops.length begun during ∧ ended.apply .popped = some last
  returns : last.stops.length = first.stops.length

/-- What a pop does to the stack, and what it releases. -/
structure PopEffect (first : State τ α) (token : τ) (during : List (Event τ α)) (last : State τ α) :
    Prop where
  /-- The token's mark was on the stack. -/
  marked : first.entries[first.position token]? = some (.mark token)
  /-- Exactly the entries that preceded the mark stay. -/
  entries : last.entries = first.entries.take (first.position token)
  stops : last.stops = first.stops
  /-- The items above the mark and those added meanwhile are released, each as often as it was added. -/
  releases : (released during).Perm
    (items (first.entries.drop (first.position token)) ++ added during)
  /-- What is released is the hottest entry at its time. -/
  lastFirst : ∀ before value after, during = before ++ .released value :: after →
    ∃ begun mid lower, first.apply (.popping token) = some begun ∧ begun.run before = some mid ∧
      mid.entries = lower ++ [.item value]
  /-- If nothing is added meanwhile, the items are released in the reverse of their order. -/
  reversed : added during = [] →
    released during = (items (first.entries.drop (first.position token))).reverse

/--
The stack while a pop down to `stop` is in progress: the `base` below is untouched, the pops that
it interrupted are `outer`, and the items above are those that `released` and `added` leave.
-/
structure Unwound (base : List (Entry τ α)) (outer : List ℕ) (above : List α)
    (added released : List α) (state : State τ α) (upper : List (Entry τ α)) : Prop where
  split : state.entries = base ++ upper
  stops : ∃ inner, state.stops = inner ++ base.length :: outer
  balance : (items upper ++ released).Perm (above ++ added)
  order : added = [] → released ++ (items upper).reverse = above.reverse

variable {base upper : List (Entry τ α)} {outer : List ℕ} {above new gone : List α}

omit [DecidableEq τ] [DecidableEq α] in
theorem Unwound.take {wanted : Entry τ α → Bool} (unwound : Unwound base outer above new gone state upper)
    (nested : state.Nested) (taken : state.take wanted = some next) :
    ∃ rest entry, upper = rest ++ [entry] ∧ wanted entry = true ∧ next.entries = base ++ rest ∧
      next.stops = state.stops := by
  obtain ⟨stop, stops, lower, entry, pops, shape, high, want, rfl⟩ := take_eq_some.mp taken
  obtain ⟨inner, outside⟩ := unwound.stops
  -- The innermost stop is not below the stop of the pop that is looked at.
  have base_le : base.length ≤ stop := by
    have sorted := nested.sorted
    rw [outside] at sorted pops
    cases inner with
    | nil => exact (List.cons.inj pops).1.le
    | cons head tail =>
        obtain rfl := (List.cons.inj pops).1
        exact ((List.pairwise_cons.mp sorted).1 base.length (by simp)).le
  cases upper using List.reverseRecOn with
  | nil =>
      have lengths := congrArg List.length (unwound.split.symm.trans shape)
      simp at lengths
      omega
  | append_singleton rest last =>
      have whole := unwound.split.symm.trans shape
      rw [← List.append_assoc] at whole
      obtain ⟨lower_eq, entry_eq⟩ := List.append_inj' whole rfl
      obtain rfl := (List.cons.inj entry_eq).1
      exact ⟨rest, last, rfl, want, lower_eq.symm, rfl⟩

theorem Unwound.apply (unwound : Unwound base outer above new gone state upper) (nested : state.Nested)
    {event : Event τ α} (step : state.apply event = some next)
    (inside : outer.length < next.stops.length) :
    ∃ upper', Unwound base outer above (new ++ Unwinding.added [event])
      (gone ++ Unwinding.released [event]) next upper' := by
  obtain ⟨inner, outside⟩ := unwound.stops
  cases event with
  | pushed token =>
      cases step
      refine ⟨upper ++ [.mark token], by simp [unwound.split], ⟨inner, outside⟩, ?_, ?_⟩
      · simpa [items, Unwinding.added, Unwinding.released] using unwound.balance
      · simpa [items, Unwinding.added, Unwinding.released] using unwound.order
  | added value =>
      cases step
      refine ⟨upper ++ [.item value], by simp [unwound.split], ⟨inner, outside⟩, ?_, ?_⟩
      · have more := unwound.balance.append_right [value]
        refine List.Perm.trans ?_ (by simpa [Unwinding.added] using more)
        have swap : ([value] ++ gone).Perm (gone ++ [value]) := List.perm_append_comm
        simpa [items, Unwinding.released] using swap.append_left (items upper)
      · simp [Unwinding.added]
  | popping token =>
      obtain ⟨-, ⟨⟩⟩ := Option.ite_none_right_eq_some.mp step
      refine ⟨upper, unwound.split, ⟨state.position token :: inner, by simp [outside]⟩, ?_, ?_⟩
      · simpa [Unwinding.added, Unwinding.released] using unwound.balance
      · simpa [Unwinding.added, Unwinding.released] using unwound.order
  | released value =>
      obtain ⟨rest, entry, rfl, want, split, stops⟩ := unwound.take nested step
      obtain rfl := of_decide_eq_true want
      refine ⟨rest, split, ⟨inner, stops.trans outside⟩, ?_, ?_⟩
      · refine List.Perm.trans ?_ (by simpa [Unwinding.added] using unwound.balance)
        have swap : (gone ++ [value]).Perm ([value] ++ gone) := List.perm_append_comm
        simpa [items, Unwinding.released] using swap.append_left (items rest)
      · intro none
        simpa [items, Unwinding.released] using unwound.order (by simpa [Unwinding.added] using none)
  | closed =>
      obtain ⟨rest, entry, rfl, want, split, stops⟩ := unwound.take nested step
      cases entry with
      | item value => cases want
      | mark token =>
          refine ⟨rest, split, ⟨inner, stops.trans outside⟩, ?_, ?_⟩
          · simpa [items, Unwinding.added, Unwinding.released] using unwound.balance
          · simpa [items, Unwinding.added, Unwinding.released] using unwound.order
  | popped =>
      cases inner with
      | nil =>
          simp only [State.apply, outside, List.nil_append] at step
          obtain ⟨-, ⟨⟩⟩ := Option.ite_none_right_eq_some.mp step
          exact absurd inside (lt_irrefl _)
      | cons head tail =>
          simp only [State.apply, outside, List.cons_append] at step
          obtain ⟨-, ⟨⟩⟩ := Option.ite_none_right_eq_some.mp step
          refine ⟨upper, unwound.split, ⟨tail, rfl⟩, ?_, ?_⟩
          · simpa [Unwinding.added, Unwinding.released] using unwound.balance
          · simpa [Unwinding.added, Unwinding.released] using unwound.order

theorem During.stops {depth : ℕ} {events : List (Event τ α)} (during : During depth state events) :
    depth < state.stops.length := by
  cases events with
  | nil => exact during
  | cons => exact during.1

theorem Unwound.run {events : List (Event τ α)}
    (unwound : Unwound base outer above new gone state upper) (nested : state.Nested)
    (steps : state.run events = some next) (inside : During outer.length state events) :
    ∃ upper', Unwound base outer above (new ++ Unwinding.added events)
      (gone ++ Unwinding.released events) next upper' := by
  induction events generalizing state upper new gone with
  | nil =>
      cases steps
      exact ⟨upper, by simpa [Unwinding.added, Unwinding.released] using unwound⟩
  | cons event events ih =>
      obtain ⟨mid, step, rest⟩ := Option.bind_eq_some_iff.mp steps
      have after := inside.2 mid step
      obtain ⟨upper', unwound'⟩ := unwound.apply nested step after.stops
      obtain ⟨upper'', unwound''⟩ := ih unwound' (nested.apply step) rest after
      rw [List.append_assoc, List.append_assoc, ← added_append, ← released_append] at unwound''
      exact ⟨upper'', unwound''⟩

theorem PopRun.effect {first last : State τ α} {token : τ} {during : List (Event τ α)}
    (pop : PopRun first token during last) (nested : first.Nested) :
    PopEffect first token during last := by
  obtain ⟨begun, ended, begins, runs, inside, ends⟩ := pop.steps
  have begun_nested := nested.apply begins
  obtain ⟨⟨held, -⟩, ⟨⟩⟩ := Option.ite_none_right_eq_some.mp begins
  have length : (first.entries.take (first.position token)).length = first.position token :=
    List.length_take_of_le held.le
  have unwound : Unwound (first.entries.take (first.position token)) first.stops
      (items (first.entries.drop (first.position token))) [] []
      ⟨first.entries, first.position token :: first.stops⟩
      (first.entries.drop (first.position token)) :=
    ⟨(List.take_append_drop _ _).symm, ⟨[], by rw [length]; rfl⟩, by simp, by simp⟩
  obtain ⟨upper, final⟩ := unwound.run begun_nested runs inside
  obtain ⟨inner, outside⟩ := final.stops
  -- The pop's own end is the one that brings the pops in progress back to those it interrupted.
  cases inner with
  | cons head tail =>
      simp only [State.apply, outside, List.cons_append] at ends
      obtain ⟨-, ⟨⟩⟩ := Option.ite_none_right_eq_some.mp ends
      have lengths := pop.returns
      simp at lengths
      omega
  | nil =>
      simp only [State.apply, outside, List.nil_append] at ends
      obtain ⟨height, ⟨⟩⟩ := Option.ite_none_right_eq_some.mp ends
      have empty : upper = [] := by
        have lengths := congrArg List.length final.split
        rw [List.length_append] at lengths
        exact List.length_eq_zero_iff.mp (by omega)
      subst empty
      refine ⟨?_, by simpa using final.split, rfl, ?_, ?_, ?_⟩
      · exact List.getElem?_idxOf (List.idxOf_lt_length_iff.mp held)
      · simpa [items] using final.balance
      · rintro before value after rfl
        rw [run_append] at runs
        obtain ⟨mid, reached, rest⟩ := Option.bind_eq_some_iff.mp runs
        obtain ⟨_, step, -⟩ := Option.bind_eq_some_iff.mp rest
        obtain ⟨lower, shape, -⟩ := apply_released step
        exact ⟨_, mid, lower, begins, reached, shape⟩
      · intro none
        simpa [items] using final.order (by simpa using none)

end State

end ObjcDyld.Unwinding
