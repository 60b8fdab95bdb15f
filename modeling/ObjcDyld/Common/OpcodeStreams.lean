import ObjcDyld.Common.ByteStreams

/-!
# Interpreters of opcode streams

A stream of opcodes is walked from its first byte to its end.  Each opcode reads operands, sets
registers and may call a handler some times in a loop whose counter has 32 bits.  The handler may stop
the walk, with or without an error.  What is read and called is recorded in order.
-/

namespace ObjcDyld.OpcodeStreams

open ByteStreams

variable {σ ρ κ : Type}

/-- What a handler makes of a call. -/
inductive Answer
  | goesOn
  | stops
  /-- It reports an error and stops. -/
  | fails
  deriving DecidableEq

/-- How a number was read. -/
inductive Operand
  | good
  | tooLarge
  | truncated
  deriving DecidableEq

/-- What happens in a walk, besides the setting of registers. -/
inductive Event (κ : Type)
  | call (made : κ) (stops : Bool)
  /-- a call at the end of a walk -/
  | notice (made : κ)
  /-- a number or a text runs into the end of the stream -/
  | truncated
  /-- a byte behind the end is read -/
  | outside
  deriving DecidableEq

/-- What one opcode does. -/
structure Action (ρ κ : Type) where
  regs : ρ
  rest : Bytes
  /-- A text runs over the end, without an error. -/
  overrun : Bool := false
  /-- The operands read before the calls. -/
  before : Operand := .good
  /-- How many calls are made. -/
  count : ℕ := 0
  call : ℕ → κ
  /-- The operand read after them. -/
  after : Operand := .good
  error : Bool := false
  /-- The byte behind the end is looked at. -/
  outside : Bool := false
  done : Bool := false

/-- An error is reported that is not the handler's. -/
def Action.fails (act : Action ρ κ) : Bool := act.before ≠ .good ∨ act.after ≠ .good ∨ act.error = true

/-- Nothing behind an opcode is looked at. -/
def Action.last (act : Action ρ κ) : Bool := act.done || act.fails

/-- An opcode without calls. -/
def Action.quiet [Inhabited κ] (regs : ρ) (rest : Bytes) : Action ρ κ := { regs, rest, call := fun _ => default }

/-- The same opcode for registers that others are a part of. -/
def Action.lift {ρ' : Type} (into : ρ → ρ') (act : Action ρ κ) : Action ρ' κ := { act with regs := into act.regs }

/-- The meaning of the opcodes. -/
structure Machine (ρ κ : Type) where
  step : ρ → BitVec 8 → Bytes → Action ρ κ
  shrinks : ∀ regs byte rest, (step regs byte rest).rest.length ≤ rest.length

/-- How a walk ends, and what happened in it. -/
structure Result (ρ σ κ : Type) where
  state : σ
  events : List (Event κ)
  stopped : Bool
  failed : Bool
  regs : ρ

/-- The result with earlier events in front. -/
def Result.behind (events : List (Event κ)) (result : Result ρ σ κ) : Result ρ σ κ :=
  { result with events := events ++ result.events }

/-- The result without the registers. -/
def Result.forget (result : Result ρ σ κ) : Result Unit σ κ := { result with regs := () }

/-- One walk after another, unless the first fails. -/
def andThen (first : ℕ → Option (Result ρ σ κ)) (second : σ → ℕ → Option (Result Unit σ κ)) (fuel : ℕ) :
    Option (Result Unit σ κ) :=
  (first fuel).bind fun result =>
    if result.failed then some result.forget else (second result.state fuel).map (Result.behind result.events)

/-- How a loop of calls ends. -/
structure Calls (σ κ : Type) where
  state : σ
  events : List (Event κ)
  answer : Answer

variable (handler : κ → σ → σ × Answer)

/-- The loop of calls from one round on; its counter has 32 bits. -/
def repeatCalls (count : ℕ) (call : ℕ → κ) : ℕ → ℕ → σ → Option (Calls σ κ)
  | 0, _, _ => none
  | fuel + 1, n, state =>
      if n % 2 ^ 32 < count then
        match handler (call n) state with
        | (state, .goesOn) =>
            (repeatCalls count call fuel (n + 1) state).map fun calls =>
              { calls with events := .call (call n) false :: calls.events }
        | (state, answer) => some ⟨state, [.call (call n) true], answer⟩
      else some ⟨state, [], .goesOn⟩

def perform (fuel : ℕ) (act : Action ρ κ) (state : σ) : Option (Result ρ σ κ) :=
  let overrun := if act.overrun then [.truncated, .outside] else []
  let before := if act.before = .truncated then [.truncated] else []
  let after := if act.after = .truncated then [.truncated] else []
  let outside := if act.outside then [.outside] else []
  (repeatCalls handler act.count act.call fuel 0 state).map fun calls =>
    ⟨calls.state, overrun ++ before ++ calls.events ++ after ++ outside, calls.answer ≠ .goesOn,
      act.fails || calls.answer = .fails, act.regs⟩

def walk (machine : Machine ρ κ) (fuel : ℕ) : ℕ → ρ → Bytes → σ → Option (Result ρ σ κ)
  | _, regs, [], state => some ⟨state, [], false, false, regs⟩
  | 0, _, _ :: _, _ => none
  | n + 1, regs, byte :: rest, state =>
      let act := machine.step regs byte rest
      (perform handler fuel act state).bind fun result =>
        if result.stopped || result.failed || act.done then some result
        else (walk machine fuel n act.regs act.rest result.state).map (Result.behind result.events)

/-! ## What is expected -/

/-- Nothing outside the stream is read, and a truncated operand is an error that no call follows. -/
structure Result.IsClean (result : Result ρ σ κ) : Prop where
  inside : .outside ∉ result.events
  reported : ∀ before after, result.events = before ++ .truncated :: after →
    result.failed = true ∧ ∀ made stops, .call made stops ∉ after

/-- A run ends, and cleanly. -/
def IsSafe (run : ℕ → Option (Result ρ σ κ)) : Prop := ∃ fuel result, run fuel = some result ∧ result.IsClean

def stateAfter (call : ℕ → κ) (state : σ) : ℕ → σ
  | 0 => state
  | n + 1 => (handler (call n) (stateAfter call state n)).1

/-- The answer to one of the calls. -/
def answerAt (call : ℕ → κ) (state : σ) (n : ℕ) : Answer := (handler (call n) (stateAfter handler call state n)).2

/-- The handler stops a loop that is not bounded otherwise. -/
def Stops (call : ℕ → κ) (state : σ) : Prop := ∃ n, answerAt handler call state n ≠ .goesOn

/-- All calls of an opcode are made, and none stops. -/
def Passes (act : Action ρ κ) (state : σ) : Prop :=
  act.count < 2 ^ 32 ∧ ∀ n < act.count, answerAt handler act.call state n = .goesOn

/-- The counter can reach the number of calls, or the handler stops before. -/
def Ends (act : Action ρ κ) (state : σ) : Prop := act.count < 2 ^ 32 ∨ Stops handler act.call state

/-- An opcode reads only inside the stream, makes no calls with a truncated operand, and ends. -/
structure Fine (act : Action ρ κ) (state : σ) : Prop where
  overrun : act.overrun = false
  outside : act.outside = false
  truncated : act.before = .truncated → act.count = 0
  ends : Ends handler act state

/-- All opcodes that a walk comes to have some property. -/
def AllReached (property : Action ρ κ → σ → Prop) : List (Action ρ κ) → σ → Prop
  | [], _ => True
  | act :: acts, state => property act state ∧ (act.fails = false → Passes handler act state →
      AllReached property acts (stateAfter handler act.call state act.count))

/-- The opcodes of a stream, up to the one that ends it. -/
def actionsFrom (machine : Machine ρ κ) : ℕ → ρ → Bytes → List (Action ρ κ)
  | n + 1, regs, byte :: rest =>
      let act := machine.step regs byte rest
      act :: if act.last then [] else actionsFrom machine n act.regs act.rest
  | _, _, _ => []

def actions (machine : Machine ρ κ) (regs : ρ) (stream : Bytes) : List (Action ρ κ) :=
  actionsFrom machine stream.length regs stream

/-- The opcodes, performed one after another. -/
def performAll (fuel : ℕ) (regs : ρ) : List (Action ρ κ) → σ → Option (Result ρ σ κ)
  | [], state => some ⟨state, [], false, false, regs⟩
  | act :: acts, state =>
      (perform handler fuel act state).bind fun result =>
        if result.stopped || result.failed then some result
        else (performAll fuel act.regs acts result.state).map (Result.behind result.events)

/-! ## Loops of calls -/

variable {handler} {count : ℕ} {call : ℕ → κ} {state : σ} {fuel n : ℕ}

/-- What a loop of calls comes to. -/
inductive Looped (handler : κ → σ → σ × Answer) (count : ℕ) (call : ℕ → κ) (state : σ) : Calls σ κ → Prop
  | passed (small : count < 2 ^ 32) (goes_on : ∀ n < count, answerAt handler call state n = .goesOn) :
      Looped handler count call state
        ⟨stateAfter handler call state count, (List.range count).map fun n => .call (call n) false, .goesOn⟩
  | stopped (k : ℕ) (inside : ∀ n < k + 1, n % 2 ^ 32 < count) (goes_on : ∀ n < k, answerAt handler call state n = .goesOn)
      (stops : answerAt handler call state k ≠ .goesOn) :
      Looped handler count call state
        ⟨stateAfter handler call state (k + 1),
          (List.range k).map (fun n => .call (call n) false) ++ [.call (call k) true], answerAt handler call state k⟩

theorem repeatCalls_goesOn (inside : n % 2 ^ 32 < count) (goes_on : answerAt handler call state n = .goesOn) :
    repeatCalls handler count call (fuel + 1) n (stateAfter handler call state n) =
      (repeatCalls handler count call fuel (n + 1) (stateAfter handler call state (n + 1))).map fun calls =>
        { calls with events := .call (call n) false :: calls.events } := by
  rw [answerAt] at goes_on
  rw [repeatCalls, if_pos inside, stateAfter]
  generalize handler (call n) (stateAfter handler call state n) = answer at goes_on ⊢
  obtain ⟨state', answer⟩ := answer
  cases goes_on
  rfl

theorem repeatCalls_stops (inside : n % 2 ^ 32 < count) (stops : answerAt handler call state n ≠ .goesOn) :
    repeatCalls handler count call (fuel + 1) n (stateAfter handler call state n) =
      some ⟨stateAfter handler call state (n + 1), [.call (call n) true], answerAt handler call state n⟩ := by
  rw [answerAt] at stops ⊢
  rw [repeatCalls, if_pos inside, stateAfter]
  generalize handler (call n) (stateAfter handler call state n) = answer at stops ⊢
  obtain ⟨state', answer⟩ := answer
  cases answer with
  | goesOn => exact absurd rfl stops
  | stops => rfl
  | fails => rfl

theorem repeatCalls_ended (ended : ¬ n % 2 ^ 32 < count) :
    repeatCalls handler count call (fuel + 1) n state = some ⟨state, [], .goesOn⟩ := by
  rw [repeatCalls, if_neg ended]

theorem looped_of_repeatCalls {calls : Calls σ κ} (inside : ∀ m < n, m % 2 ^ 32 < count)
    (goes_on : ∀ m < n, answerAt handler call state m = .goesOn)
    (run : repeatCalls handler count call fuel n (stateAfter handler call state n) = some calls) :
    Looped handler count call state
      { calls with events := (List.range n).map (fun n => .call (call n) false) ++ calls.events } := by
  induction fuel generalizing n calls with
  | zero => cases run
  | succ fuel ih =>
      by_cases here : n % 2 ^ 32 < count
      · by_cases answer : answerAt handler call state n = .goesOn
        · rw [repeatCalls_goesOn here answer] at run
          obtain ⟨later, ran, rfl⟩ := Option.map_eq_some_iff.1 run
          have whole := ih (Nat.forall_lt_succ_right.2 ⟨inside, here⟩) (Nat.forall_lt_succ_right.2 ⟨goes_on, answer⟩) ran
          rw [List.range_succ, List.map_append, List.append_assoc] at whole
          exact whole
        · rw [repeatCalls_stops here answer, Option.some.injEq] at run
          subst run
          exact .stopped n (Nat.forall_lt_succ_right.2 ⟨inside, here⟩) goes_on answer
      · rw [repeatCalls_ended here, Option.some.injEq] at run
        subst run
        have reached : n ≤ count := by
          by_contra beyond
          have small := inside count (not_le.1 beyond)
          omega
        obtain rfl : n = count := by omega
        rw [List.append_nil]
        exact .passed (by omega) goes_on

theorem looped_of_run {calls : Calls σ κ} (run : repeatCalls handler count call fuel 0 state = some calls) :
    Looped handler count call state calls :=
  looped_of_repeatCalls (fun _ below => absurd below (Nat.not_lt_zero _)) (fun _ below => absurd below (Nat.not_lt_zero _)) run

theorem exists_repeatCalls {last : ℕ} (ends : ¬ last % 2 ^ 32 < count ∨ answerAt handler call state last ≠ .goesOn)
    (rounds : ℕ) (here : n + rounds = last) :
    ∃ calls, repeatCalls handler count call (rounds + 1) n (stateAfter handler call state n) = some calls := by
  induction rounds generalizing n with
  | zero =>
      obtain rfl : n = last := here
      by_cases inside : n % 2 ^ 32 < count
      · exact ⟨_, repeatCalls_stops inside (ends.resolve_left (not_not.2 inside))⟩
      · exact ⟨_, repeatCalls_ended inside⟩
  | succ rounds ih =>
      by_cases inside : n % 2 ^ 32 < count
      · by_cases answer : answerAt handler call state n = .goesOn
        · obtain ⟨calls, run⟩ := ih (n := n + 1) (by omega)
          rw [repeatCalls_goesOn inside answer, run]
          exact ⟨_, rfl⟩
        · exact ⟨_, repeatCalls_stops inside answer⟩
      · exact ⟨_, repeatCalls_ended inside⟩

theorem exists_run_iff {act : Action ρ κ} :
    (∃ fuel calls, repeatCalls handler act.count act.call fuel 0 state = some calls) ↔ Ends handler act state := by
  constructor
  · rintro ⟨fuel, calls, run⟩
    cases looped_of_run run with
    | passed small _ => exact .inl small
    | stopped k _ _ stops => exact .inr ⟨k, stops⟩
  · rintro (small | ⟨k, stops⟩)
    · have ended : ¬ act.count % 2 ^ 32 < act.count := by omega
      exact ⟨_, exists_repeatCalls (.inl ended) act.count (Nat.zero_add _)⟩
    · exact ⟨_, exists_repeatCalls (.inr stops) k (Nat.zero_add _)⟩

theorem repeatCalls_mono {fuel' : ℕ} {calls : Calls σ κ} (more : fuel ≤ fuel')
    (run : repeatCalls handler count call fuel n state = some calls) :
    repeatCalls handler count call fuel' n state = some calls := by
  induction fuel generalizing fuel' n state calls with
  | zero => cases run
  | succ fuel ih =>
      obtain ⟨fuel', rfl⟩ := Nat.exists_eq_add_of_le' (Nat.one_le_of_lt (Nat.lt_of_succ_le more))
      rw [repeatCalls] at run ⊢
      split
      · next inside =>
          rw [if_pos inside] at run
          generalize handler (call n) state = answer at run ⊢
          obtain ⟨state', answer⟩ := answer
          cases answer with
          | goesOn =>
              obtain ⟨later, ran, rfl⟩ := Option.map_eq_some_iff.1 run
              exact Option.map_eq_some_iff.2 ⟨later, ih (Nat.le_of_succ_le_succ more) ran, rfl⟩
          | stops => exact run
          | fails => exact run
      · next ended =>
          rw [if_neg ended] at run
          exact run

/-! ## One opcode -/

variable {act : Action ρ κ} {regs : ρ} {calls : Calls σ κ}

/-- The events of an opcode whose loop of calls has ended. -/
def eventsOf (act : Action ρ κ) (calls : List (Event κ)) : List (Event κ) :=
  (if act.overrun then [.truncated, .outside] else []) ++ (if act.before = .truncated then [.truncated] else []) ++ calls ++
    (if act.after = .truncated then [.truncated] else []) ++ (if act.outside then [.outside] else [])

/-- What an opcode comes to. -/
def resultOf (act : Action ρ κ) (calls : Calls σ κ) : Result ρ σ κ :=
  ⟨calls.state, eventsOf act calls.events, calls.answer ≠ .goesOn, act.fails || calls.answer = .fails, act.regs⟩

theorem perform_eq : perform handler fuel act state =
    (repeatCalls handler act.count act.call fuel 0 state).map (resultOf act) := rfl

theorem Looped.passes (looped : Looped handler act.count act.call state calls) :
    calls.answer = .goesOn ↔ Passes handler act state := by
  cases looped with
  | passed small goes_on => exact iff_of_true rfl ⟨small, goes_on⟩
  | stopped k inside goes_on stops =>
      refine iff_of_false stops fun passes => stops (passes.2 k ?_)
      have small := passes.1
      by_contra beyond
      have last := inside act.count (by omega)
      omega

theorem Looped.state_eq (looped : Looped handler act.count act.call state calls) (passes : Passes handler act state) :
    calls.state = stateAfter handler act.call state act.count := by
  cases looped with
  | passed small goes_on => rfl
  | stopped k inside goes_on stops => exact absurd ((Looped.stopped k inside goes_on stops).passes.2 passes) stops

theorem Looped.event_eq (looped : Looped handler count call state calls) {event : Event κ} (member : event ∈ calls.events) :
    ∃ made stops, event = .call made stops := by
  cases looped with
  | passed small goes_on =>
      obtain ⟨n, -, rfl⟩ := List.mem_map.1 member
      exact ⟨_, _, rfl⟩
  | stopped k inside goes_on stops =>
      rcases List.mem_append.1 member with earlier | last
      · obtain ⟨n, -, rfl⟩ := List.mem_map.1 earlier
        exact ⟨_, _, rfl⟩
      · exact ⟨_, _, List.mem_singleton.1 last⟩

theorem Looped.events_eq_nil_iff (looped : Looped handler count call state calls) : calls.events = [] ↔ count = 0 := by
  cases looped with
  | passed small goes_on => simp
  | stopped k inside goes_on stops =>
      have positive := inside k (Nat.lt_succ_self k)
      exact iff_of_false (by simp) (by omega)

theorem truncated_mem (looped : Looped handler act.count act.call state calls) (within : act.overrun = false)
    (member : .truncated ∈ eventsOf act calls.events) : act.fails = true := by
  simp only [eventsOf, within, List.mem_append] at member
  rcases member with ((((none_here | before) | made) | after) | outside)
  · cases none_here
  · split at before
    · next truncated => simp [Action.fails, truncated]
    · cases before
  · obtain ⟨_, _, same⟩ := looped.event_eq made
    cases same
  · split at after
    · next truncated => simp [Action.fails, truncated]
    · cases after
  · split at outside
    · cases List.mem_singleton.1 outside
    · cases outside

theorem eq_nil_of_truncated {made before after : List (Event κ)} (calls : .truncated ∉ made)
    (events : made ++ [.truncated] = before ++ .truncated :: after) : after = [] := by
  rcases List.append_eq_append_iff.1 events with ⟨more, -, last⟩ | ⟨more, earlier, last⟩
  · rcases List.cons_eq_append_iff.1 last with ⟨-, same⟩ | ⟨other, -, empty⟩
    · exact (List.cons.inj same).2
    · exact absurd empty (by simp)
  · cases more with
    | nil => exact (List.cons.inj last).2
    | cons event more =>
        obtain rfl := (List.cons.inj last).1
        exact absurd (earlier ▸ List.mem_append_right _ List.mem_cons_self) calls

theorem resultOf_isClean (looped : Looped handler act.count act.call state calls) (fine : Fine handler act state) :
    (resultOf act calls).IsClean := by
  constructor
  · intro outside
    simp only [resultOf, eventsOf, fine.overrun, fine.outside, List.mem_append] at outside
    rcases outside with ((((none_here | before) | made) | after) | behind)
    · cases none_here
    · split at before
      · cases List.mem_singleton.1 before
      · cases before
    · obtain ⟨_, _, same⟩ := looped.event_eq made
      cases same
    · split at after
      · cases List.mem_singleton.1 after
      · cases after
    · cases behind
  · intro before after events
    have member : .truncated ∈ eventsOf act calls.events := by
      change eventsOf act calls.events = _ at events
      rw [events]
      exact List.mem_append_right _ List.mem_cons_self
    have failed := truncated_mem looped fine.overrun member
    refine ⟨by simp [resultOf, failed], fun made stops called => ?_⟩
    have made_only : .truncated ∉ calls.events := fun among => by
      obtain ⟨_, _, same⟩ := looped.event_eq among
      cases same
    change eventsOf act calls.events = _ at events
    by_cases early : act.before = .truncated
    · have quiet : calls.events = [] := looped.events_eq_nil_iff.2 (fine.truncated early)
      have among : .call made stops ∈ eventsOf act calls.events := by
        rw [events]
        exact List.mem_append_right _ (List.mem_cons_of_mem _ called)
      simp only [eventsOf, quiet, fine.overrun, fine.outside, early] at among
      split at among <;> simp at among
    · simp only [eventsOf, fine.overrun, fine.outside, early, Bool.false_eq_true, if_false, List.nil_append,
        List.append_nil] at events
      split at events
      · rw [eq_nil_of_truncated made_only events] at called
        cases called
      · rw [List.append_nil] at events
        exact made_only (events ▸ List.mem_append_right _ List.mem_cons_self)

theorem fine_of_clean (looped : Looped handler act.count act.call state calls) (ends : Ends handler act state)
    {more : List (Event κ)} (inside : .outside ∉ eventsOf act calls.events ++ more)
    (reported : ∀ before after, eventsOf act calls.events ++ more = before ++ .truncated :: after →
      ∀ made stops, .call made stops ∉ after) : Fine handler act state := by
  have within : .outside ∉ eventsOf act calls.events := fun among => inside (List.mem_append_left _ among)
  have overrun : act.overrun = false := by
    by_contra runs
    exact within (by simp [eventsOf, Bool.eq_true_of_not_eq_false runs])
  have outside : act.outside = false := by
    by_contra looks
    exact within (by simp [eventsOf, Bool.eq_true_of_not_eq_false looks])
  refine ⟨overrun, outside, fun truncated => ?_, ends⟩
  by_contra positive
  obtain ⟨event, member⟩ := List.exists_mem_of_ne_nil _ (mt looped.events_eq_nil_iff.1 positive)
  obtain ⟨made, stops, rfl⟩ := looped.event_eq member
  have split : eventsOf act calls.events ++ more = [] ++ .truncated :: (calls.events ++
      ((if act.after = .truncated then [.truncated] else []) ++ more)) := by
    simp [eventsOf, overrun, outside, truncated]
  exact reported _ _ split made stops (List.mem_append_left _ member)

/-! ## Walks -/

variable {acts : List (Action ρ κ)}

theorem perform_mono {fuel' : ℕ} {result : Result ρ σ κ} (more : fuel ≤ fuel')
    (run : perform handler fuel act state = some result) : perform handler fuel' act state = some result := by
  rw [perform_eq] at run ⊢
  obtain ⟨calls, ran, rfl⟩ := Option.map_eq_some_iff.1 run
  exact Option.map_eq_some_iff.2 ⟨calls, repeatCalls_mono more ran, rfl⟩

theorem performAll_mono {fuel' : ℕ} {result : Result ρ σ κ} (more : fuel ≤ fuel')
    (run : performAll handler fuel regs acts state = some result) :
    performAll handler fuel' regs acts state = some result := by
  induction acts generalizing regs state result with
  | nil => exact run
  | cons act acts ih =>
      rw [performAll] at run ⊢
      obtain ⟨first, ran, rest⟩ := Option.bind_eq_some_iff.1 run
      refine Option.bind_eq_some_iff.2 ⟨first, perform_mono more ran, ?_⟩
      split
      · next ends =>
          rw [if_pos ends] at rest
          exact rest
      · next goes_on =>
          rw [if_neg goes_on] at rest
          obtain ⟨later, later_run, rfl⟩ := Option.map_eq_some_iff.1 rest
          exact Option.map_eq_some_iff.2 ⟨later, ih later_run, rfl⟩

theorem performAll_cons {result : Result ρ σ κ} :
    performAll handler fuel regs (act :: acts) state = some result ↔
      ∃ calls, repeatCalls handler act.count act.call fuel 0 state = some calls ∧
        Looped handler act.count act.call state calls ∧
        if act.fails = false ∧ calls.answer = .goesOn then
          ∃ later, performAll handler fuel act.regs acts (stateAfter handler act.call state act.count) = some later ∧
            result = later.behind (eventsOf act calls.events)
        else result = resultOf act calls := by
  rw [performAll, perform_eq, Option.bind_map, Option.bind_eq_some_iff]
  refine exists_congr fun calls => and_congr_right fun run => ?_
  have looped := looped_of_run run
  rw [and_iff_right looped]
  have ends : ((resultOf act calls).stopped || (resultOf act calls).failed) = true ↔
      ¬ (act.fails = false ∧ calls.answer = .goesOn) := by
    cases fails : act.fails <;> cases answer : calls.answer <;> simp [resultOf, fails, answer]
  by_cases goes_on : act.fails = false ∧ calls.answer = .goesOn
  · rw [if_pos goes_on, Function.comp_apply, if_neg (mt ends.1 (not_not.2 goes_on)), Option.map_eq_some_iff,
      ← looped.state_eq (looped.passes.1 goes_on.2)]
    exact exists_congr fun later => and_congr_right fun _ => eq_comm
  · rw [if_neg goes_on, Function.comp_apply, if_pos (ends.2 goes_on), Option.some.injEq, eq_comm]

theorem performAll_safe_iff : IsSafe (fun fuel => performAll handler fuel regs acts state) ↔
    AllReached handler (Fine handler) acts state := by
  induction acts generalizing regs state with
  | nil =>
      refine iff_of_true ⟨0, _, rfl, ⟨List.not_mem_nil, fun before after events => ?_⟩⟩ trivial
      exact absurd events (by simp)
  | cons act acts ih =>
      constructor
      · rintro ⟨fuel, result, run, clean⟩
        obtain ⟨calls, ran, looped, rest⟩ := performAll_cons.1 run
        have ends : Ends handler act state := exists_run_iff.1 ⟨fuel, calls, ran⟩
        split at rest
        · next goes_on =>
            obtain ⟨later, later_run, rfl⟩ := rest
            refine ⟨fine_of_clean looped ends clean.inside fun before after events => (clean.reported _ _ events).2, ?_⟩
            refine fun _ _ => ih.1 ⟨fuel, later, later_run, ?_, fun before after events => ?_⟩
            · exact fun among => clean.inside (List.mem_append_right _ among)
            · exact clean.reported (eventsOf act calls.events ++ before) after (by
                rw [List.append_assoc, ← events]
                rfl)
        · next ended =>
            subst rest
            refine ⟨@fine_of_clean _ _ _ _ _ _ _ looped ends [] ?_ ?_, fun sound passes => ?_⟩
            · rw [List.append_nil]
              exact clean.inside
            · rw [List.append_nil]
              exact fun before after events => (clean.reported _ _ events).2
            · exact absurd ⟨sound, looped.passes.2 passes⟩ ended
      · rintro ⟨fine, others⟩
        obtain ⟨fuel, calls, run⟩ := exists_run_iff.2 fine.ends
        have looped := looped_of_run run
        have clean := resultOf_isClean looped fine
        by_cases goes_on : act.fails = false ∧ calls.answer = .goesOn
        · obtain ⟨fuel', later, later_run, safe⟩ :=
            (show IsSafe fun fuel => performAll handler fuel act.regs acts (stateAfter handler act.call state act.count) from
              ih.2 (others goes_on.1 (looped.passes.1 goes_on.2)))
          refine ⟨max fuel fuel', later.behind (eventsOf act calls.events), ?_, ?_, fun before after events => ?_⟩
          · refine performAll_cons.2 ⟨calls, repeatCalls_mono (le_max_left _ _) run, looped, ?_⟩
            rw [if_pos goes_on]
            exact ⟨later, performAll_mono (le_max_right _ _) later_run, rfl⟩
          · exact fun among => (List.mem_append.1 among).elim clean.inside safe.inside
          · -- the opcodes before a later one record no truncated operand, or they would fail
            have none_here : .truncated ∉ eventsOf act calls.events := fun among =>
              Bool.false_ne_true (goes_on.1.symm.trans (truncated_mem looped fine.overrun among))
            rcases List.append_eq_append_iff.1 (show eventsOf act calls.events ++ later.events = _ from events) with
              ⟨more, -, behind⟩ | ⟨more, earlier, behind⟩
            · exact safe.reported more after behind
            · cases more with
              | nil => exact safe.reported [] after behind.symm
              | cons event more =>
                  obtain rfl := (List.cons.inj behind).1
                  exact absurd (earlier ▸ List.mem_append_right _ List.mem_cons_self) none_here
        · refine ⟨fuel, resultOf act calls, performAll_cons.2 ⟨calls, run, looped, ?_⟩, clean⟩
          rw [if_neg goes_on]

section Streams

variable {machine : Machine ρ κ} {stream : Bytes} {result : Result ρ σ κ}

theorem actionsFrom_eq {m : ℕ} (hn : stream.length ≤ n) (hm : stream.length ≤ m) :
    actionsFrom machine n regs stream = actionsFrom machine m regs stream := by
  induction n generalizing m regs stream with
  | zero =>
      obtain rfl := List.length_eq_zero_iff.1 (Nat.le_zero.1 hn)
      cases m <;> rfl
  | succ n ih =>
      cases stream with
      | nil => cases m <;> rfl
      | cons byte rest =>
          cases m with
          | zero => cases hm
          | succ m =>
              have shrinks := machine.shrinks regs byte rest
              rw [actionsFrom, actionsFrom, ih (shrinks.trans (Nat.le_of_succ_le_succ hn))
                (shrinks.trans (Nat.le_of_succ_le_succ hm))]

theorem actions_cons (byte : BitVec 8) (rest : Bytes) : actions machine regs (byte :: rest) =
    machine.step regs byte rest :: if (machine.step regs byte rest).last then []
      else actions machine (machine.step regs byte rest).regs (machine.step regs byte rest).rest := by
  rw [actions, List.length_cons, actionsFrom, actions, actionsFrom_eq (machine.shrinks regs byte rest) le_rfl]

theorem performAll_stream (byte : BitVec 8) (rest : Bytes) :
    performAll handler fuel regs (actions machine regs (byte :: rest)) state =
      (perform handler fuel (machine.step regs byte rest) state).bind fun result =>
        if result.stopped || result.failed || (machine.step regs byte rest).done then some result
        else (performAll handler fuel (machine.step regs byte rest).regs
          (actions machine (machine.step regs byte rest).regs (machine.step regs byte rest).rest) result.state).map
            (Result.behind result.events) := by
  rw [actions_cons, performAll]
  cases ran : perform handler fuel (machine.step regs byte rest) state with
  | none => rfl
  | some result =>
      obtain ⟨calls, -, rfl⟩ := Option.map_eq_some_iff.1 (perform_eq ▸ ran)
      simp only [Option.bind_some]
      cases ends : (resultOf (machine.step regs byte rest) calls).stopped || (resultOf (machine.step regs byte rest) calls).failed with
      | true => simp
      | false =>
          obtain ⟨goes_on, sound⟩ := Bool.or_eq_false_iff.1 ends
          have fine : (machine.step regs byte rest).fails = false := (Bool.or_eq_false_iff.1 sound).1
          cases done : (machine.step regs byte rest).done with
          | true =>
              have whole : resultOf (machine.step regs byte rest) calls = ⟨calls.state,
                  eventsOf (machine.step regs byte rest) calls.events, false, false, (machine.step regs byte rest).regs⟩ :=
                Result.mk.injEq .. ▸ ⟨rfl, rfl, goes_on, sound, rfl⟩
              rw [whole]
              simp [Action.last, done, performAll, Result.behind]
          | false => simp [Action.last, done, fine]

theorem performAll_of_walk (run : walk handler machine fuel n regs stream state = some result) :
    performAll handler fuel regs (actions machine regs stream) state = some result := by
  induction n generalizing regs stream state result with
  | zero =>
      cases stream with
      | nil => exact run
      | cons byte rest => cases run
  | succ n ih =>
      cases stream with
      | nil => exact run
      | cons byte rest =>
          rw [walk] at run
          obtain ⟨first, ran, rest_run⟩ := Option.bind_eq_some_iff.1 run
          rw [performAll_stream, ran, Option.bind_some]
          split at rest_run
          · next ended =>
              rw [if_pos ended]
              exact rest_run
          · next goes_on =>
              obtain ⟨later, later_run, rfl⟩ := Option.map_eq_some_iff.1 rest_run
              rw [if_neg goes_on, ih later_run]
              rfl

theorem walk_eq (enough : stream.length ≤ n) : walk handler machine fuel n regs stream state =
    performAll handler fuel regs (actions machine regs stream) state := by
  induction n generalizing regs stream state with
  | zero =>
      obtain rfl := List.length_eq_zero_iff.1 (Nat.le_zero.1 enough)
      rfl
  | succ n ih =>
      cases stream with
      | nil => rfl
      | cons byte rest =>
          rw [walk, performAll_stream]
          congr 1
          funext first
          rw [ih ((machine.shrinks regs byte rest).trans (Nat.le_of_succ_le_succ enough))]

theorem exists_walk_iff : (∃ fuel, walk handler machine fuel fuel regs stream state = some result) ↔
    ∃ fuel, performAll handler fuel regs (actions machine regs stream) state = some result := by
  constructor
  · rintro ⟨fuel, run⟩
    exact ⟨fuel, performAll_of_walk run⟩
  · rintro ⟨fuel, run⟩
    refine ⟨max fuel stream.length, ?_⟩
    rw [walk_eq (le_max_right _ _)]
    exact performAll_mono (le_max_left _ _) run

theorem walk_mono {fuel' m : ℕ} (more : fuel ≤ fuel') (rounds : n ≤ m)
    (run : walk handler machine fuel n regs stream state = some result) :
    walk handler machine fuel' m regs stream state = some result := by
  induction n generalizing m regs stream state result with
  | zero =>
      cases stream with
      | nil => cases m <;> exact run
      | cons byte rest => cases run
  | succ n ih =>
      obtain ⟨m, rfl⟩ := Nat.exists_eq_add_of_le' (Nat.one_le_of_lt (Nat.lt_of_succ_le rounds))
      cases stream with
      | nil => exact run
      | cons byte rest =>
          rw [walk] at run ⊢
          obtain ⟨first, ran, rest_run⟩ := Option.bind_eq_some_iff.1 run
          refine Option.bind_eq_some_iff.2 ⟨first, perform_mono more ran, ?_⟩
          split
          · next ended =>
              rw [if_pos ended] at rest_run
              exact rest_run
          · next goes_on =>
              rw [if_neg goes_on] at rest_run
              obtain ⟨later, later_run, rfl⟩ := Option.map_eq_some_iff.1 rest_run
              exact Option.map_eq_some_iff.2 ⟨later, ih (Nat.le_of_succ_le_succ rounds) later_run, rfl⟩

theorem walk_safe_iff : IsSafe (fun fuel => walk handler machine fuel fuel regs stream state) ↔
    AllReached handler (Fine handler) (actions machine regs stream) state := by
  refine Iff.trans ?_ (performAll_safe_iff : IsSafe (fun fuel => performAll handler fuel regs _ state) ↔ _)
  constructor
  · rintro ⟨fuel, result, run, clean⟩
    exact ⟨fuel, result, performAll_of_walk run, clean⟩
  · rintro ⟨fuel, result, run, clean⟩
    obtain ⟨fuel', run⟩ := exists_walk_iff.2 ⟨fuel, run⟩
    exact ⟨fuel', result, run, clean⟩

end Streams

/-! ## One walk after another -/

section Sequences

variable {result : Result ρ σ κ} {later : Result Unit σ κ}

/-- More fuel does not change a result. -/
def IsSettled (run : ℕ → Option (Result ρ σ κ)) : Prop :=
  ∀ fuel fuel' result, fuel ≤ fuel' → run fuel = some result → run fuel' = some result

theorem IsSettled.unique {run : ℕ → Option (Result ρ σ κ)} (settled : IsSettled run) {fuel fuel' : ℕ}
    {result result' : Result ρ σ κ} (ran : run fuel = some result) (ran' : run fuel' = some result') : result = result' := by
  have whole := settled _ _ _ (le_max_left fuel fuel') ran
  exact Option.some.inj (whole.symm.trans (settled _ _ _ (le_max_right fuel fuel') ran'))

/-- A truncated operand that is not an error comes with a read outside. -/
def Result.IsHonest (result : Result ρ σ κ) : Prop :=
  .truncated ∈ result.events → result.failed = true ∨ .outside ∈ result.events

theorem walk_settled {machine : Machine ρ κ} {stream : Bytes} :
    IsSettled fun fuel => walk handler machine fuel fuel regs stream state :=
  fun _ _ _ more => walk_mono more more

theorem performAll_honest (run : performAll handler fuel regs acts state = some result) : result.IsHonest := by
  induction acts generalizing regs state result with
  | nil =>
      intro truncated
      cases run
      cases truncated
  | cons act acts ih =>
      obtain ⟨calls, -, looped, rest⟩ := performAll_cons.1 run
      intro truncated
      have here : .truncated ∈ eventsOf act calls.events → act.fails = true ∨ .outside ∈ eventsOf act calls.events := by
        intro among
        cases within : act.overrun with
        | true => exact .inr (by simp [eventsOf, within])
        | false => exact .inl (truncated_mem looped within among)
      split at rest
      · next goes_on =>
          obtain ⟨later, later_run, rfl⟩ := rest
          rcases List.mem_append.1 truncated with among | among
          · rcases here among with fails | outside
            · exact absurd (goes_on.1.symm.trans fails) Bool.false_ne_true
            · exact .inr (List.mem_append_left _ outside)
          · exact (ih later_run among).imp_right (List.mem_append_right _)
      · subst rest
        exact (here truncated).imp_left fun fails => by simp [resultOf, fails]

theorem walk_honest {machine : Machine ρ κ} {stream : Bytes}
    (run : walk handler machine fuel n regs stream state = some result) : result.IsHonest :=
  performAll_honest (performAll_of_walk run)

theorem isClean_behind_iff (honest : result.IsHonest) (sound : result.failed = false) :
    (later.behind result.events).IsClean ↔ result.IsClean ∧ later.IsClean := by
  constructor
  · intro clean
    have inside : .outside ∉ result.events := fun among => clean.inside (List.mem_append_left _ among)
    refine ⟨⟨inside, fun before after events => ?_⟩, fun among => clean.inside (List.mem_append_right _ among), ?_⟩
    · have truncated : .truncated ∈ result.events := events ▸ List.mem_append_right _ List.mem_cons_self
      exact absurd (honest truncated) (not_or.2 ⟨by rw [sound]; exact Bool.false_ne_true, inside⟩)
    · intro before after events
      refine clean.reported (result.events ++ before) after ?_
      rw [List.append_assoc, ← events]
      rfl
  · rintro ⟨clean, safe⟩
    have none_here : .truncated ∉ result.events := fun among =>
      absurd (honest among) (not_or.2 ⟨by rw [sound]; exact Bool.false_ne_true, clean.inside⟩)
    refine ⟨fun among => (List.mem_append.1 among).elim clean.inside safe.inside, fun before after events => ?_⟩
    rcases List.append_eq_append_iff.1 (show result.events ++ later.events = _ from events) with
      ⟨more, -, behind⟩ | ⟨more, earlier, behind⟩
    · exact safe.reported more after behind
    · cases more with
      | nil => exact safe.reported [] after behind.symm
      | cons event more =>
          obtain rfl := (List.cons.inj behind).1
          exact absurd (earlier ▸ List.mem_append_right _ List.mem_cons_self) none_here

theorem andThen_safe_iff {first : ℕ → Option (Result ρ σ κ)} {second : σ → ℕ → Option (Result Unit σ κ)}
    (settled : IsSettled first) (also : ∀ state, IsSettled (second state))
    (honest : ∀ fuel result, first fuel = some result → result.IsHonest) :
    IsSafe (andThen first second) ↔ IsSafe first ∧
      ∀ fuel result, first fuel = some result → result.failed = false → IsSafe (second result.state) := by
  constructor
  · rintro ⟨fuel, whole, run, clean⟩
    obtain ⟨result, ran, rest⟩ := Option.bind_eq_some_iff.1 run
    split at rest
    · next failed =>
        obtain rfl := Option.some.inj rest
        refine ⟨⟨fuel, result, ran, ⟨clean.inside, clean.reported⟩⟩, fun fuel' result' run' sound => ?_⟩
        obtain rfl := settled.unique ran run'
        exact absurd (sound.symm.trans failed) Bool.false_ne_true
    · next sound =>
        obtain ⟨later, later_run, rfl⟩ := Option.map_eq_some_iff.1 rest
        rw [isClean_behind_iff (honest _ _ ran) (Bool.eq_false_iff.2 sound)] at clean
        refine ⟨⟨fuel, result, ran, clean.1⟩, fun fuel' result' run' _ => ?_⟩
        obtain rfl := settled.unique ran run'
        exact ⟨fuel, later, later_run, clean.2⟩
  · rintro ⟨⟨fuel, result, run, clean⟩, rest⟩
    cases failed : result.failed with
    | true => exact ⟨fuel, result.forget, by simp [andThen, run, failed], ⟨clean.inside, clean.reported⟩⟩
    | false =>
        obtain ⟨fuel', later, later_run, safe⟩ := rest fuel result run failed
        refine ⟨max fuel fuel', later.behind result.events, ?_, ?_⟩
        · rw [andThen, settled _ _ _ (le_max_left _ _) run]
          simp only [Option.bind_some, failed, Bool.false_eq_true, if_false]
          exact congrArg (Option.map _) (also _ _ _ _ (le_max_right _ _) later_run)
        · exact (isClean_behind_iff (honest _ _ run) failed).2 ⟨clean, safe⟩

theorem andThen_settled {first : ℕ → Option (Result ρ σ κ)} {second : σ → ℕ → Option (Result Unit σ κ)}
    (settled : IsSettled first) (also : ∀ state, IsSettled (second state)) : IsSettled (andThen first second) := by
  intro fuel fuel' whole more run
  obtain ⟨result, ran, rest⟩ := Option.bind_eq_some_iff.1 run
  rw [andThen, settled _ _ _ more ran, Option.bind_some]
  split at rest
  · next failed =>
      rw [if_pos failed]
      exact rest
  · next sound =>
      obtain ⟨later, later_run, rfl⟩ := Option.map_eq_some_iff.1 rest
      rw [if_neg sound, also _ _ _ _ more later_run]
      rfl

end Sequences

end ObjcDyld.OpcodeStreams
