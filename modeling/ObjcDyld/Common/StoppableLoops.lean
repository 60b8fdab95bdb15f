import Mathlib

/-!
# Loops that their body can stop

A loop over a list whose body reports what it does and says whether the loop is to stop; the
body may also fail to end.
-/

namespace ObjcDyld.StoppableLoops

variable {α ε : Type}

/-- The reports of the rounds up to the one that stops, and whether there was one. -/
def untilStopped (body : α → Option (List ε × Bool)) : List α → Option (List ε × Bool)
  | [] => some ([], false)
  | item :: items =>
      match body item with
      | none => none
      | some (events, true) => some (events, true)
      | some (events, false) => (untilStopped body items).map fun rest => (events ++ rest.1, rest.2)

variable {body : α → Option (List ε × Bool)}

theorem exists_untilStopped (items : List α) (ends : ∀ item ∈ items, ∃ result, body item = some result) :
    ∃ result, untilStopped body items = some result := by
  induction items with
  | nil => exact ⟨_, rfl⟩
  | cons item items ih =>
      obtain ⟨⟨events, stopped⟩, run⟩ := ends item List.mem_cons_self
      obtain ⟨rest, ran⟩ := ih fun other member => ends other (List.mem_cons_of_mem item member)
      rw [untilStopped, run]
      cases stopped with
      | true => exact ⟨_, rfl⟩
      | false => exact ⟨_, by rw [ran]; rfl⟩

theorem mem_of_untilStopped {items : List α} {result : List ε × Bool} (run : untilStopped body items = some result)
    {event : ε} (member : event ∈ result.1) :
    ∃ before item after round, items = before ++ item :: after ∧
      (∀ other ∈ before, ∃ events, body other = some (events, false)) ∧ body item = some round ∧ event ∈ round.1 := by
  induction items generalizing result with
  | nil =>
      obtain rfl := Option.some.inj run
      exact absurd member List.not_mem_nil
  | cons item items ih =>
      rw [untilStopped] at run
      cases round : body item with
      | none =>
          rw [round] at run
          exact absurd run (by simp)
      | some first =>
          obtain ⟨events, stopped⟩ := first
          rw [round] at run
          cases stopped with
          | true =>
              obtain rfl := Option.some.inj run
              exact ⟨[], item, items, _, rfl, nofun, round, member⟩
          | false =>
              obtain ⟨rest, ran, rfl⟩ := Option.map_eq_some_iff.mp run
              rcases List.mem_append.mp member with here | later
              · exact ⟨[], item, items, _, rfl, nofun, round, here⟩
              · obtain ⟨before, other, after, found, rfl, goes_on, reached⟩ := ih ran later
                exact ⟨item :: before, other, after, found, rfl,
                  List.forall_mem_cons.mpr ⟨⟨events, round⟩, goes_on⟩, reached⟩

theorem mem_untilStopped {before after : List α} {item : α} {result round : List ε × Bool}
    (run : untilStopped body (before ++ item :: after) = some result)
    (goes_on : ∀ other ∈ before, ∃ events, body other = some (events, false)) (ran : body item = some round)
    {event : ε} (member : event ∈ round.1) : event ∈ result.1 := by
  induction before generalizing result with
  | nil =>
      rw [List.nil_append, untilStopped, ran] at run
      obtain ⟨events, stopped⟩ := round
      cases stopped with
      | true =>
          obtain rfl := Option.some.inj run
          exact member
      | false =>
          obtain ⟨rest, -, rfl⟩ := Option.map_eq_some_iff.mp run
          exact List.mem_append_left _ member
  | cons first before ih =>
      obtain ⟨events, continues⟩ := goes_on first List.mem_cons_self
      rw [List.cons_append, untilStopped, continues] at run
      obtain ⟨rest, reached, rfl⟩ := Option.map_eq_some_iff.mp run
      exact List.mem_append_right _ (ih reached fun other among => goes_on other (List.mem_cons_of_mem first among))

theorem mem_before_iff {count index : ℕ} {before after : List ℕ} (split : List.range count = before ++ index :: after)
    (other : ℕ) : other ∈ before ↔ other < index := by
  have sorted := @List.pairwise_lt_range count
  rw [split, List.pairwise_append] at sorted
  obtain ⟨-, later, earlier⟩ := sorted
  constructor
  · exact fun member => earlier other member index List.mem_cons_self
  · intro less
    have inside : index < count := List.mem_range.mp (split ▸ List.mem_append_right _ List.mem_cons_self)
    have among : other ∈ before ++ index :: after := split ▸ List.mem_range.mpr (less.trans inside)
    rcases List.mem_append.mp among with member | member
    · exact member
    rcases List.mem_cons.mp member with rfl | member
    · exact absurd less (lt_irrefl _)
    · exact absurd ((List.pairwise_cons.mp later).1 other member) less.asymm

theorem not_stopped {items : List α} {result : List ε × Bool} (run : untilStopped body items = some result)
    (goes_on : ∀ item ∈ items, ∃ events, body item = some (events, false)) : result.2 = false := by
  induction items generalizing result with
  | nil =>
      obtain rfl := Option.some.inj run
      rfl
  | cons item items ih =>
      obtain ⟨events, continues⟩ := goes_on item List.mem_cons_self
      rw [untilStopped, continues] at run
      obtain ⟨rest, reached, rfl⟩ := Option.map_eq_some_iff.mp run
      change rest.2 = false
      exact ih reached fun other among => goes_on other (List.mem_cons_of_mem item among)

theorem untilStopped_flatMap {items : List α} {events : α → List ε}
    (rounds : ∀ item ∈ items, body item = some (events item, false)) :
    untilStopped body items = some (items.flatMap events, false) := by
  induction items with
  | nil => rfl
  | cons item items ih =>
      rw [untilStopped, rounds item List.mem_cons_self, ih fun other member => rounds other (List.mem_cons_of_mem _ member)]
      rfl

theorem untilStopped_spec (items : List α) (Does : α → ε → Prop) (Never : Prop)
    (rounds : ∀ item ∈ items, ∃ result, body item = some result ∧ (∀ event ∈ result.1, Does item event) ∧
      (Never → result.2 = false ∧ ∀ event, Does item event → event ∈ result.1)) :
    ∃ result, untilStopped body items = some result ∧ (∀ event ∈ result.1, ∃ item ∈ items, Does item event) ∧
      (Never → result.2 = false ∧ ∀ item ∈ items, ∀ event, Does item event → event ∈ result.1) := by
  obtain ⟨result, run⟩ := exists_untilStopped items fun item among => (rounds item among).imp fun _ => And.left
  have goes_on : Never → ∀ item ∈ items, ∃ events, body item = some (events, false) := by
    intro never item among
    obtain ⟨⟨events, stopped⟩, ran, -, all⟩ := rounds item among
    obtain rfl : stopped = false := (all never).1
    exact ⟨events, ran⟩
  refine ⟨result, run, fun event member => ?_, fun never => ⟨not_stopped run (goes_on never), ?_⟩⟩
  · obtain ⟨before, item, after, round, rfl, -, ran, member⟩ := mem_of_untilStopped run member
    have among : item ∈ before ++ item :: after := List.mem_append_right _ List.mem_cons_self
    obtain ⟨round', ran', only, -⟩ := rounds item among
    obtain rfl := Option.some.inj (ran.symm.trans ran')
    exact ⟨item, among, only event member⟩
  · intro item among event does
    obtain ⟨round, ran, -, all⟩ := rounds item among
    obtain ⟨before, after, rfl⟩ := List.append_of_mem among
    exact mem_untilStopped run (fun other earlier => goes_on never other (List.mem_append_left _ earlier)) ran
      ((all never).2 event does)

end ObjcDyld.StoppableLoops

/-!
## Loops with a state that their body can stop

A loop over a list whose body changes a state, reports what it does and says whether the loop is to
stop.  The body of `untilStopped` may fail to end; `runUntil` is the same loop for a body that ends.
-/

namespace ObjcDyld.StoppableRuns

variable {α β σ ε : Type}

/-- What a loop leaves behind: the state, the reports, and whether it was stopped. -/
structure Outcome (σ ε : Type) where
  state : σ
  calls : List ε
  stopped : Bool

/-- The outcome with earlier reports in front. -/
def Outcome.after (calls : List ε) (outcome : Outcome σ ε) : Outcome σ ε :=
  { outcome with calls := calls ++ outcome.calls }

/-- What a caller sees that does not look at the stop. -/
def Outcome.result (outcome : Outcome σ ε) : σ × List ε := (outcome.state, outcome.calls)

@[simp] theorem Outcome.after_state (calls : List ε) (outcome : Outcome σ ε) :
    (outcome.after calls).state = outcome.state := rfl

@[simp] theorem Outcome.after_calls (calls : List ε) (outcome : Outcome σ ε) :
    (outcome.after calls).calls = calls ++ outcome.calls := rfl

@[simp] theorem Outcome.after_stopped (calls : List ε) (outcome : Outcome σ ε) :
    (outcome.after calls).stopped = outcome.stopped := rfl

theorem Outcome.after_nil (outcome : Outcome σ ε) : outcome.after [] = outcome := rfl

theorem Outcome.after_after (first second : List ε) (outcome : Outcome σ ε) :
    (outcome.after second).after first = outcome.after (first ++ second) := by
  simp only [Outcome.after, List.append_assoc]

/-- A loop whose condition is that it was not stopped. -/
def untilStopped (body : α → σ → Option (Outcome σ ε)) : List α → σ → Option (Outcome σ ε)
  | [], state => some ⟨state, [], false⟩
  | item :: items, state =>
      (body item state).bind fun round =>
        if round.stopped then some round
        else (untilStopped body items round.state).map (Outcome.after round.calls)

/-- The loop for a body that always ends. -/
def runUntil (body : α → σ → Outcome σ ε) : List α → σ → Outcome σ ε
  | [], state => ⟨state, [], false⟩
  | item :: items, state =>
      let round := body item state
      if round.stopped then round else (runUntil body items round.state).after round.calls

section Nested

variable {body : α → σ → Option (Outcome σ ε)}

theorem untilStopped_append (items more : List α) (state : σ) :
    untilStopped body (items ++ more) state =
      (untilStopped body items state).bind fun round =>
        if round.stopped then some round
        else (untilStopped body more round.state).map (Outcome.after round.calls) := by
  induction items generalizing state with
  | nil =>
      simp only [List.nil_append, untilStopped, Option.bind_some]
      cases untilStopped body more state <;> rfl
  | cons item items ih =>
      rw [List.cons_append, untilStopped, untilStopped]
      cases body item state with
      | none => rfl
      | some round =>
          cases stop : round.stopped with
          | true => simp [stop]
          | false =>
              simp only [Option.bind_some, stop, Bool.false_eq_true, if_false, ih]
              cases untilStopped body items round.state with
              | none => rfl
              | some rest =>
                  cases stop' : rest.stopped with
                  | true => simp [stop']
                  | false =>
                      simp only [Option.bind_some, Option.map_some, Outcome.after_stopped, stop', Bool.false_eq_true,
                        if_false, Outcome.after_state, Outcome.after_calls, Option.map_map]
                      congr 1
                      funext outcome
                      exact Outcome.after_after _ _ _

theorem untilStopped_flatMap {outer : β → σ → Option (Outcome σ ε)} {expand : β → List α} (groups : List β)
    (expands : ∀ group ∈ groups, ∀ state, outer group state = untilStopped body (expand group) state) (state : σ) :
    untilStopped outer groups state = untilStopped body (groups.flatMap expand) state := by
  induction groups generalizing state with
  | nil => rfl
  | cons group groups ih =>
      rw [List.forall_mem_cons] at expands
      rw [List.flatMap_cons, untilStopped_append, untilStopped, expands.1]
      congr 1
      funext round
      rw [ih expands.2]

end Nested

section Runs

variable {body : α → σ → Outcome σ ε}

theorem runUntil_cons_of_stopped {item : α} {items : List α} {state : σ} (stopped : (body item state).stopped = true) :
    runUntil body (item :: items) state = body item state := by
  simp only [runUntil, if_pos stopped]

theorem runUntil_cons {item : α} {items : List α} {state : σ} (goes_on : (body item state).stopped = false) :
    runUntil body (item :: items) state =
      (runUntil body items (body item state).state).after (body item state).calls := by
  simp only [runUntil, goes_on, Bool.false_eq_true, if_false]

theorem runUntil_append (items more : List α) (state : σ) :
    runUntil body (items ++ more) state =
      if (runUntil body items state).stopped then runUntil body items state
      else (runUntil body more (runUntil body items state).state).after (runUntil body items state).calls := by
  induction items generalizing state with
  | nil => rfl
  | cons item items ih =>
      cases stop : (body item state).stopped with
      | true =>
          rw [List.cons_append, runUntil_cons_of_stopped stop, runUntil_cons_of_stopped stop, if_pos stop]
      | false =>
          rw [List.cons_append, runUntil_cons stop, runUntil_cons stop, ih, Outcome.after_stopped]
          split
          · rfl
          · exact Outcome.after_after _ _ _

end Runs

section Calls

/-- A round that calls back with the item. -/
def calling (callback : α → σ → σ × Bool) (item : α) (state : σ) : Outcome σ α :=
  ⟨(callback item state).1, [item], (callback item state).2⟩

variable {callback : α → σ → σ × Bool} {items : List α} {state : σ}

theorem runUntil_calls : runUntil (calling callback) (runUntil (calling callback) items state).calls state =
    runUntil (calling callback) items state := by
  induction items generalizing state with
  | nil => rfl
  | cons item items ih =>
      cases stop : (calling callback item state).stopped with
      | true =>
          rw [runUntil_cons_of_stopped stop]
          exact runUntil_cons_of_stopped stop
      | false =>
          rw [runUntil_cons stop, Outcome.after_calls]
          exact (runUntil_cons stop).trans (congrArg _ ih)

theorem mem_of_mem_calls {item : α} (member : item ∈ (runUntil (calling callback) items state).calls) :
    item ∈ items := by
  induction items generalizing state with
  | nil => cases member
  | cons first others ih =>
      cases stop : (calling callback first state).stopped with
      | true =>
          rw [runUntil_cons_of_stopped stop] at member
          exact List.mem_cons.2 (.inl (List.mem_singleton.1 member))
      | false =>
          rw [runUntil_cons stop] at member
          rcases List.mem_cons.1 member with rfl | later
          · exact List.mem_cons_self ..
          · exact List.mem_cons_of_mem _ (ih later)

theorem runUntil_of_not_stopping (goes_on : ∀ item state, (callback item state).2 = false) :
    runUntil (calling callback) items state =
      ⟨items.foldl (fun state item => (callback item state).1) state, items, false⟩ := by
  induction items generalizing state with
  | nil => rfl
  | cons item items ih =>
      rw [runUntil_cons (goes_on item state), ih]
      rfl

end Calls

end ObjcDyld.StoppableRuns
