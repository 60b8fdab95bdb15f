import ObjcDyld.Common.StoppableLoops

/-!
# Loops over entries that may be malformed

Each entry of a table is passed over, handed to a callback, or makes the loop fail, and some reads are made to
find that out.  The loop ends at the first failure or when the callback stops it.
-/

namespace ObjcDyld.CheckedRuns

open StoppableRuns

variable {π ι κ ε σ : Type}

/-- What is made of an entry. -/
inductive Treatment (κ ε : Type)
  | passed
  | called (made : κ)
  | failed (error : ε)
  deriving DecidableEq

/-- The place of an entry, how it is treated and what is read for that. -/
structure Step (π ι κ ε : Type) where
  place : π
  treatment : Treatment κ ε
  reads : List ι

/-- How a loop ends, what was made of the entries and what was read. -/
structure Walk (π ι κ ε σ : Type) where
  outcome : Outcome σ κ
  treated : List (π × Treatment κ ε)
  reads : List ι
  error : Option ε

/-- The walk with earlier calls, entries and reads in front. -/
def Walk.after (calls : List κ) (treated : List (π × Treatment κ ε)) (reads : List ι) (walk : Walk π ι κ ε σ) : Walk π ι κ ε σ :=
  { walk with outcome := walk.outcome.after calls, treated := treated ++ walk.treated, reads := reads ++ walk.reads }

/-- The walk with a whole other one in front. -/
def Walk.behind (walk first : Walk π ι κ ε σ) : Walk π ι κ ε σ := walk.after first.outcome.calls first.treated first.reads

def Walk.ends (walk : Walk π ι κ ε σ) : Bool := walk.error.isSome || walk.outcome.stopped

/-- The loop. -/
def run (callback : κ → σ → σ × Bool) : List (Step π ι κ ε) → σ → Walk π ι κ ε σ
  | [], state => ⟨⟨state, [], false⟩, [], [], none⟩
  | step :: steps, state =>
      match step.treatment with
      | .passed => (run callback steps state).after [] [(step.place, step.treatment)] step.reads
      | .failed error => ⟨⟨state, [], false⟩, [(step.place, step.treatment)], step.reads, some error⟩
      | .called made =>
          let call := calling callback made state
          if call.stopped then ⟨call, [(step.place, step.treatment)], step.reads, none⟩
          else (run callback steps call.state).after call.calls [(step.place, step.treatment)] step.reads

def Treatment.fails : Treatment κ ε → Bool
  | .failed _ => true
  | _ => false

def Treatment.made? : Treatment κ ε → Option κ
  | .called made => some made
  | _ => none

/-- The entries up to the first that fails. -/
def upToFailure : List (Step π ι κ ε) → List (Step π ι κ ε)
  | [] => []
  | step :: steps => step :: if step.treatment.fails then [] else upToFailure steps

def treatments (steps : List (Step π ι κ ε)) : List (π × Treatment κ ε) := steps.map fun step => (step.place, step.treatment)

def callsOf (steps : List (Step π ι κ ε)) : List κ := steps.filterMap (·.treatment.made?)

def AllReads (property : ι → Prop) (steps : List (Step π ι κ ε)) : Prop := ∀ step ∈ steps, ∀ read ∈ step.reads, property read

section Runs

variable {callback : κ → σ → σ × Bool} {steps more : List (Step π ι κ ε)} {step : Step π ι κ ε} {state : σ}

theorem Walk.after_nil (walk : Walk π ι κ ε σ) : walk.after [] [] [] = walk := rfl

theorem Walk.behind_after (calls : List κ) (treated : List (π × Treatment κ ε)) (reads : List ι) (walk first : Walk π ι κ ε σ) :
    walk.behind (first.after calls treated reads) = (walk.behind first).after calls treated reads := by
  simp only [Walk.behind, Walk.after, Outcome.after, List.append_assoc]

theorem run_append : run callback (steps ++ more) state =
    if (run callback steps state).ends then run callback steps state
    else (run callback more (run callback steps state).outcome.state).behind (run callback steps state) := by
  induction steps generalizing state with
  | nil => rfl
  | cons step steps ih =>
      -- an entry in front changes neither how the first walk ends nor the state it ends in
      have front : ∀ calls treated reads state, (run callback (steps ++ more) state).after calls treated reads =
          if ((run callback steps state).after calls treated reads).ends then
            (run callback steps state).after calls treated reads
          else (run callback more ((run callback steps state).after calls treated reads).outcome.state).behind
            ((run callback steps state).after calls treated reads) := by
        intro calls treated reads state
        rw [ih, Walk.behind_after]
        exact apply_ite (Walk.after calls treated reads) _ _ _
      rw [List.cons_append, run, run]
      cases step.treatment with
      | passed => exact front _ _ _ _
      | failed error => rfl
      | called made =>
          by_cases stop : (calling callback made state).stopped = true
          · simp only [if_pos stop]
            rw [if_pos (by simp [Walk.ends, stop])]
          · simp only [if_neg stop]
            exact front _ _ _ _

theorem run_outcome : (run callback steps state).outcome = runUntil (calling callback) (callsOf (upToFailure steps)) state := by
  induction steps generalizing state with
  | nil => rfl
  | cons step steps ih =>
      rw [run]
      cases treatment : step.treatment with
      | passed =>
          have calls : callsOf (upToFailure (step :: steps)) = callsOf (upToFailure steps) := by
            simp [upToFailure, callsOf, treatment, Treatment.made?, Treatment.fails]
          rw [calls]
          exact ih
      | failed error => simp [upToFailure, callsOf, treatment, Treatment.made?, Treatment.fails, runUntil]
      | called made =>
          have calls : callsOf (upToFailure (step :: steps)) = made :: callsOf (upToFailure steps) := by
            simp [upToFailure, callsOf, treatment, Treatment.made?, Treatment.fails]
          rw [calls]
          dsimp only
          cases stop : (calling callback made state).stopped with
          | true => rw [if_pos rfl, runUntil_cons_of_stopped stop]
          | false =>
              rw [if_neg Bool.false_ne_true, runUntil_cons stop, ← ih]
              rfl

theorem mem_of_mem_upToFailure (member : step ∈ upToFailure steps) : step ∈ steps := by
  induction steps with
  | nil => cases member
  | cons first steps ih =>
      rcases List.mem_cons.1 member with same | later
      · exact same ▸ List.mem_cons_self
      · split at later
        · cases later
        · exact List.mem_cons_of_mem _ (ih later)

theorem run_reads {read : ι} (member : read ∈ (run callback steps state).reads) :
    ∃ step ∈ upToFailure steps, read ∈ step.reads := by
  induction steps generalizing state with
  | nil => cases member
  | cons step steps ih =>
      have here : step ∈ upToFailure (step :: steps) := List.mem_cons_self
      rw [run] at member
      cases treatment : step.treatment with
      | passed =>
          rw [treatment] at member
          have rest : upToFailure (step :: steps) = step :: upToFailure steps := by
            simp [upToFailure, treatment, Treatment.fails]
          rcases List.mem_append.1 member with first | later
          · exact ⟨step, here, first⟩
          · obtain ⟨other, among, inside⟩ := ih later
            exact ⟨other, rest ▸ List.mem_cons_of_mem _ among, inside⟩
      | failed error =>
          rw [treatment] at member
          exact ⟨step, here, member⟩
      | called made =>
          rw [treatment] at member
          have rest : upToFailure (step :: steps) = step :: upToFailure steps := by
            simp [upToFailure, treatment, Treatment.fails]
          dsimp only at member
          split at member
          · exact ⟨step, here, member⟩
          · rcases List.mem_append.1 member with first | later
            · exact ⟨step, here, first⟩
            · obtain ⟨other, among, inside⟩ := ih later
              exact ⟨other, rest ▸ List.mem_cons_of_mem _ among, inside⟩

theorem run_of_not_stopping (goes_on : ∀ made state, (callback made state).2 = false) :
    (run callback steps state).treated = treatments (upToFailure steps) ∧
      (run callback steps state).reads = (upToFailure steps).flatMap (·.reads) ∧
        (run callback steps state).outcome.stopped = false ∧
          ((run callback steps state).error.isSome = steps.any (·.treatment.fails)) := by
  induction steps generalizing state with
  | nil => exact ⟨rfl, rfl, rfl, rfl⟩
  | cons step steps ih =>
      rw [run]
      cases treatment : step.treatment with
      | passed => simpa [Walk.after, Outcome.after, upToFailure, treatments, treatment, Treatment.fails] using ih
      | failed error => simp [upToFailure, treatments, treatment, Treatment.fails]
      | called made =>
          have runs : (calling callback made state).stopped = false := goes_on made state
          dsimp only
          rw [runs, if_neg Bool.false_ne_true]
          simpa [Walk.after, Outcome.after, upToFailure, treatments, treatment, Treatment.fails] using ih

end Runs

section Agreement

variable {property : ι → Prop} {step careful : Step π ι κ ε} {steps more carefuls others : List (Step π ι κ ε)}

/-- A loop makes of the entries what a careful one makes of them, and all its reads have a property. -/
structure Agrees (property : ι → Prop) (steps carefuls : List (Step π ι κ ε)) : Prop where
  treated : treatments (upToFailure steps) = treatments (upToFailure carefuls)
  reads : AllReads property (upToFailure steps)

theorem agrees_nil : Agrees property ([] : List (Step π ι κ ε)) [] := ⟨rfl, fun _ member => absurd member List.not_mem_nil⟩

theorem agrees_cons (same : step.place = careful.place) : Agrees property (step :: steps) (careful :: carefuls) ↔
    (step.treatment = careful.treatment ∧ ∀ read ∈ step.reads, property read) ∧
      (careful.treatment.fails = false → Agrees property steps carefuls) := by
  constructor
  · rintro ⟨treated, reads⟩
    obtain ⟨first, rest⟩ := List.cons.inj treated
    have equal : step.treatment = careful.treatment := congrArg Prod.snd first
    refine ⟨⟨equal, reads step List.mem_cons_self⟩, fun sound => ?_⟩
    rw [upToFailure, equal, sound] at reads
    rw [equal, sound] at rest
    exact ⟨rest, fun other member => reads other (List.mem_cons_of_mem step member)⟩
  · rintro ⟨⟨equal, here⟩, later⟩
    have first : (step.place, step.treatment) = (careful.place, careful.treatment) := Prod.ext same equal
    cases fails : careful.treatment.fails with
    | true =>
        constructor
        · simp only [upToFailure, equal, fails, if_true, treatments, List.map_cons, same]
        · rw [upToFailure, equal, fails]
          exact List.forall_mem_singleton.2 here
    | false =>
        obtain ⟨treated, reads⟩ := later fails
        constructor
        · rw [upToFailure, upToFailure, equal, fails]
          exact congrArg₂ List.cons first treated
        · rw [upToFailure, equal, fails]
          exact List.forall_mem_cons.2 ⟨here, reads⟩

/-- The entries that a careful loop comes to meet a condition. -/
def AllReached {α : Type} (condition : α → Prop) (treatment : α → Treatment κ ε) : List α → Prop
  | [] => True
  | entry :: entries => condition entry ∧ ((treatment entry).fails = false → AllReached condition treatment entries)

theorem agrees_map_append {α : Type} {condition : α → Prop} {code spec : α → Step π ι κ ε} {entries : List α}
    (same : ∀ entry, (code entry).place = (spec entry).place)
    (here : ∀ entry ∈ entries, ((code entry).treatment = (spec entry).treatment ∧
      ∀ read ∈ (code entry).reads, property read) ↔ condition entry) :
    Agrees property (entries.map code ++ more) (entries.map spec ++ others) ↔
      AllReached condition (fun entry => (spec entry).treatment) entries ∧
        ((∀ entry ∈ entries, (spec entry).treatment.fails = false) → Agrees property more others) := by
  induction entries with
  | nil => exact ⟨fun agrees => ⟨trivial, fun _ => agrees⟩, fun agrees => agrees.2 fun _ member => absurd member List.not_mem_nil⟩
  | cons entry entries ih =>
      rw [List.forall_mem_cons] at here
      rw [List.map_cons, List.map_cons, List.cons_append, List.cons_append, agrees_cons (same entry), here.1, ih here.2,
        AllReached, List.forall_mem_cons]
      constructor
      · rintro ⟨first, later⟩
        exact ⟨⟨first, fun sound => (later sound).1⟩, fun sound => (later sound.1).2 sound.2⟩
      · rintro ⟨⟨first, reached⟩, later⟩
        exact ⟨first, fun sound => ⟨reached sound, fun sounds => later ⟨sound, sounds⟩⟩⟩

theorem Agrees.head (agrees : Agrees property steps carefuls) :
    steps.head?.map (fun step => (step.place, step.treatment)) =
      carefuls.head?.map fun step => (step.place, step.treatment) := by
  have first : ∀ steps : List (Step π ι κ ε), steps.head?.map (fun step => (step.place, step.treatment)) =
      (treatments (upToFailure steps)).head? := by
    intro steps
    cases steps with
    | nil => rfl
    | cons step steps => rfl
  rw [first, first, agrees.treated]

theorem Agrees.calls (agrees : Agrees property steps carefuls) :
    callsOf (upToFailure steps) = callsOf (upToFailure carefuls) := by
  have calls : ∀ steps : List (Step π ι κ ε), callsOf steps = (treatments steps).filterMap (·.2.made?) := by
    intro steps
    rw [treatments, List.filterMap_map]
    rfl
  rw [calls, calls, agrees.treated]

theorem Agrees.fails (agrees : Agrees property steps carefuls) :
    steps.any (·.treatment.fails) = carefuls.any (·.treatment.fails) := by
  have some_fails : ∀ steps : List (Step π ι κ ε), steps.any (·.treatment.fails) =
      (treatments (upToFailure steps)).any (·.2.fails) := by
    intro steps
    induction steps with
    | nil => rfl
    | cons step steps ih =>
        rw [List.any_cons, ih, upToFailure]
        cases fails : step.treatment.fails with
        | true => simp [treatments, fails]
        | false => simp [treatments, fails]
  rw [some_fails, some_fails, agrees.treated]

end Agreement

end ObjcDyld.CheckedRuns
