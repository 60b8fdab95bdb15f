import ObjcDyld.Common.OpcodeStreams

/-!
# The calls of a walk

Which calls the walk of an opcode stream makes: all that its opcodes ask for, up to the one that the
handler stops at.
-/

namespace ObjcDyld.OpcodeStreams

variable {σ ρ κ : Type} {handler : κ → σ → σ × Answer}

def Event.made? : Event κ → Option κ
  | .call made _ => some made
  | _ => none

def Event.IsCall : Event κ → Prop
  | .call _ _ | .notice _ => True
  | _ => False

/-- No handler is called. -/
def Quiet (events : List (Event κ)) : Prop := ∀ event ∈ events, ¬ event.IsCall

def HasStop (events : List (Event κ)) : Prop := ∃ made, .call made true ∈ events

/-- No call follows one that stops. -/
def IsFinal (events : List (Event κ)) : Prop :=
  ∀ before made after, events = before ++ .call made true :: after → Quiet after

/-- The calls of an opcode that nothing stops. -/
def Action.calls (act : Action ρ κ) : List κ := (List.range act.count).map act.call

/-- The calls of the opcodes up to one that fails. -/
def callsOf : List (Action ρ κ) → List κ
  | [] => []
  | act :: acts => act.calls ++ if act.fails then [] else callsOf acts

/-- The calls that the opcodes denote: an opcode whose operands are malformed denotes none. -/
def denotedBy : List (Action ρ κ) → List κ
  | [] => []
  | act :: acts => (if act.before = .good then act.calls else []) ++ if act.fails then [] else denotedBy acts

def failsIn : List (Action ρ κ) → Bool
  | [] => false
  | act :: acts => act.fails || failsIn acts

/-- An opcode ends, and makes no calls with malformed operands that the handler lets pass. -/
structure Exact (handler : κ → σ → σ × Answer) (act : Action ρ κ) (state : σ) : Prop where
  ends : Ends handler act state
  counted : act.before ≠ .good → act.count = 0 ∨ ¬ Passes handler act state

/-! ## Events of one walk -/

variable {act : Action ρ κ} {acts : List (Action ρ κ)} {state : σ} {regs : ρ} {fuel : ℕ} {result : Result ρ σ κ}
  {calls : Calls σ κ} {events more : List (Event κ)}

theorem quiet_append_iff : Quiet (events ++ more) ↔ Quiet events ∧ Quiet more := List.forall_mem_append

theorem hasStop_append_iff : HasStop (events ++ more) ↔ HasStop events ∨ HasStop more := by
  simp only [HasStop, List.mem_append, exists_or]

theorem Quiet.not_hasStop (quiet : Quiet events) : ¬ HasStop events := fun ⟨_, member⟩ => quiet _ member trivial

theorem Quiet.isFinal (quiet : Quiet events) : IsFinal events := fun _ made _ split =>
  absurd ⟨made, split ▸ List.mem_append_right _ List.mem_cons_self⟩ quiet.not_hasStop

theorem Quiet.made_eq_nil (quiet : Quiet events) : events.filterMap Event.made? = [] := by
  rw [List.filterMap_eq_nil_iff]
  intro event member
  cases event with
  | call made stops => exact absurd trivial (quiet _ member)
  | notice made => rfl
  | truncated => rfl
  | outside => rfl

theorem isFinal_append_iff (final : IsFinal events) :
    IsFinal (events ++ more) ↔ (HasStop events → Quiet more) ∧ IsFinal more := by
  constructor
  · intro whole
    refine ⟨fun ⟨made, member⟩ => ?_, fun before made after split => ?_⟩
    · obtain ⟨before, after, rfl⟩ := List.append_of_mem member
      have quiet := whole before made (after ++ more) (by simp)
      exact (quiet_append_iff.1 quiet).2
    · exact whole (events ++ before) made after (by rw [split, List.append_assoc])
  · rintro ⟨stopped, rest⟩ before made after split
    rcases List.append_eq_append_iff.1 split with ⟨between, -, behind⟩ | ⟨between, earlier, behind⟩
    · exact rest between made after behind
    · cases between with
      | nil => exact rest [] made after behind.symm
      | cons event between =>
          obtain ⟨rfl, rfl⟩ := List.cons.inj behind
          exact quiet_append_iff.2 ⟨final before made between earlier,
            stopped ⟨made, earlier ▸ List.mem_append_right _ List.mem_cons_self⟩⟩

theorem isFinal_of_not_hasStop (none_stops : ¬ HasStop events) : IsFinal events := fun _ made _ split =>
  absurd ⟨made, split ▸ List.mem_append_right _ List.mem_cons_self⟩ none_stops

theorem eventsOf_split (act : Action ρ κ) (calls : List (Event κ)) :
    ∃ before after, eventsOf act calls = before ++ calls ++ after ∧ Quiet before ∧ Quiet after := by
  refine ⟨(if act.overrun then [.truncated, .outside] else []) ++ (if act.before = .truncated then [.truncated] else []),
    (if act.after = .truncated then [.truncated] else []) ++ (if act.outside then [.outside] else []),
    by simp only [eventsOf, List.append_assoc], ?_, ?_⟩
  · refine quiet_append_iff.2 ⟨?_, ?_⟩ <;> split <;> simp [Quiet, Event.IsCall]
  · refine quiet_append_iff.2 ⟨?_, ?_⟩ <;> split <;> simp [Quiet, Event.IsCall]

/-- What the calls of an opcode look like from outside. -/
structure Records (act : Action ρ κ) (calls : Calls σ κ) (events : List (Event κ)) : Prop where
  stops : HasStop events ↔ calls.answer ≠ .goesOn
  final : IsFinal events
  made : calls.answer = .goesOn → events.filterMap Event.made? = act.calls
  first : calls.answer ≠ .goesOn → act.count ≠ 0
  quiet : act.count = 0 → Quiet events

theorem Looped.records (looped : Looped handler act.count act.call state calls) : Records act calls calls.events := by
  have silent : act.count = 0 → Quiet calls.events := fun none_made => by
    rw [looped.events_eq_nil_iff.2 none_made]
    exact fun event member => absurd member List.not_mem_nil
  have pass : ∀ n, ¬ HasStop ((List.range n).map fun n => (.call (act.call n) false : Event κ)) := by
    rintro n ⟨made, member⟩
    obtain ⟨k, -, same⟩ := List.mem_map.1 member
    cases same
  cases looped with
  | passed small goes_on =>
      refine ⟨iff_of_false (pass _) (by simp), isFinal_of_not_hasStop (pass _), fun _ => ?_, fun stops => absurd rfl stops,
        silent⟩
      rw [List.filterMap_map]
      exact List.filterMap_eq_map ▸ rfl
  | stopped k inside goes_on stops =>
      refine ⟨iff_of_true ⟨act.call k, List.mem_append_right _ (List.mem_singleton_self _)⟩ stops, ?_,
        fun same => absurd same stops, ?_, silent⟩
      · refine (isFinal_append_iff (isFinal_of_not_hasStop (pass k))).2 ⟨fun stop => absurd stop (pass k), ?_⟩
        intro before made after split
        rcases List.cons_eq_append_iff.1 split with ⟨-, same⟩ | ⟨other, -, empty⟩
        · rw [(List.cons.inj same).2]
          exact fun event member => absurd member List.not_mem_nil
        · exact absurd empty (by simp)
      · have positive := inside k (Nat.lt_succ_self k)
        exact fun _ => by omega

theorem Looped.eventsOf_records (looped : Looped handler act.count act.call state calls) :
    Records act calls (eventsOf act calls.events) := by
  obtain ⟨before, after, events, quiet, quiet'⟩ := eventsOf_split act calls.events
  have records := looped.records
  have stops : HasStop (eventsOf act calls.events) ↔ HasStop calls.events := by
    rw [events, hasStop_append_iff, hasStop_append_iff, or_iff_left quiet'.not_hasStop, or_iff_right quiet.not_hasStop]
  refine ⟨stops.trans records.stops, ?_, fun goes_on => ?_, records.first, fun none_made => ?_⟩
  · rw [events, List.append_assoc, isFinal_append_iff quiet.isFinal, isFinal_append_iff records.final]
    exact ⟨fun stop => absurd stop quiet.not_hasStop, fun _ => quiet', quiet'.isFinal⟩
  · rw [events, List.filterMap_append, List.filterMap_append, quiet.made_eq_nil, quiet'.made_eq_nil, List.nil_append,
      List.append_nil, records.made goes_on]
  · rw [events]
    exact quiet_append_iff.2 ⟨quiet_append_iff.2 ⟨quiet, records.quiet none_made⟩, quiet'⟩

/-! ## Calls of one walk -/

theorem Action.calls_eq_nil_iff : act.calls = [] ↔ act.count = 0 := by
  rw [Action.calls, List.map_eq_nil_iff, List.range_eq_nil]

theorem before_good_of_sound (sound : act.fails = false) : act.before = .good := by
  by_contra malformed
  exact absurd (sound.symm.trans (by simp [Action.fails, malformed])) Bool.false_ne_true

/-- What the calls of a walk look like from outside. -/
structure Walked (handler : κ → σ → σ × Answer) (acts : List (Action ρ κ)) (state : σ) (result : Result ρ σ κ) : Prop where
  stops : HasStop result.events ↔ result.stopped = true
  final : IsFinal result.events
  made : result.stopped = false → result.events.filterMap Event.made? = callsOf acts ∧ result.failed = failsIn acts
  first : result.stopped = true → callsOf acts ≠ []
  quiet : callsOf acts = [] → Quiet result.events
  exact : AllReached handler (Exact handler) acts state ↔ (result.stopped = false → callsOf acts = denotedBy acts)

theorem walked_of_performAll (run : performAll handler fuel regs acts state = some result) :
    Walked handler acts state result := by
  induction acts generalizing regs state result with
  | nil =>
      obtain rfl := Option.some.inj run
      have quiet : Quiet ([] : List (Event κ)) := fun _ member => absurd member List.not_mem_nil
      exact ⟨iff_of_false quiet.not_hasStop Bool.false_ne_true, quiet.isFinal, fun _ => ⟨rfl, rfl⟩,
        fun stop => absurd stop Bool.false_ne_true, fun _ => quiet, iff_of_true trivial fun _ => rfl⟩
  | cons act acts ih =>
      obtain ⟨calls, ran, looped, rest⟩ := performAll_cons.1 run
      have ends : Ends handler act state := exists_run_iff.1 ⟨fuel, calls, ran⟩
      have records := looped.eventsOf_records
      split at rest
      · next goes_on =>
          obtain ⟨later, later_run, rfl⟩ := rest
          have walked := ih later_run
          have calm : ¬ HasStop (eventsOf act calls.events) := fun stop => records.stops.1 stop goes_on.2
          have good := before_good_of_sound goes_on.1
          have passes := looped.passes.1 goes_on.2
          refine ⟨?_, ?_, fun runs => ⟨?_, ?_⟩, fun stop => ?_, fun empty => ?_, ?_⟩
          · exact hasStop_append_iff.trans ((or_iff_right calm).trans walked.stops)
          · exact (isFinal_append_iff records.final).2 ⟨fun stop => absurd stop calm, walked.final⟩
          · change (eventsOf act calls.events ++ later.events).filterMap _ = _
            rw [List.filterMap_append, records.made goes_on.2, (walked.made runs).1, callsOf, goes_on.1]
            rfl
          · rw [failsIn, goes_on.1]
            exact (walked.made runs).2
          · rw [callsOf, goes_on.1]
            exact fun empty => walked.first stop (List.append_eq_nil_iff.1 empty).2
          · rw [callsOf, goes_on.1] at empty
            obtain ⟨none_made, none_later⟩ := List.append_eq_nil_iff.1 empty
            exact quiet_append_iff.2 ⟨records.quiet (Action.calls_eq_nil_iff.1 none_made), walked.quiet none_later⟩
          · have here : Exact handler act state := ⟨ends, fun malformed => absurd good malformed⟩
            rw [AllReached, and_iff_right here, callsOf, denotedBy, if_pos good, goes_on.1]
            refine Iff.trans ⟨fun others => others rfl passes, fun others _ _ => others⟩ (walked.exact.trans ?_)
            simp only [Bool.false_eq_true, if_false, List.append_cancel_left_eq]
            rfl
      · next ended =>
          subst rest
          have silent : callsOf (act :: acts) = [] → Quiet (eventsOf act calls.events) := fun empty =>
            records.quiet (Action.calls_eq_nil_iff.1 (List.append_eq_nil_iff.1 empty).1)
          cases answer : calls.answer with
          | goesOn =>
              have fails : act.fails = true := by
                by_contra sound
                exact ended ⟨Bool.eq_false_iff.2 sound, answer⟩
              have passes := looped.passes.1 answer
              have runs : (resultOf act calls).stopped = false := by simp [resultOf, answer]
              have calm : ¬ HasStop (eventsOf act calls.events) := fun stop => records.stops.1 stop answer
              refine ⟨iff_of_false calm (by rw [runs]; exact Bool.false_ne_true), records.final, fun _ => ⟨?_, ?_⟩,
                fun stop => absurd (runs.symm.trans stop) Bool.false_ne_true, silent, ?_⟩
              · rw [callsOf, fails, if_pos rfl, List.append_nil]
                exact records.made answer
              · simp [resultOf, failsIn, fails]
              · rw [AllReached, callsOf, denotedBy, fails]
                simp only [Bool.true_eq_false, false_imp_iff, and_true, if_true, List.append_nil, runs, true_imp_iff]
                by_cases good : act.before = .good
                · rw [if_pos good]
                  exact iff_of_true ⟨ends, fun malformed => absurd good malformed⟩ rfl
                · rw [if_neg good, Action.calls_eq_nil_iff]
                  exact ⟨fun here => (here.counted good).resolve_right (not_not.2 passes), fun none_made =>
                    ⟨ends, fun _ => .inl none_made⟩⟩
          | stops | fails =>
              have answered : calls.answer ≠ .goesOn := by simp [answer]
              have stop : (resultOf act calls).stopped = true := by simp [resultOf, answer]
              refine ⟨iff_of_true (records.stops.2 answered) stop, records.final,
                fun runs => absurd (runs.symm.trans stop) Bool.false_ne_true, fun _ empty => ?_, silent, ?_⟩
              · rw [callsOf] at empty
                exact records.first answered (Action.calls_eq_nil_iff.1 (List.append_eq_nil_iff.1 empty).1)
              · have halts : ¬ Passes handler act state := fun passes => answered (looped.passes.2 passes)
                exact iff_of_true ⟨⟨ends, fun _ => .inr halts⟩, fun _ passes => absurd passes halts⟩
                  fun runs => absurd (runs.symm.trans stop) Bool.false_ne_true

theorem Walked.quiet_iff (walked : Walked handler acts state result) : Quiet result.events ↔ callsOf acts = [] := by
  refine ⟨fun quiet => ?_, walked.quiet⟩
  have runs : result.stopped = false := Bool.eq_false_iff.2 fun stop => quiet.not_hasStop (walked.stops.2 stop)
  rw [← (walked.made runs).1]
  exact quiet.made_eq_nil

theorem Walked.runs_iff (walked : Walked handler acts state result) : ¬ HasStop result.events ↔ result.stopped = false := by
  rw [walked.stops, Bool.not_eq_true]

theorem walked_of_walk {machine : Machine ρ κ} {stream : ByteStreams.Bytes} {n : ℕ}
    (run : walk handler machine fuel n regs stream state = some result) :
    Walked handler (actions machine regs stream) state result :=
  walked_of_performAll (performAll_of_walk run)

theorem callsOf_eq_of_sound (sound : failsIn acts = false) : callsOf acts = denotedBy acts := by
  induction acts with
  | nil => rfl
  | cons act acts ih =>
      obtain ⟨here, others⟩ := Bool.or_eq_false_iff.1 sound
      rw [callsOf, denotedBy, if_pos (before_good_of_sound here), here, ih others]

theorem callsOf_eq_of_counted (counted : ∀ act ∈ acts, act.before ≠ .good → act.count = 0) :
    callsOf acts = denotedBy acts := by
  induction acts with
  | nil => rfl
  | cons act acts ih =>
      rw [List.forall_mem_cons] at counted
      rw [callsOf, denotedBy, ih counted.2]
      by_cases good : act.before = .good
      · rw [if_pos good]
      · rw [if_neg good, Action.calls_eq_nil_iff.2 (counted.1 good)]

theorem allReached_exact (small : ∀ act ∈ acts, act.count < 2 ^ 32)
    (counted : ∀ act ∈ acts, act.before ≠ .good → act.count = 0) : AllReached handler (Exact handler) acts state := by
  induction acts generalizing state with
  | nil => trivial
  | cons act acts ih =>
      rw [List.forall_mem_cons] at small counted
      exact ⟨⟨.inl small.1, fun malformed => .inl (counted.1 malformed)⟩, fun _ _ => ih small.2 counted.2⟩

theorem denotedBy_eq_nil (empty : callsOf acts = []) : denotedBy acts = [] := by
  induction acts with
  | nil => rfl
  | cons act acts ih =>
      obtain ⟨here, others⟩ := List.append_eq_nil_iff.1 empty
      rw [denotedBy, here, ite_self, List.nil_append]
      split
      · rfl
      · next sound =>
          rw [if_neg sound] at others
          exact ih others

theorem exists_performAll (regs : ρ) (exact : AllReached handler (Exact handler) acts state) :
    ∃ fuel result, performAll handler fuel regs acts state = some result := by
  induction acts generalizing regs state with
  | nil => exact ⟨0, _, rfl⟩
  | cons act acts ih =>
      obtain ⟨fuel, calls, run⟩ := exists_run_iff.2 exact.1.ends
      have looped := looped_of_run run
      by_cases goes_on : act.fails = false ∧ calls.answer = .goesOn
      · obtain ⟨fuel', later, later_run⟩ := ih act.regs (exact.2 goes_on.1 (looped.passes.1 goes_on.2))
        refine ⟨max fuel fuel', later.behind (eventsOf act calls.events),
          performAll_cons.2 ⟨calls, repeatCalls_mono (le_max_left _ _) run, looped, ?_⟩⟩
        rw [if_pos goes_on]
        exact ⟨later, performAll_mono (le_max_right _ _) later_run, rfl⟩
      · refine ⟨fuel, resultOf act calls, performAll_cons.2 ⟨calls, run, looped, ?_⟩⟩
        rw [if_neg goes_on]

end ObjcDyld.OpcodeStreams
