import ObjcDyld.Common.OpcodeCalls
import ObjcDyld.FixupOpcodes.Safety

/-!
# When the enumeration of binds keeps to its handler's stop

`MachOAnalyzer::forEachBind` clears `stop` between its three streams.  It stays stopped exactly where the later
streams make no calls, and calls the handler once for each bind exactly where no count or skip is malformed.
-/

namespace ObjcDyld.FixupOpcodes

open ByteStreams OpcodeStreams
open ChainedFixups (BindState)

variable {σ : Type} {info : DyldInfo} {handlers : BindHandlers σ} {state : σ}

def BindEvent.bind? : BindEvent → Option Bind
  | .bind made => some made
  | _ => none

def bindsOf (calls : List BindEvent) : List Bind := calls.filterMap BindEvent.bind?

/-- The binds that the three streams denote; what stands behind a malformed opcode denotes nothing. -/
def denoted (info : DyldInfo) : List Bind :=
  bindsOf (denotedBy (bindOpcodes info)) ++
    if failsIn (bindOpcodes info) then []
    else bindsOf (denotedBy (lazyBindOpcodes info)) ++
      if failsIn (lazyBindOpcodes info) then [] else bindsOf (denotedBy (weakBindOpcodes info))

def calledWith (events : List (Event BindEvent)) : List Bind := bindsOf (events.filterMap Event.made?)

/-- No handler is called after a stop, and without one the handler is called once for each bind, in order. -/
structure Enumerates (info : DyldInfo) (events : List (Event BindEvent)) : Prop where
  final : IsFinal events
  complete : ¬ HasStop events → calledWith events = denoted info

/-- `forEachBind` ends and enumerates the binds. -/
def IsEnumeration (info : DyldInfo) (handlers : BindHandlers σ) (state : σ) : Prop :=
  ∃ fuel result, forEachBind info fuel state handlers = some result ∧ Enumerates info result.events

/-- The handler stops at one of the bind opcodes, and no error is reported. -/
def StopsInBinds (info : DyldInfo) (handlers : BindHandlers σ) (state : σ) : Prop :=
  ∃ fuel result, binds info fuel state handlers = some result ∧ result.failed = false ∧ result.stopped = true

/-- The loop over the lazy bind opcodes ends in some way. -/
def EndsLazyBinds (info : DyldInfo) (handlers : BindHandlers σ) (state : σ) (lazies : Result LazyState σ BindEvent) : Prop :=
  ∃ begun, ReachesLazyBinds info handlers state begun ∧ ∃ fuel, lazyWalk info fuel begun handlers = some lazies

/-- The opcodes that are reached end and are well formed or make no calls; when the handler stops at a bind opcode
there are no lazy binds, and when it stops there or at a lazy one, then no binds are missed and, without an error,
the weak bind opcodes make no calls. -/
structure StopsOnce (info : DyldInfo) (handlers : BindHandlers σ) (state : σ) : Prop where
  binds : AllReached handlers.answer (Exact handlers.answer) (bindOpcodes info) state
  weakBinds : ∀ begun, ReachesWeakBinds info handlers state begun →
    AllReached handlers.answer (Exact handlers.answer) (weakBindOpcodes info) begun
  quiet : StopsInBinds info handlers state → callsOf (lazyBindOpcodes info) = []
  checked : ∀ lazies, EndsLazyBinds info handlers state lazies →
    StopsInBinds info handlers state ∨ lazies.stopped = true →
      ¬ MissesLazyBinds lazies.regs ∧ (lazies.failed = false → callsOf (weakBindOpcodes info) = [])

/-! ## The calls of the opcodes -/

/-- An opcode with malformed operands makes no other calls than binds. -/
def EarlyBinds {ρ : Type} (act : Action ρ BindEvent) : Prop :=
  act.before ≠ .good → act.count = 0 ∨ ∀ n, ∃ made, act.call n = .bind made

theorem forall_actionsFrom {ρ κ : Type} {machine : Machine ρ κ} {property : Action ρ κ → Prop}
    (every : ∀ regs byte rest, property (machine.step regs byte rest)) (n : ℕ) (regs : ρ) (stream : Bytes) :
    ∀ act ∈ actionsFrom machine n regs stream, property act := by
  induction n generalizing regs stream with
  | zero => exact fun act member => absurd member List.not_mem_nil
  | succ n ih =>
      cases stream with
      | nil => exact fun act member => absurd member List.not_mem_nil
      | cons byte rest =>
          rw [actionsFrom, List.forall_mem_cons]
          refine ⟨every regs byte rest, ?_⟩
          split
          · exact fun act member => absurd member List.not_mem_nil
          · exact ih _ _

theorem earlyBinds_of_count {ρ : Type} {act : Action ρ BindEvent} (none_made : act.count = 0) : EarlyBinds act :=
  fun _ => .inl none_made

theorem earlyBinds_of_good {ρ : Type} {act : Action ρ BindEvent} (good : act.before = .good) : EarlyBinds act :=
  fun malformed => absurd good malformed

theorem setAddendSleb_count {κ : Type} [Inhabited κ] (state : BindState) (rest : Bytes) :
    (setAddendSleb state rest : Action BindState κ).count = 0 := by
  unfold setAddendSleb
  split <;> rfl

theorem setSymbol_count {κ : Type} [Inhabited κ] (state : BindState) (immediate : ℕ) (rest behind : Bytes) :
    (setSymbol state immediate rest behind : Action BindState κ).count = 0 := by
  unfold setSymbol
  dsimp only
  split <;> rfl

theorem setSymbol_before {κ : Type} [Inhabited κ] (state : BindState) (immediate : ℕ) (rest behind : Bytes) :
    (setSymbol state immediate rest behind : Action BindState κ).before = .good := by
  unfold setSymbol
  dsimp only
  split <;> rfl

theorem bindStep_early {ptrSize : BitVec 64} {behind : Bytes} (state : BindState) (byte : BitVec 8)
    (rest : Bytes) : EarlyBinds (bindStep ptrSize behind state byte rest) := by
  simp only [bindStep]
  split
  case h_5 => exact earlyBinds_of_count (setSymbol_count ..)
  case h_7 => exact earlyBinds_of_count (setAddendSleb_count ..)
  case h_13 => exact fun _ => .inr fun n => ⟨_, rfl⟩
  case h_10 | h_11 | h_12 => exact earlyBinds_of_good rfl
  all_goals exact earlyBinds_of_count rfl

theorem weakBindStep_early {ptrSize : BitVec 64} {behind : Bytes} (state : BindState) (byte : BitVec 8)
    (rest : Bytes) : EarlyBinds (weakBindStep ptrSize behind state byte rest) := by
  simp only [weakBindStep]
  split
  case h_5 => exact earlyBinds_of_good (setSymbol_before ..)
  case h_7 => exact earlyBinds_of_count (setAddendSleb_count ..)
  case h_13 => exact fun _ => .inr fun n => ⟨_, rfl⟩
  case h_10 | h_11 | h_12 => exact earlyBinds_of_good rfl
  all_goals exact earlyBinds_of_count rfl

theorem lazyBindStep_early {ptrSize : BitVec 64} {behind : Bytes} (state : LazyState) (byte : BitVec 8)
    (rest : Bytes) : (lazyBindStep ptrSize behind state byte rest).count < 2 ^ 32 ∧
      ((lazyBindStep ptrSize behind state byte rest).before ≠ .good →
        (lazyBindStep ptrSize behind state byte rest).count = 0) := by
  simp only [lazyBindStep]
  split
  case h_5 => exact ⟨(setSymbol_count ..).trans_lt (by decide), fun _ => setSymbol_count ..⟩
  case h_6 => exact ⟨(setAddendSleb_count ..).trans_lt (by decide), fun _ => setAddendSleb_count ..⟩
  case h_8 => exact ⟨Nat.one_lt_two_pow (by decide), fun malformed => absurd rfl malformed⟩
  all_goals exact ⟨Nat.two_pow_pos 32, fun _ => rfl⟩

theorem bindsOf_append (calls more : List BindEvent) : bindsOf (calls ++ more) = bindsOf calls ++ bindsOf more :=
  List.filterMap_append

theorem calledWith_append (events more : List (Event BindEvent)) :
    calledWith (events ++ more) = calledWith events ++ calledWith more := by
  rw [calledWith, List.filterMap_append, bindsOf_append]
  rfl

theorem callsOf_eq_of_bindsOf {ρ : Type} {acts : List (Action ρ BindEvent)} (early : ∀ act ∈ acts, EarlyBinds act)
    (same : bindsOf (callsOf acts) = bindsOf (denotedBy acts)) : callsOf acts = denotedBy acts := by
  induction acts with
  | nil => rfl
  | cons act acts ih =>
      rw [List.forall_mem_cons] at early
      rw [callsOf, denotedBy] at same ⊢
      by_cases good : act.before = .good
      · rw [if_pos good, bindsOf_append, bindsOf_append, List.append_cancel_left_eq] at same
        rw [if_pos good, List.append_cancel_left_eq]
        split
        · rfl
        · next sound =>
            rw [if_neg sound, if_neg sound] at same
            exact ih early.2 same
      · have fails : act.fails = true := by simp [Action.fails, good]
        rw [if_neg good, if_pos fails, if_pos fails, List.append_nil, List.append_nil] at same ⊢
        rw [Action.calls_eq_nil_iff]
        rcases early.1 good with none_made | binds
        · exact none_made
        · have all_binds : (bindsOf act.calls).length = act.count := by
            rw [bindsOf, Action.calls, List.filterMap_map, List.length_filterMap_eq_countP, List.countP_eq_length.2,
              List.length_range]
            intro n _
            obtain ⟨made, call⟩ := binds n
            simp [call, BindEvent.bind?]
          rw [← all_binds, same]
          rfl

theorem bindOpcodes_early (info : DyldInfo) : ∀ act ∈ bindOpcodes info, EarlyBinds act :=
  forall_actionsFrom bindStep_early _ _ _

theorem weakBindOpcodes_early (info : DyldInfo) : ∀ act ∈ weakBindOpcodes info, EarlyBinds act :=
  forall_actionsFrom weakBindStep_early _ _ _

theorem lazyBindOpcodes_early (info : DyldInfo) :
    ∀ act ∈ lazyBindOpcodes info, act.count < 2 ^ 32 ∧ (act.before ≠ .good → act.count = 0) :=
  forall_actionsFrom lazyBindStep_early _ _ _

theorem callsOf_lazyBindOpcodes (info : DyldInfo) : callsOf (lazyBindOpcodes info) = denotedBy (lazyBindOpcodes info) :=
  callsOf_eq_of_counted fun act member => (lazyBindOpcodes_early info act member).2

/-! ## The three walks together -/

def noticeOf (regs : LazyState) : List (Event BindEvent) :=
  if MissesLazyBinds regs then [.notice .missingLazyBind] else []

theorem checkLazyBinds_events (handlers : BindHandlers σ) (lazies : Result LazyState σ BindEvent) :
    (checkLazyBinds handlers lazies).events = lazies.events ++ noticeOf lazies.regs := by
  unfold checkLazyBinds noticeOf
  split
  · rfl
  · exact (List.append_nil _).symm

theorem checkLazyBinds_failed (lazies : Result LazyState σ BindEvent) :
    (checkLazyBinds handlers lazies).failed = lazies.failed := by
  unfold checkLazyBinds
  split <;> rfl

theorem noticeOf_calm (regs : LazyState) : ¬ HasStop (noticeOf regs) := by
  unfold noticeOf
  split <;> simp [HasStop]

theorem noticeOf_quiet_iff {regs : LazyState} : Quiet (noticeOf regs) ↔ ¬ MissesLazyBinds regs := by
  unfold noticeOf
  split
  · next misses => exact iff_of_false (fun quiet => quiet _ (List.mem_singleton_self _) trivial) (not_not.2 misses)
  · next none_missed => exact iff_of_true (fun event member => absurd member List.not_mem_nil) none_missed

theorem calledWith_noticeOf (regs : LazyState) : calledWith (noticeOf regs) = [] := by
  unfold noticeOf
  split <;> rfl

theorem forEachBind_eq_some_iff {fuel : ℕ} {result : Result Unit σ BindEvent} :
    forEachBind info fuel state handlers = some result ↔ ∃ first, binds info fuel state handlers = some first ∧
      if first.failed then result = first.forget
      else ∃ lazies, lazyWalk info fuel first.state handlers = some lazies ∧
        if lazies.failed then result = (checkLazyBinds handlers lazies).behind first.events
        else ∃ weaks, weakWalk info fuel (checkLazyBinds handlers lazies).state handlers = some weaks ∧
          result = (weaks.forget.behind (checkLazyBinds handlers lazies).events).behind first.events := by
  rw [forEachBind, andThen, Option.bind_eq_some_iff]
  refine exists_congr fun first => and_congr_right fun _ => ?_
  split
  · rw [Option.some.injEq, eq_comm]
  · rw [Option.map_eq_some_iff]
    simp only [andThen, lazyBinds_eq, weakBinds_eq, Option.bind_map, Option.bind_eq_some_iff, Function.comp_apply,
      checkLazyBinds_failed]
    constructor
    · rintro ⟨later, ⟨lazies, run, rest⟩, rfl⟩
      refine ⟨lazies, run, ?_⟩
      split at rest
      · next failed =>
          rw [if_pos failed]
          exact Option.some.inj rest ▸ rfl
      · next sound =>
          rw [if_neg sound]
          obtain ⟨middle, ran, rfl⟩ := Option.map_eq_some_iff.1 rest
          obtain ⟨weaks, weak_run, rfl⟩ := Option.map_eq_some_iff.1 ran
          exact ⟨weaks, weak_run, rfl⟩
    · rintro ⟨lazies, run, rest⟩
      split at rest
      · next failed =>
          subst rest
          exact ⟨_, ⟨lazies, run, if_pos failed⟩, rfl⟩
      · next sound =>
          obtain ⟨weaks, weak_run, rfl⟩ := rest
          exact ⟨_, ⟨lazies, run, by rw [if_neg sound, weak_run]; rfl⟩, rfl⟩

/-- What a whole run records, and the walks it is made of. -/
inductive Recorded (info : DyldInfo) (handlers : BindHandlers σ) (state : σ) (first : Result BindState σ BindEvent) :
    List (Event BindEvent) → Prop
  | binds (failed : first.failed = true) : Recorded info handlers state first first.events
  | lazies (sound : first.failed = false) (lazies : Result LazyState σ BindEvent) (fuel : ℕ)
      (run : lazyWalk info fuel first.state handlers = some lazies) (failed : lazies.failed = true) :
      Recorded info handlers state first (first.events ++ (lazies.events ++ (noticeOf lazies.regs ++ [])))
  | weaks (sound : first.failed = false) (lazies : Result LazyState σ BindEvent) (fuel : ℕ)
      (run : lazyWalk info fuel first.state handlers = some lazies) (fine : lazies.failed = false)
      (weaks : Result BindState σ BindEvent) (fuel' : ℕ)
      (weak_run : weakWalk info fuel' (checkLazyBinds handlers lazies).state handlers = some weaks) :
      Recorded info handlers state first (first.events ++ (lazies.events ++ (noticeOf lazies.regs ++ weaks.events)))

theorem recorded_of_run {fuel : ℕ} {result : Result Unit σ BindEvent} (run : forEachBind info fuel state handlers = some result) :
    ∃ first, binds info fuel state handlers = some first ∧ Recorded info handlers state first result.events := by
  obtain ⟨first, ran, rest⟩ := forEachBind_eq_some_iff.1 run
  refine ⟨first, ran, ?_⟩
  split at rest
  · next failed =>
      subst rest
      exact .binds failed
  · next sound =>
      obtain ⟨lazies, lazy_run, rest⟩ := rest
      split at rest
      · next failed =>
          subst rest
          change Recorded info handlers state first (first.events ++ (checkLazyBinds handlers lazies).events)
          rw [checkLazyBinds_events, ← List.append_nil (noticeOf lazies.regs)]
          exact .lazies (Bool.eq_false_iff.2 sound) lazies fuel lazy_run failed
      · next fine =>
          obtain ⟨weaks, weak_run, rfl⟩ := rest
          change Recorded info handlers state first
            (first.events ++ ((checkLazyBinds handlers lazies).events ++ weaks.events))
          rw [checkLazyBinds_events, List.append_assoc]
          exact .weaks (Bool.eq_false_iff.2 sound) lazies fuel lazy_run (Bool.eq_false_iff.2 fine) weaks fuel weak_run

theorem run_of_recorded {fuel : ℕ} {first : Result BindState σ BindEvent} {events : List (Event BindEvent)}
    (ran : binds info fuel state handlers = some first) (recorded : Recorded info handlers state first events) :
    ∃ fuel result, forEachBind info fuel state handlers = some result ∧ result.events = events := by
  cases recorded with
  | binds failed =>
      refine ⟨fuel, first.forget, forEachBind_eq_some_iff.2 ⟨first, ran, ?_⟩, rfl⟩
      rw [if_pos failed]
  | lazies sound lazies fuel' run failed =>
      refine ⟨max fuel fuel', (checkLazyBinds handlers lazies).behind first.events,
        forEachBind_eq_some_iff.2 ⟨first, binds_settled _ _ _ (le_max_left _ _) ran, ?_⟩, ?_⟩
      · rw [if_neg (Bool.eq_false_iff.1 sound)]
        refine ⟨lazies, lazyWalk_settled _ _ _ (le_max_right _ _) run, ?_⟩
        rw [if_pos failed]
      · rw [List.append_nil, ← checkLazyBinds_events handlers]
        rfl
  | weaks sound lazies fuel' run fine weaks fuel'' weak_run =>
      refine ⟨max fuel (max fuel' fuel''), (weaks.forget.behind (checkLazyBinds handlers lazies).events).behind first.events,
        forEachBind_eq_some_iff.2 ⟨first, binds_settled _ _ _ (le_max_left _ _) ran, ?_⟩, ?_⟩
      · rw [if_neg (Bool.eq_false_iff.1 sound)]
        refine ⟨lazies, lazyWalk_settled _ _ _ ((le_max_left _ _).trans (le_max_right _ _)) run, ?_⟩
        rw [if_neg (Bool.eq_false_iff.1 fine)]
        exact ⟨weaks, weakWalk_settled _ _ _ ((le_max_right _ _).trans (le_max_right _ _)) weak_run, rfl⟩
      · rw [← List.append_assoc lazies.events, ← checkLazyBinds_events handlers]
        rfl

section Cases

variable {first : Result BindState σ BindEvent} {lazies : Result LazyState σ BindEvent} {weaks : Result BindState σ BindEvent}
  {middle later : σ}

theorem isFinal_iff (walked : Walked handlers.answer (bindOpcodes info) state first)
    (lazy_walked : Walked handlers.answer (lazyBindOpcodes info) middle lazies) {more : List (Event BindEvent)}
    (final : IsFinal more) : IsFinal (first.events ++ (lazies.events ++ (noticeOf lazies.regs ++ more))) ↔
      (first.stopped = true → callsOf (lazyBindOpcodes info) = []) ∧
        (first.stopped = true ∨ lazies.stopped = true → ¬ MissesLazyBinds lazies.regs ∧ Quiet more) := by
  have calm := noticeOf_calm lazies.regs
  have rest : IsFinal (noticeOf lazies.regs ++ more) :=
    (isFinal_append_iff (isFinal_of_not_hasStop calm)).2 ⟨fun stop => absurd stop calm, final⟩
  rw [isFinal_append_iff walked.final, isFinal_append_iff lazy_walked.final, and_iff_left rest, walked.stops,
    lazy_walked.stops, quiet_append_iff, quiet_append_iff, lazy_walked.quiet_iff, noticeOf_quiet_iff]
  tauto

theorem calledWith_eq (walked : Walked handlers.answer (bindOpcodes info) state first)
    (lazy_walked : Walked handlers.answer (lazyBindOpcodes info) middle lazies) (sound : first.failed = false)
    {more : List (Event BindEvent)} (calm : ¬ HasStop (first.events ++ (lazies.events ++ (noticeOf lazies.regs ++ more)))) :
    first.stopped = false ∧ lazies.stopped = false ∧ ¬ HasStop more ∧ failsIn (bindOpcodes info) = false ∧
      failsIn (lazyBindOpcodes info) = lazies.failed ∧
        calledWith (first.events ++ (lazies.events ++ (noticeOf lazies.regs ++ more))) =
          bindsOf (denotedBy (bindOpcodes info)) ++ (bindsOf (denotedBy (lazyBindOpcodes info)) ++ calledWith more) := by
  simp only [hasStop_append_iff, not_or] at calm
  obtain ⟨here, there, -, behind⟩ := calm
  have runs := walked.runs_iff.1 here
  have lazy_runs := lazy_walked.runs_iff.1 there
  have fine : failsIn (bindOpcodes info) = false := (walked.made runs).2.symm.trans sound
  refine ⟨runs, lazy_runs, behind, fine, (lazy_walked.made lazy_runs).2.symm, ?_⟩
  rw [calledWith_append, calledWith_append, calledWith_append, calledWith_noticeOf, calledWith, calledWith,
    (walked.made runs).1, (lazy_walked.made lazy_runs).1, callsOf_eq_of_sound fine, callsOf_lazyBindOpcodes, List.nil_append]

theorem enumerates_binds_iff (walked : Walked handlers.answer (bindOpcodes info) state first) (failed : first.failed = true) :
    Enumerates info first.events ↔ AllReached handlers.answer (Exact handlers.answer) (bindOpcodes info) state := by
  rw [walked.exact]
  constructor
  · intro enumerates runs
    have complete := enumerates.complete (walked.runs_iff.2 runs)
    obtain ⟨made, fails⟩ := walked.made runs
    rw [calledWith, made, denoted, ← fails, failed, if_pos rfl, List.append_nil] at complete
    exact callsOf_eq_of_bindsOf (bindOpcodes_early info) complete
  · intro exact
    refine ⟨walked.final, fun calm => ?_⟩
    have runs := walked.runs_iff.1 calm
    obtain ⟨made, fails⟩ := walked.made runs
    rw [calledWith, made, denoted, ← fails, failed, if_pos rfl, List.append_nil, exact runs]

theorem enumerates_lazies_iff (walked : Walked handlers.answer (bindOpcodes info) state first) (sound : first.failed = false)
    (lazy_walked : Walked handlers.answer (lazyBindOpcodes info) middle lazies) (failed : lazies.failed = true) :
    Enumerates info (first.events ++ (lazies.events ++ (noticeOf lazies.regs ++ []))) ↔
      (first.stopped = true → callsOf (lazyBindOpcodes info) = []) ∧
        (first.stopped = true ∨ lazies.stopped = true → ¬ MissesLazyBinds lazies.regs) := by
  have quiet : Quiet ([] : List (Event BindEvent)) := fun event member => absurd member List.not_mem_nil
  have final := isFinal_iff walked lazy_walked quiet.isFinal
  simp only [and_iff_left quiet] at final
  rw [← final]
  refine ⟨Enumerates.final, fun final => ⟨final, fun calm => ?_⟩⟩
  obtain ⟨-, -, -, fine, fails, called⟩ := calledWith_eq walked lazy_walked sound calm
  rw [called, denoted, fine, fails, failed]
  rfl

theorem enumerates_weaks_iff (walked : Walked handlers.answer (bindOpcodes info) state first) (sound : first.failed = false)
    (lazy_walked : Walked handlers.answer (lazyBindOpcodes info) middle lazies) (fine : lazies.failed = false)
    (weak_walked : Walked handlers.answer (weakBindOpcodes info) later weaks) :
    Enumerates info (first.events ++ (lazies.events ++ (noticeOf lazies.regs ++ weaks.events))) ↔
      (first.stopped = true → callsOf (lazyBindOpcodes info) = []) ∧
        (first.stopped = true ∨ lazies.stopped = true → ¬ MissesLazyBinds lazies.regs ∧ callsOf (weakBindOpcodes info) = []) ∧
          AllReached handlers.answer (Exact handlers.answer) (weakBindOpcodes info) later := by
  have final := isFinal_iff walked lazy_walked weak_walked.final
  rw [weak_walked.quiet_iff] at final
  rw [← and_assoc, ← final, weak_walked.exact]
  constructor
  · intro enumerates
    refine ⟨enumerates.final, fun runs => ?_⟩
    by_cases earlier : first.stopped = true ∨ lazies.stopped = true
    · have empty := (final.1 enumerates.final).2 earlier
      rw [empty.2, denotedBy_eq_nil empty.2]
    · have calm : ¬ HasStop (first.events ++ (lazies.events ++ (noticeOf lazies.regs ++ weaks.events))) := by
        simp only [hasStop_append_iff, not_or, walked.runs_iff, lazy_walked.runs_iff, weak_walked.runs_iff]
        rw [not_or, Bool.not_eq_true, Bool.not_eq_true] at earlier
        exact ⟨earlier.1, earlier.2, noticeOf_calm _, runs⟩
      obtain ⟨-, -, -, passes, passes', called⟩ := calledWith_eq walked lazy_walked sound calm
      have complete := enumerates.complete calm
      rw [called, denoted, passes, passes', fine, if_neg Bool.false_ne_true, if_neg Bool.false_ne_true,
        List.append_cancel_left_eq, List.append_cancel_left_eq, calledWith, (weak_walked.made runs).1] at complete
      exact callsOf_eq_of_bindsOf (weakBindOpcodes_early info) complete
  · rintro ⟨whole, exact⟩
    refine ⟨whole, fun calm => ?_⟩
    obtain ⟨-, -, behind, passes, passes', called⟩ := calledWith_eq walked lazy_walked sound calm
    have runs := weak_walked.runs_iff.1 behind
    rw [called, denoted, passes, passes', fine, if_neg Bool.false_ne_true, if_neg Bool.false_ne_true, calledWith,
      (weak_walked.made runs).1, exact runs]

end Cases

section Reaches

variable {first : Result BindState σ BindEvent} {lazies : Result LazyState σ BindEvent} {begun : σ} {fuel fuel' : ℕ}

theorem reachesLazyBinds_iff (ran : binds info fuel state handlers = some first) :
    ReachesLazyBinds info handlers state begun ↔ first.failed = false ∧ first.state = begun := by
  constructor
  · rintro ⟨fuel', other, run, sound, rfl⟩
    obtain rfl := binds_settled.unique ran run
    exact ⟨sound, rfl⟩
  · rintro ⟨sound, rfl⟩
    exact ⟨fuel, first, ran, sound, rfl⟩

theorem stopsInBinds_iff (ran : binds info fuel state handlers = some first) :
    StopsInBinds info handlers state ↔ first.failed = false ∧ first.stopped = true := by
  constructor
  · rintro ⟨fuel', other, run, sound, stop⟩
    obtain rfl := binds_settled.unique ran run
    exact ⟨sound, stop⟩
  · rintro ⟨sound, stop⟩
    exact ⟨fuel, first, ran, sound, stop⟩

theorem endsLazyBinds_iff (ran : binds info fuel state handlers = some first) (sound : first.failed = false)
    (lazy_ran : lazyWalk info fuel' first.state handlers = some lazies) {other : Result LazyState σ BindEvent} :
    EndsLazyBinds info handlers state other ↔ other = lazies := by
  constructor
  · rintro ⟨begun, reached, fuel'', run⟩
    obtain ⟨-, rfl⟩ := (reachesLazyBinds_iff ran).1 reached
    exact lazyWalk_settled.unique run lazy_ran
  · rintro rfl
    exact ⟨_, (reachesLazyBinds_iff ran).2 ⟨sound, rfl⟩, fuel', lazy_ran⟩

theorem reachesWeakBinds_iff (ran : binds info fuel state handlers = some first) (sound : first.failed = false)
    (lazy_ran : lazyWalk info fuel' first.state handlers = some lazies) :
    ReachesWeakBinds info handlers state begun ↔ lazies.failed = false ∧ (checkLazyBinds handlers lazies).state = begun := by
  constructor
  · rintro ⟨middle, reached, fuel'', result, run, fine, rfl⟩
    obtain ⟨-, rfl⟩ := (reachesLazyBinds_iff ran).1 reached
    rw [lazyBinds_eq] at run
    obtain ⟨other, other_run, rfl⟩ := Option.map_eq_some_iff.1 run
    obtain rfl := lazyWalk_settled.unique other_run lazy_ran
    exact ⟨(checkLazyBinds_failed other).symm.trans fine, rfl⟩
  · rintro ⟨fine, rfl⟩
    refine ⟨_, (reachesLazyBinds_iff ran).2 ⟨sound, rfl⟩, fuel', _, ?_, (checkLazyBinds_failed lazies).trans fine, rfl⟩
    rw [lazyBinds_eq, lazy_ran]
    rfl

theorem exists_lazyWalk (info : DyldInfo) (handlers : BindHandlers σ) (state : σ) :
    ∃ fuel lazies, lazyWalk info fuel state handlers = some lazies := by
  have early := lazyBindOpcodes_early info
  obtain ⟨fuel, lazies, run⟩ := exists_performAll ({ type := 1 } : LazyState)
    (allReached_exact (fun act member => (early act member).1)
      fun act member => (early act member).2)
  obtain ⟨fuel', ran⟩ := exists_walk_iff.2 ⟨fuel, run⟩
  exact ⟨fuel', lazies, ran⟩

end Reaches

theorem enumerates_iff {fuel : ℕ} {first : Result BindState σ BindEvent} {events : List (Event BindEvent)}
    (ran : binds info fuel state handlers = some first) (recorded : Recorded info handlers state first events) :
    Enumerates info events ↔ StopsOnce info handlers state := by
  have walked : Walked handlers.answer (bindOpcodes info) state first := walked_of_walk ran
  cases recorded with
  | binds failed =>
      have unsound : ¬ first.failed = false := fun sound => Bool.false_ne_true (sound.symm.trans failed)
      have unreached : ∀ begun, ¬ ReachesLazyBinds info handlers state begun := fun begun reached =>
        unsound ((reachesLazyBinds_iff ran).1 reached).1
      refine (enumerates_binds_iff walked failed).trans ⟨fun exact => ⟨exact, ?_, ?_, ?_⟩, StopsOnce.binds⟩
      · exact fun begun ⟨middle, reached, _⟩ => absurd reached (unreached middle)
      · exact fun stops => absurd ((stopsInBinds_iff ran).1 stops).1 unsound
      · exact fun lazies ⟨middle, reached, _⟩ => absurd reached (unreached middle)
  | lazies sound lazies fuel' lazy_ran failed =>
      have lazy_walked : Walked handlers.answer (lazyBindOpcodes info) first.state lazies := walked_of_walk lazy_ran
      have unsound : ¬ lazies.failed = false := fun fine => Bool.false_ne_true (fine.symm.trans failed)
      have stops : StopsInBinds info handlers state ↔ first.stopped = true :=
        (stopsInBinds_iff ran).trans (and_iff_right sound)
      rw [enumerates_lazies_iff walked sound lazy_walked failed, ← stops]
      constructor
      · rintro ⟨quiet, checked⟩
        refine ⟨walked.exact.2 fun runs => callsOf_eq_of_sound ((walked.made runs).2.symm.trans sound), ?_, quiet, ?_⟩
        · exact fun begun reached => absurd ((reachesWeakBinds_iff ran sound lazy_ran).1 reached).1 unsound
        · rintro other ended stop
          obtain rfl := (endsLazyBinds_iff ran sound lazy_ran).1 ended
          exact ⟨checked stop, fun fine => absurd fine unsound⟩
      · intro once
        exact ⟨once.quiet, fun stop => (once.checked lazies ((endsLazyBinds_iff ran sound lazy_ran).2 rfl) stop).1⟩
  | weaks sound lazies fuel' lazy_ran fine weaks fuel'' weak_ran =>
      have lazy_walked : Walked handlers.answer (lazyBindOpcodes info) first.state lazies := walked_of_walk lazy_ran
      have weak_walked : Walked handlers.answer (weakBindOpcodes info) (checkLazyBinds handlers lazies).state weaks :=
        walked_of_walk weak_ran
      have stops : StopsInBinds info handlers state ↔ first.stopped = true :=
        (stopsInBinds_iff ran).trans (and_iff_right sound)
      rw [enumerates_weaks_iff walked sound lazy_walked fine weak_walked, ← stops]
      constructor
      · rintro ⟨quiet, checked, exact⟩
        refine ⟨walked.exact.2 fun runs => callsOf_eq_of_sound ((walked.made runs).2.symm.trans sound), ?_, quiet, ?_⟩
        · intro begun reached
          obtain ⟨-, rfl⟩ := (reachesWeakBinds_iff ran sound lazy_ran).1 reached
          exact exact
        · rintro other ended stop
          obtain rfl := (endsLazyBinds_iff ran sound lazy_ran).1 ended
          exact (checked stop).imp_right fun empty _ => empty
      · intro once
        refine ⟨once.quiet, fun stop => ?_, once.weakBinds _ ((reachesWeakBinds_iff ran sound lazy_ran).2 ⟨fine, rfl⟩)⟩
        exact (once.checked lazies ((endsLazyBinds_iff ran sound lazy_ran).2 rfl) stop).imp_right fun empty => empty fine

theorem exists_recorded (once : StopsOnce info handlers state) :
    ∃ fuel first events, binds info fuel state handlers = some first ∧ Recorded info handlers state first events := by
  obtain ⟨fuel, first, run⟩ := exists_performAll {} once.binds
  obtain ⟨fuel, ran⟩ := exists_walk_iff.2 ⟨fuel, run⟩
  cases failed : first.failed with
  | true => exact ⟨fuel, first, _, ran, .binds failed⟩
  | false =>
      obtain ⟨fuel', lazies, lazy_ran⟩ := exists_lazyWalk info handlers first.state
      cases lazy_failed : lazies.failed with
      | true => exact ⟨fuel, first, _, ran, .lazies failed lazies fuel' lazy_ran lazy_failed⟩
      | false =>
          have reached := (reachesWeakBinds_iff ran failed lazy_ran).2 ⟨lazy_failed, rfl⟩
          obtain ⟨fuel'', weaks, weak_run⟩ := exists_performAll weakStart (once.weakBinds _ reached)
          obtain ⟨fuel'', weak_ran⟩ := exists_walk_iff.2 ⟨fuel'', weak_run⟩
          exact ⟨fuel, first, _, ran, .weaks failed lazies fuel' lazy_ran lazy_failed weaks fuel'' weak_ran⟩

theorem isEnumeration_iff : IsEnumeration info handlers state ↔ StopsOnce info handlers state := by
  constructor
  · rintro ⟨fuel, result, run, enumerates⟩
    obtain ⟨first, ran, recorded⟩ := recorded_of_run run
    exact (enumerates_iff ran recorded).1 enumerates
  · intro once
    obtain ⟨fuel, first, events, ran, recorded⟩ := exists_recorded once
    obtain ⟨fuel', result, run, rfl⟩ := run_of_recorded ran recorded
    exact ⟨fuel', result, run, (enumerates_iff ran recorded).2 once⟩

/-! ## Binds at runtime offsets -/

/-- What the handler of the other `forEachBind` is called with. -/
structure RuntimeBind where
  runtimeOffset : BitVec 64
  libOrdinal : ℤ
  symbolName : Option Bytes
  weakImport : Bool
  lazyBind : Bool
  addend : BitVec 64

structure RuntimeHandlers (σ : Type) where
  handler : RuntimeBind → σ → σ × Answer
  strongHandler : Bytes → σ → σ
  missingLazyBindHandler : σ → σ

/-- A segment, by its name and its address. -/
structure Segment where
  segName : String
  vmAddr : BitVec 64
  deriving Inhabited

/-- The state of a caller, and `startVmAddr` once it is set. -/
structure RuntimeState (σ : Type) where
  state : σ
  startVmAddr : Option (BitVec 64) := none

/-- The address of `__TEXT`, if that is not behind a segment. -/
def findText (segments : List Segment) (segmentIndex : ℕ) : Option (BitVec 64) :=
  ((segments.take (segmentIndex + 1)).find? (·.segName = "__TEXT")).map (·.vmAddr)

/-- The handlers that `MachOAnalyzer::forEachBind` passes on to the other function of that name. -/
def RuntimeHandlers.wrap (segments : List Segment) (handlers : RuntimeHandlers σ) : BindHandlers (RuntimeState σ) where
  handler made caller :=
    let bind := made.state
    let startVmAddr := caller.startVmAddr.or (findText segments bind.segmentIndex)
    let bindVmOffset := (segments.getD bind.segmentIndex default).vmAddr + bind.segmentOffset
    let answer := handlers.handler ⟨bindVmOffset - startVmAddr.getD 0, bind.libraryOrdinal, bind.symbolName,
      bind.weakImport, made.lazyBind, bind.addend⟩ caller.state
    (⟨answer.1, startVmAddr⟩, answer.2)
  strongHandler symbolName caller := { caller with state := handlers.strongHandler symbolName caller.state }
  missingLazyBindHandler caller := { caller with state := handlers.missingLazyBindHandler caller.state }

/-- Both enumerations of binds keep to a stop and are complete exactly when no stream calls after a stop in an
earlier one and the opcodes that make calls are well formed. -/
theorem forEachBind_enumerates_iff (info : DyldInfo) (handlers : BindHandlers σ) (state : σ) (segments : List Segment)
    (runtime : RuntimeHandlers σ) :
    (IsEnumeration info handlers state ↔ StopsOnce info handlers state) ∧
      (IsEnumeration info (runtime.wrap segments) { state } ↔ StopsOnce info (runtime.wrap segments) { state }) :=
  ⟨isEnumeration_iff, isEnumeration_iff⟩

/-- A bind and a lazy bind. -/
def twoBinds : DyldInfo where
  ptrSize := 8
  rebase := ⟨[], []⟩
  bind := ⟨[0x90], []⟩
  lazyBind := ⟨[0x90], []⟩
  weakBind := ⟨[], []⟩

/-- A handler that stops at once. -/
def impatient : BindHandlers Unit where
  handler _ state := (state, .stops)
  strongHandler _ state := state
  missingLazyBindHandler state := state

/-- The handler is called for the lazy bind after it stopped at the first. -/
theorem twoBinds_not_enumeration : ¬ IsEnumeration twoBinds impatient () := by
  rintro ⟨fuel, result, run, enumerates⟩
  have known : (forEachBind twoBinds 2 () impatient).map (·.events) =
      some [.call (.bind ⟨"BIND_OPCODE_DO_BIND", {}, false⟩) true,
        .call (.bind ⟨"BIND_OPCODE_DO_BIND", { type := 1 }, true⟩) true] := by decide +kernel
  obtain ⟨other, ran, events⟩ := Option.map_eq_some_iff.1 known
  obtain rfl := forEachBind_settled.unique run ran
  exact enumerates.final [] _ _ events _ (List.mem_singleton_self _) trivial

end ObjcDyld.FixupOpcodes
