import ObjcDyld.FixupOpcodes.Interpreters

/-!
# Which fixup opcodes are interpreted safely

The interpreters stay inside their streams, end, and report what is truncated, exactly on streams all of
whose opcodes that are reached do.
-/

namespace ObjcDyld.FixupOpcodes

open ByteStreams ChainedFixups OpcodeStreams

variable {σ : Type} {info : DyldInfo} {handlers : BindHandlers σ} {callbacks : OldArm64eHandlers σ}
  {rebaseHandler : Rebase → σ → σ × Answer} {state : σ}

/-- All three interpreters end, read only inside their streams, and make no calls after a truncated operand, which
they report. -/
structure IsSafeFor (info : DyldInfo) (rebaseHandler : Rebase → σ → σ × Answer) (handlers : BindHandlers σ)
    (callbacks : OldArm64eHandlers σ) (state : σ) : Prop where
  rebase : IsSafe fun fuel => forEachRebase info fuel state rebaseHandler
  bind : IsSafe fun fuel => forEachBind info fuel state handlers
  oldArm64e : IsSafe fun fuel => parseOrgArm64eChainedFixups info fuel state callbacks

def rebaseOpcodes (info : DyldInfo) : List (Action RebaseState Rebase) :=
  actions (rebaseMachine info.ptrSize) {} info.rebase.bytes

def bindOpcodes (info : DyldInfo) : List (Action BindState BindEvent) :=
  actions (bindMachine info.ptrSize info.bind.behind) {} info.bind.bytes

def lazyBindOpcodes (info : DyldInfo) : List (Action LazyState BindEvent) :=
  actions (lazyBindMachine info.ptrSize info.lazyBind.behind) { type := 1 } info.lazyBind.bytes

def weakBindOpcodes (info : DyldInfo) : List (Action BindState BindEvent) :=
  actions (weakBindMachine info.ptrSize info.weakBind.behind) weakStart info.weakBind.bytes

def oldArm64eOpcodes (info : DyldInfo) (given : GivenCallbacks) : List (Action BindState BindCall) :=
  actions (oldArm64eMachine given info.bind.behind) {} info.bind.bytes

def ReachesLazyBinds (info : DyldInfo) (handlers : BindHandlers σ) (state begun : σ) : Prop :=
  ∃ fuel result, binds info fuel state handlers = some result ∧ result.failed = false ∧ result.state = begun

def ReachesWeakBinds (info : DyldInfo) (handlers : BindHandlers σ) (state begun : σ) : Prop :=
  ∃ middle, ReachesLazyBinds info handlers state middle ∧
    ∃ fuel result, lazyBinds info fuel middle handlers = some result ∧ result.failed = false ∧ result.state = begun

/-- All opcodes that are reached name operands inside their stream, as far as it matters, and counts that a counter
of 32 bits can reach or the handler stops before. -/
structure IsTame (info : DyldInfo) (rebaseHandler : Rebase → σ → σ × Answer) (handlers : BindHandlers σ)
    (callbacks : OldArm64eHandlers σ) (state : σ) : Prop where
  rebase : AllReached rebaseHandler (Fine rebaseHandler) (rebaseOpcodes info) state
  bind : AllReached handlers.answer (Fine handlers.answer) (bindOpcodes info) state
  lazyBind : ∀ begun, ReachesLazyBinds info handlers state begun →
    AllReached handlers.answer (Fine handlers.answer) (lazyBindOpcodes info) begun
  weakBind : ∀ begun, ReachesWeakBinds info handlers state begun →
    AllReached handlers.answer (Fine handlers.answer) (weakBindOpcodes info) begun
  oldArm64e : AllReached callbacks.answer (Fine callbacks.answer) (oldArm64eOpcodes info callbacks.given) state

/-! ## Each of the streams -/

theorem binds_settled : IsSettled fun fuel => binds info fuel state handlers := walk_settled

theorem lazyWalk_settled : IsSettled fun fuel => lazyWalk info fuel state handlers := walk_settled

theorem weakWalk_settled : IsSettled fun fuel => weakWalk info fuel state handlers := walk_settled

theorem lazyBinds_eq {fuel : ℕ} : lazyBinds info fuel state handlers =
    (lazyWalk info fuel state handlers).map (checkLazyBinds handlers) := by
  unfold lazyBinds
  split
  · next empty =>
      rw [lazyWalk, empty]
      cases fuel <;> rfl
  · rfl

theorem weakBinds_eq {fuel : ℕ} : weakBinds info fuel state handlers =
    (weakWalk info fuel state handlers).map Result.forget := by
  unfold weakBinds
  split
  · next empty =>
      rw [weakWalk, empty]
      cases fuel <;> rfl
  · rfl

theorem settled_map {ρ ρ' κ : Type} {run : ℕ → Option (Result ρ σ κ)} (settled : IsSettled run)
    (change : Result ρ σ κ → Result ρ' σ κ) : IsSettled fun fuel => (run fuel).map change := by
  intro fuel fuel' result more ran
  obtain ⟨first, whole, rfl⟩ := Option.map_eq_some_iff.1 ran
  exact Option.map_eq_some_iff.2 ⟨first, settled _ _ _ more whole, rfl⟩

theorem lazyBinds_settled : IsSettled fun fuel => lazyBinds info fuel state handlers := by
  simp only [lazyBinds_eq]
  exact settled_map lazyWalk_settled _

theorem weakBinds_settled : IsSettled fun fuel => weakBinds info fuel state handlers := by
  simp only [weakBinds_eq]
  exact settled_map weakWalk_settled _

theorem forEachBind_settled : IsSettled fun fuel => forEachBind info fuel state handlers :=
  andThen_settled binds_settled fun _ => andThen_settled lazyBinds_settled fun _ => weakBinds_settled

theorem checkLazyBinds_isClean_iff {lazies : Result LazyState σ BindEvent} :
    (checkLazyBinds handlers lazies).IsClean ↔ lazies.IsClean := by
  unfold checkLazyBinds
  split
  · constructor
    · intro clean
      refine ⟨fun among => clean.inside (List.mem_append_left _ among), fun before after events => ?_⟩
      obtain ⟨failed, quiet⟩ := clean.reported before (after ++ [.notice .missingLazyBind]) (by simp [events])
      exact ⟨failed, fun made stops among => quiet made stops (List.mem_append_left _ among)⟩
    · intro clean
      refine ⟨fun among => ?_, fun before after events => ?_⟩
      · rcases List.mem_append.1 among with within | notice
        · exact clean.inside within
        · cases List.mem_singleton.1 notice
      · rcases List.append_eq_append_iff.1 (show lazies.events ++ [.notice .missingLazyBind] = _ from events) with
          ⟨more, -, behind⟩ | ⟨more, earlier, behind⟩
        · rcases List.cons_eq_append_iff.1 behind with ⟨-, same⟩ | ⟨other, -, empty⟩
          · cases same
          · exact absurd empty (by simp)
        · cases more with
          | nil => cases behind
          | cons event more =>
              obtain ⟨rfl, rfl⟩ := List.cons.inj behind
              obtain ⟨failed, quiet⟩ := clean.reported before more earlier
              refine ⟨failed, fun made stops among => ?_⟩
              rcases List.mem_append.1 among with within | notice
              · exact quiet made stops within
              · cases List.mem_singleton.1 notice
  · exact ⟨fun clean => ⟨clean.inside, clean.reported⟩, fun clean => ⟨clean.inside, clean.reported⟩⟩

theorem lazyBinds_safe_iff : IsSafe (fun fuel => lazyBinds info fuel state handlers) ↔
    AllReached handlers.answer (Fine handlers.answer) (lazyBindOpcodes info) state := by
  rw [lazyBindOpcodes, ← walk_safe_iff]
  simp only [lazyBinds_eq]
  constructor
  · rintro ⟨fuel, result, run, clean⟩
    obtain ⟨lazies, ran, rfl⟩ := Option.map_eq_some_iff.1 run
    exact ⟨fuel, lazies, ran, checkLazyBinds_isClean_iff.1 clean⟩
  · rintro ⟨fuel, lazies, ran, clean⟩
    exact ⟨fuel, _, Option.map_eq_some_iff.2 ⟨lazies, ran, rfl⟩, checkLazyBinds_isClean_iff.2 clean⟩

theorem weakBinds_safe_iff : IsSafe (fun fuel => weakBinds info fuel state handlers) ↔
    AllReached handlers.answer (Fine handlers.answer) (weakBindOpcodes info) state := by
  rw [weakBindOpcodes, ← walk_safe_iff]
  simp only [weakBinds_eq]
  constructor
  · rintro ⟨fuel, result, run, clean⟩
    obtain ⟨weaks, ran, rfl⟩ := Option.map_eq_some_iff.1 run
    exact ⟨fuel, weaks, ran, clean.inside, clean.reported⟩
  · rintro ⟨fuel, weaks, ran, clean⟩
    exact ⟨fuel, _, Option.map_eq_some_iff.2 ⟨weaks, ran, rfl⟩, clean.inside, clean.reported⟩

theorem lazyBinds_honest {fuel : ℕ} {result : Result Unit σ BindEvent} (run : lazyBinds info fuel state handlers = some result) :
    result.IsHonest := by
  rw [lazyBinds_eq] at run
  obtain ⟨lazies, ran, rfl⟩ := Option.map_eq_some_iff.1 run
  have honest := walk_honest ran
  unfold checkLazyBinds
  split
  · intro truncated
    rcases List.mem_append.1 truncated with within | notice
    · exact (honest within).imp_right (List.mem_append_left _)
    · cases List.mem_singleton.1 notice
  · exact honest

theorem forEachBind_safe_iff : IsSafe (fun fuel => forEachBind info fuel state handlers) ↔
    AllReached handlers.answer (Fine handlers.answer) (bindOpcodes info) state ∧
      (∀ begun, ReachesLazyBinds info handlers state begun →
        AllReached handlers.answer (Fine handlers.answer) (lazyBindOpcodes info) begun) ∧
      ∀ begun, ReachesWeakBinds info handlers state begun →
        AllReached handlers.answer (Fine handlers.answer) (weakBindOpcodes info) begun := by
  refine (andThen_safe_iff binds_settled (fun _ => andThen_settled lazyBinds_settled fun _ => weakBinds_settled)
    fun fuel result run => walk_honest run).trans (and_congr walk_safe_iff ?_)
  have later : ∀ middle, IsSafe (andThen (fun fuel => lazyBinds info fuel middle handlers)
      fun state fuel => weakBinds info fuel state handlers) ↔
        AllReached handlers.answer (Fine handlers.answer) (lazyBindOpcodes info) middle ∧
          ∀ fuel result, lazyBinds info fuel middle handlers = some result → result.failed = false →
            AllReached handlers.answer (Fine handlers.answer) (weakBindOpcodes info) result.state := by
    intro middle
    rw [andThen_safe_iff lazyBinds_settled (fun _ => weakBinds_settled) fun fuel result run => lazyBinds_honest run,
      lazyBinds_safe_iff]
    simp only [weakBinds_safe_iff]
  simp only [later]
  constructor
  · intro rest
    refine ⟨?_, ?_⟩
    · rintro begun ⟨fuel, result, run, sound, rfl⟩
      exact (rest fuel result run sound).1
    · rintro begun ⟨middle, ⟨fuel, result, run, sound, rfl⟩, fuel', lazies, lazy_run, fine, rfl⟩
      exact (rest fuel result run sound).2 fuel' lazies lazy_run fine
  · rintro ⟨lazies, weaks⟩ fuel result run sound
    have reached : ReachesLazyBinds info handlers state result.state := ⟨fuel, result, run, sound, rfl⟩
    exact ⟨lazies _ reached, fun fuel' later lazy_run fine =>
      weaks _ ⟨_, reached, fuel', later, lazy_run, fine, rfl⟩⟩

/-- The interpreters are safe exactly on streams that are tame. -/
theorem isSafeFor_iff : IsSafeFor info rebaseHandler handlers callbacks state ↔
    IsTame info rebaseHandler handlers callbacks state := by
  have rebase : IsSafe (fun fuel => forEachRebase info fuel state rebaseHandler) ↔
      AllReached rebaseHandler (Fine rebaseHandler) (rebaseOpcodes info) state := walk_safe_iff
  have oldArm64e : IsSafe (fun fuel => parseOrgArm64eChainedFixups info fuel state callbacks) ↔
      AllReached callbacks.answer (Fine callbacks.answer) (oldArm64eOpcodes info callbacks.given) state := walk_safe_iff
  constructor
  · intro safe
    obtain ⟨bind, lazyBind, weakBind⟩ := forEachBind_safe_iff.1 safe.bind
    exact ⟨rebase.1 safe.rebase, bind, lazyBind, weakBind, oldArm64e.1 safe.oldArm64e⟩
  · intro tame
    exact ⟨rebase.2 tame.rebase, forEachBind_safe_iff.2 ⟨tame.bind, tame.lazyBind, tame.weakBind⟩,
      oldArm64e.2 tame.oldArm64e⟩

/-- Bind opcodes that end inside the name of a symbol. -/
def unnamed : DyldInfo where
  ptrSize := 8
  rebase := ⟨[], []⟩
  bind := ⟨[0x40, 0x5F], [0x61]⟩
  lazyBind := ⟨[], []⟩
  weakBind := ⟨[], []⟩

/-- Handlers that never stop and keep nothing. -/
def silent : BindHandlers Unit where
  handler _ state := (state, .goesOn)
  strongHandler _ state := state
  missingLazyBindHandler state := state

/-- The scan for the end of a name leaves the stream. -/
theorem unnamed_not_safe :
    ¬ IsSafeFor unnamed (fun _ state => (state, .goesOn)) silent ⟨none, none, none⟩ () := by
  intro safe
  obtain ⟨fuel, result, run, clean⟩ := safe.bind
  have known : (forEachBind unnamed 2 () silent).map (·.events) = some [.truncated, .outside] := by decide +kernel
  obtain ⟨other, ran, events⟩ := Option.map_eq_some_iff.1 known
  obtain rfl := forEachBind_settled.unique run ran
  exact clean.inside (events ▸ by decide)

end ObjcDyld.FixupOpcodes
