import ObjcDyld.Initialize.Ownership

/-!
# The calls of `initializeNonMetaClass`

A call owns its class from the state being set until the `+initialize` method returns; then its superclass
is initialized, or is on the list of the same thread.
-/

namespace ObjcDyld.Initialize

variable {Class : Type} {hierarchy : Hierarchy Class} {process process' : Process Class} {threads : ℕ → Thread Class}
  {thread other : ℕ} {frame : Frame Class} {stack stack' callers : List (Frame Class)} {cls : Class} {throwing : Bool}

/-- The call has set the state of its class, and its `+initialize` method has not returned. -/
def Phase.owns : Phase → Bool
  | .reallyInitialize | .callbacks | .callInitialize => true
  | _ => false

/-- The calls that own their class. -/
def owners (stack : List (Frame Class)) : List (Frame Class) := stack.filter fun frame => frame.phase.owns

/-- A call of the thread runs the `+initialize` method of the class, with the class on the thread's list. -/
def Runs (owned : ℕ → List (Frame Class)) (thread : ℕ) (cls : Class) : Prop :=
  ∃ frame ∈ owned thread, frame.cls = cls ∧ frame.phase ≠ .reallyInitialize

/-- A call is about to put the class on the list of its thread. -/
def Starts (owned : ℕ → List (Frame Class)) (cls : Class) : Prop := ∃ thread, ⟨cls, .reallyInitialize⟩ ∈ owned thread

def SuperReady (hierarchy : Hierarchy Class) (process : Process Class) (thread : ℕ) (cls : Class) : Prop :=
  ∀ supercls, hierarchy.superclass cls = some supercls → process.state supercls = .initialized ∨ Listed process thread supercls

/-- What a call knows at its place. -/
def Frame.Knows (hierarchy : Hierarchy Class) (process : Process Class) (thread : ℕ) (frame : Frame Class) : Prop :=
  match frame.phase with
  | .superclass | .inSuperclass => True
  | .setInitializing | .reallyInitialize | .callbacks | .callInitialize => SuperReady hierarchy process thread frame.cls
  | .isInitializing | .waitForInitializeToComplete => process.state frame.cls ≠ .uninitialized
  | .isInitialized => process.state frame.cls = .initialized

/-- A call for a superclass is called from the call for its subclass. -/
def Chained (hierarchy : Hierarchy Class) (stack : List (Frame Class)) : Prop :=
  stack.IsChain fun callee caller => caller.phase = .inSuperclass → hierarchy.superclass caller.cls = some callee.cls

theorem SuperReady.later (ready : SuperReady hierarchy process thread cls) (later : Later process process') :
    SuperReady hierarchy process' thread cls := by
  intro supercls superclass
  obtain initialized | listed := ready supercls superclass
  · exact .inl (later.initialized supercls initialized)
  · exact (later.listed thread supercls listed).symm

theorem Frame.Knows.later (knows : frame.Knows hierarchy process thread) (later : Later process process') :
    frame.Knows hierarchy process' thread := by
  obtain ⟨cls, phase⟩ := frame
  cases phase with
  | superclass => trivial
  | inSuperclass => trivial
  | setInitializing => exact SuperReady.later knows later
  | reallyInitialize => exact SuperReady.later knows later
  | callbacks => exact SuperReady.later knows later
  | callInitialize => exact SuperReady.later knows later
  | isInitializing => exact later.started cls knows
  | waitForInitializeToComplete => exact later.started cls knows
  | isInitialized => exact later.initialized cls knows

/-- The class is done as far as the caller, a call for a subclass, has to wait for it. -/
def Done (process : Process Class) (thread : ℕ) (cls : Class) : Prop := process.state cls = .initialized ∨ Listed process thread cls

theorem owners_returnTo (callers : List (Frame Class)) : owners (returnTo callers) = owners callers := by
  cases callers with
  | nil => rfl
  | cons caller callers =>
      obtain ⟨cls, phase⟩ := caller
      cases phase <;> rfl

theorem Chained.tail (chained : Chained hierarchy (frame :: callers)) : Chained hierarchy callers := List.IsChain.tail chained

theorem Chained.replace {frame' : Frame Class} (chained : Chained hierarchy (frame :: callers)) (same : frame'.cls = frame.cls) :
    Chained hierarchy (frame' :: callers) := by
  cases callers with
  | nil => exact List.IsChain.singleton _
  | cons caller callers =>
      obtain ⟨first, rest⟩ := List.isChain_cons_cons.mp chained
      exact List.isChain_cons_cons.mpr ⟨fun inside => (first inside).trans (congrArg some same.symm), rest⟩

theorem Chained.returnTo (chained : Chained hierarchy callers) : Chained hierarchy (returnTo callers) := by
  cases callers with
  | nil => exact chained
  | cons caller callers =>
      obtain ⟨cls, phase⟩ := caller
      cases phase with
      | inSuperclass => exact chained.replace rfl
      | _ => exact chained

theorem knows_returnTo (chained : Chained hierarchy (frame :: callers)) (done : Done process thread frame.cls)
    (knows : ∀ caller ∈ callers, caller.Knows hierarchy process thread) :
    ∀ caller ∈ returnTo callers, caller.Knows hierarchy process thread := by
  cases callers with
  | nil => exact knows
  | cons caller callers =>
      obtain ⟨cls, phase⟩ := caller
      cases phase with
      | inSuperclass =>
          intro caller member
          obtain rfl | member := List.mem_cons.mp member
          · intro supercls superclass
            have called := (List.isChain_cons_cons.mp chained).1 rfl
            obtain rfl := Option.some.inj (called.symm.trans superclass)
            exact done
          · exact knows caller (List.mem_cons_of_mem _ member)
      | _ => exact knows

/-- Each class has at most one owner, and `+initialize` was not sent before. -/
structure Held (hierarchy : Hierarchy Class) (process : Process Class) (owned : ℕ → List (Frame Class)) : Prop where
  classes : Owned hierarchy process (Runs owned) (Starts owned) 0 []
  nodup : ∀ thread, ((owned thread).map Frame.cls).Nodup
  apart : ∀ thread other, thread ≠ other → ∀ frame ∈ owned thread, ∀ frame' ∈ owned other, frame.cls ≠ frame'.cls
  owns : ∀ thread, ∀ frame ∈ owned thread, frame.phase.owns
  sent_nodup : process.sent.Nodup
  sent : ∀ cls ∈ process.sent, process.state cls ≠ .uninitialized ∧
    ∀ thread, ∀ frame ∈ owned thread, frame.cls = cls → frame.phase = .callInitialize

variable {owned : ℕ → List (Frame Class)} {rest : List (Frame Class)}

theorem Held.only (held : Held hierarchy process owned) (here : owned thread = frame :: rest) {frame' : Frame Class}
    (member : frame' ∈ owned other) (same : frame'.cls = frame.cls) : other = thread ∧ frame' = frame := by
  have mine : frame ∈ owned thread := here ▸ List.mem_cons_self
  obtain rfl : other = thread := by
    by_contra different
    exact held.apart other thread different frame' member frame mine same
  exact ⟨rfl, List.inj_on_of_nodup_map (held.nodup other) member mine same⟩

theorem Held.state (held : Held hierarchy process owned) (member : frame ∈ owned thread) :
    process.state frame.cls = .initializing := by
  by_cases start : frame.phase = .reallyInitialize
  · refine (held.classes.starting frame.cls ⟨thread, ?_⟩).1
    rw [← start]
    exact member
  · exact held.classes.listed_state thread frame.cls (held.classes.runs_listed thread frame.cls ⟨frame, member, rfl, start⟩)

theorem Held.nodup_update (held : Held hierarchy process owned) {changed : List (Frame Class)}
    (nodup : (changed.map Frame.cls).Nodup)
    (known : ∀ frame ∈ changed, (∃ before ∈ owned thread, before.cls = frame.cls) ∨ process.state frame.cls = .uninitialized) :
    (∀ thread', ((Function.update owned thread changed thread').map Frame.cls).Nodup) ∧
      ∀ first second, first ≠ second → ∀ frame ∈ Function.update owned thread changed first,
        ∀ frame' ∈ Function.update owned thread changed second, frame.cls ≠ frame'.cls := by
  have apart (other : ℕ) (different : other ≠ thread) (frame : Frame Class) (member : frame ∈ changed) (frame' : Frame Class)
      (member' : frame' ∈ owned other) : frame.cls ≠ frame'.cls := by
    intro same
    obtain ⟨before, inside, eq⟩ | fresh := known frame member
    · exact held.apart other thread different frame' member' before inside (same.symm.trans eq.symm)
    · rw [same, held.state member'] at fresh
      exact nomatch fresh
  constructor
  · intro thread'
    by_cases same : thread' = thread
    · rw [same, Function.update_self]
      exact nodup
    · rw [Function.update_of_ne same]
      exact held.nodup thread'
  · intro first second different frame member frame' member'
    by_cases here : first = thread
    · subst here
      rw [Function.update_self] at member
      rw [Function.update_of_ne (Ne.symm different)] at member'
      exact apart second (Ne.symm different) frame member frame' member'
    · rw [Function.update_of_ne here] at member
      by_cases there : second = thread
      · subst there
        rw [Function.update_self] at member'
        exact (apart first here frame' member' frame member).symm
      · rw [Function.update_of_ne there] at member'
        exact held.apart first second different frame member frame' member'

theorem Held.mem_replace_iff (held : Held hierarchy process owned) (here : owned thread = frame :: rest) {frame' : Frame Class}
    (same : frame'.cls = frame.cls) (thread' : ℕ) (before : Frame Class) :
    before ∈ Function.update owned thread (frame' :: rest) thread' ↔
      before ∈ owned thread' ∧ before.cls ≠ frame.cls ∨ thread' = thread ∧ before = frame' := by
  by_cases mine : thread' = thread
  · subst mine
    rw [Function.update_self, List.mem_cons, here, List.mem_cons]
    constructor
    · rintro (rfl | inside)
      · exact .inr ⟨rfl, rfl⟩
      · refine .inl ⟨.inr inside, fun eq => ?_⟩
        have nodup := held.nodup thread'
        rw [here, List.map_cons, List.nodup_cons] at nodup
        exact nodup.1 (eq ▸ List.mem_map_of_mem inside)
    · rintro (⟨rfl | inside, different⟩ | ⟨-, rfl⟩)
      · exact absurd rfl different
      · exact .inr inside
      · exact .inl rfl
  · rw [Function.update_of_ne mine]
    constructor
    · exact fun inside => .inl ⟨inside, fun eq => mine (held.only here inside eq).1⟩
    · rintro (⟨inside, -⟩ | ⟨eq, -⟩)
      · exact inside
      · exact absurd eq mine

theorem Held.nodup_replace (held : Held hierarchy process owned) (here : owned thread = frame :: rest) {frame' : Frame Class}
    (same : frame'.cls = frame.cls) :
    (∀ thread', ((Function.update owned thread (frame' :: rest) thread').map Frame.cls).Nodup) ∧
      ∀ first second, first ≠ second → ∀ before ∈ Function.update owned thread (frame' :: rest) first,
        ∀ after ∈ Function.update owned thread (frame' :: rest) second, before.cls ≠ after.cls := by
  have nodup := held.nodup thread
  rw [here, List.map_cons, ← same] at nodup
  refine held.nodup_update nodup fun before member => .inl ?_
  rw [here]
  obtain rfl | inside := List.mem_cons.mp member
  · exact ⟨frame, List.mem_cons_self, same.symm⟩
  · exact ⟨before, List.mem_cons_of_mem _ inside, rfl⟩

theorem Held.mem_pop_iff (held : Held hierarchy process owned) (here : owned thread = frame :: rest) (thread' : ℕ)
    (before : Frame Class) :
    before ∈ Function.update owned thread rest thread' ↔ before ∈ owned thread' ∧ before.cls ≠ frame.cls := by
  by_cases mine : thread' = thread
  · subst mine
    rw [Function.update_self, here, List.mem_cons]
    constructor
    · intro inside
      refine ⟨.inr inside, fun eq => ?_⟩
      have nodup := held.nodup thread'
      rw [here, List.map_cons, List.nodup_cons] at nodup
      exact nodup.1 (eq ▸ List.mem_map_of_mem inside)
    · rintro ⟨rfl | inside, different⟩
      · exact absurd rfl different
      · exact inside
  · rw [Function.update_of_ne mine]
    exact (and_iff_left_of_imp fun inside eq => mine (held.only here inside eq).1).symm

variable [DecidableEq Class] {list : InitializingClasses Class}

theorem Held.setInitializing (held : Held hierarchy process owned) (fresh : process.state cls = .uninitialized) :
    Held hierarchy { process with state := Function.update process.state cls .initializing }
      (Function.update owned thread (⟨cls, .reallyInitialize⟩ :: owned thread)) := by
  have unowned (thread' : ℕ) (frame : Frame Class) (member : frame ∈ owned thread') : frame.cls ≠ cls := by
    rintro rfl
    exact nomatch fresh.symm.trans (held.state member)
  have changed (thread' : ℕ) (frame : Frame Class) :
      frame ∈ Function.update owned thread (⟨cls, .reallyInitialize⟩ :: owned thread) thread' ↔
        frame ∈ owned thread' ∨ thread' = thread ∧ frame = ⟨cls, .reallyInitialize⟩ := by
    by_cases mine : thread' = thread
    · subst mine
      rw [Function.update_self, List.mem_cons, or_comm]
      simp
    · rw [Function.update_of_ne mine]
      simp [mine]
  obtain ⟨nodup, apart⟩ := @Held.nodup_update _ _ _ thread _ held (⟨cls, .reallyInitialize⟩ :: owned thread)
    (List.nodup_cons.mpr ⟨fun member => by
      obtain ⟨frame, inside, same⟩ := List.mem_map.mp member
      exact unowned thread frame inside same, held.nodup thread⟩)
    fun frame member => by
      obtain rfl | inside := List.mem_cons.mp member
      · exact .inr fresh
      · exact .inl ⟨frame, inside, rfl⟩
  refine ⟨(held.classes.setInitializing fresh).congr (fun thread' other => ?_) fun other => ?_, nodup, apart,
    fun thread' frame member => ?_, held.sent_nodup, fun other member => ?_⟩
  · refine exists_congr fun frame => ?_
    rw [changed]
    constructor
    · rintro ⟨member | ⟨-, rfl⟩, same, recorded⟩
      · exact ⟨member, same, recorded⟩
      · exact absurd rfl recorded
    · rintro ⟨member, same, recorded⟩
      exact ⟨.inl member, same, recorded⟩
  · constructor
    · rintro ⟨thread', member⟩
      obtain member | ⟨-, eq⟩ := (changed thread' _).mp member
      · exact .inl ⟨thread', member⟩
      · exact .inr (congrArg Frame.cls eq)
    · rintro (⟨thread', member⟩ | rfl)
      · exact ⟨thread', (changed thread' _).mpr (.inl member)⟩
      · exact ⟨thread, (changed thread _).mpr (.inr ⟨rfl, rfl⟩)⟩
  · obtain member | ⟨-, rfl⟩ := (changed thread' frame).mp member
    · exact held.owns thread' frame member
    · rfl
  · obtain ⟨started, called⟩ := held.sent other member
    have different : other ≠ cls := by
      rintro rfl
      exact started fresh
    refine ⟨?_, fun thread' frame inside same => ?_⟩
    · show Function.update process.state cls .initializing other ≠ _
      rwa [Function.update_of_ne different]
    · obtain inside | ⟨-, rfl⟩ := (changed thread' frame).mp inside
      · exact called thread' frame inside same
      · exact absurd same.symm different

theorem Held.record (held : Held hierarchy process owned) (here : owned thread = ⟨cls, .reallyInitialize⟩ :: rest) :
    ∃ list, setThisThreadIsInitializingClass (process.lists thread) cls = .ok list ∧
      Held hierarchy { process with lists := Function.update process.lists thread list }
        (Function.update owned thread (⟨cls, .callbacks⟩ :: rest)) ∧
      Later process { process with lists := Function.update process.lists thread list } := by
  have start : Starts owned cls := ⟨thread, here ▸ List.mem_cons_self⟩
  have unlisted := (held.classes.starting cls start).2
  obtain ⟨list, added, perm⟩ := setThisThreadIsInitializingClass_perm (unlisted thread)
  have owner (thread' : ℕ) (before : Frame Class) :=
    @Held.mem_replace_iff _ _ _ _ _ _ _ held here ⟨cls, .callbacks⟩ rfl thread' before
  obtain ⟨nodup, apart⟩ := @Held.nodup_replace _ _ _ _ _ _ _ held here ⟨cls, .callbacks⟩ rfl
  refine ⟨list, added, ⟨(held.classes.any thread |>.record start perm).any 0 |>.congr (fun thread' other => ?_) fun other => ?_, nodup,
    apart, fun thread' frame member => ?_, held.sent_nodup, fun other member => ⟨(held.sent other member).1, fun thread' frame inside same => ?_⟩⟩,
    ⟨fun _ => id, fun _ => id, fun thread' other listed => .inl ?_⟩⟩
  · constructor
    · rintro ⟨frame, member, same, recorded⟩
      obtain ⟨inside, -⟩ | ⟨mine, rfl⟩ := (owner thread' frame).mp member
      · exact .inl ⟨frame, inside, same, recorded⟩
      · exact .inr ⟨mine, same.symm⟩
    · rintro (⟨frame, inside, same, recorded⟩ | ⟨rfl, rfl⟩)
      · refine ⟨frame, (owner thread' frame).mpr (.inl ⟨inside, fun eq => ?_⟩), same, recorded⟩
        rw [(held.only here inside eq).2] at recorded
        exact recorded rfl
      · exact ⟨_, (owner thread' _).mpr (.inr ⟨rfl, rfl⟩), rfl, nofun⟩
  · constructor
    · rintro ⟨thread', member⟩
      obtain ⟨inside, different⟩ | ⟨-, eq⟩ := (owner thread' _).mp member
      · exact ⟨⟨thread', inside⟩, different⟩
      · exact nomatch congrArg Frame.phase eq
    · rintro ⟨⟨thread', inside⟩, different⟩
      exact ⟨thread', (owner thread' _).mpr (.inl ⟨inside, different⟩)⟩
  · obtain ⟨inside, -⟩ | ⟨-, rfl⟩ := (owner thread' frame).mp member
    · exact held.owns thread' frame inside
    · rfl
  · obtain ⟨inside, -⟩ | ⟨-, rfl⟩ := (owner thread' frame).mp inside
    · exact (held.sent other member).2 thread' frame inside same
    · obtain rfl : cls = other := same
      exact nomatch (held.sent cls member).2 thread ⟨cls, .reallyInitialize⟩ (here ▸ List.mem_cons_self) rfl
  · show some other ∈ Function.update process.lists thread list thread'
    by_cases mine : thread' = thread
    · subst mine
      rw [Function.update_self, ← mem_classes_iff, perm.mem_iff]
      exact List.mem_cons_of_mem _ (mem_classes_iff.mpr listed)
    · rwa [Function.update_of_ne mine]

theorem Held.send (held : Held hierarchy process owned) (here : owned thread = ⟨cls, .callbacks⟩ :: rest) :
    Held hierarchy { process with sent := process.sent ++ [cls] } (Function.update owned thread (⟨cls, .callInitialize⟩ :: rest)) := by
  have mine : (⟨cls, .callbacks⟩ : Frame Class) ∈ owned thread := here ▸ List.mem_cons_self
  have owner (thread' : ℕ) (before : Frame Class) :=
    @Held.mem_replace_iff _ _ _ _ _ _ _ held here ⟨cls, .callInitialize⟩ rfl thread' before
  obtain ⟨nodup, apart⟩ := @Held.nodup_replace _ _ _ _ _ _ _ held here ⟨cls, .callInitialize⟩ rfl
  have classes : Owned hierarchy { process with sent := process.sent ++ [cls] } (Runs owned) (Starts owned) 0 [] :=
    { held.classes with }
  refine ⟨classes.congr (fun thread' other => ?_) fun other => ?_, nodup, apart, fun thread' frame member => ?_, ?_, fun other member => ?_⟩
  · constructor
    · rintro ⟨frame, member, same, recorded⟩
      obtain ⟨inside, -⟩ | ⟨rfl, rfl⟩ := (owner thread' frame).mp member
      · exact ⟨frame, inside, same, recorded⟩
      · exact ⟨_, mine, same, nofun⟩
    · rintro ⟨frame, inside, same, recorded⟩
      by_cases eq : frame.cls = cls
      · obtain ⟨rfl, rfl⟩ := held.only here inside eq
        exact ⟨_, (owner thread' _).mpr (.inr ⟨rfl, rfl⟩), same, nofun⟩
      · exact ⟨frame, (owner thread' frame).mpr (.inl ⟨inside, eq⟩), same, recorded⟩
  · constructor
    · rintro ⟨thread', member⟩
      obtain ⟨inside, -⟩ | ⟨-, eq⟩ := (owner thread' _).mp member
      · exact ⟨thread', inside⟩
      · exact nomatch congrArg Frame.phase eq
    · rintro ⟨thread', inside⟩
      refine ⟨thread', (owner thread' _).mpr (.inl ⟨inside, fun eq => ?_⟩)⟩
      exact nomatch congrArg Frame.phase (held.only here inside eq).2
  · obtain ⟨inside, -⟩ | ⟨-, rfl⟩ := (owner thread' frame).mp member
    · exact held.owns thread' frame inside
    · rfl
  · refine List.nodup_append.mpr ⟨held.sent_nodup, List.nodup_singleton _, fun other member _ last => ?_⟩
    rintro rfl
    obtain rfl := List.mem_singleton.mp last
    exact nomatch (held.sent other member).2 thread _ mine rfl
  · obtain member | last := List.mem_append.mp member
    · obtain ⟨started, called⟩ := held.sent other member
      refine ⟨started, fun thread' frame inside same => ?_⟩
      obtain ⟨inside, -⟩ | ⟨-, rfl⟩ := (owner thread' frame).mp inside
      · exact called thread' frame inside same
      · rfl
    · obtain rfl := List.mem_singleton.mp last
      refine ⟨?_, fun thread' frame inside same => ?_⟩
      · show process.state other ≠ _
        rw [held.state mine]
        exact nofun
      · obtain ⟨-, different⟩ | ⟨-, rfl⟩ := (owner thread' frame).mp inside
        · exact absurd same different
        · rfl

theorem Held.finish (held : Held hierarchy process owned) (here : owned thread = ⟨cls, .callInitialize⟩ :: rest)
    (ready : SuperReady hierarchy process thread cls) :
    ∃ process', lockAndFinishInitializing hierarchy thread { process with returned := process.returned ++ [cls] } cls = .ok process' ∧
      Held hierarchy process' (Function.update owned thread rest) ∧ Later process process' ∧ Done process' thread cls := by
  have mine : (⟨cls, .callInitialize⟩ : Frame Class) ∈ owned thread := here ▸ List.mem_cons_self
  have run : Runs owned thread cls := ⟨_, mine, rfl, nofun⟩
  have owner (thread' : ℕ) (before : Frame Class) := held.mem_pop_iff here thread' before
  have same_runs (thread' : ℕ) (other : Class) : Runs (Function.update owned thread rest) thread' other ↔
      Runs owned thread' other ∧ other ≠ cls := by
    constructor
    · rintro ⟨frame, member, same, recorded⟩
      obtain ⟨inside, different⟩ := (owner thread' frame).mp member
      exact ⟨⟨frame, inside, same, recorded⟩, same ▸ different⟩
    · rintro ⟨⟨frame, inside, same, recorded⟩, different⟩
      exact ⟨frame, (owner thread' frame).mpr ⟨inside, same ▸ different⟩, same, recorded⟩
  have same_starts (other : Class) : Starts (Function.update owned thread rest) other ↔ Starts owned other := by
    refine exists_congr fun thread' => (owner thread' _).trans (and_iff_left_of_imp fun inside eq => ?_)
    exact nomatch congrArg Frame.phase (held.only here inside eq).2
  have nodup : ((owned thread).map Frame.cls).Nodup := held.nodup thread
  rw [here] at nodup
  obtain ⟨nodup, apart⟩ := @Held.nodup_update _ _ _ thread _ held rest (List.nodup_cons.mp nodup).2 fun before inside =>
    .inl ⟨before, here ▸ List.mem_cons_of_mem _ inside, rfl⟩
  have result {process' : Process Class} (classes : Owned hierarchy process' (fun thread' other => Runs owned thread' other ∧ other ≠ cls)
      (Starts owned) thread []) (later : Later process process') (sent : process'.sent = process.sent) :
      Held hierarchy process' (Function.update owned thread rest) := by
    refine ⟨(classes.any 0).congr same_runs same_starts, nodup, apart,
      fun thread' frame member => held.owns thread' frame ((owner thread' frame).mp member).1, sent ▸ held.sent_nodup, fun other member => ?_⟩
    obtain ⟨started, called⟩ := held.sent other (sent ▸ member)
    exact ⟨later.started other started, fun thread' frame member => called thread' frame ((owner thread' frame).mp member).1⟩
  -- the superclass is initialized, so the class is marked
  have marked (initialized : ∀ supercls, hierarchy.superclass cls = some supercls → process.state supercls = .initialized) :
      ∃ process', finishInitializing thread (process.pendingInitializeMap.length + 1)
          { process with returned := process.returned ++ [cls] } cls (hierarchy.superclass cls) = .ok process' ∧
        Held hierarchy process' (Function.update owned thread rest) ∧ Later process process' ∧ Done process' thread cls := by
    obtain ⟨process', finished, classes, after⟩ :=
      ((held.classes.any thread).returned run initialized).finish (Nat.lt_succ_self process.pendingInitializeMap.length)
    have later : Later process process' := ⟨after.later.started, after.later.initialized, after.later.listed⟩
    exact ⟨process', finished, result classes later after.sent, later, .inl after.marked⟩
  rw [lockAndFinishInitializing]
  cases superclass : hierarchy.superclass cls with
  | none =>
      rw [superclass] at marked
      exact marked fun _ eq => nomatch eq
  | some supercls =>
      by_cases initialized : process.state supercls = .initialized
      · rw [superclass] at marked
        simp only [initialized, if_true]
        refine marked fun supercls' eq => ?_
        obtain rfl := Option.some.inj eq
        exact initialized
      · have listed := (ready supercls superclass).resolve_left initialized
        have classes := (held.classes.any thread).finishAfter run superclass listed
        have later : Later process
            (finishInitializingAfter { process with returned := process.returned ++ [cls] } cls supercls) :=
          ⟨fun _ => id, fun _ => id, fun _ _ => .inl⟩
        simp only [initialized, if_false]
        exact ⟨_, rfl, result classes later rfl, later, .inr (held.classes.runs_listed thread cls run)⟩

end ObjcDyld.Initialize
