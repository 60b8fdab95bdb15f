import ObjcDyld.Initialize.Owners

/-!
# Runs of `initializeNonMetaClass`

Every step of a thread keeps who owns a class, and what each call knows about its superclass. So in
every run `+initialize` is sent for a class once, a class is marked after its superclass, and no access
to the list of a thread is fatal.
-/

namespace ObjcDyld.Initialize

variable {Class : Type} {hierarchy : Hierarchy Class} {process process' : Process Class} {system system' : System Class} {thread : ℕ}
  {frame : Frame Class} {stack stack' callers : List (Frame Class)} {cls : Class} {throwing : Bool}

/-- The calls of each thread that own their class. -/
def ownersOf (threads : ℕ → Thread Class) (thread : ℕ) : List (Frame Class) := owners (threads thread).stack

structure Inv (hierarchy : Hierarchy Class) (system : System Class) : Prop where
  held : Held hierarchy system.process (ownersOf system.threads)
  knows : ∀ thread, ∀ frame ∈ (system.threads thread).stack, frame.Knows hierarchy system.process thread
  chained : ∀ thread, Chained hierarchy (system.threads thread).stack

theorem owners_cons_of_free (free : frame.phase.owns = false) : owners (frame :: callers) = owners callers := by
  rw [owners, List.filter_cons, free]
  rfl

theorem ownersOf_update (threads : ℕ → Thread Class) (thread : ℕ) (changed : Thread Class) :
    ownersOf (Function.update threads thread changed) = Function.update (ownersOf threads) thread (owners changed.stack) := by
  funext other
  by_cases same : other = thread
  · subst same
    rw [ownersOf, Function.update_self, Function.update_self]
  · rw [ownersOf, Function.update_of_ne same, Function.update_of_ne same, ownersOf]

theorem Inv.update (inv : Inv hierarchy system) (throwing : Bool)
    (held : Held hierarchy process' (Function.update (ownersOf system.threads) thread (owners stack')))
    (later : Later system.process process') (knows : ∀ frame ∈ stack', frame.Knows hierarchy process' thread)
    (chained : Chained hierarchy stack') :
    Inv hierarchy ⟨process', Function.update system.threads thread ⟨stack', throwing⟩⟩ := by
  have mine : Function.update system.threads thread ⟨stack', throwing⟩ thread = ⟨stack', throwing⟩ := Function.update_self ..
  have others {other : ℕ} (different : other ≠ thread) :
      Function.update system.threads thread ⟨stack', throwing⟩ other = system.threads other :=
    Function.update_of_ne different ..
  refine ⟨?_, fun other => ?_, fun other => ?_⟩
  · show Held hierarchy process' (ownersOf (Function.update system.threads thread ⟨stack', throwing⟩))
    rw [ownersOf_update]
    exact held
  · show ∀ frame ∈ (Function.update system.threads thread ⟨stack', throwing⟩ other).stack, frame.Knows hierarchy process' other
    by_cases same : other = thread
    · rw [same, mine]
      exact knows
    · rw [others same]
      exact fun frame member => (inv.knows other frame member).later later
  · show Chained hierarchy (Function.update system.threads thread ⟨stack', throwing⟩ other).stack
    by_cases same : other = thread
    · rw [same, mine]
      exact chained
    · rw [others same]
      exact inv.chained other

theorem Inv.move (inv : Inv hierarchy system) (throwing : Bool) (same : owners stack' = owners (system.threads thread).stack)
    (knows : ∀ frame ∈ stack', frame.Knows hierarchy system.process thread) (chained : Chained hierarchy stack') :
    Inv hierarchy ⟨system.process, Function.update system.threads thread ⟨stack', throwing⟩⟩ := by
  refine inv.update throwing ?_ (Later.refl _) knows chained
  rw [same]
  exact (Function.update_eq_self thread (ownersOf system.threads)).symm ▸ inv.held

theorem start_inv (hierarchy : Hierarchy Class) : Inv hierarchy .start := by
  refine ⟨⟨⟨fun _ => List.nodup_nil, nofun, nofun, ?_, nofun, nofun, List.nodup_nil, nofun, List.nodup_nil, nofun, nofun, nofun, nofun,
    nofun, ?_⟩, fun _ => List.nodup_nil, nofun, nofun, List.nodup_nil, nofun⟩, nofun, fun _ => List.IsChain.nil⟩
  · rintro thread cls ⟨frame, member, -⟩
    exact nomatch member
  · rintro cls ⟨thread, member⟩
    exact nomatch member

/-- The thread runs the class: one of its calls has set the state of the class, and the `+initialize` method has not returned. -/
def RunsClass (system : System Class) (thread : ℕ) (cls : Class) : Prop :=
  ∃ frame ∈ (system.threads thread).stack, frame.cls = cls ∧ frame.phase.owns

/-- The class is put off until a superclass is marked that the thread is initializing. -/
def PutOff (hierarchy : Hierarchy Class) (system : System Class) (thread : ℕ) (supercls cls : Class) : Prop :=
  hierarchy.superclass cls = some supercls ∧ (supercls, cls) ∈ system.process.pendingInitializeMap ∧
    system.process.state supercls = .initializing ∧ Listed system.process thread supercls ∧ Listed system.process thread cls

theorem Inv.runsClass_unique (inv : Inv hierarchy system) {other : ℕ} (run : RunsClass system thread cls) (run' : RunsClass system other cls) :
    other = thread := by
  obtain ⟨frame, member, rfl, owns⟩ := run
  obtain ⟨frame', member', same, owns'⟩ := run'
  by_contra different
  exact inv.held.apart other thread different frame' (List.mem_filter.mpr ⟨member', owns'⟩) frame (List.mem_filter.mpr ⟨member, owns⟩) same

theorem Inv.initializing (inv : Inv hierarchy system) (initializing : system.process.state cls = .initializing) :
    (∃! thread, RunsClass system thread cls) ∨ ∃ thread supercls, PutOff hierarchy system thread supercls cls := by
  have runs {thread : ℕ} {frame : Frame Class} (member : frame ∈ ownersOf system.threads thread) (same : frame.cls = cls) :
      ∃! thread, RunsClass system thread cls := by
    have run : RunsClass system thread cls := ⟨frame, (List.mem_filter.mp member).1, same, (List.mem_filter.mp member).2⟩
    exact ⟨thread, run, fun other => inv.runsClass_unique run⟩
  obtain ⟨thread, listed⟩ | ⟨thread, member⟩ := inv.held.classes.initializing cls initializing
  · obtain ⟨frame, member, same, -⟩ | pending | ⟨-, impossible⟩ := inv.held.classes.listed_cases thread cls listed
    · exact .inl (runs member same)
    · obtain ⟨⟨supercls, _⟩, pair, rfl⟩ := List.mem_map.mp pending
      obtain ⟨superclass, -, thread', here, super_here⟩ := inv.held.classes.pending supercls _ pair
      exact .inr ⟨thread', supercls, superclass, pair, inv.held.classes.listed_state thread' supercls super_here, super_here, here⟩
    · exact nomatch impossible
  · exact .inl (runs member rfl)

theorem Inv.idle (inv : Inv hierarchy system) (empty : ∀ thread, (system.threads thread).stack = []) (cls : Class) :
    system.process.state cls ≠ .initializing := by
  induction cls using hierarchy.acyclic.induction with
  | _ cls ih =>
      intro initializing
      obtain ⟨thread, ⟨frame, member, -⟩, -⟩ | ⟨-, supercls, superclass, -, waits, -⟩ := inv.initializing initializing
      · rw [empty thread] at member
        exact nomatch member
      · exact ih supercls superclass waits

theorem Inv.return (inv : Inv hierarchy system) (running : system.threads thread = ⟨frame :: callers, throwing⟩)
    (free : frame.phase.owns = false) (done : Done system.process thread frame.cls) :
    Inv hierarchy ⟨system.process, Function.update system.threads thread ⟨returnTo callers, false⟩⟩ := by
  have knows := inv.knows thread
  have chained := inv.chained thread
  rw [running] at knows chained
  refine inv.move false ?_ (knows_returnTo chained done fun caller member => knows caller (List.mem_cons_of_mem _ member))
    chained.tail.returnTo
  rw [owners_returnTo, running, owners_cons_of_free free]

variable [DecidableEq Class]

theorem later_setInitializing (fresh : process.state cls = .uninitialized) :
    Later process { process with state := Function.update process.state cls .initializing } := by
  have same {other : Class} (started : process.state other ≠ .uninitialized) :
      Function.update process.state cls .initializing other = process.state other :=
    Function.update_of_ne (by rintro rfl; exact started fresh) ..
  refine ⟨fun other started => ?_, fun other initialized => ?_, fun _ _ => .inl⟩
  · exact (same started).trans_ne started
  · exact (same (by rw [initialized]; exact nofun)).trans initialized

theorem Inv.advance (inv : Inv hierarchy system) (running : system.threads thread = ⟨frame :: callers, false⟩)
    (result : Except Fault (Process Class × List (Frame Class)))
    (step : advance hierarchy thread system.process frame callers = some result) :
    ∃ process' stack', result = .ok (process', stack') ∧
      Inv hierarchy ⟨process', Function.update system.threads thread ⟨stack', false⟩⟩ := by
  have knows := inv.knows thread
  have chained := inv.chained thread
  have same : ownersOf system.threads thread = owners (frame :: callers) := by rw [ownersOf, running]
  rw [running] at knows chained
  have known := knows frame List.mem_cons_self
  have beyond (caller : Frame Class) (member : caller ∈ callers) : caller.Knows hierarchy system.process thread :=
    knows caller (List.mem_cons_of_mem _ member)
  obtain ⟨cls, phase⟩ := frame
  -- a call that is not an owner goes on
  have goOn (phase' : Phase) (free : phase.owns = false) (free' : phase'.owns = false)
      (knows' : Frame.Knows hierarchy system.process thread ⟨cls, phase'⟩) :
      Inv hierarchy ⟨system.process, Function.update system.threads thread ⟨⟨cls, phase'⟩ :: callers, false⟩⟩ := by
    refine inv.move false ?_ (List.forall_mem_cons.mpr ⟨knows', beyond⟩) (chained.replace rfl)
    rw [running, owners_cons_of_free free', owners_cons_of_free free]
  cases phase with
  | superclass =>
      rw [Initialize.advance] at step
      cases superclass : hierarchy.superclass cls with
      | none =>
          rw [superclass] at step
          obtain rfl := Option.some.inj step
          exact ⟨_, _, rfl, goOn .setInitializing rfl rfl fun _ eq => nomatch superclass.symm.trans eq⟩
      | some supercls =>
          simp only [superclass] at step
          split at step
          next initialized =>
            obtain rfl := Option.some.inj step
            refine ⟨_, _, rfl, goOn .setInitializing rfl rfl fun supercls' eq => .inl ?_⟩
            obtain rfl := Option.some.inj (superclass.symm.trans eq)
            exact initialized
          next =>
            obtain rfl := Option.some.inj step
            refine ⟨_, _, rfl, inv.move false ?_ (List.forall_mem_cons.mpr ⟨trivial, List.forall_mem_cons.mpr ⟨trivial, beyond⟩⟩)
              (List.isChain_cons_cons.mpr ⟨fun _ => superclass, chained.replace rfl⟩)⟩
            rw [running]
            rfl
  | inSuperclass => exact nomatch step
  | setInitializing =>
      rw [Initialize.advance] at step
      split at step
      next fresh =>
        obtain rfl := Option.some.inj step
        have held := @Held.setInitializing _ _ _ thread cls _ _ inv.held fresh
        have later := later_setInitializing fresh
        refine ⟨_, _, rfl, inv.update false ?_ later (List.forall_mem_cons.mpr ⟨SuperReady.later known later, fun caller member =>
          (beyond caller member).later later⟩) (chained.replace rfl)⟩
        rw [same] at held
        exact held
      next started =>
        obtain rfl := Option.some.inj step
        exact ⟨_, _, rfl, goOn .isInitializing rfl rfl started⟩
  | reallyInitialize =>
      obtain ⟨list, added, held, later⟩ := inv.held.record same
      simp only [Initialize.advance, added] at step
      obtain rfl := Option.some.inj step
      exact ⟨_, _, rfl, inv.update false held later (List.forall_mem_cons.mpr ⟨SuperReady.later known later, fun caller member =>
        (beyond caller member).later later⟩) (chained.replace rfl)⟩
  | callbacks =>
      obtain rfl := Option.some.inj step
      have later : Later system.process { system.process with sent := system.process.sent ++ [cls] } :=
        ⟨fun _ => id, fun _ => id, fun _ _ => .inl⟩
      exact ⟨_, _, rfl, inv.update false (inv.held.send same) later (List.forall_mem_cons.mpr ⟨SuperReady.later known later,
        fun caller member => (beyond caller member).later later⟩) (chained.replace rfl)⟩
  | callInitialize => exact nomatch step
  | isInitializing =>
      rw [Initialize.advance] at step
      split at step
      next =>
        split at step
        next mine =>
          obtain rfl := Option.some.inj step
          exact ⟨_, _, rfl, inv.return running rfl (.inr (of_decide_eq_true (p := some cls ∈ system.process.lists thread) mine))⟩
        next =>
          obtain rfl := Option.some.inj step
          exact ⟨_, _, rfl, goOn .waitForInitializeToComplete rfl rfl known⟩
      next stopped =>
        obtain rfl := Option.some.inj step
        refine ⟨_, _, rfl, goOn .isInitialized rfl rfl ?_⟩
        show system.process.state cls = .initialized
        cases state : system.process.state cls with
        | uninitialized => exact absurd state known
        | initializing => exact absurd state stopped
        | initialized => rfl
  | waitForInitializeToComplete =>
      rw [Initialize.advance] at step
      split at step
      next initialized =>
        obtain rfl := Option.some.inj step
        exact ⟨_, _, rfl, inv.return running rfl (.inl initialized)⟩
      next => exact nomatch step
  | isInitialized =>
      have initialized : system.process.state cls = .initialized := known
      rw [Initialize.advance, if_pos initialized] at step
      obtain rfl := Option.some.inj step
      exact ⟨_, _, rfl, inv.return running rfl (.inl initialized)⟩

theorem Inv.finish (inv : Inv hierarchy system) (running : system.threads thread = ⟨⟨cls, .callInitialize⟩ :: callers, throwing⟩) :
    ∃ process', lockAndFinishInitializing hierarchy thread { system.process with returned := system.process.returned ++ [cls] } cls =
        .ok process' ∧
      Inv hierarchy ⟨process', Function.update system.threads thread ⟨callers, true⟩⟩ ∧
      Inv hierarchy ⟨process', Function.update system.threads thread ⟨returnTo callers, false⟩⟩ := by
  have knows := inv.knows thread
  have chained := inv.chained thread
  have same : ownersOf system.threads thread = ⟨cls, .callInitialize⟩ :: owners callers := by
    rw [ownersOf, running]
    rfl
  rw [running] at knows chained
  obtain ⟨process', finished, held, later, done⟩ := inv.held.finish same (knows _ List.mem_cons_self)
  have beyond (caller : Frame Class) (member : caller ∈ callers) : caller.Knows hierarchy process' thread :=
    (knows caller (List.mem_cons_of_mem _ member)).later later
  refine ⟨process', finished, inv.update true held later beyond chained.tail,
    inv.update false ?_ later (knows_returnTo chained done beyond) chained.tail.returnTo⟩
  rw [owners_returnTo]
  exact held

theorem Inv.act (inv : Inv hierarchy system) {action : Action Class} {result : Except Fault (System Class)}
    (step : act hierarchy system thread action = some result) : ∃ system', result = .ok system' ∧ Inv hierarchy system' := by
  have knows := inv.knows thread
  have chained := inv.chained thread
  cases running : system.threads thread with
  | mk stack throwing =>
  rw [running] at knows chained
  have unchanged (throwing' : Bool) : Inv hierarchy ⟨system.process, Function.update system.threads thread ⟨stack, throwing'⟩⟩ :=
    inv.move throwing' (by rw [running]) knows chained
  cases action with
  | call cls =>
      cases throwing with
      | true => simp [Initialize.act, running] at step
      | false =>
          simp only [Initialize.act, running] at step
          split at step
          next mayCall =>
            obtain rfl := Option.some.inj step
            refine ⟨_, rfl, inv.move false ?_ (List.forall_mem_cons.mpr ⟨trivial, knows⟩) ?_⟩
            · rw [running]
              rfl
            · cases stack with
              | nil => exact List.IsChain.singleton _
              | cons frame callers =>
                  refine List.isChain_cons_cons.mpr ⟨fun inside => ?_, chained⟩
                  simp [inside, Phase.mayCall] at mayCall
          next => exact nomatch step
  | advance =>
      cases throwing with
      | false =>
          cases stack with
          | nil => simp [Initialize.act, running] at step
          | cons frame callers =>
              simp only [Initialize.act, running, Option.map_eq_some_iff] at step
              obtain ⟨inner, stepped, rfl⟩ := step
              obtain ⟨process', stack', rfl, inv'⟩ := inv.advance running inner stepped
              exact ⟨_, rfl, inv'⟩
      | true =>
          obtain ⟨cls, callers, rfl⟩ : ∃ cls callers, stack = ⟨cls, .inSuperclass⟩ :: callers := by
            rcases stack with _ | ⟨⟨cls, phase⟩, callers⟩
            · simp [Initialize.act, running] at step
            · cases phase with
              | inSuperclass => exact ⟨cls, callers, rfl⟩
              | _ => simp [Initialize.act, running] at step
          simp only [Initialize.act, running] at step
          obtain rfl := Option.some.inj step
          refine ⟨_, rfl, inv.move true ?_ (fun caller member => knows caller (List.mem_cons_of_mem _ member)) chained.tail⟩
          rw [running]
          rfl
  | finish throws =>
      obtain ⟨cls, callers, rfl⟩ : ∃ cls callers, stack = ⟨cls, .callInitialize⟩ :: callers := by
        rcases stack with _ | ⟨⟨cls, phase⟩, callers⟩
        · simp [Initialize.act, running] at step
        · cases phase with
          | callInitialize => exact ⟨cls, callers, rfl⟩
          | _ => simp [Initialize.act, running] at step
      obtain ⟨process', finished, thrown, returned⟩ := inv.finish running
      simp only [Initialize.act, running, finished] at step
      split at step
      next => exact nomatch step
      next =>
        obtain rfl := Option.some.inj step
        cases throws with
        | false => exact ⟨_, rfl, returned⟩
        | true => exact ⟨_, rfl, thrown⟩
  | «catch» =>
      cases throwing with
      | false => simp [Initialize.act, running] at step
      | true =>
          simp only [Initialize.act, running] at step
          split at step
          next =>
            obtain rfl := Option.some.inj step
            exact ⟨_, rfl, unchanged false⟩
          next => exact nomatch step

theorem inv_of_reachable (run : Relation.ReflTransGen (Step hierarchy) .start system) : Inv hierarchy system := by
  induction run with
  | refl => exact start_inv hierarchy
  | tail _ step inv =>
      obtain ⟨thread, action, stepped⟩ := step
      obtain ⟨system', eq, inv'⟩ := inv.act stepped
      obtain rfl := Except.ok.inj eq
      exact inv'

/-- What `initializeNonMetaClass` promises about the classes. -/
structure Sound (hierarchy : Hierarchy Class) (system : System Class) : Prop where
  sent : system.process.sent.Nodup
  initialized : ∀ cls, system.process.state cls = .initialized → cls ∈ system.process.returned ∧
    ∀ supercls, hierarchy.superclass cls = some supercls → system.process.state supercls = .initialized
  initializing : ∀ cls, system.process.state cls = .initializing →
    (∃! thread, RunsClass system thread cls) ∨ ∃ thread supercls, PutOff hierarchy system thread supercls cls
  noFault : ∀ thread action fault, act hierarchy system thread action ≠ some (.error fault)
  idle : (∀ thread, (system.threads thread).stack = []) → ∀ cls, system.process.state cls ≠ .initializing

/-- In every run, `+initialize` is sent once for a class, and the classes are marked in the order of the hierarchy. -/
theorem sound_of_reachable (run : Relation.ReflTransGen (Step hierarchy) .start system) : Sound hierarchy system := by
  have inv := inv_of_reachable run
  refine ⟨inv.held.sent_nodup, inv.held.classes.initialized, fun cls => inv.initializing, fun thread action fault step => ?_, inv.idle⟩
  obtain ⟨system', eq, -⟩ := inv.act step
  exact nomatch eq

def twoClasses : Hierarchy Bool where
  superclass cls := if cls then some false else none
  acyclic := by
    have root : Acc (fun supercls cls : Bool => (if cls then some false else none) = some supercls) false := .intro _ nofun
    refine ⟨fun cls => ?_⟩
    cases cls with
    | false => exact root
    | true =>
        refine .intro _ fun supercls eq => ?_
        obtain rfl := Option.some.inj eq
        exact root

/-- The steps of threads one after the other; `none` if one of them cannot be made. -/
def steps (hierarchy : Hierarchy Class) : System Class → List (ℕ × Action Class) → Option (System Class)
  | system, [] => some system
  | system, (thread, action) :: rest =>
      match act hierarchy system thread action with
      | some (.ok system') => steps hierarchy system' rest
      | _ => none

theorem reachable_of_steps {actions : List (ℕ × Action Class)} (run : steps hierarchy system actions = some system') :
    Relation.ReflTransGen (Step hierarchy) system system' := by
  induction actions generalizing system with
  | nil =>
      obtain rfl := Option.some.inj run
      exact .refl
  | cons first rest ih =>
      rw [steps] at run
      split at run
      next next made => exact .head ⟨first.1, first.2, made⟩ (ih run)
      next => exact nomatch run

/-- The `+initialize` method of a class initializes its subclass, which is put off. -/
theorem sound_of_reachable_two : ∃ system, Sound twoClasses system ∧ system.process.pendingInitializeMap = [(false, true)] := by
  obtain ⟨system, run, pending⟩ : ∃ system, steps twoClasses .start ((0, .call false) :: List.replicate 4 (0, .advance) ++
      (0, .call true) :: List.replicate 7 (0, .advance) ++ [(0, .finish false)]) = some system ∧
      system.process.pendingInitializeMap = [(false, true)] := by
    refine ⟨_, rfl, ?_⟩
    rfl
  exact ⟨system, sound_of_reachable (reachable_of_steps run), pending⟩

end ObjcDyld.Initialize
