import ObjcDyld.Initialize.Steps

/-!
# Who initializes a class

A class that is initializing is on the list of one thread, which runs its `+initialize` method, or has
put it in the `pendingInitializeMap` under a superclass that is on the same list. So finishing a
superclass finds every class that waits for it on the list of its own thread.
-/

namespace ObjcDyld.Initialize

variable {Class : Type} {hierarchy : Hierarchy Class} {process process' : Process Class} {cls other : Class}
  {list list' : InitializingClasses Class} {thread fuel : ℕ} {runs : ℕ → Class → Prop} {starts : Class → Prop} {loose : List Class}

/-- The classes of a list, without its free slots. -/
def classes (list : InitializingClasses Class) : List Class := list.reduceOption

theorem mem_classes_iff : cls ∈ classes list ↔ some cls ∈ list := List.reduceOption_mem_iff

theorem perm_set_some {i : ℕ} (free : list[i]? = some none) (cls : Class) : (classes (list.set i (some cls))).Perm (cls :: classes list) := by
  obtain ⟨inside, eq⟩ := List.getElem?_eq_some_iff.mp free
  have split : list = list.take i ++ none :: list.drop (i + 1) := by
    conv_lhs => rw [← List.take_append_drop i list, ← List.cons_getElem_drop_succ (h := inside), eq]
  rw [List.set_eq_take_append_cons_drop, if_pos inside]
  conv_rhs => rw [split]
  simp only [classes, List.reduceOption_append, List.reduceOption_cons_of_some, List.reduceOption_cons_of_none]
  exact List.perm_middle

theorem perm_set_none {i : ℕ} (here : list[i]? = some (some cls)) : (classes list).Perm (cls :: classes (list.set i none)) := by
  obtain ⟨inside, eq⟩ := List.getElem?_eq_some_iff.mp here
  have split : list = list.take i ++ some cls :: list.drop (i + 1) := by
    conv_lhs => rw [← List.take_append_drop i list, ← List.cons_getElem_drop_succ (h := inside), eq]
  rw [List.set_eq_take_append_cons_drop, if_pos inside]
  conv_lhs => rw [split]
  simp only [classes, List.reduceOption_append, List.reduceOption_cons_of_some, List.reduceOption_cons_of_none]
  exact List.perm_middle

def Listed (process : Process Class) (thread : ℕ) (cls : Class) : Prop := some cls ∈ process.lists thread

/-- Every class that is initializing is run or has been put off by the thread that has it on its list, or is one of the
loose ones, that this thread is about to mark. -/
structure Owned (hierarchy : Hierarchy Class) (process : Process Class) (runs : ℕ → Class → Prop) (starts : Class → Prop)
    (thread : ℕ) (loose : List Class) : Prop where
  nodup : ∀ thread, (classes (process.lists thread)).Nodup
  listed_state : ∀ thread cls, Listed process thread cls → process.state cls = .initializing
  listed_unique : ∀ thread thread' cls, Listed process thread cls → Listed process thread' cls → thread = thread'
  runs_listed : ∀ thread cls, runs thread cls → Listed process thread cls
  listed_cases : ∀ thread' cls, Listed process thread' cls → runs thread' cls ∨ cls ∈ process.pendingInitializeMap.map Prod.snd ∨
    thread' = thread ∧ cls ∈ loose
  pending : ∀ supercls cls, (supercls, cls) ∈ process.pendingInitializeMap → hierarchy.superclass cls = some supercls ∧
    cls ∈ process.returned ∧ ∃ thread, Listed process thread cls ∧ Listed process thread supercls
  pending_nodup : (process.pendingInitializeMap.map Prod.snd).Nodup
  pending_stopped : ∀ cls ∈ process.pendingInitializeMap.map Prod.snd, ∀ thread, ¬runs thread cls
  loose_nodup : loose.Nodup
  loose_listed : ∀ cls ∈ loose, Listed process thread cls
  loose_stopped : ∀ cls ∈ loose, cls ∉ process.pendingInitializeMap.map Prod.snd ∧ ∀ thread, ¬runs thread cls
  loose_ready : ∀ cls ∈ loose, cls ∈ process.returned ∧
    ∀ supercls, hierarchy.superclass cls = some supercls → process.state supercls = .initialized
  initialized : ∀ cls, process.state cls = .initialized → cls ∈ process.returned ∧
    ∀ supercls, hierarchy.superclass cls = some supercls → process.state supercls = .initialized
  initializing : ∀ cls, process.state cls = .initializing → (∃ thread, Listed process thread cls) ∨ starts cls
  starting : ∀ cls, starts cls → process.state cls = .initializing ∧ ∀ thread, ¬Listed process thread cls

/-- What may happen to the classes while a call goes on. -/
structure Later (process process' : Process Class) : Prop where
  started : ∀ cls, process.state cls ≠ .uninitialized → process'.state cls ≠ .uninitialized
  initialized : ∀ cls, process.state cls = .initialized → process'.state cls = .initialized
  listed : ∀ thread cls, Listed process thread cls → Listed process' thread cls ∨ process'.state cls = .initialized

theorem Later.refl (process : Process Class) : Later process process := ⟨fun _ => id, fun _ => id, fun _ _ => .inl⟩

theorem Later.trans {process'' : Process Class} (first : Later process process') (second : Later process' process'') :
    Later process process'' :=
  ⟨fun cls started => second.started cls (first.started cls started),
    fun cls initialized => second.initialized cls (first.initialized cls initialized),
    fun thread cls listed => (first.listed thread cls listed).elim (second.listed thread cls)
      fun initialized => .inr (second.initialized cls initialized)⟩

theorem Owned.congr {runs' : ℕ → Class → Prop} {starts' : Class → Prop} (owned : Owned hierarchy process runs starts thread loose)
    (same_runs : ∀ thread cls, runs' thread cls ↔ runs thread cls) (same_starts : ∀ cls, starts' cls ↔ starts cls) :
    Owned hierarchy process runs' starts' thread loose := by
  obtain rfl : runs' = runs := funext₂ fun thread cls => propext (same_runs thread cls)
  obtain rfl : starts' = starts := funext fun cls => propext (same_starts cls)
  exact owned

theorem Owned.any (owned : Owned hierarchy process runs starts thread []) (thread' : ℕ) :
    Owned hierarchy process runs starts thread' [] :=
  { owned with
    listed_cases := fun thread cls here => (owned.listed_cases thread cls here).imp_right (.imp_right fun both => nomatch both.2)
    loose_listed := nofun }

variable [DecidableEq Class]

theorem setThisThreadIsInitializingClass_perm (absent : some cls ∉ list) :
    ∃ list', setThisThreadIsInitializingClass list cls = .ok list' ∧ (classes list').Perm (cls :: classes list) := by
  have allocated : some cls ∉ (if list = [] then List.replicate 4 none else list) ∧
      classes (if list = [] then List.replicate 4 none else list) = classes list := by
    by_cases empty : list = []
    · subst empty
      simp [classes]
    · rw [if_neg empty]
      exact ⟨absent, rfl⟩
  rw [setThisThreadIsInitializingClass]
  generalize (if list = [] then List.replicate 4 none else list) = slots at allocated
  obtain ⟨absent, same⟩ := allocated
  simp only [if_neg absent]
  cases found : slots.findIdx? fun slot => slot = none with
  | some i =>
      have free : slots[i]? = some none := by
        obtain ⟨inside, here, -⟩ := List.findIdx?_eq_some_iff_getElem.mp found
        rw [List.getElem?_eq_getElem inside, of_decide_eq_true here]
      exact ⟨_, rfl, same ▸ perm_set_some free cls⟩
  | none =>
      refine ⟨_, rfl, ?_⟩
      rw [classes, List.reduceOption_append, List.reduceOption_cons_of_some, List.reduceOption_replicate_none, ← same, classes]
      exact List.perm_append_singleton _ _

theorem setThisThreadIsNotInitializingClass_perm (member : some cls ∈ list) :
    ∃ list', setThisThreadIsNotInitializingClass list cls = .ok list' ∧ (classes list).Perm (cls :: classes list') := by
  rw [setThisThreadIsNotInitializingClass]
  cases found : list.findIdx? fun slot => slot = some cls with
  | some i =>
      have here : list[i]? = some (some cls) := by
        obtain ⟨inside, here, -⟩ := List.findIdx?_eq_some_iff_getElem.mp found
        rw [List.getElem?_eq_getElem inside, of_decide_eq_true here]
      exact ⟨_, rfl, perm_set_none here⟩
  | none => simpa using List.findIdx?_eq_none_iff.mp found (some cls) member

/-- What the calls for `_finishInitializing` leave as it is. -/
structure Finished (process process' : Process Class) (cls : Class) : Prop where
  later : Later process process'
  marked : process'.state cls = .initialized
  sent : process'.sent = process.sent
  returned : process'.returned = process.returned
  fewer : process'.pendingInitializeMap.length ≤ process.pendingInitializeMap.length

/-- Mark the class, and take its subclasses out of the `pendingInitializeMap`. -/
def Process.mark (process : Process Class) (thread : ℕ) (cls : Class) (list : InitializingClasses Class) : Process Class :=
  { process with
    state := Function.update process.state cls .initialized
    lists := Function.update process.lists thread list
    pendingInitializeMap := process.pendingInitializeMap.filter fun pair => pair.1 ≠ cls }

theorem mem_pending_iff : other ∈ process.pending cls ↔ (cls, other) ∈ process.pendingInitializeMap := by
  simp [Process.pending]

theorem listed_mark_iff (nodup : (classes (process.lists thread)).Nodup)
    (perm : (classes (process.lists thread)).Perm (cls :: classes list)) (unique : ∀ thread', Listed process thread' cls → thread' = thread)
    (thread' : ℕ) (other : Class) : Listed (process.mark thread cls list) thread' other ↔ Listed process thread' other ∧ other ≠ cls := by
  have nodup' := perm.nodup_iff.mp nodup
  have lists : (process.mark thread cls list).lists = Function.update process.lists thread list := rfl
  rw [Listed, lists]
  by_cases same : thread' = thread
  · subst same
    rw [Function.update_self, ← mem_classes_iff, Listed, ← mem_classes_iff, perm.mem_iff, List.mem_cons]
    constructor
    · intro member
      refine ⟨.inr member, ?_⟩
      rintro rfl
      exact (List.nodup_cons.mp nodup').1 member
    · rintro ⟨member, different⟩
      exact member.resolve_left different
  · rw [Function.update_of_ne same]
    refine (and_iff_left_of_imp fun listed => ?_).symm
    rintro rfl
    exact same (unique thread' listed)

theorem Owned.mark (owned : Owned hierarchy process runs starts thread (cls :: loose))
    (perm : (classes (process.lists thread)).Perm (cls :: classes list)) :
    Owned hierarchy (process.mark thread cls list) runs starts thread (process.pending cls ++ loose) := by
  have mine := owned.loose_listed cls List.mem_cons_self
  obtain ⟨loose_fresh, loose_nodup⟩ := List.nodup_cons.mp owned.loose_nodup
  have stopped := owned.loose_stopped cls List.mem_cons_self
  have listed := listed_mark_iff (owned.nodup thread) perm fun thread' here => owned.listed_unique thread' thread cls here mine
  have state_ne {other : Class} (different : other ≠ cls) : (process.mark thread cls list).state other = process.state other :=
    Function.update_of_ne different ..
  have state_initialized {other : Class} (initialized : process.state other = .initialized) :
      (process.mark thread cls list).state other = .initialized := by
    by_cases same : other = cls
    · rw [same]
      exact Function.update_self ..
    · rwa [state_ne same]
  have still_pending {pair : Class × Class} (member : pair ∈ (process.mark thread cls list).pendingInitializeMap) :
      pair ∈ process.pendingInitializeMap ∧ pair.1 ≠ cls := by
    obtain ⟨member, different⟩ := List.mem_filter.mp member
    exact ⟨member, of_decide_eq_true different⟩
  -- a subclass that waits is under one superclass
  have one {supercls supercls' other : Class} (first : (supercls, other) ∈ process.pendingInitializeMap)
      (second : (supercls', other) ∈ process.pendingInitializeMap) : supercls = supercls' :=
    (Prod.mk.inj (List.inj_on_of_nodup_map owned.pending_nodup first second rfl)).1
  have drained {other : Class} (member : other ∈ process.pending cls) : (cls, other) ∈ process.pendingInitializeMap ∧ other ≠ cls ∧
      Listed process thread other := by
    have pair := mem_pending_iff.mp member
    obtain ⟨-, -, thread', here, super_here⟩ := owned.pending cls other pair
    refine ⟨pair, ?_, owned.listed_unique thread' thread cls super_here mine ▸ here⟩
    rintro rfl
    exact stopped.1 (List.mem_map_of_mem pair)
  refine ⟨fun thread' => ?_, fun thread' other here => ?_, fun first second other here also => ?_, fun thread' other run => ?_,
    fun thread' other here => ?_, fun supercls other member => ?_, ?_, fun other member thread' run => ?_, ?_, fun other member => ?_,
    fun other member => ?_, fun other member => ?_, fun other initialized => ?_, fun other initializing => ?_, fun other start => ?_⟩
  · by_cases same : thread' = thread
    · have lists : (process.mark thread cls list).lists thread' = list := by rw [same]; exact Function.update_self ..
      rw [lists]
      exact (List.nodup_cons.mp (perm.nodup_iff.mp (owned.nodup thread))).2
    · have lists : (process.mark thread cls list).lists thread' = process.lists thread' := Function.update_of_ne same ..
      rw [lists]
      exact owned.nodup thread'
  · obtain ⟨here, different⟩ := (listed thread' other).mp here
    rw [state_ne different]
    exact owned.listed_state thread' other here
  · exact owned.listed_unique first second other ((listed first other).mp here).1 ((listed second other).mp also).1
  · refine (listed thread' other).mpr ⟨owned.runs_listed thread' other run, ?_⟩
    rintro rfl
    exact stopped.2 thread' run
  · obtain ⟨was, different⟩ := (listed thread' other).mp here
    obtain run | pending | ⟨rfl, also⟩ := owned.listed_cases thread' other was
    · exact .inl run
    · obtain ⟨⟨supercls, waiting⟩, pair, rfl⟩ := List.mem_map.mp pending
      by_cases same : supercls = cls
      · subst same
        have waits := mem_pending_iff.mpr pair
        obtain ⟨-, -, also⟩ := drained waits
        exact .inr (.inr ⟨owned.listed_unique thread' thread waiting was also, List.mem_append_left _ waits⟩)
      · exact .inr (.inl (List.mem_map_of_mem (List.mem_filter.mpr ⟨pair, decide_eq_true same⟩)))
    · exact .inr (.inr ⟨rfl, List.mem_append_right _ ((List.mem_cons.mp also).resolve_left different)⟩)
  · obtain ⟨pair, super_ne⟩ := still_pending member
    obtain ⟨superclass, returned, thread', here, super_here⟩ := owned.pending supercls other pair
    refine ⟨superclass, returned, thread', (listed thread' other).mpr ⟨here, ?_⟩, (listed thread' supercls).mpr ⟨super_here, super_ne⟩⟩
    rintro rfl
    exact stopped.1 (List.mem_map_of_mem pair)
  · exact owned.pending_nodup.sublist (List.filter_sublist.map _)
  · obtain ⟨pair, inside, rfl⟩ := List.mem_map.mp member
    exact owned.pending_stopped pair.2 (List.mem_map_of_mem (still_pending inside).1) thread' run
  · refine List.nodup_append.mpr ⟨owned.pending_nodup.sublist (List.filter_sublist.map _), loose_nodup, fun other member _ also => ?_⟩
    rintro rfl
    exact (owned.loose_stopped other (List.mem_cons_of_mem _ also)).1 (List.mem_map_of_mem (drained member).1)
  · obtain member | also := List.mem_append.mp member
    · exact (listed thread other).mpr ⟨(drained member).2.2, (drained member).2.1⟩
    · refine (listed thread other).mpr ⟨owned.loose_listed other (List.mem_cons_of_mem _ also), ?_⟩
      rintro rfl
      exact loose_fresh also
  · obtain member | also := List.mem_append.mp member
    · obtain ⟨pair, different, -⟩ := drained member
      refine ⟨fun pending => ?_, owned.pending_stopped other (List.mem_map_of_mem pair)⟩
      obtain ⟨⟨supercls, _⟩, member', rfl⟩ := List.mem_map.mp pending
      obtain ⟨member', super_ne⟩ := still_pending member'
      exact super_ne (one member' pair)
    · obtain ⟨fresh, idle⟩ := owned.loose_stopped other (List.mem_cons_of_mem _ also)
      refine ⟨fun pending => fresh ?_, idle⟩
      obtain ⟨pair, member', rfl⟩ := List.mem_map.mp pending
      exact List.mem_map_of_mem (still_pending member').1
  · obtain member | also := List.mem_append.mp member
    · obtain ⟨superclass, returned, -⟩ := owned.pending cls other (drained member).1
      refine ⟨returned, fun supercls eq => ?_⟩
      obtain rfl := Option.some.inj (superclass.symm.trans eq)
      exact Function.update_self ..
    · obtain ⟨returned, ready⟩ := owned.loose_ready other (List.mem_cons_of_mem _ also)
      exact ⟨returned, fun supercls eq => state_initialized (ready supercls eq)⟩
  · have known : other ∈ process.returned ∧ ∀ supercls, hierarchy.superclass other = some supercls →
        process.state supercls = .initialized := by
      by_cases same : other = cls
      · rw [same]
        exact owned.loose_ready cls List.mem_cons_self
      · rw [state_ne same] at initialized
        exact owned.initialized other initialized
    exact ⟨known.1, fun supercls eq => state_initialized (known.2 supercls eq)⟩
  · have different : other ≠ cls := by
      rintro rfl
      rw [show (process.mark thread other list).state other = .initialized from Function.update_self ..] at initializing
      exact nomatch initializing
    rw [state_ne different] at initializing
    exact (owned.initializing other initializing).imp_left fun ⟨thread', here⟩ => ⟨thread', (listed thread' other).mpr ⟨here, different⟩⟩
  · obtain ⟨state, unlisted⟩ := owned.starting other start
    have different : other ≠ cls := by
      rintro rfl
      exact unlisted thread mine
    exact ⟨(state_ne different).trans state, fun thread' here => unlisted thread' ((listed thread' other).mp here).1⟩

theorem later_mark (perm : (classes (process.lists thread)).Perm (cls :: classes list)) :
    Later process (process.mark thread cls list) := by
  have state_initialized : (process.mark thread cls list).state cls = .initialized := Function.update_self ..
  refine ⟨fun other started => ?_, fun other initialized => ?_, fun thread' other here => ?_⟩
  · by_cases same : other = cls
    · rw [same, state_initialized]
      exact nofun
    · rwa [show (process.mark thread cls list).state other = _ from Function.update_of_ne same ..]
  · by_cases same : other = cls
    · rw [same, state_initialized]
    · rwa [show (process.mark thread cls list).state other = _ from Function.update_of_ne same ..]
  · by_cases same : other = cls
    · exact .inr (same ▸ state_initialized)
    · refine .inl ?_
      have lists : (process.mark thread cls list).lists = Function.update process.lists thread list := rfl
      rw [Listed, lists]
      by_cases mine : thread' = thread
      · rw [mine, Function.update_self, ← mem_classes_iff]
        rw [mine, Listed, ← mem_classes_iff, perm.mem_iff, List.mem_cons] at here
        exact here.resolve_left same
      · rwa [Function.update_of_ne mine]

theorem Owned.foldlM_finish {subclasses : List Class}
    (finishes : ∀ (process : Process Class) (subclass : Class) (loose : List Class), hierarchy.superclass subclass = some cls →
      Owned hierarchy process runs starts thread (subclass :: loose) → process.pendingInitializeMap.length < fuel →
      ∃ process', finishInitializing thread fuel process subclass (some cls) = .ok process' ∧
        Owned hierarchy process' runs starts thread loose ∧ Finished process process' subclass)
    (owned : Owned hierarchy process runs starts thread (subclasses ++ loose))
    (subclass : ∀ subclass ∈ subclasses, hierarchy.superclass subclass = some cls)
    (enough : subclasses ≠ [] → process.pendingInitializeMap.length < fuel) :
    ∃ process', subclasses.foldlM (fun process subclass => finishInitializing thread fuel process subclass (some cls)) process =
        .ok process' ∧ Owned hierarchy process' runs starts thread loose ∧ Later process process' ∧ process'.sent = process.sent ∧
      process'.returned = process.returned ∧ process'.pendingInitializeMap.length ≤ process.pendingInitializeMap.length := by
  induction subclasses generalizing process with
  | nil => exact ⟨process, rfl, owned, .refl process, rfl, rfl, le_rfl⟩
  | cons first subclasses ih =>
      have small := enough (List.cons_ne_nil _ _)
      obtain ⟨middle, run, owned', finished⟩ :=
        finishes process first (subclasses ++ loose) (subclass first List.mem_cons_self) owned small
      obtain ⟨process', runs', owned'', later, sent, returned, fewer⟩ :=
        ih owned' (fun other member => subclass other (List.mem_cons_of_mem _ member)) fun _ => finished.fewer.trans_lt small
      refine ⟨process', ?_, owned'', finished.later.trans later, sent.trans finished.sent, returned.trans finished.returned,
        fewer.trans finished.fewer⟩
      rw [List.foldlM_cons, run]
      exact runs'

theorem Owned.finish (owned : Owned hierarchy process runs starts thread (cls :: loose))
    (enough : process.pendingInitializeMap.length < fuel) :
    ∃ process', finishInitializing thread fuel process cls (hierarchy.superclass cls) = .ok process' ∧
      Owned hierarchy process' runs starts thread loose ∧ Finished process process' cls := by
  induction fuel generalizing process cls loose with
  | zero => exact nomatch enough
  | succ fuel ih =>
      have ready := (owned.loose_ready cls List.mem_cons_self).2
      have asserted : ((hierarchy.superclass cls).map process.state).getD .initialized = .initialized := by
        cases superclass : hierarchy.superclass cls with
        | none => rfl
        | some supercls => exact ready supercls superclass
      obtain ⟨list, removed, perm⟩ := setThisThreadIsNotInitializingClass_perm (owned.loose_listed cls List.mem_cons_self)
      have subclass (other : Class) (member : other ∈ process.pending cls) : hierarchy.superclass other = some cls :=
        (owned.pending cls other (mem_pending_iff.mp member)).1
      have fewer : (process.mark thread cls list).pendingInitializeMap.length ≤ process.pendingInitializeMap.length :=
        List.length_filter_le _ _
      have enough' (some_wait : process.pending cls ≠ []) :
          (process.mark thread cls list).pendingInitializeMap.length < fuel := by
        obtain ⟨other, member⟩ := List.exists_mem_of_ne_nil _ some_wait
        have less : (process.mark thread cls list).pendingInitializeMap.length < process.pendingInitializeMap.length :=
          List.length_filter_lt_length_iff_exists.mpr ⟨(cls, other), mem_pending_iff.mp member, by simp⟩
        omega
      obtain ⟨process', run, owned', later, sent, returned, fewer'⟩ := (owned.mark perm).foldlM_finish
        (fun process other loose superclass owned small => superclass ▸ ih owned small) subclass enough'
      refine ⟨process', ?_, owned', (later_mark perm).trans later, later.initialized cls (Function.update_self ..), sent, returned,
        fewer'.trans fewer⟩
      rw [finishInitializing, if_neg (not_not.mpr asserted)]
      simp only [removed]
      exact run

theorem Owned.setInitializing (owned : Owned hierarchy process runs starts thread []) (fresh : process.state cls = .uninitialized) :
    Owned hierarchy { process with state := Function.update process.state cls .initializing } runs (fun other => starts other ∨ other = cls)
      thread [] := by
  have same {other : Class} (different : process.state other ≠ .uninitialized) :
      Function.update process.state cls .initializing other = process.state other :=
    Function.update_of_ne (by rintro rfl; exact different fresh) ..
  have still {other : Class} (initialized : process.state other = .initialized) :
      Function.update process.state cls .initializing other = .initialized :=
    (same (by rw [initialized]; exact nofun)).trans initialized
  have back {other : Class} {state : ClassState} (after : Function.update process.state cls .initializing other = state)
      (different : other ≠ cls) : process.state other = state := by
    rwa [Function.update_of_ne different] at after
  refine { owned with
    listed_state := fun thread' other here => ?_
    loose_ready := nofun
    initialized := fun other initialized => ?_
    initializing := fun other initializing => ?_
    starting := fun other start => ?_ }
  · have initializing := owned.listed_state thread' other here
    exact (same (by rw [initializing]; exact nofun)).trans initializing
  · have different : other ≠ cls := by
      rintro rfl
      have after : Function.update process.state other .initializing other = .initialized := initialized
      rw [Function.update_self] at after
      exact nomatch after
    obtain ⟨returned, ready⟩ := owned.initialized other (back initialized different)
    exact ⟨returned, fun supercls superclass => still (ready supercls superclass)⟩
  · by_cases here : other = cls
    · exact .inr (.inr here)
    · exact (owned.initializing other (back initializing here)).imp_right .inl
  · obtain start | rfl := start
    · obtain ⟨initializing, unlisted⟩ := owned.starting other start
      exact ⟨(same (by rw [initializing]; exact nofun)).trans initializing, unlisted⟩
    · refine ⟨Function.update_self .., fun thread' here => ?_⟩
      have initializing := owned.listed_state thread' other here
      exact nomatch fresh.symm.trans initializing

theorem Owned.record (owned : Owned hierarchy process runs starts thread []) (start : starts cls)
    (perm : (classes list).Perm (cls :: classes (process.lists thread))) :
    Owned hierarchy { process with lists := Function.update process.lists thread list }
      (fun thread' other => runs thread' other ∨ thread' = thread ∧ other = cls) (fun other => starts other ∧ other ≠ cls) thread [] := by
  obtain ⟨initializing, unlisted⟩ := owned.starting cls start
  have listed (thread' : ℕ) (other : Class) : Listed { process with lists := Function.update process.lists thread list } thread' other ↔
      Listed process thread' other ∨ thread' = thread ∧ other = cls := by
    show some other ∈ Function.update process.lists thread list thread' ↔ some other ∈ process.lists thread' ∨ _
    by_cases mine : thread' = thread
    · subst mine
      rw [Function.update_self, ← mem_classes_iff, ← mem_classes_iff, perm.mem_iff, List.mem_cons, or_comm]
      simp
    · rw [Function.update_of_ne mine]
      simp [mine]
  have pending_ne {other : Class} (pending : other ∈ process.pendingInitializeMap.map Prod.snd) : other ≠ cls := by
    rintro rfl
    obtain ⟨⟨supercls, _⟩, pair, rfl⟩ := List.mem_map.mp pending
    obtain ⟨-, -, thread', here, -⟩ := owned.pending supercls _ pair
    exact unlisted thread' here
  refine { owned with
    nodup := fun thread' => ?_
    listed_state := fun thread' other here => ?_
    listed_unique := fun first second other here also => ?_
    runs_listed := fun thread' other run => ?_
    listed_cases := fun thread' other here => ?_
    pending := fun supercls other member => ?_
    pending_stopped := fun other member thread' run => ?_
    loose_listed := nofun
    loose_stopped := nofun
    initializing := fun other initializing => ?_
    starting := fun other start => ?_ }
  · show (classes (Function.update process.lists thread list thread')).Nodup
    by_cases mine : thread' = thread
    · rw [mine, Function.update_self]
      exact perm.nodup_iff.mpr (List.nodup_cons.mpr ⟨fun member => unlisted thread (mem_classes_iff.mp member), owned.nodup thread⟩)
    · rw [Function.update_of_ne mine]
      exact owned.nodup thread'
  · obtain here | ⟨-, rfl⟩ := (listed thread' other).mp here
    · exact owned.listed_state thread' other here
    · exact initializing
  · obtain was | ⟨rfl, rfl⟩ := (listed first other).mp here
    · obtain too | ⟨-, same⟩ := (listed second other).mp also
      · exact owned.listed_unique first second other was too
      · exact absurd (same ▸ was) (unlisted first)
    · obtain too | ⟨mine, -⟩ := (listed second other).mp also
      · exact absurd too (unlisted second)
      · exact mine.symm
  · exact (listed thread' other).mpr (run.imp_left (owned.runs_listed thread' other))
  · obtain here | mine := (listed thread' other).mp here
    · exact (owned.listed_cases thread' other here).imp_left .inl
    · exact .inl (.inr mine)
  · obtain ⟨superclass, returned, thread', here, super_here⟩ := owned.pending supercls other member
    exact ⟨superclass, returned, thread', (listed thread' other).mpr (.inl here), (listed thread' supercls).mpr (.inl super_here)⟩
  · obtain run | ⟨-, same⟩ := run
    · exact owned.pending_stopped other member thread' run
    · exact pending_ne member same
  · obtain ⟨thread', here⟩ | start := owned.initializing other initializing
    · exact .inl ⟨thread', (listed thread' other).mpr (.inl here)⟩
    · by_cases same : other = cls
      · exact .inl ⟨thread, (listed thread other).mpr (.inr ⟨rfl, same⟩)⟩
      · exact .inr ⟨start, same⟩
  · obtain ⟨state, unlisted'⟩ := owned.starting other start.1
    exact ⟨state, fun thread' here => ((listed thread' other).mp here).elim (unlisted' thread') fun mine => start.2 mine.2⟩

theorem Owned.returned (owned : Owned hierarchy process runs starts thread []) (run : runs thread cls)
    (ready : ∀ supercls, hierarchy.superclass cls = some supercls → process.state supercls = .initialized) :
    Owned hierarchy { process with returned := process.returned ++ [cls] } (fun thread' other => runs thread' other ∧ other ≠ cls) starts
      thread [cls] := by
  have mine := owned.runs_listed thread cls run
  refine { owned with
    runs_listed := fun thread' other run => owned.runs_listed thread' other run.1
    listed_cases := fun thread' other here => ?_
    pending := fun supercls other member => ?_
    pending_stopped := fun other member thread' run => owned.pending_stopped other member thread' run.1
    loose_nodup := List.nodup_singleton _
    loose_listed := fun other member => ?_
    loose_stopped := fun other member => ?_
    loose_ready := fun other member => ?_
    initialized := fun other initialized => ?_ }
  · by_cases same : other = cls
    · subst same
      exact .inr (.inr ⟨owned.listed_unique thread' thread other here mine, List.mem_cons_self⟩)
    · exact (owned.listed_cases thread' other here).imp (⟨·, same⟩) (.imp_right fun both => nomatch both.2)
  · obtain ⟨superclass, returned, listed⟩ := owned.pending supercls other member
    exact ⟨superclass, List.mem_append_left _ returned, listed⟩
  · rw [List.mem_singleton.mp member]
    exact mine
  · obtain rfl := List.mem_singleton.mp member
    exact ⟨fun pending => owned.pending_stopped other pending thread run, fun thread' run => run.2 rfl⟩
  · obtain rfl := List.mem_singleton.mp member
    exact ⟨List.mem_append_right _ List.mem_cons_self, ready⟩
  · obtain ⟨returned, ready⟩ := owned.initialized other initialized
    exact ⟨List.mem_append_left _ returned, ready⟩

theorem Owned.finishAfter {supercls : Class} (owned : Owned hierarchy process runs starts thread []) (run : runs thread cls)
    (superclass : hierarchy.superclass cls = some supercls) (listed : Listed process thread supercls) :
    Owned hierarchy (finishInitializingAfter { process with returned := process.returned ++ [cls] } cls supercls)
      (fun thread' other => runs thread' other ∧ other ≠ cls) starts thread [] := by
  have mine := owned.runs_listed thread cls run
  have fresh : cls ∉ process.pendingInitializeMap.map Prod.snd := fun pending => owned.pending_stopped cls pending thread run
  refine { owned with
    runs_listed := fun thread' other run => owned.runs_listed thread' other run.1
    listed_cases := fun thread' other here => ?_
    pending := fun supercls' other member => ?_
    pending_nodup := List.nodup_cons.mpr ⟨fresh, owned.pending_nodup⟩
    pending_stopped := fun other member thread' run => ?_
    loose_listed := nofun
    loose_stopped := nofun
    loose_ready := nofun
    initialized := fun other initialized => ?_ }
  · by_cases same : other = cls
    · exact .inr (.inl (same ▸ List.mem_cons_self))
    · exact (owned.listed_cases thread' other here).imp (⟨·, same⟩) (.imp (List.mem_cons_of_mem _) fun both => nomatch both.2)
  · obtain eq | member := List.mem_cons.mp member
    · obtain ⟨rfl, rfl⟩ := Prod.mk.inj eq
      exact ⟨superclass, List.mem_append_right _ List.mem_cons_self, thread, mine, listed⟩
    · obtain ⟨superclass, returned, both⟩ := owned.pending supercls' other member
      exact ⟨superclass, List.mem_append_left _ returned, both⟩
  · obtain same | member := List.mem_cons.mp member
    · exact run.2 same
    · exact owned.pending_stopped other member thread' run.1
  · obtain ⟨returned, ready⟩ := owned.initialized other initialized
    exact ⟨List.mem_append_left _ returned, ready⟩

end ObjcDyld.Initialize
