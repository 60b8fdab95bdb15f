import ObjcDyld.LoadMethods.Runs

/-!
# Removals while `+load` methods are called

A removal searches the list, and not the detached list that is being worked off. It is effective
when every entry that could still be called is found in the list.
-/

namespace ObjcDyld.LoadMethods

variable {runtime : Runtime} {state after : State}

namespace State

/-- The removal leaves no entry of the class: there is one at most, and it is not in the detached list. -/
def FindsClass (state : State) (cls : ℕ) : Prop :=
  (state.loadableClasses.countP fun entry => entry.target = some cls) ≤ 1 ∧
    ∀ entry ∈ state.phase.classesLeft, entry.target ≠ some cls

/-- The removal leaves no entry of the category, or the category is not called because of its class. -/
def FindsCategory (runtime : Runtime) (state : State) (cat : ℕ) : Prop :=
  runtime.loadableClass cat = none ∨
    (state.loadableCategories.countP fun entry => entry.target = some cat) ≤ 1 ∧
      ∀ entry ∈ state.phase.categoriesLeft, entry.target ≠ some cat

end State

/-- The steps with removals, as when an image is unmapped. -/
inductive RemovingStep (runtime : Runtime) : State → State → Prop where
  | step {state after : State} (step : Step runtime state after) : RemovingStep runtime state after
  | removeClass {state : State} (cls : ℕ) (user : state.InUserCode) : RemovingStep runtime state (state.removeClass cls)
  | removeCategory {state : State} (cat : ℕ) (user : state.InUserCode) :
      RemovingStep runtime state (state.removeCategory cat)

/-- The steps with removals of what is in the list. -/
inductive FindingStep (runtime : Runtime) : State → State → Prop where
  | step {state after : State} (step : Step runtime state after) : FindingStep runtime state after
  | removeClass {state : State} (cls : ℕ) (user : state.InUserCode) (finds : state.FindsClass cls) :
      FindingStep runtime state (state.removeClass cls)
  | removeCategory {state : State} (cat : ℕ) (user : state.InUserCode) (finds : state.FindsCategory runtime cat) :
      FindingStep runtime state (state.removeCategory cat)

/-- A class or category that is called has been scheduled after it was removed. -/
def NotStale (before : List Event) : Event → Prop
  | .loadedClass cls _ => ∀ earlier between, before = earlier ++ .unscheduledClass cls :: between →
      ∃ method, .scheduledClass cls method ∈ between
  | .loadedCategory cat _ _ => ∀ earlier between, before = earlier ++ .unscheduledCategory cat :: between →
      ∃ method, .scheduledCategory cat method ∈ between
  | _ => True

/-- The event is one that the code makes in this state. -/
def Makes (runtime : Runtime) (state : State) : Event → Prop
  | .loadedClass cls method => ⟨some cls, method⟩ ∈ state.phase.classesLeft
  | .loadedCategory cat cls method =>
      ⟨some cat, method⟩ ∈ state.phase.categoriesLeft ∧ runtime.loadableClass cat = some cls
  | .unscheduledClass _ => False
  | .unscheduledCategory _ => False
  | _ => True

/-- The entry is not called because of its category's class. -/
def Skipped (runtime : Runtime) (entry : Loadable) : Prop :=
  ∀ cat, entry.target = some cat → runtime.loadableClass cat = none

/-- What the next step does to the entries that wait, and what it calls. -/
structure Advances (runtime : Runtime) (state after : State) : Prop where
  classes : ∀ entry ∈ after.phase.classesLeft ++ after.loadableClasses,
    entry ∈ state.phase.classesLeft ++ state.loadableClasses
  categories : ∀ entry ∈ after.phase.categoriesLeft ++ after.loadableCategories,
    entry ∈ state.phase.categoriesLeft ++ state.loadableCategories ∨ entry ∈ state.phase.categoriesKept
  kept : ∀ entry ∈ after.phase.categoriesKept, entry ∈ state.phase.categoriesKept ∨ Skipped runtime entry
  history : after.history = state.history ∨ ∃ event, after.history = state.history ++ [event] ∧ Makes runtime state event

theorem mem_take_succ {list : List Loadable} {i : ℕ} {entry other : Loadable} (at_i : list[i]? = some entry)
    (member : other ∈ list.take (i + 1)) : other ∈ list.take i ∨ other = entry := by
  obtain ⟨inside, rfl⟩ := List.getElem?_eq_some_iff.mp at_i
  rw [List.take_succ_eq_append_getElem inside] at member
  exact (List.mem_append.mp member).imp_right List.mem_singleton.mp

theorem mem_take_modify {list : List Loadable} {i : ℕ} {entry : Loadable}
    (member : entry ∈ (list.modify i fun entry => { entry with target := none }).take (i + 1)) :
    entry ∈ list.take i ∨ entry.target = none := by
  have before : (list.modify i fun entry => { entry with target := none }).take i = list.take i := by
    rw [List.take_modify, List.modify_eq_self (List.length_take_le i list)]
  cases at_i : (list.modify i fun entry => { entry with target := none })[i]? with
  | none =>
      have beyond := List.getElem?_eq_none_iff.mp at_i
      rw [List.take_of_length_le (Nat.le_succ_of_le beyond), ← List.take_of_length_le beyond, before] at member
      exact .inl member
  | some last =>
      rw [← before]
      refine (mem_take_succ at_i member).imp_right ?_
      rintro rfl
      rw [List.getElem?_modify_eq] at at_i
      obtain ⟨old, -, rfl⟩ := Option.map_eq_some_iff.mp at_i
      rfl

theorem mem_drop_of_getElem? {list : List Loadable} {i : ℕ} {entry : Loadable} (at_i : list[i]? = some entry) :
    entry ∈ list.drop i := by
  obtain ⟨inside, rfl⟩ := List.getElem?_eq_some_iff.mp at_i
  rw [List.drop_eq_getElem_cons inside]
  exact List.mem_cons_self

theorem next_advances (run : state.next runtime = some after) : Advances runtime state after := by
  obtain ⟨classes, cats, loading, phase, history⟩ := state
  cases phase with
  | idle => cases run
  | looping =>
      rw [State.next] at run
      dsimp only at run
      split at run
      · obtain rfl := Option.some.inj run
        exact ⟨by simp [Phase.classesLeft], fun _ => .inl, fun _ kept => absurd kept List.not_mem_nil, .inl rfl⟩
      · obtain rfl := Option.some.inj run
        exact ⟨fun _ => id, fun _ member => .inl (by simpa [Phase.categoriesLeft] using member),
          by simp [Phase.categoriesKept], .inr ⟨_, rfl, trivial⟩⟩
  | classLoads batch i =>
      have fewer : ∀ entry ∈ batch.drop (i + 1) ++ classes, entry ∈ batch.drop i ++ classes := fun entry member =>
        List.mem_append.mpr ((List.mem_append.mp member).imp_left (drop_succ_subset batch i entry))
      rw [State.next] at run
      dsimp only at run
      split at run
      · obtain rfl := Option.some.inj run
        exact ⟨fun entry => List.mem_append_right _, fun _ => .inl, fun _ kept => absurd kept List.not_mem_nil, .inl rfl⟩
      · obtain rfl := Option.some.inj run
        exact ⟨fewer, fun _ => .inl, fun _ kept => absurd kept List.not_mem_nil, .inl rfl⟩
      · next cls method at_i =>
          obtain rfl := Option.some.inj run
          exact ⟨fewer, fun _ => .inl, fun _ kept => absurd kept List.not_mem_nil, .inr ⟨_, rfl, mem_drop_of_getElem? at_i⟩⟩
  | inClassLoad batch i =>
      obtain rfl := Option.some.inj run
      exact ⟨fun _ => id, fun _ => .inl, fun _ kept => absurd kept List.not_mem_nil, .inl rfl⟩
  | categoryLoads batch i =>
      have fewer : ∀ entry ∈ batch.drop (i + 1) ++ cats,
          entry ∈ batch.drop i ++ cats ∨ entry ∈ batch.take i := fun entry member =>
        .inl (List.mem_append.mpr ((List.mem_append.mp member).imp_left (drop_succ_subset batch i entry)))
      rw [State.next] at run
      dsimp only at run
      split at run
      · next at_end =>
          have beyond := List.getElem?_eq_none_iff.mp at_end
          have rejoins : ∀ entry ∈ batch.filter (·.target.isSome) ++ cats,
              entry ∈ batch.drop i ++ cats ∨ entry ∈ batch.take i := by
            intro entry member
            rw [List.take_of_length_le beyond]
            exact (List.mem_append.mp member).symm.imp (List.mem_append_right _) fun member => (List.mem_filter.mp member).1
          obtain rfl := Option.some.inj run
          rw [State.finishCategoryLoads, compact_filter]
          split
          · exact ⟨fun _ => id, rejoins, fun _ kept => absurd kept List.not_mem_nil, .inl rfl⟩
          · exact ⟨fun _ => id, rejoins, fun _ kept => absurd kept List.not_mem_nil, .inl rfl⟩
      · next method at_i =>
          obtain rfl := Option.some.inj run
          refine ⟨fun _ => id, fewer, fun entry member => (mem_take_succ at_i member).imp_right ?_, .inl rfl⟩
          rintro rfl cat target
          cases target
      · next cat method at_i =>
          split at run
          · next cls loads =>
              obtain rfl := Option.some.inj run
              exact ⟨fun _ => id, fewer, fun _ => .inl, .inr ⟨_, rfl, mem_drop_of_getElem? at_i, loads⟩⟩
          · next not_loadable =>
              obtain rfl := Option.some.inj run
              refine ⟨fun _ => id, fewer, fun entry member => (mem_take_succ at_i member).imp_right ?_,
                .inr ⟨_, rfl, trivial⟩⟩
              rintro rfl other target
              rwa [← Option.some.inj target]
  | inCategoryLoad batch i =>
      obtain rfl := Option.some.inj run
      refine ⟨fun _ => id, fun entry member => .inl ?_, fun entry member => ?_, .inl rfl⟩
      · rwa [Phase.categoriesLeft, List.drop_modify_of_lt _ _ _ _ (Nat.lt_succ_self i)] at member
      · refine (mem_take_modify member).imp_right fun nil cat target => ?_
        cases nil.symm.trans target

/-- Since each removal, the target has been scheduled again, or it is gone. -/
def Since (history : List Event) (removed : Event) (again : ℕ → Event) (gone : Prop) : Prop :=
  ∀ earlier between, history = earlier ++ removed :: between → (∃ method, again method ∈ between) ∨ gone

theorem Since.imp {history : List Event} {removed : Event} {again : ℕ → Event} {gone gone' : Prop}
    (since : Since history removed again gone) (stays : gone → gone') : Since history removed again gone' :=
  fun earlier between split => (since earlier between split).imp_right stays

theorem Since.concat {history : List Event} {removed event : Event} {again : ℕ → Event} {gone gone' : Prop}
    (since : Since history removed again gone) (now : event = removed → gone')
    (stays : gone → gone' ∨ ∃ method, event = again method) : Since (history ++ [event]) removed again gone' := by
  intro earlier between split
  obtain ⟨-, same, -⟩ | ⟨rest, rfl, found⟩ := Prefixes.concat_eq_append_cons split
  · exact .inr (now same.symm)
  · obtain ⟨method, member⟩ | gone := since earlier rest found
    · exact .inl ⟨method, List.mem_append_left _ member⟩
    · refine (stays gone).symm.imp_left fun ⟨method, same⟩ => ?_
      exact ⟨method, List.mem_append_right _ (same ▸ List.mem_cons_self)⟩

/-- No entry of the class waits. -/
def NoClass (state : State) (cls : ℕ) : Prop :=
  ∀ entry ∈ state.phase.classesLeft ++ state.loadableClasses, entry.target ≠ some cls

/-- No entry of the category waits to be called. -/
def NoCategory (runtime : Runtime) (state : State) (cat : ℕ) : Prop :=
  ∀ entry ∈ state.phase.categoriesLeft ++ state.loadableCategories, entry.target = some cat →
    runtime.loadableClass cat = none

structure RemovedInv (runtime : Runtime) (state : State) : Prop where
  kept : ∀ entry ∈ state.phase.categoriesKept, Skipped runtime entry
  classes : ∀ cls, Since state.history (.unscheduledClass cls) (.scheduledClass cls) (NoClass state cls)
  categories : ∀ cat, Since state.history (.unscheduledCategory cat) (.scheduledCategory cat) (NoCategory runtime state cat)
  notStale : Prefixes.Each NotStale state.history

theorem start_removedInv : RemovedInv runtime State.start :=
  ⟨nofun, fun cls earlier between split => by simp [State.start] at split,
    fun cat earlier between split => by simp [State.start] at split, Prefixes.each_nil⟩

theorem RemovedInv.makes (inv : RemovedInv runtime state) {event : Event} (makes : Makes runtime state event) :
    NotStale state.history event := by
  cases event with
  | loadedClass cls method =>
      intro earlier between split
      refine (inv.classes cls earlier between split).resolve_right fun gone => ?_
      exact gone _ (List.mem_append_left _ makes) rfl
  | loadedCategory cat cls method =>
      intro earlier between split
      refine (inv.categories cat earlier between split).resolve_right fun gone => ?_
      exact nomatch (gone _ (List.mem_append_left _ makes.1) rfl).symm.trans makes.2
  | scheduledClass cls method => trivial
  | scheduledCategory cat method => trivial
  | unscheduledClass cls => trivial
  | unscheduledCategory cat => trivial
  | tookCategories cats => trivial
  | skippedCategory cat => trivial

theorem RemovedInv.next (inv : RemovedInv runtime state) (run : state.next runtime = some after) :
    RemovedInv runtime after := by
  obtain ⟨classes, categories, kept, history⟩ := next_advances run
  have kept' : ∀ entry ∈ after.phase.categoriesKept, Skipped runtime entry :=
    fun entry member => (kept entry member).elim (inv.kept entry) id
  have no_class {cls : ℕ} (gone : NoClass state cls) : NoClass after cls :=
    fun entry member => gone entry (classes entry member)
  have no_category {cat : ℕ} (gone : NoCategory runtime state cat) : NoCategory runtime after cat :=
    fun entry member target => (categories entry member).elim (fun member => gone entry member target)
      fun member => inv.kept entry member cat target
  obtain same | ⟨event, appended, makes⟩ := history
  · exact ⟨kept', fun cls => same ▸ (inv.classes cls).imp no_class, fun cat => same ▸ (inv.categories cat).imp no_category,
      same ▸ inv.notStale⟩
  · refine ⟨kept', fun cls => ?_, fun cat => ?_, appended ▸ Prefixes.each_concat_iff.mpr ⟨inv.notStale, inv.makes makes⟩⟩
    · rw [appended]
      exact (inv.classes cls).concat (fun same => (same ▸ makes).elim) fun gone => .inl (no_class gone)
    · rw [appended]
      exact (inv.categories cat).concat (fun same => (same ▸ makes).elim) fun gone => .inl (no_category gone)

theorem RemovedInv.addClass (inv : RemovedInv runtime state) (cls : ℕ) : RemovedInv runtime (state.addClass runtime cls) := by
  rw [State.addClass]
  split
  · exact inv
  · next method has =>
      refine ⟨inv.kept, fun other => (inv.classes other).concat (fun same => by cases same) fun gone => ?_,
        fun cat => (inv.categories cat).concat (fun same => by cases same) .inl, Prefixes.each_concat_iff.mpr ⟨inv.notStale, trivial⟩⟩
      by_cases same : cls = other
      · exact .inr ⟨method, by rw [same]⟩
      · refine .inl fun entry member => ?_
        rw [← List.append_assoc] at member
        obtain member | new := List.mem_append.mp member
        · exact gone entry member
        · rw [List.mem_singleton.mp new]
          exact fun target => same (Option.some.inj target)

theorem RemovedInv.addCategory (inv : RemovedInv runtime state) (cat : ℕ) :
    RemovedInv runtime (state.addCategory runtime cat) := by
  rw [State.addCategory]
  split
  · exact inv
  · next method has =>
      refine ⟨inv.kept, fun cls => (inv.classes cls).concat (fun same => by cases same) .inl,
        fun other => (inv.categories other).concat (fun same => by cases same) fun gone => ?_, Prefixes.each_concat_iff.mpr ⟨inv.notStale, trivial⟩⟩
      by_cases same : cat = other
      · exact .inr ⟨method, by rw [same]⟩
      · refine .inl fun entry member target => ?_
        rw [← List.append_assoc] at member
        obtain member | new := List.mem_append.mp member
        · exact gone entry member target
        · rw [List.mem_singleton.mp new] at target
          exact absurd (Option.some.inj target) same

theorem removeTarget_cons (first : Loadable) (rest : List Loadable) (target : ℕ) :
    State.removeTarget (first :: rest) target =
      if first.target = some target then { first with target := none } :: rest
      else first :: State.removeTarget rest target := by
  rw [State.removeTarget, List.findIdx?_cons]
  by_cases same : first.target = some target
  · simp [same]
  · rw [if_neg (by simpa using same), if_neg same, State.removeTarget]
    cases rest.findIdx? fun entry => entry.target = some target with
    | none => rfl
    | some i => rfl

theorem removeTarget_spec (list : List Loadable) (target : ℕ) :
    (∀ entry ∈ State.removeTarget list target, entry ∈ list ∨ entry.target = none) ∧
      ((list.countP fun entry => entry.target = some target) ≤ 1 →
        ∀ entry ∈ State.removeTarget list target, entry.target ≠ some target) := by
  induction list with
  | nil => exact ⟨nofun, fun _ => nofun⟩
  | cons first rest ih =>
      obtain ⟨others, removed⟩ := ih
      rw [removeTarget_cons]
      by_cases same : first.target = some target
      · rw [if_pos same]
        refine ⟨fun entry member => ?_, fun single entry member => ?_⟩
        · obtain rfl | member := List.mem_cons.mp member
          · exact .inr rfl
          · exact .inl (List.mem_cons_of_mem _ member)
        · rw [List.countP_cons_of_pos (by simpa using same)] at single
          have none_left := List.countP_eq_zero.mp (Nat.le_zero.mp (Nat.le_of_succ_le_succ single))
          obtain rfl | member := List.mem_cons.mp member
          · exact nofun
          · exact fun also => none_left entry member (decide_eq_true also)
      · rw [if_neg same]
        refine ⟨fun entry member => ?_, fun single entry member => ?_⟩
        · obtain rfl | member := List.mem_cons.mp member
          · exact .inl List.mem_cons_self
          · exact (others entry member).imp_left (List.mem_cons_of_mem _)
        · rw [List.countP_cons_of_neg (by simpa using same)] at single
          obtain rfl | member := List.mem_cons.mp member
          · exact same
          · exact removed single entry member

theorem RemovedInv.removeClass (inv : RemovedInv runtime state) {cls : ℕ} (finds : state.FindsClass cls) :
    RemovedInv runtime (state.removeClass cls) := by
  obtain ⟨others, removed⟩ := removeTarget_spec state.loadableClasses cls
  refine ⟨inv.kept, fun other => (inv.classes other).concat ?_ fun gone => .inl ?_,
    fun cat => (inv.categories cat).concat nofun .inl, Prefixes.each_concat_iff.mpr ⟨inv.notStale, trivial⟩⟩
  · intro same
    obtain rfl := Event.unscheduledClass.inj same
    exact fun entry member => (List.mem_append.mp member).elim (finds.2 entry) (removed finds.1 entry)
  · intro entry member
    obtain member | member := List.mem_append.mp member
    · exact gone entry (List.mem_append_left _ member)
    · obtain member | nil := others entry member
      · exact gone entry (List.mem_append_right _ member)
      · rw [nil]
        exact nofun

theorem RemovedInv.removeCategory (inv : RemovedInv runtime state) {cat : ℕ} (finds : state.FindsCategory runtime cat) :
    RemovedInv runtime (state.removeCategory cat) := by
  obtain ⟨others, removed⟩ := removeTarget_spec state.loadableCategories cat
  refine ⟨inv.kept, fun cls => (inv.classes cls).concat nofun .inl,
    fun other => (inv.categories other).concat ?_ fun gone => .inl ?_, Prefixes.each_concat_iff.mpr ⟨inv.notStale, trivial⟩⟩
  · intro same
    obtain rfl := Event.unscheduledCategory.inj same
    obtain skipped | ⟨single, left⟩ := finds
    · exact fun _ _ _ => skipped
    · exact fun entry member target => absurd target
        ((List.mem_append.mp member).elim (left entry) (removed single entry))
  · intro entry member target
    obtain member | member := List.mem_append.mp member
    · exact gone entry (List.mem_append_left _ member) target
    · obtain member | nil := others entry member
      · exact gone entry (List.mem_append_right _ member) target
      · exact nomatch nil.symm.trans target

theorem RemovedInv.step (inv : RemovedInv runtime state) (step : FindingStep runtime state after) :
    RemovedInv runtime after := by
  cases step with
  | step step =>
      cases step with
      | next run => exact inv.next run
      | callLoadMethods user =>
          rw [State.callLoadMethods]
          split
          · exact inv
          · exact ⟨fun _ kept => absurd kept List.not_mem_nil, fun cls => (inv.classes cls).imp fun gone entry member => gone entry (List.mem_append_right _ member),
              fun cat => (inv.categories cat).imp fun gone entry member => gone entry (List.mem_append_right _ member),
              inv.notStale⟩
      | addClass cls user => exact inv.addClass cls
      | addCategory cat user => exact inv.addCategory cat
  | removeClass cls user finds => exact inv.removeClass finds
  | removeCategory cat user finds => exact inv.removeCategory finds

/-- In every run in which each removal finds what waits, no `+load` of a class or category is called that has been
removed and not been scheduled again. -/
theorem notStale_of_finding (path : Relation.ReflTransGen (FindingStep runtime) State.start state) :
    Prefixes.Each NotStale state.history := by
  suffices RemovedInv runtime state from this.notStale
  induction path with
  | refl => exact start_removedInv
  | tail path step inv => exact inv.step step

/-- The first class's method removes the second class after the call of its own, and schedules it again. -/
theorem notStale_of_finding_again :
    ∃ state, Relation.ReflTransGen (FindingStep plainRuntime) State.start state ∧
      state.history = [.scheduledClass 8 8, .loadedClass 8 8, .scheduledClass 24 24, .unscheduledClass 24,
        .scheduledClass 24 24, .loadedClass 24 24] ∧ Prefixes.Each NotStale state.history := by
  have path : Relation.ReflTransGen (FindingStep plainRuntime) State.start _ :=
    .tail (.tail (.tail (.tail (.tail (.tail (.tail (.tail (.tail (.tail (.tail (.tail .refl
      (.step (.addClass 8 trivial)))
      (.step (.callLoadMethods trivial)))
      (.step (.next rfl)))
      (.step (.next rfl)))
      (.step (.addClass 24 trivial)))
      (.removeClass 24 trivial ⟨by decide, nofun⟩))
      (.step (.addClass 24 trivial)))
      (.step (.next rfl)))
      (.step (.next rfl)))
      (.step (.next rfl)))
      (.step (.next rfl)))
      (.step (.next rfl))
  exact ⟨_, path, rfl, notStale_of_finding path⟩

/-- The first class's method removes the second class of the same batch, which is called nevertheless. -/
theorem not_notStale_sameBatch :
    ∃ state, Relation.ReflTransGen (RemovingStep plainRuntime) State.start state ∧
      ¬Prefixes.Each NotStale state.history := by
  have path : Relation.ReflTransGen (RemovingStep plainRuntime) State.start _ :=
    .tail (.tail (.tail (.tail (.tail (.tail (.tail (.tail .refl
      (.step (.addClass 8 trivial)))
      (.step (.addClass 24 trivial)))
      (.step (.callLoadMethods trivial)))
      (.step (.next rfl)))
      (.step (.next rfl)))
      (.removeClass 24 trivial))
      (.step (.next rfl)))
      (.step (.next rfl))
  refine ⟨_, path, fun notStale => ?_⟩
  obtain ⟨method, member⟩ := notStale
    [.scheduledClass 8 8, .scheduledClass 24 24, .loadedClass 8 8, .unscheduledClass 24] (.loadedClass 24 24) [] rfl
    [.scheduledClass 8 8, .scheduledClass 24 24, .loadedClass 8 8] [] rfl
  exact nomatch member

end ObjcDyld.LoadMethods
