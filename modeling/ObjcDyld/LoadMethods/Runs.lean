import ObjcDyld.Common.Prefixes
import ObjcDyld.LoadMethods.Steps

/-!
# Every `+load` is called once

What has been called, what is left of the detached list, and what is in the list, are together what
has been scheduled, in its order. Every step of `call_load_methods` and of the methods keeps this.
-/

namespace ObjcDyld.LoadMethods

def scheduledClasses (history : List Event) : List (ℕ × ℕ) :=
  history.filterMap fun
    | .scheduledClass cls method => some (cls, method)
    | _ => none

def loadedClasses (history : List Event) : List (ℕ × ℕ) :=
  history.filterMap fun
    | .loadedClass cls method => some (cls, method)
    | _ => none

def scheduledCategories (history : List Event) : List (ℕ × ℕ) :=
  history.filterMap fun
    | .scheduledCategory cat method => some (cat, method)
    | _ => none

def loadedCategories (history : List Event) : List (ℕ × ℕ) :=
  history.filterMap fun
    | .loadedCategory cat _ method => some (cat, method)
    | _ => none

/-- The targets and methods of a list; an entry whose target is nil does not count. -/
def pairs (list : List Loadable) : List (ℕ × ℕ) := list.filterMap fun entry => entry.target.map (·, entry.method)

@[simp] theorem pairs_append (first second : List Loadable) : pairs (first ++ second) = pairs first ++ pairs second :=
  List.filterMap_append

@[simp] theorem pairs_nil : pairs [] = [] := rfl

theorem pairs_drop {list : List Loadable} {i : ℕ} {entry : Loadable} (at_i : list[i]? = some entry) :
    pairs (list.drop i) = pairs [entry] ++ pairs (list.drop (i + 1)) := by
  obtain ⟨inside, rfl⟩ := List.getElem?_eq_some_iff.mp at_i
  rw [List.drop_eq_getElem_cons inside, ← pairs_append, List.singleton_append]

theorem pairs_take {list : List Loadable} {i : ℕ} {entry : Loadable} (at_i : list[i]? = some entry) :
    pairs (list.take (i + 1)) = pairs (list.take i) ++ pairs [entry] := by
  obtain ⟨inside, rfl⟩ := List.getElem?_eq_some_iff.mp at_i
  rw [List.take_succ_eq_append_getElem inside, pairs_append]

theorem pairs_take_modify (list : List Loadable) (i : ℕ) :
    pairs ((list.modify i fun entry => { entry with target := none }).take (i + 1)) = pairs (list.take i) := by
  have before : (list.modify i fun entry => { entry with target := none }).take i = list.take i := by
    rw [List.take_modify, List.modify_eq_self (List.length_take_le i list)]
  cases at_i : (list.modify i fun entry => { entry with target := none })[i]? with
  | none =>
      have beyond := List.getElem?_eq_none_iff.mp at_i
      rw [← before, List.take_of_length_le beyond, List.take_of_length_le (Nat.le_succ_of_le beyond)]
  | some entry =>
      rw [pairs_take at_i, before]
      rw [List.getElem?_modify_eq] at at_i
      obtain ⟨old, -, rfl⟩ := Option.map_eq_some_iff.mp at_i
      exact List.append_nil _

theorem pairs_filter (list : List Loadable) : pairs (list.filter (·.target.isSome)) = pairs list := by
  rw [pairs, List.filterMap_filter, pairs]
  refine List.filterMap_congr fun entry _ => ?_
  cases entry.target <;> rfl

theorem compact_eq (kept gap rest : List Loadable) :
    State.compact rest.length (kept.length + gap.length) gap.length (kept ++ gap ++ rest) =
      kept ++ rest.filter (·.target.isSome) := by
  induction rest generalizing kept gap with
  | nil => simp [State.compact]
  | cons entry rest ih =>
      have at_i : (kept ++ gap ++ entry :: rest)[kept.length + gap.length]? = some entry := by
        rw [← List.length_append, List.getElem?_append_right le_rfl, Nat.sub_self, List.getElem?_cons_zero]
      rw [List.length_cons, State.compact, at_i]
      dsimp only
      split
      · next present =>
          rw [List.filter_cons, if_pos present, Nat.add_sub_cancel]
          cases gap with
          | nil =>
              have same : (kept ++ [] ++ entry :: rest).set kept.length entry = (kept ++ [entry]) ++ [] ++ rest := by simp
              have := ih (kept ++ [entry]) []
              simp only [List.length_append, List.length_singleton, List.length_nil, Nat.add_zero] at this ⊢
              rw [same, this, List.append_assoc, List.singleton_append]
          | cons hole gap =>
              have moved : (kept ++ hole :: gap ++ entry :: rest).set kept.length entry =
                  (kept ++ [entry]) ++ (gap ++ [entry]) ++ rest := by simp
              have := ih (kept ++ [entry]) (gap ++ [entry])
              simp only [List.length_append, List.length_cons, List.length_nil, Nat.zero_add] at this ⊢
              rw [moved, show kept.length + (gap.length + 1) + 1 = kept.length + 1 + (gap.length + 1) by omega, this,
                List.append_assoc, List.singleton_append]
      · next absent =>
          rw [List.filter_cons, if_neg absent]
          have := ih kept (gap ++ [entry])
          rw [List.length_append, List.length_singleton] at this
          rw [Nat.add_assoc, ← this]
          simp

theorem compact_filter (cats : List Loadable) :
    State.compact cats.length 0 0 cats = cats.filter (·.target.isSome) := by
  simpa using compact_eq [] [] cats

namespace Phase

def classesLeft : Phase → List Loadable
  | .classLoads classes i => classes.drop i
  | .inClassLoad classes i => classes.drop (i + 1)
  | _ => []

def categoriesLeft : Phase → List Loadable
  | .categoryLoads cats i => cats.drop i
  | .inCategoryLoad cats i => cats.drop (i + 1)
  | _ => []

/-- The categories of the detached list that stay. -/
def categoriesKept : Phase → List Loadable
  | .categoryLoads cats i => cats.take i
  | .inCategoryLoad cats i => cats.take i
  | _ => []

/-- In `call_category_loads`. -/
def InCategories : Phase → Prop
  | .categoryLoads .. => True
  | .inCategoryLoad .. => True
  | _ => False

end Phase

section Filters

variable (runtime : Runtime)

def loads (pair : ℕ × ℕ) : Bool := (runtime.loadableClass pair.1).isSome

end Filters

/-- A category's `+load` is called from the list taken last, and all classes before that have been called. -/
def Ordered (before : List Event) : Event → Prop
  | .tookCategories _ => loadedClasses before = scheduledClasses before
  | .loadedCategory cat _ _ => ∃ earlier batch between, before = earlier ++ .tookCategories batch :: between ∧
      (∃ entry ∈ batch, entry.target = some cat) ∧ ∀ other, .tookCategories other ∉ between
  | _ => True

/-- The list of categories that the loop is at was taken last. -/
def Taken (history : List Event) (left : List Loadable) : Prop :=
  ∃ earlier batch between, history = earlier ++ .tookCategories batch :: between ∧
    (∀ entry ∈ left, entry ∈ batch) ∧ ∀ other, .tookCategories other ∉ between

structure Inv (runtime : Runtime) (state : State) : Prop where
  loading : state.loading = true ↔ state.phase ≠ .idle
  classes : loadedClasses state.history ++ pairs state.phase.classesLeft ++ pairs state.loadableClasses =
    scheduledClasses state.history
  loadable : loadedCategories state.history ++
      (pairs state.phase.categoriesLeft ++ pairs state.loadableCategories).filter (loads runtime) =
    (scheduledCategories state.history).filter (loads runtime)
  kept : ∀ pair ∈ pairs state.phase.categoriesKept, loads runtime pair = false ∧ .skippedCategory pair.1 ∈ state.history
  ordered : Prefixes.Each Ordered state.history
  taken : state.phase.InCategories → Taken state.history state.phase.categoriesLeft
  /-- While categories are called, new classes wait in the list. -/
  detached : state.phase.InCategories → state.phase.classesLeft = []

variable {runtime : Runtime} {state after : State}

theorem Taken.mono {history : List Event} {left left' : List Loadable} (taken : Taken history left)
    (fewer : ∀ entry ∈ left', entry ∈ left) : Taken history left' := by
  obtain ⟨earlier, batch, between, split, inside, last⟩ := taken
  exact ⟨earlier, batch, between, split, fun entry member => inside entry (fewer entry member), last⟩

theorem drop_succ_subset (batch : List Loadable) (i : ℕ) : ∀ entry ∈ batch.drop (i + 1), entry ∈ batch.drop i :=
  fun _ member => (List.drop_sublist_drop_left batch (Nat.le_succ i)).subset member

theorem Taken.concat {history : List Event} {left left' : List Loadable} (taken : Taken history left) (event : Event)
    (fewer : ∀ entry ∈ left', entry ∈ left) (other : ∀ batch, event ≠ .tookCategories batch) :
    Taken (history ++ [event]) left' := by
  obtain ⟨earlier, batch, between, rfl, inside, last⟩ := taken
  refine ⟨earlier, batch, between ++ [event], by simp, fun entry member => inside entry (fewer entry member), fun batch' member => ?_⟩
  obtain member | same := List.mem_append.mp member
  · exact last batch' member
  · exact other batch' (List.mem_singleton.mp same).symm

theorem start_inv : Inv runtime State.start :=
  ⟨by decide, rfl, rfl, nofun, Prefixes.each_nil, nofun, nofun⟩

theorem Inv.callLoadMethods (inv : Inv runtime state) :
    Inv runtime state.callLoadMethods := by
  rw [State.callLoadMethods]
  split
  · exact inv
  · next not_loading =>
      have idle : state.phase = .idle := by
        by_contra busy
        exact not_loading (inv.loading.mpr busy)
      have classes := inv.classes
      have loadable := inv.loadable
      rw [idle] at classes loadable
      exact ⟨by simp, classes, loadable, nofun, inv.ordered, nofun, nofun⟩

theorem Inv.addClass (inv : Inv runtime state) (cls : ℕ) : Inv runtime (state.addClass runtime cls) := by
  rw [State.addClass]
  split
  · exact inv
  · next method has =>
      refine ⟨inv.loading, ?_, ?_, fun pair member => (inv.kept pair member).imp_right (List.mem_append_left _),
        Prefixes.each_concat_iff.mpr ⟨inv.ordered, trivial⟩,
        fun inside => (inv.taken inside).concat _ (fun _ => id) nofun, inv.detached⟩
      · have classes := inv.classes
        simp only [loadedClasses, scheduledClasses, pairs] at classes ⊢
        simp only [List.filterMap_append, ← classes]
        simp
      · have loadable := inv.loadable
        simp only [loadedCategories, scheduledCategories] at loadable ⊢
        simp only [List.filterMap_append]
        simpa using loadable

theorem Inv.addCategory (inv : Inv runtime state) (cat : ℕ) : Inv runtime (state.addCategory runtime cat) := by
  rw [State.addCategory]
  split
  · exact inv
  · next method has =>
      refine ⟨inv.loading, ?_, ?_, fun pair member => (inv.kept pair member).imp_right (List.mem_append_left _),
        Prefixes.each_concat_iff.mpr ⟨inv.ordered, trivial⟩,
        fun inside => (inv.taken inside).concat _ (fun _ => id) nofun, inv.detached⟩
      · have classes := inv.classes
        simp only [loadedClasses, scheduledClasses] at classes ⊢
        simp only [List.filterMap_append]
        simpa using classes
      · have loadable := inv.loadable
        simp only [loadedCategories, scheduledCategories, pairs] at loadable ⊢
        simp only [List.filterMap_append, List.filter_append, ← loadable]
        simp

theorem finish_inv {classes cats batch : List Loadable} {loading : Bool} {i : ℕ} {history : List Event}
    (inv : Inv runtime ⟨classes, cats, loading, .categoryLoads batch i, history⟩) (beyond : batch.length ≤ i) :
    Inv runtime (State.finishCategoryLoads ⟨classes, cats, loading, .categoryLoads batch i, history⟩ batch) := by
  obtain ⟨loading', called, loadable, kept, ordered, taken, detached⟩ := inv
  have ended : batch.drop i = [] := List.drop_eq_nil_of_le beyond
  have joined : pairs (batch.filter (·.target.isSome) ++ cats) = pairs batch ++ pairs cats := by
    rw [pairs_append, pairs_filter]
  rw [Phase.categoriesKept, List.take_of_length_le beyond] at kept
  -- nothing that is kept will be called
  have skipped : (pairs batch).filter (loads runtime) = [] :=
    List.filter_eq_nil_iff.mpr fun pair member => by simp [(kept pair member).1]
  rw [State.finishCategoryLoads, compact_filter]
  simp only [Phase.classesLeft, Phase.categoriesLeft, ended] at called loadable
  split
  · refine ⟨by simpa using loading', called, ?_, nofun, ordered, nofun, nofun⟩
    simp only [Phase.categoriesLeft, joined, List.filter_append, skipped]
    simpa using loadable
  · refine ⟨by simp, called, ?_, nofun, ordered, nofun, nofun⟩
    simp only [Phase.categoriesLeft, joined, List.filter_append, skipped]
    simpa using loadable

theorem Inv.next (inv : Inv runtime state) (run : state.next runtime = some after) : Inv runtime after := by
  obtain ⟨classes, cats, loading, phase, history⟩ := state
  obtain ⟨loading, called, loadable, kept, ordered, taken, detached⟩ := inv
  cases phase with
  | idle => exact nomatch run
  | looping =>
      rw [State.next] at run
      dsimp only at run
      split at run
      · obtain rfl := Option.some.inj run
        exact ⟨by simpa using loading, by simpa [Phase.classesLeft] using called, loadable, nofun, ordered, nofun, nofun⟩
      · next none_left =>
          obtain rfl : classes = [] := List.length_eq_zero_iff.mp (by omega)
          obtain rfl := Option.some.inj run
          refine ⟨by simpa using loading, ?_, ?_, nofun,
            Prefixes.each_concat_iff.mpr ⟨ordered, by simpa [Phase.classesLeft, Ordered] using called⟩,
            fun _ => ⟨history, cats, [], rfl, fun entry => id, nofun⟩, fun _ => rfl⟩
          · simpa [Phase.classesLeft, loadedClasses, scheduledClasses] using called
          · simpa [Phase.categoriesLeft, loadedCategories, scheduledCategories] using loadable
  | classLoads batch i =>
      rw [State.next] at run
      dsimp only at run
      split at run
      · next at_end =>
          obtain rfl := Option.some.inj run
          have ended : batch.drop i = [] := List.drop_eq_nil_of_le (List.getElem?_eq_none_iff.mp at_end)
          exact ⟨by simpa using loading, by simpa [Phase.classesLeft, ended] using called, loadable, nofun, ordered, nofun, nofun⟩
      · next method at_i =>
          obtain rfl := Option.some.inj run
          refine ⟨by simpa using loading, ?_, loadable, nofun, ordered, nofun, nofun⟩
          rw [Phase.classesLeft, pairs_drop at_i] at called
          exact called
      · next cls method at_i =>
          obtain rfl := Option.some.inj run
          refine ⟨by simpa using loading, ?_, ?_, nofun, Prefixes.each_concat_iff.mpr ⟨ordered, trivial⟩, nofun, nofun⟩
          · rw [Phase.classesLeft, pairs_drop at_i] at called
            simpa [Phase.classesLeft, loadedClasses, scheduledClasses, pairs] using called
          · simpa [Phase.categoriesLeft, loadedCategories, scheduledCategories] using loadable
  | inClassLoad batch i =>
      obtain rfl := Option.some.inj run
      exact ⟨by simpa using loading, called, loadable, nofun, ordered, nofun, nofun⟩
  | categoryLoads batch i =>
      rw [State.next] at run
      dsimp only at run
      split at run
      · next at_end =>
          obtain rfl := Option.some.inj run
          have beyond := List.getElem?_eq_none_iff.mp at_end
          exact finish_inv ⟨loading, called, loadable, kept, ordered, taken, detached⟩ beyond
      · next method at_i =>
          obtain rfl := Option.some.inj run
          rw [Phase.categoriesLeft, pairs_drop at_i] at loadable
          rw [Phase.categoriesKept] at kept
          refine ⟨by simpa using loading, called, loadable, ?_, ordered,
            fun inside => (taken inside).mono (drop_succ_subset batch i), detached⟩
          rw [Phase.categoriesKept, pairs_take at_i]
          simpa [pairs] using kept
      · next cat method at_i =>
          rw [Phase.categoriesLeft, pairs_drop at_i] at loadable
          rw [Phase.categoriesKept] at kept
          split at run
          · next cls loaded =>
              obtain rfl := Option.some.inj run
              have loads : loads runtime (cat, method) = true := by rw [loads, loaded]; rfl
              refine ⟨by simpa using loading, ?_, ?_, fun pair member => (kept pair member).imp_right (List.mem_append_left _),
                Prefixes.each_concat_iff.mpr ⟨ordered, ?_⟩,
                fun _ => (taken trivial).concat _ (drop_succ_subset batch i) nofun, fun _ => rfl⟩
              · simpa [Phase.classesLeft, loadedClasses, scheduledClasses] using called
              · simpa [Phase.categoriesLeft, loadedCategories, scheduledCategories, pairs, loads] using loadable
              · obtain ⟨earlier, detachedList, between, split, inside, last⟩ := taken trivial
                have member : (⟨some cat, method⟩ : Loadable) ∈ batch.drop i := List.mem_of_getElem? (i := 0) (by simpa using at_i)
                exact ⟨earlier, detachedList, between, split, ⟨_, inside _ member, rfl⟩, last⟩
          · next not_loadable =>
              obtain rfl := Option.some.inj run
              have skips : LoadMethods.loads runtime (cat, method) = false := by rw [loads, not_loadable]; rfl
              refine ⟨by simpa using loading, ?_, ?_, ?_, Prefixes.each_concat_iff.mpr ⟨ordered, trivial⟩,
                fun _ => (taken trivial).concat _ (drop_succ_subset batch i) nofun, fun _ => rfl⟩
              · simpa [Phase.classesLeft, loadedClasses, scheduledClasses] using called
              · simpa [Phase.categoriesLeft, loadedCategories, scheduledCategories, pairs, skips] using loadable
              · intro pair member
                rw [Phase.categoriesKept, pairs_take at_i] at member
                obtain member | member := List.mem_append.mp member
                · exact (kept pair member).imp_right (List.mem_append_left _)
                · obtain rfl : pair = (cat, method) := by simpa [pairs] using member
                  exact ⟨skips, List.mem_append_right _ List.mem_cons_self⟩
  | inCategoryLoad batch i =>
      obtain rfl := Option.some.inj run
      rw [Phase.categoriesLeft] at loadable taken
      rw [Phase.categoriesKept] at kept
      have left : (batch.modify i fun entry => { entry with target := none }).drop (i + 1) = batch.drop (i + 1) :=
        List.drop_modify_of_lt _ _ _ _ (Nat.lt_succ_self i)
      refine ⟨by simpa using loading, called, ?_, ?_, ordered, fun inside => ?_, detached⟩
      · rw [Phase.categoriesLeft, left]
        exact loadable
      · rw [Phase.categoriesKept, pairs_take_modify]
        exact kept
      · rw [Phase.categoriesLeft, left]
        exact taken trivial

theorem Inv.step (inv : Inv runtime state) (step : Step runtime state after) : Inv runtime after := by
  cases step with
  | next run => exact inv.next run
  | callLoadMethods user => exact inv.callLoadMethods
  | addClass cls user => exact inv.addClass cls
  | addCategory cat user => exact inv.addCategory cat

theorem reaches (path : Relation.ReflTransGen (Step runtime) State.start state) : Inv runtime state := by
  induction path with
  | refl => exact start_inv
  | tail path step inv => exact inv.step step

theorem next_idle (run : state.next runtime = some after) (idle : after.phase = .idle) :
    ∃ batch i, state.phase = .categoryLoads batch i ∧ batch.length ≤ i ∧ state.loadableClasses = [] ∧
      state.loadableCategories = [] ∧ after.loadableClasses = [] ∧
      after.loadableCategories = batch.filter (·.target.isSome) ∧ after.history = state.history := by
  obtain ⟨classes, cats, loading, phase, history⟩ := state
  cases phase with
  | idle => exact nomatch run
  | looping =>
      rw [State.next] at run
      dsimp only at run
      split at run
      all_goals
        obtain rfl := Option.some.inj run
        exact nomatch idle
  | classLoads batch i =>
      rw [State.next] at run
      dsimp only at run
      split at run
      all_goals
        obtain rfl := Option.some.inj run
        exact nomatch idle
  | inClassLoad batch i =>
      obtain rfl := Option.some.inj run
      exact nomatch idle
  | categoryLoads batch i =>
      rw [State.next] at run
      dsimp only at run
      split at run
      · next at_end =>
          obtain rfl := Option.some.inj run
          rw [State.finishCategoryLoads, compact_filter] at idle ⊢
          split at idle
          · exact nomatch idle
          · next nothing =>
              obtain ⟨no_classes, no_cats⟩ := not_or.mp nothing
              obtain rfl : classes = [] := List.length_eq_zero_iff.mp (Nat.eq_zero_of_not_pos no_classes)
              obtain rfl : cats = [] := List.length_eq_zero_iff.mp (Nat.eq_zero_of_not_pos no_cats)
              exact ⟨batch, i, rfl, List.getElem?_eq_none_iff.mp at_end, rfl, rfl, by simp, by simp, by simp⟩
      · obtain rfl := Option.some.inj run
        exact nomatch idle
      · split at run
        all_goals
          obtain rfl := Option.some.inj run
          exact nomatch idle
  | inCategoryLoad batch i =>
      obtain rfl := Option.some.inj run
      exact nomatch idle

theorem Inv.returned (inv : Inv runtime state) (run : state.next runtime = some after) (idle : after.phase = .idle) :
    after.loadableClasses = [] ∧ loadedClasses after.history = scheduledClasses after.history ∧
      loadedCategories after.history = (scheduledCategories after.history).filter (loads runtime) ∧
      ∀ entry ∈ after.loadableCategories, ∃ cat, entry.target = some cat ∧ runtime.loadableClass cat = none ∧
        .skippedCategory cat ∈ after.history := by
  obtain ⟨batch, i, at_end, beyond, no_classes, no_cats, no_classes', left, same⟩ := next_idle run idle
  have classes := inv.classes
  have loadable := inv.loadable
  have kept := inv.kept
  rw [at_end] at classes loadable kept
  rw [Phase.categoriesKept, List.take_of_length_le beyond] at kept
  simp only [no_classes, no_cats, Phase.classesLeft, Phase.categoriesLeft, List.drop_eq_nil_of_le beyond, pairs_nil,
    List.append_nil, List.filter_nil] at classes loadable
  rw [same, left]
  refine ⟨no_classes', classes, loadable, fun entry member => ?_⟩
  obtain ⟨member, present⟩ := List.mem_filter.mp member
  obtain ⟨cat, target⟩ := Option.isSome_iff_exists.mp present
  obtain ⟨skips, skipped⟩ := kept (cat, entry.method) (List.mem_filterMap.mpr ⟨entry, member, by rw [target]; rfl⟩)
  exact ⟨cat, target, by simpa [loads] using skips, skipped⟩

/-- The code's own steps; the methods do nothing more. -/
def Continues (runtime : Runtime) : State → State → Prop :=
  Relation.ReflTransGen fun state after => state.next runtime = some after

/-- The lists are as they were: no method changes them. -/
def SameLists (state after : State) : Prop :=
  after.loadableClasses = state.loadableClasses ∧ after.loadableCategories = state.loadableCategories

theorem SameLists.trans {middle : State} (first : SameLists state middle) (second : SameLists middle after) :
    SameLists state after :=
  ⟨second.1.trans first.1, second.2.trans first.2⟩

theorem classLoads_advance {batch : List Loadable} {i : ℕ} (inside : i < batch.length)
    (at_i : state.phase = .classLoads batch i) :
    ∃ after, Continues runtime state after ∧ after.phase = .classLoads batch (i + 1) ∧ SameLists state after := by
  obtain ⟨entry, at_entry⟩ : ∃ entry, batch[i]? = some entry := ⟨_, List.getElem?_eq_getElem inside⟩
  obtain ⟨_ | cls, method⟩ := entry
  · exact ⟨{ state with phase := .classLoads batch (i + 1) },
      .single (by rw [State.next, at_i]; simp only [at_entry]), rfl, rfl, rfl⟩
  · exact ⟨{ state with phase := .classLoads batch (i + 1), history := state.history ++ [.loadedClass cls method] },
      .head (by rw [State.next, at_i]; simp only [at_entry]; rfl) (.single rfl), rfl, rfl, rfl⟩

theorem classLoads_end {batch : List Loadable} {i : ℕ} (at_i : state.phase = .classLoads batch i) :
    ∃ after, Continues runtime state after ∧ after.phase = .looping ∧ SameLists state after := by
  induction left : batch.length - i generalizing i state with
  | zero =>
      have at_end : batch[i]? = none := List.getElem?_eq_none_iff.mpr (Nat.le_of_sub_eq_zero left)
      exact ⟨{ state with phase := .looping }, .single (by rw [State.next, at_i]; simp only [at_end]), rfl, rfl, rfl⟩
  | succ count ih =>
      obtain ⟨middle, path, at_next, same⟩ := classLoads_advance (by omega) at_i
      obtain ⟨after, path', ended, same'⟩ := ih at_next (by omega)
      exact ⟨after, path.trans path', ended, same.trans same'⟩

theorem categoryLoads_advance {batch : List Loadable} {i : ℕ} (inside : i < batch.length)
    (at_i : state.phase = .categoryLoads batch i) :
    ∃ after batch', Continues runtime state after ∧ after.phase = .categoryLoads batch' (i + 1) ∧
      batch'.length = batch.length ∧ SameLists state after := by
  obtain ⟨entry, at_entry⟩ : ∃ entry, batch[i]? = some entry := ⟨_, List.getElem?_eq_getElem inside⟩
  obtain ⟨_ | cat, method⟩ := entry
  · exact ⟨{ state with phase := .categoryLoads batch (i + 1) }, batch,
      .single (by rw [State.next, at_i]; simp only [at_entry]), rfl, rfl, rfl, rfl⟩
  · cases loads : runtime.loadableClass cat with
    | none =>
        exact ⟨{ state with phase := .categoryLoads batch (i + 1), history := state.history ++ [.skippedCategory cat] },
          batch, .single (by rw [State.next, at_i]; simp only [at_entry, loads]), rfl, rfl, rfl, rfl⟩
    | some cls =>
        exact ⟨{ state with
            phase := .categoryLoads (batch.modify i fun entry => { entry with target := none }) (i + 1)
            history := state.history ++ [.loadedCategory cat cls method] }, _,
          .head (by rw [State.next, at_i]; simp only [at_entry, loads]; rfl) (.single rfl), rfl, List.length_modify .., rfl, rfl⟩

theorem categoryLoads_end {batch : List Loadable} {i : ℕ} (at_i : state.phase = .categoryLoads batch i) :
    ∃ after batch' i', Continues runtime state after ∧ after.phase = .categoryLoads batch' i' ∧ batch'[i']? = none ∧
      SameLists state after := by
  induction left : batch.length - i generalizing i batch state with
  | zero =>
      exact ⟨state, batch, i, .refl, at_i, List.getElem?_eq_none_iff.mpr (Nat.le_of_sub_eq_zero left), rfl, rfl⟩
  | succ count ih =>
      obtain ⟨middle, batch', path, at_next, length, same⟩ := categoryLoads_advance (by omega) at_i
      obtain ⟨after, batch'', i', path', at_end, ended, same'⟩ := ih at_next (by omega)
      exact ⟨after, batch'', i', path.trans path', at_end, ended, same.trans same'⟩

theorem categoryLoads_finish {batch : List Loadable} {i : ℕ} (at_i : state.phase = .categoryLoads batch i) :
    ∃ after, Continues runtime state after ∧ (after.phase = .looping ∨ after.phase = .idle) ∧
      (SameLists state ⟨[], [], true, .looping, []⟩ → after.phase = .idle) := by
  obtain ⟨middle, batch', i', path, at_end, ended, same⟩ := categoryLoads_end at_i
  refine ⟨State.finishCategoryLoads middle batch', path.tail (by rw [State.next, at_end]; simp only [ended]), ?_, ?_⟩
  · rw [State.finishCategoryLoads]
    split
    · exact .inl rfl
    · exact .inr rfl
  · rintro ⟨no_classes, no_cats⟩
    rw [State.finishCategoryLoads, same.1, same.2, ← no_classes, ← no_cats]
    rfl

theorem looping_ends_empty (at_loop : state.phase = .looping) (no_classes : state.loadableClasses = []) :
    ∃ after, Continues runtime state after ∧ after.phase = .idle := by
  obtain ⟨after, path, -, ends⟩ := @categoryLoads_finish runtime { state with
    loadableCategories := []
    phase := .categoryLoads state.loadableCategories 0
    history := state.history ++ [.tookCategories state.loadableCategories] } _ _ rfl
  exact ⟨after, .head (by rw [State.next, at_loop, no_classes]; rfl) path, ends ⟨no_classes.symm, rfl⟩⟩

theorem looping_ends (at_loop : state.phase = .looping) :
    ∃ after, Continues runtime state after ∧ after.phase = .idle := by
  by_cases no_classes : state.loadableClasses = []
  · exact looping_ends_empty at_loop no_classes
  · obtain ⟨middle, path, at_loop', same⟩ := @classLoads_end runtime { state with
      loadableClasses := [], phase := .classLoads state.loadableClasses 0 } _ _ rfl
    obtain ⟨after, path', ended⟩ := looping_ends_empty at_loop' same.1
    have some_left : 0 < state.loadableClasses.length := List.length_pos_iff.mpr no_classes
    exact ⟨after, .head (by rw [State.next, at_loop]; simp only [some_left, if_true]) (path.trans path'), ended⟩

theorem callLoadMethods_returns (runtime : Runtime) (state : State) :
    ∃ after, Continues runtime state after ∧ after.phase = .idle := by
  have of_classes {batch : List Loadable} {i : ℕ} {state : State} (at_i : state.phase = .classLoads batch i) :
      ∃ after, Continues runtime state after ∧ after.phase = .idle := by
    obtain ⟨middle, path, at_loop, -⟩ := classLoads_end at_i
    obtain ⟨after, path', ended⟩ := looping_ends at_loop
    exact ⟨after, path.trans path', ended⟩
  have of_categories {batch : List Loadable} {i : ℕ} {state : State} (at_i : state.phase = .categoryLoads batch i) :
      ∃ after, Continues runtime state after ∧ after.phase = .idle := by
    obtain ⟨middle, path, at_loop | ended, -⟩ := categoryLoads_finish at_i
    · obtain ⟨after, path', ended⟩ := looping_ends at_loop
      exact ⟨after, path.trans path', ended⟩
    · exact ⟨middle, path, ended⟩
  cases phase : state.phase with
  | idle => exact ⟨state, .refl, phase⟩
  | looping => exact looping_ends phase
  | classLoads batch i => exact of_classes phase
  | inClassLoad batch i =>
      obtain ⟨after, path, ended⟩ := @of_classes batch (i + 1) { state with phase := .classLoads batch (i + 1) } rfl
      exact ⟨after, .head (by rw [State.next, phase]) path, ended⟩
  | categoryLoads batch i => exact of_categories phase
  | inCategoryLoad batch i =>
      obtain ⟨after, path, ended⟩ := @of_categories _ (i + 1) { state with
        phase := .categoryLoads (batch.modify i fun entry => { entry with target := none }) (i + 1) } rfl
      exact ⟨after, .head (by rw [State.next, phase]) path, ended⟩

/-- Every class and category has a `+load` method, and the categories are of one class. -/
def plainRuntime : Runtime := ⟨some, some, fun _ => some 8, fun _ => true⟩

end ObjcDyld.LoadMethods
