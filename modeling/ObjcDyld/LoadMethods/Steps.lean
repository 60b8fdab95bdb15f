import Mathlib

/-!
# Calling `+load`

`call_load_methods`, with the lists of classes and categories that wait for their `+load`. While a
`+load` method runs it may change the lists and call `call_load_methods` again, so the loops are taken
step by step.
-/

namespace ObjcDyld.LoadMethods

/-- `loadable_class` and `loadable_category`; the target may be nil. -/
structure Loadable where
  target : Option ℕ
  method : ℕ
  deriving DecidableEq

/-- What the lists ask of classes and categories, by their addresses. -/
structure Runtime where
  /-- `cls->getLoadMethod()`. -/
  getLoadMethod : ℕ → Option ℕ
  /-- `_category_getLoadMethod`. -/
  categoryGetLoadMethod : ℕ → Option ℕ
  /-- `_category_getClass`. -/
  categoryGetClass : ℕ → Option ℕ
  /-- `cls->isLoadable()`. -/
  isLoadable : ℕ → Bool

def Runtime.loadableClass (runtime : Runtime) (cat : ℕ) : Option ℕ :=
  (runtime.categoryGetClass cat).filter runtime.isLoadable

/-- What is done to classes and categories. -/
inductive Event where
  | scheduledClass (cls method : ℕ)
  | scheduledCategory (cat method : ℕ)
  | unscheduledClass (cls : ℕ)
  | unscheduledCategory (cat : ℕ)
  | loadedClass (cls method : ℕ)
  /-- `call_category_loads` detaches its list. -/
  | tookCategories (cats : List Loadable)
  | loadedCategory (cat cls method : ℕ)
  /-- The category's class is not loadable. -/
  | skippedCategory (cat : ℕ)
  deriving DecidableEq

/-- Where the outermost `call_load_methods` is. -/
inductive Phase where
  | idle
  /-- Before the test of the loop that calls `call_class_loads`. -/
  | looping
  /-- In `call_class_loads`, at an index of the detached list. -/
  | classLoads (classes : List Loadable) (i : ℕ)
  | inClassLoad (classes : List Loadable) (i : ℕ)
  /-- In `call_category_loads`, at an index of the detached list. -/
  | categoryLoads (cats : List Loadable) (i : ℕ)
  | inCategoryLoad (cats : List Loadable) (i : ℕ)
  deriving DecidableEq

structure State where
  loadableClasses : List Loadable
  loadableCategories : List Loadable
  loading : Bool
  phase : Phase
  history : List Event
  deriving DecidableEq

namespace State

def start : State := ⟨[], [], false, .idle, []⟩

/-- `add_class_to_loadable_list`. -/
def addClass (runtime : Runtime) (state : State) (cls : ℕ) : State :=
  match runtime.getLoadMethod cls with
  | none => state
  | some method =>
      { state with
        loadableClasses := state.loadableClasses ++ [⟨some cls, method⟩]
        history := state.history ++ [.scheduledClass cls method] }

/-- `add_category_to_loadable_list`. -/
def addCategory (runtime : Runtime) (state : State) (cat : ℕ) : State :=
  match runtime.categoryGetLoadMethod cat with
  | none => state
  | some method =>
      { state with
        loadableCategories := state.loadableCategories ++ [⟨some cat, method⟩]
        history := state.history ++ [.scheduledCategory cat method] }

/-- The search of both removals: the first entry of the target becomes nil. -/
def removeTarget (list : List Loadable) (target : ℕ) : List Loadable :=
  match list.findIdx? fun entry => entry.target = some target with
  | some i => list.modify i fun entry => { entry with target := none }
  | none => list

/-- `remove_class_from_loadable_list`. -/
def removeClass (state : State) (cls : ℕ) : State :=
  { state with
    loadableClasses := removeTarget state.loadableClasses cls
    history := state.history ++ [.unscheduledClass cls] }

/-- `remove_category_from_loadable_list`. -/
def removeCategory (state : State) (cat : ℕ) : State :=
  { state with
    loadableCategories := removeTarget state.loadableCategories cat
    history := state.history ++ [.unscheduledCategory cat] }

/-- The start of `call_load_methods`: re-entrant calls do nothing. -/
def callLoadMethods (state : State) : State :=
  if state.loading then state else { state with loading := true, phase := .looping }

/-- The loop that compacts the detached list: `cats[i-shift] = cats[i]`. -/
def compact : ℕ → ℕ → ℕ → List Loadable → List Loadable
  | 0, i, shift, cats => cats.take (i - shift)
  | left + 1, i, shift, cats =>
      match cats[i]? with
      | some entry =>
          if entry.target.isSome then compact left (i + 1) shift (cats.set (i - shift) entry)
          else compact left (i + 1) (shift + 1) cats
      | none => cats.take (i - shift)

/-- The end of `call_category_loads`, and the test of the outer loop. -/
def finishCategoryLoads (state : State) (cats : List Loadable) : State :=
  let newCategoriesAdded := 0 < state.loadableCategories.length
  let cats := compact cats.length 0 0 cats ++ state.loadableCategories
  if 0 < state.loadableClasses.length ∨ newCategoriesAdded then
    { state with loadableCategories := cats, phase := .looping }
  else { state with loadableCategories := cats, loading := false, phase := .idle }

/-- The next step of `call_load_methods`; a `+load` method that runs returns. -/
def next (runtime : Runtime) (state : State) : Option State :=
  match state.phase with
  | .idle => none
  | .looping =>
      if 0 < state.loadableClasses.length then
        some { state with loadableClasses := [], phase := .classLoads state.loadableClasses 0 }
      else
        some { state with
          loadableCategories := []
          phase := .categoryLoads state.loadableCategories 0
          history := state.history ++ [.tookCategories state.loadableCategories] }
  | .classLoads classes i =>
      match classes[i]? with
      | none => some { state with phase := .looping }
      | some ⟨none, _⟩ => some { state with phase := .classLoads classes (i + 1) }
      | some ⟨some cls, method⟩ =>
          some { state with phase := .inClassLoad classes i, history := state.history ++ [.loadedClass cls method] }
  | .inClassLoad classes i => some { state with phase := .classLoads classes (i + 1) }
  | .categoryLoads cats i =>
      match cats[i]? with
      | none => some (finishCategoryLoads state cats)
      | some ⟨none, _⟩ => some { state with phase := .categoryLoads cats (i + 1) }
      | some ⟨some cat, method⟩ =>
          match runtime.loadableClass cat with
          | some cls =>
              some { state with
                phase := .inCategoryLoad cats i, history := state.history ++ [.loadedCategory cat cls method] }
          | none =>
              some { state with
                phase := .categoryLoads cats (i + 1), history := state.history ++ [.skippedCategory cat] }
  | .inCategoryLoad cats i =>
      some { state with phase := .categoryLoads (cats.modify i fun entry => { entry with target := none }) (i + 1) }

/-- Code that may change the lists runs: a `+load` method, or whoever calls `call_load_methods`. -/
def InUserCode (state : State) : Prop :=
  match state.phase with
  | .idle => True
  | .inClassLoad .. => True
  | .inCategoryLoad .. => True
  | _ => False

end State

/-- The steps without removals. -/
inductive Step (runtime : Runtime) : State → State → Prop where
  | next {state after : State} (run : state.next runtime = some after) : Step runtime state after
  | callLoadMethods {state : State} (user : state.InUserCode) : Step runtime state state.callLoadMethods
  | addClass {state : State} (cls : ℕ) (user : state.InUserCode) : Step runtime state (state.addClass runtime cls)
  | addCategory {state : State} (cat : ℕ) (user : state.InUserCode) :
      Step runtime state (state.addCategory runtime cat)

end ObjcDyld.LoadMethods
