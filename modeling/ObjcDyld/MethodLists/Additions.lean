import ObjcDyld.Categories.Overrides

/-!
# Adding methods to a class

`addMethod` adds or replaces one method, each new one in a list of its own. `addMethods` goes through many
of them and attaches the new ones in one list, which it sorts.
-/

namespace ObjcDyld.MethodLists

open Categories

variable (runtime : Runtime)

/-- The index of the entry that `search_method_list_inline` returns. -/
def indexInMethodList (mlist : MethodList) (sel : ℕ) : Option ℕ :=
  if mlist.isFixedUp runtime ∧ mlist.isExpectedSize then indexInSortedMethodList sel mlist
  -- linear search of unsorted method list
  else mlist.methods.findIdx? fun meth => meth.name = sel

/-- Where the method that `getMethodNoSuper_nolock` returns stands: its list, and the index in it. -/
def placeNoSuper (state : State) (sel : ℕ) : Option (ℕ × ℕ) :=
  state.cls.methods.lists.findSome? fun list => list.bind fun list =>
    (indexInMethodList runtime (state.memory list) sel).map fun index => (list, index)

def methodAt (state : State) (m : ℕ × ℕ) : Option Method := (state.memory m.1).methods[m.2]?

/-- `m->imp()`. -/
def impAt (state : State) (m : ℕ × ℕ) : ℕ := ((methodAt state m).map Method.imp).getD 0

/-- `m->name()`. -/
def nameAt (state : State) (m : ℕ × ℕ) : ℕ := ((methodAt state m).map Method.name).getD 0

def Method.setImp (imp : ℕ) (meth : Method) : Method := { meth with imp := imp }

/-- `_method_setImplementation`, with the old implementation. -/
def methodSetImplementation (state : State) (m : ℕ × ℕ) (imp : ℕ) : State × ℕ :=
  if imp = 0 then (state, 0)
  else
    let mlist := state.memory m.1
    ({ state with memory := Function.update state.memory m.1 { mlist with methods := mlist.methods.modify m.2 (Method.setImp imp) } },
      impAt state m)

/-- A list for methods that are added, empty. -/
def newMethodList : MethodList := ⟨MethodList.bigSize ||| runtime.fixedUpMethodList, []⟩

/-- `prepareMethodLists` and `attachLists`, for a new list at an address. -/
def attachNewList (state : State) (address : ℕ) (newlist : MethodList) : State :=
  let rwe := state.cls.extAllocIfNeeded
  { memory := prepareMethodLists runtime (Function.update state.memory address newlist) [some address]
    cls := { state.cls with ext := some { rwe with methods := rwe.methods.attachLists [some address] } } }

variable (calloc : State → ℕ)

/-- `addMethod`, with its result; `calloc` gives the address of a new list. -/
def addMethod (state : State) (name imp : ℕ) (types : String) (replace : Bool) : State × ℕ :=
  match placeNoSuper runtime state name with
  -- already exists
  | some m => if ¬replace then (state, impAt state m) else methodSetImplementation state m imp
  | none => (attachNewList runtime state (calloc state) { newMethodList runtime with methods := [⟨name, types, imp⟩] }, 0)

def classAddMethod (state : State) (name imp : ℕ) (types : String) : State × Bool :=
  let (state, result) := addMethod runtime calloc state name imp types false
  (state, result = 0)

def classReplaceMethod (state : State) (name imp : ℕ) (types : String) : State × ℕ :=
  addMethod runtime calloc state name imp types true

/-- The loop of `addMethods`: the class, the new list and the names that failed. -/
structure Adding where
  state : State
  newlist : MethodList
  failedNames : List ℕ

def Adding.add (replace : Bool) (adding : Adding) (item : Method) : Adding :=
  match placeNoSuper runtime adding.state item.name with
  -- already exists
  | some m =>
      if ¬replace then { adding with failedNames := adding.failedNames ++ [nameAt adding.state m] }
      else { adding with state := (methodSetImplementation adding.state m item.imp).1 }
  | none => { adding with newlist := { adding.newlist with methods := adding.newlist.methods ++ [item] } }

/-- `addMethods`; the names, types and implementations are those of the items. -/
def addMethods (state : State) (items : List Method) (replace : Bool) : State × List ℕ :=
  let address := calloc state
  let adding := items.foldl (Adding.add runtime replace) ⟨state, newMethodList runtime, []⟩
  if 0 < adding.newlist.methods.length then
    let newlist := { adding.newlist with methods := SortedSearch.stableSort Method.name adding.newlist.methods }
    (attachNewList runtime adding.state address newlist, adding.failedNames)
  else (adding.state, adding.failedNames)

def classAddMethodsBulk (state : State) (items : List Method) : State × List ℕ := addMethods runtime calloc state items false

def classReplaceMethodsBulk (state : State) (items : List Method) : State := (addMethods runtime calloc state items true).1

/-- `class_addMethod` for each item in order, with the names for which it returned `NO`. -/
def addInOrder (state : State) (items : List Method) : State × List ℕ :=
  items.foldl (fun (state, failedNames) item =>
    let (state, added) := classAddMethod runtime calloc state item.name item.imp item.types
    (state, if added then failedNames else failedNames ++ [item.name])) (state, [])

/-- `class_replaceMethod` for each item in order. -/
def replaceInOrder (state : State) (items : List Method) : State :=
  items.foldl (fun state item => (classReplaceMethod runtime calloc state item.name item.imp item.types).1) state

variable {runtime} {calloc} {state state' : State} {mlist : MethodList} {sel imp address : ℕ} {m : ℕ × ℕ}

/-- Every list of the class that is searched as a sorted one is sorted. -/
def Searchable (runtime : Runtime) (state : State) : Prop :=
  ∀ list, some list ∈ state.cls.methods.lists → (state.memory list).isFixedUp runtime → (state.memory list).isExpectedSize →
    SortedSearch.Sorted Method.name (state.memory list).methods

/-- The implementations that the selectors resolve to. -/
def implementations (runtime : Runtime) (state : State) (sel : ℕ) : Option ℕ := (getMethodNoSuper runtime state sel).map Method.imp

theorem indexInMethodList_eq (sorted : mlist.isFixedUp runtime → mlist.isExpectedSize → SortedSearch.Sorted Method.name mlist.methods) (sel : ℕ) :
    indexInMethodList runtime mlist sel = (mlist.methods.map Method.name).findIdx? (· = sel) := by
  rw [indexInMethodList, List.findIdx?_map]
  split
  next marked => exact SortedSearch.searchFrom_all (sorted marked.1 marked.2)
  next => rfl

theorem searchMethodListInline_eq_bind (mlist : MethodList) (sel : ℕ) :
    searchMethodListInline runtime mlist sel = (indexInMethodList runtime mlist sel).bind fun index => mlist.methods[index]? := by
  rw [searchMethodListInline, indexInMethodList]
  split
  next => rfl
  next => exact List.find?_eq_bind_findIdx?_getElem?

theorem getMethodNoSuper_eq_bind (searchable : Searchable runtime state) (sel : ℕ) :
    getMethodNoSuper runtime state sel = (placeNoSuper runtime state sel).bind (methodAt state) := by
  rw [getMethodNoSuper, placeNoSuper]
  rw [Searchable] at searchable
  generalize state.cls.methods.lists = slots at searchable
  induction slots with
  | nil => rfl
  | cons slot lists ih =>
      have others := ih fun list member => searchable list (List.mem_cons_of_mem _ member)
      rw [List.findSome?_cons, List.findSome?_cons, others]
      cases slot with
      | none => rfl
      | some list =>
          rw [Option.bind_some, Option.bind_some, searchMethodListInline_eq_bind]
          have index := indexInMethodList_eq (searchable list List.mem_cons_self) sel
          cases here : indexInMethodList runtime (state.memory list) sel with
          | none => rfl
          | some i =>
              rw [here] at index
              obtain ⟨inside, -⟩ := List.findIdx?_eq_some_iff_getElem.mp index.symm
              rw [List.length_map] at inside
              have there : (state.memory list).methods[i]? = some (state.memory list).methods[i] := List.getElem?_eq_getElem inside
              rw [Option.bind_some, there, Option.map_some, Option.bind_some, methodAt, there]

theorem exists_methodAt (searchable : Searchable runtime state) (found : placeNoSuper runtime state sel = some m) :
    ∃ meth, methodAt state m = some meth ∧ meth.name = sel := by
  obtain ⟨slot, member, here⟩ := List.exists_of_findSome?_eq_some found
  obtain ⟨list, rfl, place⟩ := Option.bind_eq_some_iff.mp here
  obtain ⟨i, index, rfl⟩ := Option.map_eq_some_iff.mp place
  rw [indexInMethodList_eq (searchable list member)] at index
  obtain ⟨inside, named, -⟩ := List.findIdx?_eq_some_iff_getElem.mp index
  rw [List.length_map] at inside
  refine ⟨_, List.getElem?_eq_getElem inside, ?_⟩
  simpa using named

theorem nameAt_eq (searchable : Searchable runtime state) (found : placeNoSuper runtime state sel = some m) : nameAt state m = sel := by
  obtain ⟨meth, there, named⟩ := exists_methodAt searchable found
  rw [nameAt, there]
  exact named

theorem implementations_eq (searchable : Searchable runtime state) (sel : ℕ) :
    implementations runtime state sel = (placeNoSuper runtime state sel).map (impAt state) := by
  rw [implementations, getMethodNoSuper_eq_bind searchable]
  cases found : placeNoSuper runtime state sel with
  | none => rfl
  | some m =>
      obtain ⟨meth, there, -⟩ := exists_methodAt searchable found
      rw [Option.bind_some, there, Option.map_some, Option.map_some, impAt, there]
      rfl

theorem names_modify (methods : List Method) (index imp : ℕ) :
    (methods.modify index (Method.setImp imp)).map Method.name = methods.map Method.name := by
  refine List.ext_getElem (by simp) fun i _ _ => ?_
  rw [List.getElem_map, List.getElem_map, List.getElem_modify]
  split <;> rfl

theorem sorted_iff_names {methods methods' : List Method} (same : methods'.map Method.name = methods.map Method.name) :
    SortedSearch.Sorted Method.name methods' ↔ SortedSearch.Sorted Method.name methods := by
  have names (methods : List Method) : SortedSearch.Sorted Method.name methods ↔ (methods.map Method.name).Pairwise (· ≤ ·) :=
    List.pairwise_map.symm
  rw [names, names, same]

structure SameNames (state state' : State) : Prop where
  cls : state'.cls = state.cls
  flags : ∀ list, (state'.memory list).entsizeAndFlags = (state.memory list).entsizeAndFlags
  names : ∀ list, (state'.memory list).methods.map Method.name = (state.memory list).methods.map Method.name

theorem SameNames.searchable (same : SameNames state state') (searchable : Searchable runtime state) : Searchable runtime state' := by
  intro list member marked expected
  rw [same.cls] at member
  have marked' : (state.memory list).isFixedUp runtime := by
    rwa [MethodList.isFixedUp, MethodList.flags, same.flags] at marked
  have expected' : (state.memory list).isExpectedSize := by
    rwa [MethodList.isExpectedSize, MethodList.isSmallList, MethodList.flags, MethodList.entsize, same.flags] at expected
  exact (sorted_iff_names (same.names list)).mpr (searchable list member marked' expected')

theorem SameNames.placeNoSuper (same : SameNames state state') (searchable : Searchable runtime state) (sel : ℕ) :
    placeNoSuper runtime state' sel = placeNoSuper runtime state sel := by
  rw [MethodLists.placeNoSuper, same.cls, MethodLists.placeNoSuper]
  refine findSome?_congr fun slot member => ?_
  cases slot with
  | none => rfl
  | some list =>
      have member' : some list ∈ state'.cls.methods.lists := same.cls.symm ▸ member
      rw [Option.bind_some, Option.bind_some, indexInMethodList_eq (same.searchable searchable list member'),
        indexInMethodList_eq (searchable list member), same.names]

end ObjcDyld.MethodLists
