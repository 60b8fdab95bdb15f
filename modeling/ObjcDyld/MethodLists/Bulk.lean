import ObjcDyld.Common.Bindings
import ObjcDyld.MethodLists.Additions

/-!
# Adding methods in bulk

What the selectors of a class resolve to after methods were added or replaced, one at a time or in bulk:
both fill a table, but the bulk calls look only at the methods from before the call.
-/

namespace ObjcDyld.MethodLists

open Categories

variable {runtime : Runtime} {calloc : State → ℕ} {state state' : State} {mlist : MethodList} {sel imp address : ℕ} {m : ℕ × ℕ} {item : Method}
  {items : List Method}

/-- A null implementation. -/
def isNil (imp : ℕ) : Bool := imp = 0

/-- A method for a selector that does not resolve. -/
abbrev bind : (ℕ → Option ℕ) → Method → ℕ → Option ℕ := Bindings.bindNew Method.name Method.imp

/-- A method over the one that its selector resolves to. -/
abbrev rebind : (ℕ → Option ℕ) → Method → ℕ → Option ℕ := Bindings.rebind Method.name Method.imp isNil

theorem sameNames_methodSetImplementation (state : State) (m : ℕ × ℕ) (imp : ℕ) : SameNames state (methodSetImplementation state m imp).1 := by
  rw [methodSetImplementation]
  split
  next => exact ⟨rfl, fun _ => rfl, fun _ => rfl⟩
  next =>
    refine ⟨rfl, fun list => ?_, fun list => ?_⟩
    · show (Function.update state.memory m.1 _ list).entsizeAndFlags = _
      by_cases here : list = m.1
      · rw [here, Function.update_self]
      · rw [Function.update_of_ne here]
    · show (Function.update state.memory m.1 _ list).methods.map Method.name = _
      by_cases here : list = m.1
      · rw [here, Function.update_self]
        exact names_modify ..
      · rw [Function.update_of_ne here]

theorem methodAt_methodSetImplementation (nonnil : imp ≠ 0) (other : ℕ × ℕ) :
    methodAt (methodSetImplementation state m imp).1 other =
      if other = m then (methodAt state m).map (Method.setImp imp) else methodAt state other := by
  rw [methodSetImplementation, if_neg nonnil]
  show (Function.update state.memory m.1 _ other.1).methods[other.2]? = _
  obtain ⟨list, index⟩ := other
  obtain ⟨list', index'⟩ := m
  by_cases here : list = list'
  · subst here
    rw [Function.update_self]
    show ((state.memory list).methods.modify index' _)[index]? = _
    rw [List.getElem?_modify]
    by_cases same : index' = index
    · subst same
      simp only [if_true]
      rfl
    · rw [if_neg fun eq => same (Prod.mk.inj eq).2.symm]
      simp only [if_neg same]
      exact id_map _
  · rw [Function.update_of_ne here, if_neg fun eq => here (Prod.mk.inj eq).1]
    rfl

theorem implementations_methodSetImplementation (searchable : Searchable runtime state) (found : placeNoSuper runtime state item.name = some m) :
    implementations runtime (methodSetImplementation state m item.imp).1 = rebind (implementations runtime state) item := by
  have bound : (implementations runtime state item.name).isSome := by
    rw [implementations_eq searchable, found]
    rfl
  by_cases nil : item.imp = 0
  · rw [methodSetImplementation, if_pos nil, rebind, Bindings.rebind, if_pos ⟨bound, decide_eq_true nil⟩]
  have same := sameNames_methodSetImplementation state m item.imp
  obtain ⟨meth, there, named⟩ := exists_methodAt searchable found
  funext sel
  rw [implementations_eq (same.searchable searchable), same.placeNoSuper searchable, rebind, Bindings.rebind,
    if_neg fun both => nil (of_decide_eq_true both.2)]
  by_cases here : sel = item.name
  · rw [here, found, Function.update_self, Option.map_some, impAt, methodAt_methodSetImplementation nil, if_pos rfl, there]
    rfl
  · rw [Function.update_of_ne here, implementations_eq searchable]
    cases found' : placeNoSuper runtime state sel with
    | none => rfl
    | some other =>
        have apart : other ≠ m := by
          rintro rfl
          obtain ⟨meth', there', named'⟩ := exists_methodAt searchable found'
          obtain rfl := Option.some.inj (there.symm.trans there')
          exact here (named'.symm.trans named)
        rw [Option.map_some, Option.map_some, impAt, methodAt_methodSetImplementation nil, if_neg apart, impAt]

/-- `calloc` returns an address that no list of the class has. -/
def Fresh (calloc : State → ℕ) : Prop := ∀ state : State, some (calloc state) ∉ state.cls.methods.lists

theorem isFixedUp_newMethodList (methods : List Method) :
    ({ newMethodList runtime with methods := methods } : MethodList).isFixedUp runtime ∧
      ({ newMethodList runtime with methods := methods } : MethodList).isExpectedSize := by
  have marks : ∀ fixedUp : BitVec 32, fixedUp = 3 ∨ fixedUp = 2 → ((MethodList.bigSize ||| fixedUp) &&& MethodList.flagMask) &&& 3 = fixedUp ∧
      ((MethodList.bigSize ||| fixedUp) &&& MethodList.flagMask) &&& 0x80000000 = 0 ∧ (MethodList.bigSize ||| fixedUp) &&& ~~~MethodList.flagMask = MethodList.bigSize := by
    rintro fixedUp (rfl | rfl) <;> decide
  obtain ⟨marked, big, size⟩ := marks runtime.fixedUpMethodList (by rw [Runtime.fixedUpMethodList]; split <;> simp)
  refine ⟨decide_eq_true marked, ?_⟩
  have notSmall : ({ newMethodList runtime with methods := methods } : MethodList).isSmallList = false :=
    decide_eq_false (not_not.mpr big)
  rw [MethodList.isExpectedSize, notSmall]
  exact decide_eq_true size

theorem attachNewList_spec (searchable : Searchable runtime state) (fresh : some address ∉ state.cls.methods.lists) {methods : List Method}
    (sorted : SortedSearch.Sorted Method.name methods) :
    Searchable runtime (attachNewList runtime state address { newMethodList runtime with methods := methods }) ∧
      ∀ sel, implementations runtime (attachNewList runtime state address { newMethodList runtime with methods := methods }) sel =
        ((methods.find? fun meth => meth.name = sel).map Method.imp).or (implementations runtime state sel) := by
  obtain ⟨marked, expected⟩ := @isFixedUp_newMethodList runtime methods
  generalize eq : attachNewList runtime state address { newMethodList runtime with methods := methods } = state'
  have lists : state'.cls.methods.lists = some address :: state.cls.methods.lists := by
    rw [← eq, ← (lists_extAllocIfNeeded state.cls).1]
    exact ListArray.lists_attachLists [address] _
  have memory (list : ℕ) : state'.memory list = if list = address then { newMethodList runtime with methods := methods } else state.memory list := by
    rw [← eq]
    refine (prepareMethodLists_apply _ [address] list).trans ?_
    by_cases here : list = address
    · rw [if_pos (List.mem_singleton.mpr here), if_pos here, here, Function.update_self, prepareMethodList, if_pos marked]
    · rw [if_neg fun member => here (List.mem_singleton.mp member), if_neg here, Function.update_of_ne here]
  have old (list : ℕ) (member : some list ∈ state.cls.methods.lists) : state'.memory list = state.memory list := by
    rw [memory, if_neg fun here : list = address => fresh (here ▸ member)]
  refine ⟨fun list member => ?_, fun sel => ?_⟩
  · rw [lists] at member
    by_cases here : list = address
    · rw [memory, if_pos here]
      exact fun _ _ => sorted
    · have member' := (List.mem_cons.mp member).resolve_left fun same => here (Option.some.inj same)
      rw [old list member']
      exact searchable list member'
  · have first : searchMethodListInline runtime { newMethodList runtime with methods := methods } sel = methods.find? fun meth => meth.name = sel := by
      rw [searchMethodListInline, if_pos ⟨marked, expected⟩]
      exact SortedSearch.search_eq_find? sorted
    have rest : (state.cls.methods.lists.findSome? fun list => list.bind fun list => searchMethodListInline runtime (state'.memory list) sel) =
        getMethodNoSuper runtime state sel := by
      rw [getMethodNoSuper]
      refine findSome?_congr fun slot member => ?_
      cases slot with
      | none => rfl
      | some list => rw [Option.bind_some, Option.bind_some, old list member]
    rw [implementations, getMethodNoSuper, lists, List.findSome?_cons, rest, Option.bind_some, memory, if_pos rfl, first, implementations]
    cases methods.find? fun meth => meth.name = sel <;> rfl

/-- What a call leaves: a class that can be searched, and what its selectors resolve to. -/
structure Resolves (runtime : Runtime) (table : ℕ → Option ℕ) (state : State) : Prop where
  searchable : Searchable runtime state
  implementations : implementations runtime state = table

theorem addMethod_new (searchable : Searchable runtime state) (fresh : Fresh calloc) (item : Method) :
    Resolves runtime (Function.update (implementations runtime state) item.name (some item.imp))
      (attachNewList runtime state (calloc state) { newMethodList runtime with methods := [⟨item.name, item.types, item.imp⟩] }) := by
  have sorted : SortedSearch.Sorted Method.name [(⟨item.name, item.types, item.imp⟩ : Method)] := List.pairwise_singleton ..
  obtain ⟨searchable', table⟩ := attachNewList_spec searchable (fresh state) sorted
  refine ⟨searchable', funext fun sel => ?_⟩
  rw [table]
  by_cases here : sel = item.name
  · simp [here]
  · simp [here, Ne.symm here]

theorem isSome_implementations (searchable : Searchable runtime state) (sel : ℕ) :
    (implementations runtime state sel).isSome = (placeNoSuper runtime state sel).isSome := by
  rw [implementations_eq searchable, Option.isSome_map]

theorem classAddMethod_spec (searchable : Searchable runtime state) (fresh : Fresh calloc) (item : Method) :
    Resolves runtime (bind (implementations runtime state) item) (classAddMethod runtime calloc state item.name item.imp item.types).1 ∧
      (classAddMethod runtime calloc state item.name item.imp item.types).2 =
        !(implementations runtime state item.name).any fun current => !isNil current := by
  have bound := isSome_implementations searchable item.name
  rw [classAddMethod, addMethod, bind, Bindings.bindNew]
  cases found : placeNoSuper runtime state item.name with
  | some m =>
      have here : implementations runtime state item.name = some (impAt state m) := by
        rw [implementations_eq searchable, found]
        rfl
      rw [here, Option.isSome_some, if_pos rfl, Option.any_some, Bool.not_not]
      exact ⟨⟨searchable, rfl⟩, rfl⟩
  | none =>
      have here : implementations runtime state item.name = none := by
        rw [implementations_eq searchable, found]
        rfl
      rw [here, Option.isSome_none, if_neg Bool.false_ne_true]
      exact ⟨addMethod_new searchable fresh item, rfl⟩

theorem classReplaceMethod_spec (searchable : Searchable runtime state) (fresh : Fresh calloc) (item : Method) :
    Resolves runtime (rebind (implementations runtime state) item) (classReplaceMethod runtime calloc state item.name item.imp item.types).1 := by
  rw [classReplaceMethod, addMethod]
  cases found : placeNoSuper runtime state item.name with
  | some m =>
      exact ⟨(sameNames_methodSetImplementation state m item.imp).searchable searchable, implementations_methodSetImplementation searchable found⟩
  | none =>
      have here : implementations runtime state item.name = none := by
        rw [implementations_eq searchable, found]
        rfl
      rw [rebind, Bindings.rebind, here, if_neg (by simp)]
      exact addMethod_new searchable fresh item

theorem addInOrder_spec (searchable : Searchable runtime state) (fresh : Fresh calloc) (items : List Method) :
    Resolves runtime (items.foldl bind (implementations runtime state)) (addInOrder runtime calloc state items).1 ∧
      (addInOrder runtime calloc state items).2 = Bindings.refused Method.name Method.imp isNil (implementations runtime state) items := by
  have loop (failedNames : List ℕ) :
      let result := items.foldl (fun done item =>
        let added := classAddMethod runtime calloc done.1 item.name item.imp item.types
        (added.1, if added.2 then done.2 else done.2 ++ [item.name])) (state, failedNames)
      Resolves runtime (items.foldl bind (implementations runtime state)) result.1 ∧
        result.2 = failedNames ++ Bindings.refused Method.name Method.imp isNil (implementations runtime state) items := by
    induction items generalizing state failedNames with
    | nil => exact ⟨⟨searchable, rfl⟩, (List.append_nil _).symm⟩
    | cons item items ih =>
        obtain ⟨resolves, added⟩ := classAddMethod_spec searchable fresh item
        simp only [List.foldl_cons, added]
        rw [Bindings.refused, ← List.append_assoc, ← bind, ← resolves.implementations]
        have rest := ih resolves.searchable (if !(implementations runtime state item.name).any fun current => !isNil current then failedNames
          else failedNames ++ [item.name])
        refine ⟨rest.1, rest.2.trans (congrArg (· ++ _) ?_)⟩
        cases (implementations runtime state item.name).any fun current => !isNil current
        · exact (List.append_nil _).symm
        · rfl
  exact loop []

theorem replaceInOrder_spec (searchable : Searchable runtime state) (fresh : Fresh calloc) (items : List Method) :
    Resolves runtime (items.foldl rebind (implementations runtime state)) (replaceInOrder runtime calloc state items) := by
  induction items generalizing state with
  | nil => exact ⟨searchable, rfl⟩
  | cons item items ih =>
      have resolves := classReplaceMethod_spec searchable fresh item
      rw [List.foldl_cons, ← resolves.implementations]
      exact ih resolves.searchable

theorem addMethods_eq (state : State) (items : List Method) (replace : Bool) :
    let adding := items.foldl (Adding.add runtime replace) ⟨state, newMethodList runtime, []⟩
    addMethods runtime calloc state items replace =
      (if 0 < adding.newlist.methods.length then
        attachNewList runtime adding.state (calloc state) { adding.newlist with
          methods := SortedSearch.stableSort Method.name adding.newlist.methods }
      else adding.state, adding.failedNames) := by
  intro adding
  rw [addMethods]
  split <;> rfl

theorem attach_spec (searchable : Searchable runtime state) (fresh : some address ∉ state.cls.methods.lists) (methods : List Method) :
    let after := if 0 < methods.length then
        attachNewList runtime state address { newMethodList runtime with methods := SortedSearch.stableSort Method.name methods }
      else state
    ∀ sel, implementations runtime after sel =
      ((methods.find? fun meth => meth.name = sel).map Method.imp).or (implementations runtime state sel) := by
  intro after sel
  by_cases some : 0 < methods.length
  · show implementations runtime (if 0 < methods.length then _ else _) sel = _
    rw [if_pos some, (attachNewList_spec searchable fresh (SortedSearch.stableSort_sorted methods)).2, SortedSearch.find?_stableSort]
  · show implementations runtime (if 0 < methods.length then _ else _) sel = _
    rw [if_neg some, List.length_eq_zero_iff.mp (Nat.eq_zero_of_not_pos some)]
    rfl

theorem foldl_add (searchable : Searchable runtime state) (items : List Method) (methods : List Method) (failedNames : List ℕ) :
    items.foldl (Adding.add runtime false) ⟨state, { newMethodList runtime with methods := methods }, failedNames⟩ =
      ⟨state, { newMethodList runtime with methods := methods ++ items.filter fun item => (implementations runtime state item.name).isNone },
        failedNames ++ Bindings.taken Method.name (implementations runtime state) items⟩ := by
  induction items generalizing methods failedNames with
  | nil => simp [Bindings.taken]
  | cons item items ih =>
      have here := implementations_eq searchable item.name
      rw [List.foldl_cons, Adding.add, Bindings.taken_cons]
      cases found : placeNoSuper runtime state item.name with
      | some m =>
          rw [found, Option.map_some] at here
          simp only [nameAt_eq searchable found, not_false_eq_true, Bool.false_eq_true, if_true]
          rw [ih, here, List.filter_cons_of_neg (by simp [here]), Option.isSome_some, if_pos rfl, List.append_assoc]
      | none =>
          rw [found, Option.map_none] at here
          dsimp only
          rw [ih, here, List.filter_cons_of_pos (by simp [here]), Option.isSome_none, if_neg Bool.false_ne_true, List.nil_append,
            List.append_assoc, List.singleton_append]

theorem foldl_replace (searchable : Searchable runtime state) (items : List Method) (methods : List Method) (failedNames : List ℕ) :
    let adding := items.foldl (Adding.add runtime true) ⟨state, { newMethodList runtime with methods := methods }, failedNames⟩
    Resolves runtime (items.foldl (Bindings.rebindOld Method.name Method.imp isNil) (implementations runtime state)) adding.state ∧
      adding.state.cls = state.cls ∧
      adding.newlist = { newMethodList runtime with methods := methods ++ items.filter fun item => (implementations runtime state item.name).isNone } := by
  induction items generalizing state methods with
  | nil => exact ⟨⟨searchable, rfl⟩, rfl, by rw [List.filter_nil, List.append_nil]; rfl⟩
  | cons item items ih =>
      have here := implementations_eq searchable item.name
      rw [List.foldl_cons, List.foldl_cons, Adding.add, Bindings.rebindOld]
      cases found : placeNoSuper runtime state item.name with
      | some m =>
          rw [found, Option.map_some] at here
          have same := sameNames_methodSetImplementation state m item.imp
          have table := implementations_methodSetImplementation searchable found
          obtain ⟨resolves, cls, list⟩ := ih (same.searchable searchable) methods
          have bound (other : ℕ) : (implementations runtime (methodSetImplementation state m item.imp).1 other).isNone =
              (implementations runtime state other).isNone := by
            rw [implementations_eq (same.searchable searchable), same.placeNoSuper searchable, implementations_eq searchable,
              Option.isNone_map, Option.isNone_map]
          simp only [bound] at list
          rw [table] at resolves
          simp only [not_true_eq_false, if_false]
          rw [here, Option.isSome_some, if_pos rfl, List.filter_cons_of_neg (by simp [here])]
          exact ⟨resolves, cls.trans same.cls, list⟩
      | none =>
          rw [found, Option.map_none] at here
          obtain ⟨resolves, cls, list⟩ := ih searchable (methods ++ [item])
          dsimp only
          rw [here, Option.isSome_none, if_neg Bool.false_ne_true, List.filter_cons_of_pos (by simp [here])]
          rw [List.append_assoc, List.singleton_append] at list
          exact ⟨resolves, cls, list⟩

theorem find?_filter_new (table : ℕ → Option ℕ) (items : List Method) (sel : ℕ) :
    ((items.filter fun item => (table item.name).isNone).find? fun meth => meth.name = sel) =
      if (table sel).isSome then none else (Bindings.under Method.name items sel).head? := by
  rw [List.find?_filter, Bindings.under, List.head?_filter]
  split
  next bound =>
    refine List.find?_eq_none.mpr fun item _ both => ?_
    obtain ⟨free, named⟩ := of_decide_eq_true both
    rw [← of_decide_eq_true named] at bound
    exact absurd free (by simpa using Option.isSome_iff_ne_none.mp bound)
  next free =>
    congr 1
    funext item
    by_cases here : item.name = sel
    · simp [here, Option.not_isSome_iff_eq_none.mp free]
    · simp [here]

theorem classAddMethodsBulk_spec (searchable : Searchable runtime state) (fresh : Fresh calloc) (items : List Method) :
    implementations runtime (classAddMethodsBulk runtime calloc state items).1 = items.foldl bind (implementations runtime state) ∧
      (classAddMethodsBulk runtime calloc state items).2 = Bindings.taken Method.name (implementations runtime state) items := by
  have loop := foldl_add searchable items [] []
  rw [List.nil_append, List.nil_append] at loop
  rw [classAddMethodsBulk, addMethods_eq, newMethodList] at *
  rw [loop]
  refine ⟨funext fun sel => ?_, rfl⟩
  refine (attach_spec searchable (fresh state) _ sel).trans ?_
  rw [find?_filter_new, Bindings.foldl_bindNew]
  cases implementations runtime state sel with
  | none => exact Option.or_none ..
  | some imp => rfl

theorem classReplaceMethodsBulk_spec (searchable : Searchable runtime state) (fresh : Fresh calloc) (items : List Method) (sel : ℕ) :
    implementations runtime (classReplaceMethodsBulk runtime calloc state items) sel =
      if (implementations runtime state sel).isSome then items.foldl rebind (implementations runtime state) sel
      else (Bindings.under Method.name items sel).head?.map Method.imp := by
  obtain ⟨resolves, cls, list⟩ := foldl_replace searchable items [] []
  rw [classReplaceMethodsBulk, addMethods_eq]
  generalize adding : items.foldl (Adding.add runtime true) ⟨state, newMethodList runtime, []⟩ = result
  have same : result = items.foldl (Adding.add runtime true) ⟨state, { newMethodList runtime with methods := [] }, []⟩ := adding.symm
  rw [← same] at resolves cls list
  have unused : some (calloc state) ∉ result.state.cls.methods.lists := by
    rw [cls]
    exact fresh state
  rw [List.nil_append] at list
  simp only [list]
  refine (attach_spec resolves.searchable unused _ sel).trans ?_
  rw [find?_filter_new, resolves.implementations, Bindings.foldl_rebindOld]
  cases implementations runtime state sel with
  | none => exact Option.or_none ..
  | some imp => rfl

/-- Adding methods in bulk leaves the selectors resolving as adding them one by one, and reports the same names. -/
def AddsAgree (runtime : Runtime) (calloc : State → ℕ) (state : State) (items : List Method) : Prop :=
  (∀ sel, implementations runtime (classAddMethodsBulk runtime calloc state items).1 sel =
    implementations runtime (addInOrder runtime calloc state items).1 sel) ∧
    (classAddMethodsBulk runtime calloc state items).2 = (addInOrder runtime calloc state items).2

/-- Replacing methods in bulk leaves the selectors resolving as replacing them one by one. -/
def ReplacesAgree (runtime : Runtime) (calloc : State → ℕ) (state : State) (items : List Method) : Prop :=
  ∀ sel, implementations runtime (classReplaceMethodsBulk runtime calloc state items) sel =
    implementations runtime (replaceInOrder runtime calloc state items) sel

theorem addsAgree_iff (searchable : Searchable runtime state) (fresh : Fresh calloc) (items : List Method) :
    AddsAgree runtime calloc state items ↔ Bindings.Agreeing Method.name Method.imp isNil (implementations runtime state) items := by
  obtain ⟨bulk, failed⟩ := classAddMethodsBulk_spec searchable fresh items
  obtain ⟨resolves, failed'⟩ := addInOrder_spec searchable fresh items
  rw [AddsAgree, bulk, resolves.implementations, failed, failed', ← Bindings.refused_eq_taken_iff]
  exact ⟨fun both => both.2.symm, fun same => ⟨fun _ => rfl, same.symm⟩⟩

theorem replacesAgree_iff (searchable : Searchable runtime state) (fresh : Fresh calloc) (items : List Method) :
    ReplacesAgree runtime calloc state items ↔ Bindings.Settled Method.name Method.imp isNil (implementations runtime state) items := by
  rw [← Bindings.foldl_rebind_eq_iff]
  refine forall_congr' fun sel => ?_
  rw [classReplaceMethodsBulk_spec searchable fresh, (replaceInOrder_spec searchable fresh items).implementations]

/-- Adding in bulk agrees exactly if no method that was there has a null implementation and no new selector comes
again after an implementation, and replacing in bulk exactly if the last implementation for a new selector is the first. -/
theorem bulk_agrees_iff (searchable : Searchable runtime state) (fresh : Fresh calloc) (items : List Method) :
    (AddsAgree runtime calloc state items ↔ Bindings.Agreeing Method.name Method.imp isNil (implementations runtime state) items) ∧
      (ReplacesAgree runtime calloc state items ↔ Bindings.Settled Method.name Method.imp isNil (implementations runtime state) items) :=
  ⟨addsAgree_iff searchable fresh items, replacesAgree_iff searchable fresh items⟩

/-- An address after those of all lists of the class. -/
def nextAddress (state : State) : ℕ := (state.cls.methods.lists.reduceOption.foldr max 0) + 1

theorem fresh_nextAddress : Fresh nextAddress := by
  intro state member
  have inside : nextAddress state ∈ state.cls.methods.lists.reduceOption := List.reduceOption_mem_iff.mpr member
  have le (list : List ℕ) (address : ℕ) (member : address ∈ list) : address ≤ list.foldr max 0 := by
    induction list with
    | nil => exact absurd member List.not_mem_nil
    | cons first rest ih =>
        obtain rfl | member := List.mem_cons.mp member
        · exact le_max_left ..
        · exact (ih member).trans (le_max_right ..)
  exact absurd (le _ _ inside) (Nat.not_succ_le_self _)

def emptyClass : State := ⟨fun _ => ⟨24, []⟩, ⟨⟨none, none, none⟩, none⟩⟩

theorem searchable_emptyClass (runtime : Runtime) : Searchable runtime emptyClass := fun _ member => absurd member List.not_mem_nil

/-- Two methods with different selectors. -/
theorem bulk_agrees_iff_two :
    AddsAgree ⟨false, id, fun _ => rfl⟩ nextAddress emptyClass [⟨8, "v16@0:8", 100⟩, ⟨4, "v16@0:8", 101⟩] ∧
      ReplacesAgree ⟨false, id, fun _ => rfl⟩ nextAddress emptyClass [⟨8, "v16@0:8", 100⟩, ⟨4, "v16@0:8", 101⟩] := by
  have once (sel : ℕ) (first : Method) (rest : List Method)
      (eq : Bindings.under Method.name [⟨8, "v16@0:8", 100⟩, ⟨4, "v16@0:8", 101⟩] sel = first :: rest) : rest = [] := by
    have short : (Bindings.under Method.name [⟨8, "v16@0:8", 100⟩, ⟨4, "v16@0:8", 101⟩] sel).length ≤ 1 := by
      by_cases eight : 8 = sel
      · rw [← eight]
        decide
      · have second : Bindings.under Method.name [⟨8, "v16@0:8", 100⟩, ⟨4, "v16@0:8", 101⟩] sel = Bindings.under Method.name [⟨4, "v16@0:8", 101⟩] sel :=
          Bindings.under_cons_other eight
        rw [second]
        exact List.length_filter_le ..
    rw [eq, List.length_cons] at short
    exact List.length_eq_zero_iff.mp (by omega)
  obtain ⟨adds, replaces⟩ := @bulk_agrees_iff ⟨false, id, fun _ => rfl⟩ nextAddress emptyClass (searchable_emptyClass _) fresh_nextAddress
    [⟨8, "v16@0:8", 100⟩, ⟨4, "v16@0:8", 101⟩]
  refine ⟨adds.mpr ⟨fun item _ current eq => ?_, fun sel _ first rest eq => .inr (once sel first rest eq)⟩, replaces.mpr fun sel _ first rest eq => ?_⟩
  · exact absurd eq.symm (Option.some_ne_none _)
  · rw [once sel first rest eq]
    rfl

/-- Two methods for one new selector: in bulk, the second one is neither reported nor does it replace the first. -/
theorem not_bulk_agrees_twice :
    ¬AddsAgree ⟨false, id, fun _ => rfl⟩ nextAddress emptyClass [⟨4, "v16@0:8", 100⟩, ⟨4, "v16@0:8", 101⟩] ∧
      ¬ReplacesAgree ⟨false, id, fun _ => rfl⟩ nextAddress emptyClass [⟨4, "v16@0:8", 100⟩, ⟨4, "v16@0:8", 101⟩] := by
  constructor
  · intro agree
    have agreeing := (addsAgree_iff (searchable_emptyClass _) fresh_nextAddress _).mp agree
    obtain nil | alone := agreeing.free 4 rfl ⟨4, "v16@0:8", 100⟩ [⟨4, "v16@0:8", 101⟩] rfl
    · exact absurd nil (by decide)
    · exact absurd alone (List.cons_ne_nil _ _)
  · intro agree
    have settled := (replacesAgree_iff (searchable_emptyClass _) fresh_nextAddress _).mp agree
    have same := settled 4 rfl ⟨4, "v16@0:8", 100⟩ [⟨4, "v16@0:8", 101⟩] rfl
    exact absurd same (by decide)

end ObjcDyld.MethodLists
