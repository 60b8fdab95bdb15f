import ObjcDyld.Categories.Attach

/-!
# Overriding by categories

After any batches of categories, the lists of a class stand newest first, with those of the class itself
at the end, and all of them can be searched. So a method of a category is found before those of older
categories and of the class.
-/

namespace ObjcDyld.Categories

open MethodLists

variable {runtime : Runtime} {images : Images} {isMeta : Bool} {state : State} {memory : Memory} {mlist : MethodList}

theorem fixupMethodList_of_small (small : mlist.isSmallList = true) : fixupMethodList runtime mlist true =
    if mlist.isUniqued runtime then mlist else { mlist with methods := mlist.methods.map (Method.unique runtime) } := by
  have kept (changed : MethodList) (same : changed.entsizeAndFlags = mlist.entsizeAndFlags) : changed.isSmallList = true := by
    rw [MethodList.isSmallList, MethodList.flags, same]
    exact small
  rw [fixupMethodList]
  generalize uniqued : (if mlist.isUniqued runtime then mlist else { mlist with methods := mlist.methods.map (Method.unique runtime) }) = changed
  have small' : changed.isSmallList = true := kept changed (by rw [← uniqued]; split <;> rfl)
  simp only [small', not_true_eq_false, false_and, and_false, if_false, if_true]

theorem prepareMethodList_prepareMethodList (mlist : MethodList) :
    prepareMethodList runtime (prepareMethodList runtime mlist) = prepareMethodList runtime mlist := by
  by_cases fixedUp : mlist.isFixedUp runtime
  · rw [prepareMethodList.eq_def runtime mlist, if_pos fixedUp, prepareMethodList, if_pos fixedUp]
  rw [prepareMethodList.eq_def runtime mlist, if_neg fixedUp, prepareMethodList]
  split
  next => rfl
  next raw =>
    -- a small list is not marked, but its selectors are unique already
    have small : mlist.isSmallList = true := by
      rw [isFixedUp_fixupMethodList] at raw
      simpa [fixedUp] using raw
    rw [fixupMethodList_of_small ((isSmallList_fixupMethodList).trans small), fixupMethodList_of_small small]
    by_cases uniqued : mlist.isUniqued runtime
    · simp only [if_pos uniqued]
    · have raw' : ¬(⟨mlist.entsizeAndFlags, mlist.methods.map (Method.unique runtime)⟩ : MethodList).isUniqued runtime := uniqued
      simp only [if_neg uniqued, if_neg raw', List.map_map]
      congr 2
      exact funext unique_unique

theorem prepareMethodLists_apply (memory : Memory) (added : List ℕ) (list : ℕ) :
    prepareMethodLists runtime memory (added.map some) list =
      if list ∈ added then prepareMethodList runtime (memory list) else memory list := by
  rw [prepareMethodLists, show (added.map some).reduceOption = added from by simp [List.reduceOption]]
  induction added generalizing memory with
  | nil => rfl
  | cons first rest ih =>
      rw [List.foldl_cons, ih]
      by_cases here : list = first
      · subst here
        simp only [Function.update_self, List.mem_cons_self, if_true, prepareMethodList_prepareMethodList, ite_self]
      · simp only [Function.update_of_ne here, List.mem_cons, here, false_or]

theorem ready_prepareMethodList (trusted : mlist.Trusted runtime) : (prepareMethodList runtime mlist).Ready runtime := by
  rw [prepareMethodList]
  split
  next fixedUp => exact ⟨(trusted.fixedUp fixedUp).1, fun fixedUp => (trusted.fixedUp fixedUp).2⟩
  next raw => exact ready_fixupMethodList trusted (Bool.eq_false_iff.mpr raw)

theorem searchMethodListInline_prepareMethodList (trusted : mlist.Trusted runtime) (sel : ℕ) :
    searchMethodListInline runtime (prepareMethodList runtime mlist) sel = (mlist.declared runtime).find? fun meth => meth.name = sel := by
  rw [searchMethodListInline_eq (ready_prepareMethodList trusted), prepareMethodList]
  split
  next fixedUp => rw [(trusted.fixedUp fixedUp).1.declared]
  next => exact find?_fixupMethodList trusted.uniqued

theorem lists_handOnChunks (array : ListArray) (chunks : List (List ℕ)) :
    (ReversedChunks.handOnChunks ListArray.attachLists array chunks).lists = chunks.flatten.reverse.map some ++ array.lists := by
  induction chunks generalizing array with
  | nil => rfl
  | cons chunk chunks ih =>
      rw [ReversedChunks.handOnChunks, List.foldl_cons, ← ReversedChunks.handOnChunks, ih, ListArray.lists_attachLists, List.flatten_cons,
        List.reverse_append, List.map_append, List.append_assoc]

theorem handOnChunks_attachMethodLists (memory : Memory) (array : ListArray) (chunks : List (List ℕ)) :
    (ReversedChunks.handOnChunks (attachMethodLists runtime) (memory, array) chunks).2 =
        ReversedChunks.handOnChunks ListArray.attachLists array chunks ∧
      ∀ list, (ReversedChunks.handOnChunks (attachMethodLists runtime) (memory, array) chunks).1 list =
        if list ∈ chunks.flatten then prepareMethodList runtime (memory list) else memory list := by
  induction chunks generalizing memory array with
  | nil => exact ⟨rfl, fun _ => rfl⟩
  | cons chunk chunks ih =>
      obtain ⟨arrays, lists⟩ := ih (prepareMethodLists runtime memory (chunk.reverse.map some)) (array.attachLists (chunk.reverse.map some))
      refine ⟨arrays, fun list => (lists list).trans ?_⟩
      rw [prepareMethodLists_apply, List.flatten_cons]
      simp only [List.mem_reverse, List.mem_append]
      by_cases first : list ∈ chunk
      · simp only [first, if_true, true_or, prepareMethodList_prepareMethodList, ite_self]
      · simp only [first, if_false, false_or]

/-- The lists of the categories of a batch, oldest first. -/
def methodLists (images : Images) (isMeta : Bool) (catsList : List LocstampedCategory) : List ℕ :=
  catsList.filterMap fun entry => (images.cat entry.cat).methodsForMeta isMeta

def propertyLists (images : Images) (isMeta : Bool) (catsList : List LocstampedCategory) : List ℕ :=
  catsList.filterMap fun entry => (images.cat entry.cat).propertiesForMeta isMeta (images.hasCategoryClassProperties entry.hi)

def protocolLists (images : Images) (isMeta : Bool) (catsList : List LocstampedCategory) : List ℕ :=
  catsList.filterMap fun entry => (images.cat entry.cat).protocolsForMeta isMeta

theorem foldl_add (catsList : List LocstampedCategory) (attaching : Attaching) :
    catsList.foldl (Attaching.add runtime images isMeta) attaching =
      ⟨(catsList.map fun entry => (images.cat entry.cat).methodsForMeta isMeta).foldl
          (ReversedChunks.push ATTACH_BUFSIZ (attachMethodLists runtime)) attaching.mlists,
        (catsList.map fun entry => (images.cat entry.cat).propertiesForMeta isMeta (images.hasCategoryClassProperties entry.hi)).foldl
          (ReversedChunks.push ATTACH_BUFSIZ ListArray.attachLists) attaching.proplists,
        (catsList.map fun entry => (images.cat entry.cat).protocolsForMeta isMeta).foldl
          (ReversedChunks.push ATTACH_BUFSIZ ListArray.attachLists) attaching.protolists⟩ := by
  induction catsList generalizing attaching with
  | nil => rfl
  | cons entry rest ih => exact ih (attaching.add runtime images isMeta entry)

theorem reduceOption_map {α β : Type} (f : α → Option β) (items : List α) : (items.map f).reduceOption = items.filterMap f := by
  rw [List.reduceOption, List.filterMap_map]
  rfl

theorem lists_collected (array : ListArray) (entries : List (Option ℕ)) :
    let collected := entries.foldl (ReversedChunks.push ATTACH_BUFSIZ ListArray.attachLists) (ReversedChunks.start ATTACH_BUFSIZ array)
    (collected.target.attachLists (collected.rest ATTACH_BUFSIZ)).lists = entries.reduceOption.reverse.map some ++ array.lists := by
  obtain ⟨chunks, all, attached⟩ := @ReversedChunks.exists_chunks _ _ _ ListArray.attachLists (by decide : 0 < ATTACH_BUFSIZ) array entries
  intro collected
  rw [attached, lists_handOnChunks, all]

theorem attachMethodLists_rest (collected : ReversedChunks.Collecting (Memory × ListArray) ℕ) :
    (if 0 < collected.count then attachMethodLists runtime (collected.rest ATTACH_BUFSIZ) collected.target else collected.target) =
      attachMethodLists runtime (collected.rest ATTACH_BUFSIZ) collected.target := by
  split
  next => rfl
  next empty =>
    have nothing : collected.rest ATTACH_BUFSIZ = [] := by
      rw [ReversedChunks.Collecting.rest, Nat.eq_zero_of_not_pos empty, List.take_zero]
    rw [nothing]
    rfl

/-- The lists of a class after categories were attached, whose lists are given oldest first. -/
structure Attached (runtime : Runtime) (memory : Memory) (ro : ClassRo) (methods properties protocols : List ℕ) (state : State) : Prop where
  sameRo : state.cls.ro = ro
  memory : ∀ list, state.memory list =
    if list ∈ methods ∨ ro.baseMethods = some list then prepareMethodList runtime (memory list) else memory list
  methods : state.cls.methods.lists = (methods.reverse ++ ro.baseMethods.toList).map some
  properties : state.cls.properties.lists = (properties.reverse ++ ro.baseProperties.toList).map some
  protocols : state.cls.protocols.lists = (protocols.reverse ++ ro.baseProtocols.toList).map some

theorem lists_attachList (list : Option ℕ) (array : ListArray) : (attachList list array).lists = list.toList.map some ++ array.lists := by
  cases list with
  | none => rfl
  | some list => exact ListArray.lists_attachLists [list] array

theorem lists_list (list : Option ℕ) : (ListArray.list list).lists = list.toList.map some := by
  cases list <;> rfl

theorem lists_extAllocIfNeeded (cls : ClassRw) :
    cls.extAllocIfNeeded.methods.lists = cls.methods.lists ∧ cls.extAllocIfNeeded.properties.lists = cls.properties.lists ∧
      cls.extAllocIfNeeded.protocols.lists = cls.protocols.lists := by
  obtain ⟨ro, ext⟩ := cls
  cases ext with
  | some ext => exact ⟨rfl, rfl, rfl⟩
  | none =>
      have allocated (list : Option ℕ) : (attachList list (.list none)).lists = (ListArray.list list).lists :=
        (lists_attachList list (.list none)).trans ((List.append_nil _).trans (lists_list list).symm)
      exact ⟨allocated _, allocated _, allocated _⟩

variable {ro : ClassRo} {methods properties protocols : List ℕ}

theorem Attached.attachCategories (attached : Attached runtime memory ro methods properties protocols state) (images : Images) (isMeta : Bool)
    (catsList : List LocstampedCategory) :
    Attached runtime memory ro (methods ++ methodLists images isMeta catsList) (properties ++ propertyLists images isMeta catsList)
      (protocols ++ protocolLists images isMeta catsList) (attachCategories runtime images isMeta state catsList) := by
  obtain ⟨same_methods, same_properties, same_protocols⟩ := lists_extAllocIfNeeded state.cls
  have newest (added older base : List ℕ) : added.reverse.map some ++ (older.reverse ++ base).map some =
      ((older ++ added).reverse ++ base).map some := by
    rw [← List.map_append, List.reverse_append, List.append_assoc]
  obtain ⟨chunks, all, collected⟩ := @ReversedChunks.exists_chunks _ _ _ (attachMethodLists runtime) (by decide : 0 < ATTACH_BUFSIZ)
    (state.memory, state.cls.extAllocIfNeeded.methods) (catsList.map fun entry => (images.cat entry.cat).methodsForMeta isMeta)
  rw [reduceOption_map] at all
  obtain ⟨arrays, lists⟩ := @handOnChunks_attachMethodLists runtime state.memory state.cls.extAllocIfNeeded.methods chunks
  rw [Categories.attachCategories]
  simp only [foldl_add, attachMethodLists_rest]
  simp only [collected]
  refine ⟨attached.sameRo, fun list => ?_, ?_, ?_, ?_⟩
  · refine (lists list).trans ?_
    rw [all, attached.memory]
    simp only [List.mem_append]
    by_cases old : list ∈ methods ∨ ro.baseMethods = some list
    · have either : (list ∈ methods ∨ list ∈ methodLists images isMeta catsList) ∨ ro.baseMethods = some list :=
        old.imp_left .inl
      simp only [if_pos old, if_pos either, prepareMethodList_prepareMethodList, ite_self]
    · rw [if_neg old]
      have other : (list ∈ methods ∨ list ∈ methodLists images isMeta catsList) ∨ ro.baseMethods = some list ↔
          list ∈ methodLists images isMeta catsList := by
        tauto
      simp only [other]
      rfl
  · show (ReversedChunks.handOnChunks (attachMethodLists runtime) (state.memory, state.cls.extAllocIfNeeded.methods) chunks).2.lists = _
    rw [arrays, lists_handOnChunks, all, same_methods, attached.methods]
    exact newest (methodLists images isMeta catsList) methods ro.baseMethods.toList
  · refine (lists_collected _ _).trans ?_
    rw [reduceOption_map, same_properties, attached.properties]
    exact newest (propertyLists images isMeta catsList) properties ro.baseProperties.toList
  · refine (lists_collected _ _).trans ?_
    rw [reduceOption_map, same_protocols, attached.protocols]
    exact newest (protocolLists images isMeta catsList) protocols ro.baseProtocols.toList

/-- A batch of categories, for a class or for its metaclass. -/
structure Batch where
  isMeta : Bool
  catsList : List LocstampedCategory

def attachBatches (runtime : Runtime) (images : Images) (state : State) (batches : List Batch) : State :=
  batches.foldl (fun state batch => attachCategories runtime images batch.isMeta state batch.catsList) state

/-- A class whose lists are not installed. -/
def ClassRw.Fresh (cls : ClassRw) : Prop := cls.ext = none ∨ cls.ext = some ⟨.list none, .list none, .list none⟩

theorem attached_methodizeClass (fresh : state.cls.Fresh) : Attached runtime state.memory state.cls.ro [] [] [] (methodizeClass runtime state) := by
  have installed (list : Option ℕ) : (attachList list (.list none)).lists = ([].reverse ++ list.toList).map some :=
    (lists_attachList list (.list none)).trans (List.append_nil _)
  obtain ⟨memory, ro, ext⟩ := state
  refine ⟨rfl, fun list => ?_, ?_, ?_, ?_⟩
  · have prepared := @prepareMethodLists_apply runtime memory ro.baseMethods.toList list
    simp only [Option.mem_toList, List.not_mem_nil, false_or] at prepared ⊢
    refine Eq.trans ?_ prepared
    cases base : ro.baseMethods with
    | none => simp only [methodizeClass, base]; rfl
    | some list => simp only [methodizeClass, base]; rfl
  all_goals
    obtain rfl | rfl := fresh
    · exact lists_list _
    · exact installed _

theorem Attached.attachBatches (attached : Attached runtime memory ro methods properties protocols state) (batches : List Batch) :
    Attached runtime memory ro (methods ++ batches.flatMap fun batch => methodLists images batch.isMeta batch.catsList)
      (properties ++ batches.flatMap fun batch => propertyLists images batch.isMeta batch.catsList)
      (protocols ++ batches.flatMap fun batch => protocolLists images batch.isMeta batch.catsList)
      (attachBatches runtime images state batches) := by
  induction batches generalizing state methods properties protocols with
  | nil =>
      simp only [List.flatMap_nil, List.append_nil]
      exact attached
  | cons batch rest ih =>
      simp only [List.flatMap_cons, ← List.append_assoc]
      exact ih (attached.attachCategories images batch.isMeta batch.catsList)

theorem findSome?_congr {α β : Type} {f g : α → Option β} {items : List α} (same : ∀ item ∈ items, f item = g item) :
    items.findSome? f = items.findSome? g := by
  induction items with
  | nil => rfl
  | cons item items ih =>
      rw [List.findSome?_cons, List.findSome?_cons, same item List.mem_cons_self, ih fun item inside => same item (List.mem_cons_of_mem _ inside)]

theorem Attached.getMethodNoSuper (attached : Attached runtime memory ro methods properties protocols state)
    (trusted : ∀ list, (memory list).Trusted runtime) (sel : ℕ) :
    getMethodNoSuper runtime state sel = (methods.reverse ++ ro.baseMethods.toList).findSome? fun list =>
      ((memory list).declared runtime).find? fun meth => meth.name = sel := by
  have found (list : ℕ) (inside : list ∈ methods.reverse ++ ro.baseMethods.toList) :
      searchMethodListInline runtime (state.memory list) sel = ((memory list).declared runtime).find? fun meth => meth.name = sel := by
    have prepared : list ∈ methods ∨ ro.baseMethods = some list := by
      simpa [Option.mem_toList] using inside
    rw [attached.memory, if_pos prepared]
    exact searchMethodListInline_prepareMethodList (trusted list) sel
  rw [Categories.getMethodNoSuper, attached.methods, List.findSome?_map]
  exact findSome?_congr found

/-- What is found in a class and in what order its lists stand, newest first. -/
structure Overrides (runtime : Runtime) (memory : Memory) (ro : ClassRo) (methods properties protocols : List ℕ) (state : State) : Prop where
  /-- The method of the newest list that declares the selector, the first one in this list. -/
  getMethodNoSuper : ∀ sel, Categories.getMethodNoSuper runtime state sel =
    (methods ++ ro.baseMethods.toList).findSome? fun list => ((memory list).declared runtime).find? fun meth => meth.name = sel
  methods : state.cls.methods.lists = (methods ++ ro.baseMethods.toList).map some
  properties : state.cls.properties.lists = (properties ++ ro.baseProperties.toList).map some
  protocols : state.cls.protocols.lists = (protocols ++ ro.baseProtocols.toList).map some

/-- After any batches, the lists of the categories stand newest first, and override each other in this order. -/
theorem overrides_attachBatches (fresh : state.cls.Fresh) (trusted : ∀ list, (state.memory list).Trusted runtime) (batches : List Batch) :
    Overrides runtime state.memory state.cls.ro
      (batches.flatMap fun batch => methodLists images batch.isMeta batch.catsList).reverse
      (batches.flatMap fun batch => propertyLists images batch.isMeta batch.catsList).reverse
      (batches.flatMap fun batch => protocolLists images batch.isMeta batch.catsList).reverse
      (attachBatches runtime images (methodizeClass runtime state) batches) := by
  have attached := @Attached.attachBatches runtime images _ _ _ _ _ _ (attached_methodizeClass fresh) batches
  simp only [List.nil_append] at attached
  exact ⟨attached.getMethodNoSuper trusted, attached.methods, attached.properties, attached.protocols⟩

/-- A list of a class at `1` and lists of categories from `2` on, which declare two methods for one selector. -/
def overridden : Memory
  | 0 => ⟨24, []⟩
  | 1 => ⟨24, [⟨6, "v16@0:8", 100⟩, ⟨4, "v16@0:8", 101⟩]⟩
  | list => ⟨24, [⟨4, "v16@0:8", 10 * list⟩, ⟨4, "v16@0:8", 10 * list + 1⟩]⟩

/-- The second one of two categories is found. -/
theorem overrides_attachBatches_two :
    let runtime : Runtime := ⟨true, id, fun _ => rfl⟩
    let images : Images := ⟨fun cat => ⟨some cat, none, none, none, none⟩, fun _ => false⟩
    let state := attachBatches runtime images (methodizeClass runtime ⟨overridden, ⟨some 1, none, none⟩, none⟩) [⟨false, [⟨2, 0⟩, ⟨3, 0⟩]⟩]
    getMethodNoSuper runtime state 4 = some ⟨4, "v16@0:8", 30⟩ ∧ getMethodNoSuper runtime state 6 = some ⟨6, "v16@0:8", 100⟩ := by
  intro runtime images state
  have trusted (list : ℕ) : (overridden list).Trusted runtime := by
    have header : (overridden list).entsizeAndFlags = 24 := by
      match list with
      | 0 => rfl
      | 1 => rfl
      | _ + 2 => rfl
    constructor
    · intro marked
      rw [MethodList.isUniqued, MethodList.flags, header, show runtime.uniquedMethodList = 1 from rfl] at marked
      exact absurd marked (by decide)
    · intro marked
      rw [MethodList.isFixedUp, MethodList.flags, header, show runtime.fixedUpMethodList = 3 from rfl] at marked
      exact absurd marked (by decide)
  have overrides := @overrides_attachBatches runtime images ⟨overridden, ⟨some 1, none, none⟩, none⟩ (.inl rfl) trusted
    [⟨false, [⟨2, 0⟩, ⟨3, 0⟩]⟩]
  exact ⟨(overrides.getMethodNoSuper 4).trans rfl, (overrides.getMethodNoSuper 6).trans rfl⟩

end ObjcDyld.Categories
