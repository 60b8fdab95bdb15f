import ObjcDyld.Categories.Unattached
import ObjcDyld.Common.Moves
import ObjcDyld.Common.ReversedChunks
import ObjcDyld.MethodLists.Lists

/-!
# Arrays of lists

`list_array_tt`: the lists of a class, none, one or an array of them. `attachLists` puts lists in front,
in each of the three representations.
-/

namespace ObjcDyld.Categories

/-- `list_array_tt`, over the addresses of lists. A slot of an array is `none` before it has been written. -/
inductive ListArray where
  /-- `list`, which may be null. -/
  | list (single : Option ℕ)
  | array (lists : List (Option ℕ))
  deriving DecidableEq

namespace ListArray

/-- From `beginLists()` to `endLists()`. -/
def lists : ListArray → List (Option ℕ)
  | .list none => []
  | .list (some single) => [some single]
  | .array lists => lists

def attachLists (addedLists : List (Option ℕ)) (array : ListArray) : ListArray :=
  let addedCount := addedLists.length
  if addedCount = 0 then array
  else
    match array with
    -- many lists -> many lists
    | .array lists =>
        let newArray := List.replicate (lists.length + addedCount) none
        let newArray := Copies.copy newArray addedCount lists (List.range lists.length).reverse
        .array (Copies.copy newArray 0 addedLists (List.range addedCount))
    | .list oldList =>
        -- 0 lists -> 1 list
        if oldList = none ∧ addedCount = 1 then .list (addedLists.headD none)
        -- 1 list -> many lists
        else
          let oldCount := if oldList.isSome then 1 else 0
          let newArray := List.replicate (oldCount + addedCount) none
          let newArray := if oldList.isSome then newArray.set addedCount oldList else newArray
          .array (Copies.copy newArray 0 addedLists (List.range addedCount))

variable {added : List ℕ} {array : ListArray}

theorem copy_front (added old : List (Option ℕ)) :
    Copies.copy (List.replicate added.length none ++ old) 0 added (List.range added.length) = added ++ old := by
  have copied := @Copies.copy_all _ (List.replicate added.length none ++ old) added 0 _ (List.Perm.refl _) [] old rfl rfl
  exact copied

theorem lists_attachLists (added : List ℕ) (array : ListArray) : (array.attachLists (added.map some)).lists = added.map some ++ array.lists := by
  by_cases nothing : (added.map some).length = 0
  · obtain rfl := List.map_eq_nil_iff.mp (List.length_eq_zero_iff.mp nothing)
    rfl
  cases array with
  | array lists =>
      have moved := @Copies.copy_all _ (List.replicate (lists.length + (added.map some).length) none) lists (added.map some).length _
        (List.reverse_perm (List.range lists.length)) (List.replicate (added.map some).length none) [] List.length_replicate
        (by rw [List.append_nil, List.replicate_append_replicate, Nat.add_comm])
      rw [List.append_nil] at moved
      simp only [attachLists, if_neg nothing]
      rw [moved]
      exact copy_front (added.map some) lists
  | list oldList =>
      by_cases single : oldList = none ∧ (added.map some).length = 1
      · obtain ⟨rfl, one⟩ := single
        obtain ⟨list, rfl⟩ := List.length_eq_one_iff.mp ((List.length_map some).symm.trans one)
        rfl
      · simp only [attachLists, if_neg nothing, if_neg single]
        cases oldList with
        | none =>
            have copied := copy_front (added.map some) []
            rw [List.append_nil, List.append_nil] at copied
            simpa [lists] using copied
        | some list =>
            have behind : (List.replicate (1 + (added.map some).length) none).set (added.map some).length (some list) =
                List.replicate (added.map some).length none ++ [some list] := by
              rw [Nat.add_comm, List.replicate_succ', List.set_append_right _ _ (by simp)]
              simp
            show Copies.copy ((List.replicate (1 + (added.map some).length) none).set _ _) 0 _ _ = _
            rw [behind]
            exact copy_front (added.map some) [some list]

end ListArray

end ObjcDyld.Categories

/-!
## Attaching categories

`attachCategories` collects the lists of a batch of categories in buffers, from back to front, and
attaches them to the lists of a class, where `getMethodNoSuper_nolock` looks for a method.
-/

namespace ObjcDyld.Categories

open MethodLists

/-- `category_t`: the addresses of its lists. -/
structure Category where
  instanceMethods : Option ℕ
  classMethods : Option ℕ
  protocols : Option ℕ
  instanceProperties : Option ℕ
  classProperties : Option ℕ
  deriving DecidableEq

/-- The categories of the images, by their addresses, and `hasCategoryClassProperties` of the headers. -/
structure Images where
  cat : ℕ → Category
  hasCategoryClassProperties : ℕ → Bool

def Category.methodsForMeta (cat : Category) (isMeta : Bool) : Option ℕ := if isMeta then cat.classMethods else cat.instanceMethods

def Category.propertiesForMeta (cat : Category) (isMeta hasCategoryClassProperties : Bool) : Option ℕ :=
  if ¬isMeta then cat.instanceProperties
  else if hasCategoryClassProperties then cat.classProperties
  else none

def Category.protocolsForMeta (cat : Category) (isMeta : Bool) : Option ℕ := if isMeta then none else cat.protocols

/-- `class_ro_t`. -/
structure ClassRo where
  baseMethods : Option ℕ
  baseProperties : Option ℕ
  baseProtocols : Option ℕ
  deriving DecidableEq

/-- `class_rw_ext_t`. -/
structure ClassRwExt where
  methods : ListArray
  properties : ListArray
  protocols : ListArray
  deriving DecidableEq

/-- `class_rw_t`; without the extension, the lists are those of the `class_ro_t`. -/
structure ClassRw where
  ro : ClassRo
  ext : Option ClassRwExt
  deriving DecidableEq

/-- The method lists, by their addresses. -/
abbrev Memory := ℕ → MethodList

structure State where
  memory : Memory
  cls : ClassRw

variable (runtime : Runtime)

/-- A list, unless it is null. -/
def attachList (list : Option ℕ) (array : ListArray) : ListArray :=
  match list with
  | none => array
  | some list => array.attachLists [some list]

/-- `extAlloc`, without a deep copy. -/
def extAlloc (ro : ClassRo) : ClassRwExt :=
  ⟨attachList ro.baseMethods (.list none), attachList ro.baseProperties (.list none), attachList ro.baseProtocols (.list none)⟩

def ClassRw.extAllocIfNeeded (cls : ClassRw) : ClassRwExt := cls.ext.getD (extAlloc cls.ro)

def ClassRw.methods (cls : ClassRw) : ListArray :=
  match cls.ext with
  | some ext => ext.methods
  | none => .list cls.ro.baseMethods

/-- `properties()` and `protocols()`. -/
def ClassRw.properties (cls : ClassRw) : ListArray :=
  match cls.ext with
  | some ext => ext.properties
  | none => .list cls.ro.baseProperties

def ClassRw.protocols (cls : ClassRw) : ListArray :=
  match cls.ext with
  | some ext => ext.protocols
  | none => .list cls.ro.baseProtocols

/-- Fixup selectors if necessary. -/
def prepareMethodList (mlist : MethodList) : MethodList :=
  if mlist.isFixedUp runtime then mlist else fixupMethodList runtime mlist true

def prepareMethodLists (memory : Memory) (addedLists : List (Option ℕ)) : Memory :=
  addedLists.reduceOption.foldl (fun memory list => Function.update memory list (prepareMethodList runtime (memory list))) memory

def ATTACH_BUFSIZ : ℕ := 64

def attachMethodLists (addedLists : List (Option ℕ)) (target : Memory × ListArray) : Memory × ListArray :=
  (prepareMethodLists runtime target.1 addedLists, target.2.attachLists addedLists)

/-- The buffers of `attachCategories`, with what they go to. -/
structure Attaching where
  mlists : ReversedChunks.Collecting (Memory × ListArray) ℕ
  proplists : ReversedChunks.Collecting ListArray ℕ
  protolists : ReversedChunks.Collecting ListArray ℕ

def Attaching.add (images : Images) (isMeta : Bool) (attaching : Attaching) (entry : LocstampedCategory) : Attaching where
  mlists := ReversedChunks.push ATTACH_BUFSIZ (attachMethodLists runtime) attaching.mlists ((images.cat entry.cat).methodsForMeta isMeta)
  proplists := ReversedChunks.push ATTACH_BUFSIZ ListArray.attachLists attaching.proplists
    ((images.cat entry.cat).propertiesForMeta isMeta (images.hasCategoryClassProperties entry.hi))
  protolists := ReversedChunks.push ATTACH_BUFSIZ ListArray.attachLists attaching.protolists
    ((images.cat entry.cat).protocolsForMeta isMeta)

def attachCategories (images : Images) (isMeta : Bool) (state : State) (catsList : List LocstampedCategory) : State :=
  let rwe := state.cls.extAllocIfNeeded
  let start : Attaching :=
    ⟨ReversedChunks.start ATTACH_BUFSIZ (state.memory, rwe.methods), ReversedChunks.start ATTACH_BUFSIZ rwe.properties,
      ReversedChunks.start ATTACH_BUFSIZ rwe.protocols⟩
  let attaching := catsList.foldl (Attaching.add runtime images isMeta) start
  let (memory, methods) :=
    if 0 < attaching.mlists.count then attachMethodLists runtime (attaching.mlists.rest ATTACH_BUFSIZ) attaching.mlists.target
    else attaching.mlists.target
  let properties := attaching.proplists.target.attachLists (attaching.proplists.rest ATTACH_BUFSIZ)
  let protocols := attaching.protolists.target.attachLists (attaching.protolists.rest ATTACH_BUFSIZ)
  ⟨memory, { state.cls with ext := some ⟨methods, properties, protocols⟩ }⟩

/-- `methodizeClass`, as far as it installs the methods and properties that the class implements itself. -/
def methodizeClass (state : State) : State where
  memory := prepareMethodLists runtime state.memory [state.cls.ro.baseMethods]
  cls := { state.cls with
    ext := state.cls.ext.map fun ext =>
      ⟨attachList state.cls.ro.baseMethods ext.methods, attachList state.cls.ro.baseProperties ext.properties,
        attachList state.cls.ro.baseProtocols ext.protocols⟩ }

/-- `getMethodNoSuper_nolock`. -/
def getMethodNoSuper (state : State) (sel : ℕ) : Option Method :=
  state.cls.methods.lists.findSome? fun list => list.bind fun list => searchMethodListInline runtime (state.memory list) sel

end ObjcDyld.Categories
