import ObjcDyld.Common.SortedSearch

/-!
# Method lists

The methods of a class, a category or a protocol, as the compiler emits them or as the runtime has fixed
them up: `fixupMethodList` uniques the selectors of a list, sorts it and marks it, and
`search_method_list_inline` trusts the mark.
-/

namespace ObjcDyld.MethodLists

/-- What a process has for all lists. -/
structure Runtime where
  /-- `disableSharedCacheOptimizations` was not called. -/
  preoptimized : Bool
  /-- `sel_registerNameNoLock`: for a name, the address of its selector. -/
  registerName : ℕ → ℕ
  registered : ∀ name, registerName (registerName name) = registerName name

variable (runtime : Runtime)

def Runtime.fixedUpMethodList : BitVec 32 := if runtime.preoptimized then 3 else 2

def Runtime.uniquedMethodList : BitVec 32 := if runtime.preoptimized then 1 else 0

/-- `method_t`; the name is the address of a string, or a selector. -/
structure Method where
  name : ℕ
  types : String
  imp : ℕ
  deriving DecidableEq

/-- `method_list_t`. -/
structure MethodList where
  entsizeAndFlags : BitVec 32
  methods : List Method
  deriving DecidableEq

namespace MethodList

def flagMask : BitVec 32 := 0xffff0003

def bigSize : BitVec 32 := 24

def smallSize : BitVec 32 := 12

def entsize (mlist : MethodList) : BitVec 32 := mlist.entsizeAndFlags &&& ~~~flagMask

def flags (mlist : MethodList) : BitVec 32 := mlist.entsizeAndFlags &&& flagMask

def isSmallList (mlist : MethodList) : Bool := mlist.flags &&& 0x80000000 ≠ 0

def isExpectedSize (mlist : MethodList) : Bool := if mlist.isSmallList then mlist.entsize = smallSize else mlist.entsize = bigSize

def isUniqued (mlist : MethodList) : Bool := mlist.flags &&& runtime.uniquedMethodList ≠ 0

def isFixedUp (mlist : MethodList) : Bool := mlist.flags &&& 3 = runtime.fixedUpMethodList

def setFixedUp (mlist : MethodList) : MethodList := { mlist with entsizeAndFlags := mlist.entsize ||| runtime.fixedUpMethodList }

end MethodList

/-- The method under its selector. -/
def Method.unique (meth : Method) : Method := { meth with name := runtime.registerName meth.name }

def fixupMethodList (mlist : MethodList) (sort : Bool) : MethodList :=
  -- dyld3 may have already uniqued, but not sorted, the list
  let mlist := if mlist.isUniqued runtime then mlist else { mlist with methods := mlist.methods.map (Method.unique runtime) }
  -- big lists of nonstandard size are not sorted
  let mlist :=
    if sort ∧ ¬mlist.isSmallList ∧ mlist.entsize = MethodList.bigSize then
      { mlist with methods := SortedSearch.stableSort Method.name mlist.methods }
    else mlist
  -- small lists are immutable
  if mlist.isSmallList then mlist else mlist.setFixedUp runtime

def findMethodInSortedMethodList (key : ℕ) (mlist : MethodList) : Option Method := SortedSearch.search Method.name mlist.methods key

/-- The index of the entry that `findMethodInSortedMethodList` returns. -/
def indexInSortedMethodList (key : ℕ) (mlist : MethodList) : Option ℕ :=
  SortedSearch.searchFrom Method.name mlist.methods key 0 mlist.methods.length

def searchMethodListInline (mlist : MethodList) (sel : ℕ) : Option Method :=
  if mlist.isFixedUp runtime ∧ mlist.isExpectedSize then findMethodInSortedMethodList sel mlist
  -- linear search of unsorted method list
  else mlist.methods.find? fun meth => meth.name = sel

variable {runtime} {mlist : MethodList} {sel : ℕ} {sort : Bool}

/-- The methods stand under their selectors. -/
def MethodList.Uniqued (runtime : Runtime) (mlist : MethodList) : Prop := ∀ meth ∈ mlist.methods, runtime.registerName meth.name = meth.name

/-- The marks of a list can be trusted, whether they come from the shared cache or from the runtime. -/
structure MethodList.Trusted (runtime : Runtime) (mlist : MethodList) : Prop where
  uniqued : mlist.isUniqued runtime → mlist.Uniqued runtime
  fixedUp : mlist.isFixedUp runtime → mlist.Uniqued runtime ∧ (mlist.isExpectedSize → SortedSearch.Sorted Method.name mlist.methods)

/-- The list can be searched for a selector. -/
structure MethodList.Ready (runtime : Runtime) (mlist : MethodList) : Prop where
  uniqued : mlist.Uniqued runtime
  sorted : mlist.isFixedUp runtime → mlist.isExpectedSize → SortedSearch.Sorted Method.name mlist.methods

@[simp] theorem Method.unique_name (meth : Method) : (meth.unique runtime).name = runtime.registerName meth.name := rfl

@[simp] theorem entsize_setFixedUp (mlist : MethodList) : (mlist.setFixedUp runtime).entsize = mlist.entsize := by
  have marked : runtime.fixedUpMethodList &&& ~~~MethodList.flagMask = 0#32 := by
    rw [Runtime.fixedUpMethodList]
    split <;> rfl
  show (mlist.entsize ||| runtime.fixedUpMethodList) &&& ~~~MethodList.flagMask = mlist.entsize
  rw [BitVec.and_or_distrib_right, marked, MethodList.entsize, BitVec.and_assoc, BitVec.and_self,
    BitVec.or_zero]

theorem flags_setFixedUp (mlist : MethodList) : (mlist.setFixedUp runtime).flags = runtime.fixedUpMethodList := by
  have marked : runtime.fixedUpMethodList &&& MethodList.flagMask = runtime.fixedUpMethodList := by
    rw [Runtime.fixedUpMethodList]
    split <;> rfl
  have masks : ~~~MethodList.flagMask &&& MethodList.flagMask = 0#32 := rfl
  show (mlist.entsize ||| runtime.fixedUpMethodList) &&& MethodList.flagMask = runtime.fixedUpMethodList
  rw [BitVec.and_or_distrib_right, marked, MethodList.entsize, BitVec.and_assoc, masks,
    BitVec.and_zero, BitVec.zero_or]

@[simp] theorem isFixedUp_setFixedUp (mlist : MethodList) : (mlist.setFixedUp runtime).isFixedUp runtime = true := by
  rw [MethodList.isFixedUp, flags_setFixedUp, Runtime.fixedUpMethodList]
  split <;> rfl

@[simp] theorem isSmallList_setFixedUp (mlist : MethodList) : (mlist.setFixedUp runtime).isSmallList = false := by
  rw [MethodList.isSmallList, flags_setFixedUp, Runtime.fixedUpMethodList]
  split <;> rfl

/-- The methods of a list under their selectors, in the order of the list. -/
def MethodList.declared (runtime : Runtime) (mlist : MethodList) : List Method := mlist.methods.map (Method.unique runtime)

/-- The list is one that is sorted. -/
def MethodList.Sortable (mlist : MethodList) : Prop := ¬mlist.isSmallList ∧ mlist.entsize = bigSize

instance (mlist : MethodList) : Decidable mlist.Sortable := instDecidableAnd

theorem MethodList.Uniqued.declared (uniqued : mlist.Uniqued runtime) : mlist.declared runtime = mlist.methods := by
  refine (List.map_congr_left fun meth member => ?_).trans (List.map_id _)
  rw [Method.unique, uniqued meth member]
  rfl

theorem unique_unique (meth : Method) : (meth.unique runtime).unique runtime = meth.unique runtime := by
  simp only [Method.unique, runtime.registered]

theorem methods_fixupMethodList (trusted : mlist.isUniqued runtime → mlist.Uniqued runtime) :
    (fixupMethodList runtime mlist sort).methods =
      if sort ∧ mlist.Sortable then SortedSearch.stableSort Method.name (mlist.declared runtime) else mlist.declared runtime := by
  have uniqued : (if mlist.isUniqued runtime then mlist else { mlist with methods := mlist.methods.map (Method.unique runtime) }) =
      { mlist with methods := mlist.declared runtime } := by
    split
    next marked => rw [(trusted marked).declared]
    next => rfl
  rw [fixupMethodList, uniqued]
  by_cases sorts : sort ∧ mlist.Sortable
  · rw [if_pos sorts]
    have sorts' : sort ∧ ¬(⟨mlist.entsizeAndFlags, mlist.declared runtime⟩ : MethodList).isSmallList ∧
        (⟨mlist.entsizeAndFlags, mlist.declared runtime⟩ : MethodList).entsize = MethodList.bigSize := sorts
    simp only [if_pos sorts']
    split <;> rfl
  · rw [if_neg sorts]
    have sorts' : ¬(sort ∧ ¬(⟨mlist.entsizeAndFlags, mlist.declared runtime⟩ : MethodList).isSmallList ∧
        (⟨mlist.entsizeAndFlags, mlist.declared runtime⟩ : MethodList).entsize = MethodList.bigSize) := sorts
    simp only [if_neg sorts']
    split <;> rfl

theorem entsizeAndFlags_fixupMethodList : (fixupMethodList runtime mlist sort).entsizeAndFlags =
    if mlist.isSmallList then mlist.entsizeAndFlags else (mlist.setFixedUp runtime).entsizeAndFlags := by
  have kept (changed : MethodList) (same : changed.entsizeAndFlags = mlist.entsizeAndFlags) :
      (if changed.isSmallList then changed else changed.setFixedUp runtime).entsizeAndFlags =
        if mlist.isSmallList then mlist.entsizeAndFlags else (mlist.setFixedUp runtime).entsizeAndFlags := by
    obtain ⟨_, methods⟩ := changed
    obtain rfl := same
    show (if mlist.isSmallList then _ else _ : MethodList).entsizeAndFlags = _
    split <;> rfl
  rw [fixupMethodList]
  refine kept _ ?_
  split <;> split <;> rfl

theorem isSmallList_fixupMethodList : (fixupMethodList runtime mlist sort).isSmallList = mlist.isSmallList := by
  rw [MethodList.isSmallList, MethodList.flags, entsizeAndFlags_fixupMethodList]
  split
  next => rfl
  next big => exact (isSmallList_setFixedUp mlist).trans (Bool.eq_false_iff.mpr big).symm

theorem isFixedUp_fixupMethodList :
    (fixupMethodList runtime mlist sort).isFixedUp runtime = (mlist.isFixedUp runtime || !mlist.isSmallList) := by
  rw [MethodList.isFixedUp, MethodList.flags, entsizeAndFlags_fixupMethodList]
  split
  next small => rw [small, Bool.not_true, Bool.or_false]; rfl
  next big => rw [Bool.eq_false_iff.mpr big, Bool.not_false, Bool.or_true]; exact isFixedUp_setFixedUp mlist

theorem isExpectedSize_fixupMethodList : (fixupMethodList runtime mlist sort).isExpectedSize = mlist.isExpectedSize := by
  rw [MethodList.isExpectedSize, isSmallList_fixupMethodList, MethodList.isExpectedSize, MethodList.entsize, entsizeAndFlags_fixupMethodList]
  split
  next => rfl
  next => exact congrArg (fun size => decide (size = MethodList.bigSize)) (entsize_setFixedUp mlist)

theorem uniqued_fixupMethodList (trusted : mlist.isUniqued runtime → mlist.Uniqued runtime) :
    (fixupMethodList runtime mlist sort).Uniqued runtime := by
  intro meth member
  have declared : meth ∈ mlist.declared runtime := by
    rw [methods_fixupMethodList trusted] at member
    split at member
    next => exact (SortedSearch.stableSort_perm _).mem_iff.mp member
    next => exact member
  obtain ⟨original, -, rfl⟩ := List.mem_map.mp declared
  exact runtime.registered original.name

theorem ready_fixupMethodList (trusted : mlist.Trusted runtime) (raw : mlist.isFixedUp runtime = false) :
    (fixupMethodList runtime mlist true).Ready runtime := by
  refine ⟨uniqued_fixupMethodList trusted.uniqued, fun fixedUp expected => ?_⟩
  rw [isFixedUp_fixupMethodList, raw, Bool.false_or] at fixedUp
  rw [isExpectedSize_fixupMethodList, MethodList.isExpectedSize] at expected
  have big : mlist.isSmallList = false := by simpa using fixedUp
  have sorts : mlist.Sortable := by
    rw [big] at expected
    exact ⟨Bool.eq_false_iff.mp big, of_decide_eq_true expected⟩
  rw [methods_fixupMethodList trusted.uniqued, if_pos ⟨rfl, sorts⟩]
  exact SortedSearch.stableSort_sorted _

theorem find?_fixupMethodList (trusted : mlist.isUniqued runtime → mlist.Uniqued runtime) :
    (fixupMethodList runtime mlist sort).methods.find? (fun meth => meth.name = sel) =
      (mlist.declared runtime).find? fun meth => meth.name = sel := by
  rw [methods_fixupMethodList trusted]
  split
  next => exact SortedSearch.find?_stableSort _
  next => rfl

theorem searchMethodListInline_eq (ready : mlist.Ready runtime) :
    searchMethodListInline runtime mlist sel = mlist.methods.find? fun meth => meth.name = sel := by
  rw [searchMethodListInline]
  split
  next marked => exact SortedSearch.search_eq_find? (ready.sorted marked.1 marked.2)
  next => rfl

/-- In a sorted list, the entry that is found is the first one that a search from the front comes to. -/
theorem findMethodInSortedMethodList_eq (sorted : SortedSearch.Sorted Method.name mlist.methods) (key : ℕ) :
    indexInSortedMethodList key mlist = mlist.methods.findIdx? (fun meth => meth.name = key) ∧
      findMethodInSortedMethodList key mlist = mlist.methods.find? fun meth => meth.name = key :=
  ⟨SortedSearch.searchFrom_all sorted, SortedSearch.search_eq_find? sorted⟩

/-- The second entry of three is the first one with its selector. -/
theorem findMethodInSortedMethodList_eq_three :
    indexInSortedMethodList 5 ⟨27, [⟨3, "", 1⟩, ⟨5, "", 2⟩, ⟨5, "", 3⟩]⟩ = some 1 :=
  (findMethodInSortedMethodList_eq (by decide) 5).1.trans rfl

end ObjcDyld.MethodLists
