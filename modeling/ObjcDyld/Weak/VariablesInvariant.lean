import ObjcDyld.Weak.Variables

/-!
# The invariant of the weak variables

Each stripe's weak table represents what the weak variables hold, and an object with an entry is
allocated and flagged.  Every change that the calls make to the heap keeps this.
-/

namespace ObjcDyld.Weak

open Function (update update_self update_of_ne)
open Probing
open Retain (Arch Isa Object RetainOp KeepsFlag isWeaklyReferenced)

variable {platform : Platform} {heap heap' : Heap} {live : Set ℕ} {obj location : ℕ}

/-! ## What the updates change -/

namespace Heap

@[simp] theorem sideTable_setSideTable (heap : Heap) (obj : ℕ) (table : SideTable) :
    (heap.setSideTable platform obj table).sideTable platform obj = table :=
  update_self ..

theorem setWeakTable_weakTable (heap : Heap) (obj stripe : ℕ) (table : WeakTable) :
    ((heap.setWeakTable platform obj table).sideTables stripe).weakTable =
      if stripe = platform.indexForPointer obj then table
      else (heap.sideTables stripe).weakTable := by
  by_cases same : stripe = platform.indexForPointer obj
  · rw [if_pos same, same]
    exact congrArg SideTable.weakTable (sideTable_setSideTable heap obj _)
  · rw [if_neg same]
    exact congrArg SideTable.weakTable (update_of_ne same ..)

@[simp] theorem setWeakTable_refcnts (heap : Heap) (obj stripe : ℕ) (table : WeakTable) :
    ((heap.setWeakTable platform obj table).sideTables stripe).refcnts =
      (heap.sideTables stripe).refcnts := by
  by_cases same : stripe = platform.indexForPointer obj
  · subst same
    show ((heap.setWeakTable platform obj table).sideTable platform obj).refcnts = _
    rw [setWeakTable, sideTable_setSideTable]
    rfl
  · exact congrArg SideTable.refcnts (update_of_ne same ..)

@[simp] theorem setWeakTable_object (heap : Heap) (obj o : ℕ) (table : WeakTable) :
    (heap.setWeakTable platform obj table).object platform o = heap.object platform o :=
  congrArg (Object.mk (heap.isa o)) (congrFun (setWeakTable_refcnts heap obj _ table) o)

theorem setWeakTable_same (heap : Heap) (obj : ℕ) :
    heap.setWeakTable platform obj (heap.sideTable platform obj).weakTable = heap := by
  show ({ heap with sideTables := update heap.sideTables _ (heap.sideTable platform obj) } : Heap) = heap
  rw [sideTable, Function.update_eq_self]

@[simp] theorem setObject_weakTable (heap : Heap) (obj stripe : ℕ) (object : Object) :
    ((heap.setObject platform obj object).sideTables stripe).weakTable =
      (heap.sideTables stripe).weakTable := by
  by_cases same : stripe = platform.indexForPointer obj
  · subst same
    simp only [setObject, setSideTable, update_self]
    rfl
  · exact congrArg SideTable.weakTable (update_of_ne same ..)

@[simp] theorem setObject_object (heap : Heap) (obj : ℕ) (object : Object) :
    (heap.setObject platform obj object).object platform obj = object := by
  have entry : ((heap.setObject platform obj object).sideTable platform obj).refcnts obj =
      object.refcnt := by
    rw [sideTable, setObject]
    simp only [setSideTable, update_self]
  rw [Heap.object, entry]
  exact congrArg₂ Object.mk (update_self ..) rfl

theorem setObject_object_of_ne (heap : Heap) {obj o : ℕ} (ne : o ≠ obj) (object : Object) :
    (heap.setObject platform obj object).object platform o = heap.object platform o := by
  have entry : ((heap.setObject platform obj object).sideTable platform o).refcnts o =
      (heap.sideTable platform o).refcnts o := by
    simp only [sideTable, setObject, setSideTable]
    by_cases same : platform.indexForPointer o = platform.indexForPointer obj
    · rw [same, update_self]
      exact update_of_ne ne ..
    · rw [update_of_ne same]
  rw [Heap.object, entry]
  exact congrArg₂ Object.mk (update_of_ne ne ..) rfl

/-! ## The registered pairs -/

/-- The pairs that the weak table of a stripe should hold. -/
def registered (platform : Platform) (heap : Heap) (live : Set ℕ) (stripe : ℕ) : Relation :=
  {pair | pair.2 ∈ live ∧ heap.memory pair.2 = pair.1 ∧ pair.1 ≠ 0 ∧
    platform.isTaggedPointer pair.1 = false ∧ platform.indexForPointer pair.1 = stripe}

/-- The object has an entry in the weak table of its stripe. -/
def Entered (platform : Platform) (heap : Heap) (obj : ℕ) : Prop :=
  HasEntry platform.ptrHash (heap.sideTable platform obj).weakTable obj

end Heap

/-- The pieces of state that the calls on weak variables update agree. -/
structure HeapInv (platform : Platform) (heap : Heap) (live : Set ℕ) : Prop where
  locations : ∀ r ∈ live, Location r
  tables : ∀ stripe, TableInv platform.ptrHash (heap.sideTables stripe).weakTable
    (heap.registered platform live stripe)
  entries : ∀ stripe o, o ≠ 0 → HasEntry platform.ptrHash (heap.sideTables stripe).weakTable o →
    platform.indexForPointer o = stripe ∧ heap.allocated o = true ∧
      isWeaklyReferenced (heap.object platform o) = true
  objects : ∀ o, heap.allocated o = true →
    o ≠ 0 ∧ platform.isTaggedPointer o = false ∧ (heap.isa o).Named

namespace HeapInv

/-- A variable that holds an object is registered with it. -/
theorem entered (inv : HeapInv platform heap live) {r : ℕ} (mem : r ∈ live)
    (ne : heap.memory r ≠ 0) (untagged : platform.isTaggedPointer (heap.memory r) = false) :
    heap.Entered platform (heap.memory r) :=
  (inv.tables _).tableRepresents.found _ r ⟨mem, rfl, ne, untagged, rfl⟩

theorem setObject (inv : HeapInv platform heap live) {object : Object}
    (named : heap.allocated obj = true → object.isa.Named)
    (flagged : heap.Entered platform obj → isWeaklyReferenced object = true) :
    HeapInv platform (heap.setObject platform obj object) live where
  locations := inv.locations
  tables stripe := by
    rw [Heap.setObject_weakTable]
    exact inv.tables stripe
  entries stripe o ne there := by
    rw [Heap.setObject_weakTable] at there
    obtain ⟨rfl, allocated, flag⟩ := inv.entries stripe o ne there
    refine ⟨rfl, allocated, ?_⟩
    by_cases same : o = obj
    · subst same
      rw [Heap.setObject_object]
      exact flagged there
    · rw [Heap.setObject_object_of_ne heap same]
      exact flag
  objects o allocated := by
    obtain ⟨ne, untagged, old⟩ := inv.objects o allocated
    refine ⟨ne, untagged, ?_⟩
    by_cases same : o = obj
    · subst same
      rw [show (heap.setObject platform o object).isa o = object.isa from update_self ..]
      exact named allocated
    · rw [show (heap.setObject platform obj object).isa o = heap.isa o from
        update_of_ne same ..]
      exact old

theorem keepsFlag (inv : HeapInv platform heap live) (allocated : heap.allocated obj = true)
    {object : Object} (keeps : KeepsFlag (heap.object platform obj) object) :
    HeapInv platform (heap.setObject platform obj object) live := by
  have named := (inv.objects obj allocated).2.2
  refine inv.setObject (fun _ => keeps.named named) fun there => ?_
  exact keeps.flagged named (inv.entries _ obj (inv.objects obj allocated).1 there).2.2

/-- The object's variables are no longer registered, so its flag may go. -/
theorem eraseRefcnt (inv : HeapInv platform heap live) (none : ¬heap.Entered platform obj) :
    HeapInv platform (heap.eraseRefcnt platform obj) live :=
  inv.setObject (fun allocated => (inv.objects obj allocated).2.2) fun there => absurd there none

theorem free (inv : HeapInv platform heap live) (none : ¬heap.Entered platform obj) :
    HeapInv platform (heap.free obj) live where
  locations := inv.locations
  tables := inv.tables
  entries stripe o ne there := by
    obtain ⟨rfl, allocated, flag⟩ := inv.entries stripe o ne there
    have other : o ≠ obj := fun same => none (same ▸ there)
    exact ⟨rfl, (update_of_ne other ..).trans allocated, flag⟩
  objects o allocated := by
    by_cases same : o = obj
    · subst same
      simp only [Heap.free, update_self] at allocated
      exact absurd allocated Bool.false_ne_true
    · simp only [Heap.free, update_of_ne same] at allocated
      exact inv.objects o allocated

theorem allocate (inv : HeapInv platform heap live) (fresh : heap.allocated obj = false)
    (ne : obj ≠ 0) (untagged : platform.isTaggedPointer obj = false) {isa : Isa}
    (named : isa.Named) :
    HeapInv platform
      { heap with allocated := update heap.allocated obj true, isa := update heap.isa obj isa }
      live where
  locations := inv.locations
  tables := inv.tables
  entries stripe o ne there := by
    obtain ⟨rfl, allocated, flag⟩ := inv.entries stripe o ne there
    have other : o ≠ obj := fun same => Bool.false_ne_true (fresh.symm.trans (same ▸ allocated))
    refine ⟨rfl, (update_of_ne other ..).trans allocated, ?_⟩
    rw [Heap.object] at flag ⊢
    simp only [update_of_ne other]
    exact flag
  objects o allocated := by
    by_cases same : o = obj
    · subst same
      refine ⟨ne, untagged, ?_⟩
      simp only [update_self]
      exact named
    · simp only [update_of_ne same] at allocated ⊢
      exact inv.objects o allocated

/-! ## Storage -/

/-- Writing storage that is no weak variable. -/
theorem write (inv : HeapInv platform heap live) (dead : location ∉ live) (value : ℕ) :
    HeapInv platform (heap.store location value) live where
  locations := inv.locations
  tables stripe := by
    have same : (heap.store location value).registered platform live stripe =
        heap.registered platform live stripe := by
      ext ⟨o, r⟩
      refine and_congr_right fun mem => ?_
      have other : r ≠ location := fun same => dead (same ▸ mem)
      simp only [Heap.store, update_of_ne other]
    rw [same]
    exact inv.tables stripe
  entries := inv.entries
  objects := inv.objects

theorem storeUnregistered (inv : HeapInv platform heap live) (dead : location ∉ live)
    (loc : Location location) {value : ℕ}
    (plain : value = 0 ∨ platform.isTaggedPointer value = true) :
    HeapInv platform (heap.store location value) (insert location live) where
  locations r mem := by
    rcases mem with rfl | mem
    · exact loc
    · exact inv.locations r mem
  tables stripe := by
    have same : (heap.store location value).registered platform (insert location live) stripe =
        heap.registered platform live stripe := by
      ext ⟨o, r⟩
      by_cases here : r = location
      · subst here
        constructor
        · rintro ⟨-, holds, ne, untagged, -⟩
          simp only [Heap.store, update_self] at holds
          subst holds
          rcases plain with zero | tagged
          · exact absurd zero ne
          · exact absurd (untagged.symm.trans tagged) Bool.false_ne_true
        · exact fun mem => absurd mem.1 dead
      · simp only [Heap.registered, Heap.store, Set.mem_ofPred_eq, Set.mem_insert_iff, here,
          false_or, update_of_ne here]
    rw [same]
    exact inv.tables stripe
  entries := inv.entries
  objects := inv.objects

/-! ## Registrations -/

theorem registered_diff (heap : Heap) (live : Set ℕ) (location stripe : ℕ) :
    heap.registered platform (live \ {location}) stripe =
      heap.registered platform live stripe \ {(heap.memory location, location)} := by
  ext ⟨o, r⟩
  constructor
  · rintro ⟨⟨mem, other⟩, rest⟩
    exact ⟨⟨mem, rest⟩, fun same => other (Prod.mk.inj same).2⟩
  · rintro ⟨⟨mem, holds, rest⟩, other⟩
    refine ⟨⟨mem, fun same => other ?_⟩, holds, rest⟩
    obtain rfl : r = location := same
    exact congrArg (Prod.mk · r) holds.symm

theorem unregisterOld (inv : HeapInv platform heap live) (mem : location ∈ live) :
    ∃ table, Weak.unregisterOld platform location heap =
        .ok (heap.setWeakTable platform (heap.memory location) table) ∧
      HeapInv platform (heap.setWeakTable platform (heap.memory location) table)
        (live \ {location}) := by
  by_cases nil : heap.memory location = 0
  · refine ⟨(heap.sideTable platform (heap.memory location)).weakTable, ?_, ?_⟩
    · rw [Weak.unregisterOld, weakUnregisterNoLock, if_pos nil]
      rfl
    · rw [Heap.setWeakTable_same]
      refine ⟨fun r mem => inv.locations r mem.1, fun stripe => ?_, inv.entries, inv.objects⟩
      rw [registered_diff, Set.sdiff_singleton_eq_self fun mem => mem.2.2.1 nil]
      exact inv.tables stripe
  · obtain ⟨table, run, inv', outcome, from_before⟩ :=
      (inv.tables (platform.indexForPointer (heap.memory location))).unregister nil
        (inv.locations location mem).ne_zero
    refine ⟨table, ?_, fun r mem => inv.locations r mem.1, fun stripe => ?_,
      fun stripe o ne there => ?_, inv.objects⟩
    · rw [Weak.unregisterOld, Heap.sideTable, run]
      rfl
    · rw [Heap.setWeakTable_weakTable]
      show TableInv _ _ (heap.registered platform (live \ {location}) stripe)
      rw [registered_diff]
      split
      next same =>
        subst same
        exact inv'
      next other =>
        rw [Set.sdiff_singleton_eq_self fun mem => other mem.2.2.2.2.symm]
        exact inv.tables stripe
    · rw [Heap.setWeakTable_object]
      rw [Heap.setWeakTable_weakTable] at there
      split at there
      next same =>
        subst same
        exact inv.entries _ o ne (outcome.entries from_before ne there)
      next => exact inv.entries stripe o ne there

theorem registered_store (heap : Heap) (dead : location ∉ live) {newObj : ℕ} (ne : newObj ≠ 0)
    (untagged : platform.isTaggedPointer newObj = false) (stripe : ℕ) :
    (heap.store location newObj).registered platform (insert location live) stripe =
      if stripe = platform.indexForPointer newObj then
        insert (newObj, location) (heap.registered platform live stripe)
      else heap.registered platform live stripe := by
  have fresh : ∀ {o r : ℕ}, (o, r) ∈ heap.registered platform live stripe → r ≠ location :=
    fun mem same => dead (same ▸ mem.1)
  ext ⟨o, r⟩
  by_cases here : r = location
  · subst here
    have new : (o, r) ∈ (heap.store r newObj).registered platform (insert r live) stripe ↔
        newObj = o ∧ platform.indexForPointer newObj = stripe := by
      constructor
      · rintro ⟨-, holds, -, -, index⟩
        simp only [Heap.store, update_self] at holds
        exact ⟨holds, holds ▸ index⟩
      · rintro ⟨rfl, index⟩
        exact ⟨Set.mem_insert .., update_self .., ne, untagged, index⟩
    have old : (o, r) ∉ heap.registered platform live stripe := fun mem => fresh mem rfl
    rw [new]
    split
    next same =>
      rw [Set.mem_insert_iff, or_iff_left old, Prod.mk.injEq]
      exact ⟨fun eq => ⟨eq.1.symm, rfl⟩, fun eq => ⟨eq.1.symm, same.symm⟩⟩
    next other => exact iff_of_false (fun eq => other eq.2.symm) old
  · have unchanged : (o, r) ∈ (heap.store location newObj).registered platform
        (insert location live) stripe ↔ (o, r) ∈ heap.registered platform live stripe := by
      simp only [Heap.registered, Heap.store, Set.mem_ofPred_eq, Set.mem_insert_iff, here, false_or,
        update_of_ne here]
    rw [unchanged]
    split
    · rw [Set.mem_insert_iff, or_iff_right fun eq => here (Prod.mk.inj eq).2]
    · rfl

theorem registerForms (inv : HeapInv platform heap live) (dead : location ∉ live)
    (loc : Location location) {newObj : ℕ} {table : WeakTable} (ne : newObj ≠ 0)
    (allocated : heap.allocated newObj = true)
    (inv' : TableInv platform.ptrHash table
      (insert (newObj, location) (heap.registered platform live (platform.indexForPointer newObj))))
    (entries : EntriesFrom platform.ptrHash (heap.sideTable platform newObj).weakTable table newObj)
    (stores : List Bool) :
    HeapInv platform
      (((heap.setWeakTable platform newObj table).setObject platform newObj
        (Retain.setWeaklyReferenced stores (heap.object platform newObj))).store location newObj)
      (insert location live) := by
  have untagged := (inv.objects newObj allocated).2.1
  obtain ⟨flag, named⟩ :=
    Retain.isWeaklyReferenced_setWeaklyReferenced stores (heap.object platform newObj)
  -- the state with the table and the variable updated, before the flag is set
  let middle := (heap.setWeakTable platform newObj table).store location newObj
  have flagged : ∀ stripe o, o ≠ 0 →
      HasEntry platform.ptrHash (middle.sideTables stripe).weakTable o →
        platform.indexForPointer o = stripe ∧ heap.allocated o = true ∧
          (o = newObj ∨ isWeaklyReferenced (heap.object platform o) = true) := by
    intro stripe o ne there
    replace there : HasEntry platform.ptrHash
        ((heap.setWeakTable platform newObj table).sideTables stripe).weakTable o := there
    rw [Heap.setWeakTable_weakTable] at there
    split at there
    next same =>
      subst same
      rcases entries o ne there with rfl | before
      · exact ⟨rfl, allocated, .inl rfl⟩
      · obtain ⟨index, kept, old⟩ := inv.entries _ o ne before
        exact ⟨index, kept, .inr old⟩
    next =>
      obtain ⟨index, kept, old⟩ := inv.entries stripe o ne there
      exact ⟨index, kept, .inr old⟩
  refine ⟨fun r mem => ?_, fun stripe => ?_, fun stripe o ne there => ?_, fun o kept => ?_⟩
  · rcases mem with rfl | mem
    · exact loc
    · exact inv.locations r mem
  · show TableInv _ (((heap.setWeakTable platform newObj table).setObject platform newObj
      _).sideTables stripe).weakTable
      ((heap.store location newObj).registered platform (insert location live) stripe)
    rw [Heap.setObject_weakTable, Heap.setWeakTable_weakTable,
      registered_store heap dead ne untagged]
    split
    next same =>
      subst same
      exact inv'
    next => exact inv.tables stripe
  · replace there : HasEntry platform.ptrHash (((heap.setWeakTable platform newObj table).setObject
        platform newObj _).sideTables stripe).weakTable o := there
    rw [Heap.setObject_weakTable] at there
    obtain ⟨index, kept, old⟩ := flagged stripe o ne there
    refine ⟨index, kept, ?_⟩
    show isWeaklyReferenced (((heap.setWeakTable platform newObj table).setObject platform newObj
      _).object platform o) = true
    by_cases same : o = newObj
    · rw [same, Heap.setObject_object]
      exact flag
    · rw [Heap.setObject_object_of_ne _ same, Heap.setWeakTable_object]
      exact old.resolve_left same
  · obtain ⟨ne, untagged, old⟩ := inv.objects o kept
    refine ⟨ne, untagged, ?_⟩
    show (update heap.isa newObj _ o).Named
    by_cases same : o = newObj
    · rw [same, update_self]
      exact named (inv.objects newObj allocated).2.2
    · rw [update_of_ne same]
      exact old

/-- What a caller may store: nil, a tagged pointer, or an object that is not freed. -/
def Referable (platform : Platform) (heap : Heap) (newObj : ℕ) : Prop :=
  newObj = 0 ∨ platform.isTaggedPointer newObj = true ∨ heap.allocated newObj = true

theorem registerNew (inv : HeapInv platform heap live) (dead : location ∉ live)
    (loc : Location location) {outside : Outside}
    (alloc : ∀ n, 0 < outside.calloc n ∧ outside.calloc n < 2 ^ 64) (crash : Bool) {newObj : ℕ}
    (referable : Referable platform heap newObj) :
    (∃ answer heap', Weak.registerNew platform outside crash location newObj heap =
        .ok (answer, heap') ∧ HeapInv platform heap' (insert location live) ∧
          heap'.allocated = heap.allocated) ∨
      (Weak.registerNew platform outside crash location newObj heap =
        .error .cannotFormWeakReference ∧ crash = true) := by
  by_cases forms : (heap.viability platform outside newObj).forms newObj
  · obtain ⟨ne, untagged, -⟩ := id forms
    have untagged : platform.isTaggedPointer newObj = false := untagged
    have allocated : heap.allocated newObj = true := by
      rcases referable with zero | tagged | allocated
      · exact absurd zero ne
      · exact absurd (untagged.symm.trans tagged) Bool.false_ne_true
      · exact allocated
    have fresh : (newObj, location) ∉
        heap.registered platform live (platform.indexForPointer newObj) := fun mem => dead mem.1
    obtain ⟨table, run, inv', entries⟩ :=
      (inv.tables (platform.indexForPointer newObj)).register crash alloc forms loc fresh
    refine .inl ⟨newObj, _, ?_, inv.registerForms dead loc ne allocated inv' entries outside.stores,
      rfl⟩
    rw [Weak.registerNew, Heap.sideTable, run]
    simp only [Loops.ok_bind, ne, untagged, ne_eq, not_false_eq_true, and_self, if_true,
      Heap.setWeakTable_object]
    rfl
  · rcases weakRegisterNoLock_refused forms with ⟨answer, run, plain⟩ | ⟨run, -, halts⟩
    · have plain : answer = 0 ∨ platform.isTaggedPointer answer = true := by
        rcases plain with zero | ⟨rfl, tagged⟩
        · exact .inl zero
        · exact .inr tagged
      have unflagged : ¬(answer ≠ 0 ∧ platform.isTaggedPointer answer = false) := by
        rintro ⟨ne, untagged⟩
        rcases plain with zero | tagged
        · exact ne zero
        · exact Bool.false_ne_true (untagged.symm.trans tagged)
      refine .inl ⟨answer, heap.store location answer, ?_, inv.storeUnregistered dead loc plain, rfl⟩
      rw [Weak.registerNew, run]
      simp only [Loops.ok_bind, if_neg unflagged, Heap.setWeakTable_same]
      rfl
    · refine .inr ⟨?_, halts⟩
      rw [Weak.registerNew, run]
      rfl

/-! ## Clearing -/

/-- The object's entry is gone and the variables that held it are nil. -/
structure Cleared (platform : Platform) (heap heap' : Heap) (live : Set ℕ) (obj : ℕ) : Prop where
  inv : HeapInv platform heap' live
  gone : ¬heap'.Entered platform obj
  nil : ∀ r ∈ live, heap.memory r = obj → heap'.memory r = 0
  others : ∀ r, ¬(r ∈ live ∧ heap.memory r = obj) → heap'.memory r = heap.memory r
  allocated : heap'.allocated = heap.allocated

theorem weakClear (inv : HeapInv platform heap live) (allocated : heap.allocated obj = true) :
    ∃ heap', Weak.weakClear platform obj heap = .ok heap' ∧
      Cleared platform heap heap' live obj := by
  obtain ⟨ne, untagged, named⟩ := inv.objects obj allocated
  obtain ⟨table, memory, run, inv', zeroed, gone, entries⟩ :=
    (inv.tables (platform.indexForPointer obj)).clear ne heap.memory
  have holds : ∀ r, (obj, r) ∈ heap.registered platform live (platform.indexForPointer obj) ∧
      heap.memory r = obj ↔ r ∈ live ∧ heap.memory r = obj :=
    fun r => ⟨fun held => ⟨held.1.1, held.2⟩,
      fun held => ⟨⟨held.1, held.2, ne, untagged, rfl⟩, held.2⟩⟩
  have nil : ∀ r ∈ live, heap.memory r = obj → memory r = 0 :=
    fun r mem held => (zeroed r).1 ((holds r).mpr ⟨mem, held⟩)
  have others : ∀ r, ¬(r ∈ live ∧ heap.memory r = obj) → memory r = heap.memory r :=
    fun r away => (zeroed r).2 fun held => away ((holds r).mp held)
  -- the variables of other objects stay registered
  have kept : ∀ stripe, Heap.registered platform { heap with memory := memory } live stripe =
      {pair ∈ heap.registered platform live stripe | pair.1 ≠ obj} := by
    intro stripe
    ext ⟨o, r⟩
    constructor
    · rintro ⟨mem, new, some, rest⟩
      have away : ¬(r ∈ live ∧ heap.memory r = obj) :=
        fun held => some (new.symm.trans (nil r held.1 held.2))
      have old : heap.memory r = o := (others r away).symm.trans new
      exact ⟨⟨mem, old, some, rest⟩, fun same => away ⟨mem, old.trans same⟩⟩
    · rintro ⟨⟨mem, old, rest⟩, away⟩
      exact ⟨mem, (others r fun held => away (old.symm.trans held.2)).trans old, rest⟩
  refine ⟨{ heap.setWeakTable platform obj table with memory := memory }, ?_,
    ⟨inv.locations, fun stripe => ?_, fun stripe o ne there => ?_, inv.objects⟩, fun there => ?_,
    nil, others, rfl⟩
  · rw [Weak.weakClear, Heap.sideTable, run]
    rfl
  · show TableInv _ ((heap.setWeakTable platform obj table).sideTables stripe).weakTable
      (Heap.registered platform { heap with memory := memory } live stripe)
    rw [Heap.setWeakTable_weakTable, kept]
    split
    next same =>
      subst same
      exact inv'
    next other =>
      have same : {pair ∈ heap.registered platform live stripe | pair.1 ≠ obj} =
          heap.registered platform live stripe :=
        Set.sep_eq_self_iff_mem_true.mpr fun pair mem same => other (same ▸ mem.2.2.2.2.symm)
      rw [same]
      exact inv.tables stripe
  · replace there : HasEntry platform.ptrHash
        ((heap.setWeakTable platform obj table).sideTables stripe).weakTable o := there
    show platform.indexForPointer o = stripe ∧ heap.allocated o = true ∧
      isWeaklyReferenced ((heap.setWeakTable platform obj table).object platform o) = true
    rw [Heap.setWeakTable_object]
    rw [Heap.setWeakTable_weakTable] at there
    split at there
    next same =>
      subst same
      rcases entries o ne there with rfl | before
      · exact absurd there gone
      · exact inv.entries _ o ne before
    next => exact inv.entries stripe o ne there
  · replace there : HasEntry platform.ptrHash
        ((heap.setWeakTable platform obj table).sideTables
          (platform.indexForPointer obj)).weakTable obj := there
    rw [Heap.setWeakTable_weakTable, if_pos rfl] at there
    exact gone there

theorem unflagged (inv : HeapInv platform heap live) (allocated : heap.allocated obj = true)
    (unset : isWeaklyReferenced (heap.object platform obj) = false) :
    Cleared platform heap heap live obj := by
  obtain ⟨ne, untagged, named⟩ := inv.objects obj allocated
  have gone : ¬heap.Entered platform obj := fun there =>
    Bool.false_ne_true (unset.symm.trans (inv.entries _ obj ne there).2.2)
  refine ⟨inv, gone, fun r mem holds => absurd ?_ gone, fun _ _ => rfl, rfl⟩
  subst holds
  exact inv.entered mem ne untagged

theorem Cleared.eraseRefcnt (cleared : Cleared platform heap heap' live obj) :
    Cleared platform heap (heap'.eraseRefcnt platform obj) live obj where
  inv := cleared.inv.eraseRefcnt cleared.gone
  gone there := by
    refine cleared.gone ?_
    rwa [Heap.Entered, Heap.sideTable, Heap.eraseRefcnt, Heap.setObject_weakTable] at there
  nil := cleared.nil
  others := cleared.others
  allocated := cleared.allocated

theorem clearDeallocating (inv : HeapInv platform heap live)
    (allocated : heap.allocated obj = true) :
    ∃ heap', Weak.clearDeallocating platform obj heap = .ok heap' ∧
      Cleared platform heap heap' live obj := by
  obtain ⟨swept, sweeps, cleared⟩ := inv.weakClear allocated
  have plain := inv.unflagged allocated
  rw [Weak.clearDeallocating]
  cases shape : heap.isa obj with
  | raw cls =>
      have flag : isWeaklyReferenced (heap.object platform obj) =
          Retain.sidetableIsWeaklyReferenced (heap.object platform obj).refcnt := by
        rw [isWeaklyReferenced, show (heap.object platform obj).isa = .raw cls from shape]
      simp only [sidetableClearDeallocating]
      cases word : (heap.object platform obj).refcnt with
      | none =>
          rw [word] at flag
          exact ⟨heap, rfl, plain flag⟩
      | some refcnt =>
          rw [word] at flag
          by_cases set : refcnt &&& Retain.sideTableWeaklyReferenced ≠ 0
          · refine ⟨swept.eraseRefcnt platform obj, ?_, cleared.eraseRefcnt⟩
            simp only [if_pos set, sweeps]
            rfl
          · have unset : isWeaklyReferenced (heap.object platform obj) = false := by
              rw [flag]
              exact decide_eq_false set
            refine ⟨heap.eraseRefcnt platform obj, ?_, (plain unset).eraseRefcnt⟩
            simp only [if_neg set]
            rfl
  | nonpointer isa =>
      have flag : isWeaklyReferenced (heap.object platform obj) = isa.weaklyReferenced := by
        rw [isWeaklyReferenced, show (heap.object platform obj).isa = .nonpointer isa from shape]
      simp only [clearDeallocatingSlow]
      cases set : isa.weaklyReferenced with
      | true =>
          simp only [Bool.true_or, if_true, sweeps, Loops.ok_bind, Loops.pure_eq_ok]
          split
          · exact ⟨_, rfl, cleared.eraseRefcnt⟩
          · exact ⟨_, rfl, cleared⟩
      | false =>
          have plain := plain (flag.trans set)
          simp only [Bool.false_or, Bool.false_eq_true, if_false, Loops.ok_bind, Loops.pure_eq_ok]
          split
          · exact ⟨_, rfl, plain.eraseRefcnt⟩
          · exact ⟨_, rfl, plain⟩

/-- The object is freed, and the variables that held it are nil. -/
structure Disposed (platform : Platform) (heap heap' : Heap) (live : Set ℕ) (obj : ℕ) : Prop where
  inv : HeapInv platform heap' live
  nil : ∀ r ∈ live, heap.memory r = obj → heap'.memory r = 0
  others : ∀ r, ¬(r ∈ live ∧ heap.memory r = obj) → heap'.memory r = heap.memory r
  allocated : heap'.allocated = update heap.allocated obj false

theorem Cleared.free (cleared : Cleared platform heap heap' live obj) :
    Disposed platform heap (heap'.free obj) live obj where
  inv := cleared.inv.free cleared.gone
  nil := cleared.nil
  others := cleared.others
  allocated := by rw [Heap.free, cleared.allocated]

theorem objectDispose (inv : HeapInv platform heap live) (allocated : heap.allocated obj = true) :
    ∃ heap', Weak.objectDispose platform obj heap = .ok heap' ∧
      Disposed platform heap heap' live obj := by
  obtain ⟨swept, clears, cleared⟩ := inv.clearDeallocating allocated
  refine ⟨swept.free obj, ?_, cleared.free⟩
  rw [Weak.objectDispose, if_neg (inv.objects obj allocated).1, clears]
  rfl

/-- The fast path is taken only where there is nothing to clear. -/
theorem rootDealloc (inv : HeapInv platform heap live) (allocated : heap.allocated obj = true) :
    ∃ heap', Weak.rootDealloc platform obj heap = .ok heap' ∧
      Disposed platform heap heap' live obj := by
  have disposes := inv.objectDispose allocated
  rw [Weak.rootDealloc, (inv.objects obj allocated).2.1]
  cases shape : heap.isa obj with
  | raw cls => exact disposes
  | nonpointer isa =>
      have flag : isWeaklyReferenced (heap.object platform obj) = isa.weaklyReferenced := by
        rw [isWeaklyReferenced, show (heap.object platform obj).isa = .nonpointer isa from shape]
      simp only [Bool.false_eq_true, if_false]
      split
      next fast =>
        simp only [Bool.and_eq_true, Bool.not_eq_true'] at fast
        exact ⟨_, rfl, (inv.unflagged allocated (flag.trans fast.1.1.1)).free⟩
      next => exact disposes

end HeapInv

end ObjcDyld.Weak
