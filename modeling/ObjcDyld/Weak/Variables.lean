import ObjcDyld.Retain.WeakFlag
import ObjcDyld.Weak.Reclamation

/-!
# Weak variables

The entry points that the compiler calls on `__weak` variables, and the deallocation of objects.
Three pieces of state have to agree: what a variable holds, the weak table of the object's stripe,
and the object's weakly-referenced flag.  `storeWeak` starts over when it has to run `+initialize`,
before it has changed anything, so the calls that `+initialize` makes come before it.
-/

namespace ObjcDyld.Weak

open Function (update)
open Retain (Arch Isa Object RetainOp)

/-! ## The platform -/

/-- What the runtime is compiled for. -/
structure Platform where
  arch : Arch
  /-- `_OBJC_TAG_MASK`; `none` where tagged pointers are not supported. -/
  tagMask : Option ℕ
  /-- `StripedMap::StripeCount` -/
  stripeCount : ℕ
  /-- `ptr_hash` -/
  ptrHash : ℕ → ℕ
  classForIndex : ℕ → ℕ

namespace Platform

variable (platform : Platform)

/-- `_objc_isTaggedPointer` -/
def isTaggedPointer (ptr : ℕ) : Bool :=
  match platform.tagMask with
  | none => false
  | some mask => ptr &&& mask == mask

/-- `StripedMap::indexForPointer` -/
def indexForPointer (p : ℕ) : ℕ := ((p >>> 4) ^^^ (p >>> 9)) % platform.stripeCount

end Platform

/-! ## The heap -/

/-- `SideTable`, without its lock. -/
structure SideTable where
  refcnts : ℕ → Option ℕ
  weakTable : WeakTable

/--
The objects, the side tables, and what the locations of variables hold.  Nothing clears the isa of
an object that is not allocated.
-/
structure Heap where
  allocated : ℕ → Bool
  isa : ℕ → Isa
  sideTables : ℕ → SideTable
  memory : ℕ → ℕ

/-- What a class answers that overrides retain and release, and what these do to the object. -/
structure CustomRR where
  /-- The answer of `-allowsWeakReference`; `none` when the method is `_objc_msgForward`. -/
  allowsWeakReference : Option Bool
  /-- The answer of `-retainWeakReference`; `none` when the method is `_objc_msgForward`. -/
  retainWeakReference : Option Bool
  retaining : List RetainOp
  releasing : List RetainOp
  /-- `-release` sends `-dealloc`. -/
  deallocates : Bool

/-- What a call reads from outside: `customRR` is `none` when the class has the default methods. -/
structure Outside where
  calloc : ℕ → ℕ
  stores : List Bool
  customRR : Option CustomRR

namespace Heap

variable (platform : Platform) (heap : Heap)

/-- `SideTables()[obj]` -/
def sideTable (obj : ℕ) : SideTable := heap.sideTables (platform.indexForPointer obj)

def setSideTable (obj : ℕ) (table : SideTable) : Heap :=
  { heap with sideTables := update heap.sideTables (platform.indexForPointer obj) table }

def setWeakTable (obj : ℕ) (weakTable : WeakTable) : Heap :=
  heap.setSideTable platform obj { heap.sideTable platform obj with weakTable := weakTable }

/-- The object at an address. -/
def object (obj : ℕ) : Object := ⟨heap.isa obj, (heap.sideTable platform obj).refcnts obj⟩

def setObject (obj : ℕ) (object : Object) : Heap :=
  let table := heap.sideTable platform obj
  { heap.setSideTable platform obj
      { table with refcnts := update table.refcnts obj object.refcnt } with
    isa := update heap.isa obj object.isa }

/-- `table.refcnts.erase(obj)` -/
def eraseRefcnt (obj : ℕ) : Heap :=
  heap.setObject platform obj { heap.object platform obj with refcnt := none }

/-- The calls that a class's own methods make on the object's count. -/
def runOps (obj : ℕ) (ops : List RetainOp) : Heap :=
  heap.setObject platform obj
    (Retain.runRetainOps platform.arch platform.classForIndex ops (heap.object platform obj)).2

/-- `*location = value` -/
def store (location value : ℕ) : Heap := { heap with memory := update heap.memory location value }

def free (obj : ℕ) : Heap := { heap with allocated := update heap.allocated obj false }

/-- What `weak_register_no_lock` asks of the object. -/
def viability (outside : Outside) (obj : ℕ) : Viability where
  isTaggedPointer := platform.isTaggedPointer obj
  hasCustomRR := outside.customRR.isSome
  rootIsDeallocating := Retain.rootIsDeallocating (heap.object platform obj)
  allowsWeakReference := outside.customRR.bind CustomRR.allowsWeakReference

end Heap

section Operations

variable (platform : Platform)

/-! ## Stores -/

/-- `// Clean up old value, if any.` -/
def unregisterOld (location : ℕ) (heap : Heap) : Except WeakError Heap := do
  let oldObj := heap.memory location
  let table ←
    weakUnregisterNoLock platform.ptrHash (heap.sideTable platform oldObj).weakTable oldObj location
  return heap.setWeakTable platform oldObj table

/-- `// Assign new value, if any.`; the answer is the value stored. -/
def registerNew (outside : Outside) (crashIfDeallocating : Bool) (location newObj : ℕ)
    (heap : Heap) : Except WeakError (ℕ × Heap) := do
  let (answer, table) ←
    weakRegisterNoLock platform.ptrHash outside.calloc (heap.viability platform outside newObj)
      crashIfDeallocating (heap.sideTable platform newObj).weakTable newObj location
  let heap := heap.setWeakTable platform newObj table
  let heap :=
    if answer ≠ 0 ∧ platform.isTaggedPointer answer = false then
      heap.setObject platform answer
        (Retain.setWeaklyReferenced outside.stores (heap.object platform answer))
    else heap
  return (answer, heap.store location answer)

def storeWeak (outside : Outside) (haveOld haveNew crashIfDeallocating : Bool)
    (location newObj : ℕ) (heap : Heap) : Except WeakError (ℕ × Heap) := do
  let heap ← if haveOld then unregisterOld platform location heap else pure heap
  if haveNew then registerNew platform outside crashIfDeallocating location newObj heap
  else return (newObj, heap)

def objcStoreWeak (outside : Outside) (location newObj : ℕ) (heap : Heap) :
    Except WeakError (ℕ × Heap) :=
  storeWeak platform outside true true true location newObj heap

def objcStoreWeakOrNil (outside : Outside) (location newObj : ℕ) (heap : Heap) :
    Except WeakError (ℕ × Heap) :=
  storeWeak platform outside true true false location newObj heap

def objcInitWeak (outside : Outside) (location newObj : ℕ) (heap : Heap) :
    Except WeakError (ℕ × Heap) :=
  if newObj = 0 then .ok (0, heap.store location 0)
  else storeWeak platform outside false true true location newObj heap

def objcInitWeakOrNil (outside : Outside) (location newObj : ℕ) (heap : Heap) :
    Except WeakError (ℕ × Heap) :=
  if newObj = 0 then .ok (0, heap.store location 0)
  else storeWeak platform outside false true false location newObj heap

def objcDestroyWeak (outside : Outside) (location : ℕ) (heap : Heap) : Except WeakError Heap := do
  let (_, heap) ← storeWeak platform outside true false false location 0 heap
  return heap

/-! ## Deallocation -/

/-- `weak_clear_no_lock` on the table of the object. -/
def weakClear (obj : ℕ) (heap : Heap) : Except WeakError Heap := do
  let (table, memory) ←
    weakClearNoLock platform.ptrHash (heap.sideTable platform obj).weakTable heap.memory obj
  return { heap.setWeakTable platform obj table with memory := memory }

def sidetableClearDeallocating (obj : ℕ) (heap : Heap) : Except WeakError Heap :=
  match (heap.object platform obj).refcnt with
  | none => .ok heap
  | some refcnt => do
      let heap ←
        if refcnt &&& Retain.sideTableWeaklyReferenced ≠ 0 then weakClear platform obj heap
        else pure heap
      return heap.eraseRefcnt platform obj

def clearDeallocatingSlow (isa : Retain.IsaFields) (obj : ℕ) (heap : Heap) :
    Except WeakError Heap := do
  let heap ← if isa.weaklyReferenced then weakClear platform obj heap else pure heap
  return if isa.hasSidetableRC then heap.eraseRefcnt platform obj else heap

def clearDeallocating (obj : ℕ) (heap : Heap) : Except WeakError Heap :=
  match heap.isa obj with
  | .raw _ => sidetableClearDeallocating platform obj heap
  | .nonpointer isa =>
      if isa.weaklyReferenced || isa.hasSidetableRC then clearDeallocatingSlow platform isa obj heap
      else .ok heap

/--
`object_dispose`, from `clearDeallocating` on: the calls that the destructors of the object's ivars
and associations make come before it.
-/
def objectDispose (obj : ℕ) (heap : Heap) : Except WeakError Heap := do
  if obj = 0 then return heap
  let heap ← clearDeallocating platform obj heap
  return heap.free obj

def rootDealloc (obj : ℕ) (heap : Heap) : Except WeakError Heap :=
  if platform.isTaggedPointer obj then .ok heap
  else
    match heap.isa obj with
    | .raw _ => objectDispose platform obj heap
    | .nonpointer isa =>
        if !isa.weaklyReferenced && !isa.hasAssoc && !isa.hasCxxDtor && !isa.hasSidetableRC then
          .ok (heap.free obj)
        else objectDispose platform obj heap

/-! ## Loads, copies and moves -/

def objcLoadWeakRetained (outside : Outside) (location : ℕ) (heap : Heap) : ℕ × Heap :=
  let obj := heap.memory location
  if obj = 0 then (0, heap)
  else if platform.isTaggedPointer obj then (obj, heap)
  else
    match outside.customRR with
    | none =>
        let (retained, object) :=
          Retain.rootTryRetain platform.arch outside.stores (heap.object platform obj)
        (if retained then obj else 0, heap.setObject platform obj object)
    | some custom =>
        match custom.retainWeakReference with
        | none => (0, heap)
        | some retained =>
            (if retained then obj else 0, heap.runOps platform obj custom.retaining)

def objcRelease (outside : Outside) (obj : ℕ) (heap : Heap) : Except WeakError Heap :=
  if obj = 0 then .ok heap
  else if platform.isTaggedPointer obj then .ok heap
  else
    match outside.customRR with
    | none =>
        let result :=
          Retain.rootRelease platform.arch true false false outside.stores (heap.object platform obj)
        let heap := heap.setObject platform obj result.object
        if result.sentDealloc then rootDealloc platform obj heap else .ok heap
    | some custom =>
        let heap := heap.runOps platform obj custom.releasing
        if custom.deallocates then rootDealloc platform obj heap else .ok heap

def objcCopyWeak (outside : Outside) (dst src : ℕ) (heap : Heap) : Except WeakError Heap := do
  let (obj, heap) := objcLoadWeakRetained platform outside src heap
  let (_, heap) ← objcInitWeak platform outside dst obj heap
  objcRelease platform outside obj heap

def objcMoveWeak (outside : Outside) (dst src : ℕ) (heap : Heap) : Except WeakError Heap := do
  let heap ← objcCopyWeak platform outside dst src heap
  let heap ← objcDestroyWeak platform outside src heap
  return heap.store src 0

end Operations

/-! ## Runs -/

/-- A completed call, or something else that happens to an object or to storage. -/
inductive WeakCall where
  | initWeak (outside : Outside) (location newObj : ℕ)
  | initWeakOrNil (outside : Outside) (location newObj : ℕ)
  | storeWeak (outside : Outside) (location newObj : ℕ)
  | storeWeakOrNil (outside : Outside) (location newObj : ℕ)
  | copyWeak (outside : Outside) (dst src : ℕ)
  | moveWeak (outside : Outside) (dst src : ℕ)
  | destroyWeak (outside : Outside) (location : ℕ)
  | rootDealloc (obj : ℕ)
  | objectDispose (obj : ℕ)
  /-- A retain, release or change of class of an object. -/
  | retainOp (obj : ℕ) (op : RetainOp)
  /-- A new object, with the isa it is given. -/
  | allocate (obj : ℕ) (isa : Isa)
  /-- Zeroed storage becomes a weak variable. -/
  | zeroed (location : ℕ)
  /-- Storage that is no weak variable is written. -/
  | write (location value : ℕ)

/-- Perform one call. -/
def WeakCall.run (platform : Platform) (heap : Heap) : WeakCall → Except WeakError Heap
  | .initWeak outside location newObj => do
      let (_, heap) ← objcInitWeak platform outside location newObj heap
      return heap
  | .initWeakOrNil outside location newObj => do
      let (_, heap) ← objcInitWeakOrNil platform outside location newObj heap
      return heap
  | .storeWeak outside location newObj => do
      let (_, heap) ← objcStoreWeak platform outside location newObj heap
      return heap
  | .storeWeakOrNil outside location newObj => do
      let (_, heap) ← objcStoreWeakOrNil platform outside location newObj heap
      return heap
  | .copyWeak outside dst src => objcCopyWeak platform outside dst src heap
  | .moveWeak outside dst src => objcMoveWeak platform outside dst src heap
  | .destroyWeak outside location => objcDestroyWeak platform outside location heap
  | .rootDealloc obj => Weak.rootDealloc platform obj heap
  | .objectDispose obj => Weak.objectDispose platform obj heap
  | .retainOp obj op => .ok (heap.runOps platform obj [op])
  | .allocate obj isa =>
      .ok { heap with allocated := update heap.allocated obj true, isa := update heap.isa obj isa }
  | .zeroed location => .ok (heap.store location 0)
  | .write location value => .ok (heap.store location value)

/-- Before any call nothing is allocated and the side tables are zeroed. -/
def Heap.start (isa : ℕ → Isa) (memory : ℕ → ℕ) : Heap where
  allocated := fun _ => false
  isa := isa
  sideTables := fun _ => ⟨fun _ => none, WeakTable.empty⟩
  memory := memory

/-- Perform a sequence of calls. -/
def runWeakCalls (platform : Platform) (calls : List WeakCall) (heap : Heap) :
    Except WeakError Heap :=
  calls.foldlM (WeakCall.run platform) heap

end ObjcDyld.Weak
