import Mathlib

/-!
# Locks of `@synchronized`

`objc_sync_enter`, `objc_sync_try_enter` and `objc_sync_exit`. An object's lock is a `SyncData`, found
in one of several lists and never freed; each thread has recorded the locks that it has, one in its
fast cache and the others in its `SyncCache`.
-/

namespace ObjcDyld.Synchronized

/-- Whether there is a fast cache, and how many lists there are. -/
structure Platform where
  supportDirectThreadKeys : Bool
  stripeCount : ℕ

/-- `StripedMap::indexForPointer`. -/
def Platform.indexForPointer (platform : Platform) (addr : ℕ) : ℕ := ((addr >>> 4) ^^^ (addr >>> 9)) % platform.stripeCount

/-- A recursive mutex: the thread that has it, and how many times. -/
abbrev RecursiveMutex := Option (ℕ × ℕ)

namespace RecursiveMutex

/-- `lock`; `none` as long as another thread has the mutex. -/
def lock (mutex : RecursiveMutex) (thread : ℕ) : Option RecursiveMutex :=
  match mutex with
  | none => some (some (thread, 1))
  | some (owner, count) => if owner = thread then some (some (owner, count + 1)) else none

def tryLock (mutex : RecursiveMutex) (thread : ℕ) : RecursiveMutex × Bool :=
  match mutex.lock thread with
  | none => (mutex, false)
  | some locked => (locked, true)

def tryUnlock (mutex : RecursiveMutex) (thread : ℕ) : RecursiveMutex × Bool :=
  match mutex with
  | none => (none, false)
  | some (owner, count) =>
      if owner = thread then (if count = 1 then none else some (owner, count - 1), true) else (mutex, false)

end RecursiveMutex

structure SyncData where
  object : ℕ
  /-- Number of threads that use this block. -/
  threadCount : ℤ
  mutex : RecursiveMutex

/-- A `SyncData` is named by its place among all. An item has a `SyncData` and how many times this thread locked it. -/
structure SyncCache where
  allocated : ℕ
  list : List (ℕ × ℕ)

/-- The two keys of the fast cache, and the `SyncCache`. -/
structure ThreadData where
  direct : Option (ℕ × ℕ)
  syncCache : Option SyncCache

structure Process where
  datas : List SyncData
  sDataLists : ℕ → List ℕ
  threads : ℕ → ThreadData

inductive Usage where
  | acquire
  | release
  | check

/-- `_objc_fatal`, or an access outside of allocated memory. -/
inductive Fault where
  | fatal (message : String)
  | badAccess

def Process.start : Process := ⟨[], fun _ => [], fun _ => ⟨none, none⟩⟩

namespace Process

variable (process : Process)

def object (data : ℕ) : Option ℕ := process.datas[data]?.map (·.object)

def threadCount (data : ℕ) : ℤ := (process.datas[data]?.map (·.threadCount)).getD 0

def change (data : ℕ) (f : SyncData → SyncData) : Process := { process with datas := process.datas.modify data f }

def setDirect (thread : ℕ) (direct : Option (ℕ × ℕ)) : Process :=
  { process with threads := Function.update process.threads thread { process.threads thread with direct := direct } }

def setCache (thread : ℕ) (syncCache : Option SyncCache) : Process :=
  { process with threads := Function.update process.threads thread { process.threads thread with syncCache := syncCache } }

/-- `OSAtomicIncrement32Barrier` of the `threadCount`. -/
def increment (data : ℕ) : Process :=
  process.change data fun syncData => { syncData with threadCount := (syncData.threadCount + 1).bmod (2 ^ 32) }

/-- `OSAtomicDecrement32Barrier` of the `threadCount`. -/
def decrement (data : ℕ) : Process :=
  process.change data fun syncData => { syncData with threadCount := (syncData.threadCount - 1).bmod (2 ^ 32) }

end Process

def fetchCache (create : Bool) (syncCache : Option SyncCache) : Except Fault (Option SyncCache) :=
  match syncCache with
  | none => .ok (if create then some ⟨4, []⟩ else none)
  | some cache =>
      -- make sure there's at least one open slot in the list
      if cache.allocated = cache.list.length then
        if cache.allocated * 2 % 2 ^ 32 < cache.list.length then .error .badAccess
        else .ok (some { cache with allocated := cache.allocated * 2 % 2 ^ 32 })
      else .ok (some cache)

def fastMatch (platform : Platform) (process : Process) (thread object : ℕ) : Option (ℕ × ℕ) :=
  if platform.supportDirectThreadKeys then (process.threads thread).direct.filter fun item => process.object item.1 = some object
  else none

/-- What `id2data` does with a match in the fast cache. -/
def fastUse (process : Process) (thread data lockCount : ℕ) (why : Usage) : Except Fault (Process × Option ℕ) :=
  if process.threadCount data ≤ 0 ∨ lockCount = 0 then .error (.fatal "id2data fastcache is buggy")
  else
    match why with
    | .acquire => .ok (process.setDirect thread (some (data, (lockCount + 1) % 2 ^ 64)), some data)
    | .release =>
        if lockCount - 1 = 0 then .ok ((process.setDirect thread none).decrement data, some data)
        else .ok (process.setDirect thread (some (data, lockCount - 1)), some data)
    | .check => .ok (process, some data)

/-- The first item of a `SyncCache` that has this object, and its place. -/
def SyncCache.matches (process : Process) (object : ℕ) (cache : SyncCache) : Option ((ℕ × ℕ) × ℕ) :=
  cache.list.zipIdx.find? fun item => process.object item.1.1 = some object

/-- The last item takes the place of one. -/
def swapRemove {α : Type} (list : List α) (i : ℕ) : List α :=
  match list.getLast? with
  | none => list
  | some last => (list.set i last).dropLast

/-- What `id2data` does with a match in the `SyncCache`. -/
def cacheUse (process : Process) (thread : ℕ) (cache : SyncCache) (i data lockCount : ℕ) (why : Usage) :
    Except Fault (Process × Option ℕ) :=
  if process.threadCount data ≤ 0 ∨ lockCount = 0 then .error (.fatal "id2data cache is buggy")
  else
    match why with
    | .acquire =>
        .ok (process.setCache thread (some { cache with list := cache.list.set i (data, (lockCount + 1) % 2 ^ 32) }), some data)
    | .release =>
        if lockCount - 1 = 0 then
          .ok ((process.setCache thread (some { cache with list := swapRemove cache.list i })).decrement data, some data)
        else .ok (process.setCache thread (some { cache with list := cache.list.set i (data, lockCount - 1) }), some data)
    | .check => .ok (process, some data)

/-- The part of `id2data` that has the lock of the object's list. -/
def findInList (platform : Platform) (process : Process) (object : ℕ) (why : Usage) : Process × Option ℕ :=
  let stripe := platform.indexForPointer object
  match (process.sDataLists stripe).find? fun data => process.object data = some object with
  | some data => (process.increment data, some data)
  | none =>
      -- no SyncData currently associated with object
      match why with
      | .release | .check => (process, none)
      | .acquire =>
          match (process.sDataLists stripe).find? fun data => process.threadCount data = 0 with
          | some data =>
              (process.change data fun syncData => { syncData with object := object, threadCount := 1 }, some data)
          | none =>
              ({ process with
                  datas := process.datas ++ [⟨object, 1, none⟩]
                  sDataLists := Function.update process.sDataLists stripe (process.datas.length :: process.sDataLists stripe) },
                some process.datas.length)

/-- The part of `id2data` after `done`: only new acquires save the lock. -/
def save (platform : Platform) (process : Process) (thread object data : ℕ) (why : Usage) :
    Except Fault (Process × Option ℕ) := do
  match why with
  | .release => return (process, none)
  | .check => throw (.fatal "id2data is buggy")
  | .acquire =>
      if process.object data ≠ some object then throw (.fatal "id2data is buggy")
      else if platform.supportDirectThreadKeys ∧ (process.threads thread).direct.isNone then
        return (process.setDirect thread (some (data, 1)), some data)
      else
        let cache ← match (process.threads thread).syncCache with
          | some cache => pure (some cache)
          | none => fetchCache true none
        match cache with
        | none => throw .badAccess
        | some cache =>
            if cache.list.length < cache.allocated then
              return (process.setCache thread (some { cache with list := cache.list ++ [(data, 1)] }), some data)
            else throw .badAccess

def id2data (platform : Platform) (process : Process) (thread object : ℕ) (why : Usage) :
    Except Fault (Process × Option ℕ) := do
  match fastMatch platform process thread object with
  | some (data, lockCount) => fastUse process thread data lockCount why
  | none =>
      let syncCache ← fetchCache false (process.threads thread).syncCache
      let process := process.setCache thread syncCache
      match syncCache.bind fun cache => (cache.matches process object).map fun found => (cache, found) with
      | some (cache, (data, lockCount), i) => cacheUse process thread cache i data lockCount why
      | none =>
          match findInList platform process object why with
          | (process, none) => return (process, none)
          | (process, some data) => save platform process thread object data why

/-- `objc_sync_enter`; `none` as long as the call waits. -/
def syncEnter (platform : Platform) (process : Process) (thread obj : ℕ) : Except Fault (Option Process) := do
  if obj = 0 then return some process
  else
    let (process, result) ← id2data platform process thread obj .acquire
    match result with
    | none => throw .badAccess
    | some data =>
        match RecursiveMutex.lock (process.datas[data]?.bind (·.mutex)) thread with
        | none => return none
        | some mutex => return some (process.change data fun syncData => { syncData with mutex := mutex })

/-- `objc_sync_try_enter`. -/
def syncTryEnter (platform : Platform) (process : Process) (thread obj : ℕ) : Except Fault (Process × Bool) := do
  if obj = 0 then return (process, true)
  else
    let (process, result) ← id2data platform process thread obj .acquire
    match result with
    | none => throw .badAccess
    | some data =>
        let (mutex, locked) := RecursiveMutex.tryLock (process.datas[data]?.bind (·.mutex)) thread
        return (process.change data fun syncData => { syncData with mutex := mutex }, locked)

/-- `objc_sync_exit`, and whether it returns `OBJC_SYNC_SUCCESS`. -/
def syncExit (platform : Platform) (process : Process) (thread obj : ℕ) : Except Fault (Process × Bool) := do
  if obj = 0 then return (process, true)
  else
    let (process, result) ← id2data platform process thread obj .release
    match result with
    | none => return (process, false)
    | some data =>
        let (mutex, okay) := RecursiveMutex.tryUnlock (process.datas[data]?.bind (·.mutex)) thread
        return (process.change data fun syncData => { syncData with mutex := mutex }, okay)

inductive Call where
  | enter (obj : ℕ)
  | tryEnter (obj : ℕ)
  | exit (obj : ℕ)

def Call.obj : Call → ℕ
  | .enter obj | .tryEnter obj | .exit obj => obj

/-- A call and its result; `none` as long as it waits. -/
def Call.run (platform : Platform) (process : Process) (thread : ℕ) : Call → Except Fault (Option (Process × Bool))
  | .enter obj => do return (← syncEnter platform process thread obj).map fun process => (process, true)
  | .tryEnter obj => do return some (← syncTryEnter platform process thread obj)
  | .exit obj => do return some (← syncExit platform process thread obj)

/-- The process, and how many times each thread holds the lock of each object. -/
structure State where
  process : Process
  holds : ℕ → ℕ → ℕ

def State.start : State := ⟨.start, fun _ _ => 0⟩

/-- How many times the lock is held after a call; there is no lock of `nil`. -/
def Call.held (count : ℕ) (result : Bool) : Call → ℕ
  | .enter obj | .tryEnter obj => if obj ≠ 0 ∧ result then count + 1 else count
  | .exit obj => if obj ≠ 0 ∧ result then count - 1 else count

/-- Each thread exits only locks that it holds. -/
def Call.Allowed (state : State) (thread : ℕ) : Call → Prop
  | .enter _ | .tryEnter _ => True
  | .exit obj => obj ≠ 0 → 0 < state.holds thread obj

/-- A call of a thread that is completed. -/
inductive Step (platform : Platform) (thread : ℕ) (call : Call) : State → State → Prop where
  | completed {state : State} {process : Process} {result : Bool} (allowed : call.Allowed state thread)
      (run : call.run platform state.process thread = .ok (some (process, result))) :
      Step platform thread call state ⟨process, Function.update state.holds thread
        (Function.update (state.holds thread) call.obj (call.held (state.holds thread call.obj) result))⟩

end ObjcDyld.Synchronized
