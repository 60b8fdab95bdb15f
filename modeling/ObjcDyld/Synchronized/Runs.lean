import ObjcDyld.Synchronized.Acquire

/-!
# Runs of `@synchronized`

Every completed call keeps the invariant, unless it is a failing `objc_sync_try_enter` or a count is too
great for its type. A failing `objc_sync_try_enter` has recorded a lock that the thread does not have.
-/

namespace ObjcDyld.Synchronized

open KeyedLists (Updated keys mem_keys_iff mem_keys_of_mem find?_eq_some_iff)

variable {platform : Platform} {process process' : Process} {holds : ℕ → ℕ → ℕ} {thread object data i : ℕ}
  {syncData syncData' : SyncData} {state state' : State} {call : Call}

/-- What `id2data` leaves when a lock is acquired: the mutex is as before. -/
structure Acquired (platform : Platform) (process : Process) (holds : ℕ → ℕ → ℕ) (process' : Process) (thread object data : ℕ)
    (syncData' : SyncData) : Prop where
  datas : ∀ other, process'.datas[other]? = if other = data then some syncData' else process.datas[other]?
  lists : ∀ stripe other, other ∈ process'.sDataLists stripe ↔
    ∃ syncData, process'.datas[other]? = some syncData ∧ platform.indexForPointer syncData.object = stripe
  placed : syncData'.object = object
  fresh : ∀ (other : ℕ) (syncData : SyncData), other ≠ data → process.datas[other]? = some syncData → syncData.object ≠ object
  recorded : Recorded platform process process' thread data
    (some ((holds thread object + 1) % countLimit platform process thread object))
  held : ∀ other, holds other object = syncData'.mutex.heldBy other
  positive : ∀ owner count, syncData'.mutex = some (owner, count) → 0 < count
  alone : ∀ other count, other ≠ thread → (data, count) ∈ (process.threads other).entries → syncData'.mutex = some (other, count)
  counted : (∀ owner count, syncData'.mutex = some (owner, count) → owner = thread) → syncData'.threadCount = 1
  handed : ∀ syncData, process.datas[data]? = some syncData → syncData.object ≠ object → syncData.mutex = none

theorem Inv.holds_eq (inv : Inv platform process holds) (at_data : process.datas[data]? = some syncData) {count : ℕ}
    (recorded : (data, count) ∈ (process.threads thread).entries) : holds thread syncData.object = count := by
  rw [(inv.settled data syncData at_data).held, (inv.mutex_eq at_data recorded).1]
  exact if_pos rfl

theorem Inv.acquired (inv : Inv platform process holds) (object : ℕ) (room : HasRoom platform process thread object) :
    ∃ process' data syncData', id2data platform process thread object .acquire = .ok (process', some data) ∧
      Acquired platform process holds process' thread object data syncData' := by
  by_cases has : ∃ entry ∈ (process.threads thread).entries, process.object entry.1 = some object
  · obtain ⟨⟨data, count⟩, recorded, here⟩ := has
    obtain ⟨syncData, at_data, rfl⟩ := Process.object_eq_some_iff.mp here
    obtain ⟨mutex, positive, -⟩ := inv.mutex_eq at_data recorded
    have settled := inv.settled data syncData at_data
    obtain ⟨process', run, datas, lists, changed⟩ := inv.id2data_acquire_held at_data recorded room
    refine ⟨process', data, syncData, run, fun other => ?_, fun stripe other => ?_, rfl, fun other syncData' different at_other same => ?_,
      ?_, settled.held, settled.positive, fun other count' _ member => (settled.recorded other count').mp member, fun _ => ?_,
      fun syncData' at_data' different => ?_⟩
    · rw [datas]
      by_cases same : other = data
      · rw [if_pos same, same, at_data]
      · rw [if_neg same]
    · rw [datas, lists]
      exact inv.lists stripe other
    · exact different (inv.objects other data syncData' syncData at_other at_data same)
    · rwa [inv.holds_eq at_data recorded]
    · rw [settled.counted, mutex]
      rfl
    · rw [Option.some.inj (at_data.symm.trans at_data')] at different
      exact absurd rfl different
  · have free : ∀ entry ∈ (process.threads thread).entries, process.object entry.1 ≠ some object :=
      fun entry member here => has ⟨entry, member, here⟩
    obtain ⟨process', data, syncData', run, placed, recorded⟩ := inv.id2data_acquire_new free room
    have one : (0 + 1) % countLimit platform process thread object = 1 := by
      rw [countLimit]
      split <;> rfl
    obtain ⟨datas, lists, object_eq, fresh, ⟨syncData, at_data, same, rfl⟩ | ⟨threadCount, mutex, unused⟩⟩ := placed
    · have settled := inv.settled data syncData at_data
      have none_held : holds thread object = 0 := by
        rw [← same, settled.held]
        cases mutex : syncData.mutex with
        | none => rfl
        | some item =>
            obtain ⟨owner, count⟩ := item
            refine if_neg ?_
            rintro rfl
            have member := (settled.recorded owner count).mpr mutex
            exact free _ member (Process.object_eq_some_iff.mpr ⟨syncData, at_data, same⟩)
      refine ⟨process', data, _, run, datas, lists, object_eq, fresh, ?_, fun other => ?_, settled.positive,
        fun other count _ member => (settled.recorded other count).mp member, fun own => ?_, fun syncData' at_data' different => ?_⟩
      · rw [none_held, one]
        exact recorded
      · rw [← same]
        exact settled.held other
      · have mutex : syncData.mutex = none := by
          cases mutex : syncData.mutex with
          | none => rfl
          | some item =>
              obtain ⟨owner, count⟩ := item
              obtain rfl := own owner count mutex
              have member := (settled.recorded owner count).mpr mutex
              exact absurd (Process.object_eq_some_iff.mpr ⟨syncData, at_data, same⟩) (free _ member)
        have zero : syncData.threadCount = 0 := by
          rw [settled.counted, mutex]
          rfl
        show (syncData.threadCount + 1).bmod (2 ^ 32) = 1
        rw [zero]
        rfl
      · rw [← Option.some.inj (at_data.symm.trans at_data')] at different
        exact absurd same different
    · have absent (other : ℕ) : holds other object = 0 := by
        refine inv.absent object (fun another syncData at_another => ?_) other
        by_cases here : another = data
        · exact (unused syncData (here ▸ at_another)).1
        · exact fresh another syncData here at_another
      refine ⟨process', data, syncData', run, datas, lists, object_eq, fresh, ?_, fun other => ?_, ?_, fun other count _ member => ?_,
        fun _ => threadCount, fun syncData at_data _ => (unused syncData at_data).2⟩
      · rw [absent, one]
        exact recorded
      · rw [absent, mutex]
        rfl
      · rw [mutex]
        exact fun _ _ eq => absurd eq.symm (Option.some_ne_none _)
      · obtain ⟨syncData, at_data⟩ := inv.inside other _ member
        exact absurd ((inv.mutex_eq at_data member).1.symm.trans (unused syncData at_data).2) (Option.some_ne_none _)

theorem RecursiveMutex.lock_eq {mutex : RecursiveMutex} (own : ∀ owner count, mutex = some (owner, count) → owner = thread) :
    mutex.lock thread = some (some (thread, mutex.heldBy thread + 1)) := by
  cases mutex with
  | none => rfl
  | some item =>
      obtain ⟨owner, count⟩ := item
      obtain rfl := own owner count rfl
      rw [lock, heldBy, if_pos rfl, if_pos rfl]

theorem RecursiveMutex.lock_eq_none {mutex : RecursiveMutex} {other : ℕ} (different : other ≠ thread)
    (held : 0 < mutex.heldBy other) : mutex.lock thread = none := by
  cases mutex with
  | none => exact nomatch held
  | some item =>
      obtain ⟨owner, count⟩ := item
      have same : owner = other := by
        by_contra no
        rw [heldBy, if_neg no] at held
        exact nomatch held
      rw [lock, if_neg (same ▸ different)]

namespace Acquired

theorem at_data (acquired : Acquired platform process holds process' thread object data syncData') : process'.datas[data]? = some syncData' := (acquired.datas data).trans (if_pos rfl)

theorem own (acquired : Acquired platform process holds process' thread object data syncData')
    (free : ∀ other, other ≠ thread → holds other object = 0) (owner count : ℕ)
    (mutex : syncData'.mutex = some (owner, count)) : owner = thread := by
  by_contra different
  have none_held := free owner different
  rw [acquired.held, mutex, RecursiveMutex.heldBy, if_pos rfl] at none_held
  exact absurd (acquired.positive owner count mutex) (by omega)

theorem inv (acquired : Acquired platform process holds process' thread object data syncData')
    (inv : Inv platform process holds) (free : ∀ other, other ≠ thread → holds other object = 0)
    (small : holds thread object + 1 < countLimit platform process thread object) :
    Inv platform (process'.change data fun syncData => { syncData with mutex := some (thread, holds thread object + 1) })
      (Function.update holds thread (Function.update (holds thread) object (holds thread object + 1))) := by
  have object_eq : { syncData' with mutex := some (thread, holds thread object + 1) }.object = object := acquired.placed
  have datas := getElem?_modify_eq acquired.at_data fun syncData =>
    { syncData with mutex := some (thread, holds thread object + 1) }
  have recorded := acquired.recorded
  rw [Nat.mod_eq_of_lt small] at recorded
  have own := acquired.own free
  have result := @Inv.changed platform process
    (process'.change data fun syncData => { syncData with mutex := some (thread, holds thread object + 1) }) holds thread data
    { syncData' with mutex := some (thread, holds thread object + 1) } (some (holds thread object + 1)) inv
    (fun other => ?_) (fun stripe other => ?_) (recorded.congr rfl) rfl (fun count' same => ?_) (acquired.counted own)
    (fun other syncData different at_other => object_eq ▸ acquired.fresh other syncData different at_other)
    (fun other different => ⟨object_eq ▸ free other different, fun count member => ?_⟩)
    (fun syncData at_data different other => ?_)
  · rwa [object_eq] at result
  · refine (datas other).trans ?_
    by_cases same : other = data
    · rw [if_pos same, if_pos same]
    · rw [if_neg same, if_neg same, acquired.datas, if_neg same]
  · refine (acquired.lists stripe other).trans ?_
    rw [show (process'.change data _).datas[other]? = _ from datas other]
    by_cases same : other = data
    · subst same
      rw [if_pos rfl, acquired.at_data]
      simp
    · rw [if_neg same]
  · rw [← Option.some.inj same]
    exact Nat.succ_pos _
  · exact different (own other count (acquired.alone other count different member))
  · rw [(inv.settled data syncData at_data).held, acquired.handed syncData at_data (object_eq ▸ different)]
    rfl

end Acquired

theorem Inv.exists_recorded (inv : Inv platform process holds) (held : 0 < holds thread object) :
    ∃ data syncData, process.datas[data]? = some syncData ∧ syncData.object = object ∧
      (data, holds thread object) ∈ (process.threads thread).entries := by
  by_cases present : ∃ (data : ℕ) (syncData : SyncData), process.datas[data]? = some syncData ∧ syncData.object = object
  · obtain ⟨data, syncData, at_data, rfl⟩ := present
    have settled := inv.settled data syncData at_data
    have held' := held
    rw [settled.held] at held'
    cases mutex : syncData.mutex with
    | none =>
        rw [mutex] at held'
        exact nomatch held'
    | some item =>
        obtain ⟨owner, count⟩ := item
        obtain rfl : owner = thread := by
          by_contra different
          rw [mutex, RecursiveMutex.heldBy, if_neg different] at held'
          exact nomatch held'
        have recorded := (settled.recorded owner count).mpr mutex
        rw [inv.holds_eq at_data recorded]
        exact ⟨data, syncData, at_data, rfl, recorded⟩
  · have absent := inv.absent object (fun data syncData at_data same => present ⟨data, syncData, at_data, same⟩) thread
    omega

theorem Inv.id2data_release (inv : Inv platform process holds) (at_data : process.datas[data]? = some syncData)
    (recorded : (data, holds thread syncData.object) ∈ (process.threads thread).entries)
    (room : HasRoom platform process thread syncData.object) :
    ∃ process' syncData', id2data platform process thread syncData.object .release = .ok (process', some data) ∧
      (∀ other, process'.datas[other]? = if other = data then some syncData' else process.datas[other]?) ∧
      process'.sDataLists = process.sDataLists ∧ syncData'.object = syncData.object ∧ syncData'.mutex = syncData.mutex ∧
      syncData'.threadCount = (if holds thread syncData.object = 1 then 0 else 1) ∧
      Recorded platform process process' thread data
        (if holds thread syncData.object = 1 then none else some (holds thread syncData.object - 1)) := by
  have counted := (inv.settled data syncData at_data).counted
  rw [(inv.mutex_eq at_data recorded).1] at counted
  obtain ⟨process', run, datas, lists, changed⟩ := inv.id2data_release_held at_data recorded room
  by_cases last : holds thread syncData.object = 1
  · refine ⟨process', syncData.decrement, run, fun other => ?_, lists, rfl, rfl, ?_, changed⟩
    · rw [datas, if_pos last]
      exact getElem?_modify_eq at_data SyncData.decrement other
    · rw [if_pos last, SyncData.decrement, counted]
      rfl
  · refine ⟨process', syncData, run, fun other => ?_, lists, rfl, rfl, ?_, changed⟩
    · rw [datas, if_neg last]
      by_cases same : other = data
      · rw [if_pos same, same, at_data]
      · rw [if_neg same]
    · rw [if_neg last, counted]
      rfl

theorem Inv.released (inv : Inv platform process holds) (held : 0 < holds thread object)
    (room : HasRoom platform process thread object) :
    ∃ process' data mutex, id2data platform process thread object .release = .ok (process', some data) ∧
      RecursiveMutex.tryUnlock (process'.datas[data]?.bind (·.mutex)) thread = (mutex, true) ∧
      Inv platform (process'.change data fun syncData => { syncData with mutex := mutex })
        (Function.update holds thread (Function.update (holds thread) object (holds thread object - 1))) ∧
      ∀ other, (process'.change data fun syncData => { syncData with mutex := mutex }).object other = process.object other := by
  obtain ⟨data, syncData, at_data, rfl, recorded⟩ := inv.exists_recorded held
  have locked := (inv.mutex_eq at_data recorded).1
  have settled := inv.settled data syncData at_data
  obtain ⟨process', syncData', run, datas, lists, object_eq, mutex_eq, threadCount, changed⟩ :=
    inv.id2data_release at_data recorded room
  have at_data' : process'.datas[data]? = some syncData' := (datas data).trans (if_pos rfl)
  -- the count that is left, if any
  obtain ⟨left, left_eq⟩ : ∃ left : Option ℕ, left =
    if holds thread syncData.object = 1 then none else some (holds thread syncData.object - 1) := ⟨_, rfl⟩
  rw [← left_eq] at changed
  have unlocked : RecursiveMutex.tryUnlock (process'.datas[data]?.bind (·.mutex)) thread =
      (left.map fun count => (thread, count), true) := by
    rw [at_data', Option.bind_some, mutex_eq, locked, RecursiveMutex.tryUnlock, if_pos rfl, left_eq]
    split <;> rfl
  have positive (count : ℕ) (same : left = some count) : 0 < count := by
    rw [left_eq, Option.ite_none_left_eq_some] at same
    have more := Option.some.inj same.2
    omega
  have counted : syncData'.threadCount = if left.isSome then 1 else 0 := by
    rw [threadCount, left_eq]
    split <;> rfl
  have less : left.getD 0 = holds thread syncData.object - 1 := by
    rw [left_eq]
    split
    · next last => rw [last]; rfl
    · rfl
  have datas' := getElem?_modify_eq at_data' fun syncData' => { syncData' with mutex := left.map fun count => (thread, count) }
  refine ⟨process', data, _, run, unlocked, ?_, fun other => ?_⟩
  rotate_left
  · rw [Process.object, show (process'.change data _).datas[other]? = _ from datas' other, Process.object]
    by_cases same : other = data
    · rw [if_pos same, same, at_data]
      exact congrArg some object_eq
    · rw [if_neg same, datas, if_neg same]
  have result := @Inv.changed platform process
    (process'.change data fun syncData' => { syncData' with mutex := left.map fun count => (thread, count) }) holds thread data
    { syncData' with mutex := left.map fun count => (thread, count) } left inv
    (fun other => ?_) (fun stripe other => ?_) (changed.congr rfl) rfl positive counted
    (fun other another different at_other same => ?_) (fun other different => ⟨?_, fun count member => ?_⟩)
    (fun another at_another different => ?_)
  · rw [less, object_eq] at result
    exact result
  · refine (datas' other).trans ?_
    by_cases same : other = data
    · rw [if_pos same, if_pos same]
    · rw [if_neg same, if_neg same, datas, if_neg same]
  · rw [show (process'.change data _).datas[other]? = _ from datas' other]
    refine (lists ▸ inv.lists stripe other).trans ?_
    by_cases same : other = data
    · subst same
      rw [if_pos rfl, at_data]
      simp [object_eq]
    · rw [if_neg same, datas, if_neg same]
  · exact different (inv.objects other data another syncData at_other at_data (same.trans object_eq))
  · rw [show ({ syncData' with mutex := left.map fun count => (thread, count) } : SyncData).object = _ from object_eq,
      settled.held, locked]
    exact if_neg (Ne.symm different)
  · have other_mutex := (settled.recorded other count).mp member
    rw [locked] at other_mutex
    exact different (Prod.mk.inj (Option.some.inj other_mutex)).1.symm
  · obtain rfl := Option.some.inj (at_data.symm.trans at_another)
    exact absurd object_eq.symm different

end ObjcDyld.Synchronized
