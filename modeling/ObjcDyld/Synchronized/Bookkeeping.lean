import ObjcDyld.Synchronized.Runs

/-!
# The bookkeeping of `@synchronized`

What the threads have recorded is what they hold, after every call, exactly as long as no
`objc_sync_try_enter` fails: its bookkeeping is made before the mutex is tried, and is not taken back.
-/

namespace ObjcDyld.Synchronized

open KeyedLists (find?_eq_some_iff)

variable {platform : Platform} {process process' : Process} {holds : ℕ → ℕ → ℕ} {thread object obj data : ℕ}
  {syncData syncData' : SyncData} {state state' : State} {call : Call} {result : Bool}

/-- The lock count that a thread has recorded for an object. -/
def lockCount (process : Process) (thread object : ℕ) : ℕ :=
  (((process.threads thread).entries.find? fun item => process.object item.1 = some object).map Prod.snd).getD 0

/-- The lock count that a thread has recorded for a `SyncData`. -/
def lockCountOf (process : Process) (thread data : ℕ) : ℕ :=
  (((process.threads thread).entries.find? fun item => item.1 = data).map Prod.snd).getD 0

/-- The bookkeeping between calls. -/
structure Bookkept (platform : Platform) (state : State) : Prop where
  lockCounts : ∀ thread object, object ≠ 0 → lockCount state.process thread object = state.holds thread object
  threadCounts : ∀ (data : ℕ) (syncData : SyncData), state.process.datas[data]? = some syncData → ∃ threads : Finset ℕ,
    (∀ thread, thread ∈ threads ↔ 0 < lockCountOf state.process thread data) ∧ syncData.threadCount = threads.card
  distinct : ∀ (data data' : ℕ) (syncData syncData' : SyncData), state.process.datas[data]? = some syncData →
    state.process.datas[data']? = some syncData' → syncData.object = syncData'.object → data = data'
  reusable : ∀ (data : ℕ) (syncData : SyncData), state.process.datas[data]? = some syncData →
    (∀ thread, state.holds thread syncData.object = 0) → syncData.threadCount = 0
  notFatal : ∀ (thread : ℕ) (call : Call) (message : String), call.Allowed state thread →
    call.run platform state.process thread ≠ .error (.fatal message)

/-- The condition: no `objc_sync_try_enter` of a lock that another thread holds, and no count too great. -/
def Careful (platform : Platform) (state : State) (thread : ℕ) : Call → Prop
  | .enter obj => obj ≠ 0 → state.holds thread obj + 1 < countLimit platform state.process thread obj
  | .tryEnter obj => obj ≠ 0 → (∀ other, other ≠ thread → state.holds other obj = 0) ∧
      state.holds thread obj + 1 < countLimit platform state.process thread obj
  | .exit _ => True

/-- A `SyncData` has another object only if nobody held it. -/
def HandedOver (state state' : State) : Prop :=
  ∀ (data : ℕ) (syncData syncData' : SyncData), state.process.datas[data]? = some syncData →
    state'.process.datas[data]? = some syncData' → syncData.object ≠ syncData'.object →
    syncData.mutex = none ∧ ∀ thread, state.holds thread syncData.object = 0 ∧ lockCountOf state.process thread data = 0

theorem lockCountOf_eq (inv : Inv platform process holds) (at_data : process.datas[data]? = some syncData) (thread : ℕ) :
    lockCountOf process thread data = syncData.mutex.heldBy thread := by
  have settled := inv.settled data syncData at_data
  cases found : (process.threads thread).entries.find? fun item => item.1 = data with
  | none =>
      rw [lockCountOf, found, ← settled.held]
      by_contra some_held
      obtain ⟨data', syncData', at_data', same, recorded⟩ := inv.exists_recorded (Nat.pos_of_ne_zero (Ne.symm some_held))
      obtain rfl := inv.objects data' data syncData' syncData at_data' at_data same
      simpa using List.find?_eq_none.mp found _ recorded
  | some item =>
      obtain ⟨data', count⟩ := item
      obtain rfl : data' = data := by simpa using List.find?_some found
      have recorded := List.mem_of_find?_eq_some found
      rw [lockCountOf, found, ← settled.held, inv.holds_eq at_data recorded]
      rfl

theorem lockCount_eq (only : ∀ other, process.object other = some object ↔ other = data) (thread : ℕ) :
    lockCount process thread object = lockCountOf process thread data := by
  rw [lockCount, lockCountOf]
  congr 3
  funext item
  rw [decide_eq_decide, only]

theorem Inv.lockCount_eq (inv : Inv platform process holds) (thread object : ℕ) :
    lockCount process thread object = holds thread object := by
  by_cases present : ∃ (data : ℕ) (syncData : SyncData), process.datas[data]? = some syncData ∧ syncData.object = object
  · obtain ⟨data, syncData, at_data, rfl⟩ := present
    have only (other : ℕ) : process.object other = some syncData.object ↔ other = data := by
      rw [Process.object_eq_some_iff]
      constructor
      · rintro ⟨syncData', at_other, same⟩
        exact inv.objects other data syncData' syncData at_other at_data same
      · rintro rfl
        exact ⟨syncData, at_data, rfl⟩
    rw [Synchronized.lockCount_eq only, lockCountOf_eq inv at_data, (inv.settled data syncData at_data).held]
  · have absent := inv.absent object (fun data syncData at_data same => present ⟨data, syncData, at_data, same⟩) thread
    have missing : (process.threads thread).entries.find? (fun item => process.object item.1 = some object) = none := by
      refine List.find?_eq_none.mpr fun item _ here => present ?_
      obtain ⟨syncData, at_data, same⟩ := Process.object_eq_some_iff.mp (of_decide_eq_true here)
      exact ⟨item.1, syncData, at_data, same⟩
    rw [lockCount, missing, absent]
    rfl

theorem Acquired.lockCount_eq (acquired : Acquired platform process holds process' thread object data syncData')
    (mutex : RecursiveMutex) :
    lockCount (process'.change data fun syncData => { syncData with mutex := mutex }) thread object =
      (holds thread object + 1) % countLimit platform process thread object := by
  have datas := getElem?_modify_eq acquired.at_data fun syncData => { syncData with mutex := mutex }
  have only (other : ℕ) : (process'.change data fun syncData => { syncData with mutex := mutex }).object other = some object ↔
      other = data := by
    rw [Process.object_eq_some_iff, show (process'.change data _).datas[other]? = _ from datas other]
    by_cases same : other = data
    · simp [same, acquired.placed]
    · rw [if_neg same, acquired.datas, if_neg same]
      refine iff_of_false ?_ same
      rintro ⟨syncData, at_other, same'⟩
      exact acquired.fresh other syncData same at_other same'
  have updated := acquired.recorded.updated
  have found := (find?_eq_some_iff updated.nodup).mpr ((updated.here _).mpr rfl)
  rw [Synchronized.lockCount_eq only, lockCountOf]
  show (Option.map Prod.snd ((process'.threads thread).entries.find? fun item => item.1 = data)).getD 0 = _
  rw [found]
  rfl

theorem Inv.id2data_badAccess (inv : Inv platform process holds) (full : ¬HasRoom platform process thread object) (why : Usage) :
    id2data platform process thread object why = .error .badAccess := by
  obtain ⟨missing, full⟩ := Classical.not_imp.mp full
  rw [id2data, missing]
  simp only [fetchCache_badAccess (inv.cacheOk thread) full]
  rfl

theorem syncEnter_eq (nonzero : obj ≠ 0) (run : id2data platform process thread obj .acquire = .ok (process', some data))
    (at_data : process'.datas[data]? = some syncData') :
    syncEnter platform process thread obj = .ok ((syncData'.mutex.lock thread).map fun mutex =>
      process'.change data fun syncData => { syncData with mutex := mutex }) := by
  rw [syncEnter, if_neg nonzero, run]
  simp only [bind, Except.bind, at_data, Option.bind_some]
  cases syncData'.mutex.lock thread <;> rfl

theorem syncTryEnter_eq (nonzero : obj ≠ 0) (run : id2data platform process thread obj .acquire = .ok (process', some data))
    (at_data : process'.datas[data]? = some syncData') :
    syncTryEnter platform process thread obj =
      .ok (process'.change data fun syncData => { syncData with mutex := (syncData'.mutex.tryLock thread).1 },
        (syncData'.mutex.tryLock thread).2) := by
  rw [syncTryEnter, if_neg nonzero, run]
  simp only [bind, Except.bind, at_data, Option.bind_some]
  rfl

theorem syncExit_eq (nonzero : obj ≠ 0) (run : id2data platform process thread obj .release = .ok (process', some data))
    {mutex : RecursiveMutex} (unlocked : RecursiveMutex.tryUnlock (process'.datas[data]?.bind (·.mutex)) thread = (mutex, true)) :
    syncExit platform process thread obj =
      .ok (process'.change data fun syncData => { syncData with mutex := mutex }, true) := by
  rw [syncExit, if_neg nonzero, run]
  simp only [bind, Except.bind, unlocked]
  rfl

/-- What the calls that enter do: the count is recorded, and the mutex is locked unless another thread has it. -/
inductive Entered (platform : Platform) (process : Process) (holds : ℕ → ℕ → ℕ) (thread obj : ℕ) : Prop where
  | locked {process' : Process} (free : ∀ other, other ≠ thread → holds other obj = 0)
      (enter : syncEnter platform process thread obj = .ok (some process'))
      (tryEnter : syncTryEnter platform process thread obj = .ok (process', true))
      (counted : lockCount process' thread obj = (holds thread obj + 1) % countLimit platform process thread obj)
      (inv : holds thread obj + 1 < countLimit platform process thread obj → Inv platform process'
        (Function.update holds thread (Function.update (holds thread) obj (holds thread obj + 1))))
      (handed : ∀ (data : ℕ) (syncData syncData' : SyncData), process.datas[data]? = some syncData →
        process'.datas[data]? = some syncData' → syncData.object ≠ syncData'.object → syncData.mutex = none)
  | taken {process' : Process} {other : ℕ} (different : other ≠ thread) (has : 0 < holds other obj) (mine : holds thread obj = 0)
      (enter : syncEnter platform process thread obj = .ok none)
      (tryEnter : syncTryEnter platform process thread obj = .ok (process', false))
      (counted : lockCount process' thread obj = (holds thread obj + 1) % countLimit platform process thread obj)

theorem Inv.entered (inv : Inv platform process holds) (nonzero : obj ≠ 0) (room : HasRoom platform process thread obj) :
    Entered platform process holds thread obj := by
  obtain ⟨process', data, syncData', run, acquired⟩ := inv.acquired obj room
  by_cases free : ∀ other, other ≠ thread → holds other obj = 0
  · have lock := RecursiveMutex.lock_eq (acquired.own free)
    rw [← acquired.held] at lock
    refine .locked free ?_ ?_ (acquired.lockCount_eq (some (thread, holds thread obj + 1))) (acquired.inv inv free) ?_
    · rw [syncEnter_eq nonzero run acquired.at_data, lock]
      rfl
    · rw [syncTryEnter_eq nonzero run acquired.at_data, RecursiveMutex.tryLock, lock]
    · intro other before after at_before at_after different
      rw [show (process'.change data _).datas[other]? = _ from getElem?_modify_eq acquired.at_data _ other] at at_after
      by_cases same : other = data
      · subst same
        rw [if_pos rfl] at at_after
        refine acquired.handed before at_before fun same => different ?_
        rw [← Option.some.inj at_after, same]
        exact acquired.placed.symm
      · rw [if_neg same, acquired.datas, if_neg same, at_before] at at_after
        exact absurd (congrArg SyncData.object (Option.some.inj at_after)) different
  · push Not at free
    obtain ⟨other, different, has⟩ := free
    have held := Nat.pos_of_ne_zero has
    rw [acquired.held] at held
    have lock := RecursiveMutex.lock_eq_none different held
    refine .taken different (Nat.pos_of_ne_zero has) ?_ ?_ ?_ (acquired.lockCount_eq syncData'.mutex)
    · rw [acquired.held]
      cases mutex : syncData'.mutex with
      | none => rfl
      | some item =>
          rw [mutex, RecursiveMutex.lock] at lock
          exact if_neg fun same => by simp [same] at lock
    · rw [syncEnter_eq nonzero run acquired.at_data, lock]
      rfl
    · rw [syncTryEnter_eq nonzero run acquired.at_data, RecursiveMutex.tryLock, lock]

theorem Inv.exited (inv : Inv platform process holds) (nonzero : obj ≠ 0) (held : 0 < holds thread obj)
    (room : HasRoom platform process thread obj) :
    ∃ process', syncExit platform process thread obj = .ok (process', true) ∧
      Inv platform process' (Function.update holds thread (Function.update (holds thread) obj (holds thread obj - 1))) ∧
      ∀ other, process'.object other = process.object other := by
  obtain ⟨process', data, mutex, run, unlocked, result, same⟩ := inv.released held room
  exact ⟨_, syncExit_eq nonzero run unlocked, result, same⟩

theorem Call.run_nil (platform : Platform) (process : Process) (thread : ℕ) (nil : call.obj = 0) :
    call.run platform process thread = .ok (some (process, true)) := by
  cases call <;> obtain rfl := nil <;> rfl

theorem Call.held_nil (nil : call.obj = 0) (count : ℕ) (result : Bool) : call.held count result = count := by
  cases call <;> exact if_neg fun both => both.1 nil

theorem Step.nil (step : Step platform thread call state state') (nil : call.obj = 0) : state' = state := by
  cases step with
  | @completed process result allowed run =>
      rw [Call.run_nil platform state.process thread nil] at run
      obtain ⟨rfl, -⟩ := Prod.mk.inj (Option.some.inj (Except.ok.inj run))
      rw [Call.held_nil nil, Function.update_eq_self, Function.update_eq_self]

theorem Inv.run_badAccess (inv : Inv platform process holds) (nonzero : call.obj ≠ 0)
    (full : ¬HasRoom platform process thread call.obj) : call.run platform process thread = .error .badAccess := by
  cases call with
  | enter obj =>
      have nonzero : obj ≠ 0 := nonzero
      rw [Call.run, syncEnter, if_neg nonzero, show id2data platform process thread obj _ = _ from inv.id2data_badAccess full .acquire]
      rfl
  | tryEnter obj =>
      have nonzero : obj ≠ 0 := nonzero
      rw [Call.run, syncTryEnter, if_neg nonzero, show id2data platform process thread obj _ = _ from inv.id2data_badAccess full .acquire]
      rfl
  | exit obj =>
      have nonzero : obj ≠ 0 := nonzero
      rw [Call.run, syncExit, if_neg nonzero, show id2data platform process thread obj _ = _ from inv.id2data_badAccess full .release]
      rfl

/-- What a step does, from a state that meets the invariant. -/
structure Stepped (platform : Platform) (state : State) (thread : ℕ) (call : Call) (state' : State) : Prop where
  inv : Careful platform state thread call → Inv platform state'.process state'.holds
  handed : Careful platform state thread call → ∀ (data : ℕ) (syncData syncData' : SyncData),
    state.process.datas[data]? = some syncData → state'.process.datas[data]? = some syncData' →
      syncData.object ≠ syncData'.object → syncData.mutex = none
  counted : ¬Careful platform state thread call →
    call.obj ≠ 0 ∧ lockCount state'.process thread call.obj ≠ state'.holds thread call.obj

theorem mod_ne {count limit : ℕ} (reached : ¬count < limit) (positive : 1 < limit) : count % limit ≠ count := by
  have less := Nat.mod_lt count (Nat.zero_lt_of_lt positive)
  omega

theorem countLimit_pos (platform : Platform) (process : Process) (thread object : ℕ) :
    1 < countLimit platform process thread object := by
  rw [countLimit]
  split <;> decide

/-- What a completed call leaves. -/
def State.after (state : State) (process : Process) (thread object count : ℕ) : State :=
  ⟨process, Function.update state.holds thread (Function.update (state.holds thread) object count)⟩

theorem State.after_holds (state : State) (process : Process) (thread object count : ℕ) :
    (state.after process thread object count).holds thread object = count := by
  simp [after]

theorem Step.stepped_enter (inv : Inv platform state.process state.holds) (nonzero : obj ≠ 0)
    (room : HasRoom platform state.process thread obj) {process : Process}
    (run : Call.run platform state.process thread (.enter obj) = .ok (some (process, result))) :
    Stepped platform state thread (.enter obj) (state.after process thread obj
      (Call.held (state.holds thread obj) result (.enter obj))) := by
  rw [Call.run] at run
  cases inv.entered nonzero room with
  | locked free enter tryEnter counted inv' handed =>
      rw [enter] at run
      obtain ⟨rfl, rfl⟩ := Prod.mk.inj (Option.some.inj (Except.ok.inj run))
      rw [Call.held, if_pos ⟨nonzero, rfl⟩]
      refine ⟨fun careful => inv' (careful nonzero), fun _ => handed, fun careless => ⟨nonzero, fun same => ?_⟩⟩
      have reached : ¬state.holds thread obj + 1 < countLimit platform state.process thread obj :=
        fun small => careless fun _ => small
      exact mod_ne reached (countLimit_pos platform state.process thread obj) (counted.symm.trans (same.trans (State.after_holds ..)))
  | taken different has mine enter tryEnter counted =>
      rw [enter] at run
      exact nomatch Except.ok.inj run

theorem Step.stepped_tryEnter (inv : Inv platform state.process state.holds) (nonzero : obj ≠ 0)
    (room : HasRoom platform state.process thread obj) {process : Process}
    (run : Call.run platform state.process thread (.tryEnter obj) = .ok (some (process, result))) :
    Stepped platform state thread (.tryEnter obj) (state.after process thread obj
      (Call.held (state.holds thread obj) result (.tryEnter obj))) := by
  have limit := countLimit_pos platform state.process thread obj
  rw [Call.run] at run
  cases inv.entered nonzero room with
  | locked free enter tryEnter counted inv' handed =>
      rw [tryEnter] at run
      obtain ⟨rfl, rfl⟩ := Prod.mk.inj (Option.some.inj (Except.ok.inj run))
      rw [Call.held, if_pos ⟨nonzero, rfl⟩]
      refine ⟨fun careful => inv' (careful nonzero).2, fun _ => handed, fun careless => ⟨nonzero, fun same => ?_⟩⟩
      have reached : ¬state.holds thread obj + 1 < countLimit platform state.process thread obj :=
        fun small => careless fun _ => ⟨free, small⟩
      exact mod_ne reached limit (counted.symm.trans (same.trans (State.after_holds ..)))
  | @taken _ other different has mine enter tryEnter counted =>
      rw [tryEnter] at run
      obtain ⟨rfl, rfl⟩ := Prod.mk.inj (Option.some.inj (Except.ok.inj run))
      rw [Call.held, if_neg fun both => nomatch both.2]
      have careless : ¬Careful platform state thread (.tryEnter obj) :=
        fun careful => absurd ((careful nonzero).1 other different) (Nat.ne_of_gt has)
      refine ⟨fun careful => absurd careful careless, fun careful => absurd careful careless, fun _ => ⟨nonzero, fun same => ?_⟩⟩
      -- the thread has recorded the lock once more than it holds it
      have once := counted.symm.trans (same.trans (State.after_holds ..))
      rw [mine, Nat.mod_eq_of_lt limit] at once
      exact nomatch once

theorem Step.stepped_exit (inv : Inv platform state.process state.holds) (nonzero : obj ≠ 0)
    (held : 0 < state.holds thread obj) (room : HasRoom platform state.process thread obj) {process : Process}
    (run : Call.run platform state.process thread (.exit obj) = .ok (some (process, result))) :
    Stepped platform state thread (.exit obj) (state.after process thread obj
      (Call.held (state.holds thread obj) result (.exit obj))) := by
  obtain ⟨process', exit, inv', same⟩ := inv.exited nonzero held room
  rw [Call.run, exit] at run
  obtain ⟨rfl, rfl⟩ := Prod.mk.inj (Option.some.inj (Except.ok.inj run))
  rw [Call.held, if_pos ⟨nonzero, rfl⟩]
  refine ⟨fun _ => inv', fun _ data syncData syncData' at_data at_data' different => ?_, fun careless => absurd trivial careless⟩
  have object_eq := same data
  rw [Process.object, Process.object, at_data, show process'.datas[data]? = _ from at_data'] at object_eq
  exact absurd (Option.some.inj object_eq).symm different

theorem Step.stepped (inv : Inv platform state.process state.holds) (step : Step platform thread call state state') :
    Stepped platform state thread call state' := by
  by_cases nil : call.obj = 0
  · obtain rfl := step.nil nil
    have careful : Careful platform state' thread call := by
      cases call with
      | enter obj => exact fun nonzero => absurd nil nonzero
      | tryEnter obj => exact fun nonzero => absurd nil nonzero
      | exit obj => trivial
    refine ⟨fun _ => inv, fun _ data syncData syncData' at_data at_data' different => ?_, fun no => absurd careful no⟩
    exact absurd (congrArg SyncData.object (Option.some.inj (at_data.symm.trans at_data'))) different
  · cases step with
    | @completed process result allowed run =>
        have room : HasRoom platform state.process thread call.obj := by
          by_contra full
          rw [inv.run_badAccess nil full] at run
          exact nomatch run
        cases call with
        | enter obj => exact Step.stepped_enter inv nil room run
        | tryEnter obj => exact Step.stepped_tryEnter inv nil room run
        | exit obj => exact Step.stepped_exit inv nil (allowed nil) room run

theorem Inv.notFatal (inv : Inv platform state.process state.holds) (allowed : call.Allowed state thread) (message : String) :
    call.run platform state.process thread ≠ .error (.fatal message) := by
  intro run
  by_cases nil : call.obj = 0
  · rw [Call.run_nil platform state.process thread nil] at run
    exact nomatch run
  by_cases room : HasRoom platform state.process thread call.obj
  · cases call with
    | enter obj =>
        rw [Call.run] at run
        cases @Inv.entered platform state.process state.holds thread obj inv nil room with
        | locked free enter tryEnter counted inv' handed =>
            rw [enter] at run
            exact nomatch run
        | taken different has mine enter tryEnter counted =>
            rw [enter] at run
            exact nomatch run
    | tryEnter obj =>
        rw [Call.run] at run
        cases @Inv.entered platform state.process state.holds thread obj inv nil room with
        | locked free enter tryEnter counted inv' handed =>
            rw [tryEnter] at run
            exact nomatch run
        | taken different has mine enter tryEnter counted =>
            rw [tryEnter] at run
            exact nomatch run
    | exit obj =>
        obtain ⟨process', exit, -⟩ := @Inv.exited platform state.process state.holds thread obj inv nil (allowed nil) room
        rw [Call.run, exit] at run
        exact nomatch run
  · rw [inv.run_badAccess nil room] at run
    exact nomatch run

theorem Inv.bookkept (inv : Inv platform state.process state.holds) : Bookkept platform state := by
  refine ⟨fun thread object _ => inv.lockCount_eq thread object, fun data syncData at_data => ?_, inv.objects,
    fun data syncData at_data free => ?_, fun thread call message allowed => inv.notFatal allowed message⟩
  · have settled := inv.settled data syncData at_data
    refine ⟨(syncData.mutex.map Prod.fst).toFinset, fun thread => ?_, ?_⟩
    · rw [lockCountOf_eq inv at_data]
      cases mutex : syncData.mutex with
      | none => simp [RecursiveMutex.heldBy]
      | some item =>
          obtain ⟨owner, count⟩ := item
          have positive := settled.positive owner count mutex
          by_cases same : owner = thread
          · simp [RecursiveMutex.heldBy, same, positive]
          · simp [RecursiveMutex.heldBy, same, Ne.symm same]
    · rw [settled.counted]
      cases syncData.mutex <;> simp
  · have settled := inv.settled data syncData at_data
    rw [settled.counted]
    cases mutex : syncData.mutex with
    | none => rfl
    | some item =>
        obtain ⟨owner, count⟩ := item
        have none_held := free owner
        rw [settled.held, mutex, RecursiveMutex.heldBy, if_pos rfl] at none_held
        exact absurd (settled.positive owner count mutex) (by omega)

/-- In a run of calls that meet the condition, the bookkeeping is right, and the next call keeps it so exactly if it does too. -/
theorem bookkept_of_careful
    (run : Relation.ReflTransGen (fun state state' => ∃ thread call, Step platform thread call state state' ∧
      Careful platform state thread call) .start state) :
    Bookkept platform state ∧ ∀ thread call state', Step platform thread call state state' →
      (Bookkept platform state' ↔ Careful platform state thread call) ∧
        (Careful platform state thread call → HandedOver state state') := by
  have inv : Inv platform state.process state.holds := by
    induction run with
    | refl => exact start_inv platform
    | tail _ step ih =>
        obtain ⟨thread, call, step, careful⟩ := step
        exact (step.stepped ih).inv careful
  refine ⟨inv.bookkept, fun thread call state' step => ?_⟩
  have stepped := step.stepped inv
  refine ⟨⟨fun kept => ?_, fun careful => (stepped.inv careful).bookkept⟩,
    fun careful data syncData syncData' at_data at_data' different => ?_⟩
  · by_contra careless
    obtain ⟨nonzero, wrong⟩ := stepped.counted careless
    exact wrong (kept.lockCounts thread call.obj nonzero)
  · have mutex := stepped.handed careful data syncData syncData' at_data at_data' different
    refine ⟨mutex, fun thread => ⟨?_, ?_⟩⟩
    · rw [(inv.settled data syncData at_data).held, mutex]
      rfl
    · rw [lockCountOf_eq inv at_data, mutex]
      rfl

/-- One thread has the lock of one object. -/
theorem bookkept_of_careful_one : ∃ state, Bookkept ⟨true, 64⟩ state ∧ state.holds 0 16 = 1 := by
  obtain ⟨state, step, held⟩ : ∃ state, Step ⟨true, 64⟩ 0 (.enter 16) .start state ∧ state.holds 0 16 = 1 :=
    ⟨_, .completed trivial rfl, rfl⟩
  exact ⟨state, (bookkept_of_careful (.single ⟨0, .enter 16, step, fun _ => by decide⟩)).1, held⟩

/-- The second thread has recorded the lock that it did not get. -/
theorem not_bookkept_tryEnter : ∃ state, Relation.ReflTransGen (fun state state' => ∃ thread call,
    Step ⟨true, 64⟩ thread call state state') .start state ∧ lockCount state.process 1 16 = 1 ∧ state.holds 1 16 = 0 :=
  ⟨_, .tail (.single ⟨0, .enter 16, .completed trivial rfl⟩) ⟨1, .tryEnter 16, .completed trivial rfl⟩, by decide, by decide⟩

end ObjcDyld.Synchronized
