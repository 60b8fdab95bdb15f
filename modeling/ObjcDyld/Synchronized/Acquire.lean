import ObjcDyld.Synchronized.Invariant

/-!
# What `id2data` does

A lock that the thread has is found in what it recorded, and its count changes. For another lock, the
object's list has its `SyncData`, or an unused one is taken, or a new one is allocated.
-/

namespace ObjcDyld.Synchronized

open KeyedLists (Updated keys mem_keys_iff mem_keys_of_mem updated_cons updated_append updated_set updated_of_perm_cons value_eq)

variable {platform : Platform} {process process' : Process} {holds : ℕ → ℕ → ℕ} {thread object data lockCount i : ℕ}
  {syncData syncData' : SyncData} {count : ℕ} {why : Usage} {fetched : Option SyncCache} {cache : SyncCache}

theorem id2data_fast (found : fastMatch platform process thread object = some (data, lockCount)) :
    id2data platform process thread object why = fastUse process thread data lockCount why := by
  rw [id2data, found]

theorem id2data_cache (missing : fastMatch platform process thread object = none)
    (fetch : fetchCache false (process.threads thread).syncCache = .ok (some cache))
    (found : cache.matches (process.setCache thread (some cache)) object = some ((data, lockCount), i)) :
    id2data platform process thread object why =
      cacheUse (process.setCache thread (some cache)) thread cache i data lockCount why := by
  rw [id2data, missing]
  simp only [fetch, bind, Except.bind, Option.bind_some, found, Option.map_some]

theorem id2data_list (missing : fastMatch platform process thread object = none)
    (fetch : fetchCache false (process.threads thread).syncCache = .ok fetched)
    (absent : ∀ cache, fetched = some cache → cache.matches (process.setCache thread fetched) object = none) :
    id2data platform process thread object why =
      match findInList platform (process.setCache thread fetched) object why with
      | (process, none) => .ok (process, none)
      | (process, some data) => save platform process thread object data why := by
  rw [id2data, missing]
  cases fetched with
  | none => simp only [fetch, bind, Except.bind, Option.bind_none]; rfl
  | some cache => simp only [fetch, bind, Except.bind, Option.bind_some, absent cache rfl, Option.map_none]; rfl

@[simp] theorem Process.setDirect_threads (process : Process) (thread : ℕ) (direct : Option (ℕ × ℕ)) :
    (process.setDirect thread direct).threads thread = { process.threads thread with direct := direct } := Function.update_self ..

@[simp] theorem Process.setCache_threads (process : Process) (thread : ℕ) (syncCache : Option SyncCache) :
    (process.setCache thread syncCache).threads thread = { process.threads thread with syncCache := syncCache } :=
  Function.update_self ..

theorem Process.setDirect_others {other : ℕ} (process : Process) (direct : Option (ℕ × ℕ)) (different : other ≠ thread) :
    (process.setDirect thread direct).threads other = process.threads other := Function.update_of_ne different ..

theorem Process.setCache_others {other : ℕ} (process : Process) (syncCache : Option SyncCache) (different : other ≠ thread) :
    (process.setCache thread syncCache).threads other = process.threads other := Function.update_of_ne different ..

theorem entries_setCache (same : fetched.map (·.list) = (process.threads thread).syncCache.map (·.list)) :
    ((process.setCache thread fetched).threads thread).entries = (process.threads thread).entries := by
  rw [ThreadData.entries, Process.setCache_threads, ThreadData.entries]
  congr 1
  cases fetched <;> cases cached : (process.threads thread).syncCache <;> simp_all

theorem Process.setCache_setCache (process : Process) (thread : ℕ) (first second : Option SyncCache) :
    (process.setCache thread first).setCache thread second = process.setCache thread second := by
  simp [setCache, Function.update_self, Function.update_idem]

theorem Inv.entries_eq (same : (process.threads thread).syncCache.map (·.list) = some cache.list) :
    (process.threads thread).entries = (process.threads thread).direct.toList ++ cache.list := by
  obtain ⟨before, cached, eq⟩ := Option.map_eq_some_iff.mp same
  rw [ThreadData.entries, cached]
  exact congrArg (_ ++ ·) eq

theorem Inv.nodup_cache (inv : Inv platform process holds)
    (same : (process.threads thread).syncCache.map (·.list) = some cache.list) : (keys cache.list).Nodup := by
  have whole := inv.nodup thread
  rw [entries_eq same, keys, List.map_append] at whole
  exact (List.nodup_append.mp whole).2.1

theorem Inv.recorded_cache (inv : Inv platform process holds)
    (same : (process.threads thread).syncCache.map (·.list) = some cache.list) {list : List (ℕ × ℕ)} {value : Option ℕ}
    (here : data ∈ keys cache.list) (updated : Updated cache.list list data value) (fits : list.length ≤ cache.allocated)
    (bounds : 0 < cache.allocated ∧ cache.allocated < 2 ^ 32) :
    Recorded platform process (process.setCache thread (some { cache with list := list })) thread data value := by
  have entries := entries_eq same
  have nodup := inv.nodup thread
  rw [entries] at nodup
  refine ⟨?_, fun other different => Process.setCache_others _ _ different, ?_, fun support => ?_⟩
  · rw [entries, ThreadData.entries, Process.setCache_threads]
    refine updated.append_left _ nodup fun member => ?_
    rw [keys, List.map_append] at nodup
    exact (List.nodup_append.mp nodup).2.2 data member data here rfl
  · rw [Process.setCache_threads]
    rintro _ ⟨⟩
    exact ⟨fits, bounds⟩
  · rw [Process.setCache_threads]
    exact inv.direct support thread

theorem Inv.recorded_direct (inv : Inv platform process holds) (direct : (process.threads thread).direct = some (data, count))
    (supported : platform.supportDirectThreadKeys) (value : Option ℕ) :
    Recorded platform process (process.setDirect thread (value.map fun count => (data, count))) thread data value := by
  have entries : (process.threads thread).entries = (data, count) :: (process.threads thread).syncCache.elim [] (·.list) := by
    rw [ThreadData.entries, direct]
    rfl
  have nodup := inv.nodup thread
  rw [entries] at nodup
  have removed := updated_of_perm_cons nodup (List.Perm.refl _)
  refine ⟨?_, fun other different => Process.setDirect_others _ _ different, ?_, fun support => absurd supported support⟩
  · rw [entries, ThreadData.entries, Process.setDirect_threads]
    cases value with
    | none => exact removed
    | some count' => exact updated_set nodup (i := 0) rfl count'
  · rw [Process.setDirect_threads]
    exact inv.cacheOk thread

/-- The greatest count that is recorded, and one more. -/
def countLimit (platform : Platform) (process : Process) (thread object : ℕ) : ℕ :=
  if (fastMatch platform process thread object).isSome then 2 ^ 64 else 2 ^ 32

/-- The `SyncCache` is only looked at if the fast cache does not have the object. -/
def HasRoom (platform : Platform) (process : Process) (thread object : ℕ) : Prop :=
  fastMatch platform process thread object = none → Roomy (process.threads thread).syncCache

/-- Where the item of the lock is found. -/
inductive Found (platform : Platform) (process : Process) (thread object data count : ℕ) : Prop where
  | fast (found : fastMatch platform process thread object = some (data, count))
      (direct : (process.threads thread).direct = some (data, count)) (supported : platform.supportDirectThreadKeys)
  | cache {cache : SyncCache} {i : ℕ} (missing : fastMatch platform process thread object = none)
      (fetch : fetchCache false (process.threads thread).syncCache = .ok (some cache))
      (found : cache.matches (process.setCache thread (some cache)) object = some ((data, count), i))
      (same : (process.threads thread).syncCache.map (·.list) = some cache.list) (at_i : cache.list[i]? = some (data, count))
      (bounds : cache.list.length ≤ cache.allocated ∧ 0 < cache.allocated ∧ cache.allocated < 2 ^ 32)

theorem Inv.item_eq (inv : Inv platform process holds) (at_data : process.datas[data]? = some syncData)
    (recorded : (data, count) ∈ (process.threads thread).entries) {other count' : ℕ}
    (member : (other, count') ∈ (process.threads thread).entries) (here : process.object other = some syncData.object) :
    (other, count') = (data, count) := by
  obtain ⟨syncData', at_other, same⟩ := Process.object_eq_some_iff.mp here
  obtain rfl := inv.objects other data syncData' syncData at_other at_data same
  rw [value_eq (inv.nodup thread) member recorded]

theorem Inv.found (inv : Inv platform process holds) (at_data : process.datas[data]? = some syncData)
    (recorded : (data, count) ∈ (process.threads thread).entries) (room : HasRoom platform process thread syncData.object) :
    Found platform process thread syncData.object data count := by
  have here : process.object data = some syncData.object := Process.object_eq_some_iff.mpr ⟨syncData, at_data, rfl⟩
  cases fast : fastMatch platform process thread syncData.object with
  | some item =>
      obtain ⟨other, count'⟩ := item
      obtain ⟨supported, direct, object⟩ := fastMatch_eq_some fast
      have member : (other, count') ∈ (process.threads thread).entries := by
        rw [ThreadData.entries, direct]
        exact List.mem_cons_self
      obtain ⟨rfl, rfl⟩ := Prod.mk.inj (inv.item_eq at_data recorded member object)
      exact .fast fast direct supported
  | none =>
      obtain ⟨fetched, fetch, same, ok, -⟩ := fetchCache_ok (inv.cacheOk thread) (room fast)
      -- the item is not in the fast cache, so it is in the other one
      have cached : (data, count) ∈ (process.threads thread).syncCache.elim [] (·.list) := by
        rw [ThreadData.entries, List.mem_append, Option.mem_toList] at recorded
        exact recorded.resolve_left fun direct => fastMatch_eq_none fast (fun support => inv.direct support thread) direct here
      cases fetched with
      | none =>
          cases cache : (process.threads thread).syncCache with
          | none =>
              rw [cache] at cached
              exact nomatch cached
          | some before =>
              rw [cache] at same
              exact nomatch same
      | some cache =>
          have member : (data, count) ∈ cache.list := by
            obtain ⟨before, eq, lists⟩ := Option.map_eq_some_iff.mp same.symm
            rw [eq] at cached
            have cached : (data, count) ∈ before.list := cached
            rwa [show before.list = cache.list from lists] at cached
          cases found : cache.matches (process.setCache thread (some cache)) syncData.object with
          | none => exact absurd here (SyncCache.matches_eq_none found member)
          | some item =>
              obtain ⟨⟨other, count'⟩, i⟩ := item
              obtain ⟨at_i, object⟩ := SyncCache.matches_eq_some found
              have inside : (other, count') ∈ (process.threads thread).entries := by
                rw [← entries_setCache same, ThreadData.entries, Process.setCache_threads]
                exact List.mem_append_right _ (List.mem_of_getElem? at_i)
              obtain ⟨rfl, rfl⟩ := Prod.mk.inj (inv.item_eq at_data recorded inside object)
              exact .cache fast fetch found same.symm at_i (ok cache rfl)

theorem Inv.mutex_eq (inv : Inv platform process holds) (at_data : process.datas[data]? = some syncData)
    (recorded : (data, count) ∈ (process.threads thread).entries) :
    syncData.mutex = some (thread, count) ∧ 0 < count ∧ process.threadCount data = 1 := by
  have settled := inv.settled data syncData at_data
  have mutex := (settled.recorded thread count).mp recorded
  have counted := settled.counted
  rw [mutex] at counted
  refine ⟨mutex, settled.positive thread count mutex, ?_⟩
  rw [Process.threadCount, at_data]
  exact counted

theorem Inv.id2data_acquire_held (inv : Inv platform process holds) (at_data : process.datas[data]? = some syncData)
    (recorded : (data, count) ∈ (process.threads thread).entries) (room : HasRoom platform process thread syncData.object) :
    ∃ process', id2data platform process thread syncData.object .acquire = .ok (process', some data) ∧
      process'.datas = process.datas ∧ process'.sDataLists = process.sDataLists ∧
      Recorded platform process process' thread data
        (some ((count + 1) % countLimit platform process thread syncData.object)) := by
  obtain ⟨-, positive, threadCount⟩ := inv.mutex_eq at_data recorded
  rw [countLimit]
  cases inv.found at_data recorded room with
  | fast found direct supported =>
      rw [id2data_fast found, fastUse, if_neg (by omega), found]
      exact ⟨_, rfl, rfl, rfl, inv.recorded_direct direct supported (some _)⟩
  | @cache cache i missing fetch found same at_i bounds =>
      have threadCount' : (process.setCache thread (some cache)).threadCount data = 1 := threadCount
      have key := mem_keys_of_mem (List.mem_of_getElem? at_i)
      have updated := updated_set (inv.nodup_cache same) at_i ((count + 1) % 2 ^ 32)
      rw [id2data_cache missing fetch found, cacheUse, if_neg (by omega), missing]
      refine ⟨_, rfl, rfl, rfl, ?_⟩
      rw [Process.setCache_setCache]
      exact inv.recorded_cache same key updated ((List.length_set ..).trans_le bounds.1) bounds.2

theorem Recorded.congr {changed : Process} {value : Option ℕ} (recorded : Recorded platform process process' thread data value)
    (same : changed.threads = process'.threads) : Recorded platform process changed thread data value :=
  ⟨same ▸ recorded.updated, same ▸ recorded.others, same ▸ recorded.cacheOk, same ▸ recorded.direct⟩

/-- One thread less uses the `SyncData`. -/
def SyncData.decrement (syncData : SyncData) : SyncData :=
  { syncData with threadCount := (syncData.threadCount - 1).bmod (2 ^ 32) }

theorem length_swapRemove_le {α : Type} (list : List α) (i : ℕ) : (swapRemove list i).length ≤ list.length := by
  rw [swapRemove]
  cases list.getLast? with
  | none => exact le_rfl
  | some last =>
      rw [List.length_dropLast, List.length_set]
      exact Nat.sub_le _ _

theorem Inv.id2data_release_held (inv : Inv platform process holds) (at_data : process.datas[data]? = some syncData)
    (recorded : (data, count) ∈ (process.threads thread).entries) (room : HasRoom platform process thread syncData.object) :
    ∃ process', id2data platform process thread syncData.object .release = .ok (process', some data) ∧
      process'.datas = (if count = 1 then process.datas.modify data SyncData.decrement else process.datas) ∧
      process'.sDataLists = process.sDataLists ∧
      Recorded platform process process' thread data (if count = 1 then none else some (count - 1)) := by
  obtain ⟨-, positive, threadCount⟩ := inv.mutex_eq at_data recorded
  cases inv.found at_data recorded room with
  | fast found direct supported =>
      rw [id2data_fast found, fastUse, if_neg (by omega)]
      by_cases last : count = 1
      · simp only [last, Nat.sub_self, if_true]
        exact ⟨_, rfl, rfl, rfl, (inv.recorded_direct direct supported none).congr rfl⟩
      · have more : count - 1 ≠ 0 := by omega
        simp only [if_neg last, if_neg more]
        exact ⟨_, rfl, rfl, rfl, inv.recorded_direct direct supported (some _)⟩
  | @cache cache i missing fetch found same at_i bounds =>
      have threadCount' : (process.setCache thread (some cache)).threadCount data = 1 := threadCount
      have key := mem_keys_of_mem (List.mem_of_getElem? at_i)
      rw [id2data_cache missing fetch found, cacheUse, if_neg (by omega)]
      by_cases last : count = 1
      · have updated := updated_of_perm_cons (inv.nodup_cache same) (swapRemove_perm at_i)
        have fits := (length_swapRemove_le cache.list i).trans bounds.1
        simp only [last, Nat.sub_self, if_true, Process.setCache_setCache]
        exact ⟨_, rfl, rfl, rfl, (inv.recorded_cache same key updated fits bounds.2).congr rfl⟩
      · have more : count - 1 ≠ 0 := by omega
        have updated := updated_set (inv.nodup_cache same) at_i (count - 1)
        simp only [if_neg last, if_neg more, Process.setCache_setCache]
        exact ⟨_, rfl, rfl, rfl, inv.recorded_cache same key updated ((List.length_set ..).trans_le bounds.1) bounds.2⟩

/-- The `SyncData` of an object, that has one more thread or is new for it. -/
structure Placed (platform : Platform) (process process' : Process) (object data : ℕ) (syncData' : SyncData) : Prop where
  datas : ∀ other, process'.datas[other]? = if other = data then some syncData' else process.datas[other]?
  lists : ∀ stripe other, other ∈ process'.sDataLists stripe ↔
    ∃ syncData, process'.datas[other]? = some syncData ∧ platform.indexForPointer syncData.object = stripe
  placed : syncData'.object = object
  fresh : ∀ (other : ℕ) (syncData : SyncData), other ≠ data → process.datas[other]? = some syncData → syncData.object ≠ object
  kind : (∃ syncData, process.datas[data]? = some syncData ∧ syncData.object = object ∧
      syncData' = { syncData with threadCount := (syncData.threadCount + 1).bmod (2 ^ 32) }) ∨
    syncData'.threadCount = 1 ∧ syncData'.mutex = none ∧
      ∀ syncData, process.datas[data]? = some syncData → syncData.object ≠ object ∧ syncData.mutex = none

theorem getElem?_modify_eq {α : Type} {list : List α} {a : α} (at_i : list[i]? = some a) (f : α → α) (j : ℕ) :
    (list.modify i f)[j]? = if j = i then some (f a) else list[j]? := by
  rw [List.getElem?_modify]
  by_cases same : j = i
  · subst same
    simp [at_i]
  · simp [same, Ne.symm same]

theorem Inv.object_ne (inv : Inv platform process holds)
    (missing : (process.sDataLists (platform.indexForPointer object)).find? (fun data => process.object data = some object) = none)
    (other : ℕ) (syncData : SyncData) (at_other : process.datas[other]? = some syncData) : syncData.object ≠ object := by
  rintro rfl
  have member := (inv.lists (platform.indexForPointer syncData.object) other).mpr ⟨syncData, at_other, rfl⟩
  have here : process.object other = some syncData.object := Process.object_eq_some_iff.mpr ⟨syncData, at_other, rfl⟩
  simpa [here] using List.find?_eq_none.mp missing other member

theorem Inv.mutex_eq_none (inv : Inv platform process holds) (at_data : process.datas[data]? = some syncData)
    (unused : syncData.threadCount = 0) : syncData.mutex = none := by
  have counted := (inv.settled data syncData at_data).counted
  cases mutex : syncData.mutex with
  | none => rfl
  | some owner =>
      rw [mutex, unused] at counted
      exact absurd counted (by simp)

theorem Inv.findInList_placed (inv : Inv platform process holds) (object : ℕ) :
    ∃ process' data syncData', findInList platform process object .acquire = (process', some data) ∧
      Placed platform process process' object data syncData' ∧ process'.threads = process.threads := by
  rw [findInList]
  cases found : (process.sDataLists (platform.indexForPointer object)).find? fun data => process.object data = some object with
  | some data =>
      have hit := List.find?_some found
      have here : process.object data = some object := of_decide_eq_true hit
      obtain ⟨syncData, at_data, rfl⟩ := Process.object_eq_some_iff.mp here
      have datas := getElem?_modify_eq at_data fun syncData =>
        { syncData with threadCount := (syncData.threadCount + 1).bmod (2 ^ 32) }
      refine ⟨_, data, _, rfl, ⟨datas, fun stripe other => ?_, rfl, fun other syncData' different at_other same => ?_,
        .inl ⟨syncData, at_data, rfl, rfl⟩⟩, rfl⟩
      · refine (inv.lists stripe other).trans ?_
        rw [show (process.increment data).datas[other]? = _ from datas other]
        by_cases same : other = data
        · subst same
          simp [at_data]
        · rw [if_neg same]
      · exact different (inv.objects other data syncData' syncData at_other at_data same)
  | none =>
      have fresh := inv.object_ne found
      cases unused : (process.sDataLists (platform.indexForPointer object)).find? fun data => process.threadCount data = 0 with
      | some data =>
          have member := List.mem_of_find?_eq_some unused
          obtain ⟨syncData, at_data, stripe_eq⟩ := (inv.lists _ data).mp member
          have hit := List.find?_some unused
          have zero : process.threadCount data = 0 := of_decide_eq_true hit
          rw [Process.threadCount, at_data] at zero
          have mutex := inv.mutex_eq_none at_data zero
          have datas := getElem?_modify_eq at_data fun syncData => { syncData with object := object, threadCount := 1 }
          refine ⟨_, data, _, rfl, ⟨datas, fun stripe other => ?_, rfl, fun other syncData' _ at_other => fresh other syncData' at_other,
            .inr ⟨rfl, mutex, fun syncData' at_data' => ?_⟩⟩, rfl⟩
          · refine (inv.lists stripe other).trans ?_
            rw [show (process.change data _).datas[other]? = _ from datas other]
            by_cases same : other = data
            · -- the unused one is in the list of the new object already
              subst same
              simp [at_data, stripe_eq]
            · rw [if_neg same]
          · obtain rfl := Option.some.inj (at_data.symm.trans at_data')
            exact ⟨fresh data syncData at_data, mutex⟩
      | none =>
          have datas (other : ℕ) : (process.datas ++ [⟨object, 1, none⟩])[other]? =
              if other = process.datas.length then some ⟨object, 1, none⟩ else process.datas[other]? := by
            rw [List.getElem?_append]
            split
            · next less => rw [if_neg (Nat.ne_of_lt less)]
            · next more =>
                by_cases same : other = process.datas.length
                · simp [same]
                · rw [if_neg same, List.getElem?_eq_none (by rw [List.length_singleton]; omega), List.getElem?_eq_none (by omega)]
          refine ⟨_, process.datas.length, ⟨object, 1, none⟩, rfl, ⟨datas, fun stripe other => ?_, rfl,
            fun other syncData' _ at_other => fresh other syncData' at_other, .inr ⟨rfl, rfl, fun syncData' at_new => ?_⟩⟩, rfl⟩
          · simp only [datas]
            by_cases same : other = process.datas.length
            · subst same
              have outside : process.datas.length ∉ process.sDataLists stripe := by
                intro member
                obtain ⟨syncData, at_new, -⟩ := (inv.lists stripe _).mp member
                exact absurd (List.getElem?_eq_some_iff.mp at_new).1 (Nat.lt_irrefl _)
              by_cases here : platform.indexForPointer object = stripe
              · simp [here]
              · rw [Function.update_of_ne (Ne.symm here)]
                simp [here, outside]
            · rw [if_neg same, ← inv.lists]
              by_cases here : stripe = platform.indexForPointer object
              · subst here
                simp [same]
              · rw [Function.update_of_ne here]
          · exact absurd (List.getElem?_eq_some_iff.mp at_new).1 (Nat.lt_irrefl _)

theorem save_recorded (nodup : (keys (process.threads thread).entries).Nodup)
    (absent : data ∉ keys (process.threads thread).entries) (here : process.object data = some object)
    (ok : CacheOk (process.threads thread).syncCache)
    (open_slot : ∀ cache, (process.threads thread).syncCache = some cache → cache.list.length < cache.allocated)
    (support : ¬platform.supportDirectThreadKeys → (process.threads thread).direct = none) :
    ∃ process', save platform process thread object data .acquire = .ok (process', some data) ∧
      process'.datas = process.datas ∧ process'.sDataLists = process.sDataLists ∧
      Recorded platform process process' thread data (some 1) := by
  rw [save, if_neg (not_not.mpr here)]
  by_cases fast : platform.supportDirectThreadKeys ∧ (process.threads thread).direct.isNone
  · rw [if_pos fast]
    have free : (process.threads thread).direct = none := Option.isNone_iff_eq_none.mp fast.2
    refine ⟨_, rfl, rfl, rfl, ?_, fun other different => Process.setDirect_others _ _ different, ?_, fun no => absurd fast.1 no⟩
    · have added := updated_cons nodup absent 1
      rw [ThreadData.entries, free] at added ⊢
      rw [ThreadData.entries, Process.setDirect_threads]
      exact added
    · rw [Process.setDirect_threads]
      exact ok
  · rw [if_neg fast]
    have recorded (cache : SyncCache) (same : (process.threads thread).syncCache.elim [] (·.list) = cache.list)
        (room : cache.list.length < cache.allocated) (bounds : 0 < cache.allocated ∧ cache.allocated < 2 ^ 32) :
        Recorded platform process (process.setCache thread (some { cache with list := cache.list ++ [(data, 1)] })) thread data
          (some 1) := by
      refine ⟨?_, fun other different => Process.setCache_others _ _ different, ?_, fun no => ?_⟩
      · have added := updated_append nodup absent 1
        rw [ThreadData.entries, same, List.append_assoc] at added
        rw [ThreadData.entries, same, ThreadData.entries, Process.setCache_threads]
        exact added
      · rw [Process.setCache_threads]
        rintro _ ⟨⟩
        refine ⟨?_, bounds⟩
        rw [List.length_append, List.length_singleton]
        exact room
      · rw [Process.setCache_threads]
        exact support no
    cases cached : (process.threads thread).syncCache with
    | none =>
        have room : ([] : List (ℕ × ℕ)).length < 4 := by decide
        refine ⟨_, rfl, rfl, rfl, recorded ⟨4, []⟩ ?_ room ⟨by decide, by decide⟩⟩
        rw [cached]
        rfl
    | some cache =>
        have room := open_slot cache cached
        refine ⟨process.setCache thread (some { cache with list := cache.list ++ [(data, 1)] }), ?_, rfl, rfl,
          recorded cache ?_ room (ok cache cached).2⟩
        · simp only [pure_bind, if_pos room]
          rfl
        · rw [cached]
          rfl

theorem Inv.setCache (inv : Inv platform process holds)
    (same : fetched.map (·.list) = (process.threads thread).syncCache.map (·.list)) (ok : CacheOk fetched) :
    Inv platform (process.setCache thread fetched) holds := by
  have entries (other : ℕ) : ((process.setCache thread fetched).threads other).entries = (process.threads other).entries := by
    by_cases mine : other = thread
    · subst mine
      exact entries_setCache same
    · rw [Process.setCache_others _ _ mine]
  refine ⟨inv.objects, inv.lists, fun data syncData at_data => ?_, fun other => ?_, fun other => ?_, inv.absent, fun other => ?_,
    fun support other => ?_⟩
  · obtain ⟨counted, positive, held, recorded⟩ := inv.settled data syncData at_data
    exact ⟨counted, positive, held, fun other => entries other ▸ recorded other⟩
  · exact entries other ▸ inv.nodup other
  · exact entries other ▸ inv.inside other
  · by_cases mine : other = thread
    · subst mine
      rwa [Process.setCache_threads]
    · rw [Process.setCache_others _ _ mine]
      exact inv.cacheOk other
  · by_cases mine : other = thread
    · subst mine
      rw [Process.setCache_threads]
      exact inv.direct support other
    · rw [Process.setCache_others _ _ mine]
      exact inv.direct support other

theorem Inv.id2data_acquire_new (inv : Inv platform process holds)
    (free : ∀ entry ∈ (process.threads thread).entries, process.object entry.1 ≠ some object)
    (room : HasRoom platform process thread object) :
    ∃ process' data syncData', id2data platform process thread object .acquire = .ok (process', some data) ∧
      Placed platform process process' object data syncData' ∧ Recorded platform process process' thread data (some 1) := by
  have missing : fastMatch platform process thread object = none := by
    cases found : fastMatch platform process thread object with
    | none => rfl
    | some item =>
        obtain ⟨data, count⟩ := item
        obtain ⟨-, direct, here⟩ := fastMatch_eq_some found
        refine absurd here (free (data, count) ?_)
        rw [ThreadData.entries, direct]
        exact List.mem_cons_self
  obtain ⟨fetched, fetch, same, ok, open_slot⟩ := fetchCache_ok (inv.cacheOk thread) (room missing)
  have inv' := inv.setCache same ok
  have entries := entries_setCache same
  have absent (cache : SyncCache) (eq : fetched = some cache) :
      cache.matches (process.setCache thread fetched) object = none := by
    cases found : cache.matches (process.setCache thread fetched) object with
    | none => rfl
    | some item =>
        obtain ⟨⟨data, count⟩, i⟩ := item
        obtain ⟨at_i, here⟩ := SyncCache.matches_eq_some found
        refine absurd here (free (data, count) ?_)
        rw [← entries, ThreadData.entries, Process.setCache_threads, eq]
        exact List.mem_append_right _ (List.mem_of_getElem? at_i)
  obtain ⟨listed, data, syncData', run, placed, threads⟩ := inv'.findInList_placed object
  have unrecorded : data ∉ keys (listed.threads thread).entries := by
    rw [threads, entries]
    intro member
    obtain ⟨count, member⟩ := mem_keys_iff.mp member
    obtain ⟨syncData, at_data⟩ := inv.inside thread _ member
    obtain ⟨before, at_before, same, -⟩ | ⟨-, -, unused⟩ := placed.kind
    · exact free _ member (Process.object_eq_some_iff.mpr ⟨before, at_before, same⟩)
    · have mutex := (inv.mutex_eq at_data member).1
      exact nomatch mutex.symm.trans (unused syncData at_data).2
  have here : listed.object data = some object :=
    Process.object_eq_some_iff.mpr ⟨syncData', (placed.datas data).trans (if_pos rfl), placed.placed⟩
  have saved := @save_recorded platform listed thread object data (by rw [threads]; exact inv'.nodup thread) unrecorded here
    (by rw [threads]; exact inv'.cacheOk thread) (by rw [threads, Process.setCache_threads]; exact open_slot)
    (by rw [threads]; exact fun support => inv'.direct support thread)
  obtain ⟨process', saved, datas, lists, recorded⟩ := saved
  refine ⟨process', data, syncData', ?_, ⟨fun other => ?_, fun stripe other => ?_, placed.placed, placed.fresh, placed.kind⟩, ?_⟩
  · rw [id2data_list missing fetch absent, run]
    exact saved
  · rw [datas]
    exact placed.datas other
  · rw [datas, lists]
    exact placed.lists stripe other
  · refine ⟨?_, fun other different => ?_, recorded.cacheOk, recorded.direct⟩
    · rw [← entries, ← threads]
      exact recorded.updated
    · rw [recorded.others other different, threads, Process.setCache_others _ _ different]

end ObjcDyld.Synchronized
