import ObjcDyld.Common.Bindings
import ObjcDyld.Synchronized.Locks

/-!
# What the threads have recorded

A thread's fast cache and `SyncCache` are one keyed list, from `SyncData`s to lock counts. `id2data`
changes the count of one `SyncData`, in this list and, if the thread did not have it, in the lists of
all threads.
-/

namespace ObjcDyld.Synchronized

open KeyedLists (Updated keys mem_keys_iff mem_keys_of_mem updated_cons updated_append updated_set updated_of_perm_cons)

variable {platform : Platform} {process process' : Process} {thread object data lockCount i : ℕ} {syncCache : Option SyncCache}
  {cache : SyncCache} {why : Usage}

/-- The items of the fast cache and of the `SyncCache`. -/
def ThreadData.entries (thread : ThreadData) : List (ℕ × ℕ) := thread.direct.toList ++ thread.syncCache.elim [] (·.list)

/-- `realloc` has made room for the items. -/
def CacheOk (syncCache : Option SyncCache) : Prop :=
  ∀ cache, syncCache = some cache → cache.list.length ≤ cache.allocated ∧ 0 < cache.allocated ∧ cache.allocated < 2 ^ 32

/-- The `SyncCache` is not full, or can have twice as many items. -/
def Roomy (syncCache : Option SyncCache) : Prop :=
  ∀ cache, syncCache = some cache → cache.allocated = cache.list.length → cache.list.length < 2 ^ 31

theorem fetchCache_ok (ok : CacheOk syncCache) (roomy : Roomy syncCache) :
    ∃ fetched, fetchCache false syncCache = .ok fetched ∧ fetched.map (·.list) = syncCache.map (·.list) ∧ CacheOk fetched ∧
      ∀ cache, fetched = some cache → cache.list.length < cache.allocated := by
  cases syncCache with
  | none => exact ⟨none, rfl, rfl, ok, nofun⟩
  | some cache =>
      obtain ⟨fits, positive, small⟩ := ok cache rfl
      rw [fetchCache]
      by_cases full : cache.allocated = cache.list.length
      · have few := roomy cache rfl full
        have double : cache.allocated * 2 % 2 ^ 32 = cache.allocated * 2 := Nat.mod_eq_of_lt (by omega)
        have bounds : cache.list.length < cache.allocated * 2 ∧ cache.allocated * 2 < 2 ^ 32 := by omega
        rw [if_pos full, double, if_neg (by omega)]
        refine ⟨_, rfl, rfl, ?_, ?_⟩
        · rintro _ ⟨⟩
          exact ⟨bounds.1.le, by dsimp only; omega, bounds.2⟩
        · rintro _ ⟨⟩
          exact bounds.1
      · rw [if_neg full]
        refine ⟨_, rfl, rfl, ok, ?_⟩
        rintro _ ⟨⟩
        omega

theorem fetchCache_badAccess (ok : CacheOk syncCache) (full : ¬Roomy syncCache) :
    fetchCache false syncCache = .error .badAccess := by
  rw [Roomy] at full
  push Not at full
  obtain ⟨cache, rfl, same, many⟩ := full
  obtain ⟨-, -, small⟩ := ok cache rfl
  rw [fetchCache, if_pos same, if_pos (by omega)]

theorem Process.object_eq_some_iff : process.object data = some object ↔
    ∃ syncData, process.datas[data]? = some syncData ∧ syncData.object = object := Option.map_eq_some_iff

theorem fastMatch_eq_some (found : fastMatch platform process thread object = some (data, lockCount)) :
    platform.supportDirectThreadKeys ∧ (process.threads thread).direct = some (data, lockCount) ∧
      process.object data = some object := by
  rw [fastMatch, Option.ite_none_right_eq_some] at found
  obtain ⟨direct, here⟩ := Option.filter_eq_some_iff.mp found.2
  exact ⟨found.1, direct, of_decide_eq_true here⟩

theorem fastMatch_eq_none (missing : fastMatch platform process thread object = none)
    (support : ¬platform.supportDirectThreadKeys → (process.threads thread).direct = none)
    (direct : (process.threads thread).direct = some (data, lockCount)) : process.object data ≠ some object := by
  intro here
  by_cases supported : platform.supportDirectThreadKeys
  · rw [fastMatch, if_pos supported, direct, Option.filter_some, if_pos (decide_eq_true here)] at missing
    exact nomatch missing
  · rw [support supported] at direct
    exact nomatch direct

theorem SyncCache.matches_eq_some (found : cache.matches process object = some ((data, lockCount), i)) :
    cache.list[i]? = some (data, lockCount) ∧ process.object data = some object := by
  have here := List.find?_some found
  exact ⟨List.mem_zipIdx_iff_getElem?.mp (List.mem_of_find?_eq_some found), of_decide_eq_true here⟩

theorem SyncCache.matches_eq_none (missing : cache.matches process object = none) (member : (data, lockCount) ∈ cache.list) :
    process.object data ≠ some object := by
  obtain ⟨i, at_i⟩ := List.mem_iff_getElem?.mp member
  have member : ((data, lockCount), i) ∈ cache.list.zipIdx := List.mem_zipIdx_iff_getElem?.mpr at_i
  simpa using List.find?_eq_none.mp missing _ member

theorem swapRemove_perm {α : Type} {list : List α} {a : α} (at_i : list[i]? = some a) : list.Perm (a :: swapRemove list i) := by
  obtain ⟨inside, eq⟩ := List.getElem?_eq_some_iff.mp at_i
  obtain ⟨init, last, rfl⟩ : ∃ init last, list = init ++ [last] :=
    ⟨_, _, (List.dropLast_concat_getLast (List.ne_nil_of_length_pos (Nat.zero_lt_of_lt inside))).symm⟩
  rw [swapRemove, List.getLast?_concat]
  rw [List.length_append, List.length_singleton] at inside
  by_cases final : i = init.length
  · subst final
    rw [List.getElem_concat_length rfl] at eq
    subst eq
    simp only [List.set_append_right _ _ (Nat.le_refl _), Nat.sub_self, List.set_cons_zero, List.dropLast_concat]
    exact List.perm_append_singleton _ _
  · have inside' : i < init.length := by omega
    rw [List.getElem_append_left inside'] at eq
    simp only [List.set_append_left _ _ inside', List.dropLast_concat]
    have split := List.take_append_drop i init
    rw [← List.cons_getElem_drop_succ (h := inside'), eq] at split
    rw [List.set_eq_take_append_cons_drop, if_pos inside']
    calc init ++ [last]
        _ = List.take i init ++ a :: List.drop (i + 1) init ++ [last] := by rw [split]
        _ |>.Perm (a :: (List.take i init ++ List.drop (i + 1) init ++ [last])) := by
          rw [List.append_assoc, List.append_assoc, List.cons_append]
          exact List.perm_middle
        _ |>.Perm (a :: (List.take i init ++ last :: List.drop (i + 1) init)) := by
          refine List.Perm.cons a ?_
          rw [List.append_assoc]
          exact (List.perm_append_singleton _ _).append_left _

end ObjcDyld.Synchronized

/-!
## The invariant of `SyncData`s

Between calls, a `SyncData` is recorded by the thread that has its mutex, and by no other; so its
`threadCount` is one, or zero if it is unused.
-/

namespace ObjcDyld.Synchronized

open KeyedLists (Updated keys mem_keys_iff mem_keys_of_mem updated_cons updated_append updated_set updated_of_perm_cons)

variable {platform : Platform} {process process' : Process} {holds : ℕ → ℕ → ℕ} {thread object data lockCount i : ℕ}
  {syncData syncData' : SyncData} {count : Option ℕ}

/-- How many times a thread has a mutex. -/
def RecursiveMutex.heldBy (mutex : RecursiveMutex) (thread : ℕ) : ℕ :=
  match mutex with
  | none => 0
  | some (owner, count) => if owner = thread then count else 0

/-- A `SyncData` whose mutex and records agree. -/
structure Settled (process : Process) (holds : ℕ → ℕ → ℕ) (data : ℕ) (syncData : SyncData) : Prop where
  counted : syncData.threadCount = if syncData.mutex.isSome then 1 else 0
  positive : ∀ thread count, syncData.mutex = some (thread, count) → 0 < count
  held : ∀ thread, holds thread syncData.object = syncData.mutex.heldBy thread
  recorded : ∀ thread count, (data, count) ∈ (process.threads thread).entries ↔ syncData.mutex = some (thread, count)

structure Inv (platform : Platform) (process : Process) (holds : ℕ → ℕ → ℕ) : Prop where
  objects : ∀ (data data' : ℕ) (syncData syncData' : SyncData), process.datas[data]? = some syncData →
    process.datas[data']? = some syncData' → syncData.object = syncData'.object → data = data'
  lists : ∀ stripe data, data ∈ process.sDataLists stripe ↔
    ∃ syncData, process.datas[data]? = some syncData ∧ platform.indexForPointer syncData.object = stripe
  settled : ∀ (data : ℕ) (syncData : SyncData), process.datas[data]? = some syncData → Settled process holds data syncData
  nodup : ∀ thread, (keys (process.threads thread).entries).Nodup
  inside : ∀ thread, ∀ entry ∈ (process.threads thread).entries, ∃ syncData, process.datas[entry.1]? = some syncData
  absent : ∀ object, (∀ (data : ℕ) (syncData : SyncData), process.datas[data]? = some syncData → syncData.object ≠ object) →
    ∀ thread, holds thread object = 0
  cacheOk : ∀ thread, CacheOk (process.threads thread).syncCache
  direct : ¬platform.supportDirectThreadKeys → ∀ thread, (process.threads thread).direct = none

theorem start_inv (platform : Platform) : Inv platform .start fun _ _ => 0 :=
  ⟨nofun, fun _ _ => iff_of_false nofun nofun, nofun, fun _ => List.nodup_nil, nofun, fun _ _ _ => rfl, nofun, fun _ _ => rfl⟩

/-- A thread has recorded a count for one `SyncData`, or none. -/
structure Recorded (platform : Platform) (process process' : Process) (thread data : ℕ) (count : Option ℕ) : Prop where
  updated : Updated (process.threads thread).entries (process'.threads thread).entries data count
  others : ∀ other, other ≠ thread → process'.threads other = process.threads other
  cacheOk : CacheOk (process'.threads thread).syncCache
  direct : ¬platform.supportDirectThreadKeys → (process'.threads thread).direct = none

theorem Inv.changed (inv : Inv platform process holds)
    (datas : ∀ other, process'.datas[other]? = if other = data then some syncData' else process.datas[other]?)
    (lists : ∀ stripe other, other ∈ process'.sDataLists stripe ↔
      ∃ syncData, process'.datas[other]? = some syncData ∧ platform.indexForPointer syncData.object = stripe)
    (recorded : Recorded platform process process' thread data count)
    (mutex : syncData'.mutex = count.map fun count => (thread, count)) (positive : ∀ count', count = some count' → 0 < count')
    (counted : syncData'.threadCount = if count.isSome then 1 else 0)
    (fresh : ∀ (other : ℕ) (syncData : SyncData), other ≠ data → process.datas[other]? = some syncData →
      syncData.object ≠ syncData'.object)
    (alone : ∀ other, other ≠ thread → holds other syncData'.object = 0 ∧ ∀ count, (data, count) ∉ (process.threads other).entries)
    (before : ∀ syncData, process.datas[data]? = some syncData → syncData.object ≠ syncData'.object →
      ∀ thread, holds thread syncData.object = 0) :
    Inv platform process' (Function.update holds thread (Function.update (holds thread) syncData'.object (count.getD 0))) := by
  have here : process'.datas[data]? = some syncData' := (datas data).trans (if_pos rfl)
  have there {other : ℕ} (different : other ≠ data) : process'.datas[other]? = process.datas[other]? :=
    (datas other).trans (if_neg different)
  have holds_here (other : ℕ) : Function.update holds thread (Function.update (holds thread) syncData'.object (count.getD 0)) other
      syncData'.object = syncData'.mutex.heldBy other := by
    rw [mutex]
    by_cases same : other = thread
    · subst same
      rw [Function.update_self, Function.update_self]
      cases count with
      | none => rfl
      | some count => exact (if_pos rfl).symm
    · rw [Function.update_of_ne same, (alone other same).1]
      cases count with
      | none => rfl
      | some count => exact (if_neg (Ne.symm same)).symm
  have holds_there {object : ℕ} (other : ℕ) (different : object ≠ syncData'.object) :
      Function.update holds thread (Function.update (holds thread) syncData'.object (count.getD 0)) other object =
        holds other object := by
    by_cases same : other = thread
    · subst same
      rw [Function.update_self, Function.update_of_ne different]
    · rw [Function.update_of_ne same]
  refine ⟨fun first second syncData syncData₂ at_first at_second same => ?_, lists, fun other syncData at_other => ?_,
    fun other => ?_, fun other entry member => ?_, fun object missing other => ?_, fun other => ?_, fun support other => ?_⟩
  · by_cases first_here : first = data
    · subst first_here
      obtain rfl := Option.some.inj (here.symm.trans at_first)
      by_contra different
      rw [there (Ne.symm different)] at at_second
      exact fresh second syncData₂ (Ne.symm different) at_second same.symm
    · by_cases second_here : second = data
      · subst second_here
        obtain rfl := Option.some.inj (here.symm.trans at_second)
        rw [there first_here] at at_first
        exact absurd same (fresh first syncData first_here at_first)
      · rw [there first_here] at at_first
        rw [there second_here] at at_second
        exact inv.objects first second syncData syncData₂ at_first at_second same
  · by_cases same : other = data
    · subst same
      obtain rfl := Option.some.inj (here.symm.trans at_other)
      refine ⟨?_, fun owner count' locked => ?_, holds_here, fun owner count' => ?_⟩
      · rw [counted, mutex, Option.isSome_map]
      · rw [mutex, Option.map_eq_some_iff] at locked
        obtain ⟨_, same, eq⟩ := locked
        obtain ⟨-, rfl⟩ := Prod.mk.inj eq
        exact positive _ same
      · by_cases mine : owner = thread
        · subst mine
          rw [recorded.updated.here, mutex]
          simp
        · rw [recorded.others owner mine, mutex]
          refine iff_of_false ((alone owner mine).2 count') fun locked => ?_
          obtain ⟨_, -, eq⟩ := Option.map_eq_some_iff.mp locked
          exact mine (Prod.mk.inj eq).1.symm
    · rw [there same] at at_other
      obtain ⟨counted', positive', held, recorded'⟩ := inv.settled other syncData at_other
      refine ⟨counted', positive', fun owner => ?_, fun owner count' => ?_⟩
      · rw [holds_there owner (fresh other syncData same at_other), held]
      · rw [← recorded']
        by_cases mine : owner = thread
        · subst mine
          exact recorded.updated.elsewhere other count' same
        · rw [recorded.others owner mine]
  · by_cases mine : other = thread
    · subst mine
      exact recorded.updated.nodup
    · rw [recorded.others other mine]
      exact inv.nodup other
  · by_cases same : entry.1 = data
    · exact ⟨syncData', same ▸ here⟩
    · rw [there same]
      by_cases mine : other = thread
      · subst mine
        exact inv.inside other entry ((recorded.updated.elsewhere entry.1 entry.2 same).mp member)
      · rw [recorded.others other mine] at member
        exact inv.inside other entry member
  · have different : object ≠ syncData'.object := fun same => missing data syncData' here same.symm
    rw [holds_there other different]
    by_cases old : ∃ syncData, process.datas[data]? = some syncData ∧ syncData.object = object
    · obtain ⟨syncData, at_data, rfl⟩ := old
      exact before syncData at_data different other
    · refine inv.absent object (fun another syncData at_another same => ?_) other
      by_cases where_ : another = data
      · exact old ⟨syncData, where_ ▸ at_another, same⟩
      · exact missing another syncData ((there where_).trans at_another) same
  · by_cases mine : other = thread
    · subst mine
      exact recorded.cacheOk
    · rw [recorded.others other mine]
      exact inv.cacheOk other
  · by_cases mine : other = thread
    · subst mine
      exact recorded.direct support
    · rw [recorded.others other mine]
      exact inv.direct support other

end ObjcDyld.Synchronized
