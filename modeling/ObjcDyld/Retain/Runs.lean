import ObjcDyld.Retain.Counter

/-!
# Runs of retains and releases

Every sequence of completed calls on one object answers as the plain counter
does, and leaves the object standing for it.
-/

namespace ObjcDyld.Retain

/-- A call on the object, with the outcomes of the exclusive stores it attempts. -/
inductive RetainOp where
  | retain (stores : List Bool)
  | tryRetain (stores : List Bool)
  | release (stores : List Bool)
  | changeIsa (newCls : Class) (stores : List Bool)
  | setWeaklyReferenced (stores : List Bool)
  | purge
  deriving DecidableEq, Repr

/-- What a call answers, where its answer tells something about the count. -/
inductive Answer where
  | retained (succeeded : Bool)
  | released (shouldDealloc : Bool)
  | done
  deriving DecidableEq, Repr

/-- One call on the object. -/
def RetainOp.run (arch : Arch) (classForIndex : ℕ → ℕ) (object : Object) :
    RetainOp → Answer × Object
  | .retain stores =>
      let (succeeded, object) := rootRetain arch false false stores object
      (.retained succeeded, object)
  | .tryRetain stores =>
      let (succeeded, object) := rootTryRetain arch stores object
      (.retained succeeded, object)
  | .release stores =>
      let result := rootRelease arch true false false stores object
      (.released result.shouldDealloc, result.object)
  | .changeIsa newCls stores => (.done, (Retain.changeIsa arch classForIndex newCls stores object).2)
  | .setWeaklyReferenced stores => (.done, Retain.setWeaklyReferenced stores object)
  | .purge => (.done, purgeRefcnt object)

/-- A sequence of calls: the answers in order, and the object after them. -/
def runRetainOps (arch : Arch) (classForIndex : ℕ → ℕ) :
    List RetainOp → Object → List Answer × Object
  | [], object => ([], object)
  | op :: ops, object =>
      let (answer, object) := op.run arch classForIndex object
      let (answers, object) := runRetainOps arch classForIndex ops object
      (answer :: answers, object)

/-- The same call on the counter: a retain that may fail fails when deallocation has started. -/
def RetainOp.count (counter : Counter) : RetainOp → Answer × Counter
  | .retain _ => (.retained true, counter.retain)
  | .tryRetain _ =>
      if counter.deallocating then (.retained false, counter) else (.retained true, counter.retain)
  | .release _ => (.released counter.release.1, counter.release.2)
  | _ => (.done, counter)

/-- A sequence of calls on the counter. -/
def countRetainOps : List RetainOp → Counter → List Answer × Counter
  | [], counter => ([], counter)
  | op :: ops, counter =>
      let (answer, counter) := op.count counter
      let (answers, counter) := countRetainOps ops counter
      (answer :: answers, counter)

/--
What the callers promise: the count stays below the pinning limit and is not released below zero,
and an object is not turned into a metaclass's instance, for which nothing is counted.
-/
def RetainOp.Allowed (arch : Arch) (counter : Counter) : RetainOp → Prop
  | .retain _ => counter.extent + 1 ≤ arch.pinningLimit
  | .tryRetain _ => counter.deallocating = false → counter.extent + 1 ≤ arch.pinningLimit
  | .release _ => 0 < counter.count
  | .changeIsa newCls _ => newCls.isMetaClass = false ∧ newCls.address ≠ 0
  | _ => True

/-- Every call of a sequence is allowed when its turn comes. -/
def AllowedRun (arch : Arch) : List RetainOp → Counter → Prop
  | [], _ => True
  | op :: ops, counter => op.Allowed arch counter ∧ AllowedRun arch ops (op.count counter).2

/-- The successful retains among the answers. -/
def retains (answers : List Answer) : ℕ := answers.count (.retained true)

def releases (answers : List Answer) : ℕ :=
  answers.count (.released true) + answers.count (.released false)

variable {arch : Arch} {object : Object} {counter : Counter}

theorem Counter.release_extent_le (positive : 0 < counter.count) :
    counter.release.2.extent ≤ counter.extent ∧ counter.release.2.count + 1 = counter.count := by
  unfold release extent
  split
  next last => simp [last.1, last.2]
  next => exact ⟨by simp, Nat.sub_add_cancel positive⟩

theorem Represents.run (stands : Represents arch object counter) (classForIndex : ℕ → ℕ)
    (op : RetainOp) (allowed : op.Allowed arch counter) (room : counter.extent ≤ arch.pinningLimit) :
    (op.run arch classForIndex object).1 = (op.count counter).1 ∧
      Represents arch (op.run arch classForIndex object).2 (op.count counter).2 ∧
        (op.count counter).2.extent ≤ arch.pinningLimit := by
  cases op with
  | retain stores =>
      obtain ⟨succeeded, after⟩ := stands.rootRetain false false stores nofun allowed
      refine ⟨congrArg Answer.retained succeeded, after, ?_⟩
      rw [RetainOp.count, Counter.retain_extent]
      exact allowed
  | tryRetain stores =>
      cases dying : counter.deallocating with
      | true =>
          have failed := stands.rootTryRetain_deallocating dying stores
          simp only [RetainOp.run, RetainOp.count, failed, dying, if_true]
          exact ⟨trivial, stands, room⟩
      | false =>
          obtain ⟨succeeded, after⟩ := stands.rootRetain true false stores (fun _ => dying)
            (allowed dying)
          simp only [RetainOp.run, RetainOp.count, dying, Bool.false_eq_true, if_false]
          refine ⟨congrArg Answer.retained succeeded, after, ?_⟩
          rw [Counter.retain_extent]
          exact allowed dying
  | release stores =>
      have released := stands.rootRelease true false false stores allowed
      refine ⟨congrArg Answer.released released.shouldDealloc, released.stands, ?_⟩
      exact (Counter.release_extent_le allowed).1.trans room
  | changeIsa newCls stores =>
      exact ⟨rfl, stands.changeIsa classForIndex stores allowed.1 allowed.2 room, room⟩
  | setWeaklyReferenced stores => exact ⟨rfl, stands.setWeaklyReferenced stores, room⟩
  | purge => exact ⟨rfl, stands.purgeRefcnt, room⟩

theorem Represents.runRetainOps (classForIndex : ℕ → ℕ) (ops : List RetainOp)
    (stands : Represents arch object counter) (allowed : AllowedRun arch ops counter)
    (room : counter.extent ≤ arch.pinningLimit) :
    (runRetainOps arch classForIndex ops object).1 = (countRetainOps ops counter).1 ∧
      Represents arch (runRetainOps arch classForIndex ops object).2 (countRetainOps ops counter).2 := by
  induction ops generalizing object counter with
  | nil => exact ⟨rfl, stands⟩
  | cons op ops ih =>
      obtain ⟨answer, after, room⟩ := stands.run classForIndex op allowed.1 room
      obtain ⟨answers, final⟩ := ih after allowed.2 room
      exact ⟨congrArg₂ List.cons answer answers, final⟩

theorem RetainOp.count_balance (op : RetainOp) (allowed : op.Allowed arch counter) :
    (op.count counter).2.count + releases [(op.count counter).1] =
      counter.count + retains [(op.count counter).1] := by
  cases op with
  | retain => rfl
  | tryRetain =>
      cases dying : counter.deallocating with
      | true => simp [RetainOp.count, dying, releases, retains]
      | false => simp [RetainOp.count, dying, releases, retains, Counter.retain]
  | release =>
      have := (Counter.release_extent_le allowed).2
      cases outcome : counter.release.1 <;> simp [RetainOp.count, releases, retains, outcome, this]
  | _ => rfl

theorem countRetainOps_balance (ops : List RetainOp) (allowed : AllowedRun arch ops counter) :
    (countRetainOps ops counter).2.count + releases (countRetainOps ops counter).1 =
      counter.count + retains (countRetainOps ops counter).1 := by
  induction ops generalizing counter with
  | nil => rfl
  | cons op ops ih =>
      have one := op.count_balance allowed.1
      have rest := ih allowed.2
      simp only [countRetainOps, releases, retains, List.count_cons, List.count_nil] at one rest ⊢
      omega

/-- An object that nothing else refers to yet. -/
structure Unshared (fields : IsaFields) : Prop where
  extraRC : fields.extraRC = 0
  hasSidetableRC : fields.hasSidetableRC = false
  deallocating : fields.deallocating = false

theorem Unshared.represents {fields : IsaFields} (unshared : Unshared fields) :
    Represents arch ⟨.nonpointer fields, none⟩ .fresh := by
  refine (represents_nonpointer rfl).mpr ⟨0, ?_, ⟨?_, ?_⟩, fun _ => rfl, unshared.deallocating, ?_⟩
  · rw [unshared.extraRC]
    exact Nat.two_pow_pos _
  · simp [packRefcnt]
  · cases arch <;> simp [packRefcnt, Arch.sideTableRCPinned, Arch.wordBits]
  · simp [unshared.extraRC, Counter.fresh, Counter.extent]

/--
Every sequence of calls on a new object with a nonpointer isa answers as the plain counter that
starts at one.  The object represents the counter's count, and one more once the deallocating bit
is set in place of the last decrement.
-/
theorem runRetainOps_counts (arch : Arch) (classForIndex : ℕ → ℕ) (fields : IsaFields)
    (ops : List RetainOp) (unshared : Unshared fields) (allowed : AllowedRun arch ops .fresh) :
    let (answers, object) := runRetainOps arch classForIndex ops ⟨.nonpointer fields, none⟩
    let counter := (countRetainOps ops .fresh).2
    answers = (countRetainOps ops .fresh).1 ∧
      counter.count + releases answers = 1 + retains answers ∧
      representedCount object = counter.count + counter.deallocating.toNat ∧
      rootRetainCount object = representedCount object ∧
      rootIsDeallocating object = counter.deallocating := by
  have fits : Counter.fresh.extent ≤ arch.pinningLimit := Nat.one_le_two_pow
  obtain ⟨answers, stands⟩ := unshared.represents.runRetainOps classForIndex ops allowed fits
  refine ⟨answers, ?_, stands.representedCount, ?_, stands.rootIsDeallocating⟩
  · rw [answers]
    exact countRetainOps_balance ops allowed
  · rw [stands.rootRetainCount, stands.representedCount]

/-- A class whose instances keep a nonpointer isa. -/
def ordinaryClass : Class := ⟨0x1000, 1, false, false, true, false⟩

def rawIsaClass : Class := { ordinaryClass with canAllocNonpointer := false }

/-- A metaclass that does not allow a nonpointer isa. -/
def rawMetaClass : Class := { rawIsaClass with isMetaClass := true }

/-- An object with a nonpointer isa as `initIsa` makes it, apart from its class. -/
def newObject (arch : Arch) : Object := ⟨.nonpointer arch.magicIsa, none⟩

/-- A run that retains, moves to a raw isa and releases both references. -/
def rawIsaOps : List RetainOp :=
  [.retain [false], .changeIsa rawIsaClass [], .purge, .release [], .release [], .tryRetain []]

theorem rawIsaOps_allowed : AllowedRun .x86_64 rawIsaOps .fresh := by
  simp [rawIsaOps, AllowedRun, RetainOp.Allowed, RetainOp.count, Counter.fresh, Counter.retain,
    Counter.release, Counter.extent, Arch.pinningLimit, Arch.wordBits, rawIsaClass, ordinaryClass]

theorem runRetainOps_counts_raw :
    let (answers, object) := runRetainOps .x86_64 id rawIsaOps (newObject .x86_64)
    let counter := (countRetainOps rawIsaOps .fresh).2
    answers = (countRetainOps rawIsaOps .fresh).1 ∧
      counter.count + releases answers = 1 + retains answers ∧
      representedCount object = counter.count + counter.deallocating.toNat ∧
      rootRetainCount object = representedCount object ∧
      rootIsDeallocating object = counter.deallocating :=
  runRetainOps_counts .x86_64 id (Arch.magicIsa .x86_64) rawIsaOps ⟨rfl, rfl, rfl⟩ rawIsaOps_allowed

/--
The represented count is not always one plus retains minus releases: it is still one after the
release that starts deallocation, and nothing is counted once a metaclass is the raw isa.
-/
theorem representedCount_differs :
    (let result := runRetainOps .x86_64 id [.release []] (newObject .x86_64)
     result.1 = [.released true] ∧ rootRetainCount result.2 = 1 ∧
       representedCount result.2 + releases result.1 ≠ 1 + retains result.1) ∧
    (let result := runRetainOps .x86_64 id [.changeIsa rawMetaClass [], .retain []] (newObject .x86_64)
     result.1 = [.done, .retained true] ∧ rootRetainCount result.2 = 1 ∧
       representedCount result.2 + releases result.1 ≠ 1 + retains result.1) := by
  decide +kernel

end ObjcDyld.Retain
