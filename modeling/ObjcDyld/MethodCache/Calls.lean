import ObjcDyld.MethodCache.Contents

/-!
# The calls on a method cache

Each call keeps the invariant: the cache either owns its buckets and holds what
is known, or points to shared empty buckets and nothing is known.
-/

namespace ObjcDyld.MethodCache

open Function (update update_self update_of_ne)
open Probing

variable {platform : Platform} {cls : ℕ} {runtime runtime' : Runtime} {known : Known}
  {bits sel imp address : ℕ}

/-- The cache points to shared empty buckets and nothing is known. -/
structure Forgotten (platform : Platform) (runtime : Runtime) (known : Known) (bits : ℕ) : Prop where
  le : bits ≤ 16
  narrow : bits < platform.arch.maskBits
  mask : runtime.cache.mask platform = 2 ^ bits - 1
  constant : runtime.isConstantEmptyCache platform = true
  shared : runtime.Shared platform runtime.cache.buckets
  count : 2 ^ bits ≤ runtime.block.count
  room : bits = 0 ∨ 1 + platform.arch.cacheEndMarker < 2 ^ bits
  nothing : ∀ sel, known sel = none

/-- The invariant between calls. -/
structure Stands (platform : Platform) (cls : ℕ) (runtime : Runtime) (known : Known) : Prop where
  sharedEmpty : runtime.SharedEmpty platform
  cases : (∃ bits, Holds platform cls runtime known bits) ∨
    ∃ bits, Forgotten platform runtime known bits

/-! ## Telling owned from shared buckets -/

theorem emptyBucketsForCapacity_none (platform : Platform) (capacity : ℕ) (runtime : Runtime) :
    (emptyBucketsForCapacity platform capacity none runtime).1 = 0 ∨
      runtime.Shared platform (emptyBucketsForCapacity platform capacity none runtime).1 := by
  unfold emptyBucketsForCapacity
  by_cases small : platform.bytesForCapacity capacity ≤ platform.emptyBytes
  · rw [if_pos small]
    exact Or.inr (Or.inl rfl)
  simp only [if_neg small]
  by_cases short : runtime.emptyBucketsList.length ≤ Nat.log2 capacity
  · rw [if_pos short]
    exact Or.inl rfl
  · rw [if_neg short, List.getD_eq_getElem _ _ (Nat.lt_of_not_le short)]
    exact Or.inr (Or.inr (List.getElem_mem _))

theorem emptyBucketsForCapacity_congr (platform : Platform) (capacity : ℕ)
    (list : runtime'.emptyBucketsList = runtime.emptyBucketsList) :
    (emptyBucketsForCapacity platform capacity none runtime').1 =
      (emptyBucketsForCapacity platform capacity none runtime).1 := by
  unfold emptyBucketsForCapacity
  rw [list]
  split
  · rfl
  · dsimp only
    split <;> rfl

theorem Holds.isConstantEmptyCache (holds : Holds platform cls runtime known bits) :
    runtime.isConstantEmptyCache platform = false := by
  rw [Bool.eq_false_iff]
  intro constant
  unfold Runtime.isConstantEmptyCache at constant
  simp only [Bool.and_eq_true, beq_iff_eq] at constant
  rcases emptyBucketsForCapacity_none platform _ runtime with nil | shared
  · exact holds.ne_nil (constant.2.trans nil)
  · exact holds.unshared (constant.2 ▸ shared)

theorem Holds.capacity (holds : Holds platform cls runtime known bits) :
    runtime.cache.capacity platform = 2 ^ bits := by
  rw [capacity_eq holds.le holds.mask, if_neg (Nat.ne_of_gt holds.pos)]

theorem Holds.hasRoom (holds : Holds platform cls runtime known bits) :
    runtime.hasRoom platform = true ↔
      runtime.cache.occupied + 1 + platform.arch.cacheEndMarker ≤ 2 ^ bits / 4 * 3 := by
  have room := holds.room
  rw [Runtime.hasRoom, decide_eq_true_iff, holds.capacity,
    Arch.maskT_of_lt holds.narrow (by omega)]

theorem Forgotten.capacity (forgotten : Forgotten platform runtime known bits) :
    runtime.cache.capacity platform = if bits = 0 then 0 else 2 ^ bits :=
  capacity_eq forgotten.le forgotten.mask

theorem Forgotten.occupied (forgotten : Forgotten platform runtime known bits) :
    runtime.cache.occupied = 0 := by
  have constant := forgotten.constant
  unfold Runtime.isConstantEmptyCache at constant
  simp only [Bool.and_eq_true, beq_iff_eq] at constant
  exact constant.1

theorem Forgotten.cacheGetImp (forgotten : Forgotten platform runtime known bits)
    (shared : runtime.SharedEmpty platform) (sel : ℕ) :
    cacheGetImp platform cls sel runtime = .ok none := by
  have zero : ∀ i, (runtime.block.cells i).sel = 0 := fun i => by
    rw [Runtime.block, shared.zero _ forgotten.shared i]
    rfl
  have ends : WalkEnds Bucket.key (platform.arch.cycle bits) runtime.block.cells
      (platform.arch.cacheHash sel (2 ^ bits - 1)) (· = sel) 0 := by
    refine ⟨Cycle.size_pos _, fun e he => absurd he (Nat.not_lt_zero e), fun k held => ?_⟩
    rw [Bucket.key_eq_none.mpr (zero _)] at held
    cases held
  have scanned := scan_of_walkEnds forgotten.count ends
  unfold MethodCache.cacheGetImp
  rw [forgotten.mask, scanned, Loops.ok_bind, if_pos (zero _)]

/-! ## Insertion -/

theorem Forgotten.makeRoom (forgotten : Forgotten platform runtime known bits)
    (shared : runtime.SharedEmpty platform) (fresh : runtime.Fresh platform address) :
    ∃ bits' runtime', makeRoom platform address runtime = .ok (2 ^ bits', runtime') ∧
      bits' = (if bits = 0 then 2 else bits) ∧
      Holds platform cls runtime' (fun _ => none) bits' ∧ runtime'.SharedEmpty platform ∧
      runtime'.cache.occupied = 0 := by
  obtain ⟨bits', hbits'⟩ : ∃ bits', bits' = if bits = 0 then 2 else bits := ⟨_, rfl⟩
  have capacity : (if runtime.cache.capacity platform = 0 then initCacheSize
      else runtime.cache.capacity platform) = 2 ^ bits' := by
    rw [forgotten.capacity, hbits']
    by_cases zero : bits = 0
    · simp [zero, initCacheSize]
    · simp [zero]
  have marker := platform.arch.cacheEndMarker_le
  have wide : 16 ≤ platform.arch.maskBits := by
    unfold Arch.maskBits
    split <;> decide
  have room : 1 + platform.arch.cacheEndMarker < 2 ^ bits' := by
    rw [hbits']
    split
    · omega
    · exact forgotten.room.resolve_left ‹_›
  have shape : 0 < bits' ∧ bits' ≤ 16 ∧ bits' < platform.arch.maskBits := by
    have := forgotten.le
    have := forgotten.narrow
    rw [hbits']
    split <;> omega
  obtain ⟨runtime', run, holds, shared', occupied⟩ := reallocate_holds shape.1 shape.2.1 shape.2.2
    room shared fresh false (fun old => by cases old)
  refine ⟨bits', runtime', ?_, hbits', holds, shared', occupied⟩
  unfold MethodCache.makeRoom
  simp only [forgotten.constant, if_true, capacity, run, Loops.ok_bind]

theorem Holds.makeRoom_asIs (holds : Holds platform cls runtime known bits)
    (room : runtime.hasRoom platform = true) (address : ℕ) :
    makeRoom platform address runtime = .ok (2 ^ bits, runtime) := by
  unfold makeRoom
  simp only [holds.isConstantEmptyCache, room, if_true, holds.capacity, Bool.false_eq_true, if_false]

theorem grown_capacity (le : bits ≤ 16) :
    (if 2 ^ bits * 2 > maxCacheSize then maxCacheSize else 2 ^ bits * 2) = 2 ^ min (bits + 1) 16 := by
  rw [← Nat.pow_succ, maxCacheSize]
  by_cases top : bits = 16
  · subst top
    rw [if_pos (by decide), Nat.min_eq_right (by decide)]
  · have bound : 2 ^ (bits + 1) ≤ 2 ^ 16 := Nat.pow_le_pow_right (by decide) (by omega)
    rw [if_neg (by omega), Nat.min_eq_left (by omega)]

theorem Holds.makeRoom_grows (holds : Holds platform cls runtime known bits)
    (shared : runtime.SharedEmpty platform) (fresh : runtime.Fresh platform address)
    (full : runtime.hasRoom platform = false) (fits : min (bits + 1) 16 < platform.arch.maskBits) :
    ∃ runtime', makeRoom platform address runtime = .ok (2 ^ min (bits + 1) 16, runtime') ∧
      Holds platform cls runtime' (fun _ => none) (min (bits + 1) 16) ∧
      runtime'.SharedEmpty platform ∧ runtime'.cache.occupied = 0 := by
  have marker := platform.arch.cacheEndMarker_le
  have pos := holds.pos
  have four : 2 ^ 2 ≤ 2 ^ min (bits + 1) 16 := Nat.pow_le_pow_right (by decide) (by omega)
  obtain ⟨runtime', run, holds', shared', occupied⟩ := reallocate_holds
    (show 0 < min (bits + 1) 16 by omega) (by omega) fits (by omega) shared fresh true
    (fun _ => holds.unshared)
  refine ⟨runtime', ?_, holds', shared', occupied⟩
  unfold makeRoom
  simp only [holds.isConstantEmptyCache, full, if_false, holds.capacity, Bool.false_eq_true,
    Nat.ne_of_gt (Nat.two_pow_pos bits), grown_capacity holds.le, run, Loops.ok_bind]

theorem Holds.insert {kept : Known}
    (ready : makeRoom platform address runtime = .ok (2 ^ bits, runtime'))
    (holds : Holds platform cls runtime' kept bits) (shared : runtime'.SharedEmpty platform)
    (room : runtime'.cache.occupied + 1 + platform.arch.cacheEndMarker < 2 ^ bits)
    (selector : Selector sel) (code : imp ≠ cls) :
    ∃ runtime'', insert platform cls sel imp address runtime = .ok runtime'' ∧
      Holds platform cls runtime'' (update kept sel (some ((kept sel).getD imp))) bits ∧
      runtime''.SharedEmpty platform ∧
      (kept sel = none → runtime''.cache.occupied = runtime'.cache.occupied + 1) := by
  obtain ⟨d, ends⟩ := holds.walkEnds sel
  have scanned := scan_of_walkEnds (Nat.le_of_eq holds.count.symm) ends
  unfold MethodCache.insert
  simp only [ready, Loops.ok_bind,
    Arch.maskT_of_lt holds.narrow (Nat.sub_le (2 ^ bits) 1), scanned]
  by_cases free : (runtime'.block.cells ((platform.arch.cycle bits).slot
      (platform.arch.cacheHash sel (2 ^ bits - 1)) d)).sel = 0
  · simp only [if_pos free]
    have unknown := holds.known_none selector (holds.absent selector ends free)
    obtain ⟨filled, occupied⟩ := holds.fillBucket selector code room ends free
    refine ⟨_, rfl, ?_, shared.of_heap rfl fun b sharedB => ?_, fun _ => occupied⟩
    · rwa [unknown]
    · have ne : b ≠ runtime'.cache.buckets := fun eq => holds.unshared (eq ▸ sharedB)
      exact update_of_ne ne ..
  · simp only [if_neg free]
    have same := ends.stopped _ ((Bucket.key_eq_some free).mpr rfl)
    have inside := slot_lt _ d (platform.arch.cacheHash_lt sel bits)
    have present := (holds.knows sel selector _).mpr ⟨_, inside, same, rfl⟩
    refine ⟨runtime', rfl, ?_, shared, fun none => ?_⟩
    · rwa [present, Option.getD_some, ← present, Function.update_eq_self]
    · rw [none] at present
      cases present

theorem CacheOp.Fits.narrow {op : CacheOp} (fits : op.Fits platform runtime) (hop : op = .insert sel imp address)
    (holds : Holds platform cls runtime known bits) (full : runtime.hasRoom platform = false) :
    min (bits + 1) 16 < platform.arch.maskBits := by
  subst hop
  rcases fits with lp64 | small | constant | room
  · simp only [Arch.maskBits, lp64, if_true]
    omega
  · rw [holds.capacity] at small
    have bound : bits < 15 := (Nat.pow_lt_pow_iff_right (by decide)).mp small
    unfold Arch.maskBits
    split <;> omega
  · rw [holds.isConstantEmptyCache] at constant
    cases constant
  · rw [full] at room
    cases room

theorem Stands.insert (stands : Stands platform cls runtime known) (selector : Selector sel)
    (code : imp ≠ cls) (fresh : runtime.Fresh platform address)
    (fits : (CacheOp.insert sel imp address).Fits platform runtime) :
    ∃ runtime', insert platform cls sel imp address runtime = .ok runtime' ∧
      Stands platform cls runtime'
        ((CacheOp.insert sel imp address).remember platform runtime known) := by
  obtain ⟨shared, ⟨bits, holds⟩ | ⟨bits, forgotten⟩⟩ := stands
  · have pos := holds.pos
    cases room : runtime.hasRoom platform with
    | true =>
        have below := holds.hasRoom.mp room
        have positive := Nat.two_pow_pos bits
        obtain ⟨runtime', run, holds', shared', -⟩ := holds.insert (holds.makeRoom_asIs room address)
          shared (by omega) selector code
        refine ⟨runtime', run, shared', Or.inl ⟨bits, ?_⟩⟩
        rwa [CacheOp.remember, holds.isConstantEmptyCache, room]
    | false =>
        obtain ⟨middle, ready, empty, shared, occupied⟩ := holds.makeRoom_grows shared fresh room
          (fits.narrow rfl holds room)
        have marker := platform.arch.cacheEndMarker_le
        have four : 2 ^ 2 ≤ 2 ^ min (bits + 1) 16 := Nat.pow_le_pow_right (by decide) (by omega)
        obtain ⟨runtime', run, holds', shared', -⟩ := empty.insert ready shared
          (by omega) selector code
        refine ⟨runtime', run, shared', Or.inl ⟨min (bits + 1) 16, ?_⟩⟩
        rwa [CacheOp.remember, holds.isConstantEmptyCache, room]
  · obtain ⟨bits', middle, ready, hbits', empty, shared, occupied⟩ :=
      forgotten.makeRoom shared fresh
    have marker := platform.arch.cacheEndMarker_le
    have room : 0 + 1 + platform.arch.cacheEndMarker < 2 ^ bits' := by
      rw [hbits']
      rcases forgotten.room with zero | room
      · rw [if_pos zero]
        omega
      · split <;> omega
    obtain ⟨runtime', run, holds', shared', -⟩ := empty.insert ready shared
      (by rwa [occupied]) selector code
    refine ⟨runtime', run, shared', Or.inl ⟨bits', ?_⟩⟩
    rwa [CacheOp.remember, forgotten.constant]

/-! ## Erasing -/

theorem Holds.erase (holds : Holds platform cls runtime known bits)
    (shared : runtime.SharedEmpty platform) (fresh : runtime.Fresh platform address)
    (occupied : 0 < runtime.cache.occupied) :
    (cacheEraseNolock platform address runtime).SharedEmpty platform ∧
      Forgotten platform (cacheEraseNolock platform address runtime) (fun _ => none) bits := by
  have capacity : platform.arch.maskT (runtime.cache.capacity platform) = 2 ^ bits := by
    rw [holds.capacity]
    exact Arch.maskT_of_lt holds.narrow (Nat.le_refl _)
  obtain ⟨buckets, middle, eq, extends', shared', listed, again, count⟩ :=
    shared.emptyBucketsForCapacity fresh (2 ^ bits)
  unfold cacheEraseNolock
  simp only [capacity, if_pos (And.intro (Nat.two_pow_pos bits) occupied), eq]
  have unshared : ¬ middle.Shared platform runtime.cache.buckets := by
    intro sharedOld
    rcases extends'.shared_or sharedOld with before | eq
    · exact holds.unshared before
    · exact fresh.2.2 eq.symm
  have away : buckets ≠ runtime.cache.buckets := fun eq => unshared (eq ▸ listed)
  have mask : (setBucketsAndMask platform buckets (2 ^ bits - 1)).mask platform = 2 ^ bits - 1 :=
    mask_setBucketsAndMask holds.pos holds.le buckets
  have room := holds.room
  refine ⟨shared'.of_heap rfl fun b sharedB => ?_, holds.le, holds.narrow, mask, ?_, listed, ?_,
    Or.inr (by omega), fun _ => rfl⟩
  · have ne : b ≠ runtime.cache.buckets := fun eq => unshared (eq ▸ sharedB)
    exact update_of_ne ne ..
  · unfold Runtime.isConstantEmptyCache
    simp only [capacity_eq holds.le mask, if_neg (Nat.ne_of_gt holds.pos),
      Arch.maskT_of_lt holds.narrow (Nat.le_refl _), Bool.and_eq_true, beq_iff_eq]
    exact ⟨rfl, again.symm.trans (emptyBucketsForCapacity_congr platform (2 ^ bits) rfl)⟩
  · change 2 ^ bits ≤ (cacheCollectFree runtime.cache.buckets middle.heap buckets).count
    rw [cacheCollectFree, update_of_ne away]
    exact count bits rfl

theorem Stands.erase (stands : Stands platform cls runtime known)
    (fresh : runtime.Fresh platform address) :
    Stands platform cls (cacheEraseNolock platform address runtime) fun _ => none := by
  obtain ⟨shared, ⟨bits, holds⟩ | ⟨bits, forgotten⟩⟩ := stands
  · rcases Nat.eq_zero_or_pos runtime.cache.occupied with zero | positive
    · obtain rfl : known = fun _ => none :=
        funext (holds.used.resolve_left (by omega))
      rw [cacheEraseNolock, if_neg (by omega)]
      exact ⟨shared, Or.inl ⟨bits, holds⟩⟩
    · obtain ⟨shared', forgotten⟩ := holds.erase shared fresh positive
      exact ⟨shared', Or.inr ⟨bits, forgotten⟩⟩
  · obtain rfl : known = fun _ => none := funext forgotten.nothing
    rw [cacheEraseNolock, if_neg (by rw [forgotten.occupied]; omega)]
    exact ⟨shared, Or.inr ⟨bits, forgotten⟩⟩

/-! ## Other caches -/

theorem Stands.extends (stands : Stands platform cls runtime known)
    (fresh : runtime.Fresh platform address) (shared' : runtime'.SharedEmpty platform)
    (extends' : runtime'.Extends runtime address) : Stands platform cls runtime' known := by
  have block : runtime'.block = runtime.block := by
    rw [Runtime.block, extends'.cache]
    exact extends'.heap _ fresh.2.2.symm
  have cache := extends'.cache
  refine ⟨shared', ?_⟩
  obtain ⟨shared, ⟨bits, holds⟩ | ⟨bits, forgotten⟩⟩ := stands
  · have unshared : ¬ runtime'.Shared platform runtime'.cache.buckets := by
      rw [cache]
      intro sharedOld
      rcases extends'.shared_or sharedOld with before | eq
      · exact holds.unshared before
      · exact fresh.2.2 eq.symm
    refine Or.inl ⟨bits, ?_⟩
    obtain ⟨pos, le, narrow, mask, -, ne_nil, count, endMarker, occupied, room, distinct, clustered,
      knows, used⟩ := holds
    rw [← cache] at mask ne_nil occupied room used
    rw [← block] at count endMarker occupied distinct clustered
    refine ⟨pos, le, narrow, mask, unshared, ne_nil, count, endMarker, occupied, room, distinct,
      clustered, ?_, used⟩
    rwa [block, cache]
  · refine Or.inr ⟨bits, forgotten.le, forgotten.narrow, ?_,
      extends'.isConstantEmptyCache shared forgotten.shared forgotten.constant, ?_, ?_,
      forgotten.room, forgotten.nothing⟩
    · rw [cache]
      exact forgotten.mask
    · rw [cache]
      exact extends'.shared forgotten.shared
    · rw [block]
      exact forgotten.count

theorem Stands.run (stands : Stands platform cls runtime known) (op : CacheOp)
    (legal : op.Legal platform cls runtime) (fits : op.Fits platform runtime) :
    ∃ runtime', op.run platform cls runtime = .ok runtime' ∧
      Stands platform cls runtime' (op.remember platform runtime known) := by
  cases op with
  | insert sel imp address =>
      obtain ⟨selector, code, fresh⟩ := legal
      exact stands.insert selector code fresh fits
  | erase address => exact ⟨_, rfl, stands.erase legal⟩
  | emptyBuckets capacity address =>
      obtain ⟨_, runtime', eq, extends', shared', -⟩ :=
        stands.sharedEmpty.emptyBucketsForCapacity legal capacity
      refine ⟨runtime', ?_, stands.extends legal shared' extends'⟩
      rw [CacheOp.run, eq]

end ObjcDyld.MethodCache
