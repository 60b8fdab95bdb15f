import ObjcDyld.MethodCache.Invariant

/-!
# The contents of a method cache

What a block of buckets that the cache owns says about the selectors inserted
since it was allocated, and how allocating such a block and filling one of its
buckets establish and keep it.
-/

namespace ObjcDyld.MethodCache

open Function (update update_self update_of_ne)
open Probing

variable {platform : Platform} {cls : ℕ} {runtime : Runtime} {known : Known}
  {bits sel imp address : ℕ}

/-- The cache owns a block of `2 ^ bits` buckets that holds what is known. -/
structure Holds (platform : Platform) (cls : ℕ) (runtime : Runtime) (known : Known) (bits : ℕ) :
    Prop where
  pos : 0 < bits
  le : bits ≤ 16
  narrow : bits < platform.arch.maskBits
  mask : runtime.cache.mask platform = 2 ^ bits - 1
  unshared : ¬ runtime.Shared platform runtime.cache.buckets
  ne_nil : runtime.cache.buckets ≠ 0
  count : runtime.block.count = 2 ^ bits
  endMarker : ∀ i, i < 2 ^ bits →
    ((runtime.block.cells i).sel = 1 ↔ platform.arch.cacheEndMarker = 1 ∧ i = 2 ^ bits - 1)
  occupied : occupancy Bucket.key (2 ^ bits) runtime.block.cells =
    runtime.cache.occupied + platform.arch.cacheEndMarker
  room : runtime.cache.occupied + platform.arch.cacheEndMarker < 2 ^ bits
  distinct : Distinct Bucket.key Eq (2 ^ bits) runtime.block.cells
  clustered : Clustered Bucket.key (platform.arch.cycle bits) (platform.arch.home bits)
    runtime.block.cells
  knows : ∀ sel, Selector sel → ∀ imp, known sel = some imp ↔
    ∃ i, i < 2 ^ bits ∧ (runtime.block.cells i).sel = sel ∧
      platform.imp (platform.bucketAddress runtime.cache.buckets i) (runtime.block.cells i) cls = imp
  used : 0 < runtime.cache.occupied ∨ ∀ sel, known sel = none

theorem Selector.ne_zero (selector : Selector sel) : sel ≠ 0 :=
  Nat.ne_of_gt (Nat.zero_lt_of_lt selector)

namespace Holds

theorem walkEnds (holds : Holds platform cls runtime known bits) (sel : ℕ) :
    ∃ d, WalkEnds Bucket.key (platform.arch.cycle bits) runtime.block.cells
      (platform.arch.cacheHash sel (2 ^ bits - 1)) (· = sel) d := by
  refine exists_walkEnds (platform.arch.cacheHash_lt sel bits) _ ?_
  rw [Arch.cycle_size, holds.occupied]
  exact holds.room

theorem slot_lt (start : ℕ) (d : ℕ) (inside : start < (platform.arch.cycle bits).size) :
    (platform.arch.cycle bits).slot start d < 2 ^ bits :=
  (Cycle.slot_lt _ inside d).trans_eq (platform.arch.cycle_size bits)

theorem absent (holds : Holds platform cls runtime known bits) (selector : Selector sel) {d : ℕ}
    (ends : WalkEnds Bucket.key (platform.arch.cycle bits) runtime.block.cells
      (platform.arch.cacheHash sel (2 ^ bits - 1)) (· = sel) d)
    (free : (runtime.block.cells ((platform.arch.cycle bits).slot
      (platform.arch.cacheHash sel (2 ^ bits - 1)) d)).sel = 0)
    (i : ℕ) (hi : i < 2 ^ bits) : (runtime.block.cells i).sel ≠ sel := by
  intro same
  have homes : ∀ k, k = sel → platform.arch.home bits k =
      platform.arch.cacheHash sel (2 ^ bits - 1) := by
    rintro k rfl
    exact Arch.home_selector selector
  exact ends.absent holds.clustered homes (Bucket.key_eq_none.mpr free)
    (hi.trans_eq (platform.arch.cycle_size bits).symm)
    ((Bucket.key_eq_some selector.ne_zero).mpr same) rfl

theorem known_none (holds : Holds platform cls runtime known bits) (selector : Selector sel)
    (absent : ∀ i, i < 2 ^ bits → (runtime.block.cells i).sel ≠ sel) : known sel = none := by
  rw [Option.eq_none_iff_forall_ne_some]
  intro imp eq
  obtain ⟨i, hi, same, -⟩ := (holds.knows sel selector imp).mp eq
  exact absent i hi same

theorem cacheGetImp (holds : Holds platform cls runtime known bits) (selector : Selector sel) :
    cacheGetImp platform cls sel runtime = .ok (known sel) := by
  obtain ⟨d, ends⟩ := holds.walkEnds sel
  have scanned := scan_of_walkEnds (Nat.le_of_eq holds.count.symm) ends
  unfold MethodCache.cacheGetImp
  rw [holds.mask, scanned, Loops.ok_bind]
  by_cases free : (runtime.block.cells ((platform.arch.cycle bits).slot
      (platform.arch.cacheHash sel (2 ^ bits - 1)) d)).sel = 0
  · rw [if_pos free, holds.known_none selector (holds.absent selector ends free)]
  · rw [if_neg free]
    have same := ends.stopped _ ((Bucket.key_eq_some free).mpr rfl)
    have inside := slot_lt _ d (platform.arch.cacheHash_lt sel bits)
    rw [(holds.knows sel selector _).mpr ⟨_, inside, same, rfl⟩]

/-! ## Filling a bucket -/

theorem fillBucket (holds : Holds platform cls runtime known bits) (selector : Selector sel)
    (code : imp ≠ cls) {d : ℕ}
    (room : runtime.cache.occupied + 1 + platform.arch.cacheEndMarker < 2 ^ bits)
    (ends : WalkEnds Bucket.key (platform.arch.cycle bits) runtime.block.cells
      (platform.arch.cacheHash sel (2 ^ bits - 1)) (· = sel) d)
    (free : (runtime.block.cells ((platform.arch.cycle bits).slot
      (platform.arch.cacheHash sel (2 ^ bits - 1)) d)).sel = 0) :
    let i := (platform.arch.cycle bits).slot (platform.arch.cacheHash sel (2 ^ bits - 1)) d
    Holds platform cls (fillBucket platform cls sel imp i runtime)
        (update known sel (some imp)) bits ∧
      (MethodCache.fillBucket platform cls sel imp i runtime).cache.occupied =
        runtime.cache.occupied + 1 := by
  intro i
  have empty : (runtime.block.cells i).sel = 0 := free
  obtain ⟨bucket, hbucket⟩ : ∃ bucket : Bucket, bucket = ⟨sel, platform.encodeImp
    (platform.bucketAddress runtime.cache.buckets i) imp sel cls⟩ := ⟨_, rfl⟩
  have inside : i < 2 ^ bits := slot_lt _ d (platform.arch.cacheHash_lt sel bits)
  have absent := holds.absent selector ends free
  have key : bucket.key = some sel := (Bucket.key_eq_some selector.ne_zero).mpr (by rw [hbucket])
  have freeKey : (runtime.block.cells i).key = none := Bucket.key_eq_none.mpr empty
  have block : (MethodCache.fillBucket platform cls sel imp i runtime).block =
      { runtime.block with cells := update runtime.block.cells i bucket } := by
    rw [hbucket]
    exact update_self ..
  have cells : (MethodCache.fillBucket platform cls sel imp i runtime).block.cells =
      update runtime.block.cells i bucket := congrArg Block.cells block
  have occupied : (MethodCache.fillBucket platform cls sel imp i runtime).cache.occupied =
      runtime.cache.occupied + 1 := by
    have bound : 2 ^ bits ≤ 2 ^ 16 := Nat.pow_le_pow_right (by decide) holds.le
    exact Nat.mod_eq_of_lt (by omega)
  refine ⟨⟨holds.pos, holds.le, holds.narrow, holds.mask, holds.unshared, holds.ne_nil,
    (congrArg Block.count block).trans holds.count, fun j hj => ?_, ?_, by rwa [occupied], ?_, ?_, fun sel' selector' imp' => ?_,
    Or.inl (by rw [occupied]; exact Nat.succ_pos _)⟩, occupied⟩
  · rw [cells]
    by_cases here : j = i
    · rw [here, update_self, hbucket, ← holds.endMarker i inside, empty]
      exact iff_of_false (Nat.ne_of_gt selector) (by decide)
    · rw [update_of_ne here]
      exact holds.endMarker j hj
  · rw [cells, occupied, occupancy_fill inside freeKey key, holds.occupied]
    omega
  · rw [cells]
    refine holds.distinct.fill (fun _ _ eq => eq.symm) i key ?_
    rintro j hj l held rfl
    exact absent j hj ((Bucket.key_eq_some selector.ne_zero).mp held)
  · rw [cells]
    rw [← Arch.home_selector selector] at ends
    have filled := holds.clustered.fill ends key
    rwa [Arch.home_selector selector] at filled
  · have buckets : (MethodCache.fillBucket platform cls sel imp i runtime).cache.buckets =
        runtime.cache.buckets := rfl
    rw [cells, buckets]
    by_cases same : sel' = sel
    · subst same
      rw [update_self, Option.some_inj]
      constructor
      · rintro rfl
        refine ⟨i, inside, ?_⟩
        rw [update_self, hbucket]
        exact ⟨rfl, Platform.imp_encodeImp code⟩
      · rintro ⟨j, hj, eq, rfl⟩
        by_cases here : j = i
        · rw [here, update_self, hbucket]
          exact (Platform.imp_encodeImp code).symm
        · rw [update_of_ne here] at eq
          exact absurd eq (absent j hj)
    · rw [update_of_ne same, holds.knows sel' selector' imp']
      refine exists_congr fun j => and_congr_right fun _ => ?_
      by_cases here : j = i
      · rw [here, update_self, hbucket, empty]
        exact iff_of_false (fun zero => selector'.ne_zero zero.1.symm)
          (fun new => same new.1.symm)
      · rw [update_of_ne here]

end Holds

/-! ## A new block -/

theorem allocateBuckets_eq (platform : Platform) {capacity : ℕ} (positive : capacity ≠ 0)
    (address : ℕ) (heap : Heap) :
    ∃ cells : ℕ → Bucket,
      allocateBuckets platform capacity address heap =
        .ok (update heap address ⟨capacity, cells⟩) ∧
      ∀ i, (cells i).sel =
        if platform.arch.cacheEndMarker = 1 ∧ i = capacity - 1 then 1 else 0 := by
  unfold allocateBuckets
  by_cases marker : platform.arch.cacheEndMarker = 1
  · rw [if_pos marker, if_neg positive]
    refine ⟨_, rfl, fun i => ?_⟩
    by_cases last : i = capacity - 1
    · simp [last, marker]
    · rw [update_of_ne last, if_neg fun both => last both.2]
      rfl
  · rw [if_neg marker]
    refine ⟨_, rfl, fun i => ?_⟩
    rw [if_neg fun both => marker both.1]
    rfl

theorem occupancy_new {cells : ℕ → Bucket} {marker : ℕ} (le : marker ≤ 1)
    (new : ∀ i, (cells i).sel = if marker = 1 ∧ i = 2 ^ bits - 1 then 1 else 0) :
    occupancy Bucket.key (2 ^ bits) cells = marker := by
  have before : ∀ i, i < 2 ^ bits - 1 → (cells i).key = none := by
    intro i hi
    rw [Bucket.key_eq_none, new, if_neg]
    omega
  have last : 2 ^ bits = 2 ^ bits - 1 + 1 := (Nat.sub_add_cancel (Nat.two_pow_pos bits)).symm
  rw [last]
  by_cases marked : marker = 1
  · have held : (cells (2 ^ bits - 1)).key = some 1 := by
      rw [Bucket.key_eq_some (by decide), new, if_pos ⟨marked, rfl⟩]
    rw [occupancy_succ_held held, occupancy_zero before, marked]
  · have free : (cells (2 ^ bits - 1)).key = none := by
      rw [Bucket.key_eq_none, new, if_neg fun both => marked both.1]
    rw [occupancy_succ_free free, occupancy_zero before]
    omega

theorem reallocate_holds (pos : 0 < bits) (le : bits ≤ 16)
    (narrow : bits < platform.arch.maskBits)
    (room : 1 + platform.arch.cacheEndMarker < 2 ^ bits)
    (shared : runtime.SharedEmpty platform) (fresh : runtime.Fresh platform address) (freeOld : Bool)
    (old : freeOld = true → ¬ runtime.Shared platform runtime.cache.buckets) :
    ∃ runtime', reallocate platform (2 ^ bits) freeOld address runtime = .ok runtime' ∧
      Holds platform cls runtime' (fun _ => none) bits ∧ runtime'.SharedEmpty platform ∧
      runtime'.cache.occupied = 0 := by
  obtain ⟨ne_nil, unshared, away⟩ := fresh
  have positive := Nat.two_pow_pos bits
  obtain ⟨cells, allocated, new⟩ := allocateBuckets_eq platform (Nat.ne_of_gt positive) address
    runtime.heap
  have newMask : platform.arch.maskT (2 ^ bits + 2 ^ platform.arch.maskBits - 1) = 2 ^ bits - 1 := by
    have below : 2 ^ bits < 2 ^ platform.arch.maskBits := Nat.pow_lt_pow_right (by decide) narrow
    rw [Arch.maskT, show 2 ^ bits + 2 ^ platform.arch.maskBits - 1 =
      2 ^ bits - 1 + 2 ^ platform.arch.maskBits by omega, Nat.add_mod_right]
    exact Nat.mod_eq_of_lt (by omega)
  unfold reallocate
  simp only [Arch.maskT_of_lt narrow (Nat.le_refl _), allocated, Loops.ok_bind, newMask]
  refine ⟨_, rfl, ?_, ?_, rfl⟩
  · -- `calloc` does not answer the block in use, so giving that back leaves the new one alone.
    have blockEq : Runtime.block
        { runtime with
          heap := if freeOld then cacheCollectFree runtime.cache.buckets
            (update runtime.heap address ⟨2 ^ bits, cells⟩)
            else update runtime.heap address ⟨2 ^ bits, cells⟩
          cache := setBucketsAndMask platform address (2 ^ bits - 1) } = ⟨2 ^ bits, cells⟩ := by
      cases freeOld with
      | false => exact update_self ..
      | true => exact (update_of_ne away ..).trans (update_self ..)
    have block := congrArg Block.cells blockEq
    have marker := platform.arch.cacheEndMarker_le
    refine ⟨pos, le, narrow, mask_setBucketsAndMask pos le address, unshared, ne_nil,
      congrArg Block.count blockEq, fun i _ => ?_, ?_, ?_, ?_, ?_, fun sel selector imp => ?_,
      Or.inr fun _ => rfl⟩
    · rw [block, new]
      split <;> simp_all
    · rw [block, occupancy_new marker new]
      exact (Nat.zero_add _).symm
    · change 0 + platform.arch.cacheEndMarker < 2 ^ bits
      omega
    · rw [block]
      rintro i j hi hj k _ heldI heldJ rfl
      simp only [Bucket.key, new] at heldI heldJ
      grind
    · rw [block]
      intro i hi k held
      simp only [Bucket.key, new] at held
      have last : i = 2 ^ bits - 1 ∧ k = 1 := by grind
      obtain ⟨rfl, rfl⟩ := last
      refine ⟨0, (platform.arch.cycle bits).size_pos, ?_, fun e he => absurd he (Nat.not_lt_zero e)⟩
      rw [Cycle.slot_zero, Arch.home, if_pos rfl]
    · refine iff_of_false (by simp) ?_
      rintro ⟨i, _, same, -⟩
      rw [block, new] at same
      unfold Selector at selector
      split at same <;> omega
  · refine shared.of_heap rfl fun b sharedB => ?_
    have ne : b ≠ address := fun eq => unshared (eq ▸ sharedB)
    cases freeOld with
    | false => exact update_of_ne ne ..
    | true =>
        have other : b ≠ runtime.cache.buckets := fun eq => old rfl (eq ▸ sharedB)
        exact (update_of_ne other ..).trans (update_of_ne ne ..)

end ObjcDyld.MethodCache
