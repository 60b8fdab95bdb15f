import ObjcDyld.MethodCache.Calls

/-!
# Runs of a method cache

A cache answers every lookup from the insertions since it was last reallocated or
erased, after every sequence of calls in which it does not grow beyond what
`mask_t` can count.  With a 16-bit `mask_t` the growth to the maximum size asks
for a block of no buckets.
-/

namespace ObjcDyld.MethodCache

open Probing

variable {platform : Platform} {cls : ℕ} {runtime runtime' : Runtime} {known : Known} {bits : ℕ}

/-! ## What the invariant says -/

/-- The number of filled buckets, the end marker apart. -/
def Runtime.filledBuckets (platform : Platform) (runtime : Runtime) : ℕ :=
  ((Finset.range (runtime.cache.mask platform + 1)).filter
    fun i => 1 < (runtime.block.cells i).sel).card

/-- The cache is well formed and answers what is known. -/
structure CacheSound (platform : Platform) (cls : ℕ) (runtime : Runtime) (known : Known) : Prop where
  mask : ∃ bits, runtime.cache.mask platform + 1 = 2 ^ bits ∧ 2 ^ bits ≤ maxCacheSize
  inBounds : runtime.cache.mask platform < runtime.block.count
  occupied : runtime.cache.occupied = runtime.filledBuckets platform
  once : ∀ i j, i ≤ runtime.cache.mask platform → j ≤ runtime.cache.mask platform →
    Selector (runtime.block.cells i).sel →
    (runtime.block.cells i).sel = (runtime.block.cells j).sel → i = j
  unused : ∃ i, i ≤ runtime.cache.mask platform ∧ (runtime.block.cells i).sel = 0
  lookup : ∀ sel, Selector sel → cacheGetImp platform cls sel runtime = .ok (known sel)
  sharedEmpty : ∀ b, runtime.Shared platform b → ∀ i, (runtime.heap b).cells i = .zero

theorem Holds.filledBuckets (holds : Holds platform cls runtime known bits) :
    runtime.filledBuckets platform = runtime.cache.occupied := by
  have positive := Nat.two_pow_pos bits
  have counted := holds.occupied
  rw [Runtime.filledBuckets, holds.mask, Nat.sub_add_cancel positive]
  rw [occupancy] at counted
  have filled : ∀ i, (runtime.block.cells i).key.isSome ↔ (runtime.block.cells i).sel ≠ 0 := by
    intro i
    rw [Option.isSome_iff_ne_none, ne_eq, Bucket.key_eq_none]
  by_cases marker : platform.arch.cacheEndMarker = 1
  · have split : (Finset.range (2 ^ bits)).filter (fun i => (runtime.block.cells i).key.isSome) =
        Insert.insert (2 ^ bits - 1)
          ((Finset.range (2 ^ bits)).filter fun i => 1 < (runtime.block.cells i).sel) := by
      ext i
      have here := holds.endMarker i
      simp only [Finset.mem_filter, Finset.mem_range, Finset.mem_insert, filled, marker,
        true_and] at here ⊢
      constructor
      · rintro ⟨hi, ne⟩
        have := here hi
        omega
      · rintro (rfl | ⟨hi, real⟩)
        · have := here (by omega)
          omega
        · omega
    have last := (holds.endMarker (2 ^ bits - 1) (by omega)).mpr ⟨marker, rfl⟩
    rw [split, Finset.card_insert_of_notMem (by simp [last])] at counted
    omega
  · have same : (Finset.range (2 ^ bits)).filter (fun i => (runtime.block.cells i).key.isSome) =
        (Finset.range (2 ^ bits)).filter fun i => 1 < (runtime.block.cells i).sel := by
      refine Finset.filter_congr fun i hi => ?_
      have here := holds.endMarker i (Finset.mem_range.mp hi)
      simp only [marker, false_and, iff_false] at here
      rw [filled]
      omega
    rw [same] at counted
    have := platform.arch.cacheEndMarker_le
    omega

theorem Stands.cacheSound (stands : Stands platform cls runtime known) :
    CacheSound platform cls runtime known := by
  obtain ⟨shared, ⟨bits, holds⟩ | ⟨bits, forgotten⟩⟩ := stands
  · have positive := Nat.two_pow_pos bits
    have mask := holds.mask
    refine ⟨⟨bits, by omega, Nat.pow_le_pow_right (by decide) holds.le⟩, ?_,
      holds.filledBuckets.symm, fun i j hi hj selector same => ?_, ?_,
      fun sel selector => holds.cacheGetImp selector, shared.zero⟩
    · rw [holds.count]
      omega
    · have held := (Bucket.key_eq_some selector.ne_zero).mpr rfl
      exact holds.distinct i j (by omega) (by omega) _ _ held
        ((Bucket.key_eq_some selector.ne_zero).mpr same.symm) rfl
    · obtain ⟨i, hi, free⟩ := exists_free (holds.occupied.trans_lt holds.room)
      exact ⟨i, by omega, Bucket.key_eq_none.mp free⟩
  · have positive := Nat.two_pow_pos bits
    have mask := forgotten.mask
    have zero : ∀ i, (runtime.block.cells i).sel = 0 := fun i => by
      rw [Runtime.block, shared.zero _ forgotten.shared i]
      rfl
    refine ⟨⟨bits, by omega, Nat.pow_le_pow_right (by decide) forgotten.le⟩, ?_, ?_,
      fun i j _ _ selector _ => ?_, ⟨0, Nat.zero_le _, zero 0⟩, fun sel _ => ?_, shared.zero⟩
    · have := forgotten.count
      omega
    · rw [forgotten.occupied, Runtime.filledBuckets, eq_comm, Finset.card_eq_zero,
        Finset.filter_eq_empty_iff]
      intro i _
      rw [zero]
      decide
    · rw [zero] at selector
      exact absurd rfl selector.ne_zero
    · rw [forgotten.cacheGetImp shared, forgotten.nothing]

/-! ## Runs -/

theorem initial_stands (platform : Platform) (cls : ℕ) :
    Stands platform cls (.initial platform) fun _ => none := by
  have small : ∀ capacity, capacity ≤ 2 →
      platform.bytesForCapacity capacity ≤ platform.emptyBytes := by
    intro capacity le
    have bytes : platform.arch.sizeofBucket * capacity ≤ 16 * 2 :=
      Nat.mul_le_mul (by cases platform.arch <;> decide) le
    unfold Platform.bytesForCapacity Platform.emptyBytes
    split <;> omega
  have constant : ∀ capacity, capacity ≤ 2 →
      platform.arch.maskT ((Runtime.initial platform).cache.capacity platform) = capacity →
      (Runtime.initial platform).isConstantEmptyCache platform = true := by
    intro capacity le eq
    unfold Runtime.isConstantEmptyCache
    simp only [eq, emptyBucketsForCapacity, if_pos (small capacity le)]
    simp [Runtime.initial, initializeToEmpty]
  have count : ∀ capacity, capacity ≤ 2 → capacity ≤ (Runtime.initial platform).block.count := by
    intro capacity le
    rw [Runtime.block, show (Runtime.initial platform).cache.buckets = platform.objcEmptyCache from rfl,
      (Runtime.initial_sharedEmpty platform).base,
      Nat.le_div_iff_mul_le platform.arch.sizeofBucket_pos, Nat.mul_comm]
    exact small capacity le
  refine ⟨Runtime.initial_sharedEmpty platform, Or.inr ?_⟩
  have shared : (Runtime.initial platform).Shared platform
    (Runtime.initial platform).cache.buckets := Or.inl rfl
  by_cases low4 : platform.arch = .arm64_32
  · have mask : (Runtime.initial platform).cache.mask platform = 2 ^ 1 - 1 := by
      simp [Runtime.initial, initializeToEmpty, Cache.mask, low4, Arch.cacheMaskStorage]
    refine ⟨1, by decide, by simp [low4, Arch.maskBits, Arch.lp64], mask, constant 2 (by decide) ?_,
      shared, count 2 (by decide), Or.inr (by simp [low4, Arch.cacheEndMarker]), fun _ => rfl⟩
    rw [capacity_eq (by decide) mask]
    simp [low4, Arch.maskT, Arch.maskBits, Arch.lp64]
  · have mask : (Runtime.initial platform).cache.mask platform = 2 ^ 0 - 1 := by
      unfold Runtime.initial initializeToEmpty Cache.mask
      cases arch : platform.arch <;> simp_all [Arch.cacheMaskStorage]
    refine ⟨0, by decide, ?_, mask, constant 0 (by decide) ?_, shared, count 1 (by decide),
      Or.inl rfl, fun _ => rfl⟩
    · unfold Arch.maskBits
      split <;> decide
    · rw [capacity_eq (by decide) mask]
      exact Nat.zero_mod _

theorem Stands.runs (stands : Stands platform cls runtime known) (ops : List CacheOp)
    (legal : HoldsThroughout platform cls (CacheOp.Legal platform cls) ops runtime)
    (fits : HoldsThroughout platform cls (CacheOp.Fits platform) ops runtime) :
    ∃ runtime', ops.foldlM (CacheOp.run platform cls) runtime = .ok runtime' ∧
      Stands platform cls runtime' (knownAfter platform cls ops runtime known) := by
  induction ops generalizing runtime known with
  | nil => exact ⟨runtime, rfl, stands⟩
  | cons op ops ih =>
      obtain ⟨middle, run, stands'⟩ := stands.run op legal.1 fits.1
      have legal' := legal.2
      have fits' := fits.2
      rw [run] at legal' fits'
      rw [List.foldlM_cons, run, Loops.ok_bind, knownAfter, run]
      exact ih stands' legal' fits'

theorem HoldsThroughout.take {condition : Runtime → CacheOp → Prop} {ops : List CacheOp}
    (throughout : HoldsThroughout platform cls condition ops runtime) (n : ℕ) :
    HoldsThroughout platform cls condition (ops.take n) runtime := by
  induction ops generalizing runtime n with
  | nil => rwa [List.take_nil]
  | cons op ops ih =>
      cases n with
      | zero => trivial
      | succ n =>
          refine ⟨throughout.1, ?_⟩
          have rest := throughout.2
          cases run : op.run platform cls runtime with
          | ok runtime' =>
              rw [run] at rest
              exact ih rest n
          | error fault => trivial

/--
In every run in which the cache does not outgrow `mask_t`, every state that is reached is well
formed and answers the insertions since the last `reallocate` or erase.
-/
theorem runCacheOps_sound (platform : Platform) (cls : ℕ) (ops : List CacheOp)
    (legal : HoldsThroughout platform cls (CacheOp.Legal platform cls) ops (.initial platform))
    (fits : HoldsThroughout platform cls (CacheOp.Fits platform) ops (.initial platform)) (n : ℕ) :
    ∃ runtime, runCacheOps platform cls (ops.take n) = .ok runtime ∧
      CacheSound platform cls runtime
        (knownAfter platform cls (ops.take n) (.initial platform) fun _ => none) := by
  obtain ⟨runtime, run, stands⟩ :=
    (initial_stands platform cls).runs (ops.take n) (legal.take n) (fits.take n)
  exact ⟨runtime, run, stands.cacheSound⟩

/-- A release build for x86_64. -/
def x86Platform : Platform := ⟨.x86_64, false, none, 1, Nat.one_ne_zero⟩

/-- One selector is inserted twice and the cache is erased. -/
def eraseOps : List CacheOp := [.insert 5 100 16, .insert 5 200 32, .erase 48]

theorem runCacheOps_sound_eraseOps :
    ∃ runtime, runCacheOps x86Platform 7 (eraseOps.take 2) = .ok runtime ∧
      CacheSound x86Platform 7 runtime
        (knownAfter x86Platform 7 (eraseOps.take 2) (.initial x86Platform) fun _ => none) :=
  runCacheOps_sound x86Platform 7 eraseOps
    ⟨by decide, by decide, by decide, trivial⟩ ⟨Or.inl rfl, Or.inl rfl, trivial, trivial⟩ 2

end ObjcDyld.MethodCache
