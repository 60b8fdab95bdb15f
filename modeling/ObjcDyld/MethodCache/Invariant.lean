import ObjcDyld.MethodCache.Insert

/-!
# The shared empty buckets

Every shared block stays zeroed and is large enough for the capacities it serves.
The list of blocks only grows, so a block that was handed out for a capacity is
recognised for that capacity ever after.
-/

namespace ObjcDyld.MethodCache

open Function (update update_self update_of_ne)

variable {platform : Platform} {runtime runtime' : Runtime} {address capacity : ℕ}

/-- The shared blocks are empty and as large as their users take them to be. -/
structure Runtime.SharedEmpty (platform : Platform) (runtime : Runtime) : Prop where
  zero : ∀ b, runtime.Shared platform b → ∀ i, (runtime.heap b).cells i = .zero
  base : (runtime.heap platform.objcEmptyCache).count =
    platform.emptyBytes / platform.arch.sizeofBucket
  listed : ∀ i b, runtime.emptyBucketsList[i]? = some b → 2 ^ i ≤ (runtime.heap b).count
  ne_nil : ∀ b, runtime.Shared platform b → b ≠ 0

/-- The list of shared blocks has grown, if at all, by a block at `address`. -/
structure Runtime.Extends (runtime' runtime : Runtime) (address : ℕ) : Prop where
  cache : runtime'.cache = runtime.cache
  list : ∃ n, runtime'.emptyBucketsList = runtime.emptyBucketsList ++ List.replicate n address
  heap : ∀ b, b ≠ address → runtime'.heap b = runtime.heap b

theorem Arch.sizeofBucket_pos (arch : Arch) : 0 < arch.sizeofBucket := by
  cases arch <;> decide

theorem Runtime.initial_sharedEmpty (platform : Platform) :
    (Runtime.initial platform).SharedEmpty platform := by
  refine ⟨fun b _ i => ?_, ?_, fun i b listed => ?_, fun b shared => ?_⟩
  · by_cases here : b = platform.objcEmptyCache
    · simp [here, Runtime.initial, Block.calloc]
    · simp [here, Runtime.initial, Block.calloc]
  · simp [Runtime.initial, Block.calloc]
  · simp [Runtime.initial] at listed
  · rcases shared with rfl | listed
    · exact platform.objcEmptyCache_ne_nil
    · simp [Runtime.initial] at listed

namespace Runtime.Extends

theorem refl (runtime : Runtime) (address : ℕ) : runtime.Extends runtime address :=
  ⟨rfl, ⟨0, by simp⟩, fun _ _ => rfl⟩

theorem shared (extends' : runtime'.Extends runtime address) {b : ℕ}
    (shared : runtime.Shared platform b) : runtime'.Shared platform b := by
  obtain ⟨n, list⟩ := extends'.list
  rcases shared with rfl | listed
  · exact Or.inl rfl
  · refine Or.inr ?_
    rw [list]
    exact List.mem_append_left _ listed

theorem shared_or (extends' : runtime'.Extends runtime address) {b : ℕ}
    (shared : runtime'.Shared platform b) : runtime.Shared platform b ∨ b = address := by
  obtain ⟨n, list⟩ := extends'.list
  rcases shared with rfl | listed
  · exact Or.inl (Or.inl rfl)
  · rw [list, List.mem_append, List.mem_replicate] at listed
    rcases listed with before | ⟨-, rfl⟩
    · exact Or.inl (Or.inr before)
    · exact Or.inr rfl

theorem emptyBuckets_eq (extends' : runtime'.Extends runtime address)
    (some : (emptyBucketsForCapacity platform capacity none runtime).1 ≠ 0) :
    (emptyBucketsForCapacity platform capacity none runtime').1 =
      (emptyBucketsForCapacity platform capacity none runtime).1 := by
  obtain ⟨n, list⟩ := extends'.list
  unfold emptyBucketsForCapacity at some ⊢
  by_cases small : platform.bytesForCapacity capacity ≤ platform.emptyBytes
  · rw [if_pos small, if_pos small]
  · simp only [if_neg small] at some ⊢
    by_cases short : runtime.emptyBucketsList.length ≤ Nat.log2 capacity
    · rw [if_pos short] at some
      exact absurd rfl some
    · rw [if_neg short, if_neg (by rw [list, List.length_append]; omega), list,
        List.getD_append _ _ _ _ (by omega)]

theorem isConstantEmptyCache (extends' : runtime'.Extends runtime address)
    (shared : runtime.SharedEmpty platform) (buckets : runtime.Shared platform runtime.cache.buckets)
    (constant : runtime.isConstantEmptyCache platform = true) :
    runtime'.isConstantEmptyCache platform = true := by
  unfold Runtime.isConstantEmptyCache at constant ⊢
  simp only [Bool.and_eq_true, beq_iff_eq, extends'.cache] at constant ⊢
  refine ⟨constant.1, ?_⟩
  rw [extends'.emptyBuckets_eq (constant.2 ▸ shared.ne_nil _ buckets)]
  exact constant.2

end Runtime.Extends

namespace Runtime.SharedEmpty

theorem of_heap (shared : runtime.SharedEmpty platform)
    (list : runtime'.emptyBucketsList = runtime.emptyBucketsList)
    (heap : ∀ b, runtime.Shared platform b → runtime'.heap b = runtime.heap b) :
    runtime'.SharedEmpty platform := by
  have same : ∀ b, runtime'.Shared platform b ↔ runtime.Shared platform b := fun b => by
    rw [Runtime.Shared, Runtime.Shared, list]
  refine ⟨fun b sharedB i => ?_, ?_, fun i b listed => ?_, fun b sharedB => ?_⟩
  · rw [heap b ((same b).mp sharedB)]
    exact shared.zero b ((same b).mp sharedB) i
  · rw [heap _ (Or.inl rfl)]
    exact shared.base
  · rw [list] at listed
    rw [heap b (Or.inr (List.mem_of_getElem? listed))]
    exact shared.listed i b listed
  · exact shared.ne_nil b ((same b).mp sharedB)

theorem extend (shared : runtime.SharedEmpty platform) (fresh : runtime.Fresh platform address)
    (extends' : runtime'.Extends runtime address) (new : runtime'.heap address = .calloc capacity)
    (large : ∀ i, i < runtime'.emptyBucketsList.length → 2 ^ i ≤ capacity) :
    runtime'.SharedEmpty platform := by
  obtain ⟨ne_nil, unshared, -⟩ := fresh
  have old : ∀ b, runtime.Shared platform b → runtime'.heap b = runtime.heap b :=
    fun b sharedB => extends'.heap b fun eq => unshared (eq ▸ sharedB)
  refine ⟨fun b sharedB i => ?_, ?_, fun i b at_i => ?_, fun b sharedB => ?_⟩
  · rcases extends'.shared_or sharedB with before | rfl
    · rw [old b before]
      exact shared.zero b before i
    · rw [new]
      rfl
  · rw [old _ (Or.inl rfl)]
    exact shared.base
  · have inside := (List.getElem?_eq_some_iff.mp at_i).1
    obtain ⟨n, list⟩ := extends'.list
    rw [list] at at_i
    by_cases before : i < runtime.emptyBucketsList.length
    · rw [List.getElem?_append_left before] at at_i
      rw [old b (Or.inr (List.mem_of_getElem? at_i))]
      exact shared.listed i b at_i
    · rw [List.getElem?_append_right (by omega)] at at_i
      rw [List.eq_of_mem_replicate (List.mem_of_getElem? at_i), new]
      exact large i inside
  · rcases extends'.shared_or sharedB with before | rfl
    · exact shared.ne_nil b before
    · exact ne_nil

theorem emptyBucketsForCapacity (shared : runtime.SharedEmpty platform)
    (fresh : runtime.Fresh platform address) (capacity : ℕ) :
    ∃ buckets runtime',
      MethodCache.emptyBucketsForCapacity platform capacity (some address) runtime =
        (buckets, runtime') ∧
      runtime'.Extends runtime address ∧ runtime'.SharedEmpty platform ∧
      runtime'.Shared platform buckets ∧
      (MethodCache.emptyBucketsForCapacity platform capacity none runtime').1 = buckets ∧
      ∀ bits, capacity = 2 ^ bits → 2 ^ bits ≤ (runtime'.heap buckets).count := by
  by_cases small : platform.bytesForCapacity capacity ≤ platform.emptyBytes
  · simp only [MethodCache.emptyBucketsForCapacity, if_pos small]
    refine ⟨_, _, rfl, .refl runtime address, shared, Or.inl rfl, rfl, ?_⟩
    rintro bits rfl
    rw [shared.base, Nat.le_div_iff_mul_le platform.arch.sizeofBucket_pos, Nat.mul_comm]
    exact small
  by_cases short : runtime.emptyBucketsList.length ≤ Nat.log2 capacity
  · simp only [MethodCache.emptyBucketsForCapacity, if_neg small, if_pos short]
    have positive : capacity ≠ 0 := by
      rintro rfl
      exact small (by simp [Platform.bytesForCapacity])
    obtain ⟨n, hn⟩ : ∃ n, n = Nat.log2 capacity + 1 - runtime.emptyBucketsList.length := ⟨_, rfl⟩
    have listed : (runtime.emptyBucketsList ++ List.replicate n address).getD (Nat.log2 capacity) 0 =
        address := by
      rw [List.getD_append_right _ _ _ _ short, List.getD_eq_getElem?_getD, List.getElem?_replicate,
        if_pos (by omega), Option.getD_some]
    have length : (runtime.emptyBucketsList ++ List.replicate n address).length =
        Nat.log2 capacity + 1 := by
      rw [List.length_append, List.length_replicate]
      omega
    simp only [← hn, listed]
    have extends' : Runtime.Extends
        { runtime with
          heap := update runtime.heap address (.calloc capacity)
          emptyBucketsList := runtime.emptyBucketsList ++ List.replicate n address }
        runtime address :=
      ⟨rfl, ⟨n, rfl⟩, fun b ne => update_of_ne ne ..⟩
    refine ⟨_, _, rfl, extends', shared.extend fresh extends' (update_self ..) fun i inside => ?_,
      Or.inr (List.mem_append_right _ (List.mem_replicate.mpr ⟨by omega, rfl⟩)), ?_, ?_⟩
    · have below : i ≤ Nat.log2 capacity := Nat.lt_succ_iff.mp (inside.trans_eq length)
      exact (Nat.pow_le_pow_right (by decide) below).trans (Nat.log2_self_le positive)
    · rw [if_neg (Nat.not_le_of_lt (Nat.lt_of_lt_of_eq (Nat.lt_succ_self _) length.symm))]
      exact listed
    · rintro bits rfl
      simp [Block.calloc]
  · simp only [MethodCache.emptyBucketsForCapacity, if_neg small, if_neg short]
    have inside : Nat.log2 capacity < runtime.emptyBucketsList.length := by omega
    have at_index := List.getElem?_eq_getElem inside
    rw [List.getD_eq_getElem?_getD, at_index, Option.getD_some]
    refine ⟨_, _, rfl, .refl runtime address, shared, Or.inr (List.getElem_mem inside), ?_, ?_⟩
    · rw [if_neg short, List.getD_eq_getElem _ _ inside]
    · rintro bits rfl
      have large := shared.listed _ _ at_index
      rwa [show 2 ^ Nat.log2 (2 ^ bits) = 2 ^ bits by rw [Nat.log2_two_pow]] at large

end Runtime.SharedEmpty

end ObjcDyld.MethodCache

/-!
## The invariant of a method cache

Between calls a cache either points to shared empty buckets or owns a block in
which every selector lies behind an unbroken run of filled buckets from its hash.
The end marker counts as a filled bucket whose home is the last one.
-/

namespace ObjcDyld.MethodCache

open Function (update update_self update_of_ne)
open Probing

variable {platform : Platform} {cls : ℕ} {runtime : Runtime} {known : Known}
  {bits sel imp address : ℕ}

/-! ## Masks and cycles -/

/-- The cycle that `cache_next` walks. -/
def Arch.cycle (arch : Arch) (bits : ℕ) : Cycle :=
  if arch.cacheEndMarker = 1 then increment bits else decrement bits

@[simp] theorem Arch.cycle_size (arch : Arch) (bits : ℕ) : (arch.cycle bits).size = 2 ^ bits := by
  rw [Arch.cycle]
  split <;> rfl

theorem Arch.cacheNext_eq (arch : Arch) (bits : ℕ) :
    arch.cacheNext (2 ^ bits - 1) = (arch.cycle bits).next := by
  funext i
  rw [Arch.cacheNext, Arch.cycle]
  split <;> rfl

theorem Arch.cacheHash_lt (arch : Arch) (sel bits : ℕ) :
    arch.cacheHash sel (2 ^ bits - 1) < (arch.cycle bits).size := by
  rw [cycle_size]
  exact home_lt _ bits

theorem Arch.cacheEndMarker_le (arch : Arch) : arch.cacheEndMarker ≤ 1 := by
  cases arch <;> decide

theorem Arch.maskT_of_lt {arch : Arch} (narrow : bits < arch.maskBits) {n : ℕ} (le : n ≤ 2 ^ bits) :
    arch.maskT n = n :=
  Nat.mod_eq_of_lt (Nat.lt_of_le_of_lt le (Nat.pow_lt_pow_right (by decide) narrow))

theorem low4_mask : ∀ bits : Fin 17, 0 < bits.val →
    0xffff >>> ((31 - Nat.log2 (2 ^ bits.val - 1)) - (32 - 16)) = 2 ^ bits.val - 1 := by
  decide

theorem mask_setBucketsAndMask (pos : 0 < bits) (le : bits ≤ 16) (buckets : ℕ) :
    (setBucketsAndMask platform buckets (2 ^ bits - 1)).mask platform = 2 ^ bits - 1 := by
  have bound : 2 ^ bits ≤ 2 ^ 16 := Nat.pow_le_pow_right (by decide) le
  unfold Cache.mask setBucketsAndMask Platform.storeMask
  cases platform.arch.cacheMaskStorage with
  | outlined => rfl
  | high16 =>
      have positive := Nat.two_pow_pos bits
      exact Nat.mod_eq_of_lt (by omega)
  | low4 => exact low4_mask ⟨bits, by omega⟩ pos

theorem capacity_eq {cache : Cache} (le : bits ≤ 16) (mask : cache.mask platform = 2 ^ bits - 1) :
    cache.capacity platform = if bits = 0 then 0 else 2 ^ bits := by
  have bound : 2 ^ bits ≤ 2 ^ 16 := Nat.pow_le_pow_right (by decide) le
  have positive := Nat.two_pow_pos bits
  rw [Cache.capacity, mask]
  by_cases zero : bits = 0
  · simp [zero]
  · have two : 2 ^ 1 ≤ 2 ^ bits := Nat.pow_le_pow_right (by decide) (Nat.one_le_iff_ne_zero.mpr zero)
    rw [if_neg (by omega), if_neg zero, Nat.sub_add_cancel positive]
    exact Nat.mod_eq_of_lt (by omega)

/-! ## Buckets -/

/-- The selector of a filled bucket. -/
def Bucket.key (bucket : Bucket) : Option ℕ := if bucket.sel = 0 then none else some bucket.sel

theorem Bucket.key_eq_none {bucket : Bucket} : bucket.key = none ↔ bucket.sel = 0 := by
  simp [Bucket.key]

theorem Bucket.key_eq_some {bucket : Bucket} (positive : sel ≠ 0) :
    bucket.key = some sel ↔ bucket.sel = sel := by
  rw [Bucket.key]
  split
  · simp only [false_iff, reduceCtorEq]
    omega
  · exact Option.some_inj

/-- Where the scan for a key begins; the end marker is looked for at its own place. -/
def Arch.home (arch : Arch) (bits sel : ℕ) : ℕ :=
  if sel = 1 then 2 ^ bits - 1 else arch.cacheHash sel (2 ^ bits - 1)

theorem Arch.home_selector {arch : Arch} (selector : Selector sel) :
    arch.home bits sel = arch.cacheHash sel (2 ^ bits - 1) :=
  if_neg (Nat.ne_of_gt selector)

theorem Platform.imp_encodeImp (ne : imp ≠ cls) :
    platform.imp address ⟨sel, platform.encodeImp address imp sel cls⟩ cls = imp := by
  unfold Platform.imp Platform.encodeImp
  by_cases nil : imp = 0
  · simp [nil]
  simp only [if_neg nil]
  cases platform.ptrauth with
  | some ptrauth =>
      simp only
      rw [if_neg (ptrauth.resign_ne_zero _ _ nil), ptrauth.auth_resign]
  | none =>
      by_cases raw : platform.arch = .arm
      · simp only [if_pos raw, if_neg nil]
      · simp only [if_neg raw]
        rw [if_neg (mt Nat.xor_eq_zero_iff.mp ne), Nat.xor_assoc, Nat.xor_self, Nat.xor_zero]

/-! ## The scan -/

theorem scan_of_walkEnds {block : Block} (count : 2 ^ bits ≤ block.count) {d : ℕ}
    (ends : WalkEnds Bucket.key (platform.arch.cycle bits) block.cells
      (platform.arch.cacheHash sel (2 ^ bits - 1)) (· = sel) d) :
    let i := (platform.arch.cycle bits).slot (platform.arch.cacheHash sel (2 ^ bits - 1)) d
    scan platform block sel (2 ^ bits - 1) =
      .ok (if (block.cells i).sel = 0 then .unused i else .present i) := by
  intro i
  have start := platform.arch.cacheHash_lt sel bits
  have inside : ∀ e, (platform.arch.cycle bits).slot
      (platform.arch.cacheHash sel (2 ^ bits - 1)) e < block.count := fun e =>
    Nat.lt_of_lt_of_le ((Cycle.slot_lt _ start e).trans_eq (platform.arch.cycle_size bits)) count
  have size : 2 ^ bits - 1 + 1 = (platform.arch.cycle bits).size := by
    rw [Nat.sub_add_cancel (Nat.two_pow_pos bits), Arch.cycle_size]
  rw [scan, platform.arch.cacheNext_eq, size, ends.probe start ?_ ?_]
  · rw [Block.visit, if_pos (inside d)]
    by_cases free : (block.cells i).sel = 0
    · rw [if_pos free, if_pos free]
    · rw [if_neg free, if_neg free, if_pos (ends.stopped _ ((Bucket.key_eq_some free).mpr rfl))]
  · intro e _ k held unwanted
    have ne : (block.cells ((platform.arch.cycle bits).slot
        (platform.arch.cacheHash sel (2 ^ bits - 1)) e)).sel ≠ 0 := by
      intro zero
      rw [Bucket.key_eq_none.mpr zero] at held
      cases held
    rw [Block.visit, if_pos (inside e), if_neg ne, if_neg]
    intro same
    rw [(Bucket.key_eq_some ne).mpr rfl] at held
    exact unwanted ((Option.some.inj held).symm.trans same)

end ObjcDyld.MethodCache
