import ObjcDyld.MethodCache.Buckets

/-!
# Filling and erasing a method cache

`cache_t::insert`, `cache_erase_nolock` and the lookup of a selector, and the
sequences of calls that a cache lives through.
-/

namespace ObjcDyld.MethodCache

open Function (update)
open Probing

/-! ## The scan -/

/-- What the scan for a selector stops at. -/
inductive Sighting where
  | unused (i : ℕ)
  | present (i : ℕ)
  deriving DecidableEq, Repr

/-- One visit of the scan for `sel`. -/
def Block.visit (block : Block) (sel i : ℕ) (_displacement : ℕ) : Option (Except Fault Sighting) :=
  if i < block.count then
    if (block.cells i).sel = 0 then some (.ok (.unused i))
    else if (block.cells i).sel = sel then some (.ok (.present i))
    else none
  else some (.error .outOfBounds)

/-- The scan of `b` for `sel`, from `cache_hash` along `cache_next`. -/
def scan (platform : Platform) (block : Block) (sel m : ℕ) : Except Fault Sighting :=
  let start := platform.arch.cacheHash sel m
  match probe (platform.arch.cacheNext m) (block.visit sel) start (m + 1) start 0 with
  | .found result => result
  | .wrapped => .error .badCache
  | .exhausted => .error .endless

def Runtime.block (runtime : Runtime) : Block := runtime.heap runtime.cache.buckets

/-- The address of bucket `i`. -/
def Platform.bucketAddress (platform : Platform) (buckets i : ℕ) : ℕ :=
  buckets + platform.arch.sizeofBucket * i

/-- What a lookup of `sel` in the cache answers: the IMP of the bucket it finds, if any. -/
def cacheGetImp (platform : Platform) (cls sel : ℕ) (runtime : Runtime) :
    Except Fault (Option ℕ) := do
  match ← scan platform runtime.block sel (runtime.cache.mask platform) with
  | .unused _ => .ok none
  | .present i =>
      .ok (some (platform.imp (platform.bucketAddress runtime.cache.buckets i)
        (runtime.block.cells i) cls))

/-! ## Insertion -/

/-- Whether the cache is less than 3/4 full with one more bucket. -/
def Runtime.hasRoom (platform : Platform) (runtime : Runtime) : Bool :=
  platform.arch.maskT (runtime.cache.occupied + 1) + platform.arch.cacheEndMarker ≤
    runtime.cache.capacity platform / 4 * 3

/-- The first part of `cache_t::insert`: the capacity and the buckets to insert into. -/
def makeRoom (platform : Platform) (address : ℕ) (runtime : Runtime) :
    Except Fault (ℕ × Runtime) := do
  let oldCapacity := runtime.cache.capacity platform
  if runtime.isConstantEmptyCache platform then
    -- Cache is read-only. Replace it.
    let capacity := if oldCapacity = 0 then initCacheSize else oldCapacity
    let runtime ← reallocate platform capacity false address runtime
    .ok (capacity, runtime)
  else if runtime.hasRoom platform then
    .ok (oldCapacity, runtime)
  else
    let capacity := if oldCapacity = 0 then initCacheSize else oldCapacity * 2
    let capacity := if capacity > maxCacheSize then maxCacheSize else capacity
    let runtime ← reallocate platform capacity true address runtime
    .ok (capacity, runtime)

/-- `incrementOccupied` and `bucket_t::set` on bucket `i`. -/
def fillBucket (platform : Platform) (cls sel imp i : ℕ) (runtime : Runtime) : Runtime :=
  let buckets := runtime.cache.buckets
  let bucket : Bucket := ⟨sel, platform.encodeImp (platform.bucketAddress buckets i) imp sel cls⟩
  { runtime with
    heap := update runtime.heap buckets
      { runtime.block with cells := update runtime.block.cells i bucket }
    cache := { runtime.cache with occupied := (runtime.cache.occupied + 1) % 2 ^ 16 } }

/-- `cache_t::insert`. -/
def insert (platform : Platform) (cls sel imp address : ℕ) (runtime : Runtime) :
    Except Fault Runtime := do
  let (capacity, runtime) ← makeRoom platform address runtime
  let m := platform.arch.maskT (capacity - 1)
  match ← scan platform runtime.block sel m with
  | .unused i => .ok (fillBucket platform cls sel imp i runtime)
  -- The entry was added to the cache before.
  | .present _ => .ok runtime

/-! ## Erasing -/

def cacheEraseNolock (platform : Platform) (address : ℕ) (runtime : Runtime) : Runtime :=
  let capacity := platform.arch.maskT (runtime.cache.capacity platform)
  if capacity > 0 ∧ runtime.cache.occupied > 0 then
    let oldBuckets := runtime.cache.buckets
    let (buckets, runtime) := emptyBucketsForCapacity platform capacity (some address) runtime
    { runtime with
      heap := cacheCollectFree oldBuckets runtime.heap
      cache := setBucketsAndMask platform buckets (capacity - 1) }
  else runtime

/-! ## Runs -/

/--
A call on the cache with the address that `calloc` answers if it is asked;
`emptyBuckets` is a call of `emptyBucketsForCapacity` for another class's cache.
-/
inductive CacheOp where
  | insert (sel imp address : ℕ)
  | erase (address : ℕ)
  | emptyBuckets (capacity address : ℕ)
  deriving DecidableEq, Repr

def CacheOp.run (platform : Platform) (cls : ℕ) (runtime : Runtime) : CacheOp → Except Fault Runtime
  | .insert sel imp address => MethodCache.insert platform cls sel imp address runtime
  | .erase address => .ok (cacheEraseNolock platform address runtime)
  | .emptyBuckets capacity address =>
      .ok (emptyBucketsForCapacity platform capacity (some address) runtime).2

/-- A sequence of calls on a cache that was just initialized. -/
def runCacheOps (platform : Platform) (cls : ℕ) (ops : List CacheOp) : Except Fault Runtime :=
  ops.foldlM (CacheOp.run platform cls) (.initial platform)

/-- A block of buckets that several caches share. -/
def Runtime.Shared (platform : Platform) (runtime : Runtime) (buckets : ℕ) : Prop :=
  buckets = platform.objcEmptyCache ∨ buckets ∈ runtime.emptyBucketsList

instance (platform : Platform) (runtime : Runtime) (buckets : ℕ) :
    Decidable (runtime.Shared platform buckets) :=
  inferInstanceAs (Decidable (_ ∨ _))

/-- An address that `calloc` can answer: not nil and not that of a live block. -/
def Runtime.Fresh (platform : Platform) (runtime : Runtime) (address : ℕ) : Prop :=
  address ≠ 0 ∧ ¬ runtime.Shared platform address ∧ address ≠ runtime.cache.buckets

instance (platform : Platform) (runtime : Runtime) (address : ℕ) :
    Decidable (runtime.Fresh platform address) :=
  inferInstanceAs (Decidable (_ ∧ _))

/-- Selectors are addresses of names: neither nil nor the end marker's 1. -/
def Selector (sel : ℕ) : Prop := 1 < sel

/-- What the callers and the allocator promise; an IMP is never the class itself. -/
def CacheOp.Legal (platform : Platform) (cls : ℕ) (runtime : Runtime) : CacheOp → Prop
  | .insert sel imp address => Selector sel ∧ imp ≠ cls ∧ runtime.Fresh platform address
  | .erase address => runtime.Fresh platform address
  | .emptyBuckets _ address => runtime.Fresh platform address

instance (platform : Platform) (cls : ℕ) (runtime : Runtime) :
    (op : CacheOp) → Decidable (op.Legal platform cls runtime)
  | .insert sel imp address =>
      inferInstanceAs (Decidable (1 < sel ∧ imp ≠ cls ∧ runtime.Fresh platform address))
  | .erase address => inferInstanceAs (Decidable (runtime.Fresh platform address))
  | .emptyBuckets _ address => inferInstanceAs (Decidable (runtime.Fresh platform address))

/--
The cache is not about to grow from 2^15 to 2^16 buckets where `mask_t` has 16
bits.
-/
def CacheOp.Fits (platform : Platform) (runtime : Runtime) : CacheOp → Prop
  | .insert _ _ _ =>
      platform.arch.lp64 = true ∨ runtime.cache.capacity platform < 2 ^ 15 ∨
        runtime.isConstantEmptyCache platform = true ∨ runtime.hasRoom platform = true
  | _ => True

/-- A condition on every call of a run, in the state the call is made in. -/
def HoldsThroughout (platform : Platform) (cls : ℕ) (condition : Runtime → CacheOp → Prop) :
    List CacheOp → Runtime → Prop
  | [], _ => True
  | op :: ops, runtime =>
      condition runtime op ∧
        match op.run platform cls runtime with
        | .ok runtime' => HoldsThroughout platform cls condition ops runtime'
        | .error _ => True

/-- The selectors and IMPs that insertions have made known. -/
abbrev Known := ℕ → Option ℕ

/--
What is known after a call: `reallocate` and erasing forget everything, and the
first insertion of a selector counts.
-/
def CacheOp.remember (platform : Platform) (runtime : Runtime) (known : Known) : CacheOp → Known
  | .insert sel imp _ =>
      let reallocates := runtime.isConstantEmptyCache platform || !runtime.hasRoom platform
      let kept : Known := if reallocates then fun _ => none else known
      update kept sel (some ((kept sel).getD imp))
  | .erase _ => fun _ => none
  | .emptyBuckets _ _ => known

/-- The insertions since the last `reallocate` or erase of a run. -/
def knownAfter (platform : Platform) (cls : ℕ) : List CacheOp → Runtime → Known → Known
  | [], _, known => known
  | op :: ops, runtime, known =>
      match op.run platform cls runtime with
      | .ok runtime' => knownAfter platform cls ops runtime' (op.remember platform runtime known)
      | .error _ => known

end ObjcDyld.MethodCache
