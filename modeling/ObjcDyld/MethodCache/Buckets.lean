import ObjcDyld.Common.Clusters
import ObjcDyld.Common.Loops

/-!
# Method cache buckets

The buckets of a class's method cache, the `cache_t` that points to them and the
read-only empty buckets that all caches share.  The cache is written under one
lock, so a state is a heap of bucket blocks together with the fields of one
`cache_t`.
-/

namespace ObjcDyld.MethodCache

open Function (update)

inductive Arch where
  | x86_64
  | i386
  | arm
  | arm64
  | arm64_32
  deriving DecidableEq, Repr

/-- `CACHE_MASK_STORAGE`. -/
inductive MaskStorage where
  | outlined
  | high16
  | low4
  deriving DecidableEq, Repr

namespace Arch

def lp64 : Arch → Bool
  | x86_64 | arm64 => true
  | i386 | arm | arm64_32 => false

/-- The width of `mask_t`. -/
def maskBits (arch : Arch) : ℕ := if arch.lp64 then 32 else 16

/-- Conversion to `mask_t`. -/
def maskT (arch : Arch) (n : ℕ) : ℕ := n % 2 ^ arch.maskBits

def cacheEndMarker : Arch → ℕ
  | x86_64 | i386 | arm => 1
  | arm64 | arm64_32 => 0

/-- `sizeof(bucket_t)`. -/
def sizeofBucket (arch : Arch) : ℕ := if arch.lp64 then 16 else 8

def cacheMaskStorage : Arch → MaskStorage
  | arm64 => .high16
  | arm64_32 => .low4
  | x86_64 | i386 | arm => .outlined

def cacheNext (arch : Arch) (mask i : ℕ) : ℕ :=
  if arch.cacheEndMarker = 1 then (i + 1) &&& mask else if i = 0 then mask else i - 1

def cacheHash (arch : Arch) (sel mask : ℕ) : ℕ := arch.maskT sel &&& mask

end Arch

/-- The signing intrinsics of a processor with pointer authentication. -/
structure PtrAuth where
  resign : ℕ → ℕ → ℕ
  auth : ℕ → ℕ → ℕ
  auth_resign : ∀ modifier imp, auth modifier (resign modifier imp) = imp
  resign_ne_zero : ∀ modifier imp, imp ≠ 0 → resign modifier imp ≠ 0

/-- What a build of the runtime fixes. -/
structure Platform where
  arch : Arch
  debug : Bool
  ptrauth : Option PtrAuth
  /-- The address of `_objc_empty_cache`. -/
  objcEmptyCache : ℕ
  objcEmptyCache_ne_nil : objcEmptyCache ≠ 0

def initCacheSize : ℕ := 4

def maxCacheSize : ℕ := 2 ^ 16

def Platform.emptyBytes (platform : Platform) : ℕ :=
  if platform.debug then (8 + 1) * 16 else (1024 + 1) * 16

/-- `cache_t::bytesForCapacity`. -/
def Platform.bytesForCapacity (platform : Platform) (cap : ℕ) : ℕ := platform.arch.sizeofBucket * cap

/-! ## Buckets -/

/-- `bucket_t`: a selector and an IMP as it is stored. -/
structure Bucket where
  sel : ℕ
  storedImp : ℕ
  deriving DecidableEq, Repr

/-- A bucket of zeroed memory. -/
def Bucket.zero : Bucket := ⟨0, 0⟩

/-- `modifierForSEL`; with pointer authentication the IMP comes first in a bucket. -/
def modifierForSEL (address sel cls : ℕ) : ℕ := address ^^^ sel ^^^ cls

/-- `bucket_t::encodeImp` for the bucket at `address`. -/
def Platform.encodeImp (platform : Platform) (address newImp newSel cls : ℕ) : ℕ :=
  if newImp = 0 then 0
  else match platform.ptrauth with
    | some ptrauth => ptrauth.resign (modifierForSEL address newSel cls) newImp
    | none => if platform.arch = .arm then newImp else newImp ^^^ cls

/-- `bucket_t::imp` of the bucket at `address`. -/
def Platform.imp (platform : Platform) (address : ℕ) (bucket : Bucket) (cls : ℕ) : ℕ :=
  if bucket.storedImp = 0 then 0
  else match platform.ptrauth with
    | some ptrauth => ptrauth.auth (modifierForSEL address bucket.sel cls) bucket.storedImp
    | none => if platform.arch = .arm then bucket.storedImp else bucket.storedImp ^^^ cls

/-- A block of buckets and how many of them are allocated. -/
structure Block where
  count : ℕ
  cells : ℕ → Bucket

def Block.calloc (count : ℕ) : Block := ⟨count, fun _ => .zero⟩

abbrev Heap := ℕ → Block

/-- The fields of `cache_t`; the mask in its stored form. -/
structure Cache where
  buckets : ℕ
  storedMask : ℕ
  occupied : ℕ
  deriving DecidableEq, Repr

/-- One class's cache, the blocks in memory and the static list of shared empty buckets. -/
structure Runtime where
  heap : Heap
  emptyBucketsList : List ℕ
  cache : Cache

inductive Fault where
  /-- `cache_t::bad_cache`. -/
  | badCache
  /-- A bucket outside of its block is read or written. -/
  | outOfBounds
  /-- The scan does not come back to where it began. -/
  | endless
  deriving DecidableEq, Repr

/-! ## The accessors of `cache_t` -/

def Platform.storeMask (platform : Platform) (mask : ℕ) : ℕ :=
  match platform.arch.cacheMaskStorage with
  | .outlined => mask
  | .high16 => mask % 2 ^ 16
  -- The number of leading zeroes in the last 16 bits of the mask.
  | .low4 => (31 - Nat.log2 mask) - (32 - 16)

/-- `cache_t::mask`. -/
def Cache.mask (platform : Platform) (cache : Cache) : ℕ :=
  match platform.arch.cacheMaskStorage with
  | .outlined | .high16 => cache.storedMask
  | .low4 => 0xffff >>> cache.storedMask

/-- `cache_t::capacity`. -/
def Cache.capacity (platform : Platform) (cache : Cache) : ℕ :=
  if cache.mask platform = 0 then 0 else (cache.mask platform + 1) % 2 ^ 32

/-- `cache_t::setBucketsAndMask`. -/
def setBucketsAndMask (platform : Platform) (newBuckets newMask : ℕ) : Cache :=
  ⟨newBuckets, platform.storeMask newMask, 0⟩

/-- `cache_t::initializeToEmpty`. -/
def initializeToEmpty (platform : Platform) : Cache where
  buckets := platform.objcEmptyCache
  -- With `LOW_4` the symbol's address has its four low bits set.
  storedMask := match platform.arch.cacheMaskStorage with
    | .low4 => 0xf
    | _ => 0
  occupied := 0

/-- A cache that was just initialized, before any shared buckets are allocated. -/
def Runtime.initial (platform : Platform) : Runtime where
  heap := update (fun _ => .calloc 0) platform.objcEmptyCache
    (.calloc (platform.emptyBytes / platform.arch.sizeofBucket))
  emptyBucketsList := []
  cache := initializeToEmpty platform

/-! ## Allocation -/

/-- `allocateBuckets`: `address` is what `calloc` answers. -/
def allocateBuckets (platform : Platform) (newCapacity address : ℕ) (heap : Heap) :
    Except Fault Heap :=
  if platform.arch.cacheEndMarker = 1 then
    if newCapacity = 0 then .error .outOfBounds
    else
      let endImp := if platform.arch = .arm then address - platform.arch.sizeofBucket else address
      .ok (update heap address
        ⟨newCapacity, update (fun _ => .zero) (newCapacity - 1) ⟨1, endImp⟩⟩)
  else .ok (update heap address (.calloc newCapacity))

/--
`emptyBucketsForCapacity`: the shared empty buckets of a capacity, or nil.
`allocate` is the address a new block gets, if one may be allocated.
-/
def emptyBucketsForCapacity (platform : Platform) (capacity : ℕ) (allocate : Option ℕ)
    (runtime : Runtime) : ℕ × Runtime :=
  if platform.bytesForCapacity capacity ≤ platform.emptyBytes then
    (platform.objcEmptyCache, runtime)
  else
    let index := Nat.log2 capacity
    if runtime.emptyBucketsList.length ≤ index then
      match allocate with
      | none => (0, runtime)
      | some newBuckets =>
          let list := runtime.emptyBucketsList ++
            List.replicate (index + 1 - runtime.emptyBucketsList.length) newBuckets
          (list.getD index 0,
            { runtime with
              heap := update runtime.heap newBuckets (.calloc capacity)
              emptyBucketsList := list })
    else (runtime.emptyBucketsList.getD index 0, runtime)

/-- `cache_t::isConstantEmptyCache`. -/
def Runtime.isConstantEmptyCache (platform : Platform) (runtime : Runtime) : Bool :=
  let capacity := platform.arch.maskT (runtime.cache.capacity platform)
  runtime.cache.occupied == 0 &&
    runtime.cache.buckets == (emptyBucketsForCapacity platform capacity none runtime).1

/-- `cache_collect_free`: the block is given back. -/
def cacheCollectFree (data : ℕ) (heap : Heap) : Heap :=
  update heap data { heap data with count := 0 }

/-- `cache_t::reallocate`: the old contents are not propagated. -/
def reallocate (platform : Platform) (newCapacity : ℕ) (freeOld : Bool) (address : ℕ)
    (runtime : Runtime) : Except Fault Runtime := do
  let newCapacity := platform.arch.maskT newCapacity
  let oldBuckets := runtime.cache.buckets
  let heap ← allocateBuckets platform newCapacity address runtime.heap
  let newMask := platform.arch.maskT (newCapacity + 2 ^ platform.arch.maskBits - 1)
  .ok { runtime with
    heap := if freeOld then cacheCollectFree oldBuckets heap else heap
    cache := setBucketsAndMask platform address newMask }

end ObjcDyld.MethodCache
