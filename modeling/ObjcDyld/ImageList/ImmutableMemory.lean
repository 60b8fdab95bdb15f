import ObjcDyld.Common.Buckets
import ObjcDyld.SharedCache.Regions

/-!
# Immutable memory

`_dyld_is_memory_immutable` answers whether a range of memory stays mapped and is never written.
The ranges of images that are never unloaded are registered in buckets that only grow; a start of
zero marks a free slot.
-/

namespace ObjcDyld.ImageList

open WordRanges Buckets SharedCache

/-! ## The ranges -/

/-- A slot of `ImmutableRanges`. -/
structure ImmutableRange where
  start : BitVec 64
  rangeEnd : BitVec 64
  deriving DecidableEq, Repr

def ImmutableRange.isFree (slot : ImmutableRange) : Bool := slot.start == 0

def ImmutableRange.zero : ImmutableRange := ⟨0, 0⟩

/-- The initial `_immutableRanges`. -/
def initialRanges : List (List ImmutableRange) := [[.zero, .zero]]

/-- `addImmutableRange`; new buckets have fifteen slots. -/
def addImmutableRange (start rangeEnd : BitVec 64) (ranges : List (List ImmutableRange)) :
    List (List ImmutableRange) :=
  let newSize := 15
  insert ImmutableRange.isFree (⟨start, rangeEnd⟩ :: List.replicate (newSize - 1) .zero) ⟨start, rangeEnd⟩ ranges

theorem initialRanges_hold : Holds ImmutableRange.isFree initialRanges [] :=
  ⟨List.forall_mem_nil _, [.zero, .zero], rfl, by decide⟩

theorem addImmutableRange_holds {start rangeEnd : BitVec 64} {ranges : List (List ImmutableRange)}
    {entries : List ImmutableRange} (holds : Holds ImmutableRange.isFree ranges entries) (nonzero : start ≠ 0) :
    Holds ImmutableRange.isFree (addImmutableRange start rangeEnd ranges) (entries ++ [⟨start, rangeEnd⟩]) := by
  refine holds.insert (by simpa [ImmutableRange.isFree] using nonzero) ?_
  intro slot member
  rw [List.eq_of_mem_replicate member]
  rfl

/-! ## The images -/

/-- What `forEachDiskSegment` passes on of a segment. -/
structure DiskSegment where
  vmOffset : BitVec 64
  vmSize : BitVec 64
  permissions : BitVec 8
  deriving DecidableEq, Repr

def VM_PROT_READ : BitVec 8 := 1

def VM_PROT_WRITE : BitVec 8 := 2

def DiskSegment.readOnly (segment : DiskSegment) : Bool :=
  segment.permissions &&& (VM_PROT_READ ||| VM_PROT_WRITE) == VM_PROT_READ

structure LoadedImage where
  loadedAddress : BitVec 64
  /-- `inDyldCache` of the mapped header. -/
  headerInDyldCache : Bool
  /-- `inDyldCache` of the closure's image. -/
  inDyldCache : Bool
  neverUnload : Bool
  vmSizeToMap : BitVec 64
  diskSegments : List DiskSegment
  /-- No segment is mapped at the null page. -/
  mapped : ∀ segment ∈ diskSegments, loadedAddress + segment.vmOffset ≠ 0

/-- The ranges that `runImageNotifiers` registers for an image. -/
def LoadedImage.immutableRanges (li : LoadedImage) : List ImmutableRange :=
  if !li.inDyldCache && li.neverUnload then
    (li.diskSegments.filter DiskSegment.readOnly).map fun segment =>
      ⟨li.loadedAddress + segment.vmOffset, li.loadedAddress + segment.vmOffset + segment.vmSize⟩
  else []

theorem LoadedImage.start_ne_zero {li : LoadedImage} {range : ImmutableRange} (member : range ∈ li.immutableRanges) :
    range.start ≠ 0 := by
  unfold immutableRanges at member
  split at member
  · obtain ⟨segment, segmentMember, rfl⟩ := List.mem_map.mp member
    exact li.mapped segment (List.mem_filter.mp segmentMember).1
  · exact absurd member List.not_mem_nil

/-- The fields of `AllImages` that `immutableMemory` depends on. -/
structure AllImages where
  dyldCacheAddress : Option DyldSharedCache
  loadedImages : List LoadedImage
  lowestNonCached : BitVec 64
  highestNonCached : BitVec 64
  immutableRanges : List (List ImmutableRange)

namespace AllImages

def init (cache : Option DyldSharedCache) : AllImages :=
  { dyldCacheAddress := cache
    loadedImages := []
    lowestNonCached := 0
    highestNonCached := BitVec.allOnes 64
    immutableRanges := initialRanges }

/-- One image in the loop of `recomputeBounds`. -/
def widen (all : AllImages) (li : LoadedImage) : AllImages :=
  if li.headerInDyldCache then all
  else
    let start := li.loadedAddress
    let imageEnd := start + li.vmSizeToMap
    { all with
      lowestNonCached := if start < all.lowestNonCached then start else all.lowestNonCached
      highestNonCached := if imageEnd > all.highestNonCached then imageEnd else all.highestNonCached }

def recomputeBounds (all : AllImages) : AllImages :=
  all.loadedImages.foldl widen { all with lowestNonCached := BitVec.allOnes 64, highestNonCached := 0 }

def addImages (all : AllImages) (newImages : List LoadedImage) : AllImages :=
  let added := { all with loadedImages := all.loadedImages ++ newImages }
  if newImages.any fun li => !li.headerInDyldCache then added.recomputeBounds else added

/-- What `runImageNotifiers` does to the ranges. -/
def runImageNotifiers (all : AllImages) (newImages : List LoadedImage) : AllImages :=
  let ranges := newImages.flatMap LoadedImage.immutableRanges
  { all with
    immutableRanges := ranges.foldl (fun all range => addImmutableRange range.start range.rangeEnd all) all.immutableRanges }

/-- What `removeImages` does to the list of images. -/
def removeImages (all : AllImages) (unloadImages : List LoadedImage) : AllImages :=
  recomputeBounds { all with
    loadedImages := unloadImages.foldl
      (fun images uli => images.eraseP fun li => uli.loadedAddress == li.loadedAddress) all.loadedImages }

def immutableMemory (all : AllImages) (addr length : BitVec 64) : Bool :=
  match all.dyldCacheAddress.bind fun cache => cache.inCache addr length with
  | some readOnly => readOnly
  | none =>
      if addr < all.lowestNonCached || addr + length > all.highestNonCached then false
      else
        all.immutableRanges.any fun bucket =>
          (bucket.takeWhile fun slot => !slot.isFree).any fun range =>
            range.start ≤ addr && range.rangeEnd > addr + length

/-! ## Runs -/

inductive Step where
  | addImages (newImages : List LoadedImage)
  | runImageNotifiers (newImages : List LoadedImage)
  | removeImages (unloadImages : List LoadedImage)

def step (all : AllImages) : Step → AllImages
  | .addImages newImages => all.addImages newImages
  | .runImageNotifiers newImages => all.runImageNotifiers newImages
  | .removeImages unloadImages => all.removeImages unloadImages

def run (cache : Option DyldSharedCache) (steps : List Step) : AllImages := steps.foldl step (init cache)

def Step.registers : Step → List ImmutableRange
  | .runImageNotifiers newImages => newImages.flatMap LoadedImage.immutableRanges
  | .addImages _ | .removeImages _ => []

/-- All ranges that a run registers, in order. -/
def registered (steps : List Step) : List ImmutableRange := steps.flatMap Step.registers

@[simp] theorem widen_kept (all : AllImages) (li : LoadedImage) :
    (all.widen li).immutableRanges = all.immutableRanges ∧ (all.widen li).dyldCacheAddress = all.dyldCacheAddress := by
  unfold widen
  split <;> exact ⟨rfl, rfl⟩

theorem recomputeBounds_kept (all : AllImages) :
    all.recomputeBounds.immutableRanges = all.immutableRanges ∧
      all.recomputeBounds.dyldCacheAddress = all.dyldCacheAddress := by
  unfold recomputeBounds
  suffices ∀ (images : List LoadedImage) (start : AllImages),
      (images.foldl widen start).immutableRanges = start.immutableRanges ∧
        (images.foldl widen start).dyldCacheAddress = start.dyldCacheAddress from this all.loadedImages _
  intro images
  induction images with
  | nil => exact fun _ => ⟨rfl, rfl⟩
  | cons li images ih =>
      intro start
      rw [List.foldl_cons, (ih _).1, (ih _).2]
      exact widen_kept start li

variable {cache : Option DyldSharedCache} {steps : List Step}

theorem addImages_kept (all : AllImages) (newImages : List LoadedImage) :
    (all.addImages newImages).immutableRanges = all.immutableRanges ∧
      (all.addImages newImages).dyldCacheAddress = all.dyldCacheAddress := by
  rw [addImages]
  split
  · exact recomputeBounds_kept _
  · exact ⟨rfl, rfl⟩

theorem step_dyldCacheAddress (all : AllImages) (next : Step) :
    (all.step next).dyldCacheAddress = all.dyldCacheAddress := by
  cases next with
  | addImages newImages => exact (addImages_kept all newImages).2
  | runImageNotifiers newImages => rfl
  | removeImages unloadImages => exact (recomputeBounds_kept _).2

theorem run_dyldCacheAddress : (run cache steps).dyldCacheAddress = cache := by
  induction steps using List.reverseRecOn with
  | nil => rfl
  | append_singleton steps next ih =>
      rw [run, List.foldl_append, List.foldl_cons, List.foldl_nil, step_dyldCacheAddress]
      exact ih

theorem start_ne_zero_of_registers {next : Step} {range : ImmutableRange} (member : range ∈ next.registers) :
    range.start ≠ 0 := by
  cases next with
  | runImageNotifiers newImages =>
      obtain ⟨li, -, member⟩ := List.mem_flatMap.mp member
      exact li.start_ne_zero member
  | addImages newImages => exact absurd member List.not_mem_nil
  | removeImages unloadImages => exact absurd member List.not_mem_nil

theorem addImmutableRanges_hold {ranges : List (List ImmutableRange)} {entries : List ImmutableRange}
    (added : List ImmutableRange) (holds : Holds ImmutableRange.isFree ranges entries)
    (nonzero : ∀ range ∈ added, range.start ≠ 0) :
    Holds ImmutableRange.isFree (added.foldl (fun all range => addImmutableRange range.start range.rangeEnd all) ranges)
      (entries ++ added) := by
  induction added generalizing ranges entries with
  | nil => rwa [List.append_nil]
  | cons range added ih =>
      rw [List.forall_mem_cons] at nonzero
      rw [List.foldl_cons, List.append_cons]
      exact ih (addImmutableRange_holds holds nonzero.1) nonzero.2

theorem step_holds {all : AllImages} {entries : List ImmutableRange}
    (holds : Holds ImmutableRange.isFree all.immutableRanges entries) (next : Step) :
    Holds ImmutableRange.isFree (all.step next).immutableRanges (entries ++ next.registers) := by
  cases next with
  | addImages newImages =>
      rw [Step.registers, List.append_nil, step, (addImages_kept all newImages).1]
      exact holds
  | runImageNotifiers newImages =>
      exact addImmutableRanges_hold _ holds fun range member =>
        start_ne_zero_of_registers (show range ∈ Step.registers (.runImageNotifiers newImages) from member)
  | removeImages unloadImages =>
      rw [Step.registers, List.append_nil, step, removeImages, (recomputeBounds_kept _).1]
      exact holds

theorem run_holds : Holds ImmutableRange.isFree (run cache steps).immutableRanges (registered steps) := by
  induction steps using List.reverseRecOn with
  | nil => exact initialRanges_hold
  | append_singleton steps next ih =>
      rw [run, List.foldl_append, registered, List.flatMap_append, List.flatMap_singleton]
      exact step_holds ih next

/-! ## What the answer means -/

/-- The whole range is in one read-only region of the cache or in one registered range. -/
def Immutable (cache : Option DyldSharedCache) (ranges : List ImmutableRange) (addr length : BitVec 64) : Prop :=
  (∃ c ∈ cache, ∃ m ∈ c.mappings, m.readOnly ∧ extent addr length ⊆ c.memory m) ∨
    ∃ range ∈ ranges, extent addr length ⊆ Set.Ico range.start.toNat range.rangeEnd.toNat

/-- The region of the cache whose comparisons a range passes. -/
def regionOf (c : DyldSharedCache) (addr length : BitVec 64) : Option MappingInfo :=
  if addr < c.address ∨ addr - c.slide > c.linkedit.address + c.linkedit.size then none
  else c.region (addr - c.slide) (addr - c.slide + length)

/-- The unslid end of a range wraps around and is below the end of a read-only region. -/
def WrapsInRegion (cache : Option DyldSharedCache) (addr length : BitVec 64) : Prop :=
  ∃ c ∈ cache, Wraps (addr - c.slide) length ∧ ∃ m ∈ regionOf c addr length, m.readOnly

/-- The end of a range outside the cache wraps around and is below the end of a registered range. -/
def WrapsInRange (all : AllImages) (ranges : List ImmutableRange) (addr length : BitVec 64) : Prop :=
  Wraps addr length ∧ (∀ c ∈ all.dyldCacheAddress, regionOf c addr length = none) ∧
    all.lowestNonCached ≤ addr ∧ addr + length ≤ all.highestNonCached ∧
      ∃ range ∈ ranges, range.start ≤ addr ∧ addr + length < range.rangeEnd

theorem inCache_eq (c : DyldSharedCache) (addr length : BitVec 64) :
    c.inCache addr length = (regionOf c addr length).map MappingInfo.readOnly := by
  unfold DyldSharedCache.inCache regionOf
  by_cases below : addr < c.address
  · simp [below]
  · by_cases past : addr - c.slide > c.linkedit.address + c.linkedit.size
    · simp [below, past]
    · simp [below, past]

theorem immutableMemory_eq_true_iff {all : AllImages} {ranges : List ImmutableRange} {addr length : BitVec 64}
    (holds : Holds ImmutableRange.isFree all.immutableRanges ranges) :
    all.immutableMemory addr length = true ↔
      (∃ c ∈ all.dyldCacheAddress, ∃ m ∈ regionOf c addr length, m.readOnly) ∨
        ((∀ c ∈ all.dyldCacheAddress, regionOf c addr length = none) ∧
          all.lowestNonCached ≤ addr ∧ addr + length ≤ all.highestNonCached ∧
            ∃ range ∈ ranges, range.start ≤ addr ∧ addr + length < range.rangeEnd) := by
  have outside : (if addr < all.lowestNonCached || addr + length > all.highestNonCached then false
      else all.immutableRanges.any fun bucket =>
        (bucket.takeWhile fun slot => !slot.isFree).any fun range =>
          range.start ≤ addr && range.rangeEnd > addr + length) = true ↔
      all.lowestNonCached ≤ addr ∧ addr + length ≤ all.highestNonCached ∧
        ∃ range ∈ ranges, range.start ≤ addr ∧ addr + length < range.rangeEnd := by
    rw [← holds.visible_eq]
    simp only [visible, List.mem_flatMap, Bool.or_eq_true, decide_eq_true_eq, gt_iff_lt, ← BitVec.not_le]
    split
    · next out => exact iff_of_false (by simp) fun inside => out.elim (absurd inside.1) (absurd inside.2.1)
    · next inside =>
        rw [not_or, not_not, not_not] at inside
        simp only [inside, true_and, List.any_eq_true, Bool.and_eq_true, decide_eq_true_eq, BitVec.not_le]
        constructor
        · rintro ⟨bucket, member, range, seen, test⟩
          exact ⟨range, ⟨bucket, member, seen⟩, test⟩
        · rintro ⟨range, ⟨bucket, member, seen⟩, test⟩
          exact ⟨bucket, member, range, seen, test⟩
  rw [← outside, immutableMemory]
  cases all.dyldCacheAddress with
  | none => simp
  | some c =>
      rw [Option.bind_some, inCache_eq]
      cases found : regionOf c addr length with
      | none => simp [found]
      | some m => simp [found]

theorem regionOf_eq_some {c : DyldSharedCache} {m : MappingInfo} {addr length : BitVec 64}
    (found : regionOf c addr length = some m) :
    m ∈ c.mappings ∧ ¬addr < c.address ∧ m.holds (addr - c.slide) (addr - c.slide + length) := by
  unfold regionOf at found
  split at found
  · cases found
  · next inside =>
      rw [not_or] at inside
      rw [DyldSharedCache.region] at found
      have found' := List.find?_some found
      exact ⟨List.mem_of_find?_eq_some found, inside.1, found'⟩

theorem immutable_of_fits {all : AllImages} {ranges : List ImmutableRange} {addr length : BitVec 64}
    (holds : Holds ImmutableRange.isFree all.immutableRanges ranges)
    (answer : all.immutableMemory addr length = true)
    (fitsRegion : ¬WrapsInRegion all.dyldCacheAddress addr length) (fitsRange : ¬WrapsInRange all ranges addr length) :
    Immutable all.dyldCacheAddress ranges addr length := by
  rcases (immutableMemory_eq_true_iff holds).mp answer with ⟨c, cacheMember, m, found, readOnly⟩ | outside
  · have inside := regionOf_eq_some found
    have fits : ¬Wraps (addr - c.slide) length := fun wraps =>
      fitsRegion ⟨c, cacheMember, wraps, m, found, readOnly⟩
    exact Or.inl ⟨c, cacheMember, m, inside.1, readOnly,
      DyldSharedCache.subset_memory inside.1 inside.2.1 fits inside.2.2⟩
  · have fits : ¬Wraps addr length := fun wraps => fitsRange ⟨wraps, outside⟩
    obtain ⟨-, -, -, range, member, start, below⟩ := outside
    rw [BitVec.lt_def, toNat_end fits] at below
    exact Or.inr ⟨range, member, Set.Ico_subset_Ico (BitVec.le_def.mp start) (by omega)⟩

theorem not_immutable_of_wraps {ranges : List ImmutableRange} {addr length : BitVec 64}
    (wraps : Wraps addr length) : ¬Immutable cache ranges addr length := by
  rintro (⟨c, -, m, member, -, inside⟩ | ⟨range, -, inside⟩)
  · exact DyldSharedCache.not_subset_memory member wraps inside
  · have small := addr.isLt
    have small' := range.rangeEnd.isLt
    rw [Wraps] at wraps
    rw [extent, Set.Ico_subset_Ico_iff (by omega)] at inside
    omega

theorem wraps_of_unslid_wraps {c : DyldSharedCache} {addr length : BitVec 64} (above : ¬addr < c.address)
    (wraps : Wraps (addr - c.slide) length) : Wraps addr length := by
  have unslid := DyldSharedCache.unslid_toNat above
  rw [Wraps] at wraps ⊢
  omega

/--
After every run the registered ranges are all there, one by one and in order, and a positive answer
is sound unless it comes from comparing an end that wrapped around.
-/
theorem immutableMemory_sound_iff (cache : Option DyldSharedCache) (steps : List Step) :
    visible ImmutableRange.isFree (run cache steps).immutableRanges = registered steps ∧
      ∀ addr length : BitVec 64,
        ((run cache steps).immutableMemory addr length = true → Immutable cache (registered steps) addr length) ↔
          ¬(WrapsInRegion cache addr length ∨ WrapsInRange (run cache steps) (registered steps) addr length) := by
  have holds : Holds ImmutableRange.isFree (run cache steps).immutableRanges (registered steps) := run_holds
  have cacheEq : (run cache steps).dyldCacheAddress = cache := run_dyldCacheAddress
  refine ⟨holds.visible_eq, fun addr length => ⟨?_, ?_⟩⟩
  · rintro sound (⟨c, cacheMember, wraps, m, found, readOnly⟩ | ⟨wraps, outside⟩)
    · have answer := (immutableMemory_eq_true_iff holds).mpr
        (Or.inl ⟨c, by rwa [cacheEq], m, found, readOnly⟩)
      exact not_immutable_of_wraps (wraps_of_unslid_wraps (regionOf_eq_some found).2.1 wraps) (sound answer)
    · have answer : (run cache steps).immutableMemory addr length = true :=
        (immutableMemory_eq_true_iff holds).mpr (Or.inr outside)
      exact not_immutable_of_wraps wraps (sound answer)
  · intro fits answer
    rw [not_or] at fits
    have sound := immutable_of_fits holds answer (by rw [cacheEq]; exact fits.1) fits.2
    rwa [cacheEq] at sound

/-- The text of a program that is mapped at 4 GB. -/
def textSegments : List DiskSegment := [⟨0, 0x4000, VM_PROT_READ⟩]

theorem textSegments_mapped : ∀ segment ∈ textSegments, 0x100000000 + segment.vmOffset ≠ 0 := by decide

def mainExecutable : LoadedImage where
  loadedAddress := 0x100000000
  headerInDyldCache := false
  inDyldCache := false
  neverUnload := true
  vmSizeToMap := 0x8000
  diskSegments := textSegments
  mapped := textSegments_mapped

/-- A length of almost the whole address space wraps around to just below the start. -/
theorem not_sound_wrapped :
    let all := run none [.addImages [mainExecutable], .runImageNotifiers [mainExecutable]]
    all.immutableMemory 0x100001000 0xFFFFFFFFFFFFF000 = true ∧
      ¬Immutable none (registered [.addImages [mainExecutable], .runImageNotifiers [mainExecutable]])
        0x100001000 0xFFFFFFFFFFFFF000 :=
  ⟨by decide +kernel, not_immutable_of_wraps (by decide)⟩

end AllImages

end ObjcDyld.ImageList
