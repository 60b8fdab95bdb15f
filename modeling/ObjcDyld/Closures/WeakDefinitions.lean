import ObjcDyld.Closures.LoadedImages

/-!
# Weak definitions

`ClosureBuilder::findSymbol` for `BIND_SPECIAL_DYLIB_WEAK_LOOKUP` outside of cache building.
What a Mach-O image exports by itself is a parameter; local variables that the source does not
initialize have arbitrary values.
-/

namespace ObjcDyld.Closures

/-- `MachOLoaded::FoundSymbol` as far as the builder reads it. -/
structure FoundSymbol where
  absolute : Bool
  isWeakDef : Bool
  value : BitVec 64
deriving DecidableEq

/-- What the builder asks a `MachOAnalyzer`; `findExportedSymbol` follows no re-exports. -/
structure MachOAnalyzer where
  hasWeakDefs : Bool
  hasChainedFixups : Bool
  inDyldCache : Bool
  findExportedSymbol : String → Option FoundSymbol

/-- `ClosureBuilder` during launch: the images in load order, the Mach-O at each address, the cache. -/
structure ClosureBuilder where
  loadedImages : List BuilderLoadedImage
  machOAt : BitVec 64 → MachOAnalyzer
  dyldCache : BitVec 64

structure ResolvedTargetInfo where
  foundInDylib : Option (BitVec 64)
  requestedSymbolName : String
  foundSymbolName : Option String
  addend : BitVec 64
  weakBindCoalese : Bool
  weakBindSameImage : Bool
  isWeakDef : Bool
  skippableWeakDef : Bool
  libOrdinal : BitVec 32
deriving DecidableEq

namespace ResolvedSymbolTarget

/-- `Absolute`: the kind in the low bits, below the value. -/
def absolute (value : BitVec 64) : BitVec 64 := value.setWidth 62 ++ 3#2

/-- `SharedCache`; `none` when the assertion that the offset fits fails. -/
def sharedCache (offset : BitVec 64) : Option (BitVec 64) :=
  if (offset.setWidth 62).signExtend 64 = offset then some (offset.setWidth 62 ++ 1#2) else none

/-- `Image`; `none` when the assertion that the offset fits fails. -/
def image (imageNum : BitVec 32) (offset : BitVec 64) : Option (BitVec 64) :=
  if (offset.setWidth 40).signExtend 64 = offset then
    some (offset.setWidth 40 ++ imageNum.setWidth 22 ++ 2#2)
  else none

def sharedCacheOffset (raw : BitVec 64) : BitVec 64 := (raw.extractLsb' 2 62).signExtend 64

end ResolvedSymbolTarget

/-- `Closure::PatchEntry`. -/
structure PatchEntry where
  overriddenDylibInCache : BitVec 32
  exportCacheOffset : BitVec 32
  replacement : BitVec 64
deriving DecidableEq

namespace ClosureBuilder

variable (builder : ClosureBuilder)

def machO (li : BuilderLoadedImage) : MachOAnalyzer := builder.machOAt li.loadAddress

/-- The target of a symbol found in the image at an address; `none` when an assertion fails. -/
def targetOf (impDylib : BitVec 64) (foundInfo : FoundSymbol) (addend : BitVec 64) : Option (BitVec 64) :=
  if foundInfo.absolute then some (ResolvedSymbolTarget.absolute (foundInfo.value + addend))
  else if (builder.machOAt impDylib).inDyldCache then
    ResolvedSymbolTarget.sharedCache (impDylib - builder.dyldCache + foundInfo.value + addend)
  else
    match builder.loadedImages.find? fun li => li.loadAddress = impDylib with
    | none => none
    | some li => ResolvedSymbolTarget.image li.imageNum (foundInfo.value + addend)

/-- `findSymbolInImage` without re-exports: what it returns, and the target and the info after it. -/
def findSymbolInImage (macho : BitVec 64) (symbolName : String) (addend target : BitVec 64)
    (targetInfo : ResolvedTargetInfo) : Option (Bool × BitVec 64 × ResolvedTargetInfo) :=
  let targetInfo := { targetInfo with
    foundInDylib := none
    requestedSymbolName := symbolName
    addend := addend
    weakBindCoalese := false
    weakBindSameImage := false
    isWeakDef := false
    skippableWeakDef := false }
  match (builder.machOAt macho).findExportedSymbol symbolName with
  | none => some (false, target, targetInfo)
  | some foundInfo =>
      match builder.targetOf macho foundInfo addend with
      | none => none
      | some target =>
          some (true, target, { targetInfo with
            foundInDylib := some macho
            foundSymbolName := some symbolName
            isWeakDef := foundInfo.isWeakDef })

/-- The locals of the walk over the images. -/
structure WeakWalk where
  target : BitVec 64
  targetInfo : ResolvedTargetInfo
  foundWeakDefImpl : Bool
  foundStrongDefImpl : Bool
  foundImpl : Bool
  aTarget : BitVec 64
  aTargetInfo : ResolvedTargetInfo
  cachedDylibsUsingSymbol : List BuilderLoadedImage

def WeakWalk.found (walk : WeakWalk) (fromImage : BuilderLoadedImage) (hasChainedFixups : Bool)
    (aTarget : BitVec 64) (aTargetInfo : ResolvedTargetInfo) : WeakWalk :=
  let targetInfo :=
    if !hasChainedFixups && aTargetInfo.foundInDylib = some fromImage.loadAddress then
      { walk.targetInfo with weakBindSameImage := true }
    else walk.targetInfo
  let better := if aTargetInfo.isWeakDef then !walk.foundWeakDefImpl && !walk.foundStrongDefImpl
    else !walk.foundStrongDefImpl
  { walk with
    target := if better then aTarget else walk.target
    targetInfo := if better then aTargetInfo else targetInfo
    foundWeakDefImpl := walk.foundWeakDefImpl || aTargetInfo.isWeakDef
    foundStrongDefImpl := walk.foundStrongDefImpl || !aTargetInfo.isWeakDef
    foundImpl := true
    aTarget := aTarget
    aTargetInfo := aTargetInfo }

/-- `STACK_ALLOC_ARRAY` of 1024 entries. -/
def cachedDylibsCapacity : ℕ := 1024

/-- The end of a round: images of the cache are kept for patching; `none` when the array is full. -/
def WeakWalk.keepCached (walk : WeakWalk) (li : BuilderLoadedImage) (inDyldCache : Bool) : Option WeakWalk :=
  if walk.foundImpl && inDyldCache then
    if walk.cachedDylibsUsingSymbol.length < cachedDylibsCapacity then
      some { walk with cachedDylibsUsingSymbol := walk.cachedDylibsUsingSymbol ++ [li] }
    else none
  else some walk

def walkImage (fromImage : BuilderLoadedImage) (symbolName : String) (addend : BitVec 64) (walk : WeakWalk)
    (li : BuilderLoadedImage) : Option WeakWalk :=
  if (builder.machO li).hasWeakDefs && !li.rtldLocal then
    match builder.findSymbolInImage li.loadAddress symbolName addend walk.aTarget walk.aTargetInfo with
    | none => none
    | some (false, aTarget, aTargetInfo) =>
        { walk with aTarget := aTarget, aTargetInfo := aTargetInfo }.keepCached li (builder.machO li).inDyldCache
    | some (true, aTarget, aTargetInfo) =>
        (walk.found fromImage (builder.machO li).hasChainedFixups aTarget aTargetInfo).keepCached li
          (builder.machO li).inDyldCache
  else some walk

/-- A round of the loop that patches the images of the cache. -/
def patchCached (symbolName : String) (addend target : BitVec 64) (implInCache : BitVec 64)
    (implInCacheInfo : ResolvedTargetInfo) (patches : List PatchEntry) (li : BuilderLoadedImage) :
    Option (List PatchEntry) :=
  match builder.findSymbolInImage li.loadAddress symbolName addend implInCache implInCacheInfo with
  | none => none
  | some (false, _, _) => some patches
  | some (true, implInCache, _) =>
      if implInCache ≠ target then
        some (patches ++ [⟨li.imageNum, (ResolvedSymbolTarget.sharedCacheOffset implInCache).setWidth 32, target⟩])
      else some patches

/-- What `findSymbol` returns and leaves in its reference arguments, the overrides and the diagnostics. -/
structure SymbolLookup where
  result : Bool
  target : BitVec 64
  targetInfo : ResolvedTargetInfo
  weakDefCacheOverrides : List PatchEntry
  error : Bool

/-- The target and the info that `findSymbol` resets, and the locals of a weak lookup. -/
def WeakWalk.start (symbolName : String) (libOrdinal : BitVec 32) (targetInfo : ResolvedTargetInfo)
    (uninitializedTarget : BitVec 64) (uninitializedInfo : ResolvedTargetInfo) : WeakWalk where
  target := 0
  targetInfo := { targetInfo with
    weakBindCoalese := false
    weakBindSameImage := false
    isWeakDef := false
    skippableWeakDef := false
    requestedSymbolName := symbolName
    foundSymbolName := none
    libOrdinal := libOrdinal }
  foundWeakDefImpl := false
  foundStrongDefImpl := false
  foundImpl := false
  aTarget := uninitializedTarget
  aTargetInfo := uninitializedInfo
  cachedDylibsUsingSymbol := []

/-- What `findSymbol` returns after the walk. -/
def WeakWalk.lookup (walk : WeakWalk) (weakImport hasChainedFixups : Bool) (overrides : List PatchEntry) :
    SymbolLookup :=
  let targetInfo := { walk.targetInfo with weakBindCoalese := true }
  if walk.foundImpl then ⟨true, walk.target, targetInfo, overrides, false⟩
  else if weakImport then ⟨true, ResolvedSymbolTarget.absolute 0, targetInfo, overrides, false⟩
  else if !hasChainedFixups then ⟨true, walk.target, { targetInfo with skippableWeakDef := true }, overrides, false⟩
  else ⟨false, walk.target, targetInfo, overrides, true⟩

/-- `findSymbol` for a weak lookup; the uninitialized locals are arguments. -/
def findSymbolWeakLookup (fromImage : BuilderLoadedImage) (symbolName : String) (weakImport : Bool)
    (addend : BitVec 64) (libOrdinal : BitVec 32) (targetInfo : ResolvedTargetInfo)
    (weakDefCacheOverrides : List PatchEntry) (uninitializedTarget : BitVec 64)
    (uninitializedInfo : ResolvedTargetInfo) : Option SymbolLookup := do
  let walk ← builder.loadedImages.foldlM (builder.walkImage fromImage symbolName addend)
    (WeakWalk.start symbolName libOrdinal targetInfo uninitializedTarget uninitializedInfo)
  let overrides ← walk.cachedDylibsUsingSymbol.foldlM
    (builder.patchCached symbolName addend walk.target uninitializedTarget uninitializedInfo) weakDefCacheOverrides
  return walk.lookup weakImport (builder.machO fromImage).hasChainedFixups overrides

end ClosureBuilder

end ObjcDyld.Closures
