import ObjcDyld.Common.Loops
import ObjcDyld.Common.Repeats

/-!
# Loaded images

The list of loaded images with the reference counts of `dlopen`, and the garbage
collection that `dlclose` starts.  The terminators that a collection runs may
open and close images; a collection that they ask for is done after the current one.
-/

namespace ObjcDyld.Unloading

open Loops Saturation

/-- `closure::Image`; weak links to missing images are left out of the dependents. -/
structure Image where
  imageNum : ℕ
  /-- The image of the dyld cache that this one replaces. -/
  overrideOf : Option ℕ
  neverUnload : Bool
  inDyldCache : Bool
  dependents : List ℕ
  /-- Dylibs in the cache should not be unloaded at runtime. -/
  cached : inDyldCache = true → neverUnload = true
  deriving DecidableEq

def Image.representsImageNum (image : Image) (num : ℕ) : Bool :=
  image.imageNum = num ∨ image.overrideOf = some num

structure LoadedImage where
  image : Image
  loadedAddress : ℕ
  deriving DecidableEq

/-- An image has another one among its dependents. -/
def LoadedImage.DependsOn (li lj : LoadedImage) : Prop :=
  ∃ num ∈ li.image.dependents, lj.image.representsImageNum num

instance (li lj : LoadedImage) : Decidable (li.DependsOn lj) :=
  inferInstanceAs (Decidable (∃ num ∈ li.image.dependents, lj.image.representsImageNum num = true))

structure DlopenCount where
  loadAddress : ℕ
  refCount : ℕ
  deriving DecidableEq, Repr

/-- What a collection does to images, in the order in which it is done. -/
inductive Event where
  | terminated (li : LoadedImage)
  | unloaded (li : LoadedImage)
  deriving DecidableEq

structure AllImages where
  loadedImages : List LoadedImage
  /-- The room of the growable array `_loadedImages`. -/
  allocCount : ℕ
  dlopenRefCounts : List DlopenCount
  gcCount : ℕ
  /-- The events of the last collection. -/
  events : List Event
  deriving DecidableEq

inductive Fault where
  /-- A pointer into `_loadedImages` is used after the array was moved. -/
  | dangling
  /-- `_gcCount` leaves its 32 bits. -/
  | overflow
  deriving DecidableEq, Repr

/-! ## Reference counts -/

def incRefCount (loadAddress : ℕ) : List DlopenCount → List DlopenCount
  | [] => [⟨loadAddress, 1⟩]
  | entry :: entries =>
      if entry.loadAddress = loadAddress then
        { entry with refCount := entry.refCount + 1 } :: entries
      else entry :: incRefCount loadAddress entries

/-- The counts after `decRefCount`, and whether to collect. -/
def decRefCount (loadAddress : ℕ) : List DlopenCount → List DlopenCount × Bool
  | [] => ([], false)
  | entry :: entries =>
      if entry.loadAddress = loadAddress then
        if entry.refCount - 1 = 0 then (entries, true)
        else ({ entry with refCount := entry.refCount - 1 } :: entries, false)
      else
        let (entries, doCollect) := decRefCount loadAddress entries
        (entry :: entries, doCollect)

def refCountIn (entries : List DlopenCount) (loadAddress : ℕ) : ℕ :=
  match entries with
  | [] => 0
  | entry :: entries =>
      if entry.loadAddress = loadAddress then entry.refCount
      else refCountIn entries loadAddress

def AllImages.refCount (all : AllImages) : ℕ → ℕ := refCountIn all.dlopenRefCounts

/-! ## Calls -/

/-- `GrowableArray::append`, as far as the room is concerned. -/
def grownCount (allocCount usedCount : ℕ) : ℕ :=
  if usedCount > allocCount then (usedCount + 15) / 16 * 16 else allocCount

/-- A call, with what the closure builder and the loader made of it. -/
inductive Call where
  /-- `dlopen` of an image that is already loaded. -/
  | dlopenLoaded (loadedAddress : ℕ)
  /-- `dlopen` that loads an image, and its dependents that are not loaded yet. -/
  | dlopenNew (top : LoadedImage) (others : List LoadedImage)
  | dlclose (loadedAddress : ℕ)
  deriving DecidableEq

namespace AllImages

variable (all : AllImages)

def imageMappedAt (loadedAddress : ℕ) : Option LoadedImage :=
  all.loadedImages.find? fun li => li.loadedAddress = loadedAddress

/-- The counts and images after a call, and whether to collect. -/
def call : Call → AllImages × Bool
  | .dlopenLoaded loadedAddress =>
      match all.imageMappedAt loadedAddress with
      | none => (all, false)
      | some li =>
          if li.image.inDyldCache then (all, false)
          else ({ all with dlopenRefCounts := incRefCount loadedAddress all.dlopenRefCounts }, false)
  | .dlopenNew top others =>
      let dlopenRefCounts :=
        if top.image.inDyldCache then all.dlopenRefCounts
        else incRefCount top.loadedAddress all.dlopenRefCounts
      let loadedImages := all.loadedImages ++ top :: others
      let allocCount := grownCount all.allocCount loadedImages.length
      ({ all with loadedImages, allocCount, dlopenRefCounts }, false)
  | .dlclose loadedAddress =>
      match all.imageMappedAt loadedAddress with
      | none => (all, false)
      | some li =>
          if li.image.neverUnload then (all, false)
          else
            let (dlopenRefCounts, doCollect) := decRefCount loadedAddress all.dlopenRefCounts
            ({ all with dlopenRefCounts }, doCollect)

/-- A call during a collection: `garbageCollectImages` counts one more and returns. -/
def nestedCall (call : Call) : Except Fault AllImages :=
  let (all, doCollect) := all.call call
  if doCollect then
    if all.gcCount + 1 < 2 ^ 31 then .ok { all with gcCount := all.gcCount + 1 }
    else .error .overflow
  else .ok all

end AllImages

/-! ## Mark -/

/-- `Reaper::ImageAndUse`. -/
structure ImageAndUse where
  li : LoadedImage
  inUse : Bool
  deriving DecidableEq

def markFirst (kind : ImageAndUse → Bool) : List ImageAndUse → List ImageAndUse
  | [] => []
  | iu :: rest => if kind iu then { iu with inUse := true } :: rest else iu :: markFirst kind rest

def markDirectlyDlopenedImagesAsUsed (entries : List DlopenCount) (unloadables : List ImageAndUse) :
    List ImageAndUse :=
  entries.foldl (fun unloadables entry =>
    if entry.refCount ≠ 0 then
      markFirst (fun iu => iu.li.loadedAddress = entry.loadAddress) unloadables
    else unloadables) unloadables

def markDependentsOf (li : LoadedImage) (unloadables : List ImageAndUse) : List ImageAndUse :=
  li.image.dependents.foldl (fun unloadables depImageNum =>
    markFirst (fun iu => !iu.inUse && iu.li.image.representsImageNum depImageNum) unloadables)
    unloadables

/-- One round of the loop: an image that was marked before its turn comes marks its dependents. -/
def markDependentsAt (unloadables : List ImageAndUse) (index : ℕ) : List ImageAndUse :=
  match unloadables[index]? with
  | none => unloadables
  | some iu => if iu.inUse then markDependentsOf iu.li unloadables else unloadables

def markDependentOfInUseImages (unloadables : List ImageAndUse) : List ImageAndUse :=
  (List.range unloadables.length).foldl markDependentsAt unloadables

def inUseCount (unloadables : List ImageAndUse) : ℕ := unloadables.countP ImageAndUse.inUse

/-- `Reaper::garbageCollect`. -/
def garbageCollect (entries : List DlopenCount) (unloadables : List ImageAndUse) :
    List ImageAndUse :=
  untilStable markDependentOfInUseImages inUseCount (unloadables.length + 1)
    (markDirectlyDlopenedImagesAsUsed entries unloadables)

/-! ## Sweep -/

/-- A collection calls into the terminators of an image. -/
abbrev Terminators := LoadedImage → List Call

namespace AllImages

variable (all : AllImages)

def unloadables : List ImageAndUse :=
  (all.loadedImages.filter fun li => !li.image.neverUnload).map fun li => ⟨li, false⟩

/-- The images that are not marked. -/
def deadImages : List LoadedImage :=
  ((garbageCollect all.dlopenRefCounts all.unloadables).filter fun iu => !iu.inUse).map
    ImageAndUse.li

/-- `Reaper::runTerminators` of a dead image, whose segments are looked at afterwards. -/
def runTerminators (terminators : Terminators) (li : LoadedImage) : Except Fault AllImages := do
  let before := { all with events := all.events ++ [.terminated li] }
  let after ← (terminators li).foldlM AllImages.nestedCall before
  if after.allocCount ≠ all.allocCount then .error .dangling else .ok after

def finalizeDeadImages (terminators : Terminators) (dead : List LoadedImage) :
    Except Fault AllImages :=
  dead.foldlM (fun all li => all.runTerminators terminators li) all

/-- The loop of `removeImages` over `_loadedImages`. -/
def removeImages (dead : List LoadedImage) : AllImages :=
  dead.foldl (fun all uli => { all with
    loadedImages := all.loadedImages.eraseP fun li => uli.loadedAddress = li.loadedAddress
    events := all.events ++ [.unloaded uli] }) all

/-- One round of the loop of `garbageCollectImages`. -/
def collect (terminators : Terminators) : Except Fault AllImages := do
  let dead := all.deadImages
  let after ← all.finalizeDeadImages terminators dead
  let after := after.removeImages dead
  .ok { after with gcCount := after.gcCount - 1 }

end AllImages

/-! ## Runs -/

/--
The steps of a run: a call while there is no collection, and a round of a
collection with what the terminators do in it.
-/
inductive Label where
  | call (call : Call)
  | collect (terminators : Terminators)

def AllImages.step (all : AllImages) : Label → Except Fault AllImages
  | .call call =>
      let (all, doCollect) := all.call call
      if doCollect then .ok { all with gcCount := 1, events := [] } else .ok all
  | .collect terminators => all.collect terminators

def AllImages.runLabels (all : AllImages) (labels : List Label) : Except Fault AllImages :=
  labels.foldlM AllImages.step all

end ObjcDyld.Unloading
