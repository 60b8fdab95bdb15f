import ObjcDyld.Common.Sorting

/-!
# Loaded images

The images a `ClosureBuilder` has loaded and the links between them, by their indexes in
`_loadedImages`.
-/

namespace ObjcDyld.Closures

/-- `Image::LinkKind`. -/
inductive LinkKind where
  | regular
  | weak
  | upward
  | reExport
deriving DecidableEq

/-- `Image::LinkedImage`. -/
structure LinkedImage where
  imageNum : BitVec 30
  kind : LinkKind
deriving DecidableEq

def kMissingWeakLinkedImage : BitVec 30 := 0x0FFFFFFF#30

/-- The fields of `ClosureBuilder::BuilderLoadedImage` that initializers and weak definitions depend on. -/
structure BuilderLoadedImage where
  dependents : List LinkedImage
  imageNum : BitVec 32
  hasInits : Bool
  rtldLocal : Bool
  isBadImage : Bool
  overrideImageNum : BitVec 12
  loadAddress : BitVec 64
deriving DecidableEq

/-- `findLoadedImage` for an image number; `none` when its assertion fails. -/
def findLoadedImage (loadedImages : List BuilderLoadedImage) (imageNum : BitVec 32) : Option ℕ :=
  match loadedImages.findIdx? fun li => li.imageNum = imageNum with
  | some index => some index
  | none => loadedImages.findIdx? fun li => li.overrideImageNum.setWidth 32 = imageNum

theorem findLoadedImage_lt {loadedImages : List BuilderLoadedImage} {imageNum : BitVec 32} {index : ℕ}
    (found : findLoadedImage loadedImages imageNum = some index) : index < loadedImages.length := by
  unfold findLoadedImage at found
  split at found
  · next first =>
      obtain rfl := Option.some.inj found
      exact (List.findIdx?_eq_some_iff_findIdx_eq.mp first).1
  · exact (List.findIdx?_eq_some_iff_findIdx_eq.mp found).1

section Links

variable (loadedImages : List BuilderLoadedImage)

/-- The image at an index has a link of some kind to another index; missing ones lead nowhere. -/
def LinksBy (kinds : LinkKind → Prop) (loadIndex depLoadIndex : ℕ) : Prop :=
  ∃ li, loadedImages[loadIndex]? = some li ∧ ∃ dep ∈ li.dependents,
    dep.imageNum ≠ kMissingWeakLinkedImage ∧ kinds dep.kind ∧
      findLoadedImage loadedImages (dep.imageNum.setWidth 32) = some depLoadIndex

/-- A link of any kind but upward. -/
def Below : ℕ → ℕ → Prop := LinksBy loadedImages (· ≠ .upward)

def Upward : ℕ → ℕ → Prop := LinksBy loadedImages (· = .upward)

def Linked : ℕ → ℕ → Prop := LinksBy loadedImages fun _ => True

/-- Every link that is not missing names a loaded image. -/
def LinksLoaded : Prop :=
  ∀ li ∈ loadedImages, ∀ dep ∈ li.dependents, dep.imageNum ≠ kMissingWeakLinkedImage →
    (findLoadedImage loadedImages (dep.imageNum.setWidth 32)).isSome

end Links

variable {loadedImages : List BuilderLoadedImage} {kinds : LinkKind → Prop} {loadIndex depLoadIndex : ℕ}

theorem LinksBy.linked (link : LinksBy loadedImages kinds loadIndex depLoadIndex) :
    Linked loadedImages loadIndex depLoadIndex := by
  obtain ⟨li, image, dep, inside, present, -, found⟩ := link
  exact ⟨li, image, dep, inside, present, trivial, found⟩

theorem LinksBy.lt (link : LinksBy loadedImages kinds loadIndex depLoadIndex) :
    depLoadIndex < loadedImages.length := by
  obtain ⟨_, _, _, _, _, _, found⟩ := link
  exact findLoadedImage_lt found

end ObjcDyld.Closures

/-!
## Initializer order

`ClosureBuilder::computeInitOrder`: a depth-first search along the links that are not upward,
repeated for the images that upward links leave dangling, and the list of the images with
initializers in the order the searches finished them.
-/

namespace ObjcDyld.Closures

/-- `ClosureBuilder::InitInfo`. -/
structure InitInfo where
  initOrder : ℕ
  danglingUpward : Bool
  visited : Bool

/-- The array of infos, the next order number and the error flag. -/
structure InitState where
  initInfos : ℕ → InitInfo
  initOrder : ℕ
  hasError : Bool

namespace InitState

/-- The state after the `bzero`. -/
def start : InitState := ⟨fun _ => ⟨0, false, false⟩, 1, false⟩

def visit (state : InitState) (loadIndex : ℕ) : InitState :=
  { state with
    initInfos := Function.update state.initInfos loadIndex
      { state.initInfos loadIndex with visited := true, danglingUpward := false } }

def markDangling (state : InitState) (loadIndex : ℕ) : InitState :=
  { state with
    initInfos := Function.update state.initInfos loadIndex
      { state.initInfos loadIndex with danglingUpward := true } }

def finish (state : InitState) (loadIndex : ℕ) : InitState :=
  { state with
    initInfos := Function.update state.initInfos loadIndex
      { state.initInfos loadIndex with initOrder := state.initOrder }
    initOrder := state.initOrder + 1 }

end InitState

/--
The loop over the dependents, with `true` when it ran to its end; `none` when an assertion
fails.
-/
def recurseDependents (loadedImages : List BuilderLoadedImage) (recurse : ℕ → InitState → Option InitState) :
    List LinkedImage → InitState → Option (Bool × InitState)
  | [], state => some (true, state)
  | dep :: rest, state =>
      if dep.imageNum = kMissingWeakLinkedImage then recurseDependents loadedImages recurse rest state
      else
        match findLoadedImage loadedImages (dep.imageNum.setWidth 32) with
        | none => none
        | some depLoadIndex =>
            if dep.kind = .upward then
              recurseDependents loadedImages recurse rest
                (if (state.initInfos depLoadIndex).visited then state else state.markDangling depLoadIndex)
            else
              match recurse depLoadIndex state with
              | none => none
              | some next =>
                  if next.hasError then some (false, next)
                  else recurseDependents loadedImages recurse rest next

/-- `depthFirstRecurseSetInitInfo`, nested at most `depth` deep. -/
def depthFirstRecurseSetInitInfo (loadedImages : List BuilderLoadedImage) :
    ℕ → ℕ → InitState → Option InitState
  | 0, _, _ => none
  | depth + 1, loadIndex, state =>
      if (state.initInfos loadIndex).visited then some state
      else
        match loadedImages[loadIndex]? with
        | none => none
        | some li =>
            if li.isBadImage then some { state.visit loadIndex with hasError := true }
            else
              match recurseDependents loadedImages (depthFirstRecurseSetInitInfo loadedImages depth)
                  li.dependents (state.visit loadIndex) with
              | none => none
              | some (false, next) => some next
              | some (true, next) => some (next.finish loadIndex)

/-- What `computeInitOrder` tells the `ImageWriter`. -/
inductive InitsWritten where
  | setInvalid
  | setInitsOrder (initNums : List (BitVec 32))
deriving DecidableEq

/-- One round of the loop that picks up the dangling images. -/
def visitDangling (loadedImages : List BuilderLoadedImage) (depth : ℕ) (state : InitState) (i : ℕ) :
    Option InitState :=
  if !(state.initInfos i).visited && (state.initInfos i).danglingUpward then
    depthFirstRecurseSetInitInfo loadedImages depth i state
  else some state

/-- `indexOfImagesWithInits` before it is sorted. -/
def indexOfImagesWithInits (loadedImages : List BuilderLoadedImage) (state : InitState) : List ℕ :=
  (List.range loadedImages.length).filter fun index =>
    (state.initInfos index).visited && (loadedImages[index]?.map (·.hasInits)).getD false

/-- `computeInitOrder`; `none` when an assertion fails. -/
def computeInitOrder (loadedImages : List BuilderLoadedImage) (loadIndex : ℕ) : Option InitsWritten := do
  let depth := loadedImages.length + 1
  let state ← depthFirstRecurseSetInitInfo loadedImages depth loadIndex InitState.start
  if state.hasError then return .setInvalid
  let state ← (List.range loadedImages.length).foldlM (visitDangling loadedImages depth) state
  if state.hasError then return .setInvalid
  let sorted := BubbleSort.sort (fun index => (state.initInfos index).initOrder)
    (indexOfImagesWithInits loadedImages state)
  let initNums ← sorted.mapM fun index => loadedImages[index]?.map (·.imageNum)
  return .setInitsOrder initNums

end ObjcDyld.Closures
