import Mathlib

/-!
# Running initializers bottom up

`AllImages::runInitialzersBottomUp` on any number of threads. What a thread does under the lock is
one step: `findImageNum`, and `swapImageState`. While a notification or an initializer is called, the
thread may load further images and run further initializers, and so may all other threads.
-/

namespace ObjcDyld.Initializers

/-- `LoadedImage::State`. -/
inductive LoadState where
  | unmapped
  | mapped
  | fixedUp
  | beingInited
  | inited
  deriving DecidableEq

/-- `closure::Image`, with the number of its initializers and its list of images to init before. -/
structure Image where
  imageNum : ℕ
  isDylib : Bool
  inDyldCache : Bool
  /-- The image of the dyld cache that this one replaces. -/
  overrideOf : Option ℕ
  mayHavePlusLoads : Bool
  initializers : ℕ
  initBefores : List ℕ
  deriving DecidableEq

def Image.representsImageNum (image : Image) (num : ℕ) : Bool :=
  if image.imageNum = num then true
  else if !image.isDylib then false
  else if image.inDyldCache then false
  else image.overrideOf = some num

structure LoadedImage where
  image : Image
  state : LoadState
  deriving DecidableEq

/-- The search of both functions: the hint is used when it is right; `none` is a failed assertion. -/
def searchImageNum (loadedImages : List LoadedImage) (num indexHint : ℕ) : Option ℕ :=
  if (loadedImages[indexHint]?.map fun li => li.image.representsImageNum num) = some true then some indexHint
  else loadedImages.findIdx? fun li => li.image.representsImageNum num

/-- `AllImages::findImageNum`: a copy, and the hint afterwards. -/
def findImageNum (loadedImages : List LoadedImage) (num indexHint : ℕ) : Option (LoadedImage × ℕ) := do
  let indexHint ← searchImageNum loadedImages num indexHint
  let copy ← loadedImages[indexHint]?
  return (copy, indexHint)

/-- `AllImages::swapImageState`: whether the state was the expected one, the hint, and the images. -/
def swapImageState (loadedImages : List LoadedImage) (num indexHint : ℕ) (expectedCurrentState newState : LoadState) :
    Option (Bool × ℕ × List LoadedImage) := do
  let indexHint ← searchImageNum loadedImages num indexHint
  let li ← loadedImages[indexHint]?
  if li.state = expectedCurrentState then
    return (true, indexHint, loadedImages.set indexHint { li with state := newState })
  else return (false, indexHint, loadedImages)

/-- Where a call of `runInitialzersBottomUp` is in the block for one image. -/
inductive Phase where
  /-- Before the next image of the list. -/
  | walking
  /-- The copy has the state `fixedUp`. -/
  | found (num indexHint : ℕ) (loadedImageCopy : LoadedImage)
  /-- The state has been swapped to `beingInited`. -/
  | swapped (num indexHint : ℕ) (loadedImageCopy : LoadedImage)
  /-- In the call of `_objcNotifyInit`. -/
  | notifying (num indexHint : ℕ) (loadedImageCopy : LoadedImage)
  /-- After a number of the image's initializers. -/
  | initializing (num indexHint : ℕ) (loadedImageCopy : LoadedImage) (done : ℕ)
  /-- In the call of an initializer. -/
  | inInitializer (num indexHint : ℕ) (loadedImageCopy : LoadedImage) (index : ℕ)
  deriving DecidableEq

/-- A call of `runInitialzersBottomUp`: the list of its top image, and the rest of it. -/
structure Frame where
  initBefores : List ℕ
  remaining : List ℕ
  phase : Phase
  deriving DecidableEq

/-- A call of a notification or an initializer, of the loaded image at an index. -/
inductive Event where
  | notify (index : ℕ)
  | initializer (index number : ℕ)
  deriving DecidableEq

/-- What a step of a call leaves. -/
structure Advanced where
  loadedImages : List LoadedImage
  events : List Event
  frame : Frame

/-- The next step of a call that is not at its end; `none` is a failed assertion. -/
def Frame.advance (loadedImages : List LoadedImage) (objcNotifyInit : Bool) (frame : Frame) : Option Advanced :=
  match frame.phase with
  | .walking =>
      match frame.remaining with
      | [] => none
      | imageToInit :: remaining => do
          let (loadedImageCopy, indexHint) ← findImageNum loadedImages imageToInit 0
          let phase :=
            -- skip if the image is already inited, or in process of being inited (dependency cycle)
            if loadedImageCopy.state = .fixedUp then Phase.found imageToInit indexHint loadedImageCopy else .walking
          return ⟨loadedImages, [], { frame with remaining := remaining, phase := phase }⟩
  | .found num indexHint loadedImageCopy => do
      let (result, indexHint, loadedImages) ← swapImageState loadedImages num indexHint .fixedUp .beingInited
      return ⟨loadedImages, [],
        { frame with phase := if result then .swapped num indexHint loadedImageCopy else .walking }⟩
  | .swapped num indexHint loadedImageCopy =>
      if objcNotifyInit && loadedImageCopy.image.mayHavePlusLoads then
        some ⟨loadedImages, [.notify indexHint], { frame with phase := .notifying num indexHint loadedImageCopy }⟩
      else some ⟨loadedImages, [], { frame with phase := .initializing num indexHint loadedImageCopy 0 }⟩
  | .notifying num indexHint loadedImageCopy =>
      some ⟨loadedImages, [], { frame with phase := .initializing num indexHint loadedImageCopy 0 }⟩
  | .initializing num indexHint loadedImageCopy done =>
      if done < loadedImageCopy.image.initializers then
        some ⟨loadedImages, [.initializer indexHint done],
          { frame with phase := .inInitializer num indexHint loadedImageCopy done }⟩
      else do
        let (_, _, loadedImages) ← swapImageState loadedImages num indexHint .beingInited .inited
        return ⟨loadedImages, [], { frame with phase := .walking }⟩
  | .inInitializer num indexHint loadedImageCopy index =>
      some ⟨loadedImages, [], { frame with phase := .initializing num indexHint loadedImageCopy (index + 1) }⟩

/-- The process: the images, the calls of each thread, innermost first, and the calls into images that
have been made. -/
structure Process where
  loadedImages : List LoadedImage
  objcNotifyInit : Bool
  threads : ℕ → List Frame
  history : List Event
  /-- The images that are initialized from elsewhere, as libSystem is. -/
  outside : List ℕ

/-- The code that a call runs is not its own. -/
def Phase.InCall : Phase → Prop
  | .notifying .. => True
  | .inInitializer .. => True
  | _ => False

/-- A thread is in code that may call dyld. -/
def Process.InUserCode (process : Process) (thread : ℕ) : Prop :=
  ∀ frame ∈ (process.threads thread).head?, frame.phase.InCall

/-- One step of one thread. -/
inductive Step : Process → Process → Prop where
  | call {process : Process} (thread : ℕ) (topImage : Image) (user : process.InUserCode thread) :
      Step process { process with
        threads := Function.update process.threads thread
          (⟨topImage.initBefores, topImage.initBefores, .walking⟩ :: process.threads thread) }
  | advance {process : Process} {thread : ℕ} {frame : Frame} {outer : List Frame} {advanced : Advanced}
      (top : process.threads thread = frame :: outer)
      (run : frame.advance process.loadedImages process.objcNotifyInit = some advanced) :
      Step process { process with
        loadedImages := advanced.loadedImages
        threads := Function.update process.threads thread (advanced.frame :: outer)
        history := process.history ++ advanced.events }
  | returns {process : Process} {thread : ℕ} {frame : Frame} {outer : List Frame}
      (top : process.threads thread = frame :: outer) (walked : frame.phase = .walking) (ended : frame.remaining = []) :
      Step process { process with threads := Function.update process.threads thread outer }
  /-- `dlopen` adds images that it has mapped and fixed up. -/
  | addImages {process : Process} (thread : ℕ) (newImages : List Image) (user : process.InUserCode thread) :
      Step process { process with
        loadedImages := process.loadedImages ++ newImages.map fun image => ⟨image, .fixedUp⟩ }
  | setObjCNotifiers {process : Process} : Step process { process with objcNotifyInit := true }
  /-- An image that is initialized from elsewhere is marked as being inited. -/
  | finishOutside {process : Process} {index : ℕ} {li : LoadedImage} (member : index ∈ process.outside)
      (at_index : process.loadedImages[index]? = some li) :
      Step process { process with
        loadedImages := process.loadedImages.set index { li with state := .inited }
        outside := process.outside.filter (· ≠ index) }

/-- Nothing runs yet, and the images are fixed up; some may be inited, or be initialized from elsewhere. -/
structure Process.Starts (process : Process) : Prop where
  threads : ∀ thread, process.threads thread = []
  history : process.history = []
  states : ∀ li ∈ process.loadedImages, li.state = .fixedUp ∨ li.state = .beingInited ∨ li.state = .inited
  outside : ∀ index, index ∈ process.outside ↔ ∃ li, process.loadedImages[index]? = some li ∧ li.state = .beingInited

end ObjcDyld.Initializers
