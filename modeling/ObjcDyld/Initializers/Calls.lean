import ObjcDyld.Initializers.Steps

/-!
# What a step of `runInitialzersBottomUp` does

The list of images only grows, so an image stays at its index, and the hints stay right. A step of a
call begins or ends an image, or calls into the image that it has begun.
-/

namespace ObjcDyld.Initializers

/-- How the state of an image may change. -/
inductive Advances : LoadState → LoadState → Prop where
  | same (state : LoadState) : Advances state state
  | beginInit : Advances .fixedUp .beingInited
  | endInit : Advances .beingInited .inited

theorem Advances.taken {state state' : LoadState} (advances : Advances state state')
    (taken : state = .beingInited ∨ state = .inited) : state' = .beingInited ∨ state' = .inited := by
  cases advances with
  | same => exact taken
  | beginInit => exact .inl rfl
  | endInit => exact .inr rfl

/-- Every image is still at its index, with a state that has advanced by one at most. -/
def Later (loadedImages loadedImages' : List LoadedImage) : Prop :=
  ∀ (index : ℕ) (li : LoadedImage), loadedImages[index]? = some li →
    ∃ li' : LoadedImage, loadedImages'[index]? = some li' ∧ li'.image = li.image ∧ Advances li.state li'.state

/-- The index of the image that an image number stands for. -/
def indexOf (loadedImages : List LoadedImage) (num : ℕ) : Option ℕ :=
  loadedImages.findIdx? fun li => li.image.representsImageNum num

variable {loadedImages loadedImages' : List LoadedImage} {num index : ℕ} {li : LoadedImage}

theorem Later.refl (loadedImages : List LoadedImage) : Later loadedImages loadedImages :=
  fun _ li at_index => ⟨li, at_index, rfl, .same _⟩

theorem later_append (added : List LoadedImage) : Later loadedImages (loadedImages ++ added) :=
  fun _ li at_index => ⟨li, List.getElem?_append_left (List.getElem?_eq_some_iff.mp at_index).1 ▸ at_index, rfl, .same _⟩

theorem later_set {state : LoadState} (at_index : loadedImages[index]? = some li) (advances : Advances li.state state) :
    Later loadedImages (loadedImages.set index { li with state := state }) := by
  intro other li' at_other
  by_cases same : index = other
  · obtain rfl := same
    obtain rfl := Option.some.inj (at_index.symm.trans at_other)
    exact ⟨_, List.getElem?_set_self (List.getElem?_eq_some_iff.mp at_index).1, rfl, advances⟩
  · exact ⟨li', (List.getElem?_set_ne same).trans at_other, rfl, .same _⟩

theorem indexOf_eq_some_iff :
    indexOf loadedImages num = some index ↔
      (∃ li, loadedImages[index]? = some li ∧ li.image.representsImageNum num = true) ∧
      ∀ other < index, ∀ li, loadedImages[other]? = some li → li.image.representsImageNum num = false := by
  rw [indexOf, List.findIdx?_eq_some_iff_getElem]
  constructor
  · rintro ⟨less, represents, before⟩
    refine ⟨⟨_, List.getElem?_eq_getElem less, represents⟩, fun other smaller li at_other => ?_⟩
    obtain ⟨inside, rfl⟩ := List.getElem?_eq_some_iff.mp at_other
    simpa using before other smaller
  · rintro ⟨⟨li, at_index, represents⟩, before⟩
    obtain ⟨less, rfl⟩ := List.getElem?_eq_some_iff.mp at_index
    refine ⟨less, represents, fun other smaller => ?_⟩
    simpa using before other smaller _ (List.getElem?_eq_getElem (smaller.trans less))

theorem Later.indexOf (later : Later loadedImages loadedImages') (found : indexOf loadedImages num = some index) :
    Initializers.indexOf loadedImages' num = some index := by
  obtain ⟨⟨li, at_index, represents⟩, before⟩ := indexOf_eq_some_iff.mp found
  obtain ⟨li', at_index', image, -⟩ := later index li at_index
  refine indexOf_eq_some_iff.mpr ⟨⟨li', at_index', image ▸ represents⟩, fun other smaller other_li at_other => ?_⟩
  obtain ⟨less, -⟩ := List.getElem?_eq_some_iff.mp at_index
  obtain ⟨other_li', at_other', image', -⟩ := later other _ (List.getElem?_eq_getElem (smaller.trans less))
  obtain rfl := Option.some.inj (at_other.symm.trans at_other')
  rw [image']
  exact before other smaller _ (List.getElem?_eq_getElem _)

theorem searchImageNum_of_indexOf (found : indexOf loadedImages num = some index) :
    searchImageNum loadedImages num index = some index := by
  obtain ⟨⟨li, at_index, represents⟩, -⟩ := indexOf_eq_some_iff.mp found
  rw [searchImageNum, if_pos (by rw [at_index, Option.map_some, represents])]

theorem searchImageNum_zero (loadedImages : List LoadedImage) (num : ℕ) :
    searchImageNum loadedImages num 0 = indexOf loadedImages num := by
  rw [searchImageNum]
  split
  · next represents =>
      obtain ⟨li, at_zero, represents⟩ := Option.map_eq_some_iff.mp represents
      exact (indexOf_eq_some_iff.mpr ⟨⟨li, at_zero, represents⟩, nofun⟩).symm
  · rfl

theorem findImageNum_eq_some {hint : ℕ} {copy : LoadedImage} (run : findImageNum loadedImages num 0 = some (copy, hint)) :
    indexOf loadedImages num = some hint ∧ loadedImages[hint]? = some copy := by
  rw [findImageNum, searchImageNum_zero] at run
  obtain ⟨index, found, run⟩ := Option.bind_eq_some_iff.mp run
  obtain ⟨li, at_index, run⟩ := Option.bind_eq_some_iff.mp run
  obtain ⟨rfl, rfl⟩ := Prod.mk.inj (Option.some.inj run)
  exact ⟨found, at_index⟩

theorem swapImageState_eq (found : indexOf loadedImages num = some index) (at_index : loadedImages[index]? = some li)
    (expected state : LoadState) :
    swapImageState loadedImages num index expected state =
      if li.state = expected then some (true, index, loadedImages.set index { li with state := state })
      else some (false, index, loadedImages) := by
  rw [swapImageState, searchImageNum_of_indexOf found]
  change (loadedImages[index]? >>= _) = _
  rw [at_index]
  rfl

/-- The image number, hint and copy of the image that the call is at. -/
def Phase.image : Phase → Option (ℕ × ℕ × LoadedImage)
  | .walking => none
  | .found num indexHint copy => some (num, indexHint, copy)
  | .swapped num indexHint copy => some (num, indexHint, copy)
  | .notifying num indexHint copy => some (num, indexHint, copy)
  | .initializing num indexHint copy _ => some (num, indexHint, copy)
  | .inInitializer num indexHint copy _ => some (num, indexHint, copy)

/-- The index of the image that the call initializes. -/
def Phase.holds : Phase → Option ℕ
  | .walking => none
  | .found .. => none
  | .swapped _ indexHint _ => some indexHint
  | .notifying _ indexHint _ => some indexHint
  | .initializing _ indexHint _ _ => some indexHint
  | .inInitializer _ indexHint _ _ => some indexHint

/-- How many initializers of its image a call has called. -/
def Phase.executed : Phase → ℕ
  | .initializing _ _ _ done => done
  | .inInitializer _ _ _ index => index + 1
  | _ => 0

def Event.imageIndex : Event → ℕ
  | .notify index => index
  | .initializer index _ => index

/-- The call in this phase may have made the call into its image. -/
def Event.Before : Event → Phase → Prop
  | .notify _, .swapped .. => False
  | .notify _, _ => True
  | .initializer _ number, phase => number < phase.executed

/-- The image that the number stands for is initialized, or is being so. -/
def Taken (loadedImages : List LoadedImage) (num : ℕ) : Prop :=
  ∃ index li, indexOf loadedImages num = some index ∧ loadedImages[index]? = some li ∧
    (li.state = .beingInited ∨ li.state = .inited)

theorem Taken.later {num : ℕ} (taken : Taken loadedImages num) (later : Later loadedImages loadedImages') :
    Taken loadedImages' num := by
  obtain ⟨index, li, found, at_index, state⟩ := taken
  obtain ⟨li', at_index', -, advances⟩ := later index li at_index
  exact ⟨index, li', later.indexOf found, at_index', advances.taken state⟩

/-- What is true of a call: the images before in its list are taken, and the one that it is at is where
the hint says. -/
structure FrameOK (loadedImages : List LoadedImage) (frame : Frame) : Prop where
  visited : ∃ visited, frame.initBefores = visited ++ (frame.phase.image.map Prod.fst).toList ++ frame.remaining ∧
    ∀ num ∈ visited, Taken loadedImages num
  image : ∀ num indexHint copy, frame.phase.image = some (num, indexHint, copy) →
    indexOf loadedImages num = some indexHint ∧
      ∃ li, loadedImages[indexHint]? = some li ∧ li.image = copy.image
  held : ∀ index, frame.phase.holds = some index → ∃ li, loadedImages[index]? = some li ∧ li.state = .beingInited

theorem FrameOK.later {frame : Frame} (ok : FrameOK loadedImages frame) (later : Later loadedImages loadedImages')
    (held : ∀ index, frame.phase.holds = some index → ∃ li, loadedImages'[index]? = some li ∧ li.state = .beingInited) :
    FrameOK loadedImages' frame := by
  refine ⟨?_, fun num indexHint copy at_image => ?_, held⟩
  · obtain ⟨visited, list, taken⟩ := ok.visited
    exact ⟨visited, list, fun num member => (taken num member).later later⟩
  · obtain ⟨found, li, at_index, image⟩ := ok.image num indexHint copy at_image
    obtain ⟨li', at_index', image', -⟩ := later indexHint li at_index
    exact ⟨later.indexOf found, li', at_index', image'.trans image⟩

/-- What a step of a call does to the images and to the call's hold on one. -/
inductive Moved (loadedImages : List LoadedImage) (frame : Frame) (advanced : Advanced) : Prop where
  | idle (images : advanced.loadedImages = loadedImages) (events : advanced.events = [])
      (free : frame.phase.holds = none) (free' : advanced.frame.phase.holds = none)
  | began (index : ℕ) (li : LoadedImage) (at_index : loadedImages[index]? = some li) (state : li.state = .fixedUp)
      (images : advanced.loadedImages = loadedImages.set index { li with state := .beingInited })
      (events : advanced.events = []) (free : frame.phase.holds = none) (holds : advanced.frame.phase.holds = some index)
      (executed : advanced.frame.phase.executed = 0)
  | ran (index : ℕ) (images : advanced.loadedImages = loadedImages) (holds : frame.phase.holds = some index)
      (holds' : advanced.frame.phase.holds = some index) (nodup : advanced.events.Nodup)
      (new : ∀ event ∈ advanced.events, event.imageIndex = index ∧ ¬event.Before frame.phase ∧
        event.Before advanced.frame.phase)
      (before : ∀ event : Event, event.Before frame.phase → event.Before advanced.frame.phase)
      (executed : ∀ number < advanced.frame.phase.executed, number < frame.phase.executed ∨
        .initializer index number ∈ advanced.events)
  | ended (index : ℕ) (li : LoadedImage) (at_index : loadedImages[index]? = some li) (state : li.state = .beingInited)
      (images : advanced.loadedImages = loadedImages.set index { li with state := .inited })
      (events : advanced.events = []) (holds : frame.phase.holds = some index)
      (free : advanced.frame.phase.holds = none) (executed : li.image.initializers ≤ frame.phase.executed)

/-- The images are fixed up, and the states go on from there. -/
def Ready (loadedImages : List LoadedImage) : Prop :=
  ∀ (index : ℕ) (li : LoadedImage), loadedImages[index]? = some li →
    li.state = .fixedUp ∨ li.state = .beingInited ∨ li.state = .inited

theorem advance_spec {frame : Frame} {objcNotifyInit : Bool} {advanced : Advanced} (ready : Ready loadedImages)
    (ok : FrameOK loadedImages frame) (run : frame.advance loadedImages objcNotifyInit = some advanced) :
    Moved loadedImages frame advanced ∧ Later loadedImages advanced.loadedImages ∧
      FrameOK advanced.loadedImages advanced.frame := by
  obtain ⟨initBefores, remaining, phase⟩ := frame
  obtain ⟨visited, list, taken⟩ := ok.visited
  cases phase with
  | walking =>
      cases remaining with
      | nil => exact absurd run (by simp [Frame.advance])
      | cons imageToInit remaining =>
          obtain ⟨⟨copy, hint⟩, found, run⟩ := Option.bind_eq_some_iff.mp run
          obtain ⟨index, at_index⟩ := findImageNum_eq_some found
          obtain rfl := Option.some.inj run
          by_cases fixed : copy.state = .fixedUp
          · simp only [fixed, if_true]
            refine ⟨.idle rfl rfl rfl rfl, .refl _, ⟨visited, by simpa [Phase.image] using list, taken⟩, ?_, nofun⟩
            rintro num hint' copy' same
            obtain ⟨rfl, rfl, rfl⟩ : imageToInit = num ∧ hint = hint' ∧ copy = copy' := by
              simpa [Phase.image] using same
            exact ⟨index, copy, at_index, rfl⟩
          · simp only [fixed, if_false]
            refine ⟨.idle rfl rfl rfl rfl, .refl _, ⟨visited ++ [imageToInit], by simpa [Phase.image] using list, ?_⟩,
              nofun, nofun⟩
            intro num member
            obtain member | rfl := (List.mem_append.mp member).imp id List.mem_singleton.mp
            · exact taken num member
            · exact ⟨hint, copy, index, at_index, (ready hint copy at_index).resolve_left fixed⟩
  | found num indexHint copy =>
      obtain ⟨index, li, at_index, image⟩ := ok.image num indexHint copy rfl
      obtain ⟨⟨result, hint, images⟩, swap, run⟩ := Option.bind_eq_some_iff.mp run
      obtain rfl := Option.some.inj run
      rw [swapImageState_eq index at_index] at swap
      split at swap
      · next fixed =>
          obtain ⟨rfl, rfl, rfl⟩ : true = result ∧ indexHint = hint ∧ _ = images := by simpa using swap
          have later : Later loadedImages (loadedImages.set indexHint { li with state := .beingInited }) :=
            later_set at_index (fixed ▸ .beginInit)
          have held : (loadedImages.set indexHint { li with state := LoadState.beingInited })[indexHint]? =
              some { li with state := .beingInited } :=
            List.getElem?_set_self (List.getElem?_eq_some_iff.mp at_index).1
          refine ⟨.began indexHint li at_index fixed rfl rfl rfl rfl rfl, later,
            ⟨visited, list, fun num member => (taken num member).later later⟩, ?_, ?_⟩
          · rintro num' hint' copy' same
            obtain ⟨rfl, rfl, rfl⟩ : num = num' ∧ indexHint = hint' ∧ copy = copy' := by
              simpa [Phase.image] using same
            exact ⟨later.indexOf index, _, held, image⟩
          · rintro index' same
            obtain rfl := Option.some.inj same
            exact ⟨_, held, rfl⟩
      · next other =>
          obtain ⟨rfl, rfl, rfl⟩ : false = result ∧ indexHint = hint ∧ loadedImages = images := by simpa using swap
          refine ⟨.idle rfl rfl rfl rfl, .refl _, ⟨visited ++ [num], by simpa [Phase.image] using list, ?_⟩, nofun, nofun⟩
          intro num' member
          obtain member | rfl := (List.mem_append.mp member).imp id List.mem_singleton.mp
          · exact taken num' member
          · exact ⟨indexHint, li, index, at_index, (ready indexHint li at_index).resolve_left other⟩
  | swapped num indexHint copy =>
      rw [Frame.advance] at run
      dsimp only at run
      split at run
      · obtain rfl := Option.some.inj run
        exact ⟨.ran indexHint rfl rfl rfl (List.nodup_singleton _) (by simp [Event.imageIndex, Event.Before])
          (by rintro (_ | _) before <;> simp_all [Event.Before, Phase.executed])
          (by simp [Phase.executed]), .refl _, ⟨visited, list, taken⟩, ok.image, ok.held⟩
      · obtain rfl := Option.some.inj run
        exact ⟨.ran indexHint rfl rfl rfl List.nodup_nil (by simp)
          (by rintro (_ | _) before <;> simp_all [Event.Before, Phase.executed])
          (by simp [Phase.executed]), .refl _, ⟨visited, list, taken⟩, ok.image, ok.held⟩
  | notifying num indexHint copy =>
      obtain rfl := Option.some.inj run
      exact ⟨.ran indexHint rfl rfl rfl List.nodup_nil (by simp)
        (by rintro (_ | _) before <;> simp_all [Event.Before, Phase.executed])
        (by simp [Phase.executed]), .refl _, ⟨visited, list, taken⟩, ok.image, ok.held⟩
  | initializing num indexHint copy done =>
      rw [Frame.advance] at run
      dsimp only at run
      split at run
      · obtain rfl := Option.some.inj run
        exact ⟨.ran indexHint rfl rfl rfl (List.nodup_singleton _)
          (by simp [Event.imageIndex, Event.Before, Phase.executed])
          (by rintro (_ | _) before <;> simp_all [Event.Before, Phase.executed]; omega)
          (fun number less => (Nat.lt_succ_iff_lt_or_eq.mp less).imp id (by rintro rfl; simp)),
          .refl _, ⟨visited, list, taken⟩, ok.image, ok.held⟩
      · next all =>
          obtain ⟨index, li, at_index, image⟩ := ok.image num indexHint copy rfl
          obtain ⟨li', at_index', state⟩ := ok.held indexHint rfl
          obtain rfl := Option.some.inj (at_index.symm.trans at_index')
          obtain ⟨⟨result, hint, images⟩, swap, run⟩ := Option.bind_eq_some_iff.mp run
          obtain rfl := Option.some.inj run
          rw [swapImageState_eq index at_index, if_pos state] at swap
          obtain ⟨rfl, rfl, rfl⟩ : true = result ∧ indexHint = hint ∧ _ = images := by simpa using swap
          have later : Later loadedImages (loadedImages.set indexHint { li with state := .inited }) :=
            later_set at_index (state ▸ .endInit)
          refine ⟨.ended indexHint li at_index state rfl rfl rfl rfl (image ▸ Nat.not_lt.mp all), later,
            ⟨visited ++ [num], by simpa [Phase.image] using list, ?_⟩, nofun, nofun⟩
          intro num' member
          obtain member | rfl := (List.mem_append.mp member).imp id List.mem_singleton.mp
          · exact (taken num' member).later later
          · exact ⟨indexHint, _, later.indexOf index,
              List.getElem?_set_self (List.getElem?_eq_some_iff.mp at_index).1, .inr rfl⟩
  | inInitializer num indexHint copy index =>
      obtain rfl := Option.some.inj run
      exact ⟨.ran indexHint rfl rfl rfl List.nodup_nil (by simp)
        (by rintro (_ | _) before <;> simp_all [Event.Before, Phase.executed])
        (by simp [Phase.executed]), .refl _, ⟨visited, list, taken⟩, ok.image, ok.held⟩

end ObjcDyld.Initializers
