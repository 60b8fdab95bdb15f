import ObjcDyld.Initializers.Calls

/-!
# Initializers run once and completely

Whoever swaps an image's state to `beingInited` has it until it is `inited`, and nobody else calls into
it. This is kept by every step of every thread, so it holds in every run.
-/

namespace ObjcDyld.Initializers

/-- Two calls do not have the same image. -/
def Frame.Apart (frame other : Frame) : Prop :=
  ∀ index, frame.phase.holds = some index → other.phase.holds ≠ some index

/-- No two calls have the same image. -/
structure Exclusive (threads : ℕ → List Frame) : Prop where
  within : ∀ thread, (threads thread).Pairwise Frame.Apart
  across : ∀ thread other, thread ≠ other → ∀ frame ∈ threads thread, ∀ frame' ∈ threads other, frame.Apart frame'

/-- Some call has the image. -/
def Held (threads : ℕ → List Frame) (index : ℕ) : Prop :=
  ∃ thread, ∃ frame ∈ threads thread, frame.phase.holds = some index

variable {threads : ℕ → List Frame} {thread : ℕ} {frame frame' : Frame} {frames outer : List Frame}

theorem Frame.Apart.symm (apart : frame.Apart frame') : frame'.Apart frame :=
  fun index holds' holds => apart index holds holds'

theorem Frame.apart_of_free (free : frame.phase.holds = none) (other : Frame) : frame.Apart other :=
  fun _ holds => nomatch free.symm.trans holds

theorem forall_update {P : Frame → Prop} :
    (∀ other, ∀ frame ∈ Function.update threads thread frames other, P frame) ↔
      (∀ frame ∈ frames, P frame) ∧ ∀ other, other ≠ thread → ∀ frame ∈ threads other, P frame :=
  Function.forall_update_iff threads fun _ list => ∀ frame ∈ list, P frame

theorem Exclusive.update (exclusive : Exclusive threads) (within : frames.Pairwise Frame.Apart)
    (across : ∀ other, other ≠ thread → ∀ frame ∈ frames, ∀ frame' ∈ threads other, frame.Apart frame') :
    Exclusive (Function.update threads thread frames) := by
  refine ⟨fun other => ?_, fun first second different frame member frame' member' => ?_⟩
  · by_cases same : other = thread
    · subst same
      rwa [Function.update_self]
    · rw [Function.update_of_ne same]
      exact exclusive.within other
  · by_cases atFirst : first = thread
    · subst atFirst
      rw [Function.update_self] at member
      rw [Function.update_of_ne different.symm] at member'
      exact across second different.symm frame member frame' member'
    · rw [Function.update_of_ne atFirst] at member
      by_cases atSecond : second = thread
      · subst atSecond
        rw [Function.update_self] at member'
        exact (across first atFirst frame' member' frame member).symm
      · rw [Function.update_of_ne atSecond] at member'
        exact exclusive.across first second different frame member frame' member'

theorem Exclusive.push (exclusive : Exclusive threads) (free : frame.phase.holds = none) :
    Exclusive (Function.update threads thread (frame :: threads thread)) := by
  refine exclusive.update (List.pairwise_cons.mpr ⟨fun other _ => Frame.apart_of_free free other, exclusive.within thread⟩)
    fun other different frame' member => ?_
  obtain rfl | member := List.mem_cons.mp member
  · exact fun other _ => Frame.apart_of_free free other
  · exact exclusive.across thread other different.symm frame' member

theorem Exclusive.pop (exclusive : Exclusive threads) (top : threads thread = frame :: outer) :
    Exclusive (Function.update threads thread outer) :=
  exclusive.update (List.pairwise_cons.mp (top ▸ exclusive.within thread)).2 fun other different frame' member =>
    exclusive.across thread other different.symm frame' (top ▸ List.mem_cons_of_mem _ member)

theorem Exclusive.replace (exclusive : Exclusive threads) (top : threads thread = frame :: outer)
    (holds : ∀ index, frame'.phase.holds = some index → frame.phase.holds = some index ∨ ¬Held threads index) :
    Exclusive (Function.update threads thread (frame' :: outer)) := by
  have apart {other : ℕ} {other' : Frame} (member : other' ∈ threads other) (old : frame.Apart other') :
      frame'.Apart other' := by
    intro index taken
    obtain same | free := holds index taken
    · exact old index same
    · exact fun also => free ⟨other, other', member, also⟩
  have within := List.pairwise_cons.mp (top ▸ exclusive.within thread)
  refine exclusive.update (List.pairwise_cons.mpr ⟨fun other' member => ?_, within.2⟩)
    fun other different frame'' member other' member' => ?_
  · exact apart (top ▸ List.mem_cons_of_mem _ member) (within.1 other' member)
  · obtain rfl | member := List.mem_cons.mp member
    · exact apart member'
        (exclusive.across thread other different.symm frame (top ▸ List.mem_cons_self) other' member')
    · exact exclusive.across thread other different.symm frame'' (top ▸ List.mem_cons_of_mem _ member) other' member'

variable {loadedImages : List LoadedImage} {history : List Event} {outside : List ℕ} {advanced : Advanced}
  {index : ℕ} {li : LoadedImage}

theorem getElem?_set_eq_some {α : Type} {list : List α} {index other : ℕ} {a b : α}
    (found : (list.set index a)[other]? = some b) : (index = other ∧ b = a) ∨ (index ≠ other ∧ list[other]? = some b) := by
  by_cases same : index = other
  · subst same
    have inside : index < list.length := by
      simpa using (List.getElem?_eq_some_iff.mp found).1
    rw [List.getElem?_set_self inside] at found
    exact .inl ⟨rfl, (Option.some.inj found).symm⟩
  · rw [List.getElem?_set_ne same] at found
    exact .inr ⟨same, found⟩

theorem Moved.image_cases (moved : Moved loadedImages frame advanced) (at_index : advanced.loadedImages[index]? = some li) :
    (loadedImages[index]? = some li ∧ (frame.phase.holds = some index → advanced.frame.phase.holds = some index)) ∨
    (li.state = .beingInited ∧ advanced.frame.phase.holds = some index) ∨
    (li.state = .inited ∧ frame.phase.holds = some index ∧ li.image.initializers ≤ frame.phase.executed) := by
  cases moved with
  | idle images events free free' => exact .inl ⟨images ▸ at_index, fun holds => nomatch free.symm.trans holds⟩
  | began begun li' at_begun state images events free holds executed =>
      rw [images] at at_index
      obtain ⟨rfl, rfl⟩ | ⟨-, at_index⟩ := getElem?_set_eq_some at_index
      · exact .inr (.inl ⟨rfl, holds⟩)
      · exact .inl ⟨at_index, fun holds => nomatch free.symm.trans holds⟩
  | ran held images holds holds' nodup new before executed =>
      refine .inl ⟨images ▸ at_index, fun same => ?_⟩
      rwa [holds', ← holds]
  | ended held li' at_held state images events holds free executed =>
      rw [images] at at_index
      obtain ⟨rfl, rfl⟩ | ⟨different, at_index⟩ := getElem?_set_eq_some at_index
      · exact .inr (.inr ⟨rfl, holds, executed⟩)
      · exact .inl ⟨at_index, fun same => absurd (Option.some.inj (holds.symm.trans same)) different⟩

theorem Moved.holds (moved : Moved loadedImages frame advanced) (holds' : advanced.frame.phase.holds = some index) :
    frame.phase.holds = some index ∨ ∃ li, loadedImages[index]? = some li ∧ li.state = .fixedUp := by
  cases moved with
  | idle images events free free' => exact nomatch free'.symm.trans holds'
  | began begun li at_begun state images events free holds executed =>
      obtain rfl := Option.some.inj (holds.symm.trans holds')
      exact .inr ⟨li, at_begun, state⟩
  | ran held images holds also nodup new before executed =>
      obtain rfl := Option.some.inj (also.symm.trans holds')
      exact .inl holds
  | ended held li at_held state images events holds free executed => exact nomatch free.symm.trans holds'

theorem Moved.held (moved : Moved loadedImages frame advanced) (at_index : loadedImages[index]? = some li)
    (state : li.state = .beingInited) (other : frame.phase.holds ≠ some index) :
    advanced.loadedImages[index]? = some li := by
  cases moved with
  | idle images => rwa [images]
  | began begun li' at_begun state' images =>
      rw [images, List.getElem?_set_ne, at_index]
      rintro rfl
      obtain rfl := Option.some.inj (at_index.symm.trans at_begun)
      exact nomatch state.symm.trans state'
  | ran held images => rwa [images]
  | ended held li' at_held state' images events holds =>
      rw [images, List.getElem?_set_ne, at_index]
      rintro rfl
      exact other holds

theorem Moved.event (moved : Moved loadedImages frame advanced) {event : Event} (member : event ∈ advanced.events) :
    frame.phase.holds = some event.imageIndex ∧ advanced.frame.phase.holds = some event.imageIndex ∧
      ¬event.Before frame.phase ∧ event.Before advanced.frame.phase := by
  cases moved with
  | idle images events => exact nomatch events ▸ member
  | began begun li at_begun state images events => exact nomatch events ▸ member
  | ran held images holds holds' nodup new =>
      obtain ⟨rfl, fresh, before⟩ := new event member
      exact ⟨holds, holds', fresh, before⟩
  | ended held li at_held state images events => exact nomatch events ▸ member

theorem Moved.nodup (moved : Moved loadedImages frame advanced) : advanced.events.Nodup := by
  cases moved with
  | idle images events => exact events ▸ List.nodup_nil
  | began begun li at_begun state images events => exact events ▸ List.nodup_nil
  | ran held images holds holds' nodup => exact nodup
  | ended held li at_held state images events => exact events ▸ List.nodup_nil

/-- What is true of a call at any time: it has called all it should have of its image, and only that. -/
structure CallOK (loadedImages : List LoadedImage) (history : List Event) (outside : List ℕ) (frame : Frame) : Prop where
  placed : FrameOK loadedImages frame
  done : ∀ event ∈ history, frame.phase.holds = some event.imageIndex → event.Before frame.phase
  ran : ∀ index, frame.phase.holds = some index → ∀ number < frame.phase.executed, .initializer index number ∈ history
  inside : ∀ index, frame.phase.holds = some index → index ∉ outside

theorem CallOK.of_free (ok : FrameOK loadedImages frame) (free : frame.phase.holds = none) :
    CallOK loadedImages history outside frame :=
  ⟨ok, fun _ _ holds => (nomatch free.symm.trans holds), fun _ holds => (nomatch free.symm.trans holds),
    fun _ holds => (nomatch free.symm.trans holds)⟩

theorem callOK_new (initBefores : List ℕ) : CallOK loadedImages history outside ⟨initBefores, initBefores, .walking⟩ :=
  .of_free ⟨⟨[], by simp [Phase.image], nofun⟩, nofun, nofun⟩ rfl

theorem CallOK.other (ok : CallOK loadedImages history outside frame') (moved : Moved loadedImages frame advanced)
    (later : Later loadedImages advanced.loadedImages) (apart : frame.Apart frame') :
    CallOK advanced.loadedImages (history ++ advanced.events) outside frame' := by
  refine ⟨ok.placed.later later fun index holds => ?_, fun event member holds => ?_, fun index holds number less => ?_, ok.inside⟩
  · obtain ⟨li, at_index, state⟩ := ok.placed.held index holds
    exact ⟨li, moved.held at_index state (apart.symm index holds), state⟩
  · obtain member | member := List.mem_append.mp member
    · exact ok.done event member holds
    · exact absurd holds (apart _ (moved.event member).1)
  · exact List.mem_append_left _ (ok.ran index holds number less)

theorem CallOK.advance (ok : CallOK loadedImages history outside frame) (moved : Moved loadedImages frame advanced)
    (frameOK : FrameOK advanced.loadedImages advanced.frame)
    (past : ∀ event ∈ history, ∃ li, loadedImages[event.imageIndex]? = some li ∧ li.state ≠ .fixedUp)
    (taken : ∀ index ∈ outside, ∃ li, loadedImages[index]? = some li ∧ li.state = .beingInited) :
    CallOK advanced.loadedImages (history ++ advanced.events) outside advanced.frame := by
  cases moved with
  | idle images events free free' => exact .of_free frameOK free'
  | began begun li at_begun state images events free holds executed =>
      refine ⟨frameOK, fun event member holds' => ?_, fun index _ number less => ?_, fun index holds' member => ?_⟩
      · obtain rfl := Option.some.inj (holds.symm.trans holds')
        rw [events, List.append_nil] at member
        obtain ⟨li', at_event, begun⟩ := past event member
        obtain rfl := Option.some.inj (at_begun.symm.trans at_event)
        exact absurd state begun
      · exact absurd less (by rw [executed]; exact Nat.not_lt_zero number)
      · obtain rfl := Option.some.inj (holds.symm.trans holds')
        obtain ⟨li', at_index, state'⟩ := taken _ member
        obtain rfl := Option.some.inj (at_begun.symm.trans at_index)
        exact nomatch state.symm.trans state'
  | ran held images holds holds' nodup new before executed =>
      refine ⟨frameOK, fun event member holds'' => ?_, fun index holds'' number less => ?_, fun index holds'' => ?_⟩
      · obtain member | member := List.mem_append.mp member
        · exact before event (ok.done event member (holds.trans (holds'.symm.trans holds'')))
        · exact (new event member).2.2
      · obtain rfl := Option.some.inj (holds'.symm.trans holds'')
        exact List.mem_append.mpr ((executed number less).imp (ok.ran _ holds number) id)
      · obtain rfl := Option.some.inj (holds'.symm.trans holds'')
        exact ok.inside _ holds
  | ended held li at_held state images events holds free executed => exact .of_free frameOK free

/-- The image at this index is not initialized by `runInitialzersBottomUp`. -/
def Process.InitedElsewhere (start : Process) (index : ℕ) : Prop :=
  index ∈ start.outside ∨ ∃ li, start.loadedImages[index]? = some li ∧ li.state = .inited

structure Inv (start process : Process) : Prop where
  ready : Ready process.loadedImages
  calls : ∀ thread, ∀ frame ∈ process.threads thread,
    CallOK process.loadedImages process.history process.outside frame
  exclusive : Exclusive process.threads
  /-- Images that are initialized from elsewhere are so from the start. -/
  elsewhere : ∀ index ∈ process.outside, index ∈ start.outside
  outside : ∀ index ∈ process.outside, ∃ li, process.loadedImages[index]? = some li ∧ li.state = .beingInited
  /-- Somebody initializes an image that is being inited. -/
  begun : ∀ (index : ℕ) (li : LoadedImage), process.loadedImages[index]? = some li → li.state = .beingInited →
    index ∈ process.outside ∨ Held process.threads index
  /-- Only images that have been begun are called into. -/
  past : ∀ event ∈ process.history, ∃ li, process.loadedImages[event.imageIndex]? = some li ∧ li.state ≠ .fixedUp
  once : process.history.Nodup
  complete : ∀ (index : ℕ) (li : LoadedImage), process.loadedImages[index]? = some li → li.state = .inited →
    start.InitedElsewhere index ∨ ∀ number < li.image.initializers, .initializer index number ∈ process.history

variable {start process : Process}

theorem Process.Starts.inv (starts : start.Starts) : Inv start start where
  ready index li at_index := starts.states li (List.mem_of_getElem? at_index)
  calls thread frame member := nomatch starts.threads thread ▸ member
  exclusive := by
    refine ⟨fun thread => ?_, fun thread other _ frame member => nomatch starts.threads thread ▸ member⟩
    rw [starts.threads]
    exact .nil
  elsewhere _ member := member
  outside index := (starts.outside index).mp
  begun index li at_index state := .inl ((starts.outside index).mpr ⟨li, at_index, state⟩)
  past event member := nomatch starts.history ▸ member
  once := starts.history ▸ List.nodup_nil
  complete index li at_index state := .inl (.inr ⟨li, at_index, state⟩)

theorem held_update_self (member : frame ∈ frames) (holds : frame.phase.holds = some index) :
    Held (Function.update threads thread frames) index :=
  ⟨thread, frame, by rwa [Function.update_self], holds⟩

theorem Held.update (held : Held threads index)
    (keeps : ∀ frame ∈ threads thread, frame.phase.holds = some index → ∃ frame' ∈ frames, frame'.phase.holds = some index) :
    Held (Function.update threads thread frames) index := by
  obtain ⟨other, frame, member, holds⟩ := held
  by_cases same : other = thread
  · subst same
    obtain ⟨frame', member', holds'⟩ := keeps frame member holds
    exact held_update_self member' holds'
  · exact ⟨other, frame, by rwa [Function.update_of_ne same], holds⟩

theorem Inv.call (inv : Inv start process) (thread : ℕ) (initBefores : List ℕ) :
    Inv start { process with
      threads := Function.update process.threads thread (⟨initBefores, initBefores, .walking⟩ :: process.threads thread) } where
  ready := inv.ready
  calls := by
    refine forall_update.mpr ⟨fun frame member => ?_, fun other _ => inv.calls other⟩
    obtain rfl | member := List.mem_cons.mp member
    · exact callOK_new initBefores
    · exact inv.calls thread frame member
  exclusive := inv.exclusive.push rfl
  elsewhere := inv.elsewhere
  outside := inv.outside
  begun index li at_index state := (inv.begun index li at_index state).imp id fun held =>
    held.update fun frame member holds => ⟨frame, List.mem_cons_of_mem _ member, holds⟩
  past := inv.past
  once := inv.once
  complete := inv.complete

theorem Inv.returns (inv : Inv start process) (top : process.threads thread = frame :: outer)
    (walked : frame.phase = .walking) :
    Inv start { process with threads := Function.update process.threads thread outer } where
  ready := inv.ready
  calls := forall_update.mpr ⟨fun frame' member => inv.calls thread frame' (top ▸ List.mem_cons_of_mem _ member),
    fun other _ => inv.calls other⟩
  exclusive := inv.exclusive.pop top
  elsewhere := inv.elsewhere
  outside := inv.outside
  begun index li at_index state := (inv.begun index li at_index state).imp id fun held => held.update fun frame' member holds => by
    obtain rfl | member := List.mem_cons.mp (top ▸ member)
    · exact nomatch walked ▸ holds
    · exact ⟨frame', member, holds⟩
  past := inv.past
  once := inv.once
  complete := inv.complete

theorem Inv.advance (inv : Inv start process) (top : process.threads thread = frame :: outer)
    (run : frame.advance process.loadedImages process.objcNotifyInit = some advanced) :
    Inv start { process with
      loadedImages := advanced.loadedImages
      threads := Function.update process.threads thread (advanced.frame :: outer)
      history := process.history ++ advanced.events } := by
  have own := inv.calls thread frame (top ▸ List.mem_cons_self)
  have within := List.pairwise_cons.mp (top ▸ inv.exclusive.within thread)
  obtain ⟨moved, later, placed⟩ := advance_spec inv.ready own.placed run
  exact {
    ready := fun index li at_index => by
      obtain ⟨at_index, -⟩ | ⟨state, -⟩ | ⟨state, -⟩ := moved.image_cases at_index
      · exact inv.ready index li at_index
      · exact .inr (.inl state)
      · exact .inr (.inr state)
    calls := by
      refine forall_update.mpr ⟨fun frame' member => ?_, fun other different frame' member => ?_⟩
      · obtain rfl | member := List.mem_cons.mp member
        · exact own.advance moved placed inv.past inv.outside
        · exact (inv.calls thread frame' (top ▸ List.mem_cons_of_mem _ member)).other moved later (within.1 frame' member)
      · exact (inv.calls other frame' member).other moved later
          (inv.exclusive.across thread other different.symm frame (top ▸ List.mem_cons_self) frame' member)
    exclusive := inv.exclusive.replace top fun index holds => by
      refine (moved.holds holds).imp id fun ⟨li, at_index, state⟩ ⟨other, frame', member, held⟩ => ?_
      obtain ⟨li', at_index', state'⟩ := (inv.calls other frame' member).placed.held index held
      obtain rfl := Option.some.inj (at_index.symm.trans at_index')
      exact nomatch state.symm.trans state'
    elsewhere := inv.elsewhere
    outside := fun index member => by
      obtain ⟨li, at_index, state⟩ := inv.outside index member
      exact ⟨li, moved.held at_index state fun holds => own.inside index holds member, state⟩
    begun := fun index li at_index state => by
      obtain ⟨at_index, keeps⟩ | ⟨-, holds⟩ | ⟨state', -⟩ := moved.image_cases at_index
      · refine (inv.begun index li at_index state).imp id fun held => held.update fun frame' member holds => ?_
        obtain rfl | member := List.mem_cons.mp (top ▸ member)
        · exact ⟨_, List.mem_cons_self, keeps holds⟩
        · exact ⟨frame', List.mem_cons_of_mem _ member, holds⟩
      · exact .inr (held_update_self List.mem_cons_self holds)
      · exact nomatch state.symm.trans state'
    past := fun event member => by
      obtain member | member := List.mem_append.mp member
      · obtain ⟨li, at_event, state⟩ := inv.past event member
        obtain ⟨li', at_event', -, advances⟩ := later event.imageIndex li at_event
        have taken := advances.taken ((inv.ready _ li at_event).resolve_left state)
        exact ⟨li', at_event', fun fixed => by simp [fixed] at taken⟩
      · obtain ⟨li, at_event, state⟩ := placed.held event.imageIndex (moved.event member).2.1
        exact ⟨li, at_event, fun fixed => nomatch state.symm.trans fixed⟩
    once := by
      refine List.nodup_append.mpr ⟨inv.once, moved.nodup, ?_⟩
      rintro event member _ fresh rfl
      obtain ⟨holds, -, new, -⟩ := moved.event fresh
      exact new (own.done event member holds)
    complete := fun index li at_index state => by
      obtain ⟨at_index, -⟩ | ⟨state', -⟩ | ⟨-, holds, all⟩ := moved.image_cases at_index
      · exact (inv.complete index li at_index state).imp id fun ran number less => List.mem_append_left _ (ran number less)
      · exact nomatch state.symm.trans state'
      · exact .inr fun number less => List.mem_append_left _ (own.ran index holds number (less.trans_le all)) }

theorem Inv.addImages (inv : Inv start process) (newImages : List Image) :
    Inv start { process with
      loadedImages := process.loadedImages ++ newImages.map fun image => ⟨image, .fixedUp⟩ } := by
  have later : Later process.loadedImages (process.loadedImages ++ newImages.map fun image => ⟨image, .fixedUp⟩) := later_append _
  have image_cases {index : ℕ} {li : LoadedImage}
      (at_index : (process.loadedImages ++ newImages.map fun image => ⟨image, LoadState.fixedUp⟩)[index]? = some li) :
      process.loadedImages[index]? = some li ∨ li.state = .fixedUp := by
    rw [List.getElem?_append] at at_index
    split at at_index
    · exact .inl at_index
    · obtain ⟨image, -, rfl⟩ := List.mem_map.mp (List.mem_of_getElem? at_index)
      exact .inr rfl
  have stays {index : ℕ} {li : LoadedImage} (at_index : process.loadedImages[index]? = some li) :
      (process.loadedImages ++ newImages.map fun image => ⟨image, LoadState.fixedUp⟩)[index]? = some li :=
    (List.getElem?_append_left (List.getElem?_eq_some_iff.mp at_index).1).trans at_index
  exact {
    ready := fun index li at_index => (image_cases at_index).elim (inv.ready index li) .inl
    calls := fun thread frame member => by
      obtain ⟨placed, done, ran, inside⟩ := inv.calls thread frame member
      refine ⟨placed.later later fun index holds => ?_, done, ran, inside⟩
      exact (placed.held index holds).imp fun li => And.imp_left stays
    exclusive := inv.exclusive
    elsewhere := inv.elsewhere
    outside := fun index member => (inv.outside index member).imp fun li => And.imp_left stays
    begun := fun index li at_index state => (image_cases at_index).elim (fun at_index => inv.begun index li at_index state)
      fun fixed => (nomatch state.symm.trans fixed)
    past := fun event member => (inv.past event member).imp fun li => And.imp_left stays
    once := inv.once
    complete := fun index li at_index state => (image_cases at_index).elim
      (fun at_index => inv.complete index li at_index state) fun fixed => (nomatch state.symm.trans fixed) }

theorem Inv.finishOutside (inv : Inv start process) (member : index ∈ process.outside)
    (at_index : process.loadedImages[index]? = some li) :
    Inv start { process with
      loadedImages := process.loadedImages.set index { li with state := .inited }
      outside := process.outside.filter (· ≠ index) } := by
  have state : li.state = .beingInited := by
    obtain ⟨li', at_index', state⟩ := inv.outside index member
    rwa [Option.some.inj (at_index.symm.trans at_index')]
  have later := later_set at_index (state ▸ .endInit : Advances li.state .inited)
  have stays {other : ℕ} {li' : LoadedImage} (different : other ≠ index) (at_other : process.loadedImages[other]? = some li') :
      (process.loadedImages.set index { li with state := .inited })[other]? = some li' :=
    (List.getElem?_set_ne different.symm).trans at_other
  exact {
    ready := fun other li' at_other => by
      obtain ⟨-, rfl⟩ | ⟨-, at_other⟩ := getElem?_set_eq_some at_other
      · exact .inr (.inr rfl)
      · exact inv.ready other li' at_other
    calls := fun thread frame at_frame => by
      obtain ⟨placed, done, ran, inside⟩ := inv.calls thread frame at_frame
      refine ⟨placed.later later fun other holds => ?_, done, ran, fun other holds at_other => ?_⟩
      · refine (placed.held other holds).imp fun li' => And.imp_left (stays ?_)
        rintro rfl
        exact inside other holds member
      · exact inside other holds (List.mem_filter.mp at_other).1
    exclusive := inv.exclusive
    elsewhere := fun other at_other => inv.elsewhere other (List.mem_filter.mp at_other).1
    outside := fun other at_other => by
      obtain ⟨at_other, different⟩ := List.mem_filter.mp at_other
      exact (inv.outside other at_other).imp fun li' => And.imp_left (stays (of_decide_eq_true different))
    begun := fun other li' at_other state' => by
      obtain ⟨-, rfl⟩ | ⟨different, at_other⟩ := getElem?_set_eq_some at_other
      · exact nomatch state'
      · refine (inv.begun other li' at_other state').imp (fun also => ?_) id
        exact List.mem_filter.mpr ⟨also, decide_eq_true (Ne.symm different)⟩
    past := fun event at_event => by
      obtain ⟨li', found, begun⟩ := inv.past event at_event
      obtain ⟨li'', found', -, advances⟩ := later event.imageIndex li' found
      have taken := advances.taken ((inv.ready _ li' found).resolve_left begun)
      exact ⟨li'', found', fun fixed => by simp [fixed] at taken⟩
    once := inv.once
    complete := fun other li' at_other state' => by
      obtain ⟨rfl, -⟩ | ⟨-, at_other⟩ := getElem?_set_eq_some at_other
      · exact .inl (.inl (inv.elsewhere _ member))
      · exact inv.complete other li' at_other state' }

theorem Inv.step {next : Process} (inv : Inv start process) (step : Step process next) : Inv start next := by
  cases step with
  | call thread topImage user => exact inv.call thread topImage.initBefores
  | advance top run => exact inv.advance top run
  | returns top walked ended => exact inv.returns top walked
  | addImages thread newImages user => exact inv.addImages newImages
  | setObjCNotifiers => exact ⟨inv.ready, inv.calls, inv.exclusive, inv.elsewhere, inv.outside, inv.begun, inv.past,
      inv.once, inv.complete⟩
  | finishOutside member at_index => exact inv.finishOutside member at_index

theorem Process.Starts.reaches (starts : start.Starts) (path : Relation.ReflTransGen Step start process) :
    Inv start process := by
  induction path with
  | refl => exact starts.inv
  | tail path step inv => exact inv.step step

theorem Inv.later {next : Process} (inv : Inv start process) (step : Step process next) :
    Later process.loadedImages next.loadedImages := by
  cases step with
  | call thread topImage user => exact .refl _
  | advance top run => exact (advance_spec inv.ready (inv.calls _ _ (top ▸ List.mem_cons_self)).placed run).2.1
  | returns top walked ended => exact .refl _
  | addImages thread newImages user => exact later_append _
  | setObjCNotifiers => exact .refl _
  | @finishOutside index li member at_index =>
      obtain ⟨li', at_index', state⟩ := inv.outside index member
      obtain rfl := Option.some.inj (at_index.symm.trans at_index')
      exact later_set at_index (state ▸ .endInit)

/-- Another call, or one that this call is inside of, initializes the image; or it is initialized from elsewhere. -/
def Process.BeingInitedElsewhere (process : Process) (thread : ℕ) (outer : List Frame) (index : ℕ) : Prop :=
  (∃ frame ∈ outer, frame.phase.holds = some index) ∨
    (∃ other, other ≠ thread ∧ ∃ frame ∈ process.threads other, frame.phase.holds = some index) ∨
    index ∈ process.outside

theorem Inv.returned (inv : Inv start process) (top : process.threads thread = frame :: outer)
    (walked : frame.phase = .walking) (ended : frame.remaining = []) :
    ∀ num ∈ frame.initBefores, ∃ index li, indexOf process.loadedImages num = some index ∧
      process.loadedImages[index]? = some li ∧
      (li.state = .inited ∨ li.state = .beingInited ∧ process.BeingInitedElsewhere thread outer index) := by
  intro num member
  obtain ⟨visited, list, taken⟩ := (inv.calls thread frame (top ▸ List.mem_cons_self)).placed.visited
  have visits : frame.initBefores = visited := by simpa [walked, ended, Phase.image] using list
  obtain ⟨index, li, found, at_index, state⟩ := taken num (visits ▸ member)
  refine ⟨index, li, found, at_index, state.symm.imp id fun state => ⟨state, ?_⟩⟩
  obtain elsewhere | ⟨other, frame', member', holds⟩ := inv.begun index li at_index state
  · exact .inr (.inr elsewhere)
  · by_cases same : other = thread
    · subst same
      obtain rfl | member' := List.mem_cons.mp (top ▸ member')
      · rw [walked] at holds
        cases holds
      · exact .inl ⟨frame', member', holds⟩
    · exact .inr (.inl ⟨other, same, frame', member', holds⟩)

/-- In every run of any threads: no notification and no initializer is called twice, the images' states only
advance, a call that returns leaves its images inited or with somebody else, and an image that is inited has
had all its initializers called. -/
theorem runInitialzersBottomUp_runs (starts : start.Starts) (path : Relation.ReflTransGen Step start process) :
    process.history.Nodup ∧
    (∀ next, Step process next → Later process.loadedImages next.loadedImages) ∧
    (∀ thread frame outer, process.threads thread = frame :: outer → frame.phase = .walking → frame.remaining = [] →
      ∀ num ∈ frame.initBefores, ∃ index li, indexOf process.loadedImages num = some index ∧
        process.loadedImages[index]? = some li ∧
        (li.state = .inited ∨ li.state = .beingInited ∧ process.BeingInitedElsewhere thread outer index)) ∧
    (∀ (index : ℕ) (li : LoadedImage), process.loadedImages[index]? = some li → li.state = .inited →
      start.InitedElsewhere index ∨ ∀ number < li.image.initializers, .initializer index number ∈ process.history) :=
  have inv := starts.reaches path
  ⟨inv.once, fun _ => inv.later, fun _ _ _ => inv.returned, inv.complete⟩

/-- An image with one initializer, in its own list. -/
def plusLoadImage : Image := ⟨4096, true, true, none, true, 1, [4096]⟩

def oneImage : Process := ⟨[⟨plusLoadImage, .fixedUp⟩], true, fun _ => [], [], []⟩

theorem oneImage_starts : oneImage.Starts := by
  refine ⟨fun _ => rfl, rfl, by decide, fun index => ⟨nofun, fun ⟨li, at_index, state⟩ => ?_⟩⟩
  obtain rfl := List.mem_singleton.mp (List.mem_of_getElem? at_index)
  exact nomatch state

/-- Two threads at the same image: the second one returns while the first one is in the notification. -/
theorem runInitialzersBottomUp_runs_twoThreads :
    ∃ process, Relation.ReflTransGen Step oneImage process ∧ process.loadedImages = [⟨plusLoadImage, .inited⟩] ∧
      process.history = [.notify 0, .initializer 0 0] ∧ process.history.Nodup := by
  have path : Relation.ReflTransGen Step oneImage _ :=
    .tail (.tail (.tail (.tail (.tail (.tail (.tail (.tail (.tail (.tail (.tail .refl
      (.call 0 plusLoadImage nofun))
      (@Step.advance _ 0 _ _ _ rfl rfl))
      (@Step.advance _ 0 _ _ _ rfl rfl))
      (@Step.advance _ 0 _ _ _ rfl rfl))
      (.call 1 plusLoadImage nofun))
      (@Step.advance _ 1 _ _ _ rfl rfl))
      (@Step.returns _ 1 _ _ rfl rfl rfl))
      (@Step.advance _ 0 _ _ _ rfl rfl))
      (@Step.advance _ 0 _ _ _ rfl rfl))
      (@Step.advance _ 0 _ _ _ rfl rfl))
      (@Step.advance _ 0 _ _ _ rfl rfl)
  exact ⟨_, path, rfl, rfl, (runInitialzersBottomUp_runs oneImage_starts path).1⟩

end ObjcDyld.Initializers
