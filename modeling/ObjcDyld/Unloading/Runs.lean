import ObjcDyld.Unloading.Calls

/-!
# Runs with collections

A collection keeps every image that is still needed when it ends and unloads the
others, provided that images that are never unloaded do not need what it sweeps,
and that terminators do not open an image that is being unloaded.
-/

namespace ObjcDyld.Unloading

open Loops

/-! ## Terminators -/

def LegalCalls : AllImages → List Call → Prop
  | _, [] => True
  | all, call :: calls =>
      call.Legal all ∧ ∀ all', all.nestedCall call = .ok all' → LegalCalls all' calls

/-- Terminators of dead images that make legal calls. -/
def LegalTerminators (terminators : Terminators) : AllImages → List LoadedImage → Prop
  | _, [] => True
  | all, li :: dead =>
      LegalCalls { all with events := all.events ++ [.terminated li] } (terminators li) ∧
        ∀ all', all.runTerminators terminators li = .ok all' →
          LegalTerminators terminators all' dead

/-- What the calls of terminators do; if none of them asks for a collection, nothing is closed. -/
structure Later (all all' : AllImages) : Prop where
  consistent : Consistent all'
  loaded : all.loadedImages ⊆ all'.loadedImages
  gcCount : all.gcCount ≤ all'.gcCount
  counts : all'.gcCount = all.gcCount →
    ∀ address, 0 < all.refCount address → 0 < all'.refCount address
  needed : all'.gcCount = all.gcCount →
    ∀ li ∈ all'.loadedImages, li ∉ all.loadedImages → Needed all' li

namespace Later

variable {all middle all' : AllImages}

theorem refl (consistent : Consistent all) : Later all all :=
  ⟨consistent, fun _ => id, Nat.le_refl _, fun _ _ => id, fun _ _ mem new => absurd mem new⟩

theorem trans (first : Later all middle) (second : Later middle all') : Later all all' := by
  refine ⟨second.consistent, fun _ mem => second.loaded (first.loaded mem),
    first.gcCount.trans second.gcCount, fun same address count => ?_, fun same li mem new => ?_⟩
  all_goals
    have same' : all'.gcCount = middle.gcCount := by
      have := first.gcCount
      have := second.gcCount
      omega
  · exact second.counts same' address (first.counts (same'.symm.trans same) address count)
  · by_cases old : li ∈ middle.loadedImages
    · exact (first.needed (same'.symm.trans same) li old new).mono second.loaded (second.counts same')
    · exact second.needed same' li mem old

theorem nestedCall (consistent : Consistent all) {call : Call} (legal : call.Legal all)
    (run : all.nestedCall call = .ok all') : Later all all' ∧ all'.events = all.events := by
  have called := called_call consistent legal
  rw [AllImages.nestedCall] at run
  generalize all.call call = outcome at called run
  obtain ⟨middle, doCollect⟩ := outcome
  cases doCollect with
  | false =>
      obtain rfl := Except.ok.inj run
      exact ⟨⟨called.consistent, called.loaded, called.gcCount.ge, fun _ => called.counts rfl,
        fun _ => called.needed⟩, called.events⟩
  | true =>
      simp only [if_true] at run
      split at run
      · obtain rfl := Except.ok.inj run
        have more : ¬ middle.gcCount + 1 = all.gcCount := by
          have := called.gcCount
          simp only at this
          omega
        refine ⟨⟨called.consistent.withGcCount _, called.loaded, ?_, fun same => absurd same more,
          fun same => absurd same more⟩, called.events⟩
        have := called.gcCount
        simp only at this ⊢
        omega
      · cases run

theorem calls {calls : List Call} (consistent : Consistent all) (legal : LegalCalls all calls)
    (run : calls.foldlM AllImages.nestedCall all = .ok all') :
    Later all all' ∧ all'.events = all.events := by
  induction calls generalizing all with
  | nil =>
      obtain rfl := Except.ok.inj run
      exact ⟨refl consistent, rfl⟩
  | cons call calls ih =>
      rw [List.foldlM_cons] at run
      obtain ⟨middle, first, run⟩ := bind_eq_ok run
      obtain ⟨later, events⟩ := nestedCall consistent legal.1 first
      obtain ⟨rest, events'⟩ := ih later.consistent (legal.2 middle first) run
      exact ⟨later.trans rest, events'.trans events⟩

theorem finalizeDeadImages {terminators : Terminators} {dead : List LoadedImage}
    (consistent : Consistent all) (legal : LegalTerminators terminators all dead)
    (run : all.finalizeDeadImages terminators dead = .ok all') :
    Later all all' ∧ all'.events = all.events ++ dead.map Event.terminated := by
  induction dead generalizing all with
  | nil =>
      obtain rfl := Except.ok.inj run
      exact ⟨refl consistent, (List.append_nil _).symm⟩
  | cons li dead ih =>
      rw [AllImages.finalizeDeadImages, List.foldlM_cons] at run
      obtain ⟨middle, ran, run⟩ := bind_eq_ok run
      obtain ⟨after, calls_ok, checked⟩ := bind_eq_ok ran
      have same : after = middle := by
        split at checked
        · cases checked
        · exact Except.ok.inj checked
      subst same
      obtain ⟨later, events⟩ := calls (consistent.withEvents _) legal.1 calls_ok
      have first : Later all after :=
        ⟨later.consistent, later.loaded, later.gcCount, later.counts, later.needed⟩
      obtain ⟨rest, events'⟩ := ih later.consistent (legal.2 after ran) run
      refine ⟨first.trans rest, ?_⟩
      rw [events', events, List.map_cons, List.append_assoc]
      rfl

end Later

/-! ## Removal -/

section Removal

variable {all : AllImages}

theorem mem_eraseP_address {images : List LoadedImage}
    (distinct : (images.map LoadedImage.loadedAddress).Nodup) {uli li : LoadedImage} :
    li ∈ images.eraseP (fun li => uli.loadedAddress = li.loadedAddress) ↔
      li ∈ images ∧ li.loadedAddress ≠ uli.loadedAddress := by
  induction images with
  | nil => simp
  | cons first images ih =>
      rw [List.map_cons, List.nodup_cons] at distinct
      by_cases here : uli.loadedAddress = first.loadedAddress
      · rw [List.eraseP_cons_of_pos (by simpa using here)]
        constructor
        · intro mem
          refine ⟨List.mem_cons_of_mem first mem, fun same => distinct.1 ?_⟩
          rw [← here, ← same]
          exact List.mem_map_of_mem mem
        · rintro ⟨mem, ne⟩
          rcases List.mem_cons.mp mem with rfl | mem
          · exact absurd here.symm ne
          · exact mem
      · rw [List.eraseP_cons_of_neg (by simpa using here), List.mem_cons, List.mem_cons,
          ih distinct.2]
        constructor
        · rintro (rfl | ⟨mem, ne⟩)
          · exact ⟨Or.inl rfl, fun same => here same.symm⟩
          · exact ⟨Or.inr mem, ne⟩
        · rintro ⟨rfl | mem, ne⟩
          · exact Or.inl rfl
          · exact Or.inr ⟨mem, ne⟩

theorem removeImages_spec (dead : List LoadedImage)
    (distinct : (all.loadedImages.map LoadedImage.loadedAddress).Nodup) :
    (∀ li, li ∈ (all.removeImages dead).loadedImages ↔
        li ∈ all.loadedImages ∧ li.loadedAddress ∉ dead.map LoadedImage.loadedAddress) ∧
      (all.removeImages dead).loadedImages.Sublist all.loadedImages ∧
      (all.removeImages dead).dlopenRefCounts = all.dlopenRefCounts ∧
      (all.removeImages dead).gcCount = all.gcCount ∧
      (all.removeImages dead).events = all.events ++ dead.map Event.unloaded := by
  induction dead generalizing all with
  | nil => simp [AllImages.removeImages]
  | cons uli dead ih =>
      rw [AllImages.removeImages, List.foldl_cons]
      have sublist : (all.loadedImages.eraseP fun li =>
          uli.loadedAddress = li.loadedAddress).Sublist all.loadedImages := List.eraseP_sublist
      obtain ⟨left, sub, counts, gcCount, events⟩ := @ih { all with
        loadedImages := all.loadedImages.eraseP fun li => uli.loadedAddress = li.loadedAddress
        events := all.events ++ [.unloaded uli] } (distinct.sublist (sublist.map _))
      refine ⟨fun li => ?_, sub.trans sublist, counts, gcCount, ?_⟩
      · rw [AllImages.removeImages] at left
        rw [left, mem_eraseP_address distinct, List.map_cons, List.mem_cons, not_or]
        tauto
      · rw [AllImages.removeImages] at events
        rw [events, List.append_assoc]
        rfl

end Removal

/-! ## Collections -/

/--
When a collection keeps what is needed: images that are never unloaded only
depend on images that are in use otherwise, the terminators run without moving
the list of images and with a bounded number of requests for collections, and
when they are done no dead image is open or a dependent of a new image.
-/
structure AllImages.KeepsNeeded (all : AllImages) (terminators : Terminators) : Prop where
  neverUnload : ∀ li ∈ all.loadedImages, li.image.neverUnload = true →
    ∀ lj ∈ all.loadedImages, lj.image.neverUnload = false → li.DependsOn lj → InUse all lj
  terminators : ∃ after, all.finalizeDeadImages terminators all.deadImages = .ok after ∧
    (∀ li ∈ all.deadImages, after.refCount li.loadedAddress = 0) ∧
    ∀ li ∈ after.loadedImages, li ∉ all.loadedImages → ∀ lj ∈ all.deadImages, ¬ li.DependsOn lj

/-- What a round of a collection leaves. -/
structure Swept (all all' : AllImages) (dead : List LoadedImage) : Prop where
  consistent : Consistent all'
  complete : all'.gcCount = 0 →
    ∀ li ∈ all'.loadedImages, li.image.neverUnload = false → Needed all' li
  unloadable : ∀ li ∈ dead, li.image.neverUnload = false
  distinct : (dead.map LoadedImage.loadedAddress).Nodup
  events : all'.events = all.events ++ (dead.map Event.terminated ++ dead.map Event.unloaded)

section Collect

variable {all : AllImages} {terminators : Terminators}

theorem mem_swept {after : AllImages} (consistent : Consistent all) (later : Later all after)
    {li : LoadedImage} : li ∈ (after.removeImages all.deadImages).loadedImages ↔
      li ∈ after.loadedImages ∧ li ∉ all.deadImages := by
  rw [(removeImages_spec all.deadImages later.consistent.distinct).1]
  refine and_congr_right fun mem => not_congr ⟨fun inMap => ?_, List.mem_map_of_mem⟩
  obtain ⟨lj, dead, same⟩ := List.mem_map.mp inMap
  obtain ⟨loaded, -⟩ := (mem_deadImages_iff consistent.counts consistent.distinct).mp dead
  obtain rfl := List.inj_on_of_nodup_map later.consistent.distinct (later.loaded loaded) mem same
  exact dead

theorem not_dependsOn_dead {after : AllImages} (consistent : Consistent all)
    (neverUnload : ∀ li ∈ all.loadedImages, li.image.neverUnload = true →
      ∀ lj ∈ all.loadedImages, lj.image.neverUnload = false → li.DependsOn lj → InUse all lj)
    (noNew : ∀ li ∈ after.loadedImages, li ∉ all.loadedImages →
      ∀ lj ∈ all.deadImages, ¬ li.DependsOn lj)
    {li lj : LoadedImage} (mem : li ∈ after.loadedImages) (alive : li ∉ all.deadImages)
    (depends : li.DependsOn lj) : lj ∉ all.deadImages := by
  intro dead
  obtain ⟨loaded, unloadable, notInUse⟩ :=
    (mem_deadImages_iff consistent.counts consistent.distinct).mp dead
  by_cases old : li ∈ all.loadedImages
  · refine notInUse ?_
    cases kept : li.image.neverUnload with
    | true => exact neverUnload li old kept lj loaded unloadable depends
    | false =>
        have inUse : InUse all li := by
          by_contra unused
          exact alive ((mem_deadImages_iff consistent.counts consistent.distinct).mpr
            ⟨old, kept, unused⟩)
        exact .dependent inUse loaded unloadable depends
  · exact noNew li mem old lj dead depends

theorem swept_collect (consistent : Consistent all)
    (legal : LegalTerminators terminators all all.deadImages)
    (keeps : all.KeepsNeeded terminators) (collecting : 0 < all.gcCount) :
    ∃ all', all.collect terminators = .ok all' ∧ Swept all all' all.deadImages := by
  obtain ⟨neverUnload, after, run, closed, noNew⟩ := keeps
  obtain ⟨later, terminated⟩ := Later.finalizeDeadImages consistent legal run
  have isDead := fun li => @mem_deadImages_iff all consistent.counts consistent.distinct li
  have stays := fun li lj => @not_dependsOn_dead all after consistent neverUnload noNew li lj
  have mem := fun li => @mem_swept all after consistent later li
  obtain ⟨-, sublist, counts, gcCount, unloaded⟩ :=
    removeImages_spec all.deadImages later.consistent.distinct
  -- An opened image is not dead, so that it is not removed.
  have open_alive : ∀ li, 0 < after.refCount li.loadedAddress → li ∉ all.deadImages :=
    fun li count dead => absurd (closed li dead) (Nat.pos_iff_ne_zero.mp count)
  generalize swept_eq : after.removeImages all.deadImages = swept at *
  have consistent' : Consistent swept := by
    refine ⟨counts ▸ later.consistent.counts, later.consistent.distinct.sublist (sublist.map _),
      fun entry memEntry => ?_, fun li loaded num isDependent => ?_⟩
    · rw [counts] at memEntry
      obtain ⟨li, loaded, here⟩ := later.consistent.opened entry memEntry
      have count : 0 < after.refCount li.loadedAddress := by
        rw [here, AllImages.refCount, later.consistent.counts.refCountIn_eq memEntry]
        exact later.consistent.counts.positive entry memEntry
      exact ⟨li, (mem li).mpr ⟨loaded, open_alive li count⟩, here⟩
    · obtain ⟨loaded, alive⟩ := (mem li).mp loaded
      obtain ⟨lj, loadedJ, represents⟩ := later.consistent.dependents li loaded num isDependent
      have aliveJ := stays li lj loaded alive ⟨num, isDependent, represents⟩
      exact ⟨lj, (mem lj).mpr ⟨loadedJ, aliveJ⟩, represents⟩
  have needed : ∀ li, Needed after li → li ∉ all.deadImages ∧ Needed swept li := by
    intro li isNeeded
    induction isNeeded with
    | @root li loaded kept =>
        have alive : li ∉ all.deadImages := by
          rcases kept with kept | count
          · intro dead
            rw [((isDead li).mp dead).2.1] at kept
            cases kept
          · exact open_alive li count
        refine ⟨alive, .root ((mem li).mpr ⟨loaded, alive⟩) ?_⟩
        rwa [AllImages.refCount, counts]
    | @dependent li lj _ loaded depends ih =>
        have loadedI := ((mem li).mp ih.2.mem).1
        have alive := stays li lj loadedI ih.1 depends
        exact ⟨alive, .dependent ih.2 ((mem lj).mpr ⟨loaded, alive⟩) depends⟩
  refine ⟨{ swept with gcCount := swept.gcCount - 1 }, ?_, consistent'.withGcCount _,
    fun finished li loaded unloadable => ?_, fun li dead => ((isDead li).mp dead).2.1,
    nodup_deadImages consistent.counts consistent.distinct, ?_⟩
  · rw [AllImages.collect, run, ok_bind, swept_eq]
  · have same : after.gcCount = all.gcCount := by
      have := later.gcCount
      simp only at finished
      omega
    obtain ⟨loaded, alive⟩ := (mem li).mp loaded
    have isNeeded : Needed after li := by
      by_cases old : li ∈ all.loadedImages
      · have inUse : InUse all li := by
          by_contra unused
          exact alive ((isDead li).mpr ⟨old, unloadable, unused⟩)
        exact inUse.needed.mono later.loaded (later.counts same)
      · exact later.needed same li loaded old
    exact @Needed.mono swept { swept with gcCount := swept.gcCount - 1 } (List.Subset.refl _)
      (fun _ => id) li (needed li isNeeded).2
  · rw [unloaded, terminated, List.append_assoc]

end Collect

/-! ## Runs -/

def Label.Legal (all : AllImages) : Label → Prop
  | .call made => all.gcCount = 0 ∧ made.Legal all
  | .collect terminators => 0 < all.gcCount ∧ LegalTerminators terminators all all.deadImages

/-- Every collection of a run keeps what is needed. -/
def Label.KeepsNeeded (all : AllImages) : Label → Prop
  | .call _ => True
  | .collect terminators => all.KeepsNeeded terminators

/-- Something holds of every step of a run. -/
def Throughout (holds : AllImages → Label → Prop) : AllImages → List Label → Prop
  | _, [] => True
  | all, label :: labels =>
      holds all label ∧ ∀ all', all.step label = .ok all' → Throughout holds all' labels

/-- The images after the launch of a process, before the first call. -/
structure Launched (all : AllImages) : Prop extends Consistent all where
  gcCount : all.gcCount = 0
  events : all.events = []

/--
The end of a collection: the images that it unloaded are not needed unless they
were loaded again, the images that are left are needed or never unloaded, and
terminators were run once before an image was unloaded.
-/
structure Collected (all : AllImages) : Prop where
  neverUnload : ∀ li, .unloaded li ∈ all.events → li.image.neverUnload = false
  opened : ∀ li, .unloaded li ∈ all.events → 0 < all.refCount li.loadedAddress →
    ∃ lj ∈ all.loadedImages, lj.loadedAddress = li.loadedAddress
  needed : ∀ li, .unloaded li ∈ all.events → ∀ lj, Needed all lj →
    ∀ num ∈ lj.image.dependents, li.image.representsImageNum num →
      ∃ lk ∈ all.loadedImages, lk.image.representsImageNum num
  complete : ∀ li ∈ all.loadedImages, li.image.neverUnload = false → Needed all li
  terminators : ∃ rounds : List (List LoadedImage),
    all.events = rounds.flatMap (fun dead =>
      dead.map Event.terminated ++ dead.map Event.unloaded) ∧
    ∀ dead ∈ rounds, (dead.map LoadedImage.loadedAddress).Nodup

def Rounds (events : List Event) : Prop :=
  ∃ rounds : List (List LoadedImage),
    events = rounds.flatMap (fun dead => dead.map Event.terminated ++ dead.map Event.unloaded) ∧
    ∀ dead ∈ rounds, (dead.map LoadedImage.loadedAddress).Nodup ∧
      ∀ li ∈ dead, li.image.neverUnload = false

theorem Rounds.append {events : List Event} (rounds : Rounds events) {dead : List LoadedImage}
    (distinct : (dead.map LoadedImage.loadedAddress).Nodup)
    (unloadable : ∀ li ∈ dead, li.image.neverUnload = false) :
    Rounds (events ++ (dead.map Event.terminated ++ dead.map Event.unloaded)) := by
  obtain ⟨earlier, rfl, facts⟩ := rounds
  refine ⟨earlier ++ [dead], ?_, fun other mem => ?_⟩
  · rw [List.flatMap_append, List.flatMap_singleton]
  · rcases List.mem_append.mp mem with mem | mem
    · exact facts other mem
    · obtain rfl := List.mem_singleton.mp mem
      exact ⟨distinct, unloadable⟩

theorem Rounds.unloadable {events : List Event} (rounds : Rounds events) {li : LoadedImage}
    (unloaded : .unloaded li ∈ events) : li.image.neverUnload = false := by
  obtain ⟨rounds, rfl, facts⟩ := rounds
  obtain ⟨dead, isRound, mem⟩ := List.mem_flatMap.mp unloaded
  rcases List.mem_append.mp mem with mem | mem
  · obtain ⟨_, _, same⟩ := List.mem_map.mp mem
    cases same
  · obtain ⟨lj, isDead, same⟩ := List.mem_map.mp mem
    cases same
    exact (facts dead isRound).2 li isDead

section Run

variable {all : AllImages}

theorem step_collected (consistent : Consistent all) (rounds : Rounds all.events) {label : Label}
    (legal : label.Legal all) (keeps : label.KeepsNeeded all) :
    ∃ all', all.step label = .ok all' ∧ Consistent all' ∧ Rounds all'.events ∧
      ∀ terminators, label = .collect terminators → all'.gcCount = 0 → Collected all' := by
  cases label with
  | call call =>
      have called := called_call consistent legal.2
      rw [AllImages.step]
      generalize all.call call = outcome at called
      obtain ⟨after, doCollect⟩ := outcome
      cases doCollect with
      | false =>
          refine ⟨after, rfl, called.consistent, ?_, nofun⟩
          rw [show after.events = all.events from called.events]
          exact rounds
      | true =>
          exact ⟨_, rfl, (called.consistent.withGcCount 1).withEvents [], ⟨[], rfl, by simp⟩, nofun⟩
  | collect terminators =>
      obtain ⟨all', run, swept⟩ := swept_collect consistent legal.2 keeps legal.1
      have rounds' : Rounds all'.events := by
        rw [swept.events]
        exact rounds.append swept.distinct swept.unloadable
      refine ⟨all', run, swept.consistent, rounds', fun _ _ finished => ?_⟩
      refine ⟨fun li => rounds'.unloadable, fun li _ count => ?_, fun li _ lj isNeeded num isDependent _ => ?_,
        swept.complete finished, ?_⟩
      · obtain ⟨entry, opened, here⟩ := exists_of_refCountIn count
        rw [← here]
        exact swept.consistent.opened entry opened
      · exact swept.consistent.dependents lj isNeeded.mem num isDependent
      · obtain ⟨rounds, events, facts⟩ := rounds'
        exact ⟨rounds, events, fun dead mem => (facts dead mem).1⟩

theorem runLabels_spec (consistent : Consistent all) (rounds : Rounds all.events)
    {labels : List Label} (legal : Throughout Label.Legal all labels)
    (keeps : Throughout Label.KeepsNeeded all labels) :
    ∃ all', all.runLabels labels = .ok all' ∧ ∀ earlier terminators,
      labels = earlier ++ [.collect terminators] → all'.gcCount = 0 → Collected all' := by
  induction labels generalizing all with
  | nil => exact ⟨all, rfl, fun earlier _ empty => by simp at empty⟩
  | cons label labels ih =>
      obtain ⟨middle, step, consistent', rounds', collected⟩ :=
        step_collected consistent rounds legal.1 keeps.1
      obtain ⟨all', run, ends⟩ := ih consistent' rounds' (legal.2 middle step) (keeps.2 middle step)
      refine ⟨all', ?_, fun earlier terminators split finished => ?_⟩
      · rw [AllImages.runLabels, List.foldlM_cons, step, ok_bind]
        exact run
      · cases earlier with
        | cons first earlier => exact ends earlier terminators (List.cons.inj split).2 finished
        | nil =>
            obtain ⟨rfl, rfl⟩ := List.cons.inj split
            obtain rfl := Except.ok.inj run
            exact collected terminators rfl finished

/-- A run whose collections keep what is needed unloads, with every collection, exactly the rest. -/
theorem runLabels_collected (launched : Launched all) {labels : List Label}
    (legal : Throughout Label.Legal all labels) (keeps : Throughout Label.KeepsNeeded all labels) :
    ∃ all', all.runLabels labels = .ok all' ∧ ∀ earlier terminators,
      labels = earlier ++ [.collect terminators] → all'.gcCount = 0 → Collected all' :=
  runLabels_spec launched.toConsistent ⟨[], launched.events, by simp⟩ legal keeps

end Run

/-! ## A plug-in -/

/-- A program, which is never unloaded. -/
def program : LoadedImage := ⟨⟨1, none, true, false, [], nofun⟩, 0x1000⟩

/-- A plug-in that depends on a library. -/
def plugIn : LoadedImage := ⟨⟨2, none, false, false, [3], nofun⟩, 0x2000⟩

def plugInLibrary : LoadedImage := ⟨⟨3, none, false, false, [], nofun⟩, 0x3000⟩

def programImages : AllImages := ⟨[program], 16, [], 0, []⟩

/-- The plug-in is opened and closed; its terminator makes a call. -/
def plugInRun (call : Call) : List Label :=
  [.call (.dlopenNew plugIn [plugInLibrary]), .call (.dlclose 0x2000),
    .collect fun li => if li = plugIn then [call] else []]

theorem launched_programImages : Launched programImages := by
  refine ⟨⟨⟨List.nodup_nil, nofun⟩, List.nodup_singleton _, nofun, fun li mem num isDependent => ?_⟩,
    rfl, rfl⟩
  obtain rfl := List.mem_singleton.mp mem
  cases isDependent

theorem loads_plugIn : programImages.Loads plugIn [plugInLibrary] := by
  refine ⟨by decide, by decide, fun li mem => ?_⟩
  rcases List.mem_cons.mp mem with rfl | mem
  · exact .refl
  · obtain rfl := List.mem_singleton.mp mem
    exact .single ⟨by decide, List.mem_cons_self⟩

theorem legal_plugInRun {loadedAddress : ℕ} :
    Throughout Label.Legal programImages (plugInRun (.dlopenLoaded loadedAddress)) := by
  refine ⟨⟨rfl, loads_plugIn⟩, fun opened step => ?_⟩
  obtain rfl := Except.ok.inj step
  refine ⟨⟨rfl, trivial⟩, fun closed step => ?_⟩
  obtain rfl := Except.ok.inj step
  refine ⟨⟨Nat.one_pos, ⟨trivial, fun _ _ => trivial⟩, fun terminated run => ?_⟩, fun _ _ => trivial⟩
  exact ⟨trivial, fun _ _ => trivial⟩

/-- A terminator that opens the program. -/
theorem collected_plugInRun :
    ∃ all, programImages.runLabels (plugInRun (.dlopenLoaded 0x1000)) = .ok all ∧ Collected all := by
  have keeps : Throughout Label.KeepsNeeded programImages (plugInRun (.dlopenLoaded 0x1000)) := by
    refine ⟨trivial, fun opened step => ?_⟩
    obtain rfl := Except.ok.inj step
    refine ⟨trivial, fun closed step => ?_⟩
    obtain rfl := Except.ok.inj step
    refine ⟨⟨?_, _, rfl, by decide, by decide⟩, fun _ _ => trivial⟩
    rintro li mem kept lj - - ⟨num, isDependent, -⟩
    have loaded : li ∈ [program, plugIn, plugInLibrary] := mem
    rcases List.mem_cons.mp loaded with rfl | others
    · cases isDependent
    · rcases List.mem_pair.mp others with rfl | rfl <;> cases kept
  obtain ⟨all, run, ends⟩ := runLabels_collected launched_programImages legal_plugInRun keeps
  refine ⟨all, run, ends [_, _] _ rfl ?_⟩
  obtain rfl := Except.ok.inj run
  rfl

/-- A terminator that opens its own image again: the image is unloaded with a reference count. -/
theorem not_collected_plugInRun : Launched programImages ∧
    Throughout Label.Legal programImages (plugInRun (.dlopenLoaded 0x2000)) ∧
    ∃ all, programImages.runLabels (plugInRun (.dlopenLoaded 0x2000)) = .ok all ∧
      all.gcCount = 0 ∧ ¬ Collected all := by
  refine ⟨launched_programImages, legal_plugInRun, _, rfl, rfl, fun collected => ?_⟩
  obtain ⟨li, mem, here⟩ := collected.opened plugIn (by decide) (by decide)
  have only : li ∈ [program] := mem
  obtain rfl := List.mem_singleton.mp only
  cases here

end ObjcDyld.Unloading
