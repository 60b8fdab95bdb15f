import ObjcDyld.Common.PostOrder
import ObjcDyld.Closures.LoadedImages

/-!
# The searches behind the initializer order

Each search that `computeInitOrder` starts finishes in post-order, numbers the images as it
finishes them and leaves every upward link to an unvisited image marked.
-/

namespace ObjcDyld.Closures

open PostOrder (Reaches Searching)

variable {loadedImages : List BuilderLoadedImage}

/-- The images to visit: no bad image, and every link leads to a loaded image. -/
structure WellLinked (loadedImages : List BuilderLoadedImage) : Prop where
  good : ∀ li ∈ loadedImages, li.isBadImage = false
  loaded : LinksLoaded loadedImages

namespace InitState

/-- The upward links to the image need no further mark. -/
def Noted (state : InitState) (loadIndex : ℕ) : Prop :=
  (state.initInfos loadIndex).visited = true ∨ (state.initInfos loadIndex).danglingUpward = true

/-- How the infos record a search over the links that are not upward. -/
structure Records (loadedImages : List BuilderLoadedImage) (state : InitState) (opened : Set ℕ)
    (finished : List ℕ) : Prop where
  searching : Searching (Below loadedImages) opened finished
  visited : ∀ i, (state.initInfos i).visited = true ↔ i ∈ finished ∨ i ∈ opened
  numbered : ∀ before i after, finished = before ++ i :: after →
    (state.initInfos i).initOrder = before.length + 1
  counter : state.initOrder = finished.length + 1
  noError : state.hasError = false
  dangling : ∀ i, (state.initInfos i).danglingUpward = true → (state.initInfos i).visited = false ∧
    ∃ visited, (visited ∈ finished ∨ visited ∈ opened) ∧ Upward loadedImages visited i
  noted : ∀ i ∈ finished, ∀ target, Upward loadedImages i target → state.Noted target
  bound : ∀ i ∈ finished, i < loadedImages.length

theorem records_start : Records loadedImages start ∅ [] where
  searching := Searching.start
  visited := by simp [start]
  numbered := by simp
  counter := rfl
  noError := rfl
  dangling := by simp [start]
  noted := by simp
  bound := by simp

@[simp] theorem visit_visited (state : InitState) (loadIndex i : ℕ) :
    ((state.visit loadIndex).initInfos i).visited = (decide (i = loadIndex) || (state.initInfos i).visited) := by
  by_cases same : i = loadIndex
  · simp [visit, same]
  · simp [visit, same]

@[simp] theorem visit_danglingUpward (state : InitState) (loadIndex i : ℕ) :
    ((state.visit loadIndex).initInfos i).danglingUpward =
      (!decide (i = loadIndex) && (state.initInfos i).danglingUpward) := by
  by_cases same : i = loadIndex
  · simp [visit, same]
  · simp [visit, same]

@[simp] theorem visit_initOrder (state : InitState) (loadIndex i : ℕ) :
    ((state.visit loadIndex).initInfos i).initOrder = (state.initInfos i).initOrder := by
  by_cases same : i = loadIndex
  · simp [visit, same]
  · simp [visit, same]

@[simp] theorem markDangling_visited (state : InitState) (loadIndex i : ℕ) :
    ((state.markDangling loadIndex).initInfos i).visited = (state.initInfos i).visited := by
  by_cases same : i = loadIndex
  · simp [markDangling, same]
  · simp [markDangling, same]

@[simp] theorem markDangling_danglingUpward (state : InitState) (loadIndex i : ℕ) :
    ((state.markDangling loadIndex).initInfos i).danglingUpward =
      (decide (i = loadIndex) || (state.initInfos i).danglingUpward) := by
  by_cases same : i = loadIndex
  · simp [markDangling, same]
  · simp [markDangling, same]

@[simp] theorem markDangling_initOrder (state : InitState) (loadIndex i : ℕ) :
    ((state.markDangling loadIndex).initInfos i).initOrder = (state.initInfos i).initOrder := by
  by_cases same : i = loadIndex
  · simp [markDangling, same]
  · simp [markDangling, same]

@[simp] theorem finish_visited (state : InitState) (loadIndex i : ℕ) :
    ((state.finish loadIndex).initInfos i).visited = (state.initInfos i).visited := by
  by_cases same : i = loadIndex
  · simp [finish, same]
  · simp [finish, same]

@[simp] theorem finish_danglingUpward (state : InitState) (loadIndex i : ℕ) :
    ((state.finish loadIndex).initInfos i).danglingUpward = (state.initInfos i).danglingUpward := by
  by_cases same : i = loadIndex
  · simp [finish, same]
  · simp [finish, same]

theorem Noted.visit {state : InitState} {i : ℕ} (noted : state.Noted i) (loadIndex : ℕ) :
    (state.visit loadIndex).Noted i := by
  by_cases same : i = loadIndex
  · exact Or.inl (by simp [same])
  · simpa [Noted, same] using noted

theorem Noted.markDangling {state : InitState} {i : ℕ} (noted : state.Noted i) (loadIndex : ℕ) :
    (state.markDangling loadIndex).Noted i :=
  noted.imp (by simp) fun dangling => by simp [dangling]

namespace Records

variable {state : InitState} {opened : Set ℕ} {finished : List ℕ} {loadIndex : ℕ}

theorem visit (records : Records loadedImages state opened finished)
    (fresh : (state.initInfos loadIndex).visited = false) :
    Records loadedImages (state.visit loadIndex) (insert loadIndex opened) finished := by
  have unvisited : ¬(loadIndex ∈ finished ∨ loadIndex ∈ opened) := fun inside => by
    simp [(records.visited loadIndex).mpr inside] at fresh
  constructor
  · exact records.searching.openNode fun inside => unvisited (Or.inl inside)
  · intro i
    simp only [visit_visited, Bool.or_eq_true, decide_eq_true_eq, records.visited i, Set.mem_insert_iff]
    tauto
  · intro before i after eq
    rw [visit_initOrder]
    exact records.numbered before i after eq
  · exact records.counter
  · exact records.noError
  · intro i marked
    simp only [visit_danglingUpward, Bool.and_eq_true, Bool.not_eq_true', decide_eq_false_iff_not] at marked
    obtain ⟨unseen, visited, seen, link⟩ := records.dangling i marked.2
    exact ⟨by simp [marked.1, unseen], visited, seen.imp_right (Set.mem_insert_of_mem loadIndex), link⟩
  · exact fun i inside target link => (records.noted i inside target link).visit loadIndex
  · exact records.bound

theorem markDangling (records : Records loadedImages state opened finished) {i : ℕ}
    (fresh : (state.initInfos i).visited = false) (seen : loadIndex ∈ opened)
    (link : Upward loadedImages loadIndex i) :
    Records loadedImages (state.markDangling i) opened finished := by
  constructor
  · exact records.searching
  · intro other
    rw [markDangling_visited]
    exact records.visited other
  · intro before other after eq
    rw [markDangling_initOrder]
    exact records.numbered before other after eq
  · exact records.counter
  · exact records.noError
  · intro other marked
    rw [markDangling_danglingUpward, Bool.or_eq_true, decide_eq_true_eq] at marked
    rcases marked with rfl | marked
    · exact ⟨by simpa using fresh, loadIndex, Or.inr seen, link⟩
    · simpa using records.dangling other marked
  · exact fun other inside target edge => (records.noted other inside target edge).markDangling i
  · exact records.bound

theorem finish (records : Records loadedImages state (insert loadIndex opened) finished)
    (fresh : loadIndex ∉ opened) (bound : loadIndex < loadedImages.length)
    (nexts : ∀ next, Below loadedImages loadIndex next → next ∈ finished ∨ next ∈ insert loadIndex opened)
    (upward : ∀ next, Upward loadedImages loadIndex next → state.Noted next)
    (stack : ∀ stacked ∈ opened, Reaches (Below loadedImages) stacked loadIndex) :
    Records loadedImages (state.finish loadIndex) opened (finished ++ [loadIndex]) := by
  have absent : loadIndex ∉ finished := fun inside =>
    records.searching.closing loadIndex inside (Set.mem_insert loadIndex opened)
  have same : ∀ i, (state.finish loadIndex).Noted i ↔ state.Noted i := by
    intro i
    rw [Noted, Noted, finish_visited, finish_danglingUpward]
  constructor
  · exact records.searching.finish fresh nexts stack
  · intro i
    rw [finish_visited, records.visited i, Set.mem_insert_iff, List.mem_append, List.mem_singleton]
    tauto
  · intro before i after eq
    rcases List.append_eq_append_iff.mp eq with ⟨rest, rfl, tail⟩ | ⟨rest, rfl, tail⟩
    · cases rest with
      | nil =>
          obtain rfl := (List.cons.inj tail).1
          simpa [InitState.finish] using records.counter
      | cons other rest => simp at tail
    · cases rest with
      | nil =>
          obtain rfl := (List.cons.inj tail).1
          simpa [InitState.finish] using records.counter
      | cons other rest =>
          obtain ⟨rfl, -⟩ := List.cons.inj tail
          have other : i ≠ loadIndex := fun same => absent (same ▸ by simp)
          rw [← records.numbered before i rest rfl]
          simp [InitState.finish, other]
  · simp [InitState.finish, records.counter]
  · exact records.noError
  · intro i marked
    rw [finish_danglingUpward] at marked
    obtain ⟨unseen, visited, seen, link⟩ := records.dangling i marked
    refine ⟨by simpa using unseen, visited, ?_, link⟩
    simp only [List.mem_append, List.mem_singleton]
    simp only [Set.mem_insert_iff] at seen
    tauto
  · intro i inside target link
    rw [same]
    rcases List.mem_append.mp inside with earlier | last
    · exact records.noted i earlier target link
    · exact upward target (List.mem_singleton.mp last ▸ link)
  · intro i inside
    rcases List.mem_append.mp inside with earlier | last
    · exact records.bound i earlier
    · exact List.mem_singleton.mp last ▸ bound

end Records

/-- The images not visited yet. -/
def unvisited (loadedImages : List BuilderLoadedImage) (state : InitState) : Finset ℕ :=
  (Finset.range loadedImages.length).filter fun i => (state.initInfos i).visited = false

theorem unvisited_visit {state : InitState} {loadIndex : ℕ} (bound : loadIndex < loadedImages.length)
    (fresh : (state.initInfos loadIndex).visited = false) :
    ((state.visit loadIndex).unvisited loadedImages).card < (state.unvisited loadedImages).card := by
  apply Finset.card_lt_card
  refine ⟨fun i inside => ?_, fun subset => ?_⟩
  · simp only [unvisited, Finset.mem_filter, visit_visited, Bool.or_eq_false_iff] at inside ⊢
    exact ⟨inside.1, inside.2.2⟩
  · have member : loadIndex ∈ state.unvisited loadedImages := by simp [unvisited, bound, fresh]
    simpa [unvisited] using subset member

/-- What a search from an image adds to the finished ones. -/
structure Searched (loadedImages : List BuilderLoadedImage) (loadIndex : ℕ) (opened : Set ℕ)
    (finished added : List ℕ) (state next : InitState) : Prop where
  records : Records loadedImages next opened (finished ++ added)
  reached : ∀ i ∈ added, Reaches (Below loadedImages) loadIndex i
  noted : ∀ i, state.Noted i → next.Noted i

theorem Searched.unvisited_le {loadIndex : ℕ} {opened : Set ℕ} {finished added : List ℕ}
    {state next : InitState} (records : Records loadedImages state opened finished)
    (searched : Searched loadedImages loadIndex opened finished added state next) :
    (next.unvisited loadedImages).card ≤ (state.unvisited loadedImages).card := by
  apply Finset.card_le_card
  intro i inside
  simp only [unvisited, Finset.mem_filter] at inside ⊢
  refine ⟨inside.1, Bool.eq_false_iff.mpr fun seen => Bool.eq_false_iff.mp inside.2 ?_⟩
  exact (searched.records.visited i).mpr
    (((records.visited i).mp seen).imp_left (List.mem_append_left added))

namespace Searched

variable {loadIndex : ℕ} {opened : Set ℕ} {finished added : List ℕ} {state next : InitState}

theorem refl (records : Records loadedImages state opened finished) :
    Searched loadedImages loadIndex opened finished [] state state where
  records := by simpa using records
  reached := by simp
  noted := fun _ noted => noted

theorem trans {depLoadIndex : ℕ} {more : List ℕ} {last : InitState}
    (first : Searched loadedImages depLoadIndex opened finished added state next)
    (second : Searched loadedImages loadIndex opened (finished ++ added) more next last)
    (path : Reaches (Below loadedImages) loadIndex depLoadIndex) :
    Searched loadedImages loadIndex opened finished (added ++ more) state last where
  records := by simpa using second.records
  reached i inside := by
    rcases List.mem_append.mp inside with earlier | later
    · exact path.trans (first.reached i earlier)
    · exact second.reached i later
  noted i noted := second.noted i (first.noted i noted)

theorem visited (searched : Searched loadedImages loadIndex opened finished added state next)
    (records : Records loadedImages state opened finished) {i : ℕ}
    (seen : (state.initInfos i).visited = true) : (next.initInfos i).visited = true :=
  (searched.records.visited i).mpr (((records.visited i).mp seen).imp_left (List.mem_append_left added))

end Searched

/-- The dependent needs no further search and no further mark. -/
def Settled (loadedImages : List BuilderLoadedImage) (state : InitState) (dep : LinkedImage) : Prop :=
  ∀ depLoadIndex, dep.imageNum ≠ kMissingWeakLinkedImage →
    findLoadedImage loadedImages (dep.imageNum.setWidth 32) = some depLoadIndex →
    if dep.kind = .upward then state.Noted depLoadIndex else (state.initInfos depLoadIndex).visited = true

theorem Searched.settled {loadIndex : ℕ} {opened : Set ℕ} {finished added : List ℕ} {state next : InitState}
    (searched : Searched loadedImages loadIndex opened finished added state next)
    (records : Records loadedImages state opened finished) {dep : LinkedImage}
    (settled : Settled loadedImages state dep) : Settled loadedImages next dep := by
  intro depLoadIndex present found
  have before := settled depLoadIndex present found
  split at before
  · next upward => simpa [upward] using searched.noted depLoadIndex before
  · next other => simpa [other] using searched.visited records before

/-- The specification of a search nested at most `depth` deep. -/
def SearchSpec (loadedImages : List BuilderLoadedImage) (depth : ℕ) : Prop :=
  ∀ loadIndex < loadedImages.length, ∀ opened finished state, Records loadedImages state opened finished →
    (∀ stacked ∈ opened, Reaches (Below loadedImages) stacked loadIndex) →
    (state.unvisited loadedImages).card < depth →
    ∃ next added, depthFirstRecurseSetInitInfo loadedImages depth loadIndex state = some next ∧
      Searched loadedImages loadIndex opened finished added state next ∧
      (next.initInfos loadIndex).visited = true

theorem recurseDependents_spec (linked : WellLinked loadedImages) {depth : ℕ}
    (spec : SearchSpec loadedImages depth) {loadIndex : ℕ} {li : BuilderLoadedImage}
    (image : loadedImages[loadIndex]? = some li) {opened : Set ℕ} (open_top : loadIndex ∈ opened)
    (stack : ∀ stacked ∈ opened, Reaches (Below loadedImages) stacked loadIndex) (deps : List LinkedImage)
    (subset : ∀ dep ∈ deps, dep ∈ li.dependents) (finished : List ℕ) (state : InitState)
    (records : Records loadedImages state opened finished)
    (fuel : (state.unvisited loadedImages).card < depth) :
    ∃ next added, recurseDependents loadedImages (depthFirstRecurseSetInitInfo loadedImages depth) deps state =
        some (true, next) ∧
      Searched loadedImages loadIndex opened finished added state next ∧
      ∀ dep ∈ deps, Settled loadedImages next dep := by
  induction deps generalizing finished state with
  | nil => exact ⟨state, [], rfl, Searched.refl records, by simp⟩
  | cons dep rest ih =>
      have inside : dep ∈ li.dependents := subset dep List.mem_cons_self
      -- once this dependent is settled the rest of the loop keeps it so
      suffices ∃ middle first, (recurseDependents loadedImages
            (depthFirstRecurseSetInitInfo loadedImages depth) (dep :: rest) state =
          recurseDependents loadedImages (depthFirstRecurseSetInitInfo loadedImages depth) rest middle) ∧
          Searched loadedImages loadIndex opened finished first state middle ∧
          Settled loadedImages middle dep by
        obtain ⟨middle, first, run, searched, settled⟩ := this
        obtain ⟨next, added, rest_run, rest_searched, rest_settled⟩ :=
          ih (fun other member => subset other (List.mem_cons_of_mem dep member)) (finished ++ first) middle
            searched.records ((searched.unvisited_le records).trans_lt fuel)
        refine ⟨next, first ++ added, run.trans rest_run,
          searched.trans rest_searched Relation.ReflTransGen.refl, ?_⟩
        rintro other (_ | ⟨_, member⟩)
        · exact rest_searched.settled searched.records settled
        · exact rest_settled other member
      by_cases missing : dep.imageNum = kMissingWeakLinkedImage
      · exact ⟨state, [], by simp [recurseDependents, missing], Searched.refl records,
          fun _ present => absurd missing present⟩
      obtain ⟨depLoadIndex, found⟩ := Option.isSome_iff_exists.mp
        (linked.loaded li (List.mem_of_getElem? image) dep inside missing)
      by_cases upward : dep.kind = .upward
      · have link : Upward loadedImages loadIndex depLoadIndex := ⟨li, image, dep, inside, missing, upward, found⟩
        cases seen : (state.initInfos depLoadIndex).visited with
        | true =>
            refine ⟨state, [], by simp [recurseDependents, missing, found, upward, seen], Searched.refl records, ?_⟩
            intro other _ same
            obtain rfl := Option.some.inj (found.symm.trans same)
            rw [if_pos upward]
            exact Or.inl seen
        | false =>
            refine ⟨state.markDangling depLoadIndex, [],
              by simp [recurseDependents, missing, found, upward, seen], ?_, ?_⟩
            · exact ⟨by simpa using records.markDangling seen open_top link, by simp,
                fun i noted => noted.markDangling depLoadIndex⟩
            · intro other _ same
              obtain rfl := Option.some.inj (found.symm.trans same)
              simp [upward, Noted]
      · have link : Below loadedImages loadIndex depLoadIndex := ⟨li, image, dep, inside, missing, upward, found⟩
        obtain ⟨middle, first, run, searched, seen⟩ :=
          spec depLoadIndex (findLoadedImage_lt found) opened finished state records
            (fun stacked member => (stack stacked member).tail link) fuel
        refine ⟨middle, first, ?_, ?_, ?_⟩
        · simp [recurseDependents, missing, found, upward, run, searched.records.noError]
        · simpa using searched.trans (Searched.refl searched.records) (Relation.ReflTransGen.single link)
        · intro other _ same
          obtain rfl := Option.some.inj (found.symm.trans same)
          simpa [upward] using seen

theorem depthFirstRecurseSetInitInfo_spec (linked : WellLinked loadedImages) (depth : ℕ) :
    SearchSpec loadedImages depth := by
  induction depth with
  | zero => exact fun _ _ _ _ _ _ _ fuel => absurd fuel (Nat.not_lt_zero _)
  | succ depth ih =>
      intro loadIndex bound opened finished state records stack fuel
      cases seen : (state.initInfos loadIndex).visited with
      | true =>
          exact ⟨state, [], by simp [depthFirstRecurseSetInitInfo, seen], Searched.refl records, seen⟩
      | false =>
          have image : loadedImages[loadIndex]? = some loadedImages[loadIndex] := List.getElem?_eq_getElem bound
          have good := linked.good loadedImages[loadIndex] (List.getElem_mem bound)
          have unopened : loadIndex ∉ opened := fun inside => by
            simp [(records.visited loadIndex).mpr (Or.inr inside)] at seen
          have stack_top : ∀ stacked ∈ insert loadIndex opened, Reaches (Below loadedImages) stacked loadIndex := by
            rintro stacked (rfl | member)
            · exact Relation.ReflTransGen.refl
            · exact stack stacked member
          obtain ⟨next, added, run, searched, settled⟩ :=
            recurseDependents_spec linked ih image (Set.mem_insert loadIndex opened) stack_top _
              (fun _ inside => inside) finished (state.visit loadIndex) (records.visit seen)
              (Nat.lt_of_lt_of_le (unvisited_visit bound seen) (Nat.le_of_lt_succ fuel))
          have done : Records loadedImages (next.finish loadIndex) opened (finished ++ added ++ [loadIndex]) := by
            refine searched.records.finish unopened bound ?_ ?_ stack
            · rintro target ⟨li, at_index, dep, inside, present, kind, found⟩
              obtain rfl := Option.some.inj (image.symm.trans at_index)
              exact (searched.records.visited target).mp
                (by simpa [kind] using settled dep inside target present found)
            · rintro target ⟨li, at_index, dep, inside, present, kind, found⟩
              obtain rfl := Option.some.inj (image.symm.trans at_index)
              simpa [kind] using settled dep inside target present found
          refine ⟨next.finish loadIndex, added ++ [loadIndex], ?_, ⟨by simpa using done, ?_, ?_⟩, ?_⟩
          · simp [depthFirstRecurseSetInitInfo, seen, image, good, run]
          · intro i inside
            rcases List.mem_append.mp inside with earlier | last
            · exact searched.reached i earlier
            · rw [List.mem_singleton.mp last]
          · intro i noted
            simpa [Noted] using searched.noted i (noted.visit loadIndex)
          · exact (done.visited loadIndex).mpr (Or.inl (by simp))

end InitState

end ObjcDyld.Closures
