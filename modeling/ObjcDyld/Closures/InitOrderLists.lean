import ObjcDyld.Closures.InitOrderRuns

/-!
# The list of initializers

The search from the top image finishes all that is below it. The loop over the array then
finishes what upward links lead to in ascending order of index. The written list is the part
of the finishing order with initializers.
-/

namespace ObjcDyld.Closures

open PostOrder (Reaches OnCycle Searching)

section Specification

variable (loadedImages : List BuilderLoadedImage) (top : ℕ)

/--
Reachable from the top image along upward links to images of ascending index, with any links
that are not upward between them. The bound exceeds the index of every such image.
-/
inductive Ascending : ℕ → ℕ → Prop where
  | down {i : ℕ} (path : Reaches (Below loadedImages) top i) : Ascending 0 i
  | upward {bound i target j : ℕ} (before : Ascending bound i) (link : Upward loadedImages i target)
      (le : bound ≤ target) (path : Reaches (Below loadedImages) target j) : Ascending (target + 1) j

def HasInits (i : ℕ) : Prop := ∃ li, loadedImages[i]? = some li ∧ li.hasInits = true

/-- What holds of the images with initializers in the order they are listed. -/
structure BottomUp (order : List ℕ) : Prop where
  nodup : order.Nodup
  reachable : ∀ i ∈ order, HasInits loadedImages i ∧ Reaches (Linked loadedImages) top i
  complete : ∀ bound i, Ascending loadedImages top bound i → HasInits loadedImages i → i ∈ order
  direct : ∀ i ∈ order, ∀ dep ∈ order, Below loadedImages i dep → ¬Reaches (Below loadedImages) dep i →
    [dep, i].Sublist order
  bottomUp : ∀ i ∈ order, ∀ dep ∈ order, dep ≠ i → Reaches (Below loadedImages) i dep →
    ¬OnCycle (Below loadedImages) i → [dep, i].Sublist order
  upwardLast : ∀ i ∈ order, ∀ late ∈ order, Reaches (Below loadedImages) top i →
    ¬Reaches (Below loadedImages) top late → [i, late].Sublist order

end Specification

variable {loadedImages : List BuilderLoadedImage} {top : ℕ}

theorem reaches_linked {i j : ℕ} (path : Reaches (Below loadedImages) i j) :
    Reaches (Linked loadedImages) i j :=
  Relation.ReflTransGen.mono (fun _ _ link => LinksBy.linked link) _ _ path

theorem Ascending.linked {bound i : ℕ} (ascending : Ascending loadedImages top bound i) :
    Reaches (Linked loadedImages) top i := by
  induction ascending with
  | down path => exact reaches_linked path
  | upward before link le path ih => exact (ih.tail (LinksBy.linked link)).trans (reaches_linked path)

open InitState

/-- The loop over the array before index `count`. -/
structure Looped (loadedImages : List BuilderLoadedImage) (top : ℕ) (first : List ℕ) (count : ℕ)
    (finished : List ℕ) (state : InitState) : Prop where
  records : Records loadedImages state ∅ finished
  extends_first : first <+: finished
  sound : ∀ i ∈ finished, ∃ bound ≤ count, Ascending loadedImages top bound i
  complete : ∀ bound ≤ count, ∀ i, Ascending loadedImages top bound i → i ∈ finished

theorem first_search (linked : WellLinked loadedImages) (bound : top < loadedImages.length) :
    ∃ first state, depthFirstRecurseSetInitInfo loadedImages (loadedImages.length + 1) top InitState.start = some state ∧
      (∀ i, i ∈ first ↔ Reaches (Below loadedImages) top i) ∧ Looped loadedImages top first 0 first state := by
  have fuel : (InitState.start.unvisited loadedImages).card < loadedImages.length + 1 :=
    Nat.lt_succ_of_le ((Finset.card_filter_le _ _).trans (Finset.card_range _).le)
  obtain ⟨state, first, run, searched, seen⟩ :=
    depthFirstRecurseSetInitInfo_spec linked _ top bound ∅ [] InitState.start records_start (by simp) fuel
  have records : Records loadedImages state ∅ first := by simpa using searched.records
  have top_inside : top ∈ first := ((records.visited top).mp seen).resolve_right (Set.notMem_empty top)
  have exact_first : ∀ i, i ∈ first ↔ Reaches (Below loadedImages) top i := fun i =>
    ⟨searched.reached i, records.searching.reaches_finished top_inside⟩
  refine ⟨first, state, run, exact_first, records, List.prefix_refl first, ?_, ?_⟩
  · exact fun i inside => ⟨0, le_rfl, .down ((exact_first i).mp inside)⟩
  · rintro bound le i ascending
    cases ascending with
    | down path => exact (exact_first i).mpr path
    | upward => exact absurd le (by simp)

theorem Looped.visitDangling (linked : WellLinked loadedImages) {first finished : List ℕ} {count : ℕ}
    {state : InitState} (looped : Looped loadedImages top first count finished state)
    (bound : count < loadedImages.length) :
    ∃ next finished', visitDangling loadedImages (loadedImages.length + 1) state count = some next ∧
      Looped loadedImages top first (count + 1) finished' next := by
  by_cases dangling : (state.initInfos count).visited = false ∧ (state.initInfos count).danglingUpward = true
  · have fuel : (state.unvisited loadedImages).card < loadedImages.length + 1 :=
      Nat.lt_succ_of_le ((Finset.card_filter_le _ _).trans (Finset.card_range _).le)
    obtain ⟨next, added, run, searched, seen⟩ := depthFirstRecurseSetInitInfo_spec linked _ count bound ∅ finished
      state looped.records (by simp) fuel
    obtain ⟨-, i, inside, link⟩ := looped.records.dangling count dangling.2
    obtain ⟨before, le, ascending⟩ := looped.sound i (inside.resolve_right (Set.notMem_empty i))
    have count_inside : count ∈ finished ++ added :=
      ((searched.records.visited count).mp seen).resolve_right (Set.notMem_empty count)
    refine ⟨next, finished ++ added, by simp [Closures.visitDangling, dangling, run], searched.records,
      looped.extends_first.trans (List.prefix_append finished added), ?_, ?_⟩
    · intro j member
      rcases List.mem_append.mp member with earlier | later
      · obtain ⟨bound, small, path⟩ := looped.sound j earlier
        exact ⟨bound, Nat.le_succ_of_le small, path⟩
      · exact ⟨count + 1, le_rfl, .upward ascending link le (searched.reached j later)⟩
    · intro bound small j path
      rcases Nat.lt_or_eq_of_le small with less | rfl
      · exact List.mem_append_left added (looped.complete bound (Nat.le_of_lt_succ less) j path)
      · cases path with
        | upward _ _ _ path => exact searched.records.searching.reaches_finished count_inside path
  · refine ⟨state, finished, by simp [Closures.visitDangling]; tauto, looped.records, looped.extends_first, ?_, ?_⟩
    · intro j member
      obtain ⟨bound, small, path⟩ := looped.sound j member
      exact ⟨bound, Nat.le_succ_of_le small, path⟩
    · intro bound small j path
      rcases Nat.lt_or_eq_of_le small with less | rfl
      · exact looped.complete bound (Nat.le_of_lt_succ less) j path
      · cases path with
        | upward before link le path =>
            -- the upward link was noted when its image was finished, so its target is visited by now
            have noted := looped.records.noted _ (looped.complete _ le _ before) count link
            have seen : (state.initInfos count).visited = true := by
              rcases noted with seen | marked
              · exact seen
              · by_contra unseen
                exact dangling ⟨by simpa using unseen, marked⟩
            have inside := ((looped.records.visited count).mp seen).resolve_right (Set.notMem_empty count)
            exact looped.records.searching.reaches_finished inside path

theorem dangling_loop (linked : WellLinked loadedImages) {first : List ℕ} {state : InitState}
    (looped : Looped loadedImages top first 0 first state) (count : ℕ) (bound : count ≤ loadedImages.length) :
    ∃ next finished, (List.range count).foldlM (visitDangling loadedImages (loadedImages.length + 1)) state = some next ∧
      Looped loadedImages top first count finished next := by
  induction count with
  | zero => exact ⟨state, first, rfl, looped⟩
  | succ count ih =>
      obtain ⟨middle, finished, run, before⟩ := ih (by omega)
      obtain ⟨next, finished', step, after⟩ := before.visitDangling linked (by omega)
      refine ⟨next, finished', ?_, after⟩
      rw [List.range_succ, List.foldlM_append, run]
      simpa using step

theorem InitState.Records.ascending {state : InitState} {opened : Set ℕ} {finished : List ℕ}
    (records : Records loadedImages state opened finished) :
    finished.Pairwise fun i j => (state.initInfos i).initOrder < (state.initInfos j).initOrder := by
  have number : ∀ place (bound : place < finished.length),
      (state.initInfos finished[place]).initOrder = place + 1 := by
    intro place bound
    have split : finished = finished.take place ++ finished[place] :: finished.drop (place + 1) := by simp
    rw [records.numbered _ _ _ split, List.length_take_of_le bound.le]
  refine List.pairwise_iff_getElem.mpr fun i j bound bound' less => ?_
  rw [number i bound, number j bound']
  exact Nat.succ_lt_succ less

theorem Looped.sorted {first finished : List ℕ} {count : ℕ} {state : InitState}
    (looped : Looped loadedImages top first count finished state) :
    BubbleSort.sort (fun index => (state.initInfos index).initOrder) (indexOfImagesWithInits loadedImages state) =
      finished.filter fun index => (loadedImages[index]?.map (·.hasInits)).getD false := by
  refine BubbleSort.sort_eq_of_perm _ ?_ (looped.records.ascending.filter _)
  refine (List.perm_ext_iff_of_nodup (List.nodup_range.filter _) (looped.records.searching.nodup.filter _)).mpr ?_
  intro i
  have seen : (state.initInfos i).visited = true ↔ i ∈ finished := by simp [looped.records.visited i]
  simp only [List.mem_filter, List.mem_range, Bool.and_eq_true, seen]
  constructor
  · exact fun inside => inside.2
  · exact fun inside => ⟨looped.records.bound i inside.1, inside⟩

theorem mem_withInits {finished : List ℕ} {i : ℕ} :
    i ∈ finished.filter (fun index => (loadedImages[index]?.map (·.hasInits)).getD false) ↔
      i ∈ finished ∧ HasInits loadedImages i := by
  rw [List.mem_filter, HasInits]
  cases loadedImages[i]? with
  | none => simp
  | some li => simp

theorem sublist_withInits {finished before after : List ℕ} {i j : ℕ} (eq : finished = before ++ after)
    (inside : i ∈ before) (inside' : j ∈ after) (inits : HasInits loadedImages i) (inits' : HasInits loadedImages j) :
    [i, j].Sublist (finished.filter fun index => (loadedImages[index]?.map (·.hasInits)).getD false) := by
  have both : [i, j].Sublist finished :=
    eq ▸ (List.singleton_sublist.mpr inside).append (List.singleton_sublist.mpr inside')
  have kept := both.filter fun index => (loadedImages[index]?.map (·.hasInits)).getD false
  obtain ⟨li, image, has⟩ := inits
  obtain ⟨li', image', has'⟩ := inits'
  simpa [image, has, image', has'] using kept

theorem Looped.bottomUp {first finished : List ℕ} {state : InitState}
    (looped : Looped loadedImages top first loadedImages.length finished state)
    (exact_first : ∀ i, i ∈ first ↔ Reaches (Below loadedImages) top i) :
    BottomUp loadedImages top
      (finished.filter fun index => (loadedImages[index]?.map (·.hasInits)).getD false) := by
  have searching := looped.records.searching
  constructor
  · exact searching.nodup.filter _
  · intro i inside
    obtain ⟨inside, inits⟩ := mem_withInits.mp inside
    obtain ⟨_, _, ascending⟩ := looped.sound i inside
    exact ⟨inits, ascending.linked⟩
  · intro limit i ascending inits
    refine mem_withInits.mpr ⟨looped.complete limit ?_ i ascending, inits⟩
    cases ascending with
    | down path => exact Nat.zero_le _
    | upward before link le path => exact LinksBy.lt link
  · intro i inside dep inside' link one_way
    obtain ⟨inside, inits⟩ := mem_withInits.mp inside
    obtain ⟨-, inits'⟩ := mem_withInits.mp inside'
    obtain ⟨before, after, eq⟩ := List.append_of_mem inside
    have earlier := (searching.direct before i after eq dep link).resolve_right one_way
    exact sublist_withInits eq earlier List.mem_cons_self inits' inits
  · intro i inside dep inside' distinct path acyclic
    obtain ⟨inside, inits⟩ := mem_withInits.mp inside
    obtain ⟨-, inits'⟩ := mem_withInits.mp inside'
    obtain ⟨before, after, eq⟩ := List.append_of_mem inside
    rcases searching.below before i after eq dep path with earlier | same | cycle
    · exact sublist_withInits eq earlier List.mem_cons_self inits' inits
    · exact absurd same distinct
    · exact absurd cycle acyclic
  · intro i inside late inside' path upward_only
    obtain ⟨-, inits⟩ := mem_withInits.mp inside
    obtain ⟨inside', inits'⟩ := mem_withInits.mp inside'
    obtain ⟨rest, eq⟩ := looped.extends_first
    have outside : late ∈ rest := (List.mem_append.mp (eq ▸ inside')).resolve_left fun early =>
      upward_only ((exact_first late).mp early)
    exact sublist_withInits eq.symm ((exact_first i).mpr path) outside inits inits'

theorem mapM_of_isSome {α β : Type*} (f : α → Option β) (items : List α) (total : ∀ item ∈ items, (f item).isSome) :
    ∃ results, items.mapM f = some results ∧ results.map some = items.map f := by
  induction items with
  | nil => exact ⟨[], rfl, rfl⟩
  | cons item items ih =>
      obtain ⟨result, eq⟩ := Option.isSome_iff_exists.mp (total item List.mem_cons_self)
      obtain ⟨results, run, map⟩ := ih fun other inside => total other (List.mem_cons_of_mem item inside)
      exact ⟨result :: results, by simp [eq, run], by simp [eq, map]⟩

/--
Every set of well-linked images has its initializers written bottom-up, up to cycles, for every
top image.
-/
theorem computeInitOrder_bottomUp (linked : WellLinked loadedImages) (bound : top < loadedImages.length) :
    ∃ order initNums, computeInitOrder loadedImages top = some (.setInitsOrder initNums) ∧
      initNums.map some = order.map (fun i => loadedImages[i]?.map (·.imageNum)) ∧
      BottomUp loadedImages top order := by
  obtain ⟨first, state, run, exact_first, looped⟩ := first_search linked bound
  obtain ⟨last, finished, run', looped'⟩ := dangling_loop linked looped loadedImages.length le_rfl
  have bottomUp := looped'.bottomUp exact_first
  obtain ⟨initNums, nums, map⟩ := mapM_of_isSome (fun i => loadedImages[i]?.map (·.imageNum))
    (finished.filter fun index => (loadedImages[index]?.map (·.hasInits)).getD false) (by
      intro i inside
      obtain ⟨li, image, -⟩ := (mem_withInits.mp inside).2
      simp [image])
  refine ⟨_, initNums, ?_, map, bottomUp⟩
  simp [computeInitOrder, run, run', looped.records.noError, looped'.records.noError, looped'.sorted, nums]

/-- The whole of the images reachable from the top one, with later images only on common cycles. -/
structure CompleteBottomUp (loadedImages : List BuilderLoadedImage) (top : ℕ) (order : List ℕ) : Prop where
  nodup : order.Nodup
  members : ∀ i, i ∈ order ↔ HasInits loadedImages i ∧ Reaches (Linked loadedImages) top i
  bottomUp : ∀ i ∈ order, ∀ dep ∈ order, dep ≠ i → Reaches (Below loadedImages) i dep →
    ¬Reaches (Linked loadedImages) dep i → [dep, i].Sublist order
  upwardLast : ∀ i ∈ order, ∀ late ∈ order, Reaches (Below loadedImages) top i →
    ¬Reaches (Below loadedImages) top late → [i, late].Sublist order

/-- An image with initializers whose links are regular. -/
def linkedImage (imageNum : BitVec 32) (deps : List (BitVec 30)) : BuilderLoadedImage where
  dependents := deps.map fun dep => ⟨dep, .regular⟩
  imageNum := imageNum
  hasInits := true
  rtldLocal := false
  isBadImage := false
  overrideImageNum := 0
  loadAddress := 0

/-- The top image is on a cycle with the second one and links to the third one after it. -/
def cycleBesideLeaf : List BuilderLoadedImage := [linkedImage 1 [2, 3], linkedImage 2 [1], linkedImage 3 []]

theorem cycleBesideLeaf_wellLinked : WellLinked cycleBesideLeaf where
  good := by decide
  loaded := by
    unfold LinksLoaded
    decide

theorem cycleBesideLeaf_not_completeBottomUp :
    ¬∃ order initNums, computeInitOrder cycleBesideLeaf 0 = some (.setInitsOrder initNums) ∧
      initNums.map some = order.map (fun i => cycleBesideLeaf[i]?.map (·.imageNum)) ∧
      CompleteBottomUp cycleBesideLeaf 0 order := by
  rintro ⟨order, initNums, run, map, complete⟩
  have up : Below cycleBesideLeaf 1 0 := ⟨linkedImage 2 [1], rfl, ⟨1, .regular⟩, by decide, by decide, by decide, rfl⟩
  have right : Below cycleBesideLeaf 0 2 :=
    ⟨linkedImage 1 [2, 3], rfl, ⟨3, .regular⟩, by decide, by decide, by decide, rfl⟩
  have down : Below cycleBesideLeaf 0 1 :=
    ⟨linkedImage 1 [2, 3], rfl, ⟨2, .regular⟩, by decide, by decide, by decide, rfl⟩
  have leaf : ¬Reaches (Linked cycleBesideLeaf) 2 1 := by
    intro path
    rcases Relation.ReflTransGen.cases_head path with eq | ⟨_, ⟨li, image, dep, inside, -⟩, -⟩
    · exact absurd eq (by decide)
    · obtain rfl := Option.some.inj image
      simp [linkedImage] at inside
  have inside : 1 ∈ order :=
    (complete.members 1).mpr ⟨⟨linkedImage 2 [1], rfl, rfl⟩, .single (LinksBy.linked down)⟩
  have inside' : 2 ∈ order :=
    (complete.members 2).mpr ⟨⟨linkedImage 3 [], rfl, rfl⟩, .single (LinksBy.linked right)⟩
  have before := complete.bottomUp 1 inside 2 inside' (by decide) ((Relation.ReflTransGen.single up).tail right) leaf
  have listed := before.map fun i => cycleBesideLeaf[i]?.map (·.imageNum)
  have written : initNums = [2, 3, 1] := by
    have eq : computeInitOrder cycleBesideLeaf 0 = some (.setInitsOrder [2, 3, 1]) := by decide
    simpa [eq] using run.symm
  rw [← map, written] at listed
  exact absurd listed (by decide)

theorem not_completeBottomUp :
    ¬∀ loadedImages top, WellLinked loadedImages → top < loadedImages.length →
      ∃ order initNums, computeInitOrder loadedImages top = some (.setInitsOrder initNums) ∧
        initNums.map some = order.map (fun i => loadedImages[i]?.map (·.imageNum)) ∧
        CompleteBottomUp loadedImages top order :=
  fun every => cycleBesideLeaf_not_completeBottomUp
    (every cycleBesideLeaf 0 cycleBesideLeaf_wellLinked (by decide))

theorem computeInitOrder_bottomUp_cycleBesideLeaf :
    ∃ order initNums, computeInitOrder cycleBesideLeaf 0 = some (.setInitsOrder initNums) ∧
      initNums.map some = order.map (fun i => cycleBesideLeaf[i]?.map (·.imageNum)) ∧
      BottomUp cycleBesideLeaf 0 order :=
  computeInitOrder_bottomUp cycleBesideLeaf_wellLinked (by decide)

end ObjcDyld.Closures
