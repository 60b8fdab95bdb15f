import ObjcDyld.Common.Rankings
import ObjcDyld.Common.Prefixes
import ObjcDyld.Closures.WeakDefinitions

/-!
# Coalescing of weak definitions

What the walk over the images has found after each of them, and when the lookup that it is
part of meets its purpose: one winner whoever asks, the flags that fixups depend on, and the
patches that the cache needs.
-/

namespace ObjcDyld.Closures

namespace ClosureBuilder

section Definitions

variable (builder : ClosureBuilder) (symbolName : String) (addend : BitVec 64)

/-- Only images with weak definitions that are not local are searched. -/
def searched (li : BuilderLoadedImage) : Bool := (builder.machO li).hasWeakDefs && !li.rtldLocal

def definition (li : BuilderLoadedImage) : Option FoundSymbol :=
  if builder.searched li then (builder.machO li).findExportedSymbol symbolName else none

def defines (li : BuilderLoadedImage) : Bool := (builder.definition symbolName li).isSome

def definesStrong (li : BuilderLoadedImage) : Bool :=
  (builder.definition symbolName li).any fun foundInfo => !foundInfo.isWeakDef

def definitionTarget (li : BuilderLoadedImage) : Option (BitVec 64) :=
  (builder.definition symbolName li).bind fun foundInfo => builder.targetOf li.loadAddress foundInfo addend

def definers (images : List BuilderLoadedImage) : List BuilderLoadedImage :=
  images.filter (builder.defines symbolName)

/-- The first strong definer in load order, or the first definer when none is strong. -/
def winner : Option BuilderLoadedImage :=
  Preference.chosen (builder.definesStrong symbolName) (builder.definers symbolName builder.loadedImages)

def definersBehindWinner : List BuilderLoadedImage :=
  (Preference.chosenOnwards (builder.definesStrong symbolName)
    (builder.definers symbolName builder.loadedImages)).tail

/-- The images of the cache that are searched from the first definer onwards. -/
def cachedUsers (images : List BuilderLoadedImage) : List BuilderLoadedImage :=
  ((images.filter builder.searched).dropWhile fun li => !builder.defines symbolName li).filter fun li =>
    (builder.machO li).inDyldCache

/-- The patch for an image of the cache whose own definition is not the target. -/
def patchFor (target : BitVec 64) (li : BuilderLoadedImage) : Option PatchEntry :=
  match builder.definitionTarget symbolName addend li with
  | none => none
  | some own =>
      if own ≠ target then
        some ⟨li.imageNum, (ResolvedSymbolTarget.sharedCacheOffset own).setWidth 32, target⟩
      else none

end Definitions

variable {builder : ClosureBuilder} {symbolName : String} {addend : BitVec 64} {li fromImage : BuilderLoadedImage}

theorem definers_snoc (done : List BuilderLoadedImage) (li : BuilderLoadedImage) :
    builder.definers symbolName (done ++ [li]) =
      builder.definers symbolName done ++ if builder.defines symbolName li then [li] else [] := by
  rw [definers, List.filter_append, List.filter_singleton]
  cases builder.defines symbolName li <;> rfl

theorem searched_of_defines (defines : builder.defines symbolName li = true) : builder.searched li = true := by
  by_contra unsearched
  simp [ClosureBuilder.defines, definition, unsearched] at defines

theorem onwards_eq_nil (done : List BuilderLoadedImage) :
    ((done.filter builder.searched).dropWhile fun li => !builder.defines symbolName li) = [] ↔
      builder.definers symbolName done = [] := by
  rw [List.dropWhile_eq_nil_iff, definers, List.filter_eq_nil_iff]
  constructor
  · intro none_defines li inside defines
    simpa [defines] using none_defines li (List.mem_filter.mpr ⟨inside, searched_of_defines defines⟩)
  · intro none_defines li inside
    simpa using none_defines li (List.mem_filter.mp inside).1

theorem cachedUsers_snoc (done : List BuilderLoadedImage) (li : BuilderLoadedImage) :
    builder.cachedUsers symbolName (done ++ [li]) =
      builder.cachedUsers symbolName done ++
        if builder.searched li && !(builder.definers symbolName (done ++ [li])).isEmpty &&
          (builder.machO li).inDyldCache then [li] else [] := by
  unfold cachedUsers
  rw [List.filter_append, List.filter_singleton]
  cases search : builder.searched li with
  | false => simp
  | true =>
      simp only [cond_true, Bool.true_and]
      rw [List.dropWhile_append, definers_snoc]
      by_cases before : builder.definers symbolName done = []
      · rw [(onwards_eq_nil done).mpr before, before]
        cases defines : builder.defines symbolName li with
        | false => simp [defines]
        | true => cases cached : (builder.machO li).inDyldCache <;> simp [defines, cached]
      · have remains := fun nil => before ((onwards_eq_nil done).mp nil)
        rw [if_neg (by simpa using remains), List.filter_append]
        cases cached : (builder.machO li).inDyldCache <;> simp [before, cached]

/-- What the walk has found among some of the images. -/
structure Scanned (builder : ClosureBuilder) (fromImage : BuilderLoadedImage) (symbolName : String)
    (addend : BitVec 64) (done : List BuilderLoadedImage) (walk : WeakWalk) : Prop where
  fits : ∀ li ∈ builder.definers symbolName done, (builder.definitionTarget symbolName addend li).isSome
  foundImpl : walk.foundImpl = !(builder.definers symbolName done).isEmpty
  foundStrong : walk.foundStrongDefImpl =
    (builder.definers symbolName done).any (builder.definesStrong symbolName)
  foundWeak : walk.foundWeakDefImpl =
    (builder.definers symbolName done).any fun li => !builder.definesStrong symbolName li
  winner : ∀ li behind, Preference.chosenOnwards (builder.definesStrong symbolName)
      (builder.definers symbolName done) = li :: behind →
    builder.definitionTarget symbolName addend li = some walk.target ∧
      walk.targetInfo.foundInDylib = some li.loadAddress ∧
      walk.targetInfo.isWeakDef = !builder.definesStrong symbolName li ∧
      (walk.targetInfo.weakBindSameImage = true ↔ (builder.machO fromImage).hasChainedFixups = false ∧
        ∃ other ∈ behind, other.loadAddress = fromImage.loadAddress)

/-- The walk with the images of the cache that it keeps. -/
structure Walked (builder : ClosureBuilder) (fromImage : BuilderLoadedImage) (symbolName : String)
    (addend : BitVec 64) (done : List BuilderLoadedImage) (walk : WeakWalk) : Prop
    extends Scanned builder fromImage symbolName addend done walk where
  cached : walk.cachedDylibsUsingSymbol = builder.cachedUsers symbolName done
  capacity : (builder.cachedUsers symbolName done).length ≤ cachedDylibsCapacity

theorem findSymbolInImage_of_definition {foundInfo : FoundSymbol}
    (found : builder.definition symbolName li = some foundInfo) (addend target : BitVec 64)
    (targetInfo : ResolvedTargetInfo) :
    ∃ info, builder.findSymbolInImage li.loadAddress symbolName addend target targetInfo =
        (builder.definitionTarget symbolName addend li).map (fun own => (true, own, info)) ∧
      info.foundInDylib = some li.loadAddress ∧ info.isWeakDef = foundInfo.isWeakDef ∧
      info.weakBindSameImage = false := by
  have exported : (builder.machOAt li.loadAddress).findExportedSymbol symbolName = some foundInfo := by
    unfold definition at found
    split at found
    · exact found
    · exact absurd found (by simp)
  refine ⟨⟨some li.loadAddress, symbolName, some symbolName, addend, false, false, foundInfo.isWeakDef, false,
    targetInfo.libOrdinal⟩, ?_, rfl, rfl, rfl⟩
  simp only [findSymbolInImage, exported, definitionTarget, found, Option.bind_some]
  cases builder.targetOf li.loadAddress foundInfo addend <;> rfl

theorem findSymbolInImage_of_undefined (search : builder.searched li = true)
    (undefined : builder.definition symbolName li = none) (addend target : BitVec 64)
    (targetInfo : ResolvedTargetInfo) :
    ∃ info, builder.findSymbolInImage li.loadAddress symbolName addend target targetInfo =
      some (false, target, info) := by
  have absent : (builder.machOAt li.loadAddress).findExportedSymbol symbolName = none := by
    simpa [definition, search, machO] using undefined
  exact ⟨_, by rw [findSymbolInImage, absent]⟩

namespace Scanned

variable {done : List BuilderLoadedImage} {walk : WeakWalk}

theorem undefined (scanned : Scanned builder fromImage symbolName addend done walk)
    (undefined : builder.defines symbolName li = false) (aTarget : BitVec 64) (aTargetInfo : ResolvedTargetInfo) :
    Scanned builder fromImage symbolName addend (done ++ [li])
      { walk with aTarget := aTarget, aTargetInfo := aTargetInfo } := by
  have same : builder.definers symbolName (done ++ [li]) = builder.definers symbolName done := by
    simp [definers_snoc, undefined]
  constructor
  · simpa [same] using scanned.fits
  · simpa [same] using scanned.foundImpl
  · simpa [same] using scanned.foundStrong
  · simpa [same] using scanned.foundWeak
  · simpa [same] using scanned.winner

theorem chosenOnwards_found (scanned : Scanned builder fromImage symbolName addend done walk) {isWeakDef : Bool}
    (strong : builder.definesStrong symbolName li = !isWeakDef) :
    Preference.chosenOnwards (builder.definesStrong symbolName) (builder.definers symbolName done ++ [li]) =
      if (if isWeakDef then !walk.foundWeakDefImpl && !walk.foundStrongDefImpl
          else !walk.foundStrongDefImpl) then [li]
      else Preference.chosenOnwards (builder.definesStrong symbolName) (builder.definers symbolName done) ++ [li] := by
  rw [Preference.chosenOnwards_snoc, scanned.foundStrong, scanned.foundWeak, strong]
  cases isWeakDef with
  | false => simp
  | true =>
      cases before : builder.definers symbolName done with
      | nil => simp [Preference.chosenOnwards_nil]
      | cons first rest => cases kind : builder.definesStrong symbolName first <;> simp [kind]

theorem found (scanned : Scanned builder fromImage symbolName addend done walk) {foundInfo : FoundSymbol}
    (found : builder.definition symbolName li = some foundInfo) {own : BitVec 64} {info : ResolvedTargetInfo}
    (target : builder.definitionTarget symbolName addend li = some own)
    (inDylib : info.foundInDylib = some li.loadAddress) (weak : info.isWeakDef = foundInfo.isWeakDef)
    (unset : info.weakBindSameImage = false) :
    Scanned builder fromImage symbolName addend (done ++ [li])
      (walk.found fromImage (builder.machO li).hasChainedFixups own info) := by
  have defines : builder.defines symbolName li = true := by simp [ClosureBuilder.defines, found]
  have strong : builder.definesStrong symbolName li = !info.isWeakDef := by
    simp [definesStrong, found, weak]
  have same : builder.definers symbolName (done ++ [li]) = builder.definers symbolName done ++ [li] := by
    simp [definers_snoc, defines]
  constructor
  · intro other inside
    rw [same] at inside
    rcases List.mem_append.mp inside with earlier | last
    · exact scanned.fits other earlier
    · rw [List.mem_singleton.mp last, target, Option.isSome_some]
  · simp [WeakWalk.found, same]
  · simp [WeakWalk.found, same, scanned.foundStrong, strong]
  · simp [WeakWalk.found, same, scanned.foundWeak, strong]
  · intro chosen behind eq
    rw [same, scanned.chosenOnwards_found strong] at eq
    simp only [WeakWalk.found, inDylib]
    generalize overwrite : (if info.isWeakDef then !walk.foundWeakDefImpl && !walk.foundStrongDefImpl
      else !walk.foundStrongDefImpl) = better at eq ⊢
    cases better with
    | true =>
        obtain ⟨rfl, rfl⟩ := List.cons.inj eq
        simp [target, inDylib, unset, strong]
    | false =>
        -- the winner stays, and the image joins the definers behind it
        have remains : Preference.chosenOnwards (builder.definesStrong symbolName)
            (builder.definers symbolName done) ≠ [] := by
          rw [ne_eq, Preference.chosenOnwards_eq_nil]
          intro empty
          simp [scanned.foundStrong, scanned.foundWeak, empty] at overwrite
        obtain ⟨chosen', behind', before⟩ := List.exists_cons_of_ne_nil remains
        rw [before] at eq
        obtain ⟨rfl, rfl⟩ := List.cons.inj eq
        obtain ⟨kept, dylib, kind, flag⟩ := scanned.winner chosen' behind' before
        by_cases asking : li.loadAddress = fromImage.loadAddress
        · have unchained : (builder.machO li).hasChainedFixups = (builder.machO fromImage).hasChainedFixups := by
            rw [machO, machO, asking]
          cases chained : (builder.machO fromImage).hasChainedFixups with
          | true => simp [unchained, chained, kept, dylib, kind, flag]
          | false => simp [unchained, chained, asking, kept, dylib, kind]
        · simp [asking, kept, dylib, kind, flag]

end Scanned

namespace Walked

variable {done : List BuilderLoadedImage} {walk : WeakWalk}

theorem start (walk : WeakWalk) (fresh : walk.foundImpl = false) (strong : walk.foundStrongDefImpl = false)
    (weak : walk.foundWeakDefImpl = false) (cached : walk.cachedDylibsUsingSymbol = []) :
    Walked builder fromImage symbolName addend [] walk where
  fits := by simp [definers]
  foundImpl := by simpa [definers] using fresh
  foundStrong := by simpa [definers] using strong
  foundWeak := by simpa [definers] using weak
  winner := by simp [definers, Preference.chosenOnwards_nil]
  cached := by simpa [cachedUsers] using cached
  capacity := by simp [cachedUsers]

theorem keepCached_eq (walk : WeakWalk) (li : BuilderLoadedImage) (inDyldCache : Bool)
    (within : walk.cachedDylibsUsingSymbol.length ≤ cachedDylibsCapacity) :
    let kept := walk.cachedDylibsUsingSymbol ++ if walk.foundImpl && inDyldCache then [li] else []
    walk.keepCached li inDyldCache = if kept.length ≤ cachedDylibsCapacity then
      some { walk with cachedDylibsUsingSymbol := kept } else none := by
  cases keep : walk.foundImpl && inDyldCache with
  | false => simp [WeakWalk.keepCached, keep, within]
  | true =>
      simp only [WeakWalk.keepCached, keep, if_true, List.length_append, List.length_singleton, Nat.succ_le_iff]

theorem keepCached (walked : Walked builder fromImage symbolName addend done walk) {next : WeakWalk}
    (scanned : Scanned builder fromImage symbolName addend (done ++ [li]) next)
    (search : builder.searched li = true)
    (same : next.cachedDylibsUsingSymbol = walk.cachedDylibsUsingSymbol) :
    (∀ last, next.keepCached li (builder.machO li).inDyldCache = some last →
        Walked builder fromImage symbolName addend (done ++ [li]) last) ∧
      ((builder.cachedUsers symbolName (done ++ [li])).length ≤ cachedDylibsCapacity →
        ∃ last, next.keepCached li (builder.machO li).inDyldCache = some last) := by
  have kept : next.cachedDylibsUsingSymbol ++
      (if next.foundImpl && (builder.machO li).inDyldCache then [li] else []) =
        builder.cachedUsers symbolName (done ++ [li]) := by
    rw [cachedUsers_snoc, same, walked.cached, scanned.foundImpl, search, Bool.true_and]
  have eq := keepCached_eq next li (builder.machO li).inDyldCache
    (by rw [same, walked.cached]; exact walked.capacity)
  simp only [kept] at eq
  rw [eq]
  constructor
  · intro last run
    split at run
    · next within =>
        obtain rfl := Option.some.inj run
        exact ⟨⟨scanned.fits, scanned.foundImpl, scanned.foundStrong, scanned.foundWeak, scanned.winner⟩,
          rfl, within⟩
    · exact absurd run (by simp)
  · exact fun within => ⟨_, if_pos within⟩

theorem walkImage (walked : Walked builder fromImage symbolName addend done walk) (li : BuilderLoadedImage) :
    (∀ next, builder.walkImage fromImage symbolName addend walk li = some next →
        Walked builder fromImage symbolName addend (done ++ [li]) next) ∧
      ((builder.defines symbolName li = true → (builder.definitionTarget symbolName addend li).isSome) →
        (builder.cachedUsers symbolName (done ++ [li])).length ≤ cachedDylibsCapacity →
          ∃ next, builder.walkImage fromImage symbolName addend walk li = some next) := by
  cases search : builder.searched li with
  | false =>
      have unfound : builder.defines symbolName li = false := by simp [defines, definition, search]
      have run : builder.walkImage fromImage symbolName addend walk li = some walk := by
        unfold ClosureBuilder.walkImage
        exact if_neg (by simpa [searched] using search)
      rw [run]
      refine ⟨fun next eq => ?_, fun _ _ => ⟨walk, rfl⟩⟩
      obtain rfl := Option.some.inj eq
      refine ⟨walked.toScanned.undefined unfound walk.aTarget walk.aTargetInfo, ?_, ?_⟩
      · simpa [cachedUsers_snoc, search] using walked.cached
      · simpa [cachedUsers_snoc, search] using walked.capacity
  | true =>
      cases found : builder.definition symbolName li with
      | none =>
          have unfound : builder.defines symbolName li = false := by simp [defines, found]
          obtain ⟨info, run⟩ := findSymbolInImage_of_undefined search found addend walk.aTarget walk.aTargetInfo
          have eq : builder.walkImage fromImage symbolName addend walk li =
              { walk with aTarget := walk.aTarget, aTargetInfo := info }.keepCached li
                (builder.machO li).inDyldCache := by
            unfold ClosureBuilder.walkImage
            rw [if_pos (by simpa [searched] using search), run]
          rw [eq]
          obtain ⟨kept, total⟩ := walked.keepCached
            (walked.toScanned.undefined unfound walk.aTarget info) search rfl
          exact ⟨kept, fun _ => total⟩
      | some foundInfo =>
          have defined : builder.defines symbolName li = true := by simp [defines, found]
          obtain ⟨info, run, inDylib, weak, unset⟩ :=
            findSymbolInImage_of_definition found addend walk.aTarget walk.aTargetInfo
          have eq : builder.walkImage fromImage symbolName addend walk li =
              match builder.definitionTarget symbolName addend li with
              | none => none
              | some own => (walk.found fromImage (builder.machO li).hasChainedFixups own info).keepCached li
                  (builder.machO li).inDyldCache := by
            unfold ClosureBuilder.walkImage
            rw [if_pos (by simpa [searched] using search), run]
            cases builder.definitionTarget symbolName addend li <;> rfl
          rw [eq]
          cases target : builder.definitionTarget symbolName addend li with
          | none => exact ⟨fun _ absurd => by simp at absurd, fun fits => by simpa using fits defined⟩
          | some own =>
              obtain ⟨kept, total⟩ := walked.keepCached
                (walked.toScanned.found found target inDylib weak unset) search rfl
              exact ⟨kept, fun _ => total⟩

theorem of_run {start next : WeakWalk} (walked : Walked builder fromImage symbolName addend [] start)
    (images : List BuilderLoadedImage)
    (run : images.foldlM (builder.walkImage fromImage symbolName addend) start = some next) :
    Walked builder fromImage symbolName addend images next := by
  induction images using List.reverseRecOn generalizing next with
  | nil =>
      obtain rfl := Option.some.inj run
      exact walked
  | append_singleton done li ih =>
      cases before : done.foldlM (builder.walkImage fromImage symbolName addend) start with
      | none => simp [List.foldlM_append, before] at run
      | some middle =>
          rw [Prefixes.foldlM_snoc done li before] at run
          exact ((ih before).walkImage li).1 next run

theorem run_total {start : WeakWalk} (walked : Walked builder fromImage symbolName addend [] start)
    (images : List BuilderLoadedImage)
    (fits : ∀ li ∈ builder.definers symbolName images, (builder.definitionTarget symbolName addend li).isSome)
    (capacity : (builder.cachedUsers symbolName images).length ≤ cachedDylibsCapacity) :
    ∃ next, images.foldlM (builder.walkImage fromImage symbolName addend) start = some next := by
  induction images using List.reverseRecOn with
  | nil => exact ⟨start, rfl⟩
  | append_singleton done li ih =>
      obtain ⟨middle, before⟩ := ih
        (fun other inside => fits other (by rw [definers_snoc]; exact List.mem_append_left _ inside))
        (by rw [cachedUsers_snoc, List.length_append] at capacity; omega)
      obtain ⟨next, step⟩ := ((of_run walked done before).walkImage li).2
        (fun defines => fits li (by rw [definers_snoc, if_pos defines]; simp)) capacity
      exact ⟨next, by rw [Prefixes.foldlM_snoc done li before, step]⟩

end Walked

theorem patchCached_eq (search : builder.searched li = true)
    (fits : builder.defines symbolName li = true → (builder.definitionTarget symbolName addend li).isSome)
    (target implInCache : BitVec 64) (implInCacheInfo : ResolvedTargetInfo) (patches : List PatchEntry) :
    builder.patchCached symbolName addend target implInCache implInCacheInfo patches li =
      some (patches ++ (builder.patchFor symbolName addend target li).toList) := by
  cases found : builder.definition symbolName li with
  | none =>
      obtain ⟨info, run⟩ := findSymbolInImage_of_undefined search found addend implInCache implInCacheInfo
      simp [patchCached, run, patchFor, definitionTarget, found]
  | some foundInfo =>
      obtain ⟨info, run, -⟩ := findSymbolInImage_of_definition found addend implInCache implInCacheInfo
      obtain ⟨own, eq⟩ := Option.isSome_iff_exists.mp (fits (by simp [defines, found]))
      rw [eq] at run
      by_cases same : own = target
      · simp [patchCached, run, patchFor, eq, same]
      · simp [patchCached, run, patchFor, eq, same]

theorem patches_eq (images : List BuilderLoadedImage) (search : ∀ li ∈ images, builder.searched li = true)
    (fits : ∀ li ∈ images, builder.defines symbolName li = true →
      (builder.definitionTarget symbolName addend li).isSome)
    (target implInCache : BitVec 64) (implInCacheInfo : ResolvedTargetInfo) (patches : List PatchEntry) :
    images.foldlM (builder.patchCached symbolName addend target implInCache implInCacheInfo) patches =
      some (patches ++ images.filterMap (builder.patchFor symbolName addend target)) := by
  induction images generalizing patches with
  | nil => simp
  | cons li rest ih =>
      rw [List.foldlM_cons, patchCached_eq (search li List.mem_cons_self) (fits li List.mem_cons_self)]
      simp only [Option.bind_eq_bind, Option.bind_some]
      rw [ih (fun other inside => search other (List.mem_cons_of_mem li inside))
        (fun other inside => fits other (List.mem_cons_of_mem li inside))]
      cases patch : builder.patchFor symbolName addend target li <;> simp [patch]

structure Coalesced (builder : ClosureBuilder) (fromImage : BuilderLoadedImage) (symbolName : String)
    (addend : BitVec 64) (overrides : List PatchEntry) (lookup : SymbolLookup) : Prop where
  winner : ∀ li, builder.winner symbolName = some li → lookup.result = true ∧
    builder.definitionTarget symbolName addend li = some lookup.target ∧
    lookup.targetInfo.foundInDylib = some li.loadAddress ∧
    lookup.targetInfo.isWeakDef = !builder.definesStrong symbolName li
  coalesce : lookup.targetInfo.weakBindCoalese = true
  sameImage : (builder.machO fromImage).hasChainedFixups = false →
    (∃ li ∈ builder.definers symbolName builder.loadedImages, li.loadAddress = fromImage.loadAddress) →
      lookup.targetInfo.weakBindSameImage = true
  patches : lookup.weakDefCacheOverrides = overrides ++
    (builder.cachedUsers symbolName builder.loadedImages).filterMap
      (builder.patchFor symbolName addend lookup.target)

theorem findSymbolWeakLookup_eq {walk : WeakWalk}
    (walked : Walked builder fromImage symbolName addend builder.loadedImages walk) (weakImport : Bool)
    (libOrdinal : BitVec 32) (targetInfo uninitializedInfo : ResolvedTargetInfo) (overrides : List PatchEntry)
    (uninitializedTarget : BitVec 64)
    (run : builder.loadedImages.foldlM (builder.walkImage fromImage symbolName addend)
      (WeakWalk.start symbolName libOrdinal targetInfo uninitializedTarget uninitializedInfo) = some walk) :
    builder.findSymbolWeakLookup fromImage symbolName weakImport addend libOrdinal targetInfo overrides
        uninitializedTarget uninitializedInfo =
      some (walk.lookup weakImport (builder.machO fromImage).hasChainedFixups
        (overrides ++ (builder.cachedUsers symbolName builder.loadedImages).filterMap
          (builder.patchFor symbolName addend walk.target))) := by
  have users : ∀ li ∈ builder.cachedUsers symbolName builder.loadedImages,
      builder.searched li = true ∧ li ∈ builder.loadedImages := by
    intro li inside
    have kept := (List.dropWhile_sublist _).subset (List.mem_filter.mp inside).1
    exact (List.mem_filter.mp kept).symm
  have patches := patches_eq _ (fun li inside => (users li inside).1) (fun li inside defines =>
    walked.fits li (List.mem_filter.mpr ⟨(users li inside).2, defines⟩)) walk.target uninitializedTarget
      uninitializedInfo overrides
  simp [findSymbolWeakLookup, run, walked.cached, patches]

theorem cachedUsers_eq_nil {images : List BuilderLoadedImage} (undefined : builder.definers symbolName images = []) :
    builder.cachedUsers symbolName images = [] := by
  rw [cachedUsers, (onwards_eq_nil images).mpr undefined, List.filter_nil]

theorem coalesced_iff_of_walked {walk : WeakWalk}
    (walked : Walked builder fromImage symbolName addend builder.loadedImages walk) (weakImport : Bool)
    (overrides : List PatchEntry) :
    Coalesced builder fromImage symbolName addend overrides
        (walk.lookup weakImport (builder.machO fromImage).hasChainedFixups
          (overrides ++ (builder.cachedUsers symbolName builder.loadedImages).filterMap
            (builder.patchFor symbolName addend walk.target))) ↔
      ((builder.machO fromImage).hasChainedFixups = false →
        (∃ li ∈ builder.definers symbolName builder.loadedImages, li.loadAddress = fromImage.loadAddress) →
          ∃ li ∈ builder.definersBehindWinner symbolName, li.loadAddress = fromImage.loadAddress) := by
  cases defined : builder.definers symbolName builder.loadedImages with
  | nil =>
      have unfound : walk.foundImpl = false := by simp [walked.foundImpl, defined]
      refine ⟨fun _ _ ⟨_, inside, _⟩ => absurd inside List.not_mem_nil, fun _ => ⟨?_, ?_, ?_, ?_⟩⟩
      · intro li chosen
        simp [ClosureBuilder.winner, Preference.chosen, defined] at chosen
      · unfold WeakWalk.lookup
        simp only [unfound]
        split_ifs <;> rfl
      · rintro - ⟨li, inside, -⟩
        simp [defined] at inside
      · rw [cachedUsers_eq_nil defined]
        unfold WeakWalk.lookup
        simp only [unfound]
        split_ifs <;> simp
  | cons first rest =>
      have found : walk.foundImpl = true := by simp [walked.foundImpl, defined]
      have remains : Preference.chosenOnwards (builder.definesStrong symbolName)
          (builder.definers symbolName builder.loadedImages) ≠ [] := by
        rw [ne_eq, Preference.chosenOnwards_eq_nil, defined]
        simp
      obtain ⟨chosen, behind, eq⟩ := List.exists_cons_of_ne_nil remains
      have behind_eq : builder.definersBehindWinner symbolName = behind := by rw [definersBehindWinner, eq, List.tail_cons]
      have winner_eq : builder.winner symbolName = some chosen := by
        rw [ClosureBuilder.winner, ← Preference.chosenOnwards_head?, eq, List.head?_cons]
      obtain ⟨target, dylib, kind, flag⟩ := walked.winner chosen behind eq
      rw [behind_eq, ← defined]
      simp only [WeakWalk.lookup, found, if_true]
      constructor
      · exact fun coalesced unchained inside => (flag.mp (coalesced.sameImage unchained inside)).2
      · intro condition
        refine ⟨?_, rfl, fun unchained inside => flag.mpr ⟨unchained, condition unchained inside⟩, rfl⟩
        intro li same
        obtain rfl := Option.some.inj (winner_eq.symm.trans same)
        exact ⟨rfl, target, dylib, kind⟩

/--
A weak lookup coalesces exactly when the targets fit, no more than 1024 images of the cache are
kept, and the asking image, if it defines the symbol and is not chained, is behind the winner.
-/
theorem findSymbolWeakLookup_coalesced_iff (builder : ClosureBuilder) (fromImage : BuilderLoadedImage)
    (symbolName : String) (weakImport : Bool) (addend : BitVec 64) (libOrdinal : BitVec 32)
    (targetInfo uninitializedInfo : ResolvedTargetInfo) (overrides : List PatchEntry)
    (uninitializedTarget : BitVec 64) :
    (∃ lookup, builder.findSymbolWeakLookup fromImage symbolName weakImport addend libOrdinal targetInfo overrides
        uninitializedTarget uninitializedInfo = some lookup ∧
      Coalesced builder fromImage symbolName addend overrides lookup) ↔
      (∀ li ∈ builder.definers symbolName builder.loadedImages,
        (builder.definitionTarget symbolName addend li).isSome) ∧
      (builder.cachedUsers symbolName builder.loadedImages).length ≤ cachedDylibsCapacity ∧
      ((builder.machO fromImage).hasChainedFixups = false →
        (∃ li ∈ builder.definers symbolName builder.loadedImages, li.loadAddress = fromImage.loadAddress) →
          ∃ li ∈ builder.definersBehindWinner symbolName, li.loadAddress = fromImage.loadAddress) := by
  have start : Walked builder fromImage symbolName addend []
      (WeakWalk.start symbolName libOrdinal targetInfo uninitializedTarget uninitializedInfo) :=
    Walked.start _ rfl rfl rfl rfl
  constructor
  · rintro ⟨lookup, run, coalesced⟩
    obtain ⟨walk, walk_run, -⟩ := Option.bind_eq_some_iff.mp run
    have walked := start.of_run builder.loadedImages walk_run
    rw [findSymbolWeakLookup_eq walked _ _ _ _ _ _ walk_run] at run
    obtain rfl := Option.some.inj run
    exact ⟨walked.fits, walked.capacity, (coalesced_iff_of_walked walked weakImport overrides).mp coalesced⟩
  · rintro ⟨fits, capacity, condition⟩
    obtain ⟨walk, walk_run⟩ := start.run_total builder.loadedImages fits capacity
    have walked := start.of_run builder.loadedImages walk_run
    exact ⟨_, findSymbolWeakLookup_eq walked _ _ _ _ _ _ walk_run,
      (coalesced_iff_of_walked walked weakImport overrides).mpr condition⟩

/-- A main executable without chained fixups that has the only, weak definition of a symbol. -/
def mainExecutable : BuilderLoadedImage := ⟨[], 1, false, false, false, 0, 0x1000⟩

def loneDefiner : ClosureBuilder where
  loadedImages := [mainExecutable]
  machOAt _ := ⟨true, false, false, fun _ => some ⟨false, true, 0x20⟩⟩
  dyldCache := 0x8000

def unsetInfo : ResolvedTargetInfo := ⟨none, "", none, 0, false, false, false, false, 0⟩

/-- The executable asks for its own definition, and the flag for that is overwritten. -/
theorem not_coalesced_loneDefiner :
    ¬∃ lookup, loneDefiner.findSymbolWeakLookup mainExecutable "_operator_new" false 0 (-3) unsetInfo [] 0 unsetInfo =
        some lookup ∧ Coalesced loneDefiner mainExecutable "_operator_new" 0 [] lookup := by
  rintro ⟨lookup, run, coalesced⟩
  have unset : lookup.targetInfo.weakBindSameImage = false := by
    have flag : (loneDefiner.findSymbolWeakLookup mainExecutable "_operator_new" false 0 (-3) unsetInfo [] 0
        unsetInfo).map (·.targetInfo.weakBindSameImage) = some false := by decide
    rw [run] at flag
    exact Option.some.inj flag
  rw [coalesced.sameImage rfl ⟨mainExecutable, List.mem_filter.mpr ⟨List.mem_singleton_self _, rfl⟩, rfl⟩] at unset
  exact absurd unset (by simp)

end ClosureBuilder

end ObjcDyld.Closures
