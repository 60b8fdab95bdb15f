import ObjcDyld.Common.Repeats

/-!
# Loaded dylibs

The dylibs that `CacheInputBuilder::loadMachOs` selects for the shared cache, with what the
cache builder reads of their Mach-O headers.
-/

namespace ObjcDyld.SharedCache

/-- `CacheBuilder::InputFile::State`. -/
inductive State where
  | unset
  | mustBeIncluded
  | mustBeIncludedForDependent
  | mustBeExcludedIfUnused
deriving DecidableEq

/-- `InputFile::mustBeIncluded`. -/
def mustBeIncluded (state : State) : Bool :=
  state = .mustBeIncluded || state = .mustBeIncludedForDependent

/-- A load command for a dependent, as `forEachDependentDylib` reports it. -/
structure Dependent where
  loadPath : String
  isWeak : Bool
deriving DecidableEq

/-- The parts of a dylib's Mach-O file that the builder reads. -/
structure MachO where
  installName : String
  dependents : List Dependent
  segments : List (String × BitVec 64)
deriving DecidableEq

/-- `CacheBuilder::LoadedMachO` of a mapped dylib; input files are referred to by their indexes. -/
structure LoadedMachO where
  runtimePath : String
  mh : MachO
  inputFile : ℕ
deriving DecidableEq

/-- The kinds of files among the inputs. -/
inductive FileContent where
  | notLoaded
  | dylib (mh : MachO) (platformExcludes meetsOtherChecks precomputable : Bool)
  | other (mh : MachO) (precomputable : Bool)

/-- `CacheBuilder::InputFile` with the file that `MachOAnalyzer::load` finds at its path. -/
structure InputFile where
  path : String
  state : State
  content : FileContent

/-- The lists that `loadMachOs` fills. -/
structure LoadedFiles where
  dylibsToCache : List LoadedMachO
  otherDylibs : List LoadedMachO
  couldNotLoadFiles : List (String × ℕ)

/-- `canBePlacedInDyldCache`, whose checks of other properties are summed up in one. -/
def canBePlacedInDyldCache (mh : MachO) (path : String) (meetsOtherChecks : Bool) : Bool :=
  mh.installName = path && meetsOtherChecks

/-- The dylib with an install name that was not seen before, or the good one of two. -/
def addDylib (dylibsToCache : List LoadedMachO) (path : String) (mh : MachO) (inputFile : ℕ) : List LoadedMachO :=
  if dylibsToCache.any fun previous => previous.mh.installName = mh.installName then
    if path = mh.installName then
      dylibsToCache.map fun previous =>
        if previous.mh.installName = mh.installName then { previous with runtimePath := path, mh := mh } else previous
    else dylibsToCache
  else dylibsToCache ++ [⟨path, mh, inputFile⟩]

/-- A round of `loadMachOs`. -/
def loadMachO (loaded : LoadedFiles) (inputFile : InputFile × ℕ) : LoadedFiles :=
  let path := inputFile.1.path
  match inputFile.1.content with
  | .notLoaded => { loaded with couldNotLoadFiles := loaded.couldNotLoadFiles ++ [(path, inputFile.2)] }
  | .dylib mh platformExcludes meetsOtherChecks precomputable =>
      if platformExcludes then loaded
      else if !canBePlacedInDyldCache mh path meetsOtherChecks then
        if precomputable then { loaded with otherDylibs := loaded.otherDylibs ++ [⟨path, mh, inputFile.2⟩] }
        else loaded
      else { loaded with dylibsToCache := addDylib loaded.dylibsToCache path mh inputFile.2 }
  | .other mh precomputable =>
      if precomputable then { loaded with otherDylibs := loaded.otherDylibs ++ [⟨path, mh, inputFile.2⟩] }
      else loaded

/-- `loadMachOs` without the executables, which go to a list of their own. -/
def loadMachOs (inputFiles : List InputFile) : LoadedFiles :=
  inputFiles.zipIdx.foldl loadMachO ⟨[], [], []⟩

/-- Every dylib has one name, and no two share it. -/
structure WellNamed (dylibs : List LoadedMachO) : Prop where
  installed : ∀ dylib ∈ dylibs, dylib.mh.installName = dylib.runtimePath
  distinct : (dylibs.map (·.runtimePath)).Nodup

theorem addDylib_wellNamed {dylibs : List LoadedMachO} (named : WellNamed dylibs) {path : String} {mh : MachO}
    (installed : mh.installName = path) (inputFile : ℕ) : WellNamed (addDylib dylibs path mh inputFile) := by
  unfold addDylib
  split
  · rw [if_pos installed.symm]
    constructor
    · intro dylib inside
      obtain ⟨previous, member, rfl⟩ := List.mem_map.mp inside
      split
      · exact installed
      · exact named.installed previous member
    · have same : (dylibs.map fun previous => if previous.mh.installName = mh.installName then
          { previous with runtimePath := path, mh := mh } else previous).map (·.runtimePath) =
            dylibs.map (·.runtimePath) := by
        rw [List.map_map]
        refine List.map_congr_left fun previous member => ?_
        simp only [Function.comp_apply]
        split
        · next same => rw [← named.installed previous member, same, installed]
        · rfl
      rw [same]
      exact named.distinct
  · next fresh =>
      constructor
      · intro dylib inside
        rcases List.mem_append.mp inside with before | last
        · exact named.installed dylib before
        · rw [List.mem_singleton.mp last]
          exact installed
      · rw [List.map_append, List.map_singleton]
        refine List.nodup_append.mpr ⟨named.distinct, List.nodup_singleton _, ?_⟩
        rintro name inside _ (_ | ⟨_, ⟨⟩⟩) rfl
        obtain ⟨previous, member, rfl⟩ := List.mem_map.mp inside
        refine fresh (List.any_eq_true.mpr ⟨previous, member, ?_⟩)
        simp [named.installed previous member, installed]

theorem loadMachOs_wellNamed (inputFiles : List InputFile) : WellNamed (loadMachOs inputFiles).dylibsToCache := by
  suffices ∀ files : List (InputFile × ℕ), WellNamed (files.foldl loadMachO ⟨[], [], []⟩).dylibsToCache from
    this inputFiles.zipIdx
  intro files
  induction files using List.reverseRecOn with
  | nil => exact ⟨by simp, List.nodup_nil⟩
  | append_singleton files file ih =>
      rw [List.foldl_append, List.foldl_cons, List.foldl_nil]
      generalize files.foldl loadMachO ⟨[], [], []⟩ = loaded at ih
      unfold loadMachO
      simp only
      split
      · exact ih
      · split
        · exact ih
        · split
          · split <;> exact ih
          · next placed =>
              refine addDylib_wellNamed ih ?_ _
              simp only [canBePlacedInDyldCache, Bool.not_eq_true, Bool.not_eq_false', Bool.and_eq_true,
                decide_eq_true_eq] at placed
              exact placed.1
      · split <;> exact ih

end ObjcDyld.SharedCache

/-!
## Verification that a cache is self-contained

`verifySelfContained`: dylibs with missing dependencies are dropped until none is left, their
required dependents are marked, and dylibs that are to be excluded go when nothing uses them.
-/

namespace ObjcDyld.SharedCache

/-- The maps of the removal loops: `knownDylibs` by its keys, `badDylibs` by its paths and reasons. -/
structure Scan where
  knownDylibs : Finset String
  badDylibs : List (String × String)
  doAgain : Bool

namespace Scan

def isBad (scan : Scan) (dylib : LoadedMachO) : Bool :=
  scan.badDylibs.any fun bad => bad.1 = dylib.runtimePath

/-- The reasons for a bad dylib in their order. -/
def reasons (scan : Scan) (dylib : LoadedMachO) : List String :=
  ((scan.badDylibs.filter fun bad => bad.1 = dylib.runtimePath).map (·.2)).mergeSort
    fun first second => decide (first ≤ second)

/-- `badDylibs[path].insert(reason)`. -/
def markBad (scan : Scan) (path reason : String) : Scan :=
  { scan with
    badDylibs := if (path, reason) ∈ scan.badDylibs then scan.badDylibs else scan.badDylibs ++ [(path, reason)]
    doAgain := true }

end Scan

def couldNotFindReason (loadPath : String) : String := "Could not find dependency '" ++ loadPath ++ "'"

def unusedReason : String := "It has been explicitly excluded as it is unused"

def checkDependent (dylib : LoadedMachO) (scan : Scan) (dependent : Dependent) : Scan :=
  if dependent.isWeak then scan
  else if dependent.loadPath ∈ scan.knownDylibs then scan
  else
    let marked := scan.markBad dylib.runtimePath (couldNotFindReason dependent.loadPath)
    { marked with
      knownDylibs := (scan.knownDylibs.erase dylib.runtimePath).erase dylib.mh.installName }

def scanDylib (scan : Scan) (dylib : LoadedMachO) : Scan :=
  if scan.isBad dylib then scan else dylib.mh.dependents.foldl (checkDependent dylib) scan

def scanDylibs (dylibs : List LoadedMachO) (scan : Scan) : Scan :=
  dylibs.foldl scanDylib { scan with doAgain := false }

/-- The paths and install names of the dylibs. -/
def namesOf (dylibs : List LoadedMachO) : Finset String :=
  (dylibs.flatMap fun dylib => [dylib.runtimePath, dylib.mh.installName]).toFinset

/-- The load paths of the dylibs that are not bad. -/
def referencedDylibs (dylibs : List LoadedMachO) (scan : Scan) : Finset String :=
  ((dylibs.filter fun dylib => !scan.isBad dylib).flatMap fun dylib => dylib.mh.dependents.map (·.loadPath)).toFinset

def excludeDylib (states : ℕ → State) (referenced : Finset String) (scan : Scan) (dylib : LoadedMachO) : Scan :=
  if scan.isBad dylib then scan
  else if dylib.mh.installName ∉ referenced ∧ states dylib.inputFile = .mustBeExcludedIfUnused then
    scan.markBad dylib.runtimePath unusedReason
  else scan

/-- A scan for dylibs to be excluded that nothing references. -/
def excludeDylibs (dylibs : List LoadedMachO) (states : ℕ → State) (scan : Scan) : Scan :=
  dylibs.foldl (excludeDylib states (referencedDylibs dylibs scan)) { scan with doAgain := false }

/-- A value of `allDylibs`: the input file, and the Mach-O header if there is one. -/
structure AnyDylib where
  inputFile : ℕ
  mh : Option MachO

/-- `allDylibs`: the first entry for a name counts. -/
def allDylibs (dylibs others : List LoadedMachO) (couldNotLoadFiles : List (String × ℕ)) :
    List (String × AnyDylib) :=
  ((dylibs ++ others).flatMap fun dylib =>
      [(dylib.runtimePath, ⟨dylib.inputFile, some dylib.mh⟩), (dylib.mh.installName, ⟨dylib.inputFile, some dylib.mh⟩)]) ++
    couldNotLoadFiles.map fun file => (file.1, ⟨file.2, none⟩)

/-- The states of the input files and the worklist of required dylibs. -/
structure Marking where
  states : ℕ → State
  worklist : List AnyDylib

/-- A dependent of a required dylib is required, too. -/
def markDependent (all : List (String × AnyDylib)) (marking : Marking) (dependent : Dependent) : Marking :=
  if dependent.isWeak then marking
  else
    match all.lookup dependent.loadPath with
    | none => marking
    | some dylib =>
        if marking.states dylib.inputFile = .unset then
          { states := Function.update marking.states dylib.inputFile .mustBeIncludedForDependent
            worklist := dylib :: marking.worklist }
        else marking

/-- The loop over the worklist, for at most `fuel` entries; the back of the list is its head. -/
def markWorklist (all : List (String × AnyDylib)) : ℕ → Marking → Option (ℕ → State)
  | 0, _ => none
  | fuel + 1, marking =>
      match marking.worklist with
      | [] => some marking.states
      | dylib :: rest =>
          match dylib.mh with
          | none => markWorklist all fuel { marking with worklist := rest }
          | some mh =>
              markWorklist all fuel (mh.dependents.foldl (markDependent all) { marking with worklist := rest })

/-- What is required because of one bad dylib. -/
def markRequired (all : List (String × AnyDylib)) (states : ℕ → State) (path : String) : Option (ℕ → State) :=
  match all.lookup path with
  | none => some states
  | some dylib =>
      if mustBeIncluded (states dylib.inputFile) then markWorklist all (all.length + 2) ⟨states, [dylib]⟩
      else some states

/-- The dylibs that are kept and dropped, with the warnings about the dropped ones. -/
structure Verified where
  dylibsToCache : List LoadedMachO
  otherDylibs : List LoadedMachO
  states : ℕ → State
  warnings : List (ℕ × String)

def droppedWarning (path reason : String) : String :=
  "Dylib located at '" ++ path ++ "' not placed in shared cache because: " ++ reason

/-- The keys of a map in their order. -/
def sortedPaths (badDylibs : List (String × String)) : List String :=
  (badDylibs.map (·.1)).dedup.mergeSort fun first second => decide (first ≤ second)

/-- `verifySelfContained`; `none` when one of its loops runs longer than there are entries. -/
def verifySelfContained (loaded : LoadedFiles) (states : ℕ → State) : Option Verified := do
  let dylibs := loaded.dylibsToCache
  let all := allDylibs dylibs loaded.otherDylibs loaded.couldNotLoadFiles
  let scanned ← Repeats.repeatWhile (scanDylibs dylibs) Scan.doAgain (dylibs.length + 1) ⟨namesOf dylibs, [], true⟩
  let states ← (sortedPaths scanned.badDylibs).foldlM (markRequired all) states
  let excluded ← Repeats.repeatWhile (excludeDylibs dylibs states) Scan.doAgain (dylibs.length + 1) scanned
  let dropped := dylibs.filter excluded.isBad
  return {
    dylibsToCache := dylibs.filter fun dylib => !excluded.isBad dylib
    otherDylibs := loaded.otherDylibs ++ dropped
    states := states
    warnings := dropped.flatMap fun dylib =>
      (excluded.reasons dylib).map fun reason => (dylib.inputFile, droppedWarning dylib.runtimePath reason) }

end ObjcDyld.SharedCache
