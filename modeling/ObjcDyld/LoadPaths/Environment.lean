import Mathlib.Data.List.Induction
import Mathlib.Logic.Function.Basic
import ObjcDyld.LoadPaths.PathPools

/-!
# Environment variables

The values of some `DYLD_` variables are copied from the environment, and from the strings that the main executable carries
in `LC_DYLD_ENVIRONMENT` commands.  A variable that is seen again has its value appended behind a colon.
-/

namespace ObjcDyld.LoadPaths

/-- The strings that a `PathOverrides` records. -/
inductive Setting where
  | dylibPathOverridesEnv
  | frameworkPathOverridesEnv
  | dylibPathFallbacksEnv
  | frameworkPathFallbacksEnv
  | dylibPathOverridesExeLC
  | frameworkPathOverridesExeLC
  | dylibPathFallbacksExeLC
  | frameworkPathFallbacksExeLC
  | insertedDylibs
  | imageSuffix
  | rootPath
  deriving DecidableEq

open Setting

/-- A `PathOverrides`, as far as the environment goes. -/
structure PathOverrides where
  pathPool : List PathPool
  settings : Setting → Option Pointer

/-- A `PathOverrides` in which nothing was set. -/
def fresh : PathOverrides where
  pathPool := []
  settings := fun _ => Option.none

/-- `PathOverrides::addString` -/
def addString (fuel : ℕ) (overrides : PathOverrides) (str : List Char) : Option (PathOverrides × Pointer) := do
  let pathPool := if overrides.pathPool.isEmpty then [PathPool.allocate] else overrides.pathPool
  let (pathPool, result) ← PathPool.add fuel pathPool str
  return ({ overrides with pathPool := pathPool }, result)

/-- The new value of a setting: an earlier value stays in front of a colon. -/
def appended (overrides : PathOverrides) (setting : Setting) (value : List Char) : Option (List Char) :=
  match overrides.settings setting with
  | none => some value
  | some pointer => do
      let old ← PathPool.read overrides.pathPool pointer
      return old ++ ':' :: value

/-- `PathOverrides::setString` -/
def setString (fuel : ℕ) (overrides : PathOverrides) (setting : Setting) (value : List Char) : Option PathOverrides := do
  let tmp ← appended overrides setting value
  let (overrides, result) ← addString fuel overrides tmp
  return { overrides with settings := Function.update overrides.settings setting (some result) }

/-- `strncmp(first, second, n) == 0` -/
def strncmpEq (first second : List Char) (n : ℕ) : Bool := (first ++ ['\x00']).take n = (second ++ ['\x00']).take n

/-- One comparison of `addEnvVar`: the name, its length, the place of the value, and what is set. -/
structure EnvVar where
  name : List Char
  length : ℕ
  place : ℕ
  setting : Bool → Setting

/-- The comparisons of `addEnvVar`. -/
def envVars : List EnvVar :=
  [⟨"DYLD_LIBRARY_PATH".toList, 17, 18, fun exe => if exe then dylibPathOverridesExeLC else dylibPathOverridesEnv⟩,
    ⟨"DYLD_FRAMEWORK_PATH".toList, 19, 20, fun exe => if exe then frameworkPathOverridesExeLC else frameworkPathOverridesEnv⟩,
    ⟨"DYLD_FALLBACK_FRAMEWORK_PATH".toList, 28, 29,
      fun exe => if exe then frameworkPathFallbacksExeLC else frameworkPathFallbacksEnv⟩,
    ⟨"DYLD_FALLBACK_LIBRARY_PATH".toList, 26, 27, fun exe => if exe then dylibPathFallbacksExeLC else dylibPathFallbacksEnv⟩,
    ⟨"DYLD_INSERT_LIBRARIES".toList, 21, 22, fun _ => insertedDylibs⟩,
    ⟨"DYLD_IMAGE_SUFFIX".toList, 17, 18, fun _ => imageSuffix⟩,
    ⟨"DYLD_ROOT_PATH".toList, 14, 15, fun _ => rootPath⟩]

/-- `&string[place]`; `none` behind the terminator. -/
def suffixAt (string : List Char) (place : ℕ) : Option (List Char) :=
  if place ≤ string.length then some (string.drop place) else none

/-- `PathOverrides::addEnvVar` -/
def addEnvVar (fuel : ℕ) (forExecutable : Bool) (overrides : PathOverrides) (keyEqualsValue : List Char) :
    Option PathOverrides :=
  if '=' ∈ keyEqualsValue then
    match envVars.find? fun var => strncmpEq keyEqualsValue var.name var.length with
    | some var => do
        let value ← suffixAt keyEqualsValue var.place
        setString fuel overrides (var.setting forExecutable) value
    | none => some overrides
  else some overrides

/-- Whether `MachOFile::forDyldEnv` calls back with a string: it starts with `DYLD_`, and `_PATH` stands in front of its
first `=`. -/
def isDyldEnv (keyEqualsValue : List Char) : Bool :=
  let equals := (keyEqualsValue.takeWhile (· ≠ '=')).length
  strncmpEq keyEqualsValue "DYLD_".toList 5 && keyEqualsValue.contains '=' &&
    strncmpEq (keyEqualsValue.drop (equals - 5)) "_PATH".toList 5

/-- `PathOverrides::setMainExecutable`, on the strings of the `LC_DYLD_ENVIRONMENT` commands. -/
def setMainExecutable (fuel : ℕ) (overrides : PathOverrides) (commands : List (List Char)) : Option PathOverrides :=
  (commands.filter isDyldEnv).foldlM (addEnvVar fuel true) overrides

/-- `PathOverrides::setEnvVars` -/
def setEnvVars (fuel : ℕ) (overrides : PathOverrides) (envp : List (List Char)) (mainExe : Option (List (List Char))) :
    Option PathOverrides := do
  let overrides ← envp.foldlM (addEnvVar fuel false) overrides
  match mainExe with
  | some commands => setMainExecutable fuel overrides commands
  | none => return overrides

def PathOverrides.value (overrides : PathOverrides) (setting : Setting) : Option (Option (List Char)) :=
  match overrides.settings setting with
  | none => some none
  | some pointer => (PathPool.read overrides.pathPool pointer).map some

/-- `PathOverrides::handleEnvVar` -/
def handleEnvVar (overrides : PathOverrides) (key : List Char) (setting : Setting) : Option (List (List Char)) := do
  let value ← overrides.value setting
  return match value with
  | none => []
  | some value => [key ++ '=' :: value]

/-- The keys and the settings that `forEachEnvVar` reports. -/
def reportedVars : List (List Char × Setting) :=
  [("DYLD_LIBRARY_PATH".toList, dylibPathOverridesEnv),
    ("DYLD_FRAMEWORK_PATH".toList, frameworkPathOverridesEnv),
    ("DYLD_FALLBACK_FRAMEWORK_PATH".toList, frameworkPathFallbacksEnv),
    ("DYLD_FALLBACK_LIBRARY_PATH".toList, dylibPathFallbacksEnv),
    ("DYLD_INSERT_LIBRARIES".toList, insertedDylibs),
    ("DYLD_IMAGE_SUFFIX".toList, imageSuffix),
    ("DYLD_ROOT_PATH".toList, rootPath)]

/-- The strings that `PathOverrides::forEachEnvVar` hands to its handler. -/
def forEachEnvVar (overrides : PathOverrides) : Option (List (List Char)) := do
  let strings ← reportedVars.mapM fun var => handleEnvVar overrides var.1 var.2
  return strings.flatten

/-! ## What is meant -/

/-- The text in front of the first `=`. -/
def keyOf (string : List Char) : List Char := string.takeWhile (· ≠ '=')

/-- The text behind the first `=`. -/
def valueOf (string : List Char) : List Char := (string.dropWhile (· ≠ '=')).tail

def valuesOf (key : List Char) (strings : List (List Char)) : List (List Char) :=
  (strings.filter fun string => '=' ∈ string ∧ keyOf string = key).map valueOf

/-- Values with colons between them; `none` when there are none. -/
def joined (values : List (List Char)) : Option (List Char) :=
  if values = [] then none else some (List.intercalate [':'] values)

def Setting.name : Setting → List Char
  | dylibPathOverridesEnv | dylibPathOverridesExeLC => "DYLD_LIBRARY_PATH".toList
  | frameworkPathOverridesEnv | frameworkPathOverridesExeLC => "DYLD_FRAMEWORK_PATH".toList
  | frameworkPathFallbacksEnv | frameworkPathFallbacksExeLC => "DYLD_FALLBACK_FRAMEWORK_PATH".toList
  | dylibPathFallbacksEnv | dylibPathFallbacksExeLC => "DYLD_FALLBACK_LIBRARY_PATH".toList
  | insertedDylibs => "DYLD_INSERT_LIBRARIES".toList
  | imageSuffix => "DYLD_IMAGE_SUFFIX".toList
  | rootPath => "DYLD_ROOT_PATH".toList

/-- Whether a setting is for strings of the executable, or for those of the environment; three are for both. -/
def Setting.takes (setting : Setting) (forExecutable : Bool) : Bool :=
  match setting with
  | dylibPathOverridesEnv | frameworkPathOverridesEnv | dylibPathFallbacksEnv | frameworkPathFallbacksEnv => !forExecutable
  | dylibPathOverridesExeLC | frameworkPathOverridesExeLC | dylibPathFallbacksExeLC | frameworkPathFallbacksExeLC =>
      forExecutable
  | insertedDylibs | imageSuffix | rootPath => true

def valuesFor (forExecutable : Bool) (strings : List (List Char)) (setting : Setting) : List (List Char) :=
  if setting.takes forExecutable then valuesOf setting.name strings else []

/-- What is recorded of the strings of an environment and those of an executable. -/
def recorded (envp commands : List (List Char)) (setting : Setting) : Option (List Char) :=
  joined (valuesFor false envp setting ++ valuesFor true commands setting)

/-- The key of a string starts with `DYLD_` and ends in `_PATH`. -/
def IsPathVar (string : List Char) : Prop :=
  '=' ∈ string ∧ "DYLD_".toList <+: keyOf string ∧ "_PATH".toList <:+ keyOf string

instance (string : List Char) : Decidable (IsPathVar string) := inferInstanceAs (Decidable (_ ∧ _ ∧ _))

/-- A string starts with the name of a variable, but its key is a longer one. -/
def Misread (string : List Char) : Prop :=
  '=' ∈ string ∧ ∃ setting : Setting, setting.name <+: string ∧ keyOf string ≠ setting.name

/-! ## Joining -/

section Joining

variable {values : List (List Char)} {value old : List Char}

theorem joined_concat (values : List (List Char)) (value : List Char) :
    joined (values ++ [value]) = some (match joined values with
      | none => value
      | some old => old ++ ':' :: value) := by
  cases values with
  | nil => simp [joined, List.intercalate]
  | cons first values =>
      have more : List.intercalate [':'] (first :: values ++ [value]) = List.intercalate [':'] (first :: values) ++ ':' :: value := by
        induction values generalizing first with
        | nil => simp [List.intercalate]
        | cons second values ih =>
            rw [List.cons_append, List.cons_append, List.intercalate_cons_cons, ← List.cons_append, ih,
              List.intercalate_cons_cons, List.append_assoc, List.append_assoc, List.append_assoc]
      rw [joined, if_neg (List.append_ne_nil_of_right_ne_nil _ (List.cons_ne_nil _ _)), more]
      rfl

theorem length_joined_le (more : List (List Char)) (first : joined values = some old) :
    ∃ long, joined (values ++ more) = some long ∧ old.length ≤ long.length := by
  induction more using List.reverseRecOn with
  | nil => exact ⟨old, by rwa [List.append_nil], Nat.le_refl _⟩
  | append_singleton more last ih =>
      obtain ⟨middle, earlier, le⟩ := ih
      refine ⟨middle ++ ':' :: last, ?_, ?_⟩
      · rw [← List.append_assoc, joined_concat, earlier]
      · rw [List.length_append]
        exact Nat.le_trans le (Nat.le_add_right _ _)

theorem joined_unterminated (each : ∀ value ∈ values, '\x00' ∉ value) (all : joined values = some old) : '\x00' ∉ old := by
  induction values using List.reverseRecOn generalizing old with
  | nil => cases all
  | append_singleton values value ih =>
      rw [joined_concat] at all
      have last := each value (List.mem_append_right _ (List.mem_singleton_self _))
      cases earlier : joined values with
      | none =>
          rw [earlier] at all
          exact Option.some.inj all ▸ last
      | some middle =>
          rw [earlier] at all
          have inner := ih (fun value member => each value (List.mem_append_left _ member)) earlier
          rw [← Option.some.inj all, List.mem_append, List.mem_cons, not_or, not_or]
          exact ⟨inner, by decide, last⟩

end Joining

/-! ## Keys -/

section Keys

variable {string name : List Char}

theorem strncmpEq_iff (string : List Char) (unterminated : '\x00' ∉ name) :
    strncmpEq string name name.length ↔ name <+: string := by
  rw [strncmpEq, decide_eq_true_iff, List.take_left, eq_comm, ← List.prefix_iff_eq_take, List.prefix_concat_iff,
    or_iff_right]
  intro same
  rw [same, List.mem_append] at unterminated
  exact unterminated (.inr (List.mem_singleton_self _))

theorem string_eq (here : '=' ∈ string) : string = keyOf string ++ '=' :: valueOf string := by
  induction string with
  | nil => cases here
  | cons c string ih =>
      by_cases equals : c = '='
      · rw [equals]
        simp [keyOf, valueOf]
      · have inner : decide (c ≠ '=') = true := decide_eq_true equals
        have rest := ih ((List.mem_cons.1 here).resolve_left (Ne.symm equals))
        rw [keyOf, valueOf, List.takeWhile_cons, List.dropWhile_cons, if_pos inner, if_pos inner, List.cons_append]
        exact congrArg _ rest

theorem keyOf_append (plain : '=' ∉ name) (value : List Char) :
    keyOf (name ++ '=' :: value) = name ∧ valueOf (name ++ '=' :: value) = value := by
  have inner : ∀ c ∈ name, decide (c ≠ '=') = true := fun c member => decide_eq_true (ne_of_mem_of_not_mem member plain)
  constructor
  · rw [keyOf, List.takeWhile_append_of_pos inner, List.takeWhile_cons_of_neg (by simp), List.append_nil]
  · rw [valueOf, List.dropWhile_append_of_pos inner, List.dropWhile_cons_of_neg (by simp), List.tail_cons]

theorem prefix_iff_keyOf {setting : Setting} (here : '=' ∈ string) (clean : ¬Misread string) :
    setting.name <+: string ↔ keyOf string = setting.name := by
  constructor
  · intro start
    by_contra other
    exact clean ⟨here, setting, start, other⟩
  · intro same
    rw [← same]
    exact List.takeWhile_prefix _

end Keys

def Setting.all : List Setting :=
  [dylibPathOverridesEnv, frameworkPathOverridesEnv, dylibPathFallbacksEnv, frameworkPathFallbacksEnv, dylibPathOverridesExeLC,
    frameworkPathOverridesExeLC, dylibPathFallbacksExeLC, frameworkPathFallbacksExeLC, insertedDylibs, imageSuffix, rootPath]

theorem Setting.mem_all (setting : Setting) : setting ∈ Setting.all := by
  cases setting <;> decide

theorem envVars_spec : ∀ var ∈ envVars, (∃ setting ∈ Setting.all, var.name = setting.name) ∧
    var.length = var.name.length ∧ var.place = var.name.length + 1 ∧
      ∀ exe, ∀ setting ∈ Setting.all, var.setting exe = setting ↔ var.name = setting.name ∧ setting.takes exe = true := by
  decide +kernel

theorem name_mem_envVars : ∀ setting ∈ Setting.all, ∃ var ∈ envVars, var.name = setting.name := by
  decide +kernel

theorem setting_name_plain (setting : Setting) : '=' ∉ setting.name ∧ '\x00' ∉ setting.name := by
  cases setting <;> decide

/-! ## Recording -/

/-- The strings that have been recorded are those that are meant. -/
def Records (overrides : PathOverrides) (values : Setting → List (List Char)) : Prop :=
  ∃ contents, List.Forall₂ PathPool.Holds overrides.pathPool contents ∧ ∀ setting,
    overrides.settings setting = none ∧ values setting = [] ∨ ∃ pointer string, overrides.settings setting = some pointer ∧
      PathPool.PointsTo contents string pointer ∧ joined (values setting) = some string.chars

theorem fresh_records : Records fresh fun _ => [] := ⟨[], .nil, fun _ => .inl ⟨rfl, rfl⟩⟩

section Recording

variable {overrides : PathOverrides} {values : Setting → List (List Char)} {setting : Setting} {value string : List Char}
  {forExecutable : Bool} {strings : List (List Char)}

theorem Records.value_eq (records : Records overrides values) (setting : Setting) :
    overrides.value setting = some (joined (values setting)) := by
  obtain ⟨contents, holds, each⟩ := records
  rw [PathOverrides.value]
  rcases each setting with ⟨unset, none⟩ | ⟨pointer, string, set, there, same⟩
  · rw [unset, none]
    rfl
  · rw [set, same]
    exact congrArg (Option.map some) (PathPool.read_of_pointsTo holds there).1

theorem Records.appended (records : Records overrides values) (setting : Setting) (value : List Char) :
    appended overrides setting value = joined (values setting ++ [value]) := by
  obtain ⟨contents, holds, each⟩ := records
  rw [LoadPaths.appended, joined_concat]
  rcases each setting with ⟨unset, none⟩ | ⟨pointer, string, set, there, same⟩
  · rw [unset, none]
    rfl
  · rw [set, same]
    dsimp only
    rw [(PathPool.read_of_pointsTo holds there).1]
    rfl

theorem addString_spec {contents : List (List CString)} (string : CString)
    (holds : List.Forall₂ PathPool.Holds overrides.pathPool contents)
    (short : string.chars.length + 1 < kAllocationSize - sizeofPathPool) :
    ∃ pools' result contents' enough, (∀ fuel ≥ enough, addString fuel overrides string.chars =
      some ({ overrides with pathPool := pools' }, result)) ∧ List.Forall₂ PathPool.Holds pools' contents' ∧
        PathPool.PointsTo contents' string result ∧
          ∀ pointer other, PathPool.PointsTo contents other pointer → PathPool.PointsTo contents' other pointer := by
  have started : ∃ started, List.Forall₂ PathPool.Holds
      (if overrides.pathPool.isEmpty then [PathPool.allocate] else overrides.pathPool) started ∧
        ∀ pointer other, PathPool.PointsTo contents other pointer → PathPool.PointsTo started other pointer := by
    cases pools : overrides.pathPool with
    | nil =>
        rw [pools] at holds
        cases holds
        refine ⟨[[]], .cons PathPool.allocate_holds .nil, fun pointer other there => ?_⟩
        obtain ⟨front, back, content, -⟩ := there
        cases content
    | cons pool rest =>
        rw [pools] at holds
        exact ⟨contents, holds, fun pointer other there => there⟩
  obtain ⟨started, holds', same⟩ := started
  obtain ⟨pools', result, contents', ⟨enough, run⟩, put, done⟩ := PathPool.adds_of_short short holds'
  refine ⟨pools', result, contents', enough, fun fuel more => ?_, done, put.pointsTo, fun pointer other there =>
    (put.kept (same pointer other there)).1⟩
  rw [addString, PathPool.add_mono run more]
  rfl

theorem setString_spec (records : Records overrides values) {string : List Char}
    (all : joined (values setting ++ [value]) = some string) (unterminated : '\x00' ∉ string)
    (short : string.length + 1 < kAllocationSize - sizeofPathPool) :
    ∃ overrides' enough, (∀ fuel ≥ enough, setString fuel overrides setting value = some overrides') ∧
      Records overrides' (Function.update values setting (values setting ++ [value])) := by
  have tmp := (records.appended setting value).trans all
  obtain ⟨contents, holds, each⟩ := records
  obtain ⟨pools', result, contents', enough, run, holds', there, kept⟩ := addString_spec ⟨string, unterminated⟩ holds short
  refine ⟨⟨pools', Function.update overrides.settings setting (some result)⟩, enough, fun fuel more => ?_, contents', holds', fun other => ?_⟩
  · rw [setString, tmp, Option.bind_eq_bind, Option.bind_some, run fuel more]
    rfl
  · dsimp only
    by_cases same : other = setting
    · rw [same, Function.update_self, Function.update_self]
      exact .inr ⟨result, _, rfl, there, all⟩
    · rw [Function.update_of_ne same, Function.update_of_ne same]
      refine (each other).imp_right fun found => ?_
      obtain ⟨pointer, string, set, here, value⟩ := found
      exact ⟨pointer, string, set, kept pointer string here, value⟩

theorem valuesFor_append (first second : List (List Char)) (setting : Setting) : valuesFor forExecutable (first ++ second) setting =
    valuesFor forExecutable first setting ++ valuesFor forExecutable second setting := by
  rw [valuesFor, valuesFor, valuesFor]
  split
  · rw [valuesOf, List.filter_append, List.map_append]
    rfl
  · rfl

theorem valuesFor_singleton (string : List Char) (setting : Setting) : valuesFor forExecutable [string] setting =
    if setting.takes forExecutable ∧ '=' ∈ string ∧ keyOf string = setting.name then [valueOf string] else [] := by
  rw [valuesFor, valuesOf, List.filter_cons, List.filter_nil]
  simp only [decide_eq_true_eq]
  split
  · next takes =>
      split
      · next same =>
          rw [if_pos ⟨takes, same⟩]
          rfl
      · next other => rw [if_neg fun both => other both.2, List.map_nil]
  · next other => rw [if_neg fun both => other both.1]

theorem valueOf_unterminated (unterminated : '\x00' ∉ string) : '\x00' ∉ valueOf string := fun member =>
  unterminated ((List.dropWhile_sublist _).mem ((List.tail_sublist _).mem member))

theorem valuesFor_unterminated (each : ∀ string ∈ strings, '\x00' ∉ string) (setting : Setting) :
    ∀ value ∈ valuesFor forExecutable strings setting, '\x00' ∉ value := by
  intro value member
  rw [valuesFor] at member
  split at member
  · obtain ⟨string, found, rfl⟩ := List.mem_map.1 member
    exact valueOf_unterminated (each string (List.mem_filter.1 found).1)
  · cases member

theorem find?_envVars (here : '=' ∈ string) (clean : ¬Misread string) :
    envVars.find? (fun var => strncmpEq string var.name var.length) = envVars.find? fun var => keyOf string = var.name := by
  rw [← List.head?_filter, ← List.head?_filter]
  refine congrArg _ (List.filter_congr fun var member => ?_)
  obtain ⟨⟨setting, -, name⟩, length, -, -⟩ := envVars_spec var member
  rw [Bool.eq_iff_iff, length, name, strncmpEq_iff string (setting_name_plain setting).2, prefix_iff_keyOf here clean,
    decide_eq_true_iff]

theorem addEnvVar_spec (records : Records overrides values) (unterminated : '\x00' ∉ string) (clean : ¬Misread string)
    (old : ∀ setting, ∀ value ∈ values setting, '\x00' ∉ value)
    (short : ∀ setting long, joined (values setting ++ valuesFor forExecutable [string] setting) = some long →
      long.length + 1 < kAllocationSize - sizeofPathPool) :
    ∃ overrides' enough, (∀ fuel ≥ enough, addEnvVar fuel forExecutable overrides string = some overrides') ∧
      Records overrides' fun setting => values setting ++ valuesFor forExecutable [string] setting := by
  have nothing (none : ∀ setting, valuesFor forExecutable [string] setting = []) :
      Records overrides fun setting => values setting ++ valuesFor forExecutable [string] setting := by
    simpa [none] using records
  by_cases here : '=' ∈ string
  · cases found : envVars.find? fun var => keyOf string = var.name with
    | none =>
        rw [List.find?_eq_none] at found
        refine ⟨overrides, 0, fun fuel _ => ?_, nothing fun setting => ?_⟩
        · rw [addEnvVar, if_pos here, find?_envVars here clean, List.find?_eq_none.2 found]
        · obtain ⟨var, member, name⟩ := name_mem_envVars setting setting.mem_all
          rw [valuesFor_singleton, if_neg]
          rintro ⟨-, -, key⟩
          exact found var member (decide_eq_true (key.trans name.symm))
    | some var =>
        obtain ⟨-, -, place, settings⟩ := envVars_spec var (List.mem_of_find?_eq_some found)
        have key : keyOf string = var.name := by simpa using List.find?_some found
        have value : suffixAt string var.place = some (valueOf string) := by
          have pieces := string_eq here
          rw [key] at pieces
          generalize valueOf string = rest at pieces ⊢
          rw [pieces, suffixAt, place, if_pos (by simp), List.drop_append]
          simp
        have updated : (fun setting => values setting ++ valuesFor forExecutable [string] setting) =
            Function.update values (var.setting forExecutable) (values (var.setting forExecutable) ++ [valueOf string]) := by
          funext setting
          have meant := settings forExecutable setting setting.mem_all
          rw [valuesFor_singleton, Function.update_apply]
          by_cases same : setting = var.setting forExecutable
          · obtain ⟨name, takes⟩ := meant.1 same.symm
            rw [if_pos same, if_pos ⟨takes, here, key.trans name⟩, same]
          · rw [if_neg same, if_neg, List.append_nil]
            exact fun both => same (meant.2 ⟨key.symm.trans both.2.2, both.1⟩).symm
        have new : valuesFor forExecutable [string] (var.setting forExecutable) = [valueOf string] := by
          obtain ⟨name, takes⟩ := (settings forExecutable _ (var.setting forExecutable).mem_all).1 rfl
          rw [valuesFor_singleton, if_pos ⟨takes, here, key.trans name⟩]
        have all := joined_concat (values (var.setting forExecutable)) (valueOf string)
        have fits := short (var.setting forExecutable)
        rw [new] at fits
        have inner := valueOf_unterminated unterminated
        have ends := joined_unterminated (fun value member => (List.mem_append.1 member).elim (old _ value) fun last => by
          rw [List.mem_singleton.1 last]
          exact inner) all
        obtain ⟨overrides', enough, run, done⟩ := setString_spec records all ends (fits _ all)
        rw [updated]
        refine ⟨overrides', enough, fun fuel more => ?_, done⟩
        rw [addEnvVar, if_pos here, find?_envVars here clean, found]
        dsimp only
        rw [value, Option.bind_eq_bind, Option.bind_some, run fuel more]
  · refine ⟨overrides, 0, fun fuel _ => if_neg here, nothing fun setting => ?_⟩
    rw [valuesFor_singleton, if_neg fun both => here both.2.1]

theorem foldlM_addEnvVar (records : Records overrides values) (each : ∀ string ∈ strings, '\x00' ∉ string ∧ ¬Misread string)
    (old : ∀ setting, ∀ value ∈ values setting, '\x00' ∉ value)
    (short : ∀ setting long, joined (values setting ++ valuesFor forExecutable strings setting) = some long →
      long.length + 1 < kAllocationSize - sizeofPathPool) :
    ∃ overrides' enough, (∀ fuel ≥ enough, strings.foldlM (addEnvVar fuel forExecutable) overrides = some overrides') ∧
      Records overrides' fun setting => values setting ++ valuesFor forExecutable strings setting := by
  induction strings generalizing overrides values with
  | nil =>
      refine ⟨overrides, 0, fun fuel _ => rfl, ?_⟩
      have none : ∀ setting, valuesFor forExecutable [] setting = [] := fun setting => by
        rw [valuesFor]
        split <;> rfl
      simpa [none] using records
  | cons string strings ih =>
      obtain ⟨first, rest⟩ := List.forall_mem_cons.1 each
      have both : ∀ setting, valuesFor forExecutable (string :: strings) setting =
          valuesFor forExecutable [string] setting ++ valuesFor forExecutable strings setting := valuesFor_append [string] strings
      simp only [both, ← List.append_assoc] at short ⊢
      obtain ⟨middle, enough, run, records'⟩ := addEnvVar_spec records first.1 first.2 old fun setting long all => by
        obtain ⟨longer, all', le⟩ := length_joined_le (valuesFor forExecutable strings setting) all
        exact Nat.lt_of_le_of_lt (Nat.succ_le_succ le) (short setting longer all')
      obtain ⟨overrides', enough', run', records''⟩ := ih records' rest (fun setting value member =>
        (List.mem_append.1 member).elim (old setting value) (valuesFor_unterminated (by simpa using first.1) setting value)) short
      refine ⟨overrides', max enough enough', fun fuel more => ?_, records''⟩
      rw [List.foldlM_cons, run fuel (Nat.le_trans (Nat.le_max_left _ _) more), Option.bind_eq_bind, Option.bind_some]
      exact run' fuel (Nat.le_trans (Nat.le_max_right _ _) more)

theorem prefix_keyOf_iff {name : List Char} (plain : '=' ∉ name) : name <+: keyOf string ↔ name <+: string := by
  refine ⟨fun start => start.trans (List.takeWhile_prefix _), fun start => ?_⟩
  obtain ⟨rest, rfl⟩ := start
  have inner : ∀ c ∈ name, decide (c ≠ '=') = true := fun c member => decide_eq_true (ne_of_mem_of_not_mem member plain)
  rw [keyOf, List.takeWhile_append_of_pos inner]
  exact List.prefix_append _ _

theorem isDyldEnv_iff (string : List Char) : isDyldEnv string = true ↔ IsPathVar string := by
  have start := @strncmpEq_iff "DYLD_".toList string (by decide)
  have stop := @strncmpEq_iff "_PATH".toList (string.drop ((keyOf string).length - 5)) (by decide)
  have plain := @prefix_keyOf_iff string "DYLD_".toList (by decide)
  rw [isDyldEnv, Bool.and_eq_true, Bool.and_eq_true, List.contains_iff_mem, IsPathVar, plain]
  change (strncmpEq string "DYLD_".toList "DYLD_".toList.length = true ∧ _) ∧
    strncmpEq (string.drop ((keyOf string).length - 5)) "_PATH".toList "_PATH".toList.length = true ↔ _
  rw [start, stop, and_assoc, and_left_comm]
  refine and_congr_right fun here => and_congr_right fun dyld => ?_
  have length : 5 ≤ (keyOf string).length := (plain.2 dyld).length_le
  have pieces := string_eq here
  generalize keyOf string = key at pieces length ⊢
  have last : (key.drop (key.length - 5)).length = "_PATH".toList.length := by
    rw [List.length_drop, Nat.sub_sub_self length]
    rfl
  rw [pieces, List.drop_append_of_le_length (Nat.sub_le _ _), List.prefix_iff_eq_take, ← last, List.take_left,
    List.suffix_iff_eq_drop]
  rfl

theorem setEnvVars_spec {envp commands : List (List Char)}
    (each : ∀ string ∈ envp ++ commands.filter (IsPathVar ·), '\x00' ∉ string ∧ ¬Misread string)
    (short : ∀ setting long, recorded envp (commands.filter (IsPathVar ·)) setting = some long →
      long.length + 1 < kAllocationSize - sizeofPathPool) :
    ∃ overrides' enough, (∀ fuel ≥ enough, setEnvVars fuel fresh envp (some commands) = some overrides') ∧
      Records overrides' fun setting => valuesFor false envp setting ++ valuesFor true (commands.filter (IsPathVar ·)) setting := by
  obtain ⟨first, second⟩ := List.forall_mem_append.1 each
  obtain ⟨middle, enough, run, records⟩ := foldlM_addEnvVar fresh_records first (fun _ _ member => absurd member List.not_mem_nil)
    fun setting long all => by
      obtain ⟨longer, all', le⟩ := length_joined_le (valuesFor true (commands.filter (IsPathVar ·)) setting) all
      exact Nat.lt_of_le_of_lt (Nat.succ_le_succ le) (short setting longer all')
  obtain ⟨overrides', enough', run', records'⟩ := foldlM_addEnvVar records second
    (fun setting => valuesFor_unterminated (fun string member => (first string member).1) setting) short
  have same : commands.filter isDyldEnv = commands.filter (IsPathVar ·) := List.filter_congr fun string _ => by
    rw [Bool.eq_iff_iff, isDyldEnv_iff, decide_eq_true_iff]
  refine ⟨overrides', max enough enough', fun fuel more => ?_, records'⟩
  rw [setEnvVars, run fuel (Nat.le_trans (Nat.le_max_left _ _) more), Option.bind_eq_bind, Option.bind_some]
  dsimp only
  rw [setMainExecutable, same]
  exact run' fuel (Nat.le_trans (Nat.le_max_right _ _) more)

/-! ## Reporting -/

/-- The string of a variable that is set. -/
def reportOf (values : Setting → List (List Char)) (var : List Char × Setting) : List (List Char) :=
  ((joined (values var.2)).map fun value => var.1 ++ '=' :: value).toList

theorem forEachEnvVar_eq (records : Records overrides values) :
    forEachEnvVar overrides = some (reportedVars.flatMap (reportOf values)) := by
  have handled (var : List Char × Setting) : handleEnvVar overrides var.1 var.2 = some (reportOf values var) := by
    rw [handleEnvVar, records.value_eq, reportOf]
    cases joined (values var.2) with
    | none => rfl
    | some value => rfl
  have all : reportedVars.mapM (fun var => some (reportOf values var)) = some (reportedVars.map (reportOf values)) :=
    List.mapM_pure
  rw [forEachEnvVar, funext handled, all]
  rfl

theorem reportedVars_spec : ∀ var ∈ reportedVars, var.1 = var.2.name ∧
    (∀ setting ∈ Setting.all, setting.name <+: var.1 → var.1 = setting.name) ∧
      ∀ setting ∈ Setting.all, setting.takes false = true → var.1 = setting.name → var.2 = setting := by
  decide +kernel

theorem mem_report (member : string ∈ reportedVars.flatMap (reportOf values)) :
    ∃ var ∈ reportedVars, ∃ value, joined (values var.2) = some value ∧ string = var.1 ++ '=' :: value := by
  obtain ⟨var, found, inside⟩ := List.mem_flatMap.1 member
  rw [reportOf, Option.mem_toList, Option.map_eq_some_iff] at inside
  obtain ⟨value, same, rfl⟩ := inside
  exact ⟨var, found, value, same, rfl⟩

theorem report_clean (member : string ∈ reportedVars.flatMap (reportOf values)) : ¬Misread string := by
  obtain ⟨var, found, value, -, rfl⟩ := mem_report member
  obtain ⟨name, prefixes, -⟩ := reportedVars_spec var found
  have plain : '=' ∉ var.1 := name ▸ (setting_name_plain var.2).1
  rintro ⟨-, setting, start, other⟩
  rw [(keyOf_append plain value).1] at other
  have inside := (prefix_keyOf_iff (setting_name_plain setting).1).2 start
  rw [(keyOf_append plain value).1] at inside
  exact other (prefixes setting setting.mem_all inside)

theorem valuesFor_report (env : setting.takes false = true) :
    valuesFor false (reportedVars.flatMap (reportOf values)) setting = (joined (values setting)).toList := by
  have each (var : List Char × Setting) (member : var ∈ reportedVars) : valuesOf setting.name (reportOf values var) =
      if var.2 = setting then (joined (values setting)).toList else [] := by
    obtain ⟨name, -, settings⟩ := reportedVars_spec var member
    have plain : '=' ∉ var.1 := name ▸ (setting_name_plain var.2).1
    rw [reportOf]
    split
    · next same =>
        rw [same] at name ⊢
        cases joined (values setting) with
        | none => rfl
        | some value =>
            rw [name] at plain ⊢
            have pieces := keyOf_append plain value
            simp [valuesOf, pieces]
    · next other =>
        have names : var.1 ≠ setting.name := fun same => other (settings setting setting.mem_all env same)
        cases joined (values var.2) with
        | none => rfl
        | some value => simp [valuesOf, keyOf_append plain, names]
  rw [valuesFor, if_pos env, valuesOf, List.filter_flatMap, List.map_flatMap]
  refine (List.flatMap_congr each).trans ?_
  cases setting <;> first | (simp [reportedVars]; done) | simp [Setting.takes] at env

theorem joined_toList (value : Option (List Char)) : joined value.toList = value := by
  cases value with
  | none => rfl
  | some value => simp [joined, List.intercalate]

end Recording

/-- Every setting has the values of the strings of its variable, those of the executable as far as their keys end in `_PATH`,
and the reported strings lead to the same settings of the environment.  No string may have a key that is longer than the name
of a variable it starts with, and the recorded strings have to fit in a block of the pool. -/
theorem setEnvVars_records (envp commands : List CString)
    (clean : ∀ string ∈ envp.map CString.chars ++ (commands.map CString.chars).filter (IsPathVar ·), ¬Misread string)
    (short : ∀ setting long,
      recorded (envp.map CString.chars) ((commands.map CString.chars).filter (IsPathVar ·)) setting = some long →
        long.length + 1 < kAllocationSize - sizeofPathPool) :
    ∃ fuel overrides, setEnvVars fuel fresh (envp.map CString.chars) (some (commands.map CString.chars)) = some overrides ∧
      (∀ setting, overrides.value setting =
        some (recorded (envp.map CString.chars) ((commands.map CString.chars).filter (IsPathVar ·)) setting)) ∧
      ∃ strings, forEachEnvVar overrides = some strings ∧ ∃ fuel again, setEnvVars fuel fresh strings none = some again ∧
        ∀ setting, setting.takes false = true → again.value setting = overrides.value setting := by
  have unterminated : ∀ string ∈ envp.map CString.chars ++ (commands.map CString.chars).filter (IsPathVar ·), '\x00' ∉ string := by
    intro string member
    rcases List.mem_append.1 member with first | second
    · obtain ⟨found, -, rfl⟩ := List.mem_map.1 first
      exact found.unterminated
    · obtain ⟨found, -, rfl⟩ := List.mem_map.1 (List.mem_filter.1 second).1
      exact found.unterminated
  obtain ⟨overrides, enough, run, records⟩ := setEnvVars_spec (fun string member => ⟨unterminated string member, clean string member⟩) short
  refine ⟨enough, overrides, run enough (Nat.le_refl _), records.value_eq, _, forEachEnvVar_eq records, ?_⟩
  -- the strings that are reported can be recorded again
  generalize recordedValues : (fun setting => valuesFor false (envp.map CString.chars) setting ++
    valuesFor true ((commands.map CString.chars).filter (IsPathVar ·)) setting) = values at records
  have fits : ∀ setting long, joined (values setting) = some long → long.length + 1 < kAllocationSize - sizeofPathPool := by
    intro setting long all
    rw [← recordedValues] at all
    exact short setting long all
  have ends : ∀ setting long, joined (values setting) = some long → '\x00' ∉ long := by
    intro setting long all
    rw [← recordedValues] at all
    refine joined_unterminated (fun value member => (List.mem_append.1 member).elim ?_ ?_) all
    · exact valuesFor_unterminated (fun string member => unterminated string (List.mem_append_left _ member)) setting value
    · exact valuesFor_unterminated (fun string member => unterminated string (List.mem_append_right _ member)) setting value
  have again : ∀ string ∈ reportedVars.flatMap (reportOf values), '\x00' ∉ string := by
    intro string member
    obtain ⟨var, found, value, same, rfl⟩ := mem_report member
    rw [(reportedVars_spec var found).1, List.mem_append, List.mem_cons, not_or, not_or]
    exact ⟨(setting_name_plain var.2).2, by decide, ends var.2 value same⟩
  have room : ∀ setting long, joined ([] ++ valuesFor false (reportedVars.flatMap (reportOf values)) setting) = some long →
      long.length + 1 < kAllocationSize - sizeofPathPool := by
    intro setting long all
    cases env : setting.takes false with
    | true =>
        rw [valuesFor_report env, List.nil_append, joined_toList] at all
        exact fits setting long all
    | false =>
        rw [valuesFor, env] at all
        cases all
  obtain ⟨again, enough, run, records'⟩ := foldlM_addEnvVar fresh_records
    (fun string member => ⟨again string member, report_clean member⟩) (fun _ _ member => absurd member List.not_mem_nil) room
  refine ⟨enough, again, ?_, fun setting env => ?_⟩
  · rw [setEnvVars, run enough (Nat.le_refl _)]
    rfl
  · rw [records'.value_eq, records.value_eq, valuesFor_report env, List.nil_append, joined_toList]

/-- A search path that is given twice. -/
def searchPaths : List CString :=
  [⟨"DYLD_LIBRARY_PATH=/usr/local/lib".toList, by decide⟩, ⟨"DYLD_LIBRARY_PATH=/opt/lib".toList, by decide⟩]

def rootCommand : List CString := [⟨"DYLD_ROOT_PATH=/root".toList, by decide⟩]

instance (string : List Char) : Decidable (Misread string) :=
  decidable_of_iff ('=' ∈ string ∧ ∃ setting ∈ Setting.all, setting.name <+: string ∧ keyOf string ≠ setting.name)
    (and_congr_right fun _ => exists_congr fun setting => and_iff_right setting.mem_all)

theorem searchPaths_records :
    ∃ fuel overrides, setEnvVars fuel fresh (searchPaths.map CString.chars) (some (rootCommand.map CString.chars)) = some overrides ∧
      ∀ setting, overrides.value setting = some (recorded (searchPaths.map CString.chars)
        ((rootCommand.map CString.chars).filter (IsPathVar ·)) setting) := by
  have fits : ∀ setting ∈ Setting.all, (recorded (searchPaths.map CString.chars)
      ((rootCommand.map CString.chars).filter (IsPathVar ·)) setting).all (fun long => long.length + 1 < 32744) = true := by
    decide +kernel
  obtain ⟨fuel, overrides, run, values, -⟩ := setEnvVars_records searchPaths rootCommand (by decide +kernel) fun setting long all => by
    have inside := fits setting setting.mem_all
    rw [all] at inside
    exact of_decide_eq_true inside
  exact ⟨fuel, overrides, run, values⟩

def insertCommand : List Char := "DYLD_INSERT_LIBRARIES=/lib.dylib".toList

/-- Libraries are not inserted by a load command. -/
theorem insertCommand_not_recorded : ¬∃ fuel overrides, setEnvVars fuel fresh [] (some [insertCommand]) = some overrides ∧
    ∀ setting, overrides.value setting = some (recorded [] [insertCommand] setting) := by
  rintro ⟨fuel, overrides, run, values⟩
  have skipped : [insertCommand].filter isDyldEnv = [] := by decide +kernel
  have unchanged : setEnvVars fuel fresh [] (some [insertCommand]) = some fresh := by
    rw [setEnvVars, List.foldlM_nil]
    change setMainExecutable fuel fresh [insertCommand] = _
    rw [setMainExecutable, skipped]
    rfl
  have same : fresh = overrides := Option.some.inj (unchanged.symm.trans run)
  have value := values insertedDylibs
  rw [← same] at value
  exact absurd value (by decide +kernel)

end ObjcDyld.LoadPaths
