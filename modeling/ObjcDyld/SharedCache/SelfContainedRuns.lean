import ObjcDyld.SharedCache.SelfContained

/-!
# Self-contained caches

Both removal loops end, whatever the names. When every dylib has one name of its own, what is
kept is closed under dependencies, and what is dropped could not be kept or is excluded.
-/

namespace ObjcDyld.SharedCache

/-- A dylib answers to its path and to its install name. -/
def LoadedMachO.Provides (dylib : LoadedMachO) (name : String) : Prop :=
  name = dylib.runtimePath ∨ name = dylib.mh.installName

/-- Every dependency that is not weak is provided. -/
def SelfContained (kept : List LoadedMachO) : Prop :=
  ∀ dylib ∈ kept, ∀ dependent ∈ dylib.mh.dependents, dependent.isWeak = false →
    ∃ provider ∈ kept, provider.Provides dependent.loadPath

/-- The dylib is in no self-contained part of the dylibs. -/
def Doomed (dylibs : List LoadedMachO) (dylib : LoadedMachO) : Prop :=
  ∀ kept, kept ⊆ dylibs → SelfContained kept → dylib ∉ kept

variable {dylibs : List LoadedMachO}

theorem Scan.isBad_markBad (scan : Scan) (path reason : String) (dylib : LoadedMachO) :
    (scan.markBad path reason).isBad dylib = (scan.isBad dylib || decide (path = dylib.runtimePath)) := by
  unfold Scan.isBad Scan.markBad
  split
  · next present =>
      by_cases own : path = dylib.runtimePath
      · have already : (scan.badDylibs.any fun bad => bad.1 = dylib.runtimePath) = true :=
          List.any_eq_true.mpr ⟨_, present, by simp [own]⟩
        simp [already]
      · simp [own]
  · simp [List.any_append]

theorem Scan.reason_markBad (scan : Scan) (path reason : String) :
    (path, reason) ∈ (scan.markBad path reason).badDylibs := by
  unfold Scan.markBad
  split
  · next present => exact present
  · simp

theorem Scan.reason_kept (scan : Scan) (path reason : String) {bad : String × String} (inside : bad ∈ scan.badDylibs) :
    bad ∈ (scan.markBad path reason).badDylibs := by
  unfold Scan.markBad
  split
  · exact inside
  · exact List.mem_append_left _ inside

/-- A step of a removal loop marks its own dylib only, and asks for another round when it does. -/
structure Progress (step : Scan → LoadedMachO → Scan) : Prop where
  keeps : ∀ scan dylib other, scan.isBad other = true → (step scan dylib).isBad other = true
  marks : ∀ scan dylib, (step scan dylib).doAgain = true →
    scan.doAgain = true ∨ scan.isBad dylib = false ∧ (step scan dylib).isBad dylib = true

theorem Progress.lowers {step : Scan → LoadedMachO → Scan} (progress : Progress step) (dylibs : List LoadedMachO)
    (scan : Scan) (again : (dylibs.foldl step { scan with doAgain := false }).doAgain = true) :
    dylibs.countP (fun dylib => !(dylibs.foldl step { scan with doAgain := false }).isBad dylib) <
      dylibs.countP fun dylib => !scan.isBad dylib := by
  have fold : ∀ done : List LoadedMachO, ∀ state : Scan, state = done.foldl step { scan with doAgain := false } →
      (∀ other, scan.isBad other = true → state.isBad other = true) ∧
        (state.doAgain = true → ∃ dylib ∈ done, scan.isBad dylib = false ∧ state.isBad dylib = true) := by
    intro done
    induction done using List.reverseRecOn with
    | nil =>
        rintro state rfl
        exact ⟨fun other bad => bad, by simp⟩
    | append_singleton done dylib ih =>
        rintro state rfl
        rw [List.foldl_append, List.foldl_cons, List.foldl_nil]
        obtain ⟨kept, marked⟩ := ih _ rfl
        refine ⟨fun other bad => progress.keeps _ dylib other (kept other bad), fun more => ?_⟩
        rcases progress.marks _ dylib more with before | ⟨fresh, bad⟩
        · obtain ⟨other, inside, good, bad⟩ := marked before
          exact ⟨other, List.mem_append_left _ inside, good, progress.keeps _ dylib other bad⟩
        · refine ⟨dylib, by simp, ?_, bad⟩
          by_contra was
          simp [kept dylib (by simpa using was)] at fresh
  obtain ⟨kept, marked⟩ := fold dylibs _ rfl
  obtain ⟨dylib, inside, good, bad⟩ := marked again
  refine Repeats.countP_lt (fun other good => ?_) ⟨dylib, inside, by simp [good], by simp [bad]⟩
  by_contra was
  simp [kept other (by simpa using was)] at good

theorem isBad_checkDependent (dylib : LoadedMachO) (scan : Scan) (dependent : Dependent) (other : LoadedMachO) :
    (checkDependent dylib scan dependent).isBad other = (scan.isBad other ||
      (decide (dylib.runtimePath = other.runtimePath) && !dependent.isWeak &&
        decide (dependent.loadPath ∉ scan.knownDylibs))) := by
  unfold checkDependent
  split
  · next weak => simp [weak]
  · next strong =>
      split
      · next known => simp [known]
      · next unknown =>
          change (scan.markBad _ _).isBad other = _
          rw [Scan.isBad_markBad]
          simp [strong, unknown]

theorem scanDylib_progress : Progress scanDylib where
  keeps scan dylib other bad := by
    unfold scanDylib
    split
    · exact bad
    · induction dylib.mh.dependents using List.reverseRecOn with
      | nil => exact bad
      | append_singleton done dependent ih =>
          rw [List.foldl_append, List.foldl_cons, List.foldl_nil, isBad_checkDependent, ih, Bool.true_or]
  marks scan dylib again := by
    unfold scanDylib at again ⊢
    split at again
    · exact Or.inl again
    · next fresh =>
        rw [if_neg fresh]
        suffices ∀ done : List Dependent, (done.foldl (checkDependent dylib) scan).doAgain = true →
            scan.doAgain = true ∨ (done.foldl (checkDependent dylib) scan).isBad dylib = true from
          (this _ again).imp_right fun bad => ⟨by simpa using fresh, bad⟩
        intro done
        induction done using List.reverseRecOn with
        | nil => exact Or.inl
        | append_singleton done dependent ih =>
            rw [List.foldl_append, List.foldl_cons, List.foldl_nil, isBad_checkDependent]
            generalize done.foldl (checkDependent dylib) scan = middle at ih ⊢
            intro more
            unfold checkDependent at more
            split at more
            · exact (ih more).imp_right fun bad => by simp [bad]
            · next strong =>
                split at more
                · exact (ih more).imp_right fun bad => by simp [bad]
                · next unknown => exact Or.inr (by simp [strong, unknown])

theorem excludeDylib_progress (states : ℕ → State) (referenced : Finset String) :
    Progress (excludeDylib states referenced) where
  keeps scan dylib other bad := by
    unfold excludeDylib
    split
    · exact bad
    · split
      · rw [Scan.isBad_markBad, bad, Bool.true_or]
      · exact bad
  marks scan dylib again := by
    unfold excludeDylib at again ⊢
    split at again
    · exact Or.inl again
    · next fresh =>
        rw [if_neg fresh]
        split at again
        · next excluded =>
            rw [if_pos excluded, Scan.isBad_markBad]
            exact Or.inr ⟨by simpa using fresh, by simp⟩
        · exact Or.inl again

/-- The entries still to be visited and those that may still be added. -/
def Marking.size (all : List (String × AnyDylib)) (marking : Marking) : ℕ :=
  marking.worklist.length +
    ((all.map (·.2.inputFile)).toFinset.filter fun file => marking.states file = .unset).card

theorem mem_of_lookup {α β : Type*} [BEq α] [LawfulBEq α] {entries : List (α × β)} {key : α} {value : β}
    (found : entries.lookup key = some value) : (key, value) ∈ entries := by
  obtain ⟨before, after, eq, -⟩ := List.lookup_eq_some_iff.mp found
  rw [eq]
  simp

theorem markDependent_size (all : List (String × AnyDylib)) (marking : Marking) (dependent : Dependent) :
    (markDependent all marking dependent).size all ≤ marking.size all := by
  unfold markDependent
  split
  · exact le_rfl
  · split
    · exact le_rfl
    · next dylib found =>
        split
        · next unset =>
            have member : dylib.inputFile ∈ (all.map (·.2.inputFile)).toFinset :=
              List.mem_toFinset.mpr (List.mem_map.mpr ⟨_, mem_of_lookup found, rfl⟩)
            have less : ((all.map (·.2.inputFile)).toFinset.filter fun file =>
                  Function.update marking.states dylib.inputFile .mustBeIncludedForDependent file = .unset).card <
                ((all.map (·.2.inputFile)).toFinset.filter fun file => marking.states file = .unset).card := by
              refine Finset.card_lt_card ⟨fun file inside => ?_, fun subset => ?_⟩
              · rw [Finset.mem_filter] at inside ⊢
                refine ⟨inside.1, ?_⟩
                by_cases own : file = dylib.inputFile
                · rwa [own]
                · simpa [Function.update_of_ne own] using inside.2
              · have inside := subset (Finset.mem_filter.mpr ⟨member, unset⟩)
                simp at inside
            simp only [Marking.size, List.length_cons]
            omega
        · exact le_rfl

theorem markWorklist_total (all : List (String × AnyDylib)) (fuel : ℕ) (marking : Marking)
    (enough : marking.size all < fuel) : ∃ states, markWorklist all fuel marking = some states := by
  induction fuel generalizing marking with
  | zero => exact absurd enough (Nat.not_lt_zero _)
  | succ fuel ih =>
      obtain ⟨states, worklist⟩ := marking
      rw [markWorklist]
      cases worklist with
      | nil => exact ⟨states, rfl⟩
      | cons dylib rest =>
          have popped : (Marking.mk states rest).size all + 1 = (Marking.mk states (dylib :: rest)).size all := by
            simp only [Marking.size, List.length_cons]
            omega
          simp only
          cases dylib.mh with
          | none => exact ih ⟨states, rest⟩ (by omega)
          | some mh =>
              have marked : ∀ dependents : List Dependent,
                  (dependents.foldl (markDependent all) ⟨states, rest⟩).size all ≤ (Marking.mk states rest).size all := by
                intro dependents
                induction dependents using List.reverseRecOn with
                | nil => exact le_rfl
                | append_singleton done dependent ih =>
                    rw [List.foldl_append]
                    exact (markDependent_size all _ dependent).trans ih
              exact ih _ (by have less := marked mh.dependents; omega)

theorem markRequired_total (all : List (String × AnyDylib)) (paths : List String) (states : ℕ → State) :
    ∃ marked, paths.foldlM (markRequired all) states = some marked := by
  induction paths generalizing states with
  | nil => exact ⟨states, rfl⟩
  | cons path rest ih =>
      have step : ∃ next, markRequired all states path = some next := by
        unfold markRequired
        split
        · exact ⟨states, rfl⟩
        · split
          · refine markWorklist_total all _ _ ?_
            have few := (Finset.card_filter_le (all.map (·.2.inputFile)).toFinset
              fun file => states file = State.unset).trans (List.toFinset_card_le _)
            rw [List.length_map] at few
            simp only [Marking.size, List.length_singleton]
            omega
          · exact ⟨states, rfl⟩
      obtain ⟨next, run⟩ := step
      obtain ⟨marked, run'⟩ := ih next
      exact ⟨marked, by rw [List.foldlM_cons, run]; exact run'⟩

theorem WellNamed.eq_of_path (named : WellNamed dylibs) {dylib other : LoadedMachO} (inside : dylib ∈ dylibs)
    (inside' : other ∈ dylibs) (same : dylib.runtimePath = other.runtimePath) : dylib = other :=
  List.inj_on_of_nodup_map named.distinct inside inside' same

theorem WellNamed.provides_iff (named : WellNamed dylibs) {dylib : LoadedMachO} (inside : dylib ∈ dylibs)
    (name : String) : dylib.Provides name ↔ name = dylib.runtimePath := by
  rw [LoadedMachO.Provides, named.installed dylib inside, or_self]

/-- The scans for missing dependents: the names that are known, and why dylibs are bad. -/
structure Scanning (dylibs : List LoadedMachO) (scan : Scan) : Prop where
  known : ∀ name, name ∈ scan.knownDylibs ↔
    ∃ dylib ∈ dylibs, name = dylib.runtimePath ∧ scan.isBad dylib = false
  doomed : ∀ dylib ∈ dylibs, scan.isBad dylib = true → Doomed dylibs dylib

theorem scanning_start (named : WellNamed dylibs) : Scanning dylibs ⟨namesOf dylibs, [], true⟩ where
  known name := by
    simp only [namesOf, List.mem_toFinset, List.mem_flatMap, List.mem_cons, List.not_mem_nil, or_false, Scan.isBad,
      List.any_nil, and_true]
    refine exists_congr fun dylib => and_congr_right fun inside => ?_
    rw [named.installed dylib inside, or_self]
  doomed := by simp [Scan.isBad]

theorem Scanning.checkDependent (named : WellNamed dylibs) {scan : Scan} (scanning : Scanning dylibs scan)
    {dylib : LoadedMachO} (inside : dylib ∈ dylibs) {dependent : Dependent}
    (member : dependent ∈ dylib.mh.dependents) : Scanning dylibs (checkDependent dylib scan dependent) := by
  cases weak : dependent.isWeak with
  | true =>
      rw [SharedCache.checkDependent, if_pos weak]
      exact scanning
  | false =>
      by_cases known : dependent.loadPath ∈ scan.knownDylibs
      · rw [SharedCache.checkDependent, if_neg (by simp [weak]), if_pos known]
        exact scanning
      · have bad : ∀ other ∈ dylibs, (SharedCache.checkDependent dylib scan dependent).isBad other = true ↔
            scan.isBad other = true ∨ other = dylib := by
          intro other inside'
          simp only [isBad_checkDependent, weak, known, not_false_eq_true, decide_true, Bool.not_false, Bool.and_true,
            Bool.or_eq_true, decide_eq_true_eq]
          refine or_congr_right ⟨fun same => named.eq_of_path inside' inside same.symm, ?_⟩
          rintro rfl
          rfl
        constructor
        · intro name
          have erased : (SharedCache.checkDependent dylib scan dependent).knownDylibs =
              scan.knownDylibs.erase dylib.runtimePath := by
            rw [SharedCache.checkDependent, if_neg (by simp [weak]), if_neg known, named.installed dylib inside]
            exact Finset.erase_idem
          rw [erased, Finset.mem_erase, scanning.known]
          constructor
          · rintro ⟨differs, other, inside', rfl, good⟩
            refine ⟨other, inside', rfl, Bool.eq_false_iff.mpr fun marked => ?_⟩
            rcases (bad other inside').mp marked with was | rfl
            · simp [good] at was
            · exact differs rfl
          · rintro ⟨other, inside', rfl, good⟩
            have unmarked := fun marked => Bool.eq_false_iff.mp good ((bad other inside').mpr marked)
            refine ⟨fun same => unmarked (Or.inr (named.eq_of_path inside' inside same)), other, inside', rfl, ?_⟩
            exact Bool.eq_false_iff.mpr fun was => unmarked (Or.inl was)
        · intro other inside' marked
          rcases (bad other inside').mp marked with was | rfl
          · exact scanning.doomed other inside' was
          · -- whatever could provide the missing dependency is doomed
            intro kept subset closed kept_inside
            obtain ⟨provider, provider_inside, provides⟩ := closed _ kept_inside dependent member weak
            have among := subset provider_inside
            have path := (named.provides_iff among _).mp provides
            refine scanning.doomed provider among ?_ kept subset closed provider_inside
            by_contra good
            exact known ((scanning.known _).mpr ⟨provider, among, path, by simpa using good⟩)

theorem Scanning.scanDylibs (named : WellNamed dylibs) {scan : Scan} (scanning : Scanning dylibs scan) :
    Scanning dylibs (scanDylibs dylibs scan) := by
  have fold : ∀ done ⊆ dylibs, Scanning dylibs (done.foldl scanDylib { scan with doAgain := false }) := by
    intro done
    induction done using List.reverseRecOn with
    | nil => exact fun _ => ⟨scanning.known, scanning.doomed⟩
    | append_singleton done dylib ih =>
        intro subset
        have before := ih fun other inside => subset (List.mem_append_left _ inside)
        have inside : dylib ∈ dylibs := subset (by simp)
        rw [List.foldl_append, List.foldl_cons, List.foldl_nil]
        unfold scanDylib
        split
        · exact before
        · suffices ∀ dependents ⊆ dylib.mh.dependents, Scanning dylibs
              (dependents.foldl (SharedCache.checkDependent dylib) (done.foldl scanDylib { scan with doAgain := false }))
            from this _ (List.Subset.refl _)
          intro dependents
          induction dependents using List.reverseRecOn with
          | nil => exact fun _ => before
          | append_singleton earlier dependent ih =>
              intro among
              rw [List.foldl_append, List.foldl_cons, List.foldl_nil]
              exact (ih fun other member => among (List.mem_append_left _ member)).checkDependent named inside
                (among (by simp))
  exact fold dylibs (List.Subset.refl _)

theorem selfContained_of_quiet (named : WellNamed dylibs) {scan : Scan} (scanning : Scanning dylibs scan)
    (quiet : (scanDylibs dylibs scan).doAgain = false) :
    SelfContained (dylibs.filter fun dylib => !(scanDylibs dylibs scan).isBad dylib) := by
  have quiet_check : ∀ dylib state dependent, (checkDependent dylib state dependent).doAgain = false →
      checkDependent dylib state dependent = state := by
    intro dylib state dependent silent
    unfold checkDependent at silent ⊢
    split_ifs at silent ⊢
    · rfl
    · rfl
    · exact absurd silent (by simp [Scan.markBad])
  have quiet_scan : ∀ state dylib, (scanDylib state dylib).doAgain = false → scanDylib state dylib = state := by
    intro state dylib silent
    unfold scanDylib at silent ⊢
    split_ifs at silent ⊢
    · rfl
    · exact (Repeats.foldl_quiet (quiet_check dylib) _ silent).1
  obtain ⟨same, each⟩ := Repeats.foldl_quiet quiet_scan dylibs quiet
  have result : scanDylibs dylibs scan = { scan with doAgain := false } := same
  rw [result]
  intro dylib inside dependent member strong
  obtain ⟨inside, good⟩ := List.mem_filter.mp inside
  have silent := each dylib inside
  unfold scanDylib at silent
  rw [if_neg (by simpa using good)] at silent
  have checked := (Repeats.foldl_quiet (quiet_check dylib) _ silent).2 dependent member
  have known : dependent.loadPath ∈ scan.knownDylibs := by
    by_contra unknown
    unfold checkDependent at checked
    rw [if_neg (by simp [strong]), if_neg unknown] at checked
    exact absurd checked (by simp [Scan.markBad])
  obtain ⟨provider, inside', path, good'⟩ := (scanning.known _).mp known
  refine ⟨provider, List.mem_filter.mpr ⟨inside', ?_⟩, (named.provides_iff inside' _).mpr path⟩
  rw [Bool.not_eq_true']
  exact good'

/-- The scans for dylibs to exclude: what is kept is closed, and a bad dylib is doomed or has the reason. -/
structure Excluding (dylibs : List LoadedMachO) (states : ℕ → State) (scan : Scan) : Prop where
  closed : SelfContained (dylibs.filter fun dylib => !scan.isBad dylib)
  dropped : ∀ dylib ∈ dylibs, scan.isBad dylib = true → Doomed dylibs dylib ∨
    states dylib.inputFile = .mustBeExcludedIfUnused ∧ (dylib.runtimePath, unusedReason) ∈ scan.badDylibs

theorem Excluding.excludeDylibs (named : WellNamed dylibs) {states : ℕ → State} {scan : Scan}
    (excluding : Excluding dylibs states scan) : Excluding dylibs states (excludeDylibs dylibs states scan) := by
  have fold : ∀ done ⊆ dylibs, ∀ result,
      result = done.foldl (excludeDylib states (referencedDylibs dylibs scan)) { scan with doAgain := false } →
      (∀ bad ∈ scan.badDylibs, bad ∈ result.badDylibs) ∧
      ∀ dylib ∈ dylibs, result.isBad dylib = true → scan.isBad dylib = true ∨
        dylib.mh.installName ∉ referencedDylibs dylibs scan ∧
          states dylib.inputFile = .mustBeExcludedIfUnused ∧ (dylib.runtimePath, unusedReason) ∈ result.badDylibs := by
    intro done
    induction done using List.reverseRecOn with
    | nil =>
        rintro - _ rfl
        exact ⟨fun _ inside => inside, fun _ _ bad => Or.inl bad⟩
    | append_singleton done dylib ih =>
        rintro subset _ rfl
        rw [List.foldl_append, List.foldl_cons, List.foldl_nil]
        obtain ⟨kept, marked⟩ := ih (fun other inside => subset (List.mem_append_left _ inside)) _ rfl
        generalize done.foldl (excludeDylib states (referencedDylibs dylibs scan)) { scan with doAgain := false } = middle
          at kept marked ⊢
        unfold excludeDylib
        split
        · exact ⟨kept, marked⟩
        · split
          · next unused =>
              refine ⟨fun bad inside => Scan.reason_kept _ _ _ (kept bad inside), fun other inside bad => ?_⟩
              rw [Scan.isBad_markBad, Bool.or_eq_true, decide_eq_true_eq] at bad
              rcases bad with before | same
              · exact (marked other inside before).imp_right fun found =>
                  ⟨found.1, found.2.1, Scan.reason_kept _ _ _ found.2.2⟩
              · obtain rfl := named.eq_of_path (subset (by simp)) inside same
                exact Or.inr ⟨unused.1, unused.2, Scan.reason_markBad _ _ _⟩
          · exact ⟨kept, marked⟩
  obtain ⟨kept, marked⟩ := fold dylibs (List.Subset.refl _) _ rfl
  change Excluding dylibs states
    (dylibs.foldl (excludeDylib states (referencedDylibs dylibs scan)) { scan with doAgain := false })
  have was_good : ∀ dylib, (dylibs.foldl (excludeDylib states (referencedDylibs dylibs scan))
      { scan with doAgain := false }).isBad dylib = false → scan.isBad dylib = false := by
    refine fun dylib good => Bool.eq_false_iff.mpr fun before => Bool.eq_false_iff.mp good ?_
    obtain ⟨bad, inside, same⟩ := List.any_eq_true.mp before
    exact List.any_eq_true.mpr ⟨bad, kept bad inside, same⟩
  constructor
  · intro dylib inside dependent member strong
    obtain ⟨inside, good⟩ := List.mem_filter.mp inside
    have good := was_good dylib (by simpa using good)
    obtain ⟨provider, inside', provides⟩ := excluding.closed dylib
      (List.mem_filter.mpr ⟨inside, by simpa using good⟩) dependent member strong
    obtain ⟨inside', good'⟩ := List.mem_filter.mp inside'
    refine ⟨provider, List.mem_filter.mpr ⟨inside', ?_⟩, provides⟩
    rw [Bool.not_eq_true']
    refine Bool.eq_false_iff.mpr fun bad => ?_
    rcases marked provider inside' bad with before | ⟨unreferenced, -⟩
    · simp [before] at good'
    · refine unreferenced ?_
      rw [named.installed provider inside', ← (named.provides_iff inside' _).mp provides]
      exact List.mem_toFinset.mpr (List.mem_flatMap.mpr
        ⟨dylib, List.mem_filter.mpr ⟨inside, by simpa using good⟩, List.mem_map_of_mem member⟩)
  · intro dylib inside bad
    rcases marked dylib inside bad with before | ⟨-, excluded⟩
    · exact (excluding.dropped dylib inside before).imp_right fun found => ⟨found.1, kept _ found.2⟩
    · exact Or.inr excluded

theorem Scan.mem_reasons (scan : Scan) (dylib : LoadedMachO) (reason : String) :
    reason ∈ scan.reasons dylib ↔ (dylib.runtimePath, reason) ∈ scan.badDylibs := by
  simp [Scan.reasons]

theorem verifySelfContained_spec (loaded : LoadedFiles) (named : WellNamed loaded.dylibsToCache)
    (states : ℕ → State) : ∃ verified, verifySelfContained loaded states = some verified ∧
      verified.dylibsToCache.Sublist loaded.dylibsToCache ∧ SelfContained verified.dylibsToCache ∧
      ∀ dylib ∈ loaded.dylibsToCache, dylib ∉ verified.dylibsToCache →
        Doomed loaded.dylibsToCache dylib ∨ verified.states dylib.inputFile = .mustBeExcludedIfUnused ∧
          (dylib.inputFile, droppedWarning dylib.runtimePath unusedReason) ∈ verified.warnings := by
  obtain ⟨scan, scanned, scanning, quiet⟩ := Repeats.repeatWhile_spec
    (Scanning loaded.dylibsToCache) (fun scan => loaded.dylibsToCache.countP fun dylib => !scan.isBad dylib)
    (fun _ scanning => scanning.scanDylibs named)
    (fun scan _ again => scanDylib_progress.lowers loaded.dylibsToCache scan again)
    (loaded.dylibsToCache.length + 1) (scanning_start named) (Nat.lt_succ_of_le List.countP_le_length)
  obtain ⟨marked, required⟩ := markRequired_total
    (allDylibs loaded.dylibsToCache loaded.otherDylibs loaded.couldNotLoadFiles)
    (sortedPaths (scanDylibs loaded.dylibsToCache scan).badDylibs) states
  have start : Excluding loaded.dylibsToCache marked (scanDylibs loaded.dylibsToCache scan) :=
    ⟨selfContained_of_quiet named scanning quiet, fun dylib inside bad =>
      Or.inl ((scanning.scanDylibs named).doomed dylib inside bad)⟩
  obtain ⟨before, excluded, excluding, -⟩ := Repeats.repeatWhile_spec
    (Excluding loaded.dylibsToCache marked) (fun scan => loaded.dylibsToCache.countP fun dylib => !scan.isBad dylib)
    (fun _ excluding => excluding.excludeDylibs named)
    (fun scan _ again => (excludeDylib_progress marked (referencedDylibs loaded.dylibsToCache scan)).lowers
      loaded.dylibsToCache scan again)
    (loaded.dylibsToCache.length + 1) start (Nat.lt_succ_of_le List.countP_le_length)
  have last := excluding.excludeDylibs named
  unfold verifySelfContained
  simp only [scanned, required, excluded, Option.bind_eq_bind, Option.bind_some, Option.pure_def]
  refine ⟨_, rfl, List.filter_sublist, last.closed, fun dylib inside dropped => ?_⟩
  have bad : (excludeDylibs loaded.dylibsToCache marked before).isBad dylib = true := by
    by_contra good
    exact dropped (List.mem_filter.mpr ⟨inside, by simpa using good⟩)
  refine (last.dropped dylib inside bad).imp_right fun found => ⟨found.1, ?_⟩
  exact List.mem_flatMap.mpr ⟨dylib, List.mem_filter.mpr ⟨inside, bad⟩,
    List.mem_map.mpr ⟨unusedReason, (Scan.mem_reasons _ _ _).mpr found.2, rfl⟩⟩

end ObjcDyld.SharedCache
