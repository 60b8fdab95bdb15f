import ObjcDyld.SharedCache.SelfContainedRuns

/-!
# Eviction of leaf dylibs

`evictLeafDylibs`: the dylibs that nothing depends on are ordered by the order file and their
sizes, and go from that order until the cache would fit.
-/

namespace ObjcDyld.SharedCache

structure DylibAndSize where
  input : LoadedMachO
  installName : String
  size : BitVec 64
deriving DecidableEq

/-- The reverse map of all dylib dependencies. -/
abbrev References := String → Option (Finset String)

def addReference (installName : String) (references : References) (dependent : Dependent) : References :=
  Function.update references dependent.loadPath
    (some (insert installName ((references dependent.loadPath).getD ∅)))

/-- The dylib has an entry, and one of its dependents refers to it. -/
def addReferences (references : References) (dylib : LoadedMachO) : References :=
  dylib.mh.dependents.foldl (addReference dylib.mh.installName)
    (if references dylib.mh.installName = none then Function.update references dylib.mh.installName (some ∅)
    else references)

def references (sortedDylibs : List LoadedMachO) : References :=
  sortedDylibs.foldl addReferences fun _ => none

/-- The size of the segments other than `__LINKEDIT`. -/
def segsSize (mh : MachO) : BitVec 64 :=
  mh.segments.foldl (fun size segment => if segment.1 = "__LINKEDIT" then size else size + segment.2) 0

def dylibAndSize (dylib : LoadedMachO) : DylibAndSize := ⟨dylib, dylib.mh.installName, segsSize dylib.mh⟩

/-- `UINT64_MAX` for a dylib that is not in the order file. -/
def orderOf (dylibOrdering : String → Option (BitVec 32)) (dylib : DylibAndSize) : BitVec 64 :=
  match dylibOrdering dylib.input.runtimePath with
  | some order => order.setWidth 64
  | none => BitVec.allOnes 64

/-- A leaf becomes the candidate when it is later in the order, or as late as possible and larger. -/
def considerDylib (dylibOrdering : String → Option (BitVec 32)) (references : References)
    (candidate : Option (DylibAndSize × BitVec 64)) (dylib : DylibAndSize) :
    Option (Option (DylibAndSize × BitVec 64)) :=
  match references dylib.installName with
  | none => none -- the assertion
  | some referrers =>
      let order := orderOf dylibOrdering dylib
      if referrers ≠ ∅ then some candidate
      else
        match candidate with
        | none => some (if order > 0 then some (dylib, order) else none)
        | some (best, candidateOrder) =>
            if order > candidateOrder ∨ (order = BitVec.allOnes 64 ∧ best.size < dylib.size) then
              some (some (dylib, order))
            else some candidate

/-- The candidate's entry goes, and its references to others. -/
def eraseCandidate (references : References) (installName : String) : References := fun name =>
  if name = installName then none else (references name).map (·.erase installName)

/-- The order in which leaf dylibs would go; `none` if an assertion failed or the loop did not end. -/
def leavesInOrder (dylibOrdering : String → Option (BitVec 32)) :
    ℕ → References → List DylibAndSize → Option (List DylibAndSize)
  | 0, _, _ => none
  | fuel + 1, references, dylibsToSort => do
      match ← dylibsToSort.foldlM (considerDylib dylibOrdering references) none with
      | none => return []
      | some (candidate, _) =>
          let later ← leavesInOrder dylibOrdering fuel (eraseCandidate references candidate.installName)
            (dylibsToSort.eraseP fun dylib => candidate.installName = dylib.installName)
          return candidate :: later

/-- The dylibs that are enough for the reduction. -/
def evictedDylibs : BitVec 64 → List DylibAndSize → List DylibAndSize
  | _, [] => []
  | reductionTarget, dylib :: later =>
      if dylib.size > reductionTarget then [dylib]
      else dylib :: evictedDylibs (reductionTarget - dylib.size) later

/-- The dylibs of the cache, `_evictions`, and the dylibs that did not fit. -/
structure Layout where
  sortedDylibs : List LoadedMachO
  evictions : List MachO
  overflowDylibs : List LoadedMachO

def evictLeafDylibs (dylibOrdering : String → Option (BitVec 32)) (reductionTarget : BitVec 64) (layout : Layout) :
    Option Layout := do
  let leaves ← leavesInOrder dylibOrdering (layout.sortedDylibs.length + 1) (references layout.sortedDylibs)
    (layout.sortedDylibs.map dylibAndSize)
  let evicted := evictedDylibs reductionTarget leaves
  let evictions := layout.evictions ++ evicted.map (·.input.mh)
  return {
    sortedDylibs := layout.sortedDylibs.filter fun dylib => dylib.mh ∉ evictions
    evictions := evictions
    overflowDylibs := layout.overflowDylibs ++ evicted.map (·.input) }

/-- The dylib has a load command for the name, weak or not. -/
def LoadedMachO.DependsOn (dylib : LoadedMachO) (name : String) : Prop :=
  ∃ dependent ∈ dylib.mh.dependents, dependent.loadPath = name

/-- The dylibs have entries with all that depend on them. -/
def References.Covers (references : References) (dylibs : List LoadedMachO) : Prop :=
  ∀ dylib ∈ dylibs, ∃ referrers, references dylib.mh.installName = some referrers ∧
    ∀ other ∈ dylibs, other.DependsOn dylib.mh.installName → other.mh.installName ∈ referrers

/-- The name has an entry if it had one before, with at least the same referrers. -/
def References.Grows (before after : References) : Prop :=
  ∀ name referrers, before name = some referrers → ∃ more, after name = some more ∧ referrers ⊆ more

theorem References.Grows.refl (references : References) : references.Grows references :=
  fun _ referrers found => ⟨referrers, found, Finset.Subset.refl _⟩

theorem References.Grows.trans {first second third : References} (grows : first.Grows second)
    (grows' : second.Grows third) : first.Grows third := by
  intro name referrers found
  obtain ⟨more, found', subset⟩ := grows name referrers found
  obtain ⟨most, found'', subset'⟩ := grows' name more found'
  exact ⟨most, found'', subset.trans subset'⟩

theorem addReference_grows (installName : String) (references : References) (dependent : Dependent) :
    references.Grows (addReference installName references dependent) := by
  intro name referrers found
  by_cases own : name = dependent.loadPath
  · subst own
    refine ⟨insert installName referrers, ?_, Finset.subset_insert _ _⟩
    simp [addReference, found]
  · exact ⟨referrers, by rw [addReference, Function.update_of_ne own, found], Finset.Subset.refl _⟩

theorem addReference_own (installName : String) (references : References) (dependent : Dependent) :
    ∃ referrers, addReference installName references dependent dependent.loadPath = some referrers ∧
      installName ∈ referrers :=
  ⟨_, Function.update_self _ _ _, Finset.mem_insert_self _ _⟩

theorem addReference_fold (installName : String) (dependents : List Dependent) (references : References) :
    references.Grows (dependents.foldl (addReference installName) references) ∧
      ∀ dependent ∈ dependents, ∃ referrers,
        dependents.foldl (addReference installName) references dependent.loadPath = some referrers ∧
          installName ∈ referrers := by
  induction dependents generalizing references with
  | nil => exact ⟨References.Grows.refl _, by simp⟩
  | cons first rest ih =>
      obtain ⟨grows, each⟩ := ih (addReference installName references first)
      refine ⟨(addReference_grows _ _ _).trans grows, ?_⟩
      rintro dependent (_ | ⟨_, inside⟩)
      · obtain ⟨referrers, found, own⟩ := addReference_own installName references first
        obtain ⟨more, found', subset⟩ := grows _ _ found
        exact ⟨more, found', subset own⟩
      · exact each dependent inside

theorem addReferences_spec (references : References) (dylib : LoadedMachO) :
    references.Grows (addReferences references dylib) ∧
      (∃ referrers, addReferences references dylib dylib.mh.installName = some referrers) ∧
      ∀ name, dylib.DependsOn name →
        ∃ referrers, addReferences references dylib name = some referrers ∧ dylib.mh.installName ∈ referrers := by
  set start := if references dylib.mh.installName = none then
    Function.update references dylib.mh.installName (some ∅) else references with start_eq
  have starts : references.Grows start ∧ ∃ referrers, start dylib.mh.installName = some referrers := by
    rw [start_eq]
    split
    · next fresh =>
        refine ⟨fun name referrers found => ⟨referrers, ?_, Finset.Subset.refl _⟩, ∅, Function.update_self _ _ _⟩
        rw [Function.update_of_ne, found]
        rintro rfl
        simp [fresh] at found
    · next already => exact ⟨References.Grows.refl _, Option.ne_none_iff_exists'.mp already⟩
  obtain ⟨grows, each⟩ := addReference_fold dylib.mh.installName dylib.mh.dependents start
  refine ⟨starts.1.trans grows, ?_, ?_⟩
  · obtain ⟨referrers, found⟩ := starts.2
    obtain ⟨more, found', -⟩ := grows _ _ found
    exact ⟨more, found'⟩
  · rintro _ ⟨dependent, member, rfl⟩
    exact each dependent member

theorem references_covers (dylibs : List LoadedMachO) : (references dylibs).Covers dylibs := by
  suffices ∀ done : List LoadedMachO, ∀ dylib ∈ done,
      (∃ referrers, references done dylib.mh.installName = some referrers) ∧
      ∀ name, dylib.DependsOn name →
        ∃ referrers, references done name = some referrers ∧ dylib.mh.installName ∈ referrers by
    intro dylib inside
    obtain ⟨⟨referrers, found⟩, -⟩ := this dylibs dylib inside
    refine ⟨referrers, found, fun other inside' depends => ?_⟩
    obtain ⟨referrers', found', member⟩ := (this dylibs other inside').2 _ depends
    rwa [Option.some.inj (found.symm.trans found')]
  intro done
  induction done using List.reverseRecOn with
  | nil => simp
  | append_singleton done last ih =>
      intro dylib inside
      rw [references, List.foldl_append, List.foldl_cons, List.foldl_nil, ← references]
      obtain ⟨grows, own, each⟩ := addReferences_spec (references done) last
      rcases List.mem_append.mp inside with before | now
      · obtain ⟨⟨referrers, found⟩, depends⟩ := ih dylib before
        obtain ⟨more, found', -⟩ := grows _ _ found
        refine ⟨⟨more, found'⟩, fun name dependsOn => ?_⟩
        obtain ⟨referrers, found, member⟩ := depends name dependsOn
        obtain ⟨more, found', subset⟩ := grows _ _ found
        exact ⟨more, found', subset member⟩
      · rw [List.mem_singleton.mp now]
        exact ⟨own, each⟩

theorem considerDylib_fold (dylibOrdering : String → Option (BitVec 32)) {references : References}
    {dylibs : List DylibAndSize} (entries : ∀ dylib ∈ dylibs, ∃ referrers, references dylib.installName = some referrers) :
    ∃ candidate, dylibs.foldlM (considerDylib dylibOrdering references) none = some candidate ∧
      ∀ best order, candidate = some (best, order) → best ∈ dylibs ∧ references best.installName = some ∅ := by
  induction dylibs using List.reverseRecOn with
  | nil => exact ⟨none, rfl, by simp⟩
  | append_singleton done dylib ih =>
      obtain ⟨candidate, run, leaf⟩ := ih fun other inside => entries other (List.mem_append_left _ inside)
      obtain ⟨referrers, found⟩ := entries dylib (by simp)
      have stays : ∀ best order, candidate = some (best, order) →
          best ∈ done ++ [dylib] ∧ references best.installName = some ∅ :=
        fun best order eq => ⟨List.mem_append_left _ (leaf best order eq).1, (leaf best order eq).2⟩
      have changes : referrers = ∅ → ∀ best order, some (dylib, orderOf dylibOrdering dylib) = some (best, order) →
          best ∈ done ++ [dylib] ∧ references best.installName = some ∅ := by
        rintro rfl best order eq
        obtain ⟨rfl, -⟩ := Prod.mk.inj (Option.some.inj eq)
        exact ⟨by simp, found⟩
      rw [List.foldlM_append, run]
      simp only [Option.bind_eq_bind, Option.bind_some, List.foldlM_cons, List.foldlM_nil, considerDylib, found]
      split
      · exact ⟨candidate, rfl, stays⟩
      · next empty =>
          rw [not_not] at empty
          cases candidate with
          | none =>
              refine ⟨_, rfl, fun best order eq => ?_⟩
              split at eq
              · exact changes empty best order eq
              · exact absurd eq (by simp)
          | some previous =>
              obtain ⟨best, candidateOrder⟩ := previous
              simp only
              split
              · exact ⟨_, rfl, changes empty⟩
              · exact ⟨_, rfl, stays⟩

theorem eraseCandidate_covers {references : References} {dylibs rest : List LoadedMachO} {installName : String}
    (covers : references.Covers dylibs) (subset : rest ⊆ dylibs)
    (gone : ∀ dylib ∈ rest, dylib.mh.installName ≠ installName) :
    (eraseCandidate references installName).Covers rest := by
  intro dylib inside
  obtain ⟨referrers, found, member⟩ := covers dylib (subset inside)
  refine ⟨referrers.erase installName, ?_, fun other inside' depends => ?_⟩
  · rw [eraseCandidate, if_neg (gone dylib inside), found, Option.map_some]
  · exact Finset.mem_erase.mpr ⟨gone other inside', member other (subset inside') depends⟩

/-- Whatever depends on one of the first leaves is before it. -/
def LeavesFirst (dylibs : List LoadedMachO) (leaves : List DylibAndSize) : Prop :=
  ∀ before after, leaves = before ++ after → ∀ gone ∈ before, ∀ dylib ∈ dylibs,
    dylib.DependsOn gone.installName → dylibAndSize dylib ∈ before

theorem leavesInOrder_spec (dylibOrdering : String → Option (BitVec 32)) (fuel : ℕ) {references : References}
    {dylibs : List LoadedMachO} (distinct : (dylibs.map (·.mh.installName)).Nodup)
    (covers : references.Covers dylibs) (enough : dylibs.length < fuel) :
    ∃ leaves, leavesInOrder dylibOrdering fuel references (dylibs.map dylibAndSize) = some leaves ∧
      (∀ leaf ∈ leaves, ∃ dylib ∈ dylibs, leaf = dylibAndSize dylib) ∧ LeavesFirst dylibs leaves := by
  induction fuel generalizing references dylibs with
  | zero => exact absurd enough (Nat.not_lt_zero _)
  | succ fuel ih =>
      have entries : ∀ dylib ∈ dylibs.map dylibAndSize, ∃ referrers, references dylib.installName = some referrers := by
        intro dylib inside
        obtain ⟨loaded, member, rfl⟩ := List.mem_map.mp inside
        obtain ⟨referrers, found, -⟩ := covers loaded member
        exact ⟨referrers, found⟩
      obtain ⟨candidate, run, leaf⟩ := considerDylib_fold dylibOrdering entries
      rw [leavesInOrder, run]
      cases candidate with
      | none =>
          refine ⟨[], rfl, by simp, fun before after eq gone inside => ?_⟩
          rw [(List.append_eq_nil_iff.mp eq.symm).1] at inside
          exact absurd inside List.not_mem_nil
      | some best =>
          obtain ⟨best, order⟩ := best
          obtain ⟨inside, empty⟩ := leaf best order rfl
          obtain ⟨chosen, member, rfl⟩ := List.mem_map.mp inside
          change references chosen.mh.installName = some ∅ at empty
          set rest := dylibs.eraseP fun dylib => chosen.mh.installName = dylib.mh.installName with rest_eq
          have erased : (dylibs.map dylibAndSize).eraseP
              (fun dylib => (dylibAndSize chosen).installName = dylib.installName) = rest.map dylibAndSize := by
            rw [List.eraseP_map]
            rfl
          have sublist : rest.Sublist dylibs := List.eraseP_sublist
          have gone : ∀ dylib ∈ rest, dylib.mh.installName ≠ chosen.mh.installName := by
            have erased_name : rest.map (·.mh.installName) =
                (dylibs.map (·.mh.installName)).erase chosen.mh.installName := by
              rw [List.erase_eq_eraseP, List.eraseP_map]
              rfl
            intro dylib among same
            refine @List.Nodup.not_mem_erase _ _ _ _ chosen.mh.installName distinct ?_
            rw [← erased_name, ← same]
            exact List.mem_map_of_mem among
          have shorter : rest.length + 1 = dylibs.length := by
            have positive := List.length_pos_of_mem member
            rw [rest_eq, List.length_eraseP_of_mem member (by simp)]
            omega
          obtain ⟨later, run', from_rest, first⟩ := ih ((sublist.map _).nodup distinct)
            (eraseCandidate_covers covers sublist.subset gone) (by omega)
          have run'' : leavesInOrder dylibOrdering fuel
              (eraseCandidate references (dylibAndSize chosen).installName) (rest.map dylibAndSize) = some later := run'
          simp only [Option.bind_eq_bind, Option.bind_some, erased, run'']
          refine ⟨_, rfl, ?_, ?_⟩
          · rintro other (_ | ⟨_, inside'⟩)
            · exact ⟨chosen, member, rfl⟩
            · obtain ⟨dylib, among, eq⟩ := from_rest other inside'
              exact ⟨dylib, sublist.subset among, eq⟩
          · intro before after eq other inside' dylib among depends
            cases before with
            | nil => exact absurd inside' List.not_mem_nil
            | cons head before =>
                obtain ⟨rfl, later_eq⟩ := List.cons.inj eq
                rcases List.mem_cons.mp inside' with rfl | earlier
                · obtain ⟨referrers, found, refers⟩ := covers chosen member
                  rw [Option.some.inj (found.symm.trans empty)] at refers
                  exact absurd (refers dylib among depends) (Finset.notMem_empty _)
                · by_cases own : dylib = chosen
                  · rw [own]
                    exact List.mem_cons_self
                  · have remains : dylib ∈ rest := by
                      refine (List.mem_eraseP_of_neg ?_).mpr among
                      rw [decide_eq_true_eq]
                      exact fun same => own (List.inj_on_of_nodup_map distinct among member same.symm)
                    exact List.mem_cons_of_mem _ (first before after later_eq other earlier dylib remains depends)

theorem evictedDylibs_prefix (reductionTarget : BitVec 64) (leaves : List DylibAndSize) :
    evictedDylibs reductionTarget leaves <+: leaves := by
  induction leaves generalizing reductionTarget with
  | nil => exact List.prefix_refl _
  | cons leaf later ih =>
      unfold evictedDylibs
      split
      · exact ⟨later, rfl⟩
      · exact (List.prefix_cons_inj leaf).mpr (ih _)

/-- No remaining dylib depends on one that is gone, not even weakly. -/
def OnlyLeavesGone (before after : List LoadedMachO) : Prop :=
  ∀ gone ∈ before, gone ∉ after → ∀ dylib ∈ after, ∀ dependent ∈ dylib.mh.dependents,
    ¬gone.Provides dependent.loadPath

theorem OnlyLeavesGone.selfContained {before after : List LoadedMachO} (leaves : OnlyLeavesGone before after)
    (subset : after ⊆ before) (closed : SelfContained before) : SelfContained after := by
  intro dylib inside dependent member strong
  obtain ⟨provider, among, provides⟩ := closed dylib (subset inside) dependent member strong
  refine ⟨provider, ?_, provides⟩
  by_contra gone
  exact leaves provider among gone dylib inside dependent member provides

/-- The dylibs of a layout are those that were not evicted. -/
structure Layout.Valid (layout : Layout) : Prop where
  named : WellNamed layout.sortedDylibs
  remain : ∀ dylib ∈ layout.sortedDylibs, dylib.mh ∉ layout.evictions

theorem WellNamed.sublist {dylibs rest : List LoadedMachO} (named : WellNamed dylibs) (sublist : rest.Sublist dylibs) :
    WellNamed rest where
  installed dylib inside := named.installed dylib (sublist.subset inside)
  distinct := (sublist.map _).nodup named.distinct

theorem WellNamed.perm {dylibs sorted : List LoadedMachO} (named : WellNamed dylibs) (perm : sorted.Perm dylibs) :
    WellNamed sorted where
  installed dylib inside := named.installed dylib (perm.mem_iff.mp inside)
  distinct := (perm.map _).nodup_iff.mpr named.distinct

theorem WellNamed.installNames {dylibs : List LoadedMachO} (named : WellNamed dylibs) :
    (dylibs.map (·.mh.installName)).Nodup := by
  rw [List.map_congr_left named.installed]
  exact named.distinct

theorem evictLeafDylibs_spec (dylibOrdering : String → Option (BitVec 32)) (reductionTarget : BitVec 64)
    {layout : Layout} (valid : layout.Valid) :
    ∃ next, evictLeafDylibs dylibOrdering reductionTarget layout = some next ∧ next.Valid ∧
      next.sortedDylibs.Sublist layout.sortedDylibs ∧ OnlyLeavesGone layout.sortedDylibs next.sortedDylibs := by
  obtain ⟨leaves, run, from_dylibs, first⟩ := leavesInOrder_spec dylibOrdering (layout.sortedDylibs.length + 1)
    valid.named.installNames (references_covers layout.sortedDylibs) (Nat.lt_succ_self _)
  unfold evictLeafDylibs
  simp only [run, Option.bind_eq_bind, Option.bind_some]
  have sublist : (layout.sortedDylibs.filter fun dylib => dylib.mh ∉ layout.evictions ++
      (evictedDylibs reductionTarget leaves).map (·.input.mh)).Sublist layout.sortedDylibs := List.filter_sublist
  refine ⟨_, rfl, ⟨valid.named.sublist sublist, fun dylib inside => ?_⟩, sublist, ?_⟩
  · simpa using (List.mem_filter.mp inside).2
  · intro gone among dropped dylib inside dependent member provides
    obtain ⟨inside, remains⟩ := List.mem_filter.mp inside
    obtain ⟨after, eq⟩ := evictedDylibs_prefix reductionTarget leaves
    have evicted : dylibAndSize gone ∈ evictedDylibs reductionTarget leaves := by
      have listed : gone.mh ∈ layout.evictions ++ (evictedDylibs reductionTarget leaves).map (·.input.mh) := by
        by_contra unlisted
        exact dropped (List.mem_filter.mpr ⟨among, by simpa using unlisted⟩)
      rcases List.mem_append.mp listed with earlier | now
      · exact absurd earlier (valid.remain gone among)
      · obtain ⟨leaf, leaf_inside, same⟩ := List.mem_map.mp now
        obtain ⟨other, other_inside, rfl⟩ := from_dylibs leaf (by rw [← eq]; exact List.mem_append_left _ leaf_inside)
        have same : other.mh = gone.mh := same
        obtain rfl := valid.named.eq_of_path other_inside among (by
          rw [← valid.named.installed other other_inside, ← valid.named.installed gone among, same])
        exact leaf_inside
    have depends : dylib.DependsOn gone.mh.installName := by
      refine ⟨dependent, member, ?_⟩
      rw [(valid.named.provides_iff among _).mp provides, valid.named.installed gone among]
    have before := first _ after eq.symm _ evicted dylib inside depends
    simp only [List.mem_append, List.mem_map, not_or, decide_eq_true_eq] at remains
    exact remains.2 ⟨_, before, rfl⟩

/-- One eviction, whatever it has to reduce. -/
def Evicts (dylibOrdering : String → Option (BitVec 32)) (before after : Layout) : Prop :=
  ∃ reductionTarget, evictLeafDylibs dylibOrdering reductionTarget before = some after

theorem Evicts.selfContained_run {dylibOrdering : String → Option (BitVec 32)} {start layout : Layout}
    (run : Relation.ReflTransGen (Evicts dylibOrdering) start layout) (valid : start.Valid)
    (closed : SelfContained start.sortedDylibs) : layout.Valid ∧ SelfContained layout.sortedDylibs := by
  induction run with
  | refl => exact ⟨valid, closed⟩
  | tail _ evicts ih =>
      obtain ⟨reductionTarget, evicted⟩ := evicts
      obtain ⟨next, run, valid', sublist, leaves⟩ := evictLeafDylibs_spec dylibOrdering reductionTarget ih.1
      obtain rfl := Option.some.inj (run.symm.trans evicted)
      exact ⟨valid', leaves.selfContained sublist.subset ih.2⟩

/-- The states of the input files before any dylib is loaded. -/
def initialStates (inputFiles : List InputFile) (inputFile : ℕ) : State :=
  (inputFiles[inputFile]?.map (·.state)).getD .unset

/-- The dylibs that are verified and later evicted make self-contained caches throughout. -/
theorem cachedDylibs_selfContained (inputFiles : List InputFile) :
    ∃ verified, verifySelfContained (loadMachOs inputFiles) (initialStates inputFiles) = some verified ∧
      verified.dylibsToCache.Sublist (loadMachOs inputFiles).dylibsToCache ∧
      SelfContained verified.dylibsToCache ∧
      (∀ dylib ∈ (loadMachOs inputFiles).dylibsToCache, dylib ∉ verified.dylibsToCache →
        Doomed (loadMachOs inputFiles).dylibsToCache dylib ∨
          verified.states dylib.inputFile = .mustBeExcludedIfUnused ∧
            (dylib.inputFile, droppedWarning dylib.runtimePath unusedReason) ∈ verified.warnings) ∧
      ∀ dylibOrdering sorted layout, sorted.Perm verified.dylibsToCache →
        Relation.ReflTransGen (Evicts dylibOrdering) ⟨sorted, [], []⟩ layout →
          SelfContained layout.sortedDylibs ∧
          ∀ reductionTarget, ∃ next, evictLeafDylibs dylibOrdering reductionTarget layout = some next ∧
            next.sortedDylibs.Sublist layout.sortedDylibs ∧
            OnlyLeavesGone layout.sortedDylibs next.sortedDylibs ∧ SelfContained next.sortedDylibs := by
  have named := loadMachOs_wellNamed inputFiles
  obtain ⟨verified, run, sublist, closed, dropped⟩ :=
    verifySelfContained_spec (loadMachOs inputFiles) named (initialStates inputFiles)
  refine ⟨verified, run, sublist, closed, dropped, fun dylibOrdering sorted layout perm evictions => ?_⟩
  have closed' : SelfContained sorted := by
    intro dylib inside dependent member strong
    obtain ⟨provider, among, provides⟩ := closed dylib (perm.mem_iff.mp inside) dependent member strong
    exact ⟨provider, perm.mem_iff.mpr among, provides⟩
  obtain ⟨valid, still⟩ := Evicts.selfContained_run evictions
    ⟨(named.sublist sublist).perm perm, fun _ _ => List.not_mem_nil⟩ closed'
  refine ⟨still, fun reductionTarget => ?_⟩
  obtain ⟨next, evicted, -, sublist', leaves⟩ := evictLeafDylibs_spec dylibOrdering reductionTarget valid
  exact ⟨next, evicted, sublist', leaves, leaves.selfContained sublist'.subset still⟩

/-- An install name that is not the dylib's path: the dylib is used by its path, and goes as unused. -/
def aliasedDylibs : LoadedFiles where
  dylibsToCache := [
    ⟨"/p/x", ⟨"/i/x", [], []⟩, 0⟩,
    ⟨"/p/y", ⟨"/p/y", [⟨"/p/x", false⟩], []⟩, 1⟩]
  otherDylibs := []
  couldNotLoadFiles := []

def aliasedStates : ℕ → State := Function.update (fun _ => .unset) 0 .mustBeExcludedIfUnused

theorem not_selfContained_aliasedDylibs :
    ¬∀ loaded states, ∃ verified, verifySelfContained loaded states = some verified ∧
      SelfContained verified.dylibsToCache := by
  intro all
  obtain ⟨verified, run, closed⟩ := all aliasedDylibs aliasedStates
  have kept : (verifySelfContained aliasedDylibs aliasedStates).map (·.dylibsToCache) =
      some [⟨"/p/y", ⟨"/p/y", [⟨"/p/x", false⟩], []⟩, 1⟩] := by
    decide +kernel
  rw [run, Option.map_some, Option.some.injEq] at kept
  rw [kept] at closed
  obtain ⟨provider, inside, provides⟩ := closed _ List.mem_cons_self ⟨"/p/x", false⟩ List.mem_cons_self rfl
  rw [List.mem_singleton.mp inside] at provides
  simp [LoadedMachO.Provides] at provides

end ObjcDyld.SharedCache
