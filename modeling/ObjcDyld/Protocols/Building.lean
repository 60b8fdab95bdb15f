import ObjcDyld.Protocols.Lookup

/-!
# Protocols that are built at run time

Each call of the interface leaves the protocols sound, as long as methods are added in the order of their
selectors: `protocol_addMethod_nolock` marks its lists as fixed up, but does not sort them.
-/

namespace ObjcDyld.Protocols

open MethodLists

variable {runtime : Runtime} {store store' : Store} {proto address : ℕ}

/-- A protocol under construction that may take the place of another one. -/
structure Draft (runtime : Runtime) (store : Store) (proto : Protocol) : Prop where
  isa : proto.isa ≠ .protocol
  isFixedUp : proto.isFixedUp runtime = false
  extendedMethodTypes : proto.extendedMethodTypes = none
  trusted : Trusted runtime proto
  adopted : ∀ ref ∈ proto.protocols.getD [], (store.protocol ref).isa = .protocol

theorem Sound.draft (sound : Sound runtime store) (building : (store.protocol proto).isa ≠ .protocol) : Draft runtime store (store.protocol proto) :=
  ⟨building, (sound.building proto building).1, (sound.building proto building).2, sound.trusted proto, sound.adopted proto⟩

theorem wellFounded_of_complete (complete : ∀ proto sub, Adopts runtime store proto sub → (store.protocol sub).isa = .protocol)
    (acyclic : ∀ proto, (store.protocol proto).isa = .protocol → Acc (fun sub proto => Adopts runtime store proto sub) proto) :
    WellFounded fun sub proto => Adopts runtime store proto sub :=
  ⟨fun proto => ⟨proto, fun sub adopts => acyclic sub (complete proto sub adopts)⟩⟩

theorem Sound.update (sound : Sound runtime store) (building : (store.protocol address).isa ≠ .protocol) {draft : Protocol}
    (drafted : Draft runtime store draft) : Sound runtime (store.update address draft) := by
  have here : (store.update address draft).protocol address = draft := Function.update_self ..
  have others (p : ℕ) (other : p ≠ address) : (store.update address draft).protocol p = store.protocol p := Function.update_of_ne other ..
  have apart (p : ℕ) (complete : (store.protocol p).isa = .protocol) : p ≠ address := fun same => building (same ▸ complete)
  have finished (p : ℕ) (complete : ((store.update address draft).protocol p).isa = .protocol) :
      p ≠ address ∧ (store.protocol p).isa = .protocol := by
    have other : p ≠ address := fun same => drafted.isa (by rwa [same, here] at complete)
    exact ⟨other, others p other ▸ complete⟩
  have kept (p : ℕ) (complete : (store.protocol p).isa = .protocol) : ((store.update address draft).protocol p).isa = .protocol :=
    (others p (apart p complete)).symm ▸ complete
  have adopted (p ref : ℕ) (member : ref ∈ ((store.update address draft).protocol p).protocols.getD []) : (store.protocol ref).isa = .protocol := by
    by_cases mine : p = address
    · rw [mine, here] at member
      exact drafted.adopted ref member
    · rw [others p mine] at member
      exact sound.adopted p ref member
  have remap (ref : ℕ) (complete : (store.protocol ref).isa = .protocol) :
      (store.update address draft).remapProtocol runtime ref = store.remapProtocol runtime ref := by
    rw [Store.remapProtocol, others ref (apart ref complete)]
    rfl
  have adopts (p sub : ℕ) (inside : Adopts runtime (store.update address draft) p sub) :
      (store.protocol sub).isa = .protocol ∧ (p ≠ address → Adopts runtime store p sub) := by
    obtain ⟨ref, member, rfl⟩ := List.mem_map.mp inside
    have complete := adopted p ref member
    rw [remap ref complete]
    refine ⟨sound.remapProtocol complete, fun other => ?_⟩
    rw [others p other] at member
    exact List.mem_map_of_mem member
  have acyclic : WellFounded fun sub p => Adopts runtime (store.update address draft) p sub := by
    refine wellFounded_of_complete (fun p sub inside => kept sub (adopts p sub inside).1) fun p complete => ?_
    induction p using sound.acyclic.induction with
    | h p ih =>
        refine ⟨p, fun sub inside => ?_⟩
        obtain ⟨done, outside⟩ := adopts p sub inside
        exact ih sub (outside (finished p complete).1) (kept sub done)
  refine ⟨acyclic, fun p complete => ?_, fun name p named => kept p (sound.getProtocol name p named),
    fun p ref member => kept ref (adopted p ref member), fun p incomplete => ?_, fun p => ?_, fun p => ?_, fun p marked => ?_,
    fun p marked sub inside => ?_⟩
  · obtain ⟨other, complete⟩ := finished p complete
    rw [others p other]
    exact sound.named p complete
  · by_cases mine : p = address
    · rw [mine, here]
      exact ⟨drafted.isFixedUp, drafted.extendedMethodTypes⟩
    · rw [others p mine] at incomplete ⊢
      exact sound.building p incomplete
  · by_cases mine : p = address
    · rw [mine, here]
      exact drafted.trusted
    · rw [others p mine]
      exact sound.trusted p
  · by_cases mine : p = address
    · rw [mine, here]
      intro extTypes types
      cases drafted.extendedMethodTypes.symm.trans types
    · rw [others p mine]
      exact sound.covered p
  · have other : p ≠ address := fun same => by
      rw [same, here, drafted.isFixedUp] at marked
      cases marked
    rw [others p other] at marked ⊢
    exact sound.ready p marked
  · have other : p ≠ address := fun same => by
      rw [same, here, drafted.isFixedUp] at marked
      cases marked
    obtain ⟨complete, outside⟩ := adopts p sub inside
    rw [others p other] at marked
    rw [others sub (apart sub complete)]
    exact sound.closed p marked sub (outside other)

/-- What the documentation asks of a call, and what `calloc` and `sel_registerName` give to it. -/
def Call.Legal (runtime : Runtime) (store : Store) : Call → Prop
  | .allocateProtocol address _ => (store.protocol address).isa = .unused
  | .registerProtocol _ => True
  | .addProtocol _ addition => (store.protocol addition).isa ≠ .unused
  | .addMethodDescription _ name _ _ _ => runtime.registerName name = name
  -- the protocol may not be used until it is registered
  | .getMethod proto _ _ _ _ => (store.protocol proto).isa = .protocol

/-- A method is not added below a method of a list that is searched as a sorted one. -/
def Call.Ordered (runtime : Runtime) (store : Store) : Call → Prop
  | .addMethodDescription proto name _ required inst =>
      (store.protocol proto).isa = .incompleteProtocol →
        ∀ mlist, (store.protocol proto).methodList required inst = some mlist → mlist.isFixedUp runtime → mlist.isExpectedSize →
          ∀ meth ∈ mlist.methods, meth.name ≤ name
  | _ => True

theorem sound_allocateProtocol (sound : Sound runtime store) (unused : (store.protocol address).isa = .unused) (name : String) :
    Sound runtime (allocateProtocol store address name) := by
  rw [allocateProtocol]
  split
  next => exact sound
  next =>
    refine sound.update (fun complete => by cases unused.symm.trans complete)
      ⟨fun same => (by cases same), ?_, rfl, fun required inst mlist there => ?_, fun ref member => absurd member List.not_mem_nil⟩
    · show decide ((0 : BitVec 32) &&& fixedUpMask = fixedUpProtocol runtime) = false
      rw [fixedUpProtocol]
      split <;> rfl
    · cases required <;> cases inst <;> cases there

theorem sound_addProtocol (sound : Sound runtime store) {addition : ℕ} (used : (store.protocol addition).isa ≠ .unused) :
    Sound runtime (addProtocol store proto addition) := by
  rw [addProtocol]
  split
  next => exact sound
  next incomplete =>
    split
    next => exact sound
    next done =>
      have building : (store.protocol proto).isa ≠ .protocol := by
        rw [not_not.mp incomplete]
        nofun
      have complete : (store.protocol addition).isa = .protocol := by
        cases kind : (store.protocol addition).isa with
        | unused => exact absurd kind used
        | incompleteProtocol => exact absurd kind done
        | protocol => rfl
      have draft := sound.draft building
      refine sound.update building ⟨draft.isa, draft.isFixedUp, draft.extendedMethodTypes, draft.trusted, fun ref member => ?_⟩
      obtain member | member := List.mem_append.mp member
      · exact draft.adopted ref member
      · exact List.mem_singleton.mp member ▸ complete

variable {mlist : MethodList} {name : ℕ} {types : Option String} {required inst : Bool}

theorem trusted_addMethodNolock {list : Option MethodList} (trusted : ∀ mlist, list = some mlist → mlist.Trusted runtime)
    (registered : runtime.registerName name = name)
    (ordered : ∀ mlist, list = some mlist → mlist.isFixedUp runtime → mlist.isExpectedSize → ∀ meth ∈ mlist.methods, meth.name ≤ name) :
    (addMethodNolock runtime list name types).Trusted runtime := by
  have appended (mlist : MethodList) (uniqued : mlist.Uniqued runtime) :
      ({ mlist with methods := mlist.methods ++ [⟨name, types.getD "", 0⟩] } : MethodList).Uniqued runtime := by
    intro meth member
    obtain member | member := List.mem_append.mp member
    · exact uniqued meth member
    · rw [List.mem_singleton.mp member]
      exact registered
  cases list with
  | none => exact ⟨fun _ => appended _ nofun, fun _ => ⟨appended _ nofun, fun _ => List.pairwise_singleton ..⟩⟩
  | some mlist =>
      have trust := trusted mlist rfl
      refine ⟨fun marked => appended mlist (trust.uniqued marked), fun marked => ?_⟩
      obtain ⟨uniqued, sorted⟩ := trust.fixedUp marked
      refine ⟨appended mlist uniqued, fun expected => ?_⟩
      refine List.pairwise_append.mpr ⟨sorted expected, List.pairwise_singleton .., fun meth member added here => ?_⟩
      rw [List.mem_singleton.mp here]
      exact ordered mlist rfl marked expected meth member

theorem trusted_setMethodList {draft : Protocol} (trusted : Trusted runtime draft) (list : mlist.Trusted runtime) :
    Trusted runtime (draft.setMethodList required inst mlist) := by
  intro required' inst' mlist' there
  by_cases same : (required', inst') = (required, inst)
  · obtain ⟨rfl, rfl⟩ := Prod.mk.inj same
    exact Option.some.inj (methodList_setMethodList.symm.trans there) ▸ list
  · rw [methodList_setMethodList_of_ne same] at there
    exact trusted required' inst' mlist' there

@[simp] theorem isFixedUp_setMethodList {draft : Protocol} :
    (draft.setMethodList required inst mlist).isFixedUp runtime = draft.isFixedUp runtime := by
  rw [Protocol.isFixedUp, flags_setMethodList, Protocol.isFixedUp]

theorem sound_addMethodDescription (sound : Sound runtime store) (registered : runtime.registerName name = name)
    (ordered : (Call.addMethodDescription proto name types required inst).Ordered runtime store) :
    Sound runtime (addMethodDescription runtime store proto name types required inst) := by
  rw [addMethodDescription]
  split
  next => exact sound
  next incomplete =>
    have building : (store.protocol proto).isa ≠ .protocol := by
      rw [not_not.mp incomplete]
      nofun
    have draft := sound.draft building
    refine sound.update building ⟨?_, ?_, ?_, ?_, ?_⟩
    · rw [isa_setMethodList]
      exact draft.isa
    · rw [isFixedUp_setMethodList]
      exact draft.isFixedUp
    · rw [extendedMethodTypes_setMethodList]
      exact draft.extendedMethodTypes
    · exact trusted_setMethodList draft.trusted
        (trusted_addMethodNolock (sound.trusted proto required inst) registered (ordered (not_not.mp incomplete)))
    · rw [protocols_setMethodList]
      exact draft.adopted

/-- A protocol under its name, if the name is new. -/
def nameProtocol (store : Store) (proto : ℕ) : Store :=
  match store.getProtocol (store.protocol proto).mangledName with
  | some _ => store
  | none => { store with getProtocol := Function.update store.getProtocol (store.protocol proto).mangledName (some proto) }

theorem registerProtocol_eq (incomplete : (store.protocol proto).isa = .incompleteProtocol) :
    registerProtocol store proto = nameProtocol (store.update proto { store.protocol proto with isa := .protocol }) proto := by
  rw [registerProtocol, if_neg (not_not.mpr incomplete)]
  rfl

@[simp] theorem protocol_nameProtocol : (nameProtocol store proto).protocol = store.protocol := by
  rw [nameProtocol]
  split <;> rfl

theorem getProtocol_nameProtocol (name : String) : (nameProtocol store proto).getProtocol name =
    if name = (store.protocol proto).mangledName then some ((store.getProtocol name).getD proto) else store.getProtocol name := by
  rw [nameProtocol]
  split
  next first named =>
    split
    next same => rw [same, named, Option.getD_some]
    next => rfl
  next unnamed =>
    show Function.update store.getProtocol (store.protocol proto).mangledName (some proto) name = _
    split
    next same => rw [same, Function.update_self, unnamed, Option.getD_none]
    next other => rw [Function.update_of_ne other]

theorem sound_registerProtocol (sound : Sound runtime store) : Sound runtime (registerProtocol store proto) := by
  by_cases incomplete : (store.protocol proto).isa = .incompleteProtocol
  · have building : (store.protocol proto).isa ≠ .protocol := by
      rw [incomplete]
      nofun
    generalize registered : registerProtocol store proto = store'
    rw [registerProtocol_eq incomplete] at registered
    have here : store'.protocol proto = { store.protocol proto with isa := .protocol } := by
      rw [← registered, protocol_nameProtocol]
      exact Function.update_self ..
    have others (p : ℕ) (other : p ≠ proto) : store'.protocol p = store.protocol p := by
      rw [← registered, protocol_nameProtocol]
      exact Function.update_of_ne other ..
    have names (name : String) : store'.getProtocol name =
        if name = (store.protocol proto).mangledName then some ((store.getProtocol name).getD proto) else store.getProtocol name := by
      have same : ((store.update proto { store.protocol proto with isa := .protocol }).protocol proto).mangledName =
          (store.protocol proto).mangledName := by
        rw [show (store.update proto _).protocol proto = _ from Function.update_self ..]
      rw [← registered, getProtocol_nameProtocol, same]
      rfl
    have apart (p : ℕ) (complete : (store.protocol p).isa = .protocol) : p ≠ proto := fun same => building (same ▸ complete)
    -- all fields but the `isa` are as before
    have data (p : ℕ) : ∃ isa, store'.protocol p = { store.protocol p with isa := isa } := by
      by_cases mine : p = proto
      · exact ⟨_, mine ▸ here⟩
      · exact ⟨_, others p mine⟩
    have kept (p : ℕ) (complete : (store.protocol p).isa = .protocol) : (store'.protocol p).isa = .protocol :=
      (others p (apart p complete)).symm ▸ complete
    have remap (ref : ℕ) (complete : (store.protocol ref).isa = .protocol) : store'.remapProtocol runtime ref = store.remapProtocol runtime ref := by
      rw [Store.remapProtocol, Store.remapProtocol, others ref (apart ref complete), names]
      obtain canonical | named := sound.named ref complete
      · rw [if_pos canonical, if_pos canonical]
      · obtain ⟨first, named⟩ := Option.isSome_iff_exists.mp named
        rw [named, Option.getD_some, ite_self]
    have adopted : subs runtime store' = subs runtime store := by
      funext p
      obtain ⟨isa, same⟩ := data p
      rw [subs, same]
      exact List.map_congr_left fun ref member => remap ref (sound.adopted p ref member)
    have adopts : Adopts runtime store' = Adopts runtime store := by
      funext p sub
      rw [Adopts, adopted, Adopts]
    refine ⟨acyclic_of_subs adopted sound.acyclic, fun p complete => ?_, fun name p named => ?_, fun p ref member => ?_, fun p incomplete' => ?_,
      fun p => ?_, fun p => ?_, fun p marked => ?_, fun p marked sub inside => ?_⟩
    · by_cases mine : p = proto
      · refine .inr ?_
        rw [mine, here, names, if_pos rfl]
        rfl
      · rw [others p mine] at complete ⊢
        rw [names]
        refine (sound.named p complete).imp_right fun named => ?_
        split
        next => rfl
        next => exact named
    · rw [names] at named
      split at named
      next =>
        obtain rfl := Option.some.inj named
        cases first : store.getProtocol name with
        | none =>
            rw [Option.getD_none, here]
        | some first' => exact kept _ (sound.getProtocol name _ first)
      next => exact kept p (sound.getProtocol name p named)
    · obtain ⟨isa, same⟩ := data p
      rw [same] at member
      exact kept ref (sound.adopted p ref member)
    · have other : p ≠ proto := fun same => incomplete' (by rw [same, here])
      rw [others p other] at incomplete' ⊢
      exact sound.building p incomplete'
    · obtain ⟨isa, same⟩ := data p
      rw [same]
      exact sound.trusted p
    · obtain ⟨isa, same⟩ := data p
      rw [same]
      exact sound.covered p
    · obtain ⟨isa, same⟩ := data p
      rw [same] at marked ⊢
      exact sound.ready p marked
    · obtain ⟨isa, same⟩ := data p
      obtain ⟨isa', same'⟩ := data sub
      rw [same] at marked
      rw [same']
      exact sound.closed p marked sub (adopts ▸ inside)
  · rw [registerProtocol, if_pos incomplete]
    exact sound

theorem sound_protocolGetMethod (sound : Sound runtime store) (complete : (store.protocol proto).isa = .protocol) {fuel sel : ℕ}
    {required inst recursive : Bool} {found : Option Method}
    (run : protocolGetMethod runtime fuel store proto sel required inst recursive = some (store', found)) : Sound runtime store' := by
  rw [protocolGetMethod_eq] at run
  obtain ⟨fixed, fixup, search⟩ := Option.bind_eq_some_iff.mp run
  obtain ⟨meth, -, eq⟩ := Option.map_eq_some_iff.mp search
  obtain ⟨rfl, -⟩ := Prod.mk.inj eq
  exact (fixedUp_of_fixupProtocolIfNeeded sound.acyclic fixup).sound sound complete

theorem sound_run {call : Call} {fuel : ℕ} (sound : Sound runtime store) (legal : call.Legal runtime store) (ordered : call.Ordered runtime store)
    (run : call.run runtime fuel store = some store') : Sound runtime store' := by
  cases call with
  | allocateProtocol address name =>
      obtain rfl := Option.some.inj run
      exact sound_allocateProtocol sound legal name
  | registerProtocol proto =>
      obtain rfl := Option.some.inj run
      exact sound_registerProtocol sound
  | addProtocol proto addition =>
      obtain rfl := Option.some.inj run
      exact sound_addProtocol sound legal
  | addMethodDescription proto name types required inst =>
      obtain rfl := Option.some.inj run
      exact sound_addMethodDescription sound legal ordered
  | getMethod proto sel required inst recursive =>
      obtain ⟨⟨middle, found⟩, lookup, rfl⟩ := Option.map_eq_some_iff.mp run
      exact sound_protocolGetMethod sound legal lookup

/-- A call of a program that uses protocols as documented. -/
def Step (runtime : Runtime) (store store' : Store) : Prop :=
  ∃ (call : Call) (fuel : ℕ), call.Legal runtime store ∧ call.run runtime fuel store = some store'

/-- A call that adds no method below one of its list. -/
def OrderedStep (runtime : Runtime) (store store' : Store) : Prop :=
  ∃ (call : Call) (fuel : ℕ), call.Legal runtime store ∧ call.Ordered runtime store ∧ call.run runtime fuel store = some store'

/-- Every lookup in a finished protocol returns, and finds exactly what is declared. -/
def Answers (runtime : Runtime) (store : Store) : Prop :=
  ∀ proto sel required inst, (store.protocol proto).isa = .protocol → sel ≠ 0 →
    ∃ bound, ∀ fuel ≥ bound, ∃ store' found, protocolGetMethod runtime fuel store proto sel required inst true = some (store', found) ∧
      Finds runtime store required inst sel proto found

/-- Every list that is searched as a sorted one is sorted. -/
def MarkedSorted (runtime : Runtime) (store : Store) : Prop :=
  ∀ proto required inst mlist, (store.protocol proto).methodList required inst = some mlist → mlist.isFixedUp runtime → mlist.isExpectedSize →
    SortedSearch.Sorted Method.name mlist.methods

theorem Sound.answers (sound : Sound runtime store) : Answers runtime store :=
  fun _ _ _ _ complete nonzero => protocolGetMethod_finds sound complete nonzero

theorem Sound.markedSorted (sound : Sound runtime store) : MarkedSorted runtime store :=
  fun proto required inst mlist there marked => ((sound.trusted proto required inst mlist there).fixedUp marked).2

theorem sound_of_reached (sound : Sound runtime store) (reached : Relation.ReflTransGen (OrderedStep runtime) store store') :
    Sound runtime store' := by
  induction reached with
  | refl => exact sound
  | tail _ step ih =>
      obtain ⟨call, fuel, legal, ordered, run⟩ := step
      exact sound_run ih legal ordered run

theorem ordered_of_markedSorted {call : Call} {fuel : ℕ} (run : call.run runtime fuel store = some store') (sorted : MarkedSorted runtime store') :
    call.Ordered runtime store := by
  cases call with
  | addMethodDescription proto name types required inst =>
      intro incomplete mlist there marked expected meth member
      obtain rfl := Option.some.inj run
      have list : ((addMethodDescription runtime store proto name types required inst).protocol proto).methodList required inst =
          some { mlist with methods := mlist.methods ++ [⟨name, types.getD "", 0⟩] } := by
        rw [addMethodDescription, if_neg (not_not.mpr incomplete), Store.update]
        show (Function.update store.protocol proto _ proto).methodList required inst = _
        rw [Function.update_self, methodList_setMethodList, there]
        rfl
      have appended := sorted proto required inst _ list marked expected
      exact (List.pairwise_append.mp appended).2.2 meth member _ (List.mem_singleton_self _)
  | allocateProtocol | registerProtocol | addProtocol | getMethod => trivial

/-- A process without a shared cache, whose names are selectors. -/
def plainRuntime : Runtime := ⟨false, id, fun _ => rfl⟩

/-- No protocols yet. -/
def noProtocols : Store := ⟨fun _ => ⟨.unused, "", none, none, none, none, none, 0, none⟩, fun _ => none⟩

theorem sound_noProtocols : Sound plainRuntime noProtocols := by
  have plain (proto : ℕ) : noProtocols.protocol proto = ⟨.unused, "", none, none, none, none, none, 0, none⟩ := rfl
  have raw (proto : ℕ) : (noProtocols.protocol proto).isFixedUp plainRuntime = false :=
    show decide ((0 : BitVec 32) &&& fixedUpMask = fixedUpProtocol plainRuntime) = false by decide
  have alone (proto : ℕ) : (noProtocols.protocol proto).protocols.getD [] = [] := rfl
  have acyclic : WellFounded fun sub proto => Adopts plainRuntime noProtocols proto sub :=
    ⟨fun proto => ⟨proto, fun sub adopts => absurd adopts List.not_mem_nil⟩⟩
  refine ⟨acyclic, fun proto complete => ?_, nofun, fun proto ref member => ?_, fun proto _ => ⟨raw proto, rfl⟩,
    fun proto required inst mlist there => ?_, fun proto extTypes types => ?_, fun proto marked => ?_, fun proto marked => ?_⟩
  · exact nomatch complete
  · exact absurd (alone proto ▸ member) List.not_mem_nil
  · rw [plain] at there
    cases required <;> cases inst <;> exact nomatch there
  · exact nomatch types
  · exact nomatch (raw proto).symm.trans marked
  · exact nomatch (raw proto).symm.trans marked

/-- As long as methods are added in the order of their selectors, lookups are complete; the first call that
adds one below another leaves a marked list that is not sorted. -/
theorem answers_of_reached (sound : Sound runtime store) (reached : Relation.ReflTransGen (OrderedStep runtime) store store') :
    (Answers runtime store' ∧ MarkedSorted runtime store') ∧
      ∀ (call : Call) (fuel : ℕ) (store'' : Store), call.Legal runtime store' → call.run runtime fuel store' = some store'' →
        (Answers runtime store'' ∧ MarkedSorted runtime store'' ↔ call.Ordered runtime store') := by
  have sound' := sound_of_reached sound reached
  refine ⟨⟨sound'.answers, sound'.markedSorted⟩, fun call fuel store'' legal run => ?_⟩
  constructor
  · intro good
    exact ordered_of_markedSorted run good.2
  · intro ordered
    have sound'' := sound_run sound' legal ordered run
    exact ⟨sound''.answers, sound''.markedSorted⟩

/-- A protocol with two methods that were added in the order of their selectors. -/
theorem answers_of_reached_two :
    let allocated := allocateProtocol noProtocols 1 "P"
    let first := addMethodDescription plainRuntime allocated 1 4 none true true
    let second := addMethodDescription plainRuntime first 1 8 none true true
    Answers plainRuntime (registerProtocol second 1) := by
  intro allocated first second
  have reached : Relation.ReflTransGen (OrderedStep plainRuntime) noProtocols (registerProtocol second 1) := by
    refine (((Relation.ReflTransGen.single (b := allocated) ?_).tail (c := first) ?_).tail (c := second) ?_).tail ?_
    · exact ⟨.allocateProtocol 1 "P", 0, rfl, trivial, rfl⟩
    · refine ⟨.addMethodDescription 1 4 none true true, 0, rfl, fun _ mlist there => ?_, rfl⟩
      exact nomatch there
    · refine ⟨.addMethodDescription 1 8 none true true, 0, rfl, fun _ mlist there _ _ meth member => ?_, rfl⟩
      obtain rfl := Option.some.inj there
      obtain rfl := List.mem_singleton.mp member
      decide
    · exact ⟨.registerProtocol 1, 0, trivial, trivial, rfl⟩
  exact (answers_of_reached sound_noProtocols reached).1.1

/-- A finished protocol whose methods were added the other way. -/
def unordered : Protocol := ⟨.protocol, "P", none, some ⟨26, [⟨8, "", 0⟩, ⟨4, "", 0⟩]⟩, none, none, none, 0, none⟩

theorem protocolGetMethodNolock_unordered (store : Store) (here : (store.protocol 1).methodList true true = unordered.instanceMethods)
    (alone : (store.protocol 1).protocols = none) (fuel : ℕ) :
    protocolGetMethodNolock plainRuntime store 8 true true true (fuel + 1) 1 = some none := by
  have missed : searchMethodListInline plainRuntime ⟨26, [⟨8, "", 0⟩, ⟨4, "", 0⟩]⟩ 8 = none := by
    rw [searchMethodListInline, if_pos (by decide), findMethodInSortedMethodList, SortedSearch.search]
    simp [SortedSearch.searchFrom]
  have list : searchList plainRuntime store true true 8 1 = none := by
    rw [searchList, here]
    exact missed
  rw [protocolGetMethodNolock_succ (by decide), list, alone]
  rfl

/-- Of two methods that are added the other way, the lookup does not find the first one. -/
theorem not_answers_unordered : Sound plainRuntime noProtocols ∧ ∃ store, Relation.ReflTransGen (Step plainRuntime) noProtocols store ∧
    Declares plainRuntime store true true 8 1 ∧ ¬Answers plainRuntime store := by
  let allocated := allocateProtocol noProtocols 1 "P"
  let first := addMethodDescription plainRuntime allocated 1 8 none true true
  let second := addMethodDescription plainRuntime first 1 4 none true true
  let store := registerProtocol second 1
  have reached : Relation.ReflTransGen (Step plainRuntime) noProtocols store := by
    refine (((Relation.ReflTransGen.single (b := allocated) ?_).tail (c := first) ?_).tail (c := second) ?_).tail ?_
    · exact ⟨.allocateProtocol 1 "P", 0, rfl, rfl⟩
    · exact ⟨.addMethodDescription 1 8 none true true, 0, rfl, rfl⟩
    · exact ⟨.addMethodDescription 1 4 none true true, 0, rfl, rfl⟩
    · exact ⟨.registerProtocol 1, 0, trivial, rfl⟩
  have here : store.protocol 1 = unordered := by decide
  have declares : Declares plainRuntime store true true 8 1 := by
    refine ⟨⟨26, [⟨8, "", 0⟩, ⟨4, "", 0⟩]⟩, ?_, ⟨8, "", 0⟩, List.mem_cons_self, rfl⟩
    rw [here]
    rfl
  refine ⟨sound_noProtocols, store, reached, declares, fun answers => ?_⟩
  obtain ⟨bound, finds⟩ := answers 1 8 true true (by rw [here]; rfl) (by decide)
  obtain ⟨store', found, run, finds⟩ := finds (bound + 1) (Nat.le_succ bound)
  have fixup : fixupProtocolIfNeeded plainRuntime (bound + 1) store 1 = some (store.update 1 (fixupMethodLists plainRuntime unordered)) := by
    have raw : ¬(store.protocol 1).isFixedUp plainRuntime := by
      rw [here]
      decide
    rw [fixupProtocolIfNeeded, if_neg raw, fixupProtocol_succ, here]
    show some (store.update 1 (fixupMethodLists plainRuntime (store.protocol 1))) = _
    rw [here]
  have fixed : (store.update 1 (fixupMethodLists plainRuntime unordered)).protocol 1 = { unordered with flags := 0xc0000000 } := by
    rw [Store.update]
    show Function.update store.protocol 1 _ 1 = _
    rw [Function.update_self]
    decide
  rw [protocolGetMethod_eq, fixup, Option.bind_some, protocolGetMethodNolock_unordered _ (by rw [fixed]; rfl) (by rw [fixed]; rfl)] at run
  obtain rfl : none = found := (Prod.mk.inj (Option.some.inj run)).2
  cases finds.complete ⟨1, .refl, declares⟩

end ObjcDyld.Protocols
