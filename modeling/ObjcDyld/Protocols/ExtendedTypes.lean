import ObjcDyld.Protocols.Adoption

/-!
# Extended types

The extended types of a protocol stand in one array, in the order of its lists. Where a list is sorted,
the types of its methods move with them, and those of the other lists stay where they are.
-/

namespace ObjcDyld.Protocols

open MethodLists

variable {runtime : Runtime} {proto proto' : Protocol} {mlist : MethodList} {required inst required' inst' : Bool}

/-- An entry of the array. -/
def extendedType (proto : Protocol) (index : ℕ) : Option String := proto.extendedMethodTypes.bind fun extTypes => extTypes[index]?

/-- The methods of a list, each with the entry that its address leads to. -/
def typedMethods (proto : Protocol) (required inst : Bool) : List (Method × Option String) :=
  ((proto.methodList required inst).map fun mlist => mlist.methods.mapIdx fun index meth =>
    (meth, extendedType proto (getExtendedTypesIndexForMethod proto (methodOffset mlist index) required inst))).getD []

/-- All lists are big ones with entries of the standard size. -/
def Standard (proto : Protocol) : Prop :=
  ∀ required inst mlist, proto.methodList required inst = some mlist → mlist.isSmallList = false ∧ mlist.isExpectedSize

theorem typedMethods_eq (here : proto.methodList required inst = some mlist) (expected : mlist.isExpectedSize) :
    typedMethods proto required inst =
      mlist.methods.mapIdx fun index meth => (meth, extendedType proto (methodsBefore proto required inst + index)) := by
  rw [typedMethods, here]
  refine congrArg (List.mapIdx · mlist.methods) (funext₂ fun index meth => ?_)
  rw [getExtendedTypesIndexForMethod, getExtendedTypesIndexesForMethod_eq here]
  simp only [indexOfMethod_methodOffset expected]

theorem typedMethods_none (absent : proto.methodList required inst = none) : typedMethods proto required inst = [] := by
  rw [typedMethods, absent]
  rfl

theorem methodsBefore_apart (other : (required', inst') ≠ (required, inst)) :
    methodsBefore proto required' inst' + methodCount (proto.methodList required' inst') ≤ methodsBefore proto required inst ∨
      methodsBefore proto required inst + methodCount (proto.methodList required inst) ≤ methodsBefore proto required' inst' := by
  cases required <;> cases inst <;> cases required' <;> cases inst' <;>
    first | exact absurd rfl other | (simp only [methodsBefore, Protocol.methodList]; omega)

/-- What sorting one list leaves of the extended types. -/
structure Attached (runtime : Runtime) (required inst : Bool) (proto proto' : Protocol) : Prop where
  typed : (typedMethods proto' required inst).Perm ((typedMethods proto required inst).map (Prod.map (Method.unique runtime) id))
  outside : ∀ index, index < methodsBefore proto required inst ∨
    methodsBefore proto required inst + methodCount (proto.methodList required inst) ≤ index → extendedType proto' index = extendedType proto index

theorem map_pairs_eq_mapIdx (offset : ℕ) (methods : List Method) (extTypes : List String) :
    ExchangeSort.pairs offset (methods, extTypes) =
      (methods.mapIdx fun index meth => (meth, extTypes[offset + index]?)).map (Prod.map some id) := by
  rw [ExchangeSort.pairs]
  refine List.ext_getElem (by simp) fun index inside _ => ?_
  rw [List.length_map, List.length_range] at inside
  simp [inside]

theorem typed_perm_of_kept {offset : ℕ} {methods methods' : List Method} {extTypes extTypes' : List String}
    (kept : ExchangeSort.Kept offset (methods, extTypes) (methods', extTypes')) :
    (methods'.mapIdx fun index meth => (meth, extTypes'[offset + index]?)).Perm
      (methods.mapIdx fun index meth => (meth, extTypes[offset + index]?)) := by
  have pairs := kept.pairs
  rw [map_pairs_eq_mapIdx, map_pairs_eq_mapIdx] at pairs
  exact (List.map_perm_map_iff ((Option.some_injective Method).prodMap Function.injective_id)).mp pairs

theorem mapIdx_unique (typeAt : ℕ → Option String) (methods : List Method) :
    (methods.map (Method.unique runtime)).mapIdx (fun index meth => (meth, typeAt index)) =
      (methods.mapIdx fun index meth => (meth, typeAt index)).map (Prod.map (Method.unique runtime) id) := by
  refine List.ext_getElem (by simp) fun index _ _ => ?_
  simp

theorem attached_fixupProtocolMethodList (trusted : Trusted runtime proto) (standard : Standard proto) (covered : Covered proto)
    (types : proto.extendedMethodTypes.isSome) :
    Attached runtime required inst proto (fixupProtocolMethodList runtime proto required inst) ∧
      ∀ mlist', (fixupProtocolMethodList runtime proto required inst).methodList required inst = some mlist' →
        SortedSearch.Sorted Method.name mlist'.methods := by
  cases here : proto.methodList required inst with
  | none =>
      have unchanged : fixupProtocolMethodList runtime proto required inst = proto := by rw [fixupProtocolMethodList, here]
      rw [unchanged, here]
      refine ⟨⟨?_, fun _ _ => rfl⟩, fun mlist' eq => by cases eq⟩
      rw [typedMethods_none here]
      exact List.Perm.refl _
  | some mlist =>
      have trust := trusted required inst mlist here
      obtain ⟨big, expected⟩ := standard required inst mlist here
      have typed := typedMethods_eq here expected
      by_cases fixedUp : mlist.isFixedUp runtime
      · have unchanged : fixupProtocolMethodList runtime proto required inst = proto := by
          rw [fixupProtocolMethodList, here]
          exact if_pos fixedUp
        obtain ⟨uniqued, sorted⟩ := trust.fixedUp fixedUp
        rw [unchanged, here]
        refine ⟨⟨?_, fun _ _ => rfl⟩, fun mlist' eq => Option.some.inj eq ▸ sorted expected⟩
        rw [typed, ← mapIdx_unique]
        exact (congrArg (List.mapIdx _) uniqued.declared).symm ▸ List.Perm.refl _
      · have raw : mlist.isFixedUp runtime = false := Bool.eq_false_iff.mpr fixedUp
        obtain ⟨extTypes, eq⟩ := Option.isSome_iff_exists.mp types
        have declared : (fixupMethodList runtime mlist false).methods = mlist.methods.map (Method.unique runtime) := by
          rw [methods_fixupMethodList trust.uniqued, if_neg (by simp)]
          rfl
        have fits : methodsBefore proto required inst + (fixupMethodList runtime mlist false).methods.length ≤ extTypes.length := by
          rw [length_methods_fixupMethodList trust]
          exact (methodsBefore_add_le here).trans (covered extTypes eq)
        obtain ⟨kept, sorted⟩ := @ExchangeSort.sort_spec _ _ _ _ Method.name _ ((fixupMethodList runtime mlist false).methods, extTypes) fits
        have after := fixupProtocolMethodList_eq here raw eq big
        have fixed := @fixedAt_fixupProtocolMethodList runtime proto required inst (trusted required inst) covered
        have before := fixed.methodsBefore required inst
        generalize fixupProtocolMethodList runtime proto required inst = proto' at after before
        generalize ExchangeSort.sort Method.name (methodsBefore proto required inst) ((fixupMethodList runtime mlist false).methods, extTypes) =
          lists at kept sorted after
        obtain ⟨methods, extTypes'⟩ := lists
        have types' : proto'.extendedMethodTypes = some extTypes' := by rw [after]
        have there : proto'.methodList required inst = some { fixupMethodList runtime mlist false with methods := methods } := by
          rw [after]
          exact @methodList_setMethodList proto _ required inst
        refine ⟨⟨?_, fun index outside => ?_⟩, fun mlist' eq => ?_⟩
        · have expected' : ({ fixupMethodList runtime mlist false with methods := methods } : MethodList).isExpectedSize :=
            isExpectedSize_fixupMethodList.trans expected
          rw [typedMethods_eq there expected', typed, before, ← mapIdx_unique, ← declared]
          simp only [extendedType, types', eq, Option.bind_some]
          exact typed_perm_of_kept kept
        · rw [extendedType, types', extendedType, eq, Option.bind_some, Option.bind_some]
          refine kept.outside index (outside.imp_right fun le => ?_)
          rw [here] at le
          exact (congrArg (methodsBefore proto required inst + ·) (length_methods_fixupMethodList trust)).trans_le le
        · rw [there] at eq
          exact Option.some.inj eq ▸ sorted

theorem typedMethods_of_ne (fixed : FixedAt runtime required inst proto proto') (attached : Attached runtime required inst proto proto')
    (standard : Standard proto) (other : (required', inst') ≠ (required, inst)) :
    typedMethods proto' required' inst' = typedMethods proto required' inst' := by
  have same := fixed.others required' inst' other
  cases here : proto.methodList required' inst' with
  | none => rw [typedMethods_none here, typedMethods_none (same.trans here)]
  | some mlist =>
      have expected := (standard required' inst' mlist here).2
      rw [typedMethods_eq here expected, typedMethods_eq (same.trans here) expected, fixed.methodsBefore]
      refine List.mapIdx_eq_mapIdx_iff.mpr fun index inside => ?_
      have apart := @methodsBefore_apart proto required inst required' inst' other
      rw [here] at apart
      have count : methodCount (some mlist) = mlist.methods.length := rfl
      rw [attached.outside _ (by omega)]

/-- A protocol whose extended types cover its methods. -/
structure Typed (runtime : Runtime) (proto : Protocol) : Prop where
  trusted : Trusted runtime proto
  standard : Standard proto
  types : proto.extendedMethodTypes.isSome
  covered : Covered proto

theorem FixedAt.standard (fixed : FixedAt runtime required inst proto proto') (standard : Standard proto) : Standard proto' := by
  intro required' inst' mlist' there
  by_cases same : (required', inst') = (required, inst)
  · obtain ⟨rfl, rfl⟩ := Prod.mk.inj same
    cases here : proto.methodList required' inst' with
    | none =>
        rw [fixed.none here, here] at there
        exact nomatch there
    | some mlist =>
        obtain ⟨mlist'', eq, list⟩ := fixed.some mlist here
        obtain rfl := Option.some.inj (eq.symm.trans there)
        rw [list.isSmallList, list.isExpectedSize]
        exact standard required' inst' mlist here
  · exact standard required' inst' mlist' (fixed.others required' inst' same ▸ there)

theorem Typed.fixed (typed : Typed runtime proto) (required inst : Bool) :
    FixedAt runtime required inst proto (fixupProtocolMethodList runtime proto required inst) :=
  fixedAt_fixupProtocolMethodList (typed.trusted required inst) typed.covered

theorem Typed.fixup (typed : Typed runtime proto) (required inst : Bool) : Typed runtime (fixupProtocolMethodList runtime proto required inst) := by
  have fixed := typed.fixed required inst
  refine ⟨fixed.trusted typed.trusted, fixed.standard typed.standard, ?_, fixed.covered typed.covered⟩
  rw [← Option.isSome_map (f := List.length), fixed.types, Option.isSome_map]
  exact typed.types

/-- The list at a place, with its types, after some lists were fixed up. -/
structure Arranged (runtime : Runtime) (done : List (Bool × Bool)) (proto proto' : Protocol) : Prop where
  total : methodTotal proto' = methodTotal proto
  rest : ∀ index, methodTotal proto ≤ index → extendedType proto' index = extendedType proto index
  others : ∀ key ∉ done, typedMethods proto' key.1 key.2 = typedMethods proto key.1 key.2 ∧ proto'.methodList key.1 key.2 = proto.methodList key.1 key.2
  typed : ∀ key ∈ done, (typedMethods proto' key.1 key.2).Perm ((typedMethods proto key.1 key.2).map (Prod.map (Method.unique runtime) id))
  sorted : ∀ key ∈ done, ∀ mlist', proto'.methodList key.1 key.2 = some mlist' → SortedSearch.Sorted Method.name mlist'.methods

theorem methodsBefore_add_count_le (required inst : Bool) :
    methodsBefore proto required inst + methodCount (proto.methodList required inst) ≤ methodTotal proto := by
  cases required <;> cases inst <;> simp only [methodTotal, methodsBefore, Protocol.methodList] <;> omega

theorem arranged_foldl (typed : Typed runtime proto) (keys : List (Bool × Bool)) (distinct : keys.Nodup) :
    Arranged runtime keys proto (keys.foldl (fun proto key => fixupProtocolMethodList runtime proto key.1 key.2) proto) := by
  induction keys generalizing proto with
  | nil => exact ⟨rfl, fun _ _ => rfl, fun _ _ => ⟨rfl, rfl⟩, nofun, nofun⟩
  | cons key keys ih =>
      obtain ⟨fresh, distinct⟩ := List.nodup_cons.mp distinct
      have fixed := typed.fixed key.1 key.2
      obtain ⟨attached, sorted⟩ := @attached_fixupProtocolMethodList runtime proto key.1 key.2 typed.trusted typed.standard typed.covered typed.types
      have rest := ih (typed.fixup key.1 key.2) distinct
      rw [List.foldl_cons]
      generalize fixupProtocolMethodList runtime proto key.1 key.2 = proto' at fixed attached sorted rest
      have before (other : Bool × Bool) (apart : other ≠ key) : typedMethods proto' other.1 other.2 = typedMethods proto other.1 other.2 :=
        typedMethods_of_ne fixed attached typed.standard apart
      refine ⟨rest.total.trans fixed.methodTotal, fun index le => ?_, fun other outside => ?_, fun other member => ?_, fun other member mlist' there => ?_⟩
      · rw [rest.rest index (fixed.methodTotal.trans_le le)]
        exact attached.outside index (.inr ((methodsBefore_add_count_le key.1 key.2).trans le))
      · have apart : other ≠ key := fun same => outside (same ▸ List.mem_cons_self)
        obtain ⟨types, list⟩ := rest.others other fun member => outside (List.mem_cons_of_mem _ member)
        exact ⟨types.trans (before other apart), list.trans (fixed.others other.1 other.2 apart)⟩
      · obtain rfl | member := List.mem_cons.mp member
        · rw [(rest.others other fresh).1]
          exact attached.typed
        · have apart : other ≠ key := fun same => fresh (same ▸ member)
          rw [← before other apart]
          exact rest.typed other member
      · obtain rfl | member := List.mem_cons.mp member
        · exact sorted mlist' ((rest.others other fresh).2 ▸ there)
        · exact rest.sorted other member mlist' there

/-- The keys of the four lists. -/
def allLists : List (Bool × Bool) := [(true, true), (true, false), (false, true), (false, false)]

theorem arranged_fixupMethodLists (typed : Typed runtime proto) : Arranged runtime allLists proto (fixupMethodLists runtime proto) := by
  obtain ⟨total, rest, others, types, sorted⟩ := arranged_foldl typed allLists (by decide)
  exact ⟨total, rest, others, types, sorted⟩

/-- What fixing up a protocol does to its lists and their extended types. -/
structure Paired (runtime : Runtime) (proto proto' : Protocol) : Prop where
  sorted : ∀ required inst mlist', proto'.methodList required inst = some mlist' → SortedSearch.Sorted Method.name mlist'.methods
  typed : ∀ required inst, (typedMethods proto' required inst).Perm ((typedMethods proto required inst).map (Prod.map (Method.unique runtime) id))
  rest : ∀ index, methodTotal proto ≤ index → extendedType proto' index = extendedType proto index

/-- `fixupProtocol` sorts each list together with its extended types, and while it sorts one list, the types
of the others stay where they are. -/
theorem paired_fixupProtocol {store : Store} {address : ℕ} (acyclic : Acyclic runtime store) (raw : (store.protocol address).isFixedUp runtime = false)
    (typed : Typed runtime (store.protocol address)) :
    (∃ bound, ∀ fuel ≥ bound, ∃ store', fixupProtocol runtime fuel store address = some store' ∧
      Paired runtime (store.protocol address) (store'.protocol address)) ∧
      ∀ proto, Typed runtime proto → ∀ required inst index, index < methodsBefore proto required inst ∨
        methodsBefore proto required inst + methodCount (proto.methodList required inst) ≤ index →
        extendedType (fixupProtocolMethodList runtime proto required inst) index = extendedType proto index := by
  constructor
  · obtain ⟨bound, returns⟩ := exists_fuel_fixupProtocol acyclic address
    refine ⟨bound, fun fuel le => ?_⟩
    obtain ⟨store', run⟩ := Option.isSome_iff_exists.mp (returns fuel le store rfl)
    have here := (fixedUp_of_fixupProtocol acyclic raw run).2
    obtain ⟨-, rest, -, types, sorted⟩ := arranged_fixupMethodLists typed
    have every (required inst : Bool) : (required, inst) ∈ allLists := by
      cases required <;> cases inst <;> decide
    refine ⟨store', run, ?_⟩
    rw [here]
    exact ⟨fun required inst => sorted _ (every required inst), fun required inst => types _ (every required inst), rest⟩
  · intro proto typed required inst
    exact (attached_fixupProtocolMethodList typed.trusted typed.standard typed.covered typed.types).1.outside

/-- Two instance methods out of order and a class method. -/
theorem paired_fixupProtocol_three :
    let runtime : Runtime := ⟨false, id, fun _ => rfl⟩
    let proto : Protocol := ⟨.protocol, "P", none, some ⟨24, [⟨8, "v", 0⟩, ⟨4, "v", 0⟩]⟩, some ⟨24, [⟨6, "v", 0⟩]⟩, none, none, 0, some ["e", "f", "g"]⟩
    let store : Store := ⟨fun _ => proto, fun _ => none⟩
    ∃ bound, ∀ fuel ≥ bound, ∃ store', fixupProtocol runtime fuel store 1 = some store' ∧ Paired runtime proto (store'.protocol 1) := by
  intro runtime proto store
  have acyclic : Acyclic runtime store := ⟨fun proto => ⟨proto, fun sub adopts => absurd adopts List.not_mem_nil⟩⟩
  have raw : proto.isFixedUp runtime = false := by decide
  have plain (mlist : MethodList) (marks : mlist.isUniqued runtime = false ∧ mlist.isFixedUp runtime = false) : mlist.Trusted runtime :=
    ⟨fun marked => (nomatch marks.1.symm.trans marked), fun marked => (nomatch marks.2.symm.trans marked)⟩
  have lists (required inst : Bool) (mlist : MethodList) (there : proto.methodList required inst = some mlist) :
      (mlist.isUniqued runtime = false ∧ mlist.isFixedUp runtime = false) ∧ mlist.isSmallList = false ∧ mlist.isExpectedSize := by
    cases required <;> cases inst
    · exact nomatch there
    · exact nomatch there
    · obtain rfl := Option.some.inj there
      decide
    · obtain rfl := Option.some.inj there
      decide
  have typed : Typed runtime proto := by
    refine ⟨fun required inst mlist there => plain mlist (lists required inst mlist there).1,
      fun required inst mlist there => (lists required inst mlist there).2, rfl, fun extTypes types => ?_⟩
    obtain rfl := Option.some.inj types
    decide
  exact (@paired_fixupProtocol runtime store 1 acyclic raw typed).1

end ObjcDyld.Protocols
