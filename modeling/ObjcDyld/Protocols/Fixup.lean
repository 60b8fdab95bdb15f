import ObjcDyld.Protocols.Protocols

/-!
# Fixing up the lists of a protocol

Each list of a protocol is fixed up by itself. Afterwards it can be searched and has its methods in some
order, and the other lists are as they were.
-/

namespace ObjcDyld.Protocols

open MethodLists

variable {runtime : Runtime} {proto proto' : Protocol} {mlist mlist' : MethodList} {required inst required' inst' : Bool}

@[simp] theorem methodList_setMethodList : (proto.setMethodList required inst mlist).methodList required inst = some mlist := by
  cases required <;> cases inst <;> rfl

theorem methodList_setMethodList_of_ne (other : (required', inst') ≠ (required, inst)) :
    (proto.setMethodList required inst mlist).methodList required' inst' = proto.methodList required' inst' := by
  cases required <;> cases inst <;> cases required' <;> cases inst' <;> first | rfl | exact absurd rfl other

@[simp] theorem isa_setMethodList : (proto.setMethodList required inst mlist).isa = proto.isa := by
  cases required <;> cases inst <;> rfl

@[simp] theorem mangledName_setMethodList : (proto.setMethodList required inst mlist).mangledName = proto.mangledName := by
  cases required <;> cases inst <;> rfl

@[simp] theorem protocols_setMethodList : (proto.setMethodList required inst mlist).protocols = proto.protocols := by
  cases required <;> cases inst <;> rfl

@[simp] theorem flags_setMethodList : (proto.setMethodList required inst mlist).flags = proto.flags := by
  cases required <;> cases inst <;> rfl

@[simp] theorem extendedMethodTypes_setMethodList :
    (proto.setMethodList required inst mlist).extendedMethodTypes = proto.extendedMethodTypes := by
  cases required <;> cases inst <;> rfl

/-- The methods of the lists before a list. -/
def methodsBefore (proto : Protocol) (required inst : Bool) : ℕ :=
  match required, inst with
  | true, true => 0
  | true, false => methodCount proto.instanceMethods
  | false, true => methodCount proto.instanceMethods + methodCount proto.classMethods
  | false, false => methodCount proto.instanceMethods + methodCount proto.classMethods + methodCount proto.optionalInstanceMethods

/-- The methods of all lists. -/
def methodTotal (proto : Protocol) : ℕ := methodsBefore proto false false + methodCount proto.optionalClassMethods

theorem getExtendedTypesIndexesForMethod_eq (here : proto.methodList required inst = some mlist) (offset : ℕ) :
    getExtendedTypesIndexesForMethod proto offset required inst = (methodsBefore proto required inst, indexOfMethod mlist offset) := by
  cases required <;> cases inst <;> simp_all [getExtendedTypesIndexesForMethod, methodsBefore, Protocol.methodList]

theorem indexOfMethod_methodOffset (expected : mlist.isExpectedSize) (index : ℕ) :
    indexOfMethod mlist (methodOffset mlist index) = index := by
  rw [MethodList.isExpectedSize] at expected
  rw [indexOfMethod, methodOffset]
  split at expected
  next small =>
    rw [of_decide_eq_true expected, if_pos small, show MethodList.smallSize.toNat = 12 from rfl]
    omega
  next big =>
    rw [of_decide_eq_true expected, if_neg big, show MethodList.bigSize.toNat = 24 from rfl]
    omega

theorem methodsBefore_add_le (here : proto.methodList required inst = some mlist) :
    methodsBefore proto required inst + mlist.methods.length ≤ methodTotal proto := by
  have count : methodCount (proto.methodList required inst) = mlist.methods.length := by
    rw [here]
    rfl
  rw [← count]
  cases required <;> cases inst <;> simp only [methodTotal, methodsBefore, Protocol.methodList] <;> omega

def Covered (proto : Protocol) : Prop := ∀ extTypes, proto.extendedMethodTypes = some extTypes → methodTotal proto ≤ extTypes.length

structure FixedList (runtime : Runtime) (mlist mlist' : MethodList) : Prop where
  ready : mlist'.Ready runtime
  perm : mlist'.methods.Perm (mlist.declared runtime)
  isSmallList : mlist'.isSmallList = mlist.isSmallList
  isExpectedSize : mlist'.isExpectedSize = mlist.isExpectedSize

theorem ready_of_perm {methods : List Method} (uniqued : mlist.Uniqued runtime) (perm : methods.Perm mlist.methods)
    (sorted : mlist.isFixedUp runtime → mlist.isExpectedSize → SortedSearch.Sorted Method.name methods) :
    ({ mlist with methods := methods } : MethodList).Ready runtime :=
  ⟨fun meth member => uniqued meth (perm.mem_iff.mp member), sorted⟩

theorem fixedList_of_isFixedUp (trusted : mlist.Trusted runtime) (fixedUp : mlist.isFixedUp runtime) : FixedList runtime mlist mlist := by
  refine ⟨⟨(trusted.fixedUp fixedUp).1, fun fixedUp => (trusted.fixedUp fixedUp).2⟩, ?_, rfl, rfl⟩
  rw [(trusted.fixedUp fixedUp).1.declared]

theorem fixedList_fixupMethodList (trusted : mlist.Trusted runtime) (raw : mlist.isFixedUp runtime = false) :
    FixedList runtime mlist (fixupMethodList runtime mlist true) := by
  refine ⟨ready_fixupMethodList trusted raw, ?_, isSmallList_fixupMethodList, isExpectedSize_fixupMethodList⟩
  rw [methods_fixupMethodList trusted.uniqued]
  split
  next => exact SortedSearch.stableSort_perm _
  next => exact List.Perm.refl _

theorem fixedList_of_perm (trusted : mlist.Trusted runtime) (raw : mlist.isFixedUp runtime = false) {methods : List Method}
    (perm : methods.Perm (fixupMethodList runtime mlist false).methods)
    (sorted : mlist.isSmallList = false → SortedSearch.Sorted Method.name methods) :
    FixedList runtime mlist { fixupMethodList runtime mlist false with methods := methods } := by
  refine ⟨ready_of_perm (uniqued_fixupMethodList trusted.uniqued) perm fun fixedUp _ => ?_, ?_, isSmallList_fixupMethodList,
    isExpectedSize_fixupMethodList⟩
  · rw [isFixedUp_fixupMethodList, raw, Bool.false_or, Bool.not_eq_true'] at fixedUp
    exact sorted fixedUp
  · rw [methods_fixupMethodList trusted.uniqued, if_neg (by simp)] at perm
    exact perm

/-- What fixing up a list leaves of every protocol. -/
structure Kept (proto proto' : Protocol) : Prop where
  isa : proto'.isa = proto.isa
  mangledName : proto'.mangledName = proto.mangledName
  protocols : proto'.protocols = proto.protocols
  flags : proto'.flags = proto.flags

theorem Kept.trans {proto'' : Protocol} (first : Kept proto proto') (second : Kept proto' proto'') : Kept proto proto'' :=
  ⟨second.isa.trans first.isa, second.mangledName.trans first.mangledName, second.protocols.trans first.protocols, second.flags.trans first.flags⟩

theorem kept_setMethodList : Kept proto (proto.setMethodList required inst mlist) :=
  ⟨isa_setMethodList, mangledName_setMethodList, protocols_setMethodList, flags_setMethodList⟩

theorem kept_fixupProtocolMethodList : Kept proto (fixupProtocolMethodList runtime proto required inst) := by
  have unchanged : Kept proto proto := ⟨rfl, rfl, rfl, rfl⟩
  rw [fixupProtocolMethodList]
  split
  next => exact unchanged
  next mlist _ =>
    split
    next => exact unchanged
    next =>
      split
      next => exact kept_setMethodList
      next =>
        split
        next => exact kept_setMethodList
        next =>
          refine ⟨?_, ?_, ?_, ?_⟩
          · exact isa_setMethodList
          · exact mangledName_setMethodList
          · exact protocols_setMethodList
          · exact flags_setMethodList

/-- What fixing up one list leaves of a protocol whose lists can be trusted. -/
structure FixedAt (runtime : Runtime) (required inst : Bool) (proto proto' : Protocol) : Prop where
  types : proto'.extendedMethodTypes.map List.length = proto.extendedMethodTypes.map List.length
  others : ∀ required' inst', (required', inst') ≠ (required, inst) → proto'.methodList required' inst' = proto.methodList required' inst'
  none : proto.methodList required inst = none → proto' = proto
  some : ∀ mlist, proto.methodList required inst = some mlist →
    ∃ mlist', proto'.methodList required inst = some mlist' ∧ FixedList runtime mlist mlist'

theorem fixedAt_setMethodList (here : proto.methodList required inst = some mlist) (fixed : FixedList runtime mlist mlist') :
    FixedAt runtime required inst proto (proto.setMethodList required inst mlist') := by
  refine ⟨congrArg (Option.map List.length) extendedMethodTypes_setMethodList, fun _ _ other => methodList_setMethodList_of_ne other,
    fun absent => ?_, fun mlist eq => ?_⟩
  · exact nomatch here.symm.trans absent
  · obtain rfl := Option.some.inj (here.symm.trans eq)
    exact ⟨mlist', methodList_setMethodList, fixed⟩

theorem fixupProtocolMethodList_eq {extTypes : List String} (here : proto.methodList required inst = some mlist)
    (raw : mlist.isFixedUp runtime = false) (types : proto.extendedMethodTypes = some extTypes) (big : mlist.isSmallList = false) :
    fixupProtocolMethodList runtime proto required inst =
      { proto.setMethodList required inst { fixupMethodList runtime mlist false with
          methods := (ExchangeSort.sort Method.name (methodsBefore proto required inst) ((fixupMethodList runtime mlist false).methods, extTypes)).1 } with
        extendedMethodTypes :=
          some (ExchangeSort.sort Method.name (methodsBefore proto required inst) ((fixupMethodList runtime mlist false).methods, extTypes)).2 } := by
  rw [fixupProtocolMethodList, here]
  simp only [raw, types, big, getExtendedTypesIndexesForMethod_eq here, Option.isNone_some, Bool.false_eq_true, if_false]

theorem length_methods_fixupMethodList (trusted : mlist.Trusted runtime) :
    (fixupMethodList runtime mlist false).methods.length = mlist.methods.length := by
  rw [methods_fixupMethodList trusted.uniqued, if_neg (by simp), MethodList.declared, List.length_map]

theorem fixedAt_fixupProtocolMethodList (trusted : ∀ mlist, proto.methodList required inst = some mlist → mlist.Trusted runtime)
    (covered : Covered proto) : FixedAt runtime required inst proto (fixupProtocolMethodList runtime proto required inst) := by
  cases here : proto.methodList required inst with
  | none =>
      rw [fixupProtocolMethodList, here]
      exact ⟨rfl, fun _ _ _ => rfl, fun _ => rfl, fun _ eq => nomatch here.symm.trans eq⟩
  | some mlist =>
      have trust := trusted mlist here
      by_cases fixedUp : mlist.isFixedUp runtime
      · rw [fixupProtocolMethodList, here]
        simp only [if_pos fixedUp]
        refine ⟨rfl, fun _ _ _ => rfl, fun _ => rfl, fun mlist' eq => ?_⟩
        obtain rfl := Option.some.inj (here.symm.trans eq)
        exact ⟨mlist, here, fixedList_of_isFixedUp trust fixedUp⟩
      have raw : mlist.isFixedUp runtime = false := Bool.eq_false_iff.mpr fixedUp
      cases types : proto.extendedMethodTypes with
      | none =>
          have unsorted : fixupProtocolMethodList runtime proto required inst =
              proto.setMethodList required inst (fixupMethodList runtime mlist true) := by
            rw [fixupProtocolMethodList, here]
            simp only [if_neg fixedUp, types, Option.isNone_none]
          rw [unsorted]
          exact fixedAt_setMethodList here (fixedList_fixupMethodList trust raw)
      | some extTypes =>
          cases small : mlist.isSmallList with
          | true =>
              have unsorted : fixupProtocolMethodList runtime proto required inst =
                  proto.setMethodList required inst (fixupMethodList runtime mlist false) := by
                rw [fixupProtocolMethodList, here]
                simp only [if_neg fixedUp, types, small, Option.isNone_some, if_true]
              rw [unsorted]
              exact fixedAt_setMethodList here (fixedList_of_perm trust raw (List.Perm.refl _) fun big => nomatch small.symm.trans big)
          | false =>
              have fits : methodsBefore proto required inst + (fixupMethodList runtime mlist false).methods.length ≤ extTypes.length := by
                rw [length_methods_fixupMethodList trust]
                exact (methodsBefore_add_le here).trans (covered extTypes types)
              obtain ⟨kept, sorted⟩ := @ExchangeSort.sort_spec _ _ _ _ Method.name _ ((fixupMethodList runtime mlist false).methods, extTypes) fits
              have fixed := fixedList_of_perm trust raw kept.perm fun _ => sorted
              have at_list := fixedAt_setMethodList here fixed
              rw [fixupProtocolMethodList_eq here raw types small]
              refine ⟨?_, fun required' inst' other => ?_, fun absent => ?_, fun mlist' eq => ?_⟩
              · rw [types]
                exact congrArg some kept.length'
              · rw [← at_list.others required' inst' other]
                rfl
              · exact nomatch here.symm.trans absent
              · obtain ⟨mlist', there, fixed'⟩ := at_list.some mlist' eq
                exact ⟨mlist', there.symm ▸ rfl, fixed'⟩

theorem methodCount_of_fixedAt (fixed : FixedAt runtime required inst proto proto') (required' inst' : Bool) :
    methodCount (proto'.methodList required' inst') = methodCount (proto.methodList required' inst') := by
  by_cases same : (required', inst') = (required, inst)
  · obtain ⟨rfl, rfl⟩ := Prod.mk.inj same
    cases here : proto.methodList required' inst' with
    | none => rw [fixed.none here, here]
    | some mlist =>
        obtain ⟨mlist', there, list⟩ := fixed.some mlist here
        rw [there]
        exact list.perm.length_eq.trans (List.length_map _)
  · rw [fixed.others required' inst' same]

theorem FixedAt.methodsBefore (fixed : FixedAt runtime required inst proto proto') (required' inst' : Bool) :
    methodsBefore proto' required' inst' = methodsBefore proto required' inst' := by
  have count := methodCount_of_fixedAt fixed
  have first : methodCount proto'.instanceMethods = methodCount proto.instanceMethods := count true true
  have second : methodCount proto'.classMethods = methodCount proto.classMethods := count true false
  have third : methodCount proto'.optionalInstanceMethods = methodCount proto.optionalInstanceMethods := count false true
  cases required' <;> cases inst' <;> simp only [Protocols.methodsBefore, first, second, third]

theorem FixedAt.methodTotal (fixed : FixedAt runtime required inst proto proto') : methodTotal proto' = methodTotal proto := by
  have last : methodCount proto'.optionalClassMethods = methodCount proto.optionalClassMethods := methodCount_of_fixedAt fixed false false
  rw [Protocols.methodTotal, fixed.methodsBefore, last, Protocols.methodTotal]

theorem FixedAt.covered (fixed : FixedAt runtime required inst proto proto') (covered : Covered proto) : Covered proto' := by
  intro extTypes' types'
  have lengths := fixed.types
  rw [types', Option.map_some] at lengths
  obtain ⟨extTypes, types, length⟩ := Option.map_eq_some_iff.mp lengths.symm
  rw [fixed.methodTotal, ← length]
  exact covered extTypes types

/-- All lists can be trusted. -/
def Trusted (runtime : Runtime) (proto : Protocol) : Prop :=
  ∀ required inst mlist, proto.methodList required inst = some mlist → mlist.Trusted runtime

theorem FixedList.trusted (fixed : FixedList runtime mlist mlist') : mlist'.Trusted runtime :=
  ⟨fun _ => fixed.ready.uniqued, fun fixedUp => ⟨fixed.ready.uniqued, fixed.ready.sorted fixedUp⟩⟩

theorem FixedAt.trusted (fixed : FixedAt runtime required inst proto proto') (trusted : Trusted runtime proto) : Trusted runtime proto' := by
  intro required' inst' mlist' there
  by_cases same : (required', inst') = (required, inst)
  · obtain ⟨rfl, rfl⟩ := Prod.mk.inj same
    cases here : proto.methodList required' inst' with
    | none =>
        rw [fixed.none here, here] at there
        exact nomatch there
    | some mlist =>
        obtain ⟨mlist'', eq, list⟩ := fixed.some mlist here
        obtain rfl := Option.some.inj (eq.symm.trans there)
        exact list.trusted
  · exact trusted required' inst' mlist' (fixed.others required' inst' same ▸ there)

inductive FixedLists (runtime : Runtime) : Option MethodList → Option MethodList → Prop where
  | none : FixedLists runtime none none
  | some {mlist mlist' : MethodList} : FixedList runtime mlist mlist' → FixedLists runtime (some mlist) (some mlist')

theorem FixedAt.lists (fixed : FixedAt runtime required inst proto proto') :
    FixedLists runtime (proto.methodList required inst) (proto'.methodList required inst) := by
  cases here : proto.methodList required inst with
  | none =>
      rw [fixed.none here, here]
      exact .none
  | some mlist =>
      obtain ⟨mlist', there, list⟩ := fixed.some mlist here
      rw [there]
      exact .some list

@[simp] theorem isFixedUp_setFixedUp : (proto.setFixedUp runtime).isFixedUp runtime := by
  have masked : ~~~fixedUpMask &&& fixedUpMask = 0#32 := rfl
  have marked : fixedUpProtocol runtime &&& fixedUpMask = fixedUpProtocol runtime := by
    rw [fixedUpProtocol]
    split <;> rfl
  refine decide_eq_true ?_
  show (proto.flags &&& ~~~fixedUpMask ||| fixedUpProtocol runtime) &&& fixedUpMask = fixedUpProtocol runtime
  rw [BitVec.and_or_distrib_right, BitVec.and_assoc, masked, marked, BitVec.and_zero, BitVec.zero_or]

@[simp] theorem isCanonical_setFixedUp : (proto.setFixedUp runtime).isCanonical runtime = proto.isCanonical runtime := by
  have kept : (proto.flags &&& ~~~fixedUpMask ||| fixedUpProtocol runtime) &&& canonicalProtocol runtime =
      proto.flags &&& canonicalProtocol runtime := by
    have apart : fixedUpProtocol runtime &&& canonicalProtocol runtime = 0#32 := by
      rw [fixedUpProtocol, canonicalProtocol]
      split <;> rfl
    have inside : ~~~fixedUpMask &&& canonicalProtocol runtime = canonicalProtocol runtime := by
      rw [canonicalProtocol]
      split <;> rfl
    rw [BitVec.and_or_distrib_right, BitVec.and_assoc, apart, inside, BitVec.or_zero]
  show decide ((proto.flags &&& ~~~fixedUpMask ||| fixedUpProtocol runtime) &&& canonicalProtocol runtime ≠ 0) = _
  rw [kept]
  rfl

theorem isFixedUp_fixupMethodLists (proto : Protocol) : (fixupMethodLists runtime proto).isFixedUp runtime := isFixedUp_setFixedUp

theorem kept_fixupMethodLists (proto : Protocol) :
    (fixupMethodLists runtime proto).isa = proto.isa ∧ (fixupMethodLists runtime proto).mangledName = proto.mangledName ∧
      (fixupMethodLists runtime proto).protocols = proto.protocols ∧
      (fixupMethodLists runtime proto).isCanonical runtime = proto.isCanonical runtime := by
  have kept {proto : Protocol} {required inst : Bool} := @kept_fixupProtocolMethodList runtime proto required inst
  obtain ⟨isa, mangledName, protocols, flags⟩ := ((@kept proto true true).trans (@kept _ true false)).trans ((@kept _ false true).trans (@kept _ false false))
  refine ⟨isa, mangledName, protocols, ?_⟩
  rw [fixupMethodLists, isCanonical_setFixedUp, Protocol.isCanonical, flags, Protocol.isCanonical]

/-- A protocol whose lists can be trusted, and what it was before it was fixed up. -/
structure Fixed (runtime : Runtime) (proto proto' : Protocol) : Prop where
  lists : ∀ required inst, FixedLists runtime (proto.methodList required inst) (proto'.methodList required inst)
  trusted : Trusted runtime proto'
  covered : Covered proto'

theorem fixed_fixupMethodLists (trusted : Trusted runtime proto) (covered : Covered proto) :
    Fixed runtime proto (fixupMethodLists runtime proto) := by
  rw [fixupMethodLists]
  have first := @fixedAt_fixupProtocolMethodList runtime proto true true (trusted true true) covered
  generalize fixupProtocolMethodList runtime proto true true = proto₁ at first
  have second := @fixedAt_fixupProtocolMethodList runtime proto₁ true false (first.trusted trusted true false) (first.covered covered)
  generalize fixupProtocolMethodList runtime proto₁ true false = proto₂ at second
  have trusted₂ := second.trusted (first.trusted trusted)
  have covered₂ := second.covered (first.covered covered)
  have third := @fixedAt_fixupProtocolMethodList runtime proto₂ false true (trusted₂ false true) covered₂
  generalize fixupProtocolMethodList runtime proto₂ false true = proto₃ at third
  have trusted₃ := third.trusted trusted₂
  have covered₃ := third.covered covered₂
  have fourth := @fixedAt_fixupProtocolMethodList runtime proto₃ false false (trusted₃ false false) covered₃
  generalize fixupProtocolMethodList runtime proto₃ false false = proto₄ at fourth
  refine ⟨fun required inst => ?_, fourth.trusted trusted₃, fourth.covered covered₃⟩
  · show FixedLists runtime (proto.methodList required inst) (proto₄.methodList required inst)
    cases required with
    | true =>
        cases inst with
        | true =>
            rw [fourth.others true true nofun, third.others true true nofun, second.others true true nofun]
            exact first.lists
        | false =>
            rw [fourth.others true false nofun, third.others true false nofun, ← first.others true false nofun]
            exact second.lists
    | false =>
        cases inst with
        | true =>
            rw [fourth.others false true nofun, ← first.others false true nofun, ← second.others false true nofun]
            exact third.lists
        | false =>
            rw [← first.others false false nofun, ← second.others false false nofun, ← third.others false false nofun]
            exact fourth.lists

end ObjcDyld.Protocols
