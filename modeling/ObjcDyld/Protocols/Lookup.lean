import ObjcDyld.Protocols.Adoption

/-!
# Looking up methods of protocols

In a protocol whose lists were fixed up, the recursive lookup finds a method exactly if the protocol or one
that it adopts declares it.
-/

namespace ObjcDyld.Protocols

open MethodLists

variable {runtime : Runtime} {store store' : Store} {proto sub sel fuel : ℕ} {required inst : Bool}

/-- A protocol declares a method in one of its lists. -/
def Declares (runtime : Runtime) (store : Store) (required inst : Bool) (sel proto : ℕ) : Prop :=
  ∃ mlist, (store.protocol proto).methodList required inst = some mlist ∧ ∃ meth ∈ mlist.methods, runtime.registerName meth.name = sel

/-- A protocol, or one that it adopts, declares the method. -/
def Provides (runtime : Runtime) (store : Store) (required inst : Bool) (sel proto : ℕ) : Prop :=
  ∃ sub, Reaches runtime store proto sub ∧ Declares runtime store required inst sel sub

theorem provides_iff : Provides runtime store required inst sel proto ↔
    Declares runtime store required inst sel proto ∨ ∃ sub ∈ subs runtime store proto, Provides runtime store required inst sel sub := by
  constructor
  · rintro ⟨last, reaches, declares⟩
    obtain rfl | ⟨sub, adopts, reaches⟩ := Relation.ReflTransGen.cases_head reaches
    · exact .inl declares
    · exact .inr ⟨sub, adopts, last, reaches, declares⟩
  · rintro (declares | ⟨sub, adopts, last, reaches, declares⟩)
    · exact ⟨proto, .refl, declares⟩
    · exact ⟨last, .head adopts reaches, declares⟩

theorem declares_of_fixedLists {before after : Option MethodList} (lists : FixedLists runtime before after) :
    (∃ mlist, after = some mlist ∧ ∃ meth ∈ mlist.methods, runtime.registerName meth.name = sel) ↔
      ∃ mlist, before = some mlist ∧ ∃ meth ∈ mlist.methods, runtime.registerName meth.name = sel := by
  cases lists with
  | none => exact Iff.rfl
  | @some mlist mlist' list =>
      have same : (∃ meth ∈ mlist'.methods, runtime.registerName meth.name = sel) ↔
          ∃ meth ∈ mlist.methods, runtime.registerName meth.name = sel := by
        constructor
        · rintro ⟨meth, member, named⟩
          obtain ⟨original, member', rfl⟩ := List.mem_map.mp (list.perm.mem_iff.mp member)
          exact ⟨original, member', (runtime.registered original.name).symm.trans named⟩
        · rintro ⟨meth, member, named⟩
          exact ⟨_, list.perm.mem_iff.mpr (List.mem_map_of_mem member), (runtime.registered meth.name).trans named⟩
      constructor
      · rintro ⟨there, eq, declared⟩
        obtain rfl := Option.some.inj eq
        exact ⟨mlist, rfl, same.mp declared⟩
      · rintro ⟨there, eq, declared⟩
        obtain rfl := Option.some.inj eq
        exact ⟨mlist', rfl, same.mpr declared⟩

theorem Fixes.provides {among : ℕ → Prop} (fixes : Fixes runtime among store store') (sound : Sound runtime store) :
    Provides runtime store' required inst sel proto ↔ Provides runtime store required inst sel proto := by
  have declares (p : ℕ) : Declares runtime store' required inst sel p ↔ Declares runtime store required inst sel p := by
    obtain same | fixed := fixes.fixed sound p
    · rw [Declares, same, Declares]
    · exact declares_of_fixedLists (fixed.lists required inst)
  simp only [Provides, fixes.reaches, declares]

structure Finds (runtime : Runtime) (store : Store) (required inst : Bool) (sel proto : ℕ) (found : Option Method) : Prop where
  sound : ∀ meth, found = some meth → meth.name = sel ∧ Provides runtime store required inst sel proto
  complete : Provides runtime store required inst sel proto → found.isSome

def searchList (runtime : Runtime) (store : Store) (required inst : Bool) (sel proto : ℕ) : Option Method :=
  ((store.protocol proto).methodList required inst).bind fun mlist => searchMethodListInline runtime mlist sel

theorem searchList_spec (sound : Sound runtime store) (marked : (store.protocol proto).isFixedUp runtime) :
    (∀ meth, searchList runtime store required inst sel proto = some meth →
      meth.name = sel ∧ Declares runtime store required inst sel proto) ∧
      (Declares runtime store required inst sel proto → (searchList runtime store required inst sel proto).isSome) := by
  cases here : (store.protocol proto).methodList required inst with
  | none =>
      refine ⟨fun meth found => ?_, fun ⟨mlist, there, _⟩ => nomatch here.symm.trans there⟩
      rw [searchList, here] at found
      exact nomatch found
  | some mlist =>
      have ready := sound.ready proto marked required inst mlist here
      have search : searchList runtime store required inst sel proto = mlist.methods.find? fun meth => meth.name = sel := by
        rw [searchList, here, Option.bind_some, searchMethodListInline_eq ready]
      rw [search]
      constructor
      · intro meth found
        have member := List.mem_of_find?_eq_some found
        have named : meth.name = sel := by simpa using List.find?_some found
        exact ⟨named, mlist, here, meth, member, (ready.uniqued meth member).trans named⟩
      · rintro ⟨mlist', there, meth, member, named⟩
        obtain rfl := Option.some.inj (here.symm.trans there)
        exact List.find?_isSome.mpr ⟨meth, member, decide_eq_true ((ready.uniqued meth member).symm.trans named)⟩

/-- One round of the loop over the adopted protocols. -/
def searchSub (runtime : Runtime) (store : Store) (required inst : Bool) (sel fuel : ℕ) (found : Option Method) (ref : ℕ) :
    Option (Option Method) :=
  match found with
  | some meth => some (some meth)
  | none => protocolGetMethodNolock runtime store sel required inst true fuel (store.remapProtocol runtime ref)

theorem protocolGetMethodNolock_succ (nonzero : sel ≠ 0) :
    protocolGetMethodNolock runtime store sel required inst true (fuel + 1) proto =
      match searchList runtime store required inst sel proto with
      | some meth => some (some meth)
      | none => ((store.protocol proto).protocols.getD []).foldlM (searchSub runtime store required inst sel fuel) none := by
  rw [protocolGetMethodNolock, if_neg nonzero]
  rfl

theorem foldlM_searchSub_some (refs : List ℕ) (meth : Method) :
    refs.foldlM (searchSub runtime store required inst sel fuel) (some meth) = some (some meth) := by
  induction refs with
  | nil => rfl
  | cons ref refs ih => exact ih

theorem foldlM_searchSub {found : Option Method} (refs : List ℕ)
    (inner : ∀ ref ∈ refs, ∀ found,
      protocolGetMethodNolock runtime store sel required inst true fuel (store.remapProtocol runtime ref) = some found →
      Finds runtime store required inst sel (store.remapProtocol runtime ref) found)
    (run : refs.foldlM (searchSub runtime store required inst sel fuel) none = some found) :
    (∀ meth, found = some meth → meth.name = sel ∧ ∃ ref ∈ refs, Provides runtime store required inst sel (store.remapProtocol runtime ref)) ∧
      ((∃ ref ∈ refs, Provides runtime store required inst sel (store.remapProtocol runtime ref)) → found.isSome) := by
  induction refs with
  | nil =>
      obtain rfl := Option.some.inj run
      exact ⟨nofun, fun ⟨_, member, _⟩ => nomatch member⟩
  | cons ref refs ih =>
      rw [List.foldlM_cons] at run
      obtain ⟨here, round, rest⟩ := Option.bind_eq_some_iff.mp run
      have first := inner ref List.mem_cons_self here round
      cases here with
      | some meth =>
          obtain rfl := Option.some.inj ((foldlM_searchSub_some refs meth).symm.trans rest)
          refine ⟨fun other eq => ?_, fun _ => rfl⟩
          exact ⟨(first.sound other eq).1, ref, List.mem_cons_self, (first.sound other eq).2⟩
      | none =>
          obtain ⟨sound, complete⟩ := ih (fun other member => inner other (List.mem_cons_of_mem _ member)) rest
          constructor
          · intro meth eq
            obtain ⟨named, other, member, provides⟩ := sound meth eq
            exact ⟨named, other, List.mem_cons_of_mem _ member, provides⟩
          · rintro ⟨other, member, provides⟩
            obtain rfl | member := List.mem_cons.mp member
            · exact nomatch first.complete provides
            · exact complete ⟨other, member, provides⟩

theorem finds_protocolGetMethodNolock (sound : Sound runtime store) (nonzero : sel ≠ 0) (marked : (store.protocol proto).isFixedUp runtime)
    {found : Option Method} (run : protocolGetMethodNolock runtime store sel required inst true fuel proto = some found) :
    Finds runtime store required inst sel proto found := by
  induction fuel generalizing proto found with
  | zero => exact nomatch run
  | succ fuel ih =>
      rw [protocolGetMethodNolock_succ nonzero] at run
      obtain ⟨own, declared⟩ := @searchList_spec runtime store proto sel required inst sound marked
      cases list : searchList runtime store required inst sel proto with
      | some meth =>
          rw [list] at run
          obtain rfl := Option.some.inj run
          refine ⟨fun other eq => ?_, fun _ => rfl⟩
          obtain ⟨named, declares⟩ := own other (list.trans eq)
          exact ⟨named, provides_iff.mpr (.inl declares)⟩
      | none =>
          rw [list] at run
          have inside (ref : ℕ) (member : ref ∈ (store.protocol proto).protocols.getD []) :
              Adopts runtime store proto (store.remapProtocol runtime ref) :=
            List.mem_map_of_mem member
          obtain ⟨sound', complete⟩ := foldlM_searchSub _ (fun ref member found run => ih (sound.closed proto marked _ (inside ref member)) run) run
          constructor
          · intro meth eq
            obtain ⟨named, ref, member, provides⟩ := sound' meth eq
            exact ⟨named, provides_iff.mpr (.inr ⟨_, inside ref member, provides⟩)⟩
          · intro provides
            obtain declares | ⟨sub, adopts, provides⟩ := provides_iff.mp provides
            · exact nomatch list ▸ declared declares
            · obtain ⟨ref, member, rfl⟩ := List.mem_map.mp adopts
              exact complete ⟨ref, member, provides⟩

theorem isSome_foldlM_searchSub {found : Option Method} (refs : List ℕ)
    (inner : ∀ ref ∈ refs,
      (protocolGetMethodNolock runtime store sel required inst true fuel (store.remapProtocol runtime ref)).isSome) :
    (refs.foldlM (searchSub runtime store required inst sel fuel) found).isSome := by
  induction refs generalizing found with
  | nil => rfl
  | cons ref refs ih =>
      have others (other : ℕ) (member : other ∈ refs) := inner other (List.mem_cons_of_mem _ member)
      rw [List.foldlM_cons]
      cases found with
      | some meth => exact ih others
      | none =>
          obtain ⟨next, round⟩ := Option.isSome_iff_exists.mp (inner ref List.mem_cons_self)
          rw [searchSub, round]
          exact ih others

theorem exists_fuel_protocolGetMethodNolock (sound : Sound runtime store) (nonzero : sel ≠ 0) (proto : ℕ) :
    ∃ bound, ∀ fuel ≥ bound, ∀ store', subs runtime store' = subs runtime store →
      (protocolGetMethodNolock runtime store' sel required inst true fuel proto).isSome := by
  induction proto using sound.acyclic.induction with
  | h proto ih =>
      obtain ⟨bound, enough⟩ := exists_bound (subs runtime store proto) ih
      refine ⟨bound + 1, fun fuel le store' same => ?_⟩
      obtain ⟨fuel, rfl⟩ : ∃ rest, fuel = rest + 1 := ⟨fuel - 1, by omega⟩
      rw [protocolGetMethodNolock_succ nonzero]
      split
      next => rfl
      next =>
        refine isSome_foldlM_searchSub _ fun ref member => enough fuel (Nat.le_of_succ_le_succ le) _ ?_ store' same
        rw [← same]
        exact List.mem_map_of_mem member

/-- What `protocol_getMethod` does before the lookup. -/
def fixupProtocolIfNeeded (runtime : Runtime) (fuel : ℕ) (store : Store) (proto : ℕ) : Option Store :=
  if (store.protocol proto).isFixedUp runtime then some store else fixupProtocol runtime fuel store proto

theorem protocolGetMethod_eq {recursive : Bool} : protocolGetMethod runtime fuel store proto sel required inst recursive =
    (fixupProtocolIfNeeded runtime fuel store proto).bind fun store' =>
      (protocolGetMethodNolock runtime store' sel required inst recursive fuel proto).map fun meth => (store', meth) := by
  rw [protocolGetMethod, fixupProtocolIfNeeded]
  simp only [Option.map_eq_bind]
  split <;> rfl

theorem fixedUp_of_fixupProtocolIfNeeded (acyclic : Acyclic runtime store) (run : fixupProtocolIfNeeded runtime fuel store proto = some store') :
    FixedUp runtime store proto store' := by
  rw [fixupProtocolIfNeeded] at run
  split at run
  next marked =>
    obtain rfl := Option.some.inj run
    exact ⟨Fixes.refl store, marked⟩
  next raw => exact (fixedUp_of_fixupProtocol acyclic (Bool.eq_false_iff.mpr raw) run).1

theorem protocolGetMethod_finds (sound : Sound runtime store) (complete : (store.protocol proto).isa = .protocol) (nonzero : sel ≠ 0) :
    ∃ bound, ∀ fuel ≥ bound, ∃ store' found, protocolGetMethod runtime fuel store proto sel required inst true = some (store', found) ∧
      Finds runtime store required inst sel proto found := by
  obtain ⟨first, fixing⟩ := exists_fuel_fixupProtocol sound.acyclic proto
  obtain ⟨second, searching⟩ := @exists_fuel_protocolGetMethodNolock runtime store sel required inst sound nonzero proto
  refine ⟨max first second, fun fuel le => ?_⟩
  have fixes : (fixupProtocolIfNeeded runtime fuel store proto).isSome := by
    rw [fixupProtocolIfNeeded]
    split
    next => rfl
    next => exact fixing fuel (le_trans (le_max_left ..) le) store rfl
  obtain ⟨store', fixup⟩ := Option.isSome_iff_exists.mp fixes
  have fixedUp := fixedUp_of_fixupProtocolIfNeeded sound.acyclic fixup
  have searches := searching fuel (le_trans (le_max_right ..) le) store' fixedUp.fixes.subs
  obtain ⟨found, search⟩ := Option.isSome_iff_exists.mp searches
  have finds := finds_protocolGetMethodNolock (fixedUp.sound sound complete) nonzero fixedUp.marked search
  refine ⟨store', found, ?_, fun meth eq => ?_, fun provides => finds.complete ((fixedUp.fixes.provides sound).mpr provides)⟩
  · rw [protocolGetMethod_eq, fixup, Option.bind_some, search, Option.map_some]
  · exact ⟨(finds.sound meth eq).1, (fixedUp.fixes.provides sound).mp (finds.sound meth eq).2⟩

end ObjcDyld.Protocols
