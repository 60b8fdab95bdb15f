import ObjcDyld.Protocols.Fixup

/-!
# Adopted protocols

`fixupProtocol` goes through the protocols that a protocol adopts, and those that they adopt. Every
protocol that is marked has lists that can be searched, and adopts only protocols that are marked.
-/

namespace ObjcDyld.Protocols

open MethodLists

variable {runtime : Runtime} {store store' : Store} {proto sub : ℕ}

def subs (runtime : Runtime) (store : Store) (proto : ℕ) : List ℕ :=
  ((store.protocol proto).protocols.getD []).map (store.remapProtocol runtime)

def Adopts (runtime : Runtime) (store : Store) (proto sub : ℕ) : Prop := sub ∈ subs runtime store proto

/-- A protocol and all that it adopts, directly or through others. -/
def Reaches (runtime : Runtime) (store : Store) : ℕ → ℕ → Prop := Relation.ReflTransGen (Adopts runtime store)

/-- No protocol adopts itself, directly or through others. -/
def Acyclic (runtime : Runtime) (store : Store) : Prop := WellFounded fun sub proto => Adopts runtime store proto sub

/-- The protocols of a process. -/
structure Sound (runtime : Runtime) (store : Store) : Prop where
  acyclic : Acyclic runtime store
  named : ∀ proto, (store.protocol proto).isa = .protocol →
    (store.protocol proto).isCanonical runtime ∨ (store.getProtocol (store.protocol proto).mangledName).isSome
  getProtocol : ∀ name proto, store.getProtocol name = some proto → (store.protocol proto).isa = .protocol
  adopted : ∀ proto, ∀ ref ∈ (store.protocol proto).protocols.getD [], (store.protocol ref).isa = .protocol
  building : ∀ proto, (store.protocol proto).isa ≠ .protocol →
    (store.protocol proto).isFixedUp runtime = false ∧ (store.protocol proto).extendedMethodTypes = none
  trusted : ∀ proto, Trusted runtime (store.protocol proto)
  covered : ∀ proto, Covered (store.protocol proto)
  ready : ∀ proto, (store.protocol proto).isFixedUp runtime →
    ∀ required inst mlist, (store.protocol proto).methodList required inst = some mlist → mlist.Ready runtime
  closed : ∀ proto, (store.protocol proto).isFixedUp runtime → ∀ sub, Adopts runtime store proto sub →
    (store.protocol sub).isFixedUp runtime

theorem Sound.remapProtocol (sound : Sound runtime store) {ref : ℕ} (complete : (store.protocol ref).isa = .protocol) :
    (store.protocol (store.remapProtocol runtime ref)).isa = .protocol := by
  rw [Store.remapProtocol]
  split
  next => exact complete
  next =>
    cases named : store.getProtocol (store.protocol ref).mangledName with
    | none => exact complete
    | some proto => exact sound.getProtocol _ proto named

theorem Sound.complete_of_adopts (sound : Sound runtime store) (adopts : Adopts runtime store proto sub) : (store.protocol sub).isa = .protocol := by
  obtain ⟨ref, member, rfl⟩ := List.mem_map.mp adopts
  exact sound.remapProtocol (sound.adopted proto ref member)

theorem FixedLists.ready {before after : Option MethodList} {mlist : MethodList} (lists : FixedLists runtime before after)
    (there : after = Option.some mlist) : mlist.Ready runtime := by
  cases lists with
  | none => exact nomatch there
  | some list => exact Option.some.inj there ▸ list.ready

/-- Some protocols, of those in a set, were fixed up, each after those that it adopts. -/
structure Fixes (runtime : Runtime) (among : ℕ → Prop) (store store' : Store) : Prop where
  getProtocol : store'.getProtocol = store.getProtocol
  protocol : ∀ proto, store'.protocol proto = store.protocol proto ∨ (store.protocol proto).isFixedUp runtime = false ∧ among proto ∧
    store'.protocol proto = fixupMethodLists runtime (store.protocol proto)
  closed : ∀ proto, (store.protocol proto).isFixedUp runtime = false → (store'.protocol proto).isFixedUp runtime →
    ∀ sub, Adopts runtime store proto sub → (store'.protocol sub).isFixedUp runtime

variable {among among' : ℕ → Prop}

theorem Fixes.refl (store : Store) : Fixes runtime among store store :=
  ⟨rfl, fun _ => .inl rfl, fun _ raw marked => nomatch raw.symm.trans marked⟩

theorem Fixes.mono (fixes : Fixes runtime among store store') (le : ∀ proto, among proto → among' proto) :
    Fixes runtime among' store store' :=
  ⟨fixes.getProtocol, fun proto => (fixes.protocol proto).imp_right fun fixed => ⟨fixed.1, le proto fixed.2.1, fixed.2.2⟩, fixes.closed⟩

theorem Fixes.protocols (fixes : Fixes runtime among store store') (proto : ℕ) :
    (store'.protocol proto).protocols = (store.protocol proto).protocols := by
  obtain same | ⟨-, -, fixed⟩ := fixes.protocol proto
  · rw [same]
  · rw [fixed]
    exact (kept_fixupMethodLists _).2.2.1

theorem Fixes.isa (fixes : Fixes runtime among store store') (proto : ℕ) : (store'.protocol proto).isa = (store.protocol proto).isa := by
  obtain same | ⟨-, -, fixed⟩ := fixes.protocol proto
  · rw [same]
  · rw [fixed]
    exact (kept_fixupMethodLists _).1

theorem Fixes.name (fixes : Fixes runtime among store store') (proto : ℕ) :
    (store'.protocol proto).mangledName = (store.protocol proto).mangledName ∧
      (store'.protocol proto).isCanonical runtime = (store.protocol proto).isCanonical runtime := by
  obtain same | ⟨-, -, fixed⟩ := fixes.protocol proto
  · rw [same]
    exact ⟨rfl, rfl⟩
  · rw [fixed]
    exact ⟨(kept_fixupMethodLists _).2.1, (kept_fixupMethodLists _).2.2.2⟩

theorem Fixes.remapProtocol (fixes : Fixes runtime among store store') (ref : ℕ) :
    store'.remapProtocol runtime ref = store.remapProtocol runtime ref := by
  obtain ⟨mangledName, isCanonical⟩ := fixes.name ref
  rw [Store.remapProtocol, Store.remapProtocol, fixes.getProtocol, mangledName, isCanonical]

theorem Fixes.subs (fixes : Fixes runtime among store store') : subs runtime store' = subs runtime store := by
  funext proto
  rw [Protocols.subs, Protocols.subs, fixes.protocols]
  exact List.map_congr_left fun ref _ => fixes.remapProtocol ref

theorem Fixes.adopts (fixes : Fixes runtime among store store') : Adopts runtime store' = Adopts runtime store := by
  funext proto sub
  rw [Adopts, fixes.subs, Adopts]

theorem Fixes.reaches (fixes : Fixes runtime among store store') : Reaches runtime store' = Reaches runtime store := by
  rw [Reaches, fixes.adopts, Reaches]

theorem Fixes.isFixedUp (fixes : Fixes runtime among store store') {proto : ℕ} (fixedUp : (store.protocol proto).isFixedUp runtime) :
    (store'.protocol proto).isFixedUp runtime := by
  obtain same | ⟨-, -, fixed⟩ := fixes.protocol proto
  · rw [same]
    exact fixedUp
  · rw [fixed]
    exact isFixedUp_fixupMethodLists _

theorem acyclic_of_subs (same : Protocols.subs runtime store' = Protocols.subs runtime store) (acyclic : Acyclic runtime store) : Acyclic runtime store' := by
  have adopts : Adopts runtime store' = Adopts runtime store := by
    funext proto sub
    rw [Adopts, same, Adopts]
  rw [Acyclic, adopts]
  exact acyclic

theorem Fixes.acyclic (fixes : Fixes runtime among store store') (acyclic : Acyclic runtime store) : Acyclic runtime store' :=
  acyclic_of_subs fixes.subs acyclic

theorem Fixes.trans {store'' : Store} (first : Fixes runtime among store store') (second : Fixes runtime among store' store'') :
    Fixes runtime among store store'' := by
  refine ⟨second.getProtocol.trans first.getProtocol, fun proto => ?_, fun proto raw marked sub adopts => ?_⟩
  · obtain same | ⟨raw, inside, fixed⟩ := first.protocol proto
    · rw [← same]
      exact second.protocol proto
    · obtain same' | ⟨raw', -, -⟩ := second.protocol proto
      · exact .inr ⟨raw, inside, same'.trans fixed⟩
      · rw [fixed, isFixedUp_fixupMethodLists] at raw'
        exact nomatch raw'
  · cases middle : (store'.protocol proto).isFixedUp runtime with
    | true => exact second.isFixedUp (first.closed proto raw middle sub adopts)
    | false => exact second.closed proto middle marked sub (first.adopts ▸ adopts)

theorem Fixes.fixed (fixes : Fixes runtime among store store') (sound : Sound runtime store) (proto : ℕ) :
    store'.protocol proto = store.protocol proto ∨ Fixed runtime (store.protocol proto) (store'.protocol proto) := by
  obtain same | ⟨-, -, fixed⟩ := fixes.protocol proto
  · exact .inl same
  · rw [fixed]
    exact .inr (fixed_fixupMethodLists (sound.trusted proto) (sound.covered proto))

theorem Fixes.sound (fixes : Fixes runtime among store store') (sound : Sound runtime store)
    (complete : ∀ proto, among proto → (store.protocol proto).isa = .protocol) : Sound runtime store' := by
  refine ⟨fixes.acyclic sound.acyclic, fun proto complete => ?_, fun name proto named => ?_, fun proto ref member => ?_, fun proto incomplete => ?_,
    fun proto => ?_, fun proto => ?_, fun proto marked => ?_, fun proto marked sub inside => ?_⟩
  · rw [fixes.isa] at complete
    rw [fixes.getProtocol, (fixes.name proto).1, (fixes.name proto).2]
    exact sound.named proto complete
  · rw [fixes.isa]
    exact sound.getProtocol name proto (fixes.getProtocol ▸ named)
  · rw [fixes.isa]
    exact sound.adopted proto ref (fixes.protocols proto ▸ member)
  · rw [fixes.isa] at incomplete
    obtain same | ⟨-, inside, -⟩ := fixes.protocol proto
    · rw [same]
      exact sound.building proto incomplete
    · exact absurd (complete proto inside) incomplete
  · obtain same | fixed := fixes.fixed sound proto
    · rw [same]
      exact sound.trusted proto
    · exact fixed.trusted
  · obtain same | fixed := fixes.fixed sound proto
    · rw [same]
      exact sound.covered proto
    · exact fixed.covered
  · obtain same | fixed := fixes.fixed sound proto
    · rw [same] at marked ⊢
      exact sound.ready proto marked
    · intro required inst mlist' there
      exact (fixed.lists required inst).ready there
  · rw [fixes.adopts] at inside
    cases before : (store.protocol proto).isFixedUp runtime with
    | true => exact fixes.isFixedUp (sound.closed proto before sub inside)
    | false => exact fixes.closed proto before marked sub inside

/-- What one call leaves. -/
structure FixedUp (runtime : Runtime) (store : Store) (proto : ℕ) (store' : Store) : Prop where
  fixes : Fixes runtime (Reaches runtime store proto) store store'
  marked : (store'.protocol proto).isFixedUp runtime

theorem Reaches.complete (sound : Sound runtime store) (reaches : Reaches runtime store proto sub)
    (complete : (store.protocol proto).isa = .protocol) : (store.protocol sub).isa = .protocol := by
  obtain rfl | ⟨middle, -, adopts⟩ := Relation.ReflTransGen.cases_tail reaches
  · exact complete
  · exact sound.complete_of_adopts adopts

theorem FixedUp.sound (fixedUp : FixedUp runtime store proto store') (sound : Sound runtime store)
    (complete : (store.protocol proto).isa = .protocol) : Sound runtime store' :=
  fixedUp.fixes.sound sound fun _ reaches => reaches.complete sound complete

theorem Acyclic.not_reaches (acyclic : Acyclic runtime store) (adopts : Adopts runtime store proto sub) : ¬Reaches runtime store sub proto := by
  intro reaches
  have cycle : Relation.TransGen (fun sub proto => Adopts runtime store proto sub) proto proto :=
    Relation.transGen_swap.mpr (Relation.TransGen.head' adopts reaches)
  exact (WellFounded.transGen acyclic).irrefl.irrefl proto cycle

/-- One round of the loop over the adopted protocols. -/
def fixupSub (runtime : Runtime) (fuel : ℕ) (store : Store) (ref : ℕ) : Option Store :=
  if (store.protocol (store.remapProtocol runtime ref)).isFixedUp runtime then some store
  else fixupProtocol runtime fuel store (store.remapProtocol runtime ref)

theorem fixupProtocol_succ (fuel : ℕ) : fixupProtocol runtime (fuel + 1) store proto =
    (((store.protocol proto).protocols.getD []).foldlM (fixupSub runtime fuel) store).map fun store =>
      store.update proto (fixupMethodLists runtime (store.protocol proto)) := by
  rw [fixupProtocol, Option.map_eq_bind]
  rfl

/-- The protocols that a protocol reaches through the ones that it adopts. -/
def Below (runtime : Runtime) (store : Store) (proto : ℕ) (p : ℕ) : Prop := ∃ sub, Adopts runtime store proto sub ∧ Reaches runtime store sub p

variable {fuel : ℕ} {middle : Store}

theorem fixes_foldlM_fixupSub (acyclic : Acyclic runtime store)
    (inner : ∀ store proto store', Acyclic runtime store → (store.protocol proto).isFixedUp runtime = false →
      fixupProtocol runtime fuel store proto = some store' → FixedUp runtime store proto store')
    (refs : List ℕ) (inside : ∀ ref ∈ refs, Adopts runtime store proto (store.remapProtocol runtime ref))
    (fixes : Fixes runtime (Below runtime store proto) store middle) (run : refs.foldlM (fixupSub runtime fuel) middle = some store') :
    Fixes runtime (Below runtime store proto) store store' ∧
      (∀ ref ∈ refs, (store'.protocol (store.remapProtocol runtime ref)).isFixedUp runtime) ∧
      ∀ p, (middle.protocol p).isFixedUp runtime → (store'.protocol p).isFixedUp runtime := by
  induction refs generalizing middle with
  | nil =>
      obtain rfl := Option.some.inj run
      exact ⟨fixes, nofun, fun _ => id⟩
  | cons ref refs ih =>
      rw [List.foldlM_cons] at run
      obtain ⟨after, round, rest⟩ := Option.bind_eq_some_iff.mp run
      have adopts := inside ref List.mem_cons_self
      have fixed : Fixes runtime (Below runtime store proto) store after ∧ (after.protocol (store.remapProtocol runtime ref)).isFixedUp runtime ∧
          ∀ p, (middle.protocol p).isFixedUp runtime → (after.protocol p).isFixedUp runtime := by
        rw [fixupSub, fixes.remapProtocol] at round
        split at round
        next fixedUp =>
          obtain rfl := Option.some.inj round
          exact ⟨fixes, fixedUp, fun _ => id⟩
        next raw =>
          obtain ⟨fixes', marked⟩ := inner middle _ after (fixes.acyclic acyclic) (Bool.eq_false_iff.mpr raw) round
          have below (p : ℕ) (reaches : Reaches runtime middle (store.remapProtocol runtime ref) p) : Below runtime store proto p :=
            ⟨_, adopts, fixes.reaches ▸ reaches⟩
          exact ⟨fixes.trans (fixes'.mono below), marked, fun p fixedUp => fixes'.isFixedUp fixedUp⟩
      obtain ⟨fixes', marked, kept⟩ := fixed
      obtain ⟨fixes'', others, kept'⟩ := ih (fun other member => inside other (List.mem_cons_of_mem _ member)) fixes' rest
      refine ⟨fixes'', fun other member => ?_, fun p fixedUp => kept' p (kept p fixedUp)⟩
      obtain rfl | member := List.mem_cons.mp member
      · exact kept' _ marked
      · exact others other member

theorem fixedUp_update (acyclic : Acyclic runtime store) (raw : (store.protocol proto).isFixedUp runtime = false)
    (fixes : Fixes runtime (Below runtime store proto) store middle)
    (subs : ∀ sub, Adopts runtime store proto sub → (middle.protocol sub).isFixedUp runtime) :
    FixedUp runtime store proto (middle.update proto (fixupMethodLists runtime (middle.protocol proto))) ∧
      middle.protocol proto = store.protocol proto := by
  have same : middle.protocol proto = store.protocol proto := by
    obtain same | ⟨-, ⟨sub, adopts, reaches⟩, -⟩ := fixes.protocol proto
    · exact same
    · exact absurd reaches (acyclic.not_reaches adopts)
  generalize update : middle.update proto (fixupMethodLists runtime (middle.protocol proto)) = store'
  have others (p : ℕ) (other : p ≠ proto) : store'.protocol p = middle.protocol p := by
    rw [← update]
    exact Function.update_of_ne other ..
  have here : store'.protocol proto = fixupMethodLists runtime (store.protocol proto) := by
    rw [← update, same]
    exact Function.update_self ..
  have marked : (store'.protocol proto).isFixedUp runtime := by
    rw [here]
    exact isFixedUp_fixupMethodLists _
  have kept (p : ℕ) (fixedUp : (middle.protocol p).isFixedUp runtime) : (store'.protocol p).isFixedUp runtime := by
    by_cases mine : p = proto
    · rw [mine]
      exact marked
    · rw [others p mine]
      exact fixedUp
  refine ⟨⟨⟨?_, fun p => ?_, fun p raw' marked' sub adopts => ?_⟩, marked⟩, same⟩
  · rw [← update]
    exact fixes.getProtocol
  · by_cases mine : p = proto
    · subst mine
      exact .inr ⟨raw, .refl, here⟩
    · rw [others p mine]
      exact (fixes.protocol p).imp_right fun ⟨raw, ⟨sub, adopts, reaches⟩, fixed⟩ => ⟨raw, .head adopts reaches, fixed⟩
  · by_cases mine : p = proto
    · subst mine
      exact kept sub (subs sub adopts)
    · rw [others p mine] at marked'
      exact kept sub (fixes.closed p raw' marked' sub adopts)

theorem fixedUp_of_fixupProtocol (acyclic : Acyclic runtime store) (raw : (store.protocol proto).isFixedUp runtime = false)
    (run : fixupProtocol runtime fuel store proto = some store') :
    FixedUp runtime store proto store' ∧ store'.protocol proto = fixupMethodLists runtime (store.protocol proto) := by
  induction fuel generalizing store proto store' with
  | zero => exact nomatch run
  | succ fuel ih =>
      rw [fixupProtocol_succ] at run
      obtain ⟨middle, loop, rfl⟩ := Option.map_eq_some_iff.mp run
      obtain ⟨fixes, marked, -⟩ := fixes_foldlM_fixupSub acyclic (fun store proto store' acyclic raw run => (ih acyclic raw run).1) _
        (fun ref member => List.mem_map_of_mem member) (Fixes.refl store) loop
      have subs (sub : ℕ) (adopts : Adopts runtime store proto sub) : (middle.protocol sub).isFixedUp runtime := by
        obtain ⟨ref, member, rfl⟩ := List.mem_map.mp adopts
        exact marked ref member
      obtain ⟨fixedUp, same⟩ := fixedUp_update acyclic raw fixes subs
      refine ⟨fixedUp, ?_⟩
      rw [← same]
      exact Function.update_self ..

theorem isSome_foldlM_fixupSub (acyclic : Acyclic runtime store) (refs : List ℕ)
    (inner : ∀ ref ∈ refs, ∀ store', subs runtime store' = subs runtime store →
      (fixupProtocol runtime fuel store' (store.remapProtocol runtime ref)).isSome)
    (fixes : Fixes runtime (fun _ => True) store middle) : (refs.foldlM (fixupSub runtime fuel) middle).isSome := by
  induction refs generalizing middle with
  | nil => rfl
  | cons ref refs ih =>
      have inner' (other : ℕ) (member : other ∈ refs) := inner other (List.mem_cons_of_mem _ member)
      rw [List.foldlM_cons, fixupSub, fixes.remapProtocol]
      split
      next => exact ih inner' fixes
      next raw =>
        obtain ⟨after, round⟩ := Option.isSome_iff_exists.mp (inner ref List.mem_cons_self middle fixes.subs)
        have fixedUp := (fixedUp_of_fixupProtocol (fixes.acyclic acyclic) (Bool.eq_false_iff.mpr raw) round).1
        rw [round]
        exact ih inner' (fixes.trans (fixedUp.fixes.mono fun _ _ => trivial))

theorem exists_bound {enough : ℕ → ℕ → Prop} (refs : List ℕ) (each : ∀ ref ∈ refs, ∃ bound, ∀ fuel ≥ bound, enough ref fuel) :
    ∃ bound, ∀ fuel ≥ bound, ∀ ref ∈ refs, enough ref fuel := by
  induction refs with
  | nil => exact ⟨0, nofun⟩
  | cons ref refs ih =>
      obtain ⟨first, here⟩ := each ref List.mem_cons_self
      obtain ⟨second, others⟩ := ih fun other member => each other (List.mem_cons_of_mem _ member)
      refine ⟨max first second, fun fuel le other member => ?_⟩
      obtain rfl | member := List.mem_cons.mp member
      · exact here fuel (le_trans (le_max_left ..) le)
      · exact others fuel (le_trans (le_max_right ..) le) other member

theorem exists_fuel_fixupProtocol (acyclic : Acyclic runtime store) (proto : ℕ) :
    ∃ bound, ∀ fuel ≥ bound, ∀ store', subs runtime store' = subs runtime store → (fixupProtocol runtime fuel store' proto).isSome := by
  induction proto using acyclic.induction with
  | h proto ih =>
      obtain ⟨bound, enough⟩ := exists_bound (subs runtime store proto) ih
      refine ⟨bound + 1, fun fuel le store' same => ?_⟩
      obtain ⟨fuel, rfl⟩ : ∃ rest, fuel = rest + 1 := ⟨fuel - 1, by omega⟩
      rw [fixupProtocol_succ, Option.isSome_map]
      refine isSome_foldlM_fixupSub (acyclic_of_subs same acyclic) _ (fun ref member store'' same' => ?_) (Fixes.refl store')
      have inside : store'.remapProtocol runtime ref ∈ subs runtime store proto := by
        rw [← same]
        exact List.mem_map_of_mem member
      exact enough fuel (Nat.le_of_succ_le_succ le) _ inside store'' (same'.trans same)

end ObjcDyld.Protocols
