import ObjcDyld.Weak.TableInvariant

/-!
# Runs of the weak table

Every sequence of registrations, unregistrations and clearings leaves the table
representing the relation the sequence produces.  An entry that has gone out of
line is not given back when its last location is unregistered.
-/

namespace ObjcDyld.Weak

open Probing

variable {hash : ℕ → ℕ}

/-! ## The relation a sequence of calls produces -/

/-- The effect of a call on the registered pairs. -/
def WeakOp.apply (rel : Relation) : WeakOp → Relation
  | .register _ viability _ referent referrer =>
      if viability.forms referent then insert (referent, referrer) rel else rel
  | .unregister referent referrer => rel \ {(referent, referrer)}
  | .clear referent => {pair ∈ rel | pair.1 ≠ referent}

/--
What the callers promise: allocation succeeds, locations are addresses of weak
variables, and a location is not registered twice for one object.
-/
def WeakOp.Legal (rel : Relation) : WeakOp → Prop
  | .register calloc _ _ referent referrer =>
      (∀ n, 0 < calloc n ∧ calloc n < 2 ^ 64) ∧ Location referrer ∧ (referent, referrer) ∉ rel
  | .unregister _ referrer => Location referrer
  | .clear referent => referent ≠ 0

/-- Every call of a sequence is legal when its turn comes. -/
def LegalRun : List WeakOp → Relation → Prop
  | [], _ => True
  | op :: ops, rel => op.Legal rel ∧ LegalRun ops (op.apply rel)

/-- The pairs registered after a sequence of calls. -/
def relationAfter (ops : List WeakOp) (rel : Relation) : Relation := ops.foldl WeakOp.apply rel

/-- Registering a deallocating object halts the process when the caller asked for that. -/
def WeakOp.Halts : WeakOp → Prop
  | .register _ viability crashIfDeallocating _ _ =>
      viability.deallocating = some true ∧ crashIfDeallocating = true
  | _ => False

/--
A registration that forms no weak reference leaves the table alone, and answers nil or a tagged
pointer, or it halts.
-/
theorem weakRegisterNoLock_refused {calloc : ℕ → ℕ} {viability : Viability} {crash : Bool}
    {table : WeakTable} {referent r : ℕ} (refused : ¬ viability.forms referent) :
    (∃ answer, weakRegisterNoLock hash calloc viability crash table referent r =
      .ok (answer, table) ∧
        (answer = 0 ∨ answer = referent ∧ viability.isTaggedPointer = true)) ∨
    (weakRegisterNoLock hash calloc viability crash table referent r =
      .error .cannotFormWeakReference ∧ viability.deallocating = some true ∧ crash = true) := by
  unfold weakRegisterNoLock
  by_cases early : referent = 0 ∨ viability.isTaggedPointer = true
  · rw [if_pos early]
    exact Or.inl ⟨referent, rfl, early.imp_right fun tagged => ⟨rfl, tagged⟩⟩
  · rw [if_neg early]
    rw [not_or, Bool.not_eq_true] at early
    rcases viable : viability.deallocating with _ | _ | _
    · exact Or.inl ⟨0, rfl, Or.inl rfl⟩
    · exact absurd ⟨early.1, early.2, viable⟩ refused
    · cases crash with
      | false => exact Or.inl ⟨0, rfl, Or.inl rfl⟩
      | true => exact Or.inr ⟨rfl, rfl, rfl⟩

theorem TableInv.run {state : WeakState} {rel : Relation} (inv : TableInv hash state.table rel)
    (op : WeakOp) (legal : op.Legal rel) :
    (∃ state', op.run hash state = .ok state' ∧ TableInv hash state'.table (op.apply rel)) ∨
      (op.run hash state = .error .cannotFormWeakReference ∧ op.Halts) := by
  cases op with
  | register calloc viability crash referent r =>
      obtain ⟨alloc, loc, fresh⟩ := legal
      by_cases forms : viability.forms referent
      · obtain ⟨table', run, inv', -⟩ := inv.register crash alloc forms loc fresh
        refine Or.inl ⟨{ state with table := table' }, ?_, ?_⟩
        · rw [WeakOp.run, run]
          rfl
        · rwa [WeakOp.apply, if_pos forms]
      · rw [WeakOp.run, WeakOp.apply, if_neg forms]
        rcases weakRegisterNoLock_refused forms with ⟨answer, run, -⟩ | ⟨run, halts⟩
        · rw [run]
          exact Or.inl ⟨state, rfl, inv⟩
        · rw [run]
          exact Or.inr ⟨rfl, halts⟩
  | unregister referent r =>
      by_cases nil : referent = 0
      · have same : rel \ {(referent, r)} = rel := by
          refine Set.sdiff_singleton_eq_self fun mem => ?_
          exact (inv.valid referent r mem).1 nil
        refine Or.inl ⟨state, ?_, ?_⟩
        · rw [WeakOp.run, weakUnregisterNoLock, if_pos nil]
          rfl
        · rwa [WeakOp.apply, same]
      · obtain ⟨table', run, inv', -⟩ := inv.unregister nil legal.ne_zero
        refine Or.inl ⟨{ state with table := table' }, ?_, inv'⟩
        rw [WeakOp.run, run]
        rfl
  | clear referent =>
      obtain ⟨table', memory', run, inv', -⟩ := inv.clear legal state.memory
      refine Or.inl ⟨⟨table', memory'⟩, ?_, inv'⟩
      rw [WeakOp.run, run]
      rfl

theorem TableInv.runs {state : WeakState} {rel : Relation} (inv : TableInv hash state.table rel)
    (ops : List WeakOp) (legal : LegalRun ops rel) :
    (∃ state', ops.foldlM (WeakOp.run hash) state = .ok state' ∧
      TableInv hash state'.table (relationAfter ops rel)) ∨
    (ops.foldlM (WeakOp.run hash) state = .error .cannotFormWeakReference ∧
      ∃ op ∈ ops, op.Halts) := by
  induction ops generalizing state rel with
  | nil => exact Or.inl ⟨state, rfl, inv⟩
  | cons op ops ih =>
      rw [List.foldlM_cons]
      rcases inv.run op legal.1 with ⟨middle, run, inv'⟩ | ⟨run, halts⟩
      · rw [run, Loops.ok_bind]
        rcases ih inv' legal.2 with done | ⟨rest, later, mem, halts⟩
        · exact Or.inl done
        · exact Or.inr ⟨rest, later, List.mem_cons_of_mem op mem, halts⟩
      · rw [run, Loops.error_bind]
        exact Or.inr ⟨rfl, op, List.mem_cons_self, halts⟩

/-! ## What the table says about the relation -/

/-- The table represents exactly the relation, and no operation on it reports a bad table. -/
structure TableRepresents (hash : ℕ → ℕ) (table : WeakTable) (rel : Relation) : Prop where
  lookup_ends : ∀ o, o ≠ 0 → ∃ answer, weakEntryForReferent hash table o = .ok answer
  found : ∀ o r, (o, r) ∈ rel → HasEntry hash table o
  keyed : ∀ o i, o ≠ 0 → weakEntryForReferent hash table o = .ok (some i) →
    (table.entry i).referent = o
  once : ∀ o i r, weakEntryForReferent hash table o = .ok (some i) → (o, r) ∈ rel →
    (table.entry i).occurrences r = 1
  noOther : ∀ o i r, o ≠ 0 → weakEntryForReferent hash table o = .ok (some i) → r ≠ 0 →
    (o, r) ∉ rel → (table.entry i).occurrences r = 0
  removable : ∀ o i r, weakEntryForReferent hash table o = .ok (some i) → (o, r) ∈ rel →
    ∃ entry, removeReferrer hash (table.entry i) r = .ok (entry, true)

theorem TableInv.tableRepresents {table : WeakTable} {rel : Relation}
    (inv : TableInv hash table rel) : TableRepresents hash table rel := by
  classical
  obtain ⟨stored, stores, covers⟩ := inv.represents
  have entry : ∀ o i, o ≠ 0 → weakEntryForReferent hash table o = .ok (some i) →
      (table.entry i).referent = o ∧ Represents hash (table.entry i) (rel.locations o) := by
    intro o i ne answer
    rcases stores.lookup ne with ⟨missing, -⟩ | ⟨entries, bits, j, shaped, rfl, hj, rfl, found⟩
    · rw [missing] at answer
      cases answer
    · rw [found] at answer
      obtain rfl := Option.some.inj (Except.ok.inj answer)
      rw [shaped.entry_eq]
      exact ⟨rfl, covers.represented _ (mem_contents_entry.mpr ⟨ne, j, hj, rfl⟩)⟩
  refine ⟨fun o ne => ?_, fun o r mem => ?_, fun o i ne answer => (entry o i ne answer).1,
    fun o i r answer mem => ?_, fun o i r ne answer ne_r other => ?_, fun o i r answer mem => ?_⟩
  · rcases stores.lookup ne with ⟨missing, -⟩ | ⟨_, _, i, _, _, _, _, found⟩
    · exact ⟨none, missing⟩
    · exact ⟨some i, found⟩
  · exact (stores.hasEntry_iff (inv.valid o r mem).1).mpr (covers.covered o r mem)
  · obtain ⟨ne, loc⟩ := inv.valid o r mem
    rw [(entry o i ne answer).2.occurrences loc.ne_zero, if_pos (Relation.mem_locations.mpr mem)]
  · rw [(entry o i ne answer).2.occurrences ne_r,
      if_neg (fun mem => other (Relation.mem_locations.mp mem))]
  · obtain ⟨ne, loc⟩ := inv.valid o r mem
    obtain ⟨entry', flag, run, flag_iff, -⟩ := (entry o i ne answer).2.removeReferrer loc.ne_zero
    rw [flag_iff.mpr (Relation.mem_locations.mpr mem)] at run
    exact ⟨entry', run⟩

/--
After every legal sequence of calls the table represents exactly the registered
pairs; the sequence ends early only where a caller asked to crash on forming a
weak reference to a deallocating object.
-/
theorem runWeakOps_represents (hash : ℕ → ℕ) (memory : ℕ → ℕ) (ops : List WeakOp)
    (legal : LegalRun ops ∅) :
    (∃ state, runWeakOps hash memory ops = .ok state ∧
      TableRepresents hash state.table (relationAfter ops ∅)) ∨
    (runWeakOps hash memory ops = .error .cannotFormWeakReference ∧ ∃ op ∈ ops, op.Halts) := by
  have start : TableInv hash (WeakState.mk WeakTable.empty memory).table ∅ := tableInv_empty
  rcases start.runs ops legal with
    ⟨state, run, inv⟩ | halted
  · exact Or.inl ⟨state, run, inv.tableRepresents⟩
  · exact Or.inr halted

/-- An ordinary live object. -/
def viable : Viability := ⟨false, false, false, none⟩

/-- Register a location of a live object; `calloc` answers some fixed address. -/
def registerOp (referent referrer : ℕ) : WeakOp :=
  .register (fun _ => 4096) viable false referent referrer

theorem registerOp_legal {rel : Relation} {referent r : ℕ} (loc : Location r)
    (fresh : (referent, r) ∉ rel) : (registerOp referent r).Legal rel :=
  ⟨fun _ => show 0 < 4096 ∧ 4096 < 2 ^ 64 by decide, loc, fresh⟩

theorem runWeakOps_represents_pair :
    (∃ state, runWeakOps id (fun _ => 0) [registerOp 16 8, .unregister 16 8] = .ok state ∧
      TableRepresents id state.table (relationAfter [registerOp 16 8, .unregister 16 8] ∅)) ∨
    (runWeakOps id (fun _ => 0) [registerOp 16 8, .unregister 16 8] =
      .error .cannotFormWeakReference ∧ ∃ op ∈ [registerOp 16 8, .unregister 16 8], op.Halts) :=
  runWeakOps_represents id (fun _ => 0) [registerOp 16 8, .unregister 16 8]
    ⟨registerOp_legal (by decide) (Set.notMem_empty _), show Location 8 by decide, trivial⟩

end ObjcDyld.Weak

/-!
## Reclaiming weak entries

Unregistering the last location of an object is meant to remove the object's
entry.  The emptiness test reads the inline slots even where the storage holds
the out-of-line fields, and takes the table pointer for a referrer; so an entry
that has once gone out of line stays.
-/

namespace ObjcDyld.Weak

open Probing

variable {hash : ℕ → ℕ}

/--
The object has an entry if and only if locations are left, and taking the last
one away takes one entry away.
-/
def Reclaimed (hash : ℕ → ℕ) (table table' : WeakTable) (referent : ℕ) (left : Set ℕ) : Prop :=
  (HasEntry hash table' referent ↔ left.Nonempty) ∧
    (HasEntry hash table referent → left = ∅ → table'.numEntries + 1 = table.numEntries)

theorem UnregisterOutcome.reclaimed_iff {table table' : WeakTable} {referent : ℕ} {left : Set ℕ}
    (outcome : UnregisterOutcome hash table table' referent left)
    (found : left.Nonempty → HasEntry hash table' referent) :
    Reclaimed hash table table' referent left ↔
      EntryInline hash table referent ∨ left.Nonempty := by
  cases outcome with
  | absent before same =>
      subst same
      have inlined : EntryInline hash table' referent :=
        fun i answer => absurd ⟨i, answer⟩ before
      exact ⟨fun _ => Or.inl inlined,
        fun _ => ⟨⟨fun after => absurd after before, found⟩, fun after => absurd after before⟩⟩
  | removed before inlined none after count =>
      have empty : ¬ left.Nonempty := Set.not_nonempty_iff_eq_empty.mpr none
      exact ⟨fun _ => Or.inl inlined,
        fun _ => ⟨⟨fun there => absurd there after, fun some => absurd some empty⟩,
          fun _ _ => count⟩⟩
  | kept before reason after count =>
      constructor
      · intro reclaimed
        exact Or.inr (reclaimed.1.mp after)
      · intro holds
        have some : left.Nonempty := by
          rcases holds with inlined | some
          · exact Set.nonempty_iff_ne_empty.mpr fun none => reason ⟨inlined, none⟩
          · exact some
        exact ⟨⟨fun _ => some, fun _ => after⟩, fun _ none => absurd none some.ne_empty⟩

/--
In every reachable table, unregistering a pair reclaims the object's entry as it
should if and only if the entry is inline or another location of the object is
still registered.
-/
theorem weakUnregisterNoLock_reclaims_iff (hash : ℕ → ℕ) (memory : ℕ → ℕ) (ops : List WeakOp)
    (legal : LegalRun ops ∅) (state : WeakState) (run : runWeakOps hash memory ops = .ok state)
    (referent referrer : ℕ) (object : referent ≠ 0) (location : Location referrer) :
    ∃ table', weakUnregisterNoLock hash state.table referent referrer = .ok table' ∧
      (Reclaimed hash state.table table' referent
          ((relationAfter ops ∅).locations referent \ {referrer}) ↔
        EntryInline hash state.table referent ∨
          ∃ r ∈ (relationAfter ops ∅).locations referent, r ≠ referrer) := by
  have start : TableInv hash (WeakState.mk WeakTable.empty memory).table ∅ := tableInv_empty
  rcases start.runs ops legal with ⟨reached, ran, inv⟩ | ⟨halted, -⟩
  · obtain rfl := Except.ok.inj (ran.symm.trans run)
    obtain ⟨table', removes, inv', outcome, -⟩ := inv.unregister object location.ne_zero
    refine ⟨table', removes, ?_⟩
    rw [outcome.reclaimed_iff]
    · rfl
    · rintro ⟨r, mem, away⟩
      exact inv'.tableRepresents.found referent r ⟨mem, fun eq => away (Prod.mk.inj eq).2⟩
  · rw [runWeakOps, halted] at run
    cases run

/-- Five locations of one object are registered and the first four unregistered again. -/
def leakOps : List WeakOp :=
  [registerOp 16 8, registerOp 16 16, registerOp 16 24, registerOp 16 32, registerOp 16 40,
    .unregister 16 8, .unregister 16 16, .unregister 16 24, .unregister 16 32]

theorem apply_registerOp (rel : Relation) (r : ℕ) :
    WeakOp.apply rel (registerOp 16 r) = insert (16, r) rel := by
  rw [registerOp, WeakOp.apply, if_pos (show viable.forms 16 by decide)]

theorem leakOps_legal : LegalRun leakOps ∅ := by
  simp only [leakOps, LegalRun, apply_registerOp, and_true]
  refine ⟨registerOp_legal (by decide) (by simp), registerOp_legal (by decide) (by simp),
    registerOp_legal (by decide) (by simp), registerOp_legal (by decide) (by simp),
    registerOp_legal (by decide) (by simp), ?_⟩
  exact ⟨show Location 8 by decide, show Location 16 by decide, show Location 24 by decide,
    show Location 32 by decide⟩

theorem leakOps_left : (relationAfter leakOps ∅).locations 16 \ {40} = ∅ := by
  ext r
  simp only [relationAfter, leakOps, List.foldl_cons, List.foldl_nil, apply_registerOp]
  simp only [WeakOp.apply, Relation.locations, Set.mem_sdiff, Set.mem_ofPred_eq, Set.mem_insert_iff,
    Set.mem_singleton_iff, Set.mem_empty_iff_false, Prod.mk.injEq, true_and, or_false, iff_false]
  omega

theorem leakOps_runs : ∃ state, runWeakOps id (fun _ => 0) leakOps = .ok state := by
  have start : TableInv id (WeakState.mk WeakTable.empty fun _ => 0).table ∅ := tableInv_empty
  rcases start.runs leakOps leakOps_legal with ⟨state, run, -⟩ | ⟨-, op, mem, halts⟩
  · exact ⟨state, run⟩
  · simp only [leakOps, List.mem_cons, List.not_mem_nil, or_false] at mem
    rcases mem with rfl | rfl | rfl | rfl | rfl | rfl | rfl | rfl | rfl
    all_goals simp [registerOp, WeakOp.Halts, viable, Viability.deallocating] at halts

theorem weakUnregisterNoLock_reclaims_iff_leakOps :
    ∃ state, runWeakOps id (fun _ => 0) leakOps = .ok state ∧
      ∃ table', weakUnregisterNoLock id state.table 16 40 = .ok table' ∧
        (Reclaimed id state.table table' 16 ((relationAfter leakOps ∅).locations 16 \ {40}) ↔
          EntryInline id state.table 16 ∨
            ∃ r ∈ (relationAfter leakOps ∅).locations 16, r ≠ 40) := by
  obtain ⟨state, run⟩ := leakOps_runs
  exact ⟨state, run, weakUnregisterNoLock_reclaims_iff id (fun _ => 0) leakOps leakOps_legal state run
    16 40 (by decide) (by decide)⟩

/-- Unregistering the fifth location leaves the entry of an object that has none. -/
theorem weakUnregisterNoLock_leaks :
    LegalRun leakOps ∅ ∧ ∃ state table', runWeakOps id (fun _ => 0) leakOps = .ok state ∧
      weakUnregisterNoLock id state.table 16 40 = .ok table' ∧
      (relationAfter leakOps ∅).locations 16 \ {40} = ∅ ∧ HasEntry id table' 16 ∧
      table'.numEntries = state.table.numEntries ∧
      ¬ Reclaimed id state.table table' 16 ((relationAfter leakOps ∅).locations 16 \ {40}) := by
  have traced : (do
      let state ← runWeakOps id (fun _ => 0) leakOps
      let table' ← weakUnregisterNoLock id state.table 16 40
      let answer ← weakEntryForReferent id table' 16
      pure (answer, table'.numEntries == state.table.numEntries)) = .ok (some 16, true) := by
    decide +kernel
  obtain ⟨state, run⟩ := leakOps_runs
  rw [run, Loops.ok_bind] at traced
  cases removes : weakUnregisterNoLock id state.table 16 40 with
  | error e =>
      rw [removes] at traced
      cases traced
  | ok table' =>
      rw [removes, Loops.ok_bind] at traced
      cases answer : weakEntryForReferent id table' 16 with
      | error e =>
          rw [answer] at traced
          cases traced
      | ok index =>
          rw [answer, Loops.ok_bind, Loops.pure_eq_ok, Except.ok.injEq, Prod.mk.injEq] at traced
          obtain ⟨rfl, same⟩ := traced
          have held : HasEntry id table' 16 := ⟨16, answer⟩
          refine ⟨leakOps_legal, state, table', run, removes, leakOps_left, held, by simpa using same, ?_⟩
          intro reclaimed
          have some := reclaimed.1.mp held
          rw [leakOps_left] at some
          exact Set.not_nonempty_empty some

end ObjcDyld.Weak
