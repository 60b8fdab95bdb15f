import ObjcDyld.Weak.EntryInvariant
import ObjcDyld.Weak.Table

/-!
# The weak table represents a relation

The relation holds an object and a location when the location is registered as
a weak variable of the object.  The table invariant says that each object's
entry can be found, and that it represents the object's locations.
-/

namespace ObjcDyld.Weak

open Function (update update_self update_of_ne)
open Probing

variable {hash : ℕ → ℕ}

/-- The registered pairs of an object and a location. -/
abbrev Relation := Set (ℕ × ℕ)

/-- The locations registered for an object. -/
def Relation.locations (rel : Relation) (referent : ℕ) : Set ℕ := {r | (referent, r) ∈ rel}

@[simp] theorem Relation.mem_locations {rel : Relation} {referent r : ℕ} :
    r ∈ rel.locations referent ↔ (referent, r) ∈ rel := Iff.rfl

@[simp] theorem entryKey_eq_some (entry : WeakEntry) (k : ℕ) :
    entryKey entry = some k ↔ entry.referent = k ∧ k ≠ 0 :=
  pointerKey_eq_some entry.referent k

/-! ## The shape of the array -/

/-- An array of `2 ^ bits` buckets in good order. -/
structure Shaped (hash : ℕ → ℕ) (table : WeakTable) (entries : ℕ → WeakEntry) (bits : ℕ) :
    Prop where
  entries_eq : table.weakEntries = some entries
  mask_eq : table.mask = 2 ^ bits - 1
  bits_ge : 6 ≤ bits
  placed : Displaced entryKey (increment bits) (homeSlot hash bits) entries
    table.maxHashDisplacement
  counted : table.numEntries = occupancy entryKey (2 ^ bits) entries
  load : 4 * table.numEntries ≤ 3 * 2 ^ bits

namespace Shaped

variable {table : WeakTable} {entries : ℕ → WeakEntry} {bits : ℕ}

theorem bits_pos (shaped : Shaped hash table entries bits) : 0 < bits :=
  Nat.lt_of_lt_of_le (by decide) shaped.bits_ge

theorem distinct (shaped : Shaped hash table entries bits) :
    Distinct entryKey Eq (2 ^ bits) entries :=
  shaped.placed.distinct

theorem size_eq (shaped : Shaped hash table entries bits) : tableSize table.mask = 2 ^ bits := by
  rw [shaped.mask_eq, tableSize_mask bits shaped.bits_pos]

theorem hits {referent : ℕ} (ne : referent ≠ 0) (entry : WeakEntry) :
    (entry.referent == referent) = true ↔ entryKey entry = some referent := by
  simp [entryKey, ne]

/-- An object that keys a bucket is found at that bucket. -/
theorem weakEntryForReferent_some (shaped : Shaped hash table entries bits) {i : ℕ}
    (hi : i < 2 ^ bits) (ne : (entries i).referent ≠ 0) :
    weakEntryForReferent hash table (entries i).referent = .ok (some i) := by
  have held : entryKey (entries i) = some (entries i).referent := by simp [entryKey, ne]
  have ends := shaped.placed.lookup_found (hits ne) hi held (home_lt _ _)
  rw [increment_size] at ends
  simp only [weakEntryForReferent, shaped.entries_eq, shaped.size_eq]
  rw [shaped.mask_eq, nextIndex_mask]
  rw [show hash (entries i).referent &&& (2 ^ bits - 1) =
    homeSlot hash bits (entries i).referent from rfl, ends]

/-- An object that keys no bucket is reported missing. -/
theorem weakEntryForReferent_none (shaped : Shaped hash table entries bits) {referent : ℕ}
    (ne : referent ≠ 0) (absent : ∀ i, i < 2 ^ bits → (entries i).referent ≠ referent) :
    weakEntryForReferent hash table referent = .ok none := by
  have ends := shaped.placed.lookup_missing (hits ne)
    (fun i hi held => absent i hi ((pointerKey_eq_some _ _).mp held).1) (home_lt _ _)
  rw [increment_size] at ends
  simp only [weakEntryForReferent, shaped.entries_eq, shaped.size_eq]
  rw [shaped.mask_eq, nextIndex_mask]
  rw [show hash referent &&& (2 ^ bits - 1) = homeSlot hash bits referent from rfl, ends]

theorem weakEntryInsert (shaped : Shaped hash table entries bits) (entry : WeakEntry)
    (ne : entry.referent ≠ 0) (absent : ∀ i, i < 2 ^ bits → (entries i).referent ≠ entry.referent)
    (room : 4 * (table.numEntries + 1) ≤ 3 * 2 ^ bits) :
    ∃ table' entries', Weak.weakEntryInsert hash table entry = .ok table' ∧
      Shaped hash table' entries' bits ∧ table'.numEntries = table.numEntries + 1 ∧
      contents entryKey (2 ^ bits) entries' = insert entry (contents entryKey (2 ^ bits) entries) := by
  have counted := shaped.counted
  have held : entryKey entry = some entry.referent := by simp [entryKey, ne]
  have hhome : homeSlot hash bits entry.referent < (increment bits).size := home_lt _ _
  obtain ⟨d, hd, passed, free, _, ends⟩ := probe_free (increment bits) hhome
    (show occupancy entryKey (increment bits).size entries < (increment bits).size by
      rw [increment_size]
      omega)
  rw [increment_size] at hd passed ends
  let slot := (increment bits).slot (homeSlot hash bits entry.referent) d
  have hslot : slot < 2 ^ bits := (increment bits).slot_lt hhome d
  let table' : WeakTable :=
    { weakEntries := some (update entries slot entry)
      numEntries := table.numEntries + 1
      mask := 2 ^ bits - 1
      maxHashDisplacement :=
        if d > table.maxHashDisplacement then d else table.maxHashDisplacement }
  have run : Weak.weakEntryInsert hash table entry = .ok table' := by
    simp only [Weak.weakEntryInsert, shaped.entries_eq, shaped.size_eq]
    rw [shaped.mask_eq, nextIndex_mask]
    rw [show hash entry.referent &&& (2 ^ bits - 1) = homeSlot hash bits entry.referent from rfl,
      ends]
  have raised : (if d > table.maxHashDisplacement then d else table.maxHashDisplacement) =
      max table.maxHashDisplacement d := by
    split <;> omega
  refine ⟨table', update entries slot entry, run, ⟨rfl, rfl, shaped.bits_ge, ?_, ?_, room⟩,
    rfl, contents_fill hslot free held⟩
  · rw [show table'.maxHashDisplacement = _ from raised]
    exact shaped.placed.fill held
      (fun i hi same => absent i hi ((pointerKey_eq_some _ _).mp same).1)
      (by rw [increment_size]; omega)
  · rw [occupancy_fill hslot free held, ← counted]

end Shaped

/-- A new array is in good order and empty. -/
theorem shaped_calloc {bits : ℕ} (ge : 6 ≤ bits) :
    Shaped hash ⟨some fun _ => WeakEntry.zero, 0, 2 ^ bits - 1, 0⟩ (fun _ => WeakEntry.zero) bits := by
  have free : ∀ i, i < 2 ^ bits → entryKey ((fun _ : ℕ => WeakEntry.zero) i) = none :=
    fun _ _ => rfl
  have roomy : 2 ^ 0 < 2 ^ bits := Nat.pow_lt_pow_right (by decide) (by omega)
  exact ⟨rfl, rfl, ge, .empty free roomy, (occupancy_zero free).symm, Nat.zero_le _⟩

theorem Shaped.weakResize {table : WeakTable} {entries : ℕ → WeakEntry} {bits newBits : ℕ}
    (shaped : Shaped hash table entries bits) (ge : 6 ≤ newBits)
    (room : 4 * table.numEntries ≤ 3 * 2 ^ newBits) :
    ∃ table' entries', Weak.weakResize hash table (2 ^ newBits) = .ok table' ∧
      Shaped hash table' entries' newBits ∧ table'.numEntries = table.numEntries ∧
      contents entryKey (2 ^ newBits) entries' = contents entryKey (2 ^ bits) entries := by
  let Inv : ℕ → WeakTable → Prop := fun i moved => ∃ entries', Shaped hash moved entries' newBits ∧
    moved.numEntries = occupancy entryKey i entries ∧
    contents entryKey (2 ^ newBits) entries' = contents entryKey i entries
  have init : Inv 0 ⟨some fun _ => WeakEntry.zero, 0, 2 ^ newBits - 1, 0⟩ := by
    refine ⟨_, shaped_calloc ge, ?_, ?_⟩
    · exact (occupancy_zero fun i hi => absurd hi (Nat.not_lt_zero i)).symm
    · rw [contents_empty fun _ _ => rfl, contents_empty fun i hi => absurd hi (Nat.not_lt_zero i)]
  have counted := shaped.counted
  have step : ∀ i, i < 2 ^ bits → ∀ moved, Inv i moved → ∃ moved',
      (if (entries i).referent ≠ 0 then Weak.weakEntryInsert hash moved (entries i)
        else .ok moved) = Except.ok moved' ∧ Inv (i + 1) moved' := by
    rintro i hi moved ⟨entries', shaped', num, same⟩
    by_cases zero : (entries i).referent = 0
    · have free : entryKey (entries i) = none := (pointerKey_eq_none _).mpr zero
      refine ⟨moved, by rw [if_neg (not_not.mpr zero)], entries', shaped', ?_, ?_⟩
      · rw [num, occupancy_succ_free free]
      · rw [same, contents_succ_free free]
    · have held : entryKey (entries i) = some (entries i).referent := by simp [entryKey, zero]
      have more := occupancy_succ_held held
      have below : occupancy entryKey (i + 1) entries ≤ occupancy entryKey (2 ^ bits) entries :=
        occupancy_mono hi
      have absent : ∀ j, j < 2 ^ newBits → (entries' j).referent ≠ (entries i).referent := by
        intro j hj eq
        have held' : entryKey (entries' j) = some (entries i).referent := by
          simp [entryKey, eq, zero]
        have mem := mem_contents hj held'
        rw [same] at mem
        obtain ⟨-, k, hk, at_k⟩ := mem
        have clash := shaped.placed.distinct k i (by rw [increment_size]; omega) hi _ _
          (by rw [at_k]; exact held') held rfl
        omega
      obtain ⟨moved', entries'', run, shaped'', num', grown⟩ :=
        shaped'.weakEntryInsert (entries i) zero absent (by omega)
      refine ⟨moved', by rw [if_pos zero]; exact run, entries'', shaped'', ?_, ?_⟩
      · rw [num', num, more]
      · rw [grown, same, contents_succ_held held]
  obtain ⟨moved, run, entries', shaped', num, same⟩ := Loops.foldlM_range Inv init step
  refine ⟨moved, entries', ?_, shaped', num.trans counted.symm, same⟩
  simp only [Weak.weakResize, shaped.entries_eq, shaped.size_eq]
  exact run

/-! ## The table invariant -/

/-- The entries represent the relation, and every registered pair has an entry. -/
structure Covers (hash : ℕ → ℕ) (entries : Set WeakEntry) (rel : Relation) : Prop where
  represented : ∀ entry ∈ entries, Represents hash entry (rel.locations entry.referent)
  covered : ∀ o r, (o, r) ∈ rel → ∃ entry ∈ entries, entry.referent = o

/-- The weak table is in good order and `stored` are its entries. -/
def Stores (hash : ℕ → ℕ) (table : WeakTable) (stored : Set WeakEntry) : Prop :=
  (table = WeakTable.empty ∧ stored = ∅) ∨
    ∃ entries bits, Shaped hash table entries bits ∧ contents entryKey (2 ^ bits) entries = stored

/-- The weak table is in good order and represents `rel`. -/
structure TableInv (hash : ℕ → ℕ) (table : WeakTable) (rel : Relation) : Prop where
  valid : ∀ o r, (o, r) ∈ rel → o ≠ 0 ∧ Location r
  represents : ∃ stored, Stores hash table stored ∧ Covers hash stored rel

theorem tableInv_empty : TableInv hash WeakTable.empty ∅ :=
  ⟨fun _ _ mem => absurd mem (Set.notMem_empty _), ∅, Or.inl ⟨rfl, rfl⟩,
    fun _ mem => absurd mem (Set.notMem_empty _), fun _ _ mem => absurd mem (Set.notMem_empty _)⟩

theorem mem_contents_entry {size : ℕ} {entries : ℕ → WeakEntry} {entry : WeakEntry} :
    entry ∈ contents entryKey size entries ↔
      entry.referent ≠ 0 ∧ ∃ i, i < size ∧ entries i = entry := by
  have keyed : (entryKey entry).isSome ↔ entry.referent ≠ 0 := by
    rw [Option.isSome_iff_ne_none, ne_eq, entryKey, pointerKey_eq_none]
  exact and_congr_left fun _ => keyed

theorem Stores.weakGrowMaybe {table : WeakTable} {stored : Set WeakEntry}
    (stores : Stores hash table stored) :
    ∃ table' entries bits, Weak.weakGrowMaybe hash table = .ok table' ∧
      Shaped hash table' entries bits ∧ 4 * (table'.numEntries + 1) ≤ 3 * 2 ^ bits ∧
      contents entryKey (2 ^ bits) entries = stored := by
  rcases stores with ⟨rfl, rfl⟩ | ⟨entries, bits, shaped, rfl⟩
  · exact ⟨_, _, 6, rfl, shaped_calloc (le_refl 6), by decide, contents_empty fun _ _ => rfl⟩
  · have ge := shaped.bits_ge
    have load := shaped.load
    have four := four_dvd_two_pow (show 2 ≤ bits by omega)
    have positive := Nat.two_pow_pos bits
    by_cases grows : table.numEntries ≥ 2 ^ bits * 3 / 4
    · obtain ⟨table', entries', run, shaped', num, same⟩ :=
        shaped.weakResize (show 6 ≤ bits + 1 by omega) (by rw [Nat.pow_succ]; omega)
      refine ⟨table', entries', bits + 1, ?_, shaped', by rw [Nat.pow_succ]; omega, same⟩
      rw [Weak.weakGrowMaybe]
      simp only [shaped.size_eq]
      rw [if_pos grows, if_pos (by omega), ← Nat.pow_succ]
      exact run
    · refine ⟨table, entries, bits, ?_, shaped, by omega, rfl⟩
      rw [Weak.weakGrowMaybe]
      simp only [shaped.size_eq]
      rw [if_neg grows]

theorem Shaped.weakCompactMaybe {table : WeakTable} {entries : ℕ → WeakEntry} {bits : ℕ}
    (shaped : Shaped hash table entries bits) :
    ∃ table' entries' bits', Weak.weakCompactMaybe hash table = .ok table' ∧
      Shaped hash table' entries' bits' ∧ table'.numEntries = table.numEntries ∧
      contents entryKey (2 ^ bits') entries' = contents entryKey (2 ^ bits) entries := by
  by_cases shrinks : 2 ^ bits ≥ 1024 ∧ 2 ^ bits / 16 ≥ table.numEntries
  · have ten : 10 ≤ bits := by
      by_contra small
      have := Nat.pow_lt_pow_right (show 1 < 2 by decide) (show bits < 10 by omega)
      omega
    have eighth : 2 ^ bits / 8 = 2 ^ (bits - 3) := by
      rw [show bits = bits - 3 + 3 by omega, Nat.pow_add]
      simp
    obtain ⟨table', entries', run, shaped', num, same⟩ :=
      shaped.weakResize (show 6 ≤ bits - 3 by omega) (by omega)
    refine ⟨table', entries', bits - 3, ?_, shaped', num, same⟩
    rw [Weak.weakCompactMaybe]
    simp only [shaped.size_eq]
    rw [if_pos shrinks, eighth]
    exact run
  · refine ⟨table, entries, bits, ?_, shaped, rfl, rfl⟩
    rw [Weak.weakCompactMaybe]
    simp only [shaped.size_eq]
    rw [if_neg shrinks]

/-! ## Single entries -/

namespace Shaped

variable {table : WeakTable} {entries : ℕ → WeakEntry} {bits : ℕ}

theorem entry_eq (shaped : Shaped hash table entries bits) (i : ℕ) : table.entry i = entries i := by
  rw [WeakTable.entry, shaped.entries_eq]
  rfl

theorem setEntry (shaped : Shaped hash table entries bits) {i : ℕ}
    (ne : (entries i).referent ≠ 0) {entry : WeakEntry}
    (same : entry.referent = (entries i).referent) :
    Shaped hash (table.setEntry i entry) (update entries i entry) bits := by
  have held : entryKey (entries i) = some (entries i).referent := by simp [entryKey, ne]
  have held' : entryKey entry = some (entries i).referent := by simp [entryKey, same, ne]
  refine ⟨?_, shaped.mask_eq, shaped.bits_ge, shaped.placed.overwrite (held'.trans held.symm), ?_,
    shaped.load⟩
  · rw [WeakTable.setEntry, shaped.entries_eq]
    rfl
  · rw [occupancy_replace held held']
    exact shaped.counted

theorem mem_setEntry (shaped : Shaped hash table entries bits) {i : ℕ} (hi : i < 2 ^ bits)
    (ne : (entries i).referent ≠ 0) {entry : WeakEntry}
    (same : entry.referent = (entries i).referent) (other : WeakEntry) :
    other ∈ contents entryKey (2 ^ bits) (update entries i entry) ↔ other = entry ∨
      (other ∈ contents entryKey (2 ^ bits) entries ∧ other.referent ≠ (entries i).referent) := by
  have held : entryKey (entries i) = some (entries i).referent := by simp [entryKey, ne]
  have keyed : (entryKey entry).isSome := by simp [entryKey, same, pointerKey, ne]
  rw [mem_contents_update shaped.distinct hi held]
  simp [keyed, ne]

theorem weakEntryRemove (shaped : Shaped hash table entries bits) {i : ℕ} (hi : i < 2 ^ bits)
    (ne : (entries i).referent ≠ 0) :
    ∃ table' entries' bits', Weak.weakEntryRemove hash table i = .ok table' ∧
      Shaped hash table' entries' bits' ∧ table'.numEntries + 1 = table.numEntries ∧
      ∀ other, other ∈ contents entryKey (2 ^ bits') entries' ↔
        other ∈ contents entryKey (2 ^ bits) entries ∧ other.referent ≠ (entries i).referent := by
  have held : entryKey (entries i) = some (entries i).referent := by simp [entryKey, ne]
  have freed : entryKey WeakEntry.zero = none := rfl
  have fewer := occupancy_clear hi held freed
  have counted := shaped.counted
  have load := shaped.load
  let cleared : WeakTable :=
    { table.setEntry i WeakEntry.zero with
      numEntries := (table.setEntry i WeakEntry.zero).numEntries - 1 }
  have num : cleared.numEntries = table.numEntries - 1 := rfl
  have shaped' : Shaped hash cleared (update entries i WeakEntry.zero) bits := by
    refine ⟨?_, shaped.mask_eq, shaped.bits_ge, shaped.placed.clear i freed, ?_, ?_⟩
    · show (table.setEntry i WeakEntry.zero).weakEntries = _
      rw [WeakTable.setEntry, shaped.entries_eq]
      rfl
    · omega
    · omega
  obtain ⟨table', entries', bits', run, shaped'', num', same⟩ := shaped'.weakCompactMaybe
  refine ⟨table', entries', bits', run, shaped'', by omega, fun other => ?_⟩
  rw [same, mem_contents_update shaped.distinct hi held]
  simp [freed, ne]

end Shaped

namespace Covers

variable {entries entries' : Set WeakEntry} {rel rel' : Relation} {referent : ℕ}

theorem replace (covers : Covers hash entries rel) (entry : WeakEntry)
    (keyed : entry.referent = referent) (rep : Represents hash entry (rel'.locations referent))
    (mem_iff : ∀ other, other ∈ entries' ↔ other = entry ∨
      (other ∈ entries ∧ other.referent ≠ referent))
    (frame : ∀ o, o ≠ referent → rel'.locations o = rel.locations o) :
    Covers hash entries' rel' where
  represented other mem := by
    rcases (mem_iff other).mp mem with rfl | ⟨old, away⟩
    · rw [keyed]
      exact rep
    · rw [frame _ away]
      exact covers.represented other old
  covered o r mem := by
    by_cases eq : o = referent
    · subst eq
      exact ⟨entry, (mem_iff entry).mpr (Or.inl rfl), keyed⟩
    · have old : (o, r) ∈ rel := by
        rw [← Relation.mem_locations, ← frame o eq]
        exact mem
      obtain ⟨other, found, other_eq⟩ := covers.covered o r old
      exact ⟨other, (mem_iff other).mpr (Or.inr ⟨found, by rw [other_eq]; exact eq⟩), other_eq⟩

theorem drop (covers : Covers hash entries rel) (none : rel'.locations referent = ∅)
    (mem_iff : ∀ other, other ∈ entries' ↔ other ∈ entries ∧ other.referent ≠ referent)
    (frame : ∀ o, o ≠ referent → rel'.locations o = rel.locations o) :
    Covers hash entries' rel' where
  represented other mem := by
    obtain ⟨old, away⟩ := (mem_iff other).mp mem
    rw [frame _ away]
    exact covers.represented other old
  covered o r mem := by
    by_cases eq : o = referent
    · subst eq
      have here : r ∈ rel'.locations o := mem
      rw [none] at here
      exact absurd here (Set.notMem_empty r)
    · have old : (o, r) ∈ rel := by
        rw [← Relation.mem_locations, ← frame o eq]
        exact mem
      obtain ⟨other, found, other_eq⟩ := covers.covered o r old
      exact ⟨other, (mem_iff other).mpr ⟨found, by rw [other_eq]; exact eq⟩, other_eq⟩

end Covers

theorem Stores.lookup {table : WeakTable} {stored : Set WeakEntry}
    (stores : Stores hash table stored) {referent : ℕ} (ne : referent ≠ 0) :
    (weakEntryForReferent hash table referent = .ok none ∧
      ∀ entry ∈ stored, entry.referent ≠ referent) ∨
    ∃ entries bits i, Shaped hash table entries bits ∧
      contents entryKey (2 ^ bits) entries = stored ∧ i < 2 ^ bits ∧
      (entries i).referent = referent ∧
      weakEntryForReferent hash table referent = .ok (some i) := by
  rcases stores with ⟨rfl, rfl⟩ | ⟨entries, bits, shaped, same⟩
  · exact Or.inl ⟨rfl, fun _ mem => absurd mem (Set.notMem_empty _)⟩
  · by_cases present : ∃ i, i < 2 ^ bits ∧ (entries i).referent = referent
    · obtain ⟨i, hi, rfl⟩ := present
      exact Or.inr ⟨entries, bits, i, shaped, same, hi, rfl,
        shaped.weakEntryForReferent_some hi ne⟩
    · have absent : ∀ i, i < 2 ^ bits → (entries i).referent ≠ referent :=
        fun i hi eq => present ⟨i, hi, eq⟩
      refine Or.inl ⟨shaped.weakEntryForReferent_none ne absent, ?_⟩
      rw [← same]
      intro entry mem keyed
      obtain ⟨-, i, hi, at_i⟩ := mem_contents_entry.mp mem
      exact absent i hi (by rw [at_i, keyed])

theorem Covers.locations_empty {stored : Set WeakEntry} {rel : Relation}
    (covers : Covers hash stored rel) {referent : ℕ}
    (none : ∀ entry ∈ stored, entry.referent ≠ referent) : rel.locations referent = ∅ := by
  rw [Set.eq_empty_iff_forall_notMem]
  intro r mem
  obtain ⟨entry, found, keyed⟩ := covers.covered referent r mem
  exact none entry found keyed

/-! ## The objects with an entry -/

/-- The table holds an entry for the object. -/
def HasEntry (hash : ℕ → ℕ) (table : WeakTable) (referent : ℕ) : Prop :=
  ∃ i, weakEntryForReferent hash table referent = .ok (some i)

theorem Stores.hasEntry_iff {table : WeakTable} {stored : Set WeakEntry}
    (stores : Stores hash table stored) {referent : ℕ} (ne : referent ≠ 0) :
    HasEntry hash table referent ↔ ∃ entry ∈ stored, entry.referent = referent := by
  rcases stores.lookup ne with ⟨missing, none⟩ | ⟨entries, bits, i, shaped, rfl, hi, rfl, found⟩
  · constructor
    · rintro ⟨i, found⟩
      rw [missing] at found
      cases found
    · rintro ⟨entry, mem, keyed⟩
      exact absurd keyed (none entry mem)
  · exact ⟨fun _ => ⟨entries i, mem_contents_entry.mpr ⟨ne, i, hi, rfl⟩, rfl⟩, fun _ => ⟨i, found⟩⟩

/-- Apart from one object, the objects with an entry in the new table had one before. -/
def EntriesFrom (hash : ℕ → ℕ) (table table' : WeakTable) (referent : ℕ) : Prop :=
  ∀ o, o ≠ 0 → HasEntry hash table' o → o = referent ∨ HasEntry hash table o

theorem EntriesFrom.refl (table : WeakTable) (referent : ℕ) :
    EntriesFrom hash table table referent :=
  fun _ _ => Or.inr

theorem Stores.entriesFrom {table table' : WeakTable} {stored stored' : Set WeakEntry}
    (stores : Stores hash table stored) (stores' : Stores hash table' stored') {referent : ℕ}
    (kept : ∀ entry ∈ stored', entry.referent = referent ∨ entry ∈ stored) :
    EntriesFrom hash table table' referent := by
  intro o ne there
  obtain ⟨entry, mem, rfl⟩ := (stores'.hasEntry_iff ne).mp there
  exact (kept entry mem).imp_right fun before =>
    (stores.hasEntry_iff ne).mpr ⟨entry, before, rfl⟩

/-! ## The calls -/

/-- The registrations that form a weak reference. -/
def Viability.forms (viability : Viability) (referent : ℕ) : Prop :=
  referent ≠ 0 ∧ viability.isTaggedPointer = false ∧ viability.deallocating = some false

instance (viability : Viability) (referent : ℕ) : Decidable (viability.forms referent) :=
  inferInstanceAs (Decidable (_ ∧ _ ∧ _))

theorem locations_insert {rel : Relation} {referent r : ℕ} :
    Relation.locations (insert (referent, r) rel) referent = insert r (rel.locations referent) := by
  ext m
  simp [Relation.locations]

theorem locations_insert_of_ne {rel : Relation} {referent r o : ℕ} (ne : o ≠ referent) :
    Relation.locations (insert (referent, r) rel) o = rel.locations o := by
  ext m
  simp [Relation.locations, ne]

theorem TableInv.register {table : WeakTable} {rel : Relation} (inv : TableInv hash table rel)
    (crash : Bool) {calloc : ℕ → ℕ} (alloc : ∀ n, 0 < calloc n ∧ calloc n < 2 ^ 64)
    {viability : Viability} {referent r : ℕ} (forms : viability.forms referent) (loc : Location r)
    (fresh : (referent, r) ∉ rel) :
    ∃ table', weakRegisterNoLock hash calloc viability crash table referent r =
        .ok (referent, table') ∧ TableInv hash table' (insert (referent, r) rel) ∧
          EntriesFrom hash table table' referent := by
  obtain ⟨ne, untagged, viable⟩ := forms
  have valid : ∀ o m, (o, m) ∈ (insert (referent, r) rel : Relation) → o ≠ 0 ∧ Location m := by
    rintro o m (eq | mem)
    · obtain ⟨rfl, rfl⟩ := Prod.mk.inj eq
      exact ⟨ne, loc⟩
    · exact inv.valid o m mem
  have frame : ∀ o, o ≠ referent →
      Relation.locations (insert (referent, r) rel) o = rel.locations o :=
    fun o away => locations_insert_of_ne away
  have goesOn : ¬ (referent = 0 ∨ viability.isTaggedPointer = true) := by simp [ne, untagged]
  obtain ⟨stored, stores, covers⟩ := inv.represents
  rcases stores.lookup ne with
    ⟨missing, none⟩ | ⟨entries, bits, i, shaped, rfl, hi, rfl, found⟩
  · obtain ⟨grown, entries, bits, grows, shaped, room, rfl⟩ := stores.weakGrowMaybe
    have absent : ∀ i, i < 2 ^ bits → (entries i).referent ≠ referent :=
      fun i hi keyed => none (entries i) (mem_contents_entry.mpr ⟨keyed ▸ ne, i, hi, rfl⟩) keyed
    obtain ⟨table', entries', run, shaped', -, same⟩ :=
      shaped.weakEntryInsert (WeakEntry.new referent r) ne absent room
    have stores' : Stores hash table' _ := Or.inr ⟨entries', bits, shaped', rfl⟩
    refine ⟨table', ?_, ⟨valid, _, stores', ?_⟩, stores.entriesFrom stores' fun other mem => ?_⟩
    · simp only [weakRegisterNoLock, if_neg goesOn, viable, missing, Loops.ok_bind, grows, run,
        Loops.pure_eq_ok]
    · refine covers.replace (WeakEntry.new referent r)
        (show (WeakEntry.new referent r).referent = referent from rfl) ?_ (fun other => ?_) frame
      · rw [locations_insert, covers.locations_empty none, insert_empty_eq]
        exact Represents.new loc
      · rw [same, Set.mem_insert_iff]
        exact or_congr_right ⟨fun mem => ⟨mem, none other mem⟩, And.left⟩
    · rw [same, Set.mem_insert_iff] at mem
      exact mem.imp_left fun new => congrArg WeakEntry.referent new
  · have held := covers.represented (entries i) (mem_contents_entry.mpr ⟨ne, i, hi, rfl⟩)
    obtain ⟨entry', run, rep, kept⟩ := held.appendReferrer alloc loc fresh 0
    have stores' : Stores hash (table.setEntry i entry') _ :=
      Or.inr ⟨update entries i entry', bits, shaped.setEntry ne kept, rfl⟩
    refine ⟨table.setEntry i entry', ?_, ⟨valid, _, stores', ?_⟩,
      stores.entriesFrom stores' fun other mem => ?_⟩
    · rw [Nat.zero_add] at run
      simp only [weakRegisterNoLock, if_neg goesOn, viable, found, Loops.ok_bind, shaped.entry_eq,
        run, Loops.pure_eq_ok]
    · refine covers.replace entry' kept ?_ (shaped.mem_setEntry hi ne kept) frame
      rw [locations_insert]
      exact rep
    · rcases (shaped.mem_setEntry hi ne kept other).mp mem with rfl | old
      · exact Or.inl kept
      · exact Or.inr old.1

theorem locations_diff {rel : Relation} {referent r : ℕ} :
    Relation.locations (rel \ {(referent, r)}) referent = rel.locations referent \ {r} := by
  ext m
  simp [Relation.locations]

theorem locations_diff_of_ne {rel : Relation} {referent r o : ℕ} (ne : o ≠ referent) :
    Relation.locations (rel \ {(referent, r)}) o = rel.locations o := by
  ext m
  simp [Relation.locations, ne]

/-- The object's entry is kept inline, or it has none. -/
def EntryInline (hash : ℕ → ℕ) (table : WeakTable) (referent : ℕ) : Prop :=
  ∀ i, weakEntryForReferent hash table referent = .ok (some i) → (table.entry i).outOfLine = false

/-- How `weak_unregister_no_lock` can leave the object's entry. -/
inductive UnregisterOutcome (hash : ℕ → ℕ) (table table' : WeakTable) (referent : ℕ)
    (left : Set ℕ) : Prop where
  | absent (before : ¬ HasEntry hash table referent) (same : table' = table)
  | removed (before : HasEntry hash table referent) (inlined : EntryInline hash table referent)
      (none : left = ∅) (after : ¬ HasEntry hash table' referent)
      (count : table'.numEntries + 1 = table.numEntries)
  | kept (before : HasEntry hash table referent)
      (reason : ¬ (EntryInline hash table referent ∧ left = ∅))
      (after : HasEntry hash table' referent) (count : table'.numEntries = table.numEntries)

theorem UnregisterOutcome.entries {table table' : WeakTable} {referent o : ℕ} {left : Set ℕ}
    (outcome : UnregisterOutcome hash table table' referent left)
    (entries : EntriesFrom hash table table' referent) (ne : o ≠ 0)
    (there : HasEntry hash table' o) : HasEntry hash table o := by
  rcases entries o ne there with rfl | before
  · cases outcome with
    | absent before same => exact same ▸ there
    | removed before inlined none after count => exact absurd there after
    | kept before reason after count => exact before
  · exact before

/--
Unregistering a pair.  The entry goes away exactly when it is inline and no
other location of the object is left.
-/
theorem TableInv.unregister {table : WeakTable} {rel : Relation} (inv : TableInv hash table rel)
    {referent r : ℕ} (ne : referent ≠ 0) (ne_r : r ≠ 0) :
    ∃ table', weakUnregisterNoLock hash table referent r = .ok table' ∧
      TableInv hash table' (rel \ {(referent, r)}) ∧
      UnregisterOutcome hash table table' referent (rel.locations referent \ {r}) ∧
      EntriesFrom hash table table' referent := by
  have valid : ∀ o m, (o, m) ∈ rel \ {(referent, r)} → o ≠ 0 ∧ Location m :=
    fun o m mem => inv.valid o m mem.1
  have frame : ∀ o, o ≠ referent →
      Relation.locations (rel \ {(referent, r)}) o = rel.locations o :=
    fun o away => locations_diff_of_ne away
  obtain ⟨stored, stores, covers⟩ := inv.represents
  rcases stores.lookup ne with
    ⟨missing, none⟩ | ⟨entries, bits, i, shaped, rfl, hi, rfl, found⟩
  · have empty := covers.locations_empty none
    have before : ¬ HasEntry hash table referent := by
      rw [stores.hasEntry_iff ne]
      rintro ⟨entry, mem, keyed⟩
      exact none entry mem keyed
    refine ⟨table, ?_, ⟨valid, stored, stores, ?_⟩, .absent before rfl, .refl table referent⟩
    · simp only [weakUnregisterNoLock, if_neg ne, missing, Loops.ok_bind, Loops.pure_eq_ok]
    · refine covers.drop ?_ (fun other => ?_) frame
      · rw [locations_diff, empty, Set.empty_sdiff]
      · exact ⟨fun mem => ⟨mem, none other mem⟩, And.left⟩
  · have held := covers.represented (entries i) (mem_contents_entry.mpr ⟨ne, i, hi, rfl⟩)
    have before : HasEntry hash table (entries i).referent := ⟨i, found⟩
    have inline_iff : EntryInline hash table (entries i).referent ↔
        (entries i).outOfLine = false := by
      constructor
      · intro inlined
        have := inlined i found
        rwa [shaped.entry_eq] at this
      · intro inlined j found'
        rw [found] at found'
        obtain rfl := Option.some.inj (Except.ok.inj found')
        rwa [shaped.entry_eq]
    obtain ⟨entry', flag, run, -, rep, kept, line⟩ := held.removeReferrer ne_r
    have shaped' := shaped.setEntry ne kept
    have mem_iff := shaped.mem_setEntry hi ne kept
    by_cases empties : isEmptyAfterRemoval entry' = true
    · obtain ⟨inlined, none⟩ := rep.isEmptyAfterRemoval_iff.mp empties
      have at_i : (update entries i entry' i).referent = (entries i).referent := by
        rw [update_self, kept]
      obtain ⟨table', entries', bits', removes, shaped'', count, mem_iff'⟩ :=
        shaped'.weakEntryRemove hi (by rw [at_i]; exact ne)
      rw [at_i] at mem_iff'
      have gone : ∀ other, other ∈ contents entryKey (2 ^ bits') entries' ↔
          other ∈ contents entryKey (2 ^ bits) entries ∧
            other.referent ≠ (entries i).referent := by
        intro other
        rw [mem_iff', mem_iff]
        constructor
        · rintro ⟨rfl | old, away⟩
          · exact absurd kept away
          · exact old
        · rintro ⟨old, away⟩
          exact ⟨Or.inr ⟨old, away⟩, away⟩
      have stores' : Stores hash table' _ := Or.inr ⟨entries', bits', shaped'', rfl⟩
      refine ⟨table', ?_, ⟨valid, _, stores', covers.drop ?_ gone frame⟩,
        .removed before (inline_iff.mpr (line.symm.trans inlined)) none ?_ count,
        stores.entriesFrom stores' fun other mem => Or.inr ((gone other).mp mem).1⟩
      · simp only [weakUnregisterNoLock, if_neg ne, found, Loops.ok_bind, shaped.entry_eq, run,
          empties, if_true]
        exact removes
      · rw [locations_diff]
        exact none
      · rw [stores'.hasEntry_iff ne]
        rintro ⟨other, mem, keyed⟩
        exact ((gone other).mp mem).2 keyed
    · have stores' : Stores hash (table.setEntry i entry') _ :=
        Or.inr ⟨update entries i entry', bits, shaped', rfl⟩
      refine ⟨table.setEntry i entry', ?_, ⟨valid, _, stores', ?_⟩, .kept before ?_ ?_ rfl,
        stores.entriesFrom stores' fun other mem => ?_⟩
      · simp only [weakUnregisterNoLock, if_neg ne, found, Loops.ok_bind, shaped.entry_eq, run,
          if_neg empties, Loops.pure_eq_ok]
      · refine covers.replace entry' kept ?_ mem_iff frame
        rw [locations_diff]
        exact rep
      · rw [inline_iff, ← line, ← rep.isEmptyAfterRemoval_iff]
        exact empties
      · rw [stores'.hasEntry_iff ne]
        exact ⟨entry', (mem_iff entry').mpr (Or.inl rfl), kept⟩
      · rcases (mem_iff other).mp mem with rfl | old
        · exact Or.inl kept
        · exact Or.inr old.1

theorem zeroReferences_loop (entry : WeakEntry) (referent : ℕ) (memory : ℕ → ℕ) (n l : ℕ) :
    ((List.range n).foldl (fun memory i =>
      if entry.slot i ≠ 0 ∧ memory (entry.slot i) = referent then update memory (entry.slot i) 0
      else memory) memory) l =
        if l ≠ 0 ∧ memory l = referent ∧ ∃ i, i < n ∧ entry.slot i = l then 0 else memory l := by
  induction n with
  | zero => simp
  | succ n ih =>
      rw [List.range_succ, List.foldl_append, List.foldl_cons, List.foldl_nil]
      have split : (∃ i, i < n + 1 ∧ entry.slot i = l) ↔
          (∃ i, i < n ∧ entry.slot i = l) ∨ entry.slot n = l := by
        constructor
        · rintro ⟨i, hi, eq⟩
          rcases Nat.lt_succ_iff_lt_or_eq.mp hi with below | rfl
          · exact Or.inl ⟨i, below, eq⟩
          · exact Or.inr eq
        · rintro (⟨i, hi, eq⟩ | eq)
          · exact ⟨i, by omega, eq⟩
          · exact ⟨n, by omega, eq⟩
      simp only [split]
      generalize (List.range n).foldl _ memory = before at ih ⊢
      by_cases here : entry.slot n = l
      · subst here
        by_cases live : entry.slot n ≠ 0 ∧ memory (entry.slot n) = referent
        · refine Eq.trans ?_ (if_pos ⟨live.1, live.2, Or.inr rfl⟩).symm
          split
          · exact update_self ..
          · next done =>
              -- the slot's variable was zeroed through an earlier slot
              by_contra nonzero
              have unseen : before (entry.slot n) = memory (entry.slot n) := by
                rw [ih]
                split
                · next seen =>
                    rw [if_pos seen] at ih
                    exact absurd ih nonzero
                · rfl
              exact done ⟨live.1, unseen.trans live.2⟩
        · have same : before (entry.slot n) = memory (entry.slot n) := by
            rw [ih, if_neg]
            exact fun h => live ⟨h.1, h.2.1⟩
          rw [if_neg (by rw [same]; exact live), same]
          exact (if_neg fun h => live ⟨h.1, h.2.1⟩).symm
      · have untouched : ∀ before : ℕ → ℕ, (if entry.slot n ≠ 0 ∧ before (entry.slot n) = referent then
            update before (entry.slot n) 0 else before) l = before l := by
          intro before
          split
          · exact update_of_ne (Ne.symm here) ..
          · rfl
        rw [untouched, ih]
        simp [here]

theorem TableInv.clear {table : WeakTable} {rel : Relation} (inv : TableInv hash table rel)
    {referent : ℕ} (ne : referent ≠ 0) (memory : ℕ → ℕ) :
    ∃ table' memory', weakClearNoLock hash table memory referent = .ok (table', memory') ∧
      TableInv hash table' {pair ∈ rel | pair.1 ≠ referent} ∧
      (∀ l, ((referent, l) ∈ rel ∧ memory l = referent → memory' l = 0) ∧
        (¬ ((referent, l) ∈ rel ∧ memory l = referent) → memory' l = memory l)) ∧
      ¬ HasEntry hash table' referent ∧ EntriesFrom hash table table' referent := by
  have valid : ∀ o m, (o, m) ∈ {pair ∈ rel | pair.1 ≠ referent} → o ≠ 0 ∧ Location m :=
    fun o m mem => inv.valid o m mem.1
  have none : Relation.locations {pair ∈ rel | pair.1 ≠ referent} referent = ∅ := by
    ext m
    simp [Relation.locations]
  have frame : ∀ o, o ≠ referent →
      Relation.locations {pair ∈ rel | pair.1 ≠ referent} o = rel.locations o := by
    intro o away
    ext m
    simp [Relation.locations, away]
  obtain ⟨stored, stores, covers⟩ := inv.represents
  rcases stores.lookup ne with
    ⟨missing, absent⟩ | ⟨entries, bits, i, shaped, rfl, hi, rfl, found⟩
  · have empty := covers.locations_empty absent
    refine ⟨table, memory, ?_, ⟨valid, stored, stores, covers.drop none (fun other => ?_) frame⟩, ?_,
      ?_, .refl table referent⟩
    · simp only [weakClearNoLock, missing, Loops.ok_bind, Loops.pure_eq_ok]
    · exact ⟨fun mem => ⟨mem, absent other mem⟩, And.left⟩
    · intro l
      refine ⟨fun ⟨mem, _⟩ => ?_, fun _ => rfl⟩
      have mem : l ∈ rel.locations referent := mem
      rw [empty] at mem
      exact absurd mem (Set.notMem_empty l)
    · rw [stores.hasEntry_iff ne]
      rintro ⟨entry, mem, keyed⟩
      exact absent entry mem keyed
  · have held := covers.represented (entries i) (mem_contents_entry.mpr ⟨ne, i, hi, rfl⟩)
    obtain ⟨table', entries', bits', removes, shaped', -, gone⟩ := shaped.weakEntryRemove hi ne
    have stores' : Stores hash table' _ := Or.inr ⟨entries', bits', shaped', rfl⟩
    refine ⟨table', zeroReferences (entries i) (entries i).referent memory, ?_,
      ⟨valid, _, stores', covers.drop none gone frame⟩, ?_, ?_,
      stores.entriesFrom stores' fun other mem => Or.inr ((gone other).mp mem).1⟩
    · simp only [weakClearNoLock, found, Loops.ok_bind, shaped.entry_eq, removes, Loops.pure_eq_ok]
    · intro l
      rw [show zeroReferences (entries i) (entries i).referent memory l = _ from
        zeroReferences_loop (entries i) _ memory (entries i).slotCount l]
      constructor
      · rintro ⟨mem, holds⟩
        have ne_l := (inv.valid _ l mem).2.ne_zero
        exact if_pos ⟨ne_l, holds, (held.slots ne_l).1.mp mem⟩
      · intro other
        refine if_neg ?_
        rintro ⟨ne_l, holds, slot⟩
        exact other ⟨(held.slots ne_l).1.mpr slot, holds⟩
    · rw [stores'.hasEntry_iff ne]
      rintro ⟨other, mem, keyed⟩
      exact ((gone other).mp mem).2 keyed

end ObjcDyld.Weak
