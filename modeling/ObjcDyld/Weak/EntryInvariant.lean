import ObjcDyld.Weak.Entry

/-!
# What a weak entry represents

An entry stands for a set of referrers.  In either representation every member
of the set occupies exactly one slot; out of line it lies within the remembered
displacement of its home slot.  Appending and removing keep this.
-/

namespace ObjcDyld.Weak

open Function (update update_self update_of_ne)
open Probing

/-! ## Disguised pointers -/

theorem undisguise_disguise {ptr : ℕ} (h : ptr < 2 ^ 64) : undisguise (disguise ptr) = ptr := by
  unfold undisguise disguise
  omega

theorem undisguise_eq_zero {val : ℕ} (h : val < 2 ^ 64) : undisguise val = 0 ↔ val = 0 := by
  unfold undisguise
  omega

theorem disguise_lt (ptr : ℕ) : disguise ptr < 2 ^ 64 := Nat.mod_lt _ (by decide)

theorem Location.ne_zero {referrer : ℕ} (h : Location referrer) : referrer ≠ 0 := Nat.ne_of_gt h.1

theorem Location.disguise_mod {referrer : ℕ} (h : Location referrer) : disguise referrer % 4 = 0 := by
  obtain ⟨positive, bound, aligned⟩ := h
  unfold disguise
  omega

namespace WeakEntry

variable (entry : WeakEntry)

/-! ## The fields of the union under updates -/

@[simp] theorem setReferrers_numRefs (address : ℕ) (block : ℕ → ℕ) :
    (entry.setReferrers address block).numRefs = entry.numRefs := rfl

@[simp] theorem setReferrers_outOfLineNess (address : ℕ) (block : ℕ → ℕ) :
    (entry.setReferrers address block).outOfLineNess = entry.outOfLineNess := rfl

@[simp] theorem setNumRefs_numRefs (value : ℕ) : (entry.setNumRefs value).numRefs = value := by
  simp only [setNumRefs, numRefs, outOfLineNess, update_self]
  omega

@[simp] theorem setNumRefs_outOfLineNess (value : ℕ) :
    (entry.setNumRefs value).outOfLineNess = entry.outOfLineNess := by
  simp only [setNumRefs, outOfLineNess, update_self]
  omega

@[simp] theorem setOutOfLineNess_numRefs (value : ℕ) :
    (entry.setOutOfLineNess value).numRefs = entry.numRefs := by
  simp only [setOutOfLineNess, numRefs, update_self]
  omega

@[simp] theorem setOutOfLineNess_outOfLineNess (value : ℕ) :
    (entry.setOutOfLineNess value).outOfLineNess = value % 4 := by
  simp only [setOutOfLineNess, outOfLineNess, update_self]
  omega

@[simp] theorem setMask_numRefs (value : ℕ) : (entry.setMask value).numRefs = entry.numRefs := rfl

@[simp] theorem setMask_outOfLineNess (value : ℕ) :
    (entry.setMask value).outOfLineNess = entry.outOfLineNess := rfl

@[simp] theorem setMask_mask (value : ℕ) : (entry.setMask value).mask = value := rfl

@[simp] theorem setMaxHashDisplacement_numRefs (value : ℕ) :
    (entry.setMaxHashDisplacement value).numRefs = entry.numRefs := rfl

@[simp] theorem setMaxHashDisplacement_outOfLineNess (value : ℕ) :
    (entry.setMaxHashDisplacement value).outOfLineNess = entry.outOfLineNess := rfl

theorem outOfLine_iff : entry.outOfLine = true ↔ entry.outOfLineNess = 2 := by
  simp [outOfLine, referrersOutOfLine]

theorem fillSlot_outOfLineNess (index displacement r : ℕ) :
    (entry.fillSlot index displacement r).outOfLineNess = entry.outOfLineNess := by
  unfold fillSlot
  dsimp only
  split <;> rw [setNumRefs_outOfLineNess] <;> rfl

theorem fillSlot_numRefs (index displacement r : ℕ) :
    (entry.fillSlot index displacement r).numRefs = entry.numRefs + 1 := by
  unfold fillSlot
  dsimp only
  split <;> rw [setNumRefs_numRefs] <;> rfl

theorem fillSlot_maxHashDisplacement (index displacement r : ℕ) :
    (entry.fillSlot index displacement r).maxHashDisplacement =
      max entry.maxHashDisplacement displacement := by
  unfold fillSlot
  dsimp only
  split
  · next larger => exact (Nat.max_eq_right (Nat.le_of_lt larger)).symm
  · next small => exact (Nat.max_eq_left (Nat.le_of_not_lt small)).symm

theorem fillSlot_rest (index displacement r : ℕ) :
    (entry.fillSlot index displacement r).referent = entry.referent ∧
      (entry.fillSlot index displacement r).referrers = entry.referrers ∧
      (entry.fillSlot index displacement r).mask = entry.mask ∧
      (entry.fillSlot index displacement r).block = update entry.block index r := by
  unfold fillSlot
  dsimp only
  split <;> exact ⟨rfl, rfl, rfl, rfl⟩

end WeakEntry

theorem tableSize_mask (bits : ℕ) (positive : 0 < bits) : tableSize (2 ^ bits - 1) = 2 ^ bits := by
  have two : 2 ≤ 2 ^ bits := by
    calc 2 = 2 ^ 1 := rfl
      _ ≤ 2 ^ bits := Nat.pow_le_pow_right (by decide) positive
  rw [tableSize, if_neg (by omega)]
  omega

theorem nextIndex_mask (bits : ℕ) : nextIndex (2 ^ bits - 1) = (increment bits).next := rfl

/-! ## The invariants -/

variable (hash : ℕ → ℕ)

/-- The home slot of a pointer in a table of `2 ^ bits` slots. -/
def homeSlot (bits : ℕ) (ptr : ℕ) : ℕ := hash ptr &&& (2 ^ bits - 1)

/-- The inline representation of a set of referrers. -/
structure InlineSet (entry : WeakEntry) (set : Set ℕ) : Prop where
  word_lt : ∀ i, entry.word i < 2 ^ 64
  aligned : ∀ i, entry.word i % 4 = 0
  stored : ∀ r, r ∈ set ↔ r ≠ 0 ∧ ∃ i, entry.inlineReferrers i = r
  distinct : ∀ i j, entry.inlineReferrers i = entry.inlineReferrers j →
    entry.inlineReferrers i ≠ 0 → i = j

/-- The out-of-line representation of a set of referrers in `2 ^ bits` slots. -/
structure OutOfLineSet (entry : WeakEntry) (set : Set ℕ) (bits : ℕ) : Prop where
  tag : entry.outOfLine = true
  allocated : 0 < entry.referrers ∧ entry.referrers < 2 ^ 64
  mask_eq : entry.mask = 2 ^ bits - 1
  bits_ge : 3 ≤ bits
  placed : Displaced pointerKey (increment bits) (homeSlot hash bits) entry.block
    entry.maxHashDisplacement
  stored : contents pointerKey (2 ^ bits) entry.block = set
  counted : entry.numRefs = occupancy pointerKey (2 ^ bits) entry.block
  load : 4 * entry.numRefs ≤ 3 * 2 ^ bits

/-- An entry represents a set of referrers, in one representation or the other. -/
def Represents (entry : WeakEntry) (set : Set ℕ) : Prop :=
  InlineSet entry set ∨ ∃ bits, OutOfLineSet hash entry set bits

theorem InlineSet.tag {entry : WeakEntry} {set : Set ℕ} (inlined : InlineSet entry set) :
    entry.outOfLine = false := by
  have low := inlined.aligned 1
  rw [← Bool.not_eq_true, entry.outOfLine_iff, WeakEntry.outOfLineNess, low]
  decide

theorem four_dvd_two_pow {bits : ℕ} (h : 2 ≤ bits) : 4 ∣ 2 ^ bits :=
  Nat.pow_dvd_pow 2 h

variable {hash}

theorem mem_contents_pointer {size : ℕ} {cells : ℕ → ℕ} {r : ℕ} :
    r ∈ contents pointerKey size cells ↔ r ≠ 0 ∧ ∃ i, i < size ∧ cells i = r := by
  constructor
  · rintro ⟨some, found⟩
    refine ⟨?_, found⟩
    rintro rfl
    simp [pointerKey] at some
  · rintro ⟨ne, found⟩
    exact ⟨by simp [pointerKey, ne], found⟩

namespace OutOfLineSet

variable {entry : WeakEntry} {set : Set ℕ} {bits : ℕ}

theorem bits_pos (out : OutOfLineSet hash entry set bits) : 0 < bits :=
  Nat.lt_of_lt_of_le (by decide) out.bits_ge

theorem absent_iff (out : OutOfLineSet hash entry set bits) {r : ℕ} (ne : r ≠ 0) :
    r ∉ set ↔ ∀ i, i < 2 ^ bits → pointerKey (entry.block i) ≠ some r := by
  rw [← out.stored, mem_contents_pointer]
  simp [ne]

theorem fillSlot (out : OutOfLineSet hash entry set bits) {r d : ℕ} (ne : r ≠ 0) (fresh : r ∉ set)
    (hd : d + 1 < 2 ^ bits)
    (free : pointerKey (entry.block ((increment bits).slot (homeSlot hash bits r) d)) = none)
    (room : 4 * (entry.numRefs + 1) ≤ 3 * 2 ^ bits) :
    OutOfLineSet hash (entry.fillSlot ((increment bits).slot (homeSlot hash bits r) d) d r)
      (insert r set) bits := by
  have holds : pointerKey r = some r := by simp [ne]
  have hslot : (increment bits).slot (homeSlot hash bits r) d < 2 ^ bits :=
    (increment bits).slot_lt (home_lt (hash r) bits) d
  obtain ⟨-, referrers_eq, mask_eq, block_eq⟩ :=
    entry.fillSlot_rest ((increment bits).slot (homeSlot hash bits r) d) d r
  refine ⟨?_, ?_, ?_, out.bits_ge, ?_, ?_, ?_, ?_⟩
  · rw [WeakEntry.outOfLine_iff, WeakEntry.fillSlot_outOfLineNess]
    exact entry.outOfLine_iff.mp out.tag
  · rw [referrers_eq]
    exact out.allocated
  · rw [mask_eq]
    exact out.mask_eq
  · rw [block_eq, WeakEntry.fillSlot_maxHashDisplacement]
    exact out.placed.fill holds ((out.absent_iff ne).mp fresh) hd
  · rw [block_eq, contents_fill hslot free holds, out.stored]
  · rw [block_eq, WeakEntry.fillSlot_numRefs, occupancy_fill hslot free holds, out.counted]
  · rw [WeakEntry.fillSlot_numRefs]
    exact room

theorem insertOutOfLine (out : OutOfLineSet hash entry set bits) {r : ℕ} (ne : r ≠ 0)
    (fresh : r ∉ set) (room : 4 * (entry.numRefs + 1) ≤ 3 * 2 ^ bits) :
    ∃ entry', Weak.insertOutOfLine hash entry r = .ok entry' ∧
      OutOfLineSet hash entry' (insert r set) bits ∧
      entry'.referent = entry.referent ∧ entry'.numRefs = entry.numRefs + 1 := by
  have counted := out.counted
  have hhome : homeSlot hash bits r < (increment bits).size := home_lt _ _
  obtain ⟨d, hd, passed, free, _, ends⟩ := probe_free (increment bits) hhome
    (show occupancy pointerKey (increment bits).size entry.block < (increment bits).size by
      rw [increment_size]
      omega)
  rw [increment_size] at hd passed ends
  refine ⟨_, ?_, out.fillSlot ne fresh (by omega) free room, (entry.fillSlot_rest ..).1,
    entry.fillSlot_numRefs ..⟩
  simp only [Weak.insertOutOfLine, out.mask_eq, nextIndex_mask, tableSize_mask bits out.bits_pos]
  rw [show hash r &&& (2 ^ bits - 1) = homeSlot hash bits r from rfl, ends]

theorem clearSlot (out : OutOfLineSet hash entry set bits) {r i : ℕ} (hi : i < 2 ^ bits)
    (held : pointerKey (entry.block i) = some r) :
    OutOfLineSet hash (entry.clearSlot i) (set \ {r}) bits := by
  have freed : pointerKey 0 = none := rfl
  have counted := occupancy_clear hi held freed
  have num := out.counted
  have load := out.load
  obtain ⟨rfl, ne⟩ := (pointerKey_eq_some _ _).mp held
  have left : (entry.clearSlot i).numRefs = entry.numRefs - 1 := WeakEntry.setNumRefs_numRefs ..
  refine ⟨?_, out.allocated, out.mask_eq, out.bits_ge, out.placed.clear i freed, ?_, ?_, ?_⟩
  · rw [WeakEntry.outOfLine_iff]
    exact (WeakEntry.setNumRefs_outOfLineNess ..).trans (entry.outOfLine_iff.mp out.tag)
  · exact (contents_clear (fun _ => rfl) out.placed.distinct hi held freed).trans
      (by rw [increment_size, out.stored])
  · rw [left, show (entry.clearSlot i).block = update entry.block i 0 from rfl]
    omega
  · omega

theorem removeReferrer_mem (out : OutOfLineSet hash entry set bits) {r : ℕ} (mem : r ∈ set) :
    ∃ entry', removeReferrer hash entry r = .ok (entry', true) ∧
      OutOfLineSet hash entry' (set \ {r}) bits ∧ entry'.referent = entry.referent := by
  rw [← out.stored, mem_contents_pointer] at mem
  obtain ⟨ne, i, hi, eq⟩ := mem
  have held : pointerKey (entry.block i) = some r := by simp [eq, ne]
  have hits : ∀ a, (a == r) = true ↔ pointerKey a = some r := by simp [ne]
  have ends := out.placed.lookup_found hits hi held (home_lt _ _)
  rw [increment_size] at ends
  refine ⟨_, ?_, out.clearSlot hi held, rfl⟩
  simp only [removeReferrer, out.tag, out.mask_eq, nextIndex_mask, tableSize_mask bits out.bits_pos]
  rw [show hash r &&& (2 ^ bits - 1) = homeSlot hash bits r from rfl, ends]
  rfl

/-- A stranger is reported missing and nothing changes. -/
theorem removeReferrer_notMem (out : OutOfLineSet hash entry set bits) {r : ℕ} (ne : r ≠ 0)
    (absent : r ∉ set) : removeReferrer hash entry r = .ok (entry, false) := by
  have hits : ∀ a, (a == r) = true ↔ pointerKey a = some r := by simp [ne]
  have ends := out.placed.lookup_missing hits ((out.absent_iff ne).mp absent) (home_lt _ _)
  rw [increment_size] at ends
  simp only [removeReferrer, out.tag, out.mask_eq, nextIndex_mask, tableSize_mask bits out.bits_pos]
  rw [show hash r &&& (2 ^ bits - 1) = homeSlot hash bits r from rfl, ends]
  rfl

theorem appendReferrer_room (calloc : ℕ → ℕ) (out : OutOfLineSet hash entry set bits) {r : ℕ}
    (ne : r ≠ 0) (fresh : r ∉ set) (room : 4 * (entry.numRefs + 1) ≤ 3 * 2 ^ bits) (fuel : ℕ) :
    ∃ entry', appendReferrer hash calloc (fuel + 1) entry r = .ok entry' ∧
      OutOfLineSet hash entry' (insert r set) bits ∧
      entry'.referent = entry.referent ∧ entry'.numRefs = entry.numRefs + 1 := by
  obtain ⟨entry', run, rest⟩ := out.insertOutOfLine ne fresh room
  refine ⟨entry', ?_, rest⟩
  have below : ¬ entry.numRefs ≥ tableSize entry.mask * 3 / 4 := by
    rw [out.mask_eq, tableSize_mask bits out.bits_pos]
    omega
  simp only [appendReferrer, out.tag, if_true, if_neg below, run]

end OutOfLineSet

/-! ## Growing -/

/-- What `grow_refs_and_insert` relies on: old slots holding each member once, all counted. -/
structure OldSlots (entry : WeakEntry) (set : Set ℕ) (bits : ℕ) : Prop where
  tag : entry.outOfLine = true
  mask_eq : entry.mask = 2 ^ bits - 1
  bits_ge : 2 ≤ bits
  distinct : Distinct pointerKey Eq (2 ^ bits) entry.block
  stored : contents pointerKey (2 ^ bits) entry.block = set
  counted : entry.numRefs = occupancy pointerKey (2 ^ bits) entry.block

theorem OutOfLineSet.oldSlots {entry : WeakEntry} {set : Set ℕ} {bits : ℕ}
    (out : OutOfLineSet hash entry set bits) : OldSlots entry set bits :=
  ⟨out.tag, out.mask_eq, by have := out.bits_ge; omega, out.placed.distinct, out.stored, out.counted⟩

/-- The state of the copying loop once the first `i` old slots are copied. -/
structure Copied (hash : ℕ → ℕ) (old : ℕ → ℕ) (total bits referent : ℕ) (i : ℕ)
    (state : WeakEntry × ℕ) : Prop where
  out : OutOfLineSet hash state.1 (contents pointerKey i old) bits
  num : state.1.numRefs = occupancy pointerKey i old
  remaining : state.2 + occupancy pointerKey i old = total
  referent_eq : state.1.referent = referent

theorem WeakEntry.resetTable_numRefs (entry : WeakEntry) (newSize address : ℕ) :
    (entry.resetTable newSize address).numRefs = 0 :=
  setNumRefs_numRefs ..

theorem OldSlots.resetTable {entry : WeakEntry} {set : Set ℕ} {bits : ℕ}
    (old : OldSlots entry set bits) {address : ℕ} (alloc : 0 < address ∧ address < 2 ^ 64) :
    OutOfLineSet hash (entry.resetTable (2 ^ (bits + 1)) address) ∅ (bits + 1) := by
  have ge := old.bits_ge
  have roomy : 2 ^ 1 < 2 ^ (bits + 1) := Nat.pow_lt_pow_right (by decide) (by omega)
  have free : ∀ i, i < 2 ^ (bits + 1) → pointerKey ((fun _ : ℕ => 0) i) = none := fun _ _ => rfl
  have zero := entry.resetTable_numRefs (2 ^ (bits + 1)) address
  refine ⟨?_, alloc, rfl, by omega, ?_, contents_empty free, ?_, ?_⟩
  · rw [WeakEntry.outOfLine_iff]
    exact (WeakEntry.setNumRefs_outOfLineNess ..).trans (entry.outOfLine_iff.mp old.tag)
  · exact Displaced.empty free (by rw [increment_size]; omega)
  · rw [zero]
    exact (occupancy_zero free).symm
  · omega

/-- One round of the copying loop. -/
theorem Copied.step (calloc : ℕ → ℕ) {cells : ℕ → ℕ} {total bits referent i : ℕ}
    {state : WeakEntry × ℕ} (copied : Copied hash cells total (bits + 1) referent i state)
    (distinct : Distinct pointerKey Eq (2 ^ bits) cells)
    (counted : total = occupancy pointerKey (2 ^ bits) cells) (hi : i < 2 ^ bits) (fuel : ℕ) :
    ∃ state', (if 0 < state.2 ∧ cells i ≠ 0 then do
        let next ← appendReferrer hash calloc (fuel + 1) state.1 (cells i)
        pure (next, state.2 - 1)
      else pure state) = Except.ok state' ∧
      Copied hash cells total (bits + 1) referent (i + 1) state' := by
  by_cases zero : cells i = 0
  · have free : pointerKey (cells i) = none := (pointerKey_eq_none _).mpr zero
    refine ⟨state, by rw [if_neg (by simp [zero])]; rfl, ?_, ?_, ?_, copied.referent_eq⟩
    · rw [contents_succ_free free]
      exact copied.out
    · rw [occupancy_succ_free free]
      exact copied.num
    · rw [occupancy_succ_free free]
      exact copied.remaining
  · have held : pointerKey (cells i) = some (cells i) := by simp [zero]
    have more := occupancy_succ_held held
    have below : occupancy pointerKey (i + 1) cells ≤ occupancy pointerKey (2 ^ bits) cells :=
      occupancy_mono hi
    have few : occupancy pointerKey i cells ≤ i := occupancy_le
    have num := copied.num
    have remaining := copied.remaining
    have fresh : cells i ∉ contents pointerKey i cells := by
      rw [mem_contents_pointer]
      rintro ⟨-, j, hj, eq⟩
      have same := distinct j i (by omega) hi (cells i) (cells i) (by simp [eq, zero]) held rfl
      omega
    obtain ⟨next, run, out, referent_eq, grown⟩ :=
      copied.out.appendReferrer_room calloc zero fresh (by rw [Nat.pow_succ]; omega) fuel
    refine ⟨(next, state.2 - 1), ?_, ?_, ?_, ?_, referent_eq.trans copied.referent_eq⟩
    · rw [if_pos ⟨by omega, zero⟩, run]
      rfl
    · rw [contents_succ_held held]
      exact out
    · rw [grown, more, num]
    · show state.2 - 1 + _ = total
      omega

variable (hash) in
theorem OldSlots.growRefsAndInsert {entry : WeakEntry} {set : Set ℕ} {bits : ℕ}
    (old : OldSlots entry set bits) {calloc : ℕ → ℕ}
    (alloc : ∀ n, 0 < calloc n ∧ calloc n < 2 ^ 64) {r : ℕ} (ne : r ≠ 0) (fresh : r ∉ set)
    (fuel : ℕ) :
    ∃ entry', Weak.growRefsAndInsert calloc (appendReferrer hash calloc (fuel + 1)) entry r =
        .ok entry' ∧
      OutOfLineSet hash entry' (insert r set) (bits + 1) ∧ entry'.referent = entry.referent := by
  have ge := old.bits_ge
  have four : 2 ^ 2 ≤ 2 ^ bits := Nat.pow_le_pow_right (by decide) ge
  have oldSize : tableSize entry.mask = 2 ^ bits := by
    rw [old.mask_eq, tableSize_mask bits (by omega)]
  have newSize : (if 2 ^ bits ≠ 0 then 2 ^ bits * 2 else 8) = 2 ^ (bits + 1) := by
    rw [if_pos (by omega), Nat.pow_succ]
  let grown := entry.resetTable (2 ^ (bits + 1)) (calloc (tableSize (2 ^ (bits + 1) - 1)))
  have start : Copied hash entry.block entry.numRefs (bits + 1) entry.referent 0
      (grown, entry.numRefs) := by
    have empty : contents pointerKey 0 entry.block = ∅ := contents_empty fun i hi => by omega
    have none : occupancy pointerKey 0 entry.block = 0 := occupancy_zero fun i hi => by omega
    refine ⟨?_, ?_, ?_, rfl⟩
    · rw [empty]
      exact old.resetTable (alloc _)
    · exact (entry.resetTable_numRefs ..).trans none.symm
    · rw [none]
      rfl
  obtain ⟨⟨copied, left⟩, run, done⟩ := Loops.foldlM_range
    (Copied hash entry.block entry.numRefs (bits + 1) entry.referent) start
    fun i hi state inv => inv.step calloc old.distinct old.counted hi fuel
  have few : occupancy pointerKey (2 ^ bits) entry.block ≤ 2 ^ bits := occupancy_le
  have num := done.num
  have stored := old.stored
  obtain ⟨last, appended, out, referent_eq, -⟩ := done.out.appendReferrer_room calloc ne
    (by rw [stored]; exact fresh) (by rw [Nat.pow_succ]; omega) fuel
  refine ⟨last, ?_, ?_, referent_eq.trans done.referent_eq⟩
  · simp only [Weak.growRefsAndInsert, oldSize, newSize]
    rw [run]
    exact appended
  · rwa [stored] at out

/-! ## The inline array -/

namespace WeakEntry

theorem setInlineReferrers_word (entry : WeakEntry) (i : Fin 4) (r : ℕ) :
    (entry.setInlineReferrers i r).word = update entry.word i (disguise r) := rfl

theorem inlineReferrers_set (entry : WeakEntry) (i j : Fin 4) {r : ℕ} (h : r < 2 ^ 64) :
    (entry.setInlineReferrers i r).inlineReferrers j =
      if j = i then r else entry.inlineReferrers j := by
  unfold setInlineReferrers inlineReferrers
  by_cases eq : j = i
  · subst eq
    simp [undisguise_disguise h]
  · simp [eq]

end WeakEntry

namespace InlineSet

variable {entry : WeakEntry} {set : Set ℕ}

theorem words_set (inlined : InlineSet entry set) (i : Fin 4) {r : ℕ} (low : disguise r % 4 = 0) :
    (∀ j, (entry.setInlineReferrers i r).word j < 2 ^ 64) ∧
      ∀ j, (entry.setInlineReferrers i r).word j % 4 = 0 := by
  refine ⟨fun j => ?_, fun j => ?_⟩
  · by_cases eq : j = i
    · rw [entry.setInlineReferrers_word, eq, update_self]
      exact disguise_lt r
    · rw [entry.setInlineReferrers_word, update_of_ne eq]
      exact inlined.word_lt j
  · by_cases eq : j = i
    · rw [entry.setInlineReferrers_word, eq, update_self]
      exact low
    · rw [entry.setInlineReferrers_word, update_of_ne eq]
      exact inlined.aligned j

theorem fillInline (inlined : InlineSet entry set) {i : Fin 4} (free : entry.inlineReferrers i = 0)
    {r : ℕ} (loc : Location r) (fresh : r ∉ set) :
    InlineSet (entry.setInlineReferrers i r) (insert r set) := by
  obtain ⟨word_lt, aligned⟩ := inlined.words_set i loc.disguise_mod
  have read := fun j => entry.inlineReferrers_set i j loc.2.1
  have away : ∀ j, entry.inlineReferrers j ≠ r := by
    intro j eq
    exact fresh ((inlined.stored r).mpr ⟨loc.ne_zero, j, eq⟩)
  refine ⟨word_lt, aligned, fun m => ?_, fun j k => ?_⟩
  · rw [Set.mem_insert_iff, inlined.stored m]
    constructor
    · rintro (rfl | ⟨ne, j, rfl⟩)
      · exact ⟨loc.ne_zero, i, by rw [read, if_pos rfl]⟩
      · refine ⟨ne, j, ?_⟩
        rw [read, if_neg]
        rintro rfl
        exact ne free
    · rintro ⟨ne, j, eq⟩
      rw [read] at eq
      split at eq
      · exact Or.inl eq.symm
      · exact Or.inr ⟨ne, j, eq⟩
  · rw [read, read]
    split <;> split
    · rintro - -
      simp_all
    · intro eq
      exact absurd eq.symm (away k)
    · intro eq
      exact absurd eq (away j)
    · exact inlined.distinct j k

theorem clearInline (inlined : InlineSet entry set) {i : Fin 4} :
    InlineSet (entry.setInlineReferrers i 0) (set \ {entry.inlineReferrers i}) := by
  obtain ⟨word_lt, aligned⟩ := inlined.words_set i (show disguise 0 % 4 = 0 from rfl)
  have read := fun j => entry.inlineReferrers_set i j (show 0 < 2 ^ 64 by decide)
  refine ⟨word_lt, aligned, fun m => ?_, fun j k => ?_⟩
  · rw [Set.mem_sdiff, Set.mem_singleton_iff, inlined.stored m]
    constructor
    · rintro ⟨⟨ne, j, rfl⟩, other⟩
      refine ⟨ne, j, ?_⟩
      rw [read, if_neg]
      rintro rfl
      exact other rfl
    · rintro ⟨ne, j, eq⟩
      rw [read] at eq
      split at eq
      · exact absurd eq.symm ne
      · next apart =>
          refine ⟨⟨ne, j, eq⟩, ?_⟩
          intro same
          exact apart (inlined.distinct j i (eq.trans same) (eq ▸ ne))
  · rw [read, read]
    split <;> split
    · rintro - -
      simp_all
    · intro _ ne
      exact absurd rfl ne
    · intro eq ne
      exact absurd eq ne
    · exact inlined.distinct j k

theorem allocateOutOfLine (inlined : InlineSet entry set) (calloc : ℕ → ℕ)
    (full : ∀ i, entry.inlineReferrers i ≠ 0) :
    OldSlots (Weak.allocateOutOfLine calloc entry) set 2 ∧
      (Weak.allocateOutOfLine calloc entry).numRefs = 4 := by
  have numRefs : (Weak.allocateOutOfLine calloc entry).numRefs = 4 := by
    simp [Weak.allocateOutOfLine, weakInlineCount]
  have cells : ∀ i (h : i < 4), (Weak.allocateOutOfLine calloc entry).block i =
      entry.inlineReferrers ⟨i, h⟩ := fun i h => dif_pos h
  refine ⟨⟨?_, rfl, le_refl 2, ?_, ?_, ?_⟩, numRefs⟩
  · simp [WeakEntry.outOfLine_iff, Weak.allocateOutOfLine, referrersOutOfLine]
  · intro i j hi hj k l held held' eq
    rw [pointerKey_eq_some] at held held'
    rw [cells i hi] at held
    rw [cells j hj] at held'
    have same := inlined.distinct ⟨i, hi⟩ ⟨j, hj⟩ (by rw [held.1, held'.1, eq]) (full _)
    exact Fin.mk.inj same
  · ext m
    rw [mem_contents_pointer, inlined.stored m]
    constructor
    · rintro ⟨ne, i, hi, eq⟩
      exact ⟨ne, ⟨i, hi⟩, (cells i hi).symm.trans eq⟩
    · rintro ⟨ne, i, eq⟩
      exact ⟨ne, i, i.isLt, (cells i i.isLt).trans eq⟩
  · rw [numRefs, occupancy, Finset.filter_true_of_mem]
    · rfl
    · intro i hi
      have hi := Finset.mem_range.mp hi
      rw [cells i hi, pointerKey, if_neg (full _)]
      rfl

end InlineSet

/-! ## Both representations -/

namespace Represents

variable {entry : WeakEntry} {set : Set ℕ}

theorem new {referent r : ℕ} (loc : Location r) : Represents hash (WeakEntry.new referent r) {r} := by
  let blank : WeakEntry := { WeakEntry.zero with referent := referent }
  have nil : ∀ i, blank.inlineReferrers i = 0 := fun _ =>
    (undisguise_eq_zero (Nat.two_pow_pos 64)).mpr rfl
  have empty : InlineSet blank ∅ := by
    refine ⟨fun _ => Nat.two_pow_pos 64, fun _ => rfl, fun m => ?_, fun i j _ ne => absurd (nil i) ne⟩
    rw [Set.mem_empty_iff_false, false_iff, not_and, not_exists]
    intro ne i eq
    exact ne (eq.symm.trans (nil i))
  have same : WeakEntry.new referent r = blank.setInlineReferrers 0 r := by
    have words : (WeakEntry.new referent r).word = (blank.setInlineReferrers 0 r).word := by
      funext i
      fin_cases i <;> rfl
    exact WeakEntry.mk.injEq .. |>.mpr ⟨rfl, words, rfl⟩
  have filled := empty.fillInline (nil 0) loc (Set.notMem_empty r)
  rw [insert_empty_eq, ← same] at filled
  exact Or.inl filled

theorem appendReferrer (rep : Represents hash entry set) {calloc : ℕ → ℕ}
    (alloc : ∀ n, 0 < calloc n ∧ calloc n < 2 ^ 64) {r : ℕ} (loc : Location r) (fresh : r ∉ set)
    (fuel : ℕ) :
    ∃ entry', Weak.appendReferrer hash calloc (fuel + 2) entry r = .ok entry' ∧
      Represents hash entry' (insert r set) ∧ entry'.referent = entry.referent := by
  rcases rep with inlined | ⟨bits, out⟩
  · have tag := inlined.tag
    cases search : (List.finRange 4).find? fun i => entry.inlineReferrers i == 0 with
    | some i =>
        have free : entry.inlineReferrers i = 0 := by simpa using List.find?_some search
        refine ⟨entry.setInlineReferrers i r, ?_, Or.inl (inlined.fillInline free loc fresh), rfl⟩
        simp [Weak.appendReferrer, tag, appendInline, search]
    | none =>
        have full : ∀ i, entry.inlineReferrers i ≠ 0 := by
          intro i
          simpa using List.find?_eq_none.mp search i (List.mem_finRange i)
        obtain ⟨old, numRefs⟩ := inlined.allocateOutOfLine calloc full
        obtain ⟨entry', run, out, referent_eq⟩ :=
          old.growRefsAndInsert hash alloc loc.ne_zero fresh fuel
        refine ⟨entry', ?_, Or.inr ⟨3, out⟩, referent_eq⟩
        have grows : (Weak.allocateOutOfLine calloc entry).numRefs ≥
            tableSize (Weak.allocateOutOfLine calloc entry).mask * 3 / 4 := by
          rw [numRefs, old.mask_eq]
          decide
        rw [Weak.appendReferrer, tag, if_neg Bool.false_ne_true, appendInline, search]
        exact (if_pos grows).trans run
  · by_cases grows : entry.numRefs ≥ tableSize entry.mask * 3 / 4
    · obtain ⟨entry', run, grown, referent_eq⟩ :=
        out.oldSlots.growRefsAndInsert hash alloc loc.ne_zero fresh fuel
      refine ⟨entry', ?_, Or.inr ⟨bits + 1, grown⟩, referent_eq⟩
      rw [Weak.appendReferrer, out.tag]
      exact (if_pos grows).trans run
    · have room : 4 * (entry.numRefs + 1) ≤ 3 * 2 ^ bits := by
        have four := four_dvd_two_pow (show 2 ≤ bits by have := out.bits_ge; omega)
        rw [out.mask_eq, tableSize_mask bits out.bits_pos] at grows
        omega
      obtain ⟨entry', run, kept, referent_eq, -⟩ :=
        out.appendReferrer_room calloc loc.ne_zero fresh room (fuel + 1)
      exact ⟨entry', run, Or.inr ⟨bits, kept⟩, referent_eq⟩

theorem removeReferrer (rep : Represents hash entry set) {r : ℕ} (ne : r ≠ 0) :
    ∃ entry' found, Weak.removeReferrer hash entry r = .ok (entry', found) ∧
      (found = true ↔ r ∈ set) ∧ Represents hash entry' (set \ {r}) ∧
      entry'.referent = entry.referent ∧ entry'.outOfLine = entry.outOfLine := by
  rcases rep with inlined | ⟨bits, out⟩
  · have tag := inlined.tag
    cases search : (List.finRange 4).find? fun i => entry.inlineReferrers i == r with
    | some i =>
        have held : entry.inlineReferrers i = r := by simpa using List.find?_some search
        have mem : r ∈ set := (inlined.stored r).mpr ⟨ne, i, held⟩
        have cleared := inlined.clearInline (i := i)
        rw [held] at cleared
        refine ⟨entry.setInlineReferrers i 0, true, ?_, by simp [mem], Or.inl cleared, rfl,
          cleared.tag.trans tag.symm⟩
        simp [Weak.removeReferrer, tag, search]
    | none =>
        have absent : r ∉ set := by
          rw [inlined.stored r]
          rintro ⟨-, i, eq⟩
          have := List.find?_eq_none.mp search i (List.mem_finRange i)
          simp [eq] at this
        refine ⟨entry, false, ?_, by simp [absent], Or.inl ?_, rfl, rfl⟩
        · simp [Weak.removeReferrer, tag, search]
        · rwa [Set.sdiff_singleton_eq_self absent]
  · by_cases mem : r ∈ set
    · obtain ⟨entry', run, out', referent_eq⟩ := out.removeReferrer_mem mem
      exact ⟨entry', true, run, by simp [mem], Or.inr ⟨bits, out'⟩, referent_eq,
        out'.tag.trans out.tag.symm⟩
    · refine ⟨entry, false, out.removeReferrer_notMem ne mem, by simp [mem], Or.inr ⟨bits, ?_⟩, rfl,
        rfl⟩
      rwa [Set.sdiff_singleton_eq_self mem]

/--
The emptiness test of `weak_unregister_no_lock` never succeeds out of line: the
inline slot it reads there is the pointer to the table.
-/
theorem isEmptyAfterRemoval_iff (rep : Represents hash entry set) :
    isEmptyAfterRemoval entry = true ↔ entry.outOfLine = false ∧ set = ∅ := by
  rcases rep with inlined | ⟨bits, out⟩
  · have none : (∀ i, entry.inlineReferrers i = 0) ↔ set = ∅ := by
      rw [Set.eq_empty_iff_forall_notMem]
      constructor
      · rintro nil m mem
        obtain ⟨ne, i, rfl⟩ := (inlined.stored m).mp mem
        exact ne (nil i)
      · intro empty i
        by_contra ne
        exact empty _ ((inlined.stored _).mpr ⟨ne, i, rfl⟩)
    simp [isEmptyAfterRemoval, inlined.tag, ← none]
  · have aliased : entry.inlineReferrers 0 ≠ 0 := fun nil =>
      Nat.ne_of_gt out.allocated.1 ((undisguise_eq_zero out.allocated.2).mp nil)
    rw [out.tag]
    simp only [Bool.true_eq_false, false_and, iff_false, isEmptyAfterRemoval, out.tag]
    split
    · simp
    · intro all
      have := List.all_eq_true.mp all 0 (List.mem_finRange 0)
      exact aliased (by simpa using this)

theorem slots (rep : Represents hash entry set) {r : ℕ} (ne : r ≠ 0) :
    (r ∈ set ↔ ∃ i, i < entry.slotCount ∧ entry.slot i = r) ∧
      ∀ i j, i < entry.slotCount → j < entry.slotCount → entry.slot i = r → entry.slot j = r →
        i = j := by
  rcases rep with inlined | ⟨bits, out⟩
  · have count : entry.slotCount = 4 := by simp [WeakEntry.slotCount, inlined.tag, weakInlineCount]
    have read : ∀ i (h : i < 4), entry.slot i = entry.inlineReferrers ⟨i, h⟩ := by
      intro i h
      simp [WeakEntry.slot, inlined.tag, h]
    rw [count, inlined.stored r]
    refine ⟨⟨?_, ?_⟩, ?_⟩
    · rintro ⟨-, i, eq⟩
      exact ⟨i, i.isLt, (read i i.isLt).trans eq⟩
    · rintro ⟨i, hi, eq⟩
      exact ⟨ne, ⟨i, hi⟩, (read i hi).symm.trans eq⟩
    · intro i j hi hj eq eq'
      rw [read i hi] at eq
      rw [read j hj] at eq'
      exact Fin.mk.inj (inlined.distinct ⟨i, hi⟩ ⟨j, hj⟩ (eq.trans eq'.symm) (eq ▸ ne))
  · have count : entry.slotCount = 2 ^ bits := by
      simp only [WeakEntry.slotCount, out.tag, if_true, out.mask_eq, tableSize_mask bits out.bits_pos]
    have read : ∀ i, entry.slot i = entry.block i := by
      intro i
      simp only [WeakEntry.slot, out.tag, if_true]
    rw [count, ← out.stored, mem_contents_pointer]
    simp only [read]
    refine ⟨⟨And.right, fun found => ⟨ne, found⟩⟩, ?_⟩
    intro i j hi hj eq eq'
    exact out.placed.distinct i j hi hj r r (by simp [eq, ne]) (by simp [eq', ne]) rfl

theorem occurrences [DecidablePred (· ∈ set)] (rep : Represents hash entry set) {r : ℕ}
    (ne : r ≠ 0) : entry.occurrences r = if r ∈ set then 1 else 0 := by
  obtain ⟨mem_iff, unique⟩ := rep.slots ne
  by_cases mem : r ∈ set
  · rw [if_pos mem, WeakEntry.occurrences, Finset.card_eq_one]
    obtain ⟨i, hi, eq⟩ := mem_iff.mp mem
    refine ⟨i, Finset.eq_singleton_iff_unique_mem.mpr ⟨?_, ?_⟩⟩
    · exact Finset.mem_filter.mpr ⟨Finset.mem_range.mpr hi, eq⟩
    · intro j hj
      obtain ⟨below, at_j⟩ := Finset.mem_filter.mp hj
      exact unique j i (Finset.mem_range.mp below) hi at_j eq
  · rw [if_neg mem, WeakEntry.occurrences, Finset.card_eq_zero, Finset.filter_eq_empty_iff]
    intro i hi eq
    exact mem (mem_iff.mpr ⟨i, Finset.mem_range.mp hi, eq⟩)

end Represents

end ObjcDyld.Weak
