import ObjcDyld.Retain.Root

/-!
# The plain counter behind the split count

A counter that says what retain and release mean, and the relation that says
which objects stand for it.  Each root function keeps the relation.
-/

namespace ObjcDyld.Retain

/-- A reference count, and whether the release of the last reference has been made. -/
structure Counter where
  count : ℕ
  deallocating : Bool
  deriving DecidableEq, Repr

namespace Counter

/-- The count that a new object starts with. -/
def fresh : Counter := ⟨1, false⟩

/-- One more reference. -/
def retain (counter : Counter) : Counter := { counter with count := counter.count + 1 }

/-- One reference less; whether it was the one that starts deallocation. -/
def release (counter : Counter) : Bool × Counter :=
  if counter.count = 1 ∧ counter.deallocating = false then (true, ⟨0, true⟩)
  else (false, { counter with count := counter.count - 1 })

/--
What the object's words represent: the deallocating bit is set in place of the last decrement, so a
deallocating object represents one more than its count.
-/
def extent (counter : Counter) : ℕ := counter.count + counter.deallocating.toNat

@[simp] theorem retain_extent (counter : Counter) : counter.retain.extent = counter.extent + 1 := by
  simp only [retain, extent]
  omega

end Counter

/-- The largest count that fits below the pinned bit together with the flags. -/
def Arch.pinningLimit (arch : Arch) : ℕ := 2 ^ (arch.wordBits - 3)

theorem Arch.pinned_eq (arch : Arch) : arch.sideTableRCPinned = 4 * arch.pinningLimit := by
  cases arch <;> simp [Arch.wordBits, Arch.sideTableRCPinned, Arch.pinningLimit]

theorem packRefcnt_lt {arch : Arch} {count : ℕ} (dealloc weak : Bool)
    (small : count < arch.pinningLimit) :
    packRefcnt count dealloc weak < arch.sideTableRCPinned := by
  have := flags_lt dealloc weak
  rw [Arch.pinned_eq, packRefcnt]
  omega

theorem Arch.rcRange_eq (arch : Arch) : arch.rcRange = 2 * arch.rcHalf := by
  cases arch <;> rfl

theorem Arch.rcHalf_pos (arch : Arch) : 0 < arch.rcHalf := by
  cases arch <;> decide

/--
A nonpointer isa stands for the counter: the side table holds a multiple of `RC_HALF`, which is
zero until the isa says that there is a side-table count, and none of the isa's flags.
-/
structure NonpointerCount (arch : Arch) (moved : ℕ) (fields : IsaFields) (refcnt : Option ℕ)
    (counter : Counter) : Prop where
  fits : fields.extraRC < arch.rcRange
  entry : Holds arch refcnt (moved * arch.rcHalf) false false
  unmarked : fields.hasSidetableRC = false → moved = 0
  deallocating : fields.deallocating = counter.deallocating
  total : counter.extent = 1 + fields.extraRC + moved * arch.rcHalf

/-- A raw isa stands for the counter when the side table holds all of it. -/
structure RawCount (arch : Arch) (cls : Class) (refcnt : Option ℕ) (counter : Counter) : Prop where
  instances : cls.isMetaClass = false
  named : cls.address ≠ 0
  entry : ∃ extra weak, counter.extent = 1 + extra ∧
    Holds arch refcnt extra counter.deallocating weak

def Represents (arch : Arch) (object : Object) (counter : Counter) : Prop :=
  match object.isa with
  | .raw cls => RawCount arch cls object.refcnt counter
  | .nonpointer fields => ∃ moved, NonpointerCount arch moved fields object.refcnt counter

/-- The count that the isa and the side table represent together. -/
def representedCount (object : Object) : ℕ :=
  match object.isa with
  | .raw _ => 1 + sidetableGetExtraRC object.refcnt
  | .nonpointer bits =>
      1 + bits.extraRC + if bits.hasSidetableRC then sidetableGetExtraRC object.refcnt else 0

variable {arch : Arch} {object : Object} {counter : Counter}

theorem represents_raw {cls : Class} (raw : object.isa = .raw cls) :
    Represents arch object counter ↔ RawCount arch cls object.refcnt counter := by
  rw [Represents, raw]

theorem represents_nonpointer {fields : IsaFields} (packed : object.isa = .nonpointer fields) :
    Represents arch object counter ↔
      ∃ moved, NonpointerCount arch moved fields object.refcnt counter := by
  rw [Represents, packed]

/-! ## Reading the count -/

theorem Represents.representedCount (stands : Represents arch object counter) :
    representedCount object = counter.extent := by
  unfold Retain.representedCount
  cases shape : object.isa with
  | raw cls =>
      obtain ⟨extra, weak, total, entry⟩ := ((represents_raw shape).mp stands).entry
      simp only [entry.getExtraRC, total]
  | nonpointer fields =>
      obtain ⟨moved, held⟩ := (represents_nonpointer shape).mp stands
      cases marked : fields.hasSidetableRC with
      | true => simp only [marked, if_true, held.entry.getExtraRC, held.total]
      | false =>
          simp only [marked, Bool.false_eq_true, if_false, held.total, held.unmarked marked,
            Nat.zero_mul]

theorem Represents.rootRetainCount (stands : Represents arch object counter) :
    rootRetainCount object = counter.extent := by
  rw [← stands.representedCount]
  unfold Retain.rootRetainCount Retain.representedCount
  cases shape : object.isa with
  | raw cls =>
      obtain ⟨extra, weak, total, entry⟩ := ((represents_raw shape).mp stands).entry
      simp only [entry.getExtraRC, entry.retainCount]
  | nonpointer fields => rfl

theorem Represents.rootIsDeallocating (stands : Represents arch object counter) :
    rootIsDeallocating object = counter.deallocating := by
  unfold Retain.rootIsDeallocating
  cases shape : object.isa with
  | raw cls =>
      obtain ⟨extra, weak, total, entry⟩ := ((represents_raw shape).mp stands).entry
      exact entry.isDeallocating
  | nonpointer fields =>
      obtain ⟨moved, held⟩ := (represents_nonpointer shape).mp stands
      exact held.deallocating

/-! ## Retain -/

theorem NonpointerCount.addRC {moved : ℕ} {fields : IsaFields} {refcnt : Option ℕ}
    (held : NonpointerCount arch moved fields refcnt counter)
    (room : fields.extraRC + 1 < arch.rcRange) :
    NonpointerCount arch moved (fields.addRC arch 1).1 refcnt counter.retain := by
  have sum : (fields.addRC arch 1).1 = { fields with extraRC := fields.extraRC + 1 } := by
    rw [IsaFields.addRC, Nat.mod_eq_of_lt room]
  rw [sum]
  refine ⟨room, held.entry, held.unmarked, held.deallocating, ?_⟩
  simp only [Counter.retain_extent, held.total]
  omega

theorem NonpointerCount.overflow {moved : ℕ} {fields : IsaFields} {refcnt : Option ℕ}
    (held : NonpointerCount arch moved fields refcnt counter)
    (full : arch.rcRange ≤ fields.extraRC + 1) (room : counter.extent + 1 ≤ arch.pinningLimit) :
    NonpointerCount arch (moved + 1)
      { (fields.addRC arch 1).1 with extraRC := arch.rcHalf, hasSidetableRC := true }
      (sidetableAddExtraRC arch arch.rcHalf refcnt).2 counter.retain := by
  have range := arch.rcRange_eq
  have half := arch.rcHalf_pos
  have fits := held.fits
  have total := held.total
  have next : (moved + 1) * arch.rcHalf = moved * arch.rcHalf + arch.rcHalf := Nat.succ_mul _ _
  refine ⟨show arch.rcHalf < arch.rcRange by omega, ?_, nofun, held.deallocating, ?_⟩
  · rw [next]
    exact held.entry.addExtraRC (packRefcnt_lt _ _ (by omega))
  · rw [Counter.retain_extent, next]
    show counter.extent + 1 = 1 + arch.rcHalf + (moved * arch.rcHalf + arch.rcHalf)
    omega

theorem addRC_carry {fields newisa : IsaFields} {n : ℕ} {carry : Bool}
    (sum : fields.addRC arch n = (newisa, carry)) :
    newisa = (fields.addRC arch n).1 ∧ (carry = true ↔ arch.rcRange ≤ fields.extraRC + n) := by
  rw [sum]
  refine ⟨rfl, ?_⟩
  rw [← show (fields.addRC arch n).2 = carry by rw [sum], IsaFields.addRC, decide_eq_true_iff]

theorem Represents.rootRetain (stands : Represents arch object counter)
    (tryRetain handleOverflow : Bool) (stores : List Bool)
    (living : tryRetain = true → counter.deallocating = false)
    (room : counter.extent + 1 ≤ arch.pinningLimit) :
    (rootRetain arch tryRetain handleOverflow stores object).1 = true ∧
      Represents arch (rootRetain arch tryRetain handleOverflow stores object).2 counter.retain := by
  fun_induction Retain.rootRetain arch tryRetain handleOverflow stores object with
  | case1 _ _ cls shape metaclass =>
      have instances := ((represents_raw shape).mp stands).instances
      exact absurd metaclass (by simp [instances])
  | case2 _ _ cls shape _ trying retained entry tried =>
      obtain ⟨instances, named, extra, weak, total, held⟩ := (represents_raw shape).mp stands
      rw [living trying] at held
      obtain ⟨succeeded, stored⟩ := held.tryRetain (packRefcnt_lt _ _ (by omega))
      rw [tried] at succeeded stored
      refine ⟨succeeded, (represents_raw (by exact shape)).mpr
        ⟨instances, named, extra + 1, weak, ?_, ?_⟩⟩
      · rw [Counter.retain_extent]
        omega
      · rw [Counter.retain, living trying]
        exact stored
  | case3 _ _ cls shape _ _ =>
      obtain ⟨instances, named, extra, weak, total, held⟩ := (represents_raw shape).mp stands
      refine ⟨rfl, (represents_raw (by exact shape)).mpr
        ⟨instances, named, extra + 1, weak, ?_, ?_⟩⟩
      · rw [Counter.retain_extent]
        omega
      · exact held.retain (packRefcnt_lt _ _ (by omega))
  | case4 _ _ oldisa shape dying =>
      obtain ⟨moved, held⟩ := (represents_nonpointer shape).mp stands
      obtain ⟨trying, dying⟩ := Bool.and_eq_true_iff.mp dying
      rw [held.deallocating, living trying] at dying
      exact absurd dying (by decide)
  | case5 _ _ _ _ _ _ _ _ ih => exact ih
  | case6 _ _ _ _ _ _ _ _ ih => exact ih
  | case7 _ _ oldisa shape _ newisa _ halved _ sum =>
      obtain ⟨moved, held⟩ := (represents_nonpointer shape).mp stands
      obtain ⟨rfl, carried⟩ := addRC_carry sum
      have spilled := held.overflow (carried.mp rfl) room
      exact ⟨rfl, (represents_nonpointer rfl).mpr ⟨moved + 1, spilled⟩⟩
  | case8 _ _ _ _ _ _ _ _ _ ih => exact ih
  | case9 _ _ oldisa shape _ newisa carry sum uncarried _ =>
      obtain ⟨moved, held⟩ := (represents_nonpointer shape).mp stands
      obtain ⟨rfl, carried⟩ := addRC_carry sum
      have fits : oldisa.extraRC + 1 < arch.rcRange := by
        rw [carried] at uncarried
        omega
      exact ⟨rfl, (represents_nonpointer rfl).mpr ⟨moved, held.addRC fits⟩⟩

theorem Represents.rootTryRetain_deallocating (stands : Represents arch object counter)
    (dying : counter.deallocating = true) (stores : List Bool) :
    rootTryRetain arch stores object = (false, object) := by
  rw [Retain.rootTryRetain, Retain.rootRetain]
  split
  next cls shape =>
    obtain ⟨instances, named, extra, weak, total, held⟩ := (represents_raw shape).mp stands
    rw [dying] at held
    simp [instances, held.tryRetain_deallocating]
  next oldisa shape =>
    obtain ⟨moved, held⟩ := (represents_nonpointer shape).mp stands
    simp [held.deallocating, dying]

/-! ## Release -/

theorem subRC_carry {fields newisa : IsaFields} {carry : Bool}
    (difference : fields.subRC arch = (newisa, carry)) :
    newisa = (fields.subRC arch).1 ∧ (carry = true ↔ fields.extraRC = 0) := by
  rw [difference]
  refine ⟨rfl, ?_⟩
  rw [← show (fields.subRC arch).2 = carry by rw [difference], IsaFields.subRC, decide_eq_true_iff,
    Nat.lt_one_iff]

theorem Counter.release_extent {extent : ℕ} (held : counter.extent = extent + 2) :
    counter.release.1 = false ∧ counter.release.2.deallocating = counter.deallocating ∧
      counter.release.2.extent = extent + 1 := by
  unfold Counter.extent at held
  have more : ¬(counter.count = 1 ∧ counter.deallocating = false) := by
    rintro ⟨one, living⟩
    rw [one, living] at held
    simp at held
  simp only [release, more, if_false, Counter.extent, true_and]
  have := counter.deallocating.toNat_le
  omega

theorem Counter.release_last (alone : counter.extent = 1) (positive : 0 < counter.count) :
    counter.deallocating = false ∧ counter.release = (true, ⟨0, true⟩) := by
  have living : counter.deallocating = false := by
    unfold Counter.extent at alone
    cases dying : counter.deallocating with
    | true => simp [dying] at alone; omega
    | false => rfl
  have one : counter.count = 1 := by
    simpa [Counter.extent, living] using alone
  exact ⟨living, by simp [Counter.release, one, living]⟩

theorem NonpointerCount.borrow {moved : ℕ} {fields : IsaFields} {refcnt entry : Option ℕ}
    {borrowed : ℕ} (held : NonpointerCount arch moved fields refcnt counter)
    (taken : (if fields.hasSidetableRC = true then sidetableSubExtraRC arch arch.rcHalf refcnt
      else (0, refcnt)) = (borrowed, entry)) :
    (moved = 0 ∧ borrowed = 0 ∧ entry = refcnt) ∨
      (∃ rest, moved = rest + 1 ∧ borrowed = arch.rcHalf ∧
        Holds arch entry (rest * arch.rcHalf) false false) := by
  cases marked : fields.hasSidetableRC with
  | false =>
      rw [marked] at taken
      obtain ⟨rfl, rfl⟩ := Prod.mk.inj taken
      exact .inl ⟨held.unmarked marked, rfl, rfl⟩
  | true =>
      rw [marked, if_pos rfl] at taken
      have entered := held.entry
      cases moved with
      | zero =>
          rw [Nat.zero_mul] at entered
          rw [entered.subExtraRC_zero] at taken
          obtain ⟨rfl, rfl⟩ := Prod.mk.inj taken
          exact .inl ⟨rfl, rfl, rfl⟩
      | succ rest =>
          rw [Nat.succ_mul] at entered
          obtain ⟨amount, left⟩ := entered.subExtraRC arch.rcHalf_pos
          rw [taken] at amount left
          exact .inr ⟨rest, rfl, amount, left⟩

/-- What a release does to an object that stands for a counter. -/
structure ReleasedAs (arch : Arch) (performDealloc : Bool) (result : Released)
    (after : Bool × Counter) : Prop where
  shouldDealloc : result.shouldDealloc = after.1
  sentDealloc : result.sentDealloc = (after.1 && performDealloc)
  overreleased : result.overreleased = false
  stands : Represents arch result.object after.2

theorem ReleasedAs.alive {performDealloc : Bool} (extent : ℕ) {fields : IsaFields} {moved : ℕ}
    {refcnt : Option ℕ} (before : counter.extent = extent + 2) (fits : fields.extraRC < arch.rcRange)
    (entry : Holds arch refcnt (moved * arch.rcHalf) false false)
    (unmarked : fields.hasSidetableRC = false → moved = 0)
    (deallocating : fields.deallocating = counter.deallocating)
    (total : extent = fields.extraRC + moved * arch.rcHalf) :
    ReleasedAs arch performDealloc (.alive ⟨.nonpointer fields, refcnt⟩) counter.release := by
  obtain ⟨kept, flag, after⟩ := Counter.release_extent before
  refine ⟨kept.symm, by rw [kept]; rfl, rfl, (represents_nonpointer rfl).mpr ⟨moved, ?_⟩⟩
  refine ⟨fits, entry, unmarked, by rw [flag, deallocating], ?_⟩
  rw [after, total]
  omega

theorem NonpointerCount.subRC {moved : ℕ} {fields : IsaFields} {refcnt : Option ℕ}
    (held : NonpointerCount arch moved fields refcnt counter) (some_extra : fields.extraRC ≠ 0)
    (performDealloc : Bool) :
    ReleasedAs arch performDealloc (.alive ⟨.nonpointer (fields.subRC arch).1, refcnt⟩)
      counter.release := by
  have fits := held.fits
  have total := held.total
  have difference : (fields.extraRC + arch.rcRange - 1) % arch.rcRange = fields.extraRC - 1 := by
    rw [show fields.extraRC + arch.rcRange - 1 = fields.extraRC - 1 + arch.rcRange by omega,
      Nat.add_mod_right, Nat.mod_eq_of_lt (by omega)]
  have new : (fields.subRC arch).1 = { fields with extraRC := fields.extraRC - 1 } := by
    rw [IsaFields.subRC, difference]
  rw [new]
  exact .alive (fields.extraRC - 1 + moved * arch.rcHalf) (by omega)
    (show fields.extraRC - 1 < arch.rcRange by omega) held.entry held.unmarked held.deallocating rfl

theorem NonpointerCount.redo {rest : ℕ} {fields : IsaFields} {refcnt entry : Option ℕ}
    (held : NonpointerCount arch (rest + 1) fields refcnt counter) (none_extra : fields.extraRC = 0)
    (left : Holds arch entry (rest * arch.rcHalf) false false) (performDealloc : Bool) :
    ReleasedAs arch performDealloc
      (.alive ⟨.nonpointer { fields with extraRC := arch.rcHalf - 1 }, entry⟩) counter.release := by
  have half := arch.rcHalf_pos
  have range := arch.rcRange_eq
  have total := held.total
  have next : (rest + 1) * arch.rcHalf = rest * arch.rcHalf + arch.rcHalf := Nat.succ_mul _ _
  have marked : fields.hasSidetableRC = true := by
    by_contra unmarked
    exact absurd (held.unmarked (by simpa using unmarked)) (Nat.succ_ne_zero rest)
  exact .alive (arch.rcHalf - 1 + rest * arch.rcHalf) (by omega)
    (show arch.rcHalf - 1 < arch.rcRange by omega) left (by simp [marked]) held.deallocating rfl

theorem NonpointerCount.putBack {rest : ℕ} {fields : IsaFields} {refcnt entry : Option ℕ}
    (held : NonpointerCount arch (rest + 1) fields refcnt counter)
    (left : Holds arch entry (rest * arch.rcHalf) false false) :
    NonpointerCount arch (rest + 1) fields (sidetableAddExtraRC arch arch.rcHalf entry).2 counter := by
  have next : (rest + 1) * arch.rcHalf = rest * arch.rcHalf + arch.rcHalf := Nat.succ_mul _ _
  refine ⟨held.fits, ?_, held.unmarked, held.deallocating, held.total⟩
  have small := held.entry.2
  rw [next] at small ⊢
  exact left.addExtraRC small

theorem NonpointerCount.last {fields : IsaFields} {refcnt : Option ℕ}
    (held : NonpointerCount arch 0 fields refcnt counter) (none_extra : fields.extraRC = 0)
    (positive : 0 < counter.count) (performDealloc : Bool) :
    fields.deallocating = false ∧
      ReleasedAs arch performDealloc
        ⟨true, performDealloc, false, ⟨.nonpointer { fields with deallocating := true }, refcnt⟩⟩
        counter.release := by
  have alone : counter.extent = 1 := by
    have total := held.total
    omega
  obtain ⟨living, last⟩ := Counter.release_last alone positive
  rw [last]
  refine ⟨by rw [held.deallocating, living], rfl, rfl, rfl, (represents_nonpointer rfl).mpr ⟨0, ?_⟩⟩
  refine ⟨held.fits, held.entry, held.unmarked, rfl, ?_⟩
  simp [Counter.extent, none_extra]

theorem Represents.rootRelease (stands : Represents arch object counter)
    (performDealloc handleUnderflow sideTableLocked : Bool) (stores : List Bool)
    (positive : 0 < counter.count) :
    ReleasedAs arch performDealloc
      (rootRelease arch performDealloc handleUnderflow sideTableLocked stores object)
      counter.release := by
  fun_induction Retain.rootRelease arch performDealloc handleUnderflow sideTableLocked stores object with
  | case1 _ _ _ object cls shape metaclass =>
      have instances := ((represents_raw shape).mp stands).instances
      exact absurd metaclass (by simp [instances])
  | case2 _ _ _ object cls shape _ retained entry released =>
      obtain ⟨instances, named, extra, weak, total, held⟩ := (represents_raw shape).mp stands
      cases extra with
      | zero =>
          obtain ⟨living, last⟩ := Counter.release_last total positive
          rw [living] at held
          obtain ⟨done, stored⟩ := held.release_last
          rw [released] at done stored
          rw [last]
          exact ⟨done, by simp [show retained = true from done], rfl,
            (represents_raw (by exact shape)).mpr ⟨instances, named, 0, weak, rfl, stored⟩⟩
      | succ extra =>
          obtain ⟨kept, flag, after⟩ := Counter.release_extent
            (show counter.extent = extra + 2 by omega)
          obtain ⟨done, stored⟩ := held.release
          rw [released] at done stored
          refine ⟨by rw [kept]; exact done, by simp [kept, show retained = false from done], rfl,
            (represents_raw (by exact shape)).mpr ⟨instances, named, extra, weak, ?_, ?_⟩⟩
          · rw [after]
            omega
          · rw [flag]
            exact stored
  | case3 _ _ _ _ _ _ _ _ _ _ ih => exact ih stands
  | case4 _ _ _ object oldisa shape newisa carry difference uncarried _ =>
      obtain ⟨moved, held⟩ := (represents_nonpointer shape).mp stands
      obtain ⟨rfl, carried⟩ := subRC_carry difference
      have some_extra : ¬oldisa.extraRC = 0 := by
        rw [← carried]
        simpa using uncarried
      exact held.subRC some_extra performDealloc
  | case5 _ _ _ _ _ _ _ _ _ _ _ ih => exact ih stands
  | case6 _ _ _ _ _ _ _ _ _ _ _ _ ih => exact ih stands
  | case7 _ _ object oldisa shape _ carry difference borrows _ _ borrowed entry taken some_left
      putBack _ _ overflows ih =>
      obtain ⟨moved, held⟩ := (represents_nonpointer shape).mp stands
      obtain ⟨rfl, rfl, rfl⟩ | ⟨rest, rfl, rfl, left⟩ := held.borrow taken
      · exact absurd some_left (by decide)
      · exact ih ((represents_nonpointer (by exact shape)).mpr ⟨rest + 1, held.putBack left⟩)
  | case8 _ _ object oldisa shape _ carry difference borrows _ _ borrowed entry taken some_left
      putBack _ _ _ _ _ ih =>
      obtain ⟨moved, held⟩ := (represents_nonpointer shape).mp stands
      obtain ⟨rfl, rfl, rfl⟩ | ⟨rest, rfl, rfl, left⟩ := held.borrow taken
      · exact absurd some_left (by decide)
      · exact ih ((represents_nonpointer (by exact shape)).mpr ⟨rest + 1, held.putBack left⟩)
  | case9 _ _ object oldisa shape _ carry difference borrows _ _ borrowed entry taken some_left
      _ newisa2 overflow sum _ _ =>
      obtain ⟨moved, held⟩ := (represents_nonpointer shape).mp stands
      obtain ⟨-, carried⟩ := subRC_carry difference
      have none_extra : oldisa.extraRC = 0 := carried.mp (by simpa using borrows)
      obtain ⟨rfl, rfl, rfl⟩ | ⟨rest, rfl, rfl, left⟩ := held.borrow taken
      · exact absurd some_left (by decide)
      · have fits : arch.rcHalf - 1 < arch.rcRange := by
          have := arch.rcRange_eq
          omega
        have same : newisa2 = { oldisa with extraRC := arch.rcHalf - 1 } := by
          rw [(addRC_carry sum).1, IsaFields.addRC, none_extra, Nat.zero_add, Nat.mod_eq_of_lt fits]
        rw [same]
        exact held.redo none_extra left performDealloc
  | case10 _ _ _ object oldisa shape _ carry difference borrows _ _ borrowed entry taken some_left _ =>
      obtain ⟨moved, held⟩ := (represents_nonpointer shape).mp stands
      obtain ⟨-, carried⟩ := subRC_carry difference
      have none_extra : oldisa.extraRC = 0 := carried.mp (by simpa using borrows)
      obtain ⟨rfl, rfl, rfl⟩ | ⟨rest, rfl, rfl, left⟩ := held.borrow taken
      · exact absurd some_left (by decide)
      · exact held.redo none_extra left performDealloc
  | case11 _ _ _ object oldisa shape _ carry difference borrows _ _ borrowed entry taken none_left
      dying =>
      obtain ⟨moved, held⟩ := (represents_nonpointer shape).mp stands
      obtain ⟨-, carried⟩ := subRC_carry difference
      have none_extra : oldisa.extraRC = 0 := carried.mp (by simpa using borrows)
      obtain ⟨rfl, rfl, rfl⟩ | ⟨rest, rfl, rfl, left⟩ := held.borrow taken
      · have living := (held.last none_extra positive performDealloc).1
        exact absurd dying (by simp [living])
      · exact absurd arch.rcHalf_pos none_left
  | case12 _ _ object oldisa shape _ carry difference borrows _ _ borrowed entry taken none_left
      _ _ ih =>
      obtain ⟨moved, held⟩ := (represents_nonpointer shape).mp stands
      obtain ⟨rfl, rfl, rfl⟩ | ⟨rest, rfl, rfl, left⟩ := held.borrow taken
      · exact ih stands
      · exact absurd arch.rcHalf_pos none_left
  | case13 _ _ _ object oldisa shape _ carry difference borrows _ _ borrowed entry taken none_left
      _ _ =>
      obtain ⟨moved, held⟩ := (represents_nonpointer shape).mp stands
      obtain ⟨-, carried⟩ := subRC_carry difference
      have none_extra : oldisa.extraRC = 0 := carried.mp (by simpa using borrows)
      obtain ⟨rfl, rfl, rfl⟩ | ⟨rest, rfl, rfl, left⟩ := held.borrow taken
      · exact (held.last none_extra positive performDealloc).2
      · exact absurd arch.rcHalf_pos none_left

/-! ## Class and flags -/

theorem NonpointerCount.moveOut {moved : ℕ} {fields : IsaFields} {refcnt : Option ℕ} {cls : Class}
    (held : NonpointerCount arch moved fields refcnt counter) (instances : cls.isMetaClass = false)
    (named : cls.address ≠ 0) (room : counter.extent ≤ arch.pinningLimit) :
    RawCount arch cls
      (sidetableMoveExtraRC arch fields.extraRC fields.deallocating fields.weaklyReferenced refcnt)
      counter := by
  have total := held.total
  refine ⟨instances, named, moved * arch.rcHalf + fields.extraRC, fields.weaklyReferenced,
    by omega, ?_⟩
  rw [← held.deallocating]
  exact held.entry.moveExtraRC (packRefcnt_lt _ _ (by omega))

theorem Represents.changeIsa (stands : Represents arch object counter) (classForIndex : ℕ → ℕ)
    {newCls : Class} (stores : List Bool) (instances : newCls.isMetaClass = false)
    (named : newCls.address ≠ 0) (room : counter.extent ≤ arch.pinningLimit) :
    Represents arch (changeIsa arch classForIndex newCls stores object).2 counter := by
  fun_induction Retain.changeIsa arch classForIndex newCls stores object with
  | case1 _ ih => exact ih
  | case2 _ _ =>
      unfold changedIsa
      cases shape : object.isa with
      | raw cls =>
          have held := (represents_raw shape).mp stands
          simp only [held.named, decide_false, Bool.false_and, Bool.false_eq_true, if_false]
          exact (represents_raw rfl).mpr ⟨instances, named, held.entry⟩
      | nonpointer oldisa =>
          obtain ⟨moved, held⟩ := (represents_nonpointer shape).mp stands
          simp only
          split
          · refine (represents_nonpointer rfl).mpr ⟨moved, ?_⟩
            exact ⟨held.fits, held.entry, held.unmarked, held.deallocating, held.total⟩
          · exact (represents_raw rfl).mpr (held.moveOut instances named room)

theorem Represents.setWeaklyReferenced (stands : Represents arch object counter)
    (stores : List Bool) : Represents arch (setWeaklyReferenced stores object) counter := by
  fun_induction Retain.setWeaklyReferenced stores object with
  | case1 _ ih => exact ih
  | case2 _ cls shape _ =>
      obtain ⟨instances, named, extra, weak, total, held⟩ := (represents_raw shape).mp stands
      exact (represents_raw (by exact shape)).mpr
        ⟨instances, named, extra, true, total, held.setWeaklyReferenced⟩
  | case3 _ oldisa shape _ =>
      obtain ⟨moved, held⟩ := (represents_nonpointer shape).mp stands
      refine (represents_nonpointer rfl).mpr ⟨moved, ?_⟩
      exact ⟨held.fits, held.entry, held.unmarked, held.deallocating, held.total⟩

theorem Represents.purgeRefcnt (stands : Represents arch object counter) :
    Represents arch (purgeRefcnt object) counter := by
  unfold Retain.purgeRefcnt
  split
  next zero =>
    cases shape : object.isa with
    | raw cls =>
        have held := (represents_raw shape).mp stands
        rw [zero] at held
        exact (represents_raw rfl).mpr ⟨held.instances, held.named, held.entry⟩
    | nonpointer fields =>
        obtain ⟨moved, held⟩ := (represents_nonpointer shape).mp stands
        rw [zero] at held
        exact (represents_nonpointer rfl).mpr
          ⟨moved, held.fits, held.entry, held.unmarked, held.deallocating, held.total⟩
  next => exact stands

end ObjcDyld.Retain
