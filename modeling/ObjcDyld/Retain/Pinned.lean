import ObjcDyld.Retain.Runs

/-!
# Pinned retain counts

A side-table count that reaches the top bit of its word is pinned.  The
functions that count in the side table leave a pinned word alone;
`sidetable_subExtraRC_nolock` does not look at the bit.
-/

namespace ObjcDyld.Retain

/-- `SIDE_TABLE_RC_PINNED` is set in the object's side-table word. -/
def Pinned (arch : Arch) (object : Object) : Prop :=
  object.refcnt.getD 0 &&& arch.sideTableRCPinned ≠ 0

instance (arch : Arch) (object : Object) : Decidable (Pinned arch object) :=
  inferInstanceAs (Decidable (_ ≠ _))

variable {arch : Arch}

theorem and_pinned_iff {refcnt : ℕ} (fits : refcnt < 2 ^ arch.wordBits) :
    refcnt &&& arch.sideTableRCPinned ≠ 0 ↔ arch.sideTableRCPinned ≤ refcnt := by
  have double := pinned_double arch
  constructor
  · intro set
    by_contra below
    exact set (and_pinned (by omega))
  · intro above
    have quotient : refcnt / arch.sideTableRCPinned = 1 :=
      Nat.div_eq_of_lt_le (by omega) (by omega)
    rw [Arch.sideTableRCPinned] at quotient ⊢
    rw [Nat.and_two_pow, Nat.testBit_eq_decide_div_mod_eq, quotient]
    simp

/-! ## The side table's own counting -/

/-- What a function that respects the pinned bit does to the word of a raw isa. -/
structure KeepsPin (arch : Arch) (before after : Option ℕ) : Prop where
  fits : after.getD 0 < 2 ^ arch.wordBits
  pinned : arch.sideTableRCPinned ≤ before.getD 0 → arch.sideTableRCPinned ≤ after.getD 0

namespace KeepsPin

variable {storage : Option ℕ}

theorem refl (fits : storage.getD 0 < 2 ^ arch.wordBits) : KeepsPin arch storage storage :=
  ⟨fits, id⟩

theorem small {refcnt : ℕ} (fits : refcnt < 4) (empty : storage.getD 0 < arch.sideTableRCPinned) :
    KeepsPin arch storage (some refcnt) := by
  refine ⟨?_, fun above => absurd empty (by omega)⟩
  show refcnt < _
  cases arch <;> simp only [Arch.wordBits] <;> omega

theorem none_lt (arch : Arch) : (none : Option ℕ).getD 0 < arch.sideTableRCPinned :=
  Nat.two_pow_pos _

theorem counted {refcnt new : ℕ} (fits : refcnt < 2 ^ arch.wordBits)
    (unpinned : refcnt &&& arch.sideTableRCPinned = 0) (wrapped : new < 2 ^ arch.wordBits) :
    KeepsPin arch (some refcnt) (some new) := by
  refine ⟨wrapped, fun above => ?_⟩
  exact absurd unpinned ((and_pinned_iff fits).mpr above)

theorem flagged {refcnt flags : ℕ} {after : Option ℕ} (small : flags < 4)
    (keeps : KeepsPin arch storage (some refcnt)) (set : after = some (refcnt ||| flags)) :
    KeepsPin arch storage after := by
  subst set
  have room : flags < 2 ^ arch.wordBits := by
    cases arch <;> simp only [Arch.wordBits] <;> omega
  exact ⟨Nat.or_lt_two_pow keeps.fits room, fun above => (keeps.pinned above).trans Nat.left_le_or⟩

theorem addc_lt (arch : Arch) (lhs rhs : ℕ) :
    (addc arch.wordBits lhs rhs).1 < 2 ^ arch.wordBits := Nat.mod_lt _ (Nat.two_pow_pos _)

theorem subc_lt (arch : Arch) (lhs rhs : ℕ) :
    (subc arch.wordBits lhs rhs).1 < 2 ^ arch.wordBits := Nat.mod_lt _ (Nat.two_pow_pos _)

theorem retain (fits : storage.getD 0 < 2 ^ arch.wordBits) :
    KeepsPin arch storage (sidetableRetain arch storage) := by
  unfold sidetableRetain
  simp only
  split
  next unpinned =>
    refine ⟨addc_lt arch _ _, fun above => ?_⟩
    exact absurd unpinned ((and_pinned_iff fits).mpr above)
  next => exact ⟨fits, id⟩

theorem tryRetain (fits : storage.getD 0 < 2 ^ arch.wordBits) :
    KeepsPin arch storage (sidetableTryRetain arch storage).2 := by
  unfold sidetableTryRetain
  split
  next =>
    refine ⟨?_, fun above => absurd (none_lt arch) (by omega)⟩
    cases arch <;> decide
  next refcnt =>
    split
    next => exact .refl fits
    next =>
      split
      next unpinned => exact .counted fits unpinned (addc_lt arch _ _)
      next => exact .refl fits

theorem release (fits : storage.getD 0 < 2 ^ arch.wordBits) :
    KeepsPin arch storage (sidetableRelease arch storage).2 ∧
      (arch.sideTableRCPinned ≤ storage.getD 0 → (sidetableRelease arch storage).1 = false) := by
  have flag : sideTableDeallocating < arch.sideTableRCPinned := by cases arch <;> decide
  unfold sidetableRelease
  split
  next =>
    refine ⟨.small (by decide) (none_lt arch), fun above => absurd (none_lt arch) (by omega)⟩
  next refcnt =>
    split
    next low =>
      have below : refcnt < arch.sideTableRCPinned := low.trans flag
      refine ⟨?_, fun above => absurd below (Nat.not_lt.mpr above)⟩
      exact .flagged (by decide) (.refl fits) rfl
    next =>
      split
      next unpinned => exact ⟨.counted fits unpinned (subc_lt arch _ _), fun _ => rfl⟩
      next => exact ⟨.refl fits, fun _ => rfl⟩

theorem setWeaklyReferenced (fits : storage.getD 0 < 2 ^ arch.wordBits) :
    KeepsPin arch storage (sidetableSetWeaklyReferenced storage) := by
  have same : KeepsPin arch storage (some (storage.getD 0)) := ⟨fits, id⟩
  exact .flagged (by decide) same rfl

theorem moveExtraRC (extraRC : ℕ) (isDeallocating weaklyReferenced : Bool) :
    KeepsPin arch storage
      (sidetableMoveExtraRC arch extraRC isDeallocating weaklyReferenced storage) := by
  have double := pinned_double arch
  have positive : 0 < arch.sideTableRCPinned := Nat.two_pow_pos _
  have moved : KeepsPin arch storage
      (some (if (addc arch.wordBits (storage.getD 0) (shiftRC arch extraRC)).2 then
        arch.sideTableRCPinned
      else (addc arch.wordBits (storage.getD 0) (shiftRC arch extraRC)).1)) := by
    split
    next => exact ⟨show arch.sideTableRCPinned < _ by omega, fun _ => Nat.le_refl _⟩
    next uncarried =>
      refine ⟨addc_lt arch _ _, fun above => ?_⟩
      have short : storage.getD 0 + shiftRC arch extraRC < 2 ^ arch.wordBits := by
        simpa [addc] using uncarried
      show _ ≤ (storage.getD 0 + shiftRC arch extraRC) % 2 ^ arch.wordBits
      rw [Nat.mod_eq_of_lt short]
      omega
  unfold sidetableMoveExtraRC
  cases isDeallocating <;> cases weaklyReferenced
  · exact moved
  · exact .flagged (by decide) moved rfl
  · exact .flagged (by decide) moved rfl
  · exact .flagged (by decide) (.flagged (by decide) moved rfl) rfl

end KeepsPin

/-! ## The share of a nonpointer isa -/

/--
What the side table holds for a nonpointer isa: whole multiples of `RC_HALF`, at most the pinned
word itself, and nothing before `has_sidetable_rc` is set.
-/
structure PackedShare (arch : Arch) (fields : IsaFields) (refcnt : Option ℕ) : Prop where
  extraRC_lt : fields.extraRC < arch.rcRange
  halves : 4 * arch.rcHalf ∣ refcnt.getD 0
  capped : refcnt.getD 0 ≤ arch.sideTableRCPinned
  unmarked : fields.hasSidetableRC = false → refcnt.getD 0 = 0

theorem Arch.halves_pinned (arch : Arch) : 4 * arch.rcHalf ∣ arch.sideTableRCPinned := by
  cases arch <;> decide +kernel

theorem shiftRC_half (arch : Arch) : shiftRC arch arch.rcHalf = 4 * arch.rcHalf := by
  cases arch <;> decide +kernel

namespace PackedShare

variable {fields : IsaFields} {refcnt : Option ℕ}

theorem fits (share : PackedShare arch fields refcnt) : refcnt.getD 0 < 2 ^ arch.wordBits := by
  have double := pinned_double arch
  have positive : 0 < arch.sideTableRCPinned := Nat.two_pow_pos _
  have capped := share.capped
  omega

theorem addExtraRC_below (share : PackedShare arch fields refcnt)
    (below : refcnt.getD 0 < arch.sideTableRCPinned) :
    refcnt.getD 0 + 4 * arch.rcHalf ≤ arch.sideTableRCPinned ∧
      sidetableAddExtraRC arch arch.rcHalf refcnt =
        (false, some (refcnt.getD 0 + 4 * arch.rcHalf)) := by
  have double := pinned_double arch
  have room : refcnt.getD 0 + 4 * arch.rcHalf ≤ arch.sideTableRCPinned := by
    obtain ⟨before, word⟩ := share.halves
    obtain ⟨limit, pinned⟩ := arch.halves_pinned
    rw [word, pinned, ← Nat.mul_add_one]
    rw [word, pinned] at below
    exact Nat.mul_le_mul_left _ (Nat.lt_of_mul_lt_mul_left below)
  have sum : addc arch.wordBits (refcnt.getD 0) (shiftRC arch arch.rcHalf) =
      (refcnt.getD 0 + 4 * arch.rcHalf, false) := by
    rw [shiftRC_half, addc, Nat.mod_eq_of_lt (by omega)]
    exact Prod.ext rfl (decide_eq_false (by omega))
  refine ⟨room, ?_⟩
  simp [sidetableAddExtraRC, and_pinned below, sum]

theorem addExtraRC (share : PackedShare arch fields refcnt) :
    4 * arch.rcHalf ∣ (sidetableAddExtraRC arch arch.rcHalf refcnt).2.getD 0 ∧
      (sidetableAddExtraRC arch arch.rcHalf refcnt).2.getD 0 ≤ arch.sideTableRCPinned ∧
      (arch.sideTableRCPinned ≤ refcnt.getD 0 →
        arch.sideTableRCPinned ≤ (sidetableAddExtraRC arch arch.rcHalf refcnt).2.getD 0) := by
  obtain below | above := Nat.lt_or_ge (refcnt.getD 0) arch.sideTableRCPinned
  · obtain ⟨room, sum⟩ := share.addExtraRC_below below
    rw [sum]
    exact ⟨(Nat.dvd_add_right share.halves).mpr (dvd_refl _), room, fun pinned =>
      absurd pinned (Nat.not_le.mpr below)⟩
  · have same : sidetableAddExtraRC arch arch.rcHalf refcnt = (true, some (refcnt.getD 0)) := by
      simp [sidetableAddExtraRC, (and_pinned_iff share.fits).mpr above]
    rw [same]
    exact ⟨share.halves, share.capped, id⟩

theorem subExtraRC (share : PackedShare arch fields refcnt) (held : refcnt.getD 0 ≠ 0) :
    4 * arch.rcHalf ≤ refcnt.getD 0 ∧
      sidetableSubExtraRC arch arch.rcHalf refcnt =
        (arch.rcHalf, some (refcnt.getD 0 - 4 * arch.rcHalf)) := by
  have double := pinned_double arch
  have capped := share.capped
  have enough : 4 * arch.rcHalf ≤ refcnt.getD 0 :=
    Nat.le_of_dvd (Nat.pos_of_ne_zero held) share.halves
  refine ⟨enough, ?_⟩
  cases refcnt with
  | none => exact absurd rfl held
  | some refcnt =>
      simp only [Option.getD_some] at held enough capped ⊢
      have difference : (subc arch.wordBits refcnt (shiftRC arch arch.rcHalf)).1 =
          refcnt - 4 * arch.rcHalf := by
        rw [shiftRC_half, subc, show refcnt + 2 ^ arch.wordBits - 4 * arch.rcHalf =
          refcnt - 4 * arch.rcHalf + 2 ^ arch.wordBits by omega, Nat.add_mod_right,
          Nat.mod_eq_of_lt (by omega)]
      rw [sidetableSubExtraRC, if_neg held, difference]

theorem subExtraRC_zero (empty : refcnt.getD 0 = 0) :
    sidetableSubExtraRC arch arch.rcHalf refcnt = (0, refcnt) := by
  cases refcnt with
  | none => rfl
  | some refcnt =>
      have zero : refcnt = 0 := empty
      rw [sidetableSubExtraRC, if_pos zero]

theorem putBack (share : PackedShare arch fields refcnt) (held : refcnt.getD 0 ≠ 0) :
    (sidetableAddExtraRC arch arch.rcHalf (some (refcnt.getD 0 - 4 * arch.rcHalf))).2 = refcnt := by
  have double := pinned_double arch
  have half := arch.rcHalf_pos
  have capped := share.capped
  obtain ⟨enough, -⟩ := share.subExtraRC held
  have below : (refcnt.getD 0 - 4 * arch.rcHalf) &&& arch.sideTableRCPinned = 0 :=
    and_pinned (by omega)
  have sum : addc arch.wordBits (refcnt.getD 0 - 4 * arch.rcHalf) (shiftRC arch arch.rcHalf) =
      (refcnt.getD 0, false) := by
    rw [shiftRC_half, addc, Nat.sub_add_cancel enough, Nat.mod_eq_of_lt (by omega)]
    exact Prod.ext rfl (decide_eq_false (by omega))
  cases refcnt with
  | none => exact absurd rfl held
  | some refcnt =>
      simp only [Option.getD_some] at below sum ⊢
      simp [sidetableAddExtraRC, below, sum]

theorem putBack_object {object : Object} (share : PackedShare arch fields object.refcnt)
    (held : object.refcnt.getD 0 ≠ 0) :
    ({ object with
        refcnt := (sidetableAddExtraRC arch arch.rcHalf
          (some (object.refcnt.getD 0 - 4 * arch.rcHalf))).2 } : Object) = object := by
  rw [share.putBack held]

theorem borrow (share : PackedShare arch fields refcnt) {borrowed : ℕ} {entry : Option ℕ}
    (taken : (if fields.hasSidetableRC = true then sidetableSubExtraRC arch arch.rcHalf refcnt
      else (0, refcnt)) = (borrowed, entry)) :
    (refcnt.getD 0 = 0 ∧ borrowed = 0 ∧ entry = refcnt) ∨
      (refcnt.getD 0 ≠ 0 ∧ borrowed = arch.rcHalf ∧
        entry = some (refcnt.getD 0 - 4 * arch.rcHalf)) := by
  by_cases empty : refcnt.getD 0 = 0
  · rw [subExtraRC_zero empty, ite_self] at taken
    obtain ⟨rfl, rfl⟩ := Prod.mk.inj taken
    exact .inl ⟨empty, rfl, rfl⟩
  · have marked : fields.hasSidetableRC = true := by
      by_contra unmarked
      exact empty (share.unmarked (by simpa using unmarked))
    rw [if_pos marked, (share.subExtraRC empty).2] at taken
    obtain ⟨rfl, rfl⟩ := Prod.mk.inj taken
    exact .inr ⟨empty, rfl, rfl⟩

end PackedShare

/-- What a release can do to an object with a nonpointer isa. -/
inductive ReleasedPacked (arch : Arch) (performDealloc : Bool) (fields : IsaFields)
    (refcnt : Option ℕ) : Released → Prop
  | counted (some_extra : fields.extraRC ≠ 0) :
      ReleasedPacked arch performDealloc fields refcnt
        (.alive ⟨.nonpointer { fields with extraRC := fields.extraRC - 1 }, refcnt⟩)
  | borrowed (none_extra : fields.extraRC = 0) (held : refcnt.getD 0 ≠ 0) :
      ReleasedPacked arch performDealloc fields refcnt
        (.alive ⟨.nonpointer { fields with extraRC := arch.rcHalf - 1 },
          some (refcnt.getD 0 - 4 * arch.rcHalf)⟩)
  | overreleased (none_extra : fields.extraRC = 0) (empty : refcnt.getD 0 = 0) :
      ReleasedPacked arch performDealloc fields refcnt
        ⟨false, false, true, ⟨.nonpointer fields, refcnt⟩⟩
  | last (none_extra : fields.extraRC = 0) (empty : refcnt.getD 0 = 0) :
      ReleasedPacked arch performDealloc fields refcnt
        ⟨true, performDealloc, false,
          ⟨.nonpointer { fields with deallocating := true }, refcnt⟩⟩

theorem subRC_fields {fields : IsaFields} (fits : fields.extraRC < arch.rcRange)
    (some_extra : fields.extraRC ≠ 0) :
    (fields.subRC arch).1 = { fields with extraRC := fields.extraRC - 1 } := by
  have difference : (fields.extraRC + arch.rcRange - 1) % arch.rcRange = fields.extraRC - 1 := by
    rw [show fields.extraRC + arch.rcRange - 1 = fields.extraRC - 1 + arch.rcRange by omega,
      Nat.add_mod_right, Nat.mod_eq_of_lt (by omega)]
  rw [IsaFields.subRC, difference]

theorem PackedShare.rootRelease {object : Object} {fields : IsaFields}
    (packed : object.isa = .nonpointer fields) (share : PackedShare arch fields object.refcnt)
    (performDealloc handleUnderflow sideTableLocked : Bool) (stores : List Bool) :
    ReleasedPacked arch performDealloc fields object.refcnt
      (rootRelease arch performDealloc handleUnderflow sideTableLocked stores object) := by
  fun_induction Retain.rootRelease arch performDealloc handleUnderflow sideTableLocked stores object with
  | case1 _ _ _ object cls shape metaclass => simp [packed] at shape
  | case2 _ _ _ object cls shape _ retained entry released => simp [packed] at shape
  | case3 _ _ _ _ _ _ _ _ _ _ ih => exact ih packed share
  | case4 _ _ _ object oldisa shape newisa carry difference uncarried _ =>
      obtain rfl : fields = oldisa := Isa.nonpointer.inj (packed.symm.trans shape)
      obtain ⟨rfl, carried⟩ := subRC_carry difference
      have some_extra : fields.extraRC ≠ 0 := by
        rw [ne_eq, ← carried]
        simpa using uncarried
      rw [subRC_fields share.extraRC_lt some_extra]
      exact .counted some_extra
  | case5 _ _ _ _ _ _ _ _ _ _ _ ih => exact ih packed share
  | case6 _ _ _ _ _ _ _ _ _ _ _ _ ih => exact ih packed share
  | case7 _ _ object oldisa shape _ carry difference borrows _ _ borrowed entry taken some_left
      putBack _ _ overflows ih =>
      obtain rfl : fields = oldisa := Isa.nonpointer.inj (packed.symm.trans shape)
      obtain ⟨-, rfl, -⟩ | ⟨held, rfl, rfl⟩ := share.borrow taken
      · exact absurd some_left (by decide)
      · have same : putBack = object := share.putBack_object held
        rw [same] at ih ⊢
        exact ih packed share
  | case8 _ _ object oldisa shape _ carry difference borrows _ _ borrowed entry taken some_left
      putBack _ _ _ _ _ ih =>
      obtain rfl : fields = oldisa := Isa.nonpointer.inj (packed.symm.trans shape)
      obtain ⟨-, rfl, -⟩ | ⟨held, rfl, rfl⟩ := share.borrow taken
      · exact absurd some_left (by decide)
      · have same : putBack = object := share.putBack_object held
        rw [same] at ih ⊢
        exact ih packed share
  | case9 _ _ object oldisa shape _ carry difference borrows _ _ borrowed entry taken some_left
      _ newisa2 overflow sum _ _ =>
      obtain rfl : fields = oldisa := Isa.nonpointer.inj (packed.symm.trans shape)
      obtain ⟨-, carried⟩ := subRC_carry difference
      have none_extra : fields.extraRC = 0 := carried.mp (by simpa using borrows)
      obtain ⟨-, rfl, -⟩ | ⟨held, rfl, rfl⟩ := share.borrow taken
      · exact absurd some_left (by decide)
      · have fits : arch.rcHalf - 1 < arch.rcRange := by
          have := arch.rcRange_eq
          omega
        have same : newisa2 = { fields with extraRC := arch.rcHalf - 1 } := by
          rw [(addRC_carry sum).1, IsaFields.addRC, none_extra, Nat.zero_add, Nat.mod_eq_of_lt fits]
        rw [same]
        exact .borrowed none_extra held
  | case10 _ _ _ object oldisa shape _ carry difference borrows _ _ borrowed entry taken some_left _ =>
      obtain rfl : fields = oldisa := Isa.nonpointer.inj (packed.symm.trans shape)
      obtain ⟨-, carried⟩ := subRC_carry difference
      have none_extra : fields.extraRC = 0 := carried.mp (by simpa using borrows)
      obtain ⟨-, rfl, -⟩ | ⟨held, rfl, rfl⟩ := share.borrow taken
      · exact absurd some_left (by decide)
      · exact .borrowed none_extra held
  | case11 _ _ _ object oldisa shape _ carry difference borrows _ _ borrowed entry taken none_left
      dying =>
      obtain rfl : fields = oldisa := Isa.nonpointer.inj (packed.symm.trans shape)
      obtain ⟨-, carried⟩ := subRC_carry difference
      have none_extra : fields.extraRC = 0 := carried.mp (by simpa using borrows)
      obtain ⟨empty, rfl, rfl⟩ | ⟨held, rfl, rfl⟩ := share.borrow taken
      · rw [shape]
        exact .overreleased none_extra empty
      · exact absurd arch.rcHalf_pos none_left
  | case12 _ _ object oldisa shape _ carry difference borrows _ _ borrowed entry taken none_left
      _ _ ih =>
      obtain rfl : fields = oldisa := Isa.nonpointer.inj (packed.symm.trans shape)
      obtain ⟨empty, rfl, rfl⟩ | ⟨held, rfl, rfl⟩ := share.borrow taken
      · exact ih packed share
      · exact absurd arch.rcHalf_pos none_left
  | case13 _ _ _ object oldisa shape _ carry difference borrows _ _ borrowed entry taken none_left
      _ _ =>
      obtain rfl : fields = oldisa := Isa.nonpointer.inj (packed.symm.trans shape)
      obtain ⟨-, carried⟩ := subRC_carry difference
      have none_extra : fields.extraRC = 0 := carried.mp (by simpa using borrows)
      obtain ⟨empty, rfl, rfl⟩ | ⟨held, rfl, rfl⟩ := share.borrow taken
      · exact .last none_extra empty
      · exact absurd arch.rcHalf_pos none_left

/-! ## One call -/

/-- The object's words are as the runtime keeps them, whatever the count. -/
def WellKept (arch : Arch) (object : Object) : Prop :=
  match object.isa with
  | .raw cls => cls.address ≠ 0 ∧ object.refcnt.getD 0 < 2 ^ arch.wordBits
  | .nonpointer fields => PackedShare arch fields object.refcnt

variable {object : Object}

theorem wellKept_raw {cls : Class} (raw : object.isa = .raw cls) :
    WellKept arch object ↔ cls.address ≠ 0 ∧ object.refcnt.getD 0 < 2 ^ arch.wordBits := by
  rw [WellKept, raw]

theorem wellKept_nonpointer {fields : IsaFields} (packed : object.isa = .nonpointer fields) :
    WellKept arch object ↔ PackedShare arch fields object.refcnt := by
  rw [WellKept, packed]

theorem WellKept.fits (kept : WellKept arch object) :
    object.refcnt.getD 0 < 2 ^ arch.wordBits := by
  cases shape : object.isa with
  | raw cls => exact ((wellKept_raw shape).mp kept).2
  | nonpointer fields => exact ((wellKept_nonpointer shape).mp kept).fits

theorem WellKept.pinned_iff (kept : WellKept arch object) :
    Pinned arch object ↔ arch.sideTableRCPinned ≤ object.refcnt.getD 0 :=
  and_pinned_iff kept.fits

/-- The object is well kept afterwards, and still pinned if it was. -/
structure StaysPinned (arch : Arch) (before after : Object) : Prop where
  kept : WellKept arch after
  pinned : Pinned arch before → Pinned arch after

theorem StaysPinned.refl (kept : WellKept arch object) : StaysPinned arch object object :=
  ⟨kept, id⟩

theorem StaysPinned.raw {after : Object} {cls : Class} (kept : WellKept arch object)
    (shape : after.isa = .raw cls) (named : cls.address ≠ 0)
    (keeps : KeepsPin arch object.refcnt after.refcnt) : StaysPinned arch object after := by
  have still : WellKept arch after := (wellKept_raw shape).mpr ⟨named, keeps.fits⟩
  refine ⟨still, fun pinned => still.pinned_iff.mpr (keeps.pinned (kept.pinned_iff.mp pinned))⟩

theorem StaysPinned.fields {oldisa newisa : IsaFields} (kept : WellKept arch object)
    (shape : object.isa = .nonpointer oldisa) (fits : newisa.extraRC < arch.rcRange)
    (marked : newisa.hasSidetableRC = oldisa.hasSidetableRC) :
    StaysPinned arch object { object with isa := .nonpointer newisa } := by
  have share := (wellKept_nonpointer shape).mp kept
  refine ⟨(wellKept_nonpointer rfl).mpr ⟨fits, share.halves, share.capped, ?_⟩, id⟩
  rw [marked]
  exact share.unmarked

theorem WellKept.rootRetain (kept : WellKept arch object) (tryRetain handleOverflow : Bool)
    (stores : List Bool) :
    StaysPinned arch object (rootRetain arch tryRetain handleOverflow stores object).2 := by
  fun_induction Retain.rootRetain arch tryRetain handleOverflow stores object with
  | case1 _ _ cls shape metaclass => exact .refl kept
  | case2 _ _ cls shape _ trying retained entry tried =>
      obtain ⟨named, fits⟩ := (wellKept_raw shape).mp kept
      have keeps := KeepsPin.tryRetain fits
      rw [tried] at keeps
      exact .raw kept shape named keeps
  | case3 _ _ cls shape _ _ =>
      obtain ⟨named, fits⟩ := (wellKept_raw shape).mp kept
      exact .raw kept shape named (.retain fits)
  | case4 _ _ oldisa shape dying => exact .refl kept
  | case5 _ _ _ _ _ _ _ _ ih => exact ih
  | case6 _ _ _ _ _ _ _ _ ih => exact ih
  | case7 _ _ oldisa shape _ newisa _ halved _ sum =>
      have share := (wellKept_nonpointer shape).mp kept
      obtain ⟨halves, capped, pinned⟩ := share.addExtraRC
      have fits : arch.rcHalf < arch.rcRange := by
        have := arch.rcRange_eq
        have := arch.rcHalf_pos
        omega
      have still : WellKept arch ⟨.nonpointer halved,
          (sidetableAddExtraRC arch arch.rcHalf object.refcnt).2⟩ :=
        (wellKept_nonpointer rfl).mpr ⟨fits, halves, capped, fun unmarked =>
          absurd unmarked.symm Bool.false_ne_true⟩
      exact ⟨still, fun before =>
        still.pinned_iff.mpr (pinned (kept.pinned_iff.mp before))⟩
  | case8 _ _ _ _ _ _ _ _ _ ih => exact ih
  | case9 _ _ oldisa shape _ newisa carry sum uncarried _ =>
      obtain ⟨rfl, -⟩ := addRC_carry sum
      exact .fields kept shape (Nat.mod_lt _ (Nat.two_pow_pos _)) rfl

theorem WellKept.changeIsa (kept : WellKept arch object) (classForIndex : ℕ → ℕ) {newCls : Class}
    (stores : List Bool) (named : newCls.address ≠ 0) :
    StaysPinned arch object (changeIsa arch classForIndex newCls stores object).2 := by
  fun_induction Retain.changeIsa arch classForIndex newCls stores object with
  | case1 _ ih => exact ih
  | case2 _ _ =>
      unfold changedIsa
      cases shape : object.isa with
      | raw cls =>
          obtain ⟨some_class, fits⟩ := (wellKept_raw shape).mp kept
          simp only [some_class, decide_false, Bool.false_and, Bool.false_eq_true, if_false]
          exact .raw kept rfl named (.refl fits)
      | nonpointer oldisa =>
          have share := (wellKept_nonpointer shape).mp kept
          simp only
          split
          · exact .fields kept shape share.extraRC_lt rfl
          · exact .raw kept rfl named (.moveExtraRC _ _ _)

theorem WellKept.setWeaklyReferenced (kept : WellKept arch object) (stores : List Bool) :
    StaysPinned arch object (setWeaklyReferenced stores object) := by
  fun_induction Retain.setWeaklyReferenced stores object with
  | case1 _ ih => exact ih
  | case2 _ cls shape _ =>
      obtain ⟨named, fits⟩ := (wellKept_raw shape).mp kept
      exact .raw kept shape named (.setWeaklyReferenced fits)
  | case3 _ oldisa shape _ =>
      exact .fields kept shape ((wellKept_nonpointer shape).mp kept).extraRC_lt rfl

theorem WellKept.purgeRefcnt (kept : WellKept arch object) :
    StaysPinned arch object (purgeRefcnt object) := by
  unfold Retain.purgeRefcnt
  split
  next zero =>
    have unpinned : ¬Pinned arch object := by simp [Pinned, zero]
    refine ⟨?_, fun pinned => absurd pinned unpinned⟩
    cases shape : object.isa with
    | raw cls =>
        have held := (wellKept_raw shape).mp kept
        rw [zero] at held
        exact (wellKept_raw rfl).mpr held
    | nonpointer fields =>
        have share := (wellKept_nonpointer shape).mp kept
        rw [zero] at share
        exact (wellKept_nonpointer rfl).mpr
          ⟨share.extraRC_lt, share.halves, share.capped, share.unmarked⟩
  next => exact .refl kept

/-- The isa holds no count of its own: a release goes to the side table or deallocates. -/
def Object.ExtraRCEmpty (object : Object) : Prop :=
  match object.isa with
  | .raw _ => False
  | .nonpointer fields => fields.extraRC = 0

instance (object : Object) : Decidable object.ExtraRCEmpty := by
  unfold Object.ExtraRCEmpty
  cases object.isa <;> infer_instance

structure ReleasesPinned (arch : Arch) (before : Object) (result : Released) : Prop where
  kept : WellKept arch result.object
  spared : Pinned arch before → ¬before.ExtraRCEmpty →
    Pinned arch result.object ∧ result.shouldDealloc = false
  /-- The borrow takes the pinned bit itself. -/
  borrowed : Pinned arch before → before.ExtraRCEmpty → ¬Pinned arch result.object

theorem WellKept.rootRelease_raw {cls : Class} (kept : WellKept arch object)
    (shape : object.isa = .raw cls) (performDealloc handleUnderflow sideTableLocked : Bool)
    (stores : List Bool) :
    ReleasesPinned arch object
      (rootRelease arch performDealloc handleUnderflow sideTableLocked stores object) := by
  have never : ¬object.ExtraRCEmpty := by simp [Object.ExtraRCEmpty, shape]
  obtain ⟨named, fits⟩ := (wellKept_raw shape).mp kept
  rw [Retain.rootRelease, shape]
  simp only
  split
  next => exact ⟨kept, fun pinned _ => ⟨pinned, rfl⟩, fun _ empty => absurd empty never⟩
  next =>
    obtain ⟨keeps, alive⟩ := KeepsPin.release fits
    have stays : StaysPinned arch object
        ⟨.raw cls, (sidetableRelease arch object.refcnt).2⟩ := .raw kept rfl named keeps
    refine ⟨stays.kept, fun pinned _ => ⟨stays.pinned pinned, ?_⟩, fun _ empty =>
      absurd empty never⟩
    exact alive (kept.pinned_iff.mp pinned)

theorem WellKept.rootRelease_nonpointer {fields : IsaFields} (kept : WellKept arch object)
    (shape : object.isa = .nonpointer fields)
    (performDealloc handleUnderflow sideTableLocked : Bool) (stores : List Bool) :
    ReleasesPinned arch object
      (rootRelease arch performDealloc handleUnderflow sideTableLocked stores object) := by
  have share := (wellKept_nonpointer shape).mp kept
  have empty_iff : object.ExtraRCEmpty ↔ fields.extraRC = 0 := by simp [Object.ExtraRCEmpty, shape]
  have positive : 0 < arch.sideTableRCPinned := Nat.two_pow_pos _
  have fits := share.extraRC_lt
  have released := share.rootRelease shape performDealloc handleUnderflow sideTableLocked stores
  generalize Retain.rootRelease arch performDealloc handleUnderflow sideTableLocked stores object =
    result at released ⊢
  cases released with
  | counted some_extra =>
      have stays : StaysPinned arch object
          ⟨.nonpointer { fields with extraRC := fields.extraRC - 1 }, object.refcnt⟩ :=
        .fields kept shape (show fields.extraRC - 1 < arch.rcRange by omega) rfl
      exact ⟨stays.kept, fun pinned _ => ⟨stays.pinned pinned, rfl⟩, fun _ empty =>
        absurd (empty_iff.mp empty) some_extra⟩
  | borrowed none_extra held =>
      obtain ⟨enough, -⟩ := share.subExtraRC held
      have capped := share.capped
      have range := arch.rcRange_eq
      have half := arch.rcHalf_pos
      have still : WellKept arch ⟨.nonpointer { fields with extraRC := arch.rcHalf - 1 },
          some (object.refcnt.getD 0 - 4 * arch.rcHalf)⟩ := by
        refine (wellKept_nonpointer rfl).mpr
          ⟨show arch.rcHalf - 1 < arch.rcRange by omega,
            Nat.dvd_sub share.halves (dvd_refl _), (Nat.sub_le _ _).trans capped, fun unmarked => ?_⟩
        exact absurd (share.unmarked unmarked) held
      refine ⟨still, fun _ spared => absurd (empty_iff.mpr none_extra) spared, fun _ _ pinned => ?_⟩
      have above : arch.sideTableRCPinned ≤ object.refcnt.getD 0 - 4 * arch.rcHalf :=
        still.pinned_iff.mp pinned
      omega
  | overreleased none_extra empty =>
      have unpinned : ¬Pinned arch object := by simp [Pinned, empty]
      exact ⟨(wellKept_nonpointer rfl).mpr share, fun pinned => absurd pinned unpinned,
        fun pinned => absurd pinned unpinned⟩
  | last none_extra empty =>
      have unpinned : ¬Pinned arch object := by simp [Pinned, empty]
      have stays : StaysPinned arch object
          ⟨.nonpointer { fields with deallocating := true }, object.refcnt⟩ :=
        .fields kept shape fits rfl
      exact ⟨stays.kept, fun pinned => absurd pinned unpinned, fun pinned => absurd pinned unpinned⟩

theorem WellKept.rootRelease (kept : WellKept arch object)
    (performDealloc handleUnderflow sideTableLocked : Bool) (stores : List Bool) :
    ReleasesPinned arch object
      (rootRelease arch performDealloc handleUnderflow sideTableLocked stores object) := by
  cases shape : object.isa with
  | raw cls => exact kept.rootRelease_raw shape performDealloc handleUnderflow sideTableLocked stores
  | nonpointer fields =>
      exact kept.rootRelease_nonpointer shape performDealloc handleUnderflow sideTableLocked stores

/-! ## Runs -/

/-- The classes that a call installs are not nil: `changeIsa` reads their flags. -/
def RetainOp.Named : RetainOp → Prop
  | .changeIsa newCls _ => newCls.address ≠ 0
  | _ => True

/-- The call is not a release that has to borrow from a pinned word. -/
def RetainOp.Spares (arch : Arch) (object : Object) : RetainOp → Prop
  | .release _ => Pinned arch object → ¬object.ExtraRCEmpty
  | _ => True

instance (op : RetainOp) (object : Object) : Decidable (op.Spares arch object) := by
  cases op <;> unfold RetainOp.Spares <;> infer_instance

/-- Every call of a sequence spares the pinned bit when its turn comes. -/
def SparingRun (arch : Arch) (classForIndex : ℕ → ℕ) : List RetainOp → Object → Prop
  | [], _ => True
  | op :: ops, object =>
      op.Spares arch object ∧ SparingRun arch classForIndex ops (op.run arch classForIndex object).2

instance decidableSparingRun (classForIndex : ℕ → ℕ) : (ops : List RetainOp) → (object : Object) →
    Decidable (SparingRun arch classForIndex ops object)
  | [], _ => .isTrue trivial
  | op :: ops, object =>
      have := decidableSparingRun classForIndex ops (op.run arch classForIndex object).2
      inferInstanceAs (Decidable (_ ∧ _))

/--
Pinning absorbs: whenever a part of the sequence has left the object pinned, any calls that follow
leave it pinned and do not answer that it should be deallocated.
-/
def PinningAbsorbs (arch : Arch) (classForIndex : ℕ → ℕ) (ops : List RetainOp) (object : Object) :
    Prop :=
  ∀ earlier later rest, ops = earlier ++ (later ++ rest) →
    Pinned arch (runRetainOps arch classForIndex earlier object).2 →
      let result := runRetainOps arch classForIndex later
        (runRetainOps arch classForIndex earlier object).2
      Pinned arch result.2 ∧ .released true ∉ result.1

theorem WellKept.run (kept : WellKept arch object) (classForIndex : ℕ → ℕ) (op : RetainOp)
    (named : op.Named) :
    WellKept arch (op.run arch classForIndex object).2 ∧
      (Pinned arch object →
        (op.Spares arch object ↔ Pinned arch (op.run arch classForIndex object).2 ∧
          (op.run arch classForIndex object).1 ≠ .released true)) := by
  have unaffected {answer : Answer} {after : Object} (other : answer ≠ .released true)
      (stays : StaysPinned arch object after) : WellKept arch after ∧
        (Pinned arch object → (True ↔ Pinned arch after ∧ answer ≠ .released true)) :=
    ⟨stays.kept, fun pinned => iff_of_true trivial ⟨stays.pinned pinned, other⟩⟩
  cases op with
  | retain stores => exact unaffected Answer.noConfusion (kept.rootRetain false false stores)
  | tryRetain stores => exact unaffected Answer.noConfusion (kept.rootRetain true false stores)
  | release stores =>
      have released := kept.rootRelease true false false stores
      refine ⟨released.kept, fun pinned => ⟨fun spares => ?_, fun after _ empty => ?_⟩⟩
      · obtain ⟨still, alive⟩ := released.spared pinned (spares pinned)
        refine ⟨still, fun dealloc => ?_⟩
        rw [RetainOp.run, Answer.released.injEq, alive] at dealloc
        exact Bool.false_ne_true dealloc
      · exact released.borrowed pinned empty after.1
  | changeIsa newCls stores =>
      exact unaffected Answer.noConfusion (kept.changeIsa classForIndex stores named)
  | setWeaklyReferenced stores => exact unaffected Answer.noConfusion (kept.setWeaklyReferenced stores)
  | purge => exact unaffected Answer.noConfusion kept.purgeRefcnt

variable {classForIndex : ℕ → ℕ}

theorem runRetainOps_append (earlier later : List RetainOp) (object : Object) :
    (runRetainOps arch classForIndex (earlier ++ later) object).1 =
        (runRetainOps arch classForIndex earlier object).1 ++
          (runRetainOps arch classForIndex later
            (runRetainOps arch classForIndex earlier object).2).1 ∧
      (runRetainOps arch classForIndex (earlier ++ later) object).2 =
        (runRetainOps arch classForIndex later
          (runRetainOps arch classForIndex earlier object).2).2 := by
  induction earlier generalizing object with
  | nil => exact ⟨rfl, rfl⟩
  | cons op earlier ih =>
      obtain ⟨answers, after⟩ := ih (op.run arch classForIndex object).2
      exact ⟨congrArg (List.cons _) answers, after⟩

theorem SparingRun.of_append {earlier later : List RetainOp}
    (spares : SparingRun arch classForIndex (earlier ++ later) object) :
    SparingRun arch classForIndex earlier object ∧
      SparingRun arch classForIndex later (runRetainOps arch classForIndex earlier object).2 := by
  induction earlier generalizing object with
  | nil => exact ⟨trivial, spares⟩
  | cons op earlier ih =>
      obtain ⟨first, rest⟩ := ih spares.2
      exact ⟨⟨spares.1, first⟩, rest⟩

theorem WellKept.runRetainOps {ops : List RetainOp} (kept : WellKept arch object)
    (named : ∀ op ∈ ops, op.Named) :
    WellKept arch (runRetainOps arch classForIndex ops object).2 := by
  induction ops generalizing object with
  | nil => exact kept
  | cons op ops ih =>
      have after := (kept.run classForIndex op (named op List.mem_cons_self)).1
      exact ih after fun op member => named op (List.mem_cons_of_mem _ member)

theorem WellKept.absorbs {ops : List RetainOp} (kept : WellKept arch object)
    (named : ∀ op ∈ ops, op.Named) (pinned : Pinned arch object)
    (spares : SparingRun arch classForIndex ops object) :
    Pinned arch (Retain.runRetainOps arch classForIndex ops object).2 ∧
      .released true ∉ (Retain.runRetainOps arch classForIndex ops object).1 := by
  induction ops generalizing object with
  | nil => exact ⟨pinned, List.not_mem_nil⟩
  | cons op ops ih =>
      obtain ⟨after, absorbs⟩ := kept.run classForIndex op (named op List.mem_cons_self)
      obtain ⟨still, other⟩ := (absorbs pinned).mp spares.1
      obtain ⟨final, others⟩ :=
        ih after (fun op member => named op (List.mem_cons_of_mem _ member)) still spares.2
      refine ⟨final, fun member => ?_⟩
      obtain here | there := List.mem_cons.mp member
      · exact other here.symm
      · exact others there

theorem PinningAbsorbs.tail {op : RetainOp} {ops : List RetainOp}
    (absorbs : PinningAbsorbs arch classForIndex (op :: ops) object) :
    PinningAbsorbs arch classForIndex ops (op.run arch classForIndex object).2 := by
  intro earlier later rest split pinned
  exact absorbs (op :: earlier) later rest (congrArg (List.cons op) split) pinned

/--
In a sequence of calls on any object that is kept as the runtime keeps them, pinning absorbs
exactly when no release finds `extra_rc` zero in a nonpointer isa while the side-table word is
pinned: such a release borrows from the pinned word and clears the bit.
-/
theorem pinningAbsorbs_iff (arch : Arch) (classForIndex : ℕ → ℕ) (ops : List RetainOp)
    (object : Object) (kept : WellKept arch object) (named : ∀ op ∈ ops, op.Named) :
    PinningAbsorbs arch classForIndex ops object ↔ SparingRun arch classForIndex ops object := by
  constructor
  · intro absorbs
    induction ops generalizing object with
    | nil => exact trivial
    | cons op ops ih =>
        obtain ⟨after, step⟩ := kept.run classForIndex op (named op List.mem_cons_self)
        refine ⟨?_, ih _ after (fun op member => named op (List.mem_cons_of_mem _ member))
          absorbs.tail⟩
        by_cases pinned : Pinned arch object
        · obtain ⟨still, alive⟩ := absorbs [] [op] ops rfl pinned
          refine (step pinned).mpr ⟨still, fun dealloc => alive ?_⟩
          rw [← dealloc]
          exact List.mem_cons_self
        · cases op with
          | release stores => exact fun absurdly => absurd absurdly pinned
          | _ => exact trivial
  · intro spares earlier later rest split pinned
    subst split
    obtain ⟨-, after⟩ := spares.of_append
    obtain ⟨sparing, -⟩ := after.of_append
    refine (kept.runRetainOps fun op member => ?_).absorbs (fun op member => ?_) pinned sparing
    · exact named op (List.mem_append_left _ member)
    · exact named op (List.mem_append_right _ (List.mem_append_left _ member))

/-! ## The pin is reached, and lost -/

/-- The multiple of `RC_HALF` that is the pinned word. -/
def Arch.pinningHalves (arch : Arch) : ℕ := arch.sideTableRCPinned / (4 * arch.rcHalf)

theorem Arch.pinningHalves_eq (arch : Arch) :
    4 * arch.rcHalf * arch.pinningHalves = arch.sideTableRCPinned :=
  Nat.mul_div_cancel' arch.halves_pinned

/-- A new object just after `extra_rc` has overflowed for the given number of times. -/
def overflowed (arch : Arch) (times : ℕ) : Object where
  isa := .nonpointer { arch.magicIsa with extraRC := arch.rcHalf, hasSidetableRC := true }
  refcnt := some (4 * arch.rcHalf * times)

theorem overflowed_wellKept {times : ℕ} (bound : times ≤ arch.pinningHalves) :
    WellKept arch (overflowed arch times) := by
  have range := arch.rcRange_eq
  have half := arch.rcHalf_pos
  refine (wellKept_nonpointer rfl).mpr
    ⟨show arch.rcHalf < arch.rcRange by omega, Nat.dvd_mul_right _ _, ?_, fun unmarked =>
      absurd unmarked.symm Bool.false_ne_true⟩
  rw [← arch.pinningHalves_eq]
  exact Nat.mul_le_mul_left _ bound

theorem overflowed_pinned (arch : Arch) : Pinned arch (overflowed arch arch.pinningHalves) :=
  (overflowed_wellKept (Nat.le_refl _)).pinned_iff.mpr arch.pinningHalves_eq.ge

theorem runRetainOps_room (fields : IsaFields) (refcnt : Option ℕ) (count : ℕ)
    (room : fields.extraRC + count < arch.rcRange) :
    (runRetainOps arch classForIndex (List.replicate count (.retain []))
      ⟨.nonpointer fields, refcnt⟩).2 =
        ⟨.nonpointer { fields with extraRC := fields.extraRC + count }, refcnt⟩ := by
  induction count generalizing fields with
  | zero => rfl
  | succ count ih =>
      have one : rootRetain arch false false [] ⟨.nonpointer fields, refcnt⟩ =
          (true, ⟨.nonpointer { fields with extraRC := fields.extraRC + 1 }, refcnt⟩) := by
        have uncarried : ¬arch.rcRange ≤ fields.extraRC + 1 := by omega
        rw [rootRetain]
        simp [IsaFields.addRC, uncarried, Nat.mod_eq_of_lt (Nat.not_le.mp uncarried)]
      have rest := ih { fields with extraRC := fields.extraRC + 1 }
        (show fields.extraRC + 1 + count < arch.rcRange by omega)
      rw [List.replicate_succ]
      simp only [runRetainOps, RetainOp.run, one, rest, Nat.add_assoc, Nat.add_comm 1 count]

theorem runRetainOps_full (fields : IsaFields) (refcnt : Option ℕ)
    (full : fields.extraRC + 1 = arch.rcRange) :
    (runRetainOps arch classForIndex [.retain []] ⟨.nonpointer fields, refcnt⟩).2 =
      ⟨.nonpointer { fields with extraRC := arch.rcHalf, hasSidetableRC := true },
        (sidetableAddExtraRC arch arch.rcHalf refcnt).2⟩ := by
  have one : rootRetain arch false false [] ⟨.nonpointer fields, refcnt⟩ =
      (true, ⟨.nonpointer { fields with extraRC := arch.rcHalf, hasSidetableRC := true },
        (sidetableAddExtraRC arch arch.rcHalf refcnt).2⟩) := by
    rw [rootRetain]
    simp only [IsaFields.addRC, full, le_refl, decide_true, if_true, Bool.false_and,
      Bool.false_eq_true, if_false, Bool.not_false]
    rw [rootRetain]
    simp [IsaFields.addRC, full]
  simp only [runRetainOps, RetainOp.run, one]

theorem runRetainOps_newObject (arch : Arch) (classForIndex : ℕ → ℕ) :
    (runRetainOps arch classForIndex (List.replicate arch.rcRange (.retain []))
      (newObject arch)).2 = overflowed arch 1 := by
  have range : arch.rcRange = arch.rcRange - 1 + 1 := by
    have := arch.rcRange_eq
    have := arch.rcHalf_pos
    omega
  rw [range, List.replicate_succ', (runRetainOps_append _ _ _).2, newObject,
    runRetainOps_room _ _ _ (show 0 + (arch.rcRange - 1) < arch.rcRange by omega),
    runRetainOps_full _ _ (show 0 + (arch.rcRange - 1) + 1 = arch.rcRange by omega)]
  cases arch <;> rfl

theorem runRetainOps_overflowed {times : ℕ} (classForIndex : ℕ → ℕ)
    (below : times < arch.pinningHalves) :
    (runRetainOps arch classForIndex (List.replicate arch.rcHalf (.retain []))
      (overflowed arch times)).2 = overflowed arch (times + 1) := by
  have range := arch.rcRange_eq
  have half : arch.rcHalf = arch.rcHalf - 1 + 1 := by
    have := arch.rcHalf_pos
    omega
  have share := (wellKept_nonpointer rfl).mp (overflowed_wellKept below.le)
  have unpinned : 4 * arch.rcHalf * times < arch.sideTableRCPinned := by
    rw [← arch.pinningHalves_eq]
    exact Nat.mul_lt_mul_of_pos_left below (Nat.mul_pos (by decide) arch.rcHalf_pos)
  obtain ⟨-, sum⟩ := share.addExtraRC_below unpinned
  have word : (overflowed arch times).refcnt = some (4 * arch.rcHalf * times) := rfl
  rw [word] at sum
  rw [show List.replicate arch.rcHalf (RetainOp.retain []) =
      List.replicate (arch.rcHalf - 1) (.retain []) ++ [.retain []] by
    rw [← List.replicate_succ', ← half]]
  rw [(runRetainOps_append _ _ _).2, overflowed,
    runRetainOps_room _ _ _ (show arch.rcHalf + (arch.rcHalf - 1) < arch.rcRange by omega),
    runRetainOps_full _ _ (show arch.rcHalf + (arch.rcHalf - 1) + 1 = arch.rcRange by omega), sum]
  rfl

/-- The retains that pin a new object. -/
def Arch.pinningRetains (arch : Arch) : ℕ :=
  arch.rcRange + (arch.pinningHalves - 1) * arch.rcHalf

theorem runRetainOps_pinning (arch : Arch) (classForIndex : ℕ → ℕ) :
    (runRetainOps arch classForIndex (List.replicate arch.pinningRetains (.retain []))
      (newObject arch)).2 = overflowed arch arch.pinningHalves := by
  have times (more : ℕ) (bound : more + 1 ≤ arch.pinningHalves) :
      (runRetainOps arch classForIndex
        (List.replicate (arch.rcRange + more * arch.rcHalf) (.retain [])) (newObject arch)).2 =
          overflowed arch (more + 1) := by
    induction more with
    | zero => rw [Nat.zero_mul, Nat.add_zero, runRetainOps_newObject]
    | succ more ih =>
        rw [Nat.succ_mul, ← Nat.add_assoc, List.replicate_add, (runRetainOps_append _ _ _).2,
          ih (by omega), runRetainOps_overflowed classForIndex (by omega)]
  have some_halves : arch.pinningHalves - 1 + 1 = arch.pinningHalves := by
    cases arch <;> decide +kernel
  rw [Arch.pinningRetains, times (arch.pinningHalves - 1) (by omega), some_halves]

/-- Releases, a retain and a change of class that leave a pinned object pinned. -/
def sparingOps : List RetainOp :=
  [.release [], .retain [false], .changeIsa rawIsaClass [], .release [], .tryRetain [], .release []]

theorem pinningAbsorbs_iff_sparingOps :
    PinningAbsorbs .x86_64 id sparingOps (overflowed .x86_64 (Arch.pinningHalves .x86_64)) :=
  (pinningAbsorbs_iff .x86_64 id sparingOps _ (overflowed_wellKept (Nat.le_refl _))
    (by simp [sparingOps, RetainOp.Named, rawIsaClass, ordinaryClass])).mpr (by decide +kernel)

/-- The releases that use `extra_rc` up and borrow once. -/
def borrowingOps : List RetainOp := List.replicate (Arch.rcHalf .x86_64 + 1) (.release [])

/-- Retains pin a new object, and a half of the range of `extra_rc` and one more release unpin it. -/
theorem not_pinningAbsorbs_borrowed :
    ¬PinningAbsorbs .x86_64 id
      (List.replicate (Arch.pinningRetains .x86_64) (.retain []) ++ borrowingOps)
      (newObject .x86_64) := by
  intro absorbs
  have reached := runRetainOps_pinning .x86_64 id
  obtain ⟨pinned, -⟩ := absorbs _ borrowingOps [] (by rw [List.append_nil])
    (by rw [reached]; exact overflowed_pinned _)
  rw [reached] at pinned
  exact absurd pinned (by decide +kernel)

end ObjcDyld.Retain
