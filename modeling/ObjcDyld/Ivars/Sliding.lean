import ObjcDyld.Common.Alignments
import ObjcDyld.Ivars.Records

/-!
# Non-fragile instance variables

When a superclass has grown past the start of a class's instance variables,
`reconcileInstanceVariables` slides all of them up by one amount.
-/

namespace ObjcDyld.Ivars

open Alignments

/-! ## The functions -/

/-- The greatest alignment among the instance variables, and the value the search starts with. -/
def maxAlignment (width : Width) (start : ℕ) (ivars : List Ivar) : ℕ :=
  ivars.foldl
    (fun greatest ivar =>
      if greatest < ivar.alignment width then ivar.alignment width else greatest)
    start

/-- The instance variable with `diff` added to its offset variable, if it has one. -/
def slideIvar (diff : ℕ) (ivar : Ivar) : Ivar :=
  { ivar with offset := ivar.offset.map fun oldOffset => (oldOffset + diff) % 2 ^ 32 }

def moveIvars (width : Width) (ro : ClassRo) (superSize : ℕ) : ClassRo :=
  let diff := superSize - ro.instanceStart
  match ro.ivars with
  | none =>
      { ro with
        instanceStart := (ro.instanceStart + diff) % 2 ^ 32
        instanceSize := (ro.instanceSize + diff) % 2 ^ 32 }
  | some ivars =>
      let named := ivars.elements.filter fun ivar => ivar.offset.isSome
      let alignMask := maxAlignment width 1 named - 1
      let diff := maskUp 32 alignMask diff
      { instanceStart := (ro.instanceStart + diff) % 2 ^ 32
        instanceSize := (ro.instanceSize + diff) % 2 ^ 32
        ivars := some { ivars with elements := ivars.elements.map (slideIvar diff) } }

/-- The instance variable with `delta` taken off its offset variable, if it has one. -/
def lowerIvar (delta : ℕ) (ivar : Ivar) : Ivar :=
  { ivar with offset := ivar.offset.map fun oldOffset => (oldOffset + 2 ^ 32 - delta) % 2 ^ 32 }

/-- The classes that `DebugNonFragileIvars` leaves out. -/
def debugException (clsname : String) : Bool :=
  decide ("NSCF".toList <:+: clsname.toList) || decide ("__CF".toList <+: clsname.toList) ||
    decide (clsname = "NSConstantString") || decide (clsname = "NSSimpleCString")

/-- What the class is reset to when it is forced to slide: nothing but its misalignment. -/
def resetIvars (width : Width) (ro : ClassRo) : ClassRo :=
  let alignment := maxAlignment width (2 ^ width.wordShift) ro.ivarList
  let misalignment := ro.instanceStart % alignment
  let delta := ro.instanceStart - misalignment
  { instanceStart := misalignment
    instanceSize := (ro.instanceSize + 2 ^ 32 - delta) % 2 ^ 32
    ivars := ro.ivars.map fun ivars =>
      { ivars with elements := ivars.elements.map (lowerIvar delta) } }

/-- A class that is about to be realized. -/
structure UnrealizedClass where
  mangledName : String
  ro : ClassRo
  deriving DecidableEq, Repr

/-- `DebugNonFragileIvars` applies to the class. -/
def UnrealizedClass.forced (debugNonFragileIvars : Bool) (cls : UnrealizedClass) : Bool :=
  debugNonFragileIvars && !debugException cls.mangledName

/-- The class's layout when it is compared with its superclass. -/
def UnrealizedClass.compared (width : Width) (debugNonFragileIvars : Bool) (cls : UnrealizedClass) :
    ClassRo :=
  if cls.forced debugNonFragileIvars then resetIvars width cls.ro else cls.ro

/-- `reconcileInstanceVariables`, given the `instanceSize` of the superclass. -/
def reconcileInstanceVariables (width : Width) (debugNonFragileIvars : Bool) (superSize : ℕ)
    (cls : UnrealizedClass) : ClassRo :=
  let ro := cls.compared width debugNonFragileIvars
  if superSize ≤ ro.instanceStart then
    -- Superclass has not overgrown its space.
    ro
  else moveIvars width ro superSize

/-- `realizeClassWithoutSwift` for the classes below a realized one, each the superclass of the next. -/
def realizeBelow (width : Width) (debugNonFragileIvars : Bool) :
    ℕ → List UnrealizedClass → List ClassRo
  | _, [] => []
  | superSize, cls :: below =>
      let ro := reconcileInstanceVariables width debugNonFragileIvars superSize cls
      ro :: realizeBelow width debugNonFragileIvars ro.instanceSize below

/-- `realizeClassWithoutSwift` for an inheritance chain, whose first class has no superclass. -/
def realizeChain (width : Width) (debugNonFragileIvars : Bool) :
    List UnrealizedClass → List ClassRo
  | [] => []
  | root :: below =>
      root.ro :: realizeBelow width debugNonFragileIvars root.ro.instanceSize below

/-! ## Alignments -/

/-- An alignment is a power of two that fits in 32 bits. -/
def PowerAlignment (alignment : ℕ) : Prop := ∃ k < 32, alignment = 2 ^ k

theorem PowerAlignment.dvd {small large : ℕ} (first : PowerAlignment small)
    (second : PowerAlignment large) (le : small ≤ large) : small ∣ large := by
  obtain ⟨i, -, rfl⟩ := first
  obtain ⟨j, -, rfl⟩ := second
  exact Nat.pow_dvd_pow 2 ((Nat.pow_le_pow_iff_right (by decide)).mp le)

theorem PowerAlignment.pos {alignment : ℕ} (power : PowerAlignment alignment) : 0 < alignment := by
  obtain ⟨k, -, rfl⟩ := power
  exact Nat.two_pow_pos k

theorem Ivar.powerAlignment (width : Width) (ivar : Ivar) :
    PowerAlignment (ivar.alignment width) := by
  unfold Ivar.alignment
  split
  next => exact ⟨width.wordShift, by cases width <;> decide, rfl⟩
  next => exact ⟨ivar.alignmentRaw % 32, Nat.mod_lt _ (by decide), rfl⟩

theorem Width.powerAlignment (width : Width) : PowerAlignment (2 ^ width.wordShift) :=
  ⟨width.wordShift, by cases width <;> decide, rfl⟩

theorem maxAlignment_spec (width : Width) {start : ℕ} (ivars : List Ivar)
    (power : PowerAlignment start) :
    PowerAlignment (maxAlignment width start ivars) ∧ start ∣ maxAlignment width start ivars ∧
      ∀ ivar ∈ ivars, ivar.alignment width ∣ maxAlignment width start ivars := by
  induction ivars generalizing start with
  | nil => exact ⟨power, dvd_refl _, fun ivar member => absurd member List.not_mem_nil⟩
  | cons first rest ih =>
      have here := first.powerAlignment width
      rw [maxAlignment, List.foldl_cons]
      split
      next less =>
        obtain ⟨greatest, divides, others⟩ := ih here
        refine ⟨greatest, (power.dvd here less.le).trans divides, fun ivar member => ?_⟩
        obtain rfl | later := List.mem_cons.mp member
        · exact divides
        · exact others ivar later
      next more =>
        obtain ⟨greatest, divides, others⟩ := ih power
        refine ⟨greatest, divides, fun ivar member => ?_⟩
        obtain rfl | later := List.mem_cons.mp member
        · exact (here.dvd power (Nat.le_of_not_lt more)).trans divides
        · exact others ivar later

/-! ## One amount for everything -/

/-- An instance variable moved by an amount that keeps its offset's residue. -/
structure Shifted (width : Width) (amount : ℤ) (before after : Ivar) : Prop where
  record : { before with offset := after.offset } = after
  named : after.offset.isSome = before.offset.isSome
  offset : ∀ old ∈ before.offset, ∀ new ∈ after.offset, (new : ℤ) = old + amount
  residue : ∀ old ∈ before.offset, ∀ new ∈ after.offset,
    new % before.alignment width = old % before.alignment width

structure ShiftedRo (width : Width) (amount : ℤ) (before after : ClassRo) : Prop where
  start : (after.instanceStart : ℤ) = before.instanceStart + amount
  size : (after.instanceSize : ℤ) = before.instanceSize + amount
  ivars : List.Forall₂ (Shifted width amount) before.ivarList after.ivarList

variable {width : Width} {amount : ℤ}

namespace Shifted

variable {before after : Ivar}

theorem origin (shifted : Shifted width amount before after) {new : ℕ}
    (isNew : new ∈ after.offset) : ∃ old ∈ before.offset, (new : ℤ) = old + amount := by
  have named := shifted.named
  rw [Option.mem_def.mp isNew] at named
  obtain ⟨old, isOld⟩ := Option.isSome_iff_exists.mp named.symm
  exact ⟨old, isOld, shifted.offset old isOld new isNew⟩

theorem size (shifted : Shifted width amount before after) : after.size = before.size := by
  rw [← shifted.record]

theorem alignment (shifted : Shifted width amount before after) :
    after.alignment width = before.alignment width := by
  rw [← shifted.record]
  rfl

theorem refl (width : Width) (ivar : Ivar) : Shifted width 0 ivar ivar := by
  refine ⟨rfl, rfl, fun old isOld new isNew => ?_, fun old isOld new isNew => ?_⟩
  · rw [Option.mem_unique isOld isNew]
    omega
  · rw [Option.mem_unique isOld isNew]

theorem trans {further : ℤ} {final : Ivar} (first : Shifted width amount before after)
    (second : Shifted width further after final) :
    Shifted width (amount + further) before final := by
  have middle {new : ℕ} (isNew : new ∈ final.offset) := second.origin isNew
  refine ⟨by rw [← second.record, ← first.record], second.named.trans first.named,
    fun old isOld new isNew => ?_, fun old isOld new isNew => ?_⟩
  · obtain ⟨between, isBetween, moved⟩ := middle isNew
    have := first.offset old isOld between isBetween
    omega
  · obtain ⟨between, isBetween, -⟩ := middle isNew
    have again := second.residue between isBetween new isNew
    rw [first.alignment] at again
    exact again.trans (first.residue old isOld between isBetween)

theorem apart {other moved : Ivar} (first : Shifted width amount before after)
    (second : Shifted width amount other moved) (apart : before.Apart other) : after.Apart moved := by
  intro start isStart place isPlace
  obtain ⟨oldStart, isOldStart, movedStart⟩ := first.origin isStart
  obtain ⟨oldPlace, isOldPlace, movedPlace⟩ := second.origin isPlace
  have before := apart oldStart isOldStart oldPlace isOldPlace
  rw [first.size, second.size]
  omega

end Shifted

theorem shifted_map {ivar : Ivar} {replace : ℕ → ℕ}
    (moves : ∀ old ∈ ivar.offset, (replace old : ℤ) = old + amount)
    (keeps : ∀ old ∈ ivar.offset, replace old % ivar.alignment width = old % ivar.alignment width) :
    Shifted width amount ivar { ivar with offset := ivar.offset.map replace } := by
  refine ⟨rfl, Option.isSome_map, fun old isOld new isNew => ?_, fun old isOld new isNew => ?_⟩
  · rw [Option.mem_def.mp isOld] at isNew
    obtain rfl := Option.some.inj isNew
    exact moves old isOld
  · rw [Option.mem_def.mp isOld] at isNew
    obtain rfl := Option.some.inj isNew
    exact keeps old isOld

theorem shifted_all {ivars : List Ivar} {replace : Ivar → Ivar}
    (each : ∀ ivar ∈ ivars, Shifted width amount ivar (replace ivar)) :
    List.Forall₂ (Shifted width amount) ivars (ivars.map replace) := by
  rw [List.forall₂_map_right_iff, List.forall₂_same]
  exact each

theorem pairwise_apart {before after : List Ivar}
    (moved : List.Forall₂ (Shifted width amount) before after) (apart : before.Pairwise Ivar.Apart) :
    after.Pairwise Ivar.Apart := by
  induction moved with
  | nil => exact .nil
  | cons head tail ih =>
      obtain ⟨first, rest⟩ := List.pairwise_cons.mp apart
      refine List.pairwise_cons.mpr ⟨fun other member => ?_, ih rest⟩
      obtain ⟨place, bound, rfl⟩ := List.mem_iff_getElem.mp member
      have bound' : place < _ := tail.length_eq ▸ bound
      exact head.apart (tail.get bound' bound) (first _ (List.getElem_mem bound'))

/-! ## Classes laid out inside their own part of the instance -/

/-- The class's instance variables lie in `[instanceStart, instanceSize)`. -/
structure Spanned (ro : ClassRo) : Prop where
  ordered : ro.instanceStart ≤ ro.instanceSize
  fits : ro.instanceSize < 2 ^ 32
  starts : ∀ ivar ∈ ro.ivarList, ivar.StartsFrom ro.instanceStart
  ends : ∀ ivar ∈ ro.ivarList, ivar.EndsBy ro.instanceSize

theorem ShiftedRo.refl (width : Width) (ro : ClassRo) : ShiftedRo width 0 ro ro := by
  refine ⟨by omega, by omega, ?_⟩
  rw [List.forall₂_same]
  exact fun ivar _ => .refl width ivar

theorem ShiftedRo.trans {further : ℤ} {before after final : ClassRo}
    (first : ShiftedRo width amount before after) (second : ShiftedRo width further after final) :
    ShiftedRo width (amount + further) before final := by
  have start := first.start
  have size := first.size
  refine ⟨by rw [second.start]; omega, by rw [second.size]; omega, ?_⟩
  have composed := List.forall₂_iff_get.mp first.ivars
  have rest := List.forall₂_iff_get.mp second.ivars
  refine List.forall₂_iff_get.mpr ⟨composed.1.trans rest.1, fun place bound last => ?_⟩
  have middle : place < after.ivarList.length := by omega
  exact (composed.2 place bound middle).trans (rest.2 place middle last)

theorem ShiftedRo.spanned {before after : ClassRo} (moved : ShiftedRo width amount before after)
    (spanned : Spanned before) (fits : after.instanceSize < 2 ^ 32) : Spanned after := by
  have start := moved.start
  have size := moved.size
  have ordered := spanned.ordered
  have origin (ivar : Ivar) (member : ivar ∈ after.ivarList) :
      ∃ old ∈ before.ivarList, Shifted width amount old ivar := by
    obtain ⟨place, bound, rfl⟩ := List.mem_iff_getElem.mp member
    have same := moved.ivars.length_eq
    have bound' : place < before.ivarList.length := by omega
    exact ⟨_, List.getElem_mem bound', moved.ivars.get bound' bound⟩
  refine ⟨by omega, fits, fun ivar member offset isOffset => ?_, fun ivar member offset isOffset => ?_⟩
  · obtain ⟨old, wasMember, shifted⟩ := origin ivar member
    obtain ⟨was, isWas, came⟩ := shifted.origin isOffset
    have := spanned.starts old wasMember was isWas
    omega
  · obtain ⟨old, wasMember, shifted⟩ := origin ivar member
    obtain ⟨was, isWas, came⟩ := shifted.origin isOffset
    have := spanned.ends old wasMember was isWas
    rw [shifted.size]
    omega

/-! ## The two movements -/

/-- The instance variables whose offset variables are rewritten. -/
def IvarList.named (ivars : IvarList) : List Ivar :=
  ivars.elements.filter fun ivar => ivar.offset.isSome

/-- The amount by which a superclass of this size pushes the class up. -/
def slide (width : Width) (ro : ClassRo) (superSize : ℕ) : ℕ :=
  roundUp (superSize - ro.instanceStart)
    (match ro.ivars with
    | none => 1
    | some ivars => maxAlignment width 1 ivars.named)

theorem PowerAlignment.one : PowerAlignment 1 := ⟨0, by decide, rfl⟩

theorem roundUp_one (value : ℕ) : roundUp value 1 = value :=
  Nat.le_antisymm (roundUp_le Nat.one_pos (Nat.le_refl _) (one_dvd _)) (le_roundUp _ Nat.one_pos)

theorem superSize_le_slide (width : Width) (ro : ClassRo) (superSize : ℕ) :
    superSize ≤ ro.instanceStart + slide width ro superSize := by
  have positive : 0 < (match ro.ivars with
      | none => 1
      | some ivars => maxAlignment width 1 ivars.named) := by
    split
    next => exact Nat.one_pos
    next ivars => exact (maxAlignment_spec width _ .one).1.pos
  have := le_roundUp (superSize - ro.instanceStart) positive
  unfold slide
  omega

theorem lowerIvar_shifted {ivar : Ivar} {delta : ℕ} (low : ivar.StartsFrom delta)
    (high : ivar.EndsBy (2 ^ 32 - 1)) (aligned : ivar.alignment width ∣ delta) :
    Shifted width (-delta) ivar (lowerIvar delta ivar) := by
  have lowered (old : ℕ) (isOld : old ∈ ivar.offset) :
      (old + 2 ^ 32 - delta) % 2 ^ 32 = old - delta ∧ delta ≤ old := by
    have below := low old isOld
    have above := high old isOld
    rw [show old + 2 ^ 32 - delta = old - delta + 2 ^ 32 by omega, Nat.add_mod_right,
      Nat.mod_eq_of_lt (by omega)]
    exact ⟨rfl, below⟩
  refine shifted_map (fun old isOld => ?_) (fun old isOld => ?_)
  · obtain ⟨value, below⟩ := lowered old isOld
    rw [value]
    omega
  · obtain ⟨value, below⟩ := lowered old isOld
    obtain ⟨times, rfl⟩ := aligned
    rw [value]
    conv_rhs => rw [← Nat.sub_add_cancel below]
    rw [Nat.add_mul_mod_self_left]

theorem slideIvar_shifted {ivar : Ivar} {diff limit : ℕ} (ends : ivar.EndsBy limit)
    (fits : limit + diff < 2 ^ 32) (aligned : ivar.offset.isSome → ivar.alignment width ∣ diff) :
    Shifted width diff ivar (slideIvar diff ivar) := by
  have raised (old : ℕ) (isOld : old ∈ ivar.offset) : (old + diff) % 2 ^ 32 = old + diff := by
    have := ends old isOld
    exact Nat.mod_eq_of_lt (by omega)
  refine shifted_map (fun old isOld => ?_) (fun old isOld => ?_)
  · rw [raised old isOld]
    omega
  · obtain ⟨times, rfl⟩ := aligned (Option.isSome_iff_exists.mpr ⟨old, isOld⟩)
    rw [raised old isOld, Nat.add_mul_mod_self_left]

theorem resetIvars_shifted (width : Width) {ro : ClassRo} (spanned : Spanned ro) :
    ∃ delta ≤ ro.instanceStart, ShiftedRo width (-delta) ro (resetIvars width ro) := by
  obtain ⟨-, -, divides⟩ := maxAlignment_spec width ro.ivarList width.powerAlignment
  have ordered := spanned.ordered
  have fits := spanned.fits
  let alignment := maxAlignment width (2 ^ width.wordShift) ro.ivarList
  let delta := ro.instanceStart - ro.instanceStart % alignment
  have below : delta ≤ ro.instanceStart := Nat.sub_le _ _
  have residue : ro.instanceStart % alignment ≤ ro.instanceStart := Nat.mod_le _ _
  have start : ro.instanceStart % alignment + delta = ro.instanceStart := by
    show ro.instanceStart % alignment + (ro.instanceStart - ro.instanceStart % alignment) = _
    omega
  refine ⟨delta, below, ?_, ?_, ?_⟩
  · show ((ro.instanceStart % alignment : ℕ) : ℤ) = _
    omega
  · show (((ro.instanceSize + 2 ^ 32 - delta) % 2 ^ 32 : ℕ) : ℤ) = _
    rw [show ro.instanceSize + 2 ^ 32 - delta = ro.instanceSize - delta + 2 ^ 32 by omega,
      Nat.add_mod_right, Nat.mod_eq_of_lt (by omega)]
    omega
  · have lowered : (resetIvars width ro).ivarList = ro.ivarList.map (lowerIvar delta) := by
      cases ivars : ro.ivars with
      | none => simp [resetIvars, ClassRo.ivarList, ivars]
      | some list => simp [resetIvars, ClassRo.ivarList, ivars, delta, alignment]
    rw [lowered]
    refine shifted_all fun ivar member => ?_
    refine lowerIvar_shifted ((spanned.starts ivar member).mono below)
      ((spanned.ends ivar member).mono (by omega)) ?_
    exact (divides ivar member).trans (Nat.dvd_sub_mod _)

theorem moveIvars_shifted {ro : ClassRo} {superSize : ℕ} (spanned : Spanned ro)
    (fits : slide width ro superSize + ro.instanceSize < 2 ^ 32) :
    ShiftedRo width (slide width ro superSize) ro (moveIvars width ro superSize) := by
  have ordered := spanned.ordered
  cases ivars : ro.ivars with
  | none =>
      have diff : slide width ro superSize = superSize - ro.instanceStart := by
        rw [slide, ivars, roundUp_one]
      rw [diff] at fits ⊢
      rw [moveIvars, ivars]
      refine ⟨?_, ?_, ?_⟩
      · show (((ro.instanceStart + (superSize - ro.instanceStart)) % 2 ^ 32 : ℕ) : ℤ) = _
        rw [Nat.mod_eq_of_lt (by omega)]
        omega
      · show (((ro.instanceSize + (superSize - ro.instanceStart)) % 2 ^ 32 : ℕ) : ℤ) = _
        rw [Nat.mod_eq_of_lt (by omega)]
        omega
      · simp [ClassRo.ivarList, ivars]
  | some list =>
      obtain ⟨⟨k, small, power⟩, -, divides⟩ := maxAlignment_spec width list.named .one
      have rounded : slide width ro superSize = roundUp (superSize - ro.instanceStart) (2 ^ k) := by
        rw [slide, ivars]
        exact congrArg _ power
      have diff : maskUp 32 (maxAlignment width 1 list.named - 1) (superSize - ro.instanceStart) =
          slide width ro superSize := by
        rw [rounded, power]
        exact maskUp_eq_roundUp small.le (by omega)
      have aligned : 2 ^ k ∣ slide width ro superSize := by
        rw [rounded]
        exact unit_dvd_roundUp _ _
      have moved : moveIvars width ro superSize =
          { instanceStart := (ro.instanceStart + slide width ro superSize) % 2 ^ 32
            instanceSize := (ro.instanceSize + slide width ro superSize) % 2 ^ 32
            ivars := some { list with
              elements := list.elements.map (slideIvar (slide width ro superSize)) } } := by
        rw [moveIvars, ivars, ← diff]
        rfl
      rw [moved]
      refine ⟨?_, ?_, ?_⟩
      · show (((ro.instanceStart + slide width ro superSize) % 2 ^ 32 : ℕ) : ℤ) = _
        rw [Nat.mod_eq_of_lt (by omega)]
        omega
      · show (((ro.instanceSize + slide width ro superSize) % 2 ^ 32 : ℕ) : ℤ) = _
        rw [Nat.mod_eq_of_lt (by omega)]
        omega
      · have elements : ro.ivarList = list.elements := by rw [ClassRo.ivarList, ivars]
        rw [elements]
        refine shifted_all fun ivar member => ?_
        rw [← elements] at member
        refine slideIvar_shifted (spanned.ends ivar member) (by omega) fun named => ?_
        rw [elements] at member
        refine (divides ivar (List.mem_filter.mpr ⟨member, named⟩)).trans ?_
        rw [power]
        exact aligned

/-! ## Reconciling one class, and a chain of them -/

/-- What reconciling a class with a superclass of this size should do. -/
structure Reconciled (width : Width) (superSize : ℕ) (before after : ClassRo) : Prop where
  shifted : ∃ amount, ShiftedRo width amount before after
  apart : before.ivarList.Pairwise Ivar.Apart → after.ivarList.Pairwise Ivar.Apart
  beyond : ∀ ivar ∈ after.ivarList, ivar.StartsFrom superSize

/-- The class's size fits in 32 bits after the slide. -/
def UnrealizedClass.Fits (width : Width) (debugNonFragileIvars : Bool) (superSize : ℕ)
    (cls : UnrealizedClass) : Prop :=
  slide width (cls.compared width debugNonFragileIvars) superSize +
    (cls.compared width debugNonFragileIvars).instanceSize < 2 ^ 32

/-- Every class below fits when its superclass has been realized. -/
def FittingBelow (width : Width) (debugNonFragileIvars : Bool) : ℕ → List UnrealizedClass → Prop
  | _, [] => True
  | superSize, cls :: below =>
      cls.Fits width debugNonFragileIvars superSize ∧
        FittingBelow width debugNonFragileIvars
          (reconcileInstanceVariables width debugNonFragileIvars superSize cls).instanceSize below

/-- Every class of a chain fits when its superclass has been realized. -/
def FittingChain (width : Width) (debugNonFragileIvars : Bool) : List UnrealizedClass → Prop
  | [] => True
  | root :: below => FittingBelow width debugNonFragileIvars root.ro.instanceSize below

/-- No instance variable of one class overlaps one of the other. -/
def ApartClasses (first second : ClassRo) : Prop :=
  ∀ ivar ∈ first.ivarList, ∀ other ∈ second.ivarList, ivar.Apart other

variable {debugNonFragileIvars : Bool} {superSize : ℕ} {cls : UnrealizedClass}

theorem compared_shifted (width : Width) (debugNonFragileIvars : Bool) (spanned : Spanned cls.ro) :
    ∃ amount, ShiftedRo width amount cls.ro (cls.compared width debugNonFragileIvars) ∧
      Spanned (cls.compared width debugNonFragileIvars) := by
  unfold UnrealizedClass.compared
  split
  next =>
    obtain ⟨delta, -, moved⟩ := resetIvars_shifted width spanned
    exact ⟨_, moved, moved.spanned spanned (Nat.mod_lt _ (by decide))⟩
  next => exact ⟨0, .refl width cls.ro, spanned⟩

theorem reconcile_shifted (spanned : Spanned cls.ro)
    (fits : cls.Fits width debugNonFragileIvars superSize) :
    (∃ amount, ShiftedRo width amount cls.ro
      (reconcileInstanceVariables width debugNonFragileIvars superSize cls)) ∧
    Spanned (reconcileInstanceVariables width debugNonFragileIvars superSize cls) ∧
    superSize ≤ (reconcileInstanceVariables width debugNonFragileIvars superSize cls).instanceStart := by
  obtain ⟨amount, moved, still⟩ := compared_shifted width debugNonFragileIvars spanned
  unfold reconcileInstanceVariables
  simp only
  split
  next room => exact ⟨⟨amount, moved⟩, still, room⟩
  next overgrown =>
    have slid := moveIvars_shifted still fits
    have reaches := superSize_le_slide width (cls.compared width debugNonFragileIvars) superSize
    have start := slid.start
    have size := slid.size
    have fits : slide width (cls.compared width debugNonFragileIvars) superSize +
      (cls.compared width debugNonFragileIvars).instanceSize < 2 ^ 32 := fits
    exact ⟨⟨_, moved.trans slid⟩, slid.spanned still (by omega), by omega⟩

theorem reconcile_reconciled (spanned : Spanned cls.ro)
    (fits : cls.Fits width debugNonFragileIvars superSize) :
    Reconciled width superSize cls.ro
      (reconcileInstanceVariables width debugNonFragileIvars superSize cls) := by
  obtain ⟨⟨amount, moved⟩, still, behind⟩ := reconcile_shifted spanned fits
  exact ⟨⟨amount, moved⟩, pairwise_apart moved.ivars,
    fun ivar member => (still.starts ivar member).mono behind⟩

theorem reconcile_unmoved (width : Width) (unforced : cls.forced debugNonFragileIvars = false)
    (room : superSize ≤ cls.ro.instanceStart) :
    reconcileInstanceVariables width debugNonFragileIvars superSize cls = cls.ro := by
  rw [reconcileInstanceVariables, UnrealizedClass.compared, unforced, if_neg Bool.false_ne_true]
  exact if_pos room

theorem apartClasses_of_le {first second : ClassRo} (before : Spanned first) (after : Spanned second)
    (behind : first.instanceSize ≤ second.instanceStart) : ApartClasses first second :=
  fun ivar member other isOther =>
    ((before.ends ivar member).mono behind).apart (after.starts other isOther)

theorem realizeBelow_apart {below : List UnrealizedClass} (spanned : ∀ cls ∈ below, Spanned cls.ro)
    (fits : FittingBelow width debugNonFragileIvars superSize below) :
    (∀ ro ∈ realizeBelow width debugNonFragileIvars superSize below,
      Spanned ro ∧ superSize ≤ ro.instanceStart) ∧
    (realizeBelow width debugNonFragileIvars superSize below).Pairwise ApartClasses := by
  induction below generalizing superSize with
  | nil => exact ⟨fun ro member => absurd member List.not_mem_nil, .nil⟩
  | cons cls below ih =>
      obtain ⟨-, still, behind⟩ := reconcile_shifted (spanned cls List.mem_cons_self) fits.1
      obtain ⟨others, apart⟩ := ih (fun cls member => spanned cls (List.mem_cons_of_mem _ member)) fits.2
      refine ⟨fun ro member => ?_, List.pairwise_cons.mpr ⟨fun ro member => ?_, apart⟩⟩
      · obtain rfl | later := List.mem_cons.mp member
        · exact ⟨still, behind⟩
        · obtain ⟨other, after⟩ := others ro later
          exact ⟨other, (behind.trans still.ordered).trans after⟩
      · obtain ⟨other, after⟩ := others ro member
        exact apartClasses_of_le still other after

/--
Reconciling a class with any superclass moves everything in it by one amount that keeps the
residues, to a place behind the superclass, and moves nothing when there is room and the debugging
option does not force it, provided that the slid size fits in 32 bits; and no instance variables of
two classes of a chain realized in this way overlap.
-/
theorem reconcile_apart (width : Width) (debugNonFragileIvars : Bool) :
    (∀ superSize cls, Spanned cls.ro → cls.Fits width debugNonFragileIvars superSize →
      Reconciled width superSize cls.ro
          (reconcileInstanceVariables width debugNonFragileIvars superSize cls) ∧
        (cls.forced debugNonFragileIvars = false → superSize ≤ cls.ro.instanceStart →
          reconcileInstanceVariables width debugNonFragileIvars superSize cls = cls.ro)) ∧
    (∀ chain, (∀ cls ∈ chain, Spanned cls.ro) → FittingChain width debugNonFragileIvars chain →
      (realizeChain width debugNonFragileIvars chain).Pairwise ApartClasses) := by
  refine ⟨fun superSize cls spanned fits =>
    ⟨reconcile_reconciled spanned fits, fun unforced room => reconcile_unmoved width unforced room⟩,
    fun chain spanned fits => ?_⟩
  cases chain with
  | nil => exact .nil
  | cons root below =>
      have first := spanned root List.mem_cons_self
      obtain ⟨others, apart⟩ :=
        realizeBelow_apart (fun cls member => spanned cls (List.mem_cons_of_mem _ member)) fits
      refine List.pairwise_cons.mpr ⟨fun ro member => ?_, apart⟩
      obtain ⟨other, after⟩ := others ro member
      exact apartClasses_of_le first other after

/-- A root class that has gained a counter behind its isa. -/
def grownRoot : UnrealizedClass :=
  ⟨"Root", ⟨0, 12, some ⟨32, [⟨some 0, some "isa", "#", 3, 8⟩, ⟨some 8, some "count", "i", 2, 4⟩]⟩⟩⟩

/-- A subclass that was compiled when the root had nothing but the isa. -/
def oldLeaf : UnrealizedClass :=
  ⟨"Leaf", ⟨8, 17, some ⟨32, [⟨some 8, some "next", "@", 3, 8⟩, ⟨some 16, some "flag", "c", 0, 1⟩]⟩⟩⟩

theorem oldLeaf_spanned : Spanned oldLeaf.ro := ⟨by decide, by decide, by decide, by decide⟩

theorem oldLeaf_fits : oldLeaf.Fits .lp64 false 12 := by
  unfold UnrealizedClass.Fits
  decide +kernel

theorem reconcile_apart_grown :
    Reconciled .lp64 12 oldLeaf.ro (reconcileInstanceVariables .lp64 false 12 oldLeaf) ∧
      (realizeChain .lp64 false [grownRoot, oldLeaf]).Pairwise ApartClasses := by
  obtain ⟨each, chained⟩ := reconcile_apart .lp64 false
  refine ⟨(each 12 oldLeaf oldLeaf_spanned oldLeaf_fits).1,
    chained [grownRoot, oldLeaf] (fun cls member => ?_) ⟨oldLeaf_fits, trivial⟩⟩
  obtain rfl | later := List.mem_cons.mp member
  · exact ⟨by decide, by decide, by decide, by decide⟩
  · obtain rfl := List.mem_singleton.mp later
    exact oldLeaf_spanned

/-- A class whose last instance variable ends just below 2^32. -/
def hugeClass : UnrealizedClass :=
  ⟨"Huge", ⟨8, 2 ^ 32 - 4, some ⟨32, [⟨some (2 ^ 32 - 8), some "last", "i", 2, 4⟩]⟩⟩⟩

/-- A class that starts behind its superclass of eight bytes. -/
def spacedClass : UnrealizedClass :=
  ⟨"Spaced", ⟨16, 24, some ⟨32, [⟨some 16, some "next", "@", 3, 8⟩]⟩⟩⟩

/--
Not every class moves behind its superclass, because the sums are 32-bit words, and a class that
has room is moved all the same when `DebugNonFragileIvars` forces it.
-/
theorem not_reconciled :
    (Spanned hugeClass.ro ∧
      ¬Reconciled .lp64 24 hugeClass.ro (reconcileInstanceVariables .lp64 false 24 hugeClass)) ∧
    (Spanned spacedClass.ro ∧ 8 ≤ spacedClass.ro.instanceStart ∧
      reconcileInstanceVariables .lp64 true 8 spacedClass ≠ spacedClass.ro) := by
  refine ⟨⟨⟨by decide, by decide, by decide, by decide⟩, fun reconciled => ?_⟩,
    ⟨by decide, by decide, by decide, by decide⟩, by decide, by decide +kernel⟩
  exact absurd reconciled.beyond (by decide +kernel)

end ObjcDyld.Ivars
