import ObjcDyld.Common.Alignments
import ObjcDyld.Ivars.Records

/-!
# Instance variables added at run time

`class_addIvar` appends to the instance of a class under construction.  Offsets
and sizes are 32-bit words, and only the new variable's own size is checked.
-/

namespace ObjcDyld.Ivars

open Alignments

/-! ## The functions -/

/-- What `class_addIvar` reads of a class. -/
structure IvarClass where
  isMetaClass : Bool
  /-- `RW_CONSTRUCTING` -/
  constructing : Bool
  ro : ClassRo
  deriving DecidableEq, Repr

/-- The arguments of `class_addIvar` after the class. -/
structure AddIvarCall where
  name : Option String
  size : ℕ
  alignment : UInt8
  type : Option String
  deriving DecidableEq, Repr

/-- The class that `objc_initializeClassPair_internal` makes of a superclass. -/
def objcInitializeClassPair (width : Width) (superclass : Option IvarClass) : IvarClass where
  isMetaClass := false
  constructing := true
  ro :=
    match superclass with
    | some superclass =>
        { instanceStart := superclass.ro.instanceSize
          instanceSize := superclass.ro.instanceSize
          ivars := none }
    | none =>
        -- just an isa
        { instanceStart := 0, instanceSize := width.sizeofId, ivars := none }

def getIvar (cls : IvarClass) (name : String) : Option Ivar :=
  cls.ro.ivarList.find? fun ivar => ivar.offset.isSome && ivar.name == some name

/-- `name`, after an empty name has become anonymous. -/
def AddIvarCall.ivarName (call : AddIvarCall) : Option String :=
  if call.name = some "" then none else call.name

/-- The tests that make `class_addIvar` answer `NO`. -/
def AddIvarCall.refused (cls : IvarClass) (call : AddIvarCall) : Bool :=
  cls.isMetaClass || !cls.constructing ||
    call.ivarName.any (fun name => (getIvar cls name).isSome) || decide (2 ^ 32 - 1 < call.size)

/-- The list that the new instance variable is appended to. -/
def ClassRo.oldlist (width : Width) (ro : ClassRo) : IvarList :=
  ro.ivars.getD ⟨width.sizeofIvar, []⟩

def newOffset (cls : IvarClass) (alignment : UInt8) : ℕ :=
  maskUp 32 (shiftOne alignment.toNat - 1) cls.ro.instanceSize

/-- The record of the new instance variable. -/
def newIvar (cls : IvarClass) (call : AddIvarCall) : Ivar where
  offset := some (newOffset cls call.alignment)
  name := call.ivarName
  type := call.type.getD ""
  alignmentRaw := call.alignment.toNat
  size := call.size

/-- The class after `class_addIvar` has answered `YES`. -/
def withNewIvar (width : Width) (cls : IvarClass) (call : AddIvarCall) : IvarClass :=
  let oldlist := cls.ro.oldlist width
  { cls with
    ro := { cls.ro with
      instanceSize := (newOffset cls call.alignment + call.size) % 2 ^ 32
      ivars := some { oldlist with elements := oldlist.elements ++ [newIvar cls call] } } }

/--
`class_addIvar`: the answer and the class after the call.  There is no outcome when `byteSize` of
the old list does not fit in its 32 bits, because the list is then copied in part only.
-/
def classAddIvar (width : Width) (cls : Option IvarClass) (call : AddIvarCall) :
    Option (Bool × Option IvarClass) :=
  match cls with
  | none => some (false, none)
  | some cls =>
      if call.refused cls then some (false, some cls)
      else
        let oldlist := cls.ro.oldlist width
        if oldlist.elements.length * oldlist.entsize < 2 ^ 32 then
          some (true, some (withNewIvar width cls call))
        else none

/-! ## What a call should do -/

/-- The new instance variable is aligned, apart from all earlier ones, and inside the instance. -/
structure AddedSafely (earlier : List Ivar) (before after : IvarClass) (call : AddIvarCall)
    (ivar : Ivar) (offset : ℕ) : Prop where
  appended : after.ro.ivarList = before.ro.ivarList ++ [ivar]
  placed : ivar.offset = some offset
  sized : ivar.size = call.size
  aligned : 2 ^ call.alignment.toNat ∣ offset
  apart : ∀ other ∈ earlier ++ before.ro.ivarList, other.Apart ivar
  inside : offset + call.size ≤ after.ro.instanceSize

/-- One call adds safely or changes nothing; `inherited` are the superclasses' variables. -/
def CallSafe (width : Width) (inherited : List Ivar) (cls : IvarClass) (call : AddIvarCall) : Prop :=
  match classAddIvar width (some cls) call with
  | none => False
  | some (false, after) => after = some cls
  | some (true, after) =>
      ∃ added ivar offset, after = some added ∧ AddedSafely inherited cls added call ivar offset

/-- Every call of a sequence is safe when its turn comes. -/
def AddsSafely (width : Width) (inherited : List Ivar) : List AddIvarCall → IvarClass → Prop
  | [], _ => True
  | call :: calls, cls =>
      CallSafe width inherited cls call ∧
        ∀ answer after, classAddIvar width (some cls) call = some (answer, some after) →
          AddsSafely width inherited calls after

/-- The rounded offset and the size fit in 32 bits together, and so does the old list's size. -/
structure AddIvarCall.Fits (width : Width) (cls : IvarClass) (call : AddIvarCall) : Prop where
  inside : roundUp cls.ro.instanceSize (2 ^ call.alignment.toNat) + call.size < 2 ^ 32
  copied : (cls.ro.oldlist width).elements.length * (cls.ro.oldlist width).entsize < 2 ^ 32

/-- Every call of a sequence that is not refused fits when its turn comes. -/
def FittingRun (width : Width) : List AddIvarCall → IvarClass → Prop
  | [], _ => True
  | call :: calls, cls =>
      (call.refused cls = false → call.Fits width cls) ∧
        ∀ answer after, classAddIvar width (some cls) call = some (answer, some after) →
          FittingRun width calls after

/-! ## Classes under construction -/

/-- Every instance variable of the class and its superclasses lies inside the instance. -/
structure Contained (inherited : List Ivar) (cls : IvarClass) : Prop where
  fits : cls.ro.instanceSize < 2 ^ 32
  ends : ∀ ivar ∈ inherited ++ cls.ro.ivarList, ivar.EndsBy cls.ro.instanceSize

theorem Contained.root (width : Width) : Contained [] (objcInitializeClassPair width none) := by
  refine ⟨by cases width <;> decide, fun ivar member => ?_⟩
  exact absurd member List.not_mem_nil

theorem ivarList_oldlist (width : Width) (ro : ClassRo) : (ro.oldlist width).elements = ro.ivarList := by
  cases ivars : ro.ivars with
  | none => simp [ClassRo.oldlist, ClassRo.ivarList, ivars]
  | some list => simp [ClassRo.oldlist, ClassRo.ivarList, ivars]

theorem ivarList_withNewIvar (width : Width) (cls : IvarClass) (call : AddIvarCall) :
    (withNewIvar width cls call).ro.ivarList = cls.ro.ivarList ++ [newIvar cls call] := by
  rw [← ivarList_oldlist width cls.ro]
  rfl

theorem classAddIvar_refused (width : Width) {cls : IvarClass} {call : AddIvarCall}
    (refused : call.refused cls = true) :
    classAddIvar width (some cls) call = some (false, some cls) := by
  rw [classAddIvar, if_pos refused]

theorem classAddIvar_added {width : Width} {cls : IvarClass} {call : AddIvarCall}
    (accepted : call.refused cls = false) (fits : call.Fits width cls) :
    classAddIvar width (some cls) call = some (true, some (withNewIvar width cls call)) := by
  rw [classAddIvar, accepted, if_neg Bool.false_ne_true]
  exact if_pos fits.copied

theorem newOffset_eq {cls : IvarClass} {alignment : UInt8}
    (fits : roundUp cls.ro.instanceSize (2 ^ alignment.toNat) < 2 ^ 32) :
    newOffset cls alignment = roundUp cls.ro.instanceSize (2 ^ alignment.toNat) := by
  have positive : 0 < 2 ^ alignment.toNat := Nat.two_pow_pos _
  obtain small | large := Nat.lt_or_ge alignment.toNat 32
  · rw [newOffset, shiftOne_of_lt small]
    exact maskUp_eq_roundUp small.le fits
  · -- a rounded value below 2^32 is zero here, and any mask rounds zero to zero
    have zero : cls.ro.instanceSize = 0 := by
      by_contra some_bytes
      have whole : 2 ^ 32 ≤ 2 ^ alignment.toNat := Nat.pow_le_pow_right (by decide) large
      have reached : 2 ^ alignment.toNat ≤ roundUp cls.ro.instanceSize (2 ^ alignment.toNat) := by
        refine Nat.le_of_dvd ?_ (unit_dvd_roundUp _ _)
        have := le_roundUp cls.ro.instanceSize positive
        omega
      omega
    have rounded (k : ℕ) : roundUp 0 (2 ^ k) = 0 :=
      Nat.le_zero.mp (roundUp_le (Nat.two_pow_pos k) (Nat.le_refl 0) (dvd_zero _))
    rw [newOffset, zero, rounded, shiftOne, maskUp_eq (Nat.mod_lt _ (by decide)).le (by decide),
      rounded, Nat.zero_mod]

/-! ## Runs -/

theorem Contained.added {width : Width} {inherited : List Ivar} {cls : IvarClass}
    {call : AddIvarCall} (contained : Contained inherited cls) (fits : call.Fits width cls) :
    AddedSafely inherited cls (withNewIvar width cls call) call (newIvar cls call)
        (newOffset cls call.alignment) ∧
      Contained inherited (withNewIvar width cls call) := by
  have inside := fits.inside
  have placed := newOffset_eq (Nat.lt_of_le_of_lt (Nat.le_add_right _ _) inside)
  have after := le_roundUp cls.ro.instanceSize (Nat.two_pow_pos call.alignment.toNat)
  have size : (withNewIvar width cls call).ro.instanceSize =
      newOffset cls call.alignment + call.size := by
    show (newOffset cls call.alignment + call.size) % 2 ^ 32 = _
    rw [Nat.mod_eq_of_lt (by rw [placed]; exact inside)]
  refine ⟨⟨ivarList_withNewIvar width cls call, rfl, rfl, ?_, fun other member => ?_, size.ge⟩,
    ⟨Nat.mod_lt _ (by decide), fun ivar member => ?_⟩⟩
  · rw [placed]
    exact unit_dvd_roundUp _ _
  · refine (contained.ends other member).apart fun offset isOffset => ?_
    obtain rfl := Option.some.inj isOffset
    rw [placed]
    exact after
  · rw [ivarList_withNewIvar, ← List.append_assoc] at member
    rw [size]
    obtain old | new := List.mem_append.mp member
    · exact (contained.ends ivar old).mono (by omega)
    · obtain rfl := List.mem_singleton.mp new
      intro offset isOffset
      obtain rfl := Option.some.inj isOffset
      exact Nat.le_refl _

theorem Contained.call {width : Width} {inherited : List Ivar} {cls : IvarClass}
    {call : AddIvarCall} (contained : Contained inherited cls)
    (fits : call.refused cls = false → call.Fits width cls) :
    CallSafe width inherited cls call ∧
      ∀ answer after, classAddIvar width (some cls) call = some (answer, some after) →
        Contained inherited after := by
  unfold CallSafe
  cases refused : call.refused cls with
  | true =>
      rw [classAddIvar_refused width refused]
      refine ⟨rfl, fun answer after same => ?_⟩
      obtain ⟨-, kept⟩ := Prod.mk.inj (Option.some.inj same)
      obtain rfl := Option.some.inj kept
      exact contained
  | false =>
      obtain ⟨safe, still⟩ := contained.added (fits refused)
      rw [classAddIvar_added refused (fits refused)]
      refine ⟨⟨_, _, _, rfl, safe⟩, fun answer after same => ?_⟩
      obtain ⟨-, kept⟩ := Prod.mk.inj (Option.some.inj same)
      obtain rfl := Option.some.inj kept
      exact still

/--
Every sequence of `class_addIvar` calls on a class under construction adds safely when, at each
call that is not refused, the rounded instance size and the new variable's size fit in 32 bits
together, and so does the size of the list so far.
-/
theorem addsSafely_of_fits (width : Width) (inherited : List Ivar) (calls : List AddIvarCall)
    (cls : IvarClass) (contained : Contained inherited cls) (fits : FittingRun width calls cls) :
    AddsSafely width inherited calls cls := by
  induction calls generalizing cls with
  | nil => exact trivial
  | cons call calls ih =>
      obtain ⟨safe, still⟩ := contained.call fits.1
      exact ⟨safe, fun answer after added =>
        ih after (still answer after added) (fits.2 answer after added)⟩

/-! ## Calls on a root class -/

def newRootClass : IvarClass := objcInitializeClassPair .lp64 none

/-- A byte, a pointer after it, and a name that is taken. -/
def fittingCalls : List AddIvarCall :=
  [⟨some "flag", 1, 0, some "c"⟩, ⟨some "next", 8, 3, some "@"⟩, ⟨some "flag", 1, 0, none⟩]

theorem fittingCalls_fit : FittingRun .lp64 fittingCalls newRootClass := by
  have flag : AddIvarCall.Fits .lp64 newRootClass ⟨some "flag", 1, 0, some "c"⟩ :=
    ⟨by decide +kernel, by decide +kernel⟩
  refine ⟨fun _ => flag, fun answer after added => ?_⟩
  rw [classAddIvar_added (by decide +kernel) flag] at added
  obtain rfl := Option.some.inj (Prod.mk.inj (Option.some.inj added)).2
  have next : AddIvarCall.Fits .lp64 (withNewIvar .lp64 newRootClass ⟨some "flag", 1, 0, some "c"⟩)
      ⟨some "next", 8, 3, some "@"⟩ := ⟨by decide +kernel, by decide +kernel⟩
  refine ⟨fun _ => next, fun answer after added => ?_⟩
  rw [classAddIvar_added (by decide +kernel) next] at added
  obtain rfl := Option.some.inj (Prod.mk.inj (Option.some.inj added)).2
  refine ⟨fun accepted => absurd accepted (by decide +kernel), fun answer after _ => trivial⟩

theorem addsSafely_of_fits_root : AddsSafely .lp64 [] fittingCalls newRootClass :=
  addsSafely_of_fits .lp64 [] fittingCalls newRootClass (.root .lp64) fittingCalls_fit

/--
The greatest size that is accepted wraps the size of the instance around to 7, where the next
variable then overlaps it.
-/
theorem not_addsSafely_wrapped :
    ¬AddsSafely .lp64 []
      [⟨some "bytes", 2 ^ 32 - 1, 0, none⟩, ⟨some "code", 2, 0, some "s"⟩] newRootClass := by
  rintro ⟨-, rest⟩
  obtain ⟨safe, -⟩ := rest true
    (withNewIvar .lp64 newRootClass ⟨some "bytes", 2 ^ 32 - 1, 0, none⟩) (by decide +kernel)
  have outcome : classAddIvar .lp64
      (some (withNewIvar .lp64 newRootClass ⟨some "bytes", 2 ^ 32 - 1, 0, none⟩))
      ⟨some "code", 2, 0, some "s"⟩ =
        some (true, some (withNewIvar .lp64
          (withNewIvar .lp64 newRootClass ⟨some "bytes", 2 ^ 32 - 1, 0, none⟩)
          ⟨some "code", 2, 0, some "s"⟩)) := by decide +kernel
  rw [CallSafe, outcome] at safe
  obtain ⟨added, ivar, offset, same, added_safely⟩ := safe
  obtain rfl := Option.some.inj same
  have appended := added_safely.appended
  rw [ivarList_withNewIvar] at appended
  obtain ⟨-, last⟩ := List.append_inj' appended rfl
  obtain rfl := List.cons.inj last |>.1
  exact absurd (added_safely.apart _ (List.mem_append_right _ (List.mem_singleton_self _)))
    (by decide +kernel)

end ObjcDyld.Ivars
