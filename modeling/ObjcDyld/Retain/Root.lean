import ObjcDyld.Retain.SideTable

/-!
# Root retain and release

The unified retain-count functions on an object.  The isa is updated with
load-exclusive/store-exclusive pairs, whose stores may fail without reason; the
list `stores` says which attempts succeed, and all attempts after its end do.
-/

namespace ObjcDyld.Retain

/-! ## Retain -/

/--
`rootRetain(tryRetain, handleOverflow)`: whether the object was returned rather than nil, and the
object after the call.
-/
def rootRetain (arch : Arch) (tryRetain handleOverflow : Bool) (stores : List Bool)
    (object : Object) : Bool × Object :=
  match object.isa with
  | .raw cls =>
      if cls.isMetaClass then (true, object)
      else if tryRetain then
        let (retained, entry) := sidetableTryRetain arch object.refcnt
        (retained, { object with refcnt := entry })
      else (true, { object with refcnt := sidetableRetain arch object.refcnt })
  | .nonpointer oldisa =>
      if tryRetain && oldisa.deallocating then (false, object)
      else
        let (newisa, carry) := oldisa.addRC arch 1
        if carry then
          -- rootRetain_overflow
          if !handleOverflow then rootRetain arch tryRetain true stores object
          else
            let newisa := { newisa with extraRC := arch.rcHalf, hasSidetableRC := true }
            match stores with
            | false :: stores => rootRetain arch tryRetain handleOverflow stores object
            | _ =>
                (true, { isa := .nonpointer newisa
                         refcnt := (sidetableAddExtraRC arch arch.rcHalf object.refcnt).2 })
        else
          match stores with
          | false :: stores => rootRetain arch tryRetain handleOverflow stores object
          | _ => (true, { object with isa := .nonpointer newisa })
termination_by 2 * stores.length + (!handleOverflow).toNat
decreasing_by all_goals simp_all

def rootTryRetain (arch : Arch) (stores : List Bool) (object : Object) : Bool × Object :=
  rootRetain arch true false stores object

/-! ## Release -/

/-- What a release reports, and the object after it. -/
structure Released where
  /-- The function's result: the object should now be deallocated. -/
  shouldDealloc : Bool
  /-- `-dealloc` was sent. -/
  sentDealloc : Bool
  /-- `overrelease_error` was called. -/
  overreleased : Bool
  object : Object
  deriving DecidableEq, Repr

def Released.alive (object : Object) : Released := ⟨false, false, false, object⟩

/-- `rootRelease(performDealloc, handleUnderflow)`, from its `retry` label. -/
def rootRelease (arch : Arch) (performDealloc handleUnderflow sideTableLocked : Bool)
    (stores : List Bool) (object : Object) : Released :=
  match object.isa with
  | .raw cls =>
      if cls.isMetaClass then .alive object
      else
        let (doDealloc, entry) := sidetableRelease arch object.refcnt
        ⟨doDealloc, doDealloc && performDealloc, false, { object with refcnt := entry }⟩
  | .nonpointer oldisa =>
      let (newisa, carry) := oldisa.subRC arch
      if !carry then
        match stores with
        | false :: stores =>
            rootRelease arch performDealloc handleUnderflow sideTableLocked stores object
        | _ => .alive { object with isa := .nonpointer newisa }
      -- underflow: the decrement is abandoned
      else if oldisa.hasSidetableRC && !handleUnderflow then
        -- rootRelease_underflow
        rootRelease arch performDealloc true false stores object
      else if oldisa.hasSidetableRC && !sideTableLocked then
        rootRelease arch performDealloc handleUnderflow true stores object
      else
        let (borrowed, entry) :=
          if oldisa.hasSidetableRC then sidetableSubExtraRC arch arch.rcHalf object.refcnt
          else (0, object.refcnt)
        if 0 < borrowed then
          let putBack : Object := { object with refcnt := (sidetableAddExtraRC arch borrowed entry).2 }
          match stores with
          | false :: stores =>
              -- Inline update failed; it is tried once more before the retains are put back.
              let (newisa2, overflow) := oldisa.addRC arch (borrowed - 1)
              if overflow then
                rootRelease arch performDealloc handleUnderflow sideTableLocked stores putBack
              else
                match stores with
                | false :: stores =>
                    rootRelease arch performDealloc handleUnderflow sideTableLocked stores putBack
                | _ => .alive { isa := .nonpointer newisa2, refcnt := entry }
          | _ =>
              .alive { isa := .nonpointer { oldisa with extraRC := borrowed - 1 }, refcnt := entry }
        else if oldisa.deallocating then ⟨false, false, true, { object with refcnt := entry }⟩
        else
          match stores with
          | false :: stores =>
              rootRelease arch performDealloc handleUnderflow sideTableLocked stores
                { object with refcnt := entry }
          | _ =>
              ⟨true, performDealloc, false,
                { isa := .nonpointer { oldisa with deallocating := true }, refcnt := entry }⟩
termination_by 4 * stores.length + 2 * (!handleUnderflow).toNat + (!sideTableLocked).toNat
decreasing_by all_goals (simp_all; try omega)

/-! ## Count, class and flags -/

def rootRetainCount (object : Object) : ℕ :=
  match object.isa with
  | .raw _ => sidetableRetainCount object.refcnt
  | .nonpointer bits =>
      1 + bits.extraRC + if bits.hasSidetableRC then sidetableGetExtraRC object.refcnt else 0

def rootIsDeallocating (object : Object) : Bool :=
  match object.isa with
  | .raw _ => sidetableIsDeallocating object.refcnt
  | .nonpointer bits => bits.deallocating

/-- How a class is kept in the isa: `shiftcls`, or `indexcls` when the isa is indexed. -/
def Arch.shiftcls (arch : Arch) (cls : Class) : ℕ :=
  match arch with
  | .x86_64 => cls.address >>> 3
  | .arm64 => cls.address >>> 3
  | .armv7k => cls.classArrayIndex

def Isa.classAddress (arch : Arch) (classForIndex : ℕ → ℕ) : Isa → ℕ
  | .raw cls => cls.address
  | .nonpointer fields =>
      match arch with
      | .x86_64 => fields.shiftcls <<< 3
      | .arm64 => fields.shiftcls <<< 3
      | .armv7k => classForIndex fields.shiftcls

/-- `ISA_MAGIC_VALUE` and `ISA_INDEX_MAGIC_VALUE`: an isa with nothing but the magic field. -/
def Arch.magicIsa (arch : Arch) : IsaFields where
  hasAssoc := false
  hasCxxDtor := false
  shiftcls := 0
  magic :=
    match arch with
    | .x86_64 => 0x3b
    | .arm64 => 0x1a
    | .armv7k => 0x0e
  weaklyReferenced := false
  deallocating := false
  hasSidetableRC := false
  extraRC := 0

/-- The isa that `changeIsa` stores, and the side-table entry that goes with it. -/
def changedIsa (arch : Arch) (newCls : Class) (object : Object) : Object :=
  match object.isa with
  | .raw cls =>
      if cls.address = 0 && !newCls.isFuture && newCls.canAllocNonpointer then
        { object with
          isa := .nonpointer
            { arch.magicIsa with
              hasCxxDtor := newCls.hasCxxDtor
              shiftcls := arch.shiftcls newCls } }
      else { object with isa := .raw newCls }
  | .nonpointer oldisa =>
      if !newCls.isFuture && newCls.canAllocNonpointer then
        { object with
          isa := .nonpointer
            { oldisa with
              hasCxxDtor := newCls.hasCxxDtor
              shiftcls := arch.shiftcls newCls } }
      else
        { isa := .raw newCls
          refcnt := sidetableMoveExtraRC arch oldisa.extraRC oldisa.deallocating
            oldisa.weaklyReferenced object.refcnt }

/-- `changeIsa`: the old class, and the object after the call. -/
def changeIsa (arch : Arch) (classForIndex : ℕ → ℕ) (newCls : Class) (stores : List Bool)
    (object : Object) : ℕ × Object :=
  match stores with
  | false :: stores => changeIsa arch classForIndex newCls stores object
  | _ => (object.isa.classAddress arch classForIndex, changedIsa arch newCls object)

/-- `setWeaklyReferenced_nolock` -/
def setWeaklyReferenced (stores : List Bool) (object : Object) : Object :=
  match stores with
  | false :: stores => setWeaklyReferenced stores object
  | _ =>
      match object.isa with
      | .raw _ => { object with refcnt := sidetableSetWeaklyReferenced object.refcnt }
      | .nonpointer oldisa =>
          { object with isa := .nonpointer { oldisa with weaklyReferenced := true } }

/-- A rehash of `SideTable::refcnts`, which drops the entries whose value is zero. -/
def purgeRefcnt (object : Object) : Object :=
  if object.refcnt = some 0 then { object with refcnt := none } else object

end ObjcDyld.Retain
