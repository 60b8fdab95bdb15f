import ObjcDyld.ChainedFixups.BindOpcodes
import ObjcDyld.Common.ByteMemory
import ObjcDyld.Common.CheckedRuns

/-!
# Fixups from relocations and indirect symbols

`MachOAnalyzer::forEachIndirectPointer` and the parts of `MachOAnalyzer::forEachRebase` and
`MachOAnalyzer::forEachBind` for images without `LC_DYLD_INFO` and without chained fixups.
-/

namespace ObjcDyld.OldFixups

open ByteMemory CheckedRuns StoppableRuns
open ChainedFixups (SegmentInfo)

abbrev INDIRECT_SYMBOL_LOCAL : BitVec 32 := 0x80000000
abbrev INDIRECT_SYMBOL_ABS : BitVec 32 := 0x40000000
abbrev SECTION_TYPE : BitVec 32 := 0xFF
abbrev S_NON_LAZY_SYMBOL_POINTERS : BitVec 32 := 6
abbrev S_LAZY_SYMBOL_POINTERS : BitVec 32 := 7
abbrev S_SYMBOL_STUBS : BitVec 32 := 8
abbrev S_ATTR_SELF_MODIFYING_CODE : BitVec 32 := 0x04000000
abbrev CPU_TYPE_I386 : BitVec 32 := 7
abbrev MH_TWOLEVEL : BitVec 32 := 0x80
abbrev BIND_SPECIAL_DYLIB_SELF : ℤ := 0
abbrev BIND_SPECIAL_DYLIB_MAIN_EXECUTABLE : ℤ := -1
abbrev BIND_SPECIAL_DYLIB_FLAT_LOOKUP : ℤ := -2
abbrev BIND_SPECIAL_DYLIB_WEAK_LOOKUP : ℤ := -3
abbrev REBASE_TYPE_POINTER : ℕ := 1
abbrev REBASE_TYPE_TEXT_ABSOLUTE32 : ℕ := 2
abbrev BIND_TYPE_POINTER : ℕ := 1

/-- An entry of the symbol table. -/
structure Nlist where
  n_strx : BitVec 32
  n_type : BitVec 8
  n_desc : BitVec 16

/-- What is used of a section. -/
structure SectionInfo where
  sectFlags : BitVec 32
  reserved1 : BitVec 32
  reserved2 : BitVec 32
  sectAddr : BitVec 64
  sectSize : BitVec 64

/-- A `relocation_info`. -/
structure Relocation where
  r_address : BitVec 32
  r_symbolnum : BitVec 24
  r_length : BitVec 2
  r_type : BitVec 4

/-- An image and its tables; what lies behind the end of a table is there, too. -/
structure OldImage where
  is64 : Bool
  cputype : BitVec 32
  /-- The flags of the mach header. -/
  flags : BitVec 32
  /-- The segments before `__LINKEDIT`. -/
  segments : List SegmentInfo
  linkedit : SegmentInfo
  sections : List SectionInfo
  locrel : List Relocation
  extrel : List Relocation
  indirectSymbolTable : ℕ → BitVec 32
  nindirectsyms : BitVec 32
  symbols : ℕ → Nlist
  nsyms : BitVec 32
  strsize : BitVec 32
  /-- The content of the segments, by addresses. -/
  content : Memory

/-- Errors of the walks. -/
inductive FixupError
  /-- "relocation has wrong r_length" -/
  | wrongLength
  /-- "relocation has wrong r_type" -/
  | wrongType
  /-- "relocation has out of range r_address" -/
  | outOfRange
  /-- "external relocation has out of range r_symbolnum" -/
  | wrongSymbolnum
  /-- "external relocation has r_symbolnum=%d which has out of range n_strx" -/
  | wrongStrx
  /-- "S_ATTR_SELF_MODIFYING_CODE section type only valid in old i386 binaries" -/
  | selfModifying
  /-- "section %s overflows indirect symbol table" -/
  | overflows
  /-- "indirect symbol[%d] = %d which is invalid symbol index" -/
  | wrongIndex (entry : ℕ) (symNum : BitVec 32)
  /-- "symbol[%d] string offset out of range" -/
  | wrongString (entry : ℕ)
  deriving DecidableEq

inductive TableRead
  | indirect (index : ℕ)
  | symbol (index : ℕ)
  /-- A name is taken from the string pool. -/
  | string (offset : ℕ)
  | addend (segIndex : ℕ) (segOffset : BitVec 64) (size : ℕ)
  deriving DecidableEq

/-- What the handler of `forEachIndirectPointer` is called with; a name is an offset into the string pool. -/
structure PointerCall where
  pointerAddress : BitVec 64
  bind : Bool
  bindLibOrdinal : ℤ := 0
  bindSymbolName : Option ℕ := none
  bindWeakImport : Bool := false
  bindLazy : Bool := false
  selfModifyingStub : Bool := false
  deriving DecidableEq

/-- What the handler of `forEachRebase` is called with. -/
structure RebaseCall where
  segIndex : ℕ
  segOffset : BitVec 64
  type : ℕ
  deriving DecidableEq

/-- What the handler of `forEachBind` is called with. -/
structure BindCall where
  opcodeName : String
  libOrdinal : ℤ
  segIndex : ℕ
  segOffset : BitVec 64
  symbolName : Option ℕ
  weakImport : Bool
  lazyBind : Bool
  addend : ℕ
  deriving DecidableEq

/-- The elements of a section of pointers or of self-modifying stubs. -/
structure Elements where
  selfModifyingStub : Bool
  elementSize : ℕ
  elementCount : ℕ
  deriving DecidableEq

/-- What the callback of `forEachSection` makes of a section. -/
inductive SectionTable
  | other
  | failed (error : FixupError)
  | elements (table : Elements)
  deriving DecidableEq

namespace OldImage

variable (image : OldImage)

def ptrSize : ℕ := if image.is64 then 8 else 4

/-- `MachOAnalyzer::segIndexAndOffsetForAddress` from one segment on. -/
def findSegment (addr : BitVec 64) : ℕ → List SegmentInfo → Option (ℕ × BitVec 64)
  | _, [] => none
  | i, info :: infos =>
      if info.vmAddr ≤ addr ∧ addr < info.vmAddr + info.vmSize then some (i, addr - info.vmAddr)
      else findSegment addr (i + 1) infos

/-- `MachOAnalyzer::segIndexAndOffsetForAddress`. -/
def segIndexAndOffsetForAddress (addr : BitVec 64) : Option (ℕ × BitVec 64) := findSegment addr 0 image.segments

/-- `MachOAnalyzer::relocBaseAddress`. -/
def relocBaseAddress : BitVec 64 :=
  let first := (image.segments.headD image.linkedit).vmAddr
  if image.is64 then ((image.segments.find? (·.writable)).map (·.vmAddr)).getD first else first

/-- `MachOAnalyzer::libOrdinalFromDesc`. -/
def libOrdinalFromDesc (n_desc : BitVec 16) : ℤ :=
  if image.flags &&& MH_TWOLEVEL = 0 then BIND_SPECIAL_DYLIB_FLAT_LOOKUP
  else
    match ((n_desc >>> 8) &&& 0xFF).toNat with
    | 0x00 => BIND_SPECIAL_DYLIB_SELF
    | 0xFE => BIND_SPECIAL_DYLIB_FLAT_LOOKUP
    | 0xFF => BIND_SPECIAL_DYLIB_MAIN_EXECUTABLE
    | libIndex => libIndex

/-- A defined weak definition, which gets a special ordinal. -/
def libOrdinalOf (symbol : Nlist) : ℤ :=
  if symbol.n_type &&& 0x0E = 0x0E ∧ symbol.n_type &&& 0x01 ≠ 0 ∧ symbol.n_desc &&& 0x80 ≠ 0 then
    BIND_SPECIAL_DYLIB_WEAK_LOOKUP
  else image.libOrdinalFromDesc symbol.n_desc

/-- `N_WEAK_REF`. -/
def isWeakImport (symbol : Nlist) : Bool := symbol.n_desc &&& 0x40 ≠ 0

def sectionType (sect : SectionInfo) : BitVec 32 := sect.sectFlags &&& SECTION_TYPE

def isSelfModifyingStub (sect : SectionInfo) : Bool :=
  sectionType sect = S_SYMBOL_STUBS ∧ sect.sectFlags &&& S_ATTR_SELF_MODIFYING_CODE ≠ 0 ∧ sect.reserved2 = 5 ∧
    image.cputype = CPU_TYPE_I386

/-- Sections of other types are passed over. -/
def hasPointers (sect : SectionInfo) : Bool :=
  sectionType sect = S_LAZY_SYMBOL_POINTERS ∨ sectionType sect = S_NON_LAZY_SYMBOL_POINTERS ∨
    image.isSelfModifyingStub sect = true

def elementSize (sect : SectionInfo) : ℕ := if image.isSelfModifyingStub sect then sect.reserved2.toNat else image.ptrSize

/-- The tests of a section; the number of elements has 32 bits. -/
def sectionTable (sect : SectionInfo) : SectionTable :=
  if image.hasPointers sect = false then .other
  else if image.flags &&& S_ATTR_SELF_MODIFYING_CODE ≠ 0 ∧ image.isSelfModifyingStub sect = false then
    .failed .selfModifying
  else
    let elementCount := sect.sectSize.toNat / image.elementSize sect % 2 ^ 32
    if sect.reserved1 > image.nindirectsyms ∨ elementCount > (image.nindirectsyms - sect.reserved1).toNat then
      .failed .overflows
    else .elements ⟨image.isSelfModifyingStub sect, image.elementSize sect, elementCount⟩

/-- The address of an element, whose offset has 32 bits. -/
def elementAddress (sect : SectionInfo) (table : Elements) (i : ℕ) : BitVec 64 :=
  sect.sectAddr + BitVec.ofNat 64 (i * table.elementSize % 2 ^ 32)

def symbolCall (sect : SectionInfo) (table : Elements) (address : BitVec 64) (symbol : Nlist) : PointerCall where
  pointerAddress := address
  bind := true
  bindLibOrdinal := image.libOrdinalOf symbol
  bindSymbolName := some symbol.n_strx.toNat
  bindWeakImport := isWeakImport symbol
  bindLazy := sectionType sect = S_LAZY_SYMBOL_POINTERS
  selfModifyingStub := table.selfModifyingStub

/-- The place of an element in the indirect symbol table. -/
def entryOf (sect : SectionInfo) (i : ℕ) : ℕ := sect.reserved1.toNat + i

/-- The body of the loop over the elements of a section. -/
def elementTreatment (sect : SectionInfo) (table : Elements) (i : ℕ) : Treatment PointerCall FixupError :=
  let symNum := image.indirectSymbolTable (entryOf sect i)
  let address := elementAddress sect table i
  if symNum = INDIRECT_SYMBOL_ABS then .passed
  else if symNum = INDIRECT_SYMBOL_LOCAL then .called { pointerAddress := address, bind := false }
  else if symNum > image.nsyms then .failed (.wrongIndex (entryOf sect i) symNum)
  else
    let symbol := image.symbols symNum.toNat
    if symbol.n_strx > image.strsize then .failed (.wrongString (entryOf sect i))
    else .called (image.symbolCall sect table address symbol)

/-- What the body reads. -/
def elementReads (sect : SectionInfo) (i : ℕ) : List TableRead :=
  let symNum := image.indirectSymbolTable (entryOf sect i)
  let symbol := image.symbols symNum.toNat
  .indirect (entryOf sect i) ::
    if symNum = INDIRECT_SYMBOL_ABS ∨ symNum = INDIRECT_SYMBOL_LOCAL ∨ symNum > image.nsyms then []
    else .symbol symNum.toNat :: if symbol.n_strx > image.strsize then [] else [.string symbol.n_strx.toNat]

/-- A place in the sections: the number of the section and of the element. -/
abbrev Place := ℕ × ℕ

abbrev PointerStep := Step Place TableRead PointerCall FixupError

def elementSteps (k : ℕ) (sect : SectionInfo) (table : Elements) : List PointerStep :=
  (List.range table.elementCount).map fun i => ⟨(k, i), image.elementTreatment sect table i, image.elementReads sect i⟩

/-- The loop over the sections from one on: `sectionStop` is set by an error and by the handler. -/
def walkSections {σ : Type} (handler : PointerCall → σ → σ × Bool) :
    ℕ → List SectionInfo → σ → Walk Place TableRead PointerCall FixupError σ
  | _, [], state => ⟨⟨state, [], false⟩, [], [], none⟩
  | k, sect :: sects, state =>
      match image.sectionTable sect with
      | .other => walkSections handler (k + 1) sects state
      | .failed error => ⟨⟨state, [], false⟩, [((k, 0), .failed error)], [], some error⟩
      | .elements table =>
          let walk := run handler (image.elementSteps k sect table) state
          if walk.ends then walk else (walkSections handler (k + 1) sects walk.outcome.state).behind walk

/-- `MachOAnalyzer::forEachIndirectPointer`. -/
def forEachIndirectPointer {σ : Type} (handler : PointerCall → σ → σ × Bool) (state : σ) :
    Walk Place TableRead PointerCall FixupError σ :=
  image.walkSections handler 0 image.sections state

/-- `r_length` of a pointer. -/
def relocSize : BitVec 2 := if image.is64 then 3 else 2

def kindError (reloc : Relocation) : Option FixupError :=
  if reloc.r_length ≠ image.relocSize then some .wrongLength else if reloc.r_type ≠ 0 then some .wrongType else none

/-- The loop that collects the addresses of the local relocations. -/
def collectLocal : List Relocation → List (BitVec 32) × Option FixupError
  | [] => ([], none)
  | reloc :: relocs =>
      match image.kindError reloc with
      | some error => ([], some error)
      | none => (reloc.r_address :: (collectLocal relocs).1, (collectLocal relocs).2)

/-- The type of a local relocation in a segment. -/
def rebaseType (segIndex : ℕ) : ℕ :=
  if image.cputype = CPU_TYPE_I386 ∧ (image.segments.map (·.executable)).getD segIndex false = true then
    REBASE_TYPE_TEXT_ABSOLUTE32
  else REBASE_TYPE_POINTER

def localTreatment (addrOff : BitVec 32) : Treatment RebaseCall FixupError :=
  match image.segIndexAndOffsetForAddress (image.relocBaseAddress + addrOff.setWidth 64) with
  | some (segIndex, segOffset) => .called ⟨segIndex, segOffset, image.rebaseType segIndex⟩
  | none => .failed .outOfRange

abbrev LocalStep := Step Unit TableRead RebaseCall FixupError

/-- The collected addresses, in the order of `qsort`. -/
def localSteps : List LocalStep :=
  ((image.collectLocal image.locrel).1.mergeSort fun l r => l ≤ r).map fun addrOff => ⟨(), image.localTreatment addrOff, []⟩

/-- A handler whose `stop` is not looked at. -/
def notStopping {κ σ : Type} (handler : κ → σ → σ × Bool) (made : κ) (state : σ) : σ × Bool := ((handler made state).1, false)

/-- The variables of a caller of `forEachIndirectPointer`. -/
structure Caller (κ σ : Type) where
  state : σ
  reported : List κ
  failed : Bool

/-- A pointer is reported, or its address is out of range, which stops the walk. -/
def report {κ σ : Type} (handler : κ → σ → σ × Bool) (made : Option κ) (caller : Caller κ σ) : Caller κ σ × Bool :=
  match made with
  | some made =>
      ({ caller with state := (handler made caller.state).1, reported := caller.reported ++ [made] },
        (handler made caller.state).2)
  | none => ({ caller with failed := true }, true)

def pointerRebase (call : PointerCall) : Option RebaseCall :=
  (image.segIndexAndOffsetForAddress call.pointerAddress).map fun (segIndex, segOffset) =>
    ⟨segIndex, segOffset, REBASE_TYPE_POINTER⟩

/-- The block that `forEachRebase` passes to `forEachIndirectPointer`. -/
def onLocalPointer {σ : Type} (handler : RebaseCall → σ → σ × Bool) (call : PointerCall) (caller : Caller RebaseCall σ) :
    Caller RebaseCall σ × Bool :=
  if call.bind then (caller, false) else report handler (image.pointerRebase call) caller

/-- What a walk of fixups reports and reads. -/
structure Fixups (κ σ : Type) where
  state : σ
  reported : List κ
  reads : List TableRead
  failed : Bool

/-- `MachOAnalyzer::forEachRebase` of an old image; `forEachIndirectPointer` returns at once after an error. -/
def forEachRebase {σ : Type} (handler : RebaseCall → σ → σ × Bool) (state : σ) : Fixups RebaseCall σ :=
  let walk := run (notStopping handler) image.localSteps state
  if (image.collectLocal image.locrel).2.isSome || walk.error.isSome then
    ⟨walk.outcome.state, walk.outcome.calls, walk.reads, true⟩
  else
    let pointers := image.forEachIndirectPointer (image.onLocalPointer handler) ⟨walk.outcome.state, [], false⟩
    let caller := pointers.outcome.state
    ⟨caller.state, walk.outcome.calls ++ caller.reported, walk.reads ++ pointers.reads, caller.failed || pointers.error.isSome⟩

def segmentAddress (segIndex : ℕ) : BitVec 64 := (image.segments[segIndex]?.map (·.vmAddr)).getD 0

/-- The bind of an external relocation whose address lies in a segment. -/
def externalCall (segIndex : ℕ) (segOffset : BitVec 64) (symbol : Nlist) : BindCall where
  opcodeName := "external relocation"
  libOrdinal := image.libOrdinalOf symbol
  segIndex := segIndex
  segOffset := segOffset
  symbolName := some symbol.n_strx.toNat
  weakImport := isWeakImport symbol
  lazyBind := false
  addend := load image.content ((image.segmentAddress segIndex).toNat + segOffset.toNat) image.ptrSize

/-- The body of the loop over the external relocations. -/
def externalTreatment (reloc : Relocation) : Treatment BindCall FixupError :=
  match image.kindError reloc with
  | some error => .failed error
  | none =>
      match image.segIndexAndOffsetForAddress (image.relocBaseAddress + reloc.r_address.signExtend 64) with
      | none => .failed .outOfRange
      | some (segIndex, segOffset) =>
          let symbol := image.symbols reloc.r_symbolnum.toNat
          if reloc.r_symbolnum.toNat > image.nsyms.toNat then .failed .wrongSymbolnum
          else if symbol.n_strx ≥ image.strsize then .failed .wrongStrx
          else .called (image.externalCall segIndex segOffset symbol)

/-- What the body reads. -/
def externalReads (reloc : Relocation) : List TableRead :=
  match image.kindError reloc, image.segIndexAndOffsetForAddress (image.relocBaseAddress + reloc.r_address.signExtend 64) with
  | none, some (segIndex, segOffset) =>
      let symbol := image.symbols reloc.r_symbolnum.toNat
      if reloc.r_symbolnum.toNat > image.nsyms.toNat then []
      else .symbol reloc.r_symbolnum.toNat :: if symbol.n_strx ≥ image.strsize then []
        else [.string symbol.n_strx.toNat, .addend segIndex segOffset image.ptrSize]
  | _, _ => []

abbrev ExternalStep := Step Unit TableRead BindCall FixupError

def externalSteps : List ExternalStep :=
  image.extrel.map fun reloc => ⟨(), image.externalTreatment reloc, image.externalReads reloc⟩

def pointerBind (call : PointerCall) : Option BindCall :=
  (image.segIndexAndOffsetForAddress call.pointerAddress).map fun (segIndex, segOffset) =>
    { opcodeName := "indirect symbol", libOrdinal := call.bindLibOrdinal, segIndex, segOffset,
      symbolName := call.bindSymbolName, weakImport := call.bindWeakImport, lazyBind := call.bindLazy, addend := 0 }

/-- The block that `forEachBind` passes to `forEachIndirectPointer`. -/
def onSymbolPointer {σ : Type} (handler : BindCall → σ → σ × Bool) (call : PointerCall) (caller : Caller BindCall σ) :
    Caller BindCall σ × Bool :=
  if call.bind = false then (caller, false) else report handler (image.pointerBind call) caller

/-- `MachOAnalyzer::forEachBind` of an old image. -/
def forEachBind {σ : Type} (handler : BindCall → σ → σ × Bool) (state : σ) : Fixups BindCall σ :=
  let walk := run handler image.externalSteps state
  if walk.error.isSome then ⟨walk.outcome.state, walk.outcome.calls, walk.reads, true⟩
  else
    let pointers := image.forEachIndirectPointer (image.onSymbolPointer handler) ⟨walk.outcome.state, [], false⟩
    let caller := pointers.outcome.state
    ⟨caller.state, walk.outcome.calls ++ caller.reported, walk.reads ++ pointers.reads, caller.failed || pointers.error.isSome⟩

end OldImage

end ObjcDyld.OldFixups
