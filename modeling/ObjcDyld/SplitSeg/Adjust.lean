import ObjcDyld.ChainedFixups.Adjustor
import ObjcDyld.SplitSeg.Encodings

/-!
# Adjusting references

`adjustReferencesUsingInfoV2` goes through the references that the split-seg info
of a dylib records from section to section, and rewrites every one of them for
the new addresses of the two sections.
-/

namespace ObjcDyld.SplitSeg

open ByteMemory Loops ChainedFixups

/-- The kinds `DYLD_CACHE_ADJ_V2_…`. -/
inductive Kind where
  | pointer32
  | pointer64
  | delta32
  | delta64
  | arm64Adrp
  | arm64Off12
  | arm64Br26
  | armMovwMovt
  | armBr24
  | thumbMovwMovt
  | thumbBr22
  | imageOff32
  | threadedPointer64
  deriving DecidableEq, Repr

/-- The kind that a number of the split-seg info stands for. -/
def Kind.decode : ℕ → Option Kind
  | 0x01 => some pointer32
  | 0x02 => some pointer64
  | 0x03 => some delta32
  | 0x04 => some delta64
  | 0x05 => some arm64Adrp
  | 0x06 => some arm64Off12
  | 0x07 => some arm64Br26
  | 0x08 => some armMovwMovt
  | 0x09 => some armBr24
  | 0x0A => some thumbMovwMovt
  | 0x0B => some thumbBr22
  | 0x0C => some imageOff32
  | 0x0D => some threadedPointer64
  | _ => none

/-- The instructions of the kinds that come in pairs. -/
def Kind.movInstructions : Kind → Option MovInstructions
  | armMovwMovt => some .arm
  | thumbMovwMovt => some .thumb
  | _ => none

/-- The errors of `adjustReference` and `adjustReferencesUsingInfoV2`; each of them ends a run. -/
inductive Refusal where
  /-- "DYLD_CACHE_ADJ_V2_DELTA_32 can't be adjust by". -/
  | delta32 (adjust : BitVec 64)
  /-- "bad DYLD_CACHE_ADJ_V2_POINTER_32 value not as expected at address". -/
  | pointer32 (fromNewAddress : BitVec 64)
  /-- "bad DYLD_CACHE_ADJ_V2_POINTER_64 value not as expected at address". -/
  | pointer64 (fromNewAddress : BitVec 64)
  /-- "unknown 32-bit chained fixup format", "unknown 64-bit chained fixup format". -/
  | chainedFormat
  /-- "DYLD_CACHE_ADJ_V2_IMAGE_OFF_32 can't be adjust to". -/
  | imageOff32 (toNewAddress : BitVec 64)
  /-- "DYLD_CACHE_ADJ_V2_ARM64_ADRP can't be adjusted that far". -/
  | adrp
  /-- "can't adjust off12 scale=… instruction by … bytes at mapped address". -/
  | off12Scale (scale : ℕ) (mappedAddr : ℕ)
  /-- "off12 scale=… instruction points outside its page at mapped address". -/
  | off12Outside (scale : ℕ) (mappedAddr : ℕ)
  /-- "ADD off12 uses shift at mapped address". -/
  | addShift (mappedAddr : ℕ)
  /-- "unknown off12 instruction". -/
  | off12Unknown (instruction : BitVec 32) (fromNewAddress : BitVec 64)
  /-- "two DYLD_CACHE_ADJ_V2_…_MOVW_MOVT in a row but not paired". -/
  | notPaired
  /-- "two DYLD_CACHE_ADJ_V2_…_MOVW_MOVT in a row but target different addresses". -/
  | differentTargets
  /-- "unknown split seg kind", "unknown split seg info v2 kind value". -/
  | unknownKind (kind : ℕ)
  /-- "split seg from coalesced segment". -/
  | fromCoalesced
  /-- An assertion or an access outside of an array, not an error that is reported. -/
  | undefined
  deriving DecidableEq, Repr

/-! ## Words -/

/-- `DYLD_CACHE_ADJ_V2_DELTA_32`. -/
def adjustDelta32 (value32 : BitVec 32) (adjust : BitVec 64) : Except Refusal (BitVec 32) :=
  let delta := value32.signExtend 64 + adjust
  if delta.toInt > 0x80000000 ∨ (-delta).toInt > 0x80000000 then .error (.delta32 adjust)
  else .ok (delta.setWidth 32)

/-- `DYLD_CACHE_ADJ_V2_IMAGE_OFF_32`. -/
def adjustImageOff32 (value32 : BitVec 32) (toNewAddress adjust imageStartAddress
    imageEndAddress : BitVec 64) : Except Refusal (BitVec 32) :=
  if adjust = 0 then .ok value32
  else
    let value64 := toNewAddress - imageStartAddress
    if value64 > imageEndAddress then .error (.imageOff32 toNewAddress)
    else .ok (value64.setWidth 32)

def page (address : BitVec 64) : BitVec 64 := address &&& ~~~0xFFF

/-- `DYLD_CACHE_ADJ_V2_ARM64_ADRP`; other instructions are `adrp` that were optimized. -/
def adjustAdrp (instruction : BitVec 32) (fromNewAddress toNewAddress : BitVec 64) :
    Except Refusal (BitVec 32) :=
  if isAdrp instruction then
    let pageDistance := page toNewAddress - page fromNewAddress
    let newPage21 := pageDistance.sshiftRight 12
    if newPage21.toInt > 2097151 ∨ newPage21.toInt < -2097151 then .error .adrp
    else .ok (setPage21 instruction newPage21)
  else .ok instruction

/-- The immediate of a load or a store of `scale` bytes that goes `offsetAdjust` bytes further. -/
def scaledAddend (scale encodedAddend offsetAdjust mappedAddr : ℕ) : Except Refusal ℕ :=
  if offsetAdjust % scale ≠ 0 then .error (.off12Scale scale mappedAddr)
  else if encodedAddend * scale ≥ 4096 then .error (.off12Outside scale mappedAddr)
  else .ok ((encodedAddend + offsetAdjust / scale) % (4096 / scale))

/-- `DYLD_CACHE_ADJ_V2_ARM64_OFF12`. -/
def adjustOff12 (instruction : BitVec 32) (adjust fromNewAddress : BitVec 64) (mappedAddr : ℕ) :
    Except Refusal (BitVec 32) :=
  let offsetAdjust := (adjust &&& 0xFFF).toNat
  if offsetAdjust = 0 then .ok instruction
  else if isLoadStore12 instruction then do
    let scale := accessSize instruction
    -- The source has no checks for a scale of one, which they let through.
    let newAddend ← scaledAddend scale (addend12 instruction) offsetAdjust mappedAddr
    .ok (setAddend12 instruction newAddend)
  else if isAdd12 instruction then
    if instruction &&& 0x00C00000 ≠ 0 then .error (.addShift mappedAddr)
    else .ok (setAddend12 instruction ((addend12 instruction + offsetAdjust) % 4096))
  else if instruction ≠ 0xD503201F then .error (.off12Unknown instruction fromNewAddress)
  else .ok instruction

/-- `DYLD_CACHE_ADJ_V2_THUMB_MOVW_MOVT` and `DYLD_CACHE_ADJ_V2_ARM_MOVW_MOVT`, at the second of a pair. -/
def adjustMovwMovt (instructions : MovInstructions) (instruction1 instruction2 : BitVec 32)
    (adjust : BitVec 64) : Except Refusal (BitVec 32 × BitVec 32) :=
  match instructions.full instruction1 instruction2 with
  | none => .error .notPaired
  | some full =>
      .ok (instructions.setFull instruction1 instruction2 (full + adjust.setWidth 32))

/-! ## References -/

/-- A call of `adjustReference`, with the slides of the two sections. -/
structure Reference where
  kind : Kind
  mappedAddr : ℕ
  fromNewAddress : BitVec 64
  toNewAddress : BitVec 64
  fromSlide : BitVec 64
  targetSlide : BitVec 64
  /-- Whether the reference goes to the section `__objc_selrefs`. -/
  toSelRefs : Bool
  deriving DecidableEq, Repr

/-- `deltaAdjust`. -/
def Reference.adjust (reference : Reference) : BitVec 64 :=
  reference.targetSlide - reference.fromSlide

/-- The variables of `adjustReferencesUsingInfoV2` that keep the last reference. -/
structure Last where
  mappedAddr32 : ℕ
  /-- None at the start, and after a pair. -/
  kind : Option Kind
  toNewAddress : BitVec 64
  deriving DecidableEq, Repr

def Last.none : Last := ⟨0, Option.none, 0⟩

/-- The buffer of the cache with its trackers. -/
structure Buffer where
  memory : Memory
  tracker : ℕ → Entry
  /-- `lohTracker`: the places that refer to a selector reference. -/
  lohTracker : List (BitVec 64 × ℕ)
  last : Last

/-- The formats of chained fixups that `adjustReference` looks for. -/
inductive ChainedFormat where
  | ptr32
  | fixups64 (format : Format)
  | other
  deriving DecidableEq, Repr

def kRebaseTargetInSideTableGeneric32 : BitVec 32 := 0x03FFFFFF

/-- The view `generic32.rebase` of a word has the target in bits 0 to 25 and `bind` in bit 31. -/
def adjustChained32 (targetSlide : BitVec 64) (raw32 : BitVec 32) (entry : Entry) :
    BitVec 32 × Entry :=
  if raw32.extractLsb' 31 1 = 0 then
    let target := ((raw32.extractLsb' 0 26).setWidth 64 + targetSlide).setWidth 32
    ((raw32 &&& ~~~0x03FFFFFF) ||| kRebaseTargetInSideTableGeneric32,
      { entry with added := true, rebaseTarget32 := some target })
  else (raw32, entry)

/-- What does not change during a run: the image, and what chained fixups it has. -/
structure Context where
  /-- `_chainedFixupsFormat`, if there is an `LC_DYLD_CHAINED_FIXUPS`. -/
  chained : Option ChainedFormat
  /-- `_segOrigStartAddresses[0]`. -/
  segOrigStart : BitVec 64
  imageStartAddress : BitVec 64
  imageEndAddress : BitVec 64

namespace Buffer

/-- Rewrite the 32-bit word at an address. -/
def update32 (buffer : Buffer) (mappedAddr : ℕ)
    (adjusted : BitVec 32 → Except Refusal (BitVec 32)) : Except Refusal Buffer := do
  let value32 ← adjusted (get32 buffer.memory mappedAddr)
  .ok { buffer with memory := set32 buffer.memory mappedAddr value32 }

/-- `aslrTracker.add`, and `setHigh8` if there is one. -/
def track (buffer : Buffer) (mappedAddr : ℕ) (high8 : BitVec 8) : Buffer :=
  let entry := buffer.tracker mappedAddr
  { buffer with
    tracker := Function.update buffer.tracker mappedAddr
      { entry with added := true, high8 := if high8 = 0 then entry.high8 else some high8 } }

/-- `lohTracker[toNewAddress].insert(mappedAddr)`. -/
def trackLoh (buffer : Buffer) (reference : Reference) : Buffer :=
  if reference.toSelRefs then
    { buffer with
      lohTracker := (reference.toNewAddress, reference.mappedAddr) :: buffer.lohTracker }
  else buffer

/-- The lines after the `switch`. -/
def setLast (buffer : Buffer) (mappedAddr32 : ℕ) (kind : Option Kind) (toNewAddress : BitVec 64) :
    Buffer :=
  { buffer with last := ⟨mappedAddr32, kind, toNewAddress⟩ }

/-- A chained pointer of 64 bits. -/
def updateChained64 (buffer : Buffer) (reference : Reference) (format : Format)
    (segOrigStart : BitVec 64) : Except Refusal Buffer :=
  let mappedAddr := reference.mappedAddr
  match adjustPointer64 format segOrigStart reference.targetSlide
      ⟨get64 buffer.memory mappedAddr, buffer.tracker mappedAddr⟩ with
  | .error _ => .error .undefined
  | .ok cell => .ok { buffer with
      memory := set64 buffer.memory mappedAddr cell.raw64
      tracker := Function.update buffer.tracker mappedAddr cell.entry }

end Buffer

/-- The case of `adjustReference` for a pair: the first one waits for the second. -/
def adjustPair (instructions : MovInstructions) (reference : Reference) (buffer : Buffer) :
    Except Refusal Buffer :=
  let mappedAddr := reference.mappedAddr
  let last := buffer.last
  if last.kind = some reference.kind then
    if last.toNewAddress = reference.toNewAddress then do
      let (instruction1, instruction2) ← adjustMovwMovt instructions
        (get32 buffer.memory last.mappedAddr32) (get32 buffer.memory mappedAddr) reference.adjust
      let memory := set32 (set32 buffer.memory last.mappedAddr32 instruction1) mappedAddr instruction2
      .ok ({ buffer with memory }.setLast mappedAddr none reference.toNewAddress)
    else .error .differentTargets
  else .ok (buffer.setLast mappedAddr (some reference.kind) reference.toNewAddress)

def adjustReference (context : Context) (reference : Reference) (buffer : Buffer) :
    Except Refusal Buffer :=
  let mappedAddr := reference.mappedAddr
  let toNewAddress := reference.toNewAddress
  let done (mappedAddr32 : ℕ) (buffer : Buffer) : Buffer :=
    buffer.setLast mappedAddr32 (some reference.kind) toNewAddress
  match reference.kind with
  | .delta32 => do
      let buffer ← buffer.update32 mappedAddr fun value32 => adjustDelta32 value32 reference.adjust
      .ok (done mappedAddr buffer)
  | .pointer32 =>
      match context.chained with
      | some .ptr32 =>
          let (raw32, entry) := adjustChained32 reference.targetSlide
            (get32 buffer.memory mappedAddr) (buffer.tracker mappedAddr)
          .ok (done mappedAddr { buffer with
            memory := set32 buffer.memory mappedAddr raw32
            tracker := Function.update buffer.tracker mappedAddr entry })
      | some _ => .error .chainedFormat
      | none => do
          let buffer ← buffer.update32 mappedAddr fun value32 =>
            if toNewAddress ≠ value32.setWidth 64 + reference.targetSlide then
              .error (.pointer32 reference.fromNewAddress)
            else .ok (toNewAddress.setWidth 32)
          .ok (done mappedAddr (buffer.track mappedAddr 0))
  | .pointer64 =>
      match context.chained with
      | some (.fixups64 format) => do
          let buffer ← buffer.updateChained64 reference format context.segOrigStart
          .ok (done 0 buffer)
      | some _ => .error .chainedFormat
      | none =>
          if toNewAddress ≠ get64 buffer.memory mappedAddr + reference.targetSlide then
            .error (.pointer64 reference.fromNewAddress)
          else
            let buffer := { buffer with memory := set64 buffer.memory mappedAddr toNewAddress }
            .ok (done 0 (buffer.track mappedAddr (toNewAddress.extractLsb' 56 8)))
  | .threadedPointer64 => do
      let buffer ← buffer.updateChained64 reference .arm64e context.segOrigStart
      .ok (done 0 buffer)
  | .delta64 =>
      let value64 := get64 buffer.memory mappedAddr
      let memory := set64 buffer.memory mappedAddr (value64 + reference.adjust)
      .ok (done 0 { buffer with memory })
  | .imageOff32 => do
      let mappedAddr32 := if reference.adjust = 0 then 0 else mappedAddr
      let buffer ← buffer.update32 mappedAddr fun value32 => adjustImageOff32 value32 toNewAddress
        reference.adjust context.imageStartAddress context.imageEndAddress
      .ok (done mappedAddr32 buffer)
  | .arm64Adrp => do
      let buffer ← (buffer.trackLoh reference).update32 mappedAddr fun instruction =>
        adjustAdrp instruction reference.fromNewAddress toNewAddress
      .ok (done mappedAddr buffer)
  | .arm64Off12 => do
      let buffer ← (buffer.trackLoh reference).update32 mappedAddr fun instruction =>
        adjustOff12 instruction reference.adjust reference.fromNewAddress mappedAddr
      .ok (done mappedAddr buffer)
  | .thumbMovwMovt => adjustPair .thumb reference buffer
  | .armMovwMovt => adjustPair .arm reference buffer
  | .arm64Br26 | .thumbBr22 | .armBr24 => .ok (done 0 buffer)

/-! ## Sections -/

/-- The text of a coalesced section in the cache. -/
structure Coalesced where
  bufferVMAddr : BitVec 64
  /-- `DylibSectionOffsetToCacheSectionOffset`. -/
  offsets : ℕ → Option ℕ

structure Section where
  addr : BitVec 64
  /-- The text that the section became part of. -/
  coalesced : Option Coalesced
  /-- Whether the section is `__DATA,__objc_selrefs`. -/
  isSelRefs : Bool

/-- A segment of the dylib with its mapping in the cache. -/
structure MappedSegment where
  vmaddr : BitVec 64
  dstCacheUnslidAddress : BitVec 64
  dstSegment : ℕ
  sections : List Section

/-- The entry of `_segSlides`. -/
def MappedSegment.slide (segment : MappedSegment) : BitVec 64 :=
  segment.dstCacheUnslidAddress - segment.vmaddr

structure SectionEntry where
  slide : BitVec 64
  newAddress : BitVec 64
  /-- Null for a coalesced section. -/
  mappedAddress : ℕ
  /-- The text of a coalesced section, with the original address of the section. -/
  coalesced : Option (Coalesced × BitVec 64)
  isSelRefs : Bool

def MappedSegment.sectionEntry (segment : MappedSegment) (sect : Section) : SectionEntry :=
  match sect.coalesced with
  | some coalesced => ⟨0, 0, 0, some (coalesced, sect.addr), false⟩
  | none =>
      { slide := segment.slide
        newAddress := segment.dstCacheUnslidAddress + sect.addr - segment.vmaddr
        mappedAddress := segment.dstSegment + (sect.addr - segment.vmaddr).toNat
        coalesced := none
        isSelRefs := sect.isSelRefs }

/-- The dylib, as the Adjustor sees it. -/
structure Dylib where
  firstSegment : MappedSegment
  otherSegments : List MappedSegment
  chained : Option ChainedFormat

namespace Dylib

variable (dylib : Dylib)

/-- The entry of the mach_header, which section index 0 refers to. -/
def headerEntry : SectionEntry where
  slide := dylib.firstSegment.slide
  newAddress := dylib.firstSegment.dstCacheUnslidAddress
  mappedAddress := dylib.firstSegment.dstSegment
  coalesced := none
  isSelRefs := false

/-- The section arrays; section 1 and later refer to real sections. -/
def sectionEntries : List SectionEntry :=
  dylib.headerEntry :: (dylib.firstSegment :: dylib.otherSegments).flatMap fun segment =>
    segment.sections.map segment.sectionEntry

def context : Context where
  chained := dylib.chained
  segOrigStart := dylib.firstSegment.vmaddr
  imageStartAddress := dylib.headerEntry.newAddress
  imageEndAddress := (dylib.sectionEntries.getLast (List.cons_ne_nil _ _)).newAddress

end Dylib

/-! ## The split-seg info -/

/-- `FromOffset`, with its numbers decoded. -/
structure FromOffset where
  kind : ℕ
  fromSectDeltas : List ℕ

structure ToOffset where
  toSectDelta : ℕ
  fromOffsets : List FromOffset

structure FromToSection where
  fromSectionIndex : ℕ
  toSectionIndex : ℕ
  toOffsets : List ToOffset

/-- A reference as it is recorded: its kind, and its offsets in the two sections. -/
structure Recorded where
  kind : ℕ
  fromSectionOffset : ℕ
  toSectionOffset : ℕ
  deriving DecidableEq, Repr

/-- The offsets that a list of deltas stands for. -/
def offsetsFrom (start : ℕ) : List ℕ → List ℕ
  | [] => []
  | delta :: deltas => (start + delta) :: offsetsFrom (start + delta) deltas

/-- The references between two sections, in the order of the nested loops. -/
def FromToSection.recorded (info : FromToSection) : List Recorded :=
  let toSectionOffsets := offsetsFrom 0 (info.toOffsets.map ToOffset.toSectDelta)
  (toSectionOffsets.zip info.toOffsets).flatMap fun (toSectionOffset, toOffset) =>
    toOffset.fromOffsets.flatMap fun fromOffset =>
      (offsetsFrom 0 fromOffset.fromSectDeltas).map fun fromSectionOffset =>
        ⟨fromOffset.kind, fromSectionOffset, toSectionOffset⟩

def Recorded.decodeKind (recorded : Recorded) : Except Refusal Kind :=
  match Kind.decode recorded.kind with
  | some kind => .ok kind
  | none => .error (.unknownKind recorded.kind)

/-- The new address and the slide of an offset in a section. -/
def SectionEntry.target (toSection : SectionEntry) (toSectionOffset : ℕ) :
    Except Refusal (BitVec 64 × BitVec 64) :=
  match toSection.coalesced with
  | none => .ok (toSection.newAddress + BitVec.ofNat 64 toSectionOffset, toSection.slide)
  | some (coalesced, originalVMAddr) =>
      match coalesced.offsets (toSectionOffset % 2 ^ 32) with
      | none => .error .undefined
      | some offset =>
          -- A section that is gone has no slide; this one is for the single atom.
          let toNewAddress := coalesced.bufferVMAddr + BitVec.ofNat 64 offset
          .ok (toNewAddress, toNewAddress - (originalVMAddr + BitVec.ofNat 64 toSectionOffset))

/-- The arguments of `adjustReference` for a recorded reference. -/
def Recorded.reference (recorded : Recorded) (fromSection toSection : SectionEntry) :
    Except Refusal Reference := do
  let kind ← recorded.decodeKind
  let (toNewAddress, targetSlide) ← toSection.target recorded.toSectionOffset
  .ok {
    kind
    mappedAddr := fromSection.mappedAddress + recorded.fromSectionOffset
    fromNewAddress := fromSection.newAddress + BitVec.ofNat 64 recorded.fromSectionOffset
    toNewAddress
    fromSlide := fromSection.slide
    targetSlide
    toSelRefs := toSection.isSelRefs }

namespace Dylib

variable (dylib : Dylib)

/-- The entry of a section; an index outside of the arrays is not checked. -/
def sectionEntry (sectionIndex : ℕ) : Except Refusal SectionEntry :=
  match dylib.sectionEntries[sectionIndex]? with
  | none => .error .undefined
  | some entry => .ok entry

/-- One round of the outermost loop. -/
def adjustFromToSection (buffer : Buffer) (info : FromToSection) : Except Refusal Buffer := do
  let fromSection ← dylib.sectionEntry info.fromSectionIndex
  let toSection ← dylib.sectionEntry info.toSectionIndex
  if fromSection.coalesced.isSome then .error .fromCoalesced
  else
    info.recorded.foldlM (fun buffer recorded => do
      -- References to section 255 only have their kind checked.
      if info.toSectionIndex = 255 then
        let _ ← recorded.decodeKind
        .ok buffer
      else
        let reference ← recorded.reference fromSection toSection
        adjustReference dylib.context reference buffer) { buffer with last := Last.none }

/-- The run over the whole split-seg info, whose numbers are decoded. -/
def adjustReferencesUsingInfoV2 (infos : List FromToSection) (buffer : Buffer) :
    Except Refusal Buffer :=
  infos.foldlM dylib.adjustFromToSection buffer

end Dylib

end ObjcDyld.SplitSeg
