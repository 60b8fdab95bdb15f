import ObjcDyld.Common.Records

/-!
# Stripping load commands

`Adjustor<P>::rebuildLinkEditAndLoadCommands` updates the load commands of a dylib for its place in the
shared cache and removes some of them in place; `LinkeditOptimizer<P>` removes some more.
-/

namespace ObjcDyld.SharedCache.CommandStripping

open ByteMemory Records

abbrev LC_SEGMENT : BitVec 32 := 0x1
abbrev LC_SYMTAB : BitVec 32 := 0x2
abbrev LC_DYSYMTAB : BitVec 32 := 0xB
abbrev LC_ID_DYLIB : BitVec 32 := 0xD
abbrev LC_ROUTINES : BitVec 32 := 0x11
abbrev LC_SEGMENT_64 : BitVec 32 := 0x19
abbrev LC_ROUTINES_64 : BitVec 32 := 0x1A
abbrev LC_CODE_SIGNATURE : BitVec 32 := 0x1D
abbrev LC_SEGMENT_SPLIT_INFO : BitVec 32 := 0x1E
abbrev LC_DYLD_INFO : BitVec 32 := 0x22
abbrev LC_FUNCTION_STARTS : BitVec 32 := 0x26
abbrev LC_DATA_IN_CODE : BitVec 32 := 0x29
abbrev LC_DYLIB_CODE_SIGN_DRS : BitVec 32 := 0x2B
abbrev LC_RPATH : BitVec 32 := 0x8000001C
abbrev LC_DYLD_INFO_ONLY : BitVec 32 := 0x80000022
abbrev LC_DYLD_EXPORTS_TRIE : BitVec 32 := 0x80000033
abbrev LC_DYLD_CHAINED_FIXUPS : BitVec 32 := 0x80000034

/-! ## What the passes share -/

/-- The header of a dylib, and whether its words have 64 bits. -/
structure Header where
  mh : ℕ
  is64 : Bool

namespace Header

variable (header : Header)

def cmds : ℕ := header.mh + if header.is64 then 32 else 28

def ncmds (memory : Memory) : BitVec 32 := get32 memory (header.mh + 16)

def sizeofcmds (memory : Memory) : BitVec 32 := get32 memory (header.mh + 20)

/-- The loop over the load commands, the `bzero` of what is freed and the new counts. -/
def strip {σ : Type} (pass : Pass σ) (state : σ) (memory : Memory) : Memory :=
  let done := pass.run (header.ncmds memory).toNat ⟨state, memory, header.cmds, header.sizeofcmds memory, 0⟩
  -- zero out stuff removed
  let zeroed := clear done.memory done.place done.remaining.toNat
  -- update header
  let counted := set32 zeroed (header.mh + 16) (header.ncmds memory - BitVec.ofNat 32 done.removedCount)
  set32 counted (header.mh + 20) (header.sizeofcmds memory - done.remaining)

end Header

/-- The load commands that the passes tell apart. -/
inductive Kind
  | idDylib | symtab | dysymtab | dyldInfo | functionStarts | dataInCode | chainedFixups | exportsTrie | routines
  | segment | rpath | splitInfo | codeSignature | other
  deriving DecidableEq

def kindOf (is64 : Bool) (cmd : BitVec 32) : Kind :=
  if cmd = LC_ID_DYLIB then .idDylib
  else if cmd = LC_SYMTAB then .symtab
  else if cmd = LC_DYSYMTAB then .dysymtab
  else if cmd = LC_DYLD_INFO ∨ cmd = LC_DYLD_INFO_ONLY then .dyldInfo
  else if cmd = LC_FUNCTION_STARTS then .functionStarts
  else if cmd = LC_DATA_IN_CODE then .dataInCode
  else if cmd = LC_DYLD_CHAINED_FIXUPS then .chainedFixups
  else if cmd = LC_DYLD_EXPORTS_TRIE then .exportsTrie
  else if cmd = (if is64 then LC_ROUTINES_64 else LC_ROUTINES) then .routines
  else if cmd = (if is64 then LC_SEGMENT_64 else LC_SEGMENT) then .segment
  else if cmd = LC_RPATH then .rpath
  else if cmd = LC_SEGMENT_SPLIT_INFO then .splitInfo
  else if cmd = LC_CODE_SIGNATURE ∨ cmd = LC_DYLIB_CODE_SIGN_DRS then .codeSignature
  else .other

/-! ## `LinkeditOptimizer` -/

/-- The loop of the constructor of `LinkeditOptimizer`. -/
def linkeditPass (is64 : Bool) : Pass Unit where
  size seen := get32 seen 4
  edit _ seen :=
    ⟨(), seen, kindOf is64 (get32 seen 0) = .chainedFixups ∨ kindOf is64 (get32 seen 0) = .splitInfo⟩

/-- `LinkeditOptimizer<P>::LinkeditOptimizer`. -/
def LinkeditOptimizer (header : Header) (memory : Memory) : Memory :=
  header.strip (linkeditPass header.is64) () memory

/-! ## `Adjustor` -/

structure SegmentMappingInfo where
  dstCacheUnslidAddress : BitVec 64
  dstCacheFileOffset : BitVec 32
  dstCacheSegmentSize : BitVec 32
  dstCacheFileSize : BitVec 32

/-- What the `Adjustor` knows of the new place of the dylib when it comes to the load commands. -/
structure Adjustor where
  linkeditStartOffset : BitVec 32
  chainedFixupsOffset : BitVec 32
  chainedFixupsSize : BitVec 32
  bindOffset : BitVec 32
  bindSize : BitVec 32
  weakBindOffset : BitVec 32
  weakBindSize : BitVec 32
  lazyBindOffset : BitVec 32
  lazyBindSize : BitVec 32
  exportOffset : BitVec 32
  exportSize : BitVec 32
  splitSegInfoOffset : BitVec 32
  funcStartsOffset : BitVec 32
  dataInCodeOffset : BitVec 32
  symbolTableOffset : BitVec 32
  indirectTableOffset : BitVec 32
  symbolStringsOffset : BitVec 32
  linkeditBufferSize : BitVec 64
  mappingInfo : ℕ → SegmentMappingInfo
  segSlides : ℕ → BitVec 64
  slideForOrigAddress : BitVec 64 → BitVec 64
  /-- `sectionWasCoalesced` on the sixteen bytes of a section name. -/
  sectionWasCoalesced : Bytes → Bool

/-- `P::getP` -/
def getP (is64 : Bool) (memory : Memory) (address : ℕ) : BitVec 64 :=
  if is64 then get64 memory address else (get32 memory address).setWidth 64

/-- `P::setP` -/
def setP (is64 : Bool) (memory : Memory) (address : ℕ) (value : BitVec 64) : Memory :=
  if is64 then set64 memory address value else set32 memory address (value.setWidth 32)

def wordSize (is64 : Bool) : ℕ := if is64 then 8 else 4

def segmentSize (is64 : Bool) : ℕ := if is64 then 72 else 56

def sectionSize (is64 : Bool) : ℕ := if is64 then 80 else 68

/-- `strcmp` of a name in a load command with a string. -/
def hasName (memory : Memory) (offset : ℕ) (name : Bytes) : Bool :=
  bytesAt memory offset (name.length + 1) = name ++ [0]

def textName : Bytes := [0x5F, 0x5F, 0x54, 0x45, 0x58, 0x54]

def linkeditName : Bytes := [0x5F, 0x5F, 0x4C, 0x49, 0x4E, 0x4B, 0x45, 0x44, 0x49, 0x54]

namespace Adjustor

variable (adjustor : Adjustor) (is64 : Bool) (segIndex : ℕ)

/-- The offset in the cache of a part of the linkedit, or zero for an empty one. -/
def offsetOf (offset size : BitVec 32) : BitVec 32 := if size ≠ 0 then adjustor.linkeditStartOffset + offset else 0

/-- A section of a segment command, at an offset from the start of the command. -/
def adjustSection (isText : Bool) (segFileOffsetDelta : BitVec 32) (sect : ℕ) (seen : Memory) : Memory :=
  let w := wordSize is64
  if isText && adjustor.sectionWasCoalesced (bytesAt seen sect 16) then
    -- Put coalesced sections at the end of the segment
    let moved := setP is64 seen (sect + 32) (getP is64 seen 24 + getP is64 seen (24 + 3 * w))
    let moved := set32 moved (sect + 32 + 2 * w) 0
    setP is64 moved (sect + 32 + w) 0
  else
    let slid := setP is64 seen (sect + 32) (getP is64 seen (sect + 32) + adjustor.segSlides segIndex)
    let offset := get32 slid (sect + 32 + 2 * w)
    if offset ≠ 0 then set32 slid (sect + 32 + 2 * w) (offset + segFileOffsetDelta) else slid

def adjustSections (isText : Bool) (segFileOffsetDelta : BitVec 32) : ℕ → ℕ → Memory → Memory
  | 0, _, seen => seen
  | nsects + 1, sect, seen =>
      adjustSections isText segFileOffsetDelta nsects (sect + sectionSize is64)
        (adjustor.adjustSection is64 segIndex isText segFileOffsetDelta sect seen)

/-- `segCmd->nsects()` -/
def nsects (seen : Memory) : ℕ := (get32 seen (24 + 4 * wordSize is64 + 8)).toNat

/-- The fields of a segment command itself. -/
def placeSegment (seen : Memory) : Memory :=
  let w := wordSize is64
  let info := adjustor.mappingInfo segIndex
  let placed := setP is64 seen 24 info.dstCacheUnslidAddress
  let placed := setP is64 placed (24 + w) (info.dstCacheSegmentSize.setWidth 64)
  let placed := setP is64 placed (24 + 2 * w) (info.dstCacheFileOffset.setWidth 64)
  let placed := setP is64 placed (24 + 3 * w) (info.dstCacheFileSize.setWidth 64)
  if hasName placed 8 linkeditName then setP is64 placed (24 + w) adjustor.linkeditBufferSize else placed

def segFileOffsetDelta (seen : Memory) : BitVec 32 :=
  (adjustor.mappingInfo segIndex).dstCacheFileOffset - (getP is64 seen (24 + 2 * wordSize is64)).setWidth 32

def adjustSegment (nsects : ℕ) (seen : Memory) : Memory :=
  let placed := adjustor.placeSegment is64 segIndex seen
  adjustor.adjustSections is64 segIndex (hasName placed 8 textName) (adjustor.segFileOffsetDelta is64 segIndex seen)
    nsects (segmentSize is64) placed

def adjustDyldInfo (seen : Memory) : Memory :=
  let rebased := set32 (set32 seen 8 0) 12 0
  let bound := set32 (set32 rebased 16 (adjustor.offsetOf adjustor.bindOffset adjustor.bindSize)) 20 adjustor.bindSize
  let weak := set32 (set32 bound 24 (adjustor.offsetOf adjustor.weakBindOffset adjustor.weakBindSize)) 28
    adjustor.weakBindSize
  let lazy := set32 (set32 weak 32 (adjustor.offsetOf adjustor.lazyBindOffset adjustor.lazyBindSize)) 36
    adjustor.lazyBindSize
  set32 (set32 lazy 40 (adjustor.offsetOf adjustor.exportOffset adjustor.exportSize)) 44 adjustor.exportSize

/-- The cases of the `switch` that update a load command. -/
def adjustCommand (kind : Kind) (seen : Memory) : Memory :=
  match kind with
  | .idDylib => set32 seen 12 2
  | .symtab =>
      set32 (set32 seen 8 (adjustor.linkeditStartOffset + adjustor.symbolTableOffset)) 16
        (adjustor.linkeditStartOffset + adjustor.symbolStringsOffset)
  | .dysymtab => set32 seen 56 (adjustor.linkeditStartOffset + adjustor.indirectTableOffset)
  | .dyldInfo => adjustor.adjustDyldInfo seen
  | .functionStarts => set32 seen 8 (adjustor.linkeditStartOffset + adjustor.funcStartsOffset)
  | .dataInCode => set32 seen 8 (adjustor.linkeditStartOffset + adjustor.dataInCodeOffset)
  | .chainedFixups =>
      set32 (set32 seen 8 (adjustor.offsetOf adjustor.chainedFixupsOffset adjustor.chainedFixupsSize)) 12
        adjustor.chainedFixupsSize
  | .exportsTrie =>
      set32 (set32 seen 8 (adjustor.offsetOf adjustor.exportOffset adjustor.exportSize)) 12 adjustor.exportSize
  | .routines => setP is64 seen 8 (getP is64 seen 8 + adjustor.slideForOrigAddress (getP is64 seen 8))
  | .segment => adjustor.adjustSegment is64 segIndex (nsects is64 seen) seen
  | .splitInfo => set32 seen 8 (adjustor.linkeditStartOffset + adjustor.splitSegInfoOffset)
  | .rpath | .codeSignature | .other => seen

/-- The loop of `rebuildLinkEditAndLoadCommands`; its state is `segIndex`. -/
def pass : Pass ℕ where
  size seen := get32 seen 4
  edit segIndex seen :=
    let kind := kindOf is64 (get32 seen 0)
    ⟨if kind = .segment then segIndex + 1 else segIndex, adjustor.adjustCommand is64 segIndex kind seen,
      kind = .rpath ∨ kind = .codeSignature⟩

/-- The end of `rebuildLinkEditAndLoadCommands`. -/
def rebuildLoadCommands (header : Header) (memory : Memory) : Memory :=
  let stripped := header.strip (adjustor.pass header.is64) 0 memory
  set32 stripped (header.mh + 24) (get32 stripped (header.mh + 24) ||| 0x80000000)

end Adjustor

/-! ## The fields that are updated -/

/-- The fields of sections that follow one another. -/
def sectionFields (is64 : Bool) : ℕ → ℕ → List (ℕ × ℕ)
  | 0, _ => []
  | nsects + 1, sect =>
      (sect + 32, wordSize is64) :: (sect + 32 + wordSize is64, wordSize is64) :: (sect + 32 + 2 * wordSize is64, 4) ::
        sectionFields is64 nsects (sect + sectionSize is64)

/-- The fields that the `Adjustor` may change in a load command of a kind, as offsets and sizes. -/
def updatedFields (is64 : Bool) (nsects : ℕ) : Kind → List (ℕ × ℕ)
  | .idDylib => [(12, 4)]
  | .symtab => [(8, 4), (16, 4)]
  | .dysymtab => [(56, 4)]
  | .dyldInfo => [(8, 4), (12, 4), (16, 4), (20, 4), (24, 4), (28, 4), (32, 4), (36, 4), (40, 4), (44, 4)]
  | .functionStarts | .dataInCode | .splitInfo => [(8, 4)]
  | .chainedFixups | .exportsTrie => [(8, 4), (12, 4)]
  | .routines => [(8, wordSize is64)]
  | .segment =>
      (24, wordSize is64) :: (24 + wordSize is64, wordSize is64) :: (24 + 2 * wordSize is64, wordSize is64) ::
        (24 + 3 * wordSize is64, wordSize is64) :: sectionFields is64 nsects (segmentSize is64)
  | .rpath | .codeSignature | .other => []

def structSize (is64 : Bool) (nsects : ℕ) : Kind → ℕ
  | .idDylib | .symtab => 24
  | .dysymtab => 80
  | .dyldInfo => 48
  | .functionStarts | .dataInCode | .splitInfo | .chainedFixups | .exportsTrie => 16
  | .routines => if is64 then 72 else 40
  | .segment => segmentSize is64 + nsects * sectionSize is64
  | .rpath | .codeSignature | .other => 8

variable {is64 : Bool} {count nsects : ℕ} {fields : List (ℕ × ℕ)}

theorem isFound_getP {offset : ℕ} (room : offset + wordSize is64 ≤ count) :
    IsFound count fun memory => getP is64 memory offset := by
  cases is64 with
  | true => exact isFound_get64 room
  | false => exact (isFound_get32 room).map (BitVec.setWidth 64)

theorem isUpdate_setP {first : Memory → Memory} {offset : ℕ} {value : Memory → BitVec 64}
    (one : IsUpdate count fields first) (found : IsFound count value) (listed : (offset, wordSize is64) ∈ fields) :
    IsUpdate count fields fun memory => setP is64 (first memory) offset (value memory) := by
  cases is64 with
  | true => exact one.set64 found listed
  | false => exact one.set32 (found.map (BitVec.setWidth 32)) listed

theorem isFound_hasName {offset : ℕ} {name : Bytes} (room : offset + (name.length + 1) ≤ count) :
    IsFound count fun memory => hasName memory offset name :=
  (isFound_bytesAt room).map fun bytes => decide (bytes = name ++ [0])

theorem sizes (is64 : Bool) :
    segmentSize is64 = 24 + 4 * wordSize is64 + 16 ∧ 32 + 2 * wordSize is64 + 28 ≤ sectionSize is64 ∧ 4 ≤ wordSize is64 := by
  cases is64 <;> simp [wordSize, sectionSize, segmentSize]

namespace Adjustor

variable (adjustor : Adjustor) (segIndex : ℕ)

theorem adjustSection_isUpdate (isText : Bool) (delta : BitVec 32) {sect : ℕ} (after : segmentSize is64 ≤ sect)
    (room : sect + sectionSize is64 ≤ count) (addr : (sect + 32, wordSize is64) ∈ fields)
    (size : (sect + 32 + wordSize is64, wordSize is64) ∈ fields) (offset : (sect + 32 + 2 * wordSize is64, 4) ∈ fields) :
    IsUpdate count fields fun seen => adjustor.adjustSection is64 segIndex isText delta sect seen := by
  have bounds := sizes is64
  simp only [adjustSection]
  refine IsUpdate.ite ?_ ?_ ?_
  · exact (isFound_bytesAt (by omega)).map fun bytes => isText && adjustor.sectionWasCoalesced bytes
  · refine isUpdate_setP (.set32 (isUpdate_setP .keep ?_ addr) (.const 0) offset) (.const 0) size
    exact (isFound_getP (by omega)).map₂ (isFound_getP (by omega)) (· + ·)
  · have slid : IsUpdate count fields fun seen =>
        setP is64 seen (sect + 32) (getP is64 seen (sect + 32) + adjustor.segSlides segIndex) :=
      isUpdate_setP .keep ((isFound_getP (by omega)).map (· + adjustor.segSlides segIndex)) addr
    have moved := slid.isFound (isFound_get32 (show sect + 32 + 2 * wordSize is64 + 4 ≤ count by omega))
    refine @IsUpdate.bind count fields _ _ _
      (fun old seen => if old ≠ 0 then set32 seen (sect + 32 + 2 * wordSize is64) (old + delta) else seen) slid moved ?_
    intro old
    split
    · exact .set32 .keep (.const _) offset
    · exact .keep

theorem adjustSections_isUpdate (isText : Bool) (delta : BitVec 32) {sect : ℕ} (after : segmentSize is64 ≤ sect)
    (room : sect + nsects * sectionSize is64 ≤ count) (listed : sectionFields is64 nsects sect ⊆ fields) :
    IsUpdate count fields fun seen => adjustor.adjustSections is64 segIndex isText delta nsects sect seen := by
  induction nsects generalizing sect with
  | zero => exact .keep
  | succ nsects ih =>
      simp only [sectionFields, List.cons_subset] at listed
      rw [Nat.succ_mul] at room
      have first : IsUpdate count fields fun seen => adjustor.adjustSection is64 segIndex isText delta sect seen :=
        adjustor.adjustSection_isUpdate segIndex isText delta after (by omega) listed.1 listed.2.1 listed.2.2.1
      have others := ih (show segmentSize is64 ≤ sect + sectionSize is64 by omega) (by omega) listed.2.2.2
      exact first.comp others

theorem placeSegment_isUpdate (room : segmentSize is64 ≤ count)
    (listed : ∀ k ∈ [24, 24 + wordSize is64, 24 + 2 * wordSize is64, 24 + 3 * wordSize is64],
      (k, wordSize is64) ∈ fields) :
    IsUpdate count fields fun seen => adjustor.placeSegment is64 segIndex seen := by
  have bounds := sizes is64
  have named : linkeditName.length = 10 := rfl
  simp only [List.forall_mem_cons, List.not_mem_nil, false_implies, implies_true, and_true] at listed
  obtain ⟨vmaddr, vmsize, fileoff, filesize⟩ := listed
  have placed : IsUpdate count fields fun seen =>
      setP is64 seen 24 (adjustor.mappingInfo segIndex).dstCacheUnslidAddress :=
    isUpdate_setP .keep (.const _) vmaddr
  have sized := isUpdate_setP placed (.const ((adjustor.mappingInfo segIndex).dstCacheSegmentSize.setWidth 64)) vmsize
  have offset := isUpdate_setP sized (.const ((adjustor.mappingInfo segIndex).dstCacheFileOffset.setWidth 64)) fileoff
  have filled := isUpdate_setP offset (.const ((adjustor.mappingInfo segIndex).dstCacheFileSize.setWidth 64)) filesize
  exact .ite (filled.isFound (isFound_hasName (by omega)))
    (isUpdate_setP filled (.const adjustor.linkeditBufferSize) vmsize) filled

theorem adjustSegment_isUpdate (room : segmentSize is64 + nsects * sectionSize is64 ≤ count) :
    IsUpdate count (updatedFields is64 nsects .segment) fun seen => adjustor.adjustSegment is64 segIndex nsects seen := by
  have bounds := sizes is64
  have named : textName.length = 6 := rfl
  have placed : IsUpdate count (updatedFields is64 nsects .segment) fun seen =>
      adjustor.placeSegment is64 segIndex seen := by
    refine adjustor.placeSegment_isUpdate segIndex (by omega) fun k among => ?_
    simp only [List.mem_cons, List.not_mem_nil, or_false] at among
    simp only [updatedFields, List.mem_cons]
    rcases among with rfl | rfl | rfl | rfl <;> simp
  have isText := placed.isFound (isFound_hasName (show 8 + (textName.length + 1) ≤ count by omega))
  have delta : IsFound count fun seen => adjustor.segFileOffsetDelta is64 segIndex seen :=
    (isFound_getP (by omega)).map fun fileoff =>
      (adjustor.mappingInfo segIndex).dstCacheFileOffset - fileoff.setWidth 32
  refine @IsUpdate.bind count (updatedFields is64 nsects .segment) _ _ _
    (fun found seen => adjustor.adjustSections is64 segIndex found.1 found.2 nsects (segmentSize is64) seen) placed
    (isText.map₂ delta Prod.mk) fun found => ?_
  refine adjustor.adjustSections_isUpdate segIndex found.1 found.2 le_rfl room fun field among => ?_
  simp [updatedFields, among]

theorem adjustDyldInfo_isUpdate : IsUpdate count (updatedFields is64 nsects .dyldInfo) adjustor.adjustDyldInfo := by
  have fields (k : ℕ) (among : k ∈ [8, 12, 16, 20, 24, 28, 32, 36, 40, 44]) :
      (k, 4) ∈ updatedFields is64 nsects .dyldInfo := by
    simpa [updatedFields] using among
  refine .set32 (.set32 ?_ (.const _) (fields 40 (by decide))) (.const _) (fields 44 (by decide))
  refine .set32 (.set32 ?_ (.const _) (fields 32 (by decide))) (.const _) (fields 36 (by decide))
  refine .set32 (.set32 ?_ (.const _) (fields 24 (by decide))) (.const _) (fields 28 (by decide))
  refine .set32 (.set32 ?_ (.const _) (fields 16 (by decide))) (.const _) (fields 20 (by decide))
  exact .set32 (.set32 .keep (.const _) (fields 8 (by decide))) (.const _) (fields 12 (by decide))

end Adjustor

/-! ## The header after a pass -/

/-- The load commands that are left, in a header that says so; what is freed is zero, and nothing else has changed. -/
structure IsStripped (header : Header) (before after : Memory) (left : List Bytes) : Prop where
  fits : left.flatten.length ≤ (header.sizeofcmds before).toNat
  area : bytesAt after header.cmds (header.sizeofcmds before).toNat =
    left.flatten ++ List.replicate ((header.sizeofcmds before).toNat - left.flatten.length) 0
  ncmds : (header.ncmds after).toNat = left.length
  sizeofcmds : (header.sizeofcmds after).toNat = left.flatten.length
  frame : ∀ k, (k < header.mh + 16 ∨ header.mh + 28 ≤ k) →
    (k < header.cmds ∨ header.cmds + (header.sizeofcmds before).toNat ≤ k) → after k = before k

structure HasCommands (header : Header) (memory : Memory) (commands : List Bytes) : Prop where
  ncmds : (header.ncmds memory).toNat = commands.length
  here : bytesAt memory header.cmds commands.flatten.length = commands.flatten
  room : commands.flatten.length ≤ (header.sizeofcmds memory).toNat

variable {header : Header} {memory : Memory} {commands : List Bytes} {σ : Type}

theorem Header.cmds_ge (header : Header) : header.mh + 28 ≤ header.cmds := by
  unfold Header.cmds
  split <;> omega

theorem setCounts_other (first second : BitVec 32) {k : ℕ} (away : k < header.mh + 16 ∨ header.mh + 28 ≤ k) :
    set32 (set32 memory (header.mh + 16) first) (header.mh + 20) second k = memory k := by
  rw [set32_other _ (by omega), set32_other _ (by omega)]

theorem setCounts_ncmds (first second : BitVec 32) :
    header.ncmds (set32 (set32 memory (header.mh + 16) first) (header.mh + 20) second) = first := by
  rw [Header.ncmds, get32_congr fun k low high => set32_other second (by omega), get32_set32]

theorem setCounts_sizeofcmds (first second : BitVec 32) :
    header.sizeofcmds (set32 (set32 memory (header.mh + 16) first) (header.mh + 20) second) = second :=
  get32_set32 _ _ _

theorem bytesAt_clear {place total count : ℕ} (bound : count ≤ total) :
    bytesAt (clear memory (place + count) (total - count)) place total =
      bytesAt memory place count ++ List.replicate (total - count) 0 := by
  obtain ⟨rest, rfl⟩ := Nat.exists_eq_add_of_le bound
  rw [Nat.add_sub_cancel_left, bytesAt_append]
  congr 1
  · rw [bytesAt_eq_iff]
    intro k inside
    exact if_neg (by omega)
  · rw [List.eq_replicate_iff]
    refine ⟨bytesAt_length .., fun byte member => ?_⟩
    simp only [bytesAt, List.mem_map, List.mem_range] at member
    obtain ⟨k, inside, rfl⟩ := member
    exact if_pos ⟨by omega, by omega⟩

theorem strip_isStripped (pass : Pass σ) (state : σ) (has : HasCommands header memory commands)
    (locals : ∀ command ∈ commands, pass.IsLocal command) :
    IsStripped header memory (header.strip pass state memory) (pass.stripped state commands) := by
  have ge := header.cmds_ge
  have run : Strips pass commands ⟨state, memory, header.cmds, header.sizeofcmds memory, 0⟩
      (pass.run (header.ncmds memory).toNat ⟨state, memory, header.cmds, header.sizeofcmds memory, 0⟩) := by
    rw [has.ncmds]
    exact run_strips commands locals has.here has.room
  rw [Header.strip]
  generalize pass.run _ _ = done at run ⊢
  obtain ⟨place, remaining, removedCount, kept, frame⟩ := run
  simp only at place remaining removedCount kept frame
  constructor
  · omega
  · have total : done.remaining.toNat =
        (header.sizeofcmds memory).toNat - (pass.stripped state commands).flatten.length := by omega
    refine Eq.trans (bytesAt_eq_iff.2 fun k _ => setCounts_other _ _ (by omega)) ?_
    rw [place, total, bytesAt_clear (by omega), kept]
  · have bound := (header.ncmds memory).isLt
    have counted := has.ncmds
    rw [setCounts_ncmds, BitVec.toNat_sub, BitVec.toNat_ofNat]
    omega
  · have bound := (header.sizeofcmds memory).isLt
    rw [setCounts_sizeofcmds, BitVec.toNat_sub]
    omega
  · intro k away outside
    rw [setCounts_other _ _ away, clear, if_neg (by omega), frame k outside]

theorem IsStripped.trans {middle after : Memory} {first second : List Bytes} (one : IsStripped header memory middle first)
    (two : IsStripped header middle after second) : IsStripped header memory after second := by
  have ge := header.cmds_ge
  have size := one.sizeofcmds
  have inner := two.area
  have shorter := two.fits
  have fits := one.fits
  rw [size] at inner shorter
  obtain ⟨rest, total⟩ := Nat.exists_eq_add_of_le fits
  have zeros : bytesAt after (header.cmds + first.flatten.length) rest = List.replicate rest 0 := by
    have outer := one.area
    rw [total, bytesAt_append, Nat.add_sub_cancel_left] at outer
    rw [← (List.append_inj outer (bytesAt_length ..)).2, bytesAt_eq_iff]
    exact fun k _ => two.frame _ (by omega) (by omega)
  constructor
  · omega
  · rw [total, bytesAt_append, inner, zeros, List.append_assoc, ← List.replicate_add]
    congr 2
    omega
  · exact two.ncmds
  · exact two.sizeofcmds
  · intro k away outside
    rw [two.frame k away (by omega), one.frame k away outside]

theorem IsStripped.hasCommands {after : Memory} {left : List Bytes} (stripped : IsStripped header memory after left) :
    HasCommands header after left where
  ncmds := stripped.ncmds
  here := by
    have area := stripped.area
    rw [← Nat.add_sub_cancel' stripped.fits, bytesAt_append] at area
    exact (List.append_inj area (bytesAt_length ..)).1
  room := stripped.sizeofcmds.ge

/-! ## The passes stay inside of well-formed commands -/

def kindIn (is64 : Bool) (command : Bytes) : Kind := kindOf is64 (get32 (memoryOf command) 0)

def sectsIn (is64 : Bool) (command : Bytes) : ℕ := Adjustor.nsects is64 (memoryOf command)

/-- A command has the size that it says and room for the structure of its kind. -/
structure IsWellFormed (is64 : Bool) (command : Bytes) : Prop where
  size : (get32 (memoryOf command) 4).toNat = command.length
  room : structSize is64 (sectsIn is64 command) (kindIn is64 command) ≤ command.length

theorem structSize_ge (nsects : ℕ) (kind : Kind) : 8 ≤ structSize is64 nsects kind := by
  have bounds := sizes is64
  cases kind <;> simp only [structSize] <;> first | omega | (split <;> omega)

theorem le_of_mem_sectionFields {sect : ℕ} {field : ℕ × ℕ} (member : field ∈ sectionFields is64 nsects sect) :
    sect ≤ field.1 ∧ field.1 + field.2 ≤ sect + nsects * sectionSize is64 := by
  have bounds := sizes is64
  induction nsects generalizing sect with
  | zero => cases member
  | succ nsects ih =>
      rw [Nat.succ_mul]
      simp only [sectionFields, List.mem_cons] at member
      rcases member with rfl | rfl | rfl | later
      · exact ⟨by simp only; omega, by simp only; omega⟩
      · exact ⟨by simp only; omega, by simp only; omega⟩
      · exact ⟨by simp only; omega, by simp only; omega⟩
      · have := ih later
        omega

theorem le_of_mem_updatedFields {kind : Kind} {field : ℕ × ℕ} (member : field ∈ updatedFields is64 nsects kind) :
    8 ≤ field.1 ∧ field.1 + field.2 ≤ structSize is64 nsects kind := by
  have bounds := sizes is64
  cases kind with
  | segment =>
      simp only [updatedFields, List.mem_cons] at member
      simp only [structSize]
      rcases member with rfl | rfl | rfl | rfl | among
      · exact ⟨by simp, by simp only; omega⟩
      · exact ⟨by simp only; omega, by simp only; omega⟩
      · exact ⟨by simp only; omega, by simp only; omega⟩
      · exact ⟨by simp only; omega, by simp only; omega⟩
      · have := le_of_mem_sectionFields among
        omega
  | routines =>
      obtain rfl := List.mem_singleton.1 member
      exact ⟨le_rfl, by cases is64 <;> simp [structSize, wordSize]⟩
  | _ =>
      revert field
      simp only [structSize, updatedFields]
      decide

theorem adjustCommand_isUpdate (adjustor : Adjustor) (segIndex : ℕ) {kind : Kind} (notSegment : kind ≠ .segment)
    (room : structSize is64 nsects kind ≤ count) :
    IsUpdate count (updatedFields is64 nsects kind) fun seen => adjustor.adjustCommand is64 segIndex kind seen := by
  have bounds := sizes is64
  cases kind with
  | segment => exact absurd rfl notSegment
  | dyldInfo => exact adjustor.adjustDyldInfo_isUpdate
  | routines =>
      have found : IsFound count fun seen => getP is64 seen 8 := isFound_getP (by
        revert room
        cases is64 <;> simp [structSize, wordSize] <;> omega)
      exact isUpdate_setP .keep (found.map₂ (found.map adjustor.slideForOrigAddress) (· + ·)) (List.mem_singleton_self _)
  | idDylib => exact .set32 .keep (.const _) (List.mem_singleton_self _)
  | dysymtab => exact .set32 .keep (.const _) (List.mem_singleton_self _)
  | functionStarts => exact .set32 .keep (.const _) (List.mem_singleton_self _)
  | dataInCode => exact .set32 .keep (.const _) (List.mem_singleton_self _)
  | splitInfo => exact .set32 .keep (.const _) (List.mem_singleton_self _)
  | symtab => exact .set32 (.set32 .keep (.const _) (by simp [updatedFields])) (.const _) (by simp [updatedFields])
  | chainedFixups => exact .set32 (.set32 .keep (.const _) (by simp [updatedFields])) (.const _) (by simp [updatedFields])
  | exportsTrie => exact .set32 (.set32 .keep (.const _) (by simp [updatedFields])) (.const _) (by simp [updatedFields])
  | rpath => exact .keep
  | codeSignature => exact .keep
  | other => exact .keep

variable {command : Bytes} {seen : Memory}

theorem IsWellFormed.length_ge (wellFormed : IsWellFormed is64 command) : 8 ≤ command.length :=
  (structSize_ge _ _).trans wellFormed.room

theorem kind_eq (long : 8 ≤ command.length) (same : bytesAt seen 0 command.length = command) :
    kindOf is64 (get32 seen 0) = kindIn is64 command := by
  have found : get32 seen 0 = get32 (memoryOf command) 0 := isFound_get32 (by omega) _ _ (agree_of_bytesAt same)
  rw [kindIn, found]

theorem size_eq (long : 8 ≤ command.length) (size : (get32 (memoryOf command) 4).toNat = command.length)
    (same : bytesAt seen 0 command.length = command) : (get32 seen 4).toNat = command.length := by
  have found : get32 seen 4 = get32 (memoryOf command) 4 := isFound_get32 (by omega) _ _ (agree_of_bytesAt same)
  rw [found, size]

theorem IsWellFormed.nsects_eq (wellFormed : IsWellFormed is64 command) (segment : kindIn is64 command = .segment)
    (same : bytesAt seen 0 command.length = command) : Adjustor.nsects is64 seen = sectsIn is64 command := by
  have room := wellFormed.room
  have bounds := sizes is64
  rw [segment, structSize] at room
  have found : get32 seen (24 + 4 * wordSize is64 + 8) = get32 (memoryOf command) (24 + 4 * wordSize is64 + 8) :=
    isFound_get32 (by omega) _ _ (agree_of_bytesAt same)
  rw [sectsIn, Adjustor.nsects, Adjustor.nsects, found]

theorem linkeditPass_isLocal (long : 8 ≤ command.length)
    (size : (get32 (memoryOf command) 4).toNat = command.length) : (linkeditPass is64).IsLocal command where
  size _ same := size_eq long size same
  state _ _ _ := rfl
  removed _ seen same := by
    simp only [linkeditPass, kind_eq long same, kind_eq long (bytesAt_memoryOf command)]
  inside _ _ same := same.trans (bytesAt_memoryOf command).symm
  outside _ _ _ _ _ := rfl

theorem exists_isUpdate (adjustor : Adjustor) (segIndex : ℕ) (wellFormed : IsWellFormed is64 command) :
    ∃ update, IsUpdate command.length (updatedFields is64 (sectsIn is64 command) (kindIn is64 command)) update ∧
      ∀ seen, bytesAt seen 0 command.length = command → ((adjustor.pass is64).edit segIndex seen).memory = update seen := by
  have room := wellFormed.room
  by_cases segment : kindIn is64 command = .segment
  · rw [segment] at room ⊢
    refine ⟨_, adjustor.adjustSegment_isUpdate segIndex room, fun seen same => ?_⟩
    simp only [Adjustor.pass, kind_eq wellFormed.length_ge same, segment, Adjustor.adjustCommand, wellFormed.nsects_eq segment same]
  · refine ⟨_, adjustCommand_isUpdate adjustor segIndex segment room, fun seen same => ?_⟩
    simp only [Adjustor.pass, kind_eq wellFormed.length_ge same]

theorem pass_isLocal (adjustor : Adjustor) (wellFormed : IsWellFormed is64 command) :
    (adjustor.pass is64).IsLocal command where
  size _ same := size_eq wellFormed.length_ge wellFormed.size same
  state segIndex seen same := by
    simp only [Adjustor.pass, kind_eq wellFormed.length_ge same, kind_eq wellFormed.length_ge (bytesAt_memoryOf command)]
  removed _ seen same := by
    simp only [Adjustor.pass, kind_eq wellFormed.length_ge same, kind_eq wellFormed.length_ge (bytesAt_memoryOf command)]
  inside segIndex seen same := by
    obtain ⟨update, isUpdate, edits⟩ := exists_isUpdate adjustor segIndex wellFormed
    rw [edits seen same, edits _ (bytesAt_memoryOf command), bytesAt_eq_iff]
    intro k inside
    simpa using isUpdate.congr _ _ (agree_of_bytesAt same) k inside
  outside segIndex seen k same beyond := by
    obtain ⟨update, isUpdate, edits⟩ := exists_isUpdate adjustor segIndex wellFormed
    rw [edits seen same]
    refine isUpdate.frame seen k fun field member => ?_
    have bounds := le_of_mem_updatedFields member
    have room := wellFormed.room
    omega

/-! ## What is left -/

/-- A command after the updates: only fields of its kind have changed. -/
structure IsUpdated (is64 : Bool) (before after : Bytes) : Prop where
  length : after.length = before.length
  same : ∀ k, (∀ field ∈ updatedFields is64 (sectsIn is64 before) (kindIn is64 before),
    k < field.1 ∨ field.1 + field.2 ≤ k) → memoryOf after k = memoryOf before k

def keptByAdjustor (is64 : Bool) (command : Bytes) : Bool :=
  !decide (kindIn is64 command = .rpath ∨ kindIn is64 command = .codeSignature)

def keptByLinkedit (is64 : Bool) (command : Bytes) : Bool :=
  !decide (kindIn is64 command = .chainedFixups ∨ kindIn is64 command = .splitInfo)

theorem linkeditPass_stripped (commands : List Bytes) :
    (linkeditPass is64).stripped () commands = commands.filter (keptByLinkedit is64) := by
  induction commands with
  | nil => rfl
  | cons command commands ih =>
      rw [Pass.stripped]
      by_cases removed : kindIn is64 command = .chainedFixups ∨ kindIn is64 command = .splitInfo
      · have flag : ((linkeditPass is64).edit () (memoryOf command)).removed = true := decide_eq_true removed
        rw [List.filter_cons_of_neg (by simp [keptByLinkedit, removed]), ← ih]
        simp only [flag, if_true]
      · have flag : ((linkeditPass is64).edit () (memoryOf command)).removed = false := decide_eq_false removed
        rw [List.filter_cons_of_pos (by simp [keptByLinkedit, removed]), ← ih]
        simp only [flag, Bool.false_eq_true, if_false]
        exact congrArg (· :: _) (bytesAt_memoryOf command)

theorem isUpdated_edit (adjustor : Adjustor) (segIndex : ℕ) (wellFormed : IsWellFormed is64 command) :
    IsUpdated is64 command
      (bytesAt ((adjustor.pass is64).edit segIndex (memoryOf command)).memory 0 command.length) := by
  obtain ⟨update, isUpdate, edits⟩ := exists_isUpdate adjustor segIndex wellFormed
  rw [edits _ (bytesAt_memoryOf command)]
  refine ⟨bytesAt_length .., fun k away => ?_⟩
  by_cases inside : k < command.length
  · rw [← isUpdate.frame (memoryOf command) k away]
    simp [memoryOf, bytesAt, inside]
  · simp [memoryOf, List.getElem?_eq_none (Nat.le_of_not_lt inside),
      List.getElem?_eq_none ((bytesAt_length _ _ _).trans_le (Nat.le_of_not_lt inside))]

theorem pass_stripped (adjustor : Adjustor) (segIndex : ℕ) {commands : List Bytes}
    (wellFormed : ∀ command ∈ commands, IsWellFormed is64 command) :
    List.Forall₂ (IsUpdated is64) (commands.filter (keptByAdjustor is64))
      ((adjustor.pass is64).stripped segIndex commands) := by
  induction commands generalizing segIndex with
  | nil => exact .nil
  | cons command commands ih =>
      rw [List.forall_mem_cons] at wellFormed
      rw [Pass.stripped]
      by_cases removed : kindIn is64 command = .rpath ∨ kindIn is64 command = .codeSignature
      · have flag : ((adjustor.pass is64).edit segIndex (memoryOf command)).removed = true := decide_eq_true removed
        rw [List.filter_cons_of_neg (by simp [keptByAdjustor, removed])]
        simp only [flag, if_true]
        exact ih _ wellFormed.2
      · have flag : ((adjustor.pass is64).edit segIndex (memoryOf command)).removed = false := decide_eq_false removed
        rw [List.filter_cons_of_pos (by simp [keptByAdjustor, removed])]
        simp only [flag, Bool.false_eq_true, if_false]
        exact .cons (isUpdated_edit adjustor segIndex wellFormed.1) (ih _ wellFormed.2)

namespace IsUpdated

variable {before after : Bytes}

theorem get32_eq (updated : IsUpdated is64 before after) {offset : ℕ} (low : offset + 4 ≤ 8) :
    get32 (memoryOf after) offset = get32 (memoryOf before) offset :=
  get32_congr fun k _ high => updated.same k fun field member => by
    have bounds := (le_of_mem_updatedFields member).1
    omega

theorem kindIn_eq (updated : IsUpdated is64 before after) : kindIn is64 after = kindIn is64 before := by
  rw [kindIn, kindIn, updated.get32_eq (by omega)]

theorem isLocal (updated : IsUpdated is64 before after) (wellFormed : IsWellFormed is64 before) :
    (linkeditPass is64).IsLocal after := by
  refine linkeditPass_isLocal ?_ ?_
  · rw [updated.length]
    exact wellFormed.length_ge
  · rw [updated.get32_eq (by omega), updated.length]
    exact wellFormed.size

end IsUpdated

theorem isLocal_of_updated {before after : List Bytes} (updated : List.Forall₂ (IsUpdated is64) before after)
    (wellFormed : ∀ command ∈ before, IsWellFormed is64 command) :
    ∀ command ∈ after, (linkeditPass is64).IsLocal command := by
  induction updated with
  | nil => exact fun command member => absurd member List.not_mem_nil
  | cons updated _ ih =>
      rw [List.forall_mem_cons] at wellFormed ⊢
      exact ⟨updated.isLocal wellFormed.1, ih wellFormed.2⟩

/-- The commands that neither pass removes. -/
def isKept (is64 : Bool) (command : Bytes) : Bool := keptByLinkedit is64 command && keptByAdjustor is64 command

theorem filter_updated {before after : List Bytes} (updated : List.Forall₂ (IsUpdated is64) before after) :
    List.Forall₂ (IsUpdated is64) (before.filter (keptByLinkedit is64)) (after.filter (keptByLinkedit is64)) := by
  induction updated with
  | nil => exact .nil
  | @cons one two _ _ updated _ ih =>
      have same : keptByLinkedit is64 two = keptByLinkedit is64 one := by
        rw [keptByLinkedit, keptByLinkedit, updated.kindIn_eq]
      cases kept : keptByLinkedit is64 one with
      | true =>
          rw [List.filter_cons_of_pos kept, List.filter_cons_of_pos (same.trans kept)]
          exact .cons updated ih
      | false =>
          rw [List.filter_cons_of_neg (by simp [kept]), List.filter_cons_of_neg (by simp [same, kept])]
          exact ih

theorem IsStripped.setFlags {after : Memory} {left : List Bytes} (stripped : IsStripped header memory after left)
    (flags : BitVec 32) : IsStripped header memory (set32 after (header.mh + 24) flags) left := by
  have ge := header.cmds_ge
  constructor
  · exact stripped.fits
  · rw [← stripped.area, bytesAt_eq_iff]
    exact fun k _ => set32_other flags (by omega)
  · rw [← stripped.ncmds, Header.ncmds, Header.ncmds, get32_congr fun k _ high => set32_other flags (by omega)]
  · rw [← stripped.sizeofcmds, Header.sizeofcmds, Header.sizeofcmds,
      get32_congr fun k _ high => set32_other flags (by omega)]
  · intro k away outside
    rw [set32_other flags (by omega), stripped.frame k away outside]

/-- After both passes the header holds exactly the commands that are kept, in their order and with no changes but in
the fields that are updated. -/
theorem rebuild_optimize_isStripped (adjustor : Adjustor) (has : HasCommands header memory commands)
    (wellFormed : ∀ command ∈ commands, IsWellFormed header.is64 command) :
    ∃ left, List.Forall₂ (IsUpdated header.is64) (commands.filter (isKept header.is64)) left ∧
      IsStripped header memory (LinkeditOptimizer header (adjustor.rebuildLoadCommands header memory)) left := by
  have locals : ∀ command ∈ commands, (adjustor.pass header.is64).IsLocal command := fun command member =>
    pass_isLocal adjustor (wellFormed command member)
  have updated := pass_stripped adjustor 0 wellFormed
  have first := (strip_isStripped (adjustor.pass header.is64) 0 has locals).setFlags
    (get32 (header.strip (adjustor.pass header.is64) 0 memory) (header.mh + 24) ||| 0x80000000)
  have locals' : ∀ command ∈ (adjustor.pass header.is64).stripped 0 commands, (linkeditPass header.is64).IsLocal command :=
    isLocal_of_updated updated fun command member => wellFormed command (List.mem_filter.1 member).1
  have second := strip_isStripped (linkeditPass header.is64) () first.hasCommands locals'
  refine ⟨_, ?_, first.trans second⟩
  rw [linkeditPass_stripped]
  have both := filter_updated updated
  rw [List.filter_filter] at both
  exact both

/-- A dylib with an `LC_RPATH` between an `LC_UUID` and an `LC_CODE_SIGNATURE`. -/
def smallCommands : List Bytes :=
  [[0x1B, 0, 0, 0, 8, 0, 0, 0], [0x1C, 0, 0, 0x80, 12, 0, 0, 0, 12, 0, 0, 0],
    [0x1D, 0, 0, 0, 16, 0, 0, 0, 0, 0, 0, 0, 0, 0, 0, 0]]

def smallMemory : Memory :=
  memoryOf ([0xCE, 0xFA, 0xED, 0xFE, 0, 0, 0, 0, 0, 0, 0, 0, 6, 0, 0, 0, 3, 0, 0, 0, 36, 0, 0, 0, 0, 0, 0, 0] ++
    smallCommands.flatten)

def smallAdjustor : Adjustor where
  linkeditStartOffset := 0
  chainedFixupsOffset := 0
  chainedFixupsSize := 0
  bindOffset := 0
  bindSize := 0
  weakBindOffset := 0
  weakBindSize := 0
  lazyBindOffset := 0
  lazyBindSize := 0
  exportOffset := 0
  exportSize := 0
  splitSegInfoOffset := 0
  funcStartsOffset := 0
  dataInCodeOffset := 0
  symbolTableOffset := 0
  indirectTableOffset := 0
  symbolStringsOffset := 0
  linkeditBufferSize := 0
  mappingInfo _ := ⟨0, 0, 0, 0⟩
  segSlides _ := 0
  slideForOrigAddress _ := 0
  sectionWasCoalesced _ := false

theorem smallCommands_isStripped :
    ∃ left, List.Forall₂ (IsUpdated false) (smallCommands.filter (isKept false)) left ∧
      IsStripped ⟨0, false⟩ smallMemory
        (LinkeditOptimizer ⟨0, false⟩ (smallAdjustor.rebuildLoadCommands ⟨0, false⟩ smallMemory)) left := by
  have has : HasCommands ⟨0, false⟩ smallMemory smallCommands :=
    ⟨by decide +kernel, by decide +kernel, by decide +kernel⟩
  refine rebuild_optimize_isStripped smallAdjustor has fun command member => ?_
  simp only [smallCommands, List.mem_cons, List.not_mem_nil, or_false] at member
  rcases member with rfl | rfl | rfl
  · exact ⟨by decide +kernel, by decide +kernel⟩
  · exact ⟨by decide +kernel, by decide +kernel⟩
  · exact ⟨by decide +kernel, by decide +kernel⟩

end ObjcDyld.SharedCache.CommandStripping
