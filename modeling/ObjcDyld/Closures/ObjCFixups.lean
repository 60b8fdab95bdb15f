import ObjcDyld.Closures.OffsetPatterns
import ObjcDyld.Closures.SelectorChains
import ObjcDyld.Common.ByteStreams

/-!
# The ObjC fixups of an image

The fixups that `ClosureBuilder::optimizeObjC` encodes, their layout in the attribute that
`ImageWriter::setObjCFixupInfo` writes, and what `Image::objcFixups` and
`Image::forEachFixup` read back.
-/

namespace ObjcDyld.Closures

open ByteStreams

def word32 : Layout (BitVec 32) := Layout.word 4

def word64 : Layout (BitVec 64) := Layout.word 8

/-- The bit-fields of an offset pattern from the lowest bits on. -/
def packPattern (pattern : OffsetPattern) : BitVec 64 :=
  pattern.startVmOffset.setWidth 64 ||| pattern.skipCount.setWidth 64 <<< 40 |||
    pattern.repeatCount.setWidth 64 <<< 48

def unpackPattern (word : BitVec 64) : OffsetPattern :=
  ⟨word.extractLsb' 0 40, word.extractLsb' 40 8, word.extractLsb' 48 16⟩

theorem unpack_packPattern (pattern : OffsetPattern) : unpackPattern (packPattern pattern) = pattern := by
  obtain ⟨startVmOffset, skipCount, repeatCount⟩ := pattern
  rw [unpackPattern, OffsetPattern.mk.injEq]
  refine ⟨?_, ?_, ?_⟩ <;>
  · apply BitVec.eq_of_getLsbD_eq
    intro bit lt
    simp only [packPattern, BitVec.getLsbD_extractLsb', BitVec.getLsbD_or, BitVec.getLsbD_setWidth,
      BitVec.getLsbD_shiftLeft]
    interval_cases bit <;> simp

def offsetPattern : Layout OffsetPattern := word64.map packPattern unpackPattern unpack_packPattern

/-- What the ObjC fixup attribute of an image holds. -/
structure ObjCFixups where
  objcProtocolClassTarget : BitVec 64
  objcImageInfoVMOffset : BitVec 64
  protocolISAFixups : List OffsetPattern
  selRefFixups : List (BitVec 32)
  classStableSwiftFixups : List OffsetPattern
  methodListFixups : List OffsetPattern

namespace ObjCFixups

def headerSize : ℕ := 8 + 8 + 4 * 4

def totalSize (fixups : ObjCFixups) : ℕ :=
  headerSize + 8 * fixups.protocolISAFixups.length + 4 * fixups.selRefFixups.length +
    8 * fixups.classStableSwiftFixups.length + 8 * fixups.methodListFixups.length

/-- The copies of `setObjCFixupInfo` in their order. -/
def payload (fixups : ObjCFixups) : Bytes :=
  let protocolFixupCount := BitVec.ofNat 32 fixups.protocolISAFixups.length
  let selRefFixupCount := BitVec.ofNat 32 fixups.selRefFixups.length
  let stableSwiftFixupCount := BitVec.ofNat 32 fixups.classStableSwiftFixups.length
  let methodListFixupCount := BitVec.ofNat 32 fixups.methodListFixups.length
  word64.write fixups.objcProtocolClassTarget ++ (word64.write fixups.objcImageInfoVMOffset ++
    (word32.write protocolFixupCount ++ (word32.write selRefFixupCount ++
    ((if protocolFixupCount ≠ 0 then offsetPattern.writeArray fixups.protocolISAFixups else []) ++
    ((if selRefFixupCount ≠ 0 then word32.writeArray fixups.selRefFixups else []) ++
    (word32.write stableSwiftFixupCount ++ (word32.write methodListFixupCount ++
    ((if stableSwiftFixupCount ≠ 0 then offsetPattern.writeArray fixups.classStableSwiftFixups else []) ++
    (if methodListFixupCount ≠ 0 then offsetPattern.writeArray fixups.methodListFixups else [])))))))))

/-- `ImageWriter::setObjCFixupInfo` into a container that holds some bytes already: the payload, or
`none` when an assertion of it or of `append` fails or its size is not a 32-bit number. -/
def setObjCFixupInfo (containerLength : ℕ) (fixups : ObjCFixups) : Option Bytes :=
  let payloadSize := BitVec.ofNat 32 fixups.totalSize
  if fixups.totalSize % 4 = 0 ∧ payloadSize.toNat = fixups.totalSize ∧
      containerLength + 4 + payloadSize.toNat < 16 * 1024 * 1024 then
    some fixups.payload
  else none

/-- `Image::objcFixups`; `none` when it reads outside of the payload. -/
def objcFixups (fixupsContent : Bytes) : Option ObjCFixups := do
  let (objcProtocolClassTarget, fixupsContent) ← word64.read fixupsContent
  let (objcImageInfoVMOffset, fixupsContent) ← word64.read fixupsContent
  let (protocolFixupCount, fixupsContent) ← word32.read fixupsContent
  let (selRefFixupCount, fixupsContent) ← word32.read fixupsContent
  let (protocolISAFixups, fixupsContent) ← offsetPattern.readArray protocolFixupCount.toNat fixupsContent
  let (selRefFixups, fixupsContent) ← word32.readArray selRefFixupCount.toNat fixupsContent
  if fixupsContent = [] then
    some ⟨objcProtocolClassTarget, objcImageInfoVMOffset, protocolISAFixups, selRefFixups, [], []⟩
  else
    let (stableSwiftFixupCount, fixupsContent) ← word32.read fixupsContent
    let (methodListFixupCount, fixupsContent) ← word32.read fixupsContent
    let (classStableSwiftFixups, fixupsContent) ← offsetPattern.readArray stableSwiftFixupCount.toNat fixupsContent
    let (methodListFixups, _) ← offsetPattern.readArray methodListFixupCount.toNat fixupsContent
    some ⟨objcProtocolClassTarget, objcImageInfoVMOffset, protocolISAFixups, selRefFixups,
      classStableSwiftFixups, methodListFixups⟩

theorem read_counted {α : Type} (layout : Layout α) (values : List α) (small : values.length < 2 ^ 32) (rest : Bytes) :
    layout.readArray (BitVec.ofNat 32 values.length).toNat
        ((if BitVec.ofNat 32 values.length ≠ 0 then layout.writeArray values else []) ++ rest) =
      some (values, rest) := by
  have count : (BitVec.ofNat 32 values.length).toNat = values.length := by
    rw [BitVec.toNat_ofNat]
    exact Nat.mod_eq_of_lt small
  rw [count]
  split
  · exact layout.readArray_writeArray values rest
  · rename_i zero
    have none : values.length = 0 := by rw [← count, not_not.mp zero]; rfl
    rw [List.length_eq_zero_iff.mp none]
    rfl

theorem objcFixups_of_written {containerLength : ℕ} {fixups : ObjCFixups} {payload : Bytes}
    (written : fixups.setObjCFixupInfo containerLength = some payload) : objcFixups payload = some fixups := by
  rw [setObjCFixupInfo] at written
  split at written
  · rename_i fits
    obtain ⟨-, exact, small⟩ := fits
    obtain rfl := Option.some.inj written
    rw [exact] at small
    simp only [totalSize, headerSize] at small
    have swift : ¬(word32.write (BitVec.ofNat 32 fixups.classStableSwiftFixups.length) ++
        (word32.write (BitVec.ofNat 32 fixups.methodListFixups.length) ++
        ((if BitVec.ofNat 32 fixups.classStableSwiftFixups.length ≠ 0 then
          offsetPattern.writeArray fixups.classStableSwiftFixups else []) ++
        ((if BitVec.ofNat 32 fixups.methodListFixups.length ≠ 0 then
          offsetPattern.writeArray fixups.methodListFixups else []) ++ []))) = []) := by
      intro none
      have length := congrArg List.length none
      rw [List.length_append, word32.length_write] at length
      exact absurd length (by simp [word32, Layout.word])
    simp only [objcFixups, payload]
    rw [← List.append_nil (if BitVec.ofNat 32 fixups.methodListFixups.length ≠ 0 then
      offsetPattern.writeArray fixups.methodListFixups else [])]
    simp only [Layout.read_write, Option.bind_eq_bind, Option.bind_some,
      read_counted offsetPattern fixups.protocolISAFixups (by omega),
      read_counted word32 fixups.selRefFixups (by omega), if_neg swift,
      read_counted offsetPattern fixups.classStableSwiftFixups (by omega),
      read_counted offsetPattern fixups.methodListFixups (by omega)]
  · cases written

end ObjCFixups

/-- The fixups that `optimizeObjC` encodes for one image. -/
structure ObjCLocations where
  objcProtocolClassTarget : BitVec 64
  objcImageInfoVMOffset : BitVec 64
  protocolISAFixups : List (BitVec 64)
  protocolsSmall : ∀ offset ∈ protocolISAFixups, offset.toNat < 2 ^ 40
  selectorFixups : SelectorFixups
  classStableSwiftFixups : List (BitVec 64)
  stableSwiftSmall : ∀ offset ∈ classStableSwiftFixups, offset.toNat < 2 ^ 40

/-- The arrays that `optimizeObjC` passes to `setObjCFixupInfo`; there are no method list fixups yet. -/
def ObjCLocations.encode (pointerSize : BitVec 64) (input : ObjCLocations) : Option ObjCFixups := do
  let protocols ← addOffsets pointerSize input.protocolISAFixups
  let selectors ← addSelectors input.selectorFixups.fixups
  let stableSwift ← addOffsets pointerSize input.classStableSwiftFixups
  some ⟨input.objcProtocolClassTarget, input.objcImageInfoVMOffset, protocols.patterns, selectors.selRefFixups,
    stableSwift.patterns, []⟩

/-- The calls of the ObjC handlers of `Image::forEachFixup`, for each handler in order. -/
structure ObjCCalls where
  imageInfo : BitVec 64
  protocols : List (BitVec 64 × BitVec 64)
  selRefs : List SelectorCall
  stableSwift : List (BitVec 64)
  methodLists : List (BitVec 64)

/-- `Image::forEachFixup` for an image with precomputed ObjC; `none` when it reads outside of the
attribute or of one of its arrays. -/
def forEachObjCFixup (pointerSize : BitVec 64) (objcFixups : Bytes) : Option ObjCCalls := do
  let fixups ← ObjCFixups.objcFixups objcFixups
  let selRefs ← forEachSelectorRef fixups.selRefFixups
  some {
    imageInfo := fixups.objcImageInfoVMOffset
    protocols := (forEachOffset pointerSize fixups.protocolISAFixups).map fun offset =>
      (offset, fixups.objcProtocolClassTarget)
    selRefs
    stableSwift := forEachOffset pointerSize fixups.classStableSwiftFixups
    methodLists := forEachOffset pointerSize fixups.methodListFixups }

/-- The calls that the fixups of an image call for. -/
def ObjCLocations.calls (input : ObjCLocations) : ObjCCalls where
  imageInfo := input.objcImageInfoVMOffset
  protocols := input.protocolISAFixups.map fun offset => (offset, input.objcProtocolClassTarget)
  selRefs := input.selectorFixups.fixups.map SelectorFixup.call
  stableSwift := input.classStableSwiftFixups
  methodLists := []

/-- Two fixups of each kind, the selectors close enough to each other for one chain. -/
def someObjCLocations : ObjCLocations where
  objcProtocolClassTarget := 0x1001
  objcImageInfoVMOffset := 0x4000
  protocolISAFixups := [0x8000, 0x8010]
  protocolsSmall := by simp
  selectorFixups := ⟨[⟨0x9000, 7, true⟩, ⟨0x9008, 3, false⟩], by decide, by decide, by decide⟩
  classStableSwiftFixups := [0xA000, 0xA008]
  stableSwiftSmall := by simp

end ObjcDyld.Closures
