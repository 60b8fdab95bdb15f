import ObjcDyld.ChainedFixups.Walk

/-!
# Moving chained rebases into the cache

The `Adjustor` rewrites the rebases of a dylib for the new addresses of its
segments and leaves the chains in place; the builder then replaces the locations
on the chains by addresses.  A target that does not fit into the chain travels
in a side table.
-/

namespace ObjcDyld.ChainedFixups

open ByteMemory Loops

/-! ## The Adjustor -/

def kRebaseTargetInSideTableArm64e : BitVec 64 := 0x7FFFFFFFFFF

def kRebaseTargetInSideTableArm64 : BitVec 64 := 0xFFFFFFFFF

/-- A segment of the dylib: where it was and where it goes. -/
structure Segment where
  vmaddr : BitVec 64
  vmsize : BitVec 64
  dstCacheUnslidAddress : BitVec 64
  deriving DecidableEq, Repr

/-- The entry of `_segSlides`. -/
def Segment.slide (segment : Segment) : BitVec 64 := segment.dstCacheUnslidAddress - segment.vmaddr

/-- The fields of `Adjustor` that the rebases depend on. -/
structure Adjustor where
  firstSegment : Segment
  otherSegments : List Segment
  maskPointers : Bool
  image : Image

namespace Adjustor

variable (adjustor : Adjustor)

/-- The first entry of `_segOrigStartAddresses`. -/
def segOrigStart : BitVec 64 := adjustor.firstSegment.vmaddr

/-- The loop of `slideForOrigAddress` over the segments. -/
def slideInSegments (addr : BitVec 64) : Option (BitVec 64) :=
  ((adjustor.firstSegment :: adjustor.otherSegments).find? fun segment =>
    segment.vmaddr ≤ addr && addr < segment.vmaddr + segment.vmsize).map Segment.slide

def slideForOrigAddress (addr : BitVec 64) : Except Failure (BitVec 64) :=
  match adjustor.slideInSegments addr with
  | some slide => .ok slide
  | none =>
      -- On arm64, the high nibble of pointers can have extra bits.
      if adjustor.maskPointers && addr &&& 0xF000000000000000 ≠ 0 then
        match adjustor.slideInSegments (addr &&& 0x0FFFFFFFFFFFFFFF) with
        | some slide => .ok slide
        | none => .error (.slideNotKnown (addr &&& 0x0FFFFFFFFFFFFFFF))
      else .error (.slideNotKnown addr)

end Adjustor

def convertArm64eRebaseToIntermediate (segOrigStart targetSlide : BitVec 64) (cell : Cell) :
    Except Failure Cell :=
  let auth := Arm64eAuthRebase.view cell.raw64
  let plain := Arm64eRebase.view cell.raw64
  if auth.bind ≠ 0 then .error .assertion
  else if auth.auth = 1 then
    let targetVMAddr := auth.target.setWidth 64 + segOrigStart + targetSlide
    let authData : AuthData := ⟨auth.diversity, auth.addrDiv, auth.key⟩
    if (targetVMAddr.setWidth 32).setWidth 64 = targetVMAddr then
      -- Everything fits, just update the target.
      .ok { cell with raw64 := { auth with target := targetVMAddr.setWidth 32 }.raw64 }
    else if (targetVMAddr.setWidth 43).setWidth 64 = targetVMAddr then
      -- It does fit into a plain rebase.
      .ok {
        raw64 := Arm64eRebase.raw64 ⟨targetVMAddr.setWidth 43, 0, plain.next, 0, 0⟩
        entry := { cell.entry with authData := some authData } }
    else
      .ok {
        raw64 := Arm64eRebase.raw64
          ⟨kRebaseTargetInSideTableArm64e.setWidth 43, 0, plain.next, 0, 0⟩
        entry := { cell.entry with authData := some authData, rebaseTarget64 := some targetVMAddr } }
  else
    let targetVMAddr := plain.target.setWidth 64 + targetSlide
    if (targetVMAddr.setWidth 43).setWidth 64 = targetVMAddr then
      .ok { cell with raw64 := { plain with target := targetVMAddr.setWidth 43 }.raw64 }
    else
      .ok {
        raw64 := { plain with target := kRebaseTargetInSideTableArm64e.setWidth 43 }.raw64
        entry := { cell.entry with rebaseTarget64 := some targetVMAddr } }

def convertGeneric64RebaseToIntermediate (targetSlide : BitVec 64) (cell : Cell) : Cell :=
  let rebase := Generic64Rebase.view cell.raw64
  let targetVMAddr := rebase.target.setWidth 64 + targetSlide
  if (targetVMAddr.setWidth 36).setWidth 64 = targetVMAddr then
    { cell with raw64 := { rebase with target := targetVMAddr.setWidth 36 }.raw64 }
  else {
    raw64 := { rebase with target := kRebaseTargetInSideTableArm64.setWidth 36 }.raw64
    entry := { cell.entry with rebaseTarget64 := some targetVMAddr } }

/-- `aslrTracker.add`. -/
def Cell.add (cell : Cell) : Cell := { cell with entry := { cell.entry with added := true } }

/-- The chained case of `adjustReference` for `DYLD_CACHE_ADJ_V2_POINTER_64`: binds are ignored. -/
def adjustPointer64 (format : Format) (segOrigStart targetSlide : BitVec 64) (cell : Cell) :
    Except Failure Cell :=
  match format with
  | .arm64e =>
      if (Arm64eAuthRebase.view cell.raw64).bind = 0 then do
        let cell ← convertArm64eRebaseToIntermediate segOrigStart targetSlide cell
        .ok cell.add
      else .ok cell
  | .ptr64 =>
      if (Generic64Rebase.view cell.raw64).bind = 0 then
        .ok (convertGeneric64RebaseToIntermediate targetSlide cell).add
      else .ok cell

namespace Adjustor

variable (adjustor : Adjustor)

/-- A pointer in the split-seg info: its location, and the slide of the section it points to. -/
structure Reference where
  location : ℕ
  toSectionSlide : BitVec 64
  deriving DecidableEq, Repr

/-- What `adjustReferencesUsingInfoV2` does to the pointers of a dylib with chained fixups. -/
def adjustReferences (references : List Reference) (state : State) : Except Failure State :=
  references.foldlM (onCellOf Reference.location fun reference =>
    adjustPointer64 adjustor.image.format adjustor.segOrigStart reference.toSectionSlide) state

/-- The handler of `adjustRebaseChains`. -/
def adjustRebase (cell : Cell) : Except Failure Cell :=
  match adjustor.image.format with
  | .ptr64 =>
      let rebase := Generic64Rebase.view cell.raw64
      if rebase.bind = 0 then do
        let rebaseTargetInDylib := rebase.target.setWidth 64
        let slide ← adjustor.slideForOrigAddress rebaseTargetInDylib
        let rebaseTargetInDyldcache := rebase.target.setWidth 64 + slide
        .ok (convertGeneric64RebaseToIntermediate rebaseTargetInDyldcache cell).add
      else .ok cell
  | .arm64e => .error .unsupportedFormat

def adjustRebaseChains (state : State) : Except Failure State :=
  adjustor.image.forEachFixupInAllChains (onCell adjustor.adjustRebase) state

/-- The split-seg info of a dylib: in version 1 it only lists code. -/
inductive SplitSegInfo where
  | missing
  | version1
  | version2 (references : List Reference)

/--
The constructor of `Adjustor` and the part of `adjustImageForNewSegmentLocations`
for rebases: the references of split-seg info of version 2, the chains otherwise.
-/
def adjustRebases (splitSegInfo : SplitSegInfo) (state : State) : Except Failure State :=
  match splitSegInfo with
  | .missing => .error .missingSplitSegInfo
  | .version1 => adjustor.adjustRebaseChains state
  | .version2 references => adjustor.adjustReferences references state

end Adjustor

/-! ## The builder -/

/-- `ResolvedSymbolTarget` with the addend of `ResolvedTargetInfo`. -/
inductive ResolvedTarget where
  | sharedCache (offset addend : BitVec 64)
  | absolute (value : BitVec 64)
  deriving DecidableEq, Repr

/-- What the handler of `buildImageArray` knows about the cache and the image. -/
structure CacheBuilder where
  sharedMemoryStart : BitVec 64
  /-- `_readExecuteRegion.unslidLoadAddress`. -/
  base : BitVec 64
  /-- `_readOnlyRegion.unslidLoadAddress + _readOnlyRegion.sizeInUse`. -/
  limit : BitVec 64
  targets : List ResolvedTarget

namespace CacheBuilder

variable (builder : CacheBuilder)

/-- A top byte that does not come from a negative addend goes to the tracker. -/
def pullHigh8 (addend : BitVec 64) (entry : Entry) : Entry :=
  if addend.extractLsb' 48 16 ≠ 0xFFFF ∧ addend.extractLsb' 56 8 ≠ 0 then
    { entry with high8 := some (addend.extractLsb' 56 8) }
  else entry

/-- The assertions on a pointer into the cache. -/
def checkPointer (cell : Cell) : Except Failure Cell :=
  if builder.base < cell.raw64 ∧ cell.raw64 < builder.limit then .ok cell else .error .assertion

/-- A high8 of zero is not stored. -/
def storeHigh8 (high8 : BitVec 8) (entry : Entry) : Entry :=
  if high8 ≠ 0 then { entry with high8 := some high8 } else entry

/-- `handlers.chainedBind` for one location; the patch locations it records are left out. -/
def chainedBind (format : Format) (cell : Cell) : Except Failure Cell :=
  match format with
  | .arm64e =>
      let auth := Arm64eAuthRebase.view cell.raw64
      let plain := Arm64eRebase.view cell.raw64
      let authData : AuthData := ⟨auth.diversity, auth.addrDiv, auth.key⟩
      if auth.bind = 1 then
        match builder.targets[(cell.raw64.extractLsb' 0 16).toNat]? with
        | none => .error .outOfBounds
        | some (.sharedCache offset addend) =>
            let entry := pullHigh8 addend cell.entry
            let targetVMAddr := builder.sharedMemoryStart + offset
            if auth.auth = 1 then
              builder.checkPointer
                (Cell.add ⟨targetVMAddr, { entry with authData := some authData }⟩)
            else builder.checkPointer
              (Cell.add ⟨targetVMAddr + (cell.raw64.extractLsb' 32 19).setWidth 64, entry⟩)
        | some (.absolute value) => .ok ⟨value, { cell.entry with added := false }⟩
      else if auth.auth = 1 then
        builder.checkPointer
          ⟨auth.target.setWidth 64, { cell.entry with authData := some authData }⟩
      else
        let target := plain.target.setWidth 64
        let targetVMAddr :=
          if target = kRebaseTargetInSideTableArm64e then cell.entry.rebaseTarget64.getD target
          else target
        builder.checkPointer ⟨targetVMAddr, storeHigh8 plain.high8 cell.entry⟩
  | .ptr64 =>
      let rebase := Generic64Rebase.view cell.raw64
      if rebase.bind = 1 then
        match builder.targets[(cell.raw64.extractLsb' 0 24).toNat]? with
        | none => .error .outOfBounds
        | some (.sharedCache offset addend) =>
            let bindAddend := (cell.raw64.extractLsb' 24 8).setWidth 64
            builder.checkPointer (Cell.add ⟨builder.sharedMemoryStart + offset + bindAddend,
              pullHigh8 (addend + bindAddend) cell.entry⟩)
        | some (.absolute value) => .ok ⟨value, { cell.entry with added := false }⟩
      else
        let target := rebase.target.setWidth 64
        let targetVMAddr :=
          if target = kRebaseTargetInSideTableArm64 then cell.entry.rebaseTarget64.getD target
          else target
        builder.checkPointer ⟨targetVMAddr, storeHigh8 rebase.high8 cell.entry⟩

/-- The walk of `handlers.chainedBind` over an image. -/
def bindImage (image : Image) (state : State) : Except Failure State :=
  image.forEachFixupInAllChains (onCell (builder.chainedBind image.format)) state

end CacheBuilder

end ObjcDyld.ChainedFixups
