import ObjcDyld.ChainWalk.Walk
import ObjcDyld.Closures.WeakDefinitions
import ObjcDyld.Common.WordRanges

/-!
# Interposing tuples

`ClosureBuilder::addInterposingTuples` collects the pairs of pointers in the `__interpose` sections
of an image.  Each fixup of the image is put into an array of tuples by its offset in the section.
-/

namespace ObjcDyld.Closures

open ByteMemory ChainedFixups ChainWalk WordRanges

/-- `InterposingTuple`, of two `ResolvedSymbolTarget`s. -/
structure InterposingTuple where
  stockImplementation : BitVec 64
  newImplementation : BitVec 64
  deriving DecidableEq, Repr

namespace ResolvedSymbolTarget

def kind (raw : BitVec 64) : BitVec 2 := raw.extractLsb' 0 2

def kindAbsolute : BitVec 2 := 3

/-- The three fields of `image`, assigned one by one. -/
def setImage (imageNum : BitVec 32) (offset : BitVec 64) : BitVec 64 :=
  offset.setWidth 40 ++ imageNum.setWidth 22 ++ 2#2

end ResolvedSymbolTarget

open ResolvedSymbolTarget (kind kindAbsolute setImage)

/-- A tuple neither half of which is set. -/
def InterposingTuple.unset : InterposingTuple :=
  ⟨ResolvedSymbolTarget.absolute 0, ResolvedSymbolTarget.absolute 0⟩

/-- A section that `forEachInterposingSection` looks at, with the range of its segment. -/
structure InterposingSection where
  sectAddr : BitVec 64
  sectSize : BitVec 64
  segVmAddr : BitVec 64
  segFileSize : BitVec 64
  deriving DecidableEq

/-- A fixup, with what it is resolved to; a bind may have an ordinal that is out of range. -/
inductive Fixup where
  | rebase (offset target : BitVec 64)
  | bind (offset target : BitVec 64)
  | badOrdinal (offset : BitVec 64)
  deriving DecidableEq

def Fixup.offset : Fixup → BitVec 64
  | rebase offset _ | bind offset _ | badOrdinal offset => offset

/-- The `MachOAnalyzer` and the closure's `Image`; offsets are addresses in its memory. -/
structure InterposingImage where
  is64 : Bool
  preferredLoadAddress : BitVec 64
  imageNum : BitVec 32
  memory : Memory
  sections : List InterposingSection
  /-- What `forEachFixup` hands to its first and its second callback. -/
  rebases : List (BitVec 64)
  binds : List (BitVec 64 × BitVec 64)
  /-- The chain starts and the targets of the chained binds. -/
  chained : Option (StartsInImage × List (BitVec 64))
  /-- The image starts at its preferred load address. -/
  above : ∀ sect ∈ sections, preferredLoadAddress ≤ sect.sectAddr

namespace InterposingImage

variable (image : InterposingImage)

def pointerSize : BitVec 32 := if image.is64 then 8 else 4

def entrySize : BitVec 32 := 2 * image.pointerSize

/-- A rebase in a pattern: its target is in the memory. -/
def rebaseFixup (offset : BitVec 64) : Fixup :=
  let unslidTargetAddress :=
    if image.is64 then get64 image.memory offset.toNat else (get32 image.memory offset.toNat).setWidth 64
  .rebase offset (setImage image.imageNum (unslidTargetAddress - image.preferredLoadAddress))

def chainedFixup (targets : List (BitVec 64)) (segInfo : SegmentStarts) (location : ℕ) : Fixup :=
  let content := contentAt segInfo image.memory location
  let offset := BitVec.ofNat 64 location
  match isBind segInfo.pointerFormat content with
  | some bindOrdinal =>
      match targets[bindOrdinal]? with
      | some target => .bind offset target
      | none => .badOrdinal offset
  | none => .rebase offset
      (setImage image.imageNum (rebaseTarget segInfo.pointerFormat image.preferredLoadAddress content))

end InterposingImage

/-- `isTupleFixup`, with the `tupleIndex` when it answers true. -/
def isTupleFixup (tupleSectVmStartOffset tupleSectVmEndOffset imageOffsetOfFixup : BitVec 64) (entrySize : BitVec 32) :
    Option (BitVec 32) :=
  if imageOffsetOfFixup < tupleSectVmStartOffset then none
  else if imageOffsetOfFixup > tupleSectVmEndOffset then none
  else
    let offsetIntoSection := imageOffsetOfFixup - tupleSectVmStartOffset
    let tupleIndex := (offsetIntoSection / entrySize.setWidth 64).setWidth 32
    if (tupleIndex * entrySize).setWidth 64 = offsetIntoSection ∨
        (tupleIndex * entrySize + entrySize / 2).setWidth 64 = offsetIntoSection then some tupleIndex
    else none

namespace InterposingSection

variable (sect : InterposingSection) (image : InterposingImage)

def malformedSectionRange : Bool :=
  sect.sectAddr < sect.segVmAddr ||
    greaterThanAddOrOverflow sect.sectAddr sect.sectSize (sect.segVmAddr + sect.segFileSize)

/-- The checks of `forEachInterposingSection`. -/
def accepted : Bool :=
  sect.sectSize % image.entrySize.setWidth 64 == 0 && !sect.malformedSectionRange &&
    sect.sectAddr % image.pointerSize.setWidth 64 == 0

def sectVmOffset : BitVec 64 := sect.sectAddr - image.preferredLoadAddress

def tupleCount : ℕ := ((sect.sectSize / image.entrySize.setWidth 64).setWidth 32).toNat

def tupleIndex (offset : BitVec 64) : Option ℕ :=
  (isTupleFixup (sect.sectVmOffset image) (sect.sectVmOffset image + sect.sectSize) offset image.entrySize).map
    BitVec.toNat

end InterposingSection

/-- The array `resolvedTuples`, and what has happened while it is filled. -/
structure Collector where
  resolvedTuples : List InterposingTuple
  /-- A tuple was written that is not in the array. -/
  outOfBounds : Bool
  /-- `_diag` has an error. -/
  diagError : Bool
  /-- The fixups that were handed to the callbacks. -/
  reported : List Fixup

namespace Collector

def write (collector : Collector) (index : ℕ) (set : InterposingTuple → InterposingTuple) : Collector :=
  if index < collector.resolvedTuples.length then
    { collector with resolvedTuples := collector.resolvedTuples.modify index set }
  else { collector with outOfBounds := true }

/-- What the three callbacks do with a fixup. -/
def take (sect : InterposingSection) (image : InterposingImage) (collector : Collector) (fixup : Fixup) : Collector :=
  let collector := { collector with reported := collector.reported ++ [fixup] }
  match sect.tupleIndex image fixup.offset with
  | none => collector
  | some tupleIndex =>
      match fixup with
      | .rebase _ target => collector.write tupleIndex fun tuple => { tuple with newImplementation := target }
      | .bind _ target => collector.write tupleIndex fun tuple => { tuple with stockImplementation := target }
      | .badOrdinal _ => { collector with diagError := true }

/-- The handler for chained fixups; it stops at an ordinal that is out of range. -/
def onChained (sect : InterposingSection) (image : InterposingImage) (targets : List (BitVec 64))
    (segInfo : SegmentStarts) (location : ℕ) (collector : Collector) : Collector × Bool :=
  let fixup := image.chainedFixup targets segInfo location
  let fixupsStop :=
    match fixup with
    | .badOrdinal offset => (sect.tupleIndex image offset).isSome
    | .rebase _ _ | .bind _ _ => false
  (collector.take sect image fixup, fixupsStop)

end Collector

/-- The loops over the fixups for one section; `none` when the walk over the chains does not end. -/
def collect (sect : InterposingSection) (image : InterposingImage) (fuel : ℕ) : Option Collector :=
  let resolvedTuples := List.replicate (sect.tupleCount image) InterposingTuple.unset
  let rebased := (image.rebases.map image.rebaseFixup).foldl (Collector.take sect image) ⟨resolvedTuples, false, false, []⟩
  let bound := (image.binds.map fun bind => Fixup.bind bind.1 bind.2).foldl (Collector.take sect image) rebased
  match image.chained with
  | none => some bound
  | some (starts, targets) =>
      (forEachFixupInAllChains (fun _ => image.memory) (Collector.onChained sect image targets) false starts 0 fuel
        bound).map Prod.fst

/-- Both sides are set, and not to an absolute target. -/
def InterposingTuple.good (tuple : InterposingTuple) : Bool :=
  kind tuple.stockImplementation != kindAbsolute && kind tuple.newImplementation != kindAbsolute

/-- The part of the `ClosureBuilder` and its writer that interposing is about. -/
structure InterposingBuilder where
  interposingTuplesUsed : Bool
  /-- The attributes `interposeTuples` that were written, one for each section. -/
  written : List (List InterposingTuple)
  outOfBounds : Bool
  diagError : Bool
  /-- For each section that was handled, its image and the fixups that were handed on for it. -/
  handled : List (InterposingSection × InterposingImage × List Fixup)

namespace InterposingBuilder

def init : InterposingBuilder := ⟨false, [], false, false, []⟩

def addSection (image : InterposingImage) (fuel : ℕ) (builder : InterposingBuilder) (sect : InterposingSection) :
    Option InterposingBuilder :=
  (collect sect image fuel).map fun collector =>
    let goodTuples := collector.resolvedTuples.filter InterposingTuple.good
    { interposingTuplesUsed := !goodTuples.isEmpty
      written := builder.written ++ [goodTuples]
      outOfBounds := builder.outOfBounds || collector.outOfBounds
      diagError := builder.diagError || collector.diagError
      handled := builder.handled ++ [(sect, image, collector.reported)] }

/-- The loop of `forEachInterposingSection`; a section that is not accepted ends it. -/
def addSections (image : InterposingImage) (fuel : ℕ) :
    List InterposingSection → InterposingBuilder → Option InterposingBuilder
  | [], builder => some builder
  | sect :: sections, builder =>
      if sect.accepted image then (builder.addSection image fuel sect).bind (addSections image fuel sections)
      else some { builder with diagError := true }

def addInterposingTuples (fuel : ℕ) (builder : InterposingBuilder) (image : InterposingImage) :
    Option InterposingBuilder := addSections image fuel image.sections builder

/-- The loop of `makeLaunchClosure` over the images that are not in the cache. -/
def addImages (images : List InterposingImage) (fuel : ℕ) : Option InterposingBuilder :=
  images.foldlM (addInterposingTuples fuel) init

end InterposingBuilder

end ObjcDyld.Closures
