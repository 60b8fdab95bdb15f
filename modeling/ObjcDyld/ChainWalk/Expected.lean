import ObjcDyld.ChainWalk.Walk

/-!
# What a walk over all chains should do

The chains of an image are read off the table and the memory before the walk, by the links of the
pointer format.  The walk should hand on the locations of each chain in order, up to the first one
at which the handler stops.
-/

namespace ObjcDyld.ChainWalk

open ByteMemory ChainedFixups StoppableRuns

/-- The formats that `walkChain` handles. -/
def supportedFormats : List ℕ :=
  [DYLD_CHAINED_PTR_ARM64E, DYLD_CHAINED_PTR_64, DYLD_CHAINED_PTR_32, DYLD_CHAINED_PTR_64_OFFSET,
    DYLD_CHAINED_PTR_ARM64E_OFFSET, DYLD_CHAINED_PTR_ARM64E_USERLAND]

section Segment

variable (segInfo : SegmentStarts)

/-- The link of a location in its pointer format; `DYLD_CHAINED_PTR_ARM64E_OFFSET` has the fields
of arm64e and a stride of 4. -/
def formatLink (content : BitVec 64) : ℕ :=
  let format := segInfo.pointerFormat
  if format = DYLD_CHAINED_PTR_ARM64E ∨ format = DYLD_CHAINED_PTR_ARM64E_USERLAND then
    (Arm64eRebase.view content).next.toNat * 8
  else if format = DYLD_CHAINED_PTR_ARM64E_OFFSET then (Arm64eRebase.view content).next.toNat * 4
  else if format = DYLD_CHAINED_PTR_32 then (Generic32Rebase.view content).next.toNat * 4
  else (Generic64Rebase.view content).next.toNat * 4

/-- The locations linked from one, as far as the first argument allows. -/
def linkedFrom (memory : Memory) : ℕ → ℕ → List ℕ
  | 0, _ => []
  | more + 1, location =>
      if formatLink segInfo (contentAt segInfo memory location) = 0 then [location]
      else location :: linkedFrom memory more (location + formatLink segInfo (contentAt segInfo memory location))

/-- A location that links lead to. -/
inductive LinkedFrom (memory : Memory) (start : ℕ) : ℕ → Prop
  | start : LinkedFrom memory start start
  | link {location : ℕ} (linked : LinkedFrom memory start location) :
      LinkedFrom memory start (location + formatLink segInfo (contentAt segInfo memory location))

/-- A location that the handler is to see: a bind or a pointer, unless it is notified of non-pointers. -/
def handsOn (notifyNonPointers : Bool) (memory : Memory) (location : ℕ) : Bool :=
  !(segInfo.pointerFormat = DYLD_CHAINED_PTR_32 && !notifyNonPointers &&
    isNonPointer segInfo (contentAt segInfo memory location))

/-- The entries of a list of starts up to its last one. -/
def listedStarts : ℕ → ℕ → List ℕ
  | 0, _ => []
  | more + 1, index =>
      if flagged (segInfo.pageStart index) then [unflagged (segInfo.pageStart index)]
      else unflagged (segInfo.pageStart index) :: listedStarts more (index + 1)

def ListEnds (pageIndex : ℕ) : Prop :=
  ∃ last, unflagged (segInfo.pageStart pageIndex) ≤ last ∧ last < segInfo.size ∧ flagged (segInfo.pageStart last) = true

end Segment

/-- A chain: the segment, whether it is the only one of its page, and where it starts. -/
structure Chain where
  segInfo : SegmentStarts
  single : Bool
  start : ℕ
  segmentEnd : ℕ

namespace Chain

variable (chain : Chain)

def locations (memory : Memory) : List ℕ := linkedFrom chain.segInfo memory (chain.segmentEnd - chain.start) chain.start

def LinksInside (memory : Memory) : Prop :=
  ∀ location, LinkedFrom chain.segInfo memory chain.start location → location < chain.segmentEnd

end Chain

def pageChains (segInfo : SegmentStarts) (this pageIndex : ℕ) : List Chain :=
  let segment := this + segInfo.segmentOffset.toNat
  let chain (single : Bool) (offsetInPage : ℕ) : Chain :=
    { segInfo := segInfo
      single := single
      start := segment + pageIndex * segInfo.pageSize + offsetInPage
      segmentEnd := segment + segInfo.pageCount * segInfo.pageSize }
  let offsetInPage := segInfo.pageStart pageIndex
  if offsetInPage = startNone then []
  else if flagged offsetInPage then
    (listedStarts segInfo segInfo.size (unflagged offsetInPage)).map (chain false)
  else [chain true offsetInPage.toNat]

def segmentChains (starts : StartsInImage) (this segIndex : ℕ) : List Chain :=
  if starts.segInfoOffset segIndex = 0 then []
  else (List.range (starts.segInfo segIndex).pageCount).flatMap (pageChains (starts.segInfo segIndex) this)

def imageChains (starts : StartsInImage) (this : ℕ) : List Chain :=
  (List.range starts.segCount).flatMap (segmentChains starts this)

section Handler

variable {σ : Type} (memory : σ → Memory) (handler : SegmentStarts → ℕ → σ → σ × Bool) (notifyNonPointers : Bool)

/-- One call of the handler. -/
def visit (segInfo : SegmentStarts) (location : ℕ) (state : σ) : Outcome σ ℕ :=
  let called := handler segInfo location state
  ⟨called.1, [location], called.2⟩

/-- The calls for one chain, whose links are those of the memory before the walk. -/
def visitChain (original : Memory) (chain : Chain) (state : σ) : Outcome σ (List ℕ) :=
  let visited := runUntil (visit handler chain.segInfo)
    ((chain.locations original).filter (handsOn chain.segInfo notifyNonPointers original)) state
  ⟨visited.state, [visited.calls], visited.stopped⟩

def visitChains (original : Memory) (chains : List Chain) (state : σ) : Outcome σ (List ℕ) :=
  runUntil (visitChain handler notifyNonPointers original) chains state

/-- A call changes no linked location but its own. -/
structure Keeps (original : Memory) (chains : List Chain) : Prop where
  within : ∀ chain ∈ chains, ∀ location ∈ chain.locations original, ∀ other ∈ chain.locations original,
    other ≠ location → ∀ state, contentAt chain.segInfo (memory (handler chain.segInfo location state).1) other =
      contentAt chain.segInfo (memory state) other
  across : chains.Pairwise fun chain later =>
    ∀ location ∈ chain.locations original, ∀ other ∈ later.locations original, ∀ state,
      contentAt later.segInfo (memory (handler chain.segInfo location state).1) other =
        contentAt later.segInfo (memory state) other

/-- No location that is handed on before the stop has the bind bit, which `walkChain` takes for a
bit of the link of `DYLD_CHAINED_PTR_ARM64E_OFFSET`. -/
def NoBindFollowed (segInfo : SegmentStarts) (original : Memory) : List ℕ → σ → Prop
  | [], _ => True
  | location :: locations, state =>
      let called := handler segInfo location state
      called.2 = false →
        (Arm64eRebase.view (contentAt segInfo original location)).bind = 0 ∧
          NoBindFollowed segInfo original locations called.1

/-- What `walkChain` and its caller rely on for one chain. -/
structure Obeys (original : Memory) (chain : Chain) (state : σ) (isLast : Prop) : Prop where
  /-- The chain does not start with a non-pointer that is not to be handed on. -/
  starts : handsOn chain.segInfo notifyNonPointers original chain.start = true
  /-- Nor does it end with one, if the walk gets there. -/
  ends : (visitChain handler notifyNonPointers original chain state).stopped = false →
    ∀ last ∈ (chain.locations original).getLast?, handsOn chain.segInfo notifyNonPointers original last = true
  links : chain.segInfo.pointerFormat = DYLD_CHAINED_PTR_ARM64E_OFFSET →
    NoBindFollowed handler chain.segInfo original (chain.locations original) state
  /-- A stop in the only chain of a page is not followed by another chain. -/
  stops : (visitChain handler notifyNonPointers original chain state).stopped = true → chain.single = true → isLast

/-- Every chain that the walk reaches before it is stopped is as the code relies on. -/
def AllObey (original : Memory) : List Chain → σ → Prop
  | [], _ => True
  | chain :: chains, state =>
      let visited := visitChain handler notifyNonPointers original chain state
      Obeys handler notifyNonPointers original chain state (chains = []) ∧
        (visited.stopped = false → AllObey original chains visited.state)

end Handler

end ObjcDyld.ChainWalk
