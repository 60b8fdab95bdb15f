import ObjcDyld.ChainedFixups.Payload
import ObjcDyld.ChainedFixups.Pointer
import ObjcDyld.Common.StoppableLoops

/-!
# Walking chains with a handler

`walkChain` and `forEachFixupInAllChains` for all pointer formats, with a handler that changes a
state of its own and may stop the walk.  The memory of the image is part of that state.  A walk
returns the locations that it handed to the handler, one list for each chain.
-/

namespace ObjcDyld.ChainWalk

open ByteMemory ChainedFixups StoppableRuns

def DYLD_CHAINED_PTR_ARM64E : ℕ := 1

def DYLD_CHAINED_PTR_64 : ℕ := 2

def DYLD_CHAINED_PTR_32 : ℕ := 3

def DYLD_CHAINED_PTR_64_OFFSET : ℕ := 6

def DYLD_CHAINED_PTR_ARM64E_OFFSET : ℕ := 7

def DYLD_CHAINED_PTR_ARM64E_USERLAND : ℕ := 9

/-- `dyld_chained_ptr_32_rebase`. -/
structure Generic32Rebase where
  target : BitVec 26
  next : BitVec 5
  bind : BitVec 1
  deriving DecidableEq, Repr

/-- The view `generic32.rebase` of a word. -/
def Generic32Rebase.view (raw64 : BitVec 64) : Generic32Rebase where
  target := raw64.extractLsb' 0 26
  next := raw64.extractLsb' 26 5
  bind := raw64.extractLsb' 31 1

section Segment

variable (segInfo : SegmentStarts)

/-- The content of a location, as far as the pointer format uses it. -/
def contentAt (memory : Memory) (location : ℕ) : BitVec 64 :=
  if segInfo.pointerFormat = DYLD_CHAINED_PTR_32 then (get32 memory location).setWidth 64 else get64 memory location

/-- "not a real pointer, but a non-pointer co-opted into chain". -/
def isNonPointer (content : BitVec 64) : Bool :=
  (Generic32Rebase.view content).bind == 0 && (Generic32Rebase.view content).target.toNat > segInfo.maxValidPointer

/-- The distance in bytes that `walkChain` reads from a location, or `none` for an unknown format. -/
def readLink (content : BitVec 64) : Option ℕ :=
  let format := segInfo.pointerFormat
  if format = DYLD_CHAINED_PTR_ARM64E ∨ format = DYLD_CHAINED_PTR_ARM64E_USERLAND then
    some ((Arm64eRebase.view content).next.toNat * 8)
  else if format = DYLD_CHAINED_PTR_64 ∨ format = DYLD_CHAINED_PTR_64_OFFSET ∨
      format = DYLD_CHAINED_PTR_ARM64E_OFFSET then
    some ((Generic64Rebase.view content).next.toNat * 4)
  else if format = DYLD_CHAINED_PTR_32 then some ((Generic32Rebase.view content).next.toNat * 4)
  else none

/-- The inner loop of `walkChain` over non-pointers. -/
def skipNonPointers (memory : Memory) : ℕ → ℕ → Option ℕ
  | 0, _ => none
  | fuel + 1, chain =>
      let content := contentAt segInfo memory chain
      if isNonPointer segInfo content then
        skipNonPointers memory fuel (chain + (Generic32Rebase.view content).next.toNat * 4)
      else some chain

/-- Where `walkChain` goes on from the target of a link. -/
def advance (notifyNonPointers : Bool) (memory : Memory) (fuel next : ℕ) : Option ℕ :=
  if segInfo.pointerFormat = DYLD_CHAINED_PTR_32 ∧ notifyNonPointers = false then
    skipNonPointers segInfo memory fuel next
  else some next

variable {σ : Type} (memory : σ → Memory) (handler : SegmentStarts → ℕ → σ → σ × Bool) (notifyNonPointers : Bool)

/-- `walkChain`; the content is copied before the handler is called. -/
def walkChain : ℕ → ℕ → σ → Option (Outcome σ ℕ)
  | 0, _, _ => none
  | fuel + 1, chain, state =>
      let chainContent := contentAt segInfo (memory state) chain
      let called := handler segInfo chain state
      if called.2 then some ⟨called.1, [chain], true⟩
      else
        match readLink segInfo chainContent with
        | none => some ⟨called.1, [chain], true⟩
        | some 0 => some ⟨called.1, [chain], false⟩
        | some (distance + 1) =>
            (advance segInfo notifyNonPointers (memory called.1) fuel (chain + (distance + 1))).bind fun next =>
              (walkChain fuel next called.1).map (Outcome.after [chain])

/-- The `while` loop over the starts of a page. -/
def walkStarts (fuel pageContentStart : ℕ) : ℕ → ℕ → σ → Option (Outcome σ (List ℕ))
  | 0, _, _ => none
  | rounds + 1, overflowIndex, state =>
      let offsetInPage := unflagged (segInfo.pageStart overflowIndex)
      (walkChain segInfo memory handler notifyNonPointers fuel (pageContentStart + offsetInPage) state).bind
        fun walked =>
          if walked.stopped || flagged (segInfo.pageStart overflowIndex) then
            some ⟨walked.state, [walked.calls], walked.stopped⟩
          else
            (walkStarts fuel pageContentStart rounds (overflowIndex + 1) walked.state).map (Outcome.after [walked.calls])

/-- One round of the loop over the pages; `this` is the address of the image. -/
def walkPage (this fuel pageIndex : ℕ) (state : σ) : Option (Outcome σ (List ℕ)) :=
  let pageContentStart := this + segInfo.segmentOffset.toNat + pageIndex * segInfo.pageSize
  let offsetInPage := segInfo.pageStart pageIndex
  if offsetInPage = startNone then some ⟨state, [], false⟩
  else if flagged offsetInPage then
    walkStarts segInfo memory handler notifyNonPointers fuel pageContentStart fuel (unflagged offsetInPage) state
  else
    -- one chain per page: what `walkChain` returns is not looked at
    (walkChain segInfo memory handler notifyNonPointers fuel (pageContentStart + offsetInPage.toNat) state).map
      fun walked => ⟨walked.state, [walked.calls], false⟩

end Segment

variable {σ : Type} (memory : σ → Memory) (handler : SegmentStarts → ℕ → σ → σ × Bool) (notifyNonPointers : Bool)

/-- One round of the loop over the segments. -/
def walkSegment (starts : StartsInImage) (this fuel segIndex : ℕ) (state : σ) : Option (Outcome σ (List ℕ)) :=
  if starts.segInfoOffset segIndex = 0 then some ⟨state, [], false⟩
  else
    let segInfo := starts.segInfo segIndex
    untilStopped (walkPage segInfo memory handler notifyNonPointers this fuel) (List.range segInfo.pageCount) state

/-- `forEachFixupInAllChains`; it returns nothing but what the handler has done. -/
def forEachFixupInAllChains (starts : StartsInImage) (this fuel : ℕ) (state : σ) : Option (σ × List (List ℕ)) :=
  (untilStopped (walkSegment memory handler notifyNonPointers starts this fuel) (List.range starts.segCount) state).map
    Outcome.result

end ObjcDyld.ChainWalk

/-!
## What a chained fixup points to

`isBind` and `isRebase` of a `ChainedFixupPointerOnDisk`, and invariants of handlers.
-/

namespace ObjcDyld.ChainWalk

open ByteMemory ChainedFixups StoppableRuns

/-- `isBind`: the ordinal of a bind.  Other formats fail an assertion; they count as rebases here. -/
def isBind (pointerFormat : ℕ) (content : BitVec 64) : Option ℕ :=
  if pointerFormat = DYLD_CHAINED_PTR_ARM64E ∨ pointerFormat = DYLD_CHAINED_PTR_ARM64E_OFFSET ∨
      pointerFormat = DYLD_CHAINED_PTR_ARM64E_USERLAND then
    if (Arm64eRebase.view content).bind = 0 then none else some (content.extractLsb' 0 16).toNat
  else if pointerFormat = DYLD_CHAINED_PTR_32 then
    if (Generic32Rebase.view content).bind = 0 then none else some (content.extractLsb' 0 20).toNat
  else if (Generic64Rebase.view content).bind = 0 then none
  else some (content.extractLsb' 0 24).toNat

/-- `unpackTarget` and `unpackedTarget`: the high byte is put back. -/
def unpack (high8 : BitVec 8) (target : BitVec 64) : BitVec 64 := (high8.setWidth 64 <<< 56) ||| target

/-- `isRebase`: the `targetRuntimeOffset` of a fixup that is not a bind. -/
def rebaseTarget (pointerFormat : ℕ) (preferredLoadAddress content : BitVec 64) : BitVec 64 :=
  let arm64e := Arm64eRebase.view content
  let generic64 := Generic64Rebase.view content
  if pointerFormat = DYLD_CHAINED_PTR_ARM64E then
    if arm64e.auth = 0 then unpack arm64e.high8 (arm64e.target.setWidth 64) - preferredLoadAddress
    else (Arm64eAuthRebase.view content).target.setWidth 64
  else if pointerFormat = DYLD_CHAINED_PTR_ARM64E_OFFSET ∨ pointerFormat = DYLD_CHAINED_PTR_ARM64E_USERLAND then
    if arm64e.auth = 0 then unpack arm64e.high8 (arm64e.target.setWidth 64)
    else (Arm64eAuthRebase.view content).target.setWidth 64
  else if pointerFormat = DYLD_CHAINED_PTR_64 then
    unpack generic64.high8 (generic64.target.setWidth 64) - preferredLoadAddress
  else if pointerFormat = DYLD_CHAINED_PTR_64_OFFSET then unpack generic64.high8 (generic64.target.setWidth 64)
  else (Generic32Rebase.view content).target.setWidth 64 - preferredLoadAddress

section Invariants

variable {α σ ε : Type} {Invariant : σ → Prop}

theorem untilStopped_invariant {body : α → σ → Option (Outcome σ ε)}
    (keeps : ∀ item state outcome, Invariant state → body item state = some outcome → Invariant outcome.state)
    (items : List α) {state : σ} {outcome : Outcome σ ε} (holds : Invariant state)
    (run : untilStopped body items state = some outcome) : Invariant outcome.state := by
  induction items generalizing state outcome with
  | nil =>
      obtain rfl := Option.some.inj run
      exact holds
  | cons item items ih =>
      rw [untilStopped] at run
      obtain ⟨round, ran, rest⟩ := Option.bind_eq_some_iff.mp run
      have kept := keeps item state round holds ran
      split at rest
      · obtain rfl := Option.some.inj rest
        exact kept
      · obtain ⟨further, ran', rfl⟩ := Option.map_eq_some_iff.mp rest
        have later := ih kept ran'
        exact later

variable {memory : σ → Memory} {handler : SegmentStarts → ℕ → σ → σ × Bool} {notifyNonPointers : Bool}

theorem walkChain_invariant {segInfo : SegmentStarts}
    (keeps : ∀ location state, Invariant state → Invariant (handler segInfo location state).1) (fuel : ℕ) {chain : ℕ}
    {state : σ} {outcome : Outcome σ ℕ} (holds : Invariant state)
    (run : walkChain segInfo memory handler notifyNonPointers fuel chain state = some outcome) :
    Invariant outcome.state := by
  induction fuel generalizing chain state outcome with
  | zero => cases run
  | succ fuel ih =>
      have kept := keeps chain state holds
      rw [walkChain] at run
      split at run
      · obtain rfl := Option.some.inj run
        exact kept
      · split at run
        · obtain rfl := Option.some.inj run
          exact kept
        · obtain rfl := Option.some.inj run
          exact kept
        · obtain ⟨next, -, further⟩ := Option.bind_eq_some_iff.mp run
          obtain ⟨rest, ran, rfl⟩ := Option.map_eq_some_iff.mp further
          have later := ih kept ran
          exact later

theorem walkStarts_invariant {segInfo : SegmentStarts}
    (keeps : ∀ location state, Invariant state → Invariant (handler segInfo location state).1) (fuel start rounds : ℕ)
    {index : ℕ} {state : σ} {outcome : Outcome σ (List ℕ)} (holds : Invariant state)
    (run : walkStarts segInfo memory handler notifyNonPointers fuel start rounds index state = some outcome) :
    Invariant outcome.state := by
  induction rounds generalizing index state outcome with
  | zero => cases run
  | succ rounds ih =>
      rw [walkStarts] at run
      obtain ⟨walked, ran, rest⟩ := Option.bind_eq_some_iff.mp run
      have kept := walkChain_invariant keeps fuel holds ran
      split at rest
      · obtain rfl := Option.some.inj rest
        exact kept
      · obtain ⟨further, ran', rfl⟩ := Option.map_eq_some_iff.mp rest
        have later := ih kept ran'
        exact later

theorem forEachFixupInAllChains_invariant
    (keeps : ∀ segInfo location state, Invariant state → Invariant (handler segInfo location state).1)
    {starts : StartsInImage} {this fuel : ℕ} {state : σ} {result : σ × List (List ℕ)} (holds : Invariant state)
    (run : forEachFixupInAllChains memory handler notifyNonPointers starts this fuel state = some result) :
    Invariant result.1 := by
  obtain ⟨outcome, ran, rfl⟩ := Option.map_eq_some_iff.mp run
  refine untilStopped_invariant (fun segIndex state outcome holds ran => ?_) _ holds ran
  rw [walkSegment] at ran
  split at ran
  · obtain rfl := Option.some.inj ran
    exact holds
  · refine untilStopped_invariant (fun pageIndex state outcome holds ran => ?_) _ holds ran
    rw [walkPage] at ran
    split at ran
    · obtain rfl := Option.some.inj ran
      exact holds
    · split at ran
      · exact walkStarts_invariant (keeps _) _ _ _ holds ran
      · obtain ⟨walked, ran', rfl⟩ := Option.map_eq_some_iff.mp ran
        exact walkChain_invariant (keeps _) _ holds ran'

end Invariants

end ObjcDyld.ChainWalk
