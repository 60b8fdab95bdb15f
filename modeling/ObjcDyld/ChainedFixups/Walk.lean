import ObjcDyld.ChainedFixups.Pointer
import ObjcDyld.Common.ByteMemory
import ObjcDyld.Common.Loops

/-!
# Walking chained fixups

`forEachFixupInAllChains` hands every location of the chains of an image to a
handler, which may overwrite it: the walk reads the link first.  A handler that
touches nothing but its location sees every location as it was before the walk.
-/

namespace ObjcDyld.ChainedFixups

open ByteMemory Loops
open Function (update update_self update_of_ne)

/-- What `ASLR_Tracker` knows about a location. -/
structure Entry where
  added : Bool
  high8 : Option (BitVec 8)
  authData : Option AuthData
  rebaseTarget32 : Option (BitVec 32)
  rebaseTarget64 : Option (BitVec 64)
  deriving DecidableEq, Repr

/-- A location that the tracker has not heard of. -/
def Entry.empty : Entry := ⟨false, none, none, none, none⟩

/-- The buffer of the cache and the tracker. -/
structure State where
  memory : Memory
  tracker : ℕ → Entry

/-- A location: its content and what the tracker knows about it. -/
structure Cell where
  raw64 : BitVec 64
  entry : Entry
  deriving DecidableEq, Repr

inductive Failure where
  /-- `_diagnostics.error`: "slide not known for dylib address". -/
  | slideNotKnown (address : BitVec 64)
  /-- `_diagnostics.error`: "unsupported chained fixup format". -/
  | unsupportedFormat
  /-- `_diagnostics.error`: "missing LC_SEGMENT_SPLIT_INFO". -/
  | missingSplitSegInfo
  | assertion
  /-- An access outside of an array. -/
  | outOfBounds
  /-- A chain that does not end. -/
  | endless
  deriving DecidableEq, Repr

def Failure.reported : Failure → Bool
  | .slideNotKnown _ | .unsupportedFormat | .missingSplitSegInfo => true
  | .assertion | .outOfBounds | .endless => false

namespace State

def cell (state : State) (location : ℕ) : Cell :=
  ⟨get64 state.memory location, state.tracker location⟩

def setCell (state : State) (location : ℕ) (cell : Cell) : State :=
  ⟨set64 state.memory location cell.raw64, update state.tracker location cell.entry⟩

@[simp] theorem cell_setCell (state : State) (location : ℕ) (cell : Cell) :
    (state.setCell location cell).cell location = cell := by
  simp only [State.cell, setCell, get64_set64, update_self]

theorem cell_setCell_other (state : State) {location other : ℕ} (cell : Cell)
    (apart : other + 8 ≤ location ∨ location + 8 ≤ other) :
    (state.setCell location cell).cell other = state.cell other := by
  have ne : other ≠ location := by omega
  simp only [State.cell, setCell, get64_set64_other _ apart, update_of_ne ne]

end State

/-- A step that reads and writes the location of the item it is given. -/
def onCellOf {α : Type} (location : α → ℕ) (handler : α → Cell → Except Failure Cell)
    (state : State) (item : α) : Except Failure State := do
  let cell ← handler item (state.cell (location item))
  .ok (state.setCell (location item) cell)

/-- A handler that reads and writes the location it is given. -/
def onCell (handler : Cell → Except Failure Cell) : State → ℕ → Except Failure State :=
  onCellOf id fun _ => handler

/-! ## The walk -/

/-- The pointer formats with 64-bit targets in vm addresses. -/
inductive Format where
  /-- `DYLD_CHAINED_PTR_ARM64E`. -/
  | arm64e
  /-- `DYLD_CHAINED_PTR_64`. -/
  | ptr64
  deriving DecidableEq, Repr

/-- The distance to the next location of the chain, in bytes. -/
def Format.next (format : Format) (raw64 : BitVec 64) : ℕ :=
  match format with
  | .arm64e => (Arm64eRebase.view raw64).next.toNat * 8
  | .ptr64 => (Generic64Rebase.view raw64).next.toNat * 4

/-- `dyld_chained_starts_in_segment`, with the address of the segment. -/
structure StartsInSegment where
  segment : ℕ
  pageSize : ℕ
  pageCount : ℕ
  pageStart : List ℕ

/-- The starts in an overflow area, up to the one marked `DYLD_CHAINED_PTR_START_LAST`. -/
def overflowStarts (pageStart : List ℕ) : ℕ → ℕ → Except Failure (List ℕ)
  | 0, _ => .error .endless
  | fuel + 1, overflowIndex =>
      match pageStart[overflowIndex]? with
      | none => .error .outOfBounds
      | some start =>
          if start &&& 0x8000 ≠ 0 then .ok [start &&& 0x7FFF]
          else do
            let rest ← overflowStarts pageStart fuel (overflowIndex + 1)
            .ok ((start &&& 0x7FFF) :: rest)

/-- The addresses at which the chains of a page start. -/
def StartsInSegment.chainStarts (info : StartsInSegment) (pageIndex : ℕ) :
    Except Failure (List ℕ) :=
  let pageContentStart := info.segment + pageIndex * info.pageSize
  match info.pageStart[pageIndex]? with
  | none => .error .outOfBounds
  | some offsetInPage =>
      if offsetInPage = 0xFFFF then .ok []
      else if offsetInPage &&& 0x8000 ≠ 0 then do
        let starts ← overflowStarts info.pageStart info.pageStart.length (offsetInPage &&& 0x7FFF)
        .ok (starts.map (pageContentStart + ·))
      else .ok [pageContentStart + offsetInPage]

/-- An image with chained fixups, in the buffer of the cache. -/
structure Image where
  format : Format
  startsInfo : List StartsInSegment
  /-- More locations than a chain can have. -/
  size : ℕ

def Image.chainStarts (image : Image) : Except Failure (List ℕ) := do
  let starts ← image.startsInfo.mapM fun info =>
    (List.range info.pageCount).mapM info.chainStarts
  .ok starts.flatten.flatten

/-- `walkChain`: the link is read before the handler may overwrite the location. -/
def walkChain (next : BitVec 64 → ℕ) (handler : State → ℕ → Except Failure State) :
    ℕ → State → ℕ → Except Failure State
  | 0, _, _ => .error .endless
  | fuel + 1, state, chain => do
      let chainContent := get64 state.memory chain
      let state ← handler state chain
      if next chainContent = 0 then .ok state
      else walkChain next handler fuel state (chain + next chainContent)

def Image.forEachFixupInAllChains (image : Image) (handler : State → ℕ → Except Failure State)
    (state : State) : Except Failure State := do
  let starts ← image.chainStarts
  starts.foldlM (walkChain image.format.next handler image.size) state

/-! ## The locations of a walk -/

def locationsFrom (next : BitVec 64 → ℕ) (memory : Memory) : ℕ → ℕ → Except Failure (List ℕ)
  | 0, _ => .error .endless
  | fuel + 1, chain =>
      if next (get64 memory chain) = 0 then .ok [chain]
      else do
        let rest ← locationsFrom next memory fuel (chain + next (get64 memory chain))
        .ok (chain :: rest)

/-- The locations on the chains of an image, in the order of the walk. -/
def Image.locations (image : Image) (memory : Memory) : Except Failure (List ℕ) := do
  let starts ← image.chainStarts
  let chains ← starts.mapM (locationsFrom image.format.next memory image.size)
  .ok chains.flatten

/-- Locations that do not overlap. -/
def Apart (a b : ℕ) : Prop := a + 8 ≤ b ∨ b + 8 ≤ a

theorem Apart.symm {a b : ℕ} (apart : Apart a b) : Apart b a := Or.symm apart

instance : Std.Symm Apart := ⟨fun _ _ => Apart.symm⟩

section Items

variable {α : Type} {location : α → ℕ} {handler : α → Cell → Except Failure Cell}
  {state state' : State} {items : List α}

theorem onCellOf_ok {item : α} (run : onCellOf location handler state item = .ok state') :
    handler item (state.cell (location item)) = .ok (state'.cell (location item)) ∧
      ∀ other, Apart (location item) other → state'.cell other = state.cell other := by
  obtain ⟨cell, handled, rest⟩ := bind_eq_ok run
  obtain rfl := Except.ok.inj rest
  refine ⟨by rw [State.cell_setCell, handled], fun other apart => ?_⟩
  exact state.cell_setCell_other cell apart.symm

theorem foldlM_onCellOf_ok (apart : items.Pairwise fun a b => Apart (location a) (location b))
    (run : items.foldlM (onCellOf location handler) state = .ok state') :
    (∀ item ∈ items, handler item (state.cell (location item)) =
        .ok (state'.cell (location item))) ∧
      ∀ other, (∀ item ∈ items, Apart (location item) other) →
        state'.cell other = state.cell other := by
  induction items generalizing state with
  | nil =>
      obtain rfl := Except.ok.inj run
      exact ⟨by simp, fun _ _ => rfl⟩
  | cons first rest ih =>
      obtain ⟨firstApart, restApart⟩ := List.pairwise_cons.mp apart
      rw [List.foldlM_cons] at run
      obtain ⟨middle, step, run⟩ := bind_eq_ok run
      obtain ⟨handled, others⟩ := onCellOf_ok step
      obtain ⟨later, frame⟩ := ih restApart run
      refine ⟨fun item mem => ?_, fun other away => ?_⟩
      · rcases List.mem_cons.mp mem with rfl | mem
        · rw [frame (location item) fun other mem => (firstApart other mem).symm]
          exact handled
        · rw [← others (location item) (firstApart item mem)]
          exact later item mem
      · rw [frame other fun item mem => away item (List.mem_cons_of_mem first mem),
          others other (away first List.mem_cons_self)]

theorem exists_foldlM_onCellOf (apart : items.Pairwise fun a b => Apart (location a) (location b))
    (total : ∀ item ∈ items, ∃ cell, handler item (state.cell (location item)) = .ok cell) :
    ∃ state', items.foldlM (onCellOf location handler) state = .ok state' := by
  induction items generalizing state with
  | nil => exact ⟨state, rfl⟩
  | cons first rest ih =>
      obtain ⟨firstApart, restApart⟩ := List.pairwise_cons.mp apart
      obtain ⟨cell, handled⟩ := total first List.mem_cons_self
      have step : onCellOf location handler state first =
          .ok (state.setCell (location first) cell) := by
        rw [onCellOf, handled, ok_bind]
      obtain ⟨last, run⟩ := @ih (state.setCell (location first) cell) restApart fun item mem => by
        rw [state.cell_setCell_other cell (firstApart item mem).symm]
        exact total item (List.mem_cons_of_mem first mem)
      exact ⟨last, by rw [List.foldlM_cons, step, ok_bind, run]⟩

end Items

section Run

variable {handler : Cell → Except Failure Cell} {state : State} {locs : List ℕ}

theorem locationsFrom_congr {next : BitVec 64 → ℕ} {memory memory' : Memory} {fuel chain : ℕ}
    (walked : locationsFrom next memory fuel chain = .ok locs)
    (same : ∀ location ∈ locs, next (get64 memory' location) = next (get64 memory location)) :
    locationsFrom next memory' fuel chain = .ok locs := by
  induction fuel generalizing chain locs with
  | zero => cases walked
  | succ fuel ih =>
      rw [locationsFrom] at walked ⊢
      by_cases ends : next (get64 memory chain) = 0
      · rw [if_pos ends] at walked
        obtain rfl := Except.ok.inj walked
        rw [if_pos ((same chain List.mem_cons_self).trans ends)]
      · rw [if_neg ends] at walked
        cases further : locationsFrom next memory fuel (chain + next (get64 memory chain)) with
        | error failure =>
            rw [further] at walked
            cases walked
        | ok rest =>
            rw [further, ok_bind] at walked
            obtain rfl := Except.ok.inj walked
            have here := same chain List.mem_cons_self
            rw [if_neg (by rwa [here]), here,
              ih further fun location mem => same location (List.mem_cons_of_mem chain mem), ok_bind]

theorem walkChain_eq {next : BitVec 64 → ℕ} {fuel chain : ℕ}
    (walked : locationsFrom next state.memory fuel chain = .ok locs)
    (apart : locs.Pairwise Apart) :
    walkChain next (onCell handler) fuel state chain = locs.foldlM (onCell handler) state := by
  induction fuel generalizing chain locs state with
  | zero => cases walked
  | succ fuel ih =>
      rw [locationsFrom] at walked
      rw [walkChain]
      by_cases ends : next (get64 state.memory chain) = 0
      · rw [if_pos ends] at walked
        obtain rfl := Except.ok.inj walked
        simp only [if_pos ends, List.foldlM_cons, List.foldlM_nil]
        rfl
      · rw [if_neg ends] at walked
        obtain ⟨rest, further, walked⟩ := bind_eq_ok walked
        obtain rfl := Except.ok.inj walked
        obtain ⟨firstApart, restApart⟩ := List.pairwise_cons.mp apart
        simp only [if_neg ends, List.foldlM_cons]
        cases step : onCell handler state chain with
        | error failure => rfl
        | ok middle =>
            rw [ok_bind, ok_bind]
            refine ih (locationsFrom_congr further fun location mem => ?_) restApart
            have kept := (onCellOf_ok step).2 location (firstApart location mem)
            exact congrArg next (congrArg Cell.raw64 kept)

theorem mapM_locationsFrom_cons {next : BitVec 64 → ℕ} {memory : Memory} {fuel start : ℕ}
    {starts : List ℕ} {chains : List (List ℕ)}
    (walked : (start :: starts).mapM (locationsFrom next memory fuel) = .ok chains) :
    ∃ chain rest, chains = chain :: rest ∧ locationsFrom next memory fuel start = .ok chain ∧
      starts.mapM (locationsFrom next memory fuel) = .ok rest := by
  rw [List.mapM_cons] at walked
  obtain ⟨chain, first, walked⟩ := bind_eq_ok walked
  obtain ⟨rest, others, walked⟩ := bind_eq_ok walked
  exact ⟨chain, rest, (Except.ok.inj walked).symm, first, others⟩

theorem mapM_locationsFrom_congr {next : BitVec 64 → ℕ} {memory memory' : Memory} {fuel : ℕ}
    {starts : List ℕ} {chains : List (List ℕ)}
    (walked : starts.mapM (locationsFrom next memory fuel) = .ok chains)
    (same : ∀ location ∈ chains.flatten, next (get64 memory' location) = next (get64 memory location)) :
    starts.mapM (locationsFrom next memory' fuel) = .ok chains := by
  induction starts generalizing chains with
  | nil => exact walked
  | cons start starts ih =>
      obtain ⟨chain, rest, rfl, first, others⟩ := mapM_locationsFrom_cons walked
      rw [List.flatten_cons] at same
      rw [List.mapM_cons, locationsFrom_congr first fun location mem =>
          same location (List.mem_append_left _ mem), ok_bind,
        ih others fun location mem => same location (List.mem_append_right _ mem)]
      rfl

theorem foldlM_walkChain_eq {next : BitVec 64 → ℕ} {fuel : ℕ} {starts : List ℕ}
    {chains : List (List ℕ)}
    (walked : starts.mapM (locationsFrom next state.memory fuel) = .ok chains)
    (apart : chains.flatten.Pairwise Apart) :
    starts.foldlM (walkChain next (onCell handler) fuel) state =
      chains.flatten.foldlM (onCell handler) state := by
  induction starts generalizing state chains with
  | nil =>
      obtain rfl := Except.ok.inj walked
      rfl
  | cons start starts ih =>
      obtain ⟨chain, rest, rfl, first, others⟩ := mapM_locationsFrom_cons walked
      rw [List.flatten_cons, List.pairwise_append] at apart
      obtain ⟨chainApart, restApart, across⟩ := apart
      rw [List.foldlM_cons, walkChain_eq first chainApart, List.flatten_cons, List.foldlM_append]
      cases step : chain.foldlM (onCell handler) state with
      | error failure => rfl
      | ok middle =>
          rw [ok_bind, ok_bind]
          have frame := (foldlM_onCellOf_ok chainApart step).2
          refine ih (mapM_locationsFrom_congr others fun location mem => ?_) restApart
          have kept := frame location fun earlier on => across earlier on location mem
          exact congrArg next (congrArg Cell.raw64 kept)

variable {image : Image}

theorem Image.locations_congr {memory memory' : Memory} (walked : image.locations memory = .ok locs)
    (same : ∀ location ∈ locs,
      image.format.next (get64 memory' location) = image.format.next (get64 memory location)) :
    image.locations memory' = .ok locs := by
  obtain ⟨starts, starts_eq, walked⟩ := bind_eq_ok walked
  obtain ⟨chains, chains_eq, walked⟩ := bind_eq_ok walked
  obtain rfl := Except.ok.inj walked
  rw [Image.locations, starts_eq, ok_bind, mapM_locationsFrom_congr chains_eq same, ok_bind]

theorem Image.forEach_eq (walked : image.locations state.memory = .ok locs)
    (apart : locs.Pairwise Apart) :
    image.forEachFixupInAllChains (onCell handler) state = locs.foldlM (onCell handler) state := by
  obtain ⟨starts, starts_eq, walked⟩ := bind_eq_ok walked
  obtain ⟨chains, chains_eq, walked⟩ := bind_eq_ok walked
  obtain rfl := Except.ok.inj walked
  rw [Image.forEachFixupInAllChains, starts_eq, ok_bind]
  exact foldlM_walkChain_eq chains_eq apart

end Run

end ObjcDyld.ChainedFixups
