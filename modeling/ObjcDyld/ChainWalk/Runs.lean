import ObjcDyld.ChainWalk.OneChain

/-!
# The walk over all chains

The nested loops of `forEachFixupInAllChains` are one loop over the chains of the image.  It hands
on what it should exactly if every chain that it reaches is as the code relies on.
-/

namespace ObjcDyld.ChainWalk

open ByteMemory ChainedFixups StoppableRuns

variable {σ : Type} {memory : σ → Memory} {handler : SegmentStarts → ℕ → σ → σ × Bool} {notifyNonPointers : Bool}

/-- One round over the chains: for the only chain of a page the stop is not looked at. -/
def walkOne (memory : σ → Memory) (handler : SegmentStarts → ℕ → σ → σ × Bool) (notifyNonPointers : Bool) (fuel : ℕ)
    (chain : Chain) (state : σ) : Option (Outcome σ (List ℕ)) :=
  (walkChain chain.segInfo memory handler notifyNonPointers fuel chain.start state).map fun walked =>
    ⟨walked.state, [walked.calls], walked.stopped && !chain.single⟩

/-! ## One loop -/

section Flattening

variable {segInfo : SegmentStarts} {fuel : ℕ}

theorem walkStarts_eq {start segmentEnd last : ℕ} (lastFlag : flagged (segInfo.pageStart last) = true) (rounds more index : ℕ)
    (state : σ) (before : index ≤ last) (enough : last < index + rounds) (enough' : last < index + more) :
    walkStarts segInfo memory handler notifyNonPointers fuel start rounds index state =
      untilStopped (walkOne memory handler notifyNonPointers fuel)
        ((listedStarts segInfo more index).map fun offset => ⟨segInfo, false, start + offset, segmentEnd⟩) state := by
  induction rounds generalizing more index state with
  | zero => omega
  | succ rounds ih =>
      obtain ⟨more, rfl⟩ : ∃ fewer, more = fewer + 1 := ⟨more - 1, by omega⟩
      rw [walkStarts, listedStarts]
      cases flag : flagged (segInfo.pageStart index) with
      | true =>
          simp only [Bool.or_true, if_true, List.map_cons, List.map_nil, untilStopped, walkOne, Bool.not_false,
            Bool.and_true]
          cases walkChain segInfo memory handler notifyNonPointers fuel
              (start + unflagged (segInfo.pageStart index)) state with
          | none => rfl
          | some walked =>
              obtain ⟨walkedState, calls, stopped⟩ := walked
              cases stopped <;> rfl
      | false =>
          have next : index ≠ last := by
            rintro rfl
            rw [flag] at lastFlag
            cases lastFlag
          simp only [Bool.or_false, Bool.false_eq_true, if_false, List.map_cons, untilStopped, walkOne, Bool.not_false,
            Bool.and_true]
          cases walkChain segInfo memory handler notifyNonPointers fuel
              (start + unflagged (segInfo.pageStart index)) state with
          | none => rfl
          | some walked =>
              obtain ⟨walkedState, calls, stopped⟩ := walked
              cases stopped with
              | true => rfl
              | false =>
                  simp only [Option.bind_some, Option.map_some, Bool.false_eq_true, if_false]
                  rw [ih more (index + 1) walkedState (by omega) (by omega) (by omega)]

theorem walkPage_eq {this pageIndex : ℕ} (ends : segInfo.MultipleStarts pageIndex → ListEnds segInfo pageIndex)
    (enough : segInfo.size ≤ fuel) (state : σ) :
    walkPage segInfo memory handler notifyNonPointers this fuel pageIndex state =
      untilStopped (walkOne memory handler notifyNonPointers fuel) (pageChains segInfo this pageIndex) state := by
  rw [walkPage, pageChains]
  dsimp only
  by_cases none : segInfo.pageStart pageIndex = startNone
  · rw [if_pos none, if_pos none]
    rfl
  rw [if_neg none, if_neg none]
  cases flag : flagged (segInfo.pageStart pageIndex) with
  | true =>
      obtain ⟨last, after, inside, lastFlag⟩ := ends ⟨none, flag⟩
      rw [if_pos rfl, if_pos rfl]
      exact walkStarts_eq lastFlag fuel segInfo.size _ state after (by omega) (by omega)
  | false =>
      rw [if_neg Bool.false_ne_true, if_neg Bool.false_ne_true, untilStopped, walkOne]
      simp only [Bool.not_true, Bool.and_false]
      cases walkChain segInfo memory handler notifyNonPointers fuel _ state <;> rfl

def ListsEnd (starts : StartsInImage) : Prop :=
  ∀ segIndex < starts.segCount, starts.segInfoOffset segIndex ≠ 0 → ∀ pageIndex < (starts.segInfo segIndex).pageCount,
    (starts.segInfo segIndex).MultipleStarts pageIndex → ListEnds (starts.segInfo segIndex) pageIndex

theorem forEachFixupInAllChains_eq {starts : StartsInImage} (ends : ListsEnd starts) (this : ℕ)
    (enough : ∀ segIndex < starts.segCount, (starts.segInfo segIndex).size ≤ fuel) (state : σ) :
    forEachFixupInAllChains memory handler notifyNonPointers starts this fuel state =
      (untilStopped (walkOne memory handler notifyNonPointers fuel) (imageChains starts this) state).map
        Outcome.result := by
  rw [forEachFixupInAllChains, imageChains, untilStopped_flatMap (List.range starts.segCount)]
  intro segIndex inside state
  have less := List.mem_range.mp inside
  rw [walkSegment, segmentChains]
  by_cases noFixups : starts.segInfoOffset segIndex = 0
  · rw [if_pos noFixups, if_pos noFixups]
    rfl
  · rw [if_neg noFixups, if_neg noFixups]
    exact untilStopped_flatMap _ (fun pageIndex inside state =>
      walkPage_eq (ends segIndex less noFixups pageIndex (List.mem_range.mp inside)) (enough segIndex less) state) state

end Flattening

/-! ## The loop over the chains -/

section Chains

variable {original : Memory}

theorem runUntil_visit_keeps {segInfo segInfo' : SegmentStarts} {locations : List ℕ} {other : ℕ}
    (keeps : ∀ location ∈ locations, ∀ state,
      contentAt segInfo' (memory (handler segInfo location state).1) other = contentAt segInfo' (memory state) other)
    (state : σ) :
    contentAt segInfo' (memory (runUntil (visit handler segInfo) locations state).state) other =
      contentAt segInfo' (memory state) other := by
  induction locations generalizing state with
  | nil => rfl
  | cons location locations ih =>
      rw [List.forall_mem_cons] at keeps
      cases stop : (visit handler segInfo location state).stopped with
      | true =>
          rw [runUntil_cons_of_stopped stop]
          exact keeps.1 state
      | false =>
          rw [runUntil_cons stop, Outcome.after_state, ih keeps.2]
          exact keeps.1 state

/-- A chain of a supported format whose links stay inside its segment. -/
def WellFormed (original : Memory) (chain : Chain) : Prop :=
  chain.segInfo.pointerFormat ∈ supportedFormats ∧ chain.LinksInside original

/-- The contents of a chain's locations are still the original ones. -/
def Intact (memory : σ → Memory) (original : Memory) (state : σ) (chain : Chain) : Prop :=
  ∀ location ∈ chain.locations original,
    contentAt chain.segInfo (memory state) location = contentAt chain.segInfo original location

theorem obeys_iff {chain : Chain} {state : σ} {isLast : Prop} (inside : chain.LinksInside original) :
    Obeys handler notifyNonPointers original chain state isLast ↔
      ChainObeys handler notifyNonPointers chain.segInfo original (chain.locations original) state ∧
        ((visitChain handler notifyNonPointers original chain state).stopped = true → chain.single = true → isLast) := by
  obtain ⟨rest, whole, -⟩ := Chain.locations_isChain inside
  constructor
  · rintro ⟨starts, ends, links, stops⟩
    refine ⟨⟨fun first head => ?_, ends, links⟩, stops⟩
    rw [whole] at head
    obtain rfl := Option.some.inj head
    exact starts
  · rintro ⟨⟨starts, ends, links⟩, stops⟩
    exact ⟨starts chain.start (by rw [whole]; rfl), ends, links, stops⟩

theorem walkOne_agrees {chain : Chain} {state : σ} {fuel : ℕ} (wellFormed : WellFormed original chain)
    (keeps : KeepsWithin memory handler chain.segInfo (chain.locations original))
    (intact : Intact memory original state chain) (enough : (chain.locations original).length < fuel) :
    (ChainObeys handler notifyNonPointers chain.segInfo original (chain.locations original) state →
      walkChain chain.segInfo memory handler notifyNonPointers fuel chain.start state =
        some (expectedRun handler notifyNonPointers chain.segInfo original (chain.locations original) state)) ∧
      ∀ walked, walkChain chain.segInfo memory handler notifyNonPointers fuel chain.start state = some walked →
        walked.calls =
          (expectedRun handler notifyNonPointers chain.segInfo original (chain.locations original) state).calls →
        ChainObeys handler notifyNonPointers chain.segInfo original (chain.locations original) state := by
  obtain ⟨rest, whole, isChain⟩ := Chain.locations_isChain wellFormed.2
  rw [Intact, whole] at intact
  rw [whole] at keeps enough ⊢
  have agrees : Agrees memory handler notifyNonPointers chain.segInfo original chain.start rest state :=
    walkChain_agrees wellFormed.1 isChain keeps intact
  exact ⟨fun obeys => agrees.walks obeys fuel enough, agrees.obeys fuel⟩

theorem calls_ne_nil {fuel : ℕ} {chain : Chain} {chains : List Chain} {state : σ} {outcome : Outcome σ (List ℕ)}
    (walks : untilStopped (walkOne memory handler notifyNonPointers fuel) (chain :: chains) state = some outcome) :
    outcome.calls ≠ [] := by
  rw [untilStopped] at walks
  obtain ⟨round, walked, walks⟩ := Option.bind_eq_some_iff.mp walks
  obtain ⟨outcome', -, rfl⟩ := Option.map_eq_some_iff.mp walked
  split at walks
  · obtain rfl := Option.some.inj walks
    exact List.cons_ne_nil _ _
  · obtain ⟨rest, -, rfl⟩ := Option.map_eq_some_iff.mp walks
    exact List.cons_ne_nil _ _

theorem visitChain_result (chain : Chain) (state : σ) :
    visitChain handler notifyNonPointers original chain state =
      let run := expectedRun handler notifyNonPointers chain.segInfo original (chain.locations original) state
      ⟨run.state, [run.calls], run.stopped⟩ := rfl

theorem result_ne_of_not_obeys {chain : Chain} {chains : List Chain} {state : σ} {fuel : ℕ}
    (wellFormed : WellFormed original chain)
    (keeps : KeepsWithin memory handler chain.segInfo (chain.locations original))
    (intact : Intact memory original state chain) (enough : (chain.locations original).length < fuel)
    (disobeys : ¬ChainObeys handler notifyNonPointers chain.segInfo original (chain.locations original) state) :
    (untilStopped (walkOne memory handler notifyNonPointers fuel) (chain :: chains) state).map Outcome.result ≠
      some (visitChains handler notifyNonPointers original (chain :: chains) state).result := by
  intro same
  obtain ⟨outcome, walks, same⟩ := Option.map_eq_some_iff.mp same
  have sameCalls := congrArg Prod.snd same
  simp only [Outcome.result] at sameCalls
  rw [untilStopped] at walks
  obtain ⟨round, walked, walks⟩ := Option.bind_eq_some_iff.mp walks
  obtain ⟨outcome', walkedOne, rfl⟩ := Option.map_eq_some_iff.mp walked
  refine disobeys ((walkOne_agrees wellFormed keeps intact enough).2 outcome' walkedOne ?_)
  have first : ∃ rest, outcome.calls = outcome'.calls :: rest := by
    split at walks
    · obtain rfl := Option.some.inj walks
      exact ⟨[], rfl⟩
    · obtain ⟨rest, -, rfl⟩ := Option.map_eq_some_iff.mp walks
      exact ⟨rest.calls, rfl⟩
  obtain ⟨rest, first⟩ := first
  rw [first, visitChains] at sameCalls
  cases stop : (visitChain handler notifyNonPointers original chain state).stopped with
  | true =>
      rw [runUntil_cons_of_stopped stop] at sameCalls
      exact (List.cons.inj sameCalls).1
  | false =>
      rw [runUntil_cons stop] at sameCalls
      exact (List.cons.inj sameCalls).1

theorem walkChains_iff {chains : List Chain} {fuel : ℕ} (wellFormed : ∀ chain ∈ chains, WellFormed original chain)
    (keeps : Keeps memory handler original chains)
    (enough : ∀ chain ∈ chains, (chain.locations original).length < fuel) {state : σ}
    (intact : ∀ chain ∈ chains, Intact memory original state chain) :
    (untilStopped (walkOne memory handler notifyNonPointers fuel) chains state).map Outcome.result =
        some (visitChains handler notifyNonPointers original chains state).result ↔
      AllObey handler notifyNonPointers original chains state := by
  induction chains generalizing state with
  | nil => exact iff_of_true rfl trivial
  | cons chain chains ih =>
      obtain ⟨within, across⟩ := keeps
      rw [List.forall_mem_cons] at wellFormed enough intact within
      rw [List.pairwise_cons] at across
      rw [AllObey, obeys_iff wellFormed.1.2]
      by_cases obeys : ChainObeys handler notifyNonPointers chain.segInfo original (chain.locations original) state
      case neg =>
        exact iff_of_false (result_ne_of_not_obeys wellFormed.1 within.1 intact.1 enough.1 obeys)
          fun all => obeys all.1.1
      generalize ran : expectedRun handler notifyNonPointers chain.segInfo original (chain.locations original) state = run
      have walked := (walkOne_agrees wellFormed.1 within.1 intact.1 enough.1).1 obeys
      have visited : visitChain handler notifyNonPointers original chain state = ⟨run.state, [run.calls], run.stopped⟩ := by
        rw [visitChain_result, ran]
      have later : ∀ later ∈ chains, Intact memory original run.state later := by
        intro other member location linked
        rw [← ran, expectedRun, runUntil_visit_keeps fun first among state =>
          across.1 other member first (List.mem_filter.mp among).1 location linked state]
        exact intact.2 other member location linked
      have rest := ih wellFormed.2 ⟨within.2, across.2⟩ enough.2 later
      rw [visitChains, runUntil, untilStopped, walkOne, walked, ran, visited]
      simp only [Option.map_some, Option.bind_some, and_iff_right obeys]
      cases stop : run.stopped with
      | false =>
          simp only [Bool.false_and, Bool.false_eq_true, if_false, false_implies, true_and, forall_const, ← rest]
          cases untilStopped (walkOne memory handler notifyNonPointers fuel) chains run.state with
          | none => exact iff_of_false (Option.some_ne_none _).symm (Option.some_ne_none _).symm
          | some outcome =>
              simp only [Option.map_some, Option.some.injEq, Outcome.result, Outcome.after_state, Outcome.after_calls,
                Prod.mk.injEq, List.append_cancel_left_eq]
              rfl
      | true =>
          simp only [Bool.true_and, if_true, true_implies, Bool.true_eq_false, false_implies, and_true]
          cases single : chain.single with
          | false => exact iff_of_true rfl fun same => absurd same Bool.false_ne_true
          | true =>
              simp only [Bool.not_true, Bool.false_eq_true, if_false, forall_const]
              cases chains with
              | nil => exact iff_of_true rfl rfl
              | cons next chains =>
                  -- The walk goes on to the next chain, although it was stopped.
                  refine iff_of_false (fun same => ?_) (List.cons_ne_nil _ _)
                  obtain ⟨outcome, walks, same⟩ := Option.map_eq_some_iff.mp same
                  obtain ⟨others, goes, rfl⟩ := Option.map_eq_some_iff.mp walks
                  have calls := congrArg Prod.snd same
                  simp only [Outcome.result, Outcome.after_calls, List.singleton_append, List.cons.injEq, true_and] at calls
                  exact calls_ne_nil goes calls

end Chains

/-! ## All chains of an image -/

/--
The walk ends, and it has handed on exactly the locations that it should, each of them once, in
order and up to the first stop, if and only if every chain that it reaches obeys and no location is
reached twice.
-/
theorem forEachFixupInAllChains_iff (memory : σ → Memory) (handler : SegmentStarts → ℕ → σ → σ × Bool)
    (notifyNonPointers : Bool) (starts : StartsInImage) (this : ℕ) (state : σ) (ends : ListsEnd starts)
    (wellFormed : ∀ chain ∈ imageChains starts this, WellFormed (memory state) chain)
    (keeps : Keeps memory handler (memory state) (imageChains starts this)) :
    let expected := visitChains handler notifyNonPointers (memory state) (imageChains starts this) state
    ((∃ bound, ∀ fuel, bound ≤ fuel → forEachFixupInAllChains memory handler notifyNonPointers starts this fuel state =
        some expected.result) ∧ expected.calls.flatten.Nodup) ↔
      AllObey handler notifyNonPointers (memory state) (imageChains starts this) state ∧
        expected.calls.flatten.Nodup := by
  intro expected
  refine and_congr_left fun _ => ?_
  obtain ⟨sizes, size_le⟩ : ∃ bound, ∀ segIndex < starts.segCount, (starts.segInfo segIndex).size ≤ bound :=
    ⟨((List.range starts.segCount).map fun segIndex => (starts.segInfo segIndex).size).sum, fun segIndex less =>
      List.le_sum_of_mem (List.mem_map.mpr ⟨segIndex, List.mem_range.mpr less, rfl⟩)⟩
  obtain ⟨lengths, length_le⟩ : ∃ bound, ∀ chain ∈ imageChains starts this,
      (chain.locations (memory state)).length ≤ bound :=
    ⟨((imageChains starts this).map fun chain => (chain.locations (memory state)).length).sum, fun chain member =>
      List.le_sum_of_mem (List.mem_map.mpr ⟨chain, member, rfl⟩)⟩
  have intact : ∀ chain ∈ imageChains starts this, Intact memory (memory state) state chain :=
    fun _ _ _ _ => rfl
  have large : ∀ fuel, sizes + lengths + 1 ≤ fuel →
      (forEachFixupInAllChains memory handler notifyNonPointers starts this fuel state = some expected.result ↔
        AllObey handler notifyNonPointers (memory state) (imageChains starts this) state) := by
    intro fuel enough
    rw [forEachFixupInAllChains_eq ends this (fun segIndex less => (size_le segIndex less).trans (by omega))]
    exact walkChains_iff wellFormed keeps (fun chain member => (length_le chain member).trans_lt (by omega)) intact
  constructor
  · rintro ⟨bound, walks⟩
    exact (large (bound + (sizes + lengths + 1)) (by omega)).mp (walks _ (by omega))
  · exact fun obey => ⟨sizes + lengths + 1, fun fuel enough => (large fuel enough).mpr obey⟩

/-- The bytes of a location. -/
def width (segInfo : SegmentStarts) : ℕ := if segInfo.pointerFormat = DYLD_CHAINED_PTR_32 then 4 else 8

theorem contentAt_congr {segInfo : SegmentStarts} {location : ℕ} {first second : Memory}
    (same : ∀ k, location ≤ k → k < location + width segInfo → first k = second k) :
    contentAt segInfo first location = contentAt segInfo second location := by
  unfold contentAt
  unfold width at same
  split
  · next format =>
      rw [if_pos format] at same
      rw [get32_congr same]
  · next format =>
      rw [if_neg format] at same
      exact get64_congr same

theorem keeps_of_apart {original : Memory} {chains : List Chain}
    (writes : ∀ segInfo location state k, k < location ∨ location + width segInfo ≤ k →
      memory (handler segInfo location state).1 k = memory state k)
    (within : ∀ chain ∈ chains, ∀ location ∈ chain.locations original, ∀ other ∈ chain.locations original,
      other ≠ location → location + width chain.segInfo ≤ other ∨ other + width chain.segInfo ≤ location)
    (across : chains.Pairwise fun chain later => ∀ location ∈ chain.locations original,
      ∀ other ∈ later.locations original, location + width chain.segInfo ≤ other ∨ other + width later.segInfo ≤ location) :
    Keeps memory handler original chains := by
  refine ⟨fun chain member location linked other linked' differ state => ?_, across.imp fun apart location linked other
    linked' state => ?_⟩
  · have apart := within chain member location linked other linked' differ
    exact contentAt_congr fun k low high => writes _ _ _ _ (by omega)
  · have apart := apart location linked other linked'
    exact contentAt_congr fun k low high => writes _ _ _ _ (by omega)

/-! ## Two pages -/

/-- The bytes of a list, and zeros. -/
def bytes (list : List ℕ) : Memory := fun address => BitVec.ofNat 8 (list.getD address 0)

/-- One segment of two pages in the format `DYLD_CHAINED_PTR_64`, with a chain at the start of each. -/
def twoPages : StartsInImage :=
  ⟨bytes [1, 0, 0, 0, 8, 0, 0, 0,
    26, 0, 0, 0, 0, 0x10, 2, 0, 0, 0, 0, 0, 0, 0, 0, 0, 0, 0, 0, 0, 2, 0, 0, 0, 0, 0], 0⟩

def firstPage : Chain := ⟨⟨twoPages.memory, 8⟩, true, 0, 0x2000⟩

def secondPage : Chain := ⟨⟨twoPages.memory, 8⟩, true, 0x1000, 0x2000⟩

theorem twoPages_chains : imageChains twoPages 0 = [firstPage, secondPage] := rfl

theorem twoPages_listsEnd : ListsEnd twoPages := by
  intro segIndex less _ pageIndex inside multiple
  obtain rfl : segIndex = 0 := Nat.lt_one_iff.mp less
  have single : ∀ pageIndex < 2, flagged ((twoPages.segInfo 0).pageStart pageIndex) = false := by decide
  have flag := multiple.2
  rw [single pageIndex inside] at flag
  cases flag

theorem contentAt_zeros (segInfo : SegmentStarts) (location : ℕ) : contentAt segInfo (fun _ => 0) location = 0 := by
  have zeros : ∀ count address, load (fun _ => 0) address count = 0 := by
    intro count
    induction count with
    | zero => exact fun _ => rfl
    | succ count ih =>
        intro address
        rw [load, ih]
        rfl
  unfold contentAt get32 get64
  rw [zeros, zeros]
  split <;> rfl

theorem formatLink_zero (segInfo : SegmentStarts) : formatLink segInfo 0 = 0 := by
  unfold formatLink
  dsimp only
  split
  · rfl
  · split
    · rfl
    · split <;> rfl

theorem zeros_wellFormed {chain : Chain} (supported : chain.segInfo.pointerFormat ∈ supportedFormats)
    (inside : chain.start < chain.segmentEnd) : WellFormed (fun _ => 0) chain := by
  refine ⟨supported, fun location linked => ?_⟩
  suffices location = chain.start by rwa [this]
  induction linked with
  | start => rfl
  | link _ ih => rw [contentAt_zeros, formatLink_zero, Nat.add_zero, ih]

theorem twoPages_wellFormed : ∀ chain ∈ imageChains twoPages 0, WellFormed (fun _ => 0) chain := by
  rw [twoPages_chains, List.forall_mem_cons, List.forall_mem_singleton]
  exact ⟨zeros_wellFormed (by decide) (by decide), zeros_wellFormed (by decide) (by decide)⟩

/-- A handler that overwrites every location and does not stop. -/
def overwrite (segInfo : SegmentStarts) (location : ℕ) (state : Memory) : Memory × Bool :=
  (store state location (width segInfo) 5, false)

theorem twoPages_keeps : Keeps id overwrite (fun _ => 0) (imageChains twoPages 0) := by
  have first : firstPage.locations (fun _ => 0) = [0] := rfl
  have second : secondPage.locations (fun _ => 0) = [0x1000] := rfl
  refine keeps_of_apart (fun _ _ _ _ away => store_other _ away) ?_ ?_
  · rw [twoPages_chains, List.forall_mem_cons, List.forall_mem_singleton, first, second]
    simp
  · rw [twoPages_chains, List.pairwise_pair, first, second]
    simp only [List.forall_mem_singleton]
    exact Or.inl (by decide)

theorem forEachFixupInAllChains_twoPages :
    let expected := visitChains overwrite false (fun _ => 0) (imageChains twoPages 0) (fun _ => 0)
    (∃ bound, ∀ fuel, bound ≤ fuel → forEachFixupInAllChains id overwrite false twoPages 0 fuel (fun _ => 0) =
      some expected.result) ∧ expected.calls.flatten.Nodup := by
  have format : ∀ {chain}, chain = firstPage ∨ chain = secondPage →
      chain.segInfo.pointerFormat = DYLD_CHAINED_PTR_64 := by
    rintro chain (rfl | rfl) <;> rfl
  have obeys : ∀ chain, chain = firstPage ∨ chain = secondPage → ∀ state isLast,
      Obeys overwrite false (fun _ => 0) chain state isLast := by
    intro chain among state isLast
    have all : ¬(chain.segInfo.pointerFormat = DYLD_CHAINED_PTR_32 ∧ false = false) := by
      rw [format among]
      decide
    refine ⟨handsOn_of_not_skips _ all, fun _ last _ => handsOn_of_not_skips last all, fun offset => ?_, fun stop => ?_⟩
    · rw [format among] at offset
      exact absurd offset (by decide)
    · have goes_on : ∀ (locations : List ℕ) (state : Memory),
          (runUntil (visit overwrite chain.segInfo) locations state).stopped = false := by
        intro locations
        induction locations with
        | nil => exact fun _ => rfl
        | cons location locations ih => exact fun state => ih _
      rw [visitChain, goes_on] at stop
      cases stop
  refine (forEachFixupInAllChains_iff id overwrite false twoPages 0 (fun _ => 0) twoPages_listsEnd twoPages_wellFormed
    twoPages_keeps).mpr ⟨?_, ?_⟩
  · rw [twoPages_chains]
    exact ⟨obeys _ (Or.inl rfl) _ _, fun _ => ⟨obeys _ (Or.inr rfl) _ _, fun _ => trivial⟩⟩
  · have calls : (visitChains overwrite false (fun _ => 0) (imageChains twoPages 0) (fun _ => 0)).calls = [[0], [0x1000]] :=
      rfl
    rw [id, calls]
    decide

/-- A handler that counts its calls and stops the walk at the first one. -/
def stopAtOnce : SegmentStarts → ℕ → ℕ → ℕ × Bool := fun _ _ count => (count + 1, true)

/-- After a stop in the first page the handler is called for the second one. -/
theorem not_stopped_at_first_page :
    ListsEnd twoPages ∧ (∀ chain ∈ imageChains twoPages 0, WellFormed (fun _ => 0) chain) ∧
      Keeps (fun _ : ℕ => fun _ => 0) stopAtOnce (fun _ => 0) (imageChains twoPages 0) ∧
      visitChains stopAtOnce false (fun _ => 0) (imageChains twoPages 0) 0 = ⟨1, [[0]], true⟩ ∧
      ∀ fuel, forEachFixupInAllChains (fun _ : ℕ => fun _ => 0) stopAtOnce false twoPages 0 (fuel + 1) 0 =
        some (2, [[0], [0x1000]]) :=
  ⟨twoPages_listsEnd, twoPages_wellFormed, ⟨fun _ _ _ _ _ _ _ _ => rfl, List.pairwise_of_forall fun _ _ _ _ _ _ _ => rfl⟩,
    rfl, fun _ => rfl⟩

end ObjcDyld.ChainWalk
