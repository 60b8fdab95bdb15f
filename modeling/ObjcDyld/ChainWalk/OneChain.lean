import ObjcDyld.ChainWalk.Links

/-!
# The walk along one chain

`walkChain` hands on the locations of a chain that are to be seen exactly if the chain neither
starts nor, where the walk gets there, ends with a non-pointer, and no bind bit is taken for a part
of a link.
-/

namespace ObjcDyld.ChainWalk

open ByteMemory ChainedFixups StoppableRuns

variable {σ : Type} {memory : σ → Memory} {handler : SegmentStarts → ℕ → σ → σ × Bool} {notifyNonPointers : Bool}
  {segInfo : SegmentStarts} {original : Memory}

/-- The calls that should be made for a list of locations. -/
def expectedRun (handler : SegmentStarts → ℕ → σ → σ × Bool) (notifyNonPointers : Bool) (segInfo : SegmentStarts)
    (original : Memory) (locations : List ℕ) (state : σ) : Outcome σ ℕ :=
  runUntil (visit handler segInfo) (locations.filter (handsOn segInfo notifyNonPointers original)) state

/-- What `walkChain` relies on for a chain. -/
structure ChainObeys (handler : SegmentStarts → ℕ → σ → σ × Bool) (notifyNonPointers : Bool) (segInfo : SegmentStarts)
    (original : Memory) (locations : List ℕ) (state : σ) : Prop where
  starts : ∀ first ∈ locations.head?, handsOn segInfo notifyNonPointers original first = true
  ends : (expectedRun handler notifyNonPointers segInfo original locations state).stopped = false →
    ∀ last ∈ locations.getLast?, handsOn segInfo notifyNonPointers original last = true
  links : segInfo.pointerFormat = DYLD_CHAINED_PTR_ARM64E_OFFSET →
    NoBindFollowed handler segInfo original locations state

/-- A call changes no other location of the list. -/
def KeepsWithin (memory : σ → Memory) (handler : SegmentStarts → ℕ → σ → σ × Bool) (segInfo : SegmentStarts)
    (locations : List ℕ) : Prop :=
  ∀ location ∈ locations, ∀ other ∈ locations, other ≠ location → ∀ state,
    contentAt segInfo (memory (handler segInfo location state).1) other = contentAt segInfo (memory state) other

theorem walkChain_head {fuel location : ℕ} {state : σ} {walked : Outcome σ ℕ}
    (walks : walkChain segInfo memory handler notifyNonPointers fuel location state = some walked) :
    ∃ rest, walked.calls = location :: rest := by
  cases fuel with
  | zero => cases walks
  | succ fuel =>
      rw [walkChain] at walks
      split at walks
      · obtain rfl := Option.some.inj walks
        exact ⟨[], rfl⟩
      · split at walks
        · obtain rfl := Option.some.inj walks
          exact ⟨[], rfl⟩
        · obtain rfl := Option.some.inj walks
          exact ⟨[], rfl⟩
        · obtain ⟨next, -, further⟩ := Option.bind_eq_some_iff.mp walks
          obtain ⟨rest, -, rfl⟩ := Option.map_eq_some_iff.mp further
          exact ⟨rest.calls, rfl⟩

theorem mem_of_mem_runUntil_visit {locations : List ℕ} {state : σ} {location : ℕ}
    (member : location ∈ (runUntil (visit handler segInfo) locations state).calls) : location ∈ locations := by
  induction locations generalizing state with
  | nil => exact absurd member List.not_mem_nil
  | cons first locations ih =>
      cases stop : (visit handler segInfo first state).stopped with
      | true =>
          rw [runUntil_cons_of_stopped stop] at member
          obtain rfl := List.mem_singleton.mp member
          exact List.mem_cons_self
      | false =>
          rw [runUntil_cons stop] at member
          rcases List.mem_append.mp member with here | later
          · obtain rfl := List.mem_singleton.mp here
            exact List.mem_cons_self
          · exact List.mem_cons_of_mem _ (ih later)

theorem runUntil_visit_head (location : ℕ) (locations : List ℕ) (state : σ) :
    ∃ rest, (runUntil (visit handler segInfo) (location :: locations) state).calls = location :: rest := by
  cases stop : (visit handler segInfo location state).stopped with
  | true => exact ⟨[], by rw [runUntil_cons_of_stopped stop]; rfl⟩
  | false => exact ⟨_, by rw [runUntil_cons stop]; rfl⟩

theorem handsOn_of_calls {location : ℕ} {rest : List ℕ} {state : σ}
    (called : ∃ later, (expectedRun handler notifyNonPointers segInfo original (location :: rest) state).calls =
      location :: later) : handsOn segInfo notifyNonPointers original location = true := by
  obtain ⟨later, calls⟩ := called
  have member : location ∈ (expectedRun handler notifyNonPointers segInfo original (location :: rest) state).calls := by
    rw [calls]
    exact List.mem_cons_self
  exact (List.mem_filter.mp (mem_of_mem_runUntil_visit member)).2

section FirstCall

variable {location : ℕ} {rest : List ℕ} {state : σ}

theorem expectedRun_of_stop (handed : handsOn segInfo notifyNonPointers original location = true)
    (stop : (handler segInfo location state).2 = true) :
    expectedRun handler notifyNonPointers segInfo original (location :: rest) state =
      ⟨(handler segInfo location state).1, [location], true⟩ := by
  rw [expectedRun, List.filter_cons_of_pos handed, runUntil_cons_of_stopped stop, visit, stop]

theorem expectedRun_cons (handed : handsOn segInfo notifyNonPointers original location = true)
    (goes_on : (handler segInfo location state).2 = false) :
    expectedRun handler notifyNonPointers segInfo original (location :: rest) state =
      (expectedRun handler notifyNonPointers segInfo original rest (handler segInfo location state).1).after
        [location] := by
  rw [expectedRun, List.filter_cons_of_pos handed, runUntil_cons goes_on]
  rfl

theorem expectedRun_append {skipped locations : List ℕ}
    (passed : ∀ other ∈ skipped, handsOn segInfo notifyNonPointers original other = false) :
    expectedRun handler notifyNonPointers segInfo original (skipped ++ locations) state =
      expectedRun handler notifyNonPointers segInfo original locations state := by
  have none : skipped.filter (handsOn segInfo notifyNonPointers original) = [] :=
    List.filter_eq_nil_iff.mpr fun other member => by simp [passed other member]
  rw [expectedRun, expectedRun, List.filter_append, none, List.nil_append]

theorem walkChain_of_stop (stop : (handler segInfo location state).2 = true) (fuel : ℕ) :
    walkChain segInfo memory handler notifyNonPointers (fuel + 1) location state =
      some ⟨(handler segInfo location state).1, [location], true⟩ := by
  rw [walkChain]
  simp only [stop, if_true]

theorem walkChain_of_link {distance : ℕ} (goes_on : (handler segInfo location state).2 = false)
    (link : readLink segInfo (contentAt segInfo (memory state) location) = some distance) (fuel : ℕ) :
    walkChain segInfo memory handler notifyNonPointers (fuel + 1) location state =
      if distance = 0 then some ⟨(handler segInfo location state).1, [location], false⟩
      else
        (advance segInfo notifyNonPointers (memory (handler segInfo location state).1) fuel (location + distance)).bind
          fun next => (walkChain segInfo memory handler notifyNonPointers fuel next
            (handler segInfo location state).1).map (Outcome.after [location]) := by
  rw [walkChain]
  simp only [goes_on, Bool.false_eq_true, if_false, link]
  cases distance with
  | zero => rfl
  | succ distance => rfl

end FirstCall

/-- The walk agrees with the expected one, in one direction for a chain that obeys, and in the other
for every walk that ends with the expected calls. -/
structure Agrees (memory : σ → Memory) (handler : SegmentStarts → ℕ → σ → σ × Bool) (notifyNonPointers : Bool)
    (segInfo : SegmentStarts) (original : Memory) (location : ℕ) (rest : List ℕ) (state : σ) : Prop where
  walks : ChainObeys handler notifyNonPointers segInfo original (location :: rest) state → ∀ fuel,
    (location :: rest).length < fuel → walkChain segInfo memory handler notifyNonPointers fuel location state =
      some (expectedRun handler notifyNonPointers segInfo original (location :: rest) state)
  obeys : ∀ fuel walked, walkChain segInfo memory handler notifyNonPointers fuel location state = some walked →
    walked.calls = (expectedRun handler notifyNonPointers segInfo original (location :: rest) state).calls →
      ChainObeys handler notifyNonPointers segInfo original (location :: rest) state

section Cases

variable {location : ℕ} {rest : List ℕ} {state : σ}

theorem agrees_of_stop (stop : (handler segInfo location state).2 = true) :
    Agrees memory handler notifyNonPointers segInfo original location rest state := by
  refine ⟨fun obeys fuel enough => ?_, fun fuel walked walks same => ?_⟩
  · obtain ⟨fuel, rfl⟩ := Nat.exists_eq_add_of_lt enough
    rw [expectedRun_of_stop (obeys.starts location rfl) stop]
    exact walkChain_of_stop stop _
  · obtain ⟨later, calls⟩ := walkChain_head walks
    have handed := handsOn_of_calls ⟨later, same ▸ calls⟩
    refine ⟨fun first head => ?_, fun goes_on => ?_, fun _ goes_on => ?_⟩
    · obtain rfl := Option.some.inj head
      exact handed
    · rw [expectedRun_of_stop handed stop] at goes_on
      cases goes_on
    · rw [stop] at goes_on
      cases goes_on

theorem agrees_of_bind (chain : IsChain segInfo original (location :: rest))
    (intact : contentAt segInfo (memory state) location = contentAt segInfo original location)
    (goes_on : (handler segInfo location state).2 = false)
    (format : segInfo.pointerFormat = DYLD_CHAINED_PTR_ARM64E_OFFSET)
    (bind : (Arm64eRebase.view (contentAt segInfo original location)).bind ≠ 0) :
    Agrees memory handler notifyNonPointers segInfo original location rest state := by
  have all : ¬(segInfo.pointerFormat = DYLD_CHAINED_PTR_32 ∧ notifyNonPointers = false) := by
    rw [format]
    exact fun same => absurd same.1 (by decide)
  refine ⟨fun obeys fuel _ => absurd (obeys.links format goes_on).1 bind, fun fuel walked walks same => ?_⟩
  exfalso
  cases fuel with
  | zero => cases walks
  | succ fuel =>
      have link := readLink_of_bind format bind
      rw [← intact] at link
      rw [walkChain_of_link goes_on link, if_neg (by omega), advance, if_neg all, Option.bind_some] at walks
      obtain ⟨further, astray, rfl⟩ := Option.map_eq_some_iff.mp walks
      obtain ⟨later, calls⟩ := walkChain_head astray
      rw [expectedRun_cons (handsOn_of_not_skips _ all) goes_on, Outcome.after_calls, Outcome.after_calls, calls,
        List.append_cancel_left_eq, expectedRun] at same
      rcases chain.tail with ⟨rfl, -⟩ | ⟨more, rfl, -, -⟩
      · cases same
      · rw [List.filter_cons_of_pos (handsOn_of_not_skips _ all)] at same
        obtain ⟨others, head⟩ : ∃ others, (runUntil (visit handler segInfo)
            ((location + formatLink segInfo (contentAt segInfo original location)) ::
              more.filter (handsOn segInfo notifyNonPointers original)) (handler segInfo location state).1).calls =
                (location + formatLink segInfo (contentAt segInfo original location)) :: others :=
          runUntil_visit_head _ _ _
        rw [head, intact] at same
        have equal := (List.cons.inj same).1
        omega

theorem agrees_of_last (supported : segInfo.pointerFormat ∈ supportedFormats)
    (intact : contentAt segInfo (memory state) location = contentAt segInfo original location)
    (goes_on : (handler segInfo location state).2 = false)
    (noBind : segInfo.pointerFormat = DYLD_CHAINED_PTR_ARM64E_OFFSET →
      (Arm64eRebase.view (contentAt segInfo original location)).bind = 0)
    (ends : formatLink segInfo (contentAt segInfo original location) = 0) :
    Agrees memory handler notifyNonPointers segInfo original location [] state := by
  have link := readLink_eq supported noBind
  rw [← intact] at link
  have walk : ∀ fuel, walkChain segInfo memory handler notifyNonPointers (fuel + 1) location state =
      some ⟨(handler segInfo location state).1, [location], false⟩ := by
    intro fuel
    rw [walkChain_of_link goes_on link, intact, if_pos ends]
  refine ⟨fun obeys fuel enough => ?_, fun fuel walked walks same => ?_⟩
  · obtain ⟨fuel, rfl⟩ := Nat.exists_eq_add_of_lt enough
    rw [expectedRun_cons (obeys.starts location rfl) goes_on]
    exact walk _
  · obtain ⟨later, calls⟩ := walkChain_head walks
    have handed := handsOn_of_calls ⟨later, same ▸ calls⟩
    refine ⟨fun first head => ?_, fun _ last tail => ?_, fun format _ => ⟨noBind format, trivial⟩⟩
    · obtain rfl := Option.some.inj head
      exact handed
    · obtain rfl := Option.some.inj tail
      exact handed

theorem agrees_of_link (supported : segInfo.pointerFormat ∈ supportedFormats)
    (intact : contentAt segInfo (memory state) location = contentAt segInfo original location)
    (goes_on : (handler segInfo location state).2 = false)
    (noBind : segInfo.pointerFormat = DYLD_CHAINED_PTR_ARM64E_OFFSET →
      (Arm64eRebase.view (contentAt segInfo original location)).bind = 0)
    (links : formatLink segInfo (contentAt segInfo original location) ≠ 0) (more : rest ≠ [])
    (comes : Comes segInfo notifyNonPointers original (memory (handler segInfo location state).1) rest
      (location + formatLink segInfo (contentAt segInfo original location)))
    (further : ∀ skipped found tail, rest = skipped ++ found :: tail → IsChain segInfo original (found :: tail) →
      Agrees memory handler notifyNonPointers segInfo original found tail (handler segInfo location state).1) :
    Agrees memory handler notifyNonPointers segInfo original location rest state := by
  have link := readLink_eq supported noBind
  rw [← intact] at link
  have walk : ∀ fuel, walkChain segInfo memory handler notifyNonPointers (fuel + 1) location state =
      (advance segInfo notifyNonPointers (memory (handler segInfo location state).1) fuel
        (location + formatLink segInfo (contentAt segInfo original location))).bind
          fun next => (walkChain segInfo memory handler notifyNonPointers fuel next
            (handler segInfo location state).1).map (Outcome.after [location]) := by
    intro fuel
    rw [walkChain_of_link goes_on link, intact, if_neg links]
  cases comes with
  | @arrives skipped found tail split passed handed chain comes only =>
      obtain ⟨walks, obeys⟩ := further skipped found tail split chain
      subst split
      have last : ∀ last, last ∈ (location :: (skipped ++ found :: tail)).getLast? ↔ last ∈ (found :: tail).getLast? := by
        intro last
        rw [← List.cons_append, List.getLast?_append_of_ne_nil _ (List.cons_ne_nil _ _)]
      have calls : handsOn segInfo notifyNonPointers original location = true →
          expectedRun handler notifyNonPointers segInfo original (location :: (skipped ++ found :: tail)) state =
            (expectedRun handler notifyNonPointers segInfo original (found :: tail)
              (handler segInfo location state).1).after [location] := by
        intro handedHere
        rw [expectedRun_cons handedHere goes_on, expectedRun_append passed]
      -- Formats other than the 32-bit one skip nothing.
      have noSkip : segInfo.pointerFormat = DYLD_CHAINED_PTR_ARM64E_OFFSET → skipped = [] := by
        intro format
        cases skipped with
        | nil => rfl
        | cons other skipped =>
            have away := passed other List.mem_cons_self
            rw [handsOn_of_not_skips _ (by rw [format]; exact fun same => absurd same.1 (by decide))] at away
            cases away
      refine ⟨fun obeysAll fuel enough => ?_, fun fuel walked ran same => ?_⟩
      · have handedHere := obeysAll.starts location rfl
        have obeysRest : ChainObeys handler notifyNonPointers segInfo original (found :: tail)
            (handler segInfo location state).1 := by
          refine ⟨fun first head => ?_, fun stopped other tailEnd => ?_, fun format => ?_⟩
          · obtain rfl := Option.some.inj head
            exact handed
          · exact obeysAll.ends (by rw [calls handedHere]; exact stopped) other ((last other).mpr tailEnd)
          · have followed := (obeysAll.links format goes_on).2
            rw [noSkip format] at followed
            exact followed
        obtain ⟨fuel, rfl⟩ := Nat.exists_eq_add_of_lt enough
        rw [calls handedHere, walk]
        simp only [List.length_cons, List.length_append] at enough ⊢
        rw [comes _ (by omega), Option.bind_some, walks obeysRest _ (by simp only [List.length_cons]; omega)]
        rfl
      · cases fuel with
        | zero => cases ran
        | succ fuel =>
            rw [walk] at ran
            obtain ⟨next, arrived, moved⟩ := Option.bind_eq_some_iff.mp ran
            obtain rfl := only fuel next arrived
            obtain ⟨outcome, rested, rfl⟩ := Option.map_eq_some_iff.mp moved
            have handedHere : handsOn segInfo notifyNonPointers original location = true :=
              handsOn_of_calls ⟨outcome.calls, same.symm⟩
            rw [calls handedHere, Outcome.after_calls, Outcome.after_calls, List.append_cancel_left_eq] at same
            have obeysRest := obeys fuel outcome rested same
            refine ⟨fun first head => ?_, fun stopped other tailEnd => ?_, fun format _ => ⟨noBind format, ?_⟩⟩
            · obtain rfl := Option.some.inj head
              exact handedHere
            · rw [calls handedHere] at stopped
              exact obeysRest.ends stopped other ((last other).mp tailEnd)
            · rw [noSkip format]
              exact obeysRest.links format
  | never passed endless =>
      refine ⟨fun obeysAll fuel enough => ?_, fun fuel walked ran => ?_⟩
      · -- Nothing is handed on behind the location, so nothing stops the walk before the end.
        have last := List.getLast?_eq_some_getLast more
        have goesOn : (expectedRun handler notifyNonPointers segInfo original (location :: rest) state).stopped = false := by
          rw [expectedRun_cons (obeysAll.starts location rfl) goes_on, ← List.append_nil rest, expectedRun_append passed]
          rfl
        have handed := obeysAll.ends goesOn (rest.getLast more) (by rw [List.getLast?_cons, last]; rfl)
        rw [passed _ (List.getLast_mem more)] at handed
        cases handed
      · cases fuel with
        | zero => cases ran
        | succ fuel =>
            rw [walk, endless] at ran
            cases ran

end Cases

theorem walkChain_agrees (supported : segInfo.pointerFormat ∈ supportedFormats) {location : ℕ} {rest : List ℕ} {state : σ}
    (chain : IsChain segInfo original (location :: rest)) (keeps : KeepsWithin memory handler segInfo (location :: rest))
    (intact : ∀ other ∈ location :: rest, contentAt segInfo (memory state) other = contentAt segInfo original other) :
    Agrees memory handler notifyNonPointers segInfo original location rest state := by
  induction size : rest.length using Nat.strong_induction_on generalizing location rest state with
  | _ size ih =>
      rw [List.forall_mem_cons] at intact
      cases stop : (handler segInfo location state).2 with
      | true => exact agrees_of_stop stop
      | false =>
          by_cases bind : segInfo.pointerFormat = DYLD_CHAINED_PTR_ARM64E_OFFSET ∧
              (Arm64eRebase.view (contentAt segInfo original location)).bind ≠ 0
          · exact agrees_of_bind chain intact.1 stop bind.1 bind.2
          have noBind : segInfo.pointerFormat = DYLD_CHAINED_PTR_ARM64E_OFFSET →
              (Arm64eRebase.view (contentAt segInfo original location)).bind = 0 :=
            fun format => not_not.mp fun nonzero => bind ⟨format, nonzero⟩
          rcases chain.tail with ⟨rfl, ends⟩ | ⟨further, whole, links, restChain⟩
          · exact agrees_of_last supported intact.1 stop noBind ends
          -- The call changes its own location only, and the links lead away from it.
          have kept : ∀ other ∈ rest, contentAt segInfo (memory (handler segInfo location state).1) other =
              contentAt segInfo original other := by
            intro other member
            rw [keeps location List.mem_cons_self other (List.mem_cons_of_mem _ member) (chain.lt other member).ne',
              intact.2 other member]
          refine agrees_of_link supported intact.1 stop noBind links (by rw [whole]; exact List.cons_ne_nil _ _) ?_ ?_
          · rw [whole] at restChain kept ⊢
            exact advance_comes restChain kept
          · intro skipped found tail split chain
            have inside : ∀ other ∈ found :: tail, other ∈ rest := by
              intro other member
              rw [split]
              exact List.mem_append_right _ member
            refine ih tail.length ?_ chain (fun first member other member' => ?_) (fun other member => ?_) rfl
            · rw [← size, split, List.length_append, List.length_cons]
              omega
            · exact keeps first (List.mem_cons_of_mem _ (inside first member)) other
                (List.mem_cons_of_mem _ (inside other member'))
            · exact kept other (inside other member)

end ObjcDyld.ChainWalk
