import ObjcDyld.ChainWalk.Expected

/-!
# Following the links of one chain

The locations of a chain, and where `walkChain` goes from one to the next.
-/

namespace ObjcDyld.ChainWalk

open ByteMemory ChainedFixups StoppableRuns

/-- A list of locations each of which links to the next one, and the last one to none. -/
inductive IsChain (segInfo : SegmentStarts) (memory : Memory) : List ℕ → Prop
  | last {location : ℕ} (ends : formatLink segInfo (contentAt segInfo memory location) = 0) :
      IsChain segInfo memory [location]
  | link {location : ℕ} {rest : List ℕ} (links : formatLink segInfo (contentAt segInfo memory location) ≠ 0)
      (further : IsChain segInfo memory
        ((location + formatLink segInfo (contentAt segInfo memory location)) :: rest)) :
      IsChain segInfo memory
        (location :: (location + formatLink segInfo (contentAt segInfo memory location)) :: rest)

variable {segInfo : SegmentStarts} {original : Memory}

theorem IsChain.lt {location : ℕ} {rest : List ℕ} (chain : IsChain segInfo original (location :: rest)) :
    ∀ other ∈ rest, location < other := by
  generalize whole : location :: rest = locations at chain
  induction chain generalizing location rest with
  | last ends =>
      obtain ⟨-, rfl⟩ := List.cons.inj whole
      exact fun _ member => absurd member List.not_mem_nil
  | link links further ih =>
      obtain ⟨rfl, rfl⟩ := List.cons.inj whole
      rintro other (_ | ⟨_, member⟩)
      · omega
      · have later := ih rfl other member
        omega

theorem IsChain.tail {location : ℕ} {rest : List ℕ} (chain : IsChain segInfo original (location :: rest)) :
    (rest = [] ∧ formatLink segInfo (contentAt segInfo original location) = 0) ∨
      ∃ further, rest = (location + formatLink segInfo (contentAt segInfo original location)) :: further ∧
        formatLink segInfo (contentAt segInfo original location) ≠ 0 ∧ IsChain segInfo original rest := by
  generalize whole : location :: rest = locations at chain
  cases chain with
  | last ends =>
      obtain ⟨rfl, rfl⟩ := List.cons.inj whole
      exact Or.inl ⟨rfl, ends⟩
  | link links further =>
      obtain ⟨rfl, rfl⟩ := List.cons.inj whole
      exact Or.inr ⟨_, rfl, links, further⟩

theorem linkedFrom_isChain {start segmentEnd : ℕ}
    (inside : ∀ location, LinkedFrom segInfo original start location → location < segmentEnd) (more location : ℕ)
    (linked : LinkedFrom segInfo original start location) (enough : segmentEnd ≤ location + more) :
    ∃ rest, linkedFrom segInfo original more location = location :: rest ∧
      IsChain segInfo original (location :: rest) := by
  induction more generalizing location with
  | zero =>
      have less := inside location linked
      omega
  | succ more ih =>
      rw [linkedFrom]
      split
      · next ends => exact ⟨[], rfl, .last ends⟩
      · next links =>
          obtain ⟨rest, same, further⟩ := ih _ linked.link (by omega)
          exact ⟨_, by rw [same], .link links further⟩

theorem Chain.locations_isChain {chain : Chain} (inside : chain.LinksInside original) :
    ∃ rest, chain.locations original = chain.start :: rest ∧
      IsChain chain.segInfo original (chain.start :: rest) :=
  linkedFrom_isChain inside _ _ .start (by omega)

theorem generic64_next (content : BitVec 64) :
    (Generic64Rebase.view content).next.toNat =
      (Arm64eRebase.view content).next.toNat + 2048 * (Arm64eRebase.view content).bind.toNat := by
  simp only [Generic64Rebase.view, Arm64eRebase.view, toNat_extract]
  omega

theorem readLink_eq {content : BitVec 64} (supported : segInfo.pointerFormat ∈ supportedFormats)
    (noBind : segInfo.pointerFormat = DYLD_CHAINED_PTR_ARM64E_OFFSET → (Arm64eRebase.view content).bind = 0) :
    readLink segInfo content = some (formatLink segInfo content) := by
  simp only [supportedFormats, List.mem_cons, List.not_mem_nil, or_false] at supported
  rcases supported with format | format | format | format | format | format
  case inr.inr.inr.inr.inl =>
    have narrow : (Generic64Rebase.view content).next.toNat = (Arm64eRebase.view content).next.toNat := by
      rw [generic64_next, noBind format]
      rfl
    simp [readLink, formatLink, format, narrow, DYLD_CHAINED_PTR_ARM64E, DYLD_CHAINED_PTR_ARM64E_USERLAND,
      DYLD_CHAINED_PTR_ARM64E_OFFSET]
  all_goals
    simp [readLink, formatLink, format, DYLD_CHAINED_PTR_ARM64E, DYLD_CHAINED_PTR_ARM64E_USERLAND, DYLD_CHAINED_PTR_64,
      DYLD_CHAINED_PTR_64_OFFSET, DYLD_CHAINED_PTR_ARM64E_OFFSET, DYLD_CHAINED_PTR_32]

theorem readLink_of_bind {content : BitVec 64} (format : segInfo.pointerFormat = DYLD_CHAINED_PTR_ARM64E_OFFSET)
    (bind : (Arm64eRebase.view content).bind ≠ 0) :
    readLink segInfo content = some (formatLink segInfo content + 8192) := by
  have one : (Arm64eRebase.view content).bind.toNat = 1 := by
    have small := (Arm64eRebase.view content).bind.isLt
    have nonzero : (Arm64eRebase.view content).bind.toNat ≠ 0 := fun zero => bind (BitVec.eq_of_toNat_eq zero)
    omega
  have wide : (Generic64Rebase.view content).next.toNat = (Arm64eRebase.view content).next.toNat + 2048 := by
    rw [generic64_next, one]
  simp [readLink, formatLink, format, wide, DYLD_CHAINED_PTR_ARM64E, DYLD_CHAINED_PTR_ARM64E_USERLAND,
    DYLD_CHAINED_PTR_ARM64E_OFFSET]
  omega

/-! ## Non-pointers -/

section Skipping

variable {notifyNonPointers : Bool} {memory : Memory}

theorem formatLink_32 (content : BitVec 64) (format : segInfo.pointerFormat = DYLD_CHAINED_PTR_32) :
    formatLink segInfo content = (Generic32Rebase.view content).next.toNat * 4 := by
  simp [formatLink, format, DYLD_CHAINED_PTR_ARM64E, DYLD_CHAINED_PTR_ARM64E_USERLAND,
    DYLD_CHAINED_PTR_ARM64E_OFFSET, DYLD_CHAINED_PTR_32]

theorem skipNonPointers_endless {location : ℕ} (nonPointer : isNonPointer segInfo (contentAt segInfo memory location) = true)
    (ends : (Generic32Rebase.view (contentAt segInfo memory location)).next.toNat * 4 = 0) (fuel : ℕ) :
    skipNonPointers segInfo memory fuel location = none := by
  induction fuel with
  | zero => rfl
  | succ fuel ih =>
      rw [skipNonPointers]
      simp only [nonPointer, if_true, ends, Nat.add_zero, ih]

/-- A walk along a chain comes to a location that is handed on, or there is none. -/
inductive Comes (segInfo : SegmentStarts) (notifyNonPointers : Bool) (original memory : Memory) (locations : List ℕ)
    (location : ℕ) : Prop
  | arrives {skipped : List ℕ} {found : ℕ} {tail : List ℕ} (split : locations = skipped ++ found :: tail)
      (passed : ∀ other ∈ skipped, handsOn segInfo notifyNonPointers original other = false)
      (handed : handsOn segInfo notifyNonPointers original found = true)
      (chain : IsChain segInfo original (found :: tail))
      (comes : ∀ fuel, skipped.length < fuel → advance segInfo notifyNonPointers memory fuel location = some found)
      (only : ∀ fuel other, advance segInfo notifyNonPointers memory fuel location = some other → other = found)
  | never (passed : ∀ other ∈ locations, handsOn segInfo notifyNonPointers original other = false)
      (endless : ∀ fuel, advance segInfo notifyNonPointers memory fuel location = none)

theorem handsOn_eq (location : ℕ) (skips : segInfo.pointerFormat = DYLD_CHAINED_PTR_32 ∧ notifyNonPointers = false) :
    handsOn segInfo notifyNonPointers original location =
      !isNonPointer segInfo (contentAt segInfo original location) := by
  simp [handsOn, skips.1, skips.2]

theorem handsOn_of_not_skips (location : ℕ)
    (all : ¬(segInfo.pointerFormat = DYLD_CHAINED_PTR_32 ∧ notifyNonPointers = false)) :
    handsOn segInfo notifyNonPointers original location = true := by
  rw [handsOn, Bool.not_eq_true', Bool.eq_false_iff]
  intro skips
  simp only [Bool.and_eq_true, decide_eq_true_eq, Bool.not_eq_true'] at skips
  exact all skips.1

theorem comes_of_skips {locations : List ℕ}
    (skips : segInfo.pointerFormat = DYLD_CHAINED_PTR_32 ∧ notifyNonPointers = false)
    (chain : IsChain segInfo original locations)
    (intact : ∀ other ∈ locations, contentAt segInfo memory other = contentAt segInfo original other) :
    ∀ location ∈ locations.head?, Comes segInfo notifyNonPointers original memory locations location := by
  have here : ∀ {location : ℕ} {rest : List ℕ}, IsChain segInfo original (location :: rest) →
      contentAt segInfo memory location = contentAt segInfo original location →
      isNonPointer segInfo (contentAt segInfo original location) = false →
      Comes segInfo notifyNonPointers original memory (location :: rest) location := by
    intro location rest chain same pointer
    refine .arrives (List.nil_append _).symm (List.forall_mem_nil _) (by rw [handsOn_eq _ skips, pointer]; rfl) chain
      (fun fuel positive => ?_) fun fuel other found => ?_
    · obtain ⟨fuel, rfl⟩ := Nat.exists_eq_add_of_lt positive
      rw [advance, if_pos skips, skipNonPointers]
      simp [same, pointer]
    · rw [advance, if_pos skips] at found
      cases fuel with
      | zero => cases found
      | succ fuel =>
          rw [skipNonPointers] at found
          simpa [same, pointer, eq_comm] using found
  induction chain with
  | @last location ends =>
      rintro _ ⟨⟩
      have same := intact location List.mem_cons_self
      cases kind : isNonPointer segInfo (contentAt segInfo original location) with
      | false => exact here (.last ends) same kind
      | true =>
          rw [formatLink_32 _ skips.1] at ends
          refine .never (List.forall_mem_singleton.mpr (by rw [handsOn_eq _ skips, kind]; rfl)) fun fuel => ?_
          rw [advance, if_pos skips]
          exact skipNonPointers_endless (by rwa [same]) (by rwa [same]) fuel
  | @link location rest links further ih =>
      rintro _ ⟨⟩
      rw [List.forall_mem_cons] at intact
      cases kind : isNonPointer segInfo (contentAt segInfo original location) with
      | false => exact here (.link links further) intact.1 kind
      | true =>
          have passed : handsOn segInfo notifyNonPointers original location = false := by
            rw [handsOn_eq _ skips, kind]
            rfl
          have step : ∀ fuel, advance segInfo notifyNonPointers memory (fuel + 1) location =
              advance segInfo notifyNonPointers memory fuel
                (location + formatLink segInfo (contentAt segInfo original location)) := by
            intro fuel
            rw [advance, advance, if_pos skips, if_pos skips, skipNonPointers, formatLink_32 _ skips.1]
            simp only [intact.1, kind, if_true]
          have out_of_fuel : advance segInfo notifyNonPointers memory 0 location = none := by
            rw [advance, if_pos skips]
            rfl
          cases ih intact.2 _ rfl with
          | @arrives skipped found tail split others handed chain comes only =>
              refine .arrives (show _ = (location :: skipped) ++ found :: tail by rw [split, List.cons_append])
                (List.forall_mem_cons.mpr ⟨passed, others⟩) handed chain (fun fuel enough => ?_)
                fun fuel other reached => ?_
              · cases fuel with
                | zero => simp at enough
                | succ fuel => rw [step, comes fuel (by simpa using enough)]
              · cases fuel with
                | zero => rw [out_of_fuel] at reached; cases reached
                | succ fuel => exact only fuel other (by rwa [step] at reached)
          | never others endless =>
              refine .never (List.forall_mem_cons.mpr ⟨passed, others⟩) fun fuel => ?_
              cases fuel with
              | zero => exact out_of_fuel
              | succ fuel => rw [step, endless]

theorem advance_comes {location : ℕ} {rest : List ℕ} (chain : IsChain segInfo original (location :: rest))
    (intact : ∀ other ∈ location :: rest, contentAt segInfo memory other = contentAt segInfo original other) :
    Comes segInfo notifyNonPointers original memory (location :: rest) location := by
  by_cases skips : segInfo.pointerFormat = DYLD_CHAINED_PTR_32 ∧ notifyNonPointers = false
  · exact comes_of_skips skips chain intact location rfl
  · refine .arrives (List.nil_append _).symm (List.forall_mem_nil _) (handsOn_of_not_skips location skips) chain
      (fun fuel _ => by rw [advance, if_neg skips]) fun fuel other found => ?_
    rw [advance, if_neg skips] at found
    exact (Option.some.inj found).symm

end Skipping

end ObjcDyld.ChainWalk
