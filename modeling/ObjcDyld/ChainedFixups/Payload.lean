import ObjcDyld.Common.ByteMemory
import ObjcDyld.Common.Prefixes

/-!
# The payload of LC_DYLD_CHAINED_FIXUPS and its validation

The header, the starts table and the imports table as they lie in memory, and
`MachOAnalyzer::validChainedFixupsInfo`, which looks at all of them.
-/

namespace ObjcDyld.ChainedFixups

open ByteMemory

/-- `dyld_chained_starts_in_segment` at an address. -/
structure SegmentStarts where
  memory : Memory
  address : ℕ

namespace SegmentStarts

variable (segInfo : SegmentStarts)

def size : ℕ := load segInfo.memory segInfo.address 4

def pageSize : ℕ := load segInfo.memory (segInfo.address + 4) 2

def pointerFormat : ℕ := load segInfo.memory (segInfo.address + 6) 2

def segmentOffset : BitVec 64 := get64 segInfo.memory (segInfo.address + 8)

def maxValidPointer : ℕ := load segInfo.memory (segInfo.address + 16) 4

def pageCount : ℕ := load segInfo.memory (segInfo.address + 20) 2

/-- `offsetof(dyld_chained_starts_in_segment, page_start[index])`. -/
def offsetOfPageStart (index : ℕ) : ℕ := 22 + 2 * index

def pageStart (index : ℕ) : BitVec 16 :=
  BitVec.ofNat 16 (load segInfo.memory (segInfo.address + offsetOfPageStart index) 2)

end SegmentStarts

/-- `dyld_chained_starts_in_image` at an address. -/
structure StartsInImage where
  memory : Memory
  address : ℕ

namespace StartsInImage

variable (starts : StartsInImage)

def segCount : ℕ := load starts.memory starts.address 4

def segInfoOffset (index : ℕ) : ℕ := load starts.memory (starts.address + 4 + 4 * index) 4

def segInfo (index : ℕ) : SegmentStarts := ⟨starts.memory, starts.address + starts.segInfoOffset index⟩

end StartsInImage

/-- `DYLD_CHAINED_PTR_START_NONE`. -/
def startNone : BitVec 16 := 0xFFFF

/-- `DYLD_CHAINED_PTR_START_MULTI` and `DYLD_CHAINED_PTR_START_LAST`. -/
def startFlag : BitVec 16 := 0x8000

/-- The flag of an entry: the page has multiple starts, or the start is the last of its list. -/
def flagged (entry : BitVec 16) : Bool := (entry &&& startFlag) != 0

/-- The entry without its flag: an offset in a page, or the index of a list. -/
def unflagged (entry : BitVec 16) : ℕ := (entry &&& ~~~startFlag).toNat

structure SegmentRange where
  vmAddr : BitVec 64
  vmSize : BitVec 64

/-- The payload, with addresses counted from its header, and what is known about the image. -/
structure Fixups where
  memory : Memory
  datasize : ℕ
  linkeditSegIndex : ℕ
  segmentsInfo : ℕ → SegmentRange
  preferredLoadAddress : BitVec 64
  inDyldCache : Bool

namespace Fixups

variable (fixups : Fixups)

def fixupsVersion : ℕ := load fixups.memory 0 4

def startsOffset : ℕ := load fixups.memory 4 4

def importsOffset : ℕ := load fixups.memory 8 4

def symbolsOffset : ℕ := load fixups.memory 12 4

def importsCount : ℕ := load fixups.memory 16 4

def importsFormat : ℕ := load fixups.memory 20 4

def symbolsFormat : ℕ := load fixups.memory 24 4

/-- The sizes of `dyld_chained_import`, `dyld_chained_import_addend` and `dyld_chained_import_addend64`. -/
def formatEntrySize : Option ℕ :=
  match fixups.importsFormat with
  | 1 => some 4
  | 2 => some 8
  | 3 => some 16
  | _ => none

def startsInfo : StartsInImage := ⟨fixups.memory, fixups.startsOffset⟩

def segCount : ℕ := fixups.startsInfo.segCount

def segInfoOffset (index : ℕ) : ℕ := fixups.startsInfo.segInfoOffset index

def segInfo (index : ℕ) : SegmentStarts := fixups.startsInfo.segInfo index

/-- The checks of `dyld_chained_fixups_header`. -/
def validHeader : Bool :=
  fixups.fixupsVersion = 0 && fixups.startsOffset < fixups.datasize && fixups.importsOffset < fixups.datasize &&
  fixups.importsCount < 0xFFFF &&
  (match fixups.formatEntrySize with
    | some formatEntrySize => fixups.importsOffset + formatEntrySize * fixups.importsCount ≤ fixups.symbolsOffset
    | none => false) &&
  fixups.symbolsFormat = 0

end Fixups

namespace SegmentStarts

variable (segInfo : SegmentStarts)

/-- `maxOverflowIndex`: the number of entries after those of the pages. -/
def maxOverflowIndex : ℕ := (segInfo.size - offsetOfPageStart segInfo.pageCount) / 2

/-- The do-while loop over the starts of one page: the index of the last entry that it checks, or
`none` for an error. -/
def checkList : ℕ → ℕ → ℕ → Option ℕ
  | 0, _, _ => none
  | fuel + 1, overflowIndex, lastOffsetInPage =>
      if overflowIndex > segInfo.maxOverflowIndex then none
      else
        let offsetInPage := unflagged (segInfo.pageStart overflowIndex)
        if offsetInPage > segInfo.pageSize then none
        else if offsetInPage ≤ lastOffsetInPage ∧ lastOffsetInPage ≠ 0 then none
        else if flagged (segInfo.pageStart (overflowIndex + 1)) then some overflowIndex
        else checkList fuel (overflowIndex + 1) offsetInPage

/-- The list of a page with multiple starts, as the validator runs over it. -/
def validatedList (overflowIndex : ℕ) : Option ℕ := segInfo.checkList (segInfo.maxOverflowIndex + 2) overflowIndex 0

/-- The checks of one page; an offset that is too large sets the error that is looked at in the end. -/
def checkPage (pageIndex : ℕ) : Bool :=
  let offsetInPage := segInfo.pageStart pageIndex
  if offsetInPage = startNone then true
  else if !flagged offsetInPage then !(offsetInPage.toNat > segInfo.pageSize)
  else (segInfo.validatedList (unflagged offsetInPage)).isSome

end SegmentStarts

namespace Fixups

variable (fixups : Fixups)

/-- The checks of one `dyld_chained_starts_in_segment` before its pages. -/
def checkSegmentHeader (index : ℕ) : Bool :=
  let segInfo := fixups.segInfo index
  segInfo.address + segInfo.size ≤ fixups.importsOffset &&
  (segInfo.pageSize = 0x1000 || segInfo.pageSize = 0x4000) && segInfo.pointerFormat ≤ 10 &&
  segInfo.segmentOffset = (fixups.segmentsInfo index).vmAddr - fixups.preferredLoadAddress &&
  SegmentStarts.offsetOfPageStart segInfo.pageCount ≤ segInfo.size

/-- One round of the loop over the segments, with `maxValidPointerSeen`. -/
def checkSegment (maxValidPointerSeen index : ℕ) : Option ℕ :=
  -- 0 offset means this segment has no fixups
  if fixups.segInfoOffset index = 0 then some maxValidPointerSeen
  else
    let segInfo := fixups.segInfo index
    if !fixups.checkSegmentHeader index then none
    else if segInfo.maxValidPointer ≠ 0 ∧ maxValidPointerSeen ≠ 0 ∧ maxValidPointerSeen ≠ segInfo.maxValidPointer then
      none
    else if !(List.range segInfo.pageCount).all segInfo.checkPage then none
    else some (if segInfo.maxValidPointer ≠ 0 then segInfo.maxValidPointer else maxValidPointerSeen)

/-- The end of the segment before LINKEDIT. -/
def lastSegmentLastVMAddr : ℕ :=
  ((fixups.segmentsInfo (fixups.linkeditSegIndex - 1)).vmAddr +
    (fixups.segmentsInfo (fixups.linkeditSegIndex - 1)).vmSize).toNat

/-- `MachOAnalyzer::validChainedFixupsInfo`. -/
def validChainedFixupsInfo : Bool :=
  fixups.validHeader && fixups.segCount = fixups.linkeditSegIndex + 1 &&
  match (List.range fixups.segCount).foldlM fixups.checkSegment 0 with
  | some maxValidPointerSeen =>
      !(maxValidPointerSeen ≠ 0 && !fixups.inDyldCache && maxValidPointerSeen < fixups.lastSegmentLastVMAddr)
  | none => false

end Fixups

namespace SegmentStarts

variable (segInfo : SegmentStarts)

def MultipleStarts (pageIndex : ℕ) : Prop :=
  segInfo.pageStart pageIndex ≠ startNone ∧ flagged (segInfo.pageStart pageIndex) = true

instance (pageIndex : ℕ) : Decidable (segInfo.MultipleStarts pageIndex) := inferInstanceAs (Decidable (_ ∧ _))

variable {segInfo}

/-- The offsets of two entries ascend, unless the first one is 0. -/
def Ascends (segInfo : SegmentStarts) (first second : ℕ) : Prop :=
  unflagged (segInfo.pageStart first) ≠ 0 →
    unflagged (segInfo.pageStart first) < unflagged (segInfo.pageStart second)

/-- The entries from an index to another are the ones that the validator checks, and pass. -/
structure Validated (segInfo : SegmentStarts) (first last : ℕ) : Prop where
  le : first ≤ last
  bound : last ≤ segInfo.maxOverflowIndex
  ends : flagged (segInfo.pageStart (last + 1)) = true
  goes_on : ∀ index, first < index → index ≤ last → flagged (segInfo.pageStart index) = false
  inPage : ∀ index, first ≤ index → index ≤ last → unflagged (segInfo.pageStart index) ≤ segInfo.pageSize
  ascends : ∀ index, first ≤ index → index < last → segInfo.Ascends index (index + 1)

theorem checkList_iff (fuel first last previous : ℕ) (enough : segInfo.maxOverflowIndex + 2 ≤ first + fuel) :
    segInfo.checkList fuel first previous = some last ↔
      segInfo.Validated first last ∧ (previous ≠ 0 → previous < unflagged (segInfo.pageStart first)) := by
  induction fuel generalizing first previous with
  | zero =>
      refine iff_of_false (by simp [checkList]) fun validated => ?_
      have le := validated.1.le
      have bound := validated.1.bound
      omega
  | succ fuel ih =>
      rw [checkList]
      by_cases beyond : first > segInfo.maxOverflowIndex
      · rw [if_pos beyond]
        refine iff_of_false (by simp) fun validated => ?_
        have le := validated.1.le
        have bound := validated.1.bound
        omega
      rw [if_neg beyond]
      simp only
      by_cases large : unflagged (segInfo.pageStart first) > segInfo.pageSize
      · rw [if_pos large]
        refine iff_of_false (by simp) fun validated => ?_
        have small := validated.1.inPage first le_rfl validated.1.le
        omega
      rw [if_neg large]
      by_cases descends : unflagged (segInfo.pageStart first) ≤ previous ∧ previous ≠ 0
      · rw [if_pos descends]
        refine iff_of_false (by simp) fun validated => ?_
        have more := validated.2 descends.2
        omega
      rw [if_neg descends]
      have ascends : previous ≠ 0 → previous < unflagged (segInfo.pageStart first) := fun nonzero => by
        by_contra not_less
        exact descends ⟨by omega, nonzero⟩
      cases flag : flagged (segInfo.pageStart (first + 1)) with
      | true =>
          rw [if_pos rfl, Option.some.injEq]
          constructor
          · rintro rfl
            refine ⟨⟨le_rfl, by omega, flag, fun index after upto => by omega, fun index from_first upto => ?_,
              fun index from_first upto => by omega⟩, ascends⟩
            obtain rfl : index = first := by omega
            omega
          · rintro ⟨validated, -⟩
            by_contra differ
            have le := validated.le
            have unflagged_next := validated.goes_on (first + 1) (by omega) (by omega)
            rw [flag] at unflagged_next
            exact absurd unflagged_next (by simp)
      | false =>
          rw [if_neg Bool.false_ne_true, ih _ _ (by omega)]
          constructor
          · rintro ⟨validated, next⟩
            have le := validated.le
            refine ⟨⟨by omega, validated.bound, validated.ends, fun index after upto => ?_,
              fun index from_first upto => ?_, fun index from_first upto => ?_⟩, ascends⟩
            · rcases Nat.eq_or_lt_of_le after with same | later
              · rw [← same]
                exact flag
              · exact validated.goes_on index later upto
            · rcases Nat.eq_or_lt_of_le from_first with same | later
              · rw [← same]
                omega
              · exact validated.inPage index later upto
            · rcases Nat.eq_or_lt_of_le from_first with same | later
              · rw [← same]
                exact next
              · exact validated.ascends index later upto
          · rintro ⟨validated, -⟩
            have le := validated.le
            have further : first ≠ last := by
              rintro rfl
              have ends := validated.ends
              rw [flag] at ends
              exact absurd ends (by simp)
            exact ⟨⟨by omega, validated.bound, validated.ends,
              fun index after upto => validated.goes_on index (by omega) upto,
              fun index from_first upto => validated.inPage index (by omega) upto,
              fun index from_first upto => validated.ascends index (by omega) upto⟩,
              validated.ascends first le_rfl (by omega)⟩

theorem validatedList_iff (first last : ℕ) :
    segInfo.validatedList first = some last ↔ segInfo.Validated first last := by
  rw [validatedList, checkList_iff _ _ _ _ (by omega)]
  exact and_iff_left fun nonzero => absurd rfl nonzero

end SegmentStarts

namespace Fixups

variable (fixups : Fixups)

/-- The segments that have fixups and pass their checks. -/
structure AcceptedSegment (index : ℕ) : Prop where
  header : fixups.checkSegmentHeader index = true
  pages : ∀ page < (fixups.segInfo index).pageCount, (fixups.segInfo index).checkPage page = true

/-- The `max_valid_pointer` of a segment that has fixups; 0 is none. -/
def declaredMax (index : ℕ) : ℕ :=
  if fixups.segInfoOffset index = 0 then 0 else (fixups.segInfo index).maxValidPointer

/-- The maxima that are declared agree, and the last one seen is one of them. -/
def AgreesOnMax (count seen : ℕ) : Prop :=
  (∀ index < count, fixups.declaredMax index ≠ 0 → fixups.declaredMax index = seen) ∧
    (seen ≠ 0 → ∃ index < count, fixups.declaredMax index = seen)

variable {fixups}

theorem agreesOnMax_succ_iff (count seen : ℕ) :
    fixups.AgreesOnMax (count + 1) seen ↔ ∃ before, fixups.AgreesOnMax count before ∧
      ¬(fixups.declaredMax count ≠ 0 ∧ before ≠ 0 ∧ before ≠ fixups.declaredMax count) ∧
      seen = if fixups.declaredMax count ≠ 0 then fixups.declaredMax count else before := by
  rw [AgreesOnMax, Nat.forall_lt_succ_right]
  by_cases declared : fixups.declaredMax count = 0
  · simp only [declared, ne_eq, not_true_eq_false, false_and, not_false_eq_true, if_false, true_and]
    constructor
    · rintro ⟨⟨agree, -⟩, among⟩
      refine ⟨seen, ⟨agree, fun nonzero => ?_⟩, rfl⟩
      obtain ⟨index, less, same⟩ := among nonzero
      refine ⟨index, ?_, same⟩
      rcases Nat.lt_succ_iff_lt_or_eq.mp less with less | rfl
      · exact less
      · exact absurd (same.symm.trans declared) nonzero
    · rintro ⟨before, ⟨agree, among⟩, rfl⟩
      refine ⟨⟨agree, nofun⟩, fun nonzero => ?_⟩
      obtain ⟨index, less, same⟩ := among nonzero
      exact ⟨index, Nat.lt_succ_of_lt less, same⟩
  · simp only [declared, ne_eq, not_false_eq_true, if_true, true_and, forall_const]
    constructor
    · rintro ⟨⟨agree, rfl⟩, -⟩
      -- the value before is the maximum if a segment before declares one
      by_cases some_before : ∃ index < count, fixups.declaredMax index ≠ 0
      · obtain ⟨index, less, nonzero⟩ := some_before
        exact ⟨_, ⟨agree, fun _ => ⟨index, less, agree index less nonzero⟩⟩, fun differ => differ.2 rfl, rfl⟩
      · push Not at some_before
        exact ⟨0, ⟨fun index less nonzero => absurd (some_before index less) nonzero, fun nonzero => absurd rfl nonzero⟩,
          fun differ => differ.1 rfl, rfl⟩
    · rintro ⟨before, ⟨agree, -⟩, same, rfl⟩
      refine ⟨⟨fun index less nonzero => ?_, rfl⟩, fun _ => ⟨count, Nat.lt_succ_self count, rfl⟩⟩
      have before_eq := agree index less nonzero
      by_contra differ
      exact same ⟨before_eq ▸ nonzero, before_eq ▸ differ⟩

theorem checkSegment_iff (count before seen : ℕ) :
    fixups.checkSegment before count = some seen ↔
      (fixups.segInfoOffset count ≠ 0 → fixups.AcceptedSegment count) ∧
      ¬(fixups.declaredMax count ≠ 0 ∧ before ≠ 0 ∧ before ≠ fixups.declaredMax count) ∧
      seen = if fixups.declaredMax count ≠ 0 then fixups.declaredMax count else before := by
  rw [checkSegment, declaredMax]
  by_cases zero : fixups.segInfoOffset count = 0
  · simp [zero, eq_comm]
  rw [if_neg zero, if_neg zero]
  have accepted_iff : fixups.AcceptedSegment count ↔ fixups.checkSegmentHeader count = true ∧
      ∀ page < (fixups.segInfo count).pageCount, (fixups.segInfo count).checkPage page = true :=
    ⟨fun accepted => ⟨accepted.header, accepted.pages⟩, fun both => ⟨both.1, both.2⟩⟩
  simp only [ne_eq, zero, not_false_eq_true, forall_const, accepted_iff]
  cases header : fixups.checkSegmentHeader count with
  | false => simp
  | true =>
      rw [Bool.not_true, if_neg Bool.false_ne_true]
      by_cases differ : ¬(fixups.segInfo count).maxValidPointer = 0 ∧ ¬before = 0 ∧
          ¬before = (fixups.segInfo count).maxValidPointer
      · rw [if_pos differ]
        exact iff_of_false (by simp) fun both => both.2.1 differ
      rw [if_neg differ]
      cases pages : (List.range (fixups.segInfo count).pageCount).all (fixups.segInfo count).checkPage with
      | false =>
          have failed := List.all_eq_false.mp pages
          obtain ⟨page, member, failed⟩ := failed
          exact iff_of_false (by simp) fun both => failed (both.1.2 page (List.mem_range.mp member))
      | true =>
          have passed := List.all_eq_true.mp pages
          rw [Bool.not_true, if_neg Bool.false_ne_true, Option.some.injEq, eq_comm]
          exact ⟨fun same => ⟨⟨rfl, fun page less => passed page (List.mem_range.mpr less)⟩, differ, same⟩,
            fun both => both.2.2⟩

theorem checkSegments_iff (count seen : ℕ) :
    (List.range count).foldlM fixups.checkSegment 0 = some seen ↔
      (∀ index < count, fixups.segInfoOffset index ≠ 0 → fixups.AcceptedSegment index) ∧
        fixups.AgreesOnMax count seen := by
  induction count generalizing seen with
  | zero =>
      rw [List.range_zero, List.foldlM_nil]
      constructor
      · intro same
        obtain rfl : 0 = seen := Option.some.inj same
        exact ⟨nofun, nofun, fun nonzero => absurd rfl nonzero⟩
      · rintro ⟨-, -, exists_index⟩
        by_contra differ
        obtain ⟨index, less, -⟩ := exists_index fun zero => differ (by rw [zero]; rfl)
        exact absurd less (Nat.not_lt_zero index)
  | succ count ih =>
      rw [List.range_succ]
      constructor
      · intro run
        obtain ⟨before, ran⟩ : ∃ before, (List.range count).foldlM fixups.checkSegment 0 = some before := by
          rw [List.foldlM_append] at run
          exact (Option.bind_eq_some_iff.mp run).imp fun _ found => found.1
        rw [Prefixes.foldlM_snoc _ _ ran, checkSegment_iff] at run
        obtain ⟨accepted, agrees⟩ := (ih before).mp ran
        exact ⟨Nat.forall_lt_succ_right.mpr ⟨accepted, run.1⟩,
          (agreesOnMax_succ_iff count seen).mpr ⟨before, agrees, run.2⟩⟩
      · rintro ⟨accepted, agrees⟩
        obtain ⟨accepted, accepts⟩ := Nat.forall_lt_succ_right.mp accepted
        obtain ⟨before, agree, step⟩ := (agreesOnMax_succ_iff count seen).mp agrees
        rw [Prefixes.foldlM_snoc _ _ ((ih before).mpr ⟨accepted, agree⟩)]
        exact (checkSegment_iff count before seen).mpr ⟨accepts, step⟩

end Fixups

end ObjcDyld.ChainedFixups
