import ObjcDyld.ChainedFixups.Imports
import ObjcDyld.ChainedFixups.StartsWalk
import ObjcDyld.ChainedFixups.WellFormed

/-!
# What the validation of chained fixups is worth to their readers

For a payload that the validator accepts: when the walk over the starts table and the loop over
the imports stay inside of what they may read and start.
-/

namespace ObjcDyld.ChainedFixups

namespace SegmentStarts

variable (segInfo : SegmentStarts)

/-- What may be done for a segment. The validator's loop over a list ends as it sees the flag of the
entry behind the last one that it has checked: `beyond` is 1 where that entry still counts. -/
def Allows (segment : SegmentRange) (beyond : ℕ) : WalkEvent → Prop
  | .reads _ entry => offsetOfPageStart (entry + 1) ≤ segInfo.size
  | .starts start =>
      start.offsetInPage < segInfo.pageSize ∧ (start.pageIndex + 1) * segInfo.pageSize ≤ segment.vmSize.toNat ∧
        (segInfo.MultipleStarts start.pageIndex → ∀ last,
          segInfo.validatedList (unflagged (segInfo.pageStart start.pageIndex)) = some last →
            start.entry ≤ last + beyond)

/-- What the validator does not look at, or lets through by one, is in order. -/
structure Harmless (segment : SegmentRange) : Prop where
  /-- The pages with fixups lie in the segment. -/
  pages : ∀ pageIndex < segInfo.pageCount, segInfo.pageStart pageIndex ≠ startNone →
    (pageIndex + 1) * segInfo.pageSize ≤ segment.vmSize.toNat
  /-- No single start is the size of a page. -/
  single : ∀ pageIndex < segInfo.pageCount, flagged (segInfo.pageStart pageIndex) = false →
    (segInfo.pageStart pageIndex).toNat ≠ segInfo.pageSize
  /-- Neither is one that is checked in a list. -/
  checked : ∀ pageIndex < segInfo.pageCount, segInfo.MultipleStarts pageIndex →
    ∀ entry, segInfo.InList (unflagged (segInfo.pageStart pageIndex)) entry →
      (entry = unflagged (segInfo.pageStart pageIndex) ∨ flagged (segInfo.pageStart entry) = false) →
      unflagged (segInfo.pageStart entry) ≠ segInfo.pageSize
  /-- The last one of several in a list, which is not checked, is in the page, and in the table even
  where that has a single page. -/
  last : ∀ pageIndex < segInfo.pageCount, segInfo.MultipleStarts pageIndex →
    ∀ entry, segInfo.InList (unflagged (segInfo.pageStart pageIndex)) entry →
      unflagged (segInfo.pageStart pageIndex) < entry → flagged (segInfo.pageStart entry) = true →
      unflagged (segInfo.pageStart entry) < segInfo.pageSize ∧
        (segInfo.pageCount = 1 → entry ≤ segInfo.maxOverflowIndex)

/-- Each list ends with its first start. -/
def SingleEntries : Prop :=
  ∀ pageIndex < segInfo.pageCount, segInfo.MultipleStarts pageIndex →
    flagged (segInfo.pageStart (unflagged (segInfo.pageStart pageIndex))) = true

variable {segInfo} {segment : SegmentRange} {segIndex pageIndex : ℕ}

theorem validatedList_of_checkPage (accepted : segInfo.checkPage pageIndex = true)
    (multiple : segInfo.MultipleStarts pageIndex) :
    ∃ last, segInfo.Validated (unflagged (segInfo.pageStart pageIndex)) last := by
  rw [checkPage, if_neg multiple.1, multiple.2, Bool.not_true, if_neg Bool.false_ne_true,
    Option.isSome_iff_exists] at accepted
  simpa only [validatedList_iff] using accepted

theorem single_le_of_checkPage (accepted : segInfo.checkPage pageIndex = true)
    (single : flagged (segInfo.pageStart pageIndex) = false) :
    (segInfo.pageStart pageIndex).toNat ≤ segInfo.pageSize := by
  have ne : segInfo.pageStart pageIndex ≠ startNone := by
    intro eq
    rw [eq] at single
    exact absurd single (by decide)
  rw [checkPage, if_neg ne, single, Bool.not_false, if_pos rfl] at accepted
  simpa using accepted

/-- The entries of a list that the validator checks are those before its end for the walker, and the
first one. -/
theorem Validated.checked {first last entry : ℕ} (validated : segInfo.Validated first last)
    (inList : segInfo.InList first entry)
    (checked : entry = first ∨ flagged (segInfo.pageStart entry) = false) :
    unflagged (segInfo.pageStart entry) ≤ segInfo.pageSize ∧ entry ≤ last := by
  have upto : entry ≤ last := by
    rcases checked with rfl | unended
    · exact validated.le
    · have beyond := validated.entry_le inList
      rcases Nat.lt_or_eq_of_le beyond with less | rfl
      · exact Nat.lt_succ_iff.mp less
      · rw [validated.ends] at unended
        exact absurd unended (by simp)
  exact ⟨validated.inPage entry inList.1 upto, upto⟩

theorem offsetOfPageStart_le_iff (pageStarts : offsetOfPageStart segInfo.pageCount ≤ segInfo.size)
    (some_page : 0 < segInfo.pageCount) {entry : ℕ} (bound : entry ≤ segInfo.maxOverflowIndex + 1) :
    offsetOfPageStart (entry + 1) ≤ segInfo.size ↔
      (segInfo.pageCount = 1 → entry ≤ segInfo.maxOverflowIndex) := by
  rw [maxOverflowIndex] at *
  rw [offsetOfPageStart] at *
  rw [offsetOfPageStart] at *
  omega

theorem allows_entry_iff (pageStarts : offsetOfPageStart segInfo.pageCount ≤ segInfo.size)
    (inside : pageIndex < segInfo.pageCount) (multiple : segInfo.MultipleStarts pageIndex) {last entry : ℕ}
    (validated : segInfo.Validated (unflagged (segInfo.pageStart pageIndex)) last)
    (inList : segInfo.InList (unflagged (segInfo.pageStart pageIndex)) entry) (beyond segIndex : ℕ) :
    (∀ event ∈ segInfo.entryEvents segIndex pageIndex entry, segInfo.Allows segment beyond event) ↔
      (segInfo.pageCount = 1 → entry ≤ segInfo.maxOverflowIndex) ∧
      unflagged (segInfo.pageStart entry) < segInfo.pageSize ∧
      (pageIndex + 1) * segInfo.pageSize ≤ segment.vmSize.toNat ∧ entry ≤ last + beyond := by
  have bound : entry ≤ segInfo.maxOverflowIndex + 1 :=
    (validated.entry_le inList).trans (Nat.succ_le_succ validated.bound)
  have found := (validatedList_iff _ _).mpr validated
  rw [entryEvents, List.forall_mem_cons, List.forall_mem_singleton]
  change offsetOfPageStart (entry + 1) ≤ segInfo.size ∧ _ ∧ _ ∧ (segInfo.MultipleStarts pageIndex → _) ↔ _
  rw [offsetOfPageStart_le_iff pageStarts (Nat.zero_lt_of_lt inside) bound]
  refine and_congr_right' (and_congr_right' (and_congr_right' ?_))
  constructor
  · exact fun ends => ends multiple last found
  · intro upto _ last' found'
    obtain rfl := Option.some.inj (found.symm.trans found')
    exact upto

theorem allows_single_iff (single : flagged (segInfo.pageStart pageIndex) = false) (beyond segIndex : ℕ) :
    segInfo.Allows segment beyond
        (.starts ⟨segIndex, pageIndex, pageIndex, (segInfo.pageStart pageIndex).toNat⟩) ↔
      (segInfo.pageStart pageIndex).toNat < segInfo.pageSize ∧
      (pageIndex + 1) * segInfo.pageSize ≤ segment.vmSize.toNat := by
  refine and_congr_right' (and_iff_left fun multiple => ?_)
  exact absurd (single.symm.trans multiple.2) (by simp)

theorem inList_first (first : ℕ) : segInfo.InList first first := ⟨le_rfl, fun _ low high => absurd low (Nat.not_le.mpr high)⟩

theorem allows_iff (pageStarts : offsetOfPageStart segInfo.pageCount ≤ segInfo.size)
    (accepted : ∀ pageIndex < segInfo.pageCount, segInfo.checkPage pageIndex = true) (segIndex : ℕ) :
    (∀ pageIndex < segInfo.pageCount, ∀ event, segInfo.PageEvent segIndex pageIndex event →
      segInfo.Allows segment 1 event) ↔ segInfo.Harmless segment := by
  constructor
  · intro allowed
    have entries : ∀ page < segInfo.pageCount, segInfo.MultipleStarts page → ∀ entry,
        segInfo.InList (unflagged (segInfo.pageStart page)) entry →
          (segInfo.pageCount = 1 → entry ≤ segInfo.maxOverflowIndex) ∧
          unflagged (segInfo.pageStart entry) < segInfo.pageSize ∧
          (page + 1) * segInfo.pageSize ≤ segment.vmSize.toNat := by
      intro page inside multiple entry inList
      obtain ⟨last, validated⟩ := validatedList_of_checkPage (accepted page inside) multiple
      obtain ⟨inTable, inPage, inSegment, -⟩ :=
        (allows_entry_iff pageStarts inside multiple validated inList 1 segIndex).mp fun event member =>
          allowed page inside event (.list multiple inList member)
      exact ⟨inTable, inPage, inSegment⟩
    refine ⟨fun page inside some_start => ?_, fun page inside single => ?_,
      fun page inside multiple entry inList _ => (entries page inside multiple entry inList).2.1.ne,
      fun page inside multiple entry inList _ _ => ?_⟩
    · cases flag : flagged (segInfo.pageStart page) with
      | false => exact ((allows_single_iff flag 1 segIndex).mp (allowed page inside _ (.single flag))).2
      | true => exact (entries page inside ⟨some_start, flag⟩ _ (inList_first _)).2.2
    · exact ((allows_single_iff single 1 segIndex).mp (allowed page inside _ (.single single))).1.ne
    · obtain ⟨inTable, inPage, -⟩ := entries page inside multiple entry inList
      exact ⟨inPage, inTable⟩
  · intro harmless page inside event done
    cases done with
    | reads =>
        change offsetOfPageStart (page + 1) ≤ segInfo.size
        rw [offsetOfPageStart] at *
        omega
    | single single =>
        have ne : segInfo.pageStart page ≠ startNone := by
          intro eq
          rw [eq] at single
          exact absurd single (by decide)
        exact (allows_single_iff single 1 segIndex).mpr
          ⟨(single_le_of_checkPage (accepted page inside) single).lt_of_ne (harmless.single page inside single),
            harmless.pages page inside ne⟩
    | @list multiple entry inList event member =>
        obtain ⟨last, validated⟩ := validatedList_of_checkPage (accepted page inside) multiple
        refine (allows_entry_iff pageStarts inside multiple validated inList 1 segIndex).mpr ?_ event member
        have inSegment := harmless.pages page inside multiple.1
        have beyond := validated.entry_le inList
        by_cases checked : entry = unflagged (segInfo.pageStart page) ∨ flagged (segInfo.pageStart entry) = false
        · obtain ⟨small, upto⟩ := validated.checked inList checked
          exact ⟨fun _ => upto.trans validated.bound,
            small.lt_of_ne (harmless.checked page inside multiple entry inList checked), inSegment, beyond⟩
        · push Not at checked
          obtain ⟨inPage, inTable⟩ := harmless.last page inside multiple entry inList
            (inList.1.lt_of_ne checked.1.symm) (by simpa using checked.2)
          exact ⟨inTable, inPage, inSegment, beyond⟩

/-- The walker never goes behind the entries that the validator has checked when lists are single
entries. -/
theorem entries_le_iff {first last : ℕ} (validated : segInfo.Validated first last) :
    (∀ entry, segInfo.InList first entry → entry ≤ last) ↔ flagged (segInfo.pageStart first) = true := by
  constructor
  · intro upto
    by_contra unended
    refine absurd (upto (last + 1) ⟨Nat.le_succ_of_le validated.le, fun index low high => ?_⟩) (by omega)
    rcases Nat.eq_or_lt_of_le low with rfl | after
    · simpa using unended
    · exact validated.goes_on index after (Nat.lt_succ_iff.mp high)
  · intro ended entry inList
    rcases Nat.eq_or_lt_of_le inList.1 with rfl | after
    · exact validated.le
    · have unended := inList.2 first le_rfl after
      rw [ended] at unended
      exact absurd unended (by simp)

theorem allows_checked_iff (pageStarts : offsetOfPageStart segInfo.pageCount ≤ segInfo.size)
    (accepted : ∀ pageIndex < segInfo.pageCount, segInfo.checkPage pageIndex = true) (segIndex : ℕ) :
    (∀ pageIndex < segInfo.pageCount, ∀ event, segInfo.PageEvent segIndex pageIndex event →
      segInfo.Allows segment 0 event) ↔ segInfo.Harmless segment ∧ segInfo.SingleEntries := by
  rw [← allows_iff pageStarts accepted segIndex]
  constructor
  · intro allowed
    refine ⟨fun page inside event done => ?_, fun page inside multiple => ?_⟩
    · have allowed := allowed page inside event done
      cases event with
      | reads => exact allowed
      | starts start =>
          obtain ⟨inPage, inSegment, ends⟩ := allowed
          exact ⟨inPage, inSegment, fun multiple last found => (ends multiple last found).trans (Nat.le_succ last)⟩
    · obtain ⟨last, validated⟩ := validatedList_of_checkPage (accepted page inside) multiple
      refine (entries_le_iff validated).mp fun entry inList => ?_
      exact ((allows_entry_iff pageStarts inside multiple validated inList 0 segIndex).mp fun event member =>
        allowed page inside event (.list multiple inList member)).2.2.2
  · rintro ⟨allowed, singles⟩ page inside event done
    have allows := allowed page inside event done
    cases done with
    | reads => exact allows
    | single single => exact (allows_single_iff single 0 segIndex).mpr ((allows_single_iff single 1 segIndex).mp allows)
    | @list multiple entry inList event member =>
        obtain ⟨last, validated⟩ := validatedList_of_checkPage (accepted page inside) multiple
        obtain ⟨inTable, inPage, inSegment, -⟩ :=
          (allows_entry_iff pageStarts inside multiple validated inList 1 segIndex).mp fun event member =>
            allowed page inside event (.list multiple inList member)
        exact (allows_entry_iff pageStarts inside multiple validated inList 0 segIndex).mpr ⟨inTable, inPage, inSegment,
          (entries_le_iff validated).mpr (singles page inside multiple) entry inList⟩ event member

end SegmentStarts

def WalkEvent.segIndex : WalkEvent → ℕ
  | .reads segIndex _ => segIndex
  | .starts start => start.segIndex

theorem SegmentStarts.PageEvent.segIndex_eq {segInfo : SegmentStarts} {segIndex pageIndex : ℕ} {event : WalkEvent}
    (done : segInfo.PageEvent segIndex pageIndex event) : event.segIndex = segIndex := by
  cases done with
  | reads => rfl
  | single => rfl
  | list _ _ member =>
      rcases List.mem_cons.mp member with rfl | member
      · rfl
      · obtain rfl := List.mem_singleton.mp member
        rfl

namespace Fixups

variable (fixups : Fixups)

/-- The readers of the payload stay inside of what they may read, start and name. -/
structure Sound (beyond : ℕ) : Prop where
  structures : ∀ index < fixups.segCount, fixups.segInfoOffset index ≠ 0 →
    fixups.startsOffset ≤ (fixups.segInfo index).address ∧
      (fixups.segInfo index).address + (fixups.segInfo index).size ≤ fixups.importsOffset
  starts : ∀ stops, ∃ enough, ∀ fuel ≥ enough, ∃ events, fixups.startsInfo.forEachFixupInAllChains stops fuel = some events ∧
    ∀ event ∈ events, (fixups.segInfo event.segIndex).Allows (fixups.segmentsInfo event.segIndex) beyond event
  imports : ∀ stops, ∃ events, fixups.forEachChainedFixupTarget stops = some events ∧
    (∀ address size, .reads address size ∈ events → address + size ≤ fixups.datasize) ∧
    ∀ target, .target target ∈ events → fixups.symbolsOffset + target.nameOffset < fixups.datasize

/-- What the validator does not look at, and what both let through by one, is in order. -/
structure Harmless : Prop where
  segments : ∀ index < fixups.segCount, fixups.segInfoOffset index ≠ 0 →
    (fixups.segInfo index).Harmless (fixups.segmentsInfo index)
  /-- No name that is reached starts at the end of the symbol pool. -/
  names : fixups.symbolsOffset ≤ fixups.datasize →
    ∀ index, fixups.Reported index → (fixups.importAt index).nameOffset ≠ fixups.maxSymbolOffset

variable {fixups}

theorem accepted_of_valid (valid : fixups.validChainedFixupsInfo = true) :
    fixups.validHeader = true ∧
      ∀ index < fixups.segCount, fixups.segInfoOffset index ≠ 0 → fixups.AcceptedSegment index := by
  rw [validChainedFixupsInfo, Bool.and_eq_true, Bool.and_eq_true] at valid
  obtain ⟨⟨header, -⟩, valid⟩ := valid
  refine ⟨header, ?_⟩
  cases run : (List.range fixups.segCount).foldlM fixups.checkSegment 0 with
  | none =>
      rw [run] at valid
      exact absurd valid (by simp)
  | some seen => exact ((checkSegments_iff _ _).mp run).1

theorem AcceptedSegment.bounds {index : ℕ} (accepted : fixups.AcceptedSegment index) :
    (fixups.segInfo index).address + (fixups.segInfo index).size ≤ fixups.importsOffset ∧
      SegmentStarts.offsetOfPageStart (fixups.segInfo index).pageCount ≤ (fixups.segInfo index).size := by
  have header := accepted.header
  simp only [checkSegmentHeader, Bool.and_eq_true, decide_eq_true_eq] at header
  exact ⟨header.1.1.1.1, header.2⟩

theorem walk_spec (accepted : ∀ index < fixups.segCount, fixups.segInfoOffset index ≠ 0 → fixups.AcceptedSegment index)
    (stops : ChainStart → Bool) (fuel : ℕ) (enough : fixups.importsOffset + 2 ≤ fuel) :
    ∃ events, fixups.startsInfo.forEachFixupInAllChains stops fuel = some events ∧
      (∀ event ∈ events, ∃ segIndex pageIndex, fixups.startsInfo.WalkDoes segIndex pageIndex event) ∧
      ((∀ start, stops start = false) →
        ∀ segIndex pageIndex event, fixups.startsInfo.WalkDoes segIndex pageIndex event → event ∈ events) := by
  refine StartsInImage.forEachFixupInAllChains_spec
    (fun index less hasFixups => (accepted index less hasFixups).pages) stops fuel fun index less hasFixups => ?_
  have bounds := (accepted index less hasFixups).bounds.1
  change (fixups.segInfo index).maxOverflowIndex + 2 ≤ fuel
  rw [SegmentStarts.maxOverflowIndex]
  omega

theorem starts_iff (accepted : ∀ index < fixups.segCount, fixups.segInfoOffset index ≠ 0 → fixups.AcceptedSegment index)
    (beyond : ℕ) :
    (∀ stops, ∃ enough, ∀ fuel ≥ enough, ∃ events, fixups.startsInfo.forEachFixupInAllChains stops fuel = some events ∧
      ∀ event ∈ events, (fixups.segInfo event.segIndex).Allows (fixups.segmentsInfo event.segIndex) beyond event) ↔
      ∀ index < fixups.segCount, fixups.segInfoOffset index ≠ 0 →
        ∀ page < (fixups.segInfo index).pageCount, ∀ event, (fixups.segInfo index).PageEvent index page event →
          (fixups.segInfo index).Allows (fixups.segmentsInfo index) beyond event := by
  constructor
  · intro allowed index less hasFixups page inside event done
    obtain ⟨enough, allowed⟩ := allowed fun _ => false
    obtain ⟨events, run, allowed⟩ := allowed (max enough (fixups.importsOffset + 2)) (le_max_left _ _)
    obtain ⟨events', run', -, all⟩ := walk_spec accepted (fun _ => false)
      (max enough (fixups.importsOffset + 2)) (le_max_right _ _)
    obtain rfl := Option.some.inj (run.symm.trans run')
    have allows := allowed event (all (fun _ => rfl) index page event ⟨less, hasFixups, inside, done⟩)
    rwa [done.segIndex_eq] at allows
  · intro allowed stops
    refine ⟨fixups.importsOffset + 2, fun fuel enough => ?_⟩
    obtain ⟨events, run, only, -⟩ := walk_spec accepted stops fuel enough
    refine ⟨events, run, fun event member => ?_⟩
    obtain ⟨index, page, does⟩ := only event member
    rw [does.event.segIndex_eq]
    exact allowed index does.segment does.hasFixups page does.page event does.event

theorem imports_iff (header : fixups.validHeader = true) :
    (∀ stops, ∃ events, fixups.forEachChainedFixupTarget stops = some events ∧
      (∀ address size, .reads address size ∈ events → address + size ≤ fixups.datasize) ∧
      ∀ target, .target target ∈ events → fixups.symbolsOffset + target.nameOffset < fixups.datasize) ↔
      (fixups.symbolsOffset ≤ fixups.datasize →
        ∀ index, fixups.Reported index → (fixups.importAt index).nameOffset ≠ fixups.maxSymbolOffset) := by
  obtain ⟨formatEntrySize, format, inside, room⟩ : ∃ formatEntrySize, fixups.formatEntrySize = some formatEntrySize ∧
      fixups.importsOffset < fixups.datasize ∧
      fixups.importsOffset + formatEntrySize * fixups.importsCount ≤ fixups.symbolsOffset := by
    simp only [validHeader, Bool.and_eq_true, decide_eq_true_eq] at header
    obtain ⟨⟨⟨⟨⟨-, -⟩, inside⟩, -⟩, sized⟩, -⟩ := header
    cases format : fixups.formatEntrySize with
    | none =>
        rw [format] at sized
        exact absurd sized (by simp)
    | some formatEntrySize =>
        rw [format] at sized
        exact ⟨formatEntrySize, rfl, inside, of_decide_eq_true sized⟩
  constructor
  · intro sound symbols index reported same
    obtain ⟨events, run, -, named⟩ := sound fun _ => false
    have starts := named _ (mem_forEachChainedFixupTarget format inside.le symbols reported run)
    rw [same, maxSymbolOffset] at starts
    omega
  · intro harmless stops
    obtain ⟨events, run, read, named⟩ := forEachChainedFixupTarget_spec format stops
    refine ⟨events, run, fun address size member => ?_, fun target member => ?_⟩
    · obtain ⟨symbols, index, less, rfl, same⟩ := read address size member
      rw [same]
      have next : formatEntrySize * (index + 1) ≤ formatEntrySize * fixups.importsCount := Nat.mul_le_mul_left _ less
      rw [Nat.mul_succ] at next
      omega
    · obtain ⟨symbols, index, reported, rfl⟩ := named target member
      have small := reported.2 index le_rfl
      have differ := harmless symbols index reported
      rw [maxSymbolOffset] at small differ
      omega

/-- For an accepted payload the readers are safe exactly when what is not looked at is in order; that
the walker stays with the entries which the validator has checked takes lists of single starts. -/
theorem sound_iff (fixups : Fixups) (valid : fixups.validChainedFixupsInfo = true) :
    (fixups.Sound 1 ↔ fixups.Harmless) ∧
      (fixups.Sound 0 ↔ fixups.Harmless ∧ ∀ index < fixups.segCount, fixups.segInfoOffset index ≠ 0 →
        (fixups.segInfo index).SingleEntries) := by
  obtain ⟨header, accepted⟩ := accepted_of_valid valid
  have structures : ∀ index < fixups.segCount, fixups.segInfoOffset index ≠ 0 →
      fixups.startsOffset ≤ (fixups.segInfo index).address ∧
        (fixups.segInfo index).address + (fixups.segInfo index).size ≤ fixups.importsOffset :=
    fun index less hasFixups => ⟨Nat.le_add_right _ _, (accepted index less hasFixups).bounds.1⟩
  constructor
  · constructor
    · intro sound
      refine ⟨fun index less hasFixups => ?_, (imports_iff header).mp sound.imports⟩
      have accepted' := accepted index less hasFixups
      exact (SegmentStarts.allows_iff accepted'.bounds.2 accepted'.pages index).mp
        ((starts_iff accepted 1).mp sound.starts index less hasFixups)
    · intro harmless
      refine ⟨structures, (starts_iff accepted 1).mpr fun index less hasFixups => ?_,
        (imports_iff header).mpr harmless.names⟩
      have accepted' := accepted index less hasFixups
      exact (SegmentStarts.allows_iff accepted'.bounds.2 accepted'.pages index).mpr
        (harmless.segments index less hasFixups)
  · constructor
    · intro sound
      have checked := fun index less hasFixups =>
        (SegmentStarts.allows_checked_iff (accepted index less hasFixups).bounds.2
          (accepted index less hasFixups).pages index).mp
          ((starts_iff accepted 0).mp sound.starts index less hasFixups)
      exact ⟨⟨fun index less hasFixups => (checked index less hasFixups).1, (imports_iff header).mp sound.imports⟩,
        fun index less hasFixups => (checked index less hasFixups).2⟩
    · rintro ⟨harmless, singles⟩
      refine ⟨structures, (starts_iff accepted 0).mpr fun index less hasFixups => ?_,
        (imports_iff header).mpr harmless.names⟩
      have accepted' := accepted index less hasFixups
      exact (SegmentStarts.allows_checked_iff accepted'.bounds.2 accepted'.pages index).mpr
        ⟨harmless.segments index less hasFixups, singles index less hasFixups⟩

theorem sound_iff_behindTwoPages : behindTwoPages.Sound 1 ↔ behindTwoPages.Harmless :=
  (sound_iff behindTwoPages (by decide +kernel)).1

/-- The last start of the first page is at 0x7000, in pages of 0x1000 bytes. -/
def lastStartOutside : Fixups := payloadOfStarts 30 2 [2, 0x80, 0xFF, 0xFF, 0x10, 0, 0, 0xF0]

theorem not_sound_lastStartOutside :
    lastStartOutside.validChainedFixupsInfo = true ∧ ¬lastStartOutside.Sound 1 := by
  have valid : lastStartOutside.validChainedFixupsInfo = true := by decide +kernel
  refine ⟨valid, fun sound => ?_⟩
  have multiple : (lastStartOutside.segInfo 1).MultipleStarts 0 := by decide +kernel
  have inList : (lastStartOutside.segInfo 1).InList (unflagged ((lastStartOutside.segInfo 1).pageStart 0)) 3 :=
    ⟨by decide +kernel, by decide +kernel⟩
  have allows := (starts_iff (accepted_of_valid valid).2 1).mp sound.starts 1 (by decide +kernel) (by decide +kernel) 0
    (by decide +kernel) _ (.list multiple inList (List.mem_cons_of_mem _ (List.mem_singleton_self _)))
  exact absurd allows.1 (by decide +kernel)

end Fixups

end ObjcDyld.ChainedFixups
