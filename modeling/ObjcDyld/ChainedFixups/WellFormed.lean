import ObjcDyld.ChainedFixups.Payload

/-!
# Which payloads of the format the validator accepts

The format says where a list of starts ends by a flag on its last entry; the validator looks
for the flag on the entry after the one that it has checked, and counts a list's entries from
the start of the table against the number of entries after those of the pages.
-/

namespace ObjcDyld.ChainedFixups

namespace SegmentStarts

variable (segInfo : SegmentStarts)

/-- A list of starts in the entries from the first to the last one. -/
@[mk_iff] structure WellFormedList (first last : ℕ) : Prop where
  behind_pages : segInfo.pageCount ≤ first
  le : first ≤ last
  inside : offsetOfPageStart (last + 1) ≤ segInfo.size
  goes_on : ∀ index, first ≤ index → index < last → flagged (segInfo.pageStart index) = false
  ends : flagged (segInfo.pageStart last) = true
  inPage : ∀ index, first ≤ index → index ≤ last → unflagged (segInfo.pageStart index) < segInfo.pageSize
  ascends : ∀ index, first ≤ index → index < last →
    unflagged (segInfo.pageStart index) < unflagged (segInfo.pageStart (index + 1))

instance (first last : ℕ) : Decidable (segInfo.WellFormedList first last) :=
  decidable_of_iff' _ (segInfo.wellFormedList_iff first last)

/-- The three kinds of entries of pages. -/
structure WellFormedStart (pageIndex : ℕ) : Prop where
  single : flagged (segInfo.pageStart pageIndex) = false →
    (segInfo.pageStart pageIndex).toNat < segInfo.pageSize
  multiple : segInfo.MultipleStarts pageIndex →
    ∃ last, segInfo.WellFormedList (unflagged (segInfo.pageStart pageIndex)) last

instance (pageIndex : ℕ) : Decidable (segInfo.WellFormedStart pageIndex) :=
  decidable_of_iff ((flagged (segInfo.pageStart pageIndex) = false →
      (segInfo.pageStart pageIndex).toNat < segInfo.pageSize) ∧
    (segInfo.MultipleStarts pageIndex → ∃ last < segInfo.size,
      segInfo.WellFormedList (unflagged (segInfo.pageStart pageIndex)) last))
    ⟨fun ⟨single, multiple⟩ => ⟨single, fun flag => (multiple flag).imp fun _ => And.right⟩,
      fun start => ⟨start.single, fun flag => (start.multiple flag).imp fun last list =>
        ⟨by have inside := list.inside; rw [offsetOfPageStart] at inside; omega, list⟩⟩⟩

/-- What the validator runs over instead of a list of one entry: the entries up to the next one
with a flag. -/
structure PassesBeyond (first next : ℕ) : Prop where
  later : first < next
  bound : next ≤ segInfo.maxOverflowIndex + 1
  ends : flagged (segInfo.pageStart next) = true
  goes_on : ∀ index, first < index → index < next → flagged (segInfo.pageStart index) = false
  inPage : ∀ index, first < index → index < next → unflagged (segInfo.pageStart index) ≤ segInfo.pageSize
  ascends : ∀ index, first ≤ index → index + 1 < next → segInfo.Ascends index (index + 1)

/-- A list of several entries has to end in an entry that the count of entries after those of the
pages, taken as an index, allows; one of a single entry has to be followed by entries that pass. -/
def ListPasses (first last : ℕ) : Prop :=
  (first < last ∧ last ≤ segInfo.maxOverflowIndex + 1) ∨ (first = last ∧ ∃ next, segInfo.PassesBeyond first next)

def ListsPass : Prop :=
  ∀ pageIndex < segInfo.pageCount, segInfo.MultipleStarts pageIndex →
    ∀ last, segInfo.WellFormedList (unflagged (segInfo.pageStart pageIndex)) last →
      segInfo.ListPasses (unflagged (segInfo.pageStart pageIndex)) last

variable {segInfo}

theorem WellFormedList.unique {first last last' : ℕ} (list : segInfo.WellFormedList first last)
    (list' : segInfo.WellFormedList first last') : last = last' := by
  rcases Nat.lt_trichotomy last last' with before | same | after
  · have unended := list'.goes_on last list.le before
    rw [list.ends] at unended
    exact absurd unended (by simp)
  · exact same
  · have unended := list.goes_on last' list'.le after
    rw [list'.ends] at unended
    exact absurd unended (by simp)

theorem validated_several_iff {first last : ℕ} (wellFormed : segInfo.WellFormedList first last)
    (several : first < last) :
    (∃ validated, segInfo.Validated first validated) ↔ last ≤ segInfo.maxOverflowIndex + 1 := by
  constructor
  · rintro ⟨ended, validated⟩
    suffices ended + 1 = last by
      have bound := validated.bound
      omega
    rcases Nat.lt_trichotomy (ended + 1) last with before | same | after
    · have unended := wellFormed.goes_on (ended + 1) (Nat.le_succ_of_le validated.le) before
      rw [validated.ends] at unended
      exact absurd unended (by simp)
    · exact same
    · have unended := validated.goes_on last several (Nat.lt_succ_iff.mp after)
      rw [wellFormed.ends] at unended
      exact absurd unended (by simp)
  · intro bound
    obtain ⟨ended, rfl⟩ : ∃ ended, last = ended + 1 := ⟨last - 1, by omega⟩
    exact ⟨ended, {
      le := Nat.lt_succ_iff.mp several
      bound := Nat.succ_le_succ_iff.mp bound
      ends := wellFormed.ends
      goes_on := fun index after upto => wellFormed.goes_on index after.le (Nat.lt_succ_iff.mpr upto)
      inPage := fun index from_first upto => (wellFormed.inPage index from_first (Nat.le_succ_of_le upto)).le
      ascends := fun index from_first less _ => wellFormed.ascends index from_first (Nat.lt_succ_of_lt less) }⟩

theorem validated_single_iff {first : ℕ} (wellFormed : segInfo.WellFormedList first first) :
    (∃ validated, segInfo.Validated first validated) ↔ ∃ next, segInfo.PassesBeyond first next := by
  constructor
  · rintro ⟨ended, validated⟩
    exact ⟨ended + 1, {
      later := Nat.lt_succ_iff.mpr validated.le
      bound := Nat.succ_le_succ validated.bound
      ends := validated.ends
      goes_on := fun index after less => validated.goes_on index after (Nat.lt_succ_iff.mp less)
      inPage := fun index after less => validated.inPage index after.le (Nat.lt_succ_iff.mp less)
      ascends := fun index from_first less => validated.ascends index from_first (Nat.succ_lt_succ_iff.mp less) }⟩
  · rintro ⟨next, passes⟩
    have later := passes.later
    obtain ⟨ended, rfl⟩ : ∃ ended, next = ended + 1 := ⟨next - 1, by omega⟩
    exact ⟨ended, {
      le := Nat.lt_succ_iff.mp later
      bound := Nat.succ_le_succ_iff.mp passes.bound
      ends := passes.ends
      goes_on := fun index after upto => passes.goes_on index after (Nat.lt_succ_iff.mpr upto)
      inPage := fun index from_first upto => by
        rcases Nat.eq_or_lt_of_le from_first with rfl | after
        · exact (wellFormed.inPage first le_rfl le_rfl).le
        · exact passes.inPage index after (Nat.lt_succ_iff.mpr upto)
      ascends := fun index from_first less => passes.ascends index from_first (Nat.succ_lt_succ less) }⟩

theorem validatedList_isSome_iff {first last : ℕ} (wellFormed : segInfo.WellFormedList first last) :
    (segInfo.validatedList first).isSome = true ↔ segInfo.ListPasses first last := by
  rw [Option.isSome_iff_exists]
  simp only [validatedList_iff]
  rcases Nat.eq_or_lt_of_le wellFormed.le with rfl | several
  · rw [validated_single_iff wellFormed]
    exact ⟨fun passes => .inr ⟨rfl, passes⟩, fun passes => passes.elim (fun both => absurd both.1 (lt_irrefl first)) And.right⟩
  · rw [validated_several_iff wellFormed several]
    exact ⟨fun bound => .inl ⟨several, bound⟩, fun passes => passes.elim And.right fun both => absurd both.1 several.ne⟩

theorem checkPage_iff {pageIndex : ℕ} (wellFormed : segInfo.WellFormedStart pageIndex) :
    segInfo.checkPage pageIndex = true ↔ (segInfo.MultipleStarts pageIndex →
      ∀ last, segInfo.WellFormedList (unflagged (segInfo.pageStart pageIndex)) last →
        segInfo.ListPasses (unflagged (segInfo.pageStart pageIndex)) last) := by
  rw [checkPage]
  by_cases none : segInfo.pageStart pageIndex = startNone
  · rw [if_pos none]
    exact iff_of_true rfl fun multiple => absurd none multiple.1
  rw [if_neg none]
  cases flag : flagged (segInfo.pageStart pageIndex) with
  | false =>
      have inPage := wellFormed.single flag
      refine iff_of_true ?_ fun multiple => absurd (flag.symm.trans multiple.2) (by simp)
      simpa using inPage.le
  | true =>
      obtain ⟨last, list⟩ := wellFormed.multiple ⟨none, flag⟩
      rw [Bool.not_true, if_neg Bool.false_ne_true, validatedList_isSome_iff list]
      constructor
      · intro passes _ last' list'
        rwa [list'.unique list]
      · exact fun passes => passes ⟨none, flag⟩ last list

end SegmentStarts

namespace Fixups

variable (fixups : Fixups)

/-- `dyld_chained_fixups_header` and the imports: sizes and formats are in range. -/
@[mk_iff] structure WellFormedHeader : Prop where
  version : fixups.fixupsVersion = 0
  starts : fixups.startsOffset < fixups.datasize
  imports : fixups.importsOffset < fixups.datasize
  count : fixups.importsCount < 0xFFFF
  format : ∃ formatEntrySize ∈ fixups.formatEntrySize,
    fixups.importsOffset + formatEntrySize * fixups.importsCount ≤ fixups.symbolsOffset
  symbols : fixups.symbolsFormat = 0
  segments : fixups.segCount = fixups.linkeditSegIndex + 1

/-- `dyld_chained_starts_in_segment` of a segment with fixups. -/
@[mk_iff] structure WellFormedSegment (segInfo : SegmentStarts) (segment : SegmentRange) : Prop where
  size : segInfo.address + segInfo.size ≤ fixups.importsOffset
  pageSize : segInfo.pageSize = 0x1000 ∨ segInfo.pageSize = 0x4000
  pointerFormat : segInfo.pointerFormat ≤ 10
  segmentOffset : segInfo.segmentOffset = segment.vmAddr - fixups.preferredLoadAddress
  pageStarts : SegmentStarts.offsetOfPageStart segInfo.pageCount ≤ segInfo.size
  starts : ∀ pageIndex < segInfo.pageCount, segInfo.WellFormedStart pageIndex

/-- The starts table of the format, with all that it depends on. -/
@[mk_iff] structure WellFormed : Prop where
  header : fixups.WellFormedHeader
  segment : ∀ index < fixups.segCount, fixups.segInfoOffset index ≠ 0 →
    fixups.WellFormedSegment (fixups.segInfo index) (fixups.segmentsInfo index)
  /-- The segments agree on the largest pointer, which is beyond the image. -/
  maxValidPointer : ∀ index < fixups.segCount, fixups.declaredMax index ≠ 0 →
    (∀ other < fixups.segCount, fixups.declaredMax other ≠ 0 → fixups.declaredMax other = fixups.declaredMax index) ∧
    (fixups.inDyldCache = false → fixups.lastSegmentLastVMAddr ≤ fixups.declaredMax index)

instance : Decidable fixups.WellFormedHeader := decidable_of_iff' _ fixups.wellFormedHeader_iff

instance (segInfo : SegmentStarts) (segment : SegmentRange) :
    Decidable (fixups.WellFormedSegment segInfo segment) :=
  decidable_of_iff' _ (fixups.wellFormedSegment_iff segInfo segment)

instance : Decidable fixups.WellFormed := decidable_of_iff' _ fixups.wellFormed_iff

variable {fixups}

theorem validHeader_of_wellFormed (wellFormed : fixups.WellFormedHeader) : fixups.validHeader = true := by
  obtain ⟨formatEntrySize, format, room⟩ := wellFormed.format
  rw [Option.mem_def] at format
  simp [validHeader, wellFormed.version, wellFormed.starts, wellFormed.imports, wellFormed.count, wellFormed.symbols,
    format, room]

theorem checkSegmentHeader_of_wellFormed {index : ℕ}
    (wellFormed : fixups.WellFormedSegment (fixups.segInfo index) (fixups.segmentsInfo index)) :
    fixups.checkSegmentHeader index = true := by
  simp [checkSegmentHeader, wellFormed.size, wellFormed.pageSize, wellFormed.pointerFormat, wellFormed.segmentOffset,
    wellFormed.pageStarts]

theorem agreesOnMax_of_wellFormed (wellFormed : fixups.WellFormed) :
    ∃ seen, fixups.AgreesOnMax fixups.segCount seen ∧
      (seen ≠ 0 → fixups.inDyldCache = false → fixups.lastSegmentLastVMAddr ≤ seen) := by
  by_cases declared : ∃ index < fixups.segCount, fixups.declaredMax index ≠ 0
  · obtain ⟨index, less, nonzero⟩ := declared
    obtain ⟨agree, large⟩ := wellFormed.maxValidPointer index less nonzero
    exact ⟨fixups.declaredMax index, ⟨agree, fun _ => ⟨index, less, rfl⟩⟩, fun _ => large⟩
  · push Not at declared
    exact ⟨0, ⟨fun index less nonzero => absurd (declared index less) nonzero, fun nonzero => absurd rfl nonzero⟩,
      fun nonzero => absurd rfl nonzero⟩

theorem acceptedSegment_iff {index : ℕ}
    (wellFormed : fixups.WellFormedSegment (fixups.segInfo index) (fixups.segmentsInfo index)) :
    fixups.AcceptedSegment index ↔ (fixups.segInfo index).ListsPass := by
  constructor
  · intro accepted page inside
    exact (SegmentStarts.checkPage_iff (wellFormed.starts page inside)).mp (accepted.pages page inside)
  · intro passes
    refine ⟨checkSegmentHeader_of_wellFormed wellFormed, fun page inside => ?_⟩
    exact (SegmentStarts.checkPage_iff (wellFormed.starts page inside)).mpr (passes page inside)

/-- A payload of the format is accepted exactly when each list of starts passes. -/
theorem validChainedFixupsInfo_iff (fixups : Fixups) (wellFormed : fixups.WellFormed) :
    fixups.validChainedFixupsInfo = true ↔
      ∀ index < fixups.segCount, fixups.segInfoOffset index ≠ 0 → (fixups.segInfo index).ListsPass := by
  have starts := fun index less nonzero => acceptedSegment_iff (wellFormed.segment index less nonzero)
  simp only [validChainedFixupsInfo, validHeader_of_wellFormed wellFormed.header, wellFormed.header.segments,
    Bool.true_and, decide_true]
  rw [← wellFormed.header.segments]
  constructor
  · intro accepted index less nonzero
    cases run : (List.range fixups.segCount).foldlM fixups.checkSegment 0 with
    | none =>
        rw [run] at accepted
        exact absurd accepted (by simp)
    | some seen =>
        exact (starts index less nonzero).mp (((checkSegments_iff _ _).mp run).1 index less nonzero)
  · intro passes
    obtain ⟨seen, agrees, large⟩ := agreesOnMax_of_wellFormed wellFormed
    have run := (checkSegments_iff fixups.segCount seen).mpr
      ⟨fun index less nonzero => (starts index less nonzero).mpr (passes index less nonzero), agrees⟩
    rw [run]
    by_cases zero : seen = 0
    · simp [zero]
    · cases cached : fixups.inDyldCache with
      | true => simp
      | false =>
          have fits := large zero cached
          simp [fits]

/-- A program with fixups in its second segment of three. -/
def payloadOfStarts (size pageCount : BitVec 8) (pageStarts : List (BitVec 8)) : Fixups where
  memory address :=
    ([0, 0, 0, 0, 28, 0, 0, 0, 76, 0, 0, 0, 76, 0, 0, 0, 0, 0, 0, 0, 1, 0, 0, 0, 0, 0, 0, 0] ++
      [3, 0, 0, 0, 0, 0, 0, 0, 16, 0, 0, 0, 0, 0, 0, 0] ++
      [size, 0, 0, 0, 0, 0x10, 3, 0, 0, 0x10, 0, 0, 0, 0, 0, 0, 0, 0, 0, 0, pageCount, 0] ++ pageStarts).getD address 0
  datasize := 80
  linkeditSegIndex := 2
  segmentsInfo index := ⟨0x4000 + 0x1000 * BitVec.ofNat 64 index, 0x3000⟩
  preferredLoadAddress := 0x4000
  inDyldCache := false

/-- Starts at 0x10 and 0x20 of the first page. -/
def behindTwoPages : Fixups := payloadOfStarts 30 2 [2, 0x80, 0xFF, 0xFF, 0x10, 0, 0x20, 0x80]

/-- The same with one more page without fixups. -/
def behindThreePages : Fixups := payloadOfStarts 32 3 [3, 0x80, 0xFF, 0xFF, 0xFF, 0xFF, 0x10, 0, 0x20, 0x80]

theorem listsPass_behindTwoPages : (behindTwoPages.segInfo 1).ListsPass :=
  (validChainedFixupsInfo_iff behindTwoPages (by decide +kernel)).mp (by decide +kernel) 1 (by decide +kernel)
    (by decide +kernel)

theorem not_validChainedFixupsInfo_behindThreePages :
    behindThreePages.WellFormed ∧ behindThreePages.validChainedFixupsInfo = false := by
  decide +kernel

end Fixups

end ObjcDyld.ChainedFixups
