import ObjcDyld.ChainedFixups.ChainStarts

/-!
# When the starts table of an old arm64e image is the one of its opcodes

The block for the chain starts appends to one record after another. A start that does not come in
the order in which records are filled loses one that is in the table, and no later start brings
it back.
-/

namespace ObjcDyld.ChainedFixups

open ByteMemory StoppableLoops

def WalkEvent.chainStart : WalkEvent → Option ChainStart
  | .reads _ _ => none
  | .starts start => some start

namespace StartsInImage

variable (starts : StartsInImage)

def location (start : ChainStart) : ℕ × ℕ :=
  (start.segIndex, (starts.segInfo start.segIndex).pageSize * start.pageIndex + start.offsetInPage)

/-- No page has multiple starts. -/
def Plain : Prop :=
  ∀ index < starts.segCount, starts.segInfoOffset index ≠ 0 → ∀ page < (starts.segInfo index).pageCount,
    (starts.segInfo index).pageStart page = startNone ∨ flagged ((starts.segInfo index).pageStart page) = false

def startedPages (segIndex : ℕ) : List ℕ :=
  (List.range (starts.segInfo segIndex).pageCount).filter fun page =>
    (starts.segInfo segIndex).pageStart page ≠ startNone

/-- The segments and pages that have a start. -/
def started : List (ℕ × ℕ) :=
  (List.range starts.segCount).flatMap fun segIndex =>
    if starts.segInfoOffset segIndex = 0 then [] else (starts.startedPages segIndex).map fun page => (segIndex, page)

def startOf (page : ℕ × ℕ) : ChainStart :=
  ⟨page.1, page.2, page.2, ((starts.segInfo page.1).pageStart page.2).toNat⟩

variable {starts}

theorem mem_started_iff {page : ℕ × ℕ} :
    page ∈ starts.started ↔ page.1 < starts.segCount ∧ starts.segInfoOffset page.1 ≠ 0 ∧
      page.2 < (starts.segInfo page.1).pageCount ∧ (starts.segInfo page.1).pageStart page.2 ≠ startNone := by
  rw [started, List.mem_flatMap]
  constructor
  · rintro ⟨index, less, member⟩
    split at member
    · exact absurd member List.not_mem_nil
    next hasFixups =>
    obtain ⟨number, filtered, rfl⟩ := List.mem_map.mp member
    obtain ⟨inside, some_start⟩ := List.mem_filter.mp filtered
    exact ⟨List.mem_range.mp less, hasFixups, List.mem_range.mp inside, of_decide_eq_true some_start⟩
  · rintro ⟨less, hasFixups, inside, some_start⟩
    refine ⟨page.1, List.mem_range.mpr less, ?_⟩
    rw [if_neg hasFixups]
    exact List.mem_map.mpr ⟨page.2, List.mem_filter.mpr ⟨List.mem_range.mpr inside, decide_eq_true some_start⟩, rfl⟩

theorem started_nodup (starts : StartsInImage) : starts.started.Nodup := by
  rw [started, List.nodup_flatMap]
  refine ⟨fun index _ => ?_, List.nodup_range.imp ?_⟩
  · split
    · exact List.nodup_nil
    · exact (List.nodup_range.filter _).map fun page other same => congrArg Prod.snd same
  · intro index other ne page member member'
    refine ne ?_
    have segment : ∀ index, page ∈ (if starts.segInfoOffset index = 0 then []
        else (starts.startedPages index).map fun page => (index, page)) → page.1 = index := by
      intro index member
      split at member
      · exact absurd member List.not_mem_nil
      · obtain ⟨number, -, rfl⟩ := List.mem_map.mp member
        rfl
    exact (segment index member).symm.trans (segment other member')

def plainEvents (starts : StartsInImage) (segIndex page : ℕ) : List WalkEvent :=
  if (starts.segInfo segIndex).pageStart page = startNone then [.reads segIndex page]
  else [.reads segIndex page, .starts (starts.startOf (segIndex, page))]

theorem walkPage_plain {segIndex page : ℕ} (fuel : ℕ)
    (plain : (starts.segInfo segIndex).pageStart page = startNone ∨
      flagged ((starts.segInfo segIndex).pageStart page) = false) :
    (starts.segInfo segIndex).walkPage (fun _ => false) fuel segIndex page =
      some (starts.plainEvents segIndex page, false) := by
  rw [SegmentStarts.walkPage, plainEvents]
  by_cases none : (starts.segInfo segIndex).pageStart page = startNone
  · rw [if_pos none, if_pos none]
  · rw [if_neg none, if_neg none, plain.resolve_left none]
    rfl

theorem filterMap_plainEvents (starts : StartsInImage) (segIndex : ℕ) :
    ((List.range (starts.segInfo segIndex).pageCount).flatMap (starts.plainEvents segIndex)).filterMap
        WalkEvent.chainStart =
      ((starts.startedPages segIndex).map fun page => (segIndex, page)).map starts.startOf := by
  rw [startedPages]
  induction List.range (starts.segInfo segIndex).pageCount with
  | nil => rfl
  | cons page pages ih =>
      rw [List.flatMap_cons, List.filterMap_append, ih, plainEvents]
      by_cases none : (starts.segInfo segIndex).pageStart page = startNone
      · rw [if_pos none, List.filter_cons_of_neg (by simpa using none)]
        rfl
      · rw [if_neg none, List.filter_cons_of_pos (by simpa using none)]
        rfl

theorem forEachFixupInAllChains_plain (plain : starts.Plain) (fuel : ℕ) :
    ∃ events, starts.forEachFixupInAllChains (fun _ => false) fuel = some events ∧
      events.filterMap WalkEvent.chainStart = starts.started.map starts.startOf := by
  let segmentEvents := fun segIndex => if starts.segInfoOffset segIndex = 0 then []
    else (List.range (starts.segInfo segIndex).pageCount).flatMap (starts.plainEvents segIndex)
  have segments : ∀ segIndex ∈ List.range starts.segCount,
      starts.walkSegment (fun _ => false) fuel segIndex = some (segmentEvents segIndex, false) := by
    intro segIndex member
    rw [walkSegment]
    change _ = some ((if _ then _ else _), false)
    split
    · rfl
    · next hasFixups =>
        exact untilStopped_flatMap fun page inside => walkPage_plain fuel
          (plain segIndex (List.mem_range.mp member) hasFixups page (List.mem_range.mp inside))
  refine ⟨(List.range starts.segCount).flatMap segmentEvents, ?_, ?_⟩
  · rw [forEachFixupInAllChains, untilStopped_flatMap segments]
    rfl
  · rw [started, List.filterMap_flatMap, List.map_flatMap]
    refine List.flatMap_congr fun segIndex _ => ?_
    change List.filterMap _ (if _ then _ else _) = _
    split
    · rfl
    · exact starts.filterMap_plainEvents segIndex

end StartsInImage

def pageOf (start : ℕ × BitVec 64) : ℕ × ℕ := (start.1, pageIndexOf start.2)

/-- The offset in its page of a chain start. -/
def entryOf (start : ℕ × BitVec 64) : BitVec 16 := BitVec.ofNat 16 (start.2 &&& 0xFFF).toNat

theorem toNat_entryOf (start : ℕ × BitVec 64) : (entryOf start).toNat = start.2.toNat % 4096 := by
  have masked : (start.2 &&& 0xFFF).toNat = start.2.toNat % 4096 := by
    rw [BitVec.toNat_and]
    exact Nat.and_two_pow_sub_one_eq_mod _ 12
  rw [entryOf, masked, BitVec.toNat_ofNat]
  omega

theorem flagged_entryOf (start : ℕ × BitVec 64) : flagged (entryOf start) = false := by
  have small : (entryOf start).toNat < 2 ^ 15 := by
    have value := toNat_entryOf start
    omega
  have masked : entryOf start &&& startFlag = 0 := by
    refine BitVec.eq_of_toNat_eq ?_
    rw [BitVec.toNat_and, show startFlag.toNat = 2 ^ 15 from rfl, Nat.and_two_pow, Nat.testBit_lt_two_pow small]
    rfl
  rw [flagged, masked]
  rfl

theorem entryOf_ne_none (start : ℕ × BitVec 64) : entryOf start ≠ startNone := by
  intro none
  have plain := flagged_entryOf start
  rw [none] at plain
  exact absurd plain (by decide)

variable {image : OldArm64e} {buffer after : Buffer} {start : ℕ × BitVec 64}

namespace OldArm64e

def segCount (image : OldArm64e) : ℕ := image.linkeditSegIndex.toNat

/-- The offset that belongs into a segment's record. -/
def segmentOffset (image : OldArm64e) (segIndex : ℕ) : BitVec 64 :=
  (image.segments segIndex).vmAddr - image.preferredLoadAddress

end OldArm64e

/-- The records lie one after another behind the header, the one that is written is the last, and
their entries are plain. -/
structure Laid (image : OldArm64e) (buffer : Buffer) : Prop where
  segCount : buffer.starts.segCount = image.segCount
  header : 4 + 4 * image.segCount ≤ buffer.curSeg
  written : buffer.curSeg ≤ buffer.written
  records : ∀ index < image.segCount, buffer.starts.segInfoOffset index ≠ 0 →
    4 + 4 * image.segCount ≤ buffer.starts.segInfoOffset index ∧
      (buffer.starts.segInfoOffset index = buffer.curSeg ∨
        buffer.starts.segInfoOffset index +
          SegmentStarts.offsetOfPageStart (buffer.starts.segInfo index).pageCount ≤ buffer.curSeg)
  plain : buffer.starts.Plain
  current : 0 < image.segCount → buffer.starts.segInfoOffset buffer.curSegIndex = buffer.curSeg ∨
    buffer.curSegIndex = 0 ∧ buffer.starts.segInfoOffset 0 = 0
  record : 0 < image.segCount → buffer.starts.segInfoOffset buffer.curSegIndex ≠ 0 →
    buffer.curSeg + SegmentStarts.offsetOfPageStart buffer.record.pageCount ≤ buffer.written ∧
      buffer.record.segmentOffset = image.segmentOffset buffer.curSegIndex ∧ buffer.record.pageSize = 0x1000

theorem segInfo_eq_record {index : ℕ} (current : buffer.starts.segInfoOffset index = buffer.curSeg) :
    buffer.starts.segInfo index = buffer.record := by
  rw [StartsInImage.segInfo, current]
  exact congrArg _ (Nat.zero_add _)

namespace Laid

theorem nextRecord_le (laid : Laid image buffer) (nonempty : 0 < image.segCount) : buffer.nextRecord ≤ buffer.written := by
  rw [Buffer.nextRecord]
  split
  · exact laid.written
  · next nonzero =>
      rcases laid.current nonempty with current | ⟨zero, -⟩
      · have header := laid.header
        exact (laid.record nonempty (by omega)).1
      · exact absurd zero nonzero

theorem stepped (laid : Laid image buffer) (run : addChainStart image buffer start = some after)
    (inside : start.1 < image.segCount) (small : buffer.written < 2 ^ 32) :
    buffer.Stepped image.segCount image start after :=
  Buffer.addChainStart_spec run inside laid.header fun _ =>
    (laid.nextRecord_le (Nat.zero_lt_of_lt inside)).trans_lt small

end Laid

namespace Buffer.Stepped

variable (step : buffer.Stepped image.segCount image start after)

include step

theorem unchanged {index : ℕ} (same : after.starts.segInfoOffset index = buffer.starts.segInfoOffset index)
    (low : 4 + 4 * image.segCount ≤ buffer.starts.segInfoOffset index)
    (high : buffer.starts.segInfoOffset index +
      SegmentStarts.offsetOfPageStart (buffer.starts.segInfo index).pageCount ≤ after.curSeg) :
    (after.starts.segInfo index).pageCount = (buffer.starts.segInfo index).pageCount ∧
      (after.starts.segInfo index).segmentOffset = (buffer.starts.segInfo index).segmentOffset ∧
      (after.starts.segInfo index).pageSize = (buffer.starts.segInfo index).pageSize ∧
      ∀ page < (buffer.starts.segInfo index).pageCount,
        (after.starts.segInfo index).pageStart page = (buffer.starts.segInfo index).pageStart page := by
  have frame : ∀ a k, 0 + buffer.starts.segInfoOffset index ≤ a → a + k ≤ buffer.starts.segInfoOffset index +
      SegmentStarts.offsetOfPageStart (buffer.starts.segInfo index).pageCount →
      load after.memory a k = load buffer.memory a k :=
    fun a k from_record upto => step.frame a k (by omega) (by omega)
  have address : after.starts.segInfo index = ⟨after.memory, 0 + buffer.starts.segInfoOffset index⟩ := by
    rw [StartsInImage.segInfo, same]
    rfl
  rw [address]
  rw [SegmentStarts.offsetOfPageStart] at frame
  refine ⟨frame (0 + buffer.starts.segInfoOffset index + 20) 2 (by omega) (by omega),
    congrArg (BitVec.ofNat 64) (frame (0 + buffer.starts.segInfoOffset index + 8) 8 (by omega) (by omega)),
    frame (0 + buffer.starts.segInfoOffset index + 4) 2 (by omega) (by omega), fun page less => ?_⟩
  refine congrArg (BitVec.ofNat 16)
    (frame (0 + buffer.starts.segInfoOffset index + SegmentStarts.offsetOfPageStart page) 2 (by omega) ?_)
  simp only [SegmentStarts.offsetOfPageStart]
  omega

theorem curSeg_le : buffer.curSeg ≤ after.curSeg := by
  rw [step.curSeg]
  split
  · exact le_rfl
  · exact buffer.le_nextRecord

theorem entries {page : ℕ} (less : page < after.record.pageCount) :
    page = pageIndexOf start.2 ∨ after.record.pageStart page = startNone ∨
      start.1 = buffer.curSegIndex ∧ page < buffer.record.pageCount ∧
        after.record.pageStart page = buffer.record.pageStart page := by
  rw [step.pageCount] at less
  rcases Nat.lt_trichotomy page (pageIndexOf start.2) with before | here | beyond
  · by_cases kept : start.1 = buffer.curSegIndex ∧ page < buffer.record.pageCount ∧
        buffer.record.pageCount ≤ pageIndexOf start.2
    · exact .inr (.inr ⟨kept.1, kept.2.1, step.kept kept.1 page kept.2.1 kept.2.2⟩)
    · exact .inr (.inl (step.gap page before (by omega)))
  · exact .inl here
  · have upto := Nat.mod_le (pageIndexOf start.2 + 1) 65536
    omega

theorem current_or_unchanged (laid : Laid image buffer) {index : ℕ} (inside : index < image.segCount)
    (hasFixups : after.starts.segInfoOffset index ≠ 0) :
    after.starts.segInfoOffset index = after.curSeg ∨
      after.starts.segInfoOffset index = buffer.starts.segInfoOffset index ∧
        4 + 4 * image.segCount ≤ buffer.starts.segInfoOffset index ∧
        buffer.starts.segInfoOffset index +
          SegmentStarts.offsetOfPageStart (buffer.starts.segInfo index).pageCount ≤ after.curSeg := by
  by_cases other : index ≠ start.1 ∨ start.1 = buffer.curSegIndex
  · have same := step.infoOffset_other index inside other
    rw [same] at hasFixups
    obtain ⟨low, current | before⟩ := laid.records index inside hasFixups
    · rw [segInfo_eq_record current, same, current, step.curSeg]
      by_cases stays : start.1 = buffer.curSegIndex
      · exact .inl (if_pos stays).symm
      · rw [if_neg stays, Buffer.nextRecord]
        split
        · exact .inl rfl
        · exact .inr ⟨rfl, laid.header, le_rfl⟩
    · exact .inr ⟨same, low, before.trans step.curSeg_le⟩
  · push Not at other
    obtain ⟨rfl, switched⟩ := other
    exact .inl (step.infoOffset switched)

theorem laid (laid : Laid image buffer) (inside : start.1 < image.segCount) : Laid image after := by
  refine ⟨step.segCount_eq.trans laid.segCount, laid.header.trans step.curSeg_le,
    (Nat.le_add_right _ _).trans step.record_le, fun index inside hasFixups => ?_, ?_, fun nonempty => ?_,
    fun _ _ => ⟨?_, ?_, step.pageSize⟩⟩
  · rcases step.current_or_unchanged laid inside hasFixups with current | ⟨same, low, high⟩
    · rw [current]
      exact ⟨laid.header.trans step.curSeg_le, .inl rfl⟩
    · rw [(step.unchanged same low high).1, same]
      exact ⟨low, .inr high⟩
  · intro index inside hasFixups page less
    rw [step.segCount_eq, laid.segCount] at inside
    rcases step.current_or_unchanged laid inside hasFixups with current | ⟨same, low, high⟩
    · rw [segInfo_eq_record current] at less ⊢
      rcases step.entries less with rfl | none | ⟨stays, before, same⟩
      · exact .inr (by rw [step.pageStart]; exact flagged_entryOf start)
      · exact .inl none
      · have current : buffer.starts.segInfoOffset index = buffer.curSeg := by
          rw [← step.infoOffset_other index inside (.inr stays), current, step.curSeg, if_pos stays]
        have header := laid.header
        have plain := laid.plain index (laid.segCount.symm ▸ inside) (by omega) page
        rw [segInfo_eq_record current] at plain
        rw [same]
        exact plain before
    · obtain ⟨count, -, -, starts⟩ := step.unchanged same low high
      rw [count] at less
      rw [starts page less]
      exact laid.plain index (laid.segCount.symm ▸ inside) (by omega) page less
  · rw [step.curSegIndex]
    by_cases stays : start.1 = buffer.curSegIndex
    · rw [step.infoOffset_other start.1 inside (.inr stays), step.curSeg, if_pos stays, stays]
      refine (laid.current nonempty).imp id ?_
      rintro ⟨zero, empty⟩
      refine ⟨zero, ?_⟩
      rw [zero] at stays
      rw [step.infoOffset_other 0 (stays ▸ inside) (.inr (stays.trans zero.symm)), empty]
    · exact .inl (step.infoOffset stays)
  · refine le_trans (Nat.add_le_add_left ?_ _) step.record_le
    rw [step.pageCount]
    have upto := Nat.mod_le (pageIndexOf start.2 + 1) 65536
    simp only [SegmentStarts.offsetOfPageStart]
    omega
  · rw [step.segmentOffset, step.curSegIndex]
    rfl

end Buffer.Stepped

/-- The segments of chain starts are at different addresses. -/
def SegmentsApart (image : OldArm64e) : Prop :=
  ∀ start ∈ image.chainStarts, ∀ other ∈ image.chainStarts,
    (image.segments start.1).vmAddr = (image.segments other.1).vmAddr → start.1 = other.1

theorem SegmentsApart.segmentOffset (apart : SegmentsApart image) {other : ℕ × BitVec 64} (member : start ∈ image.chainStarts)
    (member' : other ∈ image.chainStarts) (same : image.segmentOffset start.1 = image.segmentOffset other.1) :
    start.1 = other.1 := by
  refine apart start member other member' ?_
  have moved := congrArg (· + image.preferredLoadAddress) same
  simpa only [OldArm64e.segmentOffset, BitVec.sub_add_cancel] using moved

/-- The page has a start, in a record with the segment's own offset. -/
structure Keeps (image : OldArm64e) (buffer : Buffer) (page : ℕ × ℕ) : Prop where
  started : page ∈ buffer.starts.started
  own : (buffer.starts.segInfo page.1).segmentOffset = image.segmentOffset page.1
  among : ∃ start ∈ image.chainStarts, start.1 = page.1

theorem Keeps.before (apart : SegmentsApart image) (laid : Laid image buffer)
    (step : buffer.Stepped image.segCount image start after) (member : start ∈ image.chainStarts) {page : ℕ × ℕ}
    (keeps : Keeps image after page) : page = pageOf start ∨ Keeps image buffer page := by
  obtain ⟨inside, hasFixups, less, some_start⟩ := StartsInImage.mem_started_iff.mp keeps.started
  rw [step.segCount_eq, laid.segCount] at inside
  rcases step.current_or_unchanged laid inside hasFixups with current | ⟨same, low, high⟩
  · have record := segInfo_eq_record current
    have own := keeps.own
    rw [record] at less some_start own
    obtain ⟨other, among, segment⟩ := keeps.among
    have segment' : start.1 = page.1 := by
      rw [← segment]
      refine apart.segmentOffset member among ?_
      rw [segment, ← own, step.segmentOffset]
      rfl
    rcases step.entries less with here | none | ⟨stays, before, entry⟩
    · exact .inl (Prod.ext segment'.symm here)
    · exact absurd none some_start
    · have offset : buffer.starts.segInfoOffset page.1 = buffer.curSeg := by
        rw [← step.infoOffset_other page.1 inside (.inr stays), current, step.curSeg, if_pos stays]
      have header := laid.header
      have record' := segInfo_eq_record offset
      refine .inr ⟨StartsInImage.mem_started_iff.mpr ⟨laid.segCount.symm ▸ inside, by omega, ?_, ?_⟩, ?_, keeps.among⟩
      · rwa [record']
      · rwa [record', ← entry]
      · rw [record', (laid.record (Nat.zero_lt_of_lt inside) (by rw [← stays, segment', offset]; omega)).2.1, ← stays, segment']
  · obtain ⟨count, offset, -, starts⟩ := step.unchanged same low high
    have own := keeps.own
    rw [count] at less
    rw [starts page.2 less] at some_start
    rw [offset] at own
    exact .inr ⟨StartsInImage.mem_started_iff.mpr ⟨laid.segCount.symm ▸ inside, by omega, less, some_start⟩, own,
      keeps.among⟩

open Classical in
/-- How many pages are kept. -/
noncomputable def keptPages (image : OldArm64e) (buffer : Buffer) : Finset (ℕ × ℕ) :=
  buffer.starts.started.toFinset.filter (Keeps image buffer)

theorem mem_keptPages {page : ℕ × ℕ} : page ∈ keptPages image buffer ↔ Keeps image buffer page := by
  classical
  rw [keptPages, Finset.mem_filter, List.mem_toFinset]
  exact and_iff_right_of_imp Keeps.started

theorem keptPages_subset (apart : SegmentsApart image) (laid : Laid image buffer)
    (step : buffer.Stepped image.segCount image start after) (member : start ∈ image.chainStarts) :
    keptPages image after ⊆ insert (pageOf start) (keptPages image buffer) := by
  intro page kept
  rw [Finset.mem_insert, mem_keptPages]
  exact (mem_keptPages.mp kept).before apart laid step member

theorem written_le_of_run {rest : List (ℕ × BitVec 64)} {final : Buffer}
    (run : rest.foldlM (addChainStart image) buffer = some final) : buffer.written ≤ final.written := by
  induction rest generalizing buffer with
  | nil =>
      obtain rfl := Option.some.inj run
      exact le_rfl
  | cons start rest ih =>
      rw [List.foldlM_cons] at run
      obtain ⟨after, stepped, run⟩ := Option.bind_eq_some_iff.mp run
      exact (Buffer.written_le_of_addChainStart stepped).trans (ih run)

theorem keptPages_run (apart : SegmentsApart image) (laid : Laid image buffer) {rest : List (ℕ × BitVec 64)} {final : Buffer}
    (run : rest.foldlM (addChainStart image) buffer = some final)
    (members : ∀ start ∈ rest, start ∈ image.chainStarts ∧ start.1 < image.segCount) (small : final.written < 2 ^ 32) :
    Laid image final ∧ (keptPages image final).card ≤ (keptPages image buffer).card + rest.length := by
  induction rest generalizing buffer with
  | nil =>
      obtain rfl := Option.some.inj run
      exact ⟨laid, le_rfl⟩
  | cons start rest ih =>
      have written := written_le_of_run run
      rw [List.foldlM_cons] at run
      obtain ⟨after, stepped, run⟩ := Option.bind_eq_some_iff.mp run
      obtain ⟨member, inside⟩ := members start List.mem_cons_self
      have step := laid.stepped stepped inside (written.trans_lt small)
      obtain ⟨laid', card⟩ := ih (step.laid laid inside) run fun other later => members other (List.mem_cons_of_mem _ later)
      have one := (Finset.card_le_card (keptPages_subset apart laid step member)).trans (Finset.card_insert_le _ _)
      rw [List.length_cons]
      exact ⟨laid', by omega⟩

def recordSize (start : ℕ × BitVec 64) : ℕ := SegmentStarts.offsetOfPageStart (pageIndexOf start.2 + 1)

/-- The bytes of the records: of each run of chain starts in one segment, up to the last one's page. -/
def recordsSize : List (ℕ × BitVec 64) → ℕ
  | [] => 0
  | [start] => recordSize start
  | start :: next :: rest => (if start.1 = next.1 then 0 else recordSize start) + recordsSize (next :: rest)

/-- The bytes of the whole table. -/
def tableSize (image : OldArm64e) (starts : List (ℕ × BitVec 64)) : ℕ := 4 + 4 * image.segCount + recordsSize starts

/-- A chain start that the table of those before it can be extended by. -/
structure Appends (done : List (ℕ × BitVec 64)) (next : ℕ × BitVec 64) : Prop where
  inRange : next.2.toNat < 65535 * 0x1000
  first : done = [] → next.1 ≠ 0
  ascends : ∀ last ∈ done.getLast?, last.1 = next.1 → pageIndexOf last.2 < pageIndexOf next.2
  switches : ∀ last ∈ done.getLast?, last.1 ≠ next.1 → last.1 ≠ 0 ∧ ∀ start ∈ done, start.1 ≠ next.1

/-- The chain starts come in the order in which the table is filled. -/
def InOrder (starts : List (ℕ × BitVec 64)) : Prop := ∀ done next rest, starts = done ++ next :: rest → Appends done next

namespace Appends

variable {done : List (ℕ × BitVec 64)} {next : ℕ × BitVec 64} (appends : Appends done next)

include appends

theorem page_lt : pageIndexOf next.2 < 65535 := by
  have inRange := appends.inRange
  have page : pageIndexOf next.2 = next.2.toNat / 4096 % 2 ^ 32 := by
    rw [pageIndexOf, BitVec.toNat_setWidth, BitVec.toNat_udiv]
    rfl
  rw [page]
  exact (Nat.mod_le _ _).trans_lt (by omega)

theorem pageCount (step : buffer.Stepped image.segCount image next after) :
    after.record.pageCount = pageIndexOf next.2 + 1 := by
  have small := appends.page_lt
  rw [step.pageCount, Nat.mod_eq_of_lt (by omega)]

end Appends

theorem recordsSize_snoc (done : List (ℕ × BitVec 64)) (last next : ℕ × BitVec 64) :
    recordsSize (done ++ [last] ++ [next]) + (if last.1 = next.1 then recordSize last else 0) =
      recordsSize (done ++ [last]) + recordSize next := by
  induction done with
  | nil =>
      change (if last.1 = next.1 then 0 else recordSize last) + recordSize next + _ = recordSize last + recordSize next
      split <;> omega
  | cons first done ih =>
      cases done with
      | nil =>
          change (if first.1 = last.1 then 0 else recordSize first) + recordsSize ([] ++ [last] ++ [next]) + _ =
            (if first.1 = last.1 then 0 else recordSize first) + recordsSize ([] ++ [last]) + recordSize next
          omega
      | cons second done =>
          change (if first.1 = second.1 then 0 else recordSize first) +
              recordsSize (second :: done ++ [last] ++ [next]) + _ =
            (if first.1 = second.1 then 0 else recordSize first) + recordsSize (second :: done ++ [last]) + recordSize next
          omega

/-- The table has exactly the chain starts done, and nothing is written behind its last record. -/
structure Holds (image : OldArm64e) (done : List (ℕ × BitVec 64)) (buffer : Buffer) : Prop where
  laid : Laid image buffer
  started : ∀ page, page ∈ buffer.starts.started ↔ ∃ start ∈ done, pageOf start = page
  entry : ∀ start ∈ done, (buffer.starts.segInfo start.1).pageStart (pageIndexOf start.2) = entryOf start ∧
    (buffer.starts.segInfo start.1).segmentOffset = image.segmentOffset start.1 ∧
    (buffer.starts.segInfo start.1).pageSize = 0x1000
  nodup : (done.map pageOf).Nodup
  written : buffer.written = tableSize image done
  alone : ∀ index < image.segCount, buffer.starts.segInfoOffset index ≠ 0 →
    buffer.starts.segInfoOffset index = buffer.curSeg → index = buffer.curSegIndex
  first : done = [] → buffer.curSegIndex = 0 ∧ buffer.curSeg = buffer.written
  last : ∀ last ∈ done.getLast?, buffer.curSegIndex = last.1 ∧ buffer.starts.segInfoOffset last.1 = buffer.curSeg ∧
    buffer.record.pageCount = pageIndexOf last.2 + 1 ∧
    buffer.written = buffer.curSeg + SegmentStarts.offsetOfPageStart buffer.record.pageCount

theorem holds_emptyTable (image : OldArm64e) (memory : Memory) : Holds image [] (image.emptyTable memory) := by
  have empty := OldArm64e.emptyTable_spec image memory
  have none : ∀ index < image.segCount, ¬(image.emptyTable memory).starts.segInfoOffset index ≠ 0 :=
    fun index inside hasFixups => hasFixups (empty.infoOffset index inside)
  refine ⟨⟨empty.segCount_eq, empty.curSeg.ge, ?_, fun index inside hasFixups => absurd hasFixups (none index inside),
      fun index inside hasFixups => absurd hasFixups (none index (inside.trans_eq empty.segCount_eq)),
      fun nonempty => .inr ⟨empty.curSegIndex, empty.infoOffset 0 nonempty⟩,
      fun nonempty hasFixups => absurd hasFixups (by rw [empty.curSegIndex]; exact none 0 nonempty)⟩,
    fun page => ?_, fun start member => absurd member List.not_mem_nil, List.nodup_nil, ?_,
    fun index inside hasFixups => absurd hasFixups (none index inside), fun _ => ⟨empty.curSegIndex, ?_⟩, nofun⟩
  · rw [empty.curSeg, empty.written]
  · refine iff_of_false (fun member => ?_) (by simp)
    obtain ⟨inside, hasFixups, -⟩ := StartsInImage.mem_started_iff.mp member
    exact none page.1 (inside.trans_eq empty.segCount_eq) hasFixups
  · exact empty.written
  · rw [empty.curSeg, empty.written]

namespace Holds

variable {done : List (ℕ × BitVec 64)} {next : ℕ × BitVec 64} (holds : Holds image done buffer)

include holds

theorem place (appends : Appends done next) :
    (next.1 = buffer.curSegIndex → buffer.starts.segInfoOffset next.1 = buffer.curSeg ∧
      buffer.record.pageCount ≤ pageIndexOf next.2) ∧
    (next.1 ≠ buffer.curSegIndex → buffer.nextRecord = buffer.written ∧ ∀ start ∈ done, start.1 ≠ next.1) := by
  rcases List.eq_nil_or_concat' done with rfl | ⟨before, last, rfl⟩
  · obtain ⟨curSegIndex, curSeg⟩ := holds.first rfl
    refine ⟨fun stays => absurd (stays.trans curSegIndex) (appends.first rfl), fun _ => ⟨?_, nofun⟩⟩
    rw [Buffer.nextRecord, if_pos curSegIndex, curSeg]
  · have member : last ∈ (before ++ [last]).getLast? := by simp
    obtain ⟨curSegIndex, offset, count, written⟩ := holds.last last member
    rw [curSegIndex]
    refine ⟨fun stays => ⟨stays ▸ offset, ?_⟩, fun switches => ?_⟩
    · rw [count]
      exact appends.ascends last member stays.symm
    · obtain ⟨nonzero, others⟩ := appends.switches last member (Ne.symm switches)
      refine ⟨?_, others⟩
      rw [Buffer.nextRecord, if_neg (curSegIndex.symm ▸ nonzero), written]

theorem untouched (appends : Appends done next) (step : buffer.Stepped image.segCount image next after)
    {index : ℕ} (inside : index < image.segCount) (hasFixups : after.starts.segInfoOffset index ≠ 0)
    (other : index ≠ next.1) :
    after.starts.segInfoOffset index = buffer.starts.segInfoOffset index ∧
      4 + 4 * image.segCount ≤ buffer.starts.segInfoOffset index ∧
      buffer.starts.segInfoOffset index +
        SegmentStarts.offsetOfPageStart (buffer.starts.segInfo index).pageCount ≤ after.curSeg := by
  rcases step.current_or_unchanged holds.laid inside hasFixups with current | unchanged
  · have same := step.infoOffset_other index inside (.inl other)
    rw [same] at hasFixups
    rw [same, step.curSeg] at current
    split at current
    · next stays => exact absurd ((holds.alone index inside hasFixups current).trans stays.symm) other
    · next switches =>
        -- a record of the current address would start where the table ends
        obtain ⟨next_eq, -⟩ := (holds.place appends).2 switches
        rw [next_eq] at current
        have written := holds.laid.written
        rcases (holds.laid.records index inside hasFixups).2 with here | before
        · obtain rfl := holds.alone index inside hasFixups here
          have ends := (holds.laid.record (Nat.zero_lt_of_lt inside) hasFixups).1
          rw [SegmentStarts.offsetOfPageStart] at ends
          omega
        · rw [SegmentStarts.offsetOfPageStart] at before
          omega
  · exact unchanged

theorem infoOffset_next (appends : Appends done next) (step : buffer.Stepped image.segCount image next after)
    (inside : next.1 < image.segCount) : after.starts.segInfoOffset next.1 = after.curSeg := by
  by_cases stays : next.1 = buffer.curSegIndex
  · rw [step.infoOffset_other next.1 inside (.inr stays), step.curSeg, if_pos stays]
    exact ((holds.place appends).1 stays).1
  · exact step.infoOffset stays

theorem mem_started_step (appends : Appends done next) (step : buffer.Stepped image.segCount image next after)
    (inside : next.1 < image.segCount) (page : ℕ × ℕ) :
    page ∈ after.starts.started ↔ page ∈ buffer.starts.started ∨ page = pageOf next := by
  have header := holds.laid.header
  have placed := holds.infoOffset_next appends step inside
  have record := segInfo_eq_record placed
  rw [StartsInImage.mem_started_iff, StartsInImage.mem_started_iff, step.segCount_eq]
  by_cases here : page.1 = next.1
  · have pageCount := appends.pageCount step
    constructor
    · rintro ⟨less, -, before, some_start⟩
      rw [here, record] at before some_start
      rcases step.entries before with new | none | ⟨stays, old, same⟩
      · exact .inr (Prod.ext here new)
      · exact absurd none some_start
      · obtain ⟨current, -⟩ := (holds.place appends).1 stays
        rw [here]
        rw [← here] at current
        rw [← here, current, segInfo_eq_record current, ← same]
        exact .inl ⟨less, by omega, old, some_start⟩
    · rintro (old | rfl)
      · by_cases stays : next.1 = buffer.curSegIndex
        · obtain ⟨less, -, before, some_start⟩ := old
          obtain ⟨current, upto⟩ := (holds.place appends).1 stays
          rw [here, segInfo_eq_record current] at before some_start
          rw [here, record, placed, step.kept stays page.2 before upto, pageCount]
          exact ⟨here ▸ less, by have le := step.curSeg_le; omega, by omega, some_start⟩
        · obtain ⟨start, member, rfl⟩ := (holds.started page).mp (StartsInImage.mem_started_iff.mpr old)
          exact absurd here (((holds.place appends).2 stays).2 start member)
      · rw [here, record, placed, pageCount]
        refine ⟨holds.laid.segCount.symm ▸ inside, by have le := step.curSeg_le; omega, Nat.lt_succ_self _, ?_⟩
        exact step.pageStart ▸ entryOf_ne_none next
  · have differ : page ≠ pageOf next := fun same => here (congrArg Prod.fst same)
    rw [or_iff_left differ]
    refine and_congr_right fun less => ?_
    have less := less.trans_eq holds.laid.segCount
    rw [step.infoOffset_other page.1 less (.inl here)]
    refine and_congr_right fun hasFixups => ?_
    obtain ⟨same, low, high⟩ := holds.untouched appends step less
      (by rwa [step.infoOffset_other page.1 less (.inl here)]) here
    obtain ⟨count, -, -, starts⟩ := step.unchanged same low high
    rw [count]
    exact and_congr_right fun before => by rw [starts page.2 before]

theorem pageOf_notMem (appends : Appends done next) : pageOf next ∉ done.map pageOf := by
  intro member
  obtain ⟨start, among, same⟩ := List.mem_map.mp member
  obtain ⟨segment, page⟩ := Prod.ext_iff.mp same
  change start.1 = next.1 at segment
  change pageIndexOf start.2 = pageIndexOf next.2 at page
  by_cases stays : next.1 = buffer.curSegIndex
  · obtain ⟨current, upto⟩ := (holds.place appends).1 stays
    obtain ⟨-, -, before, -⟩ := StartsInImage.mem_started_iff.mp ((holds.started (pageOf start)).mpr ⟨start, among, rfl⟩)
    change pageIndexOf start.2 < (buffer.starts.segInfo start.1).pageCount at before
    rw [segment, segInfo_eq_record current] at before
    omega
  · exact ((holds.place appends).2 stays).2 start among segment

theorem entry_step (appends : Appends done next) (step : buffer.Stepped image.segCount image next after)
    (inside : next.1 < image.segCount) (start : ℕ × BitVec 64) (among : start ∈ done ++ [next]) :
    (after.starts.segInfo start.1).pageStart (pageIndexOf start.2) = entryOf start ∧
      (after.starts.segInfo start.1).segmentOffset = image.segmentOffset start.1 ∧
      (after.starts.segInfo start.1).pageSize = 0x1000 := by
  have record := segInfo_eq_record (holds.infoOffset_next appends step inside)
  rcases List.mem_append.mp among with old | new
  · obtain ⟨less, hasFixups, before, -⟩ :=
      StartsInImage.mem_started_iff.mp ((holds.started (pageOf start)).mpr ⟨start, old, rfl⟩)
    change start.1 < buffer.starts.segCount at less
    change buffer.starts.segInfoOffset start.1 ≠ 0 at hasFixups
    change pageIndexOf start.2 < (buffer.starts.segInfo start.1).pageCount at before
    have less := less.trans_eq holds.laid.segCount
    have entry := holds.entry start old
    by_cases here : start.1 = next.1
    · have stays : next.1 = buffer.curSegIndex := by
        by_contra switches
        exact ((holds.place appends).2 switches).2 start old here
      obtain ⟨current, upto⟩ := (holds.place appends).1 stays
      rw [here, segInfo_eq_record current] at before entry
      rw [here, record, step.kept stays _ before upto]
      exact ⟨entry.1, step.segmentOffset, step.pageSize⟩
    · obtain ⟨same, low, high⟩ := holds.untouched appends step less
        (by rwa [step.infoOffset_other start.1 less (.inl here)]) here
      obtain ⟨-, offset, size, starts⟩ := step.unchanged same low high
      rw [starts _ before, offset, size]
      exact entry
  · obtain rfl := List.mem_singleton.mp new
    rw [record]
    exact ⟨step.pageStart, step.segmentOffset, step.pageSize⟩

theorem tableSize_step (appends : Appends done next) (step : buffer.Stepped image.segCount image next after) :
    after.written = tableSize image (done ++ [next]) ∧
      after.written = after.curSeg + SegmentStarts.offsetOfPageStart after.record.pageCount := by
  have pageCount := appends.pageCount step
  have written := holds.written
  have grown := step.written_eq fun stays => ((holds.place appends).1 stays).2
  have curSeg := step.curSeg
  change after.written = max buffer.written (after.curSeg + recordSize next) at grown
  have size : SegmentStarts.offsetOfPageStart after.record.pageCount = recordSize next := by rw [pageCount, recordSize]
  rw [size]
  rw [tableSize] at written ⊢
  rcases List.eq_nil_or_concat' done with rfl | ⟨before, last, rfl⟩
  · have switches : next.1 ≠ buffer.curSegIndex := by
      rw [(holds.first rfl).1]
      exact appends.first rfl
    rw [if_neg switches, ((holds.place appends).2 switches).1] at curSeg
    change buffer.written = 4 + 4 * image.segCount + 0 at written
    change after.written = 4 + 4 * image.segCount + recordSize next ∧ _
    omega
  · obtain ⟨curSegIndex, -, count, ends⟩ := holds.last last (by simp)
    have snoc := recordsSize_snoc before last next
    by_cases stays : next.1 = buffer.curSegIndex
    · have upto := ((holds.place appends).1 stays).2
      rw [if_pos stays] at curSeg
      rw [if_pos (stays.trans curSegIndex).symm] at snoc
      rw [recordSize, recordSize] at *
      simp only [SegmentStarts.offsetOfPageStart] at *
      omega
    · rw [if_neg stays, ((holds.place appends).2 stays).1] at curSeg
      rw [if_neg fun same => stays (curSegIndex ▸ same.symm)] at snoc
      omega

theorem step (appends : Appends done next) (run : addChainStart image buffer next = some after)
    (inside : next.1 < image.segCount) (small : buffer.written < 2 ^ 32) : Holds image (done ++ [next]) after := by
  have step := holds.laid.stepped run inside small
  have placed := holds.infoOffset_next appends step inside
  obtain ⟨written, ends⟩ := holds.tableSize_step appends step
  refine ⟨step.laid holds.laid inside, fun page => ?_, holds.entry_step appends step inside, ?_, written,
    fun index less hasFixups current => ?_, fun empty => absurd empty (by simp), fun last member => ?_⟩
  · rw [holds.mem_started_step appends step inside, holds.started]
    simp only [List.mem_append, List.mem_singleton, or_and_right, exists_or, exists_eq_left]
    exact or_congr_right eq_comm
  · rw [List.map_append, List.nodup_append]
    refine ⟨holds.nodup, List.nodup_singleton _, fun page old other new => ?_⟩
    obtain rfl := List.mem_singleton.mp new
    exact fun same => holds.pageOf_notMem appends (same ▸ old)
  · by_contra other
    rw [step.curSegIndex] at other
    obtain ⟨same, -, high⟩ := holds.untouched appends step less hasFixups other
    rw [← same, current, SegmentStarts.offsetOfPageStart] at high
    omega
  · obtain rfl : next = last := by simpa using member
    exact ⟨step.curSegIndex, placed, appends.pageCount step, ends⟩

end Holds

end ObjcDyld.ChainedFixups
