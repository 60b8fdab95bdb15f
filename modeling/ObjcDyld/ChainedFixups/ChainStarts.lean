import ObjcDyld.ChainedFixups.BindOpcodes
import ObjcDyld.ChainedFixups.StartsWalk

/-!
# The starts table of an old arm64e image

`MachOAnalyzer::withChainStarts` writes a `dyld_chained_starts_in_image` for an image without one
into a buffer, as the bind opcodes give the chain starts.
-/

namespace ObjcDyld.ChainedFixups

open ByteMemory

/-- The memory from the start of the buffer on, with the end of what has been written in it, and the
variables of the block that is called for each chain start. -/
structure Buffer where
  memory : Memory
  written : ℕ
  curSegIndex : ℕ
  curSeg : ℕ

namespace Buffer

variable (buffer : Buffer)

/-- The header of the table. -/
def starts : StartsInImage := ⟨buffer.memory, 0⟩

/-- The `dyld_chained_starts_in_segment` that is being written. -/
def record : SegmentStarts := ⟨buffer.memory, buffer.curSeg⟩

def put (address n value : ℕ) : Buffer :=
  { buffer with memory := store buffer.memory address n value, written := max buffer.written (address + n) }

def putInfoOffset (segmentIndex value : ℕ) : Buffer := buffer.put (4 + 4 * segmentIndex) 4 value

def putPageCount (value : ℕ) : Buffer := buffer.put (buffer.curSeg + 20) 2 value

def putPageStart (pageIndex value : ℕ) : Buffer :=
  buffer.put (buffer.curSeg + SegmentStarts.offsetOfPageStart pageIndex) 2 value

/-- One round of the loop that counts up to a page. -/
def fillRound : Buffer :=
  (buffer.putPageStart buffer.record.pageCount 0xFFFF).putPageCount (buffer.record.pageCount + 1)

/-- The while loop that counts up to the page. A count has 16 bits: after 65536 rounds it is back
where it was, and the loop does not end. -/
def fillGap : ℕ → Buffer → ℕ → Option Buffer
  | 0, _, _ => none
  | fuel + 1, buffer, pageIndex =>
      if buffer.record.pageCount = pageIndex then some buffer
      else fillGap fuel buffer.fillRound pageIndex

/-- A chain start in another segment than the one before. -/
def switchSegment (segmentIndex : ℕ) : Buffer :=
  let placed :=
    if buffer.curSegIndex = 0 then buffer.putInfoOffset segmentIndex buffer.curSeg
    else
      let next := buffer.curSeg + SegmentStarts.offsetOfPageStart buffer.record.pageCount
      let placed := buffer.putInfoOffset segmentIndex next
      { placed with curSeg := placed.starts.segInfoOffset segmentIndex }
  { placed.putPageCount 0 with curSegIndex := segmentIndex }

/-- The fields of the record, and the page's start. -/
def putStart (image : OldArm64e) (start : ℕ × BitVec 64) (pageIndex : ℕ) : Buffer :=
  let segmentOffset := (image.segments start.1).vmAddr - image.preferredLoadAddress
  let buffer := buffer.put buffer.curSeg 4 (SegmentStarts.offsetOfPageStart pageIndex)
  -- old arm64e encoding used 4KB pages
  let buffer := buffer.put (buffer.curSeg + 4) 2 0x1000
  let buffer := buffer.put (buffer.curSeg + 6) 2 1
  let buffer := buffer.put (buffer.curSeg + 8) 8 segmentOffset.toNat
  let buffer := buffer.put (buffer.curSeg + 16) 4 0
  let buffer := buffer.putPageCount (pageIndex + 1)
  buffer.putPageStart pageIndex (start.2 &&& 0xFFF).toNat

end Buffer

/-- The page of a chain start, as a 32-bit number. -/
def pageIndexOf (segmentOffset : BitVec 64) : ℕ := ((segmentOffset / 0x1000).setWidth 32).toNat

/-- The block that is called for each chain start; `none` is a block that does not return. -/
def addChainStart (image : OldArm64e) (buffer : Buffer) (start : ℕ × BitVec 64) : Option Buffer :=
  let placed := if start.1 ≠ buffer.curSegIndex then buffer.switchSegment start.1 else buffer
  (placed.fillGap 65536 (pageIndexOf start.2)).map fun filled => filled.putStart image start (pageIndexOf start.2)

namespace OldArm64e

variable (image : OldArm64e)

/-- The table without records, in a buffer with any contents. -/
def emptyTable (memory : Memory) : Buffer :=
  let segCount := image.linkeditSegIndex.toNat
  let counted := (⟨memory, 0, 0, 0⟩ : Buffer).put 0 4 segCount
  let cleared := (List.range segCount).foldl (fun buffer index => buffer.putInfoOffset index 0) counted
  { cleared with curSeg := 4 + 4 * segCount }

/-- The size of the buffer: `bind_size + 512`, of 32 bits. -/
def bufferSize : ℕ := (BitVec.ofNat 32 image.binds.length + 512).toNat

/-- `MachOAnalyzer::withChainStarts`: what is in the buffer when the callback is called. -/
def withChainStarts (memory : Memory) : Option Buffer :=
  (parseOrgArm64eChainedFixups image (onChainStart (addChainStart image)) (image.emptyTable memory)).map Prod.fst

end OldArm64e

namespace Buffer

variable {buffer : Buffer} {address n value : ℕ}

@[simp] theorem put_curSeg : (buffer.put address n value).curSeg = buffer.curSeg := rfl

@[simp] theorem put_curSegIndex : (buffer.put address n value).curSegIndex = buffer.curSegIndex := rfl

theorem put_written : (buffer.put address n value).written = max buffer.written (address + n) := rfl

theorem load_put_other {a k : ℕ} (apart : a + k ≤ address ∨ address + n ≤ a) :
    load (buffer.put address n value).memory a k = load buffer.memory a k :=
  load_store_other value apart

theorem load_put : load (buffer.put address n value).memory address n = value % 2 ^ (8 * n) := load_store _ _ _ _

/-- What the loop that counts up to a page leaves: the pages before it that had no entry have none,
and all of them where the count had to wrap. -/
structure Filled (buffer : Buffer) (pageIndex : ℕ) (filled : Buffer) : Prop where
  curSeg : filled.curSeg = buffer.curSeg
  curSegIndex : filled.curSegIndex = buffer.curSegIndex
  pageCount : filled.record.pageCount = pageIndex
  kept : ∀ page < buffer.record.pageCount, buffer.record.pageCount ≤ pageIndex →
    filled.record.pageStart page = buffer.record.pageStart page
  gap : ∀ page < pageIndex, buffer.record.pageCount ≤ page ∨ pageIndex < buffer.record.pageCount →
    filled.record.pageStart page = startNone
  frame : ∀ a k, a + k ≤ buffer.curSeg + 20 → load filled.memory a k = load buffer.memory a k
  written_le : buffer.written ≤ filled.written
  written_eq : buffer.record.pageCount ≤ pageIndex →
    filled.written ≤ max buffer.written (buffer.curSeg + SegmentStarts.offsetOfPageStart pageIndex)

theorem record_pageStart (buffer : Buffer) (page : ℕ) : buffer.record.pageStart page =
    BitVec.ofNat 16 (load buffer.memory (buffer.curSeg + SegmentStarts.offsetOfPageStart page) 2) := rfl

theorem pageCount_lt (segInfo : SegmentStarts) : segInfo.pageCount < 65536 := load_lt _ _ 2

@[simp] theorem fillRound_curSeg : buffer.fillRound.curSeg = buffer.curSeg := rfl

@[simp] theorem fillRound_curSegIndex : buffer.fillRound.curSegIndex = buffer.curSegIndex := rfl

theorem fillRound_pageCount : buffer.fillRound.record.pageCount = (buffer.record.pageCount + 1) % 65536 := load_put

theorem fillRound_pageStart : buffer.fillRound.record.pageStart buffer.record.pageCount = startNone := by
  rw [record_pageStart, fillRound, putPageCount,
    load_put_other (by simp [putPageStart, SegmentStarts.offsetOfPageStart]; omega), putPageStart]
  exact congrArg (BitVec.ofNat 16) load_put

theorem fillRound_frame {a k : ℕ} (apart : a + k ≤ buffer.curSeg + 20 ∨
      buffer.curSeg + 22 ≤ a ∧ a + k ≤ buffer.curSeg + SegmentStarts.offsetOfPageStart buffer.record.pageCount ∨
      buffer.curSeg + SegmentStarts.offsetOfPageStart (buffer.record.pageCount + 1) ≤ a) :
    load buffer.fillRound.memory a k = load buffer.memory a k := by
  rw [SegmentStarts.offsetOfPageStart, SegmentStarts.offsetOfPageStart] at apart
  rw [fillRound, putPageCount, load_put_other (by simp [putPageStart]; omega), putPageStart,
    load_put_other (by simp [SegmentStarts.offsetOfPageStart]; omega)]

theorem fillRound_pageStart_other {page : ℕ} (ne : page ≠ buffer.record.pageCount) :
    buffer.fillRound.record.pageStart page = buffer.record.pageStart page := by
  rw [record_pageStart, record_pageStart, fillRound_curSeg, fillRound_frame]
  simp only [SegmentStarts.offsetOfPageStart]
  omega

theorem fillRound_written :
    buffer.fillRound.written =
      max buffer.written (buffer.curSeg + SegmentStarts.offsetOfPageStart (buffer.record.pageCount + 1)) := by
  simp only [fillRound, putPageCount, putPageStart, put_written, put_curSeg, SegmentStarts.offsetOfPageStart]
  omega

theorem fillGap_spec {fuel pageIndex : ℕ} {filled : Buffer} (run : fillGap fuel buffer pageIndex = some filled) :
    buffer.Filled pageIndex filled := by
  induction fuel generalizing buffer with
  | zero => exact absurd run (by simp [fillGap])
  | succ fuel ih =>
      rw [fillGap] at run
      by_cases reached : buffer.record.pageCount = pageIndex
      · rw [if_pos reached] at run
        obtain rfl := Option.some.inj run
        exact ⟨rfl, rfl, reached, fun _ _ _ => rfl, fun page less outside => by omega, fun _ _ _ => rfl, le_rfl,
          fun _ => le_max_left _ _⟩
      rw [if_neg reached] at run
      have rest := ih run
      have small := pageCount_lt buffer.record
      have reachable := rest.pageCount ▸ pageCount_lt filled.record
      have count := @fillRound_pageCount buffer
      have written := @fillRound_written buffer
      refine ⟨rest.curSeg, rest.curSegIndex, rest.pageCount, fun page less upto => ?_, fun page less outside => ?_,
        fun a k before => ?_, ?_, fun upto => ?_⟩
      · rw [rest.kept page (by omega) (by omega), fillRound_pageStart_other (by omega)]
      · by_cases here : page = buffer.record.pageCount
        · rcases Nat.lt_or_ge pageIndex buffer.record.pageCount with wraps | upto
          · omega
          · rw [rest.kept page (by omega) (by omega), here, fillRound_pageStart]
        · exact rest.gap page less (by omega)
      · rw [rest.frame a k before, fillRound_frame (.inl before)]
      · have le := rest.written_le
        omega
      · have le := rest.written_eq (by omega)
        simp only [fillRound_curSeg, SegmentStarts.offsetOfPageStart] at *
        omega

theorem exists_fillGap {fuel pageIndex : ℕ} (upto : buffer.record.pageCount ≤ pageIndex) (small : pageIndex < 65536)
    (enough : pageIndex < buffer.record.pageCount + fuel) : ∃ filled, fillGap fuel buffer pageIndex = some filled := by
  induction fuel generalizing buffer with
  | zero => omega
  | succ fuel ih =>
      rw [fillGap]
      by_cases reached : buffer.record.pageCount = pageIndex
      · exact ⟨buffer, if_pos reached⟩
      rw [if_neg reached]
      have count := @fillRound_pageCount buffer
      exact ih (by omega) (by omega)

/-- A new record at an address: it is in the header, and has no pages yet. -/
def placeRecord (buffer : Buffer) (segmentIndex address : ℕ) : Buffer :=
  { ({ buffer.putInfoOffset segmentIndex address with curSeg := address } : Buffer).putPageCount 0 with
    curSegIndex := segmentIndex }

/-- Where the record of another segment is placed. -/
def nextRecord (buffer : Buffer) : ℕ :=
  if buffer.curSegIndex = 0 then buffer.curSeg
  else buffer.curSeg + SegmentStarts.offsetOfPageStart buffer.record.pageCount

theorem starts_segInfoOffset (buffer : Buffer) (index : ℕ) :
    buffer.starts.segInfoOffset index = load buffer.memory (0 + 4 + 4 * index) 4 := rfl

theorem starts_segCount (buffer : Buffer) : buffer.starts.segCount = load buffer.memory 0 4 := rfl

theorem switchSegment_eq (segmentIndex : ℕ) (small : buffer.nextRecord < 2 ^ 32) :
    buffer.switchSegment segmentIndex = buffer.placeRecord segmentIndex buffer.nextRecord := by
  rw [switchSegment, nextRecord] at *
  split
  · rfl
  · next nonzero =>
      rw [if_neg nonzero] at small
      have placed : (buffer.putInfoOffset segmentIndex
          (buffer.curSeg + SegmentStarts.offsetOfPageStart buffer.record.pageCount)).starts.segInfoOffset segmentIndex =
            buffer.curSeg + SegmentStarts.offsetOfPageStart buffer.record.pageCount := by
        rw [starts_segInfoOffset, Nat.zero_add, putInfoOffset, load_put]
        exact Nat.mod_eq_of_lt small
      simp only [placed]
      rfl

section Placed

variable {segmentIndex : ℕ} {segCount : ℕ}

theorem placeRecord_infoOffset (header : 4 + 4 * segmentIndex + 4 ≤ address) (small : address < 2 ^ 32) :
    (buffer.placeRecord segmentIndex address).starts.segInfoOffset segmentIndex = address := by
  rw [starts_segInfoOffset, Nat.zero_add]
  change load (putPageCount _ 0).memory _ 4 = _
  rw [putPageCount, load_put_other (.inl (Nat.le_add_right_of_le header))]
  change load (put _ _ _ _).memory _ 4 = _
  rw [load_put]
  exact Nat.mod_eq_of_lt small

theorem placeRecord_load {a k : ℕ} (apart : a + k ≤ 4 + 4 * segmentIndex ∨ 4 + 4 * segmentIndex + 4 ≤ a)
    (before : a + k ≤ address + 20) :
    load (buffer.placeRecord segmentIndex address).memory a k = load buffer.memory a k := by
  change load (putPageCount _ 0).memory a k = _
  rw [putPageCount, load_put_other (.inl before)]
  change load (put _ _ _ _).memory a k = _
  exact load_put_other apart

theorem placeRecord_pageCount : (buffer.placeRecord segmentIndex address).record.pageCount = 0 := load_put

theorem placeRecord_written (header : 4 + 4 * segmentIndex + 4 ≤ address) :
    (buffer.placeRecord segmentIndex address).written = max buffer.written (address + 22) := by
  change max (max buffer.written (4 + 4 * segmentIndex + 4)) (address + 20 + 2) = _
  omega

end Placed

section Started

variable {image : OldArm64e} {start : ℕ × BitVec 64} {pageIndex : ℕ}

@[simp] theorem putStart_curSeg : (buffer.putStart image start pageIndex).curSeg = buffer.curSeg := rfl

@[simp] theorem putStart_curSegIndex : (buffer.putStart image start pageIndex).curSegIndex = buffer.curSegIndex := rfl

theorem putStart_load {a k : ℕ}
    (apart : a + k ≤ buffer.curSeg ∨
      buffer.curSeg + 22 ≤ a ∧ a + k ≤ buffer.curSeg + SegmentStarts.offsetOfPageStart pageIndex) :
    load (buffer.putStart image start pageIndex).memory a k = load buffer.memory a k := by
  rw [SegmentStarts.offsetOfPageStart] at apart
  simp only [putStart, putPageStart, putPageCount, put_curSeg, SegmentStarts.offsetOfPageStart]
  repeat rw [load_put_other (by omega)]

theorem putStart_pageCount :
    (buffer.putStart image start pageIndex).record.pageCount = (pageIndex + 1) % 65536 := by
  change load (buffer.putStart image start pageIndex).memory (buffer.curSeg + 20) 2 = _
  simp only [putStart, putPageStart, putPageCount, put_curSeg, SegmentStarts.offsetOfPageStart]
  rw [load_put_other (by omega), load_put]
  rfl

theorem putStart_pageStart : (buffer.putStart image start pageIndex).record.pageStart pageIndex =
    BitVec.ofNat 16 (start.2 &&& 0xFFF).toNat := by
  rw [record_pageStart]
  simp only [putStart, putPageStart, putPageCount, put_curSeg]
  rw [load_put]
  generalize (start.2 &&& 0xFFF).toNat = offsetInPage
  exact BitVec.eq_of_toNat_eq (by rw [BitVec.toNat_ofNat, BitVec.toNat_ofNat]; exact Nat.mod_mod _ _)

theorem putStart_pageSize : (buffer.putStart image start pageIndex).record.pageSize = 0x1000 := by
  change load (buffer.putStart image start pageIndex).memory (buffer.curSeg + 4) 2 = _
  simp only [putStart, putPageStart, putPageCount, put_curSeg, SegmentStarts.offsetOfPageStart]
  rw [load_put_other (by omega), load_put_other (by omega), load_put_other (by omega), load_put_other (by omega),
    load_put_other (by omega), load_put]
  rfl

theorem putStart_segmentOffset : (buffer.putStart image start pageIndex).record.segmentOffset =
    (image.segments start.1).vmAddr - image.preferredLoadAddress := by
  change BitVec.ofNat 64 (load (buffer.putStart image start pageIndex).memory (buffer.curSeg + 8) 8) = _
  simp only [putStart, putPageStart, putPageCount, put_curSeg, SegmentStarts.offsetOfPageStart]
  rw [load_put_other (by omega), load_put_other (by omega), load_put_other (by omega), load_put]
  exact BitVec.eq_of_toNat_eq (by simp)

theorem putStart_written : (buffer.putStart image start pageIndex).written =
    max buffer.written (buffer.curSeg + SegmentStarts.offsetOfPageStart (pageIndex + 1)) := by
  simp only [putStart, putPageStart, putPageCount, put_curSeg, put_written, SegmentStarts.offsetOfPageStart]
  omega

end Started

/-- What the block does for a chain start. -/
structure Stepped (segCount : ℕ) (image : OldArm64e) (buffer : Buffer) (start : ℕ × BitVec 64) (after : Buffer) :
    Prop where
  page_lt : pageIndexOf start.2 < 65536
  curSegIndex : after.curSegIndex = start.1
  curSeg : after.curSeg = if start.1 = buffer.curSegIndex then buffer.curSeg else buffer.nextRecord
  infoOffset : start.1 ≠ buffer.curSegIndex → after.starts.segInfoOffset start.1 = after.curSeg
  infoOffset_other : ∀ index < segCount, index ≠ start.1 ∨ start.1 = buffer.curSegIndex →
    after.starts.segInfoOffset index = buffer.starts.segInfoOffset index
  segCount_eq : after.starts.segCount = buffer.starts.segCount
  frame : ∀ a k, 4 + 4 * segCount ≤ a → a + k ≤ after.curSeg → load after.memory a k = load buffer.memory a k
  pageCount : after.record.pageCount = (pageIndexOf start.2 + 1) % 65536
  pageStart : after.record.pageStart (pageIndexOf start.2) = BitVec.ofNat 16 (start.2 &&& 0xFFF).toNat
  kept : start.1 = buffer.curSegIndex → ∀ page < buffer.record.pageCount,
    buffer.record.pageCount ≤ pageIndexOf start.2 → after.record.pageStart page = buffer.record.pageStart page
  gap : ∀ page < pageIndexOf start.2, start.1 ≠ buffer.curSegIndex ∨ buffer.record.pageCount ≤ page ∨
    pageIndexOf start.2 < buffer.record.pageCount → after.record.pageStart page = startNone
  pageSize : after.record.pageSize = 0x1000
  segmentOffset : after.record.segmentOffset = (image.segments start.1).vmAddr - image.preferredLoadAddress
  written_ge : buffer.written ≤ after.written
  record_le : after.curSeg + SegmentStarts.offsetOfPageStart (pageIndexOf start.2 + 1) ≤ after.written
  written_eq : (start.1 = buffer.curSegIndex → buffer.record.pageCount ≤ pageIndexOf start.2) →
    after.written = max buffer.written (after.curSeg + SegmentStarts.offsetOfPageStart (pageIndexOf start.2 + 1))

/-- The record that a chain start is written to, before it is. -/
structure Placed (segCount : ℕ) (buffer : Buffer) (segmentIndex : ℕ) (placed : Buffer) : Prop where
  curSegIndex : placed.curSegIndex = segmentIndex
  curSeg : placed.curSeg = if segmentIndex = buffer.curSegIndex then buffer.curSeg else buffer.nextRecord
  same : segmentIndex = buffer.curSegIndex → placed = buffer
  pageCount : segmentIndex ≠ buffer.curSegIndex → placed.record.pageCount = 0
  header : 4 + 4 * segCount ≤ placed.curSeg
  infoOffset : segmentIndex ≠ buffer.curSegIndex → placed.starts.segInfoOffset segmentIndex = placed.curSeg
  infoOffset_other : ∀ index < segCount, index ≠ segmentIndex →
    placed.starts.segInfoOffset index = buffer.starts.segInfoOffset index
  segCount_eq : placed.starts.segCount = buffer.starts.segCount
  frame : ∀ a k, 4 + 4 * segCount ≤ a → a + k ≤ placed.curSeg → load placed.memory a k = load buffer.memory a k
  written_ge : buffer.written ≤ placed.written
  written_le : placed.written ≤ max buffer.written (placed.curSeg + 22)

theorem le_nextRecord (buffer : Buffer) : buffer.curSeg ≤ buffer.nextRecord := by
  rw [nextRecord]
  split
  · exact le_rfl
  · exact Nat.le_add_right _ _

theorem placed_spec {segCount segmentIndex : ℕ} (inside : segmentIndex < segCount)
    (header : 4 + 4 * segCount ≤ buffer.curSeg)
    (small : segmentIndex ≠ buffer.curSegIndex → buffer.nextRecord < 2 ^ 32) :
    Placed segCount buffer segmentIndex
      (if segmentIndex ≠ buffer.curSegIndex then buffer.switchSegment segmentIndex else buffer) := by
  by_cases same : segmentIndex = buffer.curSegIndex
  · rw [if_neg (not_not.mpr same)]
    exact ⟨same.symm, (if_pos same).symm, fun _ => rfl, fun differ => absurd same differ, header,
      fun differ => absurd same differ, fun _ _ _ => rfl, rfl, fun _ _ _ _ => rfl, le_rfl, le_max_left _ _⟩
  · have fits := small same
    have after := buffer.le_nextRecord
    rw [if_pos same, switchSegment_eq _ fits]
    refine ⟨rfl, (if_neg same).symm, fun eq => absurd eq same, fun _ => placeRecord_pageCount, header.trans after,
      fun _ => placeRecord_infoOffset (by omega) fits, fun index less ne => ?_, ?_,
      fun a k behind before => placeRecord_load (by omega) (Nat.le_add_right_of_le before), ?_, ?_⟩
    · rw [starts_segInfoOffset, starts_segInfoOffset, placeRecord_load (by omega) (by omega)]
    · rw [starts_segCount, starts_segCount, placeRecord_load (by omega) (by omega)]
    · rw [placeRecord_written (by omega)]
      exact le_max_left _ _
    · exact (placeRecord_written (by omega)).le

theorem addChainStart_spec {segCount : ℕ} {image : OldArm64e} {start : ℕ × BitVec 64} {after : Buffer}
    (run : addChainStart image buffer start = some after) (inside : start.1 < segCount)
    (header : 4 + 4 * segCount ≤ buffer.curSeg)
    (small : start.1 ≠ buffer.curSegIndex → buffer.nextRecord < 2 ^ 32) :
    buffer.Stepped segCount image start after := by
  rw [addChainStart] at run
  obtain ⟨filled, filling, rfl⟩ := Option.map_eq_some_iff.mp run
  have place := placed_spec inside header small
  have fill := fillGap_spec filling
  generalize (if start.1 ≠ buffer.curSegIndex then buffer.switchSegment start.1 else buffer) = placed at place fill
  have reachable := fill.pageCount ▸ pageCount_lt filled.record
  have behind := place.header
  have curSeg := fill.curSeg
  have headers : ∀ a k, a + k ≤ 4 + 4 * segCount →
      load (filled.putStart image start (pageIndexOf start.2)).memory a k = load placed.memory a k := by
    intro a k before
    rw [putStart_load (.inl (by omega)), fill.frame a k (by omega)]
  have infoOffsets : ∀ index < segCount,
      (filled.putStart image start (pageIndexOf start.2)).starts.segInfoOffset index =
        placed.starts.segInfoOffset index := by
    intro index less
    rw [starts_segInfoOffset, starts_segInfoOffset, headers _ 4 (by omega)]
  have entries : ∀ page < pageIndexOf start.2,
      (filled.putStart image start (pageIndexOf start.2)).record.pageStart page = filled.record.pageStart page := by
    intro page less
    rw [record_pageStart, record_pageStart, putStart_curSeg, putStart_load (.inr ?_)]
    simp only [SegmentStarts.offsetOfPageStart]
    omega
  refine ⟨reachable, ?_, ?_, fun differ => ?_, fun index less other => ?_, ?_, fun a k low high => ?_,
    putStart_pageCount, putStart_pageStart, fun same page less upto => ?_, fun page less outside => ?_,
    putStart_pageSize, putStart_segmentOffset, ?_, ?_, fun ascends => ?_⟩
  · rw [putStart_curSegIndex, fill.curSegIndex, place.curSegIndex]
  · rw [putStart_curSeg, curSeg, place.curSeg]
  · rw [putStart_curSeg, curSeg, ← place.infoOffset differ]
    exact infoOffsets start.1 inside
  · refine (infoOffsets index less).trans ?_
    rcases other with ne | same
    · exact place.infoOffset_other index less ne
    · rw [place.same same]
  · rw [starts_segCount, headers 0 4 (by omega), ← starts_segCount, place.segCount_eq]
  · rw [putStart_curSeg] at high
    rw [putStart_load (.inl high), fill.frame a k (by omega), place.frame a k low (by omega)]
  · obtain rfl := place.same same
    rw [entries page (by omega), fill.kept page less upto]
  · rw [entries page less]
    refine fill.gap page less ?_
    by_cases same : start.1 = buffer.curSegIndex
    · obtain rfl := place.same same
      exact outside.resolve_left (not_not.mpr same)
    · rw [place.pageCount same]
      exact .inl (Nat.zero_le page)
  · rw [putStart_written]
    exact place.written_ge.trans (fill.written_le.trans (le_max_left _ _))
  · rw [putStart_written, putStart_curSeg]
    exact le_max_right _ _
  · have count : placed.record.pageCount ≤ pageIndexOf start.2 := by
      by_cases same : start.1 = buffer.curSegIndex
      · rw [place.same same]
        exact ascends same
      · rw [place.pageCount same]
        exact Nat.zero_le _
    have first := place.written_le
    have second := fill.written_eq count
    have before := place.written_ge
    have between := fill.written_le
    rw [putStart_written, putStart_curSeg, curSeg]
    simp only [SegmentStarts.offsetOfPageStart] at *
    omega

theorem written_le_of_addChainStart {image : OldArm64e} {start : ℕ × BitVec 64} {after : Buffer}
    (run : addChainStart image buffer start = some after) : buffer.written ≤ after.written := by
  rw [addChainStart] at run
  obtain ⟨filled, filling, rfl⟩ := Option.map_eq_some_iff.mp run
  have placed : buffer.written ≤
      (if start.1 ≠ buffer.curSegIndex then buffer.switchSegment start.1 else buffer).written := by
    split
    · rw [switchSegment]
      split <;> exact (le_max_left _ _).trans (le_max_left _ _)
    · exact le_rfl
  rw [putStart_written]
  exact placed.trans ((fillGap_spec filling).written_le.trans (le_max_left _ _))

theorem exists_addChainStart {segCount : ℕ} {image : OldArm64e} {start : ℕ × BitVec 64} (inside : start.1 < segCount)
    (header : 4 + 4 * segCount ≤ buffer.curSeg)
    (small : start.1 ≠ buffer.curSegIndex → buffer.nextRecord < 2 ^ 32) (reachable : pageIndexOf start.2 < 65536)
    (ascends : start.1 = buffer.curSegIndex → buffer.record.pageCount ≤ pageIndexOf start.2) :
    ∃ after, addChainStart image buffer start = some after := by
  have place := placed_spec inside header small
  rw [addChainStart]
  generalize (if start.1 ≠ buffer.curSegIndex then buffer.switchSegment start.1 else buffer) = placed at place
  have count : placed.record.pageCount ≤ pageIndexOf start.2 := by
    by_cases same : start.1 = buffer.curSegIndex
    · rw [place.same same]
      exact ascends same
    · rw [place.pageCount same]
      exact Nat.zero_le _
  obtain ⟨filled, filling⟩ := exists_fillGap count reachable (show _ < _ + 65536 by omega)
  exact ⟨_, by simp only [filling, Option.map_some]; rfl⟩

end Buffer

namespace OldArm64e

variable {image : OldArm64e} {memory : Memory}

/-- What the table without records is. -/
structure EmptyTable (segCount : ℕ) (table : Buffer) : Prop where
  curSegIndex : table.curSegIndex = 0
  curSeg : table.curSeg = 4 + 4 * segCount
  segCount_eq : table.starts.segCount = segCount
  infoOffset : ∀ index < segCount, table.starts.segInfoOffset index = 0
  written : table.written = 4 + 4 * segCount

theorem cleared_spec (count : ℕ) (counted : Buffer) (first : counted.curSegIndex = 0) (written : counted.written = 4) :
    ((List.range count).foldl (fun buffer index => buffer.putInfoOffset index 0) counted).curSegIndex = 0 ∧
    ((List.range count).foldl (fun buffer index => buffer.putInfoOffset index 0) counted).starts.segCount =
      counted.starts.segCount ∧
    (∀ index < count, ((List.range count).foldl (fun buffer index => buffer.putInfoOffset index 0)
      counted).starts.segInfoOffset index = 0) ∧
    ((List.range count).foldl (fun buffer index => buffer.putInfoOffset index 0) counted).written = 4 + 4 * count := by
  induction count with
  | zero => exact ⟨first, rfl, nofun, written⟩
  | succ count ih =>
      rw [List.range_succ, List.foldl_append, List.foldl_cons, List.foldl_nil]
      generalize (List.range count).foldl (fun buffer index => buffer.putInfoOffset index 0) counted = before at ih
      obtain ⟨curSegIndex, segCount, cleared, written⟩ := ih
      refine ⟨curSegIndex, ?_, Nat.forall_lt_succ_right.mpr ⟨fun index less => ?_, ?_⟩, ?_⟩
      · rw [← segCount, Buffer.starts_segCount, Buffer.starts_segCount, Buffer.putInfoOffset,
          Buffer.load_put_other (by omega)]
      · rw [← cleared index less, Buffer.starts_segInfoOffset, Buffer.starts_segInfoOffset, Buffer.putInfoOffset,
          Buffer.load_put_other (by omega)]
      · rw [Buffer.starts_segInfoOffset, Nat.zero_add, Buffer.putInfoOffset, Buffer.load_put, Nat.zero_mod]
      · rw [Buffer.putInfoOffset, Buffer.put_written, written]
        omega

theorem emptyTable_spec (image : OldArm64e) (memory : Memory) :
    EmptyTable image.linkeditSegIndex.toNat (image.emptyTable memory) := by
  obtain ⟨curSegIndex, segCount, cleared, written⟩ := cleared_spec image.linkeditSegIndex.toNat
    ((⟨memory, 0, 0, 0⟩ : Buffer).put 0 4 image.linkeditSegIndex.toNat) rfl rfl
  refine ⟨curSegIndex, rfl, segCount.trans ?_, cleared, written⟩
  rw [Buffer.starts_segCount, Buffer.load_put]
  exact Nat.mod_eq_of_lt image.linkeditSegIndex.isLt

theorem withChainStarts_eq (accepted : validChainedFixupsInfoOldArm64e image = true) (memory : Memory) :
    image.withChainStarts memory = image.chainStarts.foldlM (addChainStart image) (image.emptyTable memory) := by
  rw [withChainStarts, parse_onChainStart accepted, Option.map_map]
  exact Option.map_id'

end OldArm64e

end ObjcDyld.ChainedFixups
