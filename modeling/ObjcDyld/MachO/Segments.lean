import ObjcDyld.Common.WordRanges

/-!
# Segment validation

`MachOAnalyzer::validSegments`: the sizes of the segment load commands, the ranges of the segments
in memory and in the file, their overlaps, and the ranges of the sections.
-/

namespace ObjcDyld.MachO

open WordRanges (extent Wraps overlap greaterThanAddOrOverflow)

/-- `section` for 32-bit fields and `section_64` for 64-bit fields. -/
structure Section (w : ℕ) where
  addr : BitVec w
  size : BitVec w

/-- `segment_command` and `segment_command_64`, with the `nsects` sections after it. -/
structure SegmentCommand (w : ℕ) where
  cmdsize : BitVec 32
  segname : String
  vmaddr : BitVec w
  vmsize : BitVec w
  fileoff : BitVec w
  filesize : BitVec w
  initprot : BitVec 32
  flags : BitVec 32
  sections : List (Section w)
  counted : sections.length < 2 ^ 32

/-- The load commands, in the order in which `forEachLoadCommand` visits them. -/
inductive LoadCommand where
  | segment64 (seg : SegmentCommand 64)
  | segment (seg : SegmentCommand 32)
  | other

/-- What `enforceFormat` and the file's kind decide about the checks. -/
structure Header where
  is64 : Bool
  inDyldCache : Bool
  isStaticExecutable : Bool
  enforceTextPermissions : Bool
  enforceLinkeditPermissions : Bool
  enforceSegmentOrder : Bool
  commands : List LoadCommand

def sgNoReloc : BitVec 32 := 0x4

/-- The space of a load command does not fit its number of sections. -/
def badSectionsSpace {w : ℕ} (seg : SegmentCommand w) (commandSize sectionSize : ℕ) : Bool :=
  let sectionsSpace := seg.cmdsize - BitVec.ofNat 32 commandSize
  sectionsSpace.msb || sectionsSpace.toNat % sectionSize != 0 ||
    sectionsSpace.toNat != seg.sections.length * sectionSize

/-- More is in the file than in memory, and not because the segment is not allocated. -/
def badFileSize {w : ℕ} (seg : SegmentCommand w) : Bool :=
  seg.filesize > seg.vmsize && (seg.vmsize != 0 || (seg.flags &&& sgNoReloc) == 0)

/-- The first loop; only the 64-bit copy looks at the end of the file. -/
def badSegmentLoadCommand (fileLen : BitVec 64) : LoadCommand → Bool
  | .segment64 seg =>
      badSectionsSpace seg 72 80 || greaterThanAddOrOverflow seg.fileoff seg.filesize fileLen || badFileSize seg
  | .segment seg => badSectionsSpace seg 56 68 || badFileSize seg
  | .other => false

/-- `MachOFile::SegmentInfo`. -/
structure SegmentInfo where
  fileOffset : BitVec 64
  fileSize : BitVec 64
  vmAddr : BitVec 64
  vmSize : BitVec 64
  segName : String
  protections : BitVec 32
  segIndex : BitVec 13

def SegmentCommand.info {w : ℕ} (seg : SegmentCommand w) (segIndex : ℕ) : SegmentInfo where
  fileOffset := seg.fileoff.setWidth 64
  fileSize := seg.filesize.setWidth 64
  vmAddr := seg.vmaddr.setWidth 64
  vmSize := seg.vmsize.setWidth 64
  segName := seg.segname
  protections := seg.initprot
  segIndex := BitVec.ofNat 13 segIndex

/-- The segments from a number on. -/
def segmentInfos (segIndex : ℕ) : List LoadCommand → List SegmentInfo
  | [] => []
  | .segment64 seg :: rest => seg.info segIndex :: segmentInfos (segIndex + 1) rest
  | .segment seg :: rest => seg.info segIndex :: segmentInfos (segIndex + 1) rest
  | .other :: rest => segmentInfos segIndex rest

/-- What `forEachSegment` calls back with. -/
def Header.segments (header : Header) : List SegmentInfo := segmentInfos 0 header.commands

/-- `VM_PROT_READ`, `VM_PROT_EXECUTE`. -/
def vmProtRead : BitVec 32 := 1
def vmProtExecute : BitVec 32 := 4

def badPermissions (header : Header) (info : SegmentInfo) : Bool :=
  if info.segName = "__TEXT" then
    info.protections != (vmProtRead ||| vmProtExecute) && header.enforceTextPermissions
  else if info.segName = "__LINKEDIT" then info.protections != vmProtRead && header.enforceLinkeditPermissions
  else (info.protections &&& 0xFFFFFFF8) != 0

/-- The end of the file, and the test for wrapping in the width of the header. -/
def badSize (header : Header) (fileLen : BitVec 64) (info : SegmentInfo) : Bool :=
  greaterThanAddOrOverflow info.fileOffset info.fileSize fileLen ||
    if header.is64 then info.vmAddr + info.vmSize < info.vmAddr
    else (info.vmAddr + info.vmSize).setWidth 32 < info.vmAddr.setWidth 32

/-- The checks of two segments; a segment is not compared with itself. -/
def badSegments (header : Header) (info1 info2 : SegmentInfo) : Bool :=
  if info1.segIndex = info2.segIndex then false
  else
    overlap info1.vmAddr (info1.vmAddr + info1.vmSize) info2.vmAddr (info2.vmAddr + info2.vmSize) ||
    overlap info1.fileOffset (info1.fileOffset + info1.fileSize) info2.fileOffset (info2.fileOffset + info2.fileSize) ||
    (info1.segIndex < info2.segIndex &&
      (info1.vmAddr > info2.vmAddr ||
        (info1.fileOffset > info2.fileOffset && info1.fileOffset != 0 && info2.fileOffset != 0)) &&
      !header.inDyldCache && header.enforceSegmentOrder && !header.isStaticExecutable)

/-- The checks of one section; the size is signed as an `int64_t`. -/
def badSection {w : ℕ} (seg : SegmentCommand w) (sect : Section w) : Bool :=
  (sect.size.setWidth 64).msb || sect.addr < seg.vmaddr || sect.addr + sect.size > seg.vmaddr + seg.vmsize

def badSections : LoadCommand → Bool
  | .segment64 seg => seg.sections.any (badSection seg)
  | .segment seg => seg.sections.any (badSection seg)
  | .other => false

/-- `MachOAnalyzer::validSegments`. -/
def validSegments (header : Header) (fileLen : BitVec 64) : Bool :=
  !header.commands.any (badSegmentLoadCommand fileLen) &&
  !header.segments.any (fun info => badPermissions header info || badSize header fileLen info) &&
  header.segments.any (fun info => info.segName = "__TEXT") &&
  header.segments.any (fun info => info.segName = "__LINKEDIT") &&
  !header.segments.any (fun info1 => header.segments.any (badSegments header info1)) &&
  !header.commands.any badSections

namespace SegmentInfo

def vmRange (info : SegmentInfo) : Set ℕ := extent info.vmAddr info.vmSize

def fileRange (info : SegmentInfo) : Set ℕ := extent info.fileOffset info.fileSize

end SegmentInfo

/-- Every section's range lies inside the segment's. -/
def SegmentCommand.Encloses {w : ℕ} (seg : SegmentCommand w) : Prop :=
  ∀ sect ∈ seg.sections, extent sect.addr sect.size ⊆ extent seg.vmaddr seg.vmsize

/-- The segments are apart in memory and in the file, and all lies inside what contains it. -/
structure SoundSegments (header : Header) (fileLen : BitVec 64) : Prop where
  memory : header.segments.Pairwise fun info1 info2 => Disjoint info1.vmRange info2.vmRange
  file : header.segments.Pairwise fun info1 info2 => Disjoint info1.fileRange info2.fileRange
  inFile : ∀ info ∈ header.segments, info.fileRange ⊆ Set.Iio fileLen.toNat
  sections64 : ∀ seg, LoadCommand.segment64 seg ∈ header.commands → seg.Encloses
  sections32 : ∀ seg, LoadCommand.segment seg ∈ header.commands → seg.Encloses

/-- A section's end wraps only where its segment's end does. -/
def SegmentCommand.NoSectionWraps {w : ℕ} (seg : SegmentCommand w) : Prop :=
  ∀ sect ∈ seg.sections, Wraps sect.addr sect.size → Wraps seg.vmaddr seg.vmsize

/-- Two segments that the overlap test of memory ranges skips or misjudges. -/
def Unchecked (info1 info2 : SegmentInfo) : Prop :=
  info1.segIndex = info2.segIndex ∨ Wraps info1.vmAddr info1.vmSize ∨ Wraps info2.vmAddr info2.vmSize

/-- What the checks do not see: numbers of segments beyond 13 bits, ranges beyond 64 bits in a
32-bit file, and ends of sections that wrap. -/
structure NothingEscapes (header : Header) : Prop where
  memory : header.segments.Pairwise fun info1 info2 =>
    Unchecked info1 info2 → Disjoint info1.vmRange info2.vmRange
  file : header.segments.Pairwise fun info1 info2 =>
    info1.segIndex = info2.segIndex → Disjoint info1.fileRange info2.fileRange
  sections64 : ∀ seg, LoadCommand.segment64 seg ∈ header.commands → seg.NoSectionWraps
  sections32 : ∀ seg, LoadCommand.segment seg ∈ header.commands → seg.NoSectionWraps

theorem encloses_iff {w : ℕ} {seg : SegmentCommand w} (good : seg.sections.any (badSection seg) = false) :
    seg.Encloses ↔ seg.NoSectionWraps := by
  refine forall₂_congr fun sect inside => ?_
  have checked := List.any_eq_false.mp good sect inside
  simp only [badSection, Bool.or_eq_true, decide_eq_true_eq, not_or] at checked
  obtain ⟨⟨-, after⟩, before⟩ := checked
  have after : seg.vmaddr.toNat ≤ sect.addr.toNat := BitVec.le_def.mp (BitVec.not_lt.mp after)
  have before : (sect.addr + sect.size).toNat ≤ (seg.vmaddr + seg.vmsize).toNat :=
    BitVec.le_def.mp (BitVec.not_lt.mp before)
  have addr := sect.addr.isLt
  have vmend : (seg.vmaddr + seg.vmsize).toNat < 2 ^ w := (seg.vmaddr + seg.vmsize).isLt
  rcases Nat.eq_zero_or_pos sect.size.toNat with empty | nonempty
  · rw [WordRanges.extent_empty empty]
    refine iff_of_true (Set.empty_subset _) fun wraps => ?_
    rw [Wraps] at wraps
    omega
  · rw [WordRanges.extent_subset_iff nonempty]
    by_cases seg_wraps : Wraps seg.vmaddr seg.vmsize
    · have seg_end := WordRanges.toNat_end_of_wraps seg_wraps
      refine iff_of_true ⟨after, ?_⟩ fun _ => seg_wraps
      by_cases wraps : Wraps sect.addr sect.size
      · have sect_end := WordRanges.toNat_end_of_wraps wraps
        omega
      · have sect_end := WordRanges.toNat_end wraps
        omega
    · have seg_end := WordRanges.toNat_end seg_wraps
      by_cases wraps : Wraps sect.addr sect.size
      · refine iff_of_false (fun inside => ?_) fun only_if => seg_wraps (only_if wraps)
        rw [Wraps] at wraps
        omega
      · have sect_end := WordRanges.toNat_end wraps
        exact iff_of_true ⟨after, by omega⟩ fun wraps' => absurd wraps' wraps

theorem fileRange_of_good {header : Header} {fileLen : BitVec 64} {info : SegmentInfo}
    (good : badSize header fileLen info = false) :
    ¬Wraps info.fileOffset info.fileSize ∧ info.fileRange ⊆ Set.Iio fileLen.toNat := by
  rw [badSize, Bool.or_eq_false_iff, WordRanges.greaterThanAddOrOverflow_iff] at good
  have small := fileLen.isLt
  refine ⟨fun wraps => ?_, fun n inside => ?_⟩
  · rw [Wraps] at wraps
    omega
  · exact Set.mem_Iio.mpr (Nat.lt_of_lt_of_le inside.2 good.1)

theorem disjoint_of_good {header : Header} {info1 info2 : SegmentInfo} (good : badSegments header info1 info2 = false)
    (differ : info1.segIndex ≠ info2.segIndex) :
    (¬Wraps info1.vmAddr info1.vmSize → ¬Wraps info2.vmAddr info2.vmSize → Disjoint info1.vmRange info2.vmRange) ∧
      (¬Wraps info1.fileOffset info1.fileSize → ¬Wraps info2.fileOffset info2.fileSize →
        Disjoint info1.fileRange info2.fileRange) := by
  rw [badSegments, if_neg differ, Bool.or_eq_false_iff, Bool.or_eq_false_iff] at good
  exact ⟨fun fits fits' => (WordRanges.overlap_iff fits fits').mp good.1.1,
    fun fits fits' => (WordRanges.overlap_iff fits fits').mp good.1.2⟩

/-- An accepted header is sound exactly when nothing escapes the checks. -/
theorem soundSegments_iff (header : Header) (fileLen : BitVec 64) (valid : validSegments header fileLen = true) :
    SoundSegments header fileLen ↔ NothingEscapes header := by
  simp only [validSegments, Bool.and_eq_true, Bool.not_eq_true', List.any_eq_false, Bool.or_eq_true, not_or,
    Bool.not_eq_true] at valid
  obtain ⟨⟨⟨⟨⟨-, sizes⟩, -⟩, -⟩, apart⟩, sections⟩ := valid
  have good64 : ∀ seg, LoadCommand.segment64 seg ∈ header.commands → seg.sections.any (badSection seg) = false :=
    fun seg inside => sections _ inside
  have good32 : ∀ seg, LoadCommand.segment seg ∈ header.commands → seg.sections.any (badSection seg) = false :=
    fun seg inside => sections _ inside
  constructor
  · intro sound
    refine ⟨?_, ?_, fun seg inside => (encloses_iff (good64 seg inside)).mp (sound.sections64 seg inside),
      fun seg inside => (encloses_iff (good32 seg inside)).mp (sound.sections32 seg inside)⟩
    · refine sound.memory.imp ?_
      intro _ _ disjoint _
      exact disjoint
    · refine sound.file.imp ?_
      intro _ _ disjoint _
      exact disjoint
  · intro nothing
    refine ⟨?_, ?_, fun info inside => (fileRange_of_good (sizes info inside).2).2,
      fun seg inside => (encloses_iff (good64 seg inside)).mpr (nothing.sections64 seg inside),
      fun seg inside => (encloses_iff (good32 seg inside)).mpr (nothing.sections32 seg inside)⟩
    · refine nothing.memory.imp_of_mem fun {info1 info2} inside1 inside2 escaped => ?_
      by_cases unchecked : Unchecked info1 info2
      · exact escaped unchecked
      · simp only [Unchecked, not_or] at unchecked
        exact (disjoint_of_good (apart info1 inside1 info2 inside2) unchecked.1).1 unchecked.2.1 unchecked.2.2
    · refine nothing.file.imp_of_mem fun {info1 info2} inside1 inside2 escaped => ?_
      by_cases same : info1.segIndex = info2.segIndex
      · exact escaped same
      · exact (disjoint_of_good (apart info1 inside1 info2 inside2) same).2
          (fileRange_of_good (sizes info1 inside1).2).1 (fileRange_of_good (sizes info2 inside2).2).1

/-- A 64-bit header with one section in its `__TEXT` segment. -/
def headerWithSection (sect : Section 64) : Header where
  is64 := true
  inDyldCache := false
  isStaticExecutable := false
  enforceTextPermissions := true
  enforceLinkeditPermissions := true
  enforceSegmentOrder := true
  commands := [
    .segment64 ⟨152, "__TEXT", 0x100000000, 0x4000, 0, 0x4000, 5, 0, [sect], by simp⟩,
    .segment64 ⟨72, "__LINKEDIT", 0x100004000, 0x4000, 0x4000, 0x1000, 1, 0, [], by simp⟩]

/-- A section inside of the segment. -/
theorem soundSegments_iff_section : SoundSegments (headerWithSection ⟨0x100001000, 0x20⟩) 0x5000 ↔
    NothingEscapes (headerWithSection ⟨0x100001000, 0x20⟩) :=
  soundSegments_iff _ _ (by decide)

/-- A section whose end wraps passes the checks. -/
theorem not_soundSegments_wrapping :
    validSegments (headerWithSection ⟨0xFFFFFFFFFFFFF000, 0x2000⟩) 0x5000 = true ∧
      ¬SoundSegments (headerWithSection ⟨0xFFFFFFFFFFFFF000, 0x2000⟩) 0x5000 := by
  refine ⟨by decide, fun sound => ?_⟩
  have inside := sound.sections64 _ List.mem_cons_self _ List.mem_cons_self
  rw [WordRanges.extent_subset_iff (by decide)] at inside
  exact absurd inside.2 (by decide)

end ObjcDyld.MachO
