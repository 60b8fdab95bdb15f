import ObjcDyld.Common.Rankings
import ObjcDyld.MachO.LoadCommands

/-!
# Fat files

`FatFile::forEachSlice`, `FatFile::isValidSlice`, `FatFile::isFatFileWithSlice` and `GradedArchs::grade`.
All slices are checked with the diagnostics of the caller, which also decide the answer, and a fat
header of 32 bits is searched for one more arm64 slice behind its last entry.
-/

namespace ObjcDyld.MachO

open ByteMemory Rankings StoppableRuns

abbrev FAT_MAGIC : ℕ := 0xCAFEBABE
abbrev FAT_MAGIC_64 : ℕ := 0xCAFEBABF
abbrev CPU_TYPE_ARM : BitVec 32 := 12
abbrev CPU_TYPE_ARM64 : BitVec 32 := 0x0100000C
abbrev CPU_TYPE_ARM64_32 : BitVec 32 := 0x0200000C
abbrev CPU_SUBTYPE_ARM_V7K : BitVec 32 := 12
abbrev CPU_SUBTYPE_ARM64_ALL : BitVec 32 := 0
abbrev CPU_SUBTYPE_ARM64_V8 : BitVec 32 := 1
abbrev CPU_SUBTYPE_MASK : BitVec 32 := 0xFF000000

/-- A file that is mapped inside the address space. -/
structure FatFile where
  memory : Memory
  start : ℕ
  fileLen : ℕ
  mapped : start + fileLen < 2 ^ 64

/-- The fields of a `fat_arch` or `fat_arch_64` in host order. -/
structure FatArch where
  cputype : BitVec 32
  cpusubtype : BitVec 32
  offset : ℕ
  size : ℕ
  deriving DecidableEq

/-- What `diag` holds. -/
inductive FatError
  /-- "fat header too large: %u entries" -/
  | tooLarge (nfat_arch : ℕ)
  /-- "not a fat file" -/
  | notFat
  /-- "slice %d extends beyond end of file" -/
  | beyondEnd (sliceIndex : ℕ)
  /-- an error of `isMachO` -/
  | machO (error : CommandError)
  /-- "cpu type/subtype mismatch" -/
  | mismatch
  /-- "file is static library" -/
  | staticLibrary
  /-- "slice is not page aligned" -/
  | notAligned
  deriving DecidableEq

/-- The answer of a check, the diagnostics after it and the bytes it reads. -/
structure SliceCheck where
  valid : Bool
  diag : Option FatError
  reads : List (ℕ × ℕ)

/-- What a walk of the slices does to the state of its callback, its diagnostics and what it reads. -/
structure SliceWalk (σ : Type) where
  outcome : Outcome σ FatArch
  diag : Option FatError
  reads : List (ℕ × ℕ)

/-- The walk with earlier calls and reads in front. -/
def SliceWalk.after {σ : Type} (calls : List FatArch) (reads : List (ℕ × ℕ)) (walk : SliceWalk σ) : SliceWalk σ :=
  { walk with outcome := walk.outcome.after calls, reads := reads ++ walk.reads }

/-- A number in big-endian order. -/
def loadBig (memory : Memory) (address : ℕ) : ℕ → ℕ
  | 0 => 0
  | n + 1 => 2 ^ 8 * loadBig memory address n + (memory (address + n)).toNat

/-- How many bytes `strncmp` finds equal to those of a text. -/
def matching (memory : Memory) (address : ℕ) : List (BitVec 8) → ℕ
  | [] => 0
  | byte :: bytes => if memory address = byte then 1 + matching memory (address + 1) bytes else 0

/-- "!<arch>" -/
def archiveMagic : List (BitVec 8) := [0x21, 0x3C, 0x61, 0x72, 0x63, 0x68, 0x3E]

namespace MachOFile

/-- `MachOFile::uses16KPages`. -/
def uses16KPages (file : MachOFile) : Bool :=
  if file.cputype = CPU_TYPE_ARM64 ∨ file.cputype = CPU_TYPE_ARM64_32 then true
  else if file.cputype = CPU_TYPE_ARM then file.cpusubtype = CPU_SUBTYPE_ARM_V7K
  else false

def pageSizeMask (file : MachOFile) : ℕ := if file.uses16KPages then 0x3FFF else 0xFFF

/-- The bytes that `isMachO` looks at. -/
def isMachOReads (file : MachOFile) (fileSize : ℕ) : List (ℕ × ℕ) :=
  if file.hasMachOMagic = false then [(file.mh, 4)]
  else if file.ExceedsLength fileSize then [(file.mh, 4), (file.mh + 20, 4)]
  else [(file.mh, 4), (file.mh + 20, 4)] ++ (file.forEachLoadCommand (fun _ state => (state, false)) ()).reads

/-- `MachOFile::isMachO` with the diagnostics of its caller, whose earlier errors count too. -/
def isMachOWith (file : MachOFile) (diag : Option FatError) (fileSize : ℕ) : SliceCheck :=
  let diag' := ((file.isMachO fileSize).2.map .machO).or diag
  ⟨(file.isMachO fileSize).1 && diag'.isNone, diag', file.isMachOReads fileSize⟩

end MachOFile

/-- An entry of `_orderedCpuTypes`. -/
structure CpuGrade where
  type : BitVec 32
  subtype : BitVec 32
  grade : BitVec 32

/-- The end of the list is its zero terminator. -/
structure GradedArchs where
  orderedCpuTypes : List CpuGrade

/-- `GradedArchs::grade`. -/
def GradedArchs.grade (archs : GradedArchs) (cputype cpusubtype : BitVec 32) : ℤ :=
  match (archs.orderedCpuTypes.takeWhile (·.type ≠ 0)).find? fun p =>
      p.type = cputype ∧ p.subtype = cpusubtype &&& ~~~CPU_SUBTYPE_MASK with
  | none => 0
  | some p => p.grade.toInt

/-- The local `bestGrade` and the results of `isFatFileWithSlice`. -/
structure Selection where
  bestGrade : ℤ
  sliceOffset : ℕ
  sliceLen : ℕ
  deriving DecidableEq

/-- What `isFatFileWithSlice` returns, with its three results. -/
structure SliceAnswer where
  found : Bool
  sliceOffset : ℕ
  sliceLen : ℕ
  missingSlice : Bool
  deriving DecidableEq

namespace FatFile

variable {σ : Type} (file : FatFile)

/-- The limit of both headers, in entries of the smaller size. -/
def maxArchs : ℕ := (4096 - 8) / 20

def magic : ℕ := loadBig file.memory file.start 4
def nfat_arch : ℕ := loadBig file.memory (file.start + 4) 4

/-- The address of an entry. -/
def archAt (i : ℕ) : ℕ := file.start + 8 + (if file.magic = FAT_MAGIC_64 then 32 else 20) * i

/-- The fields of an entry that are read. -/
def archBytes : ℕ := if file.magic = FAT_MAGIC_64 then 24 else 16

def arch (i : ℕ) : FatArch :=
  let number := loadBig file.memory
  let word n := BitVec.ofNat 32 (number n 4)
  let at' := file.archAt i
  if file.magic = FAT_MAGIC_64 then ⟨word at', word (at' + 4), number (at' + 8) 8, number (at' + 16) 8⟩
  else ⟨word at', word (at' + 4), number (at' + 8) 4, number (at' + 12) 4⟩

def machOFile (slice : FatArch) : MachOFile := ⟨file.memory, file.start + slice.offset⟩

/-- `FatFile::isValidSlice`. -/
def isValidSlice (diag : Option FatError) (sliceIndex : ℕ) (slice : FatArch) : SliceCheck :=
  if slice.offset > file.fileLen ∨ slice.size > file.fileLen - slice.offset then ⟨false, some (.beyondEnd sliceIndex), []⟩
  else
    let mf := file.machOFile slice
    let check := mf.isMachOWith diag slice.size
    if check.valid = false then check
    else
      let reads := check.reads ++ [(mf.mh + 4, 8)]
      if mf.cputype ≠ slice.cputype ∨ mf.cpusubtype ≠ slice.cpusubtype then ⟨false, some .mismatch, reads⟩
      else if slice.offset &&& mf.pageSizeMask ≠ 0 then
        let same := matching file.memory mf.mh archiveMagic
        ⟨false, some (if same = 7 then .staticLibrary else .notAligned), reads ++ [(mf.mh, min 7 (same + 1))]⟩
      else ⟨true, check.diag, reads⟩

/-- The loop of `forEachSlice` from one entry on, with the entries that are left. -/
def walkFrom (callback : FatArch → σ → σ × Bool) : ℕ → ℕ → Option FatError → σ → SliceWalk σ
  | 0, _, diag, state => ⟨⟨state, [], false⟩, diag, []⟩
  | rounds + 1, i, diag, state =>
      let check := file.isValidSlice diag i (file.arch i)
      let reads := (file.archAt i, file.archBytes) :: check.reads
      if check.valid then
        let call := calling callback (file.arch i) state
        if call.stopped then ⟨call, check.diag, reads⟩
        else (walkFrom callback rounds (i + 1) check.diag call.state).after call.calls reads
      else (walkFrom callback rounds (i + 1) check.diag state).after [] reads

/-- The test of the entry behind the last one. -/
def IsArm64 (slice : FatArch) : Prop :=
  slice.cputype = CPU_TYPE_ARM64 ∧
    (slice.cpusubtype = CPU_SUBTYPE_ARM64_ALL ∨ slice.cpusubtype = CPU_SUBTYPE_ARM64_V8)

instance (slice : FatArch) : Decidable (IsArm64 slice) := inferInstanceAs (Decidable (_ ∧ _))

/-- The search for one more slice, after the loop. -/
def oneMore (callback : FatArch → σ → σ × Bool) (walk : SliceWalk σ) : SliceWalk σ :=
  let slice := file.arch file.nfat_arch
  let reads := walk.reads ++ [(file.archAt file.nfat_arch, file.archBytes)]
  if IsArm64 slice then
    let check := file.isValidSlice walk.diag file.nfat_arch slice
    if check.valid then
      let call := calling callback slice walk.outcome.state
      ⟨call.after walk.outcome.calls, check.diag, reads ++ check.reads⟩
    else ⟨walk.outcome, check.diag, reads ++ check.reads⟩
  else { walk with reads := reads }

/-- `FatFile::forEachSlice`. -/
def forEachSlice (diag : Option FatError) (callback : FatArch → σ → σ × Bool) (state : σ) : SliceWalk σ :=
  if file.magic = FAT_MAGIC ∨ file.magic = FAT_MAGIC_64 then
    let reads := [(file.start, 4), (file.start + 4, 4)]
    if file.nfat_arch > maxArchs then ⟨⟨state, [], false⟩, some (.tooLarge file.nfat_arch), reads⟩
    else
      let walk := (file.walkFrom callback file.nfat_arch 0 diag state).after [] reads
      if file.magic = FAT_MAGIC ∧ file.nfat_arch ≠ maxArchs then file.oneMore callback walk else walk
  else ⟨⟨state, [], false⟩, some .notFat, [(file.start, 4)]⟩

/-- The callback of `isFatFileWithSlice`. -/
def select (archs : GradedArchs) (slice : FatArch) (selection : Selection) : Selection × Bool :=
  let sliceGrade := archs.grade slice.cputype slice.cpusubtype
  (if sliceGrade ≠ 0 ∧ sliceGrade > selection.bestGrade then ⟨sliceGrade, slice.offset, slice.size⟩ else selection, false)

/-- `FatFile::isFatFileWithSlice`, with what its results hold before. -/
def isFatFileWithSlice (diag : Option FatError) (archs : GradedArchs) (sliceOffset sliceLen : ℕ) : SliceAnswer :=
  if file.magic ≠ FAT_MAGIC ∧ file.magic ≠ FAT_MAGIC_64 then ⟨false, sliceOffset, sliceLen, false⟩
  else
    let walk := file.forEachSlice diag (select archs) ⟨0, sliceOffset, sliceLen⟩
    let selection := walk.outcome.state
    if walk.diag.isSome then ⟨false, selection.sliceOffset, selection.sliceLen, false⟩
    else ⟨selection.bestGrade ≠ 0, selection.sliceOffset, selection.sliceLen, selection.bestGrade = 0⟩

/-! ## What is expected -/

/-- A read lies inside the file. -/
def Holds (read : ℕ × ℕ) : Prop := file.start ≤ read.1 ∧ read.1 + read.2 ≤ file.start + file.fileLen

/-- A valid slice. -/
structure IsSlice (slice : FatArch) : Prop where
  inside : slice.offset + slice.size ≤ file.fileLen
  magic : (file.machOFile slice).hasMachOMagic = true
  header : ¬ (file.machOFile slice).ExceedsLength slice.size
  commands : (file.machOFile slice).AllFit
  cputype : (file.machOFile slice).cputype = slice.cputype
  cpusubtype : (file.machOFile slice).cpusubtype = slice.cpusubtype
  aligned : (file.machOFile slice).pageSizeMask + 1 ∣ slice.offset

/-- A slice of the other byte order, which is passed over in silence. -/
def IsForeign (slice : FatArch) : Prop :=
  slice.offset + slice.size ≤ file.fileLen ∧ (file.machOFile slice).hasMachOMagic = false ∧
    (file.machOFile slice).hasMachOBigEndianMagic = true

def Malformed (slice : FatArch) : Prop := ¬ file.IsSlice slice ∧ ¬ file.IsForeign slice

/-- The header of a slice in the file lies in the file, as far as it is looked at. -/
def Readable (slice : FatArch) : Prop :=
  let mf := file.machOFile slice
  let fileEnd := file.start + file.fileLen
  slice.offset + slice.size ≤ file.fileLen → mf.mh + 4 ≤ fileEnd ∧ (mf.hasMachOMagic = true → mf.mh + 24 ≤ fileEnd ∧
    (¬ mf.ExceedsLength slice.size → mf.AllFit ∨ mf.endOf mf.startCmds mf.fitting + 8 ≤ fileEnd))

instance (slice : FatArch) : Decidable (file.IsSlice slice) :=
  decidable_of_iff (slice.offset + slice.size ≤ file.fileLen ∧ (file.machOFile slice).hasMachOMagic = true ∧
      ¬ (file.machOFile slice).ExceedsLength slice.size ∧
      (file.machOFile slice).fitting.length = (file.machOFile slice).ncmds ∧
      (file.machOFile slice).cputype = slice.cputype ∧ (file.machOFile slice).cpusubtype = slice.cpusubtype ∧
      (file.machOFile slice).pageSizeMask + 1 ∣ slice.offset)
    ⟨fun h => ⟨h.1, h.2.1, h.2.2.1, h.2.2.2.1, h.2.2.2.2.1, h.2.2.2.2.2.1, h.2.2.2.2.2.2⟩,
      fun h => ⟨h.1, h.2, h.3, h.4, h.5, h.6, h.7⟩⟩

instance (slice : FatArch) : Decidable (file.IsForeign slice) := inferInstanceAs (Decidable (_ ∧ _))

instance (slice : FatArch) : Decidable (file.Malformed slice) := inferInstanceAs (Decidable (_ ∧ _))

/-- There is an entry behind the last one to look at. -/
def LooksPast : Prop := file.magic = FAT_MAGIC ∧ file.nfat_arch ≠ maxArchs

/-- The entry behind the last one counts as one more slice. -/
def HasExtra : Prop := file.LooksPast ∧ IsArm64 (file.arch file.nfat_arch)

instance : Decidable file.LooksPast := inferInstanceAs (Decidable (_ ∧ _))

instance : Decidable file.HasExtra := inferInstanceAs (Decidable (_ ∧ _))

/-- The entries that are tried. -/
def entryCount : ℕ := if file.HasExtra then file.nfat_arch + 1 else file.nfat_arch

/-- A valid slice that no malformed entry stands before. -/
def Reportable (i : ℕ) : Prop := file.IsSlice (file.arch i) ∧ ∀ k < i, ¬ file.Malformed (file.arch k)

instance (i : ℕ) : Decidable (file.Reportable i) := inferInstanceAs (Decidable (_ ∧ _))

/-- The reportable slices among some entries. -/
def reportable (i rounds : ℕ) : List FatArch := ((List.range' i rounds).filter (file.Reportable ·)).map file.arch

/-- The loop looks at an entry. -/
def Visited (callback : FatArch → σ → σ × Bool) (state : σ) (i : ℕ) : Prop :=
  i < file.nfat_arch ∧ (runUntil (calling callback) (file.reportable 0 i) state).stopped = false

def grade (archs : GradedArchs) (i : ℕ) : ℤ := archs.grade (file.arch i).cputype (file.arch i).cpusubtype

/-- A valid slice of non-zero grade. -/
def Graded (archs : GradedArchs) (i : ℕ) : Prop := file.IsSlice (file.arch i) ∧ file.grade archs i ≠ 0

/-- Every read lies inside the file, the slices that are reported are valid and their entries are there, none is
reported after the callback stopped, and the first valid slice of the highest grade is selected, if there is one. -/
structure IsSound (archs : GradedArchs) (callback : FatArch → σ → σ × Bool) (state : σ) : Prop where
  reads : ∀ read ∈ (file.forEachSlice none callback state).reads, file.Holds read
  slices : ∀ slice ∈ (file.forEachSlice none callback state).outcome.calls,
    file.IsSlice slice ∧ ∃ i < file.entryCount, file.arch i = slice
  stop : (file.forEachSlice none callback state).outcome =
    runUntil (calling callback) (file.forEachSlice none callback state).outcome.calls state
  selects : (∃ i < file.entryCount, file.Graded archs i) → ∀ sliceOffset sliceLen,
    ∃ i, IsFirstBest (file.grade archs) (file.Graded archs) file.entryCount i ∧
      file.isFatFileWithSlice none archs sliceOffset sliceLen = ⟨true, (file.arch i).offset, (file.arch i).size, false⟩

/-- An entry lies in the file and, if it is tried, so does the header of its slice. -/
def EntryInside (tried : Prop) (i : ℕ) : Prop :=
  file.Holds (file.archAt i, file.archBytes) ∧ (tried → file.Readable (file.arch i))

/-- What is looked at lies in the file. -/
structure LiesInside (callback : FatArch → σ → σ × Bool) (state : σ) : Prop where
  header : 8 ≤ file.fileLen
  visited : ∀ i, file.Visited callback state i → file.EntryInside True i
  extra : file.LooksPast → file.EntryInside file.HasExtra file.nfat_arch

/-- The callback does not stop the loop, or there is no slice behind it. -/
def StopsAtEnd (callback : FatArch → σ → σ × Bool) (state : σ) : Prop :=
  (runUntil (calling callback) (file.reportable 0 file.nfat_arch) state).stopped = false ∨
    ¬ (file.HasExtra ∧ file.IsSlice (file.arch file.nfat_arch))

/-- If there is a valid slice of non-zero grade, no entry is malformed and one of the grades is positive. -/
def Selectable (archs : GradedArchs) : Prop :=
  (∃ i < file.entryCount, file.Graded archs i) →
    (∀ i < file.entryCount, ¬ file.Malformed (file.arch i)) ∧
      ∃ i < file.entryCount, file.IsSlice (file.arch i) ∧ 0 < file.grade archs i

end FatFile

end ObjcDyld.MachO
