import ObjcDyld.Common.WordRanges

/-!
# Validation of the LINKEDIT layout

`MachOAnalyzer::validLinkeditLayout`: the blobs that the load commands list are sorted by their
file offsets and checked against the ones before them, and the symbol ranges are checked.
-/

namespace ObjcDyld.MachO

open WordRanges (extent Wraps greaterThanAddOrOverflow)

/-- `dyld_info_command`; `isOnly` for `LC_DYLD_INFO_ONLY`. -/
structure DyldInfoCommand where
  isOnly : Bool
  rebaseOff : BitVec 32
  rebaseSize : BitVec 32
  bindOff : BitVec 32
  bindSize : BitVec 32
  weakBindOff : BitVec 32
  weakBindSize : BitVec 32
  lazyBindOff : BitVec 32
  lazyBindSize : BitVec 32
  exportOff : BitVec 32
  exportSize : BitVec 32

structure LinkeditDataCommand where
  dataoff : BitVec 32
  datasize : BitVec 32

structure SymtabCommand where
  symoff : BitVec 32
  nsyms : BitVec 32
  stroff : BitVec 32
  strsize : BitVec 32

structure DysymtabCommand where
  ilocalsym : BitVec 32
  nlocalsym : BitVec 32
  iextdefsym : BitVec 32
  nextdefsym : BitVec 32
  iundefsym : BitVec 32
  nundefsym : BitVec 32
  indirectsymoff : BitVec 32
  nindirectsyms : BitVec 32
  extreloff : BitVec 32
  nextrel : BitVec 32
  locreloff : BitVec 32
  nlocrel : BitVec 32

/-- `LinkEditInfo`; `getLinkEditLoadCommands` fails when there is an LC_DYSYMTAB without an LC_SYMTAB. -/
structure LinkEditInfo where
  is64 : Bool
  enforceDyldInfoAndLocalRelocs : Bool
  linkeditFileOffset : BitVec 32
  linkeditFileSize : BitVec 32
  dyldInfo : Option DyldInfoCommand
  exportsTrie : Option LinkeditDataCommand
  symTab : Option SymtabCommand
  dynSymTab : Option DysymtabCommand
  splitSegInfo : Option LinkeditDataCommand
  functionStarts : Option LinkeditDataCommand
  dataInCode : Option LinkeditDataCommand
  codeSig : Option LinkeditDataCommand
  symTab_of_dynSymTab : dynSymTab.isSome → symTab.isSome

/-- `LinkEditContentChunk` with the count and the size of its entries; a misaligned one is
reported, but accepted. -/
structure LinkEditContentChunk where
  name : String
  fileOffsetStart : BitVec 32
  count : BitVec 32
  entrySize : ℕ

namespace LinkEditContentChunk

/-- The size that is cast to 32 bits. -/
def size (blob : LinkEditContentChunk) : BitVec 32 := blob.count * BitVec.ofNat 32 blob.entrySize

def trueSize (blob : LinkEditContentChunk) : ℕ := blob.count.toNat * blob.entrySize

end LinkEditContentChunk

/-- A blob that is listed unless it has no entries. -/
def chunk (name : String) (fileOffsetStart count : BitVec 32) (entrySize : ℕ) : List LinkEditContentChunk :=
  if count = 0 then [] else [⟨name, fileOffsetStart, count, entrySize⟩]

def dataChunk (name : String) (command : Option LinkeditDataCommand) : List LinkEditContentChunk :=
  match command with
  | some command => chunk name command.dataoff command.datasize 1
  | none => []

def DyldInfoCommand.chunks (dyldInfo : DyldInfoCommand) : List LinkEditContentChunk :=
  chunk "rebase opcodes" dyldInfo.rebaseOff dyldInfo.rebaseSize 1 ++
  chunk "bind opcodes" dyldInfo.bindOff dyldInfo.bindSize 1 ++
  chunk "weak bind opcodes" dyldInfo.weakBindOff dyldInfo.weakBindSize 1 ++
  chunk "lazy bind opcodes" dyldInfo.lazyBindOff dyldInfo.lazyBindSize 1 ++
  chunk "exports trie" dyldInfo.exportOff dyldInfo.exportSize 1

/-- The sizes of `relocation_info`, of an index, and of `nlist_64` and `nlist`. -/
def DysymtabCommand.chunks (dynSymTab : DysymtabCommand) : List LinkEditContentChunk :=
  chunk "local relocations" dynSymTab.locreloff dynSymTab.nlocrel 8 ++
  chunk "external relocations" dynSymTab.extreloff dynSymTab.nextrel 8 ++
  chunk "indirect symbol table" dynSymTab.indirectsymoff dynSymTab.nindirectsyms 4

def SymtabCommand.chunks (symTab : SymtabCommand) (is64 : Bool) : List LinkEditContentChunk :=
  chunk "symbol table" symTab.symoff symTab.nsyms (if is64 then 16 else 12) ++
  chunk "symbol table strings" symTab.stroff symTab.strsize 1

namespace LinkEditInfo

variable (leInfo : LinkEditInfo)

def blobs : List LinkEditContentChunk :=
  (leInfo.dyldInfo.map DyldInfoCommand.chunks).getD [] ++
  dataChunk "exports trie" leInfo.exportsTrie ++
  (leInfo.dynSymTab.map DysymtabCommand.chunks).getD [] ++
  dataChunk "shared cache info" leInfo.splitSegInfo ++
  dataChunk "function starts" leInfo.functionStarts ++
  dataChunk "data in code" leInfo.dataInCode ++
  (leInfo.symTab.map fun symTab => symTab.chunks leInfo.is64).getD [] ++
  dataChunk "code signature" leInfo.codeSig

def badCombination : Bool :=
  match leInfo.dyldInfo, leInfo.dynSymTab with
  | some dyldInfo, some dynSymTab =>
      dyldInfo.isOnly &&
        ((dynSymTab.nlocrel != 0 && leInfo.enforceDyldInfoAndLocalRelocs) || dynSymTab.nextrel != 0)
  | none, none => true
  | _, _ => false

def linkeditFileEnd : BitVec 32 := leInfo.linkeditFileOffset + leInfo.linkeditFileSize

end LinkEditInfo

/-- The loop over the sorted blobs. -/
def checkBlobs (linkeditFileEnd : BitVec 32) : BitVec 32 → List LinkEditContentChunk → Bool
  | _, [] => true
  | prevEnd, blob :: rest =>
      if blob.fileOffsetStart < prevEnd then false
      else if greaterThanAddOrOverflow blob.fileOffsetStart blob.size linkeditFileEnd then false
      else checkBlobs linkeditFileEnd (blob.fileOffsetStart + blob.size) rest

/-- The check of a range of symbols: each of its parts is not too large, and the sum does not wrap. -/
def goodSymbolRange (index count nsyms : BitVec 32) : Bool :=
  !(count > nsyms || index > nsyms) && !(index + count < index)

/-- The checks for invalid symbol table sizes. -/
def goodSymbolTables (symTab : SymtabCommand) (dynSymTab : Option DysymtabCommand) : Bool :=
  !(symTab.nsyms > 0x10000000) &&
    match dynSymTab with
    | none => true
    | some dynSymTab =>
        !(dynSymTab.nindirectsyms != 0 && dynSymTab.nindirectsyms > 0x10000000) &&
        goodSymbolRange dynSymTab.ilocalsym dynSymTab.nlocalsym symTab.nsyms &&
        goodSymbolRange dynSymTab.iextdefsym dynSymTab.nextdefsym symTab.nsyms &&
        goodSymbolRange dynSymTab.iundefsym dynSymTab.nundefsym symTab.nsyms

/-- `MachOAnalyzer::validLinkeditLayout`; `qsort` with a comparator that never says equal is only
known to permute the blobs. -/
def validLinkeditLayout (qsort : List LinkEditContentChunk → List LinkEditContentChunk) (leInfo : LinkEditInfo) :
    Bool :=
  !leInfo.badCombination && !leInfo.blobs.isEmpty &&
  checkBlobs leInfo.linkeditFileEnd leInfo.linkeditFileOffset (qsort leInfo.blobs) &&
  (leInfo.symTab.map fun symTab => goodSymbolTables symTab leInfo.dynSymTab).getD true

def LinkEditContentChunk.range (blob : LinkEditContentChunk) : Set ℕ :=
  Set.Ico blob.fileOffsetStart.toNat (blob.fileOffsetStart.toNat + blob.trueSize)

/-- The blobs are apart and inside of LINKEDIT, and the symbol ranges are inside of the symbol table. -/
structure SoundLayout (leInfo : LinkEditInfo) : Prop where
  inside : ∀ blob ∈ leInfo.blobs, blob.range ⊆ extent leInfo.linkeditFileOffset leInfo.linkeditFileSize
  apart : leInfo.blobs.Pairwise fun blob other => Disjoint blob.range other.range
  symbols : ∀ symTab ∈ leInfo.symTab, ∀ dynSymTab ∈ leInfo.dynSymTab,
    extent dynSymTab.ilocalsym dynSymTab.nlocalsym ⊆ Set.Iio symTab.nsyms.toNat ∧
    extent dynSymTab.iextdefsym dynSymTab.nextdefsym ⊆ Set.Iio symTab.nsyms.toNat ∧
    extent dynSymTab.iundefsym dynSymTab.nundefsym ⊆ Set.Iio symTab.nsyms.toNat

/-- The end of the range, if it is not empty, is no larger than the number of symbols. -/
def EndsBy (index count nsyms : BitVec 32) : Prop := count = 0 ∨ index.toNat + count.toNat ≤ nsyms.toNat

/-- No size is cut off, and the symbol ranges end by the end of the symbol table. -/
structure Untruncated (leInfo : LinkEditInfo) : Prop where
  sizes : ∀ blob ∈ leInfo.blobs, blob.trueSize < 2 ^ 32
  symbols : ∀ symTab ∈ leInfo.symTab, ∀ dynSymTab ∈ leInfo.dynSymTab,
    EndsBy dynSymTab.ilocalsym dynSymTab.nlocalsym symTab.nsyms ∧
    EndsBy dynSymTab.iextdefsym dynSymTab.nextdefsym symTab.nsyms ∧
    EndsBy dynSymTab.iundefsym dynSymTab.nundefsym symTab.nsyms

theorem extent_subset_Iio_iff (index count nsyms : BitVec 32) :
    extent index count ⊆ Set.Iio nsyms.toNat ↔ EndsBy index count nsyms := by
  rw [EndsBy]
  by_cases empty : count = 0
  · rw [empty, WordRanges.extent_empty rfl]
    exact iff_of_true (Set.empty_subset _) (Or.inl rfl)
  · have positive : 0 < count.toNat := Nat.pos_of_ne_zero fun zero => empty (BitVec.toNat_inj.mp zero)
    rw [or_iff_right empty]
    constructor
    · intro subset
      have last := Set.mem_Iio.mp (subset (Set.mem_Ico.mpr ⟨Nat.le_add_right index.toNat (count.toNat - 1), by omega⟩))
      omega
    · intro le n inside
      exact Set.mem_Iio.mpr (Nat.lt_of_lt_of_le inside.2 le)

namespace LinkEditContentChunk

theorem size_of_small {blob : LinkEditContentChunk} (small : blob.trueSize < 2 ^ 32) :
    blob.size.toNat = blob.trueSize := by
  rw [trueSize] at small
  rw [size, trueSize, BitVec.toNat_mul, BitVec.toNat_ofNat, Nat.mul_mod_mod, Nat.mod_eq_of_lt small]

end LinkEditContentChunk

theorem checkBlobs_spec (linkeditFileEnd : BitVec 32) {prevEnd : BitVec 32} {blobs : List LinkEditContentChunk}
    (good : checkBlobs linkeditFileEnd prevEnd blobs = true) :
    (∀ blob ∈ blobs, prevEnd.toNat ≤ blob.fileOffsetStart.toNat ∧
      blob.fileOffsetStart.toNat + blob.size.toNat ≤ linkeditFileEnd.toNat) ∧
    blobs.Pairwise fun blob other => blob.fileOffsetStart.toNat + blob.size.toNat ≤ other.fileOffsetStart.toNat := by
  induction blobs generalizing prevEnd with
  | nil => exact ⟨by simp, List.Pairwise.nil⟩
  | cons blob rest ih =>
      rw [checkBlobs] at good
      split at good
      · exact absurd good (by simp)
      · next after =>
          split at good
          · exact absurd good (by simp)
          · next fits =>
              rw [Bool.not_eq_true, WordRanges.greaterThanAddOrOverflow_iff] at fits
              have after : prevEnd.toNat ≤ blob.fileOffsetStart.toNat := BitVec.le_def.mp (BitVec.not_lt.mp after)
              have small := linkeditFileEnd.isLt
              have ends : (blob.fileOffsetStart + blob.size).toNat = blob.fileOffsetStart.toNat + blob.size.toNat :=
                WordRanges.toNat_end (by rw [Wraps]; omega)
              obtain ⟨each, apart⟩ := ih good
              refine ⟨?_, List.pairwise_cons.mpr ⟨fun other inside => ?_, apart⟩⟩
              · rintro other (_ | ⟨_, inside⟩)
                · exact ⟨after, fits⟩
                · have bounds := each other inside
                  exact ⟨by omega, bounds.2⟩
              · have bounds := each other inside
                omega

theorem chunk_entries {name : String} {fileOffsetStart count : BitVec 32} {entrySize : ℕ} (positive : 0 < entrySize)
    {blob : LinkEditContentChunk} (inside : blob ∈ chunk name fileOffsetStart count entrySize) : 0 < blob.trueSize := by
  unfold chunk at inside
  split at inside
  · exact absurd inside List.not_mem_nil
  · next nonempty =>
      rw [List.mem_singleton.mp inside]
      exact Nat.mul_pos (Nat.pos_of_ne_zero fun zero => nonempty (BitVec.toNat_inj.mp zero)) positive

theorem dataChunk_entries {name : String} {command : Option LinkeditDataCommand} {blob : LinkEditContentChunk}
    (inside : blob ∈ dataChunk name command) : 0 < blob.trueSize := by
  cases command with
  | none => exact absurd inside List.not_mem_nil
  | some command => exact chunk_entries Nat.one_pos inside

theorem dyldInfo_entries {dyldInfo : Option DyldInfoCommand} {blob : LinkEditContentChunk}
    (inside : blob ∈ (dyldInfo.map DyldInfoCommand.chunks).getD []) : 0 < blob.trueSize := by
  cases dyldInfo with
  | none => exact absurd inside List.not_mem_nil
  | some dyldInfo =>
      simp only [Option.map_some, Option.getD_some, DyldInfoCommand.chunks, List.mem_append] at inside
      rcases inside with (((inside | inside) | inside) | inside) | inside <;> exact chunk_entries Nat.one_pos inside

theorem dynSymTab_entries {dynSymTab : Option DysymtabCommand} {blob : LinkEditContentChunk}
    (inside : blob ∈ (dynSymTab.map DysymtabCommand.chunks).getD []) : 0 < blob.trueSize := by
  cases dynSymTab with
  | none => exact absurd inside List.not_mem_nil
  | some dynSymTab =>
      simp only [Option.map_some, Option.getD_some, DysymtabCommand.chunks, List.mem_append] at inside
      rcases inside with (inside | inside) | inside
      · exact chunk_entries (by omega) inside
      · exact chunk_entries (by omega) inside
      · exact chunk_entries (by omega) inside

theorem symTab_entries {symTab : Option SymtabCommand} {is64 : Bool} {blob : LinkEditContentChunk}
    (inside : blob ∈ (symTab.map fun symTab => symTab.chunks is64).getD []) : 0 < blob.trueSize := by
  cases symTab with
  | none => exact absurd inside List.not_mem_nil
  | some symTab =>
      simp only [Option.map_some, Option.getD_some, SymtabCommand.chunks, List.mem_append] at inside
      rcases inside with inside | inside
      · exact chunk_entries (by split <;> omega) inside
      · exact chunk_entries Nat.one_pos inside

theorem blobs_entries (leInfo : LinkEditInfo) {blob : LinkEditContentChunk} (inside : blob ∈ leInfo.blobs) :
    0 < blob.trueSize := by
  simp only [LinkEditInfo.blobs, List.mem_append] at inside
  rcases inside with ((((((inside | inside) | inside) | inside) | inside) | inside) | inside) | inside
  · exact dyldInfo_entries inside
  · exact dataChunk_entries inside
  · exact dynSymTab_entries inside
  · exact dataChunk_entries inside
  · exact dataChunk_entries inside
  · exact dataChunk_entries inside
  · exact symTab_entries inside
  · exact dataChunk_entries inside

/-- An accepted layout is sound exactly when no size is cut off and the symbol ranges end in time. -/
theorem soundLayout_iff (qsort : List LinkEditContentChunk → List LinkEditContentChunk)
    (permutes : ∀ blobs, (qsort blobs).Perm blobs) (leInfo : LinkEditInfo)
    (valid : validLinkeditLayout qsort leInfo = true) : SoundLayout leInfo ↔ Untruncated leInfo := by
  simp only [validLinkeditLayout, Bool.and_eq_true, Bool.not_eq_true'] at valid
  obtain ⟨⟨⟨-, listed⟩, checked⟩, -⟩ := valid
  obtain ⟨each, follow⟩ := checkBlobs_spec _ checked
  have each : ∀ blob ∈ leInfo.blobs, leInfo.linkeditFileOffset.toNat ≤ blob.fileOffsetStart.toNat ∧
      blob.fileOffsetStart.toNat + blob.size.toNat ≤ leInfo.linkeditFileEnd.toNat :=
    fun blob inside => each blob ((permutes _).mem_iff.mpr inside)
  -- there is a blob, so that the end of LINKEDIT does not wrap
  have fits : ¬Wraps leInfo.linkeditFileOffset leInfo.linkeditFileSize := by
    intro wraps
    obtain ⟨blob, inside⟩ := List.exists_mem_of_ne_nil leInfo.blobs (by
      rintro empty
      simp [empty] at listed)
    have bounds := each blob inside
    have ends := WordRanges.toNat_end_of_wraps wraps
    have small := leInfo.linkeditFileSize.isLt
    rw [LinkEditInfo.linkeditFileEnd] at bounds
    omega
  have ends : leInfo.linkeditFileEnd.toNat = leInfo.linkeditFileOffset.toNat + leInfo.linkeditFileSize.toNat :=
    WordRanges.toNat_end fits
  have small := leInfo.linkeditFileEnd.isLt
  constructor
  · intro sound
    refine ⟨fun blob inside => ?_, fun symTab found dynSymTab found' => ?_⟩
    · have subset := sound.inside blob inside
      have entries := blobs_entries leInfo inside
      rw [LinkEditContentChunk.range, extent, Set.Ico_subset_Ico_iff (by omega)] at subset
      omega
    · obtain ⟨locals, extdefs, undefs⟩ := sound.symbols symTab found dynSymTab found'
      exact ⟨(extent_subset_Iio_iff _ _ _).mp locals, (extent_subset_Iio_iff _ _ _).mp extdefs,
        (extent_subset_Iio_iff _ _ _).mp undefs⟩
  · intro untruncated
    have size : ∀ blob ∈ leInfo.blobs, blob.size.toNat = blob.trueSize := fun blob inside =>
      LinkEditContentChunk.size_of_small (untruncated.sizes blob inside)
    refine ⟨fun blob inside => ?_, ?_, fun symTab found dynSymTab found' => ?_⟩
    · have bounds := each blob inside
      have same := size blob inside
      exact Set.Ico_subset_Ico bounds.1 (by omega)
    · have disjoint : (qsort leInfo.blobs).Pairwise fun blob other => Disjoint blob.range other.range := by
        refine follow.imp_of_mem fun {blob other} inside _ before => ?_
        have same := size blob ((permutes _).mem_iff.mp inside)
        rw [LinkEditContentChunk.range, LinkEditContentChunk.range, Set.Ico_disjoint_Ico]
        omega
      exact ((permutes _).pairwise_iff fun {_ _} apart => apart.symm).mp disjoint
    · obtain ⟨locals, extdefs, undefs⟩ := untruncated.symbols symTab found dynSymTab found'
      exact ⟨(extent_subset_Iio_iff _ _ _).mpr locals, (extent_subset_Iio_iff _ _ _).mpr extdefs,
        (extent_subset_Iio_iff _ _ _).mpr undefs⟩

/-- Two symbols, with a range of local ones. -/
def layoutWithLocals (ilocalsym nlocalsym : BitVec 32) : LinkEditInfo where
  is64 := true
  enforceDyldInfoAndLocalRelocs := true
  linkeditFileOffset := 0x4000
  linkeditFileSize := 0x100
  dyldInfo := none
  exportsTrie := none
  symTab := some ⟨0x4000, 2, 0x4020, 0x10⟩
  dynSymTab := some ⟨ilocalsym, nlocalsym, 0, 0, 0, 0, 0, 0, 0, 0, 0, 0⟩
  splitSegInfo := none
  functionStarts := none
  dataInCode := none
  codeSig := none
  symTab_of_dynSymTab := fun _ => rfl

theorem soundLayout_iff_locals : SoundLayout (layoutWithLocals 0 2) ↔ Untruncated (layoutWithLocals 0 2) :=
  soundLayout_iff id (fun _ => List.Perm.refl _) _ (by decide)

/-- A range of symbols that starts inside of the table and ends outside of it. -/
theorem not_soundLayout_locals :
    validLinkeditLayout id (layoutWithLocals 1 2) = true ∧ ¬SoundLayout (layoutWithLocals 1 2) := by
  refine ⟨by decide, fun sound => ?_⟩
  obtain ⟨locals, -⟩ := sound.symbols _ rfl _ rfl
  have last := locals (Set.mem_Ico.mpr ⟨show 1 ≤ 2 by omega, show 2 < 3 by omega⟩)
  exact absurd (Set.mem_Iio.mp last) (by decide)

end ObjcDyld.MachO
