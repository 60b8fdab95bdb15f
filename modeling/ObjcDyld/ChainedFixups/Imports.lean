import ObjcDyld.ChainedFixups.Payload
import ObjcDyld.Common.StoppableLoops

/-!
# The imports of chained fixups

The imports table in its three formats, and `MachOAnalyzer::forEachChainedFixupTarget` for an
image with `LC_DYLD_CHAINED_FIXUPS`.
-/

namespace ObjcDyld.ChainedFixups

open ByteMemory StoppableLoops

/-- An entry of the imports table in any format. -/
structure Import where
  libOrdinal : ℤ
  weakImport : Bool
  nameOffset : ℕ
  addend : BitVec 64
deriving DecidableEq

/-- Library ordinals above the limit are negative ones. -/
def signedAbove {w : ℕ} (limit libVal : BitVec w) : ℤ := if libVal > limit then libVal.toInt else libVal.toNat

/-- `dyld_chained_import`, also the first word of `dyld_chained_import_addend`. -/
def importOfWord (word : BitVec 32) (addend : BitVec 64) : Import where
  libOrdinal := signedAbove 0xF0 (word.extractLsb' 0 8)
  weakImport := word.getLsbD 8
  nameOffset := (word.extractLsb' 9 23).toNat
  addend := addend

/-- `dyld_chained_import_addend64`. -/
def importOfWords (word addend : BitVec 64) : Import where
  libOrdinal := signedAbove 0xFFF0 (word.extractLsb' 0 16)
  weakImport := word.getLsbD 16
  nameOffset := (word.extractLsb' 32 32).toNat
  addend := addend

/-- What the loop over the imports does: it reads an entry, or calls back with one. -/
inductive ImportEvent where
  | reads (address size : ℕ)
  | target (target : Import)
  | malformed
deriving DecidableEq

namespace Fixups

variable (fixups : Fixups)

def importAt (index : ℕ) : Import :=
  let memory := fixups.memory
  match fixups.importsFormat with
  | 1 => importOfWord (BitVec.ofNat 32 (load memory (fixups.importsOffset + 4 * index) 4)) 0
  | 2 =>
      importOfWord (BitVec.ofNat 32 (load memory (fixups.importsOffset + 8 * index) 4))
        ((BitVec.ofNat 32 (load memory (fixups.importsOffset + 8 * index + 4) 4)).signExtend 64)
  | _ =>
      -- DYLD_CHAINED_IMPORT_ADDEND64
      importOfWords (get64 memory (fixups.importsOffset + 16 * index))
        (get64 memory (fixups.importsOffset + 16 * index + 8))

/-- `maxSymbolOffset`: the size of the symbol pool. -/
def maxSymbolOffset : ℕ := fixups.datasize - fixups.symbolsOffset

/-- One round of the loop over the imports. -/
def visitImport (stops : ℕ → Bool) (formatEntrySize index : ℕ) : List ImportEvent × Bool :=
  let read := ImportEvent.reads (fixups.importsOffset + formatEntrySize * index) formatEntrySize
  if (fixups.importAt index).nameOffset > fixups.maxSymbolOffset then ([read, .malformed], true)
  else ([read, .target (fixups.importAt index)], stops index)

/-- `MachOAnalyzer::forEachChainedFixupTarget` for a payload. -/
def forEachChainedFixupTarget (stops : ℕ → Bool) : Option (List ImportEvent) :=
  if fixups.importsOffset > fixups.datasize ∨ fixups.symbolsOffset > fixups.datasize then some [.malformed]
  else
    match fixups.formatEntrySize with
    | none => some [.malformed]
    | some formatEntrySize =>
        (untilStopped (fun index => some (fixups.visitImport stops formatEntrySize index))
          (List.range fixups.importsCount)).map Prod.fst

/-- The loop reaches the entry: no name of it and of those before is beyond the symbol pool. -/
def Reported (index : ℕ) : Prop :=
  index < fixups.importsCount ∧ ∀ other ≤ index, (fixups.importAt other).nameOffset ≤ fixups.maxSymbolOffset

variable {fixups}

theorem target_of_visitImport {stops : ℕ → Bool} {formatEntrySize index : ℕ} {target : Import}
    (member : .target target ∈ (fixups.visitImport stops formatEntrySize index).1) :
    (fixups.importAt index).nameOffset ≤ fixups.maxSymbolOffset ∧ target = fixups.importAt index := by
  rw [visitImport] at member
  split at member
  · exact absurd member (by simp)
  · next small =>
      exact ⟨Nat.not_lt.mp small, by simpa using member⟩

theorem small_of_visitImport {stops : ℕ → Bool} {formatEntrySize index : ℕ} {events : List ImportEvent}
    (continues : fixups.visitImport stops formatEntrySize index = (events, false)) :
    (fixups.importAt index).nameOffset ≤ fixups.maxSymbolOffset := by
  rw [visitImport] at continues
  split at continues
  · exact absurd (congrArg Prod.snd continues) (by simp)
  · next small => exact Nat.not_lt.mp small

theorem forEachChainedFixupTarget_spec {formatEntrySize : ℕ} (format : fixups.formatEntrySize = some formatEntrySize)
    (stops : ℕ → Bool) :
    ∃ events, fixups.forEachChainedFixupTarget stops = some events ∧
      (∀ address size, .reads address size ∈ events → fixups.symbolsOffset ≤ fixups.datasize ∧
        ∃ index < fixups.importsCount,
          address = fixups.importsOffset + formatEntrySize * index ∧ size = formatEntrySize) ∧
      ∀ target, .target target ∈ events → fixups.symbolsOffset ≤ fixups.datasize ∧
        ∃ index, fixups.Reported index ∧ target = fixups.importAt index := by
  rw [forEachChainedFixupTarget]
  by_cases malformed : fixups.importsOffset > fixups.datasize ∨ fixups.symbolsOffset > fixups.datasize
  · rw [if_pos malformed]
    exact ⟨_, rfl, fun _ _ member => absurd member (by simp), fun _ member => absurd member (by simp)⟩
  rw [if_neg malformed, format]
  push Not at malformed
  obtain ⟨result, run⟩ := exists_untilStopped (List.range fixups.importsCount)
    fun index _ => ⟨fixups.visitImport stops formatEntrySize index, rfl⟩
  change ∃ events, (untilStopped _ _).map Prod.fst = some events ∧ _
  rw [run]
  refine ⟨result.1, rfl, fun address size member => ⟨malformed.2, ?_⟩, fun target member => ⟨malformed.2, ?_⟩⟩
  · obtain ⟨before, index, after, round, split, -, ran, member⟩ := mem_of_untilStopped run member
    obtain rfl := Option.some.inj ran
    refine ⟨index, List.mem_range.mp (split ▸ List.mem_append_right _ List.mem_cons_self), ?_⟩
    rw [visitImport] at member
    split at member <;> simpa using member
  · obtain ⟨before, index, after, round, split, goes_on, ran, member⟩ := mem_of_untilStopped run member
    obtain rfl := Option.some.inj ran
    obtain ⟨small, rfl⟩ := target_of_visitImport member
    refine ⟨index, ⟨List.mem_range.mp (split ▸ List.mem_append_right _ List.mem_cons_self), fun other upto => ?_⟩, rfl⟩
    rcases Nat.lt_or_eq_of_le upto with less | rfl
    · obtain ⟨events, continues⟩ := goes_on other ((mem_before_iff split other).mpr less)
      exact small_of_visitImport (Option.some.inj continues)
    · exact small

theorem mem_forEachChainedFixupTarget {formatEntrySize index : ℕ}
    (format : fixups.formatEntrySize = some formatEntrySize) (imports : fixups.importsOffset ≤ fixups.datasize)
    (symbols : fixups.symbolsOffset ≤ fixups.datasize) (reported : fixups.Reported index)
    {events : List ImportEvent} (run : fixups.forEachChainedFixupTarget (fun _ => false) = some events) :
    .target (fixups.importAt index) ∈ events := by
  rw [forEachChainedFixupTarget, if_neg (by omega), format] at run
  change (untilStopped _ _).map Prod.fst = some events at run
  obtain ⟨result, looped, rfl⟩ := Option.map_eq_some_iff.mp run
  obtain ⟨before, after, split⟩ := List.append_of_mem (List.mem_range.mpr reported.1)
  have visited : ∀ other ≤ index, fixups.visitImport (fun _ => false) formatEntrySize other =
      ([.reads (fixups.importsOffset + formatEntrySize * other) formatEntrySize, .target (fixups.importAt other)],
        false) := by
    intro other upto
    rw [visitImport, if_neg (Nat.not_lt.mpr (reported.2 other upto))]
  rw [split] at looped
  refine mem_untilStopped looped (fun other among => ⟨_, congrArg some (visited other ?_)⟩)
    (congrArg some (visited index le_rfl)) (by simp)
  exact ((mem_before_iff split other).mp among).le

end Fixups

end ObjcDyld.ChainedFixups
