import ObjcDyld.Common.Rankings

/-!
# The closest symbol

`MachOLoaded::findClosestSymbol` walks the exported symbols and then the local ones, and keeps the one
of the greatest value that is not above the address.  The section of the address is found by counting
sections; an address in no section gets the number of the last one.
-/

namespace ObjcDyld.MachO.ClosestSymbol

open Rankings

abbrev N_STAB : BitVec 8 := 0xE0
abbrev N_TYPE : BitVec 8 := 0x0E
abbrev N_SECT : BitVec 8 := 0x0E
abbrev N_ARM_THUMB_DEF : BitVec 16 := 0x0008

/-- A `struct nlist` or `struct nlist_64`. -/
structure Nlist where
  nStrx : BitVec 32
  nType : BitVec 8
  nSect : BitVec 8
  nDesc : BitVec 16
  nValue : BitVec 64

structure SectionInfo where
  sectAddr : BitVec 64
  sectSize : BitVec 64

/-- The symbol table and the ranges of `LC_DYSYMTAB`. -/
structure SymbolTables where
  symbols : ℕ → Nlist
  strsize : BitVec 32
  iextdefsym : BitVec 32
  nextdefsym : BitVec 32
  ilocalsym : BitVec 32
  nlocalsym : BitVec 32

/-- What `getLinkEditPointers` finds out; there are no tables when one of the two commands is missing. -/
structure LinkEditInfo where
  hasError : Bool
  tables : Option SymbolTables
  slide : BitVec 64

structure Image where
  is64 : Bool
  /-- The code is built for `__arm__`. -/
  isArm : Bool
  /-- The sections in the order of `forEachSection`. -/
  sections : List SectionInfo
  leInfo : LinkEditInfo

/-- The answer: where the name is in the string pool, if it is set, and the address of the symbol. -/
structure Closest where
  symbolName : Option (BitVec 32)
  symbolAddr : BitVec 64
  deriving DecidableEq

def SectionInfo.Contains (sectInfo : SectionInfo) (target : BitVec 64) : Prop :=
  sectInfo.sectAddr ≤ target ∧ target < sectInfo.sectAddr + sectInfo.sectSize

instance (sectInfo : SectionInfo) (target : BitVec 64) : Decidable (sectInfo.Contains target) :=
  inferInstanceAs (Decidable (_ ∧ _))

/-- The block that counts sections up to the one that contains the address. -/
def countSections (target : BitVec 64) : List SectionInfo → ℕ
  | [] => 0
  | sectInfo :: others => if sectInfo.Contains target then 1 else countSections target others + 1

def Nlist.IsSectionSymbol (s : Nlist) : Prop := s.nType &&& N_TYPE = N_SECT

def Nlist.IsStab (s : Nlist) : Prop := s.nType &&& N_STAB ≠ 0

instance : DecidablePred Nlist.IsSectionSymbol := fun _ => inferInstanceAs (Decidable (_ = _))

instance : DecidablePred Nlist.IsStab := fun _ => inferInstanceAs (Decidable (_ ≠ _))

namespace SymbolTables

variable (tables : SymbolTables) (target : BitVec 64) (sectionIndex : ℕ)

def value (s : ℕ) : BitVec 64 := (tables.symbols s).nValue

/-- The symbol lies in the section, not above the address. -/
def Reaches (s : ℕ) : Prop := tables.value s ≤ target ∧ (tables.symbols s).nSect.toNat = sectionIndex

instance : DecidablePred (tables.Reaches target sectionIndex) := fun _ => inferInstanceAs (Decidable (_ ∧ _))

/-- The comparison of a symbol with `bestSymbol`. -/
def consider (bestSymbol : Option ℕ) (s : ℕ) : Option ℕ :=
  match bestSymbol with
  | none => if tables.Reaches target sectionIndex s then some s else none
  | some best =>
      if tables.value s ≤ target ∧ tables.value best < tables.value s ∧ (tables.symbols s).nSect.toNat = sectionIndex
      then some s else some best

/-- The loop over the exported symbols. -/
def walkGlobals : ℕ → Option ℕ
  | 0 => none
  | count + 1 =>
      let s := tables.iextdefsym.toNat + count
      if (tables.symbols s).IsSectionSymbol then tables.consider target sectionIndex (walkGlobals count) s
      else walkGlobals count

/-- The loop over the local symbols. -/
def walkLocals (bestSymbol : Option ℕ) : ℕ → Option ℕ
  | 0 => bestSymbol
  | count + 1 =>
      let s := tables.ilocalsym.toNat + count
      if (tables.symbols s).IsSectionSymbol ∧ ¬ (tables.symbols s).IsStab then
        tables.consider target sectionIndex (walkLocals bestSymbol count) s
      else walkLocals bestSymbol count

def bestSymbol : Option ℕ :=
  tables.walkLocals target sectionIndex (tables.walkGlobals target sectionIndex tables.nextdefsym.toNat)
    tables.nlocalsym.toNat

end SymbolTables

def Image.addressOf (image : Image) (s : Nlist) : BitVec 64 :=
  if image.is64 = false ∧ image.isArm = true ∧ s.nDesc &&& N_ARM_THUMB_DEF ≠ 0 then
    (s.nValue ||| 1) + image.leInfo.slide
  else s.nValue + image.leInfo.slide

/-- `*symbolAddr` and `*symbolName` for `bestSymbol`. -/
def Image.answer (image : Image) (strsize : BitVec 32) (s : Nlist) : Closest where
  symbolName := if s.nStrx < strsize then some s.nStrx else none
  symbolAddr := image.addressOf s

def Image.target (image : Image) (address : BitVec 64) : BitVec 64 := address - image.leInfo.slide

/-- `MachOLoaded::findClosestSymbol`. -/
def findClosestSymbol (image : Image) (address : BitVec 64) : Option Closest :=
  if image.leInfo.hasError then none
  else
    match image.leInfo.tables with
    | none => none
    | some tables =>
        let targetUnslidAddress := image.target address
        let sectionIndexForTargetAddress := countSections targetUnslidAddress image.sections
        (tables.bestSymbol targetUnslidAddress sectionIndexForTargetAddress).map fun best =>
          image.answer tables.strsize (tables.symbols best)

/-! ## What is expected -/

namespace SymbolTables

variable (tables : SymbolTables) (target : BitVec 64) (sectionIndex : ℕ)

/-- The symbols of both ranges, the exported ones first. -/
def entry (p : ℕ) : ℕ :=
  if p < tables.nextdefsym.toNat then tables.iextdefsym.toNat + p
  else tables.ilocalsym.toNat + (p - tables.nextdefsym.toNat)

def nlist (p : ℕ) : Nlist := tables.symbols (tables.entry p)

def entryCount : ℕ := tables.nextdefsym.toNat + tables.nlocalsym.toNat

def IsExported (p : ℕ) : Prop := p < tables.nextdefsym.toNat

def rank (p : ℕ) : ℕ := (tables.value (tables.entry p)).toNat

/-- A non-stab symbol of the section that is not above the address. -/
def IsCandidate (p : ℕ) : Prop :=
  (tables.nlist p).IsSectionSymbol ∧ ¬ (tables.nlist p).IsStab ∧ tables.Reaches target sectionIndex (tables.entry p)

/-- A candidate of the largest value, an exported one if there is one of this value. -/
structure IsBest (p : ℕ) : Prop where
  lt : p < tables.entryCount
  member : tables.IsCandidate target sectionIndex p
  highest : ∀ q < tables.entryCount, tables.IsCandidate target sectionIndex q → tables.rank q ≤ tables.rank p
  exported : ∀ q < tables.entryCount, tables.IsCandidate target sectionIndex q → tables.rank q = tables.rank p →
    tables.IsExported q → tables.IsExported p

/-- The symbols that the two loops look at: the exported ones may be stabs. -/
def IsAccepted (p : ℕ) : Prop :=
  (tables.nlist p).IsSectionSymbol ∧ (tables.IsExported p ∨ ¬ (tables.nlist p).IsStab) ∧
    tables.Reaches target sectionIndex (tables.entry p)

instance : DecidablePred (tables.IsAccepted target sectionIndex) := fun p =>
  inferInstanceAs (Decidable (_ ∧ (p < tables.nextdefsym.toNat ∨ _) ∧ _))

end SymbolTables

/-- The answer for an address in a section: a best symbol with its own name, and none if there is no candidate. -/
def Image.IsClosest (image : Image) (tables : SymbolTables) (target : BitVec 64) (sectionIndex : ℕ) :
    Option Closest → Prop
  | some closest => ∃ p, tables.IsBest target sectionIndex p ∧
      closest = ⟨some (tables.nlist p).nStrx, image.addressOf (tables.nlist p)⟩
  | none => ∀ p < tables.entryCount, ¬ tables.IsCandidate target sectionIndex p

/-- The answer that is asked for. -/
def Image.IsRight (image : Image) (tables : SymbolTables) (target : BitVec 64) (result : Option Closest) : Prop :=
  if ∃ sectInfo ∈ image.sections, sectInfo.Contains target then
    image.IsClosest tables target (countSections target image.sections) result
  else result = none

/-- The first of the accepted symbols of the largest value has its name in the string pool and is no stab, or is reported
like the best symbol. -/
def Image.TellsBest (image : Image) (tables : SymbolTables) (target : BitVec 64) (sectionIndex : ℕ) : Prop :=
  ∀ p, IsFirstBest tables.rank (tables.IsAccepted target sectionIndex) tables.entryCount p →
    (tables.nlist p).nStrx < tables.strsize ∧
      (¬ (tables.nlist p).IsStab ∨ ∃ q, tables.IsBest target sectionIndex q ∧
        (tables.nlist q).nStrx = (tables.nlist p).nStrx ∧
          image.addressOf (tables.nlist q) = image.addressOf (tables.nlist p))

/-- When the answer is right. -/
def Image.IsClear (image : Image) (tables : SymbolTables) (target : BitVec 64) : Prop :=
  if ∃ sectInfo ∈ image.sections, sectInfo.Contains target then
    image.TellsBest tables target (countSections target image.sections)
  else ∀ p < tables.entryCount, ¬ tables.IsAccepted target image.sections.length p

/-! ## The walks -/

variable {image : Image} {tables : SymbolTables} {target : BitVec 64} {sectionIndex : ℕ}

namespace SymbolTables

theorem consider_entry (best : Option ℕ) (p : ℕ) :
    tables.consider target sectionIndex (best.map tables.entry) (tables.entry p) =
      (if tables.Reaches target sectionIndex (tables.entry p) then keepBetter tables.rank best p else best).map
        tables.entry := by
  by_cases reaches : tables.Reaches target sectionIndex (tables.entry p)
  · rw [if_pos reaches]
    cases best with
    | none => exact if_pos reaches
    | some kept =>
        simp only [Option.map_some, consider, keepBetter]
        by_cases better : tables.value (tables.entry kept) < tables.value (tables.entry p)
        · have higher : tables.rank kept < tables.rank p := better
          rw [if_pos ⟨reaches.1, better, reaches.2⟩, if_pos higher]
          rfl
        · have lower : ¬ tables.rank kept < tables.rank p := better
          rw [if_neg fun tests => better tests.2.1, if_neg lower]
          rfl
  · rw [if_neg reaches]
    cases best with
    | none => exact if_neg reaches
    | some kept => exact if_neg fun tests => reaches ⟨tests.1, tests.2.2⟩

theorem walkGlobals_eq {count : ℕ} (bound : count ≤ tables.nextdefsym.toNat) :
    tables.walkGlobals target sectionIndex count =
      (firstBest tables.rank (tables.IsAccepted target sectionIndex) count).map tables.entry := by
  induction count with
  | zero => rfl
  | succ count ih =>
      have here : tables.entry count = tables.iextdefsym.toNat + count := if_pos bound
      have exported : tables.IsExported count := bound
      rw [walkGlobals, ih (by omega), ← here, consider_entry, firstBest]
      by_cases kind : (tables.symbols (tables.entry count)).IsSectionSymbol
      · by_cases reaches : tables.Reaches target sectionIndex (tables.entry count)
        · rw [if_pos kind, if_pos reaches, if_pos ⟨kind, .inl exported, reaches⟩]
        · rw [if_pos kind, if_neg reaches, if_neg fun accepted => reaches accepted.2.2]
      · rw [if_neg kind, if_neg fun accepted => kind accepted.1]

theorem walkLocals_eq (count : ℕ) :
    tables.walkLocals target sectionIndex (tables.walkGlobals target sectionIndex tables.nextdefsym.toNat) count =
      (firstBest tables.rank (tables.IsAccepted target sectionIndex) (tables.nextdefsym.toNat + count)).map
        tables.entry := by
  induction count with
  | zero => exact walkGlobals_eq le_rfl
  | succ count ih =>
      have here : tables.entry (tables.nextdefsym.toNat + count) = tables.ilocalsym.toNat + count := by
        rw [entry, if_neg (by omega), Nat.add_sub_cancel_left]
      have hidden : ¬ tables.IsExported (tables.nextdefsym.toNat + count) := by
        unfold IsExported
        omega
      rw [walkLocals, ih, ← here, consider_entry, ← Nat.add_assoc, firstBest]
      by_cases kind : (tables.symbols (tables.entry (tables.nextdefsym.toNat + count))).IsSectionSymbol ∧
          ¬ (tables.symbols (tables.entry (tables.nextdefsym.toNat + count))).IsStab
      · by_cases reaches : tables.Reaches target sectionIndex (tables.entry (tables.nextdefsym.toNat + count))
        · rw [if_pos kind, if_pos reaches, if_pos ⟨kind.1, .inr kind.2, reaches⟩]
        · rw [if_pos kind, if_neg reaches, if_neg fun accepted => reaches accepted.2.2]
      · rw [if_neg kind, if_neg fun accepted => kind ⟨accepted.1, accepted.2.1.resolve_left hidden⟩]

theorem bestSymbol_eq :
    tables.bestSymbol target sectionIndex =
      (firstBest tables.rank (tables.IsAccepted target sectionIndex) tables.entryCount).map tables.entry :=
  walkLocals_eq _

theorem IsCandidate.accepted {p : ℕ} (candidate : tables.IsCandidate target sectionIndex p) :
    tables.IsAccepted target sectionIndex p :=
  ⟨candidate.1, .inr candidate.2.1, candidate.2.2⟩

theorem isBest_of_first {p : ℕ} (first : IsFirstBest tables.rank (tables.IsAccepted target sectionIndex) tables.entryCount p)
    (plain : ¬ (tables.nlist p).IsStab) : tables.IsBest target sectionIndex p where
  lt := first.lt
  member := ⟨first.member.1, plain, first.member.2.2⟩
  highest q bound candidate := first.highest q bound candidate.accepted
  exported q bound candidate tie exported := by
    by_contra hidden
    have before : q < p := exported.trans_le (Nat.le_of_not_lt hidden)
    exact absurd tie (first.first q before candidate.accepted).ne

end SymbolTables

theorem isClosest_iff :
    image.IsClosest tables target sectionIndex
        ((tables.bestSymbol target sectionIndex).map fun best => image.answer tables.strsize (tables.symbols best)) ↔
      image.TellsBest tables target sectionIndex := by
  rw [SymbolTables.bestSymbol_eq, Option.map_map]
  rcases firstBest_spec tables.rank (tables.IsAccepted target sectionIndex) tables.entryCount with
    ⟨noneFound, empty⟩ | ⟨p, found, first⟩
  · rw [noneFound]
    refine ⟨fun _ p first => absurd first.member (empty p first.lt), fun _ q bound candidate => ?_⟩
    exact empty q bound candidate.accepted
  · rw [found]
    change (∃ q, tables.IsBest target sectionIndex q ∧ image.answer tables.strsize (tables.nlist p) = _) ↔ _
    constructor
    · rintro ⟨q, best, told⟩ p' first'
      obtain rfl := first'.unique first
      have name := congrArg Closest.symbolName told
      have address := congrArg Closest.symbolAddr told
      simp only [Image.answer] at name address
      split at name
      · rename_i inside
        exact ⟨inside, .inr ⟨q, best, (Option.some.inj name).symm, address.symm⟩⟩
      · cases name
    · intro tells
      obtain ⟨inside, plain | ⟨q, best, name, address⟩⟩ := tells p first
      · exact ⟨p, SymbolTables.isBest_of_first first plain, by rw [Image.answer, if_pos inside]⟩
      · exact ⟨q, best, by rw [Image.answer, if_pos inside, name, address]⟩

theorem countSections_of_none {sections : List SectionInfo} (outside : ¬ ∃ sectInfo ∈ sections, sectInfo.Contains target) :
    countSections target sections = sections.length := by
  induction sections with
  | nil => rfl
  | cons sectInfo others ih =>
      have here : ¬ sectInfo.Contains target := fun contains => outside ⟨sectInfo, List.mem_cons_self .., contains⟩
      have later := ih fun ⟨other, member, contains⟩ => outside ⟨other, List.mem_cons_of_mem _ member, contains⟩
      rw [countSections, if_neg here, later, List.length_cons]

/-- The answer is the one asked for exactly when the first accepted symbol tells of the best one, and outside of the
sections no symbol of the last section is accepted. -/
theorem findClosestSymbol_right_iff (image : Image) (tables : SymbolTables) (address : BitVec 64)
    (found : image.leInfo.tables = some tables) (clean : image.leInfo.hasError = false) :
    image.IsRight tables (image.target address) (findClosestSymbol image address) ↔
      image.IsClear tables (image.target address) := by
  rw [findClosestSymbol, clean, found, Image.IsRight, Image.IsClear, if_neg Bool.false_ne_true]
  by_cases inside : ∃ sectInfo ∈ image.sections, sectInfo.Contains (image.target address)
  · rw [if_pos inside, if_pos inside]
    exact isClosest_iff
  · rw [if_neg inside, if_neg inside]
    simp only [countSections_of_none inside, SymbolTables.bestSymbol_eq, Option.map_eq_none_iff, firstBest_eq_none_iff]

/-- One section of sixteen bytes with one exported symbol at its start. -/
def oneSymbol : SymbolTables where
  symbols _ := ⟨1, 0x0F, 1, 0, 0x1000⟩
  strsize := 8
  iextdefsym := 0
  nextdefsym := 1
  ilocalsym := 0
  nlocalsym := 0

def oneSection : Image where
  is64 := true
  isArm := false
  sections := [⟨0x1000, 0x10⟩]
  leInfo := ⟨false, some oneSymbol, 0⟩

theorem oneSection_right_iff :
    oneSection.IsRight oneSymbol (oneSection.target 0x1008) (findClosestSymbol oneSection 0x1008) ↔
      oneSection.IsClear oneSymbol (oneSection.target 0x1008) :=
  findClosestSymbol_right_iff oneSection oneSymbol 0x1008 rfl rfl

/-- For an address behind the section the symbol is reported. -/
theorem oneSection_outside_not_right :
    ¬ oneSection.IsRight oneSymbol (oneSection.target 0x2000) (findClosestSymbol oneSection 0x2000) := by
  have outside : ¬ ∃ sectInfo ∈ oneSection.sections, sectInfo.Contains (oneSection.target 0x2000) := by decide
  rw [Image.IsRight, if_neg outside]
  decide

end ObjcDyld.MachO.ClosestSymbol
