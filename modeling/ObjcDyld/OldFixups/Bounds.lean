import ObjcDyld.OldFixups.Tables

/-!
# Bounds of relocations and indirect symbols

`forEachIndirectPointer`, `forEachRebase` and `forEachBind` read existing entries only and report the fixups of the
tables, exactly when no entry that they come to meets one of the tests that are off.
-/

namespace ObjcDyld.OldFixups

open ByteMemory CheckedRuns StoppableRuns
open ChainedFixups (SegmentInfo)

namespace OldImage

variable (image : OldImage)

/-! ## What is expected -/

def Exists : TableRead → Prop
  | .indirect index => index < image.nindirectsyms.toNat
  | .symbol index => index < image.nsyms.toNat
  | .string offset => offset < image.strsize.toNat
  | .addend segIndex segOffset size =>
      ∃ info, image.segments[segIndex]? = some info ∧ segOffset.toNat + size ≤ info.vmSize.toNat

def pointerCount (sect : SectionInfo) : ℕ := sect.sectSize.toNat / image.elementSize sect

/-- A section of pointers is malformed only when its entries are not all in the indirect symbol table. -/
def expectedTable (sect : SectionInfo) : SectionTable :=
  if image.hasPointers sect = false then .other
  else if image.nindirectsyms.toNat < sect.reserved1.toNat + image.pointerCount sect then .failed .overflows
  else .elements ⟨image.isSelfModifyingStub sect, image.elementSize sect, image.pointerCount sect⟩

/-- An absolute pointer is skipped, a local one is rebased, any other is bound to a symbol that exists and has a name. -/
def expectedTreatment (sect : SectionInfo) (table : Elements) (i : ℕ) : Treatment PointerCall FixupError :=
  let symNum := image.indirectSymbolTable (entryOf sect i)
  let address := sect.sectAddr + BitVec.ofNat 64 (i * table.elementSize)
  if symNum = INDIRECT_SYMBOL_ABS ∨ symNum = INDIRECT_SYMBOL_LOCAL ||| INDIRECT_SYMBOL_ABS then .passed
  else if symNum = INDIRECT_SYMBOL_LOCAL then .called { pointerAddress := address, bind := false }
  else if ¬ symNum < image.nsyms then .failed (.wrongIndex (entryOf sect i) symNum)
  else if ¬ (image.symbols symNum.toNat).n_strx < image.strsize then .failed (.wrongString (entryOf sect i))
  else .called (image.symbolCall sect table address (image.symbols symNum.toNat))

def expectedElements (k : ℕ) (sect : SectionInfo) (table : Elements) : List PointerStep :=
  (List.range table.elementCount).map fun i => ⟨(k, i), image.expectedTreatment sect table i, []⟩

def entriesFrom (tableOf : SectionInfo → SectionTable) (elements : ℕ → SectionInfo → Elements → List PointerStep) :
    ℕ → List SectionInfo → List PointerStep
  | _, [] => []
  | k, sect :: sects =>
      (match tableOf sect with
        | .other => []
        | .failed error => [⟨(k, 0), .failed error, []⟩]
        | .elements table => elements k sect table) ++ entriesFrom tableOf elements (k + 1) sects

def expectedPointers : List PointerStep := entriesFrom image.expectedTable image.expectedElements 0 image.sections

/-- The addresses of the local relocations before the first one of a wrong kind. -/
def localAddresses : List (BitVec 32) :=
  (image.locrel.takeWhile fun reloc => image.kindError reloc = none).map (·.r_address)

/-- The rebase of a local relocation whose address lies in a segment. -/
def localRebase (addrOff : BitVec 32) : Option RebaseCall :=
  (image.segIndexAndOffsetForAddress (image.relocBaseAddress + addrOff.setWidth 64)).map fun (segIndex, segOffset) =>
    ⟨segIndex, segOffset, image.rebaseType segIndex⟩

/-- The fixups before the first that is out of range. -/
def upToNone {κ : Type} : List (Option κ) → List κ
  | some made :: mades => made :: upToNone mades
  | _ => []

/-- The local relocations are rebased by ascending addresses. -/
def expectedLocals : List RebaseCall := upToNone ((image.localAddresses.mergeSort fun l r => l ≤ r).map image.localRebase)

/-- All local relocations are well formed. -/
def LocalsSound : Prop :=
  (∀ reloc ∈ image.locrel, image.kindError reloc = none) ∧ ∀ reloc ∈ image.locrel, (image.localRebase reloc.r_address).isSome

instance : Decidable image.LocalsSound := inferInstanceAs (Decidable (_ ∧ _))

/-- The local relocations, and behind sound ones the local pointers. -/
def expectedRebases : List RebaseCall :=
  image.expectedLocals ++ if image.LocalsSound then
    upToNone (((callsOf (upToFailure image.expectedPointers)).filter fun call => !call.bind).map image.pointerRebase) else []

/-- An external relocation is bound to a symbol that exists and has a name. -/
def expectedExternal (reloc : Relocation) : Treatment BindCall FixupError :=
  match image.kindError reloc with
  | some error => .failed error
  | none =>
      match image.segIndexAndOffsetForAddress (image.relocBaseAddress + reloc.r_address.signExtend 64) with
      | none => .failed .outOfRange
      | some (segIndex, segOffset) =>
          let symbol := image.symbols reloc.r_symbolnum.toNat
          if ¬ reloc.r_symbolnum.toNat < image.nsyms.toNat then .failed .wrongSymbolnum
          else if ¬ symbol.n_strx < image.strsize then .failed .wrongStrx
          else .called (image.externalCall segIndex segOffset symbol)

def expectedExternals : List ExternalStep := image.extrel.map fun reloc => ⟨(), image.expectedExternal reloc, []⟩

/-- The external relocations, and behind sound ones the pointers to symbols. -/
def expectedBinds : List BindCall :=
  callsOf (upToFailure image.expectedExternals) ++
    if image.extrel.all (fun reloc => !(image.expectedExternal reloc).fails) then
      upToNone (((callsOf (upToFailure image.expectedPointers)).filter (·.bind)).map image.pointerBind) else []

def NeverStops {κ σ : Type} (handler : κ → σ → σ × Bool) : Prop := ∀ made state, (handler made state).2 = false

/-- All reads exist, all pointers are treated as they should be, and the fixups of the tables are reported. -/
structure IsSound : Prop where
  pointerReads : ∀ {σ : Type} (handler : PointerCall → σ → σ × Bool) (state : σ),
    ∀ read ∈ (image.forEachIndirectPointer handler state).reads, image.Exists read
  rebaseReads : ∀ {σ : Type} (handler : RebaseCall → σ → σ × Bool) (state : σ),
    ∀ read ∈ (image.forEachRebase handler state).reads, image.Exists read
  bindReads : ∀ {σ : Type} (handler : BindCall → σ → σ × Bool) (state : σ),
    ∀ read ∈ (image.forEachBind handler state).reads, image.Exists read
  pointers : ∀ {σ : Type} (handler : PointerCall → σ → σ × Bool) (state : σ), NeverStops handler →
    (image.forEachIndirectPointer handler state).treated = treatments (upToFailure image.expectedPointers)
  rebases : ∀ {σ : Type} (handler : RebaseCall → σ → σ × Bool) (state : σ), NeverStops handler →
    (image.forEachRebase handler state).reported = image.expectedRebases
  binds : ∀ {σ : Type} (handler : BindCall → σ → σ × Bool) (state : σ), NeverStops handler →
    (image.forEachBind handler state).reported = image.expectedBinds

/-! ## When it is met -/

/-- The tests of a section are those that are expected. -/
def SectionFine (sect : SectionInfo) : Prop :=
  image.hasPointers sect = true →
    (image.flags &&& S_ATTR_SELF_MODIFYING_CODE = 0 ∨ image.isSelfModifyingStub sect = true) ∧
      (image.pointerCount sect < 2 ^ 32 ∨
        image.nindirectsyms.toNat < sect.reserved1.toNat + image.pointerCount sect % 2 ^ 32)

/-- An element is not one for which a limit is off, a special value is missed or an offset is cut. -/
def ElementFine (sect : SectionInfo) (table : Elements) (i : ℕ) : Prop :=
  let symNum := image.indirectSymbolTable (entryOf sect i)
  symNum = INDIRECT_SYMBOL_ABS ∨
    symNum ≠ INDIRECT_SYMBOL_LOCAL ||| INDIRECT_SYMBOL_ABS ∧
      (symNum ≠ INDIRECT_SYMBOL_LOCAL →
        symNum ≠ image.nsyms ∧ (symNum < image.nsyms → (image.symbols symNum.toNat).n_strx ≠ image.strsize)) ∧
      ((image.expectedTreatment sect table i).fails = false → i * table.elementSize < 2 ^ 32)

/-- The sections and elements that are come to are fine. -/
def PointersFine : List SectionInfo → Prop
  | [] => True
  | sect :: sects =>
      image.SectionFine sect ∧
        match image.expectedTable sect with
        | .other => PointersFine sects
        | .failed _ => True
        | .elements table =>
            AllReached (image.ElementFine sect table) (image.expectedTreatment sect table) (List.range table.elementCount) ∧
              ((∀ i ∈ List.range table.elementCount, (image.expectedTreatment sect table i).fails = false) →
                PointersFine sects)

/-- An external relocation does not meet the limit that is off, and its addend lies in the segment. -/
def ExternalFine (reloc : Relocation) : Prop :=
  ∀ segIndex segOffset, image.kindError reloc = none →
    image.segIndexAndOffsetForAddress (image.relocBaseAddress + reloc.r_address.signExtend 64) = some (segIndex, segOffset) →
      reloc.r_symbolnum.toNat ≠ image.nsyms.toNat ∧
        (reloc.r_symbolnum.toNat < image.nsyms.toNat →
          (image.symbols reloc.r_symbolnum.toNat).n_strx < image.strsize →
            image.Exists (.addend segIndex segOffset image.ptrSize))

/-! ## The walk over the pointers -/

section Pointers

variable {image} {sect : SectionInfo} {table : Elements} {i : ℕ} {σ : Type}

theorem walkSections_eq (handler : PointerCall → σ → σ × Bool) (k : ℕ) (sects : List SectionInfo) (state : σ) :
    image.walkSections handler k sects state = run handler (entriesFrom image.sectionTable image.elementSteps k sects) state := by
  induction sects generalizing k state with
  | nil => rfl
  | cons sect sects ih =>
      rw [walkSections, entriesFrom]
      cases image.sectionTable sect with
      | other => exact ih (k + 1) state
      | failed error => rfl
      | elements table =>
          dsimp only
          rw [run_append, ih]

theorem element_iff (inside : entryOf sect i < image.nindirectsyms.toNat) (small : i * table.elementSize < 2 ^ 64) :
    (image.elementTreatment sect table i = image.expectedTreatment sect table i ∧
      ∀ read ∈ image.elementReads sect i, image.Exists read) ↔ image.ElementFine sect table i := by
  have address : elementAddress sect table i = sect.sectAddr + BitVec.ofNat 64 (i * table.elementSize) ↔
      i * table.elementSize < 2 ^ 32 := by
    rw [elementAddress, BitVec.add_right_inj, ← BitVec.toNat_inj, BitVec.toNat_ofNat, BitVec.toNat_ofNat]
    omega
  rw [elementTreatment, expectedTreatment, elementReads, ElementFine, expectedTreatment]
  generalize image.indirectSymbolTable (entryOf sect i) = symNum
  generalize elementAddress sect table i = found at address ⊢
  generalize sect.sectAddr + BitVec.ofNat 64 (i * table.elementSize) = meant at address ⊢
  have localApart : INDIRECT_SYMBOL_LOCAL ≠ INDIRECT_SYMBOL_ABS ∧ INDIRECT_SYMBOL_LOCAL ≠ INDIRECT_SYMBOL_LOCAL ||| INDIRECT_SYMBOL_ABS := by
    decide
  have bothApart : INDIRECT_SYMBOL_LOCAL ||| INDIRECT_SYMBOL_ABS ≠ INDIRECT_SYMBOL_ABS := by decide
  generalize INDIRECT_SYMBOL_LOCAL ||| INDIRECT_SYMBOL_ABS = localAbs at localApart bothApart ⊢
  generalize INDIRECT_SYMBOL_LOCAL = local32 at localApart ⊢
  generalize INDIRECT_SYMBOL_ABS = abs32 at localApart bothApart ⊢
  by_cases abs : symNum = abs32
  · simp [abs, Exists, inside]
  by_cases both : symNum = localAbs
  · refine iff_of_false (fun agrees => ?_) (by simp [both, bothApart])
    obtain ⟨same, -⟩ := agrees
    simp only [if_neg abs, if_pos (Or.inr both)] at same
    split at same
    · cases same
    · split at same
      · cases same
      · split at same <;> cases same
  by_cases isLocal : symNum = local32
  · simp [isLocal, localApart, Exists, inside, Treatment.fails, address]
  rcases Nat.lt_trichotomy symNum.toNat image.nsyms.toNat with less | same | more
  · have below : symNum < image.nsyms := BitVec.lt_def.2 less
    have notAbove : ¬image.nsyms < symNum := fun above => Nat.lt_asymm less (BitVec.lt_def.1 above)
    have other : symNum ≠ image.nsyms := fun same => Nat.lt_irrefl _ (same ▸ less)
    generalize image.symbols symNum.toNat = symbol
    have called : image.symbolCall sect table found symbol = image.symbolCall sect table meant symbol ↔ found = meant :=
      ⟨congrArg PointerCall.pointerAddress, congrArg fun address => image.symbolCall sect table address symbol⟩
    rcases Nat.lt_trichotomy symbol.n_strx.toNat image.strsize.toNat with named | last | behind
    · have name : symbol.n_strx < image.strsize := BitVec.lt_def.2 named
      have notBehind : ¬image.strsize < symbol.n_strx := fun above => Nat.lt_asymm named (BitVec.lt_def.1 above)
      have apart : symbol.n_strx ≠ image.strsize := fun same => Nat.lt_irrefl _ (same ▸ named)
      simp [abs, both, isLocal, below, notAbove, other, name, notBehind, apart, Exists, inside, less, named, Treatment.fails, called,
        address]
    · have equal : symbol.n_strx = image.strsize := BitVec.eq_of_toNat_eq last
      simp [abs, both, isLocal, below, notAbove, other, equal, Exists, inside, less, Treatment.fails]
    · have above : image.strsize < symbol.n_strx := BitVec.lt_def.2 behind
      have notName : ¬symbol.n_strx < image.strsize := fun below => Nat.lt_asymm behind (BitVec.lt_def.1 below)
      have apart : symbol.n_strx ≠ image.strsize := fun same => Nat.lt_irrefl _ (same ▸ behind)
      simp [abs, both, isLocal, below, notAbove, other, above, notName, apart, Exists, inside, less, Treatment.fails]
  · have equal : symNum = image.nsyms := BitVec.eq_of_toNat_eq same
    have notAbove : ¬symNum > image.nsyms := fun above => Nat.lt_irrefl _ (same ▸ BitVec.lt_def.1 above)
    refine iff_of_false (fun agrees => ?_) fun fine => ?_
    · have read := agrees.2 (.symbol symNum.toNat) (by simp [abs, isLocal, notAbove])
      exact absurd read (by rw [Exists, same]; exact Nat.lt_irrefl _)
    · exact ((fine.resolve_left abs).2.1 isLocal).1 equal
  · have above : image.nsyms < symNum := BitVec.lt_def.2 more
    have notBelow : ¬symNum < image.nsyms := fun below => Nat.lt_asymm more (BitVec.lt_def.1 below)
    have other : symNum ≠ image.nsyms := fun same => Nat.lt_irrefl _ (same ▸ more)
    simp [abs, both, isLocal, above, notBelow, other, Exists, inside, Treatment.fails]

theorem le_place_of_mem {tableOf : SectionInfo → SectionTable} {elements : ℕ → SectionInfo → Elements → List PointerStep}
    (places : ∀ k sect table, ∀ step ∈ elements k sect table, step.place.1 = k) (k : ℕ) (sects : List SectionInfo) :
    ∀ step ∈ entriesFrom tableOf elements k sects, k ≤ step.place.1 := by
  induction sects generalizing k with
  | nil => exact List.forall_mem_nil _
  | cons sect sects ih =>
      rw [entriesFrom]
      refine List.forall_mem_append.2 ⟨fun step member => ?_, fun step member => Nat.le_of_succ_le (ih (k + 1) step member)⟩
      cases table : tableOf sect with
      | other =>
          rw [table] at member
          cases member
      | failed error =>
          rw [table, List.mem_singleton] at member
          exact (congrArg (fun step : PointerStep => step.place.1) member).ge
      | elements elems =>
          rw [table] at member
          exact (places k sect elems step member).ge

theorem agrees_failed {place : Place} {error : FixupError} {steps carefuls : List PointerStep} {treatment : Treatment PointerCall FixupError}
    (fails : treatment = .failed error) :
    Agrees image.Exists (⟨place, treatment, []⟩ :: steps) (⟨place, treatment, []⟩ :: carefuls) := by
  rw [agrees_cons rfl, fails]
  exact ⟨⟨rfl, List.forall_mem_nil _⟩, fun sound => Bool.noConfusion sound⟩

theorem head_ne_failed {k count : ℕ} {error : FixupError} {entry : ℕ → PointerStep} {rest : List PointerStep}
    (errors : ∀ i, (entry i).treatment ≠ .failed error) (later : ∀ step ∈ rest, k + 1 ≤ step.place.1) :
    ((List.range count).map entry ++ rest).head?.map (fun step => (step.place, step.treatment)) ≠ some ((k, 0), .failed error) := by
  intro same
  cases count with
  | zero =>
      cases rest with
      | nil => cases same
      | cons step rest =>
          have place := congrArg Prod.fst (congrArg Prod.fst (Option.some.inj same))
          exact absurd (later step List.mem_cons_self) (by dsimp only at place; omega)
  | succ count =>
      rw [List.range_succ_eq_map] at same
      exact errors 0 (congrArg Prod.snd (Option.some.inj same))

theorem treatment_ne_failed : image.elementTreatment sect table i ≠ .failed .overflows ∧
    image.expectedTreatment sect table i ≠ .failed .selfModifying := by
  rw [elementTreatment, expectedTreatment]
  dsimp only
  constructor
  · split_ifs <;> simp
  · split_ifs <;> simp

theorem le_place_of_later (image : OldImage) (k : ℕ) (sects : List SectionInfo) :
    (∀ step ∈ entriesFrom image.sectionTable image.elementSteps k sects, k ≤ step.place.1) ∧
      ∀ step ∈ entriesFrom image.expectedTable image.expectedElements k sects, k ≤ step.place.1 :=
  ⟨le_place_of_mem (fun _ _ _ => List.forall_mem_map.2 fun _ _ => rfl) k sects,
    le_place_of_mem (fun _ _ _ => List.forall_mem_map.2 fun _ _ => rfl) k sects⟩

theorem sectionTable_of_hasPointers (has : image.hasPointers sect = true) : image.sectionTable sect =
    if ¬(image.flags &&& S_ATTR_SELF_MODIFYING_CODE = 0 ∨ image.isSelfModifyingStub sect = true) then .failed .selfModifying
    else if image.nindirectsyms.toNat < sect.reserved1.toNat + image.pointerCount sect % 2 ^ 32 then .failed .overflows
    else .elements ⟨image.isSelfModifyingStub sect, image.elementSize sect, image.pointerCount sect % 2 ^ 32⟩ := by
  rw [sectionTable, if_neg (by rw [has]; exact Bool.noConfusion), pointerCount]
  generalize sect.sectSize.toNat / image.elementSize sect % 2 ^ 32 = count
  have overflow : sect.reserved1 > image.nindirectsyms ∨ count > (image.nindirectsyms - sect.reserved1).toNat ↔
      image.nindirectsyms.toNat < sect.reserved1.toNat + count := by
    rw [gt_iff_lt, BitVec.lt_def, BitVec.toNat_sub]
    have := image.nindirectsyms.isLt
    have := sect.reserved1.isLt
    omega
  refine if_congr ?_ rfl (if_congr overflow rfl rfl)
  rw [not_or, Bool.not_eq_true]

theorem expectedTable_of_hasPointers (has : image.hasPointers sect = true) : image.expectedTable sect =
    if image.nindirectsyms.toNat < sect.reserved1.toNat + image.pointerCount sect then .failed .overflows
    else .elements ⟨image.isSelfModifyingStub sect, image.elementSize sect, image.pointerCount sect⟩ := by
  rw [expectedTable, if_neg (by rw [has]; exact Bool.noConfusion)]

theorem agrees_iff_pointersFine (k : ℕ) (sects : List SectionInfo) :
    Agrees image.Exists (entriesFrom image.sectionTable image.elementSteps k sects)
      (entriesFrom image.expectedTable image.expectedElements k sects) ↔ image.PointersFine sects := by
  induction sects generalizing k with
  | nil => exact iff_of_true agrees_nil trivial
  | cons sect sects ih =>
      rw [entriesFrom, entriesFrom, PointersFine]
      cases has : image.hasPointers sect with
      | false =>
          have other : image.sectionTable sect = .other ∧ image.expectedTable sect = .other := ⟨if_pos has, if_pos has⟩
          have fine : image.SectionFine sect := fun pointers => absurd (has.symm.trans pointers) Bool.noConfusion
          rw [other.1, other.2, and_iff_right fine]
          exact ih (k + 1)
      | true =>
          obtain ⟨codeLater, specLater⟩ := le_place_of_later image (k + 1) sects
          rw [sectionTable_of_hasPointers has, expectedTable_of_hasPointers has, SectionFine, forall_prop_of_true has]
          have bound := image.nindirectsyms.isLt
          have below := Nat.mod_le (image.pointerCount sect) (2 ^ 32)
          by_cases plain : image.flags &&& S_ATTR_SELF_MODIFYING_CODE = 0 ∨ image.isSelfModifyingStub sect = true
          · rw [if_neg (not_not.2 plain), and_iff_right plain]
            by_cases small : image.pointerCount sect < 2 ^ 32
            · rw [Nat.mod_eq_of_lt small, and_iff_right (Or.inl small)]
              by_cases overflow : image.nindirectsyms.toNat < sect.reserved1.toNat + image.pointerCount sect
              · rw [if_pos overflow, List.singleton_append, List.singleton_append]
                exact iff_of_true (agrees_failed rfl) trivial
              · rw [if_neg overflow]
                dsimp only
                rw [elementSteps, expectedElements]
                refine (agrees_map_append ?_ fun i member => ?_).trans (and_congr_right fun _ => imp_congr_right fun _ => ih (k + 1))
                · exact fun _ => rfl
                have inside : i < sect.sectSize.toNat / image.elementSize sect := List.mem_range.1 member
                have positive : 0 < image.elementSize sect := Nat.pos_of_ne_zero fun zero => by
                  rw [zero, Nat.div_zero] at inside
                  exact Nat.not_lt_zero i inside
                have le := Nat.lt_of_lt_of_le (Nat.mul_lt_mul_of_pos_right inside positive) (Nat.div_mul_le_self _ _)
                refine element_iff ?_ (Nat.lt_trans le sect.sectSize.isLt)
                rw [pointerCount] at overflow
                rw [entryOf]
                omega
            · rw [if_pos (show image.nindirectsyms.toNat < sect.reserved1.toNat + image.pointerCount sect by omega)]
              by_cases overflow : image.nindirectsyms.toNat < sect.reserved1.toNat + image.pointerCount sect % 2 ^ 32
              · rw [if_pos overflow, and_iff_right (Or.inr overflow), List.singleton_append, List.singleton_append]
                exact iff_of_true (agrees_failed rfl) trivial
              · rw [if_neg overflow]
                refine iff_of_false (fun agrees => ?_) fun fine => ?_
                · exact head_ne_failed (fun _ => treatment_ne_failed.1) codeLater agrees.head
                · exact fine.1.elim small overflow
          · rw [if_pos plain]
            refine iff_of_false (fun agrees => ?_) fun fine => plain fine.1.1
            by_cases overflow : image.nindirectsyms.toNat < sect.reserved1.toNat + image.pointerCount sect
            · rw [if_pos overflow] at agrees
              cases agrees.head
            · rw [if_neg overflow] at agrees
              exact head_ne_failed (fun _ => treatment_ne_failed.2) specLater agrees.head.symm

end Pointers

/-! ## Relocations -/

section Relocations

variable {image} {σ : Type}

theorem external_iff (reloc : Relocation) :
    ((∀ read ∈ image.externalReads reloc, image.Exists read) ↔ image.ExternalFine reloc) ∧
      ((∀ read ∈ image.externalReads reloc, image.Exists read) → image.externalTreatment reloc = image.expectedExternal reloc) := by
  rw [externalReads, ExternalFine, externalTreatment, expectedExternal]
  cases image.kindError reloc with
  | some error => simp
  | none =>
      cases found : image.segIndexAndOffsetForAddress (image.relocBaseAddress + reloc.r_address.signExtend 64) with
      | none => simp
      | some place =>
          obtain ⟨segIndex, segOffset⟩ := place
          dsimp only
          generalize image.symbols reloc.r_symbolnum.toNat = symbol
          rcases Nat.lt_trichotomy reloc.r_symbolnum.toNat image.nsyms.toNat with less | same | more
          · have exact_ : image.Exists (.symbol reloc.r_symbolnum.toNat) := less
            have notAbove := Nat.lt_asymm less
            by_cases named : symbol.n_strx < image.strsize
            · have notBehind : ¬symbol.n_strx ≥ image.strsize := BitVec.not_le.2 named
              have name : image.Exists (.string symbol.n_strx.toNat) := BitVec.lt_def.1 named
              simp [notAbove, notBehind, exact_, name, less, named, Nat.ne_of_lt less]
            · have behind : symbol.n_strx ≥ image.strsize := BitVec.not_lt.1 named
              simp [notAbove, behind, exact_, less, named, Nat.ne_of_lt less]
          · have missing : ¬image.Exists (.symbol reloc.r_symbolnum.toNat) := by
              rw [Exists, same]
              exact Nat.lt_irrefl _
            simp [same ▸ missing, same]
          · simp [more, Nat.lt_asymm more, Nat.ne_of_gt more]

theorem collectLocal_eq (relocs : List Relocation) : (image.collectLocal relocs).1 =
      (relocs.takeWhile fun reloc => image.kindError reloc = none).map (·.r_address) ∧
    ((image.collectLocal relocs).2 = none ↔ ∀ reloc ∈ relocs, image.kindError reloc = none) := by
  induction relocs with
  | nil => exact ⟨rfl, iff_of_true rfl (List.forall_mem_nil _)⟩
  | cons reloc relocs ih =>
      rw [collectLocal, List.forall_mem_cons, List.takeWhile_cons]
      cases kind : image.kindError reloc with
      | some error => simp
      | none => simp [ih]

theorem localTreatment_eq (addrOff : BitVec 32) : image.localTreatment addrOff =
    match image.localRebase addrOff with
    | some made => .called made
    | none => .failed .outOfRange := by
  rw [localTreatment, localRebase]
  cases image.segIndexAndOffsetForAddress (image.relocBaseAddress + addrOff.setWidth 64) with
  | none => rfl
  | some place => rfl

theorem callsOf_localSteps (addresses : List (BitVec 32)) :
    callsOf (upToFailure (addresses.map fun addrOff => (⟨(), image.localTreatment addrOff, []⟩ : LocalStep))) =
      upToNone (addresses.map image.localRebase) := by
  induction addresses with
  | nil => rfl
  | cons addrOff addresses ih =>
      rw [List.map_cons, List.map_cons, upToFailure, localTreatment_eq]
      cases image.localRebase addrOff with
      | none => rfl
      | some made => exact congrArg (made :: ·) ih

theorem reported_of_neverStops {κ : Type} {handler : κ → σ → σ × Bool} (never : NeverStops handler) {skips : PointerCall → Bool}
    {made : PointerCall → Option κ} {block : PointerCall → Caller κ σ → Caller κ σ × Bool}
    (passes : ∀ call caller, block call caller = if skips call = true then (caller, false) else report handler (made call) caller)
    (calls : List PointerCall) (caller : Caller κ σ) :
    (runUntil (calling block) calls caller).state.reported =
      caller.reported ++ upToNone ((calls.filter fun call => !skips call).map made) := by
  induction calls generalizing caller with
  | nil => exact (List.append_nil _).symm
  | cons call calls ih =>
      have here := passes call caller
      cases skip : skips call with
      | true =>
          rw [skip, if_pos rfl] at here
          rw [runUntil_cons (congrArg Prod.snd here), List.filter_cons_of_neg (by rw [skip]; exact Bool.noConfusion)]
          refine (ih _).trans ?_
          rw [show (calling block call caller).state = caller from congrArg Prod.fst here]
      | false =>
          rw [skip, if_neg Bool.false_ne_true] at here
          rw [List.filter_cons_of_pos (by rw [skip]; rfl), List.map_cons]
          cases result : made call with
          | none =>
              rw [result] at here
              rw [runUntil_cons_of_stopped (congrArg Prod.snd here), calling, here]
              exact (List.append_nil _).symm
          | some value =>
              rw [result] at here
              rw [runUntil_cons ((congrArg Prod.snd here).trans (never value caller.state)), upToNone]
              refine (ih _).trans ?_
              rw [show (calling block call caller).state = _ from congrArg Prod.fst here]
              exact List.append_assoc _ [value] _

theorem not_skips (call : PointerCall) : (!decide (call.bind = false)) = call.bind := by
  cases call.bind <;> rfl

theorem locals_fail : ((image.collectLocal image.locrel).2.isSome || image.localSteps.any (·.treatment.fails)) = !decide image.LocalsSound := by
  obtain ⟨collected, error⟩ := @collectLocal_eq image image.locrel
  by_cases kinds : ∀ reloc ∈ image.locrel, image.kindError reloc = none
  · have every : image.locrel.takeWhile (fun reloc => image.kindError reloc = none) = image.locrel :=
      List.takeWhile_eq_self_iff.2 fun reloc member => decide_eq_true (kinds reloc member)
    rw [error.2 kinds, Option.isSome_none, Bool.false_or, Bool.eq_iff_iff, localSteps, collected, every, List.any_map, List.any_eq_true,
      Bool.not_eq_true', decide_eq_false_iff_not, LocalsSound, and_iff_right kinds]
    simp only [not_forall, exists_prop]
    constructor
    · rintro ⟨addrOff, member, fails⟩
      obtain ⟨reloc, inside, rfl⟩ := List.mem_map.1 (List.mem_mergeSort.1 member)
      refine ⟨reloc, inside, fun isSome => ?_⟩
      obtain ⟨made, same⟩ := Option.isSome_iff_exists.1 isSome
      rw [Function.comp_apply, localTreatment_eq, same] at fails
      cases fails
    · rintro ⟨reloc, inside, none⟩
      refine ⟨reloc.r_address, List.mem_mergeSort.2 (List.mem_map_of_mem inside), ?_⟩
      rw [Option.not_isSome_iff_eq_none] at none
      rw [Function.comp_apply, localTreatment_eq, none]
      rfl
  · rw [Option.isSome_iff_ne_none.2 (error.not.2 kinds), Bool.true_or, decide_eq_false fun sound : image.LocalsSound => kinds sound.1]
    rfl

theorem reports_of_agrees (pointers : Agrees image.Exists (entriesFrom image.sectionTable image.elementSteps 0 image.sections) image.expectedPointers)
    (externals : Agrees image.Exists image.externalSteps image.expectedExternals) (state : σ) :
    (∀ handler : RebaseCall → σ → σ × Bool, NeverStops handler → (image.forEachRebase handler state).reported = image.expectedRebases) ∧
      ∀ handler : BindCall → σ → σ × Bool, NeverStops handler → (image.forEachBind handler state).reported = image.expectedBinds := by
  constructor
  · intro handler never
    have runs : (run (notStopping handler) image.localSteps state).outcome.calls = image.expectedLocals := by
      rw [run_outcome, runUntil_of_not_stopping fun _ _ => rfl, localSteps, callsOf_localSteps, (collectLocal_eq _).1]
      rfl
    have fails : (run (notStopping handler) image.localSteps state).error.isSome = image.localSteps.any (·.treatment.fails) :=
      (run_of_not_stopping fun _ _ => rfl).2.2.2
    have sound : ((image.collectLocal image.locrel).2.isSome || (run (notStopping handler) image.localSteps state).error.isSome) =
        !decide image.LocalsSound := by
      rw [fails]
      exact locals_fail
    rw [forEachRebase]
    dsimp only
    rw [sound, expectedRebases]
    by_cases locals : image.LocalsSound
    · rw [if_neg (by simp [locals]), if_pos locals]
      dsimp only
      have block : ∀ call caller, image.onLocalPointer handler call caller =
          if call.bind = true then (caller, false) else report handler (image.pointerRebase call) caller := fun _ _ => rfl
      rw [runs, forEachIndirectPointer, walkSections_eq, run_outcome, pointers.calls, reported_of_neverStops never block]
      rfl
    · rw [if_pos (by simp [locals]), if_neg locals, List.append_nil]
      exact runs
  · intro handler never
    have runs : (run handler image.externalSteps state).outcome.calls = callsOf (upToFailure image.expectedExternals) := by
      rw [run_outcome, runUntil_of_not_stopping never, externals.calls]
    have fails : (run handler image.externalSteps state).error.isSome = image.expectedExternals.any (·.treatment.fails) :=
      (run_of_not_stopping never).2.2.2.trans externals.fails
    have block : ∀ call caller, image.onSymbolPointer handler call caller =
        if decide (call.bind = false) = true then (caller, false) else report handler (image.pointerBind call) caller :=
      fun call caller => if_congr (decide_eq_true_iff).symm rfl rfl
    have all : image.extrel.all (fun reloc => !(image.expectedExternal reloc).fails) =
        !image.expectedExternals.any (·.treatment.fails) := by
      rw [expectedExternals, List.any_map, List.not_any_eq_all_not]
      rfl
    rw [forEachBind, expectedBinds, all]
    dsimp only
    rw [fails]
    cases image.expectedExternals.any (·.treatment.fails) with
    | true =>
        rw [if_pos rfl, if_neg (by exact Bool.false_ne_true), List.append_nil]
        exact runs
    | false =>
        rw [if_neg (by exact Bool.false_ne_true), if_pos (show (!false) = true from rfl)]
        dsimp only
        rw [runs, forEachIndirectPointer, walkSections_eq, run_outcome, pointers.calls, reported_of_neverStops never block,
          funext not_skips]
        rfl

theorem agrees_of_reads (relocs : List Relocation)
    (reads : AllReads image.Exists
      (upToFailure (relocs.map fun reloc => (⟨(), image.externalTreatment reloc, image.externalReads reloc⟩ : ExternalStep)))) :
    Agrees image.Exists (relocs.map fun reloc => ⟨(), image.externalTreatment reloc, image.externalReads reloc⟩)
      (relocs.map fun reloc => (⟨(), image.expectedExternal reloc, []⟩ : ExternalStep)) := by
  induction relocs with
  | nil => exact agrees_nil
  | cons reloc relocs ih =>
      rw [List.map_cons, upToFailure] at reads
      have first := reads _ List.mem_cons_self
      have same := (external_iff reloc).2 first
      refine (agrees_cons ?_).2 ⟨⟨same, first⟩, fun sound => ih fun step member => reads step (List.mem_cons_of_mem _ ?_)⟩
      · rfl
      · rw [if_neg (by rw [same]; exact Bool.eq_false_iff.1 sound)]
        exact member

end Relocations

/-- The tables are used as they should be just when no entry that is come to meets a limit that is off. -/
theorem isSound_iff_fine (image : OldImage) :
    image.IsSound ↔ image.PointersFine image.sections ∧ AllReached image.ExternalFine image.expectedExternal image.extrel := by
  have pointersIff := @agrees_iff_pointersFine image 0 image.sections
  have externalsIff : Agrees image.Exists image.externalSteps image.expectedExternals ↔
      AllReached image.ExternalFine image.expectedExternal image.extrel := by
    have appended : Agrees image.Exists (image.externalSteps ++ []) (image.expectedExternals ++ []) ↔
        AllReached image.ExternalFine image.expectedExternal image.extrel ∧
          ((∀ reloc ∈ image.extrel, (image.expectedExternal reloc).fails = false) → Agrees image.Exists ([] : List ExternalStep) []) := by
      refine agrees_map_append ?_ fun reloc _ => ?_
      · exact fun _ => rfl
      obtain ⟨reads, same⟩ := @external_iff image reloc
      exact ⟨fun both => reads.1 both.2, fun fine => ⟨same (reads.2 fine), reads.2 fine⟩⟩
    rw [List.append_nil, List.append_nil] at appended
    exact appended.trans (and_iff_left fun _ => agrees_nil)
  constructor
  · intro sound
    -- a handler that does not stop comes to all entries
    obtain ⟨treated, reads, -⟩ := @run_of_not_stopping _ _ _ _ _ (fun (_ : PointerCall) (state : Unit) => (state, false))
      (entriesFrom image.sectionTable image.elementSteps 0 image.sections) () fun _ _ => rfl
    have pointers : Agrees image.Exists (entriesFrom image.sectionTable image.elementSteps 0 image.sections) image.expectedPointers := by
      have here := sound.pointers (fun _ (state : Unit) => (state, false)) () fun _ _ => rfl
      have exist := sound.pointerReads (fun _ (state : Unit) => (state, false)) ()
      rw [forEachIndirectPointer, walkSections_eq] at here exist
      refine ⟨treated.symm.trans here, fun step member read inside => exist read ?_⟩
      rw [reads]
      exact List.mem_flatMap.2 ⟨step, member, inside⟩
    refine ⟨pointersIff.1 pointers, externalsIff.1 (agrees_of_reads _ fun step member read inside => ?_)⟩
    refine sound.bindReads (fun _ (state : Unit) => (state, false)) () read ?_
    have all : read ∈ (run (fun (_ : BindCall) (state : Unit) => (state, false)) image.externalSteps ()).reads := by
      rw [(run_of_not_stopping fun _ _ => rfl).2.1]
      exact List.mem_flatMap.2 ⟨step, member, inside⟩
    rw [forEachBind]
    dsimp only
    split
    · exact all
    · exact List.mem_append_left _ all
  · rintro ⟨pointers, externals⟩
    have pointers := pointersIff.2 pointers
    have externals := externalsIff.2 externals
    have pointerReads {σ : Type} (handler : PointerCall → σ → σ × Bool) (state : σ) :
        ∀ read ∈ (image.forEachIndirectPointer handler state).reads, image.Exists read := by
      intro read member
      rw [forEachIndirectPointer, walkSections_eq] at member
      obtain ⟨step, inside, here⟩ := run_reads member
      exact pointers.reads step inside read here
    refine ⟨pointerReads, fun handler state read member => ?_, fun handler state read member => ?_, fun handler state never => ?_,
      fun handler state => (reports_of_agrees pointers externals state).1 handler,
      fun handler state => (reports_of_agrees pointers externals state).2 handler⟩
    · have none : (run (notStopping handler) image.localSteps state).reads = [] := by
        refine List.eq_nil_iff_forall_not_mem.2 fun read inside => ?_
        obtain ⟨step, among, here⟩ := run_reads inside
        obtain ⟨addrOff, -, rfl⟩ := List.mem_map.1 (mem_of_mem_upToFailure among)
        cases here
      rw [forEachRebase] at member
      dsimp only at member
      rw [none] at member
      split at member
      · cases member
      · exact pointerReads _ _ read member
    · rw [forEachBind] at member
      dsimp only at member
      have first : ∀ read ∈ (run handler image.externalSteps state).reads, image.Exists read := by
        intro read inside
        obtain ⟨step, among, here⟩ := run_reads inside
        exact externals.reads step among read here
      split at member
      · exact first read member
      · exact (List.mem_append.1 member).elim (first read) (pointerReads _ _ read)
    · rw [forEachIndirectPointer, walkSections_eq, (run_of_not_stopping never).1]
      exact pointers.treated

/-- An image with one pointer, for a symbol behind the only one. -/
def symbolBehind : OldImage where
  is64 := true
  cputype := 0x01000007
  flags := 0
  segments := []
  linkedit := ⟨0x2000, 0x1000, false, false⟩
  sections := [⟨S_NON_LAZY_SYMBOL_POINTERS, 0, 0, 0x1000, 8⟩]
  locrel := []
  extrel := []
  indirectSymbolTable := fun _ => 1
  nindirectsyms := 1
  symbols := fun _ => ⟨1, 0, 0⟩
  nsyms := 1
  strsize := 8
  content := fun _ => 0

theorem symbolBehind_not_sound : ¬symbolBehind.IsSound := by
  intro sound
  have read := sound.pointerReads (fun _ (state : Unit) => (state, false)) () (.symbol 1) (by decide +kernel)
  exact absurd read (Nat.lt_irrefl 1)

end OldImage

end ObjcDyld.OldFixups
