import Mathlib

/-!
# Loads of selectors

At its end `doOptimizeObjC` turns the `adrp` and `ldr` instructions that load a selector reference into
`adrp` and `add` instructions that compute the address of the selector string.  The page distance is
tested against 22 bits and stored in 21, and in an `add` the register 31 is the stack pointer.
-/

namespace ObjcDyld.SharedCache.SelectorLoads

open Function (update update_self update_of_ne)

/-! ## The rewriting -/

/-- What the rewriting asks the shared cache: whether an address is that of a selector reference, where the string it
refers to is, and where the content at a pointer is mapped. -/
structure Cache where
  isSelectorRefAddress : BitVec 64 → Bool
  selectorStringVMAddr : BitVec 64 → BitVec 64
  vmAddrForContent : ℕ → BitVec 64

/-- A selector reference and the pointers to its instructions. -/
structure Tracked where
  targetVMAddr : BitVec 64
  instructions : List ℕ

abbrev Words := ℕ → BitVec 32

def isADRP (instruction : BitVec 32) : Bool := instruction &&& 0x9F000000 = 0x90000000

/-- A load or store with an unsigned offset. -/
def isLoadStore (instruction : BitVec 32) : Bool := instruction &&& 0x3B000000 = 0x39000000

/-- The tests of the first pass on a load or store. -/
def isLoadX (instruction : BitVec 32) : Bool :=
  instruction &&& 0xC0C00000 = 0xC0400000 ∧ instruction &&& 0x04000000 = 0

def pageOf (address : BitVec 64) : BitVec 64 := address &&& ~~~0xFFF

def newPage21 (selectorStringVMAddr instructionVMAddr : BitVec 64) : BitVec 64 :=
  (pageOf selectorStringVMAddr - pageOf instructionVMAddr).sshiftRight 12

/-- The count of instructions seen in the first pass; `none` when it clears the set. -/
def validate (cache : Cache) (words : Words) (selectorStringVMAddr : BitVec 64) :
    List ℕ → ℕ → ℕ → Option (ℕ × ℕ)
  | [], adrpCount, ldrCount => some (adrpCount, ldrCount)
  | pointer :: others, adrpCount, ldrCount =>
      let instruction := words pointer
      if isADRP instruction then
        let page := (newPage21 selectorStringVMAddr (cache.vmAddrForContent pointer)).toInt
        if page > 2097151 ∨ page < -2097151 then none
        else validate cache words selectorStringVMAddr others (adrpCount + 1) ldrCount
      else if isLoadStore instruction then
        if isLoadX instruction then validate cache words selectorStringVMAddr others adrpCount (ldrCount + 1)
        else none
      else none

def encodeADRP (instruction : BitVec 32) (page : BitVec 64) : BitVec 32 :=
  (instruction &&& 0x9F00001F) ||| (page <<< 29 &&& 0x60000000).setWidth 32 |||
    (page <<< 3 &&& 0x00FFFFE0).setWidth 32

def encodeADD (instruction : BitVec 32) (selectorStringVMAddr : BitVec 64) : BitVec 32 :=
  let ldrDestReg := instruction &&& 0x1F
  let ldrBaseReg := (instruction >>> 5) &&& 0x1F
  0x91000000 ||| ldrDestReg ||| ldrBaseReg <<< 5 ||| ((selectorStringVMAddr &&& 0xFFF) <<< 10).setWidth 32

/-- The second pass. -/
def rewrite (cache : Cache) (selectorStringVMAddr : BitVec 64) : List ℕ → Words → Words
  | [], words => words
  | pointer :: others, words =>
      let instruction := words pointer
      if isADRP instruction then
        rewrite cache selectorStringVMAddr others
          (update words pointer
            (encodeADRP instruction (newPage21 selectorStringVMAddr (cache.vmAddrForContent pointer))))
      else if isLoadStore instruction then
        rewrite cache selectorStringVMAddr others (update words pointer (encodeADD instruction selectorStringVMAddr))
      else words

/-- Both passes over the instructions of one reference. -/
def optimizeReference (cache : Cache) (words : Words) (tracked : Tracked) : Words :=
  if cache.isSelectorRefAddress tracked.targetVMAddr = false then words
  else
    let selectorStringVMAddr := cache.selectorStringVMAddr tracked.targetVMAddr
    match validate cache words selectorStringVMAddr tracked.instructions 0 0 with
    | none => words
    | some (adrpCount, ldrCount) =>
        if adrpCount = 0 ∨ ldrCount = 0 then words
        else rewrite cache selectorStringVMAddr tracked.instructions words

/-- The rewriting at the end of `doOptimizeObjC`, for production. -/
def optimizeSelectorLoads (cache : Cache) (lohTracker : List Tracked) (words : Words) : Words :=
  lohTracker.foldl (optimizeReference cache) words

/-! ## The machine -/

/-- The general registers, with the stack pointer as number 31. -/
abbrev Registers := BitVec 5 → BitVec 64

def destReg (instruction : BitVec 32) : BitVec 5 := instruction.extractLsb' 0 5

def baseReg (instruction : BitVec 32) : BitVec 5 := instruction.extractLsb' 5 5

/-- The page count of an `adrp`. -/
def pageCount (instruction : BitVec 32) : BitVec 21 := instruction.extractLsb' 5 19 ++ instruction.extractLsb' 29 2

def imm12 (instruction : BitVec 32) : BitVec 12 := instruction.extractLsb' 10 12

/-- An `add` of an unshifted immediate. -/
def isADD (instruction : BitVec 32) : Bool := instruction &&& 0xFFC00000 = 0x91000000

/-- A write to a register where the number 31 is the zero register. -/
def Registers.writeX (registers : Registers) (register : BitVec 5) (value : BitVec 64) : Registers :=
  if register = 31 then registers else update registers register value

/-- The `adrp` and `add` instructions. -/
def execute (pc : BitVec 64) (instruction : BitVec 32) (registers : Registers) : Option Registers :=
  if isADRP instruction then
    some (registers.writeX (destReg instruction)
      (pageOf pc + BitVec.ofInt 64 ((pageCount instruction).toInt * 4096)))
  else if isADD instruction then
    some (update registers (destReg instruction) (registers (baseReg instruction) + (imm12 instruction).setWidth 64))
  else none

/-! ## What is expected -/

/-- After the `adrp`, the instruction that was a load does what the load did. -/
def LoadsSelector (cache : Cache) (before after : Words) (selector : BitVec 64) (adrp ldr : ℕ) : Prop :=
  ∀ registers, ∃ based, execute (cache.vmAddrForContent adrp) (after adrp) registers = some based ∧
    execute (cache.vmAddrForContent ldr) (after ldr) based = some (based.writeX (destReg (before ldr)) selector)

/-- A load from the page that an `adrp` leaves in a register. -/
structure IsPair (words : Words) (adrp ldr : ℕ) : Prop where
  page : isADRP (words adrp) = true
  load : isADRP (words ldr) = false
  register : destReg (words adrp) = baseReg (words ldr)
  general : destReg (words adrp) ≠ 31

/-- The instructions are as before, or they are `adrp` and `add` instructions, and each pair of them computes the address
of the selector string where the load read it from its reference. -/
def KeepsSelector (cache : Cache) (before after : Words) (tracked : Tracked) : Prop :=
  (∀ pointer ∈ tracked.instructions, after pointer = before pointer) ∨
    (∀ pointer ∈ tracked.instructions, isADRP (before pointer) = true ∧ isADRP (after pointer) = true ∨
      isLoadX (before pointer) = true ∧ isADD (after pointer) = true) ∧
    ∀ adrp ∈ tracked.instructions, ∀ ldr ∈ tracked.instructions, IsPair before adrp ldr →
      LoadsSelector cache before after (cache.selectorStringVMAddr tracked.targetVMAddr) adrp ldr

/-! ## The bits -/

section Bits

variable (instruction : BitVec 32) (page selector : BitVec 64)

theorem encodeADRP_kind : encodeADRP instruction page &&& 0x9F000000 = instruction &&& 0x9F000000 := by
  apply BitVec.eq_of_getLsbD_eq
  intro k lt
  simp only [encodeADRP, BitVec.getLsbD_and, BitVec.getLsbD_or, BitVec.getLsbD_setWidth, BitVec.getLsbD_shiftLeft]
  interval_cases k <;> simp

theorem encodeADRP_destReg : destReg (encodeADRP instruction page) = destReg instruction := by
  apply BitVec.eq_of_getLsbD_eq
  intro k lt
  simp only [destReg, encodeADRP, BitVec.getLsbD_extractLsb', BitVec.getLsbD_and, BitVec.getLsbD_or,
    BitVec.getLsbD_setWidth, BitVec.getLsbD_shiftLeft]
  interval_cases k <;> simp

theorem encodeADRP_pageCount : pageCount (encodeADRP instruction page) = page.setWidth 21 := by
  apply BitVec.eq_of_getLsbD_eq
  intro k lt
  simp only [pageCount, encodeADRP, BitVec.getLsbD_append, BitVec.getLsbD_extractLsb', BitVec.getLsbD_and,
    BitVec.getLsbD_or, BitVec.getLsbD_setWidth, BitVec.getLsbD_shiftLeft]
  interval_cases k <;> simp

theorem encodeADD_kind : encodeADD instruction selector &&& 0xFFC00000 = 0x91000000 := by
  apply BitVec.eq_of_getLsbD_eq
  intro k lt
  simp only [encodeADD, BitVec.getLsbD_and, BitVec.getLsbD_or, BitVec.getLsbD_setWidth, BitVec.getLsbD_shiftLeft,
    BitVec.getLsbD_ushiftRight]
  interval_cases k <;> simp

theorem encodeADD_destReg : destReg (encodeADD instruction selector) = destReg instruction := by
  apply BitVec.eq_of_getLsbD_eq
  intro k lt
  simp only [destReg, encodeADD, BitVec.getLsbD_extractLsb', BitVec.getLsbD_and, BitVec.getLsbD_or,
    BitVec.getLsbD_setWidth, BitVec.getLsbD_shiftLeft, BitVec.getLsbD_ushiftRight]
  interval_cases k <;> simp

theorem encodeADD_baseReg : baseReg (encodeADD instruction selector) = baseReg instruction := by
  apply BitVec.eq_of_getLsbD_eq
  intro k lt
  simp only [baseReg, encodeADD, BitVec.getLsbD_extractLsb', BitVec.getLsbD_and, BitVec.getLsbD_or,
    BitVec.getLsbD_setWidth, BitVec.getLsbD_shiftLeft, BitVec.getLsbD_ushiftRight]
  interval_cases k <;> simp

theorem encodeADD_imm12 : (imm12 (encodeADD instruction selector)).setWidth 64 = selector &&& 0xFFF := by
  apply BitVec.eq_of_getLsbD_eq
  intro k lt
  simp only [imm12, encodeADD, BitVec.getLsbD_extractLsb', BitVec.getLsbD_and, BitVec.getLsbD_or,
    BitVec.getLsbD_setWidth, BitVec.getLsbD_shiftLeft, BitVec.getLsbD_ushiftRight]
  interval_cases k <;> simp

theorem pageOf_add : pageOf selector + (selector &&& 0xFFF) = selector := by
  have apart : pageOf selector &&& (selector &&& 0xFFF) = 0 := by
    apply BitVec.eq_of_getLsbD_eq
    intro k lt
    simp only [pageOf, BitVec.getLsbD_and, BitVec.getLsbD_not]
    interval_cases k <;> simp
  rw [BitVec.add_eq_or_of_and_eq_zero _ _ apart, pageOf]
  apply BitVec.eq_of_getLsbD_eq
  intro k lt
  simp only [BitVec.getLsbD_or, BitVec.getLsbD_and, BitVec.getLsbD_not]
  interval_cases k <;> simp

end Bits

/-! ## The page distance -/

/-- The page distance fits in a signed number of 21 bits. -/
def FitsPageCount (selector pc : BitVec 64) : Prop :=
  -1048576 ≤ (newPage21 selector pc).toInt ∧ (newPage21 selector pc).toInt < 1048576

instance (selector pc : BitVec 64) : Decidable (FitsPageCount selector pc) := inferInstanceAs (Decidable (_ ∧ _))

theorem pageOf_toNat_mod (address : BitVec 64) : (pageOf address).toNat % 4096 = 0 := by
  have unset : pageOf address &&& 0xFFF = 0 := by
    apply BitVec.eq_of_getLsbD_eq
    intro k lt
    simp only [pageOf, BitVec.getLsbD_and, BitVec.getLsbD_not]
    interval_cases k <;> simp
  have low := congrArg BitVec.toNat unset
  rw [BitVec.toNat_and] at low
  exact (Nat.and_two_pow_sub_one_eq_mod _ 12).symm.trans low

theorem newPage21_mul (selector pc : BitVec 64) :
    (newPage21 selector pc).toInt * 4096 = (pageOf selector - pageOf pc).toInt := by
  have distance : (pageOf selector - pageOf pc).toNat % 4096 = 0 := by
    have first := pageOf_toNat_mod selector
    have second := pageOf_toNat_mod pc
    have bound := (pageOf pc).isLt
    rw [BitVec.toNat_sub]
    omega
  rw [newPage21, BitVec.toInt_sshiftRight, Int.shiftRight_eq_div_pow]
  have := BitVec.toInt_eq_toNat_cond (pageOf selector - pageOf pc)
  split at this <;> omega

theorem toInt_setWidth_eq_iff (page : BitVec 64) :
    (page.setWidth 21).toInt = page.toInt ↔ -1048576 ≤ page.toInt ∧ page.toInt < 1048576 := by
  have inside := page.isLt
  rw [BitVec.toInt_setWidth, BitVec.toInt_eq_toNat_bmod, Int.bmod_def, Int.bmod_def]
  split <;> split <;> omega

theorem computes_page_iff (instruction : BitVec 32) (selector pc : BitVec 64) :
    pageOf pc + BitVec.ofInt 64 ((pageCount (encodeADRP instruction (newPage21 selector pc))).toInt * 4096) =
        pageOf selector ↔ FitsPageCount selector pc := by
  have low := BitVec.le_toInt ((newPage21 selector pc).setWidth 21)
  have high := BitVec.toInt_lt (x := (newPage21 selector pc).setWidth 21)
  rw [encodeADRP_pageCount, FitsPageCount, ← toInt_setWidth_eq_iff, add_comm, ← eq_sub_iff_add_eq, ← BitVec.toInt_inj,
    ← newPage21_mul, BitVec.toInt_ofInt, Int.bmod_eq_of_le]
  · omega
  · omega
  · omega

/-! ## One reference -/

variable {cache : Cache} {words other : Words} {selector : BitVec 64} {instructions : List ℕ} {pointer : ℕ}

/-- What the second pass writes at one pointer. -/
def rewritten (cache : Cache) (words : Words) (selector : BitVec 64) (pointer : ℕ) : BitVec 32 :=
  if isADRP (words pointer) then encodeADRP (words pointer) (newPage21 selector (cache.vmAddrForContent pointer))
  else encodeADD (words pointer) selector

theorem rewritten_congr (same : words pointer = other pointer) :
    rewritten cache words selector pointer = rewritten cache other selector pointer := by
  rw [rewritten, rewritten, same]

theorem encodeADRP_isADRP (instruction : BitVec 32) (page : BitVec 64) :
    isADRP (encodeADRP instruction page) = isADRP instruction := by
  rw [isADRP, encodeADRP_kind, isADRP]

theorem encodeADD_isADD (instruction : BitVec 32) (selector : BitVec 64) : isADD (encodeADD instruction selector) = true :=
  decide_eq_true (encodeADD_kind instruction selector)

theorem and_of_encodeADD {mask : BitVec 32} (instruction : BitVec 32) (selector : BitVec 64)
    (inside : 0xFFC00000 &&& mask = mask) : encodeADD instruction selector &&& mask = 0x91000000 &&& mask := by
  rw [← encodeADD_kind instruction selector, BitVec.and_assoc, inside]

theorem encodeADD_isADRP (instruction : BitVec 32) (selector : BitVec 64) :
    isADRP (encodeADD instruction selector) = false := by
  rw [isADRP, and_of_encodeADD instruction selector (by decide)]
  decide

theorem encodeADD_isLoadStore (instruction : BitVec 32) (selector : BitVec 64) :
    isLoadStore (encodeADD instruction selector) = false := by
  rw [isLoadStore, and_of_encodeADD instruction selector (by decide)]
  decide

theorem loadsSelector_iff {after : Words} {adrp ldr : ℕ} (pair : IsPair words adrp ldr)
    (first : after adrp = rewritten cache words selector adrp) (second : after ldr = rewritten cache words selector ldr) :
    LoadsSelector cache words after selector adrp ldr ↔
      FitsPageCount selector (cache.vmAddrForContent adrp) ∧ destReg (words ldr) ≠ 31 := by
  rw [rewritten, if_pos pair.page] at first
  rw [rewritten, pair.load, if_neg Bool.false_ne_true] at second
  rw [← computes_page_iff (words adrp), LoadsSelector, first, second]
  generalize value : pageOf (cache.vmAddrForContent adrp) + BitVec.ofInt 64
    ((pageCount (encodeADRP (words adrp) (newPage21 selector (cache.vmAddrForContent adrp)))).toInt * 4096) = page
  have based (registers : Registers) : execute (cache.vmAddrForContent adrp)
      (encodeADRP (words adrp) (newPage21 selector (cache.vmAddrForContent adrp))) registers =
        some (update registers (baseReg (words ldr)) page) := by
    rw [execute, encodeADRP_isADRP, if_pos pair.page, encodeADRP_destReg, value, Registers.writeX, if_neg pair.general,
      pair.register]
  have added (registers : Registers) : execute (cache.vmAddrForContent ldr) (encodeADD (words ldr) selector) registers =
      some (update registers (destReg (words ldr)) (registers (baseReg (words ldr)) + (selector &&& 0xFFF))) := by
    rw [execute, encodeADD_isADRP, if_neg Bool.false_ne_true, encodeADD_isADD, if_pos rfl, encodeADD_destReg,
      encodeADD_baseReg, encodeADD_imm12]
  have general : (31 : BitVec 5) ≠ baseReg (words ldr) := fun same => pair.general (pair.register.trans same.symm)
  simp only [based, added, Option.some.injEq, exists_eq_left', update_self]
  constructor
  · intro loads
    by_cases zero : destReg (words ldr) = 31
    · -- The `add` writes the stack pointer, which the load leaves alone.
      have stack (registers : Registers) : page + (selector &&& 0xFFF) = registers 31 := by
        have same := congrFun (loads registers) 31
        rwa [zero, update_self, Registers.writeX, if_pos rfl, update_of_ne general] at same
      exact absurd ((stack fun _ => 0).symm.trans (stack fun _ => 1)) (by decide)
    · have same := congrFun (loads fun _ => 0) (destReg (words ldr))
      rw [update_self, Registers.writeX, if_neg zero, update_self] at same
      exact ⟨add_right_cancel (same.trans (pageOf_add selector).symm), zero⟩
  · rintro ⟨fits, nonzero⟩ registers
    rw [fits, pageOf_add, Registers.writeX, if_neg nonzero]

/-- An instruction that the first pass lets through. -/
def IsRewritable (instruction : BitVec 32) : Prop :=
  isADRP instruction = true ∨ isADRP instruction = false ∧ isLoadStore instruction = true ∧ isLoadX instruction = true

theorem validate_spec {adrpCount ldrCount adrps ldrs : ℕ}
    (valid : validate cache words selector instructions adrpCount ldrCount = some (adrps, ldrs)) :
    (∀ pointer ∈ instructions, IsRewritable (words pointer)) ∧
      (ldrs ≠ ldrCount → ∃ pointer ∈ instructions, isADRP (words pointer) = false ∧ isLoadStore (words pointer) = true) := by
  induction instructions generalizing adrpCount ldrCount with
  | nil =>
      simp only [validate, Option.some.injEq, Prod.mk.injEq] at valid
      exact ⟨fun pointer member => absurd member List.not_mem_nil, fun differ => absurd valid.2.symm differ⟩
  | cons first others ih =>
      rw [validate] at valid
      cases page : isADRP (words first) with
      | true =>
          simp only [page, if_true] at valid
          split at valid
          · cases valid
          · obtain ⟨all, load⟩ := ih valid
            refine ⟨List.forall_mem_cons.2 ⟨.inl page, all⟩, fun differ => ?_⟩
            obtain ⟨pointer, member, kind⟩ := load differ
            exact ⟨pointer, List.mem_cons_of_mem _ member, kind⟩
      | false =>
          simp only [page, Bool.false_eq_true, if_false] at valid
          split at valid
          · rename_i store
            split at valid
            · rename_i loads
              obtain ⟨all, -⟩ := ih valid
              exact ⟨List.forall_mem_cons.2 ⟨.inr ⟨page, store, loads⟩, all⟩,
                fun _ => ⟨first, List.mem_cons_self .., page, store⟩⟩
            · cases valid
          · cases valid

theorem validate_congr {adrpCount ldrCount : ℕ} (same : ∀ pointer ∈ instructions, words pointer = other pointer) :
    validate cache words selector instructions adrpCount ldrCount =
      validate cache other selector instructions adrpCount ldrCount := by
  induction instructions generalizing adrpCount ldrCount with
  | nil => rfl
  | cons first others ih =>
      rw [List.forall_mem_cons] at same
      simp only [validate, same.1, ih same.2]

theorem rewrite_apply (distinct : instructions.Nodup) (kinds : ∀ pointer ∈ instructions, IsRewritable (words pointer))
    (pointer : ℕ) :
    rewrite cache selector instructions words pointer =
      if pointer ∈ instructions then rewritten cache words selector pointer else words pointer := by
  induction instructions generalizing words with
  | nil => rfl
  | cons first others ih =>
      rw [List.nodup_cons] at distinct
      rw [List.forall_mem_cons] at kinds
      have step : rewrite cache selector (first :: others) words =
          rewrite cache selector others (update words first (rewritten cache words selector first)) := by
        rw [rewrite, rewritten]
        rcases kinds.1 with page | ⟨load, store, -⟩
        · simp only [page, if_true]
        · simp only [load, store, Bool.false_eq_true, if_false, if_true]
      have kept (p : ℕ) (member : p ∈ others) : update words first (rewritten cache words selector first) p = words p := by
        refine update_of_ne ?_ _ _
        rintro rfl
        exact distinct.1 member
      rw [step, ih distinct.2 fun p member => by rw [kept p member]; exact kinds.2 p member]
      by_cases member : pointer ∈ others
      · rw [if_pos member, if_pos (List.mem_cons_of_mem _ member), rewritten_congr (kept pointer member)]
      · rw [if_neg member]
        by_cases here : pointer = first
        · rw [here, update_self, if_pos (List.mem_cons_self ..)]
        · rw [update_of_ne here, if_neg fun inside => (List.mem_cons.1 inside).elim here member]

/-- The instructions of a reference are rewritten. -/
def IsAccepted (cache : Cache) (words : Words) (tracked : Tracked) : Prop :=
  cache.isSelectorRefAddress tracked.targetVMAddr = true ∧
    ∃ adrps ldrs, validate cache words (cache.selectorStringVMAddr tracked.targetVMAddr) tracked.instructions 0 0 =
      some (adrps, ldrs) ∧ adrps ≠ 0 ∧ ldrs ≠ 0

variable {tracked : Tracked}

theorem optimizeReference_of_not (rejected : ¬ IsAccepted cache words tracked) :
    optimizeReference cache words tracked = words := by
  simp only [optimizeReference]
  split
  · rfl
  · rename_i target
    split
    · rfl
    · rename_i adrps ldrs valid
      split
      · rfl
      · rename_i counts
        rw [not_or] at counts
        exact absurd ⟨by simpa using target, adrps, ldrs, valid, counts.1, counts.2⟩ rejected

theorem optimizeReference_of_accepted (distinct : tracked.instructions.Nodup) (accepted : IsAccepted cache words tracked)
    (pointer : ℕ) :
    optimizeReference cache words tracked pointer =
      if pointer ∈ tracked.instructions then
        rewritten cache words (cache.selectorStringVMAddr tracked.targetVMAddr) pointer
      else words pointer := by
  obtain ⟨target, adrps, ldrs, valid, someADRP, someLDR⟩ := accepted
  rw [optimizeReference, target, if_neg (by decide)]
  simp only [valid]
  rw [if_neg (by simp [someADRP, someLDR])]
  exact rewrite_apply distinct (validate_spec valid).1 pointer

theorem IsAccepted.congr (same : ∀ pointer ∈ tracked.instructions, words pointer = other pointer) :
    IsAccepted cache words tracked ↔ IsAccepted cache other tracked := by
  simp only [IsAccepted, validate_congr same]

/-- Every pair of an accepted reference can be rewritten: the distance fits, and the load has a general destination. -/
def IsEncodable (cache : Cache) (words : Words) (tracked : Tracked) : Prop :=
  IsAccepted cache words tracked → ∀ adrp ∈ tracked.instructions, ∀ ldr ∈ tracked.instructions, IsPair words adrp ldr →
    FitsPageCount (cache.selectorStringVMAddr tracked.targetVMAddr) (cache.vmAddrForContent adrp) ∧
      destReg (words ldr) ≠ 31

theorem keepsSelector_iff {after : Words} (distinct : tracked.instructions.Nodup)
    (result : ∀ pointer ∈ tracked.instructions, after pointer = optimizeReference cache words tracked pointer) :
    KeepsSelector cache words after tracked ↔ IsEncodable cache words tracked := by
  by_cases accepted : IsAccepted cache words tracked
  · have written : ∀ pointer ∈ tracked.instructions,
        after pointer = rewritten cache words (cache.selectorStringVMAddr tracked.targetVMAddr) pointer := by
      intro pointer member
      rw [result pointer member, optimizeReference_of_accepted distinct accepted, if_pos member]
    obtain ⟨adrps, ldrs, valid, -, someLDR⟩ := accepted.2
    obtain ⟨kinds, load⟩ := validate_spec valid
    constructor
    · rintro (unchanged | ⟨-, pairs⟩) - adrp first ldr second pair
      · -- A load is never left as it is.
        obtain ⟨pointer, member, notPage, store⟩ := load someLDR
        have same := (written pointer member).symm.trans (unchanged pointer member)
        rw [rewritten, notPage, if_neg Bool.false_ne_true] at same
        rw [← same, encodeADD_isLoadStore] at store
        cases store
      · exact (loadsSelector_iff pair (written adrp first) (written ldr second)).1 (pairs adrp first ldr second pair)
    · intro encodable
      refine .inr ⟨fun pointer member => ?_, fun adrp first ldr second pair => ?_⟩
      · rw [written pointer member, rewritten]
        rcases kinds pointer member with page | ⟨notPage, -, loads⟩
        · rw [if_pos page, encodeADRP_isADRP]
          exact .inl ⟨page, page⟩
        · rw [notPage, if_neg Bool.false_ne_true]
          exact .inr ⟨loads, encodeADD_isADD _ _⟩
      · exact (loadsSelector_iff pair (written adrp first) (written ldr second)).2
          (encodable accepted adrp first ldr second pair)
  · refine ⟨fun _ => (absurd · accepted), fun _ => .inl fun pointer member => ?_⟩
    rw [result pointer member, optimizeReference_of_not accepted]

/-! ## The whole tracker -/

variable {lohTracker : List Tracked}

theorem optimizeReference_other (distinct : tracked.instructions.Nodup) (outside : pointer ∉ tracked.instructions) :
    optimizeReference cache words tracked pointer = words pointer := by
  by_cases accepted : IsAccepted cache words tracked
  · rw [optimizeReference_of_accepted distinct accepted, if_neg outside]
  · rw [optimizeReference_of_not accepted]

theorem optimizeReference_congr (distinct : tracked.instructions.Nodup)
    (same : ∀ pointer ∈ tracked.instructions, words pointer = other pointer) (member : pointer ∈ tracked.instructions) :
    optimizeReference cache words tracked pointer = optimizeReference cache other tracked pointer := by
  by_cases accepted : IsAccepted cache words tracked
  · rw [optimizeReference_of_accepted distinct accepted,
      optimizeReference_of_accepted distinct ((IsAccepted.congr same).1 accepted), if_pos member, if_pos member,
      rewritten_congr (same pointer member)]
  · rw [optimizeReference_of_not accepted, optimizeReference_of_not (fun h => accepted ((IsAccepted.congr same).2 h)),
      same pointer member]

theorem optimizeSelectorLoads_other (distinct : ∀ tracked ∈ lohTracker, tracked.instructions.Nodup)
    (outside : ∀ tracked ∈ lohTracker, pointer ∉ tracked.instructions) :
    optimizeSelectorLoads cache lohTracker words pointer = words pointer := by
  induction lohTracker generalizing words with
  | nil => rfl
  | cons first others ih =>
      rw [List.forall_mem_cons] at distinct outside
      change optimizeSelectorLoads cache others (optimizeReference cache words first) pointer = _
      rw [ih distinct.2 outside.2, optimizeReference_other distinct.1 outside.1]

theorem optimizeSelectorLoads_apply (distinct : ∀ tracked ∈ lohTracker, tracked.instructions.Nodup)
    (apart : lohTracker.Pairwise fun one two => one.instructions.Disjoint two.instructions) (member : tracked ∈ lohTracker)
    (inside : pointer ∈ tracked.instructions) :
    optimizeSelectorLoads cache lohTracker words pointer = optimizeReference cache words tracked pointer := by
  induction lohTracker generalizing words with
  | nil => cases member
  | cons first others ih =>
      rw [List.forall_mem_cons] at distinct
      rw [List.pairwise_cons] at apart
      change optimizeSelectorLoads cache others (optimizeReference cache words first) pointer = _
      rcases List.mem_cons.1 member with rfl | later
      · exact optimizeSelectorLoads_other distinct.2 fun other among => apart.1 other among inside
      · rw [ih distinct.2 apart.2 later]
        refine optimizeReference_congr (distinct.2 tracked later) (fun p among => ?_) inside
        exact optimizeReference_other distinct.1 fun here => apart.1 tracked later here among

/-- Every reference keeps its selector exactly when every one is encodable. -/
theorem optimizeSelectorLoads_keeps_iff (cache : Cache) (words : Words) (lohTracker : List Tracked)
    (distinct : ∀ tracked ∈ lohTracker, tracked.instructions.Nodup)
    (apart : lohTracker.Pairwise fun one two => one.instructions.Disjoint two.instructions) :
    (∀ tracked ∈ lohTracker, KeepsSelector cache words (optimizeSelectorLoads cache lohTracker words) tracked) ↔
      ∀ tracked ∈ lohTracker, IsEncodable cache words tracked := by
  refine forall₂_congr fun tracked member => keepsSelector_iff (distinct tracked member) fun pointer inside => ?_
  exact optimizeSelectorLoads_apply distinct apart member inside

/-- An `adrp x0` and an `ldr x0, [x0]` at the start of the address space, and a string six gigabytes further on. -/
def farString : Cache where
  isSelectorRefAddress _ := true
  selectorStringVMAddr _ := 0x180000010
  vmAddrForContent pointer := BitVec.ofNat 64 pointer

def farWords : Words := fun pointer => if pointer = 0 then 0x90000000 else 0xF9400000

theorem farString_keeps_iff :
    (∀ tracked ∈ [⟨0x100000000, [0, 4]⟩],
        KeepsSelector farString farWords (optimizeSelectorLoads farString [⟨0x100000000, [0, 4]⟩] farWords) tracked) ↔
      ∀ tracked ∈ [⟨0x100000000, [0, 4]⟩], IsEncodable farString farWords tracked :=
  optimizeSelectorLoads_keeps_iff farString farWords [⟨0x100000000, [0, 4]⟩] (by decide) (by simp)

/-- The string is not the one that is computed. -/
theorem farString_not_keeps :
    ¬ KeepsSelector farString farWords (optimizeSelectorLoads farString [⟨0x100000000, [0, 4]⟩] farWords)
      ⟨0x100000000, [0, 4]⟩ := by
  have result (pointer : ℕ) (_ : pointer ∈ [0, 4]) : optimizeSelectorLoads farString [⟨0x100000000, [0, 4]⟩] farWords pointer =
      optimizeReference farString farWords ⟨0x100000000, [0, 4]⟩ pointer := rfl
  rw [keepsSelector_iff (by decide) result]
  intro encodable
  have accepted : IsAccepted farString farWords ⟨0x100000000, [0, 4]⟩ := ⟨rfl, 1, 1, by decide, by decide, by decide⟩
  have pair : IsPair farWords 0 4 := ⟨by decide, by decide, by decide, by decide⟩
  exact absurd (encodable accepted 0 (by decide) 4 (by decide) pair).1 (by decide)

end ObjcDyld.SharedCache.SelectorLoads
