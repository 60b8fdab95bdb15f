import Mathlib

/-!
# Thumb branches

The displacement of a thumb `b`, `bl` or `blx` is a signed number of 25 bits scattered over the two
half-words of the instruction, two of its bits stored as equality with the sign.  `blx` rounds the
pc down to a multiple of four, so at half of all addresses the encoder and the decoder shift its
displacement by two.
-/

namespace ObjcDyld.SharedCache

/-! ## The functions -/

/-- The errors of `setDisplacementInThumbBranch`. -/
inductive BranchError where
  /-- "thumb branch out of range". -/
  | outOfRange
  /-- "no pc-rel thumb branch instruction that switches to arm mode". -/
  | switchesToArm
  /-- "not b/bl/blx". -/
  | notBranch
  deriving DecidableEq, Repr

def isThumbBl (instruction : BitVec 32) : Bool := instruction &&& 0xD000F800 == 0xD000F000

def isThumbBlx (instruction : BitVec 32) : Bool := instruction &&& 0xD000F800 == 0xC000F000

def isThumbB (instruction : BitVec 32) : Bool := instruction &&& 0xD000F800 == 0x9000F000

/-- The `result` of `getDisplacementFromThumbBranch` before the pc of a `blx` is aligned. -/
def scatteredDisplacement (instruction : BitVec 32) : BitVec 32 :=
  let s := (instruction >>> 10) &&& 0x1
  let j1 := (instruction >>> 29) &&& 0x1
  let j2 := (instruction >>> 27) &&& 0x1
  let imm10 := instruction &&& 0x3FF
  let imm11 := (instruction >>> 16) &&& 0x7FF
  let i1 : BitVec 32 := if j1 = s then 1 else 0
  let i2 : BitVec 32 := if j2 = s then 1 else 0
  let dis := (s <<< 24) ||| (i1 <<< 23) ||| (i2 <<< 22) ||| (imm10 <<< 12) ||| (imm11 <<< 1)
  if s ≠ 0 then dis ||| 0xFE000000 else dis

def getDisplacementFromThumbBranch (instruction instrAddr : BitVec 32) : BitVec 32 :=
  let result := scatteredDisplacement instruction
  if isThumbBlx instruction ∧ instrAddr &&& 0x2 ≠ 0 then result - 2 else result

/-- The bits of a displacement, where `setDisplacementInThumbBranch` puts them. -/
def scatter (displacement : BitVec 32) : BitVec 32 :=
  let s := displacement.sshiftRight 24 &&& 0x1
  let i1 := displacement.sshiftRight 23 &&& 0x1
  let i2 := displacement.sshiftRight 22 &&& 0x1
  let imm10 := displacement.sshiftRight 12 &&& 0x3FF
  let imm11 := displacement.sshiftRight 1 &&& 0x7FF
  let j1 : BitVec 32 := if i1 = s then 1 else 0
  let j2 : BitVec 32 := if i2 = s then 1 else 0
  let nextDisp := (j1 <<< 13) ||| (j2 <<< 11) ||| imm11
  let firstDisp := (s <<< 10) ||| imm10
  (nextDisp <<< 16) ||| firstDisp

def setDisplacementInThumbBranch (instruction instrAddr displacement : BitVec 32)
    (targetIsThumb : Bool) : Except BranchError (BitVec 32) :=
  if displacement.toInt > 16777214 ∨ displacement.toInt < -16777216 then .error .outOfRange
  else if isThumbBl instruction || isThumbBlx instruction then
    if targetIsThumb then .ok (0xD000F000 ||| scatter displacement) -- use bl
    else
      -- use blx
      let displacement := if instrAddr &&& 0x2 ≠ 0 then displacement + 2 else displacement
      .ok (0xC000F000 ||| scatter displacement)
  else if isThumbB instruction then
    if !targetIsThumb then .error .switchesToArm
    else .ok ((instruction &&& 0xD000F800) ||| scatter displacement)
  else .error .notBranch

/-! ## The bits -/

/-- The bits of an instruction that hold its displacement. -/
def displacementMask : BitVec 32 := 0x2FFF07FF

theorem shiftRight_and_one (x : BitVec 32) (k : ℕ) :
    (x >>> k) &&& 1 = (BitVec.ofBool (x.getLsbD k)).setWidth 32 := by
  apply BitVec.eq_of_getLsbD_eq
  intro n lt
  cases n with
  | zero => simp
  | succ n => simp [BitVec.getLsbD_one]

theorem ite_bits (x : BitVec 32) (i j : ℕ) :
    (if (x >>> i) &&& 1 = (x >>> j) &&& 1 then (1 : BitVec 32) else 0) =
      (BitVec.ofBool (x.getLsbD i == x.getLsbD j)).setWidth 32 := by
  rw [shiftRight_and_one, shiftRight_and_one]
  cases x.getLsbD i <;> cases x.getLsbD j <;> rfl

/-- Where the decoder finds each bit of the displacement. -/
def sourceBit (x : BitVec 32) (k : ℕ) : Bool :=
  if k = 0 then false
  else if k < 12 then x.getLsbD (k + 15)
  else if k < 22 then x.getLsbD (k - 12)
  else if k = 22 then x.getLsbD 27 == x.getLsbD 10
  else if k = 23 then x.getLsbD 29 == x.getLsbD 10
  else x.getLsbD 10

/-- Where the encoder finds each bit of the instruction. -/
def scatteredBit (d : BitVec 32) (k : ℕ) : Bool :=
  if k < 10 then d.getLsbD (k + 12)
  else if k = 10 then d.getLsbD 24
  else if 16 ≤ k ∧ k < 27 then d.getLsbD (k - 15)
  else if k = 27 then d.getLsbD 22 == d.getLsbD 24
  else if k = 29 then d.getLsbD 23 == d.getLsbD 24
  else false

theorem getLsbD_scatteredDisplacement (x : BitVec 32) {k : ℕ} (lt : k < 32) :
    (scatteredDisplacement x).getLsbD k = sourceBit x k := by
  have sign : ((x >>> 10) &&& 1 ≠ 0) ↔ x.getLsbD 10 = true := by
    rw [shiftRight_and_one]
    cases x.getLsbD 10 <;> decide
  unfold scatteredDisplacement
  simp only [ite_bits, sign]
  split
  next negative =>
    simp only [BitVec.getLsbD_setWidth, BitVec.getLsbD_or, BitVec.getLsbD_and,
      BitVec.getLsbD_shiftLeft, BitVec.getLsbD_ushiftRight]
    interval_cases k <;> simp [sourceBit, negative]
  next positive =>
    simp only [BitVec.getLsbD_setWidth, BitVec.getLsbD_or, BitVec.getLsbD_and,
      BitVec.getLsbD_shiftLeft, BitVec.getLsbD_ushiftRight]
    have unset : x[10] = false := by simpa using positive
    interval_cases k <;> simp [sourceBit, unset]

theorem getElem_scatteredDisplacement (x : BitVec 32) {k : ℕ} (lt : k < 32) :
    (scatteredDisplacement x)[k] = sourceBit x k := by
  rw [← BitVec.getLsbD_eq_getElem, getLsbD_scatteredDisplacement x lt]

theorem sshiftRight_and_one (d : BitVec 32) {k : ℕ} (lt : k < 32) :
    d.sshiftRight k &&& 1 = (BitVec.ofBool (d.getLsbD k)).setWidth 32 := by
  apply BitVec.eq_of_getLsbD_eq
  intro n _
  cases n with
  | zero =>
      rw [BitVec.getLsbD_and, BitVec.getLsbD_sshiftRight]
      simp [lt]
  | succ n => simp [BitVec.getLsbD_one]

theorem getLsbD_scatter (d : BitVec 32) {k : ℕ} (lt : k < 32) :
    (scatter d).getLsbD k = scatteredBit d k := by
  have same {i j : ℕ} (hi : i < 32) (hj : j < 32) :
      (if d.sshiftRight i &&& 1 = d.sshiftRight j &&& 1 then (1 : BitVec 32) else 0) =
        (BitVec.ofBool (d.getLsbD i == d.getLsbD j)).setWidth 32 := by
    rw [sshiftRight_and_one d hi, sshiftRight_and_one d hj]
    cases d.getLsbD i <;> cases d.getLsbD j <;> rfl
  unfold scatter
  simp only [same (show 23 < 32 by decide) (show 24 < 32 by decide),
    same (show 22 < 32 by decide) (show 24 < 32 by decide)]
  simp only [BitVec.getLsbD_setWidth, BitVec.getLsbD_or, BitVec.getLsbD_and,
    BitVec.getLsbD_shiftLeft, BitVec.getLsbD_sshiftRight]
  interval_cases k <;> simp [scatteredBit]

theorem scatter_scatteredDisplacement (instruction : BitVec 32) :
    scatter (scatteredDisplacement instruction) = instruction &&& 0x2FFF07FF := by
  apply BitVec.eq_of_getLsbD_eq
  intro k lt
  rw [getLsbD_scatter _ lt, BitVec.getLsbD_and]
  interval_cases k <;> simp [scatteredBit, getElem_scatteredDisplacement, sourceBit]

theorem or_scatter_and (kind d : BitVec 32) (pure : kind &&& 0xD000F800 = kind) :
    (kind ||| scatter d) &&& 0xD000F800 = kind := by
  have apart : scatter d &&& 0xD000F800 = 0 := by
    apply BitVec.eq_of_getLsbD_eq
    intro k lt
    rw [BitVec.getLsbD_and, getLsbD_scatter _ lt]
    interval_cases k <;> simp [scatteredBit]
  rw [BitVec.and_or_distrib_right, pure, apart]
  exact BitVec.or_zero

theorem scatteredDisplacement_eq {instruction d : BitVec 32}
    (bits : ∀ k (lt : k < 32), (0x2FFF07FF : BitVec 32).getLsbD k = true →
      instruction[k] = scatteredBit d k)
    (signed : ∀ k (lt : k < 32), 24 ≤ k → d[k] = d[24]) :
    scatteredDisplacement instruction = d &&& 0xFFFFFFFE := by
  apply BitVec.eq_of_getLsbD_eq
  intro k lt
  rw [getLsbD_scatteredDisplacement _ lt]
  interval_cases k <;> simp [sourceBit, bits, scatteredBit, signed]

theorem scatteredDisplacement_or {kind d : BitVec 32} (pure : kind &&& 0xD000F800 = kind)
    (signed : ∀ k (lt : k < 32), 24 ≤ k → d[k] = d[24]) :
    scatteredDisplacement (kind ||| scatter d) = d &&& 0xFFFFFFFE := by
  refine scatteredDisplacement_eq (fun k lt mem => ?_) signed
  have free : (0xD000F800 : BitVec 32).getLsbD k = false := by
    interval_cases k <;> first | rfl | exact absurd mem (by decide)
  have unset : kind.getLsbD k = false := by
    rw [← pure, BitVec.getLsbD_and, free, Bool.and_false]
  rw [← BitVec.getLsbD_eq_getElem, BitVec.getLsbD_or, unset, Bool.false_or, getLsbD_scatter d lt]

/-! ## Ranges and alignment -/

theorem toNat_lt_of_bits {d : BitVec 32} (unset : ∀ k (lt : k < 32), 24 ≤ k → d[k] = false) :
    d.toNat < 2 ^ 24 := by
  refine Nat.lt_pow_two_of_testBit _ fun k ge => ?_
  by_cases lt : k < 32
  · rw [BitVec.testBit_toNat, BitVec.getLsbD_eq_getElem lt]
    exact unset k lt ge
  · exact Nat.testBit_lt_two_pow (d.isLt.trans_le (Nat.pow_le_pow_right (by decide) (by omega)))

theorem bits_of_toNat_lt {d : BitVec 32} (small : d.toNat < 2 ^ 24) {k : ℕ} (lt : k < 32)
    (ge : 24 ≤ k) : d[k] = false := by
  rw [← BitVec.getLsbD_eq_getElem, ← BitVec.testBit_toNat]
  exact Nat.testBit_lt_two_pow (small.trans_le (Nat.pow_le_pow_right (by decide) ge))

theorem signed_iff (d : BitVec 32) :
    (∀ k (lt : k < 32), 24 ≤ k → d[k] = d[24]) ↔ -16777216 ≤ d.toInt ∧ d.toInt < 16777216 := by
  have flipped : (~~~d).toNat = 2 ^ 32 - 1 - d.toNat := BitVec.toNat_not
  have inside := d.isLt
  constructor
  · intro same
    rw [BitVec.toInt_eq_toNat_cond]
    cases sign : d[24] with
    | false =>
        have := toNat_lt_of_bits fun k lt ge => (same k lt ge).trans sign
        split <;> omega
    | true =>
        have := @toNat_lt_of_bits (~~~d) fun k lt ge => by simp [same k lt ge, sign]
        split <;> omega
  · rintro ⟨least, most⟩ k lt ge
    rw [BitVec.toInt_eq_toNat_cond] at least most
    by_cases small : d.toNat < 2 ^ 24
    · rw [bits_of_toNat_lt small lt ge, bits_of_toNat_lt small (by decide) le_rfl]
    · have small : (~~~d).toNat < 2 ^ 24 := by split at least <;> omega
      have one := bits_of_toNat_lt small lt ge
      have other := bits_of_toNat_lt small (show 24 < 32 by decide) le_rfl
      simp only [BitVec.getElem_not, Bool.not_eq_false'] at one other
      rw [one, other]

theorem toNat_and_even (x : BitVec 32) : (x &&& 0xFFFFFFFE).toNat = x.toNat / 2 * 2 := by
  have shifts : x &&& (0xFFFFFFFE : BitVec 32) = (x >>> 1) <<< 1 := by
    apply BitVec.eq_of_getLsbD_eq
    intro k lt
    interval_cases k
    all_goals simp
  have inside := x.isLt
  rw [shifts, BitVec.toNat_shiftLeft, BitVec.toNat_ushiftRight, Nat.shiftRight_eq_div_pow,
    Nat.shiftLeft_eq, Nat.mod_eq_of_lt]
  all_goals omega

theorem toNat_scatteredDisplacement_even (instruction : BitVec 32) :
    (scatteredDisplacement instruction).toNat % 2 = 0 := by
  have low := @getLsbD_scatteredDisplacement instruction 0 (by decide)
  rw [sourceBit, if_pos rfl, ← BitVec.testBit_toNat, Nat.testBit_zero] at low
  simpa using low

theorem scatteredDisplacement_range (instruction : BitVec 32) :
    -16777216 ≤ (scatteredDisplacement instruction).toInt ∧
      (scatteredDisplacement instruction).toInt ≤ 16777214 := by
  have range := (signed_iff (scatteredDisplacement instruction)).mp fun k lt ge => by
    rw [getElem_scatteredDisplacement _ lt, getElem_scatteredDisplacement _ (by decide)]
    simp only [sourceBit, show k ≠ 0 by omega, show ¬k < 12 by omega, show ¬k < 22 by omega,
      show k ≠ 22 by omega, show k ≠ 23 by omega, if_false]
    rfl
  have even := toNat_scatteredDisplacement_even instruction
  have := (scatteredDisplacement instruction).isLt
  rw [BitVec.toInt_eq_toNat_cond] at range ⊢
  split at range <;> omega

/-! ## Targets -/

/-- A call: an instruction that may be turned into `bl` or `blx`. -/
def isThumbCall (instruction : BitVec 32) : Bool := isThumbBl instruction || isThumbBlx instruction

/-- A `b`, `bl` or `blx`. -/
def isThumbBranch (instruction : BitVec 32) : Bool := isThumbCall instruction || isThumbB instruction

/-- Where a branch at an address goes, without the thumb bit. -/
def branchTarget (instrAddr displacement : BitVec 32) : BitVec 32 :=
  (instrAddr + 4 + displacement) &&& 0xFFFFFFFE

/-- The instruction that is produced, if any, is of the right kind and goes to the target. -/
def ReachesTarget (instruction instrAddr displacement : BitVec 32) (targetIsThumb : Bool) : Prop :=
  ∀ new, setDisplacementInThumbBranch instruction instrAddr displacement targetIsThumb = .ok new →
    branchTarget instrAddr (getDisplacementFromThumbBranch new instrAddr) =
        branchTarget instrAddr displacement ∧
      isThumbBl new = (isThumbCall instruction && targetIsThumb) ∧
      isThumbBlx new = (isThumbCall instruction && !targetIsThumb) ∧
      isThumbB new = isThumbB instruction

/-- Writing the displacement that was read gives the same instruction. -/
def Reproduces (instruction instrAddr : BitVec 32) : Prop :=
  setDisplacementInThumbBranch instruction instrAddr
    (getDisplacementFromThumbBranch instruction instrAddr) (!isThumbBlx instruction) =
      .ok instruction

/-- The last displacement, moved past the end of the range when the pc of a `blx` is aligned. -/
def PastLast (instruction instrAddr displacement : BitVec 32) (targetIsThumb : Bool) : Prop :=
  isThumbCall instruction = true ∧ targetIsThumb = false ∧ instrAddr &&& 0x2 ≠ 0 ∧
    displacement = 16777214

/-- The `blx` with the first displacement, where the pc is aligned. -/
def BeforeFirst (instruction instrAddr : BitVec 32) : Prop :=
  instruction = 0xC000F400 ∧ instrAddr &&& 0x2 ≠ 0

theorem kinds_of_and {instruction kind : BitVec 32} (same : instruction &&& 0xD000F800 = kind) :
    isThumbBl instruction = (kind == 0xD000F000) ∧ isThumbBlx instruction = (kind == 0xC000F000) ∧
      isThumbB instruction = (kind == 0x9000F000) := by
  rw [isThumbBl, isThumbBlx, isThumbB, same]
  exact ⟨rfl, rfl, rfl⟩

theorem branchTarget_even {instrAddr : BitVec 32} (aligned : instrAddr.toNat % 2 = 0)
    (displacement : BitVec 32) :
    branchTarget instrAddr (displacement &&& 0xFFFFFFFE) = branchTarget instrAddr displacement := by
  have inside := displacement.isLt
  rw [← BitVec.toNat_inj, branchTarget, branchTarget, toNat_and_even, toNat_and_even]
  simp only [BitVec.toNat_add, toNat_and_even, show (4 : BitVec 32).toNat = 4 from rfl]
  omega

theorem getDisplacement_of_not_blx {instruction : BitVec 32} (other : isThumbBlx instruction = false)
    (instrAddr : BitVec 32) :
    getDisplacementFromThumbBranch instruction instrAddr = scatteredDisplacement instruction := by
  simp [getDisplacementFromThumbBranch, other]

theorem reaches_thumb {instrAddr displacement kind : BitVec 32} (aligned : instrAddr.toNat % 2 = 0)
    (pure : kind &&& 0xD000F800 = kind) (other : (kind == 0xC000F000) = false)
    (least : -16777216 ≤ displacement.toInt) (most : displacement.toInt ≤ 16777214) :
    branchTarget instrAddr
        (getDisplacementFromThumbBranch (kind ||| scatter displacement) instrAddr) =
      branchTarget instrAddr displacement := by
  obtain ⟨-, blx, -⟩ := kinds_of_and (or_scatter_and kind displacement pure)
  have signed := (signed_iff displacement).mpr ⟨least, by omega⟩
  rw [getDisplacement_of_not_blx (blx.trans other), scatteredDisplacement_or pure signed,
    branchTarget_even aligned]

theorem reaches_arm {instrAddr displacement biased : BitVec 32}
    (bias : biased = if instrAddr &&& 0x2 ≠ 0 then displacement + 2 else displacement)
    (even : biased.toNat % 2 = 0) (least : -16777216 ≤ biased.toInt)
    (most : biased.toInt < 16777216) :
    getDisplacementFromThumbBranch (0xC000F000 ||| scatter biased) instrAddr = displacement := by
  have pure : (0xC000F000 : BitVec 32) &&& 0xD000F800 = 0xC000F000 := by decide
  obtain ⟨-, blx, -⟩ := kinds_of_and (or_scatter_and 0xC000F000 biased pure)
  have whole : biased &&& 0xFFFFFFFE = biased := by
    rw [← BitVec.toNat_inj, toNat_and_even]
    omega
  have read := scatteredDisplacement_or pure ((signed_iff biased).mpr ⟨least, most⟩)
  have blx : isThumbBlx (0xC000F000 ||| scatter biased) = true := blx
  simp only [getDisplacementFromThumbBranch, blx, read, whole, true_and]
  by_cases low : instrAddr &&& 0x2 = 0
  · rw [if_neg (not_not.mpr low)] at bias ⊢
    exact bias
  · rw [if_pos low] at bias ⊢
    rw [bias, BitVec.add_sub_cancel]

theorem toInt_add_two {displacement : BitVec 32} (least : -16777216 ≤ displacement.toInt)
    (most : displacement.toInt ≤ 16777214) : (displacement + 2).toInt = displacement.toInt + 2 := by
  have inside := displacement.isLt
  rw [BitVec.toInt_eq_toNat_cond] at *
  rw [BitVec.toInt_eq_toNat_cond, BitVec.toNat_add, show (2 : BitVec 32).toNat = 2 from rfl]
  split at least <;> split <;> omega

theorem setDisplacement_call {instruction instrAddr displacement : BitVec 32} {targetIsThumb : Bool}
    (call : isThumbCall instruction = true) (least : -16777216 ≤ displacement.toInt)
    (most : displacement.toInt ≤ 16777214) :
    setDisplacementInThumbBranch instruction instrAddr displacement targetIsThumb =
      .ok (if targetIsThumb then 0xD000F000 ||| scatter displacement
        else 0xC000F000 |||
          scatter (if instrAddr &&& 0x2 ≠ 0 then displacement + 2 else displacement)) := by
  have called : (isThumbBl instruction || isThumbBlx instruction) = true := call
  rw [setDisplacementInThumbBranch, if_neg (by omega), if_pos called]
  cases targetIsThumb <;> rfl

theorem kinds_of_call {instruction : BitVec 32} (call : isThumbCall instruction = true) :
    isThumbB instruction = false := by
  rw [isThumbCall, Bool.or_eq_true] at call
  rcases call with bl | blx
  · exact (kinds_of_and (beq_iff_eq.mp bl)).2.2
  · exact (kinds_of_and (beq_iff_eq.mp blx)).2.2

theorem biased_inside {instrAddr displacement : BitVec 32} (aligned : instrAddr.toNat % 2 = 0)
    (target : (instrAddr + 4 + displacement).toNat % 4 = 0)
    (least : -16777216 ≤ displacement.toInt) (most : displacement.toInt ≤ 16777214)
    (inside : ¬(instrAddr &&& 0x2 ≠ 0 ∧ displacement = 16777214)) {biased : BitVec 32}
    (bias : biased = if instrAddr &&& 0x2 ≠ 0 then displacement + 2 else displacement) :
    biased.toNat % 2 = 0 ∧ -16777216 ≤ biased.toInt ∧ biased.toInt < 16777216 := by
  have small := displacement.isLt
  simp only [BitVec.toNat_add, show (4 : BitVec 32).toNat = 4 from rfl] at target
  by_cases low : instrAddr &&& 0x2 = 0
  · rw [if_neg (not_not.mpr low)] at bias
    subst bias
    omega
  · rw [if_pos low] at bias
    have last : displacement.toInt ≠ 16777214 := fun eq =>
      inside ⟨low, BitVec.eq_of_toInt_eq (eq.trans (by decide +kernel))⟩
    rw [bias, toInt_add_two least most, BitVec.toNat_add, show (2 : BitVec 32).toNat = 2 from rfl]
    omega

theorem branchTarget_ne (instrAddr : BitVec 32) {first last : BitVec 32}
    (before : first.toNat = 2 ^ 32 - 16777218) (after : last.toNat = 16777214) :
    branchTarget instrAddr first ≠ branchTarget instrAddr last := by
  have inside := instrAddr.isLt
  rw [ne_eq, ← BitVec.toNat_inj, branchTarget, branchTarget, toNat_and_even, toNat_and_even]
  simp only [BitVec.toNat_add, before, after]
  omega

theorem past_misses {instrAddr : BitVec 32} (high : instrAddr &&& 0x2 ≠ 0) :
    branchTarget instrAddr
        (getDisplacementFromThumbBranch (0xC000F000 ||| scatter (16777214 + 2)) instrAddr) ≠
      branchTarget instrAddr 16777214 := by
  have scattered : scatter (16777214 + 2) = 0x400 := by decide +kernel
  have blx : isThumbBlx (0xC000F000 ||| 0x400) = true := by decide +kernel
  rw [scattered, getDisplacementFromThumbBranch, if_pos ⟨blx, high⟩]
  exact branchTarget_ne instrAddr (by decide +kernel) (by decide +kernel)

theorem reachesTarget_call {instruction instrAddr displacement : BitVec 32} {targetIsThumb : Bool}
    (call : isThumbCall instruction = true) (aligned : instrAddr.toNat % 2 = 0)
    (target : targetIsThumb = false → (instrAddr + 4 + displacement).toNat % 4 = 0) :
    ReachesTarget instruction instrAddr displacement targetIsThumb ↔
      ¬PastLast instruction instrAddr displacement targetIsThumb := by
  by_cases inside : -16777216 ≤ displacement.toInt ∧ displacement.toInt ≤ 16777214
  · obtain ⟨least, most⟩ := inside
    have written := @setDisplacement_call _ instrAddr _ targetIsThumb call least most
    have plain := kinds_of_call call
    cases targetIsThumb with
    | true =>
        refine iff_of_true (fun new ran => ?_) fun past => Bool.noConfusion past.2.1
        obtain rfl := Except.ok.inj (written.symm.trans ran)
        have pure : (0xD000F000 : BitVec 32) &&& 0xD000F800 = 0xD000F000 := by decide
        obtain ⟨bl, blx, b⟩ := kinds_of_and (or_scatter_and 0xD000F000 displacement pure)
        rw [call, plain, if_pos rfl, bl, blx, b]
        exact ⟨reaches_thumb aligned pure rfl least most, rfl, rfl, rfl⟩
    | false =>
        generalize bias : (if instrAddr &&& 0x2 ≠ 0 then displacement + 2 else displacement) = biased
          at written
        have pure : (0xC000F000 : BitVec 32) &&& 0xD000F800 = 0xC000F000 := by decide
        obtain ⟨bl, blx, b⟩ := kinds_of_and (or_scatter_and 0xC000F000 biased pure)
        by_cases past : instrAddr &&& 0x2 ≠ 0 ∧ displacement = 16777214
        · refine iff_of_false (fun reaches => ?_) (not_not.mpr ⟨call, rfl, past⟩)
          obtain ⟨high, rfl⟩ := past
          rw [if_pos high] at bias
          subst bias
          rw [if_neg Bool.false_ne_true] at written
          exact past_misses high (reaches _ written).1
        · refine iff_of_true (fun new ran => ?_) fun wrong => past wrong.2.2
          obtain rfl := Except.ok.inj (written.symm.trans ran)
          obtain ⟨even, least', most'⟩ :=
            biased_inside aligned (target rfl) least most past bias.symm
          rw [call, plain, if_neg Bool.false_ne_true, bl, blx, b,
            reaches_arm bias.symm even least' most']
          exact ⟨rfl, rfl, rfl, rfl⟩
  · refine iff_of_true (fun new ran => ?_) ?_
    · rw [setDisplacementInThumbBranch, if_pos (by omega)] at ran
      cases ran
    · rintro ⟨-, -, -, rfl⟩
      exact inside (by decide)

theorem reachesTarget_b {instruction instrAddr displacement : BitVec 32} {targetIsThumb : Bool}
    (call : isThumbCall instruction = false) (plain : isThumbB instruction = true)
    (aligned : instrAddr.toNat % 2 = 0) :
    ReachesTarget instruction instrAddr displacement targetIsThumb := by
  intro new
  rw [setDisplacementInThumbBranch]
  split
  next =>
    intro error
    cases error
  next inside =>
    obtain ⟨most, least⟩ := not_or.mp inside
    have kind : instruction &&& 0xD000F800 = 0x9000F000 := beq_iff_eq.mp plain
    rw [show (isThumbBl instruction || isThumbBlx instruction) = false from call, plain, kind]
    cases targetIsThumb with
    | false =>
        intro error
        cases error
    | true =>
        intro written
        obtain rfl := Except.ok.inj written
        have pure : (0x9000F000 : BitVec 32) &&& 0xD000F800 = 0x9000F000 := by decide
        obtain ⟨bl, blx, b⟩ := kinds_of_and (or_scatter_and 0x9000F000 displacement pure)
        rw [call, bl, blx, b]
        exact ⟨reaches_thumb aligned pure rfl (by omega) (by omega), rfl, rfl, rfl⟩

theorem kind_or_scatter {instruction kind : BitVec 32} (same : instruction &&& 0xD000F800 = kind) :
    kind ||| scatter (scatteredDisplacement instruction) = instruction := by
  rw [scatter_scatteredDisplacement, ← same, ← BitVec.and_or_distrib_left]
  exact BitVec.and_allOnes

theorem scatteredDisplacement_first {instruction : BitVec 32}
    (blx : instruction &&& 0xD000F800 = 0xC000F000) :
    (scatteredDisplacement instruction).toInt = -16777216 ↔ instruction = 0xC000F400 := by
  constructor
  · intro first
    have value : scatteredDisplacement instruction = 0xFF000000 :=
      BitVec.eq_of_toInt_eq (first.trans (by decide +kernel))
    rw [← kind_or_scatter blx, value]
    decide +kernel
  · rintro rfl
    decide +kernel

theorem reproduces_blx {instruction instrAddr : BitVec 32}
    (blx : isThumbBlx instruction = true) :
    Reproduces instruction instrAddr ↔ ¬BeforeFirst instruction instrAddr := by
  have kind := beq_iff_eq.mp blx
  have call : isThumbCall instruction = true := by rw [isThumbCall, blx, Bool.or_true]
  have back := kind_or_scatter kind
  obtain ⟨least, most⟩ := scatteredDisplacement_range instruction
  have even := toNat_scatteredDisplacement_even instruction
  have first := scatteredDisplacement_first kind
  rw [Reproduces, BeforeFirst, ← first, blx]
  simp only [getDisplacementFromThumbBranch, blx, true_and]
  generalize scatteredDisplacement instruction = read at *
  by_cases low : instrAddr &&& 0x2 = 0
  · rw [if_neg (not_not.mpr low), Bool.not_true, setDisplacement_call call least most,
      if_neg Bool.false_ne_true, if_neg (not_not.mpr low), back]
    exact iff_of_true rfl fun wrong => wrong.2 low
  · have inside := read.isLt
    rw [if_pos low, Bool.not_true]
    by_cases start : read.toInt = -16777216
    · refine iff_of_false (fun same => ?_) (not_not.mpr ⟨start, low⟩)
      rw [BitVec.eq_of_toInt_eq (start.trans (show _ = (0xFF000000 : BitVec 32).toInt by decide +kernel)),
        setDisplacementInThumbBranch, if_pos (.inr (by decide +kernel))] at same
      cases same
    · have biased : (read - 2).toInt = read.toInt - 2 := by
        rw [BitVec.toInt_eq_toNat_cond] at *
        rw [BitVec.toInt_eq_toNat_cond, BitVec.toNat_sub, show (2 : BitVec 32).toNat = 2 from rfl]
        split at least <;> split <;> omega
      have parity : read.toInt % 2 = 0 := by
        rw [BitVec.toInt_eq_toNat_cond]
        split <;> omega
      rw [setDisplacement_call call (by omega) (by omega), if_neg Bool.false_ne_true, if_pos low,
        BitVec.sub_add_cancel, back]
      exact iff_of_true rfl fun wrong => start wrong.1

theorem reproduces_iff {instruction instrAddr : BitVec 32}
    (branch : isThumbBranch instruction = true) :
    Reproduces instruction instrAddr ↔ ¬BeforeFirst instruction instrAddr := by
  obtain ⟨least, most⟩ := scatteredDisplacement_range instruction
  cases blx : isThumbBlx instruction with
  | true => exact reproduces_blx blx
  | false =>
      have other : ¬BeforeFirst instruction instrAddr := fun first => by
        rw [first.1] at blx
        exact absurd blx (by decide +kernel)
      refine iff_of_true ?_ other
      rw [Reproduces, blx, getDisplacement_of_not_blx blx]
      cases bl : isThumbBl instruction with
      | true =>
          have call : isThumbCall instruction = true := by rw [isThumbCall, bl, Bool.true_or]
          rw [setDisplacement_call call least most, Bool.not_false, if_pos rfl,
            kind_or_scatter (beq_iff_eq.mp bl)]
      | false =>
          have plain : isThumbB instruction = true := by
            rwa [isThumbBranch, isThumbCall, bl, blx, Bool.false_or] at branch
          rw [setDisplacementInThumbBranch, if_neg (by omega), bl, blx, plain,
            kind_or_scatter rfl]
          rfl

/--
A branch that is written goes to its target, except for the `blx` whose displacement leaves the
range when its pc is aligned; and a branch that is read is written back as it was, except for the
`blx` that starts the range.
-/
theorem thumbBranch_iff (instruction instrAddr : BitVec 32)
    (branch : isThumbBranch instruction = true) (aligned : instrAddr.toNat % 2 = 0) :
    (∀ displacement targetIsThumb,
      (targetIsThumb = false → (instrAddr + 4 + displacement).toNat % 4 = 0) →
        (ReachesTarget instruction instrAddr displacement targetIsThumb ↔
          ¬PastLast instruction instrAddr displacement targetIsThumb)) ∧
    (Reproduces instruction instrAddr ↔ ¬BeforeFirst instruction instrAddr) := by
  refine ⟨fun displacement targetIsThumb target => ?_, reproduces_iff branch⟩
  cases call : isThumbCall instruction with
  | true => exact reachesTarget_call call aligned target
  | false =>
      have plain : isThumbB instruction = true := by
        rwa [isThumbBranch, call, Bool.false_or] at branch
      exact iff_of_true (reachesTarget_b call plain aligned) fun past =>
        Bool.false_ne_true (call.symm.trans past.1)

theorem thumbBranch_iff_bl :
    (∀ displacement targetIsThumb,
      (targetIsThumb = false → ((0x1000 : BitVec 32) + 4 + displacement).toNat % 4 = 0) →
        (ReachesTarget 0xF800F000 0x1000 displacement targetIsThumb ↔
          ¬PastLast 0xF800F000 0x1000 displacement targetIsThumb)) ∧
    (Reproduces 0xF800F000 0x1000 ↔ ¬BeforeFirst 0xF800F000 0x1000) :=
  thumbBranch_iff 0xF800F000 0x1000 (by decide +kernel) (by decide +kernel)

/-- The farthest ARM target ahead of a call at an odd multiple of two is missed by 32 MB. -/
theorem not_reachesTarget_past :
    isThumbBranch 0xF800F000 = true ∧ (0x1002 : BitVec 32).toNat % 2 = 0 ∧
      ((0x1002 : BitVec 32) + 4 + 16777214).toNat % 4 = 0 ∧
      ¬ReachesTarget 0xF800F000 0x1002 16777214 false := by
  refine ⟨by decide +kernel, by decide +kernel, by decide +kernel, fun reaches => ?_⟩
  have call : isThumbCall 0xF800F000 = true := by decide +kernel
  have target : ((0x1002 : BitVec 32) + 4 + 16777214).toNat % 4 = 0 := by decide +kernel
  exact (reachesTarget_call call (by decide +kernel) fun _ => target).mp reaches
    ⟨call, rfl, by decide +kernel, rfl⟩

end ObjcDyld.SharedCache
