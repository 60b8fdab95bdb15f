import ObjcDyld.SplitSeg.Adjust

/-!
# References to new addresses

What the words at a reference refer to when they are decoded, and what the
adjustment of a single word makes of it: it refers to the new address of its
target unless one of the checks lets a distance pass that the word cannot hold,
or the adjustment is skipped.
-/

namespace ObjcDyld.SplitSeg

open ByteMemory Loops

/-! ## Decoding -/

/--
What a reference refers to from an address of an image; for `adrp` and the
offsets in a page, the page of the target and its offset in the page.
-/
def RefersTo (kind : Kind) (memory : Memory) (mappedAddr : ℕ)
    (address imageStart target : BitVec 64) : Prop :=
  match kind with
  | .pointer32 => (get32 memory mappedAddr).setWidth 64 = target
  | .pointer64 => get64 memory mappedAddr = target
  | .delta32 => address + (get32 memory mappedAddr).signExtend 64 = target
  | .delta64 => address + get64 memory mappedAddr = target
  | .imageOff32 => imageStart + (get32 memory mappedAddr).setWidth 64 = target
  | .arm64Adrp =>
      isAdrp (get32 memory mappedAddr) ∧
        page address + (page21 (get32 memory mappedAddr)).signExtend 64 <<< 12 = page target
  | .arm64Off12 => ∃ scale, off12Scale (get32 memory mappedAddr) = some scale ∧
      addend12 (get32 memory mappedAddr) * scale = target.toNat % 4096
  | _ => False

/-- What a pair of instructions refers to, relative to an anchor; addresses have 32 bits then. -/
def PairRefersTo (instructions : MovInstructions) (memory : Memory) (mappedAddr1 mappedAddr2 : ℕ)
    (anchor target : BitVec 64) : Prop :=
  ∃ full, instructions.full (get32 memory mappedAddr1) (get32 memory mappedAddr2) = some full ∧
    (anchor.setWidth 32 + full).setWidth 64 = target

/-- The bits of an instruction that are not part of its immediate. -/
def Kind.kept : Kind → BitVec 32
  | arm64Adrp => 0x9F00001F
  | arm64Off12 => 0xFFC003FF
  | armMovwMovt => MovInstructions.arm.kept
  | thumbMovwMovt => MovInstructions.thumb.kept
  | _ => 0

/-- The bytes of a reference; calls to stubs are not touched. -/
def Kind.size : Kind → ℕ
  | pointer64 | delta64 | threadedPointer64 => 8
  | arm64Br26 | armBr24 | thumbBr22 => 0
  | _ => 4

namespace Reference

variable (reference : Reference)

def fromOrigAddress : BitVec 64 := reference.fromNewAddress - reference.fromSlide

def toOrigAddress : BitVec 64 := reference.toNewAddress - reference.targetSlide

def footprint : Set ℕ :=
  Set.Ico reference.mappedAddr (reference.mappedAddr + reference.kind.size)

/-- The distance from a reference to its target, in pages. -/
def pageDistance : ℤ := (page reference.toNewAddress - page reference.fromNewAddress).toInt / 4096

/--
When the adjusted word is the right one, if no error is reported: the address,
the distance or the offset fits into the word, an image offset is not skipped
although the mach_header has another slide, and pages stay pages.
-/
def Fits (imageStart headerSlide : BitVec 64) : Prop :=
  match reference.kind with
  | .pointer32 => reference.toNewAddress.toNat < 2 ^ 32
  | .delta32 =>
      (reference.toNewAddress - reference.fromNewAddress).toInt ≠ 2 ^ 31 ∧
        (reference.toNewAddress - reference.fromNewAddress).toInt ≠ -2 ^ 63
  | .imageOff32 =>
      if reference.adjust = 0 then reference.targetSlide = headerSlide
      else (reference.toNewAddress - imageStart).toNat < 2 ^ 32
  | .arm64Adrp => -2 ^ 20 ≤ reference.pageDistance ∧ reference.pageDistance < 2 ^ 20
  | .arm64Off12 => reference.fromSlide.toNat % 4096 = 0
  | .thumbMovwMovt | .armMovwMovt => reference.toNewAddress.toNat < 2 ^ 32
  | _ => True

instance (imageStart headerSlide : BitVec 64) : Decidable (reference.Fits imageStart headerSlide) := by
  unfold Fits
  split <;> infer_instance

end Reference

/-! ## Words -/

theorem signExtend_setWidth_iff (value : BitVec 64) :
    (value.setWidth 32).signExtend 64 = value ↔ -2 ^ 31 ≤ value.toInt ∧ value.toInt < 2 ^ 31 := by
  rw [← BitVec.toInt_inj, BitVec.toInt_signExtend_of_le (by decide), BitVec.toInt_setWidth]
  have small := value.isLt
  rw [BitVec.toInt_eq_toNat_cond]
  simp only [Int.bmod]
  omega

theorem setWidth_setWidth_iff (value : BitVec 64) :
    (value.setWidth 32).setWidth 64 = value ↔ value.toNat < 2 ^ 32 := by
  rw [← BitVec.toNat_inj, BitVec.toNat_setWidth, BitVec.toNat_setWidth]
  have small := value.isLt
  omega

section Words

variable {reference : Reference} {value32 value32' : BitVec 32}

theorem adjustDelta32_refers
    (before : reference.fromOrigAddress + value32.signExtend 64 = reference.toOrigAddress)
    (run : adjustDelta32 value32 reference.adjust = .ok value32') :
    reference.fromNewAddress + value32'.signExtend 64 = reference.toNewAddress ↔
      (reference.toNewAddress - reference.fromNewAddress).toInt ≠ 2 ^ 31 ∧
        (reference.toNewAddress - reference.fromNewAddress).toInt ≠ -2 ^ 63 := by
  have delta : value32.signExtend 64 + reference.adjust =
      reference.toNewAddress - reference.fromNewAddress := by
    rw [Reference.fromOrigAddress, Reference.toOrigAddress] at before
    rw [Reference.adjust]
    generalize value32.signExtend 64 = value at before ⊢
    bv_omega
  simp only [adjustDelta32, delta] at run
  split at run
  · cases run
  · rename_i close
    obtain rfl := Except.ok.inj run
    have value (distance : BitVec 64) : reference.fromNewAddress + distance = reference.toNewAddress ↔
        distance = reference.toNewAddress - reference.fromNewAddress := by
      rw [eq_sub_iff_add_eq, add_comm]
    rw [value, signExtend_setWidth_iff]
    generalize reference.toNewAddress - reference.fromNewAddress = distance at close ⊢
    rw [BitVec.toInt_neg] at close
    have below := BitVec.toInt_lt (x := distance)
    have above := BitVec.le_toInt (x := distance)
    simp only [Int.bmod] at close
    omega

theorem adjustImageOff32_refers {imageStart imageEnd headerSlide : BitVec 64}
    (before : imageStart - headerSlide + value32.setWidth 64 = reference.toOrigAddress)
    (run : adjustImageOff32 value32 reference.toNewAddress reference.adjust imageStart imageEnd =
      .ok value32') :
    imageStart + value32'.setWidth 64 = reference.toNewAddress ↔
      if reference.adjust = 0 then reference.targetSlide = headerSlide
      else (reference.toNewAddress - imageStart).toNat < 2 ^ 32 := by
  simp only [adjustImageOff32] at run
  by_cases skipped : reference.adjust = 0
  · rw [if_pos skipped] at run ⊢
    obtain rfl := Except.ok.inj run
    rw [Reference.toOrigAddress] at before
    generalize value32.setWidth 64 = value at before ⊢
    bv_omega
  · rw [if_neg skipped] at run ⊢
    split at run
    · cases run
    · obtain rfl := Except.ok.inj run
      rw [← setWidth_setWidth_iff, eq_sub_iff_add_eq, add_comm]

theorem page_toNat (address : BitVec 64) :
    (page address).toNat = address.toNat / 4096 * 4096 := by
  have shifted : page address = (address >>> 12) <<< 12 := by
    apply BitVec.eq_of_getLsbD_eq
    intro bit lt
    simp only [page, BitVec.getLsbD_and, BitVec.getLsbD_not, BitVec.getLsbD_shiftLeft,
      BitVec.getLsbD_ushiftRight]
    interval_cases bit <;> simp
  have small := address.isLt
  rw [shifted, BitVec.toNat_shiftLeft, BitVec.toNat_ushiftRight, Nat.shiftRight_eq_div_pow,
    Nat.shiftLeft_eq]
  omega

theorem page_sub_page (a b : BitVec 64) : (page a - page b).toInt % 4096 = 0 := by
  have fromPage := page_toNat b
  have toPage := page_toNat a
  have smallA := (page a).isLt
  have smallB := (page b).isLt
  have value := BitVec.toNat_sub (page a) (page b)
  rw [BitVec.toInt_eq_toNat_cond]
  omega

theorem signExtend_page21_iff {distance : BitVec 64} (pages : distance.toInt % 4096 = 0) :
    ((distance.sshiftRight 12).setWidth 21).signExtend 64 <<< 12 = distance ↔
      -2 ^ 20 ≤ distance.toInt / 4096 ∧ distance.toInt / 4096 < 2 ^ 20 := by
  have below := BitVec.toInt_lt (x := distance)
  have above := BitVec.le_toInt (x := distance)
  have shifted : (distance.sshiftRight 12).toInt = distance.toInt / 4096 := by
    rw [BitVec.toInt_sshiftRight, Int.shiftRight_eq_div_pow]
    rfl
  rw [← BitVec.toInt_inj, BitVec.toInt_shiftLeft, Nat.shiftLeft_eq]
  have extended : (((distance.sshiftRight 12).setWidth 21).signExtend 64).toInt =
      Int.bmod (distance.toInt / 4096) (2 ^ 21) := by
    rw [BitVec.toInt_signExtend_of_le (by decide), BitVec.toInt_setWidth, ← shifted,
      BitVec.toInt_eq_toNat_bmod]
    simp only [Int.bmod]
    omega
  have natCast := BitVec.toInt_eq_toNat_bmod
    (((distance.sshiftRight 12).setWidth 21).signExtend 64)
  rw [extended] at natCast
  generalize (((distance.sshiftRight 12).setWidth 21).signExtend 64).toNat = value at natCast ⊢
  generalize distance.toInt = int at *
  simp only [Int.bmod] at natCast ⊢
  omega

theorem adjustAdrp_refers (isAdrp : isAdrp value32)
    (run : adjustAdrp value32 reference.fromNewAddress reference.toNewAddress = .ok value32') :
    page reference.fromNewAddress + (page21 value32').signExtend 64 <<< 12 =
        page reference.toNewAddress ↔
      -2 ^ 20 ≤ reference.pageDistance ∧ reference.pageDistance < 2 ^ 20 := by
  simp only [adjustAdrp, if_pos isAdrp] at run
  split at run
  · cases run
  · obtain rfl := Except.ok.inj run
    rw [page21_setPage21, Reference.pageDistance]
    rw [← signExtend_page21_iff (page_sub_page _ _), eq_sub_iff_add_eq, add_comm]

theorem adjustAdrp_kept {fromNewAddress toNewAddress : BitVec 64}
    (run : adjustAdrp value32 fromNewAddress toNewAddress = .ok value32') :
    value32' &&& 0x9F00001F = value32 &&& 0x9F00001F := by
  simp only [adjustAdrp] at run
  split at run
  · split at run
    · cases run
    · obtain rfl := Except.ok.inj run
      exact setPage21_kept _ _
  · obtain rfl := Except.ok.inj run
    rfl

theorem accessSize_cases (instruction : BitVec 32) :
    accessSize instruction = 16 ∨ accessSize instruction = 1 ∨ accessSize instruction = 2 ∨
      accessSize instruction = 4 ∨ accessSize instruction = 8 := by
  unfold accessSize
  split_ifs <;> simp

theorem scaledAddend_ok {instruction : BitVec 32} {encodedAddend offsetAdjust mappedAddr addend : ℕ}
    (run : scaledAddend (accessSize instruction) encodedAddend offsetAdjust mappedAddr =
      .ok addend) :
    addend < 4096 ∧ addend * accessSize instruction =
      (encodedAddend * accessSize instruction + offsetAdjust) % 4096 := by
  rw [scaledAddend] at run
  split at run
  · cases run
  · rename_i aligned
    split at run
    · cases run
    · rename_i inPage
      obtain rfl := Except.ok.inj run
      rcases accessSize_cases instruction with scale | scale | scale | scale | scale <;>
        · rw [scale] at aligned inPage ⊢
          omega

theorem adjustOff12_ok {adjust fromNewAddress : BitVec 64} {mappedAddr : ℕ}
    (run : adjustOff12 value32 adjust fromNewAddress mappedAddr = .ok value32') :
    value32' &&& 0xFFC003FF = value32 &&& 0xFFC003FF ∧ off12Scale value32' = off12Scale value32 ∧
      ∀ scale, off12Scale value32 = some scale → addend12 value32 * scale < 4096 →
        addend12 value32' * scale = (addend12 value32 * scale + adjust.toNat) % 4096 := by
  have masked : (adjust &&& 0xFFF).toNat = adjust.toNat % 4096 := by
    rw [BitVec.toNat_and]
    exact Nat.and_two_pow_sub_one_eq_mod adjust.toNat 12
  simp only [adjustOff12, masked] at run
  by_cases same : adjust.toNat % 4096 = 0
  · rw [if_pos same] at run
    obtain rfl := Except.ok.inj run
    refine ⟨rfl, rfl, fun scale _ inPage => ?_⟩
    omega
  · rw [if_neg same] at run
    by_cases access : isLoadStore12 value32
    · rw [if_pos access] at run
      obtain ⟨addend, scaled, run⟩ := bind_eq_ok run
      obtain rfl := Except.ok.inj run
      obtain ⟨lt, moved⟩ := scaledAddend_ok scaled
      refine ⟨setAddend12_kept _ lt, off12Scale_setAddend12 _ lt, fun scale known _ => ?_⟩
      rw [off12Scale, if_pos access] at known
      obtain rfl := Option.some.inj known
      rw [addend12_setAddend12 _ lt, moved]
      omega
    · rw [if_neg access] at run
      by_cases add : isAdd12 value32
      · rw [if_pos add] at run
        split at run
        · cases run
        · obtain rfl := Except.ok.inj run
          have lt : (addend12 value32 + adjust.toNat % 4096) % 4096 < 4096 :=
            Nat.mod_lt _ (by decide)
          refine ⟨setAddend12_kept _ lt, off12Scale_setAddend12 _ lt, fun scale known _ => ?_⟩
          rw [off12Scale, if_neg access, if_pos add] at known
          obtain rfl := Option.some.inj known
          rw [addend12_setAddend12 _ lt]
          omega
      · rw [if_neg add] at run
        have noScale : off12Scale value32 = none := by
          rw [off12Scale, if_neg access, if_neg add]
        split at run
        · cases run
        · obtain rfl := Except.ok.inj run
          refine ⟨rfl, rfl, fun scale known _ => ?_⟩
          rw [noScale] at known
          cases known

theorem adjustOff12_refers {mappedAddr scale : ℕ} (known : off12Scale value32 = some scale)
    (before : addend12 value32 * scale = reference.toOrigAddress.toNat % 4096)
    (run : adjustOff12 value32 reference.adjust reference.fromNewAddress mappedAddr =
      .ok value32') :
    (∃ scale, off12Scale value32' = some scale ∧
        addend12 value32' * scale = reference.toNewAddress.toNat % 4096) ↔
      reference.fromSlide.toNat % 4096 = 0 := by
  obtain ⟨-, sameScale, moved⟩ := adjustOff12_ok run
  have small : addend12 value32 * scale < 4096 := by
    rw [before]
    exact Nat.mod_lt _ (by decide)
  have offset := moved scale known small
  have only : (∃ scale, off12Scale value32' = some scale ∧
      addend12 value32' * scale = reference.toNewAddress.toNat % 4096) ↔
        addend12 value32' * scale = reference.toNewAddress.toNat % 4096 := by
    rw [sameScale, known]
    simp
  have targetValue := BitVec.toNat_sub reference.toNewAddress reference.targetSlide
  have adjustValue := BitVec.toNat_sub reference.targetSlide reference.fromSlide
  have fromSmall := reference.fromSlide.isLt
  have targetSmall := reference.targetSlide.isLt
  rw [Reference.toOrigAddress] at before
  rw [Reference.adjust] at offset
  rw [only, offset]
  omega

theorem setWidth_sub (a b : BitVec 64) :
    (a - b).setWidth 32 = a.setWidth 32 - b.setWidth 32 := by
  apply BitVec.eq_of_toNat_eq
  rw [BitVec.toNat_setWidth, BitVec.toNat_sub, BitVec.toNat_sub, BitVec.toNat_setWidth,
    BitVec.toNat_setWidth]
  have smallA := a.isLt
  have smallB := b.isLt
  omega

theorem adjustMovwMovt_refers {instructions : MovInstructions}
    {instruction1 instruction2 anchor full : BitVec 32} {adjusted : BitVec 32 × BitVec 32}
    (paired : instructions.full instruction1 instruction2 = some full) {fromSlide : BitVec 32}
    (before : (anchor - fromSlide + full).setWidth 64 = reference.toOrigAddress)
    (slide : fromSlide = reference.fromSlide.setWidth 32)
    (run : adjustMovwMovt instructions instruction1 instruction2 reference.adjust = .ok adjusted) :
    (∃ full, instructions.full adjusted.1 adjusted.2 = some full ∧
        (anchor + full).setWidth 64 = reference.toNewAddress) ↔
      reference.toNewAddress.toNat < 2 ^ 32 := by
  simp only [adjustMovwMovt, paired] at run
  obtain rfl := Except.ok.inj run
  have value : anchor + (full + reference.adjust.setWidth 32) = reference.toNewAddress.setWidth 32 := by
    have low := congrArg (BitVec.setWidth 32) before
    rw [BitVec.setWidth_setWidth_of_le _ (by decide), BitVec.setWidth_eq, Reference.toOrigAddress,
      setWidth_sub, slide] at low
    rw [Reference.adjust, setWidth_sub, sub_eq_iff_eq_add.mp low.symm]
    abel
  have only : (∃ value, instructions.full
      (instructions.setFull instruction1 instruction2 (full + reference.adjust.setWidth 32)).1
      (instructions.setFull instruction1 instruction2 (full + reference.adjust.setWidth 32)).2 =
        some value ∧ (anchor + value).setWidth 64 = reference.toNewAddress) ↔
      (anchor + (full + reference.adjust.setWidth 32)).setWidth 64 = reference.toNewAddress := by
    rw [MovInstructions.full_setFull _ _ _ paired]
    simp
  rw [only, value, setWidth_setWidth_iff]

theorem adjustMovwMovt_kept {instructions : MovInstructions} {instruction1 instruction2 : BitVec 32}
    {adjust : BitVec 64} {adjusted : BitVec 32 × BitVec 32}
    (run : adjustMovwMovt instructions instruction1 instruction2 adjust = .ok adjusted) :
    adjusted.1 &&& instructions.kept = instruction1 &&& instructions.kept ∧
      adjusted.2 &&& instructions.kept = instruction2 &&& instructions.kept := by
  rw [adjustMovwMovt] at run
  split at run
  · cases run
  · obtain rfl := Except.ok.inj run
    exact instructions.setFull_kept _ _ _

end Words

end ObjcDyld.SplitSeg
