import ObjcDyld.Common.ByteStreams

/-!
# Numbers of seven-bit groups

`MachOFile::read_uleb128` and `MachOFile::read_sleb128`, and `append_uleb128`, `uleb128_size` and `parse_uleb128` of the
tries, on the bytes from the read pointer up to the end of a stream.
-/

namespace ObjcDyld.MachO

open ByteStreams

/-- The loop of `read_uleb128`; `none` is an error. -/
def readUleb128From (bit : ℕ) (result : BitVec 64) : Bytes → Option (BitVec 64 × Bytes)
  | [] => none
  | byte :: rest =>
      if bit > 63 then none
      else
        let result := result ||| (byte &&& 0x7F).setWidth 64 <<< bit
        if byte &&& 0x80 = 0 then some (result, rest) else readUleb128From (bit + 7) result rest

/-- `MachOFile::read_uleb128`: the number and the stream after it. -/
def readUleb128 (stream : Bytes) : Option (BitVec 64 × Bytes) := readUleb128From 0 0 stream

/-- The loop of `read_sleb128`. -/
def readSleb128From (bit : ℕ) (result : BitVec 64) : Bytes → Option (BitVec 64 × Bytes)
  | [] => none
  | byte :: rest =>
      let result := result ||| (byte &&& 0x7F).setWidth 64 <<< bit
      if byte &&& 0x80 = 0 then
        -- sign extend negative numbers
        some (if byte &&& 0x40 ≠ 0 then result ||| BitVec.allOnes 64 <<< (bit + 7) else result, rest)
      else readSleb128From (bit + 7) result rest

/-- `MachOFile::read_sleb128`. -/
def readSleb128 (stream : Bytes) : Option (BitVec 64 × Bytes) := readSleb128From 0 0 stream

/-! ## Shifts by the width of a word -/

/-- What a machine makes of a shift by 64 bits or more, which the language leaves undefined. -/
abbrev WideShift := BitVec 64 → ℕ → BitVec 64

/-- A shift to the left. -/
def shl (wide : WideShift) (value : BitVec 64) (bit : ℕ) : BitVec 64 := if bit < 64 then value <<< bit else wide value bit

/-- The loop of `read_sleb128` on a machine. -/
def readSleb128OnFrom (wide : WideShift) (bit : ℕ) (result : BitVec 64) : Bytes → Option (BitVec 64 × Bytes)
  | [] => none
  | byte :: rest =>
      let result := result ||| shl wide ((byte &&& 0x7F).setWidth 64) bit
      if byte &&& 0x80 = 0 then
        -- sign extend negative numbers
        some (if byte &&& 0x40 ≠ 0 then result ||| shl wide (BitVec.allOnes 64) (bit + 7) else result, rest)
      else readSleb128OnFrom wide (bit + 7) result rest

/-- `MachOFile::read_sleb128` on a machine. -/
def readSleb128On (wide : WideShift) (stream : Bytes) : Option (BitVec 64 × Bytes) := readSleb128OnFrom wide 0 0 stream

theorem shl_zero (value : BitVec 64) (bit : ℕ) : shl (fun _ _ => 0) value bit = value <<< bit := by
  rw [shl]
  split
  · rfl
  · next wide => exact (BitVec.shiftLeft_eq_zero (not_lt.1 wide)).symm

theorem readSleb128OnFrom_zero (bit : ℕ) (result : BitVec 64) (stream : Bytes) :
    readSleb128OnFrom (fun _ _ => 0) bit result stream = readSleb128From bit result stream := by
  induction stream generalizing bit result with
  | nil => rfl
  | cons byte rest ih =>
      rw [readSleb128OnFrom, readSleb128From, shl_zero, shl_zero, ih]

/-! ## Writing and parsing -/

theorem continues_lt {value : BitVec 64} (more : value &&& ~~~0x7F ≠ 0) : ((value &&& ~~~0x7F) >>> 7).toNat < value.toNat := by
  have positive : 0 < value.toNat := Nat.pos_of_ne_zero fun zero => more (by
    rw [BitVec.eq_of_toNat_eq (y := 0#64) zero]
    rfl)
  have le : (value &&& ~~~0x7F).toNat ≤ value.toNat := by
    rw [BitVec.toNat_and]
    exact Nat.and_le_left
  rw [BitVec.toNat_ushiftRight, Nat.shiftRight_eq_div_pow]
  omega

/-- `append_uleb128`; a byte of `0x80` or more is followed by others. -/
def appendUleb128 (value : BitVec 64) : Bytes :=
  let byte := (value &&& 0x7F).setWidth 8
  if _ : value &&& ~~~0x7F ≠ 0 then (byte ||| 0x80) :: appendUleb128 ((value &&& ~~~0x7F) >>> 7) else [byte]
termination_by value.toNat
decreasing_by exact continues_lt ‹_›

def uleb128Size (value : BitVec 64) : ℕ :=
  if _ : value >>> 7 ≠ 0 then uleb128Size (value >>> 7) + 1 else 1
termination_by value.toNat
decreasing_by
  rename_i more
  have positive : 0 < value.toNat := Nat.pos_of_ne_zero fun zero => more (by
    rw [BitVec.eq_of_toNat_eq (y := 0#64) zero]
    rfl)
  rw [BitVec.toNat_ushiftRight, Nat.shiftRight_eq_div_pow]
  omega

/-- The loop of `parse_uleb128`; `none` stands for `false`. -/
def parseUleb128From (bit : ℕ) (result : BitVec 64) : Bytes → Option (BitVec 64 × Bytes)
  | [] => none
  | byte :: rest =>
      let slice := (byte &&& 0x7F).setWidth 64
      if bit ≥ 64 ∨ slice <<< bit >>> bit ≠ slice then none
      else
        let result := result ||| slice <<< bit
        if byte &&& 0x80 = 0 then some (result, rest) else parseUleb128From (bit + 7) result rest

/-- `parse_uleb128`: the number and the stream after it. -/
def parseUleb128 (stream : Bytes) : Option (BitVec 64 × Bytes) := parseUleb128From 0 0 stream

section Groups

variable {value result : BitVec 64} {bit : ℕ} {stream rest : Bytes} {read : BitVec 64 × Bytes}

theorem at_start (value : BitVec 64) : (0 : BitVec 64) ||| value <<< 0 = value := BitVec.zero_or.trans (BitVec.shiftLeft_zero value)

theorem getLsbD_low (i : ℕ) : (0x7F : BitVec 64).getLsbD i = decide (i < 7) := by
  change (BitVec.ofNat 64 (2 ^ 7 - 1)).getLsbD i = _
  rw [BitVec.getLsbD_ofNat, Nat.testBit_two_pow_sub_one]
  by_cases low : i < 7
  · simp [low]
    omega
  · simp [low]

theorem high_eq (value : BitVec 64) : (value &&& ~~~0x7F) >>> 7 = value >>> 7 := by
  apply BitVec.eq_of_getLsbD_eq
  intro i bound
  rw [BitVec.getLsbD_ushiftRight, BitVec.getLsbD_ushiftRight, BitVec.getLsbD_and, BitVec.getLsbD_not, getLsbD_low]
  by_cases inside : 7 + i < 64
  · simp [inside]
  · rw [BitVec.getLsbD_of_ge value _ (not_lt.1 inside), Bool.false_and]

theorem high_shifted (value : BitVec 64) : (value >>> 7) <<< 7 = value &&& ~~~0x7F := by
  apply BitVec.eq_of_getLsbD_eq
  intro i bound
  rw [BitVec.getLsbD_shiftLeft, BitVec.getLsbD_ushiftRight, BitVec.getLsbD_and, BitVec.getLsbD_not, getLsbD_low]
  by_cases low : i < 7
  · simp [low]
  · rw [Nat.add_sub_cancel' (not_lt.1 low)]
    simp [bound, low]

theorem high_eq_zero_iff (value : BitVec 64) : value &&& ~~~0x7F = 0 ↔ value >>> 7 = 0 := by
  constructor
  · intro none_left
    rw [← high_eq, none_left]
    rfl
  · intro none_left
    rw [← high_shifted, none_left]
    rfl

theorem low_or_high (value : BitVec 64) : value &&& 0x7F ||| value &&& ~~~0x7F = value := by
  rw [← BitVec.and_or_distrib_left, BitVec.or_not_self, BitVec.and_allOnes]

theorem groups_or (value : BitVec 64) (bit : ℕ) :
    (value &&& 0x7F) <<< bit ||| (value >>> 7) <<< (bit + 7) = value <<< bit := by
  rw [Nat.add_comm bit 7, BitVec.shiftLeft_add, high_shifted, ← BitVec.shiftLeft_or_distrib, low_or_high]

theorem toNat_shifted (value : BitVec 64) : (value >>> 7).toNat = value.toNat / 2 ^ 7 := by
  rw [BitVec.toNat_ushiftRight, Nat.shiftRight_eq_div_pow]

theorem toNat_low (value : BitVec 64) : (value &&& 0x7F).toNat = value.toNat % 2 ^ 7 := by
  rw [BitVec.toNat_and]
  exact Nat.and_two_pow_sub_one_eq_mod value.toNat 7

theorem appendUleb128_of_last (last : value >>> 7 = 0) : appendUleb128 value = [(value &&& 0x7F).setWidth 8] := by
  rw [appendUleb128, dif_neg (not_not.2 ((high_eq_zero_iff value).2 last))]

theorem appendUleb128_of_more (more : value >>> 7 ≠ 0) :
    appendUleb128 value = ((value &&& 0x7F).setWidth 8 ||| 0x80) :: appendUleb128 (value >>> 7) := by
  rw [appendUleb128, dif_pos (mt (high_eq_zero_iff value).1 more), high_eq]

theorem getLsbD_low_byte (i : ℕ) : (0x7F : BitVec 8).getLsbD i = decide (i < 7) := by
  rcases Nat.lt_or_ge i 8 with small | large
  · interval_cases i <;> rfl
  · rw [BitVec.getLsbD_of_ge _ _ large]
    exact (decide_eq_false (by omega)).symm

theorem widened_group (value : BitVec 64) : (value.setWidth 8 &&& 0x7F).setWidth 64 = value &&& 0x7F := by
  apply BitVec.eq_of_getLsbD_eq
  intro i bound
  rw [BitVec.getLsbD_setWidth, BitVec.getLsbD_and, BitVec.getLsbD_and, BitVec.getLsbD_setWidth, getLsbD_low_byte,
    getLsbD_low]
  by_cases small : i < 7
  · simp [small, bound, Nat.lt_succ_of_lt small]
  · simp [small]

theorem last_byte (value : BitVec 64) : (value &&& 0x7F).setWidth 8 &&& 0x80 = (0 : BitVec 8) ∧
    (((value &&& 0x7F).setWidth 8 : BitVec 8) &&& 0x7F).setWidth 64 = value &&& 0x7F := by
  have ends : ∀ byte : BitVec 8, byte &&& 0x7F &&& 0x80 = 0 ∧ byte &&& 0x7F &&& 0x7F = byte &&& 0x7F := by
    decide +kernel
  rw [BitVec.setWidth_and, show (0x7F : BitVec 64).setWidth 8 = 0x7F from rfl]
  exact ⟨(ends _).1, (congrArg (BitVec.setWidth 64) (ends _).2).trans (widened_group value)⟩

theorem other_byte (value : BitVec 64) : ((value &&& 0x7F).setWidth 8 ||| 0x80) &&& 0x80 ≠ (0 : BitVec 8) ∧
    (((value &&& 0x7F).setWidth 8 ||| 0x80 : BitVec 8) &&& 0x7F).setWidth 64 = value &&& 0x7F := by
  have continues : ∀ byte : BitVec 8, (byte &&& 0x7F ||| 0x80) &&& 0x80 ≠ 0 ∧
      (byte &&& 0x7F ||| 0x80) &&& 0x7F = byte &&& 0x7F := by
    decide +kernel
  rw [BitVec.setWidth_and, show (0x7F : BitVec 64).setWidth 8 = 0x7F from rfl]
  exact ⟨(continues _).1, (congrArg (BitVec.setWidth 64) (continues _).2).trans (widened_group value)⟩

theorem length_appendUleb128 (value : BitVec 64) : (appendUleb128 value).length = uleb128Size value := by
  induction value using uleb128Size.induct with
  | case1 value more ih =>
      rw [appendUleb128_of_more more, uleb128Size, dif_pos more, List.length_cons, ih]
  | case2 value last =>
      rw [appendUleb128_of_last (not_not.1 last), uleb128Size, dif_neg last]
      rfl

theorem slice_fits (fits : value.toNat * 2 ^ bit < 2 ^ 64) : value <<< bit >>> bit = value := by
  apply BitVec.eq_of_toNat_eq
  rw [BitVec.toNat_ushiftRight, BitVec.toNat_shiftLeft, Nat.shiftLeft_eq, Nat.shiftRight_eq_div_pow,
    Nat.mod_eq_of_lt fits, Nat.mul_div_cancel _ (Nat.two_pow_pos bit)]

theorem parseUleb128From_append (fits : value.toNat * 2 ^ bit < 2 ^ 64) (inside : bit < 64) :
    parseUleb128From bit result (appendUleb128 value ++ rest) = some (result ||| value <<< bit, rest) := by
  induction value using uleb128Size.induct generalizing bit result with
  | case1 value more ih =>
      have slice : (value &&& 0x7F).toNat * 2 ^ bit < 2 ^ 64 := by
        refine lt_of_le_of_lt (Nat.mul_le_mul_right _ ?_) fits
        rw [toNat_low]
        exact Nat.mod_le _ _
      have positive : 0 < value.toNat / 2 ^ 7 := Nat.pos_of_ne_zero fun zero => more (BitVec.eq_of_toNat_eq
        ((toNat_shifted value).trans zero))
      have later : value.toNat / 2 ^ 7 * 2 ^ (bit + 7) < 2 ^ 64 := by
        refine lt_of_le_of_lt ?_ fits
        rw [Nat.add_comm bit 7, Nat.pow_add, ← Nat.mul_assoc]
        exact Nat.mul_le_mul_right _ (Nat.div_mul_le_self _ _)
      have next : bit + 7 < 64 := by
        by_contra beyond
        have large : 2 ^ 64 ≤ 2 ^ (bit + 7) := Nat.pow_le_pow_right (by decide) (not_lt.1 beyond)
        exact absurd (large.trans (Nat.le_mul_of_pos_left _ positive)) (not_le.2 later)
      obtain ⟨continues, group⟩ := other_byte value
      rw [appendUleb128_of_more more, List.cons_append, parseUleb128From, group]
      dsimp only
      rw [if_neg (not_or.2 ⟨not_le.2 inside, not_not.2 (slice_fits slice)⟩), if_neg continues,
        ih (by rw [toNat_shifted]; exact later) next, BitVec.or_assoc, groups_or]
  | case2 value last =>
      have only_group : value &&& 0x7F = value := by
        have whole := low_or_high value
        rw [(high_eq_zero_iff value).2 (not_not.1 last)] at whole
        exact (BitVec.or_zero).symm.trans whole
      obtain ⟨ends, group⟩ := last_byte value
      rw [appendUleb128_of_last (not_not.1 last), List.singleton_append, parseUleb128From, group, only_group]
      dsimp only
      rw [only_group] at ends
      rw [if_neg (not_or.2 ⟨not_le.2 inside, not_not.2 (slice_fits fits)⟩), if_pos ends]

theorem readUleb128From_of_parse (parsed : parseUleb128From bit result stream = some read) :
    readUleb128From bit result stream = some read := by
  induction stream generalizing bit result with
  | nil => cases parsed
  | cons byte stream ih =>
      rw [parseUleb128From] at parsed
      dsimp only at parsed
      split at parsed
      · cases parsed
      · next fits =>
          rw [not_or, not_le] at fits
          rw [readUleb128From, if_neg (not_lt.2 (Nat.le_of_lt_succ fits.1))]
          dsimp only
          split at parsed
          · next ends =>
              rw [if_pos ends]
              exact parsed
          · next continues =>
              rw [if_neg continues]
              exact ih parsed

end Groups

/-! ## When readers and writers agree -/

/-- The bytes of the number at the front of a stream, up to the first that is not followed by another, and the stream
after it. -/
def encodingOf : Bytes → Option (Bytes × Bytes)
  | [] => none
  | byte :: rest =>
      if byte &&& 0x80 = 0 then some ([byte], rest)
      else (encodingOf rest).map fun (bytes, rest) => (byte :: bytes, rest)

/-- The number that some bytes stand for, with the sign in the second bit of the last one. -/
def signedValue : Bytes → ℤ
  | [] => 0
  | [byte] => (byte &&& 0x7F).toNat - if byte &&& 0x40 ≠ 0 then 128 else 0
  | byte :: bytes => (byte &&& 0x7F).toNat + 128 * signedValue bytes

/-- The signed number at the front of a stream, when there is one and it fits in 64 bits. -/
def signedNumber (stream : Bytes) : Option (BitVec 64 × Bytes) :=
  (encodingOf stream).bind fun (bytes, rest) =>
    if -2 ^ 63 ≤ signedValue bytes ∧ signedValue bytes < 2 ^ 63 then some (BitVec.ofInt 64 (signedValue bytes), rest) else none

/-- The readers agree with the writer and with each other on a stream. -/
structure Agree (stream : Bytes) : Prop where
  written : ∀ value rest, stream = appendUleb128 value ++ rest → (appendUleb128 value).length = uleb128Size value ∧
    parseUleb128 stream = some (value, rest) ∧ readUleb128 stream = some (value, rest)
  unsigned : readUleb128 stream = parseUleb128 stream
  signed : ∀ wide, readSleb128On wide stream = signedNumber stream

/-- The number at the front of a stream does not use bits of a tenth byte that are shifted out, and is not signed in a
tenth byte. -/
structure Fits (stream : Bytes) : Prop where
  unsigned : ∀ bytes rest, encodingOf stream = some (bytes, rest) → bytes.length = 10 →
    ∀ last ∈ bytes.getLast?, last.toNat < 2
  signed : ∀ bytes rest, encodingOf stream = some (bytes, rest) →
    bytes.length ≤ 9 ∨ bytes.length = 10 ∧ bytes.getLast? = some 0 ∨ signedValue bytes = -1

section Readers

variable {stream bytes rest : Bytes} {byte : BitVec 8} {result : BitVec 64} {bit k : ℕ}

theorem encodingOf_cons_of_ends (ends : byte &&& 0x80 = 0) : encodingOf (byte :: stream) = some ([byte], stream) := by
  rw [encodingOf, if_pos ends]

theorem encodingOf_cons_of_continues (continues : byte &&& 0x80 ≠ 0) :
    encodingOf (byte :: stream) = some (bytes, rest) ↔
      ∃ others, encodingOf stream = some (others, rest) ∧ bytes = byte :: others := by
  rw [encodingOf, if_neg continues, Option.map_eq_some_iff]
  constructor
  · rintro ⟨⟨others, rest'⟩, found, same⟩
    obtain ⟨rfl, rfl⟩ := Prod.mk.inj same
    exact ⟨others, found, rfl⟩
  · rintro ⟨others, found, rfl⟩
    exact ⟨(others, rest), found, rfl⟩

theorem encodingOf_ne_nil (found : encodingOf stream = some (bytes, rest)) : bytes ≠ [] := by
  cases stream with
  | nil => cases found
  | cons byte stream =>
      by_cases ends : byte &&& 0x80 = 0
      · rw [encodingOf_cons_of_ends ends] at found
        exact (Prod.mk.inj (Option.some.inj found)).1 ▸ List.cons_ne_nil _ _
      · obtain ⟨others, _, rfl⟩ := (encodingOf_cons_of_continues ends).1 found
        exact List.cons_ne_nil _ _

theorem last_behind (found : encodingOf stream = some (bytes, rest)) (byte : BitVec 8) :
    (byte :: bytes).getLast? = bytes.getLast? := by
  obtain ⟨first, others, rfl⟩ := List.exists_cons_of_ne_nil (encodingOf_ne_nil found)
  exact List.getLast?_cons_cons

theorem readUleb128From_beyond (beyond : 63 < bit) : readUleb128From bit result stream = none := by
  cases stream with
  | nil => rfl
  | cons byte stream => rw [readUleb128From, if_pos beyond]

theorem parseUleb128From_beyond (beyond : 63 < bit) : parseUleb128From bit result stream = none := by
  cases stream with
  | nil => rfl
  | cons byte stream => rw [parseUleb128From, if_pos (Or.inl (Nat.succ_le_of_lt beyond))]

theorem toNat_group (byte : BitVec 8) : ((byte &&& 0x7F).setWidth 64).toNat = byte.toNat % 2 ^ 7 := by
  rw [BitVec.toNat_setWidth_of_le (by decide), BitVec.toNat_and]
  exact Nat.and_two_pow_sub_one_eq_mod byte.toNat 7

theorem slice_kept (bound : bit ≤ 56) : ((byte &&& 0x7F).setWidth 64 : BitVec 64) <<< bit >>> bit = (byte &&& 0x7F).setWidth 64 := by
  apply slice_fits
  rw [toNat_group]
  have group : byte.toNat % 2 ^ 7 ≤ 127 := Nat.le_of_lt_succ (Nat.mod_lt _ (by decide))
  have place : 2 ^ bit ≤ 2 ^ 56 := Nat.pow_le_pow_right (by decide) bound
  calc byte.toNat % 2 ^ 7 * 2 ^ bit ≤ 127 * 2 ^ 56 := Nat.mul_le_mul group place
    _ < 2 ^ 64 := by decide

theorem tenth_kept_iff (ends : byte &&& 0x80 = 0) :
    ((byte &&& 0x7F).setWidth 64 : BitVec 64) <<< 63 >>> 63 = (byte &&& 0x7F).setWidth 64 ↔ byte.toNat < 2 := by
  have all : ∀ byte : BitVec 8, byte &&& 0x80 = 0 →
      (((byte &&& 0x7F).setWidth 64 : BitVec 64) <<< 63 >>> 63 = (byte &&& 0x7F).setWidth 64 ↔ byte.toNat < 2) := by
    decide +kernel
  exact all byte ends

theorem readUleb128From_eq_parse_iff (bound : k ≤ 9) :
    readUleb128From (7 * k) result stream = parseUleb128From (7 * k) result stream ↔
      ∀ bytes rest, encodingOf stream = some (bytes, rest) → k + bytes.length = 10 →
        ∀ last ∈ bytes.getLast?, last.toNat < 2 := by
  induction stream generalizing k result with
  | nil => exact iff_of_true rfl fun bytes rest found => by cases found
  | cons byte stream ih =>
      have inside : ¬ 7 * k > 63 := by omega
      rcases Nat.lt_or_eq_of_le bound with less | rfl
      · -- no bits of an earlier byte are shifted out
        have parse : ¬ (7 * k ≥ 64 ∨ ((byte &&& 0x7F).setWidth 64 : BitVec 64) <<< (7 * k) >>> (7 * k) ≠
            (byte &&& 0x7F).setWidth 64) := not_or.2 ⟨by omega, not_not.2 (slice_kept (by omega))⟩
        rw [readUleb128From, if_neg inside, parseUleb128From, if_neg parse]
        dsimp only
        by_cases ends : byte &&& 0x80 = 0
        · rw [if_pos ends, if_pos ends, encodingOf_cons_of_ends ends]
          refine iff_of_true rfl fun bytes rest found count => ?_
          obtain ⟨rfl, rfl⟩ := Prod.mk.inj (Option.some.inj found)
          rw [List.length_singleton] at count
          omega
        · rw [if_neg ends, if_neg ends, show 7 * k + 7 = 7 * (k + 1) from rfl, ih less]
          constructor
          · intro kept bytes rest found count
            obtain ⟨others, behind, rfl⟩ := (encodingOf_cons_of_continues ends).1 found
            rw [last_behind behind]
            rw [List.length_cons] at count
            exact kept others rest behind (by omega)
          · intro kept bytes rest found count
            have last := kept (byte :: bytes) rest ((encodingOf_cons_of_continues ends).2 ⟨bytes, found, rfl⟩)
              (by rw [List.length_cons]; omega)
            rw [last_behind found] at last
            exact last
      · rw [readUleb128From, if_neg inside, parseUleb128From]
        dsimp only
        by_cases ends : byte &&& 0x80 = 0
        · rw [if_pos ends, if_pos ends, encodingOf_cons_of_ends ends]
          have tenth := tenth_kept_iff ends
          constructor
          · intro same bytes rest found _ last isLast
            obtain ⟨rfl, rfl⟩ := Prod.mk.inj (Option.some.inj found)
            obtain rfl : byte = last := Option.some.inj isLast
            by_contra large
            rw [if_pos (Or.inr (mt tenth.1 large))] at same
            cases same
          · intro kept
            have small := kept [byte] stream rfl rfl byte rfl
            rw [if_neg (not_or.2 ⟨by decide, not_not.2 (tenth.2 small)⟩)]
        · rw [if_neg ends, if_neg ends, readUleb128From_beyond (by decide), parseUleb128From_beyond (by decide), ite_self]
          refine iff_of_true rfl fun bytes rest found count => ?_
          obtain ⟨others, behind, rfl⟩ := (encodingOf_cons_of_continues ends).1 found
          have positive := List.length_pos_iff.2 (encodingOf_ne_nil behind)
          rw [List.length_cons] at count
          omega

theorem signedValue_cons (nonempty : bytes ≠ []) :
    signedValue (byte :: bytes) = (byte &&& 0x7F).toNat + 128 * signedValue bytes := by
  obtain ⟨first, others, rfl⟩ := List.exists_cons_of_ne_nil nonempty
  rfl

theorem group_lt (byte : BitVec 8) : (byte &&& 0x7F).toNat < 128 := by
  rw [BitVec.toNat_and]
  exact Nat.lt_succ_of_le Nat.and_le_right

theorem last_number (byte : BitVec 8) :
    (if byte &&& 0x40 ≠ 0 then (byte &&& 0x7F).setWidth 64 ||| BitVec.allOnes 64 <<< 7 else (byte &&& 0x7F).setWidth 64) =
      BitVec.ofInt 64 (signedValue [byte]) := by
  have all : ∀ byte : BitVec 8,
      (if byte &&& 0x40 ≠ 0 then (byte &&& 0x7F).setWidth 64 ||| BitVec.allOnes 64 <<< 7 else (byte &&& 0x7F).setWidth 64) =
        BitVec.ofInt 64 ((byte &&& 0x7F).toNat - if byte &&& 0x40 ≠ 0 then 128 else 0) := by
    decide +kernel
  exact all byte

theorem other_number (byte : BitVec 8) (number : ℤ) :
    (byte &&& 0x7F).setWidth 64 ||| BitVec.ofInt 64 number <<< 7 = BitVec.ofInt 64 ((byte &&& 0x7F).toNat + 128 * number) := by
  have apart : ((byte &&& 0x7F).setWidth 64 : BitVec 64) &&& BitVec.ofInt 64 number <<< 7 = 0 := by
    apply BitVec.eq_of_getLsbD_eq
    intro i bound
    rw [BitVec.getLsbD_and, BitVec.getLsbD_shiftLeft, BitVec.getLsbD_setWidth, BitVec.getLsbD_and, getLsbD_low_byte]
    by_cases low : i < 7
    · simp [low]
    · simp [low]
  have scale : BitVec.twoPow 64 7 = BitVec.ofInt 64 128 := rfl
  rw [← BitVec.add_eq_or_of_and_eq_zero _ _ apart, BitVec.ofInt_add, BitVec.ofInt_mul, BitVec.shiftLeft_eq_mul_twoPow,
    BitVec.ofInt_natCast, BitVec.ofNat_toNat, scale, BitVec.mul_comm]

variable {wide : WideShift}

theorem shl_of_lt (small : bit < 64) (value : BitVec 64) : shl wide value bit = value <<< bit := if_pos small

theorem readSleb128OnFrom_of_ends (ends : byte &&& 0x80 = 0) : readSleb128OnFrom wide bit result (byte :: stream) =
    some (if byte &&& 0x40 ≠ 0 then
      result ||| shl wide ((byte &&& 0x7F).setWidth 64) bit ||| shl wide (BitVec.allOnes 64) (bit + 7)
      else result ||| shl wide ((byte &&& 0x7F).setWidth 64) bit, stream) := by
  rw [readSleb128OnFrom, if_pos ends]

theorem readSleb128OnFrom_of_continues (continues : byte &&& 0x80 ≠ 0) :
    readSleb128OnFrom wide bit result (byte :: stream) =
      readSleb128OnFrom wide (bit + 7) (result ||| shl wide ((byte &&& 0x7F).setWidth 64) bit) stream := by
  rw [readSleb128OnFrom, if_neg continues]

theorem readSleb128OnFrom_short (found : encodingOf stream = some (bytes, rest))
    (short : k + bytes.length ≤ 9 ∨ k + bytes.length = 10 ∧ bytes.getLast? = some 0) :
    readSleb128OnFrom wide (7 * k) result stream =
      some (result ||| BitVec.ofInt 64 (signedValue bytes) <<< (7 * k), rest) := by
  induction stream generalizing k result bytes with
  | nil => cases found
  | cons byte stream ih =>
      by_cases ends : byte &&& 0x80 = 0
      · rw [encodingOf_cons_of_ends ends] at found
        obtain ⟨rfl, rfl⟩ := Prod.mk.inj (Option.some.inj found)
        rw [List.length_singleton] at short
        rw [readSleb128OnFrom_of_ends ends, shl_of_lt (by omega), ← last_number]
        rcases short with nine | ⟨ten, zero⟩
        · rw [shl_of_lt (by omega)]
          by_cases sign : byte &&& 0x40 ≠ 0
          · rw [if_pos sign, if_pos sign, BitVec.or_assoc, Nat.add_comm (7 * k) 7, BitVec.shiftLeft_add,
              BitVec.shiftLeft_or_distrib]
          · rw [if_neg sign, if_neg sign]
        · obtain rfl : byte = 0 := Option.some.inj zero
          rfl
      · obtain ⟨others, behind, rfl⟩ := (encodingOf_cons_of_continues ends).1 found
        rw [last_behind behind, List.length_cons] at short
        have positive := List.length_pos_iff.2 (encodingOf_ne_nil behind)
        rw [readSleb128OnFrom_of_continues ends, show 7 * k + 7 = 7 * (k + 1) from rfl,
          ih behind (by rw [Nat.add_right_comm]; exact short), shl_of_lt (by omega), signedValue_cons (encodingOf_ne_nil behind),
          ← other_number, BitVec.or_assoc, show 7 * (k + 1) = 7 + 7 * k by omega, BitVec.shiftLeft_add,
          BitVec.shiftLeft_or_distrib]

theorem ones_shifted (bit : ℕ) :
    (127 : BitVec 64) <<< bit ||| BitVec.allOnes 64 <<< (bit + 7) = BitVec.allOnes 64 <<< bit := by
  have whole : (127 : BitVec 64) ||| BitVec.allOnes 64 <<< 7 = BitVec.allOnes 64 := by decide +kernel
  rw [Nat.add_comm bit 7, BitVec.shiftLeft_add, ← BitVec.shiftLeft_or_distrib, whole]

theorem eq_allOnes_of_beyond (ones : result ||| BitVec.allOnes 64 <<< bit = BitVec.allOnes 64) (beyond : 64 ≤ bit) :
    result = BitVec.allOnes 64 := by
  rw [BitVec.shiftLeft_eq_zero beyond] at ones
  exact BitVec.or_zero.symm.trans ones

theorem ones_or_shl (wide : WideShift) (ones : result ||| BitVec.allOnes 64 <<< bit = BitVec.allOnes 64) :
    result ||| shl wide 127 bit ||| BitVec.allOnes 64 <<< (bit + 7) = BitVec.allOnes 64 := by
  rcases Nat.lt_or_ge bit 64 with small | beyond
  · rw [shl_of_lt small, BitVec.or_assoc, ones_shifted, ones]
  · rw [eq_allOnes_of_beyond ones beyond, BitVec.allOnes_or, BitVec.allOnes_or]

theorem ones_or_sign (wide : WideShift) (ones : result ||| BitVec.allOnes 64 <<< bit = BitVec.allOnes 64) :
    result ||| shl wide (BitVec.allOnes 64) bit = BitVec.allOnes 64 := by
  rcases Nat.lt_or_ge bit 64 with small | beyond
  · rw [shl_of_lt small, ones]
  · rw [eq_allOnes_of_beyond ones beyond, BitVec.allOnes_or]

theorem readSleb128OnFrom_negOne (found : encodingOf stream = some (bytes, rest)) (negOne : signedValue bytes = -1)
    (ones : result ||| BitVec.allOnes 64 <<< bit = BitVec.allOnes 64) :
    readSleb128OnFrom wide bit result stream = some (BitVec.allOnes 64, rest) := by
  induction stream generalizing bit result bytes with
  | nil => cases found
  | cons byte stream ih =>
      have group := group_lt byte
      have ofGroup : (byte &&& 0x7F).toNat = 127 → (byte &&& 0x7F).setWidth 64 = (127 : BitVec 64) := by
        intro full
        rw [← BitVec.ofNat_toNat, full]
        rfl
      by_cases ends : byte &&& 0x80 = 0
      · rw [encodingOf_cons_of_ends ends] at found
        obtain ⟨rfl, rfl⟩ := Prod.mk.inj (Option.some.inj found)
        rw [signedValue] at negOne
        by_cases sign : byte &&& 0x40 ≠ 0
        · rw [if_pos sign] at negOne
          rw [readSleb128OnFrom_of_ends ends, if_pos sign, ofGroup (by omega), ones_or_sign wide (ones_or_shl wide ones)]
        · rw [if_neg sign] at negOne
          omega
      · obtain ⟨others, behind, rfl⟩ := (encodingOf_cons_of_continues ends).1 found
        rw [signedValue_cons (encodingOf_ne_nil behind)] at negOne
        rw [readSleb128OnFrom_of_continues ends, ofGroup (by omega)]
        exact ih behind (by omega) (ones_or_shl wide ones)

/-- A number whose sign or whose groups are shifted by 64 bits or more. -/
def ShiftsWide (k : ℕ) (bytes : Bytes) : Prop :=
  10 < k + bytes.length ∨ k + bytes.length = 10 ∧ ∃ last ∈ bytes.getLast?, last &&& 0x40 ≠ 0

/-- The machine that makes ones of a shift by 64 bits or more. -/
def onesMachine : WideShift := fun _ _ => BitVec.allOnes 64

theorem readSleb128OnFrom_onesMachine (found : encodingOf stream = some (bytes, rest)) (wide : ShiftsWide k bytes) :
    readSleb128OnFrom onesMachine (7 * k) result stream = some (BitVec.allOnes 64, rest) := by
  induction stream generalizing k result bytes with
  | nil => cases found
  | cons byte stream ih =>
      have beyond : ∀ {bit}, 64 ≤ bit → ∀ value, shl onesMachine value bit = BitVec.allOnes 64 :=
        fun large _ => if_neg (not_lt.2 large)
      by_cases ends : byte &&& 0x80 = 0
      · rw [encodingOf_cons_of_ends ends] at found
        obtain ⟨rfl, rfl⟩ := Prod.mk.inj (Option.some.inj found)
        rw [readSleb128OnFrom_of_ends ends]
        rw [ShiftsWide, List.length_singleton] at wide
        rcases wide with large | ⟨ten, last, isLast, sign⟩
        · rw [beyond (by omega), beyond (by omega), BitVec.or_allOnes, BitVec.or_allOnes, ite_self]
        · obtain rfl : byte = last := Option.some.inj isLast
          rw [if_pos sign, beyond (by omega) (BitVec.allOnes 64), BitVec.or_allOnes]
      · obtain ⟨others, behind, rfl⟩ := (encodingOf_cons_of_continues ends).1 found
        rw [ShiftsWide, last_behind behind, List.length_cons, ← Nat.add_assoc, Nat.add_right_comm] at wide
        rw [readSleb128OnFrom_of_continues ends]
        exact ih behind wide

theorem readSleb128OnFrom_isSome (found : encodingOf stream = some (bytes, rest)) :
    ∃ value, readSleb128OnFrom wide bit result stream = some (value, rest) := by
  induction stream generalizing bit result bytes with
  | nil => cases found
  | cons byte stream ih =>
      by_cases ends : byte &&& 0x80 = 0
      · rw [encodingOf_cons_of_ends ends] at found
        obtain ⟨rfl, rfl⟩ := Prod.mk.inj (Option.some.inj found)
        exact ⟨_, readSleb128OnFrom_of_ends ends⟩
      · obtain ⟨others, behind, rfl⟩ := (encodingOf_cons_of_continues ends).1 found
        rw [readSleb128OnFrom_of_continues ends]
        exact ih behind

theorem readSleb128OnFrom_none (truncated : encodingOf stream = none) : readSleb128OnFrom wide bit result stream = none := by
  induction stream generalizing bit result with
  | nil => rfl
  | cons byte stream ih =>
      by_cases ends : byte &&& 0x80 = 0
      · rw [encodingOf_cons_of_ends ends] at truncated
        cases truncated
      · rw [encodingOf, if_neg ends, Option.map_eq_none_iff] at truncated
        rw [readSleb128OnFrom_of_continues ends]
        exact ih truncated

theorem signedValue_bounds (found : encodingOf stream = some (bytes, rest)) :
    -(64 * 128 ^ (bytes.length - 1)) ≤ signedValue bytes ∧ signedValue bytes < 64 * 128 ^ (bytes.length - 1) := by
  induction stream generalizing bytes with
  | nil => cases found
  | cons byte stream ih =>
      have group := group_lt byte
      by_cases ends : byte &&& 0x80 = 0
      · rw [encodingOf_cons_of_ends ends] at found
        obtain ⟨rfl, rfl⟩ := Prod.mk.inj (Option.some.inj found)
        have all : ∀ byte : BitVec 8, -64 ≤ signedValue [byte] ∧ signedValue [byte] < 64 := by
          have table : ∀ byte : BitVec 8, -64 ≤ ((byte &&& 0x7F).toNat - if byte &&& 0x40 ≠ 0 then 128 else 0 : ℤ) ∧
              ((byte &&& 0x7F).toNat - if byte &&& 0x40 ≠ 0 then 128 else 0 : ℤ) < 64 := by
            decide +kernel
          exact table
        exact all byte
      · obtain ⟨others, behind, rfl⟩ := (encodingOf_cons_of_continues ends).1 found
        have nonempty := encodingOf_ne_nil behind
        obtain ⟨count, length⟩ := Nat.exists_eq_succ_of_ne_zero (List.length_pos_iff.2 nonempty).ne'
        obtain ⟨low, high⟩ := ih behind
        rw [signedValue_cons nonempty, List.length_cons, length]
        rw [length] at low high
        simp only [Nat.succ_eq_add_one, Nat.add_sub_cancel] at low high ⊢
        rw [pow_succ]
        omega

theorem signedValue_unsigned (found : encodingOf stream = some (bytes, rest)) {last : BitVec 8}
    (isLast : bytes.getLast? = some last) (unsigned : last &&& 0x40 = 0) :
    0 ≤ signedValue bytes ∧ (last = 0 → signedValue bytes < 128 ^ (bytes.length - 1)) ∧
      (last ≠ 0 → 128 ^ (bytes.length - 1) ≤ signedValue bytes) := by
  induction stream generalizing bytes with
  | nil => cases found
  | cons byte stream ih =>
      have group := group_lt byte
      by_cases ends : byte &&& 0x80 = 0
      · rw [encodingOf_cons_of_ends ends] at found
        obtain ⟨rfl, rfl⟩ := Prod.mk.inj (Option.some.inj found)
        obtain rfl : byte = last := Option.some.inj isLast
        have all : ∀ byte : BitVec 8, byte &&& 0x80 = 0 → byte ≠ 0 → 1 ≤ (byte &&& 0x7F).toNat := by
          decide +kernel
        rw [signedValue, if_neg (not_not.2 unsigned), List.length_singleton]
        refine ⟨by omega, ?_, fun positive => ?_⟩
        · rintro rfl
          decide
        · have least := all byte ends positive
          simp only [Nat.sub_self, pow_zero]
          omega
      · obtain ⟨others, behind, rfl⟩ := (encodingOf_cons_of_continues ends).1 found
        rw [last_behind behind] at isLast
        have nonempty := encodingOf_ne_nil behind
        obtain ⟨count, length⟩ := Nat.exists_eq_succ_of_ne_zero (List.length_pos_iff.2 nonempty).ne'
        obtain ⟨nonneg, small, large⟩ := ih behind isLast
        rw [signedValue_cons nonempty, List.length_cons, length]
        rw [length] at small large
        simp only [Nat.succ_eq_add_one, Nat.add_sub_cancel] at small large ⊢
        rw [pow_succ]
        refine ⟨by omega, fun zero => ?_, fun positive => ?_⟩
        · have := small zero
          omega
        · have := large positive
          omega

theorem eq_negOne_of_ones {number : ℤ} (low : -2 ^ 63 ≤ number) (high : number < 2 ^ 63)
    (ones : BitVec.ofInt 64 number = BitVec.allOnes 64) : number = -1 := by
  have value := congrArg BitVec.toInt ones
  rw [BitVec.toInt_ofInt, Int.bmod_eq_of_le (by omega) (by omega)] at value
  exact value

/-- The signed reader is right on every machine exactly when no bits of the number are shifted out of a word, unless it
is -1. -/
theorem readSleb128On_eq_iff : (∀ wide, readSleb128On wide stream = signedNumber stream) ↔
    ∀ bytes rest, encodingOf stream = some (bytes, rest) →
      bytes.length ≤ 9 ∨ bytes.length = 10 ∧ bytes.getLast? = some 0 ∨ signedValue bytes = -1 := by
  cases found : encodingOf stream with
  | none =>
      refine iff_of_true (fun wide => ?_) fun bytes rest some_found => absurd some_found.symm (Option.some_ne_none _)
      rw [readSleb128On, readSleb128OnFrom_none found, signedNumber, found]
      rfl
  | some encoding =>
      obtain ⟨bytes, rest⟩ := encoding
      have number : signedNumber stream = if -2 ^ 63 ≤ signedValue bytes ∧ signedValue bytes < 2 ^ 63 then
          some (BitVec.ofInt 64 (signedValue bytes), rest) else none := by
        rw [signedNumber, found]
        rfl
      have fitting : -2 ^ 63 ≤ signedValue bytes → signedValue bytes < 2 ^ 63 →
          signedNumber stream = some (BitVec.ofInt 64 (signedValue bytes), rest) :=
        fun low high => number.trans (if_pos ⟨low, high⟩)
      constructor
      · intro right bytes' rest' same
        obtain ⟨rfl, rfl⟩ := Prod.mk.inj (Option.some.inj same)
        by_contra unfit
        rw [not_or, not_or, not_le] at unfit
        obtain ⟨long, notZero, notNegOne⟩ := unfit
        -- the number fits, since it is read without an error
        have fits : -2 ^ 63 ≤ signedValue bytes ∧ signedValue bytes < 2 ^ 63 := by
          by_contra beyond
          obtain ⟨value, reads⟩ : ∃ value, readSleb128On onesMachine stream = some (value, rest) :=
            readSleb128OnFrom_isSome found
          rw [right, number, if_neg beyond] at reads
          cases reads
        by_cases shifted : ShiftsWide 0 bytes
        · have ones : readSleb128On onesMachine stream = some (BitVec.allOnes 64, rest) :=
            readSleb128OnFrom_onesMachine found shifted
          rw [right, fitting fits.1 fits.2] at ones
          exact notNegOne (eq_negOne_of_ones fits.1 fits.2 (Prod.mk.inj (Option.some.inj ones)).1)
        · rw [ShiftsWide, Nat.zero_add, not_or, not_lt] at shifted
          have ten : bytes.length = 10 := Nat.le_antisymm shifted.1 long
          cases isLast : bytes.getLast? with
          | none => exact encodingOf_ne_nil found (List.getLast?_eq_none_iff.1 isLast)
          | some last =>
              have unsigned : last &&& 0x40 = 0 := not_not.1 fun sign => shifted.2 ⟨ten, last, isLast, sign⟩
              have large := (signedValue_unsigned found isLast unsigned).2.2 fun zero => notZero ⟨ten, zero ▸ isLast⟩
              rw [ten] at large
              exact absurd large (not_le.2 fits.2)
      · intro short wide
        rcases short bytes rest rfl with nine | ⟨ten, zero⟩ | negOne
        · obtain ⟨low, high⟩ := signedValue_bounds found
          have room : (128 : ℤ) ^ (bytes.length - 1) ≤ 128 ^ 8 := pow_le_pow_right₀ (by norm_num) (by omega)
          rw [fitting (by omega) (by omega)]
          refine (readSleb128OnFrom_short (k := 0) found (Or.inl (by omega))).trans ?_
          rw [Nat.mul_zero, at_start]
        · obtain ⟨low, high, _⟩ := signedValue_unsigned found zero (by decide)
          have room := high rfl
          rw [ten] at room
          rw [fitting (by omega) room]
          refine (readSleb128OnFrom_short (k := 0) found (Or.inr ⟨by omega, zero⟩)).trans ?_
          rw [Nat.mul_zero, at_start]
        · rw [fitting (by omega) (by omega), negOne]
          exact readSleb128OnFrom_negOne found negOne (by decide +kernel)

/-- The readers and the writer agree on a stream exactly when the number at its front fits their words. -/
theorem agree_iff (stream : Bytes) : Agree stream ↔ Fits stream := by
  have unsigned : readUleb128 stream = parseUleb128 stream ↔ ∀ bytes rest, encodingOf stream = some (bytes, rest) →
      0 + bytes.length = 10 → ∀ last ∈ bytes.getLast?, last.toNat < 2 :=
    readUleb128From_eq_parse_iff (Nat.zero_le 9)
  simp only [Nat.zero_add] at unsigned
  constructor
  · rintro ⟨_, same, right⟩
    exact ⟨unsigned.1 same, readSleb128On_eq_iff.1 right⟩
  · rintro ⟨kept, short⟩
    refine ⟨?_, unsigned.2 kept, readSleb128On_eq_iff.2 short⟩
    rintro value rest rfl
    have parsed : parseUleb128 (appendUleb128 value ++ rest) = some (value, rest) := by
      rw [parseUleb128, parseUleb128From_append (by rw [pow_zero, Nat.mul_one]; exact value.isLt) (by decide), at_start]
    exact ⟨length_appendUleb128 value, parsed, readUleb128From_of_parse parsed⟩

/-- A tenth byte of two bits is read as if it had none. -/
theorem tenBytes_not_agree : ¬ Agree (List.replicate 9 0x80 ++ [0x02]) := by
  intro agree
  have parsed : parseUleb128 (List.replicate 9 0x80 ++ [0x02]) = none := by decide +kernel
  have read : readUleb128 (List.replicate 9 0x80 ++ [0x02]) = some (0, []) := by decide +kernel
  rw [agree.unsigned, parsed] at read
  cases read

end Readers

end ObjcDyld.MachO
