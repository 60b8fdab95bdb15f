import ObjcDyld.MachO.Leb128

/-!
# The closest function start

`MachOLoaded::findClosestFunctionStart` adds up the numbers of an `LC_FUNCTION_STARTS` payload and
answers with the sum before the first one above the address.
-/

namespace ObjcDyld.MachO

open ByteStreams

/-- What `read_uleb128` leaves behind, also where it reports an error. -/
structure UlebRead where
  value : BitVec 64
  rest : Bytes
  failed : Bool
  deriving DecidableEq

/-- The loop of `read_uleb128` with the number read before an error. -/
def scanUleb128From (bit : ℕ) (result : BitVec 64) : Bytes → UlebRead
  | [] => ⟨result, [], true⟩
  | byte :: rest =>
      if bit > 63 then ⟨result, byte :: rest, true⟩
      else
        let result := result ||| (byte &&& 0x7F).setWidth 64 <<< bit
        if byte &&& 0x80 = 0 then ⟨result, rest, false⟩ else scanUleb128From (bit + 7) result rest

/-- `MachOFile::read_uleb128`, with the number it returns together with an error. -/
def scanUleb128 (stream : Bytes) : UlebRead := scanUleb128From 0 0 stream

theorem scanUleb128From_of_read {bit : ℕ} {result value : BitVec 64} {stream rest : Bytes}
    (read : readUleb128From bit result stream = some (value, rest)) :
    scanUleb128From bit result stream = ⟨value, rest, false⟩ := by
  induction stream generalizing bit result with
  | nil => cases read
  | cons byte tail ih =>
      simp only [readUleb128From] at read
      simp only [scanUleb128From]
      split at read
      · cases read
      · rename_i small
        rw [if_neg small]
        split at read
        · rename_i last
          cases read
          rw [if_pos last]
        · rename_i more
          rw [if_neg more, ih read]

theorem scanUleb128_of_read {value : BitVec 64} {stream rest : Bytes}
    (read : readUleb128 stream = some (value, rest)) : scanUleb128 stream = ⟨value, rest, false⟩ :=
  scanUleb128From_of_read read

theorem scanUleb128From_length {bit : ℕ} {result : BitVec 64} {stream : Bytes}
    (clean : (scanUleb128From bit result stream).failed = false) :
    (scanUleb128From bit result stream).rest.length < stream.length := by
  induction stream generalizing bit result with
  | nil => cases clean
  | cons byte tail ih =>
      simp only [scanUleb128From] at clean ⊢
      split at clean
      · cases clean
      · rename_i small
        rw [if_neg small]
        split at clean
        · rename_i last
          rw [if_pos last]
          exact Nat.lt_succ_self _
        · rename_i more
          rw [if_neg more]
          exact (ih clean).trans (Nat.lt_succ_self _)

theorem scanUleb128_length {stream : Bytes} (clean : (scanUleb128 stream).failed = false) :
    (scanUleb128 stream).rest.length < stream.length :=
  scanUleb128From_length clean

end ObjcDyld.MachO

namespace ObjcDyld.MachO.FunctionStarts

open ByteStreams

/-- The loop of `findClosestFunctionStart` on the bytes from `starts` to `startsEnd`. -/
def closestFrom (address runningAddr : BitVec 64) (starts : Bytes) : Option (BitVec 64) :=
  let read := scanUleb128 starts
  if read.value = 0 then none
  else if address < runningAddr + read.value then some runningAddr
  else if read.failed = false then closestFrom address (runningAddr + read.value) read.rest
  else none
termination_by starts.length
decreasing_by exact scanUleb128_length (by assumption)

/-- What `getLinkEditPointers` finds out for `findClosestFunctionStart`. -/
structure LinkEditInfo where
  hasError : Bool
  /-- The bytes named by the `LC_FUNCTION_STARTS` command. -/
  functionStarts : Option Bytes

/-- `MachOLoaded::findClosestFunctionStart` of the image at `mh`. -/
def findClosestFunctionStart (mh : BitVec 64) (leInfo : LinkEditInfo) (address : BitVec 64) : Option (BitVec 64) :=
  if leInfo.hasError then none
  else
    match leInfo.functionStarts with
    | none => none
    | some starts => closestFrom address mh starts

/-- A well-formed payload and its positive deltas, with or without a terminating zero. -/
inductive Lists : Bytes → List (BitVec 64) → Prop
  | ended : Lists [] []
  | terminated {bytes rest} (zero : readUleb128 bytes = some (0, rest)) : Lists bytes []
  | delta {bytes rest value deltas} (read : readUleb128 bytes = some (value, rest)) (positive : value ≠ 0)
      (others : Lists rest deltas) : Lists bytes (value :: deltas)

/-- The addresses of the functions listed by some deltas after an address. -/
def startsAfter (last : ℕ) : List (BitVec 64) → List ℕ
  | [] => []
  | delta :: deltas => (last + delta.toNat) :: startsAfter (last + delta.toNat) deltas

/-- The answer asked for: the greatest start not above the address, and none if there is no such start. -/
def IsClosest (starts : List ℕ) (address : ℕ) : Option ℕ → Prop
  | some found => found ∈ starts ∧ found ≤ address ∧ ∀ start ∈ starts, start ≤ address → start ≤ found
  | none => ∀ start ∈ starts, address < start

/-- The deltas of a payload reach no further than the address space. -/
def Fits (last : ℕ) (deltas : List (BitVec 64)) : Prop := ∀ start ∈ startsAfter last deltas, start < 2 ^ 64

instance (last : ℕ) (deltas : List (BitVec 64)) : Decidable (Fits last deltas) := inferInstanceAs (Decidable (∀ _ ∈ _, _))

/-- The loop on the deltas themselves. -/
def closestOf (address last : ℕ) : List (BitVec 64) → Option ℕ
  | [] => none
  | delta :: deltas =>
      if address < last + delta.toNat then some last else closestOf address (last + delta.toNat) deltas

variable {address running : BitVec 64} {bytes : Bytes} {deltas : List (BitVec 64)} {last start : ℕ}

theorem Lists.positive (lists : Lists bytes deltas) : ∀ delta ∈ deltas, 0 < delta.toNat := by
  induction lists with
  | ended => intro delta member; cases member
  | terminated => intro delta member; cases member
  | delta read positive others ih =>
      intro delta member
      rcases List.mem_cons.1 member with rfl | member
      · exact Nat.pos_of_ne_zero fun zero => positive (BitVec.eq_of_toNat_eq zero)
      · exact ih delta member

theorem closestFrom_eq (lists : Lists bytes deltas) (fits : Fits running.toNat deltas) :
    (closestFrom address running bytes).map BitVec.toNat = closestOf address.toNat running.toNat deltas := by
  induction lists generalizing running with
  | ended => rw [closestFrom]; rfl
  | terminated zero =>
      rw [closestFrom, scanUleb128_of_read zero]
      rfl
  | @delta bytes rest value deltas read positive others ih =>
      have sum : (running + value).toNat = running.toNat + value.toNat := by
        rw [BitVec.toNat_add, Nat.mod_eq_of_lt]
        exact fits _ (List.mem_cons_self ..)
      rw [closestFrom, scanUleb128_of_read read]
      simp only [if_neg positive, closestOf, BitVec.lt_def, sum]
      split
      · rfl
      · rw [← sum]
        exact ih (by rw [sum]; exact fun start member => fits start (List.mem_cons_of_mem _ member))

theorem lt_of_mem_startsAfter (positive : ∀ delta ∈ deltas, 0 < delta.toNat)
    (member : start ∈ startsAfter last deltas) : last < start := by
  induction deltas generalizing last with
  | nil => cases member
  | cons delta deltas ih =>
      have here : 0 < delta.toNat := positive delta (List.mem_cons_self ..)
      rcases List.mem_cons.1 member with rfl | member
      · omega
      · have := ih (fun delta member => positive delta (List.mem_cons_of_mem _ member)) member
        omega

theorem closestOf_between {address : ℕ} (positive : ∀ delta ∈ deltas, 0 < delta.toNat) (low : last ≤ address)
    (above : ∃ start ∈ startsAfter last deltas, address < start) :
    ∃ found, closestOf address last deltas = some found ∧ (found = last ∨ found ∈ startsAfter last deltas) ∧
      last ≤ found ∧ found ≤ address ∧ ∀ start ∈ startsAfter last deltas, start ≤ address → start ≤ found := by
  induction deltas generalizing last with
  | nil =>
      obtain ⟨start, member, -⟩ := above
      cases member
  | cons delta deltas ih =>
      have others : ∀ delta ∈ deltas, 0 < delta.toNat := fun other member => positive other (List.mem_cons_of_mem _ member)
      simp only [closestOf, startsAfter, List.mem_cons] at above ⊢
      split
      · rename_i next
        refine ⟨last, rfl, .inl rfl, le_rfl, low, ?_⟩
        rintro start (rfl | later) below
        · omega
        · have := lt_of_mem_startsAfter others later
          omega
      · rename_i passed
        have low' : last + delta.toNat ≤ address := Nat.le_of_not_lt passed
        obtain ⟨start, rfl | later, high⟩ := above
        · omega
        · obtain ⟨found, answer, member, atLeast, atMost, greatest⟩ := ih others low' ⟨start, later, high⟩
          refine ⟨found, answer, .inr member, by omega, atMost, ?_⟩
          rintro start (rfl | later) below
          · exact atLeast
          · exact greatest start later below

theorem closestOf_behind {address : ℕ} (behind : ∀ start ∈ startsAfter last deltas, start ≤ address) :
    closestOf address last deltas = none := by
  induction deltas generalizing last with
  | nil => rfl
  | cons delta deltas ih =>
      have first : last + delta.toNat ≤ address := behind _ (List.mem_cons_self ..)
      rw [closestOf, if_neg (Nat.not_lt_of_le first)]
      exact ih fun start member => behind start (List.mem_cons_of_mem _ member)

theorem closestOf_before {address : ℕ} (some_start : startsAfter last deltas ≠ [])
    (before : ∀ start ∈ startsAfter last deltas, address < start) : closestOf address last deltas = some last := by
  cases deltas with
  | nil => exact absurd rfl some_start
  | cons delta deltas => rw [closestOf, if_pos (before _ (List.mem_cons_self ..))]

theorem closestOf_iff {address : ℕ} (positive : ∀ delta ∈ deltas, 0 < delta.toNat) :
    IsClosest (startsAfter last deltas) address (closestOf address last deltas) ↔
      startsAfter last deltas = [] ∨
        (∃ start ∈ startsAfter last deltas, start ≤ address) ∧ ∃ start ∈ startsAfter last deltas, address < start := by
  constructor
  · intro closest
    by_cases empty : startsAfter last deltas = []
    · exact .inl empty
    · refine .inr ⟨?_, ?_⟩
      · by_contra before
        push Not at before
        rw [closestOf_before empty before] at closest
        exact absurd (lt_of_mem_startsAfter positive closest.1) (lt_irrefl last)
      · by_contra behind
        push Not at behind
        rw [closestOf_behind behind] at closest
        obtain ⟨start, member⟩ := List.exists_mem_of_ne_nil _ empty
        exact absurd (closest start member) (Nat.not_lt_of_le (behind start member))
  · rintro (empty | ⟨⟨start, member, low⟩, above⟩)
    · have none_found : closestOf address last deltas = none := closestOf_behind (by simp [empty])
      rw [none_found]
      intro start member
      rw [empty] at member
      cases member
    · have past : last < start := lt_of_mem_startsAfter positive member
      obtain ⟨found, answer, among, -, atMost, greatest⟩ := closestOf_between positive (by omega) above
      have reached : start ≤ found := greatest start member low
      rw [answer]
      refine ⟨?_, atMost, greatest⟩
      rcases among with rfl | among
      · omega
      · exact among

/-- The answer is the one asked for exactly when the address lies between two starts, or there are no functions. -/
theorem findClosestFunctionStart_iff {mh : BitVec 64} (lists : Lists bytes deltas) (fits : Fits mh.toNat deltas) :
    IsClosest (startsAfter mh.toNat deltas) address.toNat
        ((findClosestFunctionStart mh ⟨false, some bytes⟩ address).map BitVec.toNat) ↔
      startsAfter mh.toNat deltas = [] ∨
        (∃ start ∈ startsAfter mh.toNat deltas, start ≤ address.toNat) ∧
          ∃ start ∈ startsAfter mh.toNat deltas, address.toNat < start := by
  have answer : (findClosestFunctionStart mh ⟨false, some bytes⟩ address).map BitVec.toNat =
      closestOf address.toNat mh.toNat deltas := closestFrom_eq lists fits
  rw [answer]
  exact closestOf_iff lists.positive

/-- A payload of two functions, 0x20 and 0x30 bytes behind the start of the image. -/
def twoFunctions : Bytes := [0x20, 0x10, 0x00]

theorem twoFunctions_lists : Lists twoFunctions [0x20, 0x10] :=
  have zero : readUleb128 [0x00] = some (0, []) := by decide
  have second : readUleb128 [0x10, 0x00] = some (0x10, [0x00]) := by decide
  have first : readUleb128 twoFunctions = some (0x20, [0x10, 0x00]) := by decide
  .delta first (by decide) (.delta second (by decide) (.terminated zero))

theorem twoFunctions_iff_between :
    IsClosest [0x1020, 0x1030] 0x1028 ((findClosestFunctionStart 0x1000 ⟨false, some twoFunctions⟩ 0x1028).map BitVec.toNat) ↔
      [0x1020, 0x1030] = [] ∨
        (∃ start ∈ [0x1020, 0x1030], start ≤ 0x1028) ∧ ∃ start ∈ [0x1020, 0x1030], 0x1028 < start :=
  @findClosestFunctionStart_iff 0x1028 twoFunctions [0x20, 0x10] 0x1000 twoFunctions_lists (by decide)

/-- An address in the last function is not found. -/
theorem twoFunctions_last_not_found :
    ¬ IsClosest (startsAfter 0x1000 [0x20, 0x10]) 0x1034
      ((findClosestFunctionStart 0x1000 ⟨false, some twoFunctions⟩ 0x1034).map BitVec.toNat) := by
  have answer : (findClosestFunctionStart 0x1000 ⟨false, some twoFunctions⟩ 0x1034).map BitVec.toNat =
      closestOf 0x1034 0x1000 [0x20, 0x10] :=
    @closestFrom_eq 0x1034 0x1000 twoFunctions [0x20, 0x10] twoFunctions_lists (by decide)
  rw [answer]
  intro closest
  exact absurd (closest 0x1030 (by decide)) (by decide)

end ObjcDyld.MachO.FunctionStarts
