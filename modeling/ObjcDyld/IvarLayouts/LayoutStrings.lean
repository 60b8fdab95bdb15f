import ObjcDyld.IvarLayouts.Bitmaps

/-!
# Layout strings

A layout bitmap is compressed to a string of bytes, with a skip count in the high nibble and a scan count in the low
one, and the string is decompressed again.
-/

namespace ObjcDyld.IvarLayouts

/-! ## Compressing -/

/-- The buffer of `compress_layout` and the place that `l` points to. -/
structure Writer where
  layout : List (BitVec 8)
  l : ℕ

/-- `*l = byte`; `none` behind the buffer. -/
def Writer.store (writer : Writer) (byte : BitVec 8) : Option Writer :=
  if writer.l < writer.layout.length then some { writer with layout := writer.layout.set writer.l byte } else none

/-- `l++` -/
def Writer.next (writer : Writer) : Writer := { writer with l := writer.l + 1 }

/-- `*l++ |= byte` -/
def Writer.merge (writer : Writer) (byte : BitVec 8) : Option Writer := do
  let old ← writer.layout[writer.l]?
  let writer ← writer.store (old ||| byte)
  return writer.next

/-- The loop over long skips, and what is left of the skip. -/
def writeSkip (writer : Writer) (skip : ℕ) : Option (Writer × ℕ) :=
  if skip > 0xF then do
    let writer ← writer.store 0xF0
    writeSkip writer.next (skip - 0xF)
  else some (writer, skip)

/-- The loop over long scans, and the byte behind them. -/
def writeScan (writer : Writer) (scan : ℕ) : Option Writer :=
  if scan > 0xF then do
    let writer ← writer.merge 0x0F
    writeScan writer (scan - 0xF)
  else writer.merge (BitVec.ofNat 8 scan)

def writeRange (writer : Writer) (skip scan : ℕ) : Option Writer := do
  let (writer, skip) ← writeSkip writer skip
  if skip ≠ 0 ∨ scan ≠ 0 then
    -- not incremented, merges with scan
    let writer ← writer.store (BitVec.ofNat 8 (skip <<< 4))
    writeScan writer scan
  else return writer

/-- What follows the first skip of some bits. -/
def behindSkip (bits : List Bool) : List Bool := bits.dropWhile fun bit => !bit

/-- What follows the first skip and the scan behind it. -/
def behindScan (bits : List Bool) : List Bool := (behindSkip bits).dropWhile id

def skipOf (bits : List Bool) : ℕ := (bits.takeWhile fun bit => !bit).length

def scanOf (bits : List Bool) : ℕ := ((behindSkip bits).takeWhile id).length

theorem bits_eq (bits : List Bool) :
    bits = List.replicate (skipOf bits) false ++ (List.replicate (scanOf bits) true ++ behindScan bits) := by
  have skipped : bits.takeWhile (fun bit => !bit) = List.replicate (skipOf bits) false :=
    List.eq_replicate_iff.2 ⟨rfl, fun bit member => by simpa using List.mem_takeWhile_imp member⟩
  have scanned : (behindSkip bits).takeWhile id = List.replicate (scanOf bits) true :=
    List.eq_replicate_iff.2 ⟨rfl, fun bit member => List.mem_takeWhile_imp member⟩
  rw [← scanned, behindScan, List.takeWhile_append_dropWhile, ← skipped, behindSkip, List.takeWhile_append_dropWhile]

theorem length_bits (bits : List Bool) : bits.length = skipOf bits + (scanOf bits + (behindScan bits).length) := by
  conv_lhs => rw [bits_eq bits]
  simp

theorem range_pos {bits : List Bool} (nonempty : bits ≠ []) : 0 < skipOf bits + scanOf bits := by
  cases bits with
  | nil => exact absurd rfl nonempty
  | cons bit bits =>
      cases bit with
      | false => exact Nat.add_pos_left (Nat.succ_pos _) _
      | true => exact Nat.add_pos_right _ (Nat.succ_pos _)

/-- The loop over the bits, with the variables `all_set` and `none_set`. -/
def compressFrom (bits : List Bool) (writer : Writer) (allSet noneSet : Bool) : Option (Writer × Bool × Bool) :=
  if _ : bits = [] then some (writer, allSet, noneSet)
  else do
    let writer ← writeRange writer (skipOf bits) (scanOf bits)
    compressFrom (behindScan bits) writer (allSet && skipOf bits == 0) (noneSet && scanOf bits == 0)
termination_by bits.length
decreasing_by
  have length := length_bits bits
  have positive := range_pos ‹_›
  omega

/-- What `compress_layout` has written, and what it returns; `none` stands for `NULL`. -/
structure Compressed where
  writer : Writer
  result : Option (List (BitVec 8))

def strdup (layout : List (BitVec 8)) : List (BitVec 8) := layout.takeWhile (· ≠ 0)

/-- `compress_layout`, on the bits in front of the end. -/
def compressLayout (bits : List Bool) (weak : Bool) : Option Compressed := do
  let (writer, allSet, noneSet) ← compressFrom bits ⟨List.replicate (bits.length + 1) 0, 0⟩ true true
  -- insert terminating byte
  let writer ← writer.store 0
  let writer := writer.next
  -- NULL weak layout means none-weak, NULL ivar layout means all-scanned
  return ⟨writer, if noneSet && weak || allSet && !weak then none else some (strdup writer.layout)⟩

/-- The bits in front of the end; `none` when one was not written. -/
def LayoutBitmap.read (bits : LayoutBitmap) : Option (List Bool) := (List.range bits.bitCount).mapM (Moves.read bits.bits)

def layoutStringCreate (bits : LayoutBitmap) : Option Compressed := do
  let values ← bits.read
  compressLayout values bits.weak

/-! ## Decompressing -/

/-- `decompress_layout` from a bit on; a string ends at its first zero. -/
def decompressFrom : List (BitVec 8) → ℕ → LayoutBitmap → Option LayoutBitmap
  | [], _, bits => some bits
  | c :: string, bit, bits =>
      if c = 0 then some bits
      else do
        let skip := ((c &&& 0xF0) >>> 4).toNat
        let scan := (c &&& 0x0F).toNat
        let bits ← setBits bits (bit + skip) scan
        decompressFrom string (bit + skip + scan) bits

/-- The bitmap of zeros that `layout_bitmap_create` fills. -/
def zeroBitmap (words : ℕ) (weak : Bool) : LayoutBitmap where
  bits := List.replicate (byteBits words) (some false)
  bitCount := words
  bitsAllocated := words
  weak := weak

/-- `layout_bitmap_create`, with words of eight bytes. -/
def layoutBitmapCreate (layoutString : Option (List (BitVec 8))) (layoutStringInstanceSize instanceSize : ℕ) (weak : Bool) :
    Option LayoutBitmap :=
  let result := zeroBitmap (instanceSize / 8) weak
  match layoutString with
  | some string => decompressFrom string 0 result
  | none =>
      -- NULL ivar layout means all-scanned, NULL weak layout means none-weak
      if !weak then setBits result 0 (layoutStringInstanceSize / 8) else some result

/-! ## What a string stands for -/

def expandByte (c : BitVec 8) : List Bool :=
  List.replicate ((c &&& 0xF0) >>> 4).toNat false ++ List.replicate (c &&& 0x0F).toNat true

def expand (string : List (BitVec 8)) : List Bool := string.flatMap expandByte

theorem expand_append (first second : List (BitVec 8)) : expand (first ++ second) = expand first ++ expand second :=
  List.flatMap_append

/-- The bytes of a scan; the first one is merged with what is there. -/
def scanBytes (c : BitVec 8) (scan : ℕ) : List (BitVec 8) :=
  if scan > 0xF then (c ||| 0x0F) :: scanBytes 0 (scan - 0xF) else [c ||| BitVec.ofNat 8 scan]

def rangeBytes (skip scan : ℕ) : List (BitVec 8) :=
  if skip > 0xF then 0xF0 :: rangeBytes (skip - 0xF) scan
  else if skip ≠ 0 ∨ scan ≠ 0 then scanBytes (BitVec.ofNat 8 (skip <<< 4)) scan
  else []

def bytesOf (bits : List Bool) : List (BitVec 8) :=
  if _ : bits = [] then [] else rangeBytes (skipOf bits) (scanOf bits) ++ bytesOf (behindScan bits)
termination_by bits.length
decreasing_by
  have length := length_bits bits
  have positive := range_pos ‹_›
  omega

section Expand

variable {skip scan : ℕ}

theorem nibbles (skips : skip ≤ 0xF) (scans : scan ≤ 0xF) :
    expandByte (BitVec.ofNat 8 (skip <<< 4) ||| BitVec.ofNat 8 scan) = List.replicate skip false ++ List.replicate scan true := by
  have table : ∀ skip scan : Fin 16,
      (((BitVec.ofNat 8 (skip.val <<< 4) ||| BitVec.ofNat 8 scan.val) &&& 0xF0) >>> 4).toNat = skip.val ∧
        ((BitVec.ofNat 8 (skip.val <<< 4) ||| BitVec.ofNat 8 scan.val) &&& 0x0F).toNat = scan.val := by
    decide +kernel
  obtain ⟨high, low⟩ := table ⟨skip, Nat.lt_succ_of_le skips⟩ ⟨scan, Nat.lt_succ_of_le scans⟩
  exact congrArg₂ (fun skip scan => List.replicate skip false ++ List.replicate scan true) high low

theorem byte_ne_zero (skips : skip ≤ 0xF) (scans : scan ≤ 0xF) (some_bits : 0 < skip + scan) :
    BitVec.ofNat 8 (skip <<< 4) ||| BitVec.ofNat 8 scan ≠ 0 := by
  intro zero
  have bits := congrArg List.length (nibbles skips scans)
  rw [zero] at bits
  simp [expandByte] at bits
  omega

theorem scanBytes_spec (skips : skip ≤ 0xF) (some_bits : 0 < skip + scan) :
    expand (scanBytes (BitVec.ofNat 8 (skip <<< 4)) scan) = List.replicate skip false ++ List.replicate scan true ∧
      (scanBytes (BitVec.ofNat 8 (skip <<< 4)) scan).length ≤ skip + scan ∧
        (0 : BitVec 8) ∉ scanBytes (BitVec.ofNat 8 (skip <<< 4)) scan := by
  induction scan using Nat.strongRecOn generalizing skip with
  | ind scan ih =>
      rw [scanBytes]
      split
      · next long =>
          have zero : (0 : BitVec 8) = BitVec.ofNat 8 (0 <<< 4) := rfl
          obtain ⟨bits, length, nonzero⟩ := ih (scan - 0xF) (by omega) (Nat.zero_le 0xF) (by omega)
          rw [zero]
          refine ⟨?_, ?_, ?_⟩
          · rw [expand, List.flatMap_cons, ← expand, bits, List.replicate_zero, List.nil_append]
            rw [show (0x0F : BitVec 8) = BitVec.ofNat 8 0xF from rfl, nibbles skips (Nat.le_refl _), List.append_assoc,
              ← List.replicate_add, Nat.add_sub_cancel' long.le]
          · rw [List.length_cons]
            omega
          · rw [List.mem_cons, not_or]
            exact ⟨(byte_ne_zero skips (Nat.le_refl 0xF) (by omega)).symm, nonzero⟩
      · next short =>
          have scans := not_lt.1 short
          refine ⟨?_, some_bits, ?_⟩
          · rw [expand, List.flatMap_singleton, nibbles skips scans]
          · rw [List.mem_singleton]
            exact (byte_ne_zero skips scans some_bits).symm

theorem rangeBytes_spec (some_bits : 0 < skip + scan) :
    expand (rangeBytes skip scan) = List.replicate skip false ++ List.replicate scan true ∧
      (rangeBytes skip scan).length ≤ skip + scan ∧ (0 : BitVec 8) ∉ rangeBytes skip scan := by
  induction skip using Nat.strongRecOn with
  | ind skip ih =>
      rw [rangeBytes]
      split
      · next long =>
          obtain ⟨bits, length, nonzero⟩ := ih (skip - 0xF) (by omega) (by omega)
          refine ⟨?_, ?_, ?_⟩
          · have first : expandByte 0xF0 = List.replicate 0xF false := rfl
            rw [expand, List.flatMap_cons, ← expand, bits, first, ← List.append_assoc, ← List.replicate_add,
              Nat.add_sub_cancel' long.le]
          · rw [List.length_cons]
            omega
          · rw [List.mem_cons, not_or]
            exact ⟨by decide, nonzero⟩
      · next short =>
          rw [if_pos (by omega)]
          exact scanBytes_spec (not_lt.1 short) some_bits

theorem bytesOf_spec (bits : List Bool) :
    expand (bytesOf bits) = bits ∧ (bytesOf bits).length ≤ bits.length ∧ (0 : BitVec 8) ∉ bytesOf bits := by
  induction bits using bytesOf.induct with
  | case1 => 
      rw [bytesOf, dif_pos rfl]
      exact ⟨rfl, Nat.le_refl 0, List.not_mem_nil⟩
  | case2 bits nonempty ih =>
      obtain ⟨same, length, nonzero⟩ := ih
      obtain ⟨first, firstLength, firstNonzero⟩ := rangeBytes_spec (range_pos nonempty)
      rw [bytesOf, dif_neg nonempty]
      refine ⟨?_, ?_, ?_⟩
      · conv_rhs => rw [bits_eq bits]
        rw [expand_append, first, same, List.append_assoc]
      · rw [List.length_append, length_bits bits]
        omega
      · rw [List.mem_append, not_or]
        exact ⟨firstNonzero, nonzero⟩

end Expand

/-! ## What is written -/

def Writer.behind (bytes rest : List (BitVec 8)) : Writer := ⟨bytes ++ rest, bytes.length⟩

section Writing

variable {bytes rest : List (BitVec 8)} {c d : BitVec 8} {skip scan room : ℕ}

theorem Writer.store_behind : (Writer.behind bytes (c :: rest)).store d = some (Writer.behind bytes (d :: rest)) := by
  have inside : bytes.length < (bytes ++ c :: rest).length := by simp
  have replaced : (bytes ++ c :: rest).set bytes.length d = bytes ++ d :: rest := by
    rw [List.set_append_right _ _ (Nat.le_refl _), Nat.sub_self, List.set_cons_zero]
  rw [store, behind, if_pos inside, replaced]
  rfl

theorem Writer.next_behind : (Writer.behind bytes (d :: rest)).next = Writer.behind (bytes ++ [d]) rest := by
  rw [next, behind, behind, List.append_assoc, List.length_append]
  rfl

theorem Writer.merge_behind : (Writer.behind bytes (c :: rest)).merge d = some (Writer.behind (bytes ++ [c ||| d]) rest) := by
  have old : (Writer.behind bytes (c :: rest)).layout[(Writer.behind bytes (c :: rest)).l]? = some c := by
    rw [behind, List.getElem?_append_right (Nat.le_refl _), Nat.sub_self]
    rfl
  rw [merge, old, Option.bind_eq_bind, Option.bind_some, store_behind, ← next_behind]
  rfl

theorem replicate_of_pos (positive : 0 < room) : List.replicate room (0 : BitVec 8) = 0 :: List.replicate (room - 1) 0 := by
  rw [← List.replicate_succ, Nat.sub_add_cancel positive]

theorem writeScan_behind (fits : (scanBytes c scan).length ≤ room + 1) :
    writeScan (Writer.behind bytes (c :: List.replicate room 0)) scan =
      some (Writer.behind (bytes ++ scanBytes c scan) (List.replicate (room + 1 - (scanBytes c scan).length) 0)) := by
  induction scan using Nat.strongRecOn generalizing c bytes room with
  | ind scan ih =>
      rw [scanBytes] at fits ⊢
      rw [writeScan]
      split
      · next long =>
          rw [if_pos long, List.length_cons] at fits
          have more : 0 < (scanBytes 0 (scan - 0xF)).length := by
            rw [scanBytes]
            split
            · exact Nat.succ_pos _
            · exact Nat.succ_pos _
          rw [Writer.merge_behind, replicate_of_pos (by omega), Option.bind_eq_bind, Option.bind_some,
            ih (scan - 0xF) (by omega) (by omega), List.append_assoc, List.singleton_append, List.length_cons]
          congr 3
          omega
      · next short =>
          rw [Writer.merge_behind, List.length_singleton, Nat.add_sub_cancel]

theorem writeRange_behind (fits : (rangeBytes skip scan).length ≤ room) :
    writeRange (Writer.behind bytes (List.replicate room 0)) skip scan =
      some (Writer.behind (bytes ++ rangeBytes skip scan) (List.replicate (room - (rangeBytes skip scan).length) 0)) := by
  induction skip using Nat.strongRecOn generalizing bytes room with
  | ind skip ih =>
      rw [writeRange, writeSkip]
      rw [rangeBytes] at fits ⊢
      split
      · next long =>
          rw [if_pos long, List.length_cons] at fits
          have later := @ih (skip - 0xF) (by omega) (bytes ++ [0xF0]) (room - 1) (by omega)
          rw [replicate_of_pos (by omega), Writer.store_behind]
          change writeRange (Writer.behind bytes (0xF0 :: List.replicate (room - 1) 0)).next (skip - 0xF) scan = _
          rw [Writer.next_behind, later, List.append_assoc, List.singleton_append, List.length_cons]
          congr 3
          omega
      · next short =>
          rw [if_neg short] at fits
          rw [Option.bind_eq_bind, Option.bind_some]
          dsimp only
          split
          · next some_bits =>
              rw [if_pos some_bits] at fits
              have more : 0 < room := lt_of_lt_of_le (by
                rw [scanBytes]
                split
                · exact Nat.succ_pos _
                · exact Nat.succ_pos _) fits
              rw [replicate_of_pos more, Writer.store_behind, Option.bind_eq_bind, Option.bind_some,
                writeScan_behind (by omega), Nat.sub_add_cancel more]
          · rw [List.append_nil]
            rfl

theorem all_replicate (n : ℕ) (bit : Bool) (test : Bool → Bool) : (List.replicate n bit).all test = (n == 0 || test bit) := by
  cases n with
  | zero => rfl
  | succ n => simp

theorem compressFrom_behind (bits : List Bool) {allSet noneSet : Bool} (fits : (bytesOf bits).length ≤ room) :
    compressFrom bits (Writer.behind bytes (List.replicate room 0)) allSet noneSet =
      some (Writer.behind (bytes ++ bytesOf bits) (List.replicate (room - (bytesOf bits).length) 0),
        allSet && bits.all id, noneSet && bits.all fun bit => !bit) := by
  induction bits using bytesOf.induct generalizing bytes room allSet noneSet with
  | case1 =>
      rw [compressFrom, dif_pos rfl, bytesOf, dif_pos rfl, List.append_nil, List.all_nil, List.all_nil, Bool.and_true,
        Bool.and_true]
      rfl
  | case2 bits nonempty ih =>
      have flags : bits.all id = (skipOf bits == 0 && (behindScan bits).all id) ∧
          (bits.all fun bit => !bit) = (scanOf bits == 0 && (behindScan bits).all fun bit => !bit) := by
        constructor
        · conv_lhs => rw [bits_eq bits]
          rw [List.all_append, List.all_append, all_replicate, all_replicate]
          simp
        · conv_lhs => rw [bits_eq bits]
          rw [List.all_append, List.all_append, all_replicate, all_replicate]
          simp
      rw [bytesOf, dif_neg nonempty, List.length_append] at fits
      rw [compressFrom, dif_neg nonempty, bytesOf, dif_neg nonempty, writeRange_behind (by omega), Option.bind_eq_bind,
        Option.bind_some, ih (by omega), flags.1, flags.2, List.append_assoc, List.length_append, Nat.sub_sub, Bool.and_assoc,
        Bool.and_assoc]

theorem strdup_of_nonzero (nonzero : (0 : BitVec 8) ∉ bytes) : strdup (bytes ++ 0 :: rest) = bytes := by
  have all : ∀ byte ∈ bytes, decide (byte ≠ 0) = true := fun byte member => decide_eq_true (ne_of_mem_of_not_mem member nonzero)
  rw [strdup, List.takeWhile_append_of_pos all, List.takeWhile_cons_of_neg (by simp), List.append_nil]

theorem compressLayout_eq (bits : List Bool) (weak : Bool) : compressLayout bits weak =
    some ⟨Writer.behind (bytesOf bits ++ [0]) (List.replicate (bits.length - (bytesOf bits).length) 0),
      if (bits.all fun bit => !bit) && weak || bits.all id && !weak then none else some (bytesOf bits)⟩ := by
  obtain ⟨-, length, nonzero⟩ := bytesOf_spec bits
  have start : (⟨List.replicate (bits.length + 1) 0, 0⟩ : Writer) = Writer.behind [] (List.replicate (bits.length + 1) 0) := rfl
  rw [compressLayout, start, compressFrom_behind bits (by omega), List.nil_append, replicate_of_pos (by omega),
    Option.bind_eq_bind, Option.bind_some]
  dsimp only
  rw [Writer.store_behind, Option.bind_eq_bind, Option.bind_some, Writer.next_behind, Bool.true_and, Bool.true_and]
  have copied : strdup (Writer.behind (bytesOf bits ++ [0])
      (List.replicate (bits.length + 1 - (bytesOf bits).length - 1) 0)).layout = bytesOf bits := by
    rw [Writer.behind, List.append_assoc, List.singleton_append, strdup_of_nonzero nonzero]
  have left : bits.length + 1 - (bytesOf bits).length - 1 = bits.length - (bytesOf bits).length := by omega
  rw [copied, left]
  rfl

end Writing

/-! ## What is decompressed -/

section Decompress

variable {bits : LayoutBitmap} {values front middle back : List Bool}

theorem mapM_read {cells : List (Option Bool)} (offset : ℕ)
    (here : ∀ i (inside : i < values.length), cells[offset + i]? = some (some values[i])) :
    (List.range' offset values.length).mapM (Moves.read cells) = some values := by
  induction values generalizing offset with
  | nil => rfl
  | cons value values ih =>
      have first : Moves.read cells offset = some value := Moves.read_eq_some_iff.2 (here 0 (Nat.succ_pos _))
      have rest := ih (offset + 1) fun i inside => by
        rw [Nat.add_assoc, Nat.add_comm 1 i]
        exact here (i + 1) (Nat.succ_lt_succ inside)
      rw [List.length_cons, List.range'_succ, List.mapM_cons, first, rest]
      rfl

theorem LayoutBitmap.Holds.read (holds : bits.Holds values) : bits.read = some values := by
  rw [LayoutBitmap.read, holds.bitCount, List.range_eq_range']
  refine mapM_read 0 fun i inside => ?_
  rw [Nat.zero_add]
  exact holds.values i inside

theorem setBits_holds (holds : bits.Holds (front ++ middle ++ back)) :
    ∃ bits', setBits bits front.length middle.length = some bits' ∧
      bits'.Holds (front ++ List.replicate middle.length true ++ back) ∧ bits'.weak = bits.weak := by
  have count := holds.bitCount
  rw [List.length_append, List.length_append] at count
  have room : bits.bitCount ≤ bits.bits.length := holds.bitCount ▸ holds.length_le
  obtain ⟨cells, run, length, filled⟩ := fillBits_spec true (show front.length + middle.length ≤ bits.bitCount by omega) room
  refine ⟨{ bits with bits := cells }, run, ⟨?_, holds.fits, length.trans holds.allocated, fun i inside => ?_⟩, rfl⟩
  · rw [List.length_append, List.length_append, List.length_replicate]
    exact count
  · have value := List.getElem?_eq_getElem inside
    generalize (front ++ List.replicate middle.length true ++ back)[i] = bit at value ⊢
    rw [List.append_assoc, List.getElem?_append] at value
    show cells[i]? = _
    rw [filled]
    by_cases before : i < front.length
    · rw [if_pos before] at value
      rw [if_neg (by omega)]
      exact holds.getElem? (by rw [List.append_assoc, List.getElem?_append_left before, value])
    rw [if_neg before, List.getElem?_append, List.length_replicate] at value
    by_cases within : i - front.length < middle.length
    · rw [if_pos within, List.getElem?_replicate, if_pos within] at value
      rw [if_pos (by omega), Option.some.inj value]
    · rw [if_neg within] at value
      rw [if_neg (by omega)]
      refine holds.getElem? ?_
      rw [List.append_assoc, List.getElem?_append_right (by omega), List.getElem?_append_right (by omega), value]

theorem length_expandByte (c : BitVec 8) :
    (expandByte c).length = ((c &&& 0xF0) >>> 4).toNat + (c &&& 0x0F).toNat := by
  rw [expandByte, List.length_append, List.length_replicate, List.length_replicate]

theorem decompressFrom_spec {string : List (BitVec 8)} {room : ℕ} (nonzero : (0 : BitVec 8) ∉ string)
    (holds : bits.Holds (front ++ List.replicate room false)) (fits : (expand string).length ≤ room) :
    ∃ bits', decompressFrom string front.length bits = some bits' ∧
      bits'.Holds (front ++ expand string ++ List.replicate (room - (expand string).length) false) ∧ bits'.weak = bits.weak := by
  induction string generalizing front bits room with
  | nil => exact ⟨bits, rfl, by rw [show expand [] = [] from rfl, List.append_nil]; exact holds, rfl⟩
  | cons c string ih =>
      rw [List.mem_cons, not_or] at nonzero
      have split : expand (c :: string) = expandByte c ++ expand string := rfl
      rw [split, List.length_append, length_expandByte] at fits
      -- the zeros in front of the range, those of it and those behind it
      have zeros : List.replicate room false = List.replicate ((c &&& 0xF0) >>> 4).toNat false ++
          (List.replicate (c &&& 0x0F).toNat false ++
            List.replicate (room - ((c &&& 0xF0) >>> 4).toNat - (c &&& 0x0F).toNat) false) := by
        rw [← List.replicate_add, ← List.replicate_add]
        congr 1
        omega
      rw [zeros, ← List.append_assoc, ← List.append_assoc] at holds
      obtain ⟨middle, step, holds', weak⟩ := setBits_holds holds
      rw [List.length_append, List.length_replicate, List.length_replicate] at step
      rw [List.length_replicate, List.append_assoc front] at holds'
      obtain ⟨bits', run, done, weak'⟩ := ih nonzero.2 holds' (by omega)
      refine ⟨bits', ?_, ?_, weak'.trans weak⟩
      · rw [decompressFrom, if_neg (Ne.symm nonzero.1)]
        dsimp only
        rw [step, Option.bind_eq_bind, Option.bind_some, ← run, List.length_append, List.length_append, List.length_replicate,
          List.length_replicate, Nat.add_assoc]
      · have left : room - ((c &&& 0xF0) >>> 4).toNat - (c &&& 0x0F).toNat - (expand string).length =
            room - (expand (c :: string)).length := by
          rw [split, List.length_append, length_expandByte]
          omega
        rw [left] at done
        rw [split, ← List.append_assoc, ← split]
        exact done

theorem zeroBitmap_holds (words : ℕ) (weak : Bool) : (zeroBitmap words weak).Holds (List.replicate words false) := by
  refine ⟨List.length_replicate.symm, Nat.le_refl _, List.length_replicate, fun i inside => ?_⟩
  rw [List.length_replicate] at inside
  rw [List.getElem_replicate]
  show (List.replicate (byteBits words) (some false))[i]? = _
  rw [List.getElem?_replicate, if_pos (inside.trans_le (le_byteBits words))]

end Decompress

/-- A bitmap is had back from its string, which is `NULL` only for a weak bitmap without ones and for another one without
zeros, has no zero in front of its terminator, and fits in the buffer. -/
theorem layoutStringCreate_roundTrip {bits : LayoutBitmap} {values : List Bool} (holds : bits.Holds values) :
    ∃ compressed, layoutStringCreate bits = some compressed ∧
      (compressed.result = none →
        bits.weak = true ∧ (∀ bit ∈ values, bit = false) ∨ bits.weak = false ∧ ∀ bit ∈ values, bit = true) ∧
      (∀ string, compressed.result = some string →
        compressed.writer.layout.take compressed.writer.l = string ++ [0] ∧ (0 : BitVec 8) ∉ string) ∧
      compressed.writer.layout.length = bits.bitCount + 1 ∧ compressed.writer.l ≤ bits.bitCount + 1 ∧
      ∃ bits', layoutBitmapCreate compressed.result (bits.bitCount * 8) (bits.bitCount * 8) bits.weak = some bits' ∧
        bits'.Holds values ∧ bits'.weak = bits.weak := by
  obtain ⟨same, length, nonzero⟩ := bytesOf_spec values
  have count := holds.bitCount
  refine ⟨_, by rw [layoutStringCreate, holds.read]; exact compressLayout_eq values bits.weak, ?_, ?_, ?_, ?_, ?_⟩
  · intro null
    dsimp only at null
    split at null
    · next one =>
        rw [Bool.or_eq_true, Bool.and_eq_true, Bool.and_eq_true, List.all_eq_true, List.all_eq_true] at one
        exact one.imp (fun clear => ⟨clear.2, fun bit member => by simpa using clear.1 bit member⟩)
          fun set => ⟨by simpa using set.2, set.1⟩
    · cases null
  · intro string result
    dsimp only at result
    split at result
    · cases result
    · cases result
      exact ⟨List.take_left, nonzero⟩
  · show (bytesOf values ++ [0] ++ List.replicate (values.length - (bytesOf values).length) 0).length = _
    rw [List.length_append, List.length_append, List.length_replicate, List.length_singleton, count]
    omega
  · show (bytesOf values ++ [0]).length ≤ _
    rw [List.length_append, List.length_singleton, count]
    omega
  · dsimp only
    have words : bits.bitCount * 8 / 8 = values.length := by rw [count, Nat.mul_div_cancel _ (by decide)]
    have zeros := zeroBitmap_holds values.length bits.weak
    split
    · next one =>
        rw [layoutBitmapCreate, words]
        cases weak : bits.weak with
        | true =>
            rw [weak, Bool.and_true, Bool.not_true, Bool.and_false, Bool.or_false, List.all_eq_true] at one
            have clear : values = List.replicate values.length false :=
              List.eq_replicate_iff.2 ⟨rfl, fun bit member => by simpa using one bit member⟩
            rw [weak, ← clear] at zeros
            exact ⟨_, rfl, zeros, rfl⟩
        | false =>
            rw [weak, Bool.and_false, Bool.not_false, Bool.and_true, Bool.false_or, List.all_eq_true] at one
            have set : values = List.replicate values.length true := List.eq_replicate_iff.2 ⟨rfl, one⟩
            rw [weak, ← List.append_nil (List.replicate values.length false), ← List.nil_append (List.replicate values.length false)]
              at zeros
            obtain ⟨bits', run, done, same⟩ := setBits_holds zeros
            rw [List.length_replicate, List.nil_append, List.append_nil, ← set] at done
            rw [List.length_replicate] at run
            exact ⟨bits', run, done, same⟩
    · rw [layoutBitmapCreate, words]
      rw [← List.nil_append (List.replicate values.length false)] at zeros
      obtain ⟨bits', run, done, weak⟩ := decompressFrom_spec nonzero zeros (by rw [same])
      rw [same, Nat.sub_self, List.replicate_zero, List.append_nil, List.nil_append] at done
      exact ⟨bits', run, done, weak⟩

/-- Four bits, the inner two of them set. -/
def innerBits : LayoutBitmap where
  bits := [some false, some true, some true, some false, none, none, none, none]
  bitCount := 4
  bitsAllocated := 4
  weak := false

theorem innerBits_holds : innerBits.Holds [false, true, true, false] := by
  refine ⟨rfl, Nat.le_refl 4, rfl, fun i inside => ?_⟩
  match i, inside with
  | 0, _ => rfl
  | 1, _ => rfl
  | 2, _ => rfl
  | 3, _ => rfl

theorem innerBits_roundTrip : ∃ compressed, layoutStringCreate innerBits = some compressed ∧
    ∃ bits', layoutBitmapCreate compressed.result 32 32 false = some bits' ∧ bits'.Holds [false, true, true, false] :=
  let ⟨compressed, created, _, _, _, _, bits', run, holds, _⟩ := layoutStringCreate_roundTrip innerBits_holds
  ⟨compressed, created, bits', run, holds⟩

end ObjcDyld.IvarLayouts
