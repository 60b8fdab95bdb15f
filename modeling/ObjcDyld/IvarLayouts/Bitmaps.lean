import ObjcDyld.Common.Moves

/-!
# Layout bitmaps

The ivar layout of a class as a bitmap with one bit a word. Its end is slid when the superclass grows or
shrinks, and the bitmap of the superclass is pasted at its start.
-/

namespace ObjcDyld.IvarLayouts

/-- `layout_bitmap`. Bit `i` of the buffer is bit `i % 8` of byte `i / 8`; it is `none` before it has been written. -/
structure LayoutBitmap where
  bits : List (Option Bool)
  bitCount : ℕ
  bitsAllocated : ℕ
  weak : Bool
  deriving DecidableEq

def byteBits (count : ℕ) : ℕ := 8 * ((count + 7) / 8)

/-- `clear_bits`; `none` for a fatal error or a bit outside the buffer. -/
def clearBits (bits : LayoutBitmap) (which count : ℕ) : Option LayoutBitmap := do
  let bit := max which (min (which + count) bits.bitCount)
  let cleared ← (List.range' which (bit - which)).foldlM (fun cells bit => Moves.write cells bit false) bits.bits
  -- couldn't fit full type in bitmap
  if bit = bits.bitCount ∧ bit < which + count then none
  else some { bits with bits := cleared }

/-- Write one value to a range of bits, as `set_bits` and `clear_bits` do. -/
def fillBits (value : Bool) (bits : LayoutBitmap) (which count : ℕ) : Option LayoutBitmap := do
  let bit := max which (min (which + count) bits.bitCount)
  let filled ← (List.range' which (bit - which)).foldlM (fun cells bit => Moves.write cells bit value) bits.bits
  -- couldn't fit full type in bitmap
  if bit = bits.bitCount ∧ bit < which + count then none
  else some { bits with bits := filled }

/-- `set_bits`; `none` for a fatal error or a bit outside the buffer. -/
def setBits (bits : LayoutBitmap) (which count : ℕ) : Option LayoutBitmap := fillBits true bits which count

/-- `move_bits`; `none` for a bit that was not written or is outside the buffer. -/
def moveBits (bits : LayoutBitmap) (src dst count : ℕ) : Option LayoutBitmap :=
  if dst = src then some bits
  -- copy backwards in case of overlap
  else if dst > src then ((List.range count).reverse.foldlM (Moves.copy src dst) bits.bits).map fun cells => { bits with bits := cells }
  -- copy forwards in case of overlap
  else ((List.range count).foldlM (Moves.copy src dst) bits.bits).map fun cells => { bits with bits := cells }

/-- `realloc`; the new bits are undefined. -/
def realloc (cells : List (Option Bool)) (size : ℕ) : List (Option Bool) := cells.take size ++ List.replicate (size - cells.length) none

def layoutBitmapGrow (bits : LayoutBitmap) (newCount : ℕ) : LayoutBitmap :=
  if bits.bitCount ≥ newCount then bits
  else if bits.bitsAllocated < newCount then
    let newAllocated := bits.bitsAllocated * 2
    let newAllocated := if newAllocated < newCount then newCount else newAllocated
    { bits with bitCount := newCount, bits := realloc bits.bits (byteBits newAllocated), bitsAllocated := newAllocated }
  else { bits with bitCount := newCount }

def layoutBitmapSlide (bits : LayoutBitmap) (oldPos newPos : ℕ) : Option LayoutBitmap :=
  if oldPos = newPos then some bits
  -- layout bitmap sliding backwards
  else if oldPos > newPos then none
  else do
    let shift := newPos - oldPos
    let count := bits.bitCount - oldPos
    let bits := layoutBitmapGrow bits (bits.bitCount + shift)
    let bits ← moveBits bits oldPos newPos count
    clearBits bits oldPos shift

def layoutBitmapSlideAnywhere (bits : LayoutBitmap) (oldPos newPos : ℕ) : Option LayoutBitmap :=
  if oldPos = newPos then some bits
  else if oldPos < newPos then layoutBitmapSlide bits oldPos newPos
  else do
    let shift := oldPos - newPos
    let count := bits.bitCount - oldPos
    let bits ← moveBits bits oldPos newPos count
    return { bits with bitCount := bits.bitCount - shift }

/-- What `layout_bitmap_splat` leaves: the bits of `dst`, its result, and the bits of `dst` that it touched. -/
structure Splat where
  bits : List (Option Bool)
  changed : Bool
  touched : List ℕ
  deriving DecidableEq

/-- The bit that is pasted: one of the source, or zero behind its end. -/
def pasteBit (src : LayoutBitmap) (bit : ℕ) : Option Bool := if bit < src.bitCount then Moves.read src.bits bit else some false

/-- One round of the loop of `layout_bitmap_splat`. -/
def splatBit (src : LayoutBitmap) (splat : Splat) (bit : ℕ) : Option Splat := do
  let dstset ← Moves.read splat.bits bit
  let srcset ← pasteBit src bit
  if dstset ≠ srcset then
    let bits ← Moves.write splat.bits bit srcset
    return ⟨bits, true, splat.touched ++ [bit]⟩
  else return { splat with touched := splat.touched ++ [bit] }

/-- `layout_bitmap_splat`, with words of eight bytes. -/
def layoutBitmapSplat (dst src : LayoutBitmap) (oldSrcInstanceSize : ℕ) : Option Splat :=
  -- layout bitmap too short
  if dst.bitCount < src.bitCount then none
  else
    let oldSrcBitCount := oldSrcInstanceSize / 8
    (List.range oldSrcBitCount).foldlM (splatBit src) ⟨dst.bits, false, []⟩

variable {bits bits' : LayoutBitmap} {values : List Bool} {oldPos newPos shift : ℕ}

/-- A bitmap with these values, in a buffer of its size. -/
structure LayoutBitmap.Holds (bits : LayoutBitmap) (values : List Bool) : Prop where
  bitCount : bits.bitCount = values.length
  fits : bits.bitCount ≤ bits.bitsAllocated
  allocated : bits.bits.length = byteBits bits.bitsAllocated
  values : ∀ i (inside : i < values.length), bits.bits[i]? = some (some values[i])

theorem le_byteBits (count : ℕ) : count ≤ byteBits count := by
  rw [byteBits]
  omega

theorem byteBits_mono {first second : ℕ} (le : first ≤ second) : byteBits first ≤ byteBits second := by
  rw [byteBits, byteBits]
  omega

/-- A bitmap whose bits behind its end may not have been written. -/
structure Grown (bits bits' : LayoutBitmap) (newCount : ℕ) : Prop where
  bitCount : bits'.bitCount = newCount
  fits : bits'.bitCount ≤ bits'.bitsAllocated
  allocated : bits'.bits.length = byteBits bits'.bitsAllocated
  kept : ∀ i < bits.bitCount, bits'.bits[i]? = bits.bits[i]?

theorem grown_layoutBitmapGrow (holds : bits.Holds values) {newCount : ℕ} (up : bits.bitCount < newCount) :
    Grown bits (layoutBitmapGrow bits newCount) newCount := by
  rw [layoutBitmapGrow, if_neg (not_le.mpr up)]
  split
  next small =>
    dsimp only
    generalize allocation : (if bits.bitsAllocated * 2 < newCount then newCount else bits.bitsAllocated * 2) = newAllocated
    have enough : newCount ≤ newAllocated := by
      rw [← allocation]
      split <;> omega
    have larger : bits.bits.length ≤ byteBits newAllocated := by
      rw [holds.allocated]
      exact byteBits_mono (by omega)
    refine ⟨rfl, enough, ?_, fun i lt => ?_⟩
    · show (realloc bits.bits (byteBits newAllocated)).length = byteBits newAllocated
      rw [realloc, List.length_append, List.length_take, List.length_replicate]
      omega
    · have inside : i < bits.bits.length := by
        have := holds.fits
        have := le_byteBits bits.bitsAllocated
        rw [holds.allocated]
        omega
      show (realloc bits.bits (byteBits newAllocated))[i]? = bits.bits[i]?
      rw [realloc, List.take_of_length_le larger, List.getElem?_append_left inside]
  next fits => exact ⟨rfl, not_lt.mp fits, holds.allocated, fun _ _ => rfl⟩

/-- Values after a slide: the tail starts at the new position, and a gap is filled with zeros. -/
def slid (values : List Bool) (oldPos newPos : ℕ) : List Bool :=
  values.take (min oldPos newPos) ++ List.replicate (newPos - oldPos) false ++ values.drop oldPos

theorem length_slid (le : oldPos ≤ values.length) : (slid values oldPos newPos).length + oldPos = values.length + newPos := by
  rw [slid, List.length_append, List.length_append, List.length_take, List.length_replicate, List.length_drop]
  omega

theorem getElem_slid (le : oldPos ≤ values.length) {i : ℕ} (inside : i < (slid values oldPos newPos).length) :
    (i < min oldPos newPos ∧ values[i]? = some (slid values oldPos newPos)[i]) ∨
      (oldPos ≤ i ∧ i < newPos ∧ (slid values oldPos newPos)[i] = false) ∨
      (newPos ≤ i ∧ i - newPos < values.length - oldPos ∧ values[oldPos + (i - newPos)]? = some (slid values oldPos newPos)[i]) := by
  have length := @length_slid values oldPos newPos le
  have read : (slid values oldPos newPos)[i]? = some (slid values oldPos newPos)[i] := List.getElem?_eq_getElem inside
  generalize (slid values oldPos newPos)[i] = value at read ⊢
  have front : (values.take (min oldPos newPos)).length = min oldPos newPos := by
    rw [List.length_take]
    omega
  rw [slid, List.append_assoc, List.getElem?_append, front] at read
  by_cases before : i < min oldPos newPos
  · rw [if_pos before, List.getElem?_take_of_lt before] at read
    exact .inl ⟨before, read⟩
  rw [if_neg before, List.getElem?_append, List.length_replicate] at read
  by_cases gap : i - min oldPos newPos < newPos - oldPos
  · rw [if_pos gap, List.getElem?_replicate, if_pos gap] at read
    exact .inr (.inl ⟨by omega, by omega, (Option.some.inj read).symm⟩)
  · rw [if_neg gap, List.getElem?_drop] at read
    refine .inr (.inr ⟨by omega, by omega, ?_⟩)
    rw [← read]
    congr 1
    omega

theorem LayoutBitmap.Holds.getElem? (holds : bits.Holds values) {i : ℕ} {value : Bool} (here : values[i]? = some value) :
    bits.bits[i]? = some (some value) := by
  obtain ⟨inside, rfl⟩ := List.getElem?_eq_some_iff.mp here
  exact holds.values i inside

theorem LayoutBitmap.Holds.length_le (holds : bits.Holds values) : values.length ≤ bits.bits.length := by
  have fits := holds.fits
  have enough := le_byteBits bits.bitsAllocated
  rw [holds.allocated, ← holds.bitCount]
  exact fits.trans enough

theorem LayoutBitmap.Holds.written (holds : bits.Holds values) {i : ℕ} (inside : i < values.length) : ∃ value, bits.bits[i]? = some (some value) :=
  ⟨_, holds.values i inside⟩

theorem fillBits_spec (value : Bool) {which count : ℕ} (fits : which + count ≤ bits.bitCount)
    (allocated : bits.bitCount ≤ bits.bits.length) :
    ∃ cells, fillBits value bits which count = some { bits with bits := cells } ∧ cells.length = bits.bits.length ∧
      ∀ i, cells[i]? = if which ≤ i ∧ i < which + count then some (some value) else bits.bits[i]? := by
  have stop : max which (min (which + count) bits.bitCount) = which + count := by omega
  have inside (i : ℕ) (member : i ∈ List.range' which count) : i < bits.bits.length := by
    have := List.mem_range'_1.mp member
    omega
  obtain ⟨cells, run, length, filled⟩ := Moves.foldlM_write value (List.range' which count) inside
  refine ⟨cells, ?_, length, fun i => ?_⟩
  · rw [fillBits, stop, Nat.add_sub_cancel_left]
    simp only [run, Option.bind_eq_bind, Option.bind_some]
    rw [if_neg fun short => absurd short.2 (lt_irrefl _)]
  · rw [filled]
    by_cases member : i ∈ List.range' which count
    · rw [if_pos member, if_pos (List.mem_range'_1.mp member)]
    · rw [if_neg member, if_neg fun range => member (List.mem_range'_1.mpr range)]

theorem clearBits_spec {which count : ℕ} (fits : which + count ≤ bits.bitCount) (allocated : bits.bitCount ≤ bits.bits.length) :
    ∃ cells, clearBits bits which count = some { bits with bits := cells } ∧ cells.length = bits.bits.length ∧
      ∀ i, cells[i]? = if which ≤ i ∧ i < which + count then some (some false) else bits.bits[i]? :=
  fillBits_spec false fits allocated

theorem layoutBitmapSlide_spec (holds : bits.Holds values) (le : oldPos ≤ values.length) (up : oldPos ≤ newPos) :
    ∃ bits', layoutBitmapSlide bits oldPos newPos = some bits' ∧ bits'.Holds (slid values oldPos newPos) := by
  obtain rfl | up := up.eq_or_lt
  · refine ⟨bits, if_pos rfl, ?_⟩
    rw [slid, min_self, Nat.sub_self, List.replicate_zero, List.append_nil, List.take_append_drop]
    exact holds
  have count := holds.bitCount
  have grown := @grown_layoutBitmapGrow bits values holds (bits.bitCount + (newPos - oldPos)) (by omega)
  generalize eq : layoutBitmapGrow bits (bits.bitCount + (newPos - oldPos)) = larger at grown
  have room : larger.bitCount ≤ larger.bits.length := by
    rw [grown.allocated]
    exact grown.fits.trans (le_byteBits _)
  have larger_count := grown.bitCount
  -- the bits that are read are those from before
  have written (pos : ℕ) (lt : pos < bits.bitCount - oldPos) : ∃ value, larger.bits[oldPos + pos]? = some (some value) := by
    rw [grown.kept _ (by omega)]
    exact holds.written (by omega)
  obtain ⟨moved, move, moved_length, tail, kept⟩ := Moves.foldlM_copy_up up (bits.bitCount - oldPos) written (by omega)
  obtain ⟨cleared, clear, cleared_length, gap⟩ := @clearBits_spec { larger with bits := moved } oldPos (newPos - oldPos)
    (show _ ≤ larger.bitCount by omega) (show larger.bitCount ≤ moved.length by omega)
  refine ⟨{ larger with bits := cleared }, ?_, ?_, grown.fits, ?_, fun i inside => ?_⟩
  · rw [layoutBitmapSlide, if_neg up.ne, if_neg (not_lt.mpr up.le)]
    show (moveBits (layoutBitmapGrow bits _) oldPos newPos _).bind _ = _
    rw [eq, moveBits, if_neg up.ne', if_pos up, move]
    exact clear
  · have length := @length_slid values oldPos newPos le
    show larger.bitCount = _
    omega
  · exact (cleared_length.trans moved_length).trans grown.allocated
  · show cleared[i]? = _
    rw [gap]
    obtain ⟨before, value⟩ | ⟨from_old, to_new, zero⟩ | ⟨from_new, inside', value⟩ := getElem_slid le inside
    · rw [if_neg (by omega)]
      show moved[i]? = _
      rw [kept i (by omega), grown.kept i (by omega), holds.getElem? value]
    · rw [if_pos (by omega), zero]
    · rw [if_neg (by omega)]
      show moved[i]? = _
      have here := tail (i - newPos) (by omega)
      rw [show newPos + (i - newPos) = i by omega] at here
      rw [here, grown.kept _ (by omega), holds.getElem? value]

theorem layoutBitmapSlideAnywhere_spec (holds : bits.Holds values) (le : oldPos ≤ values.length) :
    ∃ bits', layoutBitmapSlideAnywhere bits oldPos newPos = some bits' ∧ bits'.Holds (slid values oldPos newPos) := by
  by_cases up : oldPos ≤ newPos
  · obtain ⟨bits', slide, holds'⟩ := layoutBitmapSlide_spec holds le up
    refine ⟨bits', ?_, holds'⟩
    rw [layoutBitmapSlideAnywhere]
    obtain rfl | up := up.eq_or_lt
    · rw [layoutBitmapSlide] at slide
      rw [if_pos rfl] at slide ⊢
      exact slide
    · rw [if_neg up.ne, if_pos up]
      exact slide
  have down : newPos < oldPos := not_le.mp up
  have count := holds.bitCount
  have room := holds.length_le
  have fits := holds.fits
  obtain ⟨moved, move, moved_length, tail, kept⟩ := Moves.foldlM_copy_down down (bits.bitCount - oldPos)
    (fun pos lt => holds.written (by omega)) (by omega)
  have length := @length_slid values oldPos newPos le
  refine ⟨{ bits with bits := moved, bitCount := bits.bitCount - (oldPos - newPos) }, ?_, ?_, ?_, ?_, fun i inside => ?_⟩
  · rw [layoutBitmapSlideAnywhere, if_neg down.ne', if_neg (not_lt.mpr down.le)]
    show (moveBits bits oldPos newPos _).bind _ = _
    rw [moveBits, if_neg down.ne, if_neg (not_lt.mpr down.le), move]
    rfl
  · show bits.bitCount - (oldPos - newPos) = _
    omega
  · show bits.bitCount - (oldPos - newPos) ≤ bits.bitsAllocated
    omega
  · exact moved_length.trans holds.allocated
  · show moved[i]? = _
    obtain ⟨before, value⟩ | ⟨from_old, to_new, -⟩ | ⟨from_new, inside', value⟩ := getElem_slid le inside
    · rw [kept i (by omega), holds.getElem? value]
    · omega
    · have here := tail (i - newPos) (by omega)
      rw [show newPos + (i - newPos) = i by omega] at here
      rw [here, holds.getElem? value]

end ObjcDyld.IvarLayouts
