import ObjcDyld.Common.Prefixes
import ObjcDyld.IvarLayouts.Bitmaps

/-!
# Pasting layout bitmaps

`layout_bitmap_splat` goes through the bits of the old source size. It pastes the whole source only where
the source is not longer than that, or where its end is in place already.
-/

namespace ObjcDyld.IvarLayouts

variable {dst src : LayoutBitmap} {splat splat' : Splat} {bit count : ℕ} {values : List Bool} {oldSrcInstanceSize : ℕ}

theorem splatBit_spec (step : splatBit src splat bit = some splat') :
    ∃ dstset srcset, splat.bits[bit]? = some (some dstset) ∧ pasteBit src bit = some srcset ∧
      splat' = ⟨splat.bits.set bit (some srcset), splat.changed || dstset != srcset, splat.touched ++ [bit]⟩ := by
  obtain ⟨dstset, here, rest⟩ := Option.bind_eq_some_iff.mp step
  obtain ⟨srcset, pasted, rest⟩ := Option.bind_eq_some_iff.mp rest
  have there := Moves.read_eq_some_iff.mp here
  refine ⟨dstset, srcset, there, pasted, ?_⟩
  obtain ⟨inside, value⟩ := List.getElem?_eq_some_iff.mp there
  by_cases same : dstset = srcset
  · rw [if_neg (not_not.mpr same)] at rest
    obtain rfl := Option.some.inj rest
    have unchanged : splat.bits.set bit (some srcset) = splat.bits := by
      rw [← same, ← value, List.set_getElem_self]
    rw [unchanged, same, bne_self_eq_false, Bool.or_false]
  · rw [if_pos same] at rest
    obtain ⟨cells, write, rest⟩ := Option.bind_eq_some_iff.mp rest
    rw [Moves.write, if_pos inside] at write
    obtain rfl := Option.some.inj write
    obtain rfl := Option.some.inj rest
    rw [(bne_iff_ne ..).mpr same, Bool.or_true]

/-- The loop of `layout_bitmap_splat` for some of the bits. -/
def splatBits (dst src : LayoutBitmap) (count : ℕ) : Option Splat := (List.range count).foldlM (splatBit src) ⟨dst.bits, false, []⟩

theorem splatBits_succ (count : ℕ) : splatBits dst src (count + 1) = (splatBits dst src count).bind fun splat => splatBit src splat count := by
  rw [splatBits, List.range_succ, List.foldlM_append, splatBits]
  refine congrArg (Option.bind _) (funext fun splat => ?_)
  exact bind_pure _

/-- What the loop leaves after some bits. -/
structure Splatting (dst src : LayoutBitmap) (count : ℕ) (splat : Splat) : Prop where
  touched : splat.touched = List.range count
  pasted : ∀ i < count, ∃ srcset, pasteBit src i = some srcset ∧ splat.bits[i]? = some (some srcset)
  rest : ∀ i, count ≤ i → splat.bits[i]? = dst.bits[i]?
  changed : splat.changed ↔ splat.bits ≠ dst.bits

theorem splatting_of_splatBits (run : splatBits dst src count = some splat) : Splatting dst src count splat := by
  induction count generalizing splat with
  | zero =>
      obtain rfl := Option.some.inj run
      exact ⟨rfl, fun i lt => absurd lt (Nat.not_lt_zero i), fun _ _ => rfl, ⟨fun changed => absurd changed Bool.false_ne_true, fun differ => absurd rfl differ⟩⟩
  | succ count ih =>
      rw [splatBits_succ] at run
      obtain ⟨before, run, step⟩ := Option.bind_eq_some_iff.mp run
      obtain ⟨touched, pasted, rest, changed⟩ := ih run
      obtain ⟨dstset, srcset, here, paste, rfl⟩ := splatBit_spec step
      obtain ⟨inside, -⟩ := List.getElem?_eq_some_iff.mp here
      have original := rest count le_rfl
      have other (i : ℕ) (apart : i ≠ count) : (before.bits.set count (some srcset))[i]? = before.bits[i]? :=
        List.getElem?_set_ne (Ne.symm apart)
      have now : (before.bits.set count (some srcset))[count]? = some (some srcset) := List.getElem?_set_self inside
      refine ⟨?_, fun i lt => ?_, fun i le => ?_, ?_⟩
      · show before.touched ++ [count] = _
        rw [touched, List.range_succ]
      · obtain lt | rfl := Nat.lt_succ_iff_lt_or_eq.mp lt
        · rw [other i lt.ne]
          exact pasted i lt
        · exact ⟨srcset, paste, now⟩
      · rw [other i (by omega)]
        exact rest i (by omega)
      · show (before.changed || dstset != srcset) = true ↔ _
        rw [Bool.or_eq_true, changed, bne_iff_ne]
        constructor
        · intro differ same
          have at_count : some (some srcset) = dst.bits[count]? := now.symm.trans (congrArg (·[count]?) same)
          have unchanged : dstset = srcset := by
            rw [← original, here] at at_count
            exact (Option.some.inj (Option.some.inj at_count)).symm
          refine differ.elim (fun differ => differ (List.ext_getElem? fun i => ?_)) fun differ => differ unchanged
          by_cases mine : i = count
          · rw [mine, original]
          · rw [← other i mine]
            exact congrArg (·[i]?) same
        · intro differ
          by_contra both
          obtain ⟨same, unchanged⟩ := not_or.mp both
          refine differ (List.ext_getElem? fun i => ?_)
          by_cases mine : i = count
          · show (before.bits.set count _)[i]? = _
            rw [mine, now, ← not_not.mp unchanged, ← here, original]
          · show (before.bits.set count _)[i]? = _
            rw [other i mine, not_not.mp same]

theorem splatBits_isSome (holds : dst.Holds values) {values' : List Bool} (holds' : src.Holds values') (le : count ≤ dst.bitCount) :
    ∃ splat, splatBits dst src count = some splat := by
  induction count with
  | zero => exact ⟨_, rfl⟩
  | succ count ih =>
      obtain ⟨splat, run⟩ := ih (by omega)
      have here : splat.bits[count]? = dst.bits[count]? := (splatting_of_splatBits run).rest count le_rfl
      obtain ⟨dstset, there⟩ := @LayoutBitmap.Holds.written dst values holds count (by rw [← holds.bitCount]; omega)
      rw [there] at here
      obtain ⟨inside, -⟩ := List.getElem?_eq_some_iff.mp here
      have paste : ∃ srcset, pasteBit src count = some srcset := by
        rw [pasteBit]
        split
        next within =>
          obtain ⟨srcset, source⟩ := @LayoutBitmap.Holds.written src values' holds' count (by rw [← holds'.bitCount]; omega)
          exact ⟨srcset, Moves.read_eq_some_iff.mpr source⟩
        next => exact ⟨false, rfl⟩
      obtain ⟨srcset, paste⟩ := paste
      rw [splatBits_succ, run, Option.bind_some]
      by_cases same : dstset = srcset
      · refine ⟨{ splat with touched := splat.touched ++ [count] }, ?_⟩
        show (Moves.read splat.bits count).bind _ = _
        rw [Moves.read_eq_some_iff.mpr here, Option.bind_some]
        show (pasteBit src count).bind _ = _
        rw [paste, Option.bind_some, if_neg (not_not.mpr same)]
        rfl
      · refine ⟨⟨splat.bits.set count (some srcset), true, splat.touched ++ [count]⟩, ?_⟩
        show (Moves.read splat.bits count).bind _ = _
        rw [Moves.read_eq_some_iff.mpr here, Option.bind_some]
        show (pasteBit src count).bind _ = _
        rw [paste, Option.bind_some, if_pos same]
        show (Moves.write splat.bits count srcset).bind _ = _
        rw [Moves.write, if_pos inside]
        rfl

/-- The source stands at the start, bits from its end to the old size are zero, all others are as they were; no
bit behind the end is touched, and the result says whether a bit was changed. -/
structure Pasted (dst src : LayoutBitmap) (oldSrcInstanceSize : ℕ) (splat : Splat) : Prop where
  source : ∀ i < src.bitCount, splat.bits[i]? = src.bits[i]?
  zeroed : ∀ i, src.bitCount ≤ i → i < oldSrcInstanceSize / 8 → splat.bits[i]? = some (some false)
  others : ∀ i, src.bitCount ≤ i → oldSrcInstanceSize / 8 ≤ i → splat.bits[i]? = dst.bits[i]?
  touched : ∀ i ∈ splat.touched, i < dst.bitCount
  changed : splat.changed ↔ splat.bits ≠ dst.bits

theorem layoutBitmapSplat_eq (long : src.bitCount ≤ dst.bitCount) :
    layoutBitmapSplat dst src oldSrcInstanceSize = splatBits dst src (oldSrcInstanceSize / 8) :=
  if_neg (not_lt.mpr long)

/-- `layout_bitmap_splat` pastes the source exactly if the old source size fits in the target, and what the
source has behind that size is in the target already. -/
theorem layoutBitmapSplat_iff {values' : List Bool} (holds : dst.Holds values) (holds' : src.Holds values') (long : src.bitCount ≤ dst.bitCount)
    (oldSrcInstanceSize : ℕ) :
    (∃ splat, layoutBitmapSplat dst src oldSrcInstanceSize = some splat ∧ Pasted dst src oldSrcInstanceSize splat) ↔
      oldSrcInstanceSize / 8 ≤ dst.bitCount ∧ ∀ i, oldSrcInstanceSize / 8 ≤ i → i < src.bitCount → dst.bits[i]? = src.bits[i]? := by
  rw [layoutBitmapSplat_eq long]
  constructor
  · rintro ⟨splat, run, pasted⟩
    have splatting := splatting_of_splatBits run
    constructor
    · by_contra beyond
      have member : dst.bitCount ∈ splat.touched := by
        rw [splatting.touched]
        exact List.mem_range.mpr (not_le.mp beyond)
      exact absurd (pasted.touched _ member) (lt_irrefl _)
    · intro i le lt
      rw [← splatting.rest i le, pasted.source i lt]
  · rintro ⟨fits, agree⟩
    obtain ⟨splat, run⟩ := splatBits_isSome holds holds' fits
    have splatting := splatting_of_splatBits run
    refine ⟨splat, run, fun i lt => ?_, fun i le lt => ?_, fun i _ le => splatting.rest i le, fun i member => ?_, splatting.changed⟩
    · by_cases inside : i < oldSrcInstanceSize / 8
      · obtain ⟨srcset, paste, here⟩ := splatting.pasted i inside
        rw [pasteBit, if_pos lt] at paste
        rw [here, Moves.read_eq_some_iff.mp paste]
      · rw [splatting.rest i (not_lt.mp inside), agree i (not_lt.mp inside) lt]
    · obtain ⟨srcset, paste, here⟩ := splatting.pasted i lt
      rw [pasteBit, if_neg (not_lt.mpr le)] at paste
      rw [here, ← Option.some.inj paste]
    · rw [splatting.touched] at member
      exact (List.mem_range.mp member).trans_le fits

/-- Slides move the tail of every bitmap, and pasting is right exactly if the old source size fits in the target
and the target has the rest of the source. -/
theorem layoutBitmap_edits {values' : List Bool} (holds : dst.Holds values) (holds' : src.Holds values') (long : src.bitCount ≤ dst.bitCount)
    (oldSrcInstanceSize : ℕ) :
    (∀ oldPos newPos, oldPos ≤ values.length → oldPos ≤ newPos →
      ∃ bits', layoutBitmapSlide dst oldPos newPos = some bits' ∧ bits'.Holds (slid values oldPos newPos)) ∧
    (∀ oldPos newPos, oldPos ≤ values.length →
      ∃ bits', layoutBitmapSlideAnywhere dst oldPos newPos = some bits' ∧ bits'.Holds (slid values oldPos newPos)) ∧
    ((∃ splat, layoutBitmapSplat dst src oldSrcInstanceSize = some splat ∧ Pasted dst src oldSrcInstanceSize splat) ↔
      oldSrcInstanceSize / 8 ≤ dst.bitCount ∧ ∀ i, oldSrcInstanceSize / 8 ≤ i → i < src.bitCount → dst.bits[i]? = src.bits[i]?) :=
  ⟨fun _ _ => layoutBitmapSlide_spec holds, fun _ _ => layoutBitmapSlideAnywhere_spec holds, layoutBitmapSplat_iff holds holds' long oldSrcInstanceSize⟩

def byteBitmap (values : List Bool) : LayoutBitmap := ⟨values.map some ++ List.replicate (8 - values.length) (some false), values.length, values.length, false⟩

theorem holds_byteBitmap (short : 0 < values.length) (byte : values.length ≤ 8) : (byteBitmap values).Holds values := by
  refine ⟨rfl, le_rfl, ?_, fun i inside => ?_⟩
  · show (values.map some ++ _).length = byteBits values.length
    rw [List.length_append, List.length_map, List.length_replicate, byteBits]
    omega
  · show (values.map some ++ _)[i]? = _
    rw [List.getElem?_append_left (by rw [List.length_map]; exact inside), List.getElem?_map, List.getElem?_eq_getElem inside]
    rfl

/-- A source of two words over an old one of three. -/
theorem layoutBitmap_edits_three :
    ∃ splat, layoutBitmapSplat (byteBitmap [true, false, true, true]) (byteBitmap [false, true]) 24 = some splat ∧
      Pasted (byteBitmap [true, false, true, true]) (byteBitmap [false, true]) 24 splat :=
  (layoutBitmap_edits (holds_byteBitmap (by decide) (by decide)) (holds_byteBitmap (by decide) (by decide)) (by decide) 24).2.2.mpr
    ⟨by decide, fun i above below => absurd (above.trans_lt below) (by decide)⟩

/-- A source of two words over an old one of one word: the second word is not pasted. -/
theorem not_pasted_longer :
    ∃ splat, layoutBitmapSplat (byteBitmap [false, false]) (byteBitmap [false, true]) 8 = some splat ∧
      ¬Pasted (byteBitmap [false, false]) (byteBitmap [false, true]) 8 splat := by
  refine ⟨⟨(byteBitmap [false, false]).bits, false, [0]⟩, by decide, fun pasted => ?_⟩
  exact absurd (pasted.source 1 (by decide)) (by decide)

end ObjcDyld.IvarLayouts
