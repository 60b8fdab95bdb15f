import ObjcDyld.Common.Prefixes

/-!
# Text fixup patterns

The compression of an i386 image's text relocations by `ClosureBuilder::addRebaseInfo`
and their decoding by `Image::forEachTextReloc`.
-/

namespace ObjcDyld.Closures

/-- `Image::TextFixupPattern`. -/
structure TextFixupPattern where
  target : BitVec 64
  startVmOffset : BitVec 32
  repeatCount : BitVec 16
  skipCount : BitVec 16
deriving DecidableEq

/-- A handler call of `Image::forEachTextReloc`. -/
inductive TextReloc where
  | rebase (imageOffsetToRebase : BitVec 32)
  | bind (imageOffsetToBind : BitVec 32) (bindTarget : BitVec 64)
deriving DecidableEq

/-- The loop over one pattern, from `curOffset` on. -/
def textOffsetsFrom (skipCount : BitVec 16) : ℕ → BitVec 32 → List (BitVec 32)
  | 0, _ => []
  | n + 1, curOffset => curOffset :: textOffsetsFrom skipCount n (curOffset + skipCount.setWidth 32)

namespace TextFixupPattern

def offsets (pat : TextFixupPattern) : List (BitVec 32) :=
  textOffsetsFrom pat.skipCount pat.repeatCount.toNat pat.startVmOffset

def relocs (pat : TextFixupPattern) : List TextReloc :=
  pat.offsets.map fun offset => if pat.target = 0 then .rebase offset else .bind offset pat.target

def single (runtimeOffset : BitVec 32) : TextFixupPattern := ⟨0, runtimeOffset, 1, 0⟩

end TextFixupPattern

/-- The handler calls of `Image::forEachTextReloc`. -/
def forEachTextReloc (textFixups : List TextFixupPattern) : List TextReloc :=
  textFixups.flatMap TextFixupPattern.relocs

/-- `tooMany` is set with the builder's error, after which `forEachTextRebase` stops. -/
structure TextState where
  textRebases : List TextFixupPattern
  lastOffset : BitVec 64
  tooMany : Bool

namespace TextState

/-- The last pattern with one more offset, where the builder can merge it. -/
def extend (back : TextFixupPattern) (skipAmount : BitVec 32) : Option TextFixupPattern :=
  if back.repeatCount = 1 ∧ back.skipCount = 0 then
    some { back with repeatCount := 2, skipCount := skipAmount.setWidth 16 }
  else if back.skipCount.setWidth 32 = skipAmount then
    some { back with repeatCount := back.repeatCount + 1 }
  else none

/-- The patterns when the offset is `mergedIntoPrevious`. -/
def mergeIntoPrevious (state : TextState) (runtimeOffset : BitVec 32) : Option (List TextFixupPattern) :=
  match state.textRebases.getLast? with
  | none => none
  | some back =>
      if state.lastOffset < runtimeOffset.setWidth 64 then
        (extend back ((runtimeOffset.setWidth 64 - state.lastOffset).setWidth 32)).map fun pattern =>
          state.textRebases.dropLast ++ [pattern]
      else none

/-- The callback of `addRebaseInfo` for a text rebase. -/
def addTextRebase (state : TextState) (runtimeOffset : BitVec 32) : TextState where
  textRebases := (state.mergeIntoPrevious runtimeOffset).getD
    (state.textRebases ++ [TextFixupPattern.single runtimeOffset])
  lastOffset := runtimeOffset.setWidth 64
  tooMany := state.tooMany || decide (512 - state.textRebases.length < 2)

def start : TextState := ⟨[], -4, false⟩

end TextState

/-- When the callback keeps the offsets: the gap of a pattern's first two offsets fits in
`skipCount`, and one more offset in `repeatCount`. -/
structure FitsPattern (state : TextState) (runtimeOffset : BitVec 32) : Prop where
  gap : ∀ back ∈ state.textRebases.getLast?, state.lastOffset < runtimeOffset.setWidth 64 →
    back.repeatCount = 1 → back.skipCount = 0 → (runtimeOffset.setWidth 64 - state.lastOffset).toNat < 2 ^ 16
  count : ∀ back ∈ state.textRebases.getLast?, state.lastOffset < runtimeOffset.setWidth 64 →
    back.skipCount.toNat = (runtimeOffset.setWidth 64 - state.lastOffset).toNat → back.repeatCount.toNat < 0xFFFF

/-- The patterns decode to the text rebases they were built from. -/
def TextLossless (done : List (BitVec 32)) (state : TextState) : Prop :=
  forEachTextReloc state.textRebases = done.map TextReloc.rebase

instance (done : List (BitVec 32)) (state : TextState) : Decidable (TextLossless done state) :=
  inferInstanceAs (Decidable (_ = _))

theorem textOffsetsFrom_succ (skipCount : BitVec 16) (n : ℕ) (curOffset : BitVec 32) :
    textOffsetsFrom skipCount (n + 1) curOffset =
      textOffsetsFrom skipCount n curOffset ++ [curOffset + BitVec.ofNat 32 n * skipCount.setWidth 32] := by
  induction n generalizing curOffset with
  | zero => simp [textOffsetsFrom]
  | succ n ih =>
      rw [textOffsetsFrom, ih, textOffsetsFrom, List.cons_append, BitVec.ofNat_add, BitVec.add_mul,
        BitVec.one_mul]
      congr 3
      abel

theorem textOffsetsFrom_length (skipCount : BitVec 16) (n : ℕ) (curOffset : BitVec 32) :
    (textOffsetsFrom skipCount n curOffset).length = n := by
  induction n generalizing curOffset with
  | zero => rfl
  | succ n ih => rw [textOffsetsFrom, List.length_cons, ih]

structure TextFixupPattern.EndsAt (pat : TextFixupPattern) (lastOffset : BitVec 64) : Prop where
  rebases : pat.target = 0
  positive : 0 < pat.repeatCount.toNat
  last : lastOffset = (pat.startVmOffset + BitVec.ofNat 32 (pat.repeatCount.toNat - 1) *
    pat.skipCount.setWidth 32).setWidth 64

def TextState.Tracked (state : TextState) : Prop :=
  ∀ back ∈ state.textRebases.getLast?, back.EndsAt state.lastOffset

variable {state : TextState} {runtimeOffset : BitVec 32} {done : List (BitVec 32)}

theorem relocs_of_rebases {pat : TextFixupPattern} (rebases : pat.target = 0) :
    pat.relocs = pat.offsets.map TextReloc.rebase := by
  rw [TextFixupPattern.relocs]
  simp only [if_pos rebases]

theorem forEachTextReloc_append (first second : List TextFixupPattern) :
    forEachTextReloc (first ++ second) = forEachTextReloc first ++ forEachTextReloc second :=
  List.flatMap_append

theorem forEachTextReloc_single (pat : TextFixupPattern) : forEachTextReloc [pat] = pat.relocs :=
  List.flatMap_singleton ..

/-- What the callback does to the patterns: with the gap from the last offset, the last pattern
gets its second offset or one more, or there is a new pattern. -/
inductive TextAdded (state : TextState) (runtimeOffset : BitVec 32) : List TextFixupPattern → Prop
  | second (before back) (eq : state.textRebases = before ++ [back])
      (later : state.lastOffset < runtimeOffset.setWidth 64) (once : back.repeatCount = 1)
      (none : back.skipCount = 0) :
      TextAdded state runtimeOffset (before ++ [{ back with
        repeatCount := 2
        skipCount := (runtimeOffset.setWidth 64 - state.lastOffset).setWidth 16 }])
  | more (before back) (eq : state.textRebases = before ++ [back])
      (later : state.lastOffset < runtimeOffset.setWidth 64)
      (same : back.skipCount.toNat = (runtimeOffset.setWidth 64 - state.lastOffset).toNat) :
      TextAdded state runtimeOffset (before ++ [{ back with repeatCount := back.repeatCount + 1 }])
  | new (fits : FitsPattern state runtimeOffset) :
      TextAdded state runtimeOffset (state.textRebases ++ [TextFixupPattern.single runtimeOffset])

theorem addTextRebase_added : TextAdded state runtimeOffset (state.addTextRebase runtimeOffset).textRebases := by
  have small {gap : BitVec 64} (eq : gap = runtimeOffset.setWidth 64 - state.lastOffset)
      (later : state.lastOffset < runtimeOffset.setWidth 64) : (gap.setWidth 32).toNat = gap.toNat := by
    rw [BitVec.toNat_setWidth]
    bv_omega
  rw [TextState.addTextRebase, TextState.mergeIntoPrevious]
  split
  · rename_i empty
    refine .new ⟨?_, ?_⟩ <;> rw [empty] <;> nofun
  · rename_i back last
    obtain ⟨before, eq⟩ := List.getLast?_eq_some_iff.mp last
    have held {found : TextFixupPattern} (found_last : found ∈ state.textRebases.getLast?) : found = back :=
      Option.some.inj (found_last.symm.trans last)
    by_cases later : state.lastOffset < runtimeOffset.setWidth 64
    · rw [if_pos later, TextState.extend, eq, List.dropLast_concat]
      by_cases first : back.repeatCount = 1 ∧ back.skipCount = 0
      · rw [if_pos first]
        have gap : ((runtimeOffset.setWidth 64 - state.lastOffset).setWidth 32).setWidth 16 =
            (runtimeOffset.setWidth 64 - state.lastOffset).setWidth 16 :=
          BitVec.setWidth_setWidth_of_le _ (by decide)
        rw [gap]
        exact .second before back eq later first.1 first.2
      · rw [if_neg first]
        by_cases same : back.skipCount.setWidth 32 = (runtimeOffset.setWidth 64 - state.lastOffset).setWidth 32
        · have same' := congrArg BitVec.toNat same
          rw [small rfl later, BitVec.toNat_setWidth_of_le (by decide)] at same'
          rw [if_pos same]
          exact .more before back eq later same'
        · rw [if_neg same, ← eq]
          refine .new ⟨?_, ?_⟩
          · intro found found_last _ once none
            rw [held found_last] at once none
            exact absurd ⟨once, none⟩ first
          · intro found found_last _ equal
            rw [held found_last] at equal
            refine absurd (BitVec.eq_of_toNat_eq ?_) same
            rw [small rfl later, BitVec.toNat_setWidth_of_le (by decide), equal]
    · rw [if_neg later]
      exact .new ⟨fun _ _ before => absurd before later, fun _ _ before => absurd before later⟩

theorem single_relocs : (TextFixupPattern.single runtimeOffset).relocs = [TextReloc.rebase runtimeOffset] := rfl

theorem single_ends : (TextFixupPattern.single runtimeOffset).EndsAt (runtimeOffset.setWidth 64) := by
  refine ⟨rfl, Nat.one_pos, ?_⟩
  simp [TextFixupPattern.single]

theorem second_offset_iff {back : TextFixupPattern} (ends : back.EndsAt state.lastOffset)
    (later : state.lastOffset < runtimeOffset.setWidth 64) (once : back.repeatCount = 1) :
    back.startVmOffset + ((runtimeOffset.setWidth 64 - state.lastOffset).setWidth 16).setWidth 32 =
        runtimeOffset ↔
      (runtimeOffset.setWidth 64 - state.lastOffset).toNat < 2 ^ 16 := by
  have last : state.lastOffset = back.startVmOffset.setWidth 64 := by
    rw [ends.last, once]
    simp
  rw [last] at later ⊢
  have order : back.startVmOffset < runtimeOffset := by bv_omega
  have gap : (runtimeOffset.setWidth 64 - back.startVmOffset.setWidth 64).toNat =
      runtimeOffset.toNat - back.startVmOffset.toNat := by bv_omega
  have cut : (((runtimeOffset.setWidth 64 - back.startVmOffset.setWidth 64).setWidth 16).setWidth 32).toNat =
      (runtimeOffset.toNat - back.startVmOffset.toNat) % 2 ^ 16 := by
    rw [BitVec.toNat_setWidth_of_le (by decide), BitVec.toNat_setWidth, gap]
  rw [gap, ← BitVec.toNat_inj, BitVec.toNat_add, cut]
  have := runtimeOffset.isLt
  have order := BitVec.lt_def.mp order
  omega

theorem more_offset {back : TextFixupPattern} (ends : back.EndsAt state.lastOffset)
    (same : back.skipCount.toNat = (runtimeOffset.setWidth 64 - state.lastOffset).toNat) :
    runtimeOffset = back.startVmOffset + BitVec.ofNat 32 back.repeatCount.toNat * back.skipCount.setWidth 32 := by
  have last := ends.last
  obtain ⟨n, count⟩ : ∃ n, back.repeatCount.toNat = n + 1 := ⟨_, (Nat.sub_add_cancel ends.positive).symm⟩
  rw [count, Nat.add_sub_cancel] at last
  rw [count, BitVec.ofNat_add, BitVec.add_mul, BitVec.one_mul, ← BitVec.add_assoc]
  generalize back.startVmOffset + BitVec.ofNat 32 n * back.skipCount.setWidth 32 = lastOffset at last ⊢
  rw [last] at same
  bv_omega

theorem TextState.addTextRebase_spec (tracked : state.Tracked) (lossless : TextLossless done state) :
    (FitsPattern state runtimeOffset → (state.addTextRebase runtimeOffset).Tracked ∧
        TextLossless (done ++ [runtimeOffset]) (state.addTextRebase runtimeOffset)) ∧
      (TextLossless (done ++ [runtimeOffset]) (state.addTextRebase runtimeOffset) →
        FitsPattern state runtimeOffset) := by
  have added : TextAdded state runtimeOffset (state.addTextRebase runtimeOffset).textRebases :=
    addTextRebase_added
  have here : (state.addTextRebase runtimeOffset).lastOffset = runtimeOffset.setWidth 64 := rfl
  rw [TextState.Tracked, here]
  rw [TextLossless] at lossless ⊢
  rw [List.map_append, List.map_singleton, ← lossless]
  generalize (state.addTextRebase runtimeOffset).textRebases = next at added ⊢
  cases added with
  | second before back eq later once none =>
      have ends := tracked back (by rw [eq]; exact List.getLast?_concat ..)
      have held {found : TextFixupPattern} (last : found ∈ state.textRebases.getLast?) : found = back := by
        rw [eq, List.getLast?_concat] at last
        exact (Option.some.inj last).symm
      have offsets : back.offsets = [back.startVmOffset] := by
        rw [TextFixupPattern.offsets, once]
        rfl
      have decoded_iff : forEachTextReloc (before ++ [{ back with
            repeatCount := 2
            skipCount := (runtimeOffset.setWidth 64 - state.lastOffset).setWidth 16 }]) =
          forEachTextReloc state.textRebases ++ [TextReloc.rebase runtimeOffset] ↔
          (runtimeOffset.setWidth 64 - state.lastOffset).toNat < 2 ^ 16 := by
        have relocs : TextFixupPattern.relocs { back with
            repeatCount := 2
            skipCount := (runtimeOffset.setWidth 64 - state.lastOffset).setWidth 16 } = _ :=
          relocs_of_rebases ends.rebases
        rw [← second_offset_iff ends later once, eq, forEachTextReloc_append, forEachTextReloc_append,
          forEachTextReloc_single, forEachTextReloc_single, relocs, relocs_of_rebases ends.rebases, offsets,
          List.append_assoc, List.append_cancel_left_eq]
        simp [TextFixupPattern.offsets, textOffsetsFrom]
      rw [decoded_iff]
      refine ⟨fun fits => ?_, fun short => ⟨fun _ _ _ _ _ => short, fun found last _ same => ?_⟩⟩
      · have short := fits.gap back (by rw [eq]; exact List.getLast?_concat ..) later once none
        refine ⟨fun found last => ?_, short⟩
        obtain rfl := Option.some.inj ((List.getLast?_concat ..).symm.trans last)
        have next := ((second_offset_iff ends later once).mpr short).symm
        exact ⟨ends.rebases, Nat.two_pos, congrArg (BitVec.setWidth 64) (next.trans (by simp))⟩
      · rw [held last, none] at same
        bv_omega
  | more before back eq later same =>
      have ends := tracked back (by rw [eq]; exact List.getLast?_concat ..)
      have held {found : TextFixupPattern} (last : found ∈ state.textRebases.getLast?) : found = back := by
        rw [eq, List.getLast?_concat] at last
        exact (Option.some.inj last).symm
      have next := more_offset ends same
      have relocs : TextFixupPattern.relocs { back with repeatCount := back.repeatCount + 1 } = _ :=
        relocs_of_rebases ends.rebases
      rw [eq, forEachTextReloc_append, forEachTextReloc_append, forEachTextReloc_single, forEachTextReloc_single,
        relocs, relocs_of_rebases ends.rebases]
      refine ⟨fun fits => ?_, fun decoded => ⟨fun found last _ once none => ?_, fun found last _ _ => ?_⟩⟩
      · have room := fits.count back (by rw [eq]; exact List.getLast?_concat ..) later same
        have count : (back.repeatCount + 1).toNat = back.repeatCount.toNat + 1 := by bv_omega
        refine ⟨fun found last => ?_, ?_⟩
        · obtain rfl := Option.some.inj ((List.getLast?_concat ..).symm.trans last)
          refine ⟨ends.rebases, by rw [count]; exact Nat.succ_pos _, ?_⟩
          rw [count, Nat.add_sub_cancel, ← next]
        · rw [TextFixupPattern.offsets, count, textOffsetsFrom_succ, ← next, List.map_append, List.append_assoc]
          rfl
      · rw [held last] at none
        rw [none] at same
        bv_omega
      · rw [held last]
        by_contra full
        have max : back.repeatCount = 0xFFFF := by bv_omega
        have count := congrArg List.length decoded
        simp only [List.length_append, List.length_map, TextFixupPattern.offsets, textOffsetsFrom_length, max] at count
        change _ + 0 = _ + 65535 + 1 at count
        omega
  | new fits =>
      refine ⟨fun _ => ⟨fun found last => ?_, ?_⟩, fun _ => fits⟩
      · obtain rfl := Option.some.inj ((List.getLast?_concat ..).symm.trans last)
        exact single_ends
      · rw [forEachTextReloc_append, forEachTextReloc_single, single_relocs]

theorem text_lossless_prefixes_iff (offsets : List (BitVec 32)) :
    (∀ done rest, offsets = done ++ rest → ∃ state,
        done.foldlM (fun state offset => some (state.addTextRebase offset)) TextState.start = some state ∧
          TextLossless done state) ↔
      ∀ done offset rest state, offsets = done ++ offset :: rest →
        done.foldlM (fun state offset => some (TextState.addTextRebase state offset)) TextState.start =
          some state → FitsPattern state offset := by
  have init : TextState.start.Tracked := fun _ last => nomatch last
  refine Prefixes.holds_iff_safe
    (fun done state => TextState.Tracked state ∧ TextLossless done state)
    ⟨init, rfl⟩ ?_ (fun _ _ good => good.2) offsets
  intro done state offset good
  exact ⟨_, rfl, TextState.addTextRebase_spec good.1 good.2⟩

end ObjcDyld.Closures
