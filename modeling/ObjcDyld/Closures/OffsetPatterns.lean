import ObjcDyld.Common.Prefixes

/-!
# Offsets in pointers

Locations that are a number of pointers after another one. Image offsets are 64-bit
numbers and a pointer has four or eight bytes.
-/

namespace ObjcDyld.Closures

/-- The location `k` pointers after `start`. -/
def pointerAt (ptrSize start : BitVec 64) (k : ℕ) : BitVec 64 := start + ptrSize * BitVec.ofNat 64 k

variable {ptrSize start : BitVec 64}

@[simp] theorem pointerAt_zero : pointerAt ptrSize start 0 = start := by simp [pointerAt]

theorem pointerAt_add (j k : ℕ) :
    pointerAt ptrSize (pointerAt ptrSize start j) k = pointerAt ptrSize start (j + k) := by
  rw [pointerAt, pointerAt, pointerAt, BitVec.add_assoc, BitVec.ofNat_add, BitVec.mul_add]

theorem pointerAt_succ (k : ℕ) : pointerAt ptrSize start (k + 1) = pointerAt ptrSize start k + ptrSize := by
  rw [← pointerAt_add, pointerAt, BitVec.mul_one]

theorem pointerAt_inj (size : ptrSize = 4 ∨ ptrSize = 8) {j k : ℕ} (hj : j < 2 ^ 32) (hk : k < 2 ^ 32)
    (same : pointerAt ptrSize start j = pointerAt ptrSize start k) : j = k := by
  have product := congrArg BitVec.toNat (add_left_cancel same)
  rw [BitVec.toNat_mul, BitVec.toNat_mul, BitVec.toNat_ofNat, BitVec.toNat_ofNat] at product
  rcases size with rfl | rfl
  · change 4 * (j % 2 ^ 64) % 2 ^ 64 = 4 * (k % 2 ^ 64) % 2 ^ 64 at product
    omega
  · change 8 * (j % 2 ^ 64) % 2 ^ 64 = 8 * (k % 2 ^ 64) % 2 ^ 64 at product
    omega

end ObjcDyld.Closures

/-!
## Offset patterns

`Image::BindPattern`, `Image::ProtocolISAFixup`, `Image::ClassStableSwiftFixup` and
`Image::MethodListFixup` describe offsets in the same way: a first one and how often
it is repeated with how many pointers skipped. The builder's rules for extending a
pattern are the same for all of them.
-/

namespace ObjcDyld.Closures

structure OffsetPattern where
  startVmOffset : BitVec 40
  skipCount : BitVec 8
  repeatCount : BitVec 16
deriving DecidableEq

/-- The loop of `Image::forEachFixup` over one pattern, from `curBindOffset` on. -/
def offsetsFrom (pointerSize : BitVec 64) (skipCount : ℕ) : ℕ → BitVec 64 → List (BitVec 64)
  | 0, _ => []
  | n + 1, curBindOffset =>
      curBindOffset :: offsetsFrom pointerSize skipCount n (pointerAt pointerSize curBindOffset (1 + skipCount))

namespace OffsetPattern

def offsets (pointerSize : BitVec 64) (pattern : OffsetPattern) : List (BitVec 64) :=
  offsetsFrom pointerSize pattern.skipCount.toNat pattern.repeatCount.toNat (pattern.startVmOffset.setWidth 64)

def single (runtimeOffset : BitVec 64) : OffsetPattern := ⟨runtimeOffset.setWidth 40, 0, 1⟩

/-- The last pattern with one more offset, where the builder can merge it. -/
def extend (ptrSize lastOffset : BitVec 64) (back : OffsetPattern) (runtimeOffset : BitVec 64) :
    Option OffsetPattern :=
  let gap := runtimeOffset - lastOffset - ptrSize
  let skipAmount := gap / ptrSize
  if skipAmount * ptrSize ≠ gap then none -- a misaligned pointer
  else if back.repeatCount = 1 ∧ back.skipCount = 0 ∧ skipAmount ≤ 255 then
    some { back with repeatCount := 2, skipCount := skipAmount.setWidth 8 }
  else if back.skipCount.setWidth 64 = skipAmount ∧ back.repeatCount < 0xfff then
    some { back with repeatCount := back.repeatCount + 1 }
  else none

structure EndsAt (ptrSize : BitVec 64) (pattern : OffsetPattern) (lastOffset : BitVec 64) : Prop where
  positive : 0 < pattern.repeatCount.toNat
  bounded : pattern.repeatCount.toNat ≤ 0xfff
  last : lastOffset = pointerAt ptrSize (pattern.startVmOffset.setWidth 64)
    ((pattern.repeatCount.toNat - 1) * (1 + pattern.skipCount.toNat))

variable {ptrSize lastOffset runtimeOffset : BitVec 64} {back pattern : OffsetPattern}

theorem offsetsFrom_succ (skipCount n : ℕ) (start : BitVec 64) :
    offsetsFrom ptrSize skipCount (n + 1) start =
      offsetsFrom ptrSize skipCount n start ++ [pointerAt ptrSize start (n * (1 + skipCount))] := by
  induction n generalizing start with
  | zero => simp [offsetsFrom]
  | succ n ih =>
      rw [offsetsFrom, ih, offsetsFrom, List.cons_append, pointerAt_add, Nat.add_one_mul,
        Nat.add_comm (1 + skipCount)]

theorem single_offsets (small : runtimeOffset.toNat < 2 ^ 40) :
    (single runtimeOffset).offsets ptrSize = [runtimeOffset] := by
  have back : (runtimeOffset.setWidth 40).setWidth 64 = runtimeOffset := by bv_omega
  rw [offsets, single, back]
  rfl

theorem single_endsAt (small : runtimeOffset.toNat < 2 ^ 40) :
    (single runtimeOffset).EndsAt ptrSize runtimeOffset := by
  have back : (runtimeOffset.setWidth 40).setWidth 64 = runtimeOffset := by bv_omega
  refine ⟨Nat.one_pos, Nat.le_of_lt (by decide : 1 < 0xfff), ?_⟩
  rw [single, back]
  exact pointerAt_zero.symm

theorem next_offset {skipAmount : BitVec 64}
    (aligned : skipAmount * ptrSize = runtimeOffset - lastOffset - ptrSize) :
    runtimeOffset = pointerAt ptrSize lastOffset (1 + skipAmount.toNat) := by
  rw [pointerAt, BitVec.ofNat_add, BitVec.ofNat_toNat, BitVec.setWidth_eq, BitVec.mul_add, BitVec.mul_one,
    BitVec.mul_comm, aligned]
  abel

theorem extend_offsets (ends : back.EndsAt ptrSize lastOffset)
    (extended : back.extend ptrSize lastOffset runtimeOffset = some pattern) :
    pattern.offsets ptrSize = back.offsets ptrSize ++ [runtimeOffset] ∧ pattern.EndsAt ptrSize runtimeOffset := by
  obtain ⟨positive, bounded, last⟩ := ends
  rw [extend] at extended
  split at extended
  · cases extended
  rename_i aligned
  have next := next_offset (not_not.mp aligned)
  split at extended
  · rename_i first
    obtain ⟨once, none, small⟩ := first
    obtain rfl := Option.some.inj extended
    have count : back.repeatCount.toNat = 1 := by rw [once]; rfl
    have skip : (((runtimeOffset - lastOffset - ptrSize) / ptrSize).setWidth 8).toNat =
        ((runtimeOffset - lastOffset - ptrSize) / ptrSize).toNat := by
      rw [BitVec.toNat_setWidth]
      exact Nat.mod_eq_of_lt (Nat.lt_of_le_of_lt (BitVec.le_def.mp small) (by decide))
    rw [count, Nat.sub_self, Nat.zero_mul, pointerAt_zero] at last
    refine ⟨?_, Nat.two_pos, Nat.le_of_lt (by decide : 2 < 0xfff), ?_⟩
    · rw [offsets, offsets, count, show (2 : BitVec 16).toNat = 1 + 1 from rfl, offsetsFrom_succ, skip, Nat.one_mul,
        ← last, ← next]
      rfl
    · rw [show (2 : BitVec 16).toNat - 1 = 1 from rfl, Nat.one_mul, skip, ← last, ← next]
  · split at extended
    · rename_i again
      obtain ⟨same, room⟩ := again
      obtain rfl := Option.some.inj extended
      have count : (back.repeatCount + 1).toNat = back.repeatCount.toNat + 1 := by bv_omega
      have skip := congrArg BitVec.toNat same
      rw [BitVec.toNat_setWidth_of_le (by decide)] at skip
      have total : back.repeatCount.toNat * (1 + back.skipCount.toNat) =
          (back.repeatCount.toNat - 1) * (1 + back.skipCount.toNat) + (1 + back.skipCount.toNat) := by
        rw [← Nat.succ_mul, Nat.succ_eq_add_one, Nat.sub_add_cancel positive]
      have here : runtimeOffset = pointerAt ptrSize (back.startVmOffset.setWidth 64)
          (back.repeatCount.toNat * (1 + back.skipCount.toNat)) := by
        rw [total, ← pointerAt_add, ← last, next, skip]
      refine ⟨?_, by rw [count]; exact Nat.succ_pos _, by rw [count]; bv_omega, ?_⟩
      · rw [offsets, offsets, count, offsetsFrom_succ, ← here]
      · rw [count, Nat.add_sub_cancel, ← here]
    · cases extended

end OffsetPattern

structure OffsetState where
  patterns : List OffsetPattern
  lastOffset : BitVec 64

namespace OffsetState

/-- The loops of `ClosureBuilder::optimizeObjC` over protocol and stable Swift fixups; `none`
when the assertion on `startVmOffset` fails. -/
def addOffset (pointerSize : BitVec 64) (state : OffsetState) (runtimeOffset : BitVec 64) : Option OffsetState :=
  let mergedIntoPrevious :=
    if state.lastOffset < runtimeOffset then
      state.patterns.getLast?.bind fun back => back.extend pointerSize state.lastOffset runtimeOffset
    else none
  match mergedIntoPrevious with
  | some pattern => some ⟨state.patterns.dropLast ++ [pattern], runtimeOffset⟩
  | none =>
      let pattern := OffsetPattern.single runtimeOffset
      if pattern.startVmOffset.setWidth 64 = runtimeOffset then
        some ⟨state.patterns ++ [pattern], runtimeOffset⟩
      else none

/-- `lastOffset` is the negated 32-bit pointer size. -/
def start (pointerSize : BitVec 64) : OffsetState := ⟨[], (-(pointerSize.setWidth 32)).setWidth 64⟩

end OffsetState

def addOffsets (pointerSize : BitVec 64) (offsets : List (BitVec 64)) : Option OffsetState :=
  offsets.foldlM (OffsetState.addOffset pointerSize) (OffsetState.start pointerSize)

/-- The offsets that `Image::forEachFixup` calls the handler of such patterns with. -/
def forEachOffset (pointerSize : BitVec 64) (patterns : List OffsetPattern) : List (BitVec 64) :=
  patterns.flatMap fun pattern => pattern.offsets pointerSize

theorem forEachOffset_snoc (pointerSize : BitVec 64) (patterns : List OffsetPattern) (pattern : OffsetPattern) :
    forEachOffset pointerSize (patterns ++ [pattern]) =
      forEachOffset pointerSize patterns ++ pattern.offsets pointerSize := by
  rw [forEachOffset, List.flatMap_append, List.flatMap_singleton, ← forEachOffset]

/-- The patterns stand for the offsets so far and the last one ends with the last offset. -/
structure OffsetState.Stands (pointerSize : BitVec 64) (done : List (BitVec 64)) (state : OffsetState) : Prop where
  decodes : forEachOffset pointerSize state.patterns = done
  ends : ∀ back ∈ state.patterns.getLast?, back.EndsAt pointerSize state.lastOffset

theorem OffsetState.Stands.step {pointerSize : BitVec 64} {done : List (BitVec 64)} {state : OffsetState}
    (stands : state.Stands pointerSize done) {runtimeOffset : BitVec 64} (small : runtimeOffset.toNat < 2 ^ 40) :
    ∃ next, state.addOffset pointerSize runtimeOffset = some next ∧
      next.Stands pointerSize (done ++ [runtimeOffset]) := by
  cases merged : if state.lastOffset < runtimeOffset then
      state.patterns.getLast?.bind fun back => back.extend pointerSize state.lastOffset runtimeOffset
    else none with
  | none =>
      have exact : (OffsetPattern.single runtimeOffset).startVmOffset.setWidth 64 = runtimeOffset := by
        simp only [OffsetPattern.single]
        bv_omega
      refine ⟨_, by rw [addOffset, merged]; exact if_pos exact, ?_, ?_⟩
      · rw [forEachOffset_snoc, stands.decodes, OffsetPattern.single_offsets small]
      · intro back last
        obtain rfl := Option.some.inj ((List.getLast?_concat ..).symm.trans last)
        exact OffsetPattern.single_endsAt small
  | some pattern =>
      refine ⟨_, by rw [addOffset, merged], ?_⟩
      split at merged
      · obtain ⟨back, last, extended⟩ := Option.bind_eq_some_iff.mp merged
        obtain ⟨before, eq⟩ := List.getLast?_eq_some_iff.mp last
        obtain ⟨offsets, ends⟩ := OffsetPattern.extend_offsets (stands.ends back last) extended
        refine ⟨?_, ?_⟩
        · rw [forEachOffset_snoc, offsets, ← List.append_assoc, ← stands.decodes, eq, List.dropLast_concat,
            forEachOffset_snoc]
        · intro back' last'
          obtain rfl := Option.some.inj ((List.getLast?_concat ..).symm.trans last')
          exact ends
      · cases merged

theorem addOffsets_lossless (pointerSize : BitVec 64) {offsets : List (BitVec 64)}
    (small : ∀ offset ∈ offsets, offset.toNat < 2 ^ 40) :
    ∃ state, addOffsets pointerSize offsets = some state ∧
      forEachOffset pointerSize state.patterns = offsets := by
  have init : (OffsetState.start pointerSize).Stands pointerSize [] := ⟨rfl, fun _ last => nomatch last⟩
  suffices ∀ (rest done : List (BitVec 64)) (state : OffsetState), state.Stands pointerSize done →
      (∀ offset ∈ rest, offset.toNat < 2 ^ 40) → ∃ last, rest.foldlM (OffsetState.addOffset pointerSize) state =
        some last ∧ last.Stands pointerSize (done ++ rest) by
    obtain ⟨state, run, stands⟩ := this offsets [] _ init small
    exact ⟨state, run, stands.decodes⟩
  intro rest
  induction rest with
  | nil => exact fun done state stands _ => ⟨state, rfl, by rwa [List.append_nil]⟩
  | cons offset rest ih =>
      intro done state stands small
      obtain ⟨next, step, stands'⟩ := stands.step (small offset (List.mem_cons_self ..))
      obtain ⟨last, run, done'⟩ := ih _ next stands' fun other mem => small other (List.mem_cons_of_mem _ mem)
      exact ⟨last, by rw [List.foldlM_cons, step]; exact run, by rwa [List.append_cons]⟩

end ObjcDyld.Closures
