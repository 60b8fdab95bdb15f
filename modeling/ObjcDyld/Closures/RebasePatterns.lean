import Mathlib

/-!
# Rebase patterns

The compression of an image's rebase locations by `ClosureBuilder::addRebaseInfo`
and their decoding by `Image::forEachFixup`. The array of patterns is a list with
`rebaseEntries.back()` at its head.
-/

namespace ObjcDyld.Closures

/-- `Image::RebasePattern`: `repeatCount` times `contigCount` pointers followed by
`skipCount` pointers that are left alone. -/
structure RebasePattern where
  repeatCount : BitVec 20
  contigCount : BitVec 8
  skipCount : BitVec 4
deriving DecidableEq

/-- `maxLeapPattern` of `addRebaseInfo`. -/
def maxLeapPattern : RebasePattern := ⟨0xFFFFF, 0, 0xF⟩

def maxLeapCount : ℕ := maxLeapPattern.repeatCount.toNat * maxLeapPattern.skipCount.toNat

@[simp] theorem maxLeapPattern_repeatCount : maxLeapPattern.repeatCount.toNat = 1048575 := rfl

@[simp] theorem maxLeapPattern_skipCount : maxLeapPattern.skipCount.toNat = 15 := rfl

theorem maxLeapCount_eq : maxLeapCount = 15728625 := rfl

/-- The pattern that a new run of pointers is started with. -/
def oneRebase : RebasePattern := ⟨1, 1, 0⟩

structure RebaseState where
  rebaseEntries : List RebasePattern
  lastLocation : BitVec 64

namespace RebaseState

/-- The second `while` loop over `advanceCount`, and the push for what is left of it. -/
def pushIntermediates (rebaseEntries : List RebasePattern) (advanceCount : ℕ) : List RebasePattern :=
  if maxLeapPattern.repeatCount.toNat < advanceCount then
    let count := advanceCount / maxLeapPattern.skipCount.toNat
    pushIntermediates (⟨BitVec.ofNat 20 count, 0, maxLeapPattern.skipCount⟩ :: rebaseEntries)
      (advanceCount - count * maxLeapPattern.skipCount.toNat)
  else if advanceCount ≠ 0 then
    ⟨BitVec.ofNat 20 advanceCount, 0, 1⟩ :: rebaseEntries
  else rebaseEntries
termination_by advanceCount
decreasing_by
  simp only [maxLeapPattern_repeatCount, maxLeapPattern_skipCount] at *
  omega

/-- The first `while` loop over `advanceCount`, then the second. -/
def pushLeaps (rebaseEntries : List RebasePattern) (advanceCount : ℕ) : List RebasePattern :=
  if maxLeapCount < advanceCount then
    pushLeaps (maxLeapPattern :: rebaseEntries) (advanceCount - maxLeapCount)
  else pushIntermediates rebaseEntries advanceCount
termination_by advanceCount
decreasing_by
  rw [maxLeapCount_eq] at *
  omega

/-- The entry at `lastIndex` is merged into the one before it when both are alike. -/
def mergeBack (back : RebasePattern) : List RebasePattern → List RebasePattern
  | previous :: more =>
      if more ≠ [] ∧ back.contigCount = previous.contigCount ∧ back.skipCount = previous.skipCount then
        { previous with repeatCount := previous.repeatCount + 1 } :: more
      else back :: previous :: more
  | [] => [back]

/-- The callback of `addRebaseInfo` for one location; `none` when it calls `back()` on an empty array. -/
def addRebase (ptrSize : BitVec 64) (state : RebaseState) (runtimeOffset : BitVec 64) :
    Option RebaseState :=
  let delta := runtimeOffset - state.lastLocation
  if delta = ptrSize then
    match state.rebaseEntries with
    | [] => none
    | back :: previous =>
        if back.contigCount.toNat < 255 then
          some ⟨{ back with contigCount := back.contigCount + 1 } :: previous, runtimeOffset⟩
        else some ⟨oneRebase :: back :: previous, runtimeOffset⟩
  else if delta % ptrSize = 0 ∧ delta ≤ ptrSize * 15 then
    match state.rebaseEntries with
    | [] => none
    | back :: previous =>
        let back := { back with skipCount := ((delta - ptrSize) / ptrSize).setWidth 4 }
        some ⟨oneRebase :: mergeBack back previous, runtimeOffset⟩
  else if runtimeOffset < state.lastLocation ∧ state.lastLocation ≠ -ptrSize then
    -- out of order: the position is reset to zero first
    some ⟨oneRebase :: pushLeaps (⟨0, 0, 0⟩ :: state.rebaseEntries) runtimeOffset.toNat, runtimeOffset⟩
  else some ⟨oneRebase :: pushLeaps state.rebaseEntries (delta - ptrSize).toNat, runtimeOffset⟩

def start (ptrSize : BitVec 64) : RebaseState := ⟨[], -ptrSize⟩

/-- `ClosureBuilder::addRebaseInfo` over the locations that `forEachRebase` reports. -/
def addRebases (ptrSize : BitVec 64) (locations : List (BitVec 64)) : Option RebaseState :=
  locations.foldlM (addRebase ptrSize) (start ptrSize)

end RebaseState

/-- `Image::forEachFixup` in the loop over the rebase patterns: the locations the
handler was called with, and `curRebaseOffset`. -/
structure RebaseWalk where
  calls : List (BitVec 64)
  curRebaseOffset : BitVec 64

namespace RebaseWalk

variable (pointerSize : BitVec 64)

def rebase (walk : RebaseWalk) : RebaseWalk :=
  ⟨walk.calls ++ [walk.curRebaseOffset], walk.curRebaseOffset + pointerSize⟩

/-- One turn of the loop over `repeatCount`. -/
def group (contigCount : BitVec 8) (skipCount : BitVec 4) (walk : RebaseWalk) : RebaseWalk :=
  let walk := (rebase pointerSize)^[contigCount.toNat] walk
  { walk with curRebaseOffset := walk.curRebaseOffset + pointerSize * skipCount.setWidth 64 }

def pattern (rebasePat : RebasePattern) (walk : RebaseWalk) : RebaseWalk :=
  if rebasePat.contigCount = 0 then
    if rebasePat.repeatCount = 0 ∧ rebasePat.skipCount = 0 then { walk with curRebaseOffset := 0 }
    else
      { walk with
        curRebaseOffset := walk.curRebaseOffset +
          BitVec.ofNat 64 (rebasePat.repeatCount.toNat * rebasePat.skipCount.toNat) }
  else (group pointerSize rebasePat.contigCount rebasePat.skipCount)^[rebasePat.repeatCount.toNat] walk

/-- The walk after the patterns of an array whose back is the head of the list. -/
def after (rebaseEntries : List RebasePattern) (walk : RebaseWalk) : RebaseWalk :=
  rebaseEntries.foldr (pattern pointerSize) walk

end RebaseWalk

/-- The locations that `Image::forEachFixup` calls its rebase handler with, in order. -/
def forEachRebase (pointerSize : BitVec 64) (rebaseFixups : List RebasePattern) : List (BitVec 64) :=
  (rebaseFixups.foldl (fun walk rebasePat => RebaseWalk.pattern pointerSize rebasePat walk) ⟨[], 0⟩).calls

/-- The locations of an image's rebases: pointers of the image, aligned to four bytes,
none overlapping another and the first of them not at the very start of the image. -/
structure RebaseLocations where
  ptrSize : BitVec 64
  size : ptrSize = 4 ∨ ptrSize = 8
  locations : List (BitVec 64)
  aligned : ∀ location ∈ locations, location.toNat % 4 = 0
  ends : ∀ location ∈ locations, location.toNat + ptrSize.toNat < 2 ^ 64
  apart : locations.Pairwise fun a b =>
    a.toNat + ptrSize.toNat ≤ b.toNat ∨ b.toNat + ptrSize.toNat ≤ a.toNat
  inside : ∀ first ∈ locations.head?, 16 * ptrSize.toNat ≤ first.toNat

/-- The patterns built from the locations decode to the locations. -/
def RebaseLocations.Lossless (input : RebaseLocations) : Prop :=
  ∃ state, RebaseState.addRebases input.ptrSize input.locations = some state ∧
    forEachRebase input.ptrSize state.rebaseEntries.reverse = input.locations

namespace RebaseWalk

variable {pointerSize : BitVec 64} {walk : RebaseWalk}

theorem after_append (upper lower : List RebasePattern) :
    after pointerSize (upper ++ lower) walk = after pointerSize upper (after pointerSize lower walk) :=
  List.foldr_append

theorem forEachRebase_reverse (rebaseEntries : List RebasePattern) :
    forEachRebase pointerSize rebaseEntries.reverse = (after pointerSize rebaseEntries ⟨[], 0⟩).calls := by
  rw [forEachRebase, List.foldl_reverse, after]

theorem pattern_leap {leap : RebasePattern} (leaps : leap.contigCount = 0)
    (moves : ¬(leap.repeatCount = 0 ∧ leap.skipCount = 0)) :
    walk.pattern pointerSize leap =
      ⟨walk.calls, walk.curRebaseOffset +
        BitVec.ofNat 64 (leap.repeatCount.toNat * leap.skipCount.toNat)⟩ := by
  rw [pattern, if_pos leaps, if_neg moves]

theorem pattern_group {rebasePat : RebasePattern} (rebases : rebasePat.contigCount ≠ 0) :
    walk.pattern pointerSize rebasePat =
      (group pointerSize rebasePat.contigCount rebasePat.skipCount)^[rebasePat.repeatCount.toNat] walk :=
  if_neg rebases

theorem pattern_oneRebase :
    walk.pattern pointerSize oneRebase =
      ⟨walk.calls ++ [walk.curRebaseOffset], walk.curRebaseOffset + pointerSize⟩ := by
  rw [pattern_group (by decide)]
  simp [oneRebase, group, rebase]

theorem pattern_repeat {repeatCount : BitVec 20} {contigCount : BitVec 8} (skipCount : BitVec 4)
    (rebases : contigCount ≠ 0) (room : repeatCount.toNat + 1 < 2 ^ 20) :
    walk.pattern pointerSize ⟨repeatCount + 1, contigCount, skipCount⟩ =
      (walk.pattern pointerSize ⟨repeatCount, contigCount, skipCount⟩).pattern pointerSize
        ⟨1, contigCount, skipCount⟩ := by
  have count : (repeatCount + 1).toNat = repeatCount.toNat + 1 := by
    rw [BitVec.toNat_add]
    exact Nat.mod_eq_of_lt room
  rw [pattern_group rebases, pattern_group rebases, pattern_group rebases]
  simp only [count, Function.iterate_succ_apply']
  rfl

theorem rebase_iterate_calls (n : ℕ) :
    ((rebase pointerSize)^[n] walk).calls.length = walk.calls.length + n := by
  induction n with
  | zero => rfl
  | succ n ih =>
      rw [Function.iterate_succ_apply', rebase, List.length_append, ih]
      rfl

theorem group_iterate_calls (contigCount : BitVec 8) (skipCount : BitVec 4) (n : ℕ) :
    ((group pointerSize contigCount skipCount)^[n] walk).calls.length =
      walk.calls.length + n * contigCount.toNat := by
  induction n with
  | zero => simp
  | succ n ih =>
      rw [Function.iterate_succ_apply', group]
      simp only [rebase_iterate_calls, ih]
      ring

theorem pattern_calls (rebasePat : RebasePattern) :
    (walk.pattern pointerSize rebasePat).calls.length =
      walk.calls.length + rebasePat.repeatCount.toNat * rebasePat.contigCount.toNat := by
  by_cases leaps : rebasePat.contigCount = 0
  · have none : rebasePat.contigCount.toNat = 0 := by rw [leaps]; rfl
    rw [none, Nat.mul_zero, pattern, if_pos leaps]
    split <;> rfl
  · rw [pattern_group leaps, group_iterate_calls]

end RebaseWalk

/-- Some patterns that only move the position of the walk on by a number of bytes. -/
structure Leaps (pointerSize : BitVec 64) (pushed : List RebasePattern) (advance : BitVec 64) : Prop where
  silent : ∀ leap ∈ pushed, leap.contigCount = 0
  moves : ∀ walk, RebaseWalk.after pointerSize pushed walk = ⟨walk.calls, walk.curRebaseOffset + advance⟩

namespace Leaps

variable {pointerSize : BitVec 64}

theorem nil : Leaps pointerSize [] (BitVec.ofNat 64 0) :=
  ⟨nofun, fun walk => congrArg (RebaseWalk.mk walk.calls) (BitVec.add_zero _).symm⟩

theorem push {pushed : List RebasePattern} {rest : ℕ}
    (leaps : Leaps pointerSize pushed (BitVec.ofNat 64 rest)) (count : ℕ) (skip : BitVec 4)
    (fits : count < 2 ^ 20) (positive : skip ≠ 0) :
    Leaps pointerSize (pushed ++ [⟨BitVec.ofNat 20 count, 0, skip⟩])
      (BitVec.ofNat 64 (count * skip.toNat + rest)) := by
  refine ⟨?_, fun walk => ?_⟩
  · intro leap pushedLeap
    rcases List.mem_append.mp pushedLeap with inner | last
    · exact leaps.silent leap inner
    · rw [List.mem_singleton.mp last]
  · have moved : RebaseWalk.pattern pointerSize ⟨BitVec.ofNat 20 count, 0, skip⟩ walk = _ :=
      RebaseWalk.pattern_leap rfl fun zero => positive zero.2
    have count_toNat : (BitVec.ofNat 20 count).toNat = count := by
      rw [BitVec.toNat_ofNat]
      exact Nat.mod_eq_of_lt fits
    rw [RebaseWalk.after_append, leaps.moves, RebaseWalk.after, List.foldr_cons, List.foldr_nil, moved]
    simp only [count_toNat, BitVec.add_assoc, BitVec.ofNat_add]

end Leaps

namespace RebaseState

variable (pointerSize : BitVec 64)

theorem pushIntermediates_leaps (rebaseEntries : List RebasePattern) (advanceCount : ℕ)
    (near : advanceCount ≤ maxLeapCount) :
    ∃ pushed, pushIntermediates rebaseEntries advanceCount = pushed ++ rebaseEntries ∧
      Leaps pointerSize pushed (BitVec.ofNat 64 advanceCount) := by
  induction rebaseEntries, advanceCount using pushIntermediates.induct with
  | case1 rebaseEntries advanceCount far count ih =>
      rw [maxLeapCount_eq] at near ih
      have quotient : count = advanceCount / 15 := rfl
      obtain ⟨pushed, eq, leaps⟩ := ih (by simp only [maxLeapPattern_skipCount]; omega)
      rw [pushIntermediates, if_pos far]
      have total : count * maxLeapPattern.skipCount.toNat +
          (advanceCount - count * maxLeapPattern.skipCount.toNat) = advanceCount := by
        rw [maxLeapPattern_skipCount]
        omega
      refine ⟨pushed ++ [⟨BitVec.ofNat 20 count, 0, maxLeapPattern.skipCount⟩], by rw [eq]; simp, ?_⟩
      have leap := leaps.push count maxLeapPattern.skipCount (by omega) (by decide)
      rwa [total] at leap
  | case2 rebaseEntries advanceCount close nonzero =>
      rw [pushIntermediates, if_neg close, if_pos nonzero]
      have small : advanceCount < 2 ^ 20 := by
        rw [maxLeapPattern_repeatCount] at close
        omega
      refine ⟨[⟨BitVec.ofNat 20 advanceCount, 0, 1⟩], rfl, ?_⟩
      have leap : Leaps pointerSize _ _ := Leaps.nil.push advanceCount 1 small (by decide)
      simpa using leap
  | case3 rebaseEntries advanceCount close zero =>
      rw [pushIntermediates, if_neg close, if_neg zero, not_not.mp zero]
      exact ⟨[], rfl, Leaps.nil⟩

theorem pushLeaps_leaps (rebaseEntries : List RebasePattern) (advanceCount : ℕ) :
    ∃ pushed, pushLeaps rebaseEntries advanceCount = pushed ++ rebaseEntries ∧
      Leaps pointerSize pushed (BitVec.ofNat 64 advanceCount) := by
  induction rebaseEntries, advanceCount using pushLeaps.induct with
  | case1 rebaseEntries advanceCount far ih =>
      rw [pushLeaps, if_pos far]
      obtain ⟨pushed, eq, leaps⟩ := ih
      refine ⟨pushed ++ [maxLeapPattern], by rw [eq]; simp, ?_⟩
      have leap := leaps.push 1048575 maxLeapPattern.skipCount (by decide) (by decide)
      have total : 1048575 * maxLeapPattern.skipCount.toNat + (advanceCount - maxLeapCount) =
          advanceCount := by
        rw [maxLeapCount_eq, maxLeapPattern_skipCount] at *
        omega
      rwa [total] at leap
  | case2 rebaseEntries advanceCount close =>
      rw [pushLeaps, if_neg close]
      exact pushIntermediates_leaps pointerSize rebaseEntries advanceCount (by omega)

end RebaseState

end ObjcDyld.Closures
