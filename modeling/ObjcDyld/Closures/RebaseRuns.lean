import ObjcDyld.Closures.RebasePatterns
import ObjcDyld.Closures.OffsetPatterns

/-!
# Long runs of rebases

The patterns of `addRebaseInfo` decode to the locations they were built from as long
as `repeatCount` does not overflow. It does exactly when 2^20 groups of as many
contiguous pointers each follow each other at the same distance.
-/

namespace ObjcDyld.Closures

open RebaseState

def contiguousRun (ptrSize start : BitVec 64) (n : ℕ) : List (BitVec 64) :=
  (List.range n).map (pointerAt ptrSize start)

/-- `n` runs of `contig` pointers, each followed by a gap of `skip` pointers. -/
def groups (ptrSize start : BitVec 64) (contig skip n : ℕ) : List (BitVec 64) :=
  (List.range n).flatMap fun j =>
    contiguousRun ptrSize (pointerAt ptrSize start (j * (contig + skip))) contig

/-- The number of pointers directly before the last one, for locations in reverse order. -/
def contiguousBefore (ptrSize : BitVec 64) : List (BitVec 64) → ℕ
  | last :: previous :: rest =>
      if last = previous + ptrSize then contiguousBefore ptrSize (previous :: rest) + 1 else 0
  | _ => 0

/-- A pattern's run of contiguous pointers starts here: a run is cut after every 255 pointers. -/
def StartsRun (ptrSize : BitVec 64) (before : List (BitVec 64)) (start : BitVec 64) : Prop :=
  255 ∣ contiguousBefore ptrSize (start :: before.reverse)

/-- Somewhere in the locations 2^20 groups of `contig` pointers follow each other, each
`skip` pointers after the one before it, and the next location is as far from the last group. -/
def Repeats (ptrSize : BitVec 64) (locations : List (BitVec 64)) : Prop :=
  ∃ before start contig skip after, 0 < contig ∧ contig ≤ 255 ∧ 0 < skip ∧ skip ≤ 14 ∧
    StartsRun ptrSize before start ∧
    locations = before ++ groups ptrSize start contig skip (2 ^ 20) ++
      pointerAt ptrSize start (2 ^ 20 * (contig + skip)) :: after

def RebaseLocations.Repeats (input : RebaseLocations) : Prop :=
  Closures.Repeats input.ptrSize input.locations

section

variable {ptrSize start : BitVec 64}

theorem contiguousRun_succ (n : ℕ) :
    contiguousRun ptrSize start (n + 1) = contiguousRun ptrSize start n ++ [pointerAt ptrSize start n] := by
  rw [contiguousRun, List.range_succ, List.map_append]
  rfl

theorem groups_succ (contig skip n : ℕ) :
    groups ptrSize start contig skip (n + 1) = groups ptrSize start contig skip n ++
      contiguousRun ptrSize (pointerAt ptrSize start (n * (contig + skip))) contig := by
  rw [groups, List.range_succ, List.flatMap_append, List.flatMap_singleton, ← groups]

theorem contiguousBefore_next (last : BitVec 64) (before : List (BitVec 64)) :
    contiguousBefore ptrSize ((last + ptrSize) :: last :: before) =
      contiguousBefore ptrSize (last :: before) + 1 :=
  if_pos rfl

theorem contiguousBefore_apart {last next : BitVec 64} (apart : next ≠ last + ptrSize)
    (before : List (BitVec 64)) : contiguousBefore ptrSize (next :: last :: before) = 0 :=
  if_neg apart

theorem contiguousBefore_run (before : List (BitVec 64)) (n : ℕ) :
    contiguousBefore ptrSize (before ++ contiguousRun ptrSize start (n + 1)).reverse =
      contiguousBefore ptrSize (start :: before.reverse) + n := by
  induction n with
  | zero => simp [contiguousRun]
  | succ n ih =>
      rw [contiguousRun_succ, ← List.append_assoc, List.reverse_append, List.reverse_singleton,
        List.singleton_append]
      rw [contiguousRun_succ, ← List.append_assoc, List.reverse_append, List.reverse_singleton,
        List.singleton_append] at ih ⊢
      rw [pointerAt_succ, contiguousBefore_next, ih, Nat.add_assoc]

end

/-- What the callback does to the entries when the last location was `last` and the
last entry a run of `contigCount` pointers. -/
inductive Added (ptrSize last : BitVec 64) (contigCount : BitVec 8) (previous : List RebasePattern)
    (location : BitVec 64) : List RebasePattern → Prop
  | bump (next : location = pointerAt ptrSize last 1) (room : contigCount.toNat < 255) :
      Added ptrSize last contigCount previous location (⟨1, contigCount + 1, 0⟩ :: previous)
  | full (next : location = pointerAt ptrSize last 1) (full : contigCount.toNat = 255) :
      Added ptrSize last contigCount previous location (oneRebase :: ⟨1, contigCount, 0⟩ :: previous)
  | near (skip : BitVec 4) (positive : 0 < skip.toNat) (small : skip.toNat ≤ 14)
      (next : location = pointerAt ptrSize last (skip.toNat + 1)) :
      Added ptrSize last contigCount previous location
        (oneRebase :: mergeBack ⟨1, contigCount, skip⟩ previous)
  | far (pushed : List RebasePattern) (silent : ∀ leap ∈ pushed, leap.contigCount = 0)
      (far : ∀ k, 0 < k → k ≤ 15 → location ≠ pointerAt ptrSize last k)
      (moves : ∀ walk, walk.curRebaseOffset = pointerAt ptrSize last 1 →
        RebaseWalk.after ptrSize pushed walk = ⟨walk.calls, location⟩) :
      Added ptrSize last contigCount previous location
        (oneRebase :: (pushed ++ ⟨1, contigCount, 0⟩ :: previous))

theorem not_near {ptrSize last location : BitVec 64} (size : ptrSize = 4 ∨ ptrSize = 8)
    (apart : location - last ≠ ptrSize)
    (far : ¬((location - last) % ptrSize = 0 ∧ location - last ≤ ptrSize * 15)) (k : ℕ) (positive : 0 < k)
    (small : k ≤ 15) : location ≠ pointerAt ptrSize last k := by
  rintro rfl
  have delta : pointerAt ptrSize last k - last = ptrSize * BitVec.ofNat 64 k := by
    rw [pointerAt, BitVec.add_comm, BitVec.add_sub_cancel]
  rw [delta] at apart far
  refine far ?_
  rcases size with rfl | rfl <;> interval_cases k <;> decide

theorem near_skip {ptrSize last location : BitVec 64} (size : ptrSize = 4 ∨ ptrSize = 8)
    (new : location ≠ last) (apart : location - last ≠ ptrSize)
    (near : (location - last) % ptrSize = 0 ∧ location - last ≤ ptrSize * 15) :
    let skip : BitVec 4 := ((location - last - ptrSize) / ptrSize).setWidth 4
    0 < skip.toNat ∧ skip.toNat ≤ 14 ∧ location = pointerAt ptrSize last (skip.toNat + 1) := by
  obtain ⟨delta, rfl⟩ : ∃ delta, location = last + delta := ⟨location - last, by simp⟩
  rw [show last + delta - last = delta by rw [BitVec.add_comm, BitVec.add_sub_cancel]] at *
  have nonzero : delta ≠ 0 := fun zero => new (by rw [zero]; simp)
  obtain ⟨aligned, small⟩ := near
  have multiple := congrArg BitVec.toNat aligned
  rw [BitVec.toNat_umod] at multiple
  rcases size with rfl | rfl
  · change delta.toNat % 4 = 0 at multiple
    obtain ⟨k, low, high, rfl⟩ : ∃ k, 2 ≤ k ∧ k ≤ 15 ∧ delta = BitVec.ofNat 64 (4 * k) :=
      ⟨delta.toNat / 4, by bv_omega, by bv_omega, by bv_omega⟩
    interval_cases k <;> exact ⟨by decide, by decide, rfl⟩
  · change delta.toNat % 8 = 0 at multiple
    obtain ⟨k, low, high, rfl⟩ : ∃ k, 2 ≤ k ∧ k ≤ 15 ∧ delta = BitVec.ofNat 64 (8 * k) :=
      ⟨delta.toNat / 8, by bv_omega, by bv_omega, by bv_omega⟩
    interval_cases k <;> exact ⟨by decide, by decide, rfl⟩

theorem addRebase_added {ptrSize last location : BitVec 64} (size : ptrSize = 4 ∨ ptrSize = 8)
    {contigCount : BitVec 8} {previous : List RebasePattern} (new : location ≠ last) :
    ∃ entries, addRebase ptrSize ⟨⟨1, contigCount, 0⟩ :: previous, last⟩ location =
        some ⟨entries, location⟩ ∧ Added ptrSize last contigCount previous location entries := by
  have next_one : pointerAt ptrSize last 1 = last + ptrSize := by rw [pointerAt, BitVec.mul_one]
  by_cases contiguous : location - last = ptrSize
  · have next : location = pointerAt ptrSize last 1 := by
      rw [next_one, ← contiguous, BitVec.add_comm, BitVec.sub_add_cancel]
    rw [addRebase, if_pos contiguous]
    by_cases room : contigCount.toNat < 255
    · exact ⟨_, if_pos room, .bump next room⟩
    · exact ⟨_, if_neg room, .full next (by omega)⟩
  · by_cases near : (location - last) % ptrSize = 0 ∧ location - last ≤ ptrSize * 15
    · obtain ⟨positive, small, next⟩ := near_skip size new contiguous near
      rw [addRebase, if_neg contiguous, if_pos near]
      exact ⟨_, rfl, .near _ positive small next⟩
    · have far := not_near size contiguous near
      rw [addRebase, if_neg contiguous, if_neg near]
      by_cases backward : location < last ∧ last ≠ -ptrSize
      · obtain ⟨pushed, eq, leaps⟩ := pushLeaps_leaps ptrSize
          (⟨0, 0, 0⟩ :: ⟨1, contigCount, 0⟩ :: previous) location.toNat
        refine ⟨_, by rw [if_pos backward, eq], ?_⟩
        rw [List.append_cons]
        refine .far (pushed ++ [⟨0, 0, 0⟩]) ?_ far fun walk _ => ?_
        · intro leap pushedLeap
          rcases List.mem_append.mp pushedLeap with inner | last
          · exact leaps.silent leap inner
          · rw [List.mem_singleton.mp last]
        · rw [RebaseWalk.after_append, leaps.moves]
          exact congrArg (RebaseWalk.mk walk.calls) (by simp [RebaseWalk.after, RebaseWalk.pattern])
      · obtain ⟨pushed, eq, leaps⟩ := pushLeaps_leaps ptrSize (⟨1, contigCount, 0⟩ :: previous)
          (location - last - ptrSize).toNat
        refine ⟨_, by rw [if_neg backward, eq], .far pushed leaps.silent far fun walk current => ?_⟩
        rw [leaps.moves, current, next_one, BitVec.ofNat_toNat, BitVec.setWidth_eq]
        exact congrArg (RebaseWalk.mk walk.calls) (by abel)

/-- The number of handler calls that some patterns decode to. -/
def callCount (rebaseEntries : List RebasePattern) : ℕ :=
  (rebaseEntries.map fun entry => entry.repeatCount.toNat * entry.contigCount.toNat).sum

theorem callCount_cons (entry : RebasePattern) (rest : List RebasePattern) :
    callCount (entry :: rest) = entry.repeatCount.toNat * entry.contigCount.toNat + callCount rest := rfl

theorem callCount_open (contigCount : BitVec 8) (skip : BitVec 4) (rest : List RebasePattern) :
    callCount (⟨1, contigCount, skip⟩ :: rest) = contigCount.toNat + callCount rest :=
  congrArg (· + callCount rest) (Nat.one_mul _)

theorem callCount_oneRebase (rest : List RebasePattern) : callCount (oneRebase :: rest) = 1 + callCount rest :=
  rfl

theorem callCount_append (upper lower : List RebasePattern) :
    callCount (upper ++ lower) = callCount upper + callCount lower := by
  rw [callCount, List.map_append, List.sum_append, ← callCount, ← callCount]

theorem after_calls (ptrSize : BitVec 64) (rebaseEntries : List RebasePattern) (walk : RebaseWalk) :
    (RebaseWalk.after ptrSize rebaseEntries walk).calls.length =
      walk.calls.length + callCount rebaseEntries := by
  induction rebaseEntries with
  | nil => rfl
  | cons entry rest ih =>
      change (RebaseWalk.pattern ptrSize entry (RebaseWalk.after ptrSize rest walk)).calls.length = _
      rw [RebaseWalk.pattern_calls, ih, callCount_cons]
      omega

/-- The entries end with a run of pointers, and there is a leap below all runs. -/
structure Shape (state : RebaseState) (contigCount : BitVec 8) (previous : List RebasePattern) : Prop where
  entries : state.rebaseEntries = ⟨1, contigCount, 0⟩ :: previous
  positive : 0 < contigCount.toNat
  bottom : ∃ leap, previous.getLast? = some leap ∧ leap.contigCount = 0

namespace Shape

variable {state : RebaseState} {contigCount : BitVec 8} {previous : List RebasePattern}

theorem contig_ne_zero (shape : Shape state contigCount previous) : contigCount ≠ 0 := by
  rintro rfl
  exact absurd shape.positive (by decide)

theorem mergeBack_cases (shape : Shape state contigCount previous) (skip : BitVec 4) :
    (∃ repeatCount more, previous = ⟨repeatCount, contigCount, skip⟩ :: more ∧
        mergeBack ⟨1, contigCount, skip⟩ previous = ⟨repeatCount + 1, contigCount, skip⟩ :: more) ∨
      (∀ repeatCount more, previous ≠ ⟨repeatCount, contigCount, skip⟩ :: more) ∧
        mergeBack ⟨1, contigCount, skip⟩ previous = ⟨1, contigCount, skip⟩ :: previous := by
  obtain ⟨leap, bottom, silent⟩ := shape.bottom
  match previous, bottom with
  | ⟨repeatCount, contig, skipped⟩ :: more, bottom =>
      by_cases alike : contigCount = contig ∧ skip = skipped
      · obtain ⟨rfl, rfl⟩ := alike
        have below : more ≠ [] := by
          rintro rfl
          obtain rfl := Option.some.inj bottom
          exact shape.contig_ne_zero silent
        exact .inl ⟨repeatCount, more, rfl, if_pos ⟨below, rfl, rfl⟩⟩
      · refine .inr ⟨?_, if_neg fun merged => alike merged.2⟩
        rintro repeatCount' more' eq
        obtain ⟨⟨-, rfl, rfl⟩, -⟩ := by simpa using eq
        exact alike ⟨rfl, rfl⟩

end Shape

section

variable {ptrSize last location : BitVec 64} {contigCount : BitVec 8} {previous entries : List RebasePattern}
  {state : RebaseState}

/-- Merging another group would make the repeat count of an entry zero. -/
def Overflows (ptrSize last : BitVec 64) (contigCount : BitVec 8) (previous : List RebasePattern)
    (location : BitVec 64) : Prop :=
  ∃ skip more, 0 < skip.toNat ∧ skip.toNat ≤ 14 ∧ location = pointerAt ptrSize last (skip.toNat + 1) ∧
    previous = ⟨0xFFFFF, contigCount, skip⟩ :: more

theorem pattern_bump (rebases : contigCount ≠ 0) (room : contigCount.toNat < 255) (walk : RebaseWalk) :
    walk.pattern ptrSize ⟨1, contigCount + 1, 0⟩ =
      (walk.pattern ptrSize ⟨1, contigCount, 0⟩).rebase ptrSize := by
  have count : (contigCount + 1).toNat = contigCount.toNat + 1 := by bv_omega
  have more : contigCount + 1 ≠ 0 := fun zero => by
    rw [zero] at count
    exact Nat.succ_ne_zero _ count.symm
  rw [RebaseWalk.pattern_group more,
    show walk.pattern ptrSize ⟨1, contigCount, 0⟩ = _ from RebaseWalk.pattern_group rebases]
  simp only [show (1 : BitVec 20).toNat = 1 from rfl, RebaseWalk.group, count,
    Function.iterate_succ_apply']
  simp [RebaseWalk.rebase]

theorem pattern_close (rebases : contigCount ≠ 0) (skip : BitVec 4) (walk : RebaseWalk) :
    walk.pattern ptrSize ⟨1, contigCount, skip⟩ =
      ⟨(walk.pattern ptrSize ⟨1, contigCount, 0⟩).calls,
        pointerAt ptrSize (walk.pattern ptrSize ⟨1, contigCount, 0⟩).curRebaseOffset skip.toNat⟩ := by
  rw [RebaseWalk.pattern_group rebases, RebaseWalk.pattern_group rebases]
  simp only [show (1 : BitVec 20).toNat = 1 from rfl, Function.iterate_one, RebaseWalk.group, pointerAt]
  congr 1
  simp [BitVec.ofNat_toNat]

theorem Added.decodes (added : Added ptrSize last contigCount previous location entries)
    (shape : Shape state contigCount previous) {done : List (BitVec 64)}
    (decodes : RebaseWalk.after ptrSize (⟨1, contigCount, 0⟩ :: previous) ⟨[], 0⟩ =
      ⟨done, pointerAt ptrSize last 1⟩)
    (fits : ¬Overflows ptrSize last contigCount previous location) :
    RebaseWalk.after ptrSize entries ⟨[], 0⟩ = ⟨done ++ [location], pointerAt ptrSize location 1⟩ := by
  have rebases := shape.contig_ne_zero
  have one_more : pointerAt ptrSize location 1 = location + ptrSize := by rw [pointerAt_succ, pointerAt_zero]
  rw [RebaseWalk.after, List.foldr_cons, ← RebaseWalk.after] at decodes
  cases added with
  | bump next room =>
      rw [RebaseWalk.after, List.foldr_cons, ← RebaseWalk.after, pattern_bump rebases room, decodes,
        RebaseWalk.rebase, ← next, one_more]
  | full next full =>
      rw [RebaseWalk.after, List.foldr_cons, List.foldr_cons, ← RebaseWalk.after, decodes,
        RebaseWalk.pattern_oneRebase, ← next, one_more]
  | near skip positive small next =>
      have closed : RebaseWalk.after ptrSize (⟨1, contigCount, skip⟩ :: previous) ⟨[], 0⟩ =
          ⟨done, location⟩ := by
        rw [RebaseWalk.after, List.foldr_cons, ← RebaseWalk.after, pattern_close rebases, decodes,
          pointerAt_add, Nat.add_comm, ← next]
      have merged : RebaseWalk.after ptrSize (mergeBack ⟨1, contigCount, skip⟩ previous) ⟨[], 0⟩ =
          ⟨done, location⟩ := by
        rcases shape.mergeBack_cases skip with ⟨repeatCount, more, rfl, eq⟩ | ⟨-, eq⟩
        · have room : repeatCount.toNat + 1 < 2 ^ 20 := by
            by_contra full
            have max : repeatCount = 0xFFFFF := by bv_omega
            exact fits ⟨skip, more, positive, small, next, by rw [max]⟩
          rw [eq, RebaseWalk.after, List.foldr_cons, RebaseWalk.pattern_repeat skip rebases room]
          exact closed
        · rw [eq, closed]
      rw [RebaseWalk.after, List.foldr_cons, ← RebaseWalk.after, merged, RebaseWalk.pattern_oneRebase, one_more]
  | far pushed silent far moves =>
      rw [RebaseWalk.after, List.foldr_cons, ← RebaseWalk.after, RebaseWalk.after_append,
        moves _ (by rw [RebaseWalk.after, List.foldr_cons, ← RebaseWalk.after, decodes]),
        RebaseWalk.pattern_oneRebase, one_more, RebaseWalk.after, List.foldr_cons, ← RebaseWalk.after, decodes]

theorem callCount_mergeBack_le (shape : Shape state contigCount previous) (skip : BitVec 4) :
    callCount (mergeBack ⟨1, contigCount, skip⟩ previous) ≤ contigCount.toNat + callCount previous := by
  rcases shape.mergeBack_cases skip with ⟨repeatCount, more, rfl, eq⟩ | ⟨-, eq⟩
  · rw [eq]
    have bound : (repeatCount + 1).toNat ≤ repeatCount.toNat + 1 := by
      rw [BitVec.toNat_add]
      exact Nat.mod_le _ _
    have product := Nat.mul_le_mul_right contigCount.toNat bound
    rw [callCount_cons, callCount_cons]
    linarith
  · rw [eq, callCount_open]

theorem Added.callCount_le (added : Added ptrSize last contigCount previous location entries)
    (shape : Shape state contigCount previous) :
    callCount entries ≤ callCount (⟨1, contigCount, 0⟩ :: previous) + 1 := by
  cases added with
  | bump next room =>
      have count : (contigCount + 1).toNat = contigCount.toNat + 1 := by bv_omega
      rw [callCount_open, callCount_open, count]
      omega
  | full next full =>
      rw [callCount_oneRebase]
      omega
  | near skip positive small next =>
      have merged := callCount_mergeBack_le shape skip
      rw [callCount_oneRebase, callCount_open]
      omega
  | far pushed silent far moves =>
      have none : callCount pushed = 0 := by
        refine List.sum_eq_zero fun count mem => ?_
        obtain ⟨leap, pushedLeap, rfl⟩ := List.mem_map.mp mem
        rw [silent leap pushedLeap]
        rfl
      rw [callCount_oneRebase, callCount_append, none]
      omega

theorem Added.callCount_lt (added : Added ptrSize last contigCount previous location entries)
    (size : ptrSize = 4 ∨ ptrSize = 8) (shape : Shape state contigCount previous)
    (overflows : Overflows ptrSize last contigCount previous location) :
    callCount entries < callCount (⟨1, contigCount, 0⟩ :: previous) + 1 := by
  obtain ⟨skip, more, positive, small, next, rfl⟩ := overflows
  have same {k : ℕ} (other : location = pointerAt ptrSize last (k + 1)) (near : k ≤ 15) :
      k = skip.toNat := by
    have := pointerAt_inj size (by omega) (by omega) (other.symm.trans next)
    omega
  cases added with
  | bump next' room => exact absurd (same next' (by omega)) (by omega)
  | full next' full => exact absurd (same next' (by omega)) (by omega)
  | near skip' positive' small' next' =>
      obtain rfl : skip' = skip := BitVec.eq_of_toNat_eq (same next' (by omega))
      rcases shape.mergeBack_cases skip' with ⟨repeatCount, more', eq, merged⟩ | ⟨none, -⟩
      · obtain ⟨⟨rfl, -⟩, rfl⟩ := by simpa using eq
        have positive := shape.positive
        rw [merged, callCount_oneRebase, callCount_open]
        change 1 + (0 * contigCount.toNat + callCount more) <
          contigCount.toNat + (1048575 * contigCount.toNat + callCount more) + 1
        omega
      · exact absurd rfl (none _ _)
  | far pushed silent far moves => exact absurd next (far _ (by omega) (by omega))

theorem Added.shape (added : Added ptrSize last contigCount previous location entries)
    (shape : Shape state contigCount previous) :
    ∃ contigCount' previous', Shape ⟨entries, location⟩ contigCount' previous' := by
  obtain ⟨leap, bottom, silent⟩ := shape.bottom
  have positive := shape.positive
  cases added with
  | bump next room =>
      exact ⟨_, _, rfl, by bv_omega, leap, bottom, silent⟩
  | full next full =>
      exact ⟨_, _, rfl, by decide, leap, by rw [List.getLast?_cons, bottom]; rfl, silent⟩
  | near skip positive small next =>
      refine ⟨_, _, rfl, by decide, leap, ?_, silent⟩
      rcases shape.mergeBack_cases skip with ⟨repeatCount, more, rfl, eq⟩ | ⟨-, eq⟩
      · cases more with
        | nil =>
            obtain rfl := Option.some.inj bottom
            exact absurd silent shape.contig_ne_zero
        | cons first rest =>
            rw [List.getLast?_cons_cons] at bottom
            rw [eq, List.getLast?_cons, bottom]
            rfl
      · rw [eq, List.getLast?_cons, bottom]
        rfl
  | far pushed silent' far moves =>
      refine ⟨_, _, rfl, by decide, leap, ?_, silent⟩
      rw [List.getLast?_append, List.getLast?_cons, bottom]
      rfl

end

end ObjcDyld.Closures
