import ObjcDyld.Closures.RebaseRuns

/-!
# When rebase patterns overflow

How the last two entries of `addRebaseInfo` are told from the locations alone, and
from that exactly which locations the patterns decode to.
-/

namespace ObjcDyld.Closures

open RebaseState

section

variable {ptrSize last location : BitVec 64} {contigCount : BitVec 8} {previous entries : List RebasePattern}
  {state : RebaseState} {done : List (BitVec 64)}

theorem getLast?_run (before : List (BitVec 64)) (start : BitVec 64) {n : ℕ} (positive : 0 < n) :
    (before ++ contiguousRun ptrSize start n).getLast? = some (pointerAt ptrSize start (n - 1)) := by
  obtain ⟨m, rfl⟩ : ∃ m, n = m + 1 := ⟨n - 1, by omega⟩
  rw [contiguousRun_succ, ← List.append_assoc, List.getLast?_concat, Nat.add_sub_cancel]

theorem contiguousRun_length (start : BitVec 64) (n : ℕ) : (contiguousRun ptrSize start n).length = n := by
  simp [contiguousRun]

theorem contiguousRun_one (start : BitVec 64) : contiguousRun ptrSize start 1 = [start] := by
  simp [contiguousRun]

theorem groups_one (start : BitVec 64) (contig skip : ℕ) :
    groups ptrSize start contig skip 1 = contiguousRun ptrSize start contig := by
  simp [groups]

/-- What the last two entries say about the locations so far. -/
structure Tracks (ptrSize : BitVec 64) (done : List (BitVec 64)) (contigCount : BitVec 8)
    (previous : List RebasePattern) : Prop where
  chunk : ∃ before start, StartsRun ptrSize before start ∧
    done = before ++ contiguousRun ptrSize start contigCount.toNat
  trailing : ∀ repeatCount contig skip more, previous = ⟨repeatCount, contig, skip⟩ :: more →
    contig ≠ 0 → skip ≠ 0 → ∃ before start, StartsRun ptrSize before start ∧
      done = before ++ groups ptrSize start contig.toNat skip.toNat repeatCount.toNat ++
        contiguousRun ptrSize (pointerAt ptrSize start (repeatCount.toNat * (contig.toNat + skip.toNat)))
          contigCount.toNat
  counted : ∀ before start (contig : BitVec 8) (skip : BitVec 4) n k, 0 < contig.toNat → 0 < skip.toNat →
    skip.toNat ≤ 14 → 0 < n → 0 < k → k ≤ 255 → StartsRun ptrSize before start →
    done = before ++ groups ptrSize start contig.toNat skip.toNat n ++
      contiguousRun ptrSize (pointerAt ptrSize start (n * (contig.toNat + skip.toNat))) k →
    contigCount.toNat = k ∧ ∃ repeatCount more, previous = ⟨repeatCount, contig, skip⟩ :: more ∧
      n ≤ repeatCount.toNat

namespace Tracks

theorem chunk_unique (tracks : Tracks ptrSize done contigCount previous) (shape : Shape state contigCount previous)
    {before : List (BitVec 64)} {start : BitVec 64} {k : ℕ} (positive : 0 < k) (small : k ≤ 255)
    (starts : StartsRun ptrSize before start) (eq : done = before ++ contiguousRun ptrSize start k) :
    contigCount.toNat = k := by
  obtain ⟨before', start', starts', eq'⟩ := tracks.chunk
  have positive' := shape.positive
  have small' := contigCount.isLt
  obtain ⟨j, jeq⟩ : ∃ j, contigCount.toNat = j + 1 := ⟨contigCount.toNat - 1, by omega⟩
  obtain ⟨i, rfl⟩ : ∃ i, k = i + 1 := ⟨k - 1, by omega⟩
  rw [jeq] at eq'
  have first := @contiguousBefore_run ptrSize start before i
  have second := @contiguousBefore_run ptrSize start' before' j
  rw [← eq] at first
  rw [← eq', first] at second
  obtain ⟨q, hq⟩ := starts
  obtain ⟨q', hq'⟩ := starts'
  omega

end Tracks

theorem groups_snoc {before : List (BitVec 64)} {start : BitVec 64} {contig skip n k : ℕ}
    (contigPositive : 0 < contig) (positive : 0 < n) (opened : 0 < k) (lastDone : done.getLast? = some last)
    (eq : done ++ [location] = before ++ groups ptrSize start contig skip n ++
      contiguousRun ptrSize (pointerAt ptrSize start (n * (contig + skip))) k) :
    (1 < k ∧ location = pointerAt ptrSize last 1 ∧
        done = before ++ groups ptrSize start contig skip n ++
          contiguousRun ptrSize (pointerAt ptrSize start (n * (contig + skip))) (k - 1)) ∨
      k = 1 ∧ location = pointerAt ptrSize last (skip + 1) ∧
        done = before ++ groups ptrSize start contig skip (n - 1) ++
          contiguousRun ptrSize (pointerAt ptrSize start ((n - 1) * (contig + skip))) contig := by
  obtain ⟨i, rfl⟩ : ∃ i, k = i + 1 := ⟨k - 1, by omega⟩
  obtain ⟨m, rfl⟩ : ∃ m, n = m + 1 := ⟨n - 1, by omega⟩
  rw [contiguousRun_succ, ← List.append_assoc] at eq
  obtain ⟨rfl, here⟩ := List.append_inj' eq rfl
  obtain rfl := List.singleton_inj.mp here
  rw [Nat.add_sub_cancel, Nat.add_sub_cancel]
  cases i with
  | zero =>
      refine .inr ⟨rfl, ?_, ?_⟩
      · rw [contiguousRun, List.range_zero, List.map_nil, List.append_nil, groups_succ, ← List.append_assoc,
          getLast?_run _ _ contigPositive] at lastDone
        obtain rfl := Option.some.inj lastDone
        rw [pointerAt_add, pointerAt_add, pointerAt_add]
        congr 1
        rw [Nat.add_mul]
        omega
      · rw [contiguousRun, List.range_zero, List.map_nil, List.append_nil, groups_succ, List.append_assoc]
  | succ i =>
      refine .inl ⟨by omega, ?_, rfl⟩
      rw [getLast?_run _ _ (Nat.succ_pos i)] at lastDone
      obtain rfl := Option.some.inj lastDone
      rw [show i.succ - 1 = i from rfl, pointerAt_add, pointerAt_add, pointerAt_add]

theorem groups_next {before : List (BitVec 64)} {start : BitVec 64} {contig skip n : ℕ} (positive : 0 < contig)
    (lastDone : done.getLast? = some last) (eq : done = before ++ groups ptrSize start contig skip (n + 1)) :
    pointerAt ptrSize last (skip + 1) = pointerAt ptrSize start ((n + 1) * (contig + skip)) := by
  rw [eq, groups_succ, ← List.append_assoc, getLast?_run _ _ positive] at lastDone
  obtain rfl := Option.some.inj lastDone
  rw [pointerAt_add, pointerAt_add]
  congr 1
  rw [Nat.add_mul]
  omega

namespace Tracks

theorem startsRun_apart (lastDone : done.getLast? = some last) (apart : location ≠ pointerAt ptrSize last 1) :
    StartsRun ptrSize done location := by
  obtain ⟨init, rfl⟩ := List.getLast?_eq_some_iff.mp lastDone
  rw [StartsRun, List.reverse_append, List.reverse_singleton, List.singleton_append,
    contiguousBefore_apart]
  · exact Nat.dvd_zero 255
  · rwa [pointerAt_succ, pointerAt_zero] at apart

theorem bump (tracks : Tracks ptrSize done contigCount previous) (size : ptrSize = 4 ∨ ptrSize = 8)
    (shape : Shape state contigCount previous) (lastDone : done.getLast? = some last)
    (next : location = pointerAt ptrSize last 1) (room : contigCount.toNat < 255) :
    Tracks ptrSize (done ++ [location]) (contigCount + 1) previous := by
  have count : (contigCount + 1).toNat = contigCount.toNat + 1 := by bv_omega
  have extend {before : List (BitVec 64)} {start : BitVec 64}
      (eq : done = before ++ contiguousRun ptrSize start contigCount.toNat) :
      done ++ [location] = before ++ contiguousRun ptrSize start (contigCount + 1).toNat := by
    have here := lastDone
    rw [eq, getLast?_run _ _ shape.positive] at here
    obtain rfl := Option.some.inj here
    rw [count, contiguousRun_succ, ← List.append_assoc, ← eq, next, pointerAt_add,
      Nat.sub_add_cancel shape.positive]
  refine ⟨?_, ?_, ?_⟩
  · obtain ⟨before, start, starts, eq⟩ := tracks.chunk
    exact ⟨before, start, starts, extend eq⟩
  · intro repeatCount contig skip more eq rebases skips
    obtain ⟨before, start, starts, eq⟩ := tracks.trailing repeatCount contig skip more eq rebases skips
    exact ⟨before, start, starts, extend eq⟩
  · intro before start contig skip n k contigPositive skipPositive small positive opened short starts eq
    rcases groups_snoc contigPositive positive opened lastDone eq with ⟨more, -, eq⟩ | ⟨-, far, -⟩
    · obtain ⟨same, held⟩ := tracks.counted before start contig skip n (k - 1) contigPositive skipPositive small
        positive (by omega) (by omega) starts eq
      exact ⟨by omega, held⟩
    · have := pointerAt_inj size (by omega) (by omega) (next.symm.trans far)
      omega

theorem full (tracks : Tracks ptrSize done contigCount previous) (size : ptrSize = 4 ∨ ptrSize = 8)
    (lastDone : done.getLast? = some last) (next : location = pointerAt ptrSize last 1)
    (full : contigCount.toNat = 255) :
    Tracks ptrSize (done ++ [location]) 1 (⟨1, contigCount, 0⟩ :: previous) := by
  refine ⟨⟨done, location, ?_, by rw [show (1 : BitVec 8).toNat = 1 from rfl, contiguousRun_one]⟩, ?_, ?_⟩
  · obtain ⟨before, start, starts, eq⟩ := tracks.chunk
    rw [full] at eq
    have run := @contiguousBefore_run ptrSize start before 254
    rw [← eq] at run
    obtain ⟨init, rfl⟩ := List.getLast?_eq_some_iff.mp lastDone
    rw [pointerAt_succ, pointerAt_zero] at next
    rw [List.reverse_append, List.reverse_singleton, List.singleton_append] at run
    rw [StartsRun, List.reverse_append, List.reverse_singleton, List.singleton_append, next,
      contiguousBefore_next, run, Nat.add_assoc]
    exact Nat.dvd_add starts (Nat.dvd_refl 255)
  · intro repeatCount contig skip more eq rebases skips
    obtain ⟨⟨-, -, rfl⟩, -⟩ := by simpa using eq
    exact absurd rfl skips
  · intro before start contig skip n k contigPositive skipPositive small positive opened short starts eq
    rcases groups_snoc contigPositive positive opened lastDone eq with ⟨more, -, eq⟩ | ⟨-, far, -⟩
    · obtain ⟨same, -⟩ := tracks.counted before start contig skip n (k - 1) contigPositive skipPositive small
        positive (by omega) (by omega) starts eq
      omega
    · have := pointerAt_inj size (by omega) (by omega) (next.symm.trans far)
      omega

theorem far (lastDone : done.getLast? = some last) {pushed : List RebasePattern}
    (silent : ∀ leap ∈ pushed, leap.contigCount = 0)
    (far : ∀ k, 0 < k → k ≤ 15 → location ≠ pointerAt ptrSize last k) :
    Tracks ptrSize (done ++ [location]) 1 (pushed ++ ⟨1, contigCount, 0⟩ :: previous) := by
  refine ⟨⟨done, location, startsRun_apart lastDone (far 1 (by omega) (by omega)),
    by rw [show (1 : BitVec 8).toNat = 1 from rfl, contiguousRun_one]⟩, ?_, ?_⟩
  · intro repeatCount contig skip more eq rebases skips
    cases pushed with
    | nil =>
        obtain ⟨⟨-, -, rfl⟩, -⟩ := by simpa using eq
        exact absurd rfl skips
    | cons leap rest =>
        obtain ⟨rfl, -⟩ := List.cons.inj eq
        exact absurd (silent _ (List.mem_cons_self ..)) rebases
  · intro before start contig skip n k contigPositive skipPositive small positive opened short starts eq
    rcases groups_snoc contigPositive positive opened lastDone eq with ⟨-, next, -⟩ | ⟨-, next, -⟩
    · exact absurd next (far 1 (by omega) (by omega))
    · exact absurd next (far (skip.toNat + 1) (by omega) (by omega))

theorem closed (tracks : Tracks ptrSize done contigCount previous) (shape : Shape state contigCount previous)
    {skip : BitVec 4} (skips : skip ≠ 0) {repeatCount : BitVec 20} {more : List RebasePattern}
    (eq : previous = ⟨repeatCount, contigCount, skip⟩ :: more) :
    ∃ before start, StartsRun ptrSize before start ∧
      done = before ++ groups ptrSize start contigCount.toNat skip.toNat (repeatCount.toNat + 1) := by
  obtain ⟨before, start, starts, eq⟩ :=
    tracks.trailing repeatCount contigCount skip more eq shape.contig_ne_zero skips
  exact ⟨before, start, starts, by rw [eq, groups_succ, List.append_assoc]⟩

theorem near (tracks : Tracks ptrSize done contigCount previous) (size : ptrSize = 4 ∨ ptrSize = 8)
    (shape : Shape state contigCount previous) (lastDone : done.getLast? = some last) {skip : BitVec 4}
    (positive : 0 < skip.toNat) (small : skip.toNat ≤ 14)
    (next : location = pointerAt ptrSize last (skip.toNat + 1))
    (fits : ¬Overflows ptrSize last contigCount previous location) :
    Tracks ptrSize (done ++ [location]) 1 (mergeBack ⟨1, contigCount, skip⟩ previous) := by
  have skips : skip ≠ 0 := by
    rintro rfl
    exact absurd positive (by decide)
  have apart : location ≠ pointerAt ptrSize last 1 := by
    intro same
    have := pointerAt_inj size (by omega) (by omega) (same.symm.trans next)
    omega
  have one_run (here : BitVec 64) : contiguousRun ptrSize here (1 : BitVec 8).toNat = [here] :=
    contiguousRun_one here
  have one_repeat : (1 : BitVec 20).toNat = 1 := rfl
  have room {repeatCount : BitVec 20} {more : List RebasePattern}
      (held : previous = ⟨repeatCount, contigCount, skip⟩ :: more) :
      (repeatCount + 1).toNat = repeatCount.toNat + 1 := by
    by_contra full
    have max : repeatCount = 0xFFFFF := by bv_omega
    exact fits ⟨skip, more, positive, small, next, by rw [held, max]⟩
  refine ⟨⟨done, location, startsRun_apart lastDone apart, by rw [one_run]⟩, ?_, ?_⟩
  · intro repeatCount contig skip' more eq rebases skips'
    rcases shape.mergeBack_cases skip with ⟨count, rest, held, merged⟩ | ⟨-, merged⟩
    · obtain ⟨head, rfl⟩ := List.cons.inj (merged.symm.trans eq)
      obtain ⟨rfl, rfl, rfl⟩ := RebasePattern.mk.inj head
      obtain ⟨before, start, starts, eq⟩ := tracks.closed shape skips held
      refine ⟨before, start, starts, ?_⟩
      rw [room held, one_run, ← groups_next shape.positive lastDone eq, ← next, ← eq]
    · obtain ⟨head, rfl⟩ := List.cons.inj (merged.symm.trans eq)
      obtain ⟨rfl, rfl, rfl⟩ := RebasePattern.mk.inj head
      obtain ⟨before, start, starts, eq⟩ := tracks.chunk
      rw [← groups_one start contigCount.toNat skip.toNat] at eq
      have here : pointerAt ptrSize last (skip.toNat + 1) =
          pointerAt ptrSize start (1 * (contigCount.toNat + skip.toNat)) :=
        groups_next shape.positive lastDone eq
      refine ⟨before, start, starts, ?_⟩
      rw [one_repeat, one_run, ← here, ← next, ← eq]
  · intro before start contig skip' n k contigPositive skipPositive small' nPositive opened short starts eq
    rcases groups_snoc contigPositive nPositive opened lastDone eq with ⟨-, contiguous, -⟩ | ⟨rfl, far, eq⟩
    · exact absurd contiguous apart
    have same := pointerAt_inj size (by omega) (by omega) (far.symm.trans next)
    obtain rfl : skip' = skip := BitVec.eq_of_toNat_eq (by omega)
    have bound := contig.isLt
    refine ⟨rfl, ?_⟩
    -- the closed group is the first of its kind or one more after those that were counted
    by_cases first : n = 1
    · subst first
      have run : done = before ++ contiguousRun ptrSize start contig.toNat := by
        simpa [groups] using eq
      obtain rfl : contigCount = contig := BitVec.eq_of_toNat_eq
        (tracks.chunk_unique shape contigPositive (by omega) starts run)
      rcases shape.mergeBack_cases skip' with ⟨count, rest, held, merged⟩ | ⟨-, merged⟩
      · exact ⟨_, _, merged, by rw [room held]; omega⟩
      · exact ⟨_, _, merged, Nat.le_refl 1⟩
    · obtain ⟨run, count, more, held, bound'⟩ := tracks.counted before start contig skip' (n - 1) contig.toNat
        contigPositive skipPositive small' (by omega) contigPositive (by omega) starts eq
      obtain rfl : contigCount = contig := BitVec.eq_of_toNat_eq run
      rcases shape.mergeBack_cases skip' with ⟨count', rest, held', merged⟩ | ⟨other, -⟩
      · obtain ⟨⟨rfl, -⟩, rfl⟩ := by simpa [held] using held'
        exact ⟨_, _, merged, by rw [room held]; omega⟩
      · exact absurd held (other _ _)

end Tracks

theorem Repeats.snoc (repeats : Repeats ptrSize done) (location : BitVec 64) :
    Repeats ptrSize (done ++ [location]) := by
  obtain ⟨before, start, contig, skip, after, h1, h2, h3, h4, starts, rfl⟩ := repeats
  exact ⟨before, start, contig, skip, after ++ [location], h1, h2, h3, h4, starts, by simp⟩

theorem Tracks.repeats (tracks : Tracks ptrSize done contigCount previous)
    (shape : Shape state contigCount previous) (lastDone : done.getLast? = some last)
    (overflows : Overflows ptrSize last contigCount previous location) :
    Repeats ptrSize (done ++ [location]) := by
  obtain ⟨skip, more, positive, small, next, held⟩ := overflows
  have skips : skip ≠ 0 := by
    rintro rfl
    exact absurd positive (by decide)
  obtain ⟨before, start, starts, eq⟩ := tracks.closed shape skips held
  have bound := contigCount.isLt
  refine ⟨before, start, contigCount.toNat, skip.toNat, [], shape.positive, by omega, positive, small, starts, ?_⟩
  rw [next, groups_next shape.positive lastDone eq, eq]
  rfl

theorem Tracks.not_repeats_snoc (tracks : Tracks ptrSize (done ++ [location]) contigCount previous)
    (fresh : ¬Repeats ptrSize done) : ¬Repeats ptrSize (done ++ [location]) := by
  rintro ⟨before, start, contig, skip, after, contigPositive, contigSmall, positive, small, starts, eq⟩
  rcases List.eq_nil_or_concat after with rfl | ⟨init, last, rfl⟩
  · have contig_toNat : (BitVec.ofNat 8 contig).toNat = contig := by
      rw [BitVec.toNat_ofNat]
      exact Nat.mod_eq_of_lt (by omega)
    have skip_toNat : (BitVec.ofNat 4 skip).toNat = skip := by
      rw [BitVec.toNat_ofNat]
      exact Nat.mod_eq_of_lt (by omega)
    obtain ⟨-, count, more, -, many⟩ := tracks.counted before start (BitVec.ofNat 8 contig) (BitVec.ofNat 4 skip)
      (2 ^ 20) 1 (by omega) (by omega) (by omega) (by omega) (by omega) (by omega) starts
      (by rw [eq, contig_toNat, skip_toNat, contiguousRun_one])
    exact absurd count.isLt (by omega)
  · refine fresh ⟨before, start, contig, skip, init, contigPositive, contigSmall, positive, small, starts, ?_⟩
    rw [List.concat_eq_append, ← List.cons_append, ← List.append_assoc] at eq
    exact (List.append_inj' eq rfl).1

/-- How far the entries agree with the locations so far: they decode to them, or
groups were repeated too often and locations are lost. -/
structure Progress (ptrSize : BitVec 64) (done : List (BitVec 64)) (state : RebaseState)
    (contigCount : BitVec 8) (previous : List RebasePattern) : Prop where
  shape : Shape state contigCount previous
  last : done.getLast? = some state.lastLocation
  kept : (RebaseWalk.after ptrSize state.rebaseEntries ⟨[], 0⟩ =
        ⟨done, pointerAt ptrSize state.lastLocation 1⟩ ∧
      Tracks ptrSize done contigCount previous ∧ ¬Repeats ptrSize done) ∨
    callCount state.rebaseEntries < done.length ∧ Repeats ptrSize done

theorem Progress.step (progress : Progress ptrSize done state contigCount previous)
    (size : ptrSize = 4 ∨ ptrSize = 8) (new : location ≠ state.lastLocation) :
    ∃ next contigCount' previous', addRebase ptrSize state location = some next ∧
      Progress ptrSize (done ++ [location]) next contigCount' previous' := by
  obtain ⟨entries, last⟩ := state
  have shape := progress.shape
  obtain rfl : entries = ⟨1, contigCount, 0⟩ :: previous := shape.entries
  have lastDone : done.getLast? = some last := progress.last
  obtain ⟨entries, run, added⟩ := addRebase_added size new
  obtain ⟨contigCount', previous', shape'⟩ := added.shape shape
  refine ⟨_, contigCount', previous', run, shape', List.getLast?_concat .., ?_⟩
  rcases progress.kept with ⟨decodes, tracks, fresh⟩ | ⟨lost, repeats⟩
  · by_cases overflows : Overflows ptrSize last contigCount previous location
    · refine .inr ⟨?_, tracks.repeats shape lastDone overflows⟩
      have count := after_calls ptrSize (⟨1, contigCount, 0⟩ :: previous) ⟨[], 0⟩
      have fewer := added.callCount_lt size shape overflows
      rw [decodes] at count
      rw [List.length_append, count]
      simpa [Nat.add_comm] using fewer
    · have tracks' : Tracks ptrSize (done ++ [location]) contigCount' previous' := by
        have entries_eq : entries = ⟨1, contigCount', 0⟩ :: previous' := shape'.entries
        cases added with
        | bump next room =>
            obtain ⟨head, rfl⟩ := List.cons.inj entries_eq
            obtain ⟨-, rfl, -⟩ := RebasePattern.mk.inj head
            exact tracks.bump size shape lastDone next room
        | full next full =>
            obtain ⟨head, rfl⟩ := List.cons.inj entries_eq
            obtain ⟨-, rfl, -⟩ := RebasePattern.mk.inj head
            exact tracks.full size lastDone next full
        | near skip positive small next =>
            obtain ⟨head, rfl⟩ := List.cons.inj entries_eq
            obtain ⟨-, rfl, -⟩ := RebasePattern.mk.inj head
            exact tracks.near size shape lastDone positive small next overflows
        | far pushed silent far moves =>
            obtain ⟨head, rfl⟩ := List.cons.inj entries_eq
            obtain ⟨-, rfl, -⟩ := RebasePattern.mk.inj head
            exact Tracks.far lastDone silent far
      exact .inl ⟨added.decodes shape decodes overflows, tracks', tracks'.not_repeats_snoc fresh⟩
  · refine .inr ⟨?_, repeats.snoc location⟩
    have more := added.callCount_le shape
    rw [List.length_append]
    exact Nat.lt_of_le_of_lt more (Nat.succ_lt_succ lost)

theorem Progress.run (size : ptrSize = 4 ∨ ptrSize = 8) {rest : List (BitVec 64)}
    (progress : Progress ptrSize done state contigCount previous)
    (new : (state.lastLocation :: rest).Pairwise (· ≠ ·)) :
    ∃ last contigCount' previous', rest.foldlM (addRebase ptrSize) state = some last ∧
      Progress ptrSize (done ++ rest) last contigCount' previous' := by
  induction rest generalizing done state contigCount previous with
  | nil => exact ⟨state, contigCount, previous, rfl, by rwa [List.append_nil]⟩
  | cons location rest ih =>
      obtain ⟨apart, others⟩ := List.pairwise_cons.mp new
      obtain ⟨next, c, p, run, step⟩ := progress.step size (apart location (List.mem_cons_self ..)).symm
      have here : next.lastLocation = location := by
        have := step.last
        rw [List.getLast?_concat] at this
        exact (Option.some.inj this).symm
      obtain ⟨last, c', p', ran, done'⟩ := ih step (by rwa [here])
      refine ⟨last, c', p', ?_, by rwa [List.append_cons]⟩
      rw [List.foldlM_cons, run]
      exact ran

end

namespace RebaseLocations

theorem ne_of_apart (input : RebaseLocations) : input.locations.Pairwise (· ≠ ·) := by
  refine input.apart.imp fun {a b} apart same => ?_
  have positive : 0 < input.ptrSize.toNat := by rcases input.size with size | size <;> simp [size]
  rw [same] at apart
  omega

theorem first_progress (input : RebaseLocations) {first : BitVec 64} {rest : List (BitVec 64)}
    (eq : input.locations = first :: rest) :
    ∃ state contigCount previous, addRebase input.ptrSize (start input.ptrSize) first = some state ∧
      Progress input.ptrSize [first] state contigCount previous := by
  have inside := input.inside first (by rw [eq]; rfl)
  have ends := input.ends first (by rw [eq]; exact List.mem_cons_self ..)
  have positive : 0 < input.ptrSize.toNat := by rcases input.size with size | size <;> simp [size]
  have delta : first - -input.ptrSize = first + input.ptrSize := by abel
  have delta_toNat : (first + input.ptrSize).toNat = first.toNat + input.ptrSize.toNat := by
    rw [BitVec.toNat_add]
    exact Nat.mod_eq_of_lt ends
  have apart : first - -input.ptrSize ≠ input.ptrSize := by
    rw [delta]
    intro same
    rw [← congrArg BitVec.toNat same] at positive inside
    bv_omega
  have far : ¬((first - -input.ptrSize) % input.ptrSize = 0 ∧ first - -input.ptrSize ≤ input.ptrSize * 15) := by
    rw [delta]
    rintro ⟨-, near⟩
    have near := BitVec.le_def.mp near
    rcases input.size with size | size <;>
    · simp only [size] at near inside delta_toNat
      rw [delta_toNat] at near
      simp at near inside
      omega
  obtain ⟨pushed, pushes, leaps⟩ := pushLeaps_leaps input.ptrSize [] (first - -input.ptrSize - input.ptrSize).toNat
  have moved : first - -input.ptrSize - input.ptrSize = first := by abel
  rw [moved, BitVec.ofNat_toNat, BitVec.setWidth_eq] at leaps
  have walked : RebaseWalk.after input.ptrSize pushed ⟨[], 0⟩ = ⟨[], first⟩ := by
    rw [leaps.moves]
    exact congrArg (RebaseWalk.mk []) (BitVec.zero_add first)
  have tracks : Tracks input.ptrSize ([] ++ [first]) 1 pushed := by
    refine ⟨⟨[], first, Nat.dvd_zero 255, ?_⟩, ?_, ?_⟩
    · rw [show (1 : BitVec 8).toNat = 1 from rfl, contiguousRun_one]
    · rintro repeatCount contig skip more rfl rebases skips
      exact absurd (leaps.silent _ (List.mem_cons_self ..)) rebases
    · intro before start contig skip n k contigPositive skipPositive small positive opened short starts eq
      obtain ⟨m, rfl⟩ : ∃ m, n = m + 1 := ⟨n - 1, by omega⟩
      have count := congrArg List.length eq
      simp only [groups_succ, List.length_append, contiguousRun_length] at count
      simp only [List.length_nil, List.length_singleton] at count
      omega
  refine ⟨⟨oneRebase :: pushed, first⟩, 1, pushed, ?_, ⟨rfl, by decide, ?_⟩, rfl, .inl ⟨?_, tracks, tracks.not_repeats_snoc ?_⟩⟩
  · rw [addRebase, start, if_neg apart, if_neg far, if_neg fun backward => backward.2 rfl, pushes,
      List.append_nil]
  · cases last : pushed.getLast? with
    | none =>
        rw [List.getLast?_eq_none_iff.mp last] at walked
        have zero : first = 0 := (congrArg RebaseWalk.curRebaseOffset walked).symm
        rw [zero] at inside
        exact absurd inside (by simp; omega)
    | some leap => exact ⟨leap, rfl, leaps.silent leap (List.mem_of_getLast? last)⟩
  · rw [RebaseWalk.after, List.foldr_cons, ← RebaseWalk.after, walked, RebaseWalk.pattern_oneRebase,
      pointerAt_succ, pointerAt_zero]
    rfl
  · rintro ⟨before, start, contig, skip, after, -, -, -, -, -, repeats⟩
    simp at repeats

theorem exists_progress (input : RebaseLocations) (nonempty : input.locations ≠ []) :
    ∃ state contigCount previous, addRebases input.ptrSize input.locations = some state ∧
      Progress input.ptrSize input.locations state contigCount previous := by
  obtain ⟨first, rest, eq⟩ := List.exists_cons_of_ne_nil nonempty
  obtain ⟨state, c, p, step, progress⟩ := input.first_progress eq
  have here : state.lastLocation = first := (Option.some.inj progress.last).symm
  obtain ⟨last, c', p', run, done⟩ := progress.run input.size (by rw [here, ← eq]; exact input.ne_of_apart)
  refine ⟨last, c', p', ?_, by rwa [List.singleton_append, ← eq] at done⟩
  rw [addRebases, eq, List.foldlM_cons, step]
  exact run

theorem lossless_of_not_repeats (input : RebaseLocations) (fresh : ¬input.Repeats) : input.Lossless := by
  by_cases empty : input.locations = []
  · refine ⟨start input.ptrSize, ?_, ?_⟩
    · rw [addRebases, empty]
      rfl
    · rw [empty]
      rfl
  · obtain ⟨last, c, p, run, progress⟩ := input.exists_progress empty
    rcases progress.kept with ⟨decodes, -, -⟩ | ⟨-, repeats⟩
    · exact ⟨last, run, by rw [RebaseWalk.forEachRebase_reverse, decodes]⟩
    · exact absurd repeats fresh

theorem not_lossless_of_repeats (input : RebaseLocations) (repeats : input.Repeats) : ¬input.Lossless := by
  have nonempty : input.locations ≠ [] := by
    intro none
    obtain ⟨before, start, contig, skip, after, -, -, -, -, -, eq⟩ := repeats
    rw [none] at eq
    simp at eq
  obtain ⟨last, c, p, run, progress⟩ := input.exists_progress nonempty
  rintro ⟨state, ran, decodes⟩
  obtain rfl := Option.some.inj (run.symm.trans ran)
  rcases progress.kept with ⟨-, -, fresh⟩ | ⟨lost, -⟩
  · exact fresh repeats
  · have count := after_calls input.ptrSize last.rebaseEntries ⟨[], 0⟩
    rw [← RebaseWalk.forEachRebase_reverse, decodes] at count
    exact absurd lost (by rw [count]; simp)

/-- The patterns decode to the locations exactly when no group is repeated 2^20 times. -/
theorem lossless_iff (input : RebaseLocations) : input.Lossless ↔ ¬input.Repeats :=
  ⟨fun lossless repeats => input.not_lossless_of_repeats repeats lossless, input.lossless_of_not_repeats⟩

end RebaseLocations

theorem everySecond_toNat {n k : ℕ} (small : n ≤ 2 ^ 20) (bound : k < n + 1) :
    (pointerAt 8 128 (k * 2)).toNat = 128 + 16 * k := by
  simp only [pointerAt]
  bv_omega

theorem everySecond_mem {n : ℕ} (small : n ≤ 2 ^ 20) {location : BitVec 64}
    (inside : location ∈ (List.range (n + 1)).map fun k => pointerAt 8 128 (k * 2)) :
    ∃ k < n + 1, location.toNat = 128 + 16 * k := by
  obtain ⟨k, bound, rfl⟩ := List.mem_map.mp inside
  exact ⟨k, List.mem_range.mp bound, everySecond_toNat small (List.mem_range.mp bound)⟩

theorem everySecond_apart {n : ℕ} (small : n ≤ 2 ^ 20) :
    ((List.range (n + 1)).map fun k => pointerAt 8 128 (k * 2)).Pairwise fun a b =>
      a.toNat + BitVec.toNat (8 : BitVec 64) ≤ b.toNat ∨ b.toNat + BitVec.toNat (8 : BitVec 64) ≤ a.toNat := by
  refine List.pairwise_map.mpr (List.pairwise_lt_range.imp_of_mem fun {j k} left right before => .inl ?_)
  rw [everySecond_toNat small (List.mem_range.mp left), everySecond_toNat small (List.mem_range.mp right)]
  have eight : BitVec.toNat (8 : BitVec 64) = 8 := rfl
  omega

/-- Pairs of eight-byte pointers of which every second one is rebased, and one more. -/
def everySecondPointer (n : ℕ) (small : n ≤ 2 ^ 20) : RebaseLocations where
  ptrSize := 8
  size := .inr rfl
  locations := (List.range (n + 1)).map fun k => pointerAt 8 128 (k * 2)
  aligned location mem := by
    obtain ⟨k, bound, eq⟩ := everySecond_mem small mem
    omega
  ends location mem := by
    obtain ⟨k, bound, eq⟩ := everySecond_mem small mem
    have eight : BitVec.toNat (8 : BitVec 64) = 8 := rfl
    omega
  apart := everySecond_apart small
  inside first here := by
    obtain ⟨k, bound, eq⟩ := everySecond_mem small (List.mem_of_mem_head? here)
    have eight : BitVec.toNat (8 : BitVec 64) = 8 := rfl
    omega

theorem everySecondPointer_groups (n : ℕ) (small : n ≤ 2 ^ 20) :
    (everySecondPointer n small).locations = groups 8 128 1 1 n ++ [pointerAt 8 128 (n * 2)] := by
  have all (m : ℕ) : (List.range m).map (fun k => pointerAt 8 128 (k * 2)) = groups 8 128 1 1 m := by
    induction m with
    | zero => rfl
    | succ m ih => rw [groups_succ, contiguousRun_one, List.range_succ, List.map_append, ih, List.map_singleton]
  change (List.range (n + 1)).map _ = _
  rw [List.range_succ, List.map_append, all, List.map_singleton]

/-- Every second pointer of 16 megabytes: the repeat count of the pattern overflows. -/
theorem not_lossless_everySecondPointer : ¬(everySecondPointer (2 ^ 20) (Nat.le_refl _)).Lossless := by
  refine RebaseLocations.not_lossless_of_repeats _ ?_
  refine ⟨[], 128, 1, 1, [], by decide, by decide, by decide, by decide, Nat.dvd_zero 255, ?_⟩
  rw [List.nil_append, everySecondPointer_groups]
  rfl

end ObjcDyld.Closures
