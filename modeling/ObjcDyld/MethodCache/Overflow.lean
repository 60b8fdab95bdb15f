import ObjcDyld.MethodCache.Runs

/-!
# Growing beyond `mask_t`

On i386 `mask_t` has 16 bits.  A class that is sent enough different selectors
makes its cache grow from 2^15 to 2^16 buckets; the new capacity is truncated to
zero on its way to `reallocate`, and the end marker is written in front of the
block.
-/

namespace ObjcDyld.MethodCache

open Function (update update_self update_of_ne)

section Frame

variable {platform : Platform} {cls sel imp address capacity : ℕ} {runtime runtime' : Runtime}

/-- After a call the cache points to its old block or to the new one; the shared list is as it was. -/
def Runtime.Follows (runtime' runtime : Runtime) (address : ℕ) : Prop :=
  runtime'.emptyBucketsList = runtime.emptyBucketsList ∧
    (runtime'.cache.buckets = runtime.cache.buckets ∨ runtime'.cache.buckets = address)

theorem reallocate_follows {freeOld : Bool}
    (run : reallocate platform capacity freeOld address runtime = .ok runtime') :
    runtime'.Follows runtime address := by
  unfold reallocate at run
  simp only at run
  cases allocated : allocateBuckets platform (platform.arch.maskT capacity) address runtime.heap with
  | error fault =>
      rw [allocated] at run
      cases run
  | ok heap =>
      rw [allocated, Loops.ok_bind] at run
      obtain rfl := Except.ok.inj run
      exact ⟨rfl, Or.inr rfl⟩

theorem makeRoom_follows {ready : ℕ × Runtime}
    (run : makeRoom platform address runtime = .ok ready) : ready.2.Follows runtime address := by
  have reallocated : ∀ {capacity freeOld},
      (reallocate platform capacity freeOld address runtime >>=
        fun runtime' => .ok (capacity, runtime')) = Except.ok ready →
      ready.2.Follows runtime address := by
    intro capacity freeOld run
    cases inner : reallocate platform capacity freeOld address runtime with
    | error fault =>
        rw [inner] at run
        cases run
    | ok runtime' =>
        rw [inner, Loops.ok_bind] at run
        obtain rfl := Except.ok.inj run
        exact reallocate_follows inner
  unfold makeRoom at run
  simp only at run
  split at run
  · exact reallocated run
  · split at run
    · obtain rfl := Except.ok.inj run
      exact ⟨rfl, Or.inl rfl⟩
    · exact reallocated run

theorem insert_follows (run : insert platform cls sel imp address runtime = .ok runtime') :
    runtime'.Follows runtime address := by
  unfold insert at run
  cases ready : makeRoom platform address runtime with
  | error fault =>
      rw [ready] at run
      cases run
  | ok room =>
      have follows := makeRoom_follows ready
      rw [ready, Loops.ok_bind] at run
      simp only at run
      cases scanned : scan platform room.2.block sel (platform.arch.maskT (room.1 - 1)) with
      | error fault =>
          rw [scanned] at run
          cases run
      | ok sighting =>
          rw [scanned, Loops.ok_bind] at run
          cases sighting with
          | unused i =>
              obtain rfl := Except.ok.inj run
              exact follows
          | present i =>
              obtain rfl := Except.ok.inj run
              exact follows

end Frame

/-! ## Filling a cache with new selectors -/

/-- A release build for i386. -/
def i386Platform : Platform := ⟨.i386, false, none, 1, Nat.one_ne_zero⟩

/-- The insertion of a selector that was not inserted before, into a block of its own address. -/
def fillOp (n : ℕ) : CacheOp := .insert (n + 2) 1 (n + 2)

/-- After `n` insertions the cache has `2 ^ bits` buckets, `filled` of them filled. -/
structure Filling (runtime : Runtime) (n bits filled : ℕ) : Prop where
  holds : ∃ known, Holds i386Platform 0 runtime known bits ∧ ∀ sel, n + 2 ≤ sel → known sel = none
  sharedEmpty : runtime.SharedEmpty i386Platform
  occupied : runtime.cache.occupied = filled
  list : runtime.emptyBucketsList = []
  buckets : runtime.cache.buckets < n + 2

namespace Filling

variable {runtime : Runtime} {n bits filled : ℕ}

theorem fresh_of (list : runtime.emptyBucketsList = []) (buckets : runtime.cache.buckets < n + 2) :
    runtime.Fresh i386Platform (n + 2) := by
  refine ⟨by omega, ?_, by omega⟩
  rw [Runtime.Shared, list]
  simp [i386Platform]

theorem legal (filling : Filling runtime n bits filled) :
    (fillOp n).Legal i386Platform 0 runtime :=
  ⟨show 1 < n + 2 by omega, by decide, fresh_of filling.list filling.buckets⟩

theorem of_insert {middle : Runtime} {known : Known} (list : runtime.emptyBucketsList = [])
    (buckets : runtime.cache.buckets < n + 2)
    (ready : makeRoom i386Platform (n + 2) runtime = .ok (2 ^ bits, middle))
    (holds : Holds i386Platform 0 middle known bits) (shared : middle.SharedEmpty i386Platform)
    (unknown : ∀ sel, n + 2 ≤ sel → known sel = none)
    (room : middle.cache.occupied + 2 < 2 ^ bits) :
    ∃ runtime', (fillOp n).run i386Platform 0 runtime = .ok runtime' ∧
      Filling runtime' (n + 1) bits (middle.cache.occupied + 1) := by
  obtain ⟨runtime', run, holds', shared', occupied⟩ := holds.insert ready shared room
    (show Selector (n + 2) by unfold Selector; omega) (show 1 ≠ 0 by decide)
  obtain ⟨list', buckets'⟩ := insert_follows run
  refine ⟨runtime', run, ⟨_, holds', fun sel above => ?_⟩, shared',
    occupied (unknown _ (Nat.le_refl _)), list'.trans list, ?_⟩
  · rw [update_of_ne (by omega)]
    exact unknown sel (by omega)
  · rcases buckets' with same | new <;> omega

theorem insert_asIs (filling : Filling runtime n bits filled) (room : filled + 2 ≤ 2 ^ bits / 4 * 3) :
    ∃ runtime', (fillOp n).run i386Platform 0 runtime = .ok runtime' ∧
      Filling runtime' (n + 1) bits (filled + 1) := by
  obtain ⟨⟨known, holds, unknown⟩, shared, rfl, list, buckets⟩ := filling
  have positive := Nat.two_pow_pos bits
  exact of_insert list buckets (holds.makeRoom_asIs (holds.hasRoom.mpr room) (n + 2)) holds shared
    unknown (by omega)

theorem full (filling : Filling runtime n bits filled) (full : 2 ^ bits / 4 * 3 < filled + 2) :
    runtime.hasRoom i386Platform = false := by
  obtain ⟨⟨known, holds, -⟩, -, rfl, -, -⟩ := filling
  rw [← Bool.not_eq_true, holds.hasRoom]
  exact Nat.not_le_of_lt full

theorem insert_grows (filling : Filling runtime n bits filled) (below : bits < 15)
    (full : 2 ^ bits / 4 * 3 < filled + 2) :
    ∃ runtime', (fillOp n).run i386Platform 0 runtime = .ok runtime' ∧
      Filling runtime' (n + 1) (bits + 1) 1 := by
  have noRoom := filling.full full
  obtain ⟨⟨known, holds, -⟩, shared, -, list, buckets⟩ := filling
  have next : min (bits + 1) 16 = bits + 1 := Nat.min_eq_left (by omega)
  have fits : bits + 1 < i386Platform.arch.maskBits := show bits + 1 < 16 by omega
  obtain ⟨middle, ready, empty, shared', occupied⟩ :=
    holds.makeRoom_grows shared (fresh_of list buckets) noRoom (by rwa [next])
  rw [next] at ready empty
  have four : 2 ^ 2 ≤ 2 ^ (bits + 1) := Nat.pow_le_pow_right (by decide) (by have := holds.pos; omega)
  obtain ⟨runtime', run, filling'⟩ := of_insert list buckets ready empty shared' (fun _ _ => rfl)
    (by omega)
  rw [occupied] at filling'
  exact ⟨runtime', run, filling'⟩

theorem insert_fails (filling : Filling runtime n 15 filled)
    (full : 2 ^ 15 / 4 * 3 < filled + 2) :
    (fillOp n).run i386Platform 0 runtime = .error .outOfBounds := by
  have noRoom := filling.full full
  obtain ⟨⟨known, holds, -⟩, -, -, -, -⟩ := filling
  have ready : makeRoom i386Platform (n + 2) runtime = .error .outOfBounds := by
    unfold makeRoom
    simp only [holds.isConstantEmptyCache, noRoom, holds.capacity, Bool.false_eq_true, if_false]
    rfl
  rw [CacheOp.run.eq_def, fillOp]
  simp only [insert, ready, Loops.error_bind]

end Filling

/-! ## The overflowing run -/

/-- `count` insertions of new selectors after the first `start` ones. -/
def fillOps (start count : ℕ) : List CacheOp := (List.range' start count).map fillOp

/-- A sequence of legal calls leads from one state to another. -/
structure Leads (ops : List CacheOp) (runtime runtime' : Runtime) : Prop where
  legal : HoldsThroughout i386Platform 0 (CacheOp.Legal i386Platform 0) ops runtime
  run : ops.foldlM (CacheOp.run i386Platform 0) runtime = .ok runtime'

namespace Leads

variable {ops rest : List CacheOp} {runtime middle runtime' : Runtime}

theorem nil (runtime : Runtime) : Leads [] runtime runtime := ⟨trivial, rfl⟩

theorem legal_append
    (first : Leads ops runtime middle)
    (second : HoldsThroughout i386Platform 0 (CacheOp.Legal i386Platform 0) rest middle) :
    HoldsThroughout i386Platform 0 (CacheOp.Legal i386Platform 0) (ops ++ rest) runtime := by
  obtain ⟨legal, run⟩ := first
  induction ops generalizing runtime with
  | nil =>
      obtain rfl := Except.ok.inj run
      exact second
  | cons op ops ih =>
      refine ⟨legal.1, ?_⟩
      have legalRest := legal.2
      rw [List.foldlM_cons] at run
      cases step : op.run i386Platform 0 runtime with
      | error fault =>
          rw [step] at run
          cases run
      | ok next =>
          rw [step] at legalRest
          rw [step, Loops.ok_bind] at run
          exact ih legalRest run

theorem append (first : Leads ops runtime middle) (second : Leads rest middle runtime') :
    Leads (ops ++ rest) runtime runtime' := by
  refine ⟨first.legal_append second.legal, ?_⟩
  rw [List.foldlM_append, first.run]
  exact second.run

theorem single {op : CacheOp} (legal : op.Legal i386Platform 0 runtime)
    (run : op.run i386Platform 0 runtime = .ok runtime') : Leads [op] runtime runtime' := by
  refine ⟨⟨legal, ?_⟩, ?_⟩
  · rw [run]
    trivial
  · rw [List.foldlM_cons, run]
    rfl

end Leads

theorem fillOps_append (start count more : ℕ) :
    fillOps start (count + more) = fillOps start count ++ fillOps (start + count) more := by
  rw [fillOps, fillOps, fillOps, ← List.map_append, List.range'_append_1]

theorem fillOps_one (start : ℕ) : fillOps start 1 = [fillOp start] := rfl

theorem Filling.fill {runtime : Runtime} {n bits filled : ℕ} (filling : Filling runtime n bits filled)
    (count : ℕ) (room : filled + count + 1 ≤ 2 ^ bits / 4 * 3) :
    ∃ runtime', Leads (fillOps n count) runtime runtime' ∧
      Filling runtime' (n + count) bits (filled + count) := by
  induction count with
  | zero => exact ⟨runtime, Leads.nil runtime, filling⟩
  | succ count ih =>
      obtain ⟨middle, leads, filling'⟩ := ih (by omega)
      obtain ⟨runtime', run, filling''⟩ := filling'.insert_asIs (by omega)
      refine ⟨runtime', ?_, filling''⟩
      rw [fillOps_append, fillOps_one]
      exact leads.append (.single filling'.legal run)

theorem filling_first : ∃ runtime', Leads (fillOps 0 1) (.initial i386Platform) runtime' ∧
    Filling runtime' 1 2 1 := by
  have fresh : (Runtime.initial i386Platform).Fresh i386Platform (0 + 2) :=
    Filling.fresh_of rfl (by decide)
  have shared := Runtime.initial_sharedEmpty i386Platform
  obtain ⟨-, ⟨bits, holds⟩ | ⟨bits, forgotten⟩⟩ := initial_stands i386Platform 0
  · exact absurd (Or.inl rfl) holds.unshared
  · have zero : bits = 0 := by
      by_contra ne
      have mask : (Runtime.initial i386Platform).cache.mask i386Platform = 0 := rfl
      have two : 2 ^ 1 ≤ 2 ^ bits := Nat.pow_le_pow_right (by decide) (by omega)
      have := forgotten.mask
      omega
    obtain ⟨bits', middle, ready, hbits', empty, shared', occupied⟩ := forgotten.makeRoom shared fresh
    rw [if_pos zero] at hbits'
    subst hbits'
    obtain ⟨runtime', run, filling⟩ := Filling.of_insert (n := 0) rfl (by decide) ready empty shared'
      (fun _ _ => rfl) (by rw [occupied]; decide)
    rw [occupied] at filling
    exact ⟨runtime', .single ⟨show 1 < 0 + 2 by decide, by decide, fresh⟩ run, filling⟩

theorem filling_full (k : ℕ) (le : k ≤ 13) :
    ∃ runtime', Leads (fillOps 0 (6 * 2 ^ k - k - 4)) (.initial i386Platform) runtime' ∧
      Filling runtime' (6 * 2 ^ k - k - 4) (k + 2) (3 * 2 ^ k - 1) := by
  have quarter : ∀ k, 2 ^ (k + 2) / 4 = 2 ^ k := fun k => by
    rw [Nat.pow_add]
    omega
  induction k with
  | zero =>
      obtain ⟨middle, leads, filling⟩ := filling_first
      obtain ⟨runtime', leads', filling'⟩ := filling.fill 1 (by decide)
      exact ⟨runtime', leads.append leads', filling'⟩
  | succ k ih =>
      obtain ⟨middle, leads, filling⟩ := ih (by omega)
      have large : k < 2 ^ k := Nat.lt_two_pow_self
      have double : 2 ^ (k + 1) = 2 * 2 ^ k := Nat.pow_succ'
      obtain ⟨grown, run, first⟩ := filling.insert_grows (by omega) (by rw [quarter]; omega)
      obtain ⟨runtime', leads', filling'⟩ := first.fill (6 * 2 ^ k - 2) (by
        rw [show k + 2 + 1 = k + 1 + 2 by omega, quarter, double]
        omega)
      have count : 6 * 2 ^ (k + 1) - (k + 1) - 4 = 6 * 2 ^ k - k - 4 + 1 + (6 * 2 ^ k - 2) := by omega
      have occupied : 3 * 2 ^ (k + 1) - 1 = 1 + (6 * 2 ^ k - 2) := by omega
      refine ⟨runtime', ?_, ?_⟩
      · rw [count, fillOps_append, fillOps_append, fillOps_one, Nat.zero_add, Nat.zero_add]
        exact (leads.append (.single filling.legal run)).append leads'
      · rw [count, occupied, show k + 1 + 2 = k + 2 + 1 by omega]
        exact filling'

/-- The insertion of 49136 different selectors writes outside of a block. -/
theorem runCacheOps_overflows :
    HoldsThroughout i386Platform 0 (CacheOp.Legal i386Platform 0) (fillOps 0 49136)
        (.initial i386Platform) ∧
      runCacheOps i386Platform 0 (fillOps 0 49136) = .error .outOfBounds := by
  obtain ⟨runtime, leads, filling⟩ := filling_full 13 (Nat.le_refl _)
  have count : 6 * 2 ^ 13 - 13 - 4 = 49135 := by decide
  rw [count] at leads filling
  have fails := filling.insert_fails (by decide)
  rw [show 49136 = 49135 + 1 from rfl, fillOps_append, fillOps_one, Nat.zero_add]
  refine ⟨leads.legal_append ⟨filling.legal, ?_⟩, ?_⟩
  · rw [fails]
    trivial
  · rw [runCacheOps, List.foldlM_append, leads.run, Loops.ok_bind, List.foldlM_cons, fails]
    rfl

end ObjcDyld.MethodCache
