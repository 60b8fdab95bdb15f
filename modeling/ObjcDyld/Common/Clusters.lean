import ObjcDyld.Common.SlotTable

/-!
# Clusters of occupied slots

The second way to keep keys findable.  Every stored key lies behind an unbroken
run of occupied slots that starts at its home, so a walk from there meets the
key before it meets a free slot.  Filling the first free slot of a walk keeps
this, and so does clearing a whole run up to the free slot that ends it.
-/

namespace ObjcDyld.Probing

open Function (update update_self update_of_ne)

variable {α K : Type*}

/-- Every stored key is separated from its home by occupied slots only. -/
def Clustered (keyOf : α → Option K) (c : Cycle) (home : K → ℕ) (cells : ℕ → α) : Prop :=
  ∀ i, i < c.size → ∀ k, keyOf (cells i) = some k →
    ∃ d, d < c.size ∧ c.slot (home k) d = i ∧
      ∀ e, e < d → (keyOf (cells (c.slot (home k) e))).isSome

/--
A walk from `start` ends at displacement `d`: there it meets a wanted key or a
free slot, and every slot before holds a key that is not wanted.
-/
structure WalkEnds (keyOf : α → Option K) (c : Cycle) (cells : ℕ → α) (start : ℕ)
    (wanted : K → Prop) (d : ℕ) : Prop where
  lt_size : d < c.size
  passed : ∀ e, e < d → ∃ k, keyOf (cells (c.slot start e)) = some k ∧ ¬ wanted k
  stopped : ∀ k, keyOf (cells (c.slot start d)) = some k → wanted k

variable {keyOf : α → Option K} {c : Cycle} {home : K → ℕ} {cells : ℕ → α}

theorem exists_walkEnds {start : ℕ} (hstart : start < c.size) (wanted : K → Prop)
    (room : occupancy keyOf c.size cells < c.size) : ∃ d, WalkEnds keyOf c cells start wanted d := by
  classical
  have stops : ∃ d, d < c.size ∧ ∀ k, keyOf (cells (c.slot start d)) = some k → wanted k := by
    obtain ⟨i, hi, free⟩ := exists_free room
    obtain ⟨d, hd, rfl⟩ := c.exists_slot hstart hi
    refine ⟨d, hd, fun k held => ?_⟩
    rw [free] at held
    cases held
  obtain ⟨hlt, hstop⟩ := Nat.find_spec stops
  refine ⟨Nat.find stops, hlt, fun e he => ?_, hstop⟩
  have goesOn := Nat.find_min stops he
  simp only [not_and, not_forall] at goesOn
  obtain ⟨k, held, unwanted⟩ := goesOn (Nat.lt_trans he hlt)
  exact ⟨k, held, unwanted⟩

namespace WalkEnds

variable {start d : ℕ} {wanted : K → Prop}

theorem isSome (ends : WalkEnds keyOf c cells start wanted d) (e : ℕ) (he : e < d) :
    (keyOf (cells (c.slot start e))).isSome := by
  obtain ⟨k, held, -⟩ := ends.passed e he
  exact Option.isSome_iff_exists.mpr ⟨k, held⟩

theorem probe {β : Type*} {visit : ℕ → ℕ → Option β} {result : β}
    (ends : WalkEnds keyOf c cells start wanted d) (hstart : start < c.size)
    (hit : visit (c.slot start d) d = some result)
    (miss : ∀ e, e < d → ∀ k, keyOf (cells (c.slot start e)) = some k → ¬ wanted k →
      visit (c.slot start e) e = none) :
    probe c.next visit start c.size start 0 = .found result := by
  refine probe_found c hstart ends.lt_size hit fun e he => ?_
  obtain ⟨k, held, unwanted⟩ := ends.passed e he
  exact miss e he k held unwanted

theorem absent (ends : WalkEnds keyOf c cells start wanted d)
    (clustered : Clustered keyOf c home cells) (homes : ∀ k, wanted k → home k = start)
    (free : keyOf (cells (c.slot start d)) = none) {i : ℕ} (hi : i < c.size) {k : K}
    (held : keyOf (cells i) = some k) : ¬ wanted k := by
  intro want
  obtain ⟨e, he, rfl, run⟩ := clustered i hi k held
  rw [homes k want] at held run
  rcases Nat.lt_trichotomy e d with before | rfl | after
  · obtain ⟨l, heldL, unwanted⟩ := ends.passed e before
    exact unwanted (Option.some.inj (heldL.symm.trans held) ▸ want)
  · rw [free] at held
    cases held
  · have occupied := run d after
    rw [free] at occupied
    cases occupied

end WalkEnds

namespace Clustered

/-- A change of one cell that keeps it occupied, or that was free, breaks no run. -/
private theorem run_update {i : ℕ} {a : α} {start d : ℕ} (some : (keyOf a).isSome)
    (run : ∀ e, e < d → (keyOf (cells (c.slot start e))).isSome) (e : ℕ) (he : e < d) :
    (keyOf (update cells i a (c.slot start e))).isSome := by
  by_cases here : c.slot start e = i
  · rw [here, update_self]
    exact some
  · rw [update_of_ne here]
    exact run e he

theorem fill (clustered : Clustered keyOf c home cells) {k : K} {d : ℕ} {wanted : K → Prop}
    (ends : WalkEnds keyOf c cells (home k) wanted d) {a : α} (new : keyOf a = some k) :
    Clustered keyOf c home (update cells (c.slot (home k) d) a) := by
  have occupied : (keyOf a).isSome := Option.isSome_iff_exists.mpr ⟨k, new⟩
  intro i hi l held
  by_cases here : i = c.slot (home k) d
  · rw [here, update_self, new] at held
    obtain rfl := Option.some.inj held
    exact ⟨d, ends.lt_size, here.symm, run_update occupied ends.isSome⟩
  · rw [update_of_ne here] at held
    obtain ⟨e, he, eq, run⟩ := clustered i hi l held
    exact ⟨e, he, eq, run_update occupied run⟩

end Clustered

end ObjcDyld.Probing
