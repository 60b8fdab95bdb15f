import Mathlib

/-!
# Triangular probing

A probe of a table whose size is a power of two: the distance from one slot to the next grows by
one with every step. The sequence visits every slot, so that a search ends in the slot of a
matching item or in an empty one.
-/

namespace ObjcDyld.TriangularProbe

/-- The slot after a number of steps. -/
def slot (size start step : ℕ) : ℕ := (start + step * (step + 1) / 2) % size

theorem slot_zero (size start : ℕ) : slot size start 0 = start % size := by simp [slot]

theorem slot_succ (size start step : ℕ) : slot size start (step + 1) = (slot size start step + (step + 1)) % size := by
  have triangle : (step + 1) * (step + 1 + 1) / 2 = step * (step + 1) / 2 + (step + 1) := by
    rw [show (step + 1) * (step + 1 + 1) = step * (step + 1) + (step + 1) * 2 by ring,
      Nat.add_mul_div_right _ _ Nat.two_pos]
  rw [slot, slot, triangle, Nat.mod_add_mod, Nat.add_assoc]

theorem triangle_inj (bits : ℕ) {first second : ℕ} (less : first < second) (small : second < 2 ^ bits)
    (same : second * (second + 1) / 2 ≡ first * (first + 1) / 2 [MOD 2 ^ bits]) : False := by
  have doubled : 2 ^ (bits + 1) ∣ (second - first) * (second + first + 1) := by
    have even : ∀ n, n * (n + 1) / 2 * 2 = n * (n + 1) := fun n =>
      Nat.div_mul_cancel (Nat.even_mul_succ_self n).two_dvd
    have le : first * (first + 1) / 2 ≤ second * (second + 1) / 2 :=
      Nat.div_le_div_right (Nat.mul_le_mul (by omega) (by omega))
    obtain ⟨times, eq⟩ := (Nat.modEq_iff_dvd' le).mp same.symm
    refine ⟨times, ?_⟩
    have product : (second - first) * (second + first + 1) + first * (first + 1) = second * (second + 1) := by
      obtain ⟨gap, rfl⟩ := Nat.exists_eq_add_of_lt less
      rw [show first + gap + 1 - first = gap + 1 by omega]
      ring
    have sum : second * (second + 1) / 2 = first * (first + 1) / 2 + 2 ^ bits * times := by omega
    have := even second
    rw [sum, Nat.add_mul, even first] at this
    have : (second - first) * (second + first + 1) = 2 ^ bits * times * 2 := by omega
    rw [this]
    ring
  -- one of the factors is odd, and both are below the double of the size
  rcases Nat.even_or_odd (second - first) with even | odd
  · have odd : Odd (second + first + 1) := by
      rw [show second + first + 1 = (second - first) + 2 * first + 1 by omega]
      exact (even.add (even_two_mul first)).add_one
    have divides := (Nat.Coprime.pow_left (bits + 1) (Nat.coprime_two_left.mpr odd)).dvd_of_dvd_mul_right doubled
    have := Nat.le_of_dvd (by omega) divides
    rw [Nat.pow_succ] at this
    omega
  · have divides := (Nat.Coprime.pow_left (bits + 1) (Nat.coprime_two_left.mpr odd)).dvd_of_dvd_mul_left doubled
    have := Nat.le_of_dvd (by omega) divides
    rw [Nat.pow_succ] at this
    omega

theorem slot_inj (bits start : ℕ) {first second : ℕ} (small : first < 2 ^ bits) (small' : second < 2 ^ bits)
    (same : slot (2 ^ bits) start first = slot (2 ^ bits) start second) : first = second := by
  have cancelled := Nat.ModEq.add_left_cancel' start same
  rcases Nat.lt_trichotomy first second with less | eq | more
  · exact (triangle_inj bits less small' cancelled.symm).elim
  · exact eq
  · exact (triangle_inj bits more small cancelled).elim

theorem exists_slot (bits start : ℕ) {index : ℕ} (inside : index < 2 ^ bits) :
    ∃ step < 2 ^ bits, slot (2 ^ bits) start step = index := by
  have maps : ∀ step ∈ Finset.range (2 ^ bits), slot (2 ^ bits) start step ∈ Finset.range (2 ^ bits) :=
    fun step _ => Finset.mem_range.mpr (Nat.mod_lt _ (Nat.two_pow_pos bits))
  have inj : Set.InjOn (slot (2 ^ bits) start) (Finset.range (2 ^ bits)) := fun first small second small' same =>
    slot_inj bits start (Finset.mem_range.mp small) (Finset.mem_range.mp small') same
  obtain ⟨step, small, eq⟩ := Finset.surj_on_of_inj_on_of_card_le (fun step _ => slot (2 ^ bits) start step) maps
    (fun _ _ small small' same => inj small small' same) le_rfl index (Finset.mem_range.mpr inside)
  exact ⟨step, Finset.mem_range.mp small, eq.symm⟩

/-- The probing loop: `hashIndex += probeAmount; hashIndex &= mask; ++probeAmount`. -/
def probe (hit : ℕ → Bool) (mask : ℕ) : ℕ → ℕ → ℕ → Option ℕ
  | 0, _, _ => none
  | fuel + 1, index, amount =>
      if hit index then some index else probe hit mask fuel ((index + amount) &&& mask) (amount + 1)

theorem probe_first (hit : ℕ → Bool) (bits start : ℕ) {found : ℕ} (small : found < 2 ^ bits)
    (hits : hit (slot (2 ^ bits) start found) = true)
    (misses : ∀ step < found, hit (slot (2 ^ bits) start step) = false) :
    probe hit (2 ^ bits - 1) (2 ^ bits) (start &&& (2 ^ bits - 1)) 1 = some (slot (2 ^ bits) start found) := by
  suffices ∀ left step fuel, step + left = found → left < fuel →
      probe hit (2 ^ bits - 1) fuel (slot (2 ^ bits) start step) (step + 1) = some (slot (2 ^ bits) start found) by
    have whole := this found 0 (2 ^ bits) (by omega) small
    rwa [slot_zero, ← Nat.and_two_pow_sub_one_eq_mod] at whole
  intro left
  induction left with
  | zero =>
      intro step fuel eq enough
      obtain ⟨fuel, rfl⟩ := Nat.exists_eq_succ_of_ne_zero (Nat.ne_of_gt enough)
      obtain rfl : step = found := by omega
      rw [probe, if_pos hits]
  | succ left ih =>
      intro step fuel eq enough
      obtain ⟨fuel, rfl⟩ := Nat.exists_eq_succ_of_ne_zero (Nat.ne_of_gt (Nat.zero_lt_of_lt enough))
      rw [probe, if_neg (by simp [misses step (by omega)]), Nat.and_two_pow_sub_one_eq_mod, ← slot_succ]
      exact ih (step + 1) fuel (by omega) (by omega)

variable {ι : Type*}

/-- A slot ends the search for a matching item. -/
def ends (table : List (Option ι)) (isMatch : ι → Bool) (index : ℕ) : Bool :=
  match table[index]? with
  | some (some item) => isMatch item
  | some none => true
  | none => false

/-- The slot of the first item in the sequence that matches, or an empty slot. -/
def search (table : List (Option ι)) (isMatch : ι → Bool) (start : ℕ) : Option ℕ :=
  probe (ends table isMatch) (table.length - 1) table.length (start &&& (table.length - 1)) 1

/-- An item that a probe from a start reaches without meeting an empty slot. -/
def Placed (table : List (Option ι)) (start : ℕ) (item : ι) : Prop :=
  ∃ found < table.length, table[slot table.length start found]? = some (some item) ∧
    ∀ step < found, ∃ other, table[slot table.length start step]? = some (some other)

variable {table : List (Option ι)}

theorem search_spec {bits : ℕ} (size : table.length = 2 ^ bits) (room : none ∈ table) (isMatch : ι → Bool)
    (start : ℕ) : ∃ index, search table isMatch start = some index ∧
      ((∃ item, table[index]? = some (some item) ∧ isMatch item = true) ∨
        table[index]? = some none ∧ (∀ item, Placed table start item → isMatch item = false) ∧
          ∀ item, Placed (table.set index (some item)) start item) := by
  obtain ⟨empty, inside, vacant⟩ := List.mem_iff_getElem.mp room
  obtain ⟨last, small, reach⟩ := exists_slot bits start (size ▸ inside)
  have exists_hit : ∃ step, step < 2 ^ bits ∧ ends table isMatch (slot (2 ^ bits) start step) = true := by
    refine ⟨last, small, ?_⟩
    rw [reach, ends, List.getElem?_eq_getElem inside, vacant]
  obtain ⟨small, hits⟩ := Nat.find_spec exists_hit
  set found := Nat.find exists_hit
  have misses : ∀ step < found, ends table isMatch (slot (2 ^ bits) start step) = false := by
    intro step less
    have := Nat.find_min exists_hit less
    rw [not_and, Bool.not_eq_true] at this
    exact this (by omega)
  refine ⟨slot (2 ^ bits) start found, ?_, ?_⟩
  · rw [search, size]
    exact probe_first _ bits start small hits misses
  have within : ∀ step, slot (2 ^ bits) start step < table.length := fun step => by
    rw [size]
    exact Nat.mod_lt _ (Nat.two_pow_pos bits)
  have visited : ∀ step, ∃ held, table[slot (2 ^ bits) start step]? = some held := fun step =>
    ⟨_, List.getElem?_eq_getElem (within step)⟩
  have occupied : ∀ step < found, ∃ other, table[slot (2 ^ bits) start step]? = some (some other) ∧
      isMatch other = false := by
    intro step less
    have miss := misses step less
    obtain ⟨held, at_step⟩ := visited step
    rw [ends, at_step] at miss
    cases held with
    | none => simp at miss
    | some other => exact ⟨other, at_step, miss⟩
  obtain ⟨held, at_found⟩ := visited found
  rw [ends, at_found] at hits
  cases held with
  | some item => exact Or.inl ⟨item, at_found, hits⟩
  | none =>
      refine Or.inr ⟨at_found, fun item placed => ?_, fun item => ⟨found, ?_, ?_, fun step less => ?_⟩⟩
      · -- an item that is placed lies before the first empty slot of its sequence
        obtain ⟨place, _, at_place, before⟩ := placed
        rw [size] at at_place before
        rcases Nat.lt_trichotomy place found with less | same | more
        · obtain ⟨other, at_other, differs⟩ := occupied place less
          rw [at_place, Option.some.injEq, Option.some.injEq] at at_other
          rw [at_other]
          exact differs
        · rw [same, at_found] at at_place
          simp at at_place
        · obtain ⟨other, at_other⟩ := before found more
          rw [at_found] at at_other
          simp at at_other
      · rw [List.length_set, size]
        exact small
      · rw [List.length_set, size, List.getElem?_set_self (within found)]
      · rw [List.length_set, size]
        obtain ⟨other, at_other, -⟩ := occupied step less
        refine ⟨other, ?_⟩
        rw [List.getElem?_set_ne, at_other]
        exact fun same => absurd (slot_inj bits start small (by omega) same) (by omega)

theorem Placed.set {start index : ℕ} {item : ι} (placed : Placed table start item) (vacant : table[index]? = some none)
    (new : ι) : Placed (table.set index (some new)) start item := by
  obtain ⟨found, small, at_found, before⟩ := placed
  have other_slot : ∀ step held, table[slot table.length start step]? = some (some held) →
      index ≠ slot table.length start step := by
    rintro step held at_step rfl
    rw [vacant] at at_step
    simp at at_step
  refine ⟨found, ?_, ?_, fun step less => ?_⟩
  · rwa [List.length_set]
  · rw [List.length_set, List.getElem?_set_ne (other_slot found item at_found), at_found]
  · obtain ⟨other, at_other⟩ := before step less
    exact ⟨other, by rw [List.length_set, List.getElem?_set_ne (other_slot step other at_other), at_other]⟩

theorem countP_set {index : ℕ} (vacant : table[index]? = some none) (new : ι) :
    (table.set index (some new)).countP Option.isSome = table.countP Option.isSome + 1 := by
  obtain ⟨inside, at_index⟩ := List.getElem?_eq_some_iff.mp vacant
  rw [List.countP_set inside, at_index]
  simp

theorem none_mem_of_countP_lt (few : table.countP Option.isSome < table.length) : none ∈ table := by
  by_contra full
  refine absurd few (Nat.not_lt.mpr (Nat.le_of_eq (Eq.symm (List.countP_eq_length.mpr fun held inside => ?_))))
  cases held with
  | none => exact absurd inside full
  | some _ => rfl

end ObjcDyld.TriangularProbe
