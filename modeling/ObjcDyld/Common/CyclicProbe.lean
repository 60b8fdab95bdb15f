import Mathlib

/-!
# Cyclic probing

A probe starts at the home slot of a key and follows one cycle through all the
slots of a table until a visit gives an answer or the walk is back where it
began.  The loop is shared by every open-addressing table of this development;
the tables differ in what a visit looks at.
-/

namespace ObjcDyld.Probing

/-- A successor function that walks the slots `0 … size - 1` in one cycle. -/
structure Cycle where
  size : ℕ
  next : ℕ → ℕ
  size_pos : 0 < size
  next_lt : ∀ i, i < size → next i < size
  reach : ∀ i j, i < size → j < size → ∃ d, d < size ∧ next^[d] i = j

namespace Cycle

variable (c : Cycle)

/-- The slot visited after `d` steps from `home`. -/
def slot (home d : ℕ) : ℕ := c.next^[d] home

@[simp] theorem slot_zero (home : ℕ) : c.slot home 0 = home := rfl

theorem slot_succ (home d : ℕ) : c.slot home (d + 1) = c.next (c.slot home d) :=
  Function.iterate_succ_apply' c.next d home

theorem slot_lt {home : ℕ} (hhome : home < c.size) (d : ℕ) : c.slot home d < c.size := by
  induction d with
  | zero => exact hhome
  | succ d ih =>
      rw [slot_succ]
      exact c.next_lt _ ih

theorem exists_slot {home i : ℕ} (hhome : home < c.size) (hi : i < c.size) :
    ∃ d, d < c.size ∧ c.slot home d = i :=
  c.reach home i hhome hi

theorem slot_inj {home d e : ℕ} (hhome : home < c.size) (hd : d < c.size) (he : e < c.size)
    (same : c.slot home d = c.slot home e) : d = e := by
  have maps : ∀ k ∈ Finset.range c.size, c.slot home k ∈ Finset.range c.size :=
    fun k _ => Finset.mem_range.mpr (c.slot_lt hhome k)
  have onto : Set.SurjOn (c.slot home) (Finset.range c.size) (Finset.range c.size) := by
    intro i hi
    obtain ⟨k, hk, eq⟩ := c.exists_slot hhome (Finset.mem_range.mp (Finset.mem_coe.mp hi))
    exact ⟨k, Finset.mem_coe.mpr (Finset.mem_range.mpr hk), eq⟩
  have inj := Finset.injOn_of_surjOn_of_card_le (c.slot home) maps onto (le_refl _)
  exact inj (Finset.mem_coe.mpr (Finset.mem_range.mpr hd))
    (Finset.mem_coe.mpr (Finset.mem_range.mpr he)) same

end Cycle

/-- How a probing loop ends. -/
inductive Outcome (β : Type*) where
  | found (result : β)
  | wrapped
  | exhausted

/--
The probing loop: visit the current slot; without an answer step to the next
one, and give up when that is the slot the walk began with.  The fuel only
bounds the recursion.
-/
def probe {β : Type*} (next : ℕ → ℕ) (visit : ℕ → ℕ → Option β) (start : ℕ) :
    ℕ → ℕ → ℕ → Outcome β
  | 0, _, _ => .exhausted
  | fuel + 1, index, displacement =>
      match visit index displacement with
      | some result => .found result
      | none =>
          if next index = start then .wrapped
          else probe next visit start fuel (next index) (displacement + 1)

section Loop

variable {β : Type*} (c : Cycle) {visit : ℕ → ℕ → Option β} {home : ℕ}

theorem probe_step (hhome : home < c.size) {fuel d : ℕ} (hd : d + 1 < c.size)
    (miss : visit (c.slot home d) d = none) :
    probe c.next visit home (fuel + 1) (c.slot home d) d =
      probe c.next visit home fuel (c.slot home (d + 1)) (d + 1) := by
  have away : c.next (c.slot home d) ≠ home := by
    intro back
    rw [← c.slot_succ] at back
    have zero := c.slot_inj hhome hd c.size_pos (back.trans (c.slot_zero home).symm)
    omega
  rw [probe, miss]
  simp only [away, if_false, c.slot_succ]

theorem probe_found (hhome : home < c.size) {d : ℕ} (hd : d < c.size) {result : β}
    (hit : visit (c.slot home d) d = some result)
    (miss : ∀ e, e < d → visit (c.slot home e) e = none) :
    probe c.next visit home c.size home 0 = .found result := by
  have tail : ∀ steps e fuel, e + steps = d → steps < fuel →
      probe c.next visit home fuel (c.slot home e) e = .found result := by
    intro steps
    induction steps with
    | zero =>
        intro e fuel he hfuel
        obtain ⟨fuel, rfl⟩ := Nat.exists_eq_succ_of_ne_zero (Nat.ne_of_gt hfuel)
        obtain rfl : e = d := by omega
        simp only [probe, hit]
    | succ steps ih =>
        intro e fuel he hfuel
        obtain ⟨fuel, rfl⟩ := Nat.exists_eq_succ_of_ne_zero (Nat.ne_of_gt (Nat.zero_lt_of_lt hfuel))
        rw [probe_step c hhome (by omega) (miss e (by omega))]
        exact ih (e + 1) fuel (by omega) (by omega)
  exact tail d 0 c.size (by omega) hd

theorem probe_first (visit : ℕ → ℕ → Option β) (hhome : home < c.size)
    (answers : ∃ d, d < c.size ∧ (visit (c.slot home d) d).isSome) :
    ∃ d result, d < c.size ∧ visit (c.slot home d) d = some result ∧
      (∀ e, e < d → visit (c.slot home e) e = none) ∧
      probe c.next visit home c.size home 0 = .found result := by
  classical
  let first := Nat.find answers
  obtain ⟨hfirst, hsome⟩ := Nat.find_spec answers
  obtain ⟨result, hit⟩ := Option.isSome_iff_exists.mp hsome
  have miss : ∀ e, e < first → visit (c.slot home e) e = none := by
    intro e he
    have unanswered := Nat.find_min answers he
    rw [not_and, Option.not_isSome_iff_eq_none] at unanswered
    exact unanswered (Nat.lt_trans he hfirst)
  exact ⟨first, result, hfirst, hit, miss, probe_found c hhome hfirst hit miss⟩

end Loop

/-! ## The two directions of a power-of-two table -/

theorem land_mask (bits value : ℕ) : value &&& (2 ^ bits - 1) = value % 2 ^ bits :=
  Nat.and_two_pow_sub_one_eq_mod value bits

theorem iterate_increment (size home d : ℕ) (hhome : home < size) :
    (fun i => (i + 1) % size)^[d] home = (home + d) % size := by
  induction d with
  | zero => exact (Nat.mod_eq_of_lt hhome).symm
  | succ d ih => rw [Function.iterate_succ_apply', ih, Nat.mod_add_mod, Nat.add_assoc]

/-- Walk upwards: `(index + 1) & mask`. -/
def increment (bits : ℕ) : Cycle where
  size := 2 ^ bits
  next i := (i + 1) &&& (2 ^ bits - 1)
  size_pos := Nat.two_pow_pos bits
  next_lt i _ := by
    rw [land_mask]
    exact Nat.mod_lt _ (Nat.two_pow_pos bits)
  reach i j hi hj := by
    simp only [land_mask]
    refine ⟨(j + (2 ^ bits - i)) % 2 ^ bits, Nat.mod_lt _ (Nat.two_pow_pos bits), ?_⟩
    rw [iterate_increment _ _ _ hi, Nat.add_mod_mod, show i + (j + (2 ^ bits - i)) = j + 2 ^ bits by omega,
      Nat.add_mod_right, Nat.mod_eq_of_lt hj]

theorem iterate_decrement (mask home d : ℕ) (hd : d ≤ mask) :
    (fun i => if i = 0 then mask else i - 1)^[d] home =
      if d ≤ home then home - d else home + (mask + 1) - d := by
  induction d with
  | zero => simp
  | succ d ih =>
      rw [Function.iterate_succ_apply', ih (by omega)]
      grind

/-- Walk downwards: `index ? index - 1 : mask`. -/
def decrement (bits : ℕ) : Cycle where
  size := 2 ^ bits
  next i := if i = 0 then 2 ^ bits - 1 else i - 1
  size_pos := Nat.two_pow_pos bits
  next_lt i hi := by
    have positive := Nat.two_pow_pos bits
    split <;> omega
  reach i j hi hj := by
    have positive := Nat.two_pow_pos bits
    by_cases below : j ≤ i
    · refine ⟨i - j, by omega, ?_⟩
      rw [iterate_decrement _ _ _ (by omega), if_pos (by omega)]
      omega
    · refine ⟨i + 2 ^ bits - j, by omega, ?_⟩
      rw [iterate_decrement _ _ _ (by omega), if_neg (by omega)]
      omega

@[simp] theorem increment_size (bits : ℕ) : (increment bits).size = 2 ^ bits := rfl

@[simp] theorem decrement_size (bits : ℕ) : (decrement bits).size = 2 ^ bits := rfl

theorem home_lt (hash bits : ℕ) : hash &&& (2 ^ bits - 1) < 2 ^ bits := by
  rw [land_mask]
  exact Nat.mod_lt _ (Nat.two_pow_pos bits)

end ObjcDyld.Probing
