import Mathlib

/-!
# The first of highest rank

Among the natural numbers below a bound that satisfy a predicate, the first of highest rank is kept
by a pass from zero on that replaces its choice only for a higher rank.
-/

namespace ObjcDyld.Rankings

variable {ρ : Type} [LinearOrder ρ] {rank : ℕ → ρ} {candidate other : ℕ → Prop} {n i j : ℕ}

/-- `i` is the first of highest rank among the candidates below `n`. -/
structure IsFirstBest (rank : ℕ → ρ) (candidate : ℕ → Prop) (n i : ℕ) : Prop where
  lt : i < n
  member : candidate i
  highest : ∀ k < n, candidate k → rank k ≤ rank i
  first : ∀ k < i, candidate k → rank k < rank i

/-- One step of the pass. -/
def keepBetter (rank : ℕ → ρ) (best : Option ℕ) (i : ℕ) : Option ℕ :=
  match best with
  | none => some i
  | some kept => if rank kept < rank i then some i else some kept

/-- The choice after a pass over the numbers below `n`. -/
def firstBest (rank : ℕ → ρ) (candidate : ℕ → Prop) [DecidablePred candidate] : ℕ → Option ℕ
  | 0 => none
  | n + 1 =>
      if candidate n then keepBetter rank (firstBest rank candidate n) n else firstBest rank candidate n

namespace IsFirstBest

theorem unique (hi : IsFirstBest rank candidate n i) (hj : IsFirstBest rank candidate n j) : i = j := by
  rcases Nat.lt_trichotomy i j with before | same | behind
  · exact absurd (hj.first i before hi.member) (not_lt_of_ge (hi.highest j hj.lt hj.member))
  · exact same
  · exact absurd (hi.first j behind hj.member) (not_lt_of_ge (hj.highest i hi.lt hi.member))

theorem of_subset (hi : IsFirstBest rank other n i) (inside : candidate i) (subset : ∀ k, candidate k → other k) :
    IsFirstBest rank candidate n i where
  lt := hi.lt
  member := inside
  highest k bound member := hi.highest k bound (subset k member)
  first k before member := hi.first k before (subset k member)

theorem succ_of_not (hi : IsFirstBest rank candidate n i) (skipped : ¬ candidate n) :
    IsFirstBest rank candidate (n + 1) i where
  lt := Nat.lt_succ_of_lt hi.lt
  member := hi.member
  highest k bound member := by
    rcases Nat.lt_succ_iff_lt_or_eq.1 bound with below | rfl
    · exact hi.highest k below member
    · exact absurd member skipped
  first := hi.first

theorem succ_of_le (hi : IsFirstBest rank candidate n i) (le : rank n ≤ rank i) :
    IsFirstBest rank candidate (n + 1) i where
  lt := Nat.lt_succ_of_lt hi.lt
  member := hi.member
  highest k bound member := by
    rcases Nat.lt_succ_iff_lt_or_eq.1 bound with below | rfl
    · exact hi.highest k below member
    · exact le
  first := hi.first

theorem succ_of_lt (hi : IsFirstBest rank candidate n i) (member : candidate n) (lt : rank i < rank n) :
    IsFirstBest rank candidate (n + 1) n where
  lt := Nat.lt_succ_self n
  member := member
  highest k bound member := by
    rcases Nat.lt_succ_iff_lt_or_eq.1 bound with below | rfl
    · exact (hi.highest k below member).trans lt.le
    · exact le_rfl
  first k bound member := (hi.highest k bound member).trans_lt lt

theorem succ_of_none (empty : ∀ k < n, ¬ candidate k) (member : candidate n) :
    IsFirstBest rank candidate (n + 1) n where
  lt := Nat.lt_succ_self n
  member := member
  highest k bound member := by
    rcases Nat.lt_succ_iff_lt_or_eq.1 bound with below | rfl
    · exact absurd member (empty k below)
    · exact le_rfl
  first k bound member := absurd member (empty k bound)

end IsFirstBest

section Pass

variable [DecidablePred candidate]

theorem firstBest_spec (rank : ℕ → ρ) (candidate : ℕ → Prop) [DecidablePred candidate] (n : ℕ) :
    (firstBest rank candidate n = none ∧ ∀ k < n, ¬ candidate k) ∨
      ∃ i, firstBest rank candidate n = some i ∧ IsFirstBest rank candidate n i := by
  induction n with
  | zero => exact Or.inl ⟨rfl, fun k bound => absurd bound (Nat.not_lt_zero k)⟩
  | succ n ih =>
      rw [firstBest]
      by_cases member : candidate n
      · rw [if_pos member]
        rcases ih with ⟨noneFound, empty⟩ | ⟨i, found, isBest⟩
        · rw [noneFound]
          exact Or.inr ⟨n, rfl, IsFirstBest.succ_of_none empty member⟩
        · rw [found, keepBetter]
          by_cases better : rank i < rank n
          · rw [if_pos better]
            exact Or.inr ⟨n, rfl, isBest.succ_of_lt member better⟩
          · rw [if_neg better]
            exact Or.inr ⟨i, rfl, isBest.succ_of_le (not_lt.1 better)⟩
      · rw [if_neg member]
        rcases ih with ⟨noneFound, empty⟩ | ⟨i, found, isBest⟩
        · refine Or.inl ⟨noneFound, fun k bound => ?_⟩
          rcases Nat.lt_succ_iff_lt_or_eq.1 bound with below | rfl
          · exact empty k below
          · exact member
        · exact Or.inr ⟨i, found, isBest.succ_of_not member⟩

theorem firstBest_eq_some_iff : firstBest rank candidate n = some i ↔ IsFirstBest rank candidate n i := by
  constructor
  · intro found
    rcases firstBest_spec rank candidate n with ⟨noneFound, _⟩ | ⟨j, found', isBest⟩
    · rw [noneFound] at found
      exact absurd found.symm (Option.some_ne_none i)
    · rw [found', Option.some.injEq] at found
      exact found ▸ isBest
  · intro isBest
    rcases firstBest_spec rank candidate n with ⟨_, empty⟩ | ⟨j, found, isBest'⟩
    · exact absurd isBest.member (empty i isBest.lt)
    · rw [found, isBest.unique isBest']

theorem firstBest_eq_none_iff : firstBest rank candidate n = none ↔ ∀ k < n, ¬ candidate k := by
  constructor
  · intro noneFound
    rcases firstBest_spec rank candidate n with ⟨_, empty⟩ | ⟨j, found, _⟩
    · exact empty
    · rw [noneFound] at found
      exact absurd found.symm (Option.some_ne_none j)
  · intro empty
    rcases firstBest_spec rank candidate n with ⟨noneFound, _⟩ | ⟨j, _, isBest⟩
    · exact noneFound
    · exact absurd isBest.member (empty j isBest.lt)

end Pass

end ObjcDyld.Rankings

/-!
## First strong, else first

The choice of the first strong item of a list, or of its first item when none is strong, as a
scan that may change its mind once.
-/

namespace ObjcDyld.Preference

variable {α : Type*} (strong : α → Bool)

def chosen (items : List α) : Option α := (items.find? strong).or items.head?

/-- The chosen item and those after it. -/
def chosenOnwards (items : List α) : List α :=
  if items.any strong then items.dropWhile fun item => !strong item else items

theorem chosenOnwards_nil : chosenOnwards strong [] = [] := by simp [chosenOnwards]

theorem chosenOnwards_head? (items : List α) : (chosenOnwards strong items).head? = chosen strong items := by
  unfold chosenOnwards chosen
  split
  · next some_strong =>
      rw [← List.find?_eq_head?_dropWhile_not]
      obtain ⟨item, inside, is_strong⟩ := List.any_eq_true.mp some_strong
      obtain ⟨first, found⟩ := Option.isSome_iff_exists.mp (List.find?_isSome.mpr ⟨item, inside, is_strong⟩)
      simp [found]
  · next none_strong =>
      have absent : items.find? strong = none := by
        rw [List.find?_eq_none]
        intro item inside is_strong
        exact none_strong (List.any_eq_true.mpr ⟨item, inside, is_strong⟩)
      rw [absent, Option.none_or]

theorem chosenOnwards_snoc (items : List α) (item : α) :
    chosenOnwards strong (items ++ [item]) =
      if strong item && !items.any strong then [item] else chosenOnwards strong items ++ [item] := by
  unfold chosenOnwards
  cases before : items.any strong with
  | true =>
      obtain ⟨other, inside, is_strong⟩ := List.any_eq_true.mp before
      have remains : items.dropWhile (fun item => !strong item) ≠ [] := by
        rw [ne_eq, List.dropWhile_eq_nil_iff]
        exact fun every => by simpa [is_strong] using every other inside
      simp [before, List.dropWhile_append, remains]
  | false =>
      have weak : ∀ other ∈ items, strong other = false := by simpa using before
      cases last : strong item with
      | true =>
          have dropped : items.dropWhile (fun item => !strong item) = [] :=
            List.dropWhile_eq_nil_iff.mpr fun other inside => by simp [weak other inside]
          simp [before, last, List.dropWhile_append, dropped]
      | false => simp [before, last]

theorem chosenOnwards_eq_nil {items : List α} : chosenOnwards strong items = [] ↔ items = [] := by
  constructor
  · intro empty
    have none_chosen := chosenOnwards_head? strong items
    rw [empty] at none_chosen
    cases items with
    | nil => rfl
    | cons item rest => simp [chosen] at none_chosen
  · rintro rfl
    exact chosenOnwards_nil strong

end ObjcDyld.Preference
