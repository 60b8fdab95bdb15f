import Mathlib

/-!
# Repeated rounds

Rounds that say whether there is to be another one: `while (doAgain)`. Rounds that lower a
measure whenever they ask for another one come to an end.
-/

namespace ObjcDyld.Repeats

variable {σ : Type*} (round : σ → σ) (again : σ → Bool)

/-- Rounds until one does not ask for another, at most `fuel` of them. -/
def repeatWhile : ℕ → σ → Option σ
  | 0, _ => none
  | fuel + 1, state =>
      if again (round state) then repeatWhile fuel (round state) else some (round state)

variable {round again}

theorem repeatWhile_spec (Inv : σ → Prop) (measure : σ → ℕ) (step : ∀ state, Inv state → Inv (round state))
    (lower : ∀ state, Inv state → again (round state) = true → measure (round state) < measure state) (fuel : ℕ)
    {state : σ} (init : Inv state) (enough : measure state < fuel) :
    ∃ last, repeatWhile round again fuel state = some (round last) ∧ Inv last ∧ again (round last) = false := by
  induction fuel generalizing state with
  | zero => exact absurd enough (Nat.not_lt_zero _)
  | succ fuel ih =>
      rw [repeatWhile]
      cases more : again (round state) with
      | true =>
          have less := lower state init more
          exact ih (step state init) (by omega)
      | false => exact ⟨state, rfl, init, more⟩

theorem foldl_quiet {α : Type*} {step : σ → α → σ} {again : σ → Bool}
    (quiet : ∀ state item, again (step state item) = false → step state item = state) (items : List α) {state : σ}
    (silent : again (items.foldl step state) = false) :
    items.foldl step state = state ∧ ∀ item ∈ items, again (step state item) = false := by
  induction items generalizing state with
  | nil => exact ⟨rfl, by simp⟩
  | cons item rest ih =>
      obtain ⟨eq, each⟩ := ih silent
      rw [List.foldl_cons, eq] at silent
      have same := quiet state item silent
      rw [same] at eq each
      refine ⟨by rw [List.foldl_cons, same, eq], ?_⟩
      rintro other (_ | ⟨_, inside⟩)
      · exact silent
      · exact each other inside

theorem countP_lt {α : Type*} {p q : α → Bool} {items : List α} (le : ∀ item, q item = true → p item = true)
    (less : ∃ item ∈ items, p item = true ∧ q item = false) : items.countP q < items.countP p := by
  induction items with
  | nil => simp at less
  | cons first rest ih =>
      have rest_le : rest.countP q ≤ rest.countP p := List.countP_mono_left fun item _ => le item
      obtain ⟨item, inside, holds, fails⟩ := less
      rcases List.mem_cons.mp inside with rfl | later
      · rw [List.countP_cons_of_pos holds, List.countP_cons_of_neg (by simp [fails])]
        omega
      · have step := ih ⟨item, later, holds, fails⟩
        rw [List.countP_cons, List.countP_cons]
        have head := le first
        split_ifs with now before
        · omega
        · exact absurd (head now) before
        · omega
        · omega

end ObjcDyld.Repeats

/-!
## Saturation

A pass is repeated until a count stops changing.  Passes that never lower a
bounded count, and change nothing when they leave it as it is, end in a fixed point.
-/

namespace ObjcDyld.Saturation

universe u

variable {α : Type u} {pass : α → α} {count : α → ℕ} {bound : ℕ}

/-- Repeat a pass until it leaves the count as it was, at most `fuel` times. -/
def untilStable (pass : α → α) (count : α → ℕ) : ℕ → α → α
  | 0, x => x
  | fuel + 1, x =>
      if count (pass x) = count x then pass x else untilStable pass count fuel (pass x)

theorem untilStable_induction {Inv : α → Prop} (step : ∀ x, Inv x → Inv (pass x)) (fuel : ℕ)
    {x : α} (init : Inv x) : Inv (untilStable pass count fuel x) := by
  induction fuel generalizing x with
  | zero => exact init
  | succ fuel ih =>
      rw [untilStable]
      split
      · exact step x init
      · exact ih (step x init)

theorem untilStable_fixed {Inv : α → Prop} (step : ∀ x, Inv x → Inv (pass x))
    (grows : ∀ x, Inv x → count x ≤ count (pass x))
    (settled : ∀ x, Inv x → count (pass x) = count x → pass x = x)
    (bounded : ∀ x, Inv x → count x ≤ bound) {fuel : ℕ} {x : α} (init : Inv x)
    (enough : bound < count x + fuel) :
    pass (untilStable pass count fuel x) = untilStable pass count fuel x := by
  induction fuel generalizing x with
  | zero => exact absurd (bounded x init) (by omega)
  | succ fuel ih =>
      rw [untilStable]
      by_cases stable : count (pass x) = count x
      · rw [if_pos stable, settled x init stable, settled x init stable]
      · rw [if_neg stable]
        have more := grows x init
        exact ih (step x init) (by omega)

end ObjcDyld.Saturation
