import Mathlib

/-!
# Properties of every prefix of a run

A run of a partial step function over a list of items has a property after each of its
prefixes exactly when each step meets the condition under which that step keeps the
property.
-/

namespace ObjcDyld.Prefixes

variable {σ α : Type*} {step : σ → α → Option σ} {start : σ} {Good Holds : List α → σ → Prop}
  {Safe : σ → α → Prop}

theorem foldlM_snoc (done : List α) (item : α) {state : σ} (run : done.foldlM step start = some state) :
    (done ++ [item]).foldlM step start = step state item := by
  rw [List.foldlM_append, run]
  change (step state item >>= pure) = step state item
  exact bind_pure _

theorem good_of_safe (init : Good [] start)
    (spec : ∀ done state item, Good done state → ∃ next, step state item = some next ∧
      (Safe state item → Good (done ++ [item]) next)) (items : List α)
    (safe : ∀ done item rest state, items = done ++ item :: rest → done.foldlM step start = some state →
      Safe state item) :
    ∃ state, items.foldlM step start = some state ∧ Good items state := by
  induction items using List.reverseRecOn with
  | nil => exact ⟨start, rfl, init⟩
  | append_singleton done item ih =>
      obtain ⟨state, run, good⟩ := ih fun before other rest state eq run =>
        safe before other (rest ++ [item]) state (by rw [eq]; simp) run
      obtain ⟨next, stepped, kept⟩ := spec done state item good
      exact ⟨next, by rw [foldlM_snoc done item run, stepped], kept (safe done item [] state rfl run)⟩

theorem holds_iff_safe (Good : List α → σ → Prop) (init : Good [] start)
    (spec : ∀ done state item, Good done state → ∃ next, step state item = some next ∧
      (Safe state item → Good (done ++ [item]) next) ∧ (Holds (done ++ [item]) next → Safe state item))
    (holds : ∀ done state, Good done state → Holds done state) (items : List α) :
    (∀ done rest, items = done ++ rest → ∃ state, done.foldlM step start = some state ∧ Holds done state) ↔
      ∀ done item rest state, items = done ++ item :: rest → done.foldlM step start = some state →
        Safe state item := by
  have progress := fun done state item good =>
    (spec done state item good).imp fun _ found => And.intro found.1 found.2.1
  constructor
  · intro every
    -- by induction on the steps before: they are safe, so the state before this one is good
    suffices ∀ n done item rest state, done.length = n → items = done ++ item :: rest →
        done.foldlM step start = some state → Safe state item from
      fun done item rest state => this done.length done item rest state rfl
    intro n
    induction n using Nat.strong_induction_on with
    | _ n ih =>
        intro done item rest state length eq run
        obtain ⟨state', run', good⟩ := good_of_safe init progress done
          fun before other after middle split ran =>
            ih before.length (by rw [← length, split]; simp) before other (after ++ item :: rest) middle rfl
              (by rw [eq, split]; simp) ran
        obtain rfl := Option.some.inj (run.symm.trans run')
        obtain ⟨next, stepped, -, safe⟩ := spec done state item good
        obtain ⟨after, ran, held⟩ := every (done ++ [item]) rest (by rw [eq]; simp)
        rw [foldlM_snoc done item run, stepped] at ran
        obtain rfl := Option.some.inj ran
        exact safe held
  · intro safe done rest eq
    obtain ⟨state, run, good⟩ := good_of_safe init progress done
      fun before other after middle split ran =>
        safe before other (after ++ rest) middle (by rw [eq, split]; simp) ran
    exact ⟨state, run, holds done state good⟩

variable {P : List α → α → Prop} {items : List α} {item : α}

/-- Every item has a property of the items before it. -/
def Each (P : List α → α → Prop) (items : List α) : Prop :=
  ∀ before item after, items = before ++ item :: after → P before item

theorem each_nil : Each P [] := fun before item after split => by simp at split

theorem concat_eq_append_cons {before after : List α} {other : α} (split : items ++ [item] = before ++ other :: after) :
    (before = items ∧ other = item ∧ after = []) ∨ ∃ rest, after = rest ++ [item] ∧ items = before ++ other :: rest := by
  obtain rfl | ⟨rest, final, rfl⟩ := List.eq_nil_or_concat after
  · obtain ⟨rfl, same⟩ := List.append_inj' split rfl
    exact .inl ⟨rfl, (List.singleton_inj.mp same).symm, rfl⟩
  · rw [List.concat_eq_append, ← List.cons_append, ← List.append_assoc] at split
    obtain ⟨same, final⟩ := List.append_inj' split rfl
    exact .inr ⟨rest, by rw [List.concat_eq_append, List.singleton_inj.mp final], same⟩

theorem each_concat_iff : Each P (items ++ [item]) ↔ Each P items ∧ P items item := by
  constructor
  · refine fun each => ⟨fun before other after split => each before other (after ++ [item]) ?_, each items item [] rfl⟩
    rw [split, List.append_assoc, List.cons_append]
  · rintro ⟨each, last⟩ before other after split
    obtain ⟨rfl, rfl, -⟩ | ⟨rest, -, split⟩ := concat_eq_append_cons split
    · exact last
    · exact each before other rest split

end ObjcDyld.Prefixes
