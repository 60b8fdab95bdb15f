import Mathlib

/-!
# Finishing orders of depth-first searches

A depth-first search over a relation `follow` opens a node, follows its edges and finishes it.
What the order of finishing says about the relation is an invariant of the opened nodes and of
the list of finished ones; opening and finishing a node preserve it.
-/

namespace ObjcDyld.PostOrder

variable {α : Type*} (follow : α → α → Prop)

abbrev Reaches : α → α → Prop := Relation.ReflTransGen follow

/-- The node lies on a cycle through another one. -/
def OnCycle (node : α) : Prop := ∃ other, other ≠ node ∧ Reaches follow node other ∧ Reaches follow other node

/-- The state of a search: the nodes on its stack and those it finished, in order. -/
structure Searching (opened : Set α) (finished : List α) : Prop where
  nodup : finished.Nodup
  closing : ∀ node ∈ finished, node ∉ opened
  closed : ∀ node ∈ finished, ∀ next, follow node next → next ∈ finished ∨ next ∈ opened
  direct : ∀ before node after, finished = before ++ node :: after → ∀ next, follow node next →
    next ∈ before ∨ Reaches follow next node
  below : ∀ before node after, finished = before ++ node :: after → ∀ target, Reaches follow node target →
    target ∈ before ∨ target = node ∨ OnCycle follow node

variable {follow} {opened : Set α} {finished : List α} {node : α}

namespace Searching

theorem start : Searching follow ∅ [] where
  nodup := List.nodup_nil
  closing := by simp
  closed := by simp
  direct := by simp
  below := by simp

theorem openNode (state : Searching follow opened finished) (fresh : node ∉ finished) :
    Searching follow (insert node opened) finished where
  nodup := state.nodup
  closing done inside := by
    rintro (rfl | stacked)
    · exact fresh inside
    · exact state.closing done inside stacked
  closed done inside next edge := (state.closed done inside next edge).imp_right (Set.mem_insert_of_mem node)
  direct := state.direct
  below := state.below

theorem reaches_finished (state : Searching follow ∅ finished) (inside : node ∈ finished) {target : α}
    (path : Reaches follow node target) : target ∈ finished := by
  induction path with
  | refl => exact inside
  | tail before edge ih => exact (state.closed _ ih _ edge).resolve_right (Set.notMem_empty _)

/-- The last place of a list one longer is either the new one or a place of the old list. -/
private theorem snoc_eq_split {items before after : List α} {last item : α}
    (eq : items ++ [last] = before ++ item :: after) :
    (before = items ∧ item = last) ∨ ∃ rest, items = before ++ item :: rest := by
  rcases List.eq_nil_or_concat after with rfl | ⟨rest, final, rfl⟩
  · obtain ⟨rfl, same⟩ := List.append_inj' eq rfl
    exact Or.inl ⟨rfl, (List.cons.inj same).1.symm⟩
  · rw [List.concat_eq_append, ← List.cons_append, ← List.append_assoc] at eq
    exact Or.inr ⟨rest, (List.append_inj' eq rfl).1⟩

theorem finish (state : Searching follow (insert node opened) finished) (fresh : node ∉ opened)
    (nexts : ∀ next, follow node next → next ∈ finished ∨ next ∈ insert node opened)
    (stack : ∀ stacked ∈ opened, Reaches follow stacked node) :
    Searching follow opened (finished ++ [node]) := by
  have absent : node ∉ finished := fun inside => state.closing node inside (Set.mem_insert node opened)
  -- an edge to the node that was on top of the stack now leads to a finished one
  have settle : ∀ next, next ∈ finished ∨ next ∈ insert node opened →
      next ∈ finished ++ [node] ∨ next ∈ opened := by
    rintro next (done | rfl | stacked)
    · exact Or.inl (List.mem_append_left _ done)
    · exact Or.inl (by simp)
    · exact Or.inr stacked
  have closed : ∀ done ∈ finished ++ [node], ∀ next, follow done next →
      next ∈ finished ++ [node] ∨ next ∈ opened := by
    intro done inside next edge
    rcases List.mem_append.mp inside with earlier | last
    · exact settle next (state.closed done earlier next edge)
    · exact settle next (nexts next (List.mem_singleton.mp last ▸ edge))
  have closing : ∀ done ∈ finished ++ [node], done ∉ opened := by
    intro done inside stacked
    rcases List.mem_append.mp inside with earlier | last
    · exact state.closing done earlier (Set.mem_insert_of_mem node stacked)
    · exact fresh (List.mem_singleton.mp last ▸ stacked)
  -- whatever leaves the finished nodes passes the stack, which leads back to this node
  have escape : ∀ target, Reaches follow node target → target ∈ finished ++ [node] ∨ OnCycle follow node := by
    intro target path
    induction path with
    | refl => exact Or.inl (by simp)
    | tail before edge ih =>
        rcases ih with done | cycle
        · rcases closed _ done _ edge with next | stacked
          · exact Or.inl next
          · exact Or.inr ⟨_, fun eq => fresh (eq ▸ stacked), before.tail edge, stack _ stacked⟩
        · exact Or.inr cycle
  constructor
  · exact List.nodup_append.mpr ⟨state.nodup, List.nodup_singleton _, by
      rintro done inside _ (_ | ⟨_, ⟨⟩⟩) rfl
      exact absent inside⟩
  · exact closing
  · exact closed
  · intro before item after eq next edge
    rcases snoc_eq_split eq with ⟨rfl, rfl⟩ | ⟨rest, eq⟩
    · rcases nexts next edge with done | rfl | stacked
      · exact Or.inl done
      · exact Or.inr Relation.ReflTransGen.refl
      · exact Or.inr (stack next stacked)
    · exact state.direct before item rest eq next edge
  · intro before item after eq target path
    rcases snoc_eq_split eq with ⟨rfl, rfl⟩ | ⟨rest, eq⟩
    · rcases escape target path with inside | cycle
      · exact (List.mem_append.mp inside).imp_right fun last => Or.inl (List.mem_singleton.mp last)
      · exact Or.inr (Or.inr cycle)
    · exact state.below before item rest eq target path

end Searching

end ObjcDyld.PostOrder
