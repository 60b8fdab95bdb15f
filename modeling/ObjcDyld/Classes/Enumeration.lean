import ObjcDyld.Classes.Tree

/-!
# The enumeration of realized classes

The enumerators of a sound tree call their code on a class before its subclasses, and on each class once; the
count that guards them against a corrupted list is not used up by a list that is sound.
-/

namespace ObjcDyld.Classes

open LinkedChains

/-! ## The enumerators -/

/-- The enumeration comes to a class, or has passed it and its subclasses. -/
inductive Position where
  | enter (c : ℕ)
  | leave (c : ℕ)

def Position.weight : Position → ℕ
  | .enter _ => 0
  | .leave _ => 1

variable {σ : Type*}

/-- What the code, called on a class, answers and leaves; subclasses are skipped when it answers `false`. -/
abbrev Code (σ : Type*) := ℕ → σ → Bool × σ

/-- The code, not called on metaclasses with `skip_metaclass`. -/
def Tree.call (tree : Tree) (skipMetaclass : Bool) (code : Code σ) : Code σ := fun c s =>
  if skipMetaclass ∧ (tree.cls c).isMetaClass then (false, s) else code c s

/--
The loop of `foreach_realized_class_and_subclass_2`, with the count that is left; there is no result where it
ends in `_objc_fatal`.
-/
def foreachFrom (tree : Tree) (top : ℕ) (code : Code σ) (count : ℕ) (position : Position) (s : σ) : Option (ℕ × σ) :=
  match position with
  | .enter c =>
      if count ≤ 1 then none
      else
        let (deeper, s) := code c s
        match deeper, (tree.cls c).firstSubclass with
        | true, some sub => foreachFrom tree top code (count - 1) (.enter sub) s
        | _, _ => foreachFrom tree top code (count - 1) (.leave c) s
  | .leave c =>
      if c = top then some (count, s)
      else
        match (tree.cls c).nextSiblingClass, (tree.cls c).superclass with
        | some sibling, _ => foreachFrom tree top code count (.enter sibling) s
        | none, some supercls => if count ≤ 1 then none else foreachFrom tree top code (count - 1) (.leave supercls) s
        | none, none => none
termination_by (count, position.weight)
decreasing_by
  all_goals simp only [Prod.lex_def, Position.weight, true_and]
  all_goals omega

/-- `foreach_realized_class_and_subclass_2`. -/
def foreachRealizedClassAndSubclass2 (tree : Tree) (top count : ℕ) (skipMetaclass : Bool) (code : Code σ) (s : σ) : Option (ℕ × σ) :=
  foreachFrom tree top (tree.call skipMetaclass code) count (.enter top) s

/-- `foreach_realized_class_and_subclass`. -/
def foreachRealizedClassAndSubclass (tree : Tree) (top unreasonableClassCount : ℕ) (code : Code σ) (s : σ) : Option σ :=
  (foreachRealizedClassAndSubclass2 tree top unreasonableClassCount false code s).map Prod.snd

/-! ## Subtrees -/

variable {tree : Tree} {children : Option ℕ → List ℕ} {code : Code σ} {depth : ℕ → ℕ} {bound height top c d p : ℕ}

/-- A class and the classes under it, each one before its own subclasses. -/
def subtree (children : Option ℕ → List ℕ) : ℕ → ℕ → List ℕ
  | 0, _ => []
  | height + 1, c => c :: (children (some c)).flatMap (subtree children height)

/-- The code on a class and, where it answers so, on the classes under it. -/
def forSubtree (children : Option ℕ → List ℕ) (code : Code σ) : ℕ → σ → ℕ → σ
  | 0, s, _ => s
  | height + 1, s, c =>
      let (deeper, s) := code c s
      if deeper then (children (some c)).foldl (forSubtree children code height) s else s

/-- Subclasses are deeper than their superclasses, up to a bound. -/
structure Tree.Ranked (tree : Tree) (depth : ℕ → ℕ) (bound : ℕ) : Prop where
  ascends : ∀ c ∈ tree.realized, ∀ p, (tree.cls c).superclass = some p → depth p < depth c
  bounded : ∀ c ∈ tree.realized, depth c ≤ bound

theorem Tree.Sound.ranked (sound : tree.Sound children) : ∃ depth bound, tree.Ranked depth bound := by
  obtain ⟨depth, ascends⟩ := sound.acyclic
  exact ⟨depth, tree.realized.sup depth, ascends, fun c member => Finset.le_sup member⟩

/-- A class is another one or, in one step or more, a subclass of it. -/
def Tree.Inherits (tree : Tree) (c ancestor : ℕ) : Prop :=
  Relation.ReflTransGen (fun c p => (tree.cls c).superclass = some p) c ancestor

theorem Tree.Sound.inherits_realized (sound : tree.Sound children) (inherits : tree.Inherits c d) (realized : c ∈ tree.realized) :
    d ∈ tree.realized := by
  induction inherits with
  | refl => exact realized
  | tail _ up ih => exact sound.closed _ ih _ up

theorem Tree.Ranked.inherits_le (ranked : tree.Ranked depth bound) (sound : tree.Sound children) (inherits : tree.Inherits c d)
    (realized : c ∈ tree.realized) : depth d ≤ depth c := by
  induction inherits with
  | refl => exact Nat.le_refl _
  | tail earlier up ih => exact (ranked.ascends _ (sound.inherits_realized earlier realized) _ up).le.trans ih

/-- Classes with one superclass do not inherit from each other. -/
theorem Tree.Ranked.siblings (ranked : tree.Ranked depth bound) (sound : tree.Sound children) (realized : c ∈ tree.realized)
    (realized' : d ∈ tree.realized) (same : (tree.cls c).superclass = (tree.cls d).superclass) (inherits : tree.Inherits c d) : c = d := by
  rcases Relation.ReflTransGen.cases_head inherits with here | ⟨p, up, above⟩
  · exact here
  · have below := ranked.ascends d realized' p (same ▸ up)
    have le := ranked.inherits_le sound above (sound.closed c realized p up)
    omega

theorem mem_subtree (ranked : tree.Ranked depth bound) (sound : tree.Sound children) (realized : c ∈ tree.realized)
    (enough : bound < depth c + height) : d ∈ subtree children height c ↔ d ∈ tree.realized ∧ tree.Inherits d c := by
  constructor
  · intro member
    induction height generalizing c with
    | zero => cases member
    | succ height ih =>
        rcases List.mem_cons.mp member with rfl | member
        · exact ⟨realized, .refl⟩
        · obtain ⟨b, child, member⟩ := List.mem_flatMap.mp member
          obtain ⟨realized', up⟩ := (sound.mem _ b).mp child
          have deeper := ranked.ascends b realized' c up
          obtain ⟨found, inherits⟩ := ih realized' (by omega) member
          exact ⟨found, inherits.tail up⟩
  · rintro ⟨found, inherits⟩
    induction inherits generalizing height with
    | refl =>
        have := ranked.bounded d found
        cases height with
        | zero => omega
        | succ height => exact List.mem_cons_self
    | @tail b c earlier up ih =>
        have realized' := sound.inherits_realized earlier found
        have deeper := ranked.ascends b realized' c up
        have := ranked.bounded c realized
        cases height with
        | zero => omega
        | succ height =>
            refine List.mem_cons_of_mem _ (List.mem_flatMap.mpr ⟨b, (sound.mem _ b).mpr ⟨realized', up⟩, ih realized' ?_⟩)
            omega

/-- What stands under the classes of one list: no class comes before a class that it inherits from. -/
theorem pairwise_flatMap_subtree (ranked : tree.Ranked depth bound) (sound : tree.Sound children) (parent : Option ℕ)
    (enough : ∀ b ∈ children parent, bound < depth b + height) :
    ((children parent).flatMap (subtree children height)).Pairwise fun earlier later => ¬ tree.Inherits earlier later := by
  induction height generalizing parent with
  | zero => simp [subtree, List.flatMap_eq_nil_iff.mpr fun _ _ => rfl]
  | succ height ih =>
      refine List.pairwise_flatMap.mpr ⟨fun b child => ?_, ?_⟩
      · obtain ⟨realized, -⟩ := (sound.mem _ b).mp child
        have deep (d : ℕ) (grandchild : d ∈ children (some b)) : depth b < depth d :=
          ranked.ascends d ((sound.mem _ d).mp grandchild).1 b ((sound.mem _ d).mp grandchild).2
        refine List.pairwise_cons.mpr ⟨fun d member inherits => ?_, ih (some b) fun d grandchild => ?_⟩
        · obtain ⟨e, grandchild, member⟩ := List.mem_flatMap.mp member
          have realized' := ((sound.mem _ e).mp grandchild).1
          have here := enough b child
          have deeper := deep e grandchild
          obtain ⟨found, below⟩ := (mem_subtree ranked sound realized' (by omega)).mp member
          have le := ranked.inherits_le sound inherits realized
          have le' := ranked.inherits_le sound below found
          omega
        · have here := enough b child
          have deeper := deep d grandchild
          omega
      · refine (sound.linked parent).nodup.imp_of_mem fun {a b} child child' apart x member y member' inherits => apart ?_
        obtain ⟨realized, up⟩ := (sound.mem _ a).mp child
        obtain ⟨realized', up'⟩ := (sound.mem _ b).mp child'
        have under := ((mem_subtree ranked sound realized (enough a child)).mp member).2
        have under' := ((mem_subtree ranked sound realized' (enough b child')).mp member').2
        have unique : Relator.RightUnique fun c p => (tree.cls c).superclass = some p :=
          fun c p q left right => Option.some.inj (left.symm.trans right)
        rcases Relation.ReflTransGen.total_of_right_unique unique under (inherits.trans under') with there | there
        · exact ranked.siblings sound realized realized' (up.trans up'.symm) there
        · exact (ranked.siblings sound realized' realized (up'.trans up.symm) there).symm

/-! ## Passing a subtree -/

/-- Coming to a class, the enumeration goes on from behind its subtree; it takes at most two of the count for each class there. -/
def Passes (tree : Tree) (children : Option ℕ → List ℕ) (top : ℕ) (code : Code σ) (height c : ℕ) : Prop :=
  ∀ count s, 2 * (subtree children height c).length < count → ∃ left, count ≤ left + 2 * (subtree children height c).length ∧
    foreachFrom tree top code count (.enter c) s = foreachFrom tree top code left (.leave c) (forSubtree children code height s c)

/-- From a list of subclasses, the enumeration goes on from behind their superclass. -/
theorem siblings_pass {b : ℕ} {rest : List ℕ} (linked : Linked tree.next (some b) (b :: rest))
    (each : ∀ d ∈ b :: rest, d ≠ top ∧ (tree.cls d).superclass = some p ∧ Passes tree children top code height d) (count : ℕ) (s : σ)
    (enough : 2 * ((b :: rest).flatMap (subtree children height)).length + 1 < count) :
    ∃ left, count ≤ left + 2 * ((b :: rest).flatMap (subtree children height)).length + 1 ∧
      foreachFrom tree top code count (.enter b) s =
        foreachFrom tree top code left (.leave p) ((b :: rest).foldl (forSubtree children code height) s) := by
  induction rest generalizing b count s with
  | nil =>
      obtain ⟨apart, up, pass⟩ := each b List.mem_cons_self
      simp only [List.flatMap_cons, List.flatMap_nil, List.append_nil] at enough ⊢
      obtain ⟨left, le, run⟩ := pass count s (by omega)
      have last : (tree.cls b).nextSiblingClass = none := by
        have tail := linked.tail.2
        rw [Tree.next] at tail
        generalize (tree.cls b).nextSiblingClass = next at tail
        cases tail
        rfl
      refine ⟨left - 1, by omega, ?_⟩
      rw [run, foreachFrom, if_neg apart, last, up]
      exact if_neg (by omega)
  | cons b' rest ih =>
      obtain ⟨apart, up, pass⟩ := each b List.mem_cons_self
      rw [List.flatMap_cons, List.length_append] at enough ⊢
      obtain ⟨left, le, run⟩ := pass count s (by omega)
      have tail := linked.tail.2
      have next : (tree.cls b).nextSiblingClass = some b' := by
        rw [Tree.next] at tail
        generalize (tree.cls b).nextSiblingClass = next at tail
        cases tail
        rfl
      rw [Tree.next, next] at tail
      obtain ⟨left', le', run'⟩ := ih tail (fun d member => each d (List.mem_cons_of_mem _ member)) left
        (forSubtree children code height s b) (by omega)
      refine ⟨left', by omega, ?_⟩
      rw [run, foreachFrom, if_neg apart, next]
      exact run'

theorem passes (ranked : tree.Ranked depth bound) (sound : tree.Sound children) (realized : c ∈ tree.realized)
    (enough : bound < depth c + height) (under : depth top ≤ depth c) : Passes tree children top code height c := by
  induction height generalizing c with
  | zero =>
      have := ranked.bounded c realized
      omega
  | succ height ih =>
      intro count s room
      rw [subtree, List.length_cons] at room ⊢
      have more : ¬ count ≤ 1 := by omega
      have linked := sound.linked (some c)
      rw [foreachFrom, if_neg more, forSubtree]
      cases code c s with
      | mk deeper s =>
          cases deeper with
          | false => exact ⟨count - 1, by omega, rfl⟩
          | true =>
              have each (d : ℕ) (child : d ∈ children (some c)) :
                  d ≠ top ∧ (tree.cls d).superclass = some c ∧ Passes tree children top code height d := by
                obtain ⟨realized', up⟩ := (sound.mem _ d).mp child
                have deeper := ranked.ascends d realized' c up
                refine ⟨?_, up, ih realized' (by omega) (by omega)⟩
                rintro rfl
                omega
              rw [Tree.first] at linked
              dsimp only
              generalize (tree.cls c).firstSubclass = first at linked
              generalize children (some c) = list at linked each room ⊢
              cases linked with
              | nil => exact ⟨count - 1, by omega, rfl⟩
              | cons tail =>
                  obtain ⟨left, le, run⟩ := siblings_pass (.cons tail) each (count - 1) s (by omega)
                  exact ⟨left, by omega, run⟩

theorem forSubtree_visit (visit : ℕ → σ → σ) (s : σ) :
    forSubtree children (fun c s => (true, visit c s)) height s c = (subtree children height c).foldl (fun s c => visit c s) s := by
  induction height generalizing s c with
  | zero => rfl
  | succ height ih =>
      have same : (forSubtree children (fun c s => (true, visit c s)) height : σ → ℕ → σ) =
          fun s d => (subtree children height d).foldl (fun s c => visit c s) s := funext₂ fun s d => ih s
      rw [forSubtree, subtree, List.foldl_cons, List.foldl_flatMap, ← same]
      exact if_pos rfl

/-- Every class of a list is realized, so a list without repetitions is not longer than there are classes. -/
theorem length_le_card {list : List ℕ} (ordered : list.Pairwise fun earlier later => ¬ tree.Inherits earlier later)
    (inside : ∀ d ∈ list, d ∈ tree.realized) : list.length ≤ tree.realized.card := by
  have nodup : list.Nodup := ordered.imp fun {a b} apart (same : a = b) => apart (same ▸ .refl)
  rw [← List.toFinset_card_of_nodup nodup]
  exact Finset.card_le_card fun d member => inside d (List.mem_toFinset.mp member)

/-! ## What is visited -/

theorem Tree.call_all (tree : Tree) (code : Code σ) : tree.call false code = code := by
  funext c s
  simp [Tree.call]

/-- A class and its subclasses are visited once each, a class before its subclasses. -/
theorem Tree.Sound.foreach_subclass (sound : tree.Sound children) (realized : top ∈ tree.realized) {count : ℕ}
    (enough : 2 * tree.realized.card < count) :
    ∃ visited : List ℕ, (visited.Pairwise fun earlier later => ¬ tree.Inherits earlier later) ∧
      (∀ c, c ∈ visited ↔ c ∈ tree.realized ∧ tree.Inherits c top) ∧ ∀ (σ : Type) (visit : ℕ → σ → σ) (s : σ),
        foreachRealizedClassAndSubclass tree top count (fun c s => (true, visit c s)) s = some (visited.foldl (fun s c => visit c s) s) := by
  obtain ⟨depth, bound, ranked⟩ := sound.ranked
  have high (c : ℕ) : bound < depth c + (bound + 1) := by omega
  have ordered := (List.pairwise_flatMap.mp (pairwise_flatMap_subtree ranked sound (tree.cls top).superclass fun b _ => high b)).1
    top ((sound.mem _ top).mpr ⟨realized, rfl⟩)
  have member (c : ℕ) := mem_subtree (d := c) ranked sound realized (high top)
  have few := length_le_card ordered fun d inside => ((member d).mp inside).1
  refine ⟨_, ordered, member, fun σ visit s => ?_⟩
  have pass : Passes tree children top (fun c s => (true, visit c s)) (bound + 1) top :=
    passes ranked sound realized (high top) (Nat.le_refl _)
  obtain ⟨left, -, run⟩ := pass count s (by omega)
  rw [foreachRealizedClassAndSubclass, foreachRealizedClassAndSubclass2, tree.call_all, run, foreachFrom, if_pos rfl, forSubtree_visit]
  rfl

end ObjcDyld.Classes
