import ObjcDyld.Common.LinkedChains

/-!
# The tree of realized classes

A realized class stands in the list of the subclasses of its superclass, a root class in the list of root
classes.  The enumerators know only these links: they go down to a first subclass, on to the next sibling,
and back up along the superclasses to the class that they started from.
-/

namespace ObjcDyld.Classes

open LinkedChains
open Function (update update_apply update_self update_of_ne)

/-- `superclass` of a class, with `firstSubclass` and `nextSiblingClass` of its `class_rw_t`. -/
structure Links where
  superclass : Option ℕ
  firstSubclass : Option ℕ
  nextSiblingClass : Option ℕ
  isMetaClass : Bool
  deriving DecidableEq

structure Tree where
  cls : ℕ → Links
  /-- `_firstRealizedClass`. -/
  firstRealizedClass : Option ℕ
  /-- The classes that `isRealized`. -/
  realized : Finset ℕ

/-! ## Changes -/

/-- `addRootClass`. -/
def addRootClass (tree : Tree) (c : ℕ) : Tree :=
  { tree with
    cls := update tree.cls c { tree.cls c with nextSiblingClass := tree.firstRealizedClass }
    firstRealizedClass := some c }

/-- `addSubclass`. -/
def addSubclass (tree : Tree) (supercls subcls : ℕ) : Tree :=
  let cls := update tree.cls subcls { tree.cls subcls with nextSiblingClass := (tree.cls supercls).firstSubclass }
  { tree with cls := update cls supercls { cls supercls with firstSubclass := some subcls } }

/-- The end of `realizeClassWithoutSwift`: a class gets its superclass and is connected to it. -/
def realizeClass (tree : Tree) (c : ℕ) (supercls : Option ℕ) (isMetaClass : Bool) : Tree :=
  let tree := { tree with cls := update tree.cls c ⟨supercls, none, none, isMetaClass⟩, realized := insert c tree.realized }
  match supercls with
  | some supercls => addSubclass tree supercls c
  | none => addRootClass tree c

/-! ## Soundness -/

namespace Tree

def next (tree : Tree) (c : ℕ) : Option ℕ := (tree.cls c).nextSiblingClass

/-- The head of the list of the root classes, or of the subclasses of a class. -/
def first (tree : Tree) : Option ℕ → Option ℕ
  | none => tree.firstRealizedClass
  | some c => (tree.cls c).firstSubclass

/-- The lists hold the realized classes under their superclasses, and no class is its own superclass in the end. -/
structure Sound (tree : Tree) (children : Option ℕ → List ℕ) : Prop where
  linked : ∀ parent, Linked tree.next (tree.first parent) (children parent)
  mem : ∀ parent c, c ∈ children parent ↔ c ∈ tree.realized ∧ (tree.cls c).superclass = parent
  closed : ∀ c ∈ tree.realized, ∀ p, (tree.cls c).superclass = some p → p ∈ tree.realized
  acyclic : ∃ depth : ℕ → ℕ, ∀ c ∈ tree.realized, ∀ p, (tree.cls c).superclass = some p → depth p < depth c

end Tree

variable {tree : Tree} {children : Option ℕ → List ℕ} {c : ℕ} {supercls : Option ℕ}

theorem Tree.Sound.no_children (sound : tree.Sound children) (fresh : c ∉ tree.realized) : children (some c) = [] := by
  refine List.eq_nil_iff_forall_not_mem.mpr fun b member => ?_
  obtain ⟨realized, superclass⟩ := (sound.mem _ b).mp member
  exact fresh (sound.closed b realized c superclass)

theorem next_realizeClass (distinct : supercls ≠ some c) (isMetaClass : Bool) (b : ℕ) :
    (realizeClass tree c supercls isMetaClass).next b = if b = c then tree.first supercls else tree.next b := by
  cases supercls with
  | none =>
      by_cases here : b = c <;> simp [realizeClass, addRootClass, Tree.next, Tree.first, here]
  | some p =>
      have apart : p ≠ c := fun same => distinct (congrArg some same)
      by_cases here : b = c
      · simp [realizeClass, addSubclass, Tree.next, Tree.first, here, apart, apart.symm]
      · by_cases there : b = p <;> simp [realizeClass, addSubclass, Tree.next, here, there, apart]

theorem first_realizeClass (distinct : supercls ≠ some c) (isMetaClass : Bool) (parent : Option ℕ) :
    (realizeClass tree c supercls isMetaClass).first parent =
      if parent = supercls then some c else if parent = some c then none else tree.first parent := by
  cases supercls with
  | none =>
      cases parent with
      | none => simp [realizeClass, addRootClass, Tree.first]
      | some q => by_cases here : q = c <;> simp [realizeClass, addRootClass, Tree.first, here]
  | some p =>
      have apart : p ≠ c := fun same => distinct (congrArg some same)
      cases parent with
      | none => simp [realizeClass, addSubclass, Tree.first]
      | some q =>
          by_cases here : q = p
          · simp [realizeClass, addSubclass, Tree.first, here]
          · by_cases there : q = c <;> simp [realizeClass, addSubclass, Tree.first, here, there, apart, apart.symm]

theorem superclass_realizeClass (isMetaClass : Bool) (b : ℕ) :
    ((realizeClass tree c supercls isMetaClass).cls b).superclass = if b = c then supercls else (tree.cls b).superclass := by
  cases supercls with
  | none => by_cases here : b = c <;> simp [realizeClass, addRootClass, here]
  | some p =>
      by_cases here : b = c
      · by_cases own : c = p <;> simp [realizeClass, addSubclass, update_apply, here, own]
      · by_cases there : b = p
        · subst there
          simp [realizeClass, addSubclass, here]
        · simp [realizeClass, addSubclass, update_apply, here, there]

theorem realized_realizeClass (isMetaClass : Bool) : (realizeClass tree c supercls isMetaClass).realized = insert c tree.realized := by
  cases supercls <;> rfl

/-- A class comes to the front of its list. -/
theorem Tree.Sound.realizeClass (sound : tree.Sound children) (fresh : c ∉ tree.realized)
    (known : ∀ p, supercls = some p → p ∈ tree.realized) (isMetaClass : Bool) :
    (realizeClass tree c supercls isMetaClass).Sound (update children supercls (c :: children supercls)) := by
  have distinct : supercls ≠ some c := fun own => fresh (known c own)
  have other (parent b) (member : b ∈ children parent) : b ≠ c := by
    rintro rfl
    exact fresh ((sound.mem parent b).mp member).1
  have kept (parent) : Linked (Classes.realizeClass tree c supercls isMetaClass).next (tree.first parent) (children parent) :=
    (sound.linked parent).congr fun b member => by rw [next_realizeClass distinct, if_neg (other parent b member)]
  refine ⟨fun parent => ?_, fun parent b => ?_, fun b realized p superclass => ?_, ?_⟩
  · rw [first_realizeClass distinct, update_apply]
    split
    next here =>
      refine .cons ?_
      rw [next_realizeClass distinct, if_pos rfl]
      exact kept supercls
    next there =>
      split
      next own =>
        rw [own, sound.no_children fresh]
        exact .nil
      next => exact kept parent
  · rw [superclass_realizeClass, realized_realizeClass, Finset.mem_insert, update_apply]
    by_cases here : b = c
    · subst here
      by_cases same : parent = supercls
      · simp [same]
      · simp [same, Ne.symm same, sound.mem, fresh]
    · by_cases same : parent = supercls <;> simp [same, here, sound.mem]
  · rw [realized_realizeClass] at realized ⊢
    rw [superclass_realizeClass] at superclass
    split at superclass
    next => exact Finset.mem_insert_of_mem (known p superclass)
    next there =>
      have realized' := (Finset.mem_insert.mp realized).resolve_left there
      exact Finset.mem_insert_of_mem (sound.closed b realized' p superclass)
  · obtain ⟨depth, ascends⟩ := sound.acyclic
    refine ⟨update depth c ((supercls.map depth).getD 0 + 1), fun b realized p superclass => ?_⟩
    rw [realized_realizeClass] at realized
    rw [superclass_realizeClass] at superclass
    split at superclass
    next here =>
      have apart : p ≠ c := fun same => distinct (same ▸ superclass)
      rw [here, update_self, update_of_ne apart, superclass]
      exact Nat.lt_succ_self _
    next there =>
      have realized' := (Finset.mem_insert.mp realized).resolve_left there
      have apart : p ≠ c := fun same => fresh (same ▸ sound.closed b realized' p superclass)
      rw [update_of_ne there, update_of_ne apart]
      exact ascends b realized' p superclass

end ObjcDyld.Classes
