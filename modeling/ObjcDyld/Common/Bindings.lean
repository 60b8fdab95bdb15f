import Mathlib

/-!
# Tables that are filled one item at a time

What a table has for a key after items were bound to it in their order, either only where the key was free
or over what was there. A value may be void: it does not replace another one.
-/

namespace ObjcDyld.Bindings

variable {α κ ν : Type*}

/-- The items whose keys were bound before all of them. -/
def taken (key : α → κ) (table : κ → Option ν) (items : List α) : List κ := (items.filter fun item => (table (key item)).isSome).map key

theorem taken_cons {key : α → κ} {table : κ → Option ν} {items : List α} {item : α} :
    taken key table (item :: items) = (if (table (key item)).isSome then [key item] else []) ++ taken key table items := by
  rw [taken, List.filter_cons]
  split <;> rfl

variable [DecidableEq κ] (key : α → κ) (value : α → ν) (void : ν → Bool)

/-- Bind an item where its key is free. -/
def bindNew (table : κ → Option ν) (item : α) : κ → Option ν :=
  if (table (key item)).isSome then table else Function.update table (key item) (some (value item))

/-- Bind an item, over what is there. -/
def rebind (table : κ → Option ν) (item : α) : κ → Option ν :=
  if (table (key item)).isSome ∧ void (value item) then table else Function.update table (key item) (some (value item))

/-- A new value over one that is there, or not. -/
def revise (current : Option ν) (item : α) : Option ν := if current.isSome ∧ void (value item) then current else some (value item)

def under (items : List α) (sought : κ) : List α := items.filter fun item => key item = sought

/-- The keys that were bound when their items came, to a value that is not void. -/
def refused : (κ → Option ν) → List α → List κ
  | _, [] => []
  | table, item :: items =>
      (if (table (key item)).any fun current => !void current then [key item] else []) ++ refused (bindNew key value table item) items

variable {key value void} {table table' : κ → Option ν} {items : List α} {item : α} {sought : κ}

theorem bindNew_same : bindNew key value table item (key item) = some ((table (key item)).getD (value item)) := by
  rw [bindNew]
  split
  next bound =>
    obtain ⟨current, eq⟩ := Option.isSome_iff_exists.mp bound
    rw [eq, Option.getD_some]
  next free =>
    rw [Function.update_self, Option.not_isSome_iff_eq_none.mp free, Option.getD_none]

theorem bindNew_other (other : key item ≠ sought) : bindNew key value table item sought = table sought := by
  rw [bindNew]
  split
  next => rfl
  next => exact Function.update_of_ne (Ne.symm other) ..

theorem rebind_same : rebind key value void table item (key item) = revise value void (table (key item)) item := by
  rw [rebind, revise]
  split
  next => rfl
  next => exact Function.update_self ..

theorem rebind_other (other : key item ≠ sought) : rebind key value void table item sought = table sought := by
  rw [rebind]
  split
  next => rfl
  next => exact Function.update_of_ne (Ne.symm other) ..

theorem under_cons_same (same : key item = sought) : under key (item :: items) sought = item :: under key items sought :=
  List.filter_cons_of_pos (decide_eq_true same)

theorem under_cons_other (other : key item ≠ sought) : under key (item :: items) sought = under key items sought :=
  List.filter_cons_of_neg (by simpa using other)

theorem foldl_bindNew (items : List α) (table : κ → Option ν) (sought : κ) :
    items.foldl (bindNew key value) table sought = (table sought).or ((under key items sought).head?.map value) := by
  induction items generalizing table with
  | nil => exact (Option.or_none ..).symm
  | cons item items ih =>
      rw [List.foldl_cons, ih]
      by_cases same : key item = sought
      · subst same
        rw [bindNew_same, under_cons_same rfl]
        cases table (key item) <;> rfl
      · rw [bindNew_other same, under_cons_other same]

theorem foldl_rebind (items : List α) (table : κ → Option ν) (sought : κ) :
    items.foldl (rebind key value void) table sought = (under key items sought).foldl (revise value void) (table sought) := by
  induction items generalizing table with
  | nil => rfl
  | cons item items ih =>
      rw [List.foldl_cons, ih]
      by_cases same : key item = sought
      · subst same
        rw [rebind_same, under_cons_same rfl, List.foldl_cons]
      · rw [rebind_other same, under_cons_other same]

/-- Bind an item over what is there, where something is there. -/
def rebindOld (key : α → κ) (value : α → ν) (void : ν → Bool) (table : κ → Option ν) (item : α) : κ → Option ν :=
  if (table (key item)).isSome then rebind key value void table item else table

theorem isSome_revise (current : Option ν) (item : α) (bound : current.isSome) : (revise value void current item).isSome := by
  rw [revise]
  split
  next => exact bound
  next => rfl

theorem foldl_rebindOld (items : List α) (table : κ → Option ν) (sought : κ) :
    items.foldl (rebindOld key value void) table sought = if (table sought).isSome then items.foldl (rebind key value void) table sought else none := by
  simp only [foldl_rebind]
  induction items generalizing table with
  | nil =>
      show table sought = if (table sought).isSome then table sought else none
      cases table sought <;> rfl
  | cons item items ih =>
      rw [List.foldl_cons, ih, rebindOld]
      by_cases same : key item = sought
      · subst same
        rw [under_cons_same rfl, List.foldl_cons]
        by_cases bound : (table (key item)).isSome
        · rw [if_pos bound, if_pos bound, rebind_same, if_pos (isSome_revise _ _ bound)]
        · rw [if_neg bound, if_neg bound, if_neg bound]
      · rw [under_cons_other same]
        split
        next => rw [rebind_other same]
        next => rfl

/-- The last value of some items that is not void. -/
def lastValue (value : α → ν) (void : ν → Bool) (items : List α) : Option ν := ((items.filter fun item => !void (value item)).getLast?).map value

theorem foldl_revise_some (items : List α) (current : ν) :
    items.foldl (revise value void) (some current) = some ((lastValue value void items).getD current) := by
  induction items generalizing current with
  | nil => rfl
  | cons item items ih =>
      rw [List.foldl_cons, revise, Option.isSome_some]
      cases skipped : void (value item) with
      | true =>
          have same : lastValue value void (item :: items) = lastValue value void items := by
            rw [lastValue, List.filter_cons_of_neg (by simp [skipped]), lastValue]
          rw [if_pos ⟨rfl, rfl⟩, ih, same]
      | false =>
          have last : lastValue value void (item :: items) = some ((lastValue value void items).getD (value item)) := by
            rw [lastValue, List.filter_cons_of_pos (by simp [skipped]), List.getLast?_cons, Option.map_some, lastValue, Option.getD_map]
          rw [if_neg (by simp), ih, last, Option.getD_some]

/-- The first value of each free key is the one that rebinding ends with. -/
def Settled (key : α → κ) (value : α → ν) (void : ν → Bool) (table : κ → Option ν) (items : List α) : Prop :=
  ∀ sought, table sought = none → ∀ first rest, under key items sought = first :: rest →
    (lastValue value void rest).getD (value first) = value first

theorem foldl_rebind_eq_iff (items : List α) (table : κ → Option ν) :
    (∀ sought, (if (table sought).isSome then items.foldl (rebind key value void) table sought else (under key items sought).head?.map value) =
      items.foldl (rebind key value void) table sought) ↔ Settled key value void table items := by
  have free (sought : κ) (unbound : table sought = none) (first : α) (rest : List α) (eq : under key items sought = first :: rest) :
      items.foldl (rebind key value void) table sought = some ((lastValue value void rest).getD (value first)) := by
    rw [foldl_rebind, unbound, eq, List.foldl_cons, ← foldl_revise_some]
    rfl
  constructor
  · intro same sought unbound first rest eq
    have both := same sought
    rw [unbound, free sought unbound first rest eq, eq] at both
    exact (Option.some.inj both).symm
  · intro settled sought
    cases eq : table sought with
    | some current => rfl
    | none =>
        rw [Option.isSome_none, if_neg Bool.false_ne_true]
        cases list : under key items sought with
        | nil => rw [foldl_rebind, eq, list]; rfl
        | cons first rest =>
            rw [free sought eq first rest list, settled sought eq first rest list]
            rfl

/-- How often a key is refused, by its items. -/
def refusals (value : α → ν) (void : ν → Bool) : Option ν → List α → ℕ
  | _, [] => 0
  | current, item :: items => (if current.any fun current => !void current then 1 else 0) + refusals value void (some (current.getD (value item))) items

theorem refusals_some (current : ν) (items : List α) :
    refusals value void (some current) items = if void current then 0 else items.length := by
  induction items with
  | nil => rw [refusals, List.length_nil, ite_self]
  | cons item items ih =>
      rw [refusals, Option.getD_some, ih, Option.any_some]
      cases void current
      · rw [Bool.not_false, if_pos rfl, if_neg Bool.false_ne_true, if_neg Bool.false_ne_true, List.length_cons, Nat.add_comm]
      · rfl

theorem count_refused (items : List α) (table : κ → Option ν) (sought : κ) :
    (refused key value void table items).count sought = refusals value void (table sought) (under key items sought) := by
  induction items generalizing table with
  | nil => rfl
  | cons item items ih =>
      rw [refused, List.count_append, ih]
      by_cases same : key item = sought
      · subst same
        rw [under_cons_same rfl, refusals, bindNew_same]
        congr 1
        split
        next => exact List.count_singleton_self
        next => rfl
      · rw [under_cons_other same, bindNew_other same]
        refine Nat.add_eq_right.mpr (List.count_eq_zero.mpr fun member => ?_)
        split at member
        next => exact same (List.mem_singleton.mp member).symm
        next => exact absurd member List.not_mem_nil

theorem count_taken (items : List α) (table : κ → Option ν) (sought : κ) :
    (taken key table items).count sought = if (table sought).isSome then (under key items sought).length else 0 := by
  induction items with
  | nil => exact (ite_self _).symm
  | cons item items ih =>
      by_cases same : key item = sought
      · subst same
        rw [under_cons_same rfl, List.length_cons]
        rw [taken_cons, List.count_append, ih]
        split
        next => rw [List.count_singleton_self, Nat.add_comm]
        next => rfl
      · rw [under_cons_other same, ← ih, taken_cons, List.count_append]
        refine Nat.add_eq_right.mpr (List.count_eq_zero.mpr fun member => ?_)
        split at member
        next => exact same (List.mem_singleton.mp member).symm
        next => exact absurd member List.not_mem_nil

/-- No void value is kept from before, and a key that was free is not bound again after a value that is not void. -/
structure Agreeing (key : α → κ) (value : α → ν) (void : ν → Bool) (table : κ → Option ν) (items : List α) : Prop where
  bound : ∀ item ∈ items, ∀ current, table (key item) = some current → void current = false
  free : ∀ sought, table sought = none → ∀ first rest, under key items sought = first :: rest → void (value first) ∨ rest = []

theorem refused_eq_of_agreeing (items : List α) (table table' : κ → Option ν)
    (bound : ∀ item ∈ items, ∀ current, table (key item) = some current → void current = false ∧ table' (key item) = some current)
    (free : ∀ sought, table sought = none → (∃ current, table' sought = some current ∧ void current) ∨ under key items sought = [] ∨
      table' sought = none ∧ ∀ first rest, under key items sought = first :: rest → void (value first) ∨ rest = []) :
    refused key value void table' items = taken key table items := by
  induction items generalizing table' with
  | nil => rfl
  | cons item items ih =>
      have rest : refused key value void (bindNew key value table' item) items = taken key table items := by
        refine ih _ (fun other member current eq => ?_) fun sought unbound => ?_
        · obtain ⟨kept, eq'⟩ := bound other (List.mem_cons_of_mem _ member) current eq
          refine ⟨kept, ?_⟩
          by_cases same : key item = key other
          · rw [← same, bindNew_same, same, eq', Option.getD_some]
          · rw [bindNew_other same, eq']
        · by_cases same : key item = sought
          · subst same
            rw [bindNew_same]
            obtain ⟨current, eq, skipped⟩ | none | ⟨eq, first⟩ := free (key item) unbound
            · exact .inl ⟨current, by rw [eq, Option.getD_some], skipped⟩
            · rw [under_cons_same rfl] at none
              exact absurd none (List.cons_ne_nil _ _)
            · rw [eq, Option.getD_none]
              exact (first item _ (under_cons_same rfl)).imp (fun skipped => ⟨value item, rfl, skipped⟩) .inl
          · have others := free sought unbound
            rw [under_cons_other same] at others
            rwa [bindNew_other same]
      rw [refused, rest, taken_cons]
      cases eq : table (key item) with
      | some current =>
          obtain ⟨kept, eq'⟩ := bound item List.mem_cons_self current eq
          rw [eq', Option.any_some, kept]
          rfl
      | none =>
          have silent : (table' (key item)).any (fun current => !void current) = false := by
            obtain ⟨current, eq', skipped⟩ | none | ⟨eq', -⟩ := free (key item) eq
            · rw [eq', Option.any_some, skipped, Bool.not_true]
            · rw [under_cons_same rfl] at none
              exact absurd none (List.cons_ne_nil _ _)
            · rw [eq', Option.any_none]
          rw [silent]
          rfl

theorem refused_eq_taken_iff (items : List α) (table : κ → Option ν) :
    refused key value void table items = taken key table items ↔ Agreeing key value void table items := by
  constructor
  · intro same
    have counts (sought : κ) : refusals value void (table sought) (under key items sought) =
        if (table sought).isSome then (under key items sought).length else 0 := by
      rw [← count_refused, same, count_taken]
    constructor
    · intro item member current eq
      have count := counts (key item)
      rw [eq, refusals_some, Option.isSome_some, if_pos rfl] at count
      have inside : item ∈ under key items (key item) := List.mem_filter.mpr ⟨member, decide_eq_true rfl⟩
      by_contra skipped
      rw [Bool.not_eq_false] at skipped
      rw [if_pos skipped] at count
      exact List.ne_nil_of_mem inside (List.length_eq_zero_iff.mp count.symm)
    · intro sought unbound first rest eq
      have count := counts sought
      rw [unbound, eq, refusals, Option.getD_none, refusals_some, Option.any_none, if_neg Bool.false_ne_true, Nat.zero_add,
        Option.isSome_none, if_neg Bool.false_ne_true] at count
      split at count
      next skipped => exact .inl skipped
      next => exact .inr (List.length_eq_zero_iff.mp count)
  · intro agreeing
    exact refused_eq_of_agreeing items table table (fun item member current eq => ⟨agreeing.bound item member current eq, eq⟩)
      fun sought unbound => .inr (.inr ⟨unbound, agreeing.free sought unbound⟩)

end ObjcDyld.Bindings

/-!
## Keyed lists

Lists of pairs in which each key comes once, in any order: what it means that one key has another
value, and the operations on lists that do this.
-/

namespace ObjcDyld.KeyedLists

variable {α β : Type} {before after items rest : List (α × β)} {key : α} {value : Option β} {b b' : β} {i : ℕ}

def keys (list : List (α × β)) : List α := list.map Prod.fst

theorem mem_keys_of_mem {list : List (α × β)} (member : (key, b) ∈ list) : key ∈ keys list := List.mem_map_of_mem member

theorem mem_keys_iff {list : List (α × β)} : key ∈ keys list ↔ ∃ b, (key, b) ∈ list := by
  simp [keys]

theorem value_eq (nodup : (keys items).Nodup) (first : (key, b) ∈ items) (second : (key, b') ∈ items) : b = b' :=
  (Prod.mk.inj (List.inj_on_of_nodup_map nodup first second rfl)).2

/-- Only this key has another value, or none. -/
structure Updated (before after : List (α × β)) (key : α) (value : Option β) : Prop where
  nodup : (keys after).Nodup
  here : ∀ b, (key, b) ∈ after ↔ value = some b
  elsewhere : ∀ a b, a ≠ key → ((a, b) ∈ after ↔ (a, b) ∈ before)

theorem updated_cons (nodup : (keys items).Nodup) (absent : key ∉ keys items) (b : β) :
    Updated items ((key, b) :: items) key (some b) := by
  refine ⟨List.nodup_cons.mpr ⟨absent, nodup⟩, fun b' => ?_, fun a b' different => ?_⟩
  · have other : (key, b') ∉ items := fun member => absent (mem_keys_of_mem member)
    simp [other, eq_comm]
  · simp [different]

theorem Updated.perm (updated : Updated before after key value) {after' : List (α × β)} (perm : after.Perm after') :
    Updated before after' key value :=
  ⟨(perm.map _).nodup_iff.mp updated.nodup, fun b => perm.mem_iff.symm.trans (updated.here b),
    fun a b different => perm.mem_iff.symm.trans (updated.elsewhere a b different)⟩

theorem updated_append (nodup : (keys items).Nodup) (absent : key ∉ keys items) (b : β) :
    Updated items (items ++ [(key, b)]) key (some b) :=
  (updated_cons nodup absent b).perm (List.perm_append_singleton _ _).symm

theorem updated_of_perm_cons (nodup : (keys before).Nodup) (perm : before.Perm ((key, b) :: after)) :
    Updated before after key none := by
  have nodup' : (keys ((key, b) :: after)).Nodup := (perm.map _).nodup_iff.mp nodup
  obtain ⟨absent, tail⟩ := List.nodup_cons.mp nodup'
  refine ⟨tail, fun b' => iff_of_false (fun member => absent (mem_keys_of_mem member)) nofun, fun a b' different => ?_⟩
  rw [perm.mem_iff, List.mem_cons]
  exact (or_iff_right fun same => different (Prod.mk.inj same).1).symm

theorem updated_set (nodup : (keys items).Nodup) (at_i : items[i]? = some (key, b)) (b' : β) :
    Updated items (items.set i (key, b')) key (some b') := by
  obtain ⟨inside, eq⟩ := List.getElem?_eq_some_iff.mp at_i
  have perm : items.Perm ((key, b) :: (items.take i ++ items.drop (i + 1))) := by
    have split := List.take_append_drop i items
    rw [← List.cons_getElem_drop_succ (h := inside), eq] at split
    exact (List.Perm.of_eq split.symm).trans List.perm_middle
  have nodup' : (keys ((key, b) :: (items.take i ++ items.drop (i + 1)))).Nodup := (perm.map _).nodup_iff.mp nodup
  obtain ⟨absent, tail⟩ := List.nodup_cons.mp nodup'
  have added := updated_cons tail absent b'
  rw [List.set_eq_take_append_cons_drop, if_pos inside]
  refine Updated.perm ⟨added.nodup, added.here, fun a c different => ?_⟩ List.perm_middle.symm
  rw [added.elsewhere a c different]
  exact ((updated_of_perm_cons nodup perm).elsewhere a c different)

theorem Updated.append_left (updated : Updated before after key value) (first : List (α × β))
    (nodup : (keys (first ++ before)).Nodup) (absent : key ∉ keys first) :
    Updated (first ++ before) (first ++ after) key value := by
  have apart : ∀ a ∈ keys first, ∀ a' ∈ keys before, a ≠ a' := by
    have parts := nodup
    rw [keys, List.map_append] at parts
    exact (List.nodup_append.mp parts).2.2
  refine ⟨?_, fun b => ?_, fun a b different => ?_⟩
  · rw [keys, List.map_append] at nodup ⊢
    refine List.nodup_append.mpr ⟨(List.nodup_append.mp nodup).1, updated.nodup, fun a member a' member' => ?_⟩
    rintro rfl
    obtain ⟨b, member'⟩ := mem_keys_iff.mp member'
    have different : a ≠ key := by
      rintro rfl
      exact absent member
    exact apart a member a (mem_keys_of_mem ((updated.elsewhere a b different).mp member')) rfl
  · rw [List.mem_append, updated.here]
    exact or_iff_right fun member => absent (mem_keys_of_mem member)
  · rw [List.mem_append, List.mem_append, updated.elsewhere a b different]

theorem find?_eq_some_iff [DecidableEq α] (nodup : (keys items).Nodup) :
    items.find? (fun item => item.1 = key) = some (key, b) ↔ (key, b) ∈ items := by
  constructor
  · exact List.mem_of_find?_eq_some
  · intro member
    cases found : items.find? (fun item => item.1 = key) with
    | none => simpa using List.find?_eq_none.mp found (key, b) member
    | some item =>
        obtain ⟨a, b'⟩ := item
        obtain rfl : a = key := by simpa using List.find?_some found
        rw [value_eq nodup member (List.mem_of_find?_eq_some found)]

end ObjcDyld.KeyedLists
