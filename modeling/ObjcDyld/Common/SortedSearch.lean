import Mathlib

/-!
# Binary search

A binary search by a key that goes back to the first item with the key, so that it finds what a search
from the front finds; and a stable sort, which does not change what is found.
-/

namespace ObjcDyld.SortedSearch

variable {α β : Type*} [LinearOrder β] (key : α → β) {items : List α} {sought : β}

/-- From an item with the key back to the first one. -/
def rewind (items : List α) (sought : β) : ℕ → ℕ
  | 0 => 0
  | probe + 1 => if items[probe]?.map key = some sought then rewind items sought probe else probe + 1

/-- The search among `count` items from `base` on. -/
def searchFrom (items : List α) (sought : β) (base count : ℕ) : Option ℕ :=
  if 0 < count then
    let probe := base + count / 2
    match items[probe]? with
    | none => none
    | some item =>
        if sought = key item then some (rewind key items sought probe)
        else if sought > key item then searchFrom items sought (probe + 1) ((count - 1) / 2)
        else searchFrom items sought base (count / 2)
  else none
termination_by count

def search (items : List α) (sought : β) : Option α :=
  (searchFrom key items sought 0 items.length).bind fun i => items[i]?

/-- The items are in the order of their keys. -/
abbrev Sorted (items : List α) : Prop := items.Pairwise fun first second => key first ≤ key second

variable {key}

theorem Sorted.le (sorted : Sorted key items) {i j : ℕ} (le : i ≤ j) (inside : j < items.length) :
    key (items[i]) ≤ key (items[j]) := by
  obtain rfl | lt := le.eq_or_lt
  · exact le_rfl
  · exact List.pairwise_iff_getElem.mp sorted i j _ inside lt

theorem rewind_eq (sorted : Sorted key items) {probe : ℕ} (inside : probe < items.length) (found : key (items[probe]) = sought) :
    items.findIdx? (fun item => key item = sought) = some (rewind key items sought probe) := by
  induction probe with
  | zero =>
      refine List.findIdx?_eq_some_iff_getElem.mpr ⟨inside, decide_eq_true found, fun j lt => ?_⟩
      exact absurd lt (Nat.not_lt_zero j)
  | succ probe ih =>
      have before : probe < items.length := by omega
      rw [rewind, List.getElem?_eq_getElem before, Option.map_some]
      by_cases same : key (items[probe]) = sought
      · rw [if_pos (congrArg some same)]
        exact ih before same
      · rw [if_neg fun eq => same (Option.some.inj eq)]
        refine List.findIdx?_eq_some_iff_getElem.mpr ⟨inside, decide_eq_true found, fun j lt => ?_⟩
        have less : key (items[probe]) < sought := lt_of_le_of_ne (found ▸ sorted.le (Nat.le_succ probe) inside) same
        have le : key (items[j]) ≤ key (items[probe]) := sorted.le (Nat.lt_succ_iff.mp lt) before
        rw [Bool.not_eq_true, decide_eq_false_iff_not]
        exact (le.trans_lt less).ne

theorem searchFrom_eq (sorted : Sorted key items) (base count : ℕ) (fits : base + count ≤ items.length)
    (below : ∀ i (inside : i < items.length), i < base → key (items[i]) < sought)
    (above : ∀ i (inside : i < items.length), base + count ≤ i → sought < key (items[i])) :
    searchFrom key items sought base count = items.findIdx? fun item => key item = sought := by
  induction count using Nat.strong_induction_on generalizing base with
  | _ count ih =>
      rw [searchFrom]
      split
      next some_left =>
        have inside : base + count / 2 < items.length := by omega
        simp only [List.getElem?_eq_getElem inside]
        split
        next found => exact (rewind_eq sorted inside found.symm).symm
        next other =>
          split
          next greater =>
            refine ih ((count - 1) / 2) (by omega) (base + count / 2 + 1) (by omega) (fun i within lt => ?_) fun i within le =>
              above i within (by omega)
            exact (sorted.le (Nat.lt_succ_iff.mp lt) inside).trans_lt greater
          next notGreater =>
            have less : sought < key (items[base + count / 2]) := lt_of_le_of_ne (not_lt.mp notGreater) other
            refine ih (count / 2) (by omega) base (by omega) below fun i within le => ?_
            exact less.trans_le (sorted.le le within)
      next none_left =>
        refine (List.findIdx?_eq_none_iff.mpr fun item member => ?_).symm
        obtain ⟨i, inside, rfl⟩ := List.getElem_of_mem member
        rw [decide_eq_false_iff_not]
        by_cases lt : i < base
        · exact (below i inside lt).ne
        · exact (above i inside (by omega)).ne'

theorem searchFrom_all (sorted : Sorted key items) :
    searchFrom key items sought 0 items.length = items.findIdx? fun item => key item = sought :=
  searchFrom_eq sorted 0 items.length (by omega) (fun i _ lt => absurd lt (Nat.not_lt_zero i)) fun i inside le => by omega

theorem search_eq_find? (sorted : Sorted key items) : search key items sought = items.find? fun item => key item = sought := by
  rw [search, searchFrom_all sorted]
  cases found : items.findIdx? fun item => key item = sought with
  | none => exact (List.find?_eq_none.mpr fun item member => by simpa using List.findIdx?_eq_none_iff.mp found item member).symm
  | some i =>
      obtain ⟨inside, here, before⟩ := List.findIdx?_eq_some_iff_getElem.mp found
      rw [Option.bind_some, List.getElem?_eq_getElem inside]
      refine Eq.symm ?_
      rw [List.find?_eq_some_iff_getElem]
      refine ⟨here, i, inside, rfl, fun j lt => ?_⟩
      rw [Bool.not_eq_true']
      exact Bool.eq_false_iff.mpr (before j lt)

theorem le_trans_decide (first second third : α) (le : decide (key first ≤ key second)) (le' : decide (key second ≤ key third)) :
    decide (key first ≤ key third) :=
  decide_eq_true ((of_decide_eq_true le).trans (of_decide_eq_true le'))

theorem le_total_decide (first second : α) : decide (key first ≤ key second) || decide (key second ≤ key first) := by
  simpa using le_total (key first) (key second)

/-- `std::stable_sort`. -/
def stableSort (key : α → β) (items : List α) : List α := items.mergeSort fun first second => key first ≤ key second

theorem stableSort_sorted (items : List α) : Sorted key (stableSort key items) := by
  have sorted : (stableSort key items).Pairwise fun first second => decide (key first ≤ key second) :=
    List.pairwise_mergeSort le_trans_decide le_total_decide items
  exact sorted.imp of_decide_eq_true

theorem stableSort_perm (items : List α) : (stableSort key items).Perm items := List.mergeSort_perm _ _

theorem filter_stableSort (items : List α) :
    (stableSort key items).filter (fun item => key item = sought) = items.filter fun item => key item = sought := by
  have kept : (items.filter fun item => key item = sought).Sublist (stableSort key items) := by
    refine List.sublist_mergeSort le_trans_decide le_total_decide ?_ List.filter_sublist
    refine List.pairwise_of_forall_mem_list fun first member second member' => decide_eq_true ?_
    rw [of_decide_eq_true (List.mem_filter.mp member).2, of_decide_eq_true (List.mem_filter.mp member').2]
  have sublist := kept.filter fun item => key item = sought
  rw [List.filter_filter] at sublist
  simp only [Bool.and_self] at sublist
  exact (sublist.eq_of_length ((stableSort_perm items).filter _).length_eq.symm).symm

theorem find?_stableSort (items : List α) :
    (stableSort key items).find? (fun item => key item = sought) = items.find? fun item => key item = sought := by
  rw [← List.head?_filter, ← List.head?_filter, filter_stableSort]

end ObjcDyld.SortedSearch
