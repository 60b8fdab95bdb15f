import ObjcDyld.Common.SortedSearch

/-!
# Bubble sort

The two loops of a bubble sort over a list. A pass of `count` comparisons carries the greatest
of the first `count + 1` items to their end, so each pass adds one item to a sorted tail.
-/

namespace ObjcDyld.BubbleSort

variable {α β : Type*} [LinearOrder β] (key : α → β)

/-- The inner loop: `count` comparisons of neighbours, from the front. -/
def pass : ℕ → List α → List α
  | count + 1, first :: second :: rest =>
      if key first > key second then second :: pass count (first :: rest)
      else first :: pass count (second :: rest)
  | _, items => items

/-- The outer loop. -/
def sort (items : List α) : List α :=
  (List.range (items.length - 1)).foldl (fun sorted i => pass key (items.length - i - 1) sorted) items

theorem pass_append (items rest : List α) (count : ℕ) (length : items.length = count + 1) :
    ∃ smaller greatest, pass key count (items ++ rest) = smaller ++ greatest :: rest ∧
      (smaller ++ [greatest]).Perm items ∧ ∀ item ∈ smaller, key item ≤ key greatest := by
  induction count generalizing items with
  | zero =>
      obtain ⟨item, rfl⟩ := List.length_eq_one_iff.mp length
      exact ⟨[], item, rfl, List.Perm.refl _, by simp⟩
  | succ count ih =>
      obtain ⟨first, second, others, rfl⟩ : ∃ first second others, items = first :: second :: others := by
        match items, length with
        | first :: second :: others, _ => exact ⟨first, second, others, rfl⟩
      simp only [List.length_cons] at length
      by_cases greater : key first > key second
      · obtain ⟨smaller, greatest, eq, perm, le⟩ := ih (first :: others) (by simpa using length)
        have first_le : key first ≤ key greatest := by
          rcases List.mem_append.mp (perm.mem_iff.mpr List.mem_cons_self) with inside | last
          · exact le first inside
          · rw [List.mem_singleton.mp last]
        refine ⟨second :: smaller, greatest, ?_, ?_, ?_⟩
        · simpa [pass, greater] using eq
        · exact (perm.cons second).trans (List.Perm.swap first second others)
        · rintro item (_ | ⟨_, inside⟩)
          · exact greater.le.trans first_le
          · exact le item inside
      · obtain ⟨smaller, greatest, eq, perm, le⟩ := ih (second :: others) (by simpa using length)
        have second_le : key second ≤ key greatest := by
          rcases List.mem_append.mp (perm.mem_iff.mpr List.mem_cons_self) with inside | last
          · exact le second inside
          · rw [List.mem_singleton.mp last]
        refine ⟨first :: smaller, greatest, ?_, perm.cons first, ?_⟩
        · simpa [pass, greater] using eq
        · rintro item (_ | ⟨_, inside⟩)
          · exact (not_lt.mp greater).trans second_le
          · exact le item inside

/-- After `done` passes the last `done` items are sorted and none of them is below one before them. -/
structure Sorting (items : List α) (done : ℕ) (sorting : List α) : Prop where
  perm : sorting.Perm items
  split : ∃ before after, sorting = before ++ after ∧ before.length = items.length - done ∧
    after.Pairwise (key · ≤ key ·) ∧ ∀ low ∈ before, ∀ high ∈ after, key low ≤ key high

theorem Sorting.pass {items sorting : List α} {done : ℕ} (state : Sorting key items done sorting)
    (bound : done < items.length) :
    Sorting key items (done + 1) (pass key (items.length - done - 1) sorting) := by
  obtain ⟨before, after, rfl, length, sorted, below⟩ := state.split
  obtain ⟨smaller, greatest, eq, perm, le⟩ :=
    pass_append key before after (items.length - done - 1) (by omega)
  have counted := perm.length_eq
  simp only [List.length_append, List.length_singleton] at counted
  constructor
  · rw [eq]
    exact ((perm.append_right after).symm.trans (by simp)).symm.trans state.perm
  · refine ⟨smaller, greatest :: after, eq, by omega, ?_, ?_⟩
    · exact List.pairwise_cons.mpr
        ⟨fun high inside => below greatest (perm.mem_iff.mp (by simp)) high inside, sorted⟩
    · rintro low inside high (_ | ⟨_, behind⟩)
      · exact le low inside
      · exact below low (perm.mem_iff.mp (List.mem_append_left _ inside)) high behind

theorem Sorting.passes (items : List α) (done : ℕ) (bound : done ≤ items.length) :
    Sorting key items done
      ((List.range done).foldl (fun sorted i => BubbleSort.pass key (items.length - i - 1) sorted) items) := by
  induction done with
  | zero => exact ⟨List.Perm.refl _, items, [], by simp⟩
  | succ done ih =>
      rw [List.range_succ, List.foldl_append]
      exact (ih (by omega)).pass key (by omega)

theorem sort_perm (items : List α) : (sort key items).Perm items :=
  (Sorting.passes key items (items.length - 1) (by omega)).perm

theorem sort_sorted (items : List α) : (sort key items).Pairwise (key · ≤ key ·) := by
  obtain ⟨before, after, eq, length, sorted, below⟩ :=
    (Sorting.passes key items (items.length - 1) (by omega)).split
  have short : before.length ≤ 1 := by omega
  rw [sort, eq]
  refine List.pairwise_append.mpr ⟨?_, sorted, below⟩
  match before, short with
  | [], _ => exact List.Pairwise.nil
  | [_], _ => exact List.pairwise_singleton _ _

theorem sort_eq_of_perm {items sorted : List α} (perm : items.Perm sorted)
    (ascending : sorted.Pairwise (key · < key ·)) : sort key items = sorted := by
  have same := (sort_perm key items).trans perm
  refine same.eq_of_pairwise ?_ (sort_sorted key items) (ascending.imp le_of_lt)
  intro first second inside inside' le ge
  have distinct : (sorted.map key).Nodup := List.pairwise_map.mpr (ascending.imp ne_of_lt)
  exact List.inj_on_of_nodup_map distinct (same.mem_iff.mp inside) inside' (le_antisymm le ge)

end ObjcDyld.BubbleSort

/-!
## Sorting by exchanges

Two nested loops that exchange two items of a list when they are not in order, and with them the items
of another list that stand at the same places behind an offset.
-/

namespace ObjcDyld.ExchangeSort

variable {α β γ : Type*} [LinearOrder β] (key : α → β) (offset : ℕ)

/-- `std::swap` of two places. -/
def swap (items : List α) (i j : ℕ) : List α :=
  match items[i]?, items[j]? with
  | some first, some second => (items.set i second).set j first
  | _, _ => items

/-- Exchange two items that are not in order, and what belongs to them. -/
def exchange (i : ℕ) (lists : List α × List γ) (j : ℕ) : List α × List γ :=
  match lists.1[i]?, lists.1[j]? with
  | some first, some second =>
      if key first > key second then (swap lists.1 i j, swap lists.2 (offset + i) (offset + j)) else lists
  | _, _ => lists

/-- The inner loop. -/
def pass (count : ℕ) (lists : List α × List γ) (i : ℕ) : List α × List γ :=
  (List.range' (i + 1) (count - (i + 1))).foldl (exchange key offset i) lists

/-- The outer loop. -/
def sort (lists : List α × List γ) : List α × List γ := (List.range lists.1.length).foldl (pass key offset lists.1.length) lists

variable {key offset} {items : List α} {lists : List α × List γ} {i j n : ℕ}

theorem getElem?_swap (i_inside : i < items.length) (j_inside : j < items.length) (k : ℕ) :
    (swap items i j)[k]? = items[Equiv.swap i j k]? := by
  rw [swap, List.getElem?_eq_getElem i_inside, List.getElem?_eq_getElem j_inside]
  simp only [List.getElem?_set, List.length_set]
  by_cases second : j = k
  · subst second
    rw [if_pos rfl, if_pos j_inside, Equiv.swap_apply_right, List.getElem?_eq_getElem i_inside]
  · by_cases first : i = k
    · subst first
      rw [if_neg second, if_pos rfl, if_pos i_inside, Equiv.swap_apply_left, List.getElem?_eq_getElem j_inside]
    · rw [if_neg second, if_neg first, Equiv.swap_apply_of_ne_of_ne (Ne.symm first) (Ne.symm second)]

@[simp] theorem length_swap (i j : ℕ) : (swap items i j).length = items.length := by
  rw [swap]
  split
  next => rw [List.length_set, List.length_set]
  next => rfl

/-- What belongs to an item, at each place. -/
def pairs (offset : ℕ) (lists : List α × List γ) : List (Option α × Option γ) :=
  (List.range lists.1.length).map fun i => (lists.1[i]?, lists.2[offset + i]?)

theorem range_map_swap_perm (i_inside : i < n) (j_inside : j < n) : ((List.range n).map (Equiv.swap i j)).Perm (List.range n) := by
  refine (List.perm_ext_iff_of_nodup (List.nodup_range.map (Equiv.swap i j).injective) List.nodup_range).mpr fun k => ?_
  have inside (k : ℕ) (lt : k < n) : Equiv.swap i j k < n := by
    rw [Equiv.swap_apply_def]
    split
    next => exact j_inside
    next => split <;> assumption
  rw [List.mem_map, List.mem_range]
  constructor
  · rintro ⟨before, member, rfl⟩
    exact inside before (List.mem_range.mp member)
  · intro lt
    exact ⟨Equiv.swap i j k, List.mem_range.mpr (inside k lt), Equiv.swap_apply_self i j k⟩

theorem map_fst_pairs (offset : ℕ) (lists : List α × List γ) : (pairs offset lists).map Prod.fst = lists.1.map some := by
  rw [pairs, List.map_map]
  refine List.ext_getElem (by simp) fun k inside _ => ?_
  rw [List.length_map, List.length_range] at inside
  simp [inside]

/-- What an exchange leaves as it is. -/
structure Kept (offset : ℕ) (lists lists' : List α × List γ) : Prop where
  length : lists'.1.length = lists.1.length
  length' : lists'.2.length = lists.2.length
  pairs : (pairs offset lists').Perm (pairs offset lists)
  outside : ∀ k, k < offset ∨ offset + lists.1.length ≤ k → lists'.2[k]? = lists.2[k]?

theorem Kept.refl (offset : ℕ) (lists : List α × List γ) : Kept offset lists lists := ⟨rfl, rfl, List.Perm.refl _, fun _ _ => rfl⟩

theorem Kept.trans {first second third : List α × List γ} (kept : Kept offset first second) (kept' : Kept offset second third) :
    Kept offset first third :=
  ⟨kept'.length.trans kept.length, kept'.length'.trans kept.length', kept'.pairs.trans kept.pairs, fun k outside =>
    (kept'.outside k (kept.length ▸ outside)).trans (kept.outside k outside)⟩

theorem Kept.perm {lists' : List α × List γ} (kept : Kept offset lists lists') : lists'.1.Perm lists.1 := by
  have perm := kept.pairs.map Prod.fst
  rw [map_fst_pairs, map_fst_pairs] at perm
  exact (List.map_perm_map_iff (Option.some_injective α)).mp perm

theorem kept_swap (i_inside : i < lists.1.length) (j_inside : j < lists.1.length) (covers : offset + lists.1.length ≤ lists.2.length) :
    Kept offset lists (swap lists.1 i j, swap lists.2 (offset + i) (offset + j)) := by
  have i_inside' : offset + i < lists.2.length := by omega
  have j_inside' : offset + j < lists.2.length := by omega
  refine ⟨length_swap i j, length_swap _ _, ?_, fun k outside => ?_⟩
  · have moved (k : ℕ) : Equiv.swap (offset + i) (offset + j) (offset + k) = offset + Equiv.swap i j k := by
      simp only [Equiv.swap_apply_def, Nat.add_left_cancel_iff]
      split_ifs <;> rfl
    have swapped : pairs offset (swap lists.1 i j, swap lists.2 (offset + i) (offset + j)) =
        ((List.range lists.1.length).map (Equiv.swap i j)).map fun i => (lists.1[i]?, lists.2[offset + i]?) := by
      rw [pairs, length_swap, List.map_map]
      refine List.map_congr_left fun k _ => ?_
      rw [getElem?_swap i_inside j_inside, getElem?_swap i_inside' j_inside', moved]
      rfl
    rw [swapped]
    exact (range_map_swap_perm i_inside j_inside).map _
  · show (swap lists.2 (offset + i) (offset + j))[k]? = lists.2[k]?
    rw [getElem?_swap i_inside' j_inside', Equiv.swap_apply_of_ne_of_ne (by omega) (by omega)]

theorem exchange_spec (i_inside : i < lists.1.length) (j_inside : j < lists.1.length) (covers : offset + lists.1.length ≤ lists.2.length) :
    Kept offset lists (exchange key offset i lists j) ∧
      ((exchange key offset i lists j).1 = lists.1 ∧ key (lists.1[i]) ≤ key (lists.1[j]) ∨
        (exchange key offset i lists j).1 = swap lists.1 i j ∧ key (lists.1[j]) < key (lists.1[i])) := by
  rw [exchange, List.getElem?_eq_getElem i_inside, List.getElem?_eq_getElem j_inside]
  dsimp only
  split
  next greater => exact ⟨kept_swap i_inside j_inside covers, .inr ⟨rfl, greater⟩⟩
  next ordered => exact ⟨Kept.refl offset lists, .inl ⟨rfl, not_lt.mp ordered⟩⟩

def InOrder (key : α → β) (items : List α) (i j : ℕ) : Prop :=
  ∀ first second, items[i]? = some first → items[j]? = some second → key first ≤ key second

/-- The least items stand in front, and the item at `i` is the least one up to `j`. -/
structure Passing (key : α → β) (items : List α) (i j : ℕ) : Prop where
  front : ∀ a < i, ∀ b, a < b → InOrder key items a b
  least : ∀ b, i < b → b < j → InOrder key items i b

theorem Passing.exchange (passing : Passing key lists.1 i j) (order : i < j) (inside : j < lists.1.length)
    (covers : offset + lists.1.length ≤ lists.2.length) : Passing key (exchange key offset i lists j).1 i (j + 1) := by
  have i_inside : i < lists.1.length := order.trans inside
  obtain ⟨-, ⟨same, ordered⟩ | ⟨swapped, greater⟩⟩ := @exchange_spec _ _ _ _ key offset lists i j i_inside inside covers
  · rw [same]
    refine ⟨passing.front, fun b above below => ?_⟩
    obtain lt | rfl := Nat.lt_succ_iff_lt_or_eq.mp below
    · exact passing.least b above lt
    · intro first second here there
      rw [List.getElem?_eq_getElem i_inside] at here
      rw [List.getElem?_eq_getElem inside] at there
      obtain rfl := Option.some.inj here
      obtain rfl := Option.some.inj there
      exact ordered
  · rw [swapped]
    refine ⟨fun a below b above first second here there => ?_, fun b above below first second here there => ?_⟩
    · rw [getElem?_swap i_inside inside, Equiv.swap_apply_of_ne_of_ne (by omega) (by omega)] at here
      rw [getElem?_swap i_inside inside] at there
      refine passing.front a below _ ?_ first second here there
      rw [Equiv.swap_apply_def]
      split_ifs <;> omega
    · rw [getElem?_swap i_inside inside, Equiv.swap_apply_left, List.getElem?_eq_getElem inside] at here
      rw [getElem?_swap i_inside inside] at there
      obtain rfl := Option.some.inj here
      obtain lt | rfl := Nat.lt_succ_iff_lt_or_eq.mp below
      · rw [Equiv.swap_apply_of_ne_of_ne (by omega) (by omega)] at there
        exact greater.le.trans (passing.least b above lt _ second (List.getElem?_eq_getElem i_inside) there)
      · rw [Equiv.swap_apply_right, List.getElem?_eq_getElem i_inside] at there
        obtain rfl := Option.some.inj there
        exact greater.le

theorem pass_spec (passing : Passing key lists.1 i (i + 1)) (inside : i < lists.1.length)
    (covers : offset + lists.1.length ≤ lists.2.length) :
    Kept offset lists (pass key offset lists.1.length lists i) ∧ Passing key (pass key offset lists.1.length lists i).1 i lists.1.length := by
  have loop : ∀ count, i + 1 + count ≤ lists.1.length →
      Kept offset lists ((List.range' (i + 1) count).foldl (exchange key offset i) lists) ∧
        Passing key ((List.range' (i + 1) count).foldl (exchange key offset i) lists).1 i (i + 1 + count) := by
    intro count
    induction count with
    | zero => exact fun _ => ⟨Kept.refl offset lists, passing⟩
    | succ count ih =>
        intro fits
        obtain ⟨kept, passing⟩ := ih (by omega)
        rw [List.range'_concat, List.foldl_append, List.foldl_cons, List.foldl_nil, Nat.one_mul]
        have covers' := covers
        rw [← kept.length, ← kept.length'] at covers'
        have inside' : i + 1 + count < ((List.range' (i + 1) count).foldl (exchange key offset i) lists).1.length := by
          rw [kept.length]
          omega
        have step := (@exchange_spec _ _ _ _ key offset _ i (i + 1 + count) (by omega) inside' covers').1
        exact ⟨kept.trans step, passing.exchange (by omega) inside' covers'⟩
  have whole := loop (lists.1.length - (i + 1)) (by omega)
  rw [show i + 1 + (lists.1.length - (i + 1)) = lists.1.length by omega] at whole
  exact whole

theorem sort_spec (covers : offset + lists.1.length ≤ lists.2.length) :
    Kept offset lists (sort key offset lists) ∧ SortedSearch.Sorted key (sort key offset lists).1 := by
  have loop : ∀ count, count ≤ lists.1.length →
      Kept offset lists ((List.range count).foldl (pass key offset lists.1.length) lists) ∧
        ∀ a < count, ∀ b, a < b → InOrder key ((List.range count).foldl (pass key offset lists.1.length) lists).1 a b := by
    intro count
    induction count with
    | zero => exact fun _ => ⟨Kept.refl offset lists, nofun⟩
    | succ count ih =>
        intro fits
        obtain ⟨kept, front⟩ := ih (by omega)
        rw [List.range_succ, List.foldl_append, List.foldl_cons, List.foldl_nil]
        generalize (List.range count).foldl (pass key offset lists.1.length) lists = before at kept front
        have covers' := covers
        rw [← kept.length, ← kept.length'] at covers'
        obtain ⟨kept', passing⟩ := pass_spec ⟨front, fun b above below => by omega⟩ (by rw [kept.length]; omega) covers'
        rw [← kept.length]
        refine ⟨kept.trans kept', fun a below b above => ?_⟩
        obtain lt | rfl := Nat.lt_succ_iff_lt_or_eq.mp below
        · exact passing.front a lt b above
        · intro first second here there
          obtain ⟨b_inside, -⟩ := List.getElem?_eq_some_iff.mp there
          exact passing.least b above (kept'.length ▸ b_inside) first second here there
  obtain ⟨kept, front⟩ := loop lists.1.length le_rfl
  refine ⟨kept, List.pairwise_iff_getElem.mpr fun a b a_inside b_inside order => ?_⟩
  refine front a ?_ b order _ _ (List.getElem?_eq_getElem a_inside) (List.getElem?_eq_getElem b_inside)
  rwa [← kept.length]

end ObjcDyld.ExchangeSort
