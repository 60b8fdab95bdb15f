import ObjcDyld.Autorelease.Pool

/-!
# The chain of pages

The words of the pool lie on a chain of linked pages: the pages colder than
the hot page are full and the hotter ones are empty.  Each operation on pages
keeps this and does to the words what it should.
-/

namespace ObjcDyld.Autorelease

/-- The page at a position of the chain, zero past its end. -/
def pageAt (chain : List ℕ) (i : ℕ) : ℕ := chain.getD i 0

/-- The page above (colder than) position `i` of the chain, zero at the coldest. -/
def parentIn (chain : List ℕ) : ℕ → ℕ
  | 0 => 0
  | i + 1 => pageAt chain i

/-- How many of the pool's words lie on page `i` when `height` words fill the pages in order. -/
def fill (layout : Layout) (height i : ℕ) : ℕ := min layout.capacity (height - i * layout.capacity)

/-- What page `i` of the chain holds when the pool's words are `words`. -/
structure OnPage (layout : Layout) (chain words : List ℕ) (i : ℕ) (data : Page) : Prop where
  parent : data.parent = parentIn chain i
  child : data.child = pageAt chain (i + 1)
  next : data.next = fill layout words.length i
  slots : ∀ j < data.next, words[i * layout.capacity + j]? = some (data.slots j)

/-- The words lie on the pages of the chain, and page `hot` of it is where they end. -/
structure Laid (layout : Layout) (heap : Heap) (chain : List ℕ) (hot : ℕ) (words : List ℕ) :
    Prop where
  distinct : chain.Nodup
  placed : ∀ page ∈ chain, page ≠ 0 ∧ layout.size ∣ page
  pages : ∀ i page, chain[i]? = some page → ∃ data, heap.pages page = some data ∧
    OnPage layout chain words i data
  hot_lt : hot < chain.length
  low : hot * layout.capacity ≤ words.length
  high : words.length ≤ (hot + 1) * layout.capacity
  counted : chain.length ≤ heap.live

variable {layout : Layout} {heap : Heap} {chain words : List ℕ} {hot : ℕ}

/-! ## Positions in the chain -/

theorem getElem?_pageAt {i : ℕ} (small : i < chain.length) : chain[i]? = some (pageAt chain i) := by
  rw [pageAt, List.getD_eq_getElem _ _ small, List.getElem?_eq_getElem]

theorem pageAt_mem {i : ℕ} (small : i < chain.length) : pageAt chain i ∈ chain :=
  List.mem_of_getElem? (getElem?_pageAt small)

theorem pageAt_end {i : ℕ} (past : chain.length ≤ i) : pageAt chain i = 0 :=
  List.getD_eq_default _ _ past

theorem pageAt_append {i : ℕ} (more : List ℕ) (small : i < chain.length) :
    pageAt (chain ++ more) i = pageAt chain i :=
  List.getD_append _ _ _ _ small

theorem pageAt_append_self (page : ℕ) : pageAt (chain ++ [page]) chain.length = page := by
  simp [pageAt]

theorem pageAt_take {i n : ℕ} (small : i < n) : pageAt (chain.take n) i = pageAt chain i := by
  simp [pageAt, small]

theorem parentIn_append {i : ℕ} {more : List ℕ} (small : i ≤ chain.length) :
    parentIn (chain ++ more) i = parentIn chain i := by
  cases i with
  | zero => rfl
  | succ i => exact pageAt_append more small

theorem parentIn_take {i n : ℕ} (small : i ≤ n) : parentIn (chain.take n) i = parentIn chain i := by
  cases i with
  | zero => rfl
  | succ i => exact pageAt_take small

/-! ## How full the pages are -/

theorem fill_full {height i : ℕ} (past : (i + 1) * layout.capacity ≤ height) :
    fill layout height i = layout.capacity := by
  rw [Nat.succ_mul] at past
  rw [fill]
  omega

theorem fill_empty {height i : ℕ} (before : height ≤ i * layout.capacity) :
    fill layout height i = 0 := by
  rw [fill]
  omega

theorem fill_here {height i : ℕ} (low : i * layout.capacity ≤ height)
    (high : height ≤ (i + 1) * layout.capacity) : fill layout height i = height - i * layout.capacity := by
  rw [Nat.succ_mul] at high
  rw [fill]
  omega

theorem fill_cold {height height' i : ℕ} (past : (i + 1) * layout.capacity ≤ height)
    (past' : (i + 1) * layout.capacity ≤ height') : fill layout height i = fill layout height' i := by
  rw [fill_full past, fill_full past']

theorem fill_hotter {height height' i : ℕ} (before : height ≤ i * layout.capacity)
    (before' : height' ≤ i * layout.capacity) : fill layout height i = fill layout height' i := by
  rw [fill_empty before, fill_empty before']

theorem mul_le_of_lt (layout : Layout) {i j : ℕ} (less : i < j) :
    (i + 1) * layout.capacity ≤ j * layout.capacity :=
  Nat.mul_le_mul_right _ less

namespace Laid

variable (laid : Laid layout heap chain hot words)

include laid in
theorem load {i page : ℕ} (at_i : chain[i]? = some page) :
    ∃ data, heap.load page = .ok data ∧ OnPage layout chain words i data := by
  obtain ⟨data, found, on⟩ := laid.pages i page at_i
  exact ⟨data, by rw [Heap.load, found], on⟩

include laid in
theorem at_hot : chain[hot]? = some (pageAt chain hot) := getElem?_pageAt laid.hot_lt

include laid in
theorem index_eq {i j page : ℕ} (at_i : chain[i]? = some page) (at_j : chain[j]? = some page) :
    i = j := by
  obtain ⟨h_i, eq_i⟩ := List.getElem?_eq_some_iff.mp at_i
  obtain ⟨h_j, eq_j⟩ := List.getElem?_eq_some_iff.mp at_j
  exact (laid.distinct.getElem_inj_iff).mp (eq_i.trans eq_j.symm)

include laid in
theorem full_cold {i : ℕ} (cold : i < hot) : fill layout words.length i = layout.capacity :=
  fill_full ((mul_le_of_lt layout cold).trans laid.low)

include laid in
theorem empty_hotter {i : ℕ} (hotter : hot < i) : fill layout words.length i = 0 :=
  fill_empty (laid.high.trans (mul_le_of_lt layout hotter))

include laid in
theorem fill_hot : fill layout words.length hot = words.length - hot * layout.capacity :=
  fill_here laid.low laid.high

end Laid

/-! ## Changing one page's words -/

theorem OnPage.congr {words' : List ℕ} {i : ℕ} {data : Page} (on : OnPage layout chain words i data)
    (same_fill : fill layout words.length i = fill layout words'.length i)
    (same : ∀ j < data.next, words'[i * layout.capacity + j]? = words[i * layout.capacity + j]?) :
    OnPage layout chain words' i data :=
  ⟨on.parent, on.child, on.next.trans same_fill, fun j small => (same j small).trans (on.slots j small)⟩

theorem Laid.store {words' : List ℕ} {hot' k page : ℕ} {data : Page}
    (laid : Laid layout heap chain hot words) (at_k : chain[k]? = some page)
    (on : OnPage layout chain words' k data)
    (others : ∀ i other, i ≠ k → OnPage layout chain words i other → OnPage layout chain words' i other)
    (hot_lt : hot' < chain.length) (low : hot' * layout.capacity ≤ words'.length)
    (high : words'.length ≤ (hot' + 1) * layout.capacity) :
    Laid layout (heap.store page data) chain hot' words' := by
  refine ⟨laid.distinct, laid.placed, ?_, hot_lt, low, high, laid.counted⟩
  intro i other at_i
  by_cases same : other = page
  · subst same
    obtain rfl := laid.index_eq at_i at_k
    exact ⟨data, Function.update_self .., on⟩
  · obtain ⟨old, found, held⟩ := laid.pages i other at_i
    refine ⟨old, (Function.update_of_ne same _ _).trans found, others i old ?_ held⟩
    rintro rfl
    exact same (Option.some.inj (at_i.symm.trans at_k))

theorem Laid.moveHot {hot' : ℕ} (laid : Laid layout heap chain hot words) (hot_lt : hot' < chain.length)
    (low : hot' * layout.capacity ≤ words.length)
    (high : words.length ≤ (hot' + 1) * layout.capacity) : Laid layout heap chain hot' words :=
  ⟨laid.distinct, laid.placed, laid.pages, hot_lt, low, high, laid.counted⟩

theorem Laid.add (laid : Laid layout heap chain hot words) (obj : ℕ)
    (room : words.length < (hot + 1) * layout.capacity) :
    ∃ heap', add layout (pageAt chain hot) obj heap =
        .ok (layout.slotAddress (pageAt chain hot) (words.length - hot * layout.capacity), heap') ∧
      Laid layout heap' chain hot (words ++ [obj]) := by
  obtain ⟨data, loads, on⟩ := laid.load laid.at_hot
  have next : data.next = words.length - hot * layout.capacity := on.next.trans laid.fill_hot
  have low := laid.low
  refine ⟨_, by rw [Autorelease.add, loads, ← next]; rfl, ?_⟩
  refine laid.store laid.at_hot ⟨on.parent, on.child, ?_, ?_⟩ ?_ laid.hot_lt ?_ ?_
  · rw [List.length_append, List.length_singleton, fill_here (by omega) (by omega)]
    simp only [next]
    omega
  · intro j small
    have small : j < data.next + 1 := small
    by_cases last : j = data.next
    · have here : hot * layout.capacity + j = words.length := by omega
      rw [here, last]
      simp
    · rw [List.getElem?_append_left (by omega), on.slots j (by omega)]
      simp [last]
  · intro i other away held
    refine held.congr ?_ ?_
    · rw [List.length_append, List.length_singleton]
      rcases Nat.lt_or_gt_of_ne away with cold | hotter
      · exact fill_cold ((mul_le_of_lt layout cold).trans low) (by
          have := mul_le_of_lt layout cold
          omega)
      · have := mul_le_of_lt layout hotter
        exact fill_hotter (by omega) (by omega)
    · intro j small
      have inside := held.slots j small
      rw [inside]
      exact List.getElem?_append_left (List.getElem?_eq_some_iff.mp inside).1 ▸ inside
  · rw [List.length_append]
    omega
  · rw [List.length_append, List.length_singleton]
    omega

theorem Laid.take {lower : List ℕ} {obj : ℕ} (laid : Laid layout heap chain hot (lower ++ [obj]))
    (low : hot * layout.capacity ≤ lower.length) (scribble : ℕ) :
    ∃ data, heap.load (pageAt chain hot) = .ok data ∧ data.empty = false ∧
      data.slots (data.next - 1) = obj ∧
      Laid layout
        (heap.store (pageAt chain hot)
          { data with
            slots := Function.update data.slots (data.next - 1) scribble
            next := data.next - 1 })
        chain hot lower := by
  obtain ⟨data, loads, on⟩ := laid.load laid.at_hot
  have high := laid.high
  have next := on.next.trans laid.fill_hot
  rw [List.length_append, List.length_singleton] at high next
  have here : hot * layout.capacity + (data.next - 1) = lower.length := by omega
  have last := on.slots (data.next - 1) (by omega)
  rw [here, List.getElem?_concat_length] at last
  refine ⟨data, loads, decide_eq_false (by omega), (Option.some.inj last).symm, ?_⟩
  refine laid.store laid.at_hot ⟨on.parent, on.child, ?_, ?_⟩ ?_ laid.hot_lt low (by omega)
  · rw [fill_here low (by omega)]
    simp only [next]
    omega
  · intro j small
    have small : j < data.next - 1 := small
    have inside := on.slots j (by omega)
    rw [List.getElem?_append_left (by omega)] at inside
    rw [inside]
    simp [small.ne]
  · intro i other away held
    rcases Nat.lt_or_gt_of_ne away with cold | hotter
    · have past := (mul_le_of_lt layout cold).trans low
      refine held.congr (fill_cold (by simp; omega) past) ?_
      intro j small
      have full := held.next.trans (laid.full_cold cold)
      rw [Nat.succ_mul] at past
      exact (List.getElem?_append_left (by omega)).symm
    · have past := mul_le_of_lt layout hotter
      refine held.congr (fill_hotter (by simp; omega) (by omega)) ?_
      intro j small
      have empty := held.next.trans (laid.empty_hotter hotter)
      omega

/-! ## New pages -/

/-- An allocation as `malloc_zone_memalign` promises it: aligned, and of memory that is not in use. -/
structure Allocation.Fresh (layout : Layout) (heap : Heap) (alloc : Allocation) : Prop where
  nonnull : alloc.address ≠ 0
  aligned : layout.size ∣ alloc.address
  unused : heap.pages alloc.address = none

theorem laid_first {alloc : Allocation} (fresh : alloc.Fresh layout heap) :
    ∃ heap', newPage alloc 0 heap = .ok heap' ∧ Laid layout heap' [alloc.address] 0 [] := by
  refine ⟨_, rfl, List.nodup_singleton _, ?_, ?_, by simp, by simp, by simp, by simp⟩
  · intro page mem
    obtain rfl := List.mem_singleton.mp mem
    exact ⟨fresh.nonnull, fresh.aligned⟩
  · intro i page at_i
    obtain ⟨small, rfl⟩ := List.getElem?_eq_some_iff.mp at_i
    obtain rfl : i = 0 := by simpa using small
    refine ⟨_, Function.update_self .., ?_⟩
    exact ⟨rfl, by simp [pageAt], by simp [fill], fun j small => absurd small (Nat.not_lt_zero j)⟩

theorem Laid.pageAt_ne {i : ℕ} (laid : Laid layout heap chain hot words) (small : i < chain.length) :
    pageAt chain i ≠ 0 :=
  (laid.placed _ (pageAt_mem small)).1

theorem Laid.grow {alloc : Allocation} (laid : Laid layout heap chain hot words)
    (fresh : alloc.Fresh layout heap) {last : ℕ} (at_end : last + 1 = chain.length) :
    ∃ heap', newPage alloc (pageAt chain last) heap = .ok heap' ∧
      Laid layout heap' (chain ++ [alloc.address]) hot words := by
  have at_last : chain[last]? = some (pageAt chain last) := getElem?_pageAt (by omega)
  obtain ⟨above, loads, on⟩ := laid.load at_last
  have nonnull : pageAt chain last ≠ 0 := laid.pageAt_ne (by omega : last < chain.length)
  have new_page : alloc.address ∉ chain := by
    intro mem
    obtain ⟨i, at_i⟩ := List.mem_iff_getElem?.mp mem
    obtain ⟨data, found, -⟩ := laid.pages i _ at_i
    rw [fresh.unused] at found
    cases found
  refine ⟨_, by rw [newPage, if_neg nonnull, loads]; rfl, ?_⟩
  refine ⟨?_, ?_, ?_, ?_, laid.low, laid.high, ?_⟩
  · exact List.nodup_append.mpr ⟨laid.distinct, List.nodup_singleton _, by
      rintro page mem _ here rfl
      exact new_page (List.mem_singleton.mp here ▸ mem)⟩
  · intro page mem
    rcases List.mem_append.mp mem with old | new
    · exact laid.placed page old
    · obtain rfl := List.mem_singleton.mp new
      exact ⟨fresh.nonnull, fresh.aligned⟩
  · intro i page at_i
    rcases Nat.lt_or_ge i chain.length with old | new
    · rw [List.getElem?_append_left old] at at_i
      have away : page ≠ alloc.address := fun same =>
        new_page (same ▸ List.mem_of_getElem? at_i)
      by_cases parent : i = last
      · subst parent
        obtain rfl := Option.some.inj (at_last.symm.trans at_i)
        refine ⟨{ above with child := alloc.address },
          (Function.update_of_ne away _ _).trans (Function.update_self ..), ?_⟩
        refine ⟨on.parent.trans (parentIn_append old.le).symm, ?_, on.next, on.slots⟩
        rw [at_end, pageAt_append_self]
      · obtain ⟨data, found, held⟩ := laid.pages i page at_i
        have other : page ≠ pageAt chain last := by
          rintro rfl
          exact parent (laid.index_eq at_i at_last)
        refine ⟨data, ((Function.update_of_ne away _ _).trans
          (Function.update_of_ne other _ _)).trans found, ?_⟩
        refine ⟨held.parent.trans (parentIn_append old.le).symm, ?_, held.next, held.slots⟩
        exact held.child.trans (pageAt_append _ (by omega)).symm
    · obtain ⟨small, rfl⟩ := List.getElem?_eq_some_iff.mp at_i
      obtain rfl : i = chain.length := by
        simp at small
        omega
      simp only [List.getElem_concat_length]
      refine ⟨_, Function.update_self .., ?_, ?_, ?_, fun j small => absurd small (Nat.not_lt_zero j)⟩
      · rw [parentIn_append le_rfl, ← at_end]
        rfl
      · exact (pageAt_end (by simp)).symm
      · exact (laid.empty_hotter laid.hot_lt).symm
  · simp
    have := laid.hot_lt
    omega
  · have := laid.counted
    simp [Heap.store]
    omega

/-! ## Deleting pages -/

theorem Laid.shrink {last : ℕ} (laid : Laid layout heap chain hot words)
    (at_end : chain.length = last + 2) (cold : hot ≤ last) :
    ∃ above, heap.load (pageAt chain last) = .ok above ∧
      Laid layout ((heap.store (pageAt chain last) { above with child := 0 }).free
        (pageAt chain (last + 1))) (chain.take (last + 1)) hot words := by
  obtain ⟨above, loads, on⟩ := laid.load (getElem?_pageAt (by omega : last < chain.length))
  refine ⟨above, loads, laid.distinct.sublist (List.take_sublist _ _), ?_, ?_, ?_, laid.low,
    laid.high, ?_⟩
  · exact fun page mem => laid.placed page (List.mem_of_mem_take mem)
  · intro i page taken
    rw [List.getElem?_take] at taken
    obtain ⟨small, at_i⟩ := Option.ite_none_right_eq_some.mp taken
    clear taken
    have kept : page ≠ pageAt chain (last + 1) := by
      rintro rfl
      have := laid.index_eq at_i (getElem?_pageAt (by omega))
      omega
    have same_parent : parentIn (chain.take (last + 1)) i = parentIn chain i :=
      parentIn_take (by omega)
    by_cases parent : i = last
    · subst parent
      obtain rfl := Option.some.inj ((getElem?_pageAt (by omega : i < chain.length)).symm.trans at_i)
      refine ⟨{ above with child := 0 },
        (Function.update_of_ne kept _ _).trans (Function.update_self ..), ?_⟩
      refine ⟨on.parent.trans same_parent.symm, ?_, on.next, on.slots⟩
      exact (pageAt_end (by simp)).symm
    · obtain ⟨data, found, held⟩ := laid.pages i page at_i
      have other : page ≠ pageAt chain last := by
        rintro rfl
        exact parent (laid.index_eq at_i (getElem?_pageAt (by omega)))
      refine ⟨data, ((Function.update_of_ne kept _ _).trans
        (Function.update_of_ne other _ _)).trans found, ?_⟩
      have same_child : pageAt (chain.take (last + 1)) (i + 1) = pageAt chain (i + 1) :=
        pageAt_take (by omega)
      exact ⟨held.parent.trans same_parent.symm, held.child.trans same_child.symm, held.next,
        held.slots⟩
  · simp
    omega
  · have := laid.counted
    simp [Heap.free, Heap.store]
    omega

theorem Laid.lastChild {last : ℕ} (laid : Laid layout heap chain hot words)
    (at_end : chain.length = last + 1) {i fuel : ℕ} (small : i ≤ last) (enough : last < i + fuel) :
    lastChild heap fuel (pageAt chain i) = .ok (pageAt chain last) := by
  induction fuel generalizing i with
  | zero => omega
  | succ fuel ih =>
      obtain ⟨data, loads, on⟩ := laid.load (getElem?_pageAt (by omega : i < chain.length))
      rw [Autorelease.lastChild, loads]
      rcases Nat.lt_or_eq_of_le small with colder | rfl
      · have child : data.child ≠ 0 := by
          rw [on.child]
          exact laid.pageAt_ne (by omega : i + 1 < chain.length)
        show (if data.child = 0 then _ else _) = _
        rw [if_neg child, on.child]
        exact ih colder (by omega)
      · have child : data.child = 0 := by
          rw [on.child, pageAt_end (by omega)]
        show (if data.child = 0 then _ else _) = _
        rw [if_pos child]
        rfl

/--
Deleting from the hottest page down to page `k`: the pages colder than `k` keep the words, when
the hot page is among them.
-/
theorem Laid.deleteUpTo {k : ℕ} (count : ℕ) (laid : Laid layout heap chain hot words)
    (at_end : chain.length = k + count + 1) (cold : hot ≤ k) {fuel : ℕ} (enough : count < fuel) :
    ∃ heap', deleteUpTo (pageAt chain k) fuel (pageAt chain (k + count)) heap = .ok heap' ∧
      (hot < k → Laid layout heap' (chain.take k) hot words) := by
  induction count generalizing heap chain fuel with
  | zero =>
      obtain ⟨fuel, rfl⟩ := Nat.exists_eq_add_of_lt enough
      obtain ⟨data, loads, on⟩ := laid.load (getElem?_pageAt (by omega : k < chain.length))
      cases k with
      | zero =>
          have parent : data.parent = 0 := on.parent
          refine ⟨heap.free (pageAt chain 0), ?_, fun h => absurd h (Nat.not_lt_zero _)⟩
          simp [Autorelease.deleteUpTo, loads, parent, bind, Except.bind, pure, Except.pure]
      | succ last =>
          have parent : data.parent = pageAt chain last := on.parent
          have nonnull : pageAt chain last ≠ 0 := laid.pageAt_ne (by omega : last < chain.length)
          obtain ⟨above, loads_above, _⟩ :=
            laid.load (getElem?_pageAt (by omega : last < chain.length))
          refine ⟨(heap.store (pageAt chain last) { above with child := 0 }).free
            (pageAt chain (last + 1)), ?_, ?_⟩
          · simp [Autorelease.deleteUpTo, loads, parent, nonnull, loads_above, bind, Except.bind,
              pure, Except.pure]
          · intro colder
            obtain ⟨above', loads', kept⟩ := laid.shrink (by omega) (Nat.lt_succ_iff.mp colder)
            obtain rfl := Except.ok.inj (loads_above.symm.trans loads')
            exact kept
  | succ count ih =>
      obtain ⟨fuel, rfl⟩ := Nat.exists_eq_add_of_lt enough
      obtain ⟨data, loads, on⟩ := laid.load (getElem?_pageAt (by omega : k + count + 1 < chain.length))
      have parent : data.parent = pageAt chain (k + count) := on.parent
      have nonnull : pageAt chain (k + count) ≠ 0 := laid.pageAt_ne (by omega)
      have away : pageAt chain (k + count + 1) ≠ pageAt chain k := by
        intro same
        have at_last := getElem?_pageAt (by omega : k + count + 1 < chain.length)
        rw [same] at at_last
        have := laid.index_eq at_last (getElem?_pageAt (by omega : k < chain.length))
        omega
      obtain ⟨above, loads_above, kept⟩ := laid.shrink (by omega) (by omega : hot ≤ k + count)
      obtain ⟨heap', deletes, after⟩ := ih kept (by simp; omega) (by omega : count < count + 1 + fuel)
      rw [pageAt_take (by omega), pageAt_take (by omega)] at deletes
      refine ⟨heap', ?_, fun colder => ?_⟩
      · rw [← deletes]
        simp [Autorelease.deleteUpTo, loads, parent, nonnull, loads_above, away, bind, Except.bind,
          pure, Except.pure, ← Nat.add_assoc]
      · simpa [List.take_take, Nat.min_eq_left (by omega : k ≤ k + count + 1)] using after colder

theorem Laid.kill {k : ℕ} (laid : Laid layout heap chain hot words) (cold : hot ≤ k)
    (small : k < chain.length) :
    ∃ heap', kill (pageAt chain k) heap = .ok heap' ∧
      (hot < k → Laid layout heap' (chain.take k) hot words) := by
  obtain ⟨count, at_end⟩ := Nat.exists_eq_add_of_lt small
  have counted := laid.counted
  have last := laid.lastChild at_end (by omega : k ≤ k + count) (by omega : k + count < k + heap.live)
  obtain ⟨heap', deletes, after⟩ := laid.deleteUpTo count at_end cold (by omega : count < heap.live)
  refine ⟨heap', ?_, after⟩
  rw [Autorelease.kill, last]
  exact deletes

/-! ## Walking the chain -/

theorem Laid.topParent {i fuel : ℕ} (laid : Laid layout heap chain hot words)
    (small : i < chain.length) (enough : i < fuel) :
    topParent heap fuel (pageAt chain i) = .ok (pageAt chain 0) := by
  induction i generalizing fuel with
  | zero =>
      obtain ⟨fuel, rfl⟩ := Nat.exists_eq_add_of_lt enough
      obtain ⟨data, loads, on⟩ := laid.load (getElem?_pageAt small)
      have parent : data.parent = 0 := on.parent
      simp [Autorelease.topParent, loads, parent, bind, Except.bind, pure, Except.pure]
  | succ i ih =>
      obtain ⟨fuel, rfl⟩ := Nat.exists_eq_add_of_lt enough
      obtain ⟨data, loads, on⟩ := laid.load (getElem?_pageAt small)
      have parent : data.parent = pageAt chain i := on.parent
      have nonnull : pageAt chain i ≠ 0 := laid.pageAt_ne (by omega)
      rw [Autorelease.topParent, loads]
      show (if data.parent = 0 then _ else _) = _
      rw [parent, if_neg nonnull]
      exact ih (by omega) (by omega)

theorem Laid.raiseHiwat {i fuel : ℕ} (laid : Laid layout heap chain hot words) (mark : ℕ)
    (small : i ≤ chain.length) (enough : i < fuel) :
    ∃ heap', raiseHiwat mark fuel (parentIn chain i) heap = .ok heap' ∧
      Laid layout heap' chain hot words := by
  induction i generalizing fuel heap with
  | zero =>
      obtain ⟨fuel, rfl⟩ := Nat.exists_eq_add_of_lt enough
      exact ⟨heap, rfl, laid⟩
  | succ i ih =>
      obtain ⟨fuel, rfl⟩ := Nat.exists_eq_add_of_lt enough
      obtain ⟨data, loads, on⟩ := laid.load (getElem?_pageAt (by omega : i < chain.length))
      have nonnull : pageAt chain i ≠ 0 := laid.pageAt_ne (by omega)
      have marked : Laid layout (heap.store (pageAt chain i) { data with hiwat := mark }) chain hot
          words :=
        laid.store (getElem?_pageAt (by omega)) ⟨on.parent, on.child, on.next, on.slots⟩
          (fun _ _ _ held => held) laid.hot_lt laid.low laid.high
      obtain ⟨heap', raises, after⟩ := ih marked (by omega) (by omega : i < i + 1 + fuel)
      refine ⟨heap', ?_, after⟩
      rw [Autorelease.raiseHiwat, parentIn, if_neg nonnull, loads]
      show Autorelease.raiseHiwat mark (i + 1 + fuel) data.parent _ = _
      rw [← show data.parent = parentIn chain i from on.parent] at raises
      exact raises

theorem Laid.nextPage {alloc : Allocation} (laid : Laid layout heap chain hot words)
    (fresh : alloc.Fresh layout heap) (full : words.length = (hot + 1) * layout.capacity) :
    ∃ chain' heap', nextPage layout alloc heap.live (pageAt chain hot) heap =
        .ok (pageAt chain' (hot + 1), heap') ∧
      Laid layout heap' chain' (hot + 1) words ∧
      (chain' = chain ∨ chain' = chain ++ [alloc.address]) := by
  have counted := laid.counted
  have hot_lt := laid.hot_lt
  obtain ⟨fuel, live⟩ := Nat.exists_eq_add_of_lt (by omega : 0 < heap.live)
  obtain ⟨data, loads, on⟩ := laid.load laid.at_hot
  have above : words.length ≤ (hot + 1 + 1) * layout.capacity := by
    rw [Nat.succ_mul, ← full]
    omega
  have empty_page {chain : List ℕ} {heap : Heap} (laid : Laid layout heap chain hot words)
      (more : hot + 1 < chain.length) :
      ∃ data, heap.load (pageAt chain (hot + 1)) = .ok data ∧ layout.full data = false := by
    obtain ⟨data, loads, on⟩ := laid.load (getElem?_pageAt more)
    refine ⟨data, loads, ?_⟩
    have empty := on.next.trans (laid.empty_hotter (Nat.lt_succ_self hot))
    have := layout.capacity_pos
    exact decide_eq_false (by omega)
  rw [live]
  rcases Nat.lt_or_eq_of_le (Nat.succ_le_of_lt hot_lt) with more | last
  · have child : pageAt chain (hot + 1) ≠ 0 := laid.pageAt_ne more
    obtain ⟨next, loads_next, not_full⟩ := empty_page laid more
    refine ⟨chain, heap, ?_, laid.moveHot more full.ge above, .inl rfl⟩
    simp only [Autorelease.nextPage, loads, bind, Except.bind, on.child, child, ne_eq,
      not_false_eq_true, if_true, pure, Except.pure, loads_next, not_full, Bool.false_eq_true,
      if_false]
  · have child : data.child = 0 := by
      rw [on.child, pageAt_end last.ge]
    obtain ⟨heap', creates, grown⟩ := laid.grow fresh last
    have more : hot + 1 < (chain ++ [alloc.address]).length := by
      simp
      omega
    have new_page : pageAt (chain ++ [alloc.address]) (hot + 1) = alloc.address := by
      rw [show hot + 1 = chain.length from last, pageAt_append_self]
    obtain ⟨next, loads_next, not_full⟩ := empty_page grown more
    rw [new_page] at loads_next
    refine ⟨_, heap', ?_, grown.moveHot more full.ge above, .inr rfl⟩
    simp only [Autorelease.nextPage, loads, bind, Except.bind, child, ne_eq, not_true_eq_false,
      if_false, creates, pure, Except.pure, loads_next, not_full, Bool.false_eq_true, new_page]

theorem Laid.climb_here (pool : Pool) {fuel : ℕ} (laid : Laid layout pool.heap chain hot words)
    (some_words : hot * layout.capacity < words.length) :
    climb (fuel + 1) (pageAt chain hot) pool = .ok (0, pageAt chain hot, pool) := by
  obtain ⟨data, loads, on⟩ := laid.load laid.at_hot
  have next := on.next.trans laid.fill_hot
  have nonempty : data.empty = false := decide_eq_false (by omega)
  simp [climb, loads, nonempty, bind, Except.bind, pure, Except.pure]

theorem Laid.climb_parent {pool : Pool} (fuel : ℕ)
    (laid : Laid layout pool.heap chain (hot + 1) words)
    (emptied : words.length = (hot + 1) * layout.capacity) :
    climb (fuel + 2) (pageAt chain (hot + 1)) pool =
        .ok (1, pageAt chain hot, pool.setHotPage (pageAt chain hot)) ∧
      Laid layout pool.heap chain hot words ∧ hot * layout.capacity < words.length := by
  have capacity := layout.capacity_pos
  have hot_lt := laid.hot_lt
  have some_words : hot * layout.capacity < words.length := by
    rw [emptied, Nat.succ_mul]
    omega
  have colder : Laid layout pool.heap chain hot words :=
    laid.moveHot (by omega) some_words.le emptied.le
  obtain ⟨data, loads, on⟩ := laid.load laid.at_hot
  have next := on.next.trans laid.fill_hot
  have empty : data.empty = true := decide_eq_true (by omega)
  have parent : data.parent = pageAt chain hot := on.parent
  have rest : climb (fuel + 1) (pageAt chain hot) (pool.setHotPage (pageAt chain hot)) =
      .ok (0, pageAt chain hot, pool.setHotPage (pageAt chain hot)) :=
    Laid.climb_here (pool.setHotPage _) colder some_words
  refine ⟨?_, colder, some_words⟩
  rw [climb, loads]
  simp only [bind, Except.bind, empty, if_true, parent, rest, pure, Except.pure]

/--
The search for the hottest word steps to a parent at most once, because the pages colder than the
hot page are full, and it ends on a page that is not empty.
-/
theorem Laid.climb {pool : Pool} (laid : Laid layout pool.heap chain hot words)
    (tls : pool.tls = pageAt chain hot) (some_words : 0 < words.length) :
    ∃ steps hot' pool', climb pool.heap.live (pageAt chain hot) pool =
        .ok (steps, pageAt chain hot', pool') ∧ steps ≤ 1 ∧ pool'.heap = pool.heap ∧
      pool'.tls = pageAt chain hot' ∧ Laid layout pool.heap chain hot' words ∧
      hot' * layout.capacity < words.length := by
  have counted := laid.counted
  have hot_lt := laid.hot_lt
  rcases Nat.lt_or_eq_of_le laid.low with here | emptied
  · obtain ⟨fuel, live⟩ := Nat.exists_eq_add_of_lt (by omega : 0 < pool.heap.live)
    rw [live, Nat.zero_add]
    exact ⟨0, hot, pool, laid.climb_here pool here, Nat.zero_le 1, rfl, tls, laid, here⟩
  · cases hot with
    | zero => omega
    | succ hot =>
        obtain ⟨fuel, live⟩ := Nat.exists_eq_add_of_lt (by omega : 1 < pool.heap.live)
        obtain ⟨steps, colder, here⟩ := laid.climb_parent fuel emptied.symm
        rw [live, show 1 + fuel + 1 = fuel + 2 by omega]
        exact ⟨1, hot, _, steps, le_rfl, rfl, rfl, colder, here⟩

/-! ## Tokens -/

/-- The address of the word at a height of the pool. -/
def tokenAt (layout : Layout) (chain : List ℕ) (n : ℕ) : ℕ :=
  layout.slotAddress (pageAt chain (n / layout.capacity)) (n % layout.capacity)

section Address

variable {page index : ℕ}

theorem slotAddress_lt (layout : Layout) (small : index < layout.capacity) :
    layout.header + layout.wordSize * index < layout.size := by
  have := layout.fills
  have := Nat.mul_lt_mul_of_pos_left small layout.wordSize_pos
  omega

theorem slotAddress_mod (aligned : layout.size ∣ page) (small : index < layout.capacity) :
    layout.slotAddress page index % layout.size = layout.header + layout.wordSize * index := by
  obtain ⟨n, rfl⟩ := aligned
  rw [Layout.slotAddress, Nat.add_assoc, Nat.mul_add_mod, Nat.mod_eq_of_lt (slotAddress_lt layout small)]

theorem pageForPointer_slotAddress (aligned : layout.size ∣ page) (small : index < layout.capacity) :
    layout.pageForPointer (layout.slotAddress page index) = page := by
  rw [Layout.pageForPointer, slotAddress_mod aligned small, Layout.slotAddress]
  omega

theorem slotIndex_slotAddress (aligned : layout.size ∣ page) (small : index < layout.capacity) :
    layout.slotIndex (layout.slotAddress page index) = index := by
  rw [Layout.slotIndex, slotAddress_mod aligned small, Nat.add_sub_cancel_left,
    Nat.mul_div_cancel_left _ layout.wordSize_pos]

theorem slotAddress_inj {other : ℕ} :
    layout.slotAddress page index = layout.slotAddress page other ↔ index = other := by
  have := layout.wordSize_pos
  simp only [Layout.slotAddress, Nat.add_left_cancel_iff]
  exact Nat.mul_right_inj this.ne'

theorem slotAddress_ne_placeholder (page index : ℕ) :
    layout.slotAddress page index ≠ emptyPoolPlaceholder := by
  have := layout.header_pos
  rw [Layout.slotAddress, emptyPoolPlaceholder]
  omega

end Address

theorem Laid.pageAt_ne_placeholder {i : ℕ} (laid : Laid layout heap chain hot words)
    (small : i < chain.length) : pageAt chain i ≠ emptyPoolPlaceholder := by
  obtain ⟨nonnull, aligned⟩ := laid.placed _ (pageAt_mem small)
  have := Nat.le_of_dvd (Nat.pos_of_ne_zero nonnull) aligned
  have := layout.fills
  have := layout.header_pos
  have : 0 < layout.wordSize * layout.capacity :=
    Nat.mul_pos layout.wordSize_pos layout.capacity_pos
  rw [emptyPoolPlaceholder]
  omega

theorem Laid.word_at {n word : ℕ} (laid : Laid layout heap chain hot words)
    (at_n : words[n]? = some word) :
    ∃ data, heap.load (pageAt chain (n / layout.capacity)) = .ok data ∧
      OnPage layout chain words (n / layout.capacity) data ∧
      data.slots (n % layout.capacity) = word := by
  have capacity := layout.capacity_pos
  have small := (List.getElem?_eq_some_iff.mp at_n).1
  have split := Nat.div_add_mod n layout.capacity
  rw [Nat.mul_comm] at split
  have in_page := Nat.mod_lt n capacity
  have page_lt : n / layout.capacity < hot + 1 :=
    (Nat.div_lt_iff_lt_mul capacity).mpr (small.trans_le laid.high)
  obtain ⟨data, loads, on⟩ :=
    laid.load (getElem?_pageAt ((Nat.lt_succ_iff.mp page_lt).trans_lt laid.hot_lt))
  have inside : n % layout.capacity < data.next := by
    rw [on.next, fill]
    omega
  have held := on.slots _ inside
  rw [split, at_n] at held
  exact ⟨data, loads, on, (Option.some.inj held).symm⟩

end ObjcDyld.Autorelease
