import ObjcDyld.Common.HashDisplace
import ObjcDyld.ObjcTables.PerfectHashes

/-!
# The mapping of pairs

`inittab` sorts the keys by `b` and `perfect` places them: a search of `augment` that finds a
value without collisions always applies, so nothing is ever rolled back.
-/

namespace ObjcDyld.ObjcTables

open HashDisplace (Placed fill)

variable {pairs : Pairs} {scramble : ℕ → BitVec 32}

/-- The table of keys by `b` that `inittab` leaves. -/
structure Sorted (pairs : Pairs) (count : ℕ) (tabb : Tabb) : Prop where
  mem : ∀ b key, key ∈ (tabb b).listB ↔ key < count ∧ pairs.bK key = b
  distinct : ∀ b, ((tabb b).listB.map pairs.aK).Nodup
  length : ∀ b, (tabb b).listlenB = (tabb b).listB.length
  valB : ∀ b, (tabb b).valB = 0

theorem Sorted.inittabKey {count : ℕ} {tabb next : Tabb} (sorted : Sorted pairs count tabb)
    (run : inittabKey pairs tabb count = some next) : Sorted pairs (count + 1) next := by
  unfold ObjcTables.inittabKey at run
  simp only at run
  split at run
  · exact absurd run (by simp)
  · next apart =>
      obtain rfl := Option.some.inj run
      have fresh : pairs.aK count ∉ (tabb (pairs.bK count)).listB.map pairs.aK := by
        intro inside
        obtain ⟨other, member, same⟩ := List.mem_map.mp inside
        exact apart (List.any_eq_true.mpr ⟨other, member, by simp [same]⟩)
      constructor
      · intro b key
        by_cases own : b = pairs.bK count
        · subst own
          simp only [Function.update_self, List.mem_cons, sorted.mem]
          constructor
          · rintro (rfl | ⟨less, same⟩)
            · exact ⟨by omega, rfl⟩
            · exact ⟨by omega, same⟩
          · rintro ⟨less, same⟩
            exact (Nat.lt_succ_iff_lt_or_eq.mp less).symm.imp_right fun less => ⟨less, same⟩
        · rw [Function.update_of_ne own, sorted.mem]
          refine and_congr_left fun same => ?_
          have other : key ≠ count := fun eq => own (eq ▸ same.symm)
          omega
      · intro b
        by_cases own : b = pairs.bK count
        · subst own
          simpa using ⟨by simpa using fresh, sorted.distinct _⟩
        · simpa [Function.update_of_ne own] using sorted.distinct b
      · intro b
        by_cases own : b = pairs.bK count
        · subst own
          simp [sorted.length]
        · simpa [Function.update_of_ne own] using sorted.length b
      · intro b
        by_cases own : b = pairs.bK count
        · subst own
          simpa using sorted.valB _
        · simpa [Function.update_of_ne own] using sorted.valB b

theorem sorted_of_foldlM {count : ℕ} {tabb : Tabb}
    (run : (List.range count).foldlM (inittabKey pairs) (fun _ => ⟨0, [], 0, 0⟩) = some tabb) :
    Sorted pairs count tabb := by
  induction count generalizing tabb with
  | zero =>
      obtain rfl := Option.some.inj run
      exact ⟨by simp, by simp, by simp, by simp⟩
  | succ count ih =>
      rw [List.range_succ, List.foldlM_append] at run
      obtain ⟨middle, before, last⟩ := Option.bind_eq_some_iff.mp run
      exact (ih before).inittabKey (by simpa using last)

theorem inittab_sorted {count : ℕ} {tabb : Tabb} (run : inittab pairs count = some tabb) :
    count < 2 ^ 32 ∧ Sorted pairs count tabb := by
  unfold inittab at run
  split at run
  · exact absurd run (by simp)
  · next small => exact ⟨Nat.lt_of_not_le small, sorted_of_foldlM run⟩

/-- The hash of a key under a value of its `b`. -/
def hashUnder (pairs : Pairs) (scramble : ℕ → BitVec 32) (valB : ℕ) (key : ℕ) : BitVec 32 :=
  pairs.aK key ^^^ scramble valB

/-- The tables while the `b`s of a set are mapped. -/
structure Mapped (pairs : Pairs) (scramble : ℕ → BitVec 32) (keysOf : ℕ → List ℕ) (mapped : Set ℕ)
    (tables : Tables) : Prop where
  lists : ∀ b, (tables.tabb b).listB = keysOf b
  small : ∀ b, (tables.tabb b).valB < 256
  placed : Placed keysOf (hashUnder pairs scramble) (fun b => (tables.tabb b).valB) mapped tables.tabh

theorem eraseHashes_eq {stabb : BitVec 32} {tabh : Tabh} {list : List ℕ}
    (absent : ∀ mykey ∈ list, ∀ hash, tabh hash ≠ some mykey) : eraseHashes pairs stabb tabh list = tabh := by
  unfold eraseHashes
  induction list with
  | nil => rfl
  | cons mykey rest ih =>
      rw [List.foldl_cons, if_neg (absent mykey List.mem_cons_self _)]
      exact ih fun other inside => absent other (List.mem_cons_of_mem mykey inside)

theorem setHashes_eq {stabb : BitVec 32} {parent : ℕ} {tabh : Tabh} {list : List ℕ}
    (free : ∀ mykey ∈ list, tabh (pairs.aK mykey ^^^ stabb) = none) (distinct : (list.map pairs.aK).Nodup) :
    setHashes pairs stabb false parent list tabh =
      (true, fill (fun mykey => pairs.aK mykey ^^^ stabb) list tabh) := by
  induction list generalizing tabh with
  | nil => rfl
  | cons mykey rest ih =>
      rw [List.map_cons, List.nodup_cons] at distinct
      have later : ∀ other ∈ rest, pairs.aK other ^^^ stabb ≠ pairs.aK mykey ^^^ stabb := by
        intro other inside same
        exact distinct.1 (BitVec.xor_left_inj stabb |>.mp same ▸ List.mem_map_of_mem inside)
      rw [setHashes, if_neg (by simp), if_neg (by simp [free mykey List.mem_cons_self]), ih ?_ distinct.2]
      · rfl
      · intro other inside
        rw [Function.update_of_ne (later other inside)]
        exact free other (List.mem_cons_of_mem mykey inside)

theorem childOf_eq_none {smax highwater i : ℕ} {tables : Tables} {list : List ℕ} {childb : Option ℕ}
    (run : childOf pairs scramble smax highwater tables i list childb = some none) :
    childb = none ∧ ∀ mykey ∈ list, tables.tabh (pairs.aK mykey ^^^ scramble i) = none := by
  induction list generalizing childb with
  | nil =>
      obtain rfl := Option.some.inj run
      simp
  | cons mykey rest ih =>
      rw [childOf] at run
      simp only at run
      split at run
      · exact absurd run (by simp)
      · split at run
        · next free =>
            obtain ⟨none_hit, others⟩ := ih run
            refine ⟨none_hit, fun other inside => ?_⟩
            rcases List.mem_cons.mp inside with rfl | later
            · exact free
            · exact others other later
        · split at run
          · split at run
            · exact absurd run (by simp)
            · exact absurd (ih run).1 (by simp)
          · split at run
            · exact absurd run (by simp)
            · exact absurd (ih run).1 (by simp)

variable {keysOf : ℕ → List ℕ} {mapped : Set ℕ} {item : ℕ}

/-- What `augment` needs to know of the keys: no two of a `b` share an `a`, and no `b`s share a key. -/
structure Bucketed (pairs : Pairs) (keysOf : ℕ → List ℕ) : Prop where
  distinct : ∀ b, ((keysOf b).map pairs.aK).Nodup
  disjoint : ∀ b other key, key ∈ keysOf b → key ∈ keysOf other → other = b

theorem listB_update (tabb : Tabb) (item : ℕ) (entry : BStuff) (same : entry.listB = (tabb item).listB) (b : ℕ) :
    (Function.update tabb item entry b).listB = (tabb b).listB := by
  by_cases own : b = item
  · rw [own, Function.update_self, same]
  · rw [Function.update_of_ne own]

theorem valB_update (tabb : Tabb) (item : ℕ) (entry : BStuff) :
    (fun b => (Function.update tabb item entry b).valB) =
      Function.update (fun b => (tabb b).valB) item entry.valB := by
  funext b
  by_cases own : b = item
  · rw [own, Function.update_self, Function.update_self]
  · rw [Function.update_of_ne own, Function.update_of_ne own]

theorem apply_mapped (tabq : ℕ → QStuff) {tables : Tables} {tail i oldval : ℕ}
    (state : Mapped pairs scramble keysOf mapped tables) (bucketed : Bucketed pairs keysOf) (fresh : item ∉ mapped)
    (root : (tabq 0).bQ = some item) (child : tabq tail = ⟨none, 0, i, oldval⟩) (behind : tail ≠ 0) (small : i < 256)
    (free : ∀ mykey ∈ keysOf item, tables.tabh (pairs.aK mykey ^^^ scramble i) = none) :
    ∃ applied, apply pairs scramble tabq (tail + 1) tables = (true, applied) ∧
      Mapped pairs scramble keysOf (insert item mapped) applied := by
  have erased := @eraseHashes_eq pairs (scramble (tables.tabb item).valB) tables.tabh (keysOf item)
    fun mykey inside hash => state.placed.ne_of_notMem fresh (bucketed.disjoint item) inside hash
  have set := @setHashes_eq pairs (scramble i) 0 tables.tabh (keysOf item) free (bucketed.distinct item)
  have place := state.placed.place fresh i free (by
    have injective : Function.Injective (· ^^^ scramble i) := fun _ _ => (BitVec.xor_left_inj (scramble i)).mp
    have distinct := (bucketed.distinct item).map injective
    rwa [List.map_map] at distinct)
  refine ⟨⟨Function.update tables.tabb item { tables.tabb item with valB := i },
    fill (hashUnder pairs scramble i) (keysOf item) tables.tabh⟩, ?_, ?_, ?_, ?_⟩
  · have walk : applyWalk pairs scramble tabq false (tail + 1) tail tables =
        (true, ⟨Function.update tables.tabb item { tables.tabb item with valB := i },
          fill (hashUnder pairs scramble i) (keysOf item) tables.tabh⟩) := by
      simp only [applyWalk, if_neg behind, child, root, state.lists, erased, Bool.false_eq_true, if_false,
        Function.update_self, set]
      cases tail with
      | zero => exact absurd rfl behind
      | succ tail => rfl
    simp [apply, walk]
  · exact fun b => (listB_update tables.tabb item { tables.tabb item with valB := i } rfl b).trans (state.lists b)
  · intro b
    rw [congrFun (valB_update tables.tabb item _) b]
    by_cases own : b = item
    · rwa [own, Function.update_self]
    · rw [Function.update_of_ne own]
      exact state.small b
  · rw [valB_update]
    exact place

theorem augmentValues_mapped {smax highwater : ℕ} (bucketed : Bucketed pairs keysOf) (fresh : item ∉ mapped)
    (values : List ℕ) (small : ∀ i ∈ values, i < 256) (state : Augmenting)
    (before : Mapped pairs scramble keysOf mapped state.tables) (root : (state.tabq 0).bQ = some item)
    (behind : state.tail ≠ 0) {next : Tables}
    (run : augmentValues pairs scramble smax item highwater values state = some next) :
    Mapped pairs scramble keysOf (insert item mapped) next := by
  induction values generalizing state with
  | nil => exact absurd run (by simp [augmentValues])
  | cons i rest ih =>
      have later : ∀ j ∈ rest, j < 256 := fun j inside => small j (List.mem_cons_of_mem i inside)
      rw [augmentValues] at run
      split at run
      · exact ih later state before root behind run
      · next childb walked =>
          cases childb with
          | some b =>
              have values : (fun other => (Function.update state.tables.tabb b
                  { state.tables.tabb b with waterB := highwater } other).valB) =
                    fun other => (state.tables.tabb other).valB :=
                (valB_update _ _ _).trans (Function.update_eq_self b _)
              refine ih later _ ⟨?_, ?_, ?_⟩ ?_ (Nat.succ_ne_zero _) run
              · exact fun other => (listB_update state.tables.tabb b
                  { state.tables.tabb b with waterB := highwater } rfl other).trans (before.lists other)
              · exact fun other => (congrFun values other).trans_lt (before.small other)
              · simp only [values]
                exact before.placed
              · simpa [Function.update_of_ne behind.symm] using root
          | none =>
              rw [before.lists] at walked
              obtain ⟨applied, eq, mapped⟩ := apply_mapped
                (Function.update state.tabq state.tail ⟨none, 0, i, (state.tables.tabb item).valB⟩) before bucketed
                fresh (by rwa [Function.update_of_ne behind.symm]) (Function.update_self _ _ _) behind
                (small i List.mem_cons_self) (childOf_eq_none walked).2
              simp only [eq] at run
              obtain rfl := Option.some.inj run
              exact mapped

theorem augment_mapped {smax : ℕ} {tabq : ℕ → QStuff} {tables next : Tables} (bucketed : Bucketed pairs keysOf)
    (fresh : item ∉ mapped) (before : Mapped pairs scramble keysOf mapped tables)
    (run : augment pairs scramble smax tabq tables item = some next) :
    Mapped pairs scramble keysOf (insert item mapped) next :=
  augmentValues_mapped bucketed fresh (List.range 256) (fun _ inside => List.mem_range.mp inside)
    ⟨tables, Function.update tabq 0 { tabq 0 with bQ := some item }, 1⟩ before
    (by simp) one_ne_zero run

theorem le_foldl_max (length : ℕ → ℕ) (list : List ℕ) (start : ℕ) :
    start ≤ list.foldl (fun greatest i => max greatest (length i)) start ∧
      ∀ i ∈ list, length i ≤ list.foldl (fun greatest i => max greatest (length i)) start := by
  induction list generalizing start with
  | nil => simp
  | cons first rest ih =>
      obtain ⟨start_le, each⟩ := ih (max start (length first))
      refine ⟨(le_max_left _ _).trans start_le, fun i inside => ?_⟩
      rcases List.mem_cons.mp inside with rfl | later
      · exact (le_max_right _ _).trans start_le
      · exact each i later

theorem mem_schedule {tabb : Tabb} {blen b : ℕ} :
    b ∈ schedule tabb blen ↔ b < blen ∧ 0 < (tabb b).listlenB := by
  simp only [schedule, List.mem_flatMap, List.mem_reverse, List.mem_range, List.mem_filter, decide_eq_true_eq]
  constructor
  · rintro ⟨j, -, bound, length⟩
    exact ⟨bound, by omega⟩
  · rintro ⟨bound, positive⟩
    have le := (le_foldl_max (fun i => (tabb i).listlenB) (List.range blen) 0).2 b (List.mem_range.mpr bound)
    exact ⟨(tabb b).listlenB - 1, by omega, bound, by omega⟩

theorem schedule_nodup (tabb : Tabb) (blen : ℕ) : (schedule tabb blen).Nodup := by
  refine List.nodup_flatMap.mpr ⟨fun j _ => List.nodup_range.filter _, ?_⟩
  refine (List.nodup_reverse.mpr List.nodup_range).imp ?_
  intro j k different b inside inside'
  have length := (List.mem_filter.mp inside).2
  have length' := (List.mem_filter.mp inside').2
  simp only [decide_eq_true_eq] at length length'
  omega

theorem Sorted.bucketed {count : ℕ} {tabb : Tabb} (sorted : Sorted pairs count tabb) :
    Bucketed pairs fun b => (tabb b).listB where
  distinct := sorted.distinct
  disjoint b other key inside inside' := by
    rw [← ((sorted.mem b key).mp inside).2, ← ((sorted.mem other key).mp inside').2]

theorem foldlM_augment_mapped {smax : ℕ} {tabq : ℕ → QStuff} (bucketed : Bucketed pairs keysOf) (items : List ℕ)
    (distinct : items.Nodup) {start tables : Tables} (before : Mapped pairs scramble keysOf ∅ start)
    (run : items.foldlM (augment pairs scramble smax tabq) start = some tables) :
    Mapped pairs scramble keysOf {b | b ∈ items} tables := by
  induction items using List.reverseRecOn generalizing tables with
  | nil =>
      obtain rfl := Option.some.inj run
      simpa using before
  | append_singleton done item ih =>
      rw [List.foldlM_append] at run
      obtain ⟨middle, before_run, last⟩ := Option.bind_eq_some_iff.mp run
      obtain ⟨distinct_done, -, apart⟩ := List.nodup_append.mp distinct
      have fresh : item ∉ {b | b ∈ done} := fun inside => apart item inside item (by simp) rfl
      have mapped := augment_mapped bucketed fresh (ih distinct_done before_run) (by simpa using last)
      convert mapped using 1
      ext b
      simp [or_comm]

theorem perfect_mapped {count smax blen : ℕ} {tabb : Tabb} {tables : Tables} (sorted : Sorted pairs count tabb)
    (run : perfect pairs scramble smax blen tabb = some tables) :
    Mapped pairs scramble (fun b => (tabb b).listB) {b | b < blen ∧ 0 < (tabb b).listlenB} tables := by
  have start : Mapped pairs scramble (fun b => (tabb b).listB) ∅ ⟨tabb, fun _ => none⟩ :=
    ⟨fun _ => rfl, fun b => by simp [sorted.valB b], HashDisplace.placed_empty _⟩
  have mapped := foldlM_augment_mapped sorted.bucketed _ (schedule_nodup tabb blen) start run
  simpa only [mem_schedule] using mapped

theorem Mapped.injective {count blen : ℕ} {tabb : Tabb} {tables : Tables} (sorted : Sorted pairs count tabb)
    (mapped : Mapped pairs scramble (fun b => (tabb b).listB) {b | b < blen ∧ 0 < (tabb b).listlenB} tables)
    (bounds : ∀ key, pairs.bK key < blen) {key key' : ℕ} (bound : key < count) (bound' : key' < count)
    (same : hashUnder pairs scramble (tables.tabb (pairs.bK key)).valB key =
      hashUnder pairs scramble (tables.tabb (pairs.bK key')).valB key') : key = key' := by
  have inside : ∀ {key}, key < count → key ∈ (tabb (pairs.bK key)).listB := fun bound =>
    (sorted.mem _ _).mpr ⟨bound, rfl⟩
  have member : ∀ {key}, key < count → pairs.bK key ∈ {b | b < blen ∧ 0 < (tabb b).listlenB} := fun bound =>
    ⟨bounds _, by rw [sorted.length]; exact List.length_pos_of_mem (inside bound)⟩
  exact mapped.placed.injective (member bound) (member bound') (inside bound) (inside bound') same

end ObjcDyld.ObjcTables
