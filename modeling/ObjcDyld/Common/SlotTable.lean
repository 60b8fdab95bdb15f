import ObjcDyld.Common.CyclicProbe

/-!
# Tables of slots

Facts about an array of cells some of which hold a key: how many are occupied,
what is stored, and how both change when one cell is filled or cleared.  On top
of them stand the two ways an open-addressing table keeps a key findable: at a
bounded displacement from its home slot, or behind an unbroken run of occupied
slots.
-/

namespace ObjcDyld.Probing

open Function (update update_self update_of_ne)

variable {α K : Type*} (keyOf : α → Option K)

def occupancy (size : ℕ) (cells : ℕ → α) : ℕ :=
  ((Finset.range size).filter fun i => (keyOf (cells i)).isSome).card

/-- The occupied cells' values. -/
def contents (size : ℕ) (cells : ℕ → α) : Set α :=
  {a | (keyOf a).isSome ∧ ∃ i, i < size ∧ cells i = a}

/-- No two cells hold equivalent keys. -/
def Distinct (same : K → K → Prop) (size : ℕ) (cells : ℕ → α) : Prop :=
  ∀ i j, i < size → j < size → ∀ k l, keyOf (cells i) = some k → keyOf (cells j) = some l →
    same k l → i = j

variable {keyOf} {size : ℕ} {cells : ℕ → α}

theorem mem_contents {i : ℕ} (hi : i < size) {k : K} (held : keyOf (cells i) = some k) :
    cells i ∈ contents keyOf size cells :=
  ⟨by simp [held], i, hi, rfl⟩

theorem occupancy_le : occupancy keyOf size cells ≤ size := by
  have bound := Finset.card_filter_le (Finset.range size) fun i => (keyOf (cells i)).isSome
  rwa [Finset.card_range] at bound

theorem occupancy_zero (free : ∀ i, i < size → keyOf (cells i) = none) :
    occupancy keyOf size cells = 0 := by
  rw [occupancy, Finset.card_eq_zero, Finset.filter_eq_empty_iff]
  intro i hi
  simp [free i (Finset.mem_range.mp hi)]

theorem exists_free (room : occupancy keyOf size cells < size) :
    ∃ i, i < size ∧ keyOf (cells i) = none := by
  by_contra full
  simp only [not_exists, not_and] at full
  have all : (Finset.range size).filter (fun i => (keyOf (cells i)).isSome) = Finset.range size := by
    rw [Finset.filter_eq_self]
    intro i hi
    exact Option.isSome_iff_ne_none.mpr (full i (Finset.mem_range.mp hi))
  rw [occupancy, all, Finset.card_range] at room
  exact Nat.lt_irrefl _ room

theorem occupancy_fill {i : ℕ} (hi : i < size) (free : keyOf (cells i) = none) {a : α} {k : K}
    (held : keyOf a = some k) :
    occupancy keyOf size (update cells i a) = occupancy keyOf size cells + 1 := by
  have grown : (Finset.range size).filter (fun j => (keyOf (update cells i a j)).isSome) =
      insert i ((Finset.range size).filter fun j => (keyOf (cells j)).isSome) := by
    ext j
    by_cases eq : j = i
    · subst eq
      simp [hi, held]
    · simp [eq]
  rw [occupancy, grown, Finset.card_insert_of_notMem (by simp [free])]
  rfl

theorem occupancy_clear {i : ℕ} (hi : i < size) {a : α} {k : K} (held : keyOf (cells i) = some k)
    (free : keyOf a = none) :
    occupancy keyOf size (update cells i a) + 1 = occupancy keyOf size cells := by
  have restored : occupancy keyOf size (update (update cells i a) i (cells i)) =
      occupancy keyOf size (update cells i a) + 1 :=
    occupancy_fill hi (by rw [update_self]; exact free) held
  rw [Function.update_idem, Function.update_eq_self] at restored
  exact restored.symm

theorem occupancy_replace {i : ℕ} {a : α} {k l : K} (held : keyOf (cells i) = some k)
    (new : keyOf a = some l) :
    occupancy keyOf size (update cells i a) = occupancy keyOf size cells := by
  unfold occupancy
  congr 1
  apply Finset.filter_congr
  intro j _
  by_cases eq : j = i
  · subst eq
    simp [held, new]
  · rw [update_of_ne eq]

theorem contents_empty (free : ∀ i, i < size → keyOf (cells i) = none) :
    contents keyOf size cells = ∅ := by
  rw [Set.eq_empty_iff_forall_notMem]
  rintro a ⟨some, i, hi, rfl⟩
  simp [free i hi] at some

theorem contents_fill {i : ℕ} (hi : i < size) (free : keyOf (cells i) = none) {a : α} {k : K}
    (held : keyOf a = some k) :
    contents keyOf size (update cells i a) = insert a (contents keyOf size cells) := by
  ext b
  constructor
  · rintro ⟨some, j, hj, rfl⟩
    by_cases eq : j = i
    · subst eq
      exact Or.inl (update_self ..)
    · rw [update_of_ne eq] at some ⊢
      exact Or.inr ⟨some, j, hj, rfl⟩
  · rintro (rfl | ⟨some, j, hj, rfl⟩)
    · exact ⟨by simp [held], i, hi, update_self ..⟩
    · have ne : j ≠ i := by
        rintro rfl
        simp [free] at some
      exact ⟨some, j, hj, update_of_ne ne ..⟩

theorem contents_clear {same : K → K → Prop} (refl : ∀ k, same k k)
    (distinct : Distinct keyOf same size cells)
    {i : ℕ} (hi : i < size) {a : α} {k : K} (held : keyOf (cells i) = some k)
    (free : keyOf a = none) :
    contents keyOf size (update cells i a) = contents keyOf size cells \ {cells i} := by
  ext b
  constructor
  · rintro ⟨some, j, hj, rfl⟩
    have ne : j ≠ i := by
      rintro rfl
      simp [free] at some
    rw [update_of_ne ne] at some ⊢
    refine ⟨⟨some, j, hj, rfl⟩, ?_⟩
    intro eq
    rw [Set.mem_singleton_iff] at eq
    exact ne (distinct j i hj hi k k (eq ▸ held) held (refl k))
  · rintro ⟨⟨some, j, hj, rfl⟩, ne⟩
    have away : j ≠ i := by
      rintro rfl
      exact ne rfl
    exact ⟨some, j, hj, update_of_ne away ..⟩

theorem mem_contents_update (distinct : Distinct keyOf Eq size cells) {i : ℕ} (hi : i < size)
    {k : K} (held : keyOf (cells i) = some k) (a b : α) :
    b ∈ contents keyOf size (update cells i a) ↔
      (b = a ∧ (keyOf a).isSome) ∨ (b ∈ contents keyOf size cells ∧ keyOf b ≠ some k) := by
  constructor
  · rintro ⟨some, j, hj, rfl⟩
    by_cases eq : j = i
    · subst eq
      rw [update_self] at some ⊢
      exact Or.inl ⟨rfl, some⟩
    · rw [update_of_ne eq] at some ⊢
      exact Or.inr ⟨⟨some, j, hj, rfl⟩, fun same => eq (distinct j i hj hi k k same held rfl)⟩
  · rintro (⟨rfl, some⟩ | ⟨⟨some, j, hj, rfl⟩, ne⟩)
    · exact ⟨some, i, hi, update_self ..⟩
    · have away : j ≠ i := by
        rintro rfl
        exact ne held
      exact ⟨some, j, hj, update_of_ne away ..⟩

/-! ## The first cells of a table -/

theorem occupancy_succ_free (free : keyOf (cells size) = none) :
    occupancy keyOf (size + 1) cells = occupancy keyOf size cells := by
  rw [occupancy, Finset.range_add_one, Finset.filter_insert, if_neg (by simp [free])]
  rfl

theorem occupancy_succ_held {k : K} (held : keyOf (cells size) = some k) :
    occupancy keyOf (size + 1) cells = occupancy keyOf size cells + 1 := by
  rw [occupancy, Finset.range_add_one, Finset.filter_insert, if_pos (by simp [held]),
    Finset.card_insert_of_notMem (by simp)]
  rfl

theorem occupancy_mono {n : ℕ} (bound : n ≤ size) :
    occupancy keyOf n cells ≤ occupancy keyOf size cells :=
  Finset.card_le_card (Finset.filter_subset_filter _ (Finset.range_mono bound))

theorem contents_succ_free (free : keyOf (cells size) = none) :
    contents keyOf (size + 1) cells = contents keyOf size cells := by
  ext a
  constructor
  · rintro ⟨some, i, hi, rfl⟩
    have ne : i ≠ size := by
      rintro rfl
      simp [free] at some
    exact ⟨some, i, by omega, rfl⟩
  · rintro ⟨some, i, hi, rfl⟩
    exact ⟨some, i, by omega, rfl⟩

theorem contents_succ_held {k : K} (held : keyOf (cells size) = some k) :
    contents keyOf (size + 1) cells = insert (cells size) (contents keyOf size cells) := by
  ext a
  constructor
  · rintro ⟨some, i, hi, rfl⟩
    rcases Nat.lt_succ_iff_lt_or_eq.mp hi with below | rfl
    · exact Or.inr ⟨some, i, below, rfl⟩
    · exact Or.inl rfl
  · rintro (rfl | ⟨some, i, hi, rfl⟩)
    · exact ⟨by simp [held], size, Nat.lt_succ_self _, rfl⟩
    · exact ⟨some, i, by omega, rfl⟩

namespace Distinct

variable {same : K → K → Prop}

theorem of_free (free : ∀ i, i < size → keyOf (cells i) = none) : Distinct keyOf same size cells := by
  intro i _ hi _ k _ held
  simp [free i hi] at held

theorem fill (symm : ∀ k l, same k l → same l k) (distinct : Distinct keyOf same size cells)
    (i : ℕ) {a : α} {k : K} (new : keyOf a = some k)
    (fresh : ∀ j, j < size → ∀ l, keyOf (cells j) = some l → ¬ same l k) :
    Distinct keyOf same size (update cells i a) := by
  intro j j' hj hj' l l' held held' eq
  by_cases atI : j = i <;> by_cases atI' : j' = i
  · rw [atI, atI']
  · subst atI
    rw [update_self, new, Option.some.injEq] at held
    rw [update_of_ne atI'] at held'
    exact absurd (symm _ _ (held ▸ eq)) (fresh j' hj' l' held')
  · subst atI'
    rw [update_self, new, Option.some.injEq] at held'
    rw [update_of_ne atI] at held
    exact absurd (held' ▸ eq) (fresh j hj l held)
  · rw [update_of_ne atI] at held
    rw [update_of_ne atI'] at held'
    exact distinct j j' hj hj' l l' held held' eq

theorem clear (distinct : Distinct keyOf same size cells) (i : ℕ) {a : α} (free : keyOf a = none) :
    Distinct keyOf same size (update cells i a) := by
  intro j j' hj hj' l l' held held' eq
  have ne : j ≠ i := by
    rintro rfl
    simp [free] at held
  have ne' : j' ≠ i := by
    rintro rfl
    simp [free] at held'
  rw [update_of_ne ne] at held
  rw [update_of_ne ne'] at held'
  exact distinct j j' hj hj' l l' held held' eq

end Distinct

/-! ## Finding a free cell -/

/-- Visit a cell in search of a free one; answers its index and displacement. -/
def freeVisit (keyOf : α → Option K) (cells : ℕ → α) (index displacement : ℕ) : Option (ℕ × ℕ) :=
  match keyOf (cells index) with
  | none => some (index, displacement)
  | some _ => none

theorem passed_le_occupancy (c : Cycle) {home d : ℕ} (hhome : home < c.size) (hd : d < c.size)
    (passed : ∀ e, e < d → (keyOf (cells (c.slot home e))).isSome) :
    d ≤ occupancy keyOf c.size cells := by
  have injective : Set.InjOn (c.slot home) (Finset.range d) := by
    intro e he e' he' eq
    have he := Finset.mem_range.mp (Finset.mem_coe.mp he)
    have he' := Finset.mem_range.mp (Finset.mem_coe.mp he')
    exact c.slot_inj hhome (by omega) (by omega) eq
  have inside : (Finset.range d).image (c.slot home) ⊆
      (Finset.range c.size).filter fun i => (keyOf (cells i)).isSome := by
    intro i hi
    obtain ⟨e, he, rfl⟩ := Finset.mem_image.mp hi
    exact Finset.mem_filter.mpr ⟨Finset.mem_range.mpr (c.slot_lt hhome e),
      passed e (Finset.mem_range.mp he)⟩
  have counted := Finset.card_le_card inside
  rwa [Finset.card_image_of_injOn injective, Finset.card_range] at counted

theorem probe_free (c : Cycle) {home : ℕ} (hhome : home < c.size)
    (room : occupancy keyOf c.size cells < c.size) :
    ∃ d, d < c.size ∧ d ≤ occupancy keyOf c.size cells ∧
      keyOf (cells (c.slot home d)) = none ∧
      (∀ e, e < d → (keyOf (cells (c.slot home e))).isSome) ∧
      probe c.next (freeVisit keyOf cells) home c.size home 0 = .found (c.slot home d, d) := by
  obtain ⟨i, hi, free⟩ := exists_free room
  obtain ⟨d, hd, rfl⟩ := c.exists_slot hhome hi
  obtain ⟨first, result, hfirst, hit, miss, ends⟩ := probe_first c
    (freeVisit keyOf cells) hhome ⟨d, hd, by simp [freeVisit, free]⟩
  have passed : ∀ e, e < first → (keyOf (cells (c.slot home e))).isSome := by
    intro e he
    have occupied := miss e he
    unfold freeVisit at occupied
    split at occupied
    · cases occupied
    · simp [*]
  unfold freeVisit at hit
  split at hit
  · next freeHere =>
      obtain rfl := Option.some.inj hit
      exact ⟨first, hfirst, passed_le_occupancy c hhome hfirst passed, freeHere, passed, ends⟩
  · cases hit

end ObjcDyld.Probing
