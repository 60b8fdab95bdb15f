import ObjcDyld.Common.SlotTable

/-!
# Hash and displace

Keys are sorted into buckets, and the keys of a bucket are placed together, in slots that
depend on one value for the bucket. Placing the buckets one after the other in free slots
gives every key a slot of its own.
-/

namespace ObjcDyld.HashDisplace

variable {κ β V H : Type*}

/-- The slots after each key has taken its own. -/
def fill [DecidableEq H] (slotOf : κ → H) (keys : List κ) (slots : H → Option κ) : H → Option κ :=
  keys.foldl (fun slots key => Function.update slots (slotOf key) (some key)) slots

theorem fill_of_ne [DecidableEq H] (slotOf : κ → H) (keys : List κ) (slots : H → Option κ) {slot : H}
    (other : ∀ key ∈ keys, slotOf key ≠ slot) : fill slotOf keys slots slot = slots slot := by
  induction keys generalizing slots with
  | nil => rfl
  | cons key rest ih =>
      have distinct : slot ≠ slotOf key := (other key List.mem_cons_self).symm
      refine (ih _ fun after inside => other after (List.mem_cons_of_mem key inside)).trans ?_
      exact Function.update_of_ne distinct _ _

theorem fill_of_mem [DecidableEq H] (slotOf : κ → H) (keys : List κ) (slots : H → Option κ) (distinct : (keys.map slotOf).Nodup)
    {key : κ} (inside : key ∈ keys) : fill slotOf keys slots (slotOf key) = some key := by
  induction keys generalizing slots with
  | nil => simp at inside
  | cons first rest ih =>
      rw [List.map_cons, List.nodup_cons] at distinct
      rcases List.mem_cons.mp inside with rfl | later
      · have other : ∀ after ∈ rest, slotOf after ≠ slotOf key := fun after member same =>
          distinct.1 (same ▸ List.mem_map_of_mem member)
        exact (fill_of_ne slotOf rest _ other).trans (Function.update_self _ _ _)
      · exact ih _ distinct.2 later

variable (keysOf : β → List κ) (slotOf : V → κ → H)

/-- The keys of the placed buckets, and nothing else, are in their slots. -/
structure Placed (value : β → V) (placed : Set β) (slots : H → Option κ) : Prop where
  holds : ∀ bucket ∈ placed, ∀ key ∈ keysOf bucket, slots (slotOf (value bucket) key) = some key
  taken : ∀ slot key, slots slot = some key →
    ∃ bucket ∈ placed, key ∈ keysOf bucket ∧ slotOf (value bucket) key = slot

variable {keysOf slotOf} {value : β → V} {placed : Set β} {slots : H → Option κ}

theorem placed_empty (value : β → V) : Placed keysOf slotOf value ∅ fun _ => none where
  holds := by simp
  taken := by simp

namespace Placed

theorem ne_of_notMem (state : Placed keysOf slotOf value placed slots) {bucket : β} (fresh : bucket ∉ placed)
    (disjoint : ∀ other key, key ∈ keysOf bucket → key ∈ keysOf other → other = bucket) {key : κ}
    (inside : key ∈ keysOf bucket) (slot : H) : slots slot ≠ some key := by
  intro taken
  obtain ⟨other, member, inside', -⟩ := state.taken slot key taken
  exact fresh (disjoint other key inside inside' ▸ member)

theorem place [DecidableEq H] [DecidableEq β] (state : Placed keysOf slotOf value placed slots) {bucket : β} (fresh : bucket ∉ placed) (choice : V)
    (free : ∀ key ∈ keysOf bucket, slots (slotOf choice key) = none)
    (distinct : ((keysOf bucket).map (slotOf choice)).Nodup) :
    Placed keysOf slotOf (Function.update value bucket choice) (insert bucket placed)
      (fill (slotOf choice) (keysOf bucket) slots) where
  holds other member key inside := by
    by_cases same : other = bucket
    · subst same
      rw [Function.update_self]
      exact fill_of_mem _ _ _ distinct inside
    · have before := state.holds other (member.resolve_left same) key inside
      rw [Function.update_of_ne same]
      refine (fill_of_ne _ _ _ fun taker inside' clash => ?_).trans before
      rw [← clash, free taker inside'] at before
      exact absurd before (by simp)
  taken slot key taken := by
    by_cases own : ∃ taker ∈ keysOf bucket, slotOf choice taker = slot
    · obtain ⟨taker, inside, rfl⟩ := own
      rw [fill_of_mem _ _ _ distinct inside] at taken
      obtain rfl := Option.some.inj taken
      exact ⟨bucket, Set.mem_insert bucket placed, inside, by rw [Function.update_self]⟩
    · rw [fill_of_ne _ _ _ fun taker inside same => own ⟨taker, inside, same⟩] at taken
      obtain ⟨other, member, inside, at_slot⟩ := state.taken slot key taken
      have distinct_bucket : other ≠ bucket := fun same => fresh (same ▸ member)
      exact ⟨other, Set.mem_insert_of_mem bucket member, inside, by rw [Function.update_of_ne distinct_bucket, at_slot]⟩

theorem injective (state : Placed keysOf slotOf value placed slots) {bucket other : β} (member : bucket ∈ placed)
    (member' : other ∈ placed) {key key' : κ} (inside : key ∈ keysOf bucket) (inside' : key' ∈ keysOf other)
    (same : slotOf (value bucket) key = slotOf (value other) key') : key = key' := by
  have eq := state.holds bucket member key inside
  rw [same, state.holds other member' key' inside'] at eq
  exact (Option.some.inj eq).symm

end Placed

end ObjcDyld.HashDisplace

/-!
## Tables searched up to a remembered displacement

A key is stored at most `reach` steps after its home slot, and a lookup stops
after `reach` steps whether or not it has met a free slot.  Holes left by
deletions are therefore harmless.
-/

namespace ObjcDyld.Probing

open Function (update update_self update_of_ne)

variable {α K : Type*} {keyOf : α → Option K}

/--
Every key lies within `reach` steps of its home slot, no key is stored twice,
and a walk of `reach + 1` steps does not come back to its start.
-/
structure Displaced (keyOf : α → Option K) (c : Cycle) (home : K → ℕ) (cells : ℕ → α)
    (reach : ℕ) : Prop where
  near : ∀ i, i < c.size → ∀ k, keyOf (cells i) = some k →
    ∃ d, d ≤ reach ∧ c.slot (home k) d = i
  distinct : Distinct keyOf Eq c.size cells
  slack : reach + 1 < c.size

/-- Visit a cell in search of a hit; past the remembered displacement the search is over. -/
def lookupVisit (hit : α → Bool) (cells : ℕ → α) (reach : ℕ) (index displacement : ℕ) :
    Option (Option ℕ) :=
  if reach < displacement then some none
  else if hit (cells index) then some (some index)
  else none

namespace Displaced

variable {c : Cycle} {home : K → ℕ} {cells : ℕ → α} {reach : ℕ}

theorem empty (free : ∀ i, i < c.size → keyOf (cells i) = none) (roomy : 1 < c.size) :
    Displaced keyOf c home cells 0 where
  near i hi k held := by simp [free i hi] at held
  distinct := .of_free free
  slack := roomy

theorem fill (table : Displaced keyOf c home cells reach) {a : α} {k : K}
    (new : keyOf a = some k) (fresh : ∀ j, j < c.size → keyOf (cells j) ≠ some k)
    {d : ℕ} (hd : d + 1 < c.size) :
    Displaced keyOf c home (update cells (c.slot (home k) d) a) (max reach d) where
  near i hi l held := by
    by_cases eq : i = c.slot (home k) d
    · subst eq
      rw [update_self, new, Option.some.injEq] at held
      subst held
      exact ⟨d, Nat.le_max_right _ _, rfl⟩
    · rw [update_of_ne eq] at held
      obtain ⟨e, he, at_i⟩ := table.near i hi l held
      exact ⟨e, Nat.le_trans he (Nat.le_max_left _ _), at_i⟩
  distinct := table.distinct.fill (fun _ _ eq => eq.symm) _ new
    fun j hj l held eq => fresh j hj (eq ▸ held)
  slack := by
    have := table.slack
    omega

theorem clear (table : Displaced keyOf c home cells reach) (i : ℕ) {a : α}
    (free : keyOf a = none) : Displaced keyOf c home (update cells i a) reach where
  near j hj l held := by
    have ne : j ≠ i := by
      rintro rfl
      simp [free] at held
    rw [update_of_ne ne] at held
    exact table.near j hj l held
  distinct := table.distinct.clear i free
  slack := table.slack

theorem overwrite (table : Displaced keyOf c home cells reach) {i : ℕ} {a : α}
    (same : keyOf a = keyOf (cells i)) : Displaced keyOf c home (update cells i a) reach := by
  have keys : ∀ j, keyOf (update cells i a j) = keyOf (cells j) := by
    intro j
    by_cases eq : j = i
    · rw [eq, update_self, same]
    · rw [update_of_ne eq]
  refine ⟨fun j hj l held => table.near j hj l (keys j ▸ held), ?_, table.slack⟩
  intro j j' hj hj' l l' held held' eq
  exact table.distinct j j' hj hj' l l' (keys j ▸ held) (keys j' ▸ held') eq

variable {hit : α → Bool} {k : K}

theorem lookup_found (table : Displaced keyOf c home cells reach)
    (hits : ∀ a, hit a = true ↔ keyOf a = some k) {i : ℕ} (hi : i < c.size)
    (held : keyOf (cells i) = some k) (hhome : home k < c.size) :
    probe c.next (lookupVisit hit cells reach) (home k) c.size (home k) 0 = .found (some i) := by
  obtain ⟨d, hd, rfl⟩ := table.near i hi k held
  have slack := table.slack
  refine probe_found c hhome (show d < c.size by omega) ?_ ?_
  · rw [lookupVisit, if_neg (by omega), if_pos ((hits _).mpr held)]
  · intro e he
    rw [lookupVisit, if_neg (by omega), if_neg]
    intro early
    have eq := table.distinct _ _ (c.slot_lt hhome e) hi k k ((hits _).mp early) held rfl
    have := c.slot_inj hhome (by omega) (by omega) eq
    omega

theorem lookup_missing (table : Displaced keyOf c home cells reach)
    (hits : ∀ a, hit a = true ↔ keyOf a = some k)
    (absent : ∀ i, i < c.size → keyOf (cells i) ≠ some k) (hhome : home k < c.size) :
    probe c.next (lookupVisit hit cells reach) (home k) c.size (home k) 0 = .found none := by
  refine probe_found c hhome table.slack ?_ ?_
  · rw [lookupVisit, if_pos (Nat.lt_succ_self reach)]
  · intro e he
    rw [lookupVisit, if_neg (by omega), if_neg]
    exact fun early => absent _ (c.slot_lt hhome e) ((hits _).mp early)

end Displaced

end ObjcDyld.Probing
