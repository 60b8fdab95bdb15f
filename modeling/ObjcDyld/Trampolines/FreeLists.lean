import ObjcDyld.Trampolines.Slots

/-!
# The free lists of the page groups

Each page group's free list has all its slots that are not in use. Handing out a slot takes the
first one of a free list, and removing a block puts its slot first.
-/

namespace ObjcDyld.Trampolines

open LinkedChains (Linked)

variable {layout : Layout} {pages pages' : List PageGroup} {live : List (ℕ × ℕ)} {issued : List ℕ}
  {group : PageGroup} {page index block anImp address : ℕ}

def slotAt (layout : Layout) (index : ℕ) : Option ℕ := if index = layout.endIndex then none else some index

def PageGroup.freeLink (layout : Layout) (group : PageGroup) (index : ℕ) : Option ℕ := slotAt layout (group.nextIndex index)

def FreeList (layout : Layout) (group : PageGroup) (slots : List ℕ) : Prop :=
  Linked (group.freeLink layout) (slotAt layout group.nextAvailable) slots

/-- Some `IMP` that is in use has the slot. -/
def Used (layout : Layout) (pages : List PageGroup) (live : List (ℕ × ℕ)) (page index : ℕ) : Prop :=
  ∃ entry ∈ live, locate layout (pages.map (·.address)) entry.1 = some (page, index)

/-- The slots of all page groups are free or have the block of their `IMP`. -/
structure SlotInv (layout : Layout) (pages : List PageGroup) (live : List (ℕ × ℕ)) (issued : List ℕ) : Prop where
  disjoint : Disjoint layout (pages.map (·.address))
  distinct : (live.map fun entry => locate layout (pages.map (·.address)) entry.1).Nodup
  blocks : ∀ entry ∈ live, ∃ page group index, pages[page]? = some group ∧
    locate layout (pages.map (·.address)) entry.1 = some (page, index) ∧ layout.ValidIndex index ∧
      group.payload index = entry.2 ∧ layout.endIndex < entry.2
  free : ∀ (page : ℕ) (group : PageGroup), pages[page]? = some group → ∃ slots, FreeList layout group slots ∧
    ∀ index, index ∈ slots ↔ layout.ValidIndex index ∧ ¬Used layout pages live page index
  issued : ∀ anImp ∈ issued, ∃ page index, page < pages.length ∧
    locate layout (pages.map (·.address)) anImp = some (page, index) ∧ layout.ValidIndex index

theorem empty_slotInv : SlotInv layout [] [] [] :=
  ⟨.nil, List.nodup_nil, nofun, nofun, nofun⟩

/-- The slots of a page group, without the link of its page. -/
def PageGroup.slots (group : PageGroup) : ℕ × ℕ × (ℕ → ℕ) := (group.address, group.nextAvailable, group.payload)

/-- Nothing of the slots is different. -/
def SameSlots (pages pages' : List PageGroup) : Prop := pages.map PageGroup.slots = pages'.map PageGroup.slots

theorem SameSlots.addresses (same : SameSlots pages pages') : pages.map (·.address) = pages'.map (·.address) := by
  have := congrArg (List.map Prod.fst) same
  rwa [List.map_map, List.map_map] at this

theorem SameSlots.getElem? (same : SameSlots pages pages') (at_page : pages'[page]? = some group) :
    ∃ old, pages[page]? = some old ∧ old.slots = group.slots := by
  have at_slots : (pages.map PageGroup.slots)[page]? = some group.slots := by
    rw [same, List.getElem?_map, at_page]
    rfl
  rwa [List.getElem?_map, Option.map_eq_some_iff] at at_slots

theorem FreeList.congr {other : PageGroup} {slots : List ℕ} (free : FreeList layout group slots)
    (same : group.slots = other.slots) : FreeList layout other slots := by
  obtain ⟨address, link, nextAvailable, payload⟩ := group
  obtain ⟨address', link', nextAvailable', payload'⟩ := other
  simp only [PageGroup.slots, Prod.mk.injEq] at same
  obtain ⟨-, rfl, rfl⟩ := same
  exact free

theorem SlotInv.congr (inv : SlotInv layout pages live issued) (same : SameSlots pages pages') :
    SlotInv layout pages' live issued := by
  have addresses := same.addresses
  have used (page index : ℕ) : Used layout pages' live page index ↔ Used layout pages live page index := by
    rw [Used, Used, addresses]
  have length : pages.length = pages'.length := by simpa using congrArg List.length same
  refine ⟨addresses ▸ inv.disjoint, addresses ▸ inv.distinct, fun entry member => ?_, fun page group at_page => ?_,
    fun anImp member => ?_⟩
  · obtain ⟨page, group, index, at_page, located, valid, held, real⟩ := inv.blocks entry member
    obtain ⟨group', at_page', same'⟩ := SameSlots.getElem? (Eq.symm same) at_page
    have payload : group'.payload = group.payload := congrArg (fun slots => slots.2.2) same'
    exact ⟨page, group', index, at_page', addresses ▸ located, valid, payload ▸ held, real⟩
  · obtain ⟨old, at_old, same'⟩ := same.getElem? at_page
    obtain ⟨slots, list, free⟩ := inv.free page old at_old
    exact ⟨slots, list.congr same', fun index => by rw [free, used]⟩
  · rw [← length, ← addresses]
    exact inv.issued anImp member

theorem slotAt_of_ne (different : index ≠ layout.endIndex) : slotAt layout index = some index := if_neg different

theorem freeList_new (layout : Layout) (address : ℕ) :
    FreeList layout (.new layout address) (List.range' layout.startIndex (layout.endIndex - layout.startIndex)) := by
  suffices ∀ count index, index + count = layout.endIndex →
      Linked ((PageGroup.new layout address).freeLink layout) (slotAt layout index) (List.range' index count) from
    this (layout.endIndex - layout.startIndex) layout.startIndex (by have := layout.startIndex_lt; omega)
  intro count
  induction count with
  | zero =>
      intro index eq
      rw [Nat.add_zero] at eq
      rw [slotAt, if_pos eq]
      exact .nil
  | succ count ih =>
      intro index eq
      rw [slotAt_of_ne (by omega), List.range'_succ]
      exact .cons (ih (index + 1) (by omega))

theorem mem_range'_iff (layout : Layout) (index : ℕ) :
    index ∈ List.range' layout.startIndex (layout.endIndex - layout.startIndex) ↔ layout.ValidIndex index := by
  have less := layout.startIndex_lt
  rw [List.mem_range'_1, Layout.ValidIndex]
  omega

theorem SlotInv.allocate (inv : SlotInv layout pages live issued)
    (unmapped : ∀ group ∈ pages, group.address + layout.pageMaxSize + layout.textSegmentSize ≤ address ∨
      address + layout.pageMaxSize + layout.textSegmentSize ≤ group.address) :
    SlotInv layout (pages ++ [PageGroup.new layout address]) live issued := by
  have stays {anImp : ℕ} {found : ℕ × ℕ} (located : locate layout (pages.map (·.address)) anImp = some found) :
      locate layout ((pages ++ [PageGroup.new layout address]).map (·.address)) anImp = some found := by
    rw [List.map_append]
    exact locate_append located _
  have same (entry : ℕ × ℕ) (member : entry ∈ live) :
      locate layout ((pages ++ [PageGroup.new layout address]).map (·.address)) entry.1 =
        locate layout (pages.map (·.address)) entry.1 := by
    obtain ⟨page, group, index, -, located, -⟩ := inv.blocks entry member
    rw [stays located, located]
  have used (page index : ℕ) : Used layout (pages ++ [PageGroup.new layout address]) live page index ↔
      Used layout pages live page index :=
    exists_congr fun entry => and_congr_right fun member => by rw [same entry member]
  refine ⟨?_, ?_, fun entry member => ?_, fun page group at_page => ?_, fun anImp member => ?_⟩
  · rw [List.map_append, List.map_singleton]
    refine List.pairwise_append.mpr ⟨inv.disjoint, List.pairwise_singleton _ _, fun first member second last => ?_⟩
    obtain ⟨group, inside, rfl⟩ := List.mem_map.mp member
    rw [List.mem_singleton.mp last]
    exact unmapped group inside
  · rw [List.map_congr_left same]
    exact inv.distinct
  · obtain ⟨page, group, index, at_page, located, rest⟩ := inv.blocks entry member
    exact ⟨page, group, index, (List.getElem?_append_left (List.getElem?_eq_some_iff.mp at_page).1).trans at_page,
      stays located, rest⟩
  · rcases Nat.lt_or_ge page pages.length with before | last
    · rw [List.getElem?_append_left before] at at_page
      obtain ⟨slots, list, free⟩ := inv.free page group at_page
      exact ⟨slots, list, fun index => by rw [free, used]⟩
    · obtain ⟨inside, eq⟩ := List.getElem?_eq_some_iff.mp at_page
      rw [List.length_append, List.length_singleton] at inside
      obtain rfl : page = pages.length := by omega
      rw [List.getElem_concat_length rfl] at eq
      subst eq
      refine ⟨_, freeList_new layout address, fun index => ?_⟩
      rw [mem_range'_iff, used]
      -- nothing that is in use is in a page group that is new
      refine (and_iff_left ?_).symm
      rintro ⟨entry, member, located⟩
      obtain ⟨page, group, index', at_page, located', -⟩ := inv.blocks entry member
      obtain ⟨rfl, -⟩ := Prod.mk.inj (Option.some.inj (located.symm.trans located'))
      exact absurd (List.getElem?_eq_some_iff.mp at_page).1 (Nat.lt_irrefl _)
  · obtain ⟨page, index, less, located, valid⟩ := inv.issued anImp member
    exact ⟨page, index, by rw [List.length_append]; omega, stays located, valid⟩

theorem SlotInv.nextAvailable (inv : SlotInv layout pages live issued) (at_page : pages[page]? = some group) :
    group.nextAvailable = layout.endIndex ∨
      layout.ValidIndex group.nextAvailable ∧ ¬Used layout pages live page group.nextAvailable := by
  obtain ⟨slots, list, free⟩ := inv.free page group at_page
  by_cases ended : group.nextAvailable = layout.endIndex
  · exact .inl ended
  · rw [FreeList, slotAt_of_ne ended] at list
    cases list with
    | cons tail => exact .inr ((free _).mp List.mem_cons_self)

theorem map_modify_same {α β : Type*} {change : α → α} {view : α → β} (same : ∀ a, view (change a) = view a) (list : List α)
    (i : ℕ) : (list.modify i change).map view = list.map view := by
  refine List.ext_getElem? fun j => ?_
  rw [List.getElem?_map, List.getElem?_modify, List.getElem?_map]
  cases list[j]? with
  | none => rfl
  | some a =>
      by_cases here : i = j
      · simp [here, same]
      · simp [here]

/-- Hand out the next available slot. -/
def PageGroup.take (block : ℕ) (group : PageGroup) : PageGroup :=
  { group with
    nextAvailable := group.nextIndex group.nextAvailable
    payload := Function.update group.payload group.nextAvailable block }

theorem PageGroup.take_freeLink {other : ℕ} (block : ℕ) (different : other ≠ group.nextAvailable) :
    (group.take block).freeLink layout other = group.freeLink layout other := by
  simp [freeLink, nextIndex, take, Function.update_of_ne different]

theorem SlotInv.take (inv : SlotInv layout pages live issued) (at_page : pages[page]? = some group)
    (available : group.nextAvailable ≠ layout.endIndex) (real : layout.endIndex < block) {aMode : ℕ}
    (mode : aMode < layout.argumentModeCount)
    (imp : anImp = layout.trampoline group.address aMode group.nextAvailable) :
    SlotInv layout (pages.modify page (PageGroup.take block)) (live ++ [(anImp, block)]) (issued ++ [anImp]) := by
  obtain ⟨valid, unused⟩ := (inv.nextAvailable at_page).resolve_left available
  have addresses : (pages.modify page (PageGroup.take block)).map (·.address) = pages.map (·.address) :=
    @map_modify_same _ _ (PageGroup.take block) (·.address) (fun _ => rfl) pages page
  have located : locate layout (pages.map (·.address)) anImp = some (page, group.nextAvailable) := by
    rw [imp]
    exact locate_trampoline inv.disjoint (by rw [List.getElem?_map, at_page]; rfl) mode valid
  have used (page' index : ℕ) : Used layout (pages.modify page (PageGroup.take block)) (live ++ [(anImp, block)]) page' index ↔
      Used layout pages live page' index ∨ page = page' ∧ group.nextAvailable = index := by
    simp only [Used, addresses, List.mem_append, List.mem_singleton, or_and_right, exists_or, exists_eq_left, located,
      Option.some.injEq, Prod.mk.injEq]
  refine ⟨addresses ▸ inv.disjoint, ?_, fun entry member => ?_, fun page' group' at_page' => ?_, fun imp' member => ?_⟩
  · rw [addresses, List.map_append, List.map_singleton, located]
    refine List.nodup_append.mpr ⟨inv.distinct, List.nodup_singleton _, ?_⟩
    rintro location member _ last rfl
    obtain ⟨entry, inside, same⟩ := List.mem_map.mp member
    exact unused ⟨entry, inside, same.trans (List.mem_singleton.mp last)⟩
  · rw [addresses]
    obtain member | member := List.mem_append.mp member
    · obtain ⟨page', group', index, at_page', located', valid', held, real'⟩ := inv.blocks entry member
      by_cases same : page = page'
      · subst same
        obtain rfl := Option.some.inj (at_page.symm.trans at_page')
        have other : index ≠ group.nextAvailable := by
          rintro rfl
          exact unused ⟨entry, member, located'⟩
        refine ⟨page, group.take block, index, by rw [List.getElem?_modify_eq, at_page]; rfl, located', valid', ?_, real'⟩
        exact (Function.update_of_ne other _ _).trans held
      · exact ⟨page', group', index, by rw [List.getElem?_modify_ne _ _ same, at_page'], located', valid', held, real'⟩
    · obtain rfl := List.mem_singleton.mp member
      exact ⟨page, group.take block, group.nextAvailable, by rw [List.getElem?_modify_eq, at_page]; rfl, located, valid,
        Function.update_self .., real⟩
  · by_cases same : page = page'
    · subst same
      rw [List.getElem?_modify_eq, at_page] at at_page'
      obtain rfl : group.take block = group' := Option.some.inj at_page'
      obtain ⟨slots, list, free⟩ := inv.free page group at_page
      rw [FreeList, slotAt_of_ne available] at list
      have nodup := list.nodup
      cases list with
      | @cons _ slots tail =>
          obtain ⟨fresh, -⟩ := List.nodup_cons.mp nodup
          refine ⟨slots, tail.congr fun index member => ?_, fun index => ?_⟩
          · have other : index ≠ group.nextAvailable := by
              rintro rfl
              exact fresh member
            exact PageGroup.take_freeLink block other
          · rw [used]
            have before := free index
            rw [List.mem_cons] at before
            constructor
            · intro member
              obtain ⟨valid', unused'⟩ := before.mp (.inr member)
              refine ⟨valid', not_or.mpr ⟨unused', fun same => fresh ?_⟩⟩
              rwa [same.2]
            · rintro ⟨valid', unused'⟩
              obtain ⟨unused', other⟩ := not_or.mp unused'
              exact (before.mpr ⟨valid', unused'⟩).resolve_left fun same => other ⟨rfl, same.symm⟩
    · rw [List.getElem?_modify_ne _ _ same] at at_page'
      obtain ⟨slots, list, free⟩ := inv.free page' group' at_page'
      refine ⟨slots, list, fun index => ?_⟩
      rw [free, used, or_iff_left fun here => same here.1]
  · rw [addresses, List.length_modify]
    obtain member | member := List.mem_append.mp member
    · exact inv.issued imp' member
    · rw [List.mem_singleton.mp member]
      exact ⟨page, group.nextAvailable, (List.getElem?_eq_some_iff.mp at_page).1, located, valid⟩

/-- Put a slot first in the free list. -/
def PageGroup.release (index : ℕ) (group : PageGroup) : PageGroup :=
  { group with payload := Function.update group.payload index group.nextAvailable, nextAvailable := index }

theorem PageGroup.release_freeLink_self (positive : group.nextAvailable ≠ 0) :
    (group.release index).freeLink layout index = slotAt layout group.nextAvailable := by
  simp [freeLink, nextIndex, release, positive]

theorem PageGroup.release_freeLink {other : ℕ} (different : other ≠ index) :
    (group.release index).freeLink layout other = group.freeLink layout other := by
  simp [freeLink, nextIndex, release, Function.update_of_ne different]

theorem SlotInv.release (inv : SlotInv layout pages live issued) (member : (anImp, block) ∈ live)
    (at_page : pages[page]? = some group) (located : locate layout (pages.map (·.address)) anImp = some (page, index)) :
    SlotInv layout (pages.modify page (PageGroup.release index)) (live.erase (anImp, block)) issued := by
  have addresses : (pages.modify page (PageGroup.release index)).map (·.address) = pages.map (·.address) :=
    @map_modify_same _ _ (PageGroup.release index) (·.address) (fun _ => rfl) pages page
  have erased (entry : ℕ × ℕ) : entry ∈ live.erase (anImp, block) ↔ entry ≠ (anImp, block) ∧ entry ∈ live :=
    inv.distinct.of_map.mem_erase_iff
  -- no other entry is at the slot
  have alone (entry : ℕ × ℕ) (inside : entry ∈ live)
      (same : locate layout (pages.map (·.address)) entry.1 = some (page, index)) : entry = (anImp, block) :=
    List.inj_on_of_nodup_map inv.distinct inside member (same.trans located.symm)
  have used (page' index' : ℕ) : Used layout (pages.modify page (PageGroup.release index)) (live.erase (anImp, block)) page' index' ↔
      Used layout pages live page' index' ∧ ¬(page = page' ∧ index = index') := by
    rw [Used, Used, addresses]
    constructor
    · rintro ⟨entry, inside, same⟩
      obtain ⟨different, inside⟩ := (erased entry).mp inside
      refine ⟨⟨entry, inside, same⟩, ?_⟩
      rintro ⟨rfl, rfl⟩
      exact different (alone entry inside same)
    · rintro ⟨⟨entry, inside, same⟩, elsewhere⟩
      refine ⟨entry, (erased entry).mpr ⟨?_, inside⟩, same⟩
      rintro rfl
      exact elsewhere (Prod.mk.inj (Option.some.inj (located.symm.trans same)))
  have was_used : Used layout pages live page index := ⟨_, member, located⟩
  have valid : layout.ValidIndex index := by
    obtain ⟨page', group', index', -, located', valid', -⟩ := inv.blocks _ member
    obtain ⟨-, rfl⟩ := Prod.mk.inj (Option.some.inj (located.symm.trans located'))
    exact valid'
  refine ⟨addresses ▸ inv.disjoint, ?_, fun entry inside => ?_, fun page' group' at_page' => ?_, fun imp' inside => ?_⟩
  · rw [addresses]
    exact inv.distinct.sublist (List.erase_sublist.map _)
  · rw [addresses]
    obtain ⟨different, inside⟩ := (erased entry).mp inside
    obtain ⟨page', group', index', at_page', located', valid', held, real⟩ := inv.blocks entry inside
    by_cases same : page = page'
    · subst same
      obtain rfl := Option.some.inj (at_page.symm.trans at_page')
      have other : index' ≠ index := by
        rintro rfl
        exact different (alone entry inside located')
      refine ⟨page, group.release index, index', by rw [List.getElem?_modify_eq, at_page]; rfl, located', valid', ?_, real⟩
      exact (Function.update_of_ne other _ _).trans held
    · exact ⟨page', group', index', by rw [List.getElem?_modify_ne _ _ same, at_page'], located', valid', held, real⟩
  · by_cases same : page = page'
    · subst same
      rw [List.getElem?_modify_eq, at_page] at at_page'
      obtain rfl : group.release index = group' := Option.some.inj at_page'
      obtain ⟨slots, list, free⟩ := inv.free page group at_page
      have fresh : index ∉ slots := fun inside => ((free index).mp inside).2 was_used
      have positive : group.nextAvailable ≠ 0 := by
        have start := layout.startIndex_pos
        have less := layout.startIndex_lt
        obtain ended | ⟨valid', -⟩ := inv.nextAvailable at_page
        · omega
        · exact Nat.ne_of_gt (Nat.lt_of_lt_of_le start valid'.1)
      refine ⟨index :: slots, ?_, fun index' => ?_⟩
      · have first : slotAt layout (group.release index).nextAvailable = some index := slotAt_of_ne (Nat.ne_of_lt valid.2)
        rw [FreeList, first]
        refine .cons ?_
        rw [PageGroup.release_freeLink_self positive]
        refine Linked.congr list fun index' inside => PageGroup.release_freeLink ?_
        rintro rfl
        exact fresh inside
      · rw [used, List.mem_cons, free]
        constructor
        · rintro (rfl | ⟨valid', unused⟩)
          · exact ⟨valid, fun here => here.2 ⟨rfl, rfl⟩⟩
          · exact ⟨valid', fun here => unused here.1⟩
        · rintro ⟨valid', unused⟩
          by_cases here : index = index'
          · exact .inl here.symm
          · exact .inr ⟨valid', fun also => unused ⟨also, fun both => here both.2⟩⟩
    · rw [List.getElem?_modify_ne _ _ same] at at_page'
      obtain ⟨slots, list, free⟩ := inv.free page' group' at_page'
      refine ⟨slots, list, fun index' => ?_⟩
      rw [free, used, and_iff_left fun here : page = page' ∧ index = index' => same here.1]
  · rw [addresses, List.length_modify]
    exact inv.issued imp' inside

end ObjcDyld.Trampolines
