import ObjcDyld.Trampolines.AvailablePages

/-!
# Runs of block trampolines

The invariant of the page groups: their slots, and the list of those that have available slots.
Whatever is created and removed, the slots are right; but removing a block of the head page group
cuts off the list, and the slots of the page groups that were in it are lost.
-/

namespace ObjcDyld.Trampolines

open LinkedChains (Linked)

variable {layout : Layout} {pages pages' : List PageGroup} {live : List (ℕ × ℕ)} {issued : List ℕ}
  {group : PageGroup} {page index block anImp address : ℕ} {rest : List ℕ} {process process' : Process}

/-- The page groups of a process, with its `IMP`s. -/
structure Inv (layout : Layout) (process : Process) : Prop where
  slots : SlotInv layout process.pages process.live process.issued
  listed : process.pages = [] ∨ ∃ rest, Listed process.pages rest ∧ NotFull layout process.pages rest

theorem start_inv (layout : Layout) : Inv layout .start := ⟨empty_slotInv, .inl rfl⟩

theorem SlotInv.full (inv : SlotInv layout pages live issued) (at_page : pages[page]? = some group)
    (full : group.nextAvailable = layout.endIndex) (valid : layout.ValidIndex index) : Used layout pages live page index := by
  obtain ⟨slots, list, free⟩ := inv.free page group at_page
  rw [FreeList, slotAt, if_pos full] at list
  cases list with
  | nil => exact by_contra fun unused => absurd ((free index).mpr ⟨valid, unused⟩) List.not_mem_nil

theorem SlotInv.payload_le (inv : SlotInv layout pages live issued) (at_page : pages[page]? = some group)
    (valid : layout.ValidIndex index) (unused : ¬Used layout pages live page index) : group.payload index ≤ layout.endIndex := by
  obtain ⟨slots, list, free⟩ := inv.free page group at_page
  by_cases zero : group.payload index = 0
  · rw [zero]
    exact Nat.zero_le _
  · have next : group.freeLink layout index = slotAt layout (group.payload index) := by
      rw [PageGroup.freeLink, PageGroup.nextIndex, if_neg zero]
    obtain ended | ⟨after, member, link⟩ := list.next_mem ((free index).mpr ⟨valid, unused⟩)
    · rw [next, slotAt, ite_eq_left_iff] at ended
      exact le_of_eq (by_contra fun different => Option.some_ne_none _ (ended different))
    · rw [next, slotAt, Option.ite_none_left_eq_some] at link
      rw [Option.some.inj link.2]
      exact le_of_lt ((free after).mp member).1.2

theorem SlotInv.getBlock_live (inv : SlotInv layout pages live issued) (member : (anImp, block) ∈ live) :
    getBlock layout pages anImp = block := by
  obtain ⟨page, group, index, at_page, located, -, held, real⟩ := inv.blocks _ member
  rw [getBlock, pageAndIndexContainingIMP_eq, located]
  simp only [at_page, held]
  exact if_neg (Nat.not_le.mpr real)

theorem SlotInv.getBlock_unused (inv : SlotInv layout pages live issued) (member : anImp ∈ issued)
    (unused : ∀ entry ∈ live, pageAndIndexContainingIMP layout pages entry.1 ≠ pageAndIndexContainingIMP layout pages anImp) :
    getBlock layout pages anImp = 0 := by
  obtain ⟨page, index, inside, located, valid⟩ := inv.issued anImp member
  have free : ¬Used layout pages live page index := by
    rintro ⟨entry, inside, same⟩
    refine unused entry inside ?_
    rw [pageAndIndexContainingIMP_eq, pageAndIndexContainingIMP_eq, same, located]
  rw [getBlock, pageAndIndexContainingIMP_eq, located]
  simp only [List.getElem?_eq_getElem inside]
  exact if_pos (inv.payload_le (List.getElem?_eq_getElem inside) valid free)

theorem SlotInv.allocateTrampolinesAndData (inv : SlotInv layout pages live issued)
    (unmapped : ∀ group ∈ pages, group.address + layout.pageMaxSize + layout.textSegmentSize ≤ address ∨
      address + layout.pageMaxSize + layout.textSegmentSize ≤ group.address) :
    SlotInv layout (allocateTrampolinesAndData layout pages address).1 live issued := by
  have same := sameSlots_setLink pages 0 (some pages.length)
  refine (inv.congr same).allocate fun group member => ?_
  have inside : group.address ∈ pages.map (·.address) := by
    rw [same.addresses]
    exact List.mem_map_of_mem member
  obtain ⟨old, inside, eq⟩ := List.mem_map.mp inside
  rw [← eq]
  exact unmapped old inside

/-- The page group that is used, with the list of page groups. -/
structure Opened (layout : Layout) (pages : List PageGroup) (live : List (ℕ × ℕ)) (issued : List ℕ) (page : ℕ)
    (group : PageGroup) (rest : List ℕ) : Prop where
  slots : SlotInv layout pages live issued
  listed : Listed pages rest
  notFull : NotFull layout pages rest
  first : page = 0 ∨ ∃ later, rest = page :: later
  at_page : pages[page]? = some group
  available : group.nextAvailable ≠ layout.endIndex

theorem opened_allocate (slots : SlotInv layout pages live issued) (listed : Listed pages [])
    (unmapped : ∀ group ∈ pages, group.address + layout.pageMaxSize + layout.textSegmentSize ≤ address ∨
      address + layout.pageMaxSize + layout.textSegmentSize ≤ group.address) :
    Opened layout (allocateTrampolinesAndData layout pages address).1 live issued pages.length (.new layout address)
      [pages.length] := by
  have inside := listed.inside 0 List.mem_cons_self
  have new : (allocateTrampolinesAndData layout pages address).1[pages.length]? = some (.new layout address) := by
    have length := length_setLink pages 0 (some pages.length)
    show (setLink pages 0 (some pages.length) ++ [PageGroup.new layout address])[pages.length]? = _
    rw [List.getElem?_append_right (le_of_eq length), length, Nat.sub_self]
    rfl
  have links : available (allocateTrampolinesAndData layout pages address).1 =
      Function.update (available pages) 0 (some pages.length) :=
    (available_append layout (setLink pages 0 (some pages.length)) address).trans (available_setLink inside _)
  have ended : available pages pages.length = none := by
    rw [available, List.getElem?_eq_none le_rfl]
    rfl
  have notFull : (PageGroup.new layout address).nextAvailable ≠ layout.endIndex := Nat.ne_of_lt layout.startIndex_lt
  refine ⟨slots.allocateTrampolinesAndData unmapped, ⟨?_, fun other member => ?_⟩, fun other member => ?_, .inr ⟨[], rfl⟩,
    new, notFull⟩
  · rw [links]
    refine .cons ?_
    rw [Function.update_self]
    refine .cons ?_
    rw [Function.update_of_ne (Nat.ne_of_gt inside), ended]
    exact .nil
  · have size : (allocateTrampolinesAndData layout pages address).1.length = pages.length + 1 := by
      rw [Trampolines.allocateTrampolinesAndData, List.length_append, List.length_modify, List.length_singleton]
    rw [size]
    obtain rfl | last := List.mem_cons.mp member
    · exact Nat.succ_pos _
    · rw [List.mem_singleton.mp last]
      exact Nat.lt_succ_self _
  · rw [List.mem_singleton.mp member]
    exact ⟨_, new, notFull⟩

theorem complete_allocate (full : ∀ group ∈ pages, group.nextAvailable = layout.endIndex) :
    Complete layout (allocateTrampolinesAndData layout pages address).1 [pages.length] := by
  intro page group at_page room
  have length := length_setLink pages 0 (some pages.length)
  have at_page : (setLink pages 0 (some pages.length) ++ [PageGroup.new layout address])[page]? = some group := at_page
  rcases Nat.lt_or_ge page pages.length with before | after
  · rw [List.getElem?_append_left (by rwa [length])] at at_page
    obtain ⟨old, at_old, same⟩ := (sameSlots_setLink pages 0 (some pages.length)).getElem? at_page
    have nextAvailable : old.nextAvailable = group.nextAvailable := congrArg (fun slots => slots.2.1) same
    exact absurd (nextAvailable.symm.trans (full old (List.mem_of_getElem? at_old))) room
  · have inside := (List.getElem?_eq_some_iff.mp at_page).1
    rw [List.length_append, List.length_singleton, length] at inside
    obtain rfl : page = pages.length := by omega
    exact List.mem_cons_of_mem _ List.mem_cons_self

theorem getOrAllocate_linked {head : PageGroup} {others : List PageGroup} (full : head.nextAvailable = layout.endIndex) :
    getOrAllocate layout (head :: others) address =
      match head.nextAvailablePage with
      | some page => (head :: others, page)
      | none => allocateTrampolinesAndData layout (head :: others) address :=
  if_neg (not_not.mpr full)

theorem SlotInv.opened (slots : SlotInv layout pages live issued)
    (listed : pages = [] ∨ ∃ rest, Listed pages rest ∧ NotFull layout pages rest)
    (unmapped : ∀ group ∈ pages, group.address + layout.pageMaxSize + layout.textSegmentSize ≤ address ∨
      address + layout.pageMaxSize + layout.textSegmentSize ≤ group.address) :
    ∃ pages' page group rest, getOrAllocate layout pages address = (pages', page) ∧
      Opened layout pages' live issued page group rest ∧
      (AllReached layout pages → Complete layout pages' rest ∧
        (pages'.length ≠ pages.length → ∀ group ∈ pages, group.nextAvailable = layout.endIndex)) := by
  cases pages with
  | nil =>
      have new : Opened layout [.new layout address] live issued 0 (.new layout address) [] := by
        refine ⟨slots.allocateTrampolinesAndData unmapped, ⟨.cons .nil, fun other member => ?_⟩, nofun, .inl rfl, rfl,
          Nat.ne_of_lt layout.startIndex_lt⟩
        rw [List.mem_singleton.mp member]
        exact Nat.one_pos
      refine ⟨_, _, _, _, rfl, new, fun _ => ⟨fun page group at_page _ => ?_, fun _ => nofun⟩⟩
      have inside := (List.getElem?_eq_some_iff.mp at_page).1
      rw [List.mem_singleton]
      exact Nat.lt_one_iff.mp inside
  | cons head others =>
      obtain ⟨rest, listed, notFull⟩ := listed.resolve_left (List.cons_ne_nil _ _)
      by_cases full : head.nextAvailable = layout.endIndex
      · have linked : Linked (available (head :: others)) head.nextAvailablePage rest := listed.linked.tail.2
        rw [getOrAllocate_linked full]
        cases head_link : head.nextAvailablePage with
        | some page =>
            rw [head_link] at linked
            cases linked with
            | @cons _ later _ =>
                obtain ⟨group, at_page, room⟩ := notFull page List.mem_cons_self
                exact ⟨_, _, group, page :: later, rfl, ⟨slots, listed, notFull, .inr ⟨later, rfl⟩, at_page, room⟩,
                  fun reached => ⟨listed.allReached_iff.mp reached, fun grown => absurd rfl grown⟩⟩
        | none =>
            rw [head_link] at linked
            cases linked with
            | nil =>
                refine ⟨_, _, _, _, rfl, opened_allocate slots listed unmapped, fun reached => ?_⟩
                have all_full (group : PageGroup) (member : group ∈ head :: others) : group.nextAvailable = layout.endIndex := by
                  by_contra room
                  obtain ⟨page, at_page⟩ := List.mem_iff_getElem?.mp member
                  obtain rfl := List.mem_singleton.mp (listed.allReached_iff.mp reached page group at_page room)
                  obtain rfl := Option.some.inj at_page
                  exact room full
                exact ⟨complete_allocate all_full, fun _ => all_full⟩
      · exact ⟨_, _, _, _, if_pos full, ⟨slots, listed, notFull, .inl rfl, rfl, full⟩,
          fun reached => ⟨listed.allReached_iff.mp reached, fun grown => absurd rfl grown⟩⟩

/-- The page group's next available slot is the one after that. -/
def advance (page next : ℕ) (pages : List PageGroup) : List PageGroup :=
  pages.modify page fun group => { group with nextAvailable := next }

/-- A slot of the page group has a block. -/
def store (page index block : ℕ) (pages : List PageGroup) : List PageGroup :=
  pages.modify page fun group => { group with payload := Function.update group.payload index block }

theorem implementationWithBlock_eq {argumentModeForBlock : ℕ → Fin layout.argumentModeCount}
    (opened : getOrAllocate layout pages address = (pages', page)) (at_page : pages'[page]? = some group)
    (valid : layout.ValidIndex group.nextAvailable) :
    implementationWithBlock layout argumentModeForBlock pages address block =
      (if group.nextIndex group.nextAvailable = layout.endIndex then
        unlink (advance page (group.nextIndex group.nextAvailable) pages') page
      else some (advance page (group.nextIndex group.nextAvailable) pages')).map fun linked =>
        (store page group.nextAvailable block linked,
          layout.trampoline group.address (argumentModeForBlock block) group.nextAvailable) := by
  rw [implementationWithBlock, opened]
  simp only [at_page, Option.bind_eq_bind, Option.bind_some, valid, if_true]
  split <;> simp [advance, store, Option.map_eq_bind]

theorem modify_eq_of_eq {α : Type*} {f g : α → α} {list : List α} {i : ℕ} {a : α} (at_i : list[i]? = some a) (same : f a = g a) :
    list.modify i f = list.modify i g := by
  refine List.ext_getElem? fun j => ?_
  rw [List.getElem?_modify, List.getElem?_modify]
  by_cases here : i = j
  · subst here
    simp [at_i, same]
  · simp [here]

theorem map_store (page index block : ℕ) (pages : List PageGroup) :
    (store page index block pages).map PageGroup.slots =
      (pages.map PageGroup.slots).modify page fun slots => (slots.1, slots.2.1, Function.update slots.2.2 index block) := by
  refine List.ext_getElem? fun other => ?_
  rw [store, List.getElem?_map, List.getElem?_modify, List.getElem?_modify, List.getElem?_map]
  by_cases here : page = other
  · simp [here, PageGroup.slots, Function.comp_def]
  · simp [here]

theorem SameSlots.store (same : SameSlots pages pages') (page index block : ℕ) :
    SameSlots (store page index block pages) (store page index block pages') := by
  rw [SameSlots, map_store, map_store, same]

theorem store_advance (at_page : pages[page]? = some group) (block : ℕ) :
    store page group.nextAvailable block (advance page (group.nextIndex group.nextAvailable) pages) =
      pages.modify page (PageGroup.take block) := by
  rw [store, advance, List.modify_modify_eq]
  exact modify_eq_of_eq at_page rfl

theorem nextAvailables_store (page index block : ℕ) (pages : List PageGroup) :
    (store page index block pages).map (·.nextAvailable) = pages.map (·.nextAvailable) :=
  @map_modify_same _ _ (fun group : PageGroup => { group with payload := Function.update group.payload index block })
    (·.nextAvailable) (fun _ => rfl) pages page

theorem available_store (page index block : ℕ) (pages : List PageGroup) :
    available (store page index block pages) = available pages :=
  @available_modify_same (fun group => { group with payload := Function.update group.payload index block }) (fun _ => rfl)
    pages page

theorem available_advance (page next : ℕ) (pages : List PageGroup) : available (advance page next pages) = available pages :=
  @available_modify_same (fun group => { group with nextAvailable := next }) (fun _ => rfl) pages page

theorem Opened.advanced (opened : Opened layout pages live issued page group rest) (next : ℕ) :
    ∃ linked rest', (if next = layout.endIndex then unlink (advance page next pages) page else some (advance page next pages)) =
        some linked ∧ SameSlots (advance page next pages) linked ∧ Listed linked rest' ∧ NotFull layout linked rest' ∧
      (Complete layout pages rest → Complete layout linked rest') := by
  have listed : Listed (advance page next pages) rest :=
    opened.listed.congr (available_advance ..) (List.length_modify ..)
  have here : (advance page next pages)[page]? = some { group with nextAvailable := next } := by
    rw [advance, List.getElem?_modify_eq, opened.at_page]
    rfl
  have elsewhere {other : ℕ} (different : page ≠ other) : (advance page next pages)[other]? = pages[other]? :=
    List.getElem?_modify_ne _ _ different
  by_cases full : next = layout.endIndex
  · rw [if_pos full]
    -- the page group is not in the list any more, or is the head
    have complete {later : List ℕ} (kept : ∀ other ∈ 0 :: rest, other ≠ page → other ∈ 0 :: later)
        (complete : Complete layout pages rest) : Complete layout (advance page next pages) later := by
      intro other group' at_other room
      by_cases same : page = other
      · subst same
        obtain rfl := Option.some.inj (here.symm.trans at_other)
        exact absurd full room
      · rw [elsewhere same] at at_other
        exact kept other (complete other group' at_other room) (Ne.symm same)
    obtain rfl | ⟨later, rfl⟩ := opened.first
    · exact ⟨_, rest, listed.unlink_head, rfl, listed, opened.notFull.modify opened.listed.head_not_mem _,
        complete fun other member _ => member⟩
    · obtain ⟨linked, unlinked, same, listed'⟩ := listed.unlink_first
      have absent : page ∉ later := (List.nodup_cons.mp (List.nodup_cons.mp listed.linked.nodup).2).1
      have notFull : NotFull layout pages later := fun other member => opened.notFull other (List.mem_cons_of_mem _ member)
      refine ⟨linked, later, unlinked, same, listed', (notFull.modify absent _).congr same.nextAvailables, fun known =>
        (complete (fun other member different => ?_) known).congr same.nextAvailables⟩
      simp only [List.mem_cons] at member ⊢
      exact member.imp_right fun member => member.resolve_left different
  · rw [if_neg full]
    refine ⟨_, rest, rfl, rfl, listed, fun other member => ?_, fun complete other group' at_other room => ?_⟩
    · by_cases same : page = other
      · subst same
        exact ⟨_, here, full⟩
      · rw [elsewhere same]
        exact opened.notFull other member
    · by_cases same : page = other
      · subst same
        exact complete page group opened.at_page opened.available
      · rw [elsewhere same] at at_other
        exact complete other group' at_other room

theorem SlotInv.created (slots : SlotInv layout pages live issued)
    (listed : pages = [] ∨ ∃ rest, Listed pages rest ∧ NotFull layout pages rest)
    (argumentModeForBlock : ℕ → Fin layout.argumentModeCount) (real : layout.endIndex < block)
    (unmapped : ∀ group ∈ pages, group.address + layout.pageMaxSize + layout.textSegmentSize ≤ address ∨
      address + layout.pageMaxSize + layout.textSegmentSize ≤ group.address) :
    ∃ opened page group pages' rest, getOrAllocate layout pages address = (opened, page) ∧ opened[page]? = some group ∧
      layout.ValidIndex group.nextAvailable ∧ ¬Used layout opened live page group.nextAvailable ∧
      group.payload group.nextAvailable ≤ layout.endIndex ∧
      implementationWithBlock layout argumentModeForBlock pages address block =
        some (pages', layout.trampoline group.address (argumentModeForBlock block) group.nextAvailable) ∧
      SlotInv layout pages'
        (live ++ [(layout.trampoline group.address (argumentModeForBlock block) group.nextAvailable, block)])
        (issued ++ [layout.trampoline group.address (argumentModeForBlock block) group.nextAvailable]) ∧
      Listed pages' rest ∧ NotFull layout pages' rest ∧ (AllReached layout pages → Complete layout pages' rest) := by
  obtain ⟨opened, page, group, rest, eq, known, reached⟩ := slots.opened listed unmapped
  obtain ⟨valid, unused⟩ := (known.slots.nextAvailable known.at_page).resolve_left known.available
  obtain ⟨linked, rest', run, same, listed', notFull, complete⟩ := known.advanced (group.nextIndex group.nextAvailable)
  have links := available_store page group.nextAvailable block linked
  have nextAvailables := (nextAvailables_store page group.nextAvailable block linked).symm
  refine ⟨opened, page, group, store page group.nextAvailable block linked, rest', eq, known.at_page, valid, unused,
    known.slots.payload_le known.at_page valid unused, ?_, ?_, listed'.congr links (List.length_modify ..),
    notFull.congr nextAvailables, fun before => (complete (reached before).1).congr nextAvailables⟩
  · rw [implementationWithBlock_eq eq known.at_page valid, run]
    rfl
  · refine SlotInv.congr ?_ (same.store page group.nextAvailable block)
    rw [store_advance known.at_page]
    exact known.slots.take known.at_page known.available real (argumentModeForBlock block).isLt rfl

/-- The `IMP` is of the head page group, and other page groups are linked from there. -/
def CutsOff (layout : Layout) (pages : List PageGroup) (anImp : ℕ) : Prop :=
  (pageAndIndexContainingIMP layout pages anImp).map Prod.fst = some 0 ∧ (available pages 0).isSome

instance (anImp : ℕ) : Decidable (CutsOff layout pages anImp) := inferInstanceAs (Decidable (_ ∧ _))

theorem Listed.isSome_iff (listed : Listed pages rest) : (available pages 0).isSome ↔ rest ≠ [] := by
  have linked := listed.linked.tail.2
  generalize available pages 0 = link at linked
  cases linked with
  | nil => simp
  | cons tail => simp

/-- The page group of a slot that is released. -/
structure Released (layout : Layout) (pages released : List PageGroup) (page : ℕ) (rest : List ℕ) : Prop where
  listed : Listed released rest
  at_page : ∃ group, released[page]? = some group ∧ group.nextAvailable ≠ layout.endIndex
  elsewhere : ∀ other, page ≠ other → released[other]? = pages[other]?

theorem Released.notFull {released : List PageGroup} {rest' : List ℕ} (here : Released layout pages released page rest)
    (notFull : NotFull layout pages rest) (part : ∀ other ∈ rest', page ≠ other → other ∈ rest) :
    NotFull layout released rest' := by
  intro other member
  by_cases same : page = other
  · exact same ▸ here.at_page
  · rw [here.elsewhere other same]
    exact notFull other (part other member same)

theorem Released.complete {released : List PageGroup} {rest' : List ℕ} (here : Released layout pages released page rest)
    (complete : Complete layout pages rest) (member : page ∈ 0 :: rest') (part : ∀ other ∈ 0 :: rest, other ∈ 0 :: rest') :
    Complete layout released rest' := by
  intro other group at_other room
  by_cases same : page = other
  · exact same ▸ member
  · rw [here.elsewhere other same] at at_other
    exact part other (complete other group at_other room)

theorem Released.linked {released : List PageGroup} (here : Released layout pages released page rest)
    (notFull : NotFull layout pages rest) :
    ∃ pages' rest', linkLast released page = some pages' ∧ SameSlots released pages' ∧ Listed pages' rest' ∧
      NotFull layout pages' rest' ∧
      (Complete layout pages rest → (Complete layout pages' rest' ↔ ¬(page = 0 ∧ rest ≠ []))) := by
  have listed := here.listed
  obtain ⟨group, at_page, room⟩ := here.at_page
  by_cases head : page = 0
  · subst head
    obtain ⟨pages', run, same, listed'⟩ := listed.linkLast_head
    refine ⟨pages', [], run, same, listed', nofun, fun complete => ⟨?_, fun alone => ?_⟩⟩
    · rintro complete' ⟨-, more⟩
      -- the page group that the head was linked to is lost
      obtain ⟨next, later, rfl⟩ := List.exists_cons_of_ne_nil more
      have different : 0 ≠ next := fun same => listed.head_not_mem (same ▸ List.mem_cons_self)
      obtain ⟨lost, at_lost, lost_room⟩ := notFull next List.mem_cons_self
      rw [← here.elsewhere next different] at at_lost
      obtain ⟨lost', at_lost', nextAvailable⟩ := getElem?_of_map_eq same.nextAvailables at_lost
      exact different (List.mem_singleton.mp (complete' next lost' at_lost' (by rwa [nextAvailable]))).symm
    · obtain rfl : rest = [] := by_contra fun more => alone ⟨rfl, more⟩
      exact (here.complete complete List.mem_cons_self fun _ => id).congr same.nextAvailables
  · by_cases member : page ∈ rest
    · refine ⟨released, rest, listed.linkLast_mem member, rfl, listed, here.notFull notFull fun _ inside _ => inside,
        fun complete => iff_of_true ?_ fun both => head both.1⟩
      exact here.complete complete (List.mem_cons_of_mem _ member) fun _ => id
    · obtain ⟨pages', run, same, listed'⟩ := listed.linkLast_absent
        (fun inside => (List.mem_cons.mp inside).elim head member) (List.getElem?_eq_some_iff.mp at_page).1
      refine ⟨pages', rest ++ [page], run, same, listed', (here.notFull notFull fun other inside different => ?_).congr
        same.nextAvailables, fun complete => iff_of_true ?_ fun both => head both.1⟩
      · exact (List.mem_append.mp inside).resolve_right fun last => different (List.mem_singleton.mp last).symm
      · refine (here.complete complete (by simp) fun other inside => ?_).congr same.nextAvailables
        exact List.cons_append ▸ List.mem_append_left _ inside

theorem SlotInv.removed (slots : SlotInv layout pages live issued)
    (listed : pages = [] ∨ ∃ rest, Listed pages rest ∧ NotFull layout pages rest) (member : (anImp, block) ∈ live) :
    ∃ pages' rest, removeBlock layout pages anImp = some pages' ∧ SlotInv layout pages' (live.erase (anImp, block)) issued ∧
      Listed pages' rest ∧ NotFull layout pages' rest ∧
      (AllReached layout pages → (Complete layout pages' rest ↔ ¬CutsOff layout pages anImp)) := by
  obtain ⟨page, group, index, at_page, located, valid, -⟩ := slots.blocks _ member
  have nonempty : pages ≠ [] := List.ne_nil_of_mem (List.mem_of_getElem? at_page)
  obtain ⟨rest, listed, notFull⟩ := listed.resolve_left nonempty
  have here : Released layout pages (pages.modify page (PageGroup.release index)) page rest := by
    refine ⟨listed.congr (@available_modify_same (PageGroup.release index) (fun _ => rfl) pages page) (List.length_modify ..),
      ⟨group.release index, ?_, Nat.ne_of_lt valid.2⟩, fun other different => List.getElem?_modify_ne _ _ different⟩
    rw [List.getElem?_modify_eq, at_page]
    rfl
  obtain ⟨pages', rest', run, same, listed', notFull', complete⟩ := here.linked notFull
  have cutsOff : CutsOff layout pages anImp ↔ page = 0 ∧ rest ≠ [] := by
    rw [CutsOff, pageAndIndexContainingIMP_eq, located, listed.isSome_iff, Option.map_some, Option.some_inj]
  refine ⟨pages', rest', ?_, (slots.release member at_page located).congr same, listed', notFull', fun reached => ?_⟩
  · rw [removeBlock, pageAndIndexContainingIMP_eq, located]
    exact run
  · rw [cutsOff]
    exact complete (listed.allReached_iff.mp reached)

theorem Step.inv (inv : Inv layout process) (step : Step layout process process') : Inv layout process' := by
  cases step with
  | @implementationWithBlock argumentModeForBlock address block anImp pages real unmapped run =>
      obtain ⟨_, _, _, pages', rest, -, -, -, -, -, run', slots, listed, notFull, -⟩ :=
        inv.slots.created inv.listed argumentModeForBlock real unmapped
      obtain ⟨rfl, rfl⟩ := Prod.mk.inj (Option.some.inj (run'.symm.trans run))
      exact ⟨slots, .inr ⟨rest, listed, notFull⟩⟩
  | @removeBlock anImp block pages live run =>
      obtain ⟨pages', rest, run', slots, listed, notFull, -⟩ := inv.slots.removed inv.listed live
      obtain rfl := Option.some.inj (run'.symm.trans run)
      exact ⟨slots, .inr ⟨rest, listed, notFull⟩⟩

theorem inv_of_reachable (reachable : Relation.ReflTransGen (Step layout) .start process) : Inv layout process := by
  induction reachable with
  | refl => exact start_inv layout
  | tail _ step ih => exact step.inv ih

/-- What holds of the block trampolines of a process. -/
structure WellFormed (layout : Layout) (process : Process) : Prop where
  distinct : (process.live.map Prod.fst).Nodup
  getBlock_live : ∀ entry ∈ process.live, getBlock layout process.pages entry.1 = entry.2
  /-- The slot of an `IMP` that is not in use has not been handed out again, for any argument mode. -/
  getBlock_removed : ∀ anImp ∈ process.issued, (∀ entry ∈ process.live, pageAndIndexContainingIMP layout process.pages entry.1 ≠
    pageAndIndexContainingIMP layout process.pages anImp) → getBlock layout process.pages anImp = 0
  creates : ∀ (argumentModeForBlock : ℕ → Fin layout.argumentModeCount) (address block : ℕ), layout.endIndex < block →
    process.Unmapped layout address → ∃ opened page group pages', getOrAllocate layout process.pages address = (opened, page) ∧
      opened[page]? = some group ∧ layout.ValidIndex group.nextAvailable ∧
      ¬Used layout opened process.live page group.nextAvailable ∧ group.payload group.nextAvailable ≤ layout.endIndex ∧
      implementationWithBlock layout argumentModeForBlock process.pages address block =
        some (pages', layout.trampoline group.address (argumentModeForBlock block) group.nextAvailable)
  removes : ∀ entry ∈ process.live, ∃ pages', removeBlock layout process.pages entry.1 = some pages'
  acyclic : process.pages ≠ [] → ∃ items, Linked (available process.pages) (some 0) items ∧ items.Nodup
  freeLists : ∀ (page : ℕ) (group : PageGroup), process.pages[page]? = some group → ∃ slots, FreeList layout group slots ∧
    slots.Nodup ∧ ∀ index, index ∈ slots ↔ layout.ValidIndex index ∧ ¬Used layout process.pages process.live page index

/-- In every run of creating and removing block trampolines, nothing goes wrong. -/
theorem wellFormed_of_reachable (reachable : Relation.ReflTransGen (Step layout) .start process) :
    WellFormed layout process := by
  obtain ⟨slots, listed⟩ := inv_of_reachable reachable
  refine ⟨?_, fun entry member => slots.getBlock_live member, fun anImp member => slots.getBlock_unused member,
    fun argumentModeForBlock address block real unmapped => ?_, fun entry member => ?_, fun nonempty => ?_,
    fun page group at_page => ?_⟩
  · refine List.Nodup.of_map (locate layout (process.pages.map (·.address))) ?_
    rw [List.map_map]
    exact slots.distinct
  · obtain ⟨opened, page, group, pages', _, eq, at_page, valid, unused, free, run, -⟩ :=
      slots.created listed argumentModeForBlock real unmapped
    exact ⟨opened, page, group, pages', eq, at_page, valid, unused, free, run⟩
  · obtain ⟨pages', _, run, -⟩ := slots.removed listed member
    exact ⟨pages', run⟩
  · obtain ⟨rest, listed, -⟩ := listed.resolve_left nonempty
    exact ⟨_, listed.linked, listed.linked.nodup⟩
  · obtain ⟨slots, list, free⟩ := slots.free page group at_page
    exact ⟨slots, list, list.nodup, free⟩

/-- Trampolines that return in registers, and those that return on the stack. -/
def x86_64 : Layout :=
  ⟨4096, 32, 2, 12288, 0, by decide, by decide, by decide, by decide, by decide, Nat.zero_lt_succ 7⟩

theorem wellFormed_of_reachable_one :
    WellFormed x86_64 ⟨[⟨65536, none, 5, Function.update (fun _ => 0) 4 4096⟩], [(73760, 4096)], [73760]⟩ :=
  wellFormed_of_reachable (.single (@Step.implementationWithBlock x86_64 .start (fun _ => ⟨0, by decide⟩) 65536 4096 73760 _
    (by decide) nofun rfl))

/-- A slot is handed out again for a block with the other argument mode: the removed `IMP` has its block. -/
theorem getBlock_removed_otherMode : ∃ process anImp, Relation.ReflTransGen (Step x86_64) .start process ∧
    process.issued.count anImp = 1 ∧ anImp ∉ process.live.map Prod.fst ∧ getBlock x86_64 process.pages anImp ≠ 0 := by
  have created : Step x86_64 .start ⟨[⟨65536, none, 5, Function.update (fun _ => 0) 4 4096⟩], [(73760, 4096)], [73760]⟩ :=
    @Step.implementationWithBlock x86_64 .start (fun _ => ⟨0, by decide⟩) 65536 4096 73760 _ (by decide) nofun rfl
  have removed : Step x86_64 ⟨[⟨65536, none, 5, Function.update (fun _ => 0) 4 4096⟩], [(73760, 4096)], [73760]⟩
      ⟨[⟨65536, none, 4, Function.update (Function.update (fun _ => 0) 4 4096) 4 5⟩], [], [73760]⟩ := by
    have step := @Step.removeBlock x86_64 ⟨[⟨65536, none, 5, Function.update (fun _ => 0) 4 4096⟩], [(73760, 4096)], [73760]⟩
      73760 4096 _ List.mem_cons_self rfl
    rwa [List.erase_cons_head] at step
  have reissued : Step x86_64 ⟨[⟨65536, none, 4, Function.update (Function.update (fun _ => 0) 4 4096) 4 5⟩], [], [73760]⟩
      ⟨[⟨65536, none, 5, Function.update (Function.update (Function.update (fun _ => 0) 4 4096) 4 5) 4 8192⟩],
        [(77856, 8192)], [73760, 77856]⟩ :=
    @Step.implementationWithBlock x86_64 ⟨_, [], [73760]⟩ (fun _ => ⟨1, by decide⟩) 131072 8192 77856 _ (by decide)
      (fun _ member => .inl (List.mem_singleton.mp member ▸ by decide)) rfl
  exact ⟨_, 73760, .tail (.tail (.single created) removed) reissued, by simp, by simp, by decide⟩

end ObjcDyld.Trampolines
