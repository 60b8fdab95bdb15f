import ObjcDyld.Trampolines.FreeLists

/-!
# The list of page groups with available slots

The head page group starts the list, whether it has available slots or not; all others in the list
have some. Taking the last slot of a page group takes it out, and putting it in puts it last. But
the head page group cannot be put in: it becomes the end of the list, so the list is cut off after it.
-/

namespace ObjcDyld.Trampolines

open LinkedChains (Linked walk walk_found walk_last)

variable {layout : Layout} {pages pages' : List PageGroup} {page : ℕ} {rest : List ℕ}

theorem available_modify_same {change : PageGroup → PageGroup}
    (same : ∀ group, (change group).nextAvailablePage = group.nextAvailablePage) (pages : List PageGroup) (page : ℕ) :
    available (pages.modify page change) = available pages := by
  funext other
  rw [available, List.getElem?_modify, available]
  cases pages[other]? with
  | none => rfl
  | some group =>
      by_cases here : page = other
      · simp [here, same]
      · simp [here]

def setLink (pages : List PageGroup) (page : ℕ) (link : Option ℕ) : List PageGroup :=
  pages.modify page fun group => { group with nextAvailablePage := link }

theorem available_setLink (inside : page < pages.length) (link : Option ℕ) :
    available (setLink pages page link) = Function.update (available pages) page link := by
  funext other
  rw [available, setLink]
  by_cases here : page = other
  · subst here
    rw [List.getElem?_modify_eq, List.getElem?_eq_getElem inside, Function.update_self]
    rfl
  · rw [List.getElem?_modify_ne _ _ here, Function.update_of_ne (Ne.symm here), available]

theorem length_setLink (pages : List PageGroup) (page : ℕ) (link : Option ℕ) :
    (setLink pages page link).length = pages.length := List.length_modify ..

theorem sameSlots_setLink (pages : List PageGroup) (page : ℕ) (link : Option ℕ) : SameSlots pages (setLink pages page link) :=
  Eq.symm (@map_modify_same _ _ (fun group : PageGroup => { group with nextAvailablePage := link }) PageGroup.slots
    (fun _ => rfl) pages page)

theorem SameSlots.trans {middle : List PageGroup} (first : SameSlots pages middle) (second : SameSlots middle pages') :
    SameSlots pages pages' := Eq.trans first second

theorem available_append (layout : Layout) (pages : List PageGroup) (address : ℕ) :
    available (pages ++ [PageGroup.new layout address]) = available pages := by
  funext other
  rw [available, available, List.getElem?_append]
  split
  · rfl
  · next beyond =>
      rw [List.getElem?_eq_none_iff.mpr (Nat.not_lt.mp beyond)]
      cases other - pages.length with
      | zero => rfl
      | succ more => rfl

theorem SameSlots.length (same : SameSlots pages pages') : pages.length = pages'.length := by
  simpa using congrArg List.length same

structure Listed (pages : List PageGroup) (rest : List ℕ) : Prop where
  linked : Linked (available pages) (some 0) (0 :: rest)
  inside : ∀ page ∈ 0 :: rest, page < pages.length

/-- These page groups have available slots. -/
def NotFull (layout : Layout) (pages : List PageGroup) (rest : List ℕ) : Prop :=
  ∀ page ∈ rest, ∃ group, pages[page]? = some group ∧ group.nextAvailable ≠ layout.endIndex

/-- Every page group with available slots is the head page group or is reached from there. -/
def AllReached (layout : Layout) (pages : List PageGroup) : Prop :=
  ∀ (page : ℕ) (group : PageGroup), pages[page]? = some group → group.nextAvailable ≠ layout.endIndex →
    ∃ items, Linked (available pages) (some 0) items ∧ page ∈ items

theorem Listed.reached_iff (listed : Listed pages rest) :
    (∃ items, Linked (available pages) (some 0) items ∧ page ∈ items) ↔ page ∈ 0 :: rest := by
  constructor
  · rintro ⟨items, linked, member⟩
    rwa [listed.linked.functional linked]
  · exact fun member => ⟨_, listed.linked, member⟩

theorem Listed.length_le (listed : Listed pages rest) :
    (0 :: rest).length ≤ pages.length := by
  have inside : 0 :: rest ⊆ List.range pages.length := fun page member =>
    List.mem_range.mpr (listed.inside page member)
  have counted := (listed.linked.nodup.subperm inside).length_le
  rwa [List.length_range] at counted

theorem Listed.walk_mem (listed : Listed pages rest) {before after : List ℕ} {last : ℕ}
    (split : 0 :: rest = before ++ last :: page :: after) : walk (available pages) page pages.length 0 = some last := by
  have linked := listed.linked
  have length := listed.length_le
  rw [split] at linked length
  refine walk_found linked ?_
  simp only [List.length_append, List.length_cons] at length
  omega

theorem Listed.walk_not_mem (listed : Listed pages rest) (absent : page ∉ rest) :
    ∃ before last, 0 :: rest = before ++ [last] ∧ walk (available pages) page pages.length 0 = some last ∧
      available pages last = none := by
  obtain ⟨before, last, split⟩ : ∃ before last, 0 :: rest = before ++ [last] :=
    ⟨_, _, (List.dropLast_concat_getLast (List.cons_ne_nil 0 rest)).symm⟩
  have linked := listed.linked
  have length := listed.length_le
  have tail : rest = (before ++ [last]).tail := by rw [← split, List.tail_cons]
  rw [split] at linked length
  refine ⟨before, last, split, walk_last linked (tail ▸ absent) ?_, ?_⟩
  · rw [List.length_append, List.length_singleton] at length
    omega
  · have ended := linked.drop.tail.2
    generalize available pages last = link at ended
    cases ended with
    | nil => rfl

theorem SameSlots.nextAvailables (same : SameSlots pages pages') :
    pages.map (·.nextAvailable) = pages'.map (·.nextAvailable) := by
  have := congrArg (List.map fun slots => slots.2.1) same
  rwa [List.map_map, List.map_map] at this

theorem getElem?_of_map_eq {group : PageGroup} (same : pages.map (·.nextAvailable) = pages'.map (·.nextAvailable))
    (at_page : pages[page]? = some group) : ∃ group', pages'[page]? = some group' ∧ group'.nextAvailable = group.nextAvailable := by
  have at_slots : (pages'.map (·.nextAvailable))[page]? = some group.nextAvailable := by
    rw [← same, List.getElem?_map, at_page]
    rfl
  rwa [List.getElem?_map, Option.map_eq_some_iff] at at_slots

theorem NotFull.congr (notFull : NotFull layout pages rest)
    (same : pages.map (·.nextAvailable) = pages'.map (·.nextAvailable)) : NotFull layout pages' rest := by
  intro page member
  obtain ⟨group, at_page, notFull⟩ := notFull page member
  obtain ⟨group', at_page', nextAvailable⟩ := getElem?_of_map_eq same at_page
  exact ⟨group', at_page', by rwa [nextAvailable]⟩

theorem NotFull.modify (notFull : NotFull layout pages rest) (absent : page ∉ rest) (change : PageGroup → PageGroup) :
    NotFull layout (pages.modify page change) rest := by
  intro other member
  have different : page ≠ other := by
    rintro rfl
    exact absent member
  rw [List.getElem?_modify_ne _ _ different]
  exact notFull other member

def Complete (layout : Layout) (pages : List PageGroup) (rest : List ℕ) : Prop :=
  ∀ (page : ℕ) (group : PageGroup), pages[page]? = some group → group.nextAvailable ≠ layout.endIndex → page ∈ 0 :: rest

theorem Listed.allReached_iff (listed : Listed pages rest) :
    AllReached layout pages ↔ Complete layout pages rest :=
  forall_congr' fun _ => forall_congr' fun _ => forall_congr' fun _ => forall_congr' fun _ => listed.reached_iff

theorem Complete.congr (complete : Complete layout pages rest)
    (same : pages.map (·.nextAvailable) = pages'.map (·.nextAvailable)) : Complete layout pages' rest := by
  intro page group at_page notFull
  obtain ⟨old, at_old, nextAvailable⟩ := getElem?_of_map_eq same.symm at_page
  exact complete page old at_old (by rwa [nextAvailable])

theorem Listed.congr (listed : Listed pages rest) (links : available pages' = available pages)
    (length : pages'.length = pages.length) : Listed pages' rest :=
  ⟨links ▸ listed.linked, length ▸ listed.inside⟩

theorem Listed.head_not_mem (listed : Listed pages rest) : 0 ∉ rest := (List.nodup_cons.mp listed.linked.nodup).1

theorem Listed.unlink_head (listed : Listed pages rest) : unlink pages 0 = some pages := by
  obtain ⟨before, last, split, walks, ended⟩ := listed.walk_not_mem listed.head_not_mem
  rw [unlink, walks]
  simp only [Option.bind_eq_bind, Option.bind_some, ended]
  rfl

theorem Listed.unlink_first (listed : Listed pages (page :: rest)) :
    ∃ pages', unlink pages page = some pages' ∧ SameSlots pages pages' ∧ Listed pages' rest := by
  have walks := listed.walk_mem (show 0 :: page :: rest = [] ++ 0 :: page :: rest from rfl)
  have head_inside := listed.inside 0 List.mem_cons_self
  have inside := listed.inside page (List.mem_cons_of_mem _ List.mem_cons_self)
  have nodup := listed.linked.nodup
  have linked := listed.linked.tail.2
  have first : available pages 0 = some page := by
    generalize available pages 0 = link at linked
    cases linked with
    | cons tail => rfl
  have tail : Linked (available pages) (available pages page) rest := by
    rw [first] at linked
    exact linked.tail.2
  have head : (0 : ℕ) ≠ page := by
    rintro rfl
    simp at nodup
  have same : SameSlots pages (setLink (setLink pages 0 (available pages page)) page none) :=
    (sameSlots_setLink _ _ _).trans (sameSlots_setLink _ _ _)
  refine ⟨setLink (setLink pages 0 (available pages page)) page none, ?_, same, ?_, fun other member => ?_⟩
  · rw [unlink, walks]
    simp only [Option.bind_eq_bind, Option.bind_some, first, if_true]
    rfl
  · rw [available_setLink (by rwa [length_setLink]), available_setLink head_inside]
    refine .cons ?_
    rw [Function.update_of_ne head, Function.update_self]
    refine tail.congr fun other member => ?_
    have other_head : other ≠ 0 := by
      rintro rfl
      exact (List.nodup_cons.mp nodup).1 (List.mem_cons_of_mem _ member)
    have other_page : other ≠ page := by
      rintro rfl
      exact (List.nodup_cons.mp (List.nodup_cons.mp nodup).2).1 member
    rw [Function.update_of_ne other_page, Function.update_of_ne other_head]
  · rw [← same.length]
    obtain rfl | later := List.mem_cons.mp member
    · exact head_inside
    · exact listed.inside other (List.mem_cons_of_mem _ (List.mem_cons_of_mem _ later))

theorem Listed.linkLast_mem (listed : Listed pages rest) (member : page ∈ rest) :
    linkLast pages page = some pages := by
  obtain ⟨earlier, after, split⟩ := List.append_of_mem member
  obtain ⟨before, last, eq⟩ : ∃ before last, 0 :: earlier = before ++ [last] :=
    ⟨_, _, (List.dropLast_concat_getLast (List.cons_ne_nil 0 earlier)).symm⟩
  have whole : 0 :: rest = before ++ last :: page :: after := by
    rw [split, ← List.cons_append, eq, List.append_assoc, List.singleton_append]
  have linked := listed.linked
  rw [whole] at linked
  have link : available pages last = some page := by
    have tail := linked.drop.tail.2
    generalize available pages last = link at tail
    cases tail with
    | cons tail => rfl
  rw [linkLast, listed.walk_mem whole]
  simp only [Option.bind_eq_bind, Option.bind_some, link]
  rfl

theorem Listed.linkLast_not_mem (listed : Listed pages rest) (absent : page ∉ rest)
    (inside : page < pages.length) :
    ∃ before last, 0 :: rest = before ++ [last] ∧
      linkLast pages page = some (setLink (setLink pages last (some page)) page none) ∧
      available (setLink (setLink pages last (some page)) page none) =
        Function.update (Function.update (available pages) last (some page)) page none := by
  obtain ⟨before, last, split, walks, ended⟩ := listed.walk_not_mem absent
  have last_inside : last < pages.length := listed.inside last (by rw [split]; simp)
  refine ⟨before, last, split, ?_, ?_⟩
  · rw [linkLast, walks]
    simp only [Option.bind_eq_bind, Option.bind_some, ended]
    rfl
  · rw [available_setLink (by rwa [length_setLink]), available_setLink last_inside]

theorem Listed.linkLast_head (listed : Listed pages rest) :
    ∃ pages', linkLast pages 0 = some pages' ∧ SameSlots pages pages' ∧ Listed pages' [] := by
  have head_inside := listed.inside 0 List.mem_cons_self
  obtain ⟨before, last, -, run, links⟩ := listed.linkLast_not_mem listed.head_not_mem head_inside
  refine ⟨_, run, (sameSlots_setLink _ _ _).trans (sameSlots_setLink _ _ _), ?_, fun other member => ?_⟩
  · rw [links]
    refine .cons ?_
    rw [Function.update_self]
    exact .nil
  · rw [length_setLink, length_setLink, List.mem_singleton.mp member]
    exact head_inside

theorem Listed.linkLast_absent (listed : Listed pages rest) (absent : page ∉ 0 :: rest) (inside : page < pages.length) :
    ∃ pages', linkLast pages page = some pages' ∧ SameSlots pages pages' ∧ Listed pages' (rest ++ [page]) := by
  obtain ⟨before, last, split, run, links⟩ := listed.linkLast_not_mem (List.not_mem_of_not_mem_cons absent) inside
  have same : SameSlots pages (setLink (setLink pages last (some page)) page none) :=
    (sameSlots_setLink _ _ _).trans (sameSlots_setLink _ _ _)
  have linked := listed.linked
  have nodup := linked.nodup
  rw [split] at linked nodup absent
  have different : last ≠ page := by
    rintro rfl
    exact absent (by simp)
  refine ⟨_, run, same, ?_, fun other member => ?_⟩
  · rw [← List.cons_append, split, List.append_assoc, List.singleton_append, links]
    refine linked.replace (fun other member => ?_) ?_
    · have other_page : other ≠ page := by
        rintro rfl
        exact absent (List.mem_append_left _ member)
      have other_last : other ≠ last := by
        rintro rfl
        exact (List.nodup_append.mp nodup).2.2 other member other List.mem_cons_self rfl
      rw [Function.update_of_ne other_page, Function.update_of_ne other_last]
    · rw [Function.update_of_ne different, Function.update_self]
      refine .cons ?_
      rw [Function.update_self]
      exact .nil
  · rw [← same.length]
    obtain member | new := List.mem_append.mp (List.cons_append ▸ member)
    · exact listed.inside other member
    · rwa [List.mem_singleton.mp new]

end ObjcDyld.Trampolines
