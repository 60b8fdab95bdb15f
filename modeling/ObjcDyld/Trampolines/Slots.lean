import ObjcDyld.Common.LinkedChains

/-!
# Block trampolines

`imp_implementationWithBlock`, `imp_getBlock` and `imp_removeBlock`. A page group has a data page, of
which each slot holds a block or a link of the page's free list, and a page of trampolines for each
argument mode. Page groups with free slots are linked from the head page group.
-/

namespace ObjcDyld.Trampolines

open LinkedChains (walk)

/-- The layout of page groups, on one platform. -/
structure Layout where
  /-- `PAGE_MAX_SIZE`, and `Trampolines.dataSize()`. -/
  pageMaxSize : ℕ
  /-- `Trampolines.start() - Trampolines.impl()`. -/
  headerSize : ℕ
  argumentModeCount : ℕ
  textSegmentSize : ℕ
  /-- What a trampoline's address has added to it, for Thumb instructions. -/
  thumb : ℕ
  header_pos : 8 ≤ headerSize
  header_lt : headerSize < pageMaxSize
  header_aligned : 8 ∣ headerSize
  page_aligned : 8 ∣ pageMaxSize
  text_le : pageMaxSize * (1 + argumentModeCount) ≤ textSegmentSize
  thumb_lt : thumb < 8

namespace Layout

variable (layout : Layout)

def startIndex : ℕ := layout.headerSize / 8

def endIndex : ℕ := layout.pageMaxSize / 8

def ValidIndex (index : ℕ) : Prop := layout.startIndex ≤ index ∧ index < layout.endIndex

instance (index : ℕ) : Decidable (layout.ValidIndex index) := inferInstanceAs (Decidable (_ ∧ _))

def trampolinesForMode (address aMode : ℕ) : ℕ := address + layout.pageMaxSize + layout.pageMaxSize * (1 + aMode)

def trampoline (address aMode index : ℕ) : ℕ := layout.trampolinesForMode address aMode + index * 8 + layout.thumb

/-- The body of the loop of `indexForTrampoline`. -/
def indexInMode (address tramp aMode : ℕ) : Option ℕ :=
  let base := layout.trampolinesForMode address aMode
  if base + layout.startIndex * 8 ≤ tramp ∧ tramp < base + layout.endIndex * 8 then some ((tramp - base) / 8)
  else none

def indexForTrampoline (address tramp : ℕ) : ℕ :=
  ((List.range layout.argumentModeCount).findSome? (layout.indexInMode address tramp)).getD 0

end Layout

/-- `TrampolineBlockPageGroup`, at its address. A page group is named by its position in the list that
`nextPageGroup` links; the first one is `HeadPageGroup`. -/
structure PageGroup where
  address : ℕ
  nextAvailablePage : Option ℕ
  nextAvailable : ℕ
  payload : ℕ → ℕ

/-- The constructor, in a data page of zeros. -/
def PageGroup.new (layout : Layout) (address : ℕ) : PageGroup := ⟨address, none, layout.startIndex, fun _ => 0⟩

/-- The link of a page group in the list of those with available slots. -/
def available (pages : List PageGroup) (page : ℕ) : Option ℕ := pages[page]?.bind (·.nextAvailablePage)

/-- `_allocateTrampolinesAndData`, at the address that `vm_allocate` returns. -/
def allocateTrampolinesAndData (layout : Layout) (pages : List PageGroup) (address : ℕ) : List PageGroup × ℕ :=
  (pages.modify 0 (fun head => { head with nextAvailablePage := some pages.length }) ++ [.new layout address], pages.length)

/-- `getOrAllocatePageGroupWithNextAvailable`. -/
def getOrAllocate (layout : Layout) (pages : List PageGroup) (address : ℕ) : List PageGroup × ℕ :=
  match pages with
  | [] => allocateTrampolinesAndData layout pages address
  | head :: _ =>
      -- make sure head page is filled first
      if head.nextAvailable ≠ layout.endIndex then (pages, 0)
      else
        match head.nextAvailablePage with
        | some page => (pages, page)
        | none => allocateTrampolinesAndData layout pages address

/-- Remove a page group from the list of those with available slots; `none` if the loop does not end. -/
def unlink (pages : List PageGroup) (page : ℕ) : Option (List PageGroup) := do
  let iterator ← walk (available pages) page pages.length 0
  if available pages iterator = some page then
    let link := available pages page
    return (pages.modify iterator fun group => { group with nextAvailablePage := link }).modify page fun group =>
      { group with nextAvailablePage := none }
  else return pages

/-- Make sure that a page group is in the list of those with available slots. -/
def linkLast (pages : List PageGroup) (page : ℕ) : Option (List PageGroup) := do
  let iterator ← walk (available pages) page pages.length 0
  if (available pages iterator).isNone then
    return (pages.modify iterator fun group => { group with nextAvailablePage := some page }).modify page fun group =>
      { group with nextAvailablePage := none }
  else return pages

/-- The slot after a slot of the free list: unused slots are zero, and are filled sequentially. -/
def PageGroup.nextIndex (group : PageGroup) (index : ℕ) : ℕ :=
  if group.payload index = 0 then index + 1 else group.payload index

/-- `_imp_implementationWithBlockNoCopy`: the page groups and the `IMP`; `none` if a loop does not end or an
assertion fails. -/
def implementationWithBlock (layout : Layout) (argumentModeForBlock : ℕ → Fin layout.argumentModeCount) (pages : List PageGroup) (address block : ℕ) :
    Option (List PageGroup × ℕ) := do
  let (pages, page) := getOrAllocate layout pages address
  let group ← pages[page]?
  let index := group.nextAvailable
  if layout.ValidIndex index then
    let nextAvailableIndex := group.nextIndex index
    let pages := pages.modify page fun group => { group with nextAvailable := nextAvailableIndex }
    let pages ← if nextAvailableIndex = layout.endIndex then unlink pages page else some pages
    return (pages.modify page fun group => { group with payload := Function.update group.payload index block },
      layout.trampoline group.address (argumentModeForBlock block) index)
  else none

def pageAndIndexContainingIMP (layout : Layout) (pages : List PageGroup) (anImp : ℕ) : Option (ℕ × ℕ) :=
  pages.zipIdx.findSome? fun (group, page) =>
    let index := layout.indexForTrampoline group.address anImp
    if index ≠ 0 then some (page, index) else none

/-- `imp_getBlock`; zero is nil. -/
def getBlock (layout : Layout) (pages : List PageGroup) (anImp : ℕ) : ℕ :=
  match pageAndIndexContainingIMP layout pages anImp with
  | none => 0
  | some (page, index) =>
      match pages[page]? with
      | none => 0
      | some group => if group.payload index ≤ layout.endIndex then 0 else group.payload index

/-- `imp_removeBlock`. -/
def removeBlock (layout : Layout) (pages : List PageGroup) (anImp : ℕ) : Option (List PageGroup) :=
  match pageAndIndexContainingIMP layout pages anImp with
  | none => some pages
  | some (page, index) =>
      linkLast (pages.modify page fun group =>
        { group with payload := Function.update group.payload index group.nextAvailable, nextAvailable := index }) page

/-- The page groups, the `IMP`s that are in use with their blocks, and all that have been handed out. -/
structure Process where
  pages : List PageGroup
  live : List (ℕ × ℕ)
  issued : List ℕ

def Process.start : Process := ⟨[], [], []⟩

/-- The memory at this address is that of no page group. -/
def Process.Unmapped (layout : Layout) (process : Process) (address : ℕ) : Prop :=
  ∀ group ∈ process.pages, group.address + layout.pageMaxSize + layout.textSegmentSize ≤ address ∨
    address + layout.pageMaxSize + layout.textSegmentSize ≤ group.address

/-- A block is not in the first page of memory; `vm_allocate` returns memory that is not in use. -/
inductive Step (layout : Layout) : Process → Process → Prop where
  | implementationWithBlock {process : Process} {argumentModeForBlock : ℕ → Fin layout.argumentModeCount} {address block anImp : ℕ}
      {pages : List PageGroup} (real : layout.endIndex < block) (unmapped : process.Unmapped layout address)
      (run : implementationWithBlock layout argumentModeForBlock process.pages address block = some (pages, anImp)) :
      Step layout process ⟨pages, process.live ++ [(anImp, block)], process.issued ++ [anImp]⟩
  | removeBlock {process : Process} {anImp block : ℕ} {pages : List PageGroup} (live : (anImp, block) ∈ process.live)
      (run : removeBlock layout process.pages anImp = some pages) :
      Step layout process { process with pages := pages, live := process.live.erase (anImp, block) }

end ObjcDyld.Trampolines

/-!
## Slots and their trampolines

The memory of page groups is disjoint, so a trampoline's address determines its page group and its
slot, though not conversely: there is one trampoline for each argument mode.
-/

namespace ObjcDyld.Trampolines

variable {layout : Layout} {pages pages' : List PageGroup} {address other index anImp page : ℕ}

namespace Layout

theorem endIndex_mul (layout : Layout) : layout.endIndex * 8 = layout.pageMaxSize :=
  Nat.div_mul_cancel layout.page_aligned

theorem startIndex_mul (layout : Layout) : layout.startIndex * 8 = layout.headerSize :=
  Nat.div_mul_cancel layout.header_aligned

theorem startIndex_pos (layout : Layout) : 0 < layout.startIndex :=
  Nat.div_pos layout.header_pos (by decide)

theorem startIndex_lt (layout : Layout) : layout.startIndex < layout.endIndex := by
  have start := layout.startIndex_mul
  have stop := layout.endIndex_mul
  have less := layout.header_lt
  omega

theorem mode_eq {size first second offset offset' : ℕ} (small : offset < size) (small' : offset' < size)
    (same : size * (1 + first) + offset = size * (1 + second) + offset') : first = second ∧ offset = offset' := by
  have positive : 0 < size := Nat.zero_lt_of_lt small
  have quotient := congrArg (· / size) same
  simp only [Nat.mul_add_div positive, Nat.div_eq_of_lt small, Nat.div_eq_of_lt small', Nat.add_zero] at quotient
  obtain rfl : first = second := by omega
  exact ⟨rfl, by omega⟩

theorem mode_le {aMode : ℕ} (layout : Layout) (less : aMode < layout.argumentModeCount) :
    layout.pageMaxSize * (1 + aMode) + layout.pageMaxSize ≤ layout.textSegmentSize := by
  refine le_trans ?_ layout.text_le
  rw [← Nat.mul_succ]
  exact Nat.mul_le_mul_left _ (by omega)

theorem indexForTrampoline_eq_zero (outside : other + layout.pageMaxSize + layout.textSegmentSize ≤ anImp ∨ anImp < other) :
    layout.indexForTrampoline other anImp = 0 := by
  rw [indexForTrampoline, List.findSome?_eq_none_iff.mpr, Option.getD_none]
  intro aMode member
  have fits := layout.mode_le (List.mem_range.mp member)
  have stop := layout.endIndex_mul
  rw [indexInMode, if_neg]
  rintro ⟨above, below⟩
  rw [trampolinesForMode] at above below
  omega

theorem indexInMode_trampoline (aMode other : ℕ) (valid : layout.ValidIndex index) :
    layout.indexInMode address (layout.trampoline address aMode index) other = if other = aMode then some index else none := by
  obtain ⟨lower, upper⟩ := valid
  have stop := layout.endIndex_mul
  have thumb := layout.thumb_lt
  rw [indexInMode, trampoline, trampolinesForMode, trampolinesForMode]
  by_cases same : other = aMode
  · subst same
    rw [if_pos rfl, if_pos (by omega)]
    congr 1
    omega
  · rw [if_neg same, if_neg]
    rintro ⟨above, below⟩
    -- the address is on the page of this argument mode, and on that of its own
    obtain ⟨offset, eq⟩ : ∃ offset, layout.pageMaxSize * (1 + aMode) + (index * 8 + layout.thumb) =
        layout.pageMaxSize * (1 + other) + offset := ⟨_, (Nat.add_sub_of_le (by omega)).symm⟩
    exact same (mode_eq (by omega) (by omega) eq).1.symm

theorem indexForTrampoline_trampoline {aMode : ℕ} (mode : aMode < layout.argumentModeCount) (valid : layout.ValidIndex index) :
    layout.indexForTrampoline address (layout.trampoline address aMode index) = index := by
  have found : (List.range layout.argumentModeCount).findSome?
      (layout.indexInMode address (layout.trampoline address aMode index)) = some index := by
    cases result : (List.range layout.argumentModeCount).findSome?
      (layout.indexInMode address (layout.trampoline address aMode index)) with
    | none =>
        have missing := List.findSome?_eq_none_iff.mp result aMode (List.mem_range.mpr mode)
        rw [indexInMode_trampoline aMode aMode valid, if_pos rfl] at missing
        exact nomatch missing
    | some found =>
        obtain ⟨mode', -, here⟩ := List.exists_of_findSome?_eq_some result
        rw [indexInMode_trampoline aMode mode' valid, Option.ite_none_right_eq_some] at here
        exact here.2.symm
  rw [indexForTrampoline, found, Option.getD_some]

theorem trampoline_mem {aMode : ℕ} (mode : aMode < layout.argumentModeCount) (valid : layout.ValidIndex index) :
    address ≤ layout.trampoline address aMode index ∧
      layout.trampoline address aMode index < address + layout.pageMaxSize + layout.textSegmentSize := by
  obtain ⟨lower, upper⟩ := valid
  have fits := layout.mode_le mode
  have stop := layout.endIndex_mul
  have thumb := layout.thumb_lt
  rw [trampoline, trampolinesForMode]
  omega

end Layout

/-- The memory of the page groups is disjoint. -/
def Disjoint (layout : Layout) (addresses : List ℕ) : Prop :=
  addresses.Pairwise fun first second => first + layout.pageMaxSize + layout.textSegmentSize ≤ second ∨
    second + layout.pageMaxSize + layout.textSegmentSize ≤ first

/-- The page group and the slot of a trampoline, from the addresses of the page groups. -/
def locate (layout : Layout) (addresses : List ℕ) (anImp : ℕ) : Option (ℕ × ℕ) :=
  addresses.zipIdx.findSome? fun (address, page) =>
    if layout.indexForTrampoline address anImp ≠ 0 then some (page, layout.indexForTrampoline address anImp) else none

theorem pageAndIndexContainingIMP_eq (layout : Layout) (pages : List PageGroup) (anImp : ℕ) :
    pageAndIndexContainingIMP layout pages anImp = locate layout (pages.map (·.address)) anImp := by
  rw [pageAndIndexContainingIMP, locate, List.zipIdx_map, List.findSome?_map]
  rfl

theorem locate_append {addresses : List ℕ} {found : ℕ × ℕ} (located : locate layout addresses anImp = some found)
    (more : List ℕ) : locate layout (addresses ++ more) anImp = some found := by
  rw [locate, List.zipIdx_append, List.findSome?_append, ← locate, located]
  rfl

theorem locate_trampoline {addresses : List ℕ} (disjoint : Disjoint layout addresses) (at_page : addresses[page]? = some address)
    {aMode : ℕ} (mode : aMode < layout.argumentModeCount) (valid : layout.ValidIndex index) :
    locate layout addresses (layout.trampoline address aMode index) = some (page, index) := by
  have own : layout.indexForTrampoline address (layout.trampoline address aMode index) = index :=
    Layout.indexForTrampoline_trampoline mode valid
  have nonzero : index ≠ 0 := Nat.ne_of_gt (Nat.lt_of_lt_of_le layout.startIndex_pos valid.1)
  cases result : locate layout addresses (layout.trampoline address aMode index) with
  | none =>
      have member : (address, page) ∈ addresses.zipIdx := List.mem_zipIdx_iff_getElem?.mpr at_page
      have missing := List.findSome?_eq_none_iff.mp result (address, page) member
      simp only [own] at missing
      rw [if_pos nonzero] at missing
      exact nomatch missing
  | some found =>
      obtain ⟨⟨other, page'⟩, member, here⟩ := List.exists_of_findSome?_eq_some result
      have at_other : addresses[page']? = some other := List.mem_zipIdx_iff_getElem?.mp member
      obtain ⟨hit, same⟩ := Option.ite_none_right_eq_some.mp here
      obtain rfl := Option.some.inj same
      obtain rfl : page' = page := by
        by_contra different
        refine hit (Layout.indexForTrampoline_eq_zero ?_)
        obtain ⟨above, below⟩ := @Layout.trampoline_mem layout address index aMode mode valid
        obtain ⟨small, rfl⟩ := List.getElem?_eq_some_iff.mp at_page
        obtain ⟨small', rfl⟩ := List.getElem?_eq_some_iff.mp at_other
        rcases Nat.lt_or_gt_of_ne different with before | after
        · have apart := List.pairwise_iff_getElem.mp disjoint page' page small' small before
          omega
        · have apart := List.pairwise_iff_getElem.mp disjoint page page' small small' after
          omega
      obtain rfl := Option.some.inj (at_page.symm.trans at_other)
      rw [own]

end ObjcDyld.Trampolines
