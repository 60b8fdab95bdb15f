import ObjcDyld.Trampolines.Runs

/-!
# Slots that are lost

Removing a block of the head page group, while other page groups are linked from it, is the only step
after which a page group with available slots is not reached.
-/

namespace ObjcDyld.Trampolines

open LinkedChains (Linked)

variable {layout : Layout} {pages pages' : List PageGroup} {live : List (ℕ × ℕ)} {issued : List ℕ}
  {group : PageGroup} {page index block anImp address : ℕ} {rest : List ℕ} {process process' : Process}

/-- No `IMP` is removed that cuts off the list. -/
def KeepsList (layout : Layout) (process process' : Process) : Prop :=
  ∀ entry ∈ process.live, entry ∉ process'.live → ¬CutsOff layout process.pages entry.1

theorem start_allReached (layout : Layout) : AllReached layout Process.start.pages := nofun

theorem Step.allReached_iff (inv : Inv layout process) (reached : AllReached layout process.pages)
    (step : Step layout process process') : AllReached layout process'.pages ↔ KeepsList layout process process' := by
  cases step with
  | @implementationWithBlock argumentModeForBlock address block anImp pages real unmapped run =>
      obtain ⟨_, _, _, pages', rest, -, -, -, -, -, run', -, listed, -, complete⟩ :=
        inv.slots.created inv.listed argumentModeForBlock real unmapped
      obtain ⟨rfl, rfl⟩ := Prod.mk.inj (Option.some.inj (run'.symm.trans run))
      exact iff_of_true (listed.allReached_iff.mpr (complete reached)) fun entry member gone =>
        absurd (List.mem_append_left _ member) gone
  | @removeBlock anImp block pages live run =>
      obtain ⟨pages', rest, run', -, listed, -, complete⟩ := inv.slots.removed inv.listed live
      obtain rfl := Option.some.inj (run'.symm.trans run)
      have nodup : process.live.Nodup := inv.slots.distinct.of_map
      rw [listed.allReached_iff, complete reached, KeepsList]
      constructor
      · intro kept entry member gone
        obtain rfl : entry = (anImp, block) :=
          by_contra fun different => gone (nodup.mem_erase_iff.mpr ⟨different, member⟩)
        exact kept
      · exact fun kept => kept _ live fun member => (nodup.mem_erase_iff.mp member).1 rfl

theorem Inv.all_used (inv : Inv layout process) (reached : AllReached layout process.pages)
    (unmapped : process.Unmapped layout address)
    (grown : (getOrAllocate layout process.pages address).1.length ≠ process.pages.length) (inside : page < process.pages.length)
    (valid : layout.ValidIndex index) : Used layout process.pages process.live page index := by
  obtain ⟨pages', _, _, _, eq, -, complete⟩ := inv.slots.opened inv.listed unmapped
  rw [eq] at grown
  have full := (complete reached).2 grown _ (List.getElem_mem inside)
  exact inv.slots.full (List.getElem?_eq_getElem inside) full valid

/-- In a run that does not cut off the list, no slot is lost; the first step that cuts it off loses one. -/
theorem allReached_of_keepsList
    (run : Relation.ReflTransGen (fun process process' => Step layout process process' ∧ KeepsList layout process process')
      .start process) :
    AllReached layout process.pages ∧
      (∀ (page index : ℕ), page < process.pages.length → layout.ValidIndex index →
        ¬Used layout process.pages process.live page index →
        ∃ items, Linked (available process.pages) (some 0) items ∧ page ∈ items) ∧
      (∀ (address page index : ℕ), process.Unmapped layout address →
        (getOrAllocate layout process.pages address).1.length ≠ process.pages.length → page < process.pages.length →
        layout.ValidIndex index → Used layout process.pages process.live page index) ∧
      ∀ process', Step layout process process' → (AllReached layout process'.pages ↔ KeepsList layout process process') := by
  have inv : Inv layout process := inv_of_reachable (Relation.ReflTransGen.mono (fun _ _ step => step.1) _ _ run)
  have reached : AllReached layout process.pages := by
    clear inv
    induction run with
    | refl => exact start_allReached layout
    | tail before step ih =>
        exact (step.1.allReached_iff (inv_of_reachable (Relation.ReflTransGen.mono (fun _ _ step => step.1) _ _ before)) ih).mpr step.2
  have free_reached (page index : ℕ) (inside : page < process.pages.length) (valid : layout.ValidIndex index)
      (unused : ¬Used layout process.pages process.live page index) :
      ∃ items, Linked (available process.pages) (some 0) items ∧ page ∈ items :=
    reached page _ (List.getElem?_eq_getElem inside) fun full =>
      unused (inv.slots.full (List.getElem?_eq_getElem inside) full valid)
  exact ⟨reached, free_reached, fun address page index unmapped grown inside valid => inv.all_used reached unmapped grown inside valid,
    fun process' step => step.allReached_iff inv reached⟩

theorem allReached_of_keepsList_one :
    AllReached x86_64 [⟨65536, none, 5, Function.update (fun _ => 0) 4 4096⟩] :=
  (allReached_of_keepsList (.single ⟨@Step.implementationWithBlock x86_64 .start (fun _ => ⟨0, by decide⟩) 65536 4096 73760 _
    (by decide) nofun rfl, nofun⟩)).1

/-- After so many blocks are created, all in the head page group. -/
structure Filled (layout : Layout) (count : ℕ) (process : Process) : Prop where
  reachable : Relation.ReflTransGen (Step layout) .start process
  pages : ∃ payload, process.pages = [⟨65536, none, layout.startIndex + count, payload⟩] ∧
    ∀ index, layout.startIndex + count ≤ index → payload index = 0
  first : (layout.trampoline 65536 0 layout.startIndex, layout.endIndex + 1) ∈ process.live

theorem implementationWithBlock_head {argumentModeForBlock : ℕ → Fin layout.argumentModeCount} {payload : ℕ → ℕ}
    (opened : getOrAllocate layout pages address = ([⟨65536, none, index, payload⟩], 0)) (valid : layout.ValidIndex index)
    (zero : payload index = 0) :
    implementationWithBlock layout argumentModeForBlock pages address block =
      some ([⟨65536, none, index + 1, Function.update payload index block⟩],
        layout.trampoline 65536 (argumentModeForBlock block) index) := by
  have next : PageGroup.nextIndex ⟨65536, none, index, payload⟩ index = index + 1 := if_pos zero
  have advanced : advance 0 (index + 1) [⟨65536, none, index, payload⟩] = [⟨65536, none, index + 1, payload⟩] := rfl
  have listed : Listed [⟨65536, none, index + 1, payload⟩] [] :=
    ⟨.cons .nil, fun page member => List.mem_singleton.mp member ▸ Nat.one_pos⟩
  rw [implementationWithBlock_eq opened rfl valid]
  simp only [next, advanced, listed.unlink_head, ite_self]
  rfl

theorem filled (layout : Layout) (aMode : 0 < layout.argumentModeCount) (count : ℕ)
    (le : layout.startIndex + (count + 1) ≤ layout.endIndex) : ∃ process, Filled layout (count + 1) process := by
  induction count with
  | zero =>
      have valid : layout.ValidIndex layout.startIndex := ⟨le_rfl, le⟩
      exact ⟨_, .single (.implementationWithBlock (Nat.lt_succ_self _) nofun (@implementationWithBlock_head layout []
        layout.startIndex (layout.endIndex + 1) 65536 (fun _ => ⟨0, aMode⟩) (fun _ => 0) rfl valid rfl)),
        ⟨_, rfl, fun index above => Function.update_of_ne (Nat.ne_of_gt above) _ _⟩, List.mem_cons_self⟩
  | succ count ih =>
      obtain ⟨⟨pages, live, issued⟩, reachable, ⟨payload, rfl, zero⟩, first⟩ := ih (by omega)
      have valid : layout.ValidIndex (layout.startIndex + (count + 1)) := ⟨Nat.le_add_right _ _, by omega⟩
      have opened : getOrAllocate layout [⟨65536, none, layout.startIndex + (count + 1), payload⟩]
          (65536 + layout.pageMaxSize + layout.textSegmentSize) = (_, 0) := if_pos (Nat.ne_of_lt valid.2)
      have unmapped : Process.Unmapped layout ⟨[⟨65536, none, layout.startIndex + (count + 1), payload⟩], live, issued⟩
          (65536 + layout.pageMaxSize + layout.textSegmentSize) := fun group member => .inl (List.mem_singleton.mp member ▸ le_rfl)
      have step := Step.implementationWithBlock (Nat.lt_succ_self _) unmapped
        (@implementationWithBlock_head _ _ _ (layout.endIndex + 1) _ (fun _ => ⟨0, aMode⟩) _ opened valid (zero _ le_rfl))
      refine ⟨_, .tail reachable step, ⟨_, rfl, fun index above => ?_⟩, List.mem_append_left _ first⟩
      rw [Function.update_of_ne (by omega)]
      exact zero index (by omega)

theorem implementationWithBlock_new {argumentModeForBlock : ℕ → Fin layout.argumentModeCount}
    (opened : getOrAllocate layout pages address = (pages', page)) (new : pages'[page]? = some (.new layout address))
    (more : layout.startIndex + 1 < layout.endIndex) :
    implementationWithBlock layout argumentModeForBlock pages address block =
      some (store page layout.startIndex block (advance page (layout.startIndex + 1) pages'),
        layout.trampoline address (argumentModeForBlock block) layout.startIndex) := by
  have room : (PageGroup.new layout address).nextIndex (PageGroup.new layout address).nextAvailable ≠ layout.endIndex :=
    Nat.ne_of_lt more
  rw [implementationWithBlock_eq opened new ⟨le_rfl, layout.startIndex_lt⟩, if_neg room]
  rfl

theorem exists_not_allReached (layout : Layout) (aMode : 0 < layout.argumentModeCount)
    (more : layout.startIndex + 1 < layout.endIndex) :
    ∃ process, Relation.ReflTransGen (Step layout) .start process ∧ ¬AllReached layout process.pages := by
  obtain ⟨count, eq⟩ := Nat.exists_eq_add_of_le more
  obtain ⟨⟨pages, live, issued⟩, reachable, ⟨payload, rfl, -⟩, first⟩ := filled layout aMode (count + 1) (by omega)
  rw [show layout.startIndex + (count + 1 + 1) = layout.endIndex by omega] at reachable
  have alone : AllReached layout [⟨65536, none, layout.endIndex, payload⟩] := by
    have listed : Listed [⟨65536, none, layout.endIndex, payload⟩] [] :=
      ⟨.cons .nil, fun page member => List.mem_singleton.mp member ▸ Nat.one_pos⟩
    refine listed.allReached_iff.mpr fun page group at_page _ => ?_
    have inside := (List.getElem?_eq_some_iff.mp at_page).1
    exact List.mem_singleton.mpr (Nat.lt_one_iff.mp inside)
  -- the new page group is the second one, and keeps a slot
  have opened : getOrAllocate layout [⟨65536, none, layout.endIndex, payload⟩]
      (65536 + layout.pageMaxSize + layout.textSegmentSize) = (_, 1) := getOrAllocate_linked rfl
  have unmapped : Process.Unmapped layout ⟨[⟨65536, none, layout.endIndex, payload⟩], live, issued⟩
      (65536 + layout.pageMaxSize + layout.textSegmentSize) := fun group member => .inl (List.mem_singleton.mp member ▸ le_rfl)
  have run := @implementationWithBlock_new layout _ _ 1 (layout.endIndex + 1) _ (fun _ => ⟨0, aMode⟩) opened rfl more
  have step := Step.implementationWithBlock (Nat.lt_succ_self _) unmapped run
  have inv := step.inv (inv_of_reachable reachable)
  have reached := (step.allReached_iff (inv_of_reachable reachable) alone).mpr fun entry member gone =>
    absurd (List.mem_append_left _ member) gone
  have member := List.mem_append_left
    [(layout.trampoline (65536 + layout.pageMaxSize + layout.textSegmentSize) 0 layout.startIndex, layout.endIndex + 1)] first
  obtain ⟨pages', rest, removed, -, listed, -, complete⟩ := inv.slots.removed inv.listed member
  refine ⟨_, .tail (.tail reachable step) (.removeBlock member removed), fun reached' => ?_⟩
  refine (complete reached).mp (listed.allReached_iff.mp reached') ⟨?_, rfl⟩
  have located := @locate_trampoline layout 65536 layout.startIndex 0 _ inv.slots.disjoint rfl 0 aMode
    ⟨le_rfl, layout.startIndex_lt⟩
  rw [pageAndIndexContainingIMP_eq, located]
  rfl

/-- On this platform, the blocks are 508, one more, and the first one is removed. -/
theorem exists_not_allReached_x86_64 :
    ∃ process, Relation.ReflTransGen (Step x86_64) .start process ∧ ¬AllReached x86_64 process.pages :=
  exists_not_allReached x86_64 (by decide) (by decide)

end ObjcDyld.Trampolines
