import ObjcDyld.Autorelease.Simulation
import ObjcDyld.Common.Loops

/-!
# Runs of a thread's autorelease pool

In every run in which the tokens popped are those of open pools, hotter than
the pools that are being popped, the pages hold the stack of pools that the
run produces.  Pops release what they should, and the pages colder than the
hot page stay full.
-/

namespace ObjcDyld.Autorelease

open Unwinding Loops

/-! ## Legal runs -/

instance (layout : Layout) (heap : Heap) (alloc : Allocation) : Decidable (alloc.Fresh layout heap) :=
  decidable_of_iff
    (alloc.address ≠ 0 ∧ layout.size ∣ alloc.address ∧ heap.pages alloc.address = none)
    ⟨fun ⟨nonnull, aligned, unused⟩ => ⟨nonnull, aligned, unused⟩,
      fun fresh => ⟨fresh.nonnull, fresh.aligned, fresh.unused⟩⟩

/--
What the environment promises: memory is allocated as `malloc_zone_memalign` says, objects are not
nil, and a token that is popped is that of an open pool, hotter than the pools being popped.
-/
def Label.Legal (layout : Layout) (thread : Thread) (stack : PoolStack) : Label → Prop
  | .push alloc => thread.releasing = false ∧ alloc.Fresh layout thread.pool.heap
  | .autorelease obj alloc =>
      thread.releasing = false ∧ obj ≠ poolBoundary ∧ alloc.Fresh layout thread.pool.heap
  | .pop token =>
      thread.releasing = false ∧ .mark token ∈ stack.entries ∧
        ∀ stop ∈ stack.stops.head?, stop < stack.position token
  | .finishRelease => thread.releasing = false ∧ stack.stops ≠ []
  | .iterate => thread.releasing = true

instance (layout : Layout) (thread : Thread) (stack : PoolStack) (label : Label) :
    Decidable (label.Legal layout thread stack) := by
  cases label <;> unfold Label.Legal <;> infer_instance

/-- Every step of a run is legal when its turn comes. -/
def LegalRun (layout : Layout) (options : Options) : List Label → Thread → PoolStack → Prop
  | [], _, _ => True
  | label :: labels, thread, stack =>
      label.Legal layout thread stack ∧
        match thread.step layout options label with
        | .error _ => True
        | .ok (events, thread) =>
            match stack.run events with
            | none => True
            | some stack => LegalRun layout options labels thread stack

instance decidableLegalRun (layout : Layout) (options : Options) :
    ∀ labels thread stack, Decidable (LegalRun layout options labels thread stack)
  | [], _, _ => .isTrue trivial
  | label :: labels, thread, stack => by
      have := decidableLegalRun layout options labels
      unfold LegalRun
      split
      · infer_instance
      · split
        · infer_instance
        · infer_instance

variable {layout : Layout} {options : Options} {thread : Thread} {stack : PoolStack}

theorem represents_start : Represents layout .start .start := .unused rfl ⟨rfl, rfl⟩ rfl

theorem Represents.step (stands : Represents layout thread stack)
    (off : options.debugPoolAllocation = false) (nested : stack.Nested) (label : Label)
    (legal : label.Legal layout thread stack) : Simulates layout options thread stack label := by
  cases label with
  | push alloc => exact stands.push off legal.2 legal.1
  | autorelease obj alloc => exact stands.autorelease legal.2.1 legal.2.2 legal.1
  | pop token =>
      obtain ⟨user, open_pool, hotter⟩ := legal
      have begins : stack.apply (.popping token) =
          some ⟨stack.entries, stack.position token :: stack.stops⟩ :=
        if_pos ⟨List.idxOf_lt_length_of_mem open_pool, hotter⟩
      exact stands.pop begins user
  | finishRelease => exact ⟨_, _, _, stands.finishRelease options legal.1 legal.2⟩
  | iterate => exact stands.iterate off nested legal

/-- The objects that some steps autorelease. -/
def autoreleased (labels : List Label) : List ℕ := labels.flatMap Label.autoreleased

/-- The thread makes the run, and it is what it says it is on the stack. -/
structure SimulatedRun (layout : Layout) (options : Options) (thread : Thread) (stack : PoolStack)
    (labels : List Label) (events : List PoolEvent) (thread' : Thread) (stack' : PoolStack) :
    Prop where
  ran : runLabels layout options labels thread = .ok (events, thread')
  run : stack.run events = some stack'
  stands : Represents layout thread' stack'
  kept : options.debugMissingPools = false → added events = autoreleased labels
  /-- What is left of a legal run after these steps is legal. -/
  legal : ∀ rest, LegalRun layout options (labels ++ rest) thread stack →
    LegalRun layout options rest thread' stack'

theorem Represents.runLabels (labels : List Label) (stands : Represents layout thread stack)
    (off : options.debugPoolAllocation = false) (nested : stack.Nested)
    (legal : LegalRun layout options labels thread stack) :
    ∃ events thread' stack',
      SimulatedRun layout options thread stack labels events thread' stack' := by
  induction labels generalizing thread stack with
  | nil => exact ⟨[], thread, stack, rfl, rfl, stands, fun _ => rfl, fun _ legal => legal⟩
  | cons label labels ih =>
      obtain ⟨this_legal, rest_legal⟩ := legal
      obtain ⟨events, mid, stack', simulated⟩ := stands.step off nested label this_legal
      simp only [simulated.step, simulated.run] at rest_legal
      obtain ⟨more, last, stack'', rest⟩ :=
        ih simulated.stands (nested.run simulated.run) rest_legal
      refine ⟨events ++ more, last, stack'', ?_, ?_, rest.stands, ?_, ?_⟩
      · simp only [Autorelease.runLabels, simulated.step, rest.ran, bind, Except.bind, pure,
          Except.pure]
      · rw [State.run_append, simulated.run]
        exact rest.run
      · intro kept
        rw [added_append, simulated.kept kept, rest.kept kept]
        rfl
      · rintro others ⟨-, others_legal⟩
        simp only [simulated.step, simulated.run] at others_legal
        exact rest.legal others others_legal

/-- Steps in which no release adds anything. -/
def Quiet (labels : List Label) : Prop :=
  ∀ label ∈ labels, label = .iterate ∨ label = .finishRelease

theorem Represents.ends (stands : Represents layout thread stack)
    (off : options.debugPoolAllocation = false) (nested : stack.Nested) {stop : ℕ} {stops : List ℕ}
    (pops : stack.stops = stop :: stops) :
    ∃ quiet events thread', Quiet quiet ∧
      Autorelease.runLabels layout options quiet thread = .ok (events, thread') ∧
      Represents layout thread' ⟨stack.entries.take stop, stops⟩ := by
  -- Each object above the stop takes two steps: its release returns, and the loop goes on.
  induction length : 2 * stack.entries.length + (!thread.releasing).toNat using Nat.strong_induction_on
    generalizing thread stack with
  | _ size ih =>
      have prepend {label : Label} {mid : Thread} {next : PoolStack} {events : List PoolEvent}
          (silent : label = .iterate ∨ label = .finishRelease)
          (simulated : Simulated layout options thread stack label events mid next)
          (rest : ∃ quiet events thread', Quiet quiet ∧
            Autorelease.runLabels layout options quiet mid = .ok (events, thread') ∧
            Represents layout thread' ⟨stack.entries.take stop, stops⟩) :
          ∃ quiet events thread', Quiet quiet ∧
            Autorelease.runLabels layout options quiet thread = .ok (events, thread') ∧
            Represents layout thread' ⟨stack.entries.take stop, stops⟩ := by
        obtain ⟨quiet, more, last, silence, ran, done⟩ := rest
        refine ⟨label :: quiet, events ++ more, last, ?_, ?_, done⟩
        · exact List.forall_mem_cons.mpr ⟨silent, silence⟩
        · simp only [Autorelease.runLabels, simulated.step, ran, bind, Except.bind, pure, Except.pure]
      cases loops : thread.releasing with
      | false =>
          have simulated := stands.finishRelease options loops (by simp [pops])
          refine prepend (.inr rfl) simulated ?_
          exact ih _ (by simp [← length, loops]) simulated.stands nested pops rfl
      | true =>
          obtain ⟨n, others, mid, pops', taken | ended⟩ := stands.iterate_cases off nested loops
          · obtain ⟨lower, entry, shape, above, -, simulated⟩ := taken
            obtain ⟨rfl, rfl⟩ := List.cons.inj (pops.symm.trans pops')
            refine prepend (.inl rfl) simulated ?_
            rw [shape, List.take_append_of_le_length above]
            have fewer : 2 * lower.length + (!mid.releasing).toNat < size := by
              have := (!mid.releasing).toNat_le
              rw [← length, shape, List.length_append, List.length_singleton]
              omega
            exact ih _ fewer simulated.stands (nested.run simulated.run) pops rfl
          · obtain ⟨rfl, rfl⟩ := List.cons.inj (pops.symm.trans pops')
            obtain ⟨height, simulated⟩ := ended
            refine prepend (.inl rfl) simulated ⟨[], [], mid, nofun, rfl, ?_⟩
            rw [List.take_of_length_le height.le]
            exact simulated.stands

theorem legalRun_append {first rest : List Label}
    (legal : LegalRun layout options (first ++ rest) thread stack) :
    LegalRun layout options first thread stack := by
  induction first generalizing thread stack with
  | nil => trivial
  | cons label labels ih =>
      obtain ⟨this_legal, rest_legal⟩ := legal
      refine ⟨this_legal, ?_⟩
      cases steps : thread.step layout options label with
      | error fault => trivial
      | ok result =>
          simp only [steps] at rest_legal
          cases run : stack.run result.1 with
          | none => simp only [run]
          | some next =>
              simp only [run] at rest_legal ⊢
              exact ih rest_legal

/-! ## What a pop releases -/

/--
What a pop does that begins after the steps `before` and goes on with the steps `during`.  If its
end is the last of these steps, it has released exactly the objects autoreleased since its token
was pushed, each as often as it was autoreleased and the last first, and has left the entries that
preceded the token.  If it has not ended, it does once releases add nothing more.
-/
def PopReleases (layout : Layout) (before : List Label) (token : ℕ) (during : List Label) : Prop :=
  ∃ earlier thread stack events thread' stack',
    runLabels layout .off before .start = .ok (earlier, thread) ∧
    State.start.run earlier = some stack ∧ Represents layout thread stack ∧
    runLabels layout .off (.pop token :: during) thread = .ok (events, thread') ∧
    stack.run events = some stack' ∧ Represents layout thread' stack' ∧
    added events = autoreleased during ∧
    (∀ meanwhile, events = .popping token :: (meanwhile ++ [.popped]) →
      State.PopRun stack token meanwhile stack' → State.PopEffect stack token meanwhile stack') ∧
    ∀ stop stops, stack'.stops = stop :: stops → ∃ quiet more thread'', Quiet quiet ∧
      runLabels layout .off quiet thread' = .ok (more, thread'') ∧
      Represents layout thread'' ⟨stack'.entries.take stop, stops⟩

/-- With the debug options off, pops behave as those of nested stacks in every legal run. -/
theorem runLabels_pops (layout : Layout) (before during : List Label) (token : ℕ)
    (legal : LegalRun layout .off (before ++ .pop token :: during) .start .start) :
    PopReleases layout before token during := by
  obtain ⟨earlier, thread, stack, first⟩ :=
    represents_start.runLabels before rfl State.nested_start (legalRun_append legal)
  have nested := State.nested_start.run first.run
  obtain ⟨events, thread', stack', second⟩ :=
    first.stands.runLabels (.pop token :: during) rfl nested (first.legal _ legal)
  exact ⟨earlier, thread, stack, events, thread', stack', first.ran, first.run, first.stands,
    second.ran, second.run, second.stands, second.kept rfl, fun _ _ pop => pop.effect nested,
    fun _ _ pops => second.stands.ends rfl (nested.run second.run) pops⟩

/-- An allocation at an address, of memory that was cleared. -/
def allocationAt (address : ℕ) : Allocation := ⟨address, fun _ => 0⟩

/-- The placeholder pool gets an object. -/
def placeholderPool : List Label :=
  [.push (allocationAt 4096), .autorelease 16 (allocationAt 4096)]

/-- While the object is released another pool is pushed, used and popped, and an object is added. -/
def reentrantRelease : List Label :=
  [.iterate, .push (allocationAt 8192), .autorelease 24 (allocationAt 8192), .pop 4160, .iterate,
    .finishRelease, .iterate, .iterate, .autorelease 32 (allocationAt 8192), .finishRelease,
    .iterate, .finishRelease, .iterate, .iterate]

theorem runLabels_pops_reentrant :
    PopReleases lp64Layout placeholderPool emptyPoolPlaceholder reentrantRelease :=
  runLabels_pops lp64Layout placeholderPool reentrantRelease emptyPoolPlaceholder
    (by decide +kernel)

/-! ## The list of pages -/

/-- The pages that are reached from `page` by following `link` at least once. -/
inductive Reaches (link : Page → ℕ) (heap : Heap) (page : ℕ) : ℕ → Prop where
  | first {data : Page} (loads : heap.pages page = some data) (nonnull : link data ≠ 0) :
      Reaches link heap page (link data)
  | further {other : ℕ} {data : Page} (reached : Reaches link heap page other)
      (loads : heap.pages other = some data) (nonnull : link data ≠ 0) :
      Reaches link heap page (link data)

/-- All ancestors of the hot page are full and all its descendants are empty. -/
structure PageList (layout : Layout) (pool : Pool) : Prop where
  ancestors : ∀ page, Reaches Page.parent pool.heap pool.hotPage page →
    ∃ data, pool.heap.pages page = some data ∧ layout.full data = true
  descendants : ∀ page, Reaches Page.child pool.heap pool.hotPage page →
    ∃ data, pool.heap.pages page = some data ∧ data.empty = true

/--
What `releaseUntil` finds at its loop: as long as `this->next` is not the stop, the inner loop
steps to a parent at most once and ends on a page that is not empty.
-/
def ClimbsOnce (layout : Layout) (thread : Thread) : Prop :=
  ∃ frame frames this, thread.frames = frame :: frames ∧
    thread.pool.heap.load frame.page = .ok this ∧
    (layout.slotAddress frame.page this.next ≠ frame.stop →
      ∃ steps page pool data,
        climb thread.pool.heap.live thread.pool.hotPage thread.pool = .ok (steps, page, pool) ∧
        steps ≤ 1 ∧ page ≠ 0 ∧ thread.pool.heap.load page = .ok data ∧ data.empty = false)

section PageLists

variable {chain : List ℕ} {hot : ℕ}

theorem OnPages.ancestor (on : OnPages layout thread stack chain hot) {page : ℕ}
    (reached : Reaches Page.parent thread.pool.heap (pageAt chain hot) page) :
    ∃ i < hot, page = pageAt chain i := by
  have parent {i : ℕ} {data : Page} (small : i < chain.length)
      (loads : thread.pool.heap.pages (pageAt chain i) = some data) (nonnull : data.parent ≠ 0) :
      ∃ j < i, data.parent = pageAt chain j := by
    obtain ⟨found, loads', held⟩ := on.laid.pages i _ (getElem?_pageAt small)
    obtain rfl := Option.some.inj (loads.symm.trans loads')
    cases i with
    | zero => exact absurd held.parent nonnull
    | succ i => exact ⟨i, Nat.lt_succ_self i, held.parent⟩
  induction reached with
  | first loads nonnull => exact parent on.laid.hot_lt loads nonnull
  | further _ loads nonnull ih =>
      obtain ⟨i, colder, rfl⟩ := ih
      obtain ⟨j, less, eq⟩ := parent (colder.trans on.laid.hot_lt) loads nonnull
      exact ⟨j, less.trans colder, eq⟩

theorem OnPages.descendant (on : OnPages layout thread stack chain hot) {page : ℕ}
    (reached : Reaches Page.child thread.pool.heap (pageAt chain hot) page) :
    ∃ i, hot < i ∧ i < chain.length ∧ page = pageAt chain i := by
  have child {i : ℕ} {data : Page} (small : i < chain.length)
      (loads : thread.pool.heap.pages (pageAt chain i) = some data) (nonnull : data.child ≠ 0) :
      i + 1 < chain.length ∧ data.child = pageAt chain (i + 1) := by
    obtain ⟨found, loads', held⟩ := on.laid.pages i _ (getElem?_pageAt small)
    obtain rfl := Option.some.inj (loads.symm.trans loads')
    refine ⟨?_, held.child⟩
    by_contra past
    exact nonnull (held.child.trans (pageAt_end (by omega)))
  induction reached with
  | first loads nonnull =>
      obtain ⟨inside, eq⟩ := child on.laid.hot_lt loads nonnull
      exact ⟨hot + 1, Nat.lt_succ_self hot, inside, eq⟩
  | further _ loads nonnull ih =>
      obtain ⟨i, hotter, small, rfl⟩ := ih
      obtain ⟨inside, eq⟩ := child small loads nonnull
      exact ⟨i + 1, by omega, inside, eq⟩

theorem OnPages.pageList (on : OnPages layout thread stack chain hot) :
    PageList layout thread.pool := by
  refine ⟨?_, ?_⟩
  · intro page reached
    rw [on.hotPage] at reached
    obtain ⟨i, colder, rfl⟩ := on.ancestor reached
    obtain ⟨data, loads, held⟩ := on.laid.pages i _ (getElem?_pageAt (colder.trans on.laid.hot_lt))
    exact ⟨data, loads, decide_eq_true (held.next.trans (on.laid.full_cold colder))⟩
  · intro page reached
    rw [on.hotPage] at reached
    obtain ⟨i, hotter, small, rfl⟩ := on.descendant reached
    obtain ⟨data, loads, held⟩ := on.laid.pages i _ (getElem?_pageAt small)
    exact ⟨data, loads, decide_eq_true (held.next.trans (on.laid.empty_hotter hotter))⟩

theorem OnPages.climbsOnce (on : OnPages layout thread stack chain hot) (nested : stack.Nested)
    (loops : thread.releasing = true) : ClimbsOnce layout thread := by
  have framed := on.frames
  obtain ⟨n, stops, pops⟩ := List.exists_cons_of_ne_nil (on.loops loops)
  rw [pops] at framed
  cases runs : thread.frames with
  | nil => rw [runs] at framed; cases framed
  | cons frame frames =>
      rw [runs] at framed
      have above := nested.below n (by simp [pops])
      obtain ⟨this, loads, -, test⟩ := on.loopTest (List.forall₂_cons.mp framed).1 above
      refine ⟨frame, frames, this, runs, loads, fun goes_on => ?_⟩
      rw [ne_eq, test] at goes_on
      obtain ⟨steps, hot', pool, climbs, once, -, -, laid, here⟩ :=
        on.laid.climb on.tls (by rw [List.length_map]; omega)
      obtain ⟨data, loads_data, held⟩ := laid.load laid.at_hot
      have next := held.next.trans laid.fill_hot
      refine ⟨steps, pageAt chain hot', pool, data, ?_, once, laid.pageAt_ne laid.hot_lt,
        loads_data, decide_eq_false (by omega)⟩
      rw [on.hotPage]
      exact climbs

end PageLists

/--
With page-per-pool debugging off, in every state of every legal run the ancestors of the hot page
are full and its descendants empty, and the inner loop of `releaseUntil` steps to a parent at most
once and reaches no null parent.
-/
theorem runLabels_pageList (layout : Layout) (options : Options) (labels : List Label)
    (off : options.debugPoolAllocation = false)
    (legal : LegalRun layout options labels .start .start) :
    ∃ events thread, runLabels layout options labels .start = .ok (events, thread) ∧
      (thread.pool.hotPage ≠ 0 → PageList layout thread.pool) ∧
      (thread.releasing = true → ClimbsOnce layout thread) := by
  obtain ⟨events, thread, stack, simulated⟩ :=
    represents_start.runLabels labels off State.nested_start legal
  have nested := State.nested_start.run simulated.run
  refine ⟨events, thread, simulated.ran, ?_⟩
  cases simulated.stands with
  | unused tls idle _ =>
      refine ⟨fun hot => absurd ?_ hot, fun loops => absurd (loops.symm.trans idle.2) (by decide)⟩
      rw [Pool.hotPage, tls]
      rfl
  | placeholder tls idle _ =>
      refine ⟨fun hot => absurd ?_ hot, fun loops => absurd (loops.symm.trans idle.2) (by decide)⟩
      rw [Pool.hotPage, if_pos tls]
  | pages chain hot on => exact ⟨fun _ => on.pageList, on.climbsOnce nested⟩

/-- A run into the middle of a release, when missing pools are reported. -/
def missingPoolsRun : List Label :=
  .autorelease 8 (allocationAt 4096) :: placeholderPool ++ .pop emptyPoolPlaceholder ::
    reentrantRelease.take 5

theorem runLabels_pageList_missingPools :
    ∃ events thread, runLabels lp64Layout ⟨true, false, true⟩ missingPoolsRun .start =
        .ok (events, thread) ∧
      (thread.pool.hotPage ≠ 0 → PageList lp64Layout thread.pool) ∧
      (thread.releasing = true → ClimbsOnce lp64Layout thread) :=
  runLabels_pageList lp64Layout ⟨true, false, true⟩ missingPoolsRun rfl (by decide +kernel)

/-- Two pools with an object each; the inner one is popped, and its object is being released. -/
def innerPop : List Label :=
  placeholderPool ++ [.push (allocationAt 8192), .autorelease 24 (allocationAt 8192), .pop 4168,
    .iterate]

/-- That release pops the outer pool, which is still open, and returns. -/
def outerPop : List Label :=
  [.pop emptyPoolPlaceholder, .iterate, .iterate, .finishRelease, .iterate, .iterate,
    .finishRelease, .iterate]

/--
When the release of an object pops a pool that is colder than the one being popped, the inner loop
of `releaseUntil` does reach a null parent.
-/
theorem outerPop_faults :
    LegalRun lp64Layout .off innerPop .start .start ∧
      (∃ inner, runLabels lp64Layout .off innerPop .start = .ok inner ∧
        State.start.run inner.1 = some ⟨[.mark emptyPoolPlaceholder, .item 16, .mark 4168], [2]⟩) ∧
      (∃ outer, runLabels lp64Layout .off (innerPop ++ outerPop.dropLast) .start = .ok outer ∧
        outer.2.frames = [⟨4096, 4168⟩] ∧ outer.2.releasing = true ∧ outer.2.pool.hotPage = 4096 ∧
        ∃ page, outer.2.pool.heap.load 4096 = .ok page ∧ page.empty = true ∧ page.parent = 0 ∧
          lp64Layout.slotAddress 4096 page.next ≠ 4168) ∧
      (runLabels lp64Layout .off (innerPop ++ outerPop) .start).isOk = false := by
  decide +kernel

end ObjcDyld.Autorelease
