import ObjcDyld.Autorelease.PageChain

/-!
# The pages simulate a stack of pools

A thread's pages and pops in progress stand for a stack of marks and objects
and for the heights down to which the pops go.  Each step of the thread is
what it says it is on that stack.
-/

namespace ObjcDyld.Autorelease

open Unwinding

/-- The stack of pools and objects. -/
abbrev PoolStack := State ℕ ℕ

/-- The word that stands for an entry of the stack. -/
def entryWord : Entry ℕ ℕ → ℕ
  | .mark _ => poolBoundary
  | .item obj => obj

/-- A pop in progress runs with the page and the address of its stop. -/
structure FrameAt (layout : Layout) (chain : List ℕ) (frame : Frame) (n : ℕ) : Prop where
  page : frame.page = pageAt chain (n / layout.capacity)
  stop : frame.stop = tokenAt layout chain n
  small : n / layout.capacity < chain.length

/-- The token of a pool is the address of its mark, or the placeholder for the coldest pool. -/
def TokenAt (layout : Layout) (chain : List ℕ) (n token : ℕ) : Prop :=
  token = tokenAt layout chain n ∨ (n = 0 ∧ token = emptyPoolPlaceholder)

structure OnPages (layout : Layout) (thread : Thread) (stack : PoolStack) (chain : List ℕ) (hot : ℕ) :
    Prop where
  laid : Laid layout thread.pool.heap chain hot (stack.entries.map entryWord)
  tls : thread.pool.tls = pageAt chain hot
  tokens : ∀ n token, stack.entries[n]? = some (.mark token) → TokenAt layout chain n token
  objects : ∀ obj, .item obj ∈ stack.entries → obj ≠ poolBoundary
  frames : List.Forall₂ (FrameAt layout chain) thread.frames stack.stops
  loops : thread.releasing = true → stack.stops ≠ []

inductive Represents (layout : Layout) (thread : Thread) (stack : PoolStack) : Prop where
  /-- Nothing was ever pushed. -/
  | unused (tls : thread.pool.tls = 0) (idle : thread.frames = [] ∧ thread.releasing = false)
      (empty : stack = ⟨[], []⟩)
  /-- The only pool has never contained any objects. -/
  | placeholder (tls : thread.pool.tls = emptyPoolPlaceholder)
      (idle : thread.frames = [] ∧ thread.releasing = false)
      (single : stack = ⟨[.mark emptyPoolPlaceholder], []⟩)
  | pages (chain : List ℕ) (hot : ℕ) (on : OnPages layout thread stack chain hot)

variable {layout : Layout} {options : Options} {chain words : List ℕ} {hot : ℕ}

/-! ## Adding an entry -/

theorem tokenAt_append {n : ℕ} (more : List ℕ) (small : n / layout.capacity < chain.length) :
    tokenAt layout (chain ++ more) n = tokenAt layout chain n := by
  rw [tokenAt, tokenAt, pageAt_append more small]

theorem tokenAt_take {n k : ℕ} (small : n / layout.capacity < k) :
    tokenAt layout (chain.take k) n = tokenAt layout chain n := by
  rw [tokenAt, tokenAt, pageAt_take small]

theorem tokenAt_end (layout : Layout) (chain : List ℕ) {hot height : ℕ}
    (low : hot * layout.capacity ≤ height)
    (high : height < (hot + 1) * layout.capacity) :
    tokenAt layout chain height =
      layout.slotAddress (pageAt chain hot) (height - hot * layout.capacity) := by
  rw [Nat.succ_mul] at high
  have page : height / layout.capacity = hot :=
    Nat.div_eq_of_lt_le low (by rw [Nat.succ_mul]; exact high)
  have split := Nat.div_add_mod height layout.capacity
  rw [page, Nat.mul_comm] at split
  rw [tokenAt, page, show height % layout.capacity = height - hot * layout.capacity by omega]

theorem Laid.autoreleaseFast (options : Options) {pool : Pool} {alloc : Allocation}
    (laid : Laid layout pool.heap chain hot words) (tls : pool.tls = pageAt chain hot)
    (fresh : alloc.Fresh layout pool.heap) (obj : ℕ) :
    ∃ chain' hot' pool', autoreleaseFast layout options alloc obj pool =
        .ok (tokenAt layout chain' words.length, pool') ∧
      Laid layout pool'.heap chain' hot' (words ++ [obj]) ∧ pool'.tls = pageAt chain' hot' ∧
      ∃ more, chain' = chain ++ more := by
  have capacity := layout.capacity_pos
  have hotPage : pool.hotPage = pageAt chain hot := by
    rw [Pool.hotPage, tls, if_neg (laid.pageAt_ne_placeholder laid.hot_lt)]
  have nonnull := laid.pageAt_ne laid.hot_lt
  obtain ⟨data, loads, on⟩ := laid.load laid.at_hot
  have next := on.next.trans laid.fill_hot
  have high := laid.high
  have low := laid.low
  simp only [Autorelease.autoreleaseFast, hotPage, nonnull, if_false, loads, bind, Except.bind]
  rcases Nat.lt_or_eq_of_le high with room | filled
  · have not_full : layout.full data = false := by
      rw [Nat.succ_mul] at room
      exact decide_eq_false (by omega)
    obtain ⟨heap', adds, after⟩ := laid.add obj room
    refine ⟨chain, hot, { pool with heap := heap' }, ?_, after, tls, [], by simp⟩
    simp only [not_full, Bool.false_eq_true, if_false, adds, pure, Except.pure,
      tokenAt_end layout chain low room]
  · have full : layout.full data = true := by
      rw [Nat.succ_mul] at filled
      exact decide_eq_true (by omega)
    obtain ⟨chain', heap', steps, moved, grown⟩ := laid.nextPage fresh filled
    have room : words.length < (hot + 1 + 1) * layout.capacity := by
      rw [Nat.succ_mul, ← filled]
      omega
    obtain ⟨heap'', adds, after⟩ := moved.add obj room
    refine ⟨chain', hot + 1, ⟨pageAt chain' (hot + 1), heap''⟩, ?_, after, rfl, ?_⟩
    · simp only [full, if_true, Autorelease.autoreleaseFullPage, steps, bind, Except.bind, adds,
        pure, Except.pure, tokenAt_end layout chain' moved.low room]
    · rcases grown with rfl | rfl
      · exact ⟨[], by simp⟩
      · exact ⟨[alloc.address], rfl⟩

theorem autoreleaseNoPage_placeholder (options : Options) {pool : Pool} {alloc : Allocation}
    (tls : pool.tls = emptyPoolPlaceholder) (fresh : alloc.Fresh layout pool.heap) (obj : ℕ) :
    ∃ pool', autoreleaseNoPage layout options alloc obj pool =
        .ok (tokenAt layout [alloc.address] 1, pool') ∧
      Laid layout pool'.heap [alloc.address] 0 [poolBoundary, obj] ∧ pool'.tls = alloc.address := by
  have words := layout.two_words
  obtain ⟨heap, creates, laid⟩ := laid_first fresh
  obtain ⟨heap₁, adds₁, laid₁⟩ := laid.add poolBoundary (by simp; omega)
  obtain ⟨heap₂, adds₂, laid₂⟩ := laid₁.add obj (by simp; omega)
  refine ⟨⟨alloc.address, heap₂⟩, ?_, laid₂, rfl⟩
  have dest := tokenAt_end layout [alloc.address] (by simp : 0 * layout.capacity ≤ 1) (by omega)
  simp only [pageAt, List.getD_cons_zero] at adds₁ adds₂ dest
  simp [Autorelease.autoreleaseNoPage, tls, creates, adds₁, adds₂, dest, bind, Except.bind, pure,
    Except.pure]

theorem autoreleaseNoPage_object {pool : Pool} {alloc : Allocation} (tls : pool.tls = 0)
    (fresh : alloc.Fresh layout pool.heap) {obj : ℕ} (object : obj ≠ poolBoundary)
    (kept : options.debugMissingPools = false) :
    ∃ pool', autoreleaseNoPage layout options alloc obj pool =
        .ok (tokenAt layout [alloc.address] 0, pool') ∧
      Laid layout pool'.heap [alloc.address] 0 [obj] ∧ pool'.tls = alloc.address := by
  have words := layout.two_words
  obtain ⟨heap, creates, laid⟩ := laid_first fresh
  obtain ⟨heap₁, adds₁, laid₁⟩ := laid.add obj (by simp; omega)
  refine ⟨⟨alloc.address, heap₁⟩, ?_, laid₁, rfl⟩
  have dest := tokenAt_end layout [alloc.address] (by simp : 0 * layout.capacity ≤ 0) (by omega)
  have not_placeholder : (0 : ℕ) ≠ emptyPoolPlaceholder := by decide
  simp only [pageAt, List.getD_cons_zero, List.length_nil] at adds₁ dest
  simp [Autorelease.autoreleaseNoPage, tls, kept, object, not_placeholder, creates, adds₁, dest,
    bind, Except.bind, pure, Except.pure]

theorem Laid.div_le {heap : Heap} (laid : Laid layout heap chain hot words) {n : ℕ}
    (small : n < words.length) : n / layout.capacity ≤ hot :=
  Nat.lt_succ_iff.mp ((Nat.div_lt_iff_lt_mul layout.capacity_pos).mpr (small.trans_le laid.high))

section Steps

variable {thread : Thread} {stack : PoolStack}

theorem getElem?_lt {entries : List (Entry ℕ ℕ)} {n : ℕ} {entry : Entry ℕ ℕ}
    (at_n : entries[n]? = some entry) : n < (entries.map entryWord).length := by
  rw [List.length_map]
  exact (List.getElem?_eq_some_iff.mp at_n).1

theorem FrameAt.append {frame : Frame} {n : ℕ} (held : FrameAt layout chain frame n)
    (more : List ℕ) : FrameAt layout (chain ++ more) frame n :=
  ⟨held.page.trans (pageAt_append more held.small).symm,
    held.stop.trans (tokenAt_append more held.small).symm, by
      rw [List.length_append]
      exact held.small.trans_le (Nat.le_add_right _ _)⟩

theorem TokenAt.append {n token : ℕ} (held : TokenAt layout chain n token) (more : List ℕ)
    (small : n / layout.capacity < chain.length) : TokenAt layout (chain ++ more) n token := by
  rw [TokenAt, tokenAt_append more small]
  exact held

theorem OnPages.append (on : OnPages layout thread stack chain hot) {pool : Pool} {more : List ℕ}
    {hot' : ℕ} {entry : Entry ℕ ℕ}
    (laid : Laid layout pool.heap (chain ++ more) hot'
      (stack.entries.map entryWord ++ [entryWord entry]))
    (tls : pool.tls = pageAt (chain ++ more) hot')
    (token : ∀ token, entry = .mark token →
      token = tokenAt layout (chain ++ more) stack.entries.length)
    (object : ∀ obj, entry = .item obj → obj ≠ poolBoundary) :
    OnPages layout { thread with pool := pool }
      { stack with entries := stack.entries ++ [entry] } (chain ++ more) hot' := by
  refine ⟨by simpa using laid, tls, ?_, ?_, ?_, on.loops⟩
  · intro n token' at_n
    rcases Nat.lt_or_ge n stack.entries.length with old | new
    · rw [List.getElem?_append_left old] at at_n
      have small := (on.laid.div_le (getElem?_lt at_n)).trans_lt on.laid.hot_lt
      exact (on.tokens n token' at_n).append more small
    · obtain ⟨small, last⟩ := List.getElem?_eq_some_iff.mp at_n
      obtain rfl : n = stack.entries.length := by
        simp at small
        omega
      rw [List.getElem_concat_length rfl] at last
      exact .inl (token token' last)
  · intro obj mem
    rcases List.mem_append.mp mem with old | new
    · exact on.objects obj old
    · exact object obj (List.mem_singleton.mp new).symm
  · exact on.frames.imp fun _ _ held => held.append more

/-- The object that a step autoreleases. -/
def Label.autoreleased : Label → List ℕ
  | .autorelease obj _ => [obj]
  | _ => []

/-- The thread takes the step, and it is what it says it is on the stack. -/
structure Simulated (layout : Layout) (options : Options) (thread : Thread) (stack : PoolStack)
    (label : Label) (events : List PoolEvent) (thread' : Thread) (stack' : PoolStack) : Prop where
  step : thread.step layout options label = .ok (events, thread')
  run : stack.run events = some stack'
  stands : Represents layout thread' stack'
  /-- No object is leaked unless the option asks for it. -/
  kept : options.debugMissingPools = false → added events = label.autoreleased

/-- The thread takes some step for the label. -/
def Simulates (layout : Layout) (options : Options) (thread : Thread) (stack : PoolStack)
    (label : Label) : Prop :=
  ∃ events thread' stack', Simulated layout options thread stack label events thread' stack'

theorem Represents.push (stands : Represents layout thread stack) {alloc : Allocation}
    (off : options.debugPoolAllocation = false) (fresh : alloc.Fresh layout thread.pool.heap)
    (user : thread.releasing = false) : Simulates layout options thread stack (.push alloc) := by
  have not_placeholder : (0 : ℕ) ≠ emptyPoolPlaceholder := by decide
  cases stands with
  | unused tls idle empty =>
      refine ⟨[.pushed emptyPoolPlaceholder],
        { thread with pool := { thread.pool with tls := emptyPoolPlaceholder } },
        ⟨[.mark emptyPoolPlaceholder], []⟩, ?_, by rw [empty]; rfl, .placeholder rfl idle rfl,
        fun _ => rfl⟩
      simp [Thread.step, user, Autorelease.push, off, Autorelease.autoreleaseFast, Pool.hotPage, tls,
        autoreleaseNoPage, not_placeholder, bind, Except.bind, pure, Except.pure]
  | placeholder tls idle single =>
      obtain ⟨pool', pushes, laid, tls'⟩ :=
        autoreleaseNoPage_placeholder options tls fresh poolBoundary
      refine ⟨[.pushed (tokenAt layout [alloc.address] 1)], { thread with pool := pool' },
        ⟨[.mark emptyPoolPlaceholder, .mark (tokenAt layout [alloc.address] 1)], []⟩, ?_,
        by rw [single]; rfl, .pages [alloc.address] 0 ⟨laid, tls', ?_, by simp, ?_, ?_⟩, fun _ => rfl⟩
      · simp [Thread.step, user, Autorelease.push, off, Autorelease.autoreleaseFast, Pool.hotPage,
          tls, pushes, bind, Except.bind, pure, Except.pure]
      · intro n token at_n
        rcases n with _ | _ | n
        · exact .inr ⟨rfl, by simpa [eq_comm] using at_n⟩
        · exact .inl (by simpa [eq_comm] using at_n)
        · simp at at_n
      · rw [idle.1]
        exact .nil
      · simp [idle.2]
  | pages chain hot on =>
      obtain ⟨chain', hot', pool', pushes, laid, tls, more, rfl⟩ :=
        on.laid.autoreleaseFast options on.tls fresh poolBoundary
      refine ⟨[.pushed (tokenAt layout (chain ++ more) (stack.entries.map entryWord).length)],
        { thread with pool := pool' }, _, ?_, rfl, .pages (chain ++ more) hot' ?_, fun _ => rfl⟩
      · simp [Thread.step, user, Autorelease.push, off, pushes, bind, Except.bind, pure, Except.pure]
      · exact on.append laid tls (by simp) (by simp)

theorem Represents.autorelease (stands : Represents layout thread stack) {alloc : Allocation}
    {obj : ℕ} (object : obj ≠ poolBoundary) (fresh : alloc.Fresh layout thread.pool.heap)
    (user : thread.releasing = false) :
    Simulates layout options thread stack (.autorelease obj alloc) := by
  have not_placeholder : (0 : ℕ) ≠ emptyPoolPlaceholder := by decide
  have nonzero {chain : List ℕ} {n : ℕ} : tokenAt layout chain n ≠ 0 := by
    have := layout.header_pos
    rw [tokenAt, Layout.slotAddress]
    omega
  cases stands with
  | unused tls idle empty =>
      cases missing : options.debugMissingPools with
      | true =>
          refine ⟨[], { thread with pool := thread.pool }, stack, ?_, rfl, .unused tls idle empty,
            fun off => absurd (missing.symm.trans off) (by decide)⟩
          simp [Thread.step, user, Autorelease.autoreleaseFast, Pool.hotPage, tls, not_placeholder,
            autoreleaseNoPage, object, missing, bind, Except.bind, pure, Except.pure]
          rw [← user]
      | false =>
          obtain ⟨pool', adds, laid, tls'⟩ := autoreleaseNoPage_object tls fresh object missing
          refine ⟨[.added obj], { thread with pool := pool' }, ⟨[.item obj], []⟩, ?_,
            by rw [empty]; rfl, .pages [alloc.address] 0 ⟨laid, tls', ?_, ?_, ?_, ?_⟩, fun _ => rfl⟩
          · simp [Thread.step, user, Autorelease.autoreleaseFast, Pool.hotPage, tls,
              not_placeholder, adds, nonzero, bind, Except.bind, pure, Except.pure]
          · intro n token at_n
            cases n <;> simp at at_n
          · simpa using object
          · rw [idle.1]
            exact .nil
          · simp [idle.2]
  | placeholder tls idle single =>
      obtain ⟨pool', adds, laid, tls'⟩ := autoreleaseNoPage_placeholder options tls fresh obj
      refine ⟨[.added obj], { thread with pool := pool' },
        ⟨[.mark emptyPoolPlaceholder, .item obj], []⟩, ?_, by rw [single]; rfl,
        .pages [alloc.address] 0 ⟨laid, tls', ?_, ?_, ?_, ?_⟩, fun _ => rfl⟩
      · simp [Thread.step, user, Autorelease.autoreleaseFast, Pool.hotPage, tls, adds, nonzero,
          bind, Except.bind, pure, Except.pure]
      · intro n token at_n
        rcases n with _ | _ | n
        · exact .inr ⟨rfl, by simpa [eq_comm] using at_n⟩
        · simp at at_n
        · simp at at_n
      · simpa using object
      · rw [idle.1]
        exact .nil
      · simp [idle.2]
  | pages chain hot on =>
      obtain ⟨chain', hot', pool', adds, laid, tls, more, rfl⟩ :=
        on.laid.autoreleaseFast options on.tls fresh obj
      refine ⟨[.added obj], { thread with pool := pool' }, _, ?_, rfl, .pages (chain ++ more) hot' ?_,
        fun _ => rfl⟩
      · simp [Thread.step, user, adds, nonzero, bind, Except.bind, pure, Except.pure]
      · exact on.append laid tls (by simp) fun other same => by
          cases same
          exact object

/-! ## Popping -/

theorem OnPages.hotPage (on : OnPages layout thread stack chain hot) :
    thread.pool.hotPage = pageAt chain hot := by
  rw [Pool.hotPage, on.tls, if_neg (on.laid.pageAt_ne_placeholder on.laid.hot_lt)]

theorem OnPages.printHiwat (on : OnPages layout thread stack chain hot) :
    ∃ pool, printHiwat layout thread.pool = .ok pool ∧ pool.tls = thread.pool.tls ∧
      Laid layout pool.heap chain hot (stack.entries.map entryWord) := by
  obtain ⟨data, loads, -⟩ := on.laid.load on.laid.at_hot
  simp only [Autorelease.printHiwat, on.hotPage, loads, bind, Except.bind]
  split
  next =>
    have counted := on.laid.counted
    have hot_lt := on.laid.hot_lt
    obtain ⟨heap, raises, laid⟩ := on.laid.raiseHiwat
      ((data.depth * (layout.size / layout.wordSize) + data.next) % 2 ^ 32)
      (Nat.succ_le_of_lt hot_lt) (by omega : hot + 1 < thread.pool.heap.live + 1)
    rw [parentIn] at raises
    exact ⟨{ thread.pool with heap := heap }, by rw [raises]; rfl, rfl, laid⟩
  next => exact ⟨thread.pool, rfl, rfl, on.laid⟩

theorem OnPages.popPageHiwat (options : Options) (on : OnPages layout thread stack chain hot) :
    ∃ pool, popPageHiwat layout options thread.pool = .ok pool ∧ pool.tls = thread.pool.tls ∧
      Laid layout pool.heap chain hot (stack.entries.map entryWord) := by
  rw [Autorelease.popPageHiwat]
  split
  next => exact on.printHiwat
  next => exact ⟨thread.pool, rfl, rfl, on.laid⟩

theorem OnPages.popStart (options : Options) (on : OnPages layout thread stack chain hot) {n token : ℕ}
    (marked : stack.entries[n]? = some (.mark token)) :
    ∃ pool, popStart layout options token thread.pool =
        .ok (some ⟨pageAt chain (n / layout.capacity), tokenAt layout chain n⟩, pool) ∧
      pool.tls = thread.pool.tls ∧ Laid layout pool.heap chain hot (stack.entries.map entryWord) := by
  have capacity := layout.capacity_pos
  have hot_lt := on.laid.hot_lt
  have counted := on.laid.counted
  have page_lt := (on.laid.div_le (getElem?_lt marked)).trans_lt hot_lt
  obtain ⟨-, aligned⟩ := on.laid.placed _ (pageAt_mem page_lt)
  have in_page := Nat.mod_lt n capacity
  obtain ⟨data, loads, -, word⟩ := on.laid.word_at
    (show (stack.entries.map entryWord)[n]? = some poolBoundary by simp [marked, entryWord])
  have address : layout.slotIndex (tokenAt layout chain n) = n % layout.capacity :=
    slotIndex_slotAddress aligned in_page
  obtain ⟨pool, prints, tls, laid⟩ := on.popPageHiwat options
  refine ⟨pool, ?_, tls, laid⟩
  by_cases lazily : token = emptyPoolPlaceholder
  · obtain rfl : n = 0 := by
      rcases on.tokens n token marked with real | ⟨zero, -⟩
      · exact absurd (real.symm.trans lazily) (slotAddress_ne_placeholder _ _)
      · exact zero
    have cold : thread.pool.coldPage = .ok (pageAt chain 0) := by
      rw [Pool.coldPage, on.hotPage, if_neg (on.laid.pageAt_ne hot_lt)]
      exact on.laid.topParent hot_lt (by omega)
    simp only [Nat.zero_div, Nat.zero_mod, tokenAt] at loads word address ⊢
    simp only [Autorelease.popStart, lazily, on.hotPage, on.laid.pageAt_ne hot_lt, and_false,
      if_false, if_true, cold, bind, Except.bind, loads, address, word, ne_eq, not_true_eq_false,
      false_and, prints, pure, Except.pure]
  · have real : token = tokenAt layout chain n := by
      rcases on.tokens n token marked with real | ⟨-, eq⟩
      · exact real
      · exact absurd eq lazily
    have page : layout.pageForPointer token = pageAt chain (n / layout.capacity) := by
      rw [real]
      exact pageForPointer_slotAddress aligned in_page
    rw [← real] at address ⊢
    simp only [Autorelease.popStart, lazily, false_and, if_false, page, bind, Except.bind, loads,
      address, word, ne_eq, not_true_eq_false, prints, pure, Except.pure]

theorem Represents.pop (stands : Represents layout thread stack) {token : ℕ} {begun : PoolStack}
    (begins : stack.apply (.popping token) = some begun) (user : thread.releasing = false) :
    Simulates layout options thread stack (.pop token) := by
  obtain ⟨⟨held, inner⟩, ⟨⟩⟩ := Option.ite_none_right_eq_some.mp begins
  have marked : stack.entries[stack.position token]? = some (.mark token) :=
    List.getElem?_idxOf (List.idxOf_lt_length_iff.mp held)
  cases stands with
  | unused tls idle empty =>
      rw [empty] at held
      exact absurd held (Nat.not_lt_zero _)
  | placeholder tls idle single =>
      subst single
      have zero : State.position (⟨[.mark emptyPoolPlaceholder], []⟩ : PoolStack) token = 0 :=
        Nat.lt_one_iff.mp held
      rw [zero] at marked
      obtain rfl : emptyPoolPlaceholder = token := by simpa using marked
      refine ⟨[.popping emptyPoolPlaceholder, .closed, .popped],
        { thread with pool := thread.pool.setHotPage 0 }, ⟨[], []⟩, ?_, by decide,
        .unused rfl idle rfl, fun _ => rfl⟩
      simp [Thread.step, user, Autorelease.popStart, Pool.hotPage, tls, bind, Except.bind, pure,
        Except.pure]
  | pages chain hot on =>
      obtain ⟨pool, starts, tls, laid⟩ := on.popStart options marked
      refine ⟨[.popping token],
        ⟨pool, ⟨pageAt chain (stack.position token / layout.capacity),
          tokenAt layout chain (stack.position token)⟩ :: thread.frames, true⟩,
        ⟨stack.entries, stack.position token :: stack.stops⟩, ?_, ?_,
        .pages chain hot ⟨laid, tls.trans on.tls, on.tokens, on.objects, ?_, ?_⟩, fun _ => rfl⟩
      · simp [Thread.step, user, starts, bind, Except.bind, pure, Except.pure]
      · rw [State.run, begins]
        rfl
      · exact .cons ⟨rfl, rfl, (on.laid.div_le (getElem?_lt marked)).trans_lt on.laid.hot_lt⟩
          on.frames
      · simp

/-! ## Releasing -/

theorem fill_eq_mod {height n : ℕ} (above : n ≤ height) :
    fill layout height (n / layout.capacity) = n % layout.capacity ↔ height = n := by
  have split := Nat.div_add_mod n layout.capacity
  have in_page := Nat.mod_lt n layout.capacity_pos
  rw [Nat.mul_comm] at split
  rw [fill]
  omega

theorem OnPages.loopTest (on : OnPages layout thread stack chain hot) {frame : Frame} {n : ℕ}
    (at_stop : FrameAt layout chain frame n) (above : n ≤ stack.entries.length) :
    ∃ this, thread.pool.heap.load frame.page = .ok this ∧
      OnPage layout chain (stack.entries.map entryWord) (n / layout.capacity) this ∧
      (layout.slotAddress frame.page this.next = frame.stop ↔ stack.entries.length = n) := by
  obtain ⟨this, loads, page⟩ := on.laid.load (getElem?_pageAt at_stop.small)
  refine ⟨this, by rw [at_stop.page]; exact loads, page, ?_⟩
  rw [at_stop.page, at_stop.stop, tokenAt, slotAddress_inj, page.next, List.length_map,
    fill_eq_mod above]

theorem OnPages.releaseStep_stop (on : OnPages layout thread stack chain hot) {frame : Frame}
    (at_stop : FrameAt layout chain frame stack.entries.length) :
    releaseStep layout frame thread.pool = .ok (.nothing, thread.pool) := by
  obtain ⟨this, loads, -, test⟩ := on.loopTest at_stop le_rfl
  simp only [Autorelease.releaseStep, loads, bind, Except.bind, test.mpr rfl, if_true, pure,
    Except.pure]

/-- What an iteration takes when it takes an entry. -/
def takenEntry : Entry ℕ ℕ → Taken
  | .mark _ => .boundary
  | .item obj => .object obj

theorem OnPages.releaseStep (on : OnPages layout thread stack chain hot) {frame : Frame} {n : ℕ}
    (at_stop : FrameAt layout chain frame n) {lower : List (Entry ℕ ℕ)} {entry : Entry ℕ ℕ}
    (shape : stack.entries = lower ++ [entry]) (above : n ≤ lower.length) :
    ∃ hot' pool, releaseStep layout frame thread.pool = .ok (takenEntry entry, pool) ∧
      Laid layout pool.heap chain hot' (lower.map entryWord) ∧ pool.tls = pageAt chain hot' := by
  have height : stack.entries.length = lower.length + 1 := by simp [shape]
  obtain ⟨this, loads, -, test⟩ := on.loopTest at_stop (by omega)
  have goes_on : layout.slotAddress frame.page this.next ≠ frame.stop := by
    rw [ne_eq, test]
    omega
  obtain ⟨steps, hot', pool, climbs, -, same_heap, tls, laid, here⟩ :=
    on.laid.climb on.tls (by simp [shape])
  rw [shape, List.map_append, List.map_singleton] at laid
  obtain ⟨data, loads_data, -, word, after⟩ := laid.take (by simpa [shape, Nat.lt_succ_iff] using here)
    layout.scribble
  have kind : (if entryWord entry = poolBoundary then Taken.boundary else .object (entryWord entry)) =
      takenEntry entry := by
    cases entry with
    | mark token => rfl
    | item obj => exact if_neg (on.objects obj (by simp [shape]))
  refine ⟨hot', { pool with heap := _ }, ?_, after, tls⟩
  simp only [Autorelease.releaseStep, loads, bind, Except.bind, goes_on, if_false, on.hotPage,
    climbs, same_heap, loads_data, word, kind, pure, Except.pure]
  rfl

theorem OnPages.drop (on : OnPages layout thread stack chain hot) {lower : List (Entry ℕ ℕ)}
    {entry : Entry ℕ ℕ} (shape : stack.entries = lower ++ [entry]) {pool : Pool} {hot' : ℕ}
    (laid : Laid layout pool.heap chain hot' (lower.map entryWord))
    (tls : pool.tls = pageAt chain hot') (releasing : Bool) (loops : stack.stops ≠ []) :
    OnPages layout ⟨pool, thread.frames, releasing⟩ ⟨lower, stack.stops⟩ chain hot' := by
  refine ⟨laid, tls, ?_, ?_, on.frames, fun _ => loops⟩
  · intro n token at_n
    refine on.tokens n token ?_
    rw [shape, List.getElem?_append_left (List.getElem?_eq_some_iff.mp at_n).1]
    exact at_n
  · intro obj mem
    exact on.objects obj (by simp [shape, mem])

theorem OnPages.popFinish (on : OnPages layout thread stack chain hot) (pool : Pool) {k : ℕ}
    (off : options.debugPoolAllocation = false) (small : k < chain.length)
    (low : k * layout.capacity ≤ stack.entries.length)
    (high : stack.entries.length ≤ (k + 1) * layout.capacity)
    (same_heap : pool.heap = thread.pool.heap) (tls : pool.tls = pageAt chain k) :
    ∃ pool', popFinish layout options (pageAt chain k) pool = .ok pool' ∧
      ((stack.entries = [] ∧ pool'.tls = 0) ∨
        ∃ keep, k < keep ∧ keep ≤ chain.length ∧ pool'.tls = pageAt chain k ∧
          Laid layout pool'.heap (chain.take keep) k (stack.entries.map entryWord)) := by
  have laid : Laid layout pool.heap chain k (stack.entries.map entryWord) := by
    rw [same_heap]
    exact on.laid.moveHot small (by simpa using low) (by simpa using high)
  obtain ⟨data, loads, page⟩ := laid.load laid.at_hot
  have killed {j : ℕ} (hotter : k < j) (inside : j < chain.length) :=
    laid.kill hotter.le inside
  simp only [Autorelease.popFinish, loads, bind, Except.bind, off, Bool.and_false, Bool.false_and,
    Bool.false_eq_true, if_false, page.child]
  split
  next missing =>
    simp only [Bool.and_eq_true, decide_eq_true_eq] at missing
    obtain ⟨⟨-, empty⟩, top⟩ := missing
    obtain rfl : k = 0 := by
      cases k with
      | zero => rfl
      | succ k => exact absurd (page.parent.symm.trans top) (laid.pageAt_ne (by omega))
    have none : stack.entries = [] := by
      have capacity := layout.capacity_pos
      have next := page.next.symm.trans (of_decide_eq_true empty)
      rw [fill, List.length_map] at next
      exact List.length_eq_zero_iff.mp (by omega)
    obtain ⟨heap, kills, -⟩ := laid.kill le_rfl small
    exact ⟨_, by rw [kills]; rfl, .inl ⟨none, rfl⟩⟩
  next =>
    by_cases more : k + 1 < chain.length
    · have child : pageAt chain (k + 1) ≠ 0 := laid.pageAt_ne more
      rw [if_pos child]
      split
      next =>
        obtain ⟨heap, kills, after⟩ := killed (Nat.lt_succ_self k) more
        exact ⟨{ pool with heap := heap }, by rw [kills]; rfl,
          .inr ⟨k + 1, Nat.lt_succ_self k, more.le, tls, after (Nat.lt_succ_self k)⟩⟩
      next =>
        obtain ⟨below, loads_below, page_below⟩ := laid.load (getElem?_pageAt more)
        simp only [loads_below, page_below.child]
        by_cases deeper : k + 2 < chain.length
        · obtain ⟨heap, kills, after⟩ := killed (by omega : k < k + 2) deeper
          have grandchild : pageAt chain (k + 2) ≠ 0 := laid.pageAt_ne deeper
          exact ⟨{ pool with heap := heap }, by rw [if_pos grandchild, kills]; rfl,
            .inr ⟨k + 2, by omega, deeper.le, tls, after (by omega)⟩⟩
        · have grandchild : pageAt chain (k + 2) = 0 := pageAt_end (by omega)
          exact ⟨pool, by simp [grandchild, pure, Except.pure],
            .inr ⟨chain.length, small, le_rfl, tls, by rw [List.take_length]; exact laid⟩⟩
    · have child : pageAt chain (k + 1) = 0 := pageAt_end (by omega)
      exact ⟨pool, by simp [child, pure, Except.pure],
        .inr ⟨chain.length, small, le_rfl, tls, by rw [List.take_length]; exact laid⟩⟩

theorem FrameAt.take {frame : Frame} {n keep : ℕ} (held : FrameAt layout chain frame n)
    (kept : n / layout.capacity < keep) (inside : keep ≤ chain.length) :
    FrameAt layout (chain.take keep) frame n :=
  ⟨held.page.trans (pageAt_take kept).symm, held.stop.trans (tokenAt_take kept).symm, by
    rw [List.length_take_of_le inside]
    exact kept⟩

theorem framesAt_take {frames : List Frame} {stops : List ℕ} {n keep : ℕ}
    (framed : List.Forall₂ (FrameAt layout chain) frames stops) (below : ∀ m ∈ stops, m < n)
    (kept : n / layout.capacity < keep) (inside : keep ≤ chain.length) :
    List.Forall₂ (FrameAt layout (chain.take keep)) frames stops := by
  induction framed with
  | nil => exact .nil
  | cons held rest ih =>
      have colder := Nat.div_le_div_right (c := layout.capacity) (below _ List.mem_cons_self).le
      exact .cons (held.take (colder.trans_lt kept) inside)
        (ih fun m mem => below m (List.mem_cons_of_mem _ mem))

theorem OnPages.finish (on : OnPages layout thread stack chain hot) (nested : stack.Nested)
    {frame : Frame} {frames : List Frame} {stops : List ℕ} {n keep : ℕ} {pool : Pool}
    (pops : stack.stops = n :: stops) (runs : thread.frames = frame :: frames)
    (height : stack.entries.length = n) (kept : n / layout.capacity < keep)
    (inside : keep ≤ chain.length) (tls : pool.tls = pageAt chain (n / layout.capacity))
    (laid : Laid layout pool.heap (chain.take keep) (n / layout.capacity)
      (stack.entries.map entryWord)) :
    OnPages layout ⟨pool, frames, false⟩ ⟨stack.entries, stops⟩ (chain.take keep)
      (n / layout.capacity) := by
  have sorted := nested.sorted
  have framed := on.frames
  rw [pops] at sorted framed
  rw [runs] at framed
  refine ⟨laid, tls.trans (pageAt_take kept).symm, ?_, on.objects, ?_, nofun⟩
  · intro m token at_m
    have below : m < n := by
      rw [← height]
      exact (List.getElem?_eq_some_iff.mp at_m).1
    rw [TokenAt, tokenAt_take ((Nat.div_le_div_right below.le).trans_lt kept)]
    exact on.tokens m token at_m
  · exact framesAt_take (List.forall₂_cons.mp framed).2 (List.pairwise_cons.mp sorted).1 kept inside

/-- What an iteration does to the stack when it takes an entry. -/
def takenEvent : Entry ℕ ℕ → PoolEvent
  | .mark _ => .closed
  | .item obj => .released obj

/-- The loop goes on after a mark; after an object its `-release` runs first. -/
def goesOn : Entry ℕ ℕ → Bool
  | .mark _ => true
  | .item _ => false

theorem run_takenEvent {stop : ℕ} {stops : List ℕ} {lower : List (Entry ℕ ℕ)} {entry : Entry ℕ ℕ}
    (pops : stack.stops = stop :: stops) (shape : stack.entries = lower ++ [entry])
    (above : stop ≤ lower.length) : stack.run [takenEvent entry] = some ⟨lower, stack.stops⟩ := by
  have taken {wanted : Entry ℕ ℕ → Bool} (want : wanted entry = true) :
      stack.take wanted = some ⟨lower, stack.stops⟩ :=
    State.take_eq_some.mpr ⟨stop, stops, lower, entry, pops, shape, above, want, rfl⟩
  cases entry with
  | mark token => simp [State.run, takenEvent, State.apply, taken]
  | item obj => simp [State.run, takenEvent, State.apply, taken]

theorem Represents.iterate_cases (stands : Represents layout thread stack)
    (off : options.debugPoolAllocation = false) (nested : stack.Nested)
    (loops : thread.releasing = true) :
    ∃ stop stops thread', stack.stops = stop :: stops ∧
      ((∃ lower entry, stack.entries = lower ++ [entry] ∧ stop ≤ lower.length ∧
          thread'.releasing = goesOn entry ∧
          Simulated layout options thread stack .iterate [takenEvent entry] thread'
            ⟨lower, stack.stops⟩) ∨
        (stack.entries.length = stop ∧
          Simulated layout options thread stack .iterate [.popped] thread'
            ⟨stack.entries, stops⟩)) := by
  cases stands with
  | unused _ idle _ => exact absurd (loops.symm.trans idle.2) (by decide)
  | placeholder _ idle _ => exact absurd (loops.symm.trans idle.2) (by decide)
  | pages chain hot on =>
      have framed := on.frames
      obtain ⟨n, stops, pops⟩ := List.exists_cons_of_ne_nil (on.loops loops)
      rw [pops] at framed
      cases runs : thread.frames with
      | nil => rw [runs] at framed; cases framed
      | cons frame frames =>
          rw [runs] at framed
          have at_stop := (List.forall₂_cons.mp framed).1
          have above := nested.below n (by simp [pops])
          rcases Nat.lt_or_eq_of_le above with more | rfl
          · obtain ⟨lower, entry, shape⟩ : ∃ lower entry, stack.entries = lower ++ [entry] :=
              ⟨_, _, (List.dropLast_concat_getLast (List.ne_nil_of_length_pos (by omega))).symm⟩
            have high : n ≤ lower.length := by
              simpa [shape, Nat.lt_succ_iff] using more
            obtain ⟨hot', pool, takes, laid, tls⟩ := on.releaseStep at_stop shape high
            refine ⟨n, stops, ⟨pool, thread.frames, goesOn entry⟩, pops,
              .inl ⟨lower, entry, shape, high, rfl, ?_, run_takenEvent pops shape high,
                .pages chain hot' (on.drop shape laid tls _ (on.loops loops)), ?_⟩⟩
            · cases entry <;>
                simp [Thread.step, loops, runs, takes, takenEntry, takenEvent, goesOn, bind,
                  Except.bind, pure, Except.pure]
            · cases entry <;> exact fun _ => rfl
          · have split := Nat.div_add_mod stack.entries.length layout.capacity
            have in_page := Nat.mod_lt stack.entries.length layout.capacity_pos
            rw [Nat.mul_comm] at split
            obtain ⟨pool, finishes, outcome⟩ := on.popFinish (thread.pool.setHotPage frame.page)
              off at_stop.small (by omega) (by rw [Nat.succ_mul]; omega) rfl at_stop.page
            rw [← at_stop.page] at finishes
            have pops_off : stack.apply .popped = some ⟨stack.entries, stops⟩ := by
              simp [State.apply, pops]
            refine ⟨_, stops, ⟨pool, frames, false⟩, pops, .inr ⟨rfl, ?_, ?_, ?_, fun _ => rfl⟩⟩
            · simp only [Thread.step, loops, runs, on.releaseStep_stop at_stop, finishes, bind,
                Except.bind, pure, Except.pure]
            · simp [State.run, pops_off]
            · rcases outcome with ⟨none, tls⟩ | ⟨keep, kept, inside, tls, laid⟩
              · have sorted := nested.sorted
                rw [pops, none] at sorted
                obtain rfl : stops = [] := List.eq_nil_iff_forall_not_mem.mpr fun m mem =>
                  absurd ((List.pairwise_cons.mp sorted).1 m mem) (Nat.not_lt_zero m)
                obtain rfl := List.forall₂_nil_right_iff.mp (List.forall₂_cons.mp framed).2
                exact .unused tls ⟨rfl, rfl⟩ (by rw [none])
              · exact .pages _ _ (on.finish nested pops runs rfl kept inside tls laid)

theorem Represents.iterate (stands : Represents layout thread stack)
    (off : options.debugPoolAllocation = false) (nested : stack.Nested)
    (loops : thread.releasing = true) : Simulates layout options thread stack .iterate := by
  obtain ⟨_, _, thread', -, taken | ended⟩ := stands.iterate_cases off nested loops
  · obtain ⟨lower, entry, -, -, -, simulated⟩ := taken
    exact ⟨_, thread', _, simulated⟩
  · exact ⟨_, thread', _, ended.2⟩

theorem Represents.finishRelease (options : Options) (stands : Represents layout thread stack)
    (user : thread.releasing = false) (pops : stack.stops ≠ []) :
    Simulated layout options thread stack .finishRelease [] { thread with releasing := true }
      stack := by
  cases stands with
  | unused _ _ empty => exact absurd (by rw [empty]) pops
  | placeholder _ _ single => exact absurd (by rw [single]) pops
  | pages chain hot on =>
      refine ⟨?_, rfl, .pages chain hot
        ⟨on.laid, on.tls, on.tokens, on.objects, on.frames, fun _ => pops⟩, fun _ => rfl⟩
      have frames : thread.frames ≠ [] := by
        intro none
        have framed := on.frames
        rw [none] at framed
        exact pops (List.forall₂_nil_left_iff.mp framed)
      simp [Thread.step, user, frames, pure, Except.pure]

end Steps

end ObjcDyld.Autorelease
