import ObjcDyld.Autorelease.Page
import ObjcDyld.Common.Unwinding

/-!
# Pushing, autoreleasing and popping

The operations of a thread's autorelease pool.  Releasing until a token is cut
into the iterations of its loop, because every released object may come back
to the pool before the next one.
-/

namespace ObjcDyld.Autorelease

/-- The environment options that change what the pool does. -/
structure Options where
  debugMissingPools : Bool
  debugPoolAllocation : Bool
  printPoolHiwat : Bool
  deriving DecidableEq, Repr

/-- Whether `pop` goes through `popPageDebug`, that is `popPage<true>`. -/
def Options.allowDebug (options : Options) : Bool :=
  options.printPoolHiwat || options.debugPoolAllocation || options.debugMissingPools

def Options.off : Options := ⟨false, false, false⟩

/-! ## Adding a word -/

/-- The loop of `autoreleaseFullPage`: step to the next page that is not full, or to a new one. -/
def nextPage (layout : Layout) (alloc : Allocation) : ℕ → ℕ → Heap → Except Fault (ℕ × Heap)
  | 0, _, _ => .error .endlessLoop
  | fuel + 1, page, heap => do
      let data ← heap.load page
      let (page, heap) ←
        if data.child ≠ 0 then pure (data.child, heap)
        else do
          let heap ← newPage alloc page heap
          pure (alloc.address, heap)
      let data ← heap.load page
      if layout.full data then nextPage layout alloc fuel page heap else pure (page, heap)

def autoreleaseFullPage (layout : Layout) (alloc : Allocation) (obj page : ℕ) (pool : Pool) :
    Except Fault (ℕ × Pool) := do
  let (page, heap) ← nextPage layout alloc pool.heap.live page pool.heap
  let (dest, heap) ← add layout page obj heap
  pure (dest, { tls := page, heap := heap })

/-- `autoreleaseNoPage`; a leaked object is reported by the address zero. -/
def autoreleaseNoPage (layout : Layout) (options : Options) (alloc : Allocation) (obj : ℕ)
    (pool : Pool) : Except Fault (ℕ × Pool) :=
  let pushExtraBoundary : Bool := pool.tls = emptyPoolPlaceholder
  if !pushExtraBoundary && obj ≠ poolBoundary && options.debugMissingPools then pure (0, pool)
  else if !pushExtraBoundary && obj = poolBoundary && !options.debugPoolAllocation then
    pure (emptyPoolPlaceholder, { pool with tls := emptyPoolPlaceholder })
  else do
    let heap ← newPage alloc 0 pool.heap
    let heap ←
      if pushExtraBoundary then do
        let (_, heap) ← add layout alloc.address poolBoundary heap
        pure heap
      else pure heap
    let (dest, heap) ← add layout alloc.address obj heap
    pure (dest, { tls := alloc.address, heap := heap })

def autoreleaseFast (layout : Layout) (options : Options) (alloc : Allocation) (obj : ℕ)
    (pool : Pool) : Except Fault (ℕ × Pool) :=
  let page := pool.hotPage
  if page = 0 then autoreleaseNoPage layout options alloc obj pool
  else do
    let data ← pool.heap.load page
    if layout.full data then autoreleaseFullPage layout alloc obj page pool
    else do
      let (dest, heap) ← add layout page obj pool.heap
      pure (dest, { pool with heap := heap })

def autoreleaseNewPage (layout : Layout) (options : Options) (alloc : Allocation) (obj : ℕ)
    (pool : Pool) : Except Fault (ℕ × Pool) :=
  if pool.hotPage = 0 then autoreleaseNoPage layout options alloc obj pool
  else autoreleaseFullPage layout alloc obj pool.hotPage pool

def push (layout : Layout) (options : Options) (alloc : Allocation) (pool : Pool) :
    Except Fault (ℕ × Pool) :=
  if options.debugPoolAllocation then autoreleaseNewPage layout options alloc poolBoundary pool
  else autoreleaseFast layout options alloc poolBoundary pool

/-! ## Popping -/

/-- The page and the address that `releaseUntil` runs with. -/
structure Frame where
  page : ℕ
  stop : ℕ
  deriving DecidableEq, Repr

/-- `printHiwat`, without the report. -/
def printHiwat (layout : Layout) (pool : Pool) : Except Fault Pool := do
  let data ← pool.heap.load pool.hotPage
  let mark := (data.depth * (layout.size / layout.wordSize) + data.next) % 2 ^ 32
  if data.hiwat < mark ∧ 256 < mark then do
    let heap ← raiseHiwat mark (pool.heap.live + 1) pool.hotPage pool.heap
    pure { pool with heap := heap }
  else pure pool

/-- The first line of `popPage`. -/
def popPageHiwat (layout : Layout) (options : Options) (pool : Pool) : Except Fault Pool :=
  if options.allowDebug && options.printPoolHiwat then printHiwat layout pool else pure pool

/--
`pop` as far as the call of `releaseUntil`, with which it goes on; or the end of a pool that was
never used.
-/
def popStart (layout : Layout) (options : Options) (token : ℕ) (pool : Pool) :
    Except Fault (Option Frame × Pool) :=
  if token = emptyPoolPlaceholder ∧ pool.hotPage = 0 then pure (none, pool.setHotPage 0)
  else do
    let page ←
      if token = emptyPoolPlaceholder then pool.coldPage
      else pure (layout.pageForPointer token)
    let stop := if token = emptyPoolPlaceholder then layout.slotAddress page 0 else token
    let data ← pool.heap.load page
    if data.slots (layout.slotIndex stop) ≠ poolBoundary ∧
        ¬(stop = layout.slotAddress page 0 ∧ data.parent = 0) then .error .badPop
    else do
      let pool ← popPageHiwat layout options pool
      pure (some ⟨page, stop⟩, pool)

/-- `while (page->empty())` of `releaseUntil`: how often it stepped to a parent, and where it ends. -/
def climb : ℕ → ℕ → Pool → Except Fault (ℕ × ℕ × Pool)
  | 0, _, _ => .error .endlessLoop
  | fuel + 1, page, pool => do
      let data ← pool.heap.load page
      if data.empty then do
        let (steps, page, pool) ← climb fuel data.parent (pool.setHotPage data.parent)
        pure (steps + 1, page, pool)
      else pure (0, page, pool)

/-- The word that an iteration takes off the pool, if the loop goes on. -/
inductive Taken where
  | nothing
  | boundary
  | object (obj : ℕ)
  deriving DecidableEq, Repr

/-- One iteration of `releaseUntil`, without the release of the object it takes. -/
def releaseStep (layout : Layout) (frame : Frame) (pool : Pool) : Except Fault (Taken × Pool) := do
  let this ← pool.heap.load frame.page
  if layout.slotAddress frame.page this.next = frame.stop then pure (.nothing, pool)
  else do
    let (_, page, pool) ← climb pool.heap.live pool.hotPage pool
    let data ← pool.heap.load page
    let index := data.next - 1
    let obj := data.slots index
    let heap := pool.heap.store page
      { data with slots := Function.update data.slots index layout.scribble, next := index }
    pure (if obj = poolBoundary then .boundary else .object obj, { pool with heap := heap })

/-- The rest of `popPage` after `releaseUntil`: pages are deleted. -/
def popFinish (layout : Layout) (options : Options) (page : ℕ) (pool : Pool) :
    Except Fault Pool := do
  let data ← pool.heap.load page
  if options.allowDebug && options.debugPoolAllocation && data.empty then do
    let heap ← kill page pool.heap
    pure { tls := data.parent, heap := heap }
  else if options.allowDebug && options.debugMissingPools && data.empty && data.parent = 0 then do
    let heap ← kill page pool.heap
    pure { tls := 0, heap := heap }
  else if data.child ≠ 0 then
    -- hysteresis: one empty child stays if the page is at least half full
    if layout.lessThanHalfFull data then do
      let heap ← kill data.child pool.heap
      pure { pool with heap := heap }
    else do
      let child ← pool.heap.load data.child
      if child.child ≠ 0 then do
        let heap ← kill child.child pool.heap
        pure { pool with heap := heap }
      else pure pool
  else pure pool

/-! ## A thread -/

/--
A thread's pool, the pops in progress, the innermost first, and whether the innermost pop's loop
runs; when it does not, the code that runs is the `-release` of an object, or the program itself.
-/
structure Thread where
  pool : Pool
  frames : List Frame
  releasing : Bool

def Thread.start : Thread := ⟨⟨0, ⟨fun _ => none, 0⟩⟩, [], false⟩

/-- What a thread does next. -/
inductive Label where
  | push (alloc : Allocation)
  | autorelease (obj : ℕ) (alloc : Allocation)
  | pop (token : ℕ)
  /-- The `-release` of an object returns to the loop that sent it. -/
  | finishRelease
  /-- The loop of the innermost pop goes on. -/
  | iterate

/-- What a step does to the pool as a stack of pools and objects. -/
abbrev PoolEvent := Unwinding.Event ℕ ℕ

/-- One step of a thread, with what happens to its stack of pools. -/
def Thread.step (layout : Layout) (options : Options) (thread : Thread) :
    Label → Except Fault (List PoolEvent × Thread)
  | .push alloc =>
      if thread.releasing then .error .disabled
      else do
        let (token, pool) ← push layout options alloc thread.pool
        pure ([.pushed token], { thread with pool := pool })
  | .autorelease obj alloc =>
      if thread.releasing then .error .disabled
      else do
        let (dest, pool) ← autoreleaseFast layout options alloc obj thread.pool
        -- An object that was leaked did not get onto the stack.
        pure (if dest = 0 then [] else [.added obj], { thread with pool := pool })
  | .pop token =>
      if thread.releasing then .error .disabled
      else do
        let (frame, pool) ← popStart layout options token thread.pool
        match frame with
        | none => pure ([.popping token, .closed, .popped], { thread with pool := pool })
        | some frame => pure ([.popping token], ⟨pool, frame :: thread.frames, true⟩)
  | .finishRelease =>
      if thread.releasing || thread.frames.isEmpty then .error .disabled
      else pure ([], { thread with releasing := true })
  | .iterate =>
      match thread.releasing, thread.frames with
      | true, frame :: frames => do
          let (taken, pool) ← releaseStep layout frame thread.pool
          match taken with
          | .nothing => do
              let pool ← popFinish layout options frame.page (pool.setHotPage frame.page)
              pure ([.popped], ⟨pool, frames, false⟩)
          | .boundary => pure ([.closed], { thread with pool := pool })
          | .object obj => pure ([.released obj], { thread with pool := pool, releasing := false })
      | _, _ => .error .disabled

/-- A sequence of steps: everything that happens to the stack, and the thread after it. -/
def runLabels (layout : Layout) (options : Options) :
    List Label → Thread → Except Fault (List PoolEvent × Thread)
  | [], thread => pure ([], thread)
  | label :: labels, thread => do
      let (events, thread) ← thread.step layout options label
      let (more, thread) ← runLabels layout options labels thread
      pure (events ++ more, thread)

end ObjcDyld.Autorelease
