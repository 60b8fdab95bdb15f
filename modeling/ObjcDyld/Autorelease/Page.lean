import ObjcDyld.Common.Loops

/-!
# Autorelease pool pages

A thread's autorelease pool is a stack of words: each is an object to release
or `POOL_BOUNDARY`.  The stack is cut into pages that form a doubly linked
list, and thread-local storage points to the hot page.
-/

namespace ObjcDyld.Autorelease

/-! ## Pages and the heap -/

/--
The layout of a page: `SIZE` bytes, of which the first `header` hold the page's own fields and the
rest hold `capacity` words.
-/
structure Layout where
  size : ℕ
  header : ℕ
  wordSize : ℕ
  capacity : ℕ
  fills : size = header + wordSize * capacity
  header_pos : 1 < header
  wordSize_pos : 0 < wordSize
  two_words : 2 ≤ capacity

/-- The layout on a 64-bit system with `PAGE_MIN_SIZE` 4096. -/
def lp64Layout : Layout where
  size := 4096
  header := 56
  wordSize := 8
  capacity := 505
  fills := by decide
  header_pos := by decide
  wordSize_pos := by decide
  two_words := by decide

/-- `AutoreleasePoolPage`; `next` counts the words from `begin()` to the `next` pointer. -/
structure Page where
  slots : ℕ → ℕ
  next : ℕ
  parent : ℕ
  child : ℕ
  depth : ℕ
  hiwat : ℕ

/-- The pages that are allocated, by address, and how many there are. -/
structure Heap where
  pages : ℕ → Option Page
  live : ℕ

/-- The thread's heap and its thread-local word. -/
structure Pool where
  tls : ℕ
  heap : Heap

/-- What goes wrong where the code would not work. -/
inductive Fault where
  /-- A null or dangling page is accessed. -/
  | badAccess
  /-- A loop over the pages has seen more pages than there are. -/
  | endlessLoop
  /-- `badPop` -/
  | badPop
  /-- The call is made where the machine does not take it. -/
  | disabled
  deriving DecidableEq, Repr

def poolBoundary : ℕ := 0

def emptyPoolPlaceholder : ℕ := 1

namespace Layout

variable (layout : Layout)

/-- The address of a word of a page; `begin()` is that of word 0 and `end()` that of `capacity`. -/
def slotAddress (page index : ℕ) : ℕ := page + layout.header + layout.wordSize * index

def pageForPointer (pointer : ℕ) : ℕ := pointer - pointer % layout.size

def slotIndex (pointer : ℕ) : ℕ := (pointer % layout.size - layout.header) / layout.wordSize

/-- A word whose bytes are all `SCRIBBLE`. -/
def scribble : ℕ := 0xA3 * ((256 ^ layout.wordSize - 1) / 255)

def full (page : Page) : Bool := page.next = layout.capacity

def lessThanHalfFull (page : Page) : Bool := page.next < layout.capacity / 2

theorem capacity_pos : 0 < layout.capacity := by
  have := layout.two_words
  omega

end Layout

def Page.empty (page : Page) : Bool := page.next = 0

namespace Heap

/-- Reading a page's fields. -/
def load (heap : Heap) (address : ℕ) : Except Fault Page :=
  match heap.pages address with
  | some page => .ok page
  | none => .error .badAccess

/-- Writing the fields of an allocated page. -/
def store (heap : Heap) (address : ℕ) (page : Page) : Heap :=
  { heap with pages := Function.update heap.pages address (some page) }

/-- `operator delete` -/
def free (heap : Heap) (address : ℕ) : Heap where
  pages := Function.update heap.pages address none
  live := heap.live - 1

end Heap

/-- What `malloc_zone_memalign` returns: an address, and whatever the memory held before. -/
structure Allocation where
  address : ℕ
  garbage : ℕ → ℕ

/-- `new AutoreleasePoolPage(newParent)` -/
def newPage (alloc : Allocation) (parent : ℕ) (heap : Heap) : Except Fault Heap := do
  let fresh : Page :=
    { slots := alloc.garbage, next := 0, parent := parent, child := 0, depth := 0, hiwat := 0 }
  if parent = 0 then
    pure ⟨Function.update heap.pages alloc.address (some fresh), heap.live + 1⟩
  else
    let above ← heap.load parent
    let fresh := { fresh with depth := 1 + above.depth, hiwat := above.hiwat }
    let heap := heap.store parent { above with child := alloc.address }
    pure ⟨Function.update heap.pages alloc.address (some fresh), heap.live + 1⟩

/-- `add`: the address of the word, and the heap with `obj` in it. -/
def add (layout : Layout) (page obj : ℕ) (heap : Heap) : Except Fault (ℕ × Heap) := do
  let data ← heap.load page
  pure (layout.slotAddress page data.next,
    heap.store page
      { data with slots := Function.update data.slots data.next obj, next := data.next + 1 })

/-! ## Walking the list of pages -/

/-- `while (page->child) page = page->child` -/
def lastChild (heap : Heap) : ℕ → ℕ → Except Fault ℕ
  | 0, _ => .error .endlessLoop
  | fuel + 1, page => do
      let data ← heap.load page
      if data.child = 0 then pure page else lastChild heap fuel data.child

/-- The second loop of `kill`: the pages from `page` up to `this` are deleted. -/
def deleteUpTo (this : ℕ) : ℕ → ℕ → Heap → Except Fault Heap
  | 0, _, _ => .error .endlessLoop
  | fuel + 1, page, heap => do
      let data ← heap.load page
      let heap ←
        if data.parent = 0 then pure heap
        else do
          let above ← heap.load data.parent
          pure (heap.store data.parent { above with child := 0 })
      let heap := heap.free page
      if page = this then pure heap else deleteUpTo this fuel data.parent heap

def kill (this : ℕ) (heap : Heap) : Except Fault Heap := do
  let page ← lastChild heap heap.live this
  deleteUpTo this heap.live page heap

/-- The loop of `coldPage` over the parents. -/
def topParent (heap : Heap) : ℕ → ℕ → Except Fault ℕ
  | 0, _ => .error .endlessLoop
  | fuel + 1, page => do
      let data ← heap.load page
      if data.parent = 0 then pure page else topParent heap fuel data.parent

/-- The loop of `printHiwat`: every page from `page` to the coldest gets the new mark. -/
def raiseHiwat (mark : ℕ) : ℕ → ℕ → Heap → Except Fault Heap
  | 0, _, _ => .error .endlessLoop
  | fuel + 1, page, heap =>
      if page = 0 then pure heap
      else do
        let data ← heap.load page
        raiseHiwat mark fuel data.parent (heap.store page { data with hiwat := mark })

namespace Pool

/-- `hotPage`, zero when there is none. -/
def hotPage (pool : Pool) : ℕ := if pool.tls = emptyPoolPlaceholder then 0 else pool.tls

def setHotPage (pool : Pool) (page : ℕ) : Pool := { pool with tls := page }

def coldPage (pool : Pool) : Except Fault ℕ :=
  if pool.hotPage = 0 then pure 0 else topParent pool.heap pool.heap.live pool.hotPage

end Pool

end ObjcDyld.Autorelease
