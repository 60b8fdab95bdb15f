import ObjcDyld.SlideInfo.Pages

/-!
# Slide info of versions 2 and 4

`writeSlideInfoV2` and `writeSlideInfoV4` thread the rebase locations of every
page on chains; `rebaseDataPages` follows the chains and slides the pointers.
The two versions run the same code with a different notion of a value that is
not a pointer and with different attributes in the page starts, and so do the
two loaders.
-/

namespace ObjcDyld.SlideInfo

inductive Failure where
  /-- `_diagnostics.error`: "rebase pointer does not point within cache". -/
  | notWithinCache (lastLocation : ℕ)
  /-- `_diagnostics.error`: "rebase overflow in page extras". -/
  | extrasOverflow
  /-- `_diagnostics.error`: "kernel slide info overflow buffer". -/
  | bufferOverflow
  /-- `pageExtras.back()` of an empty vector. -/
  | emptyBack
  /-- An access outside of the page, the page starts or the page extras. -/
  | outOfBounds
  /-- A chain, or a list of chains, that does not end. -/
  | endless
  deriving DecidableEq, Repr

/-- Whether a failure is an error that the builder reports. -/
def Failure.reported : Failure → Bool
  | .notWithinCache _ | .extrasOverflow | .bufferOverflow => true
  | .emptyBack | .outOfBounds | .endless => false

/-- The attributes of page starts and page extras. -/
structure Attributes where
  noRebase : ℕ
  extra : ℕ
  endOfExtras : ℕ
  index : ℕ
  /-- The largest index in the extras at which a page may start. -/
  lastIndex : ℕ
  deriving DecidableEq, Repr

/-- `DYLD_CACHE_SLIDE_PAGE_ATTR_…`. -/
def attributesV2 : Attributes := ⟨0x4000, 0x8000, 0x8000, 0x3FFF, 0x3FFF⟩

/-- `DYLD_CACHE_SLIDE4_PAGE_…`. -/
def attributesV4 : Attributes := ⟨0xFFFF, 0x8000, 0x8000, 0x7FFF, 0x7FFE⟩

/-- `dyld_cache_slide_info2` and `dyld_cache_slide_info4`, without the version. -/
structure Info where
  deltaMask : BitVec 64
  valueAdd : BitVec 64
  pageStarts : List ℕ
  pageExtras : List ℕ
  deriving DecidableEq, Repr

def Info.fixed (layout : ArchLayout) : Info where
  deltaMask := layout.pointerDeltaMask
  valueAdd := if layout.useValueAdd then BitVec.ofNat 64 layout.sharedMemoryStart else 0
  pageStarts := []
  pageExtras := []

structure Version (w : ℕ) where
  pointer : Pointer w
  attributes : Attributes
  /-- Whether a word may be stolen as a link although it is no rebase location. -/
  small : BitVec w → Bool
  /-- The bits of a high-8 tag in a pointer. -/
  tag : Option (BitVec 8) → BitVec w
  /-- What the loader makes of a value whose link was masked off. -/
  slid : (valueAdd slideAmount value : BitVec w) → BitVec w

section Builder

variable {w : ℕ} (version : Version w) (info : Info)

def Info.mask (w : ℕ) : BitVec w := info.deltaMask.setWidth w

def Info.add (w : ℕ) : BitVec w := info.valueAdd.setWidth w

/-- `__builtin_ctzll(deltaMask) - 2`. -/
def Info.deltaShift (w : ℕ) : ℕ := ((info.mask w).setWidth 64).ctz.toNat - 2

/-- The largest distance, in bytes, that a link can bridge. -/
def Info.maxDelta (w : ℕ) : ℕ := ((info.mask w) >>> info.deltaShift w).toNat % 2 ^ 32

/-- The bits of a link of `delta` bytes. -/
def Info.link (w : ℕ) (delta : ℕ) : BitVec w := BitVec.ofNat w delta <<< info.deltaShift w

/-- `value - valueAdd` with room for a link. -/
def Info.strip {w : ℕ} (value : BitVec w) : BitVec w := (value - info.add w) &&& ~~~(info.mask w)

/-- A word of the chain with its link, whether it is a pointer or a stolen word. -/
def linkValue (value : BitVec w) (delta : ℕ) : BitVec w :=
  if version.small value then (value &&& ~~~(info.mask w)) ||| info.link w delta
  else info.strip value ||| info.link w delta

/-- The farthest word within reach of `i` that can be stolen, at most `k` words away. -/
def stealFrom (page : Page) (i : ℕ) : ℕ → Option ℕ
  | 0 => none
  | k + 1 =>
      if version.small (version.pointer.getP page (i + (k + 1))) then some (i + (k + 1))
      else stealFrom page i k

/--
The words stolen between two rebase locations; the fuel is the number of words
that `nonRebaseLocationOffsets` has room for.
-/
def nonRebaseLocations (page : Page) (location : ℕ) : ℕ → ℕ → Except Failure (Option (List ℕ))
  | 0, _ => .error .outOfBounds
  | fuel + 1, i =>
      if 4 * i < 4 * location - info.maxDelta w then
        match stealFrom version page i (info.maxDelta w / 4) with
        | none => .ok none
        | some n => do
            let rest ← nonRebaseLocations page location fuel n
            .ok (rest.map (n :: ·))
      else .ok (some [])

/-- Link `previous` to each of `next` in turn and the last of them to `location`. -/
def linkAll (location : ℕ) : Page → ℕ → List ℕ → Page
  | page, previous, [] =>
      version.pointer.setP page previous
        (linkValue version info (version.pointer.getP page previous) (4 * location - 4 * previous))
  | page, previous, n :: next =>
      linkAll location
        (version.pointer.setP page previous
          (linkValue version info (version.pointer.getP page previous) (4 * n - 4 * previous)))
        n next

/-- `makeRebaseChainV2` and `makeRebaseChainV4`: link the last location to the next one. -/
def makeRebaseChain (high8 : ℕ → Option (BitVec 8)) (page : Page) (lastLocation location : ℕ) :
    Except Failure (Bool × Page) := do
  let pointer := version.pointer
  let lastValue := pointer.getP page lastLocation
  if (lastValue - info.add w) &&& info.mask w ≠ 0 then .error (.notWithinCache lastLocation)
  else if 4 * location ≤ 4 * lastLocation + info.maxDelta w then
    -- The previous location is in range: make a link from it.
    let newLastValue := info.strip lastValue ||| info.link w (4 * location - 4 * lastLocation)
    .ok (true, pointer.setP page lastLocation
      (newLastValue ||| version.tag (high8 lastLocation)))
  else
    match ← nonRebaseLocations version info page location pageWords lastLocation with
    | none => .ok (false, pointer.setP page lastLocation (info.strip lastValue))
    | some stolen => .ok (true, linkAll version info location page lastLocation stolen)

/--
The state of `addPageStartsV2` and `addPageStartsV4` between two words of a page; no last location
stands for the offset 0xFFFF.
-/
structure PageState where
  page : Page
  startValue : ℕ
  lastLocation : Option ℕ
  pageExtras : List ℕ

/-- One turn of the loop over the words of a page. -/
def addLocation (data : DataPage) (state : PageState) (i : ℕ) : Except Failure PageState :=
  if data.bitmap i then
    if state.startValue = version.attributes.noRebase then
      .ok { state with startValue := i, lastLocation := some i }
    else do
      let (linked, page) ← makeRebaseChain version info data.high8 state.page
        (state.lastLocation.getD (0xFFFF / 4)) i
      if linked then .ok { state with page := page, lastLocation := some i }
      else if state.startValue &&& version.attributes.extra = 0 then
        -- Switch the page start to the extras, which are a list of chain starts.
        let indexInExtras := state.pageExtras.length
        if indexInExtras > version.attributes.lastIndex then .error .extrasOverflow
        else .ok {
          page := page
          startValue := indexInExtras ||| version.attributes.extra
          lastLocation := some i
          pageExtras := state.pageExtras ++ [state.startValue, i] }
      else .ok { state with
        page := page, lastLocation := some i, pageExtras := state.pageExtras ++ [i] }
  else .ok state

/-- `pageExtras.back() |= flag`. -/
def markBack (flag : ℕ) (pageExtras : List ℕ) : Except Failure (List ℕ) :=
  match pageExtras.getLast? with
  | none => .error .emptyBack
  | some back => .ok (pageExtras.dropLast ++ [back ||| flag])

/-- `addPageStartsV2` and `addPageStartsV4`: the page, its start and the extras so far. -/
def addPageStarts (data : DataPage) (pageExtras : List ℕ) :
    Except Failure (Page × ℕ × List ℕ) := do
  let start : PageState := ⟨data.content, version.attributes.noRebase, none, pageExtras⟩
  let state ← (List.range pageWords).foldlM (addLocation version info data) start
  let page := match state.lastLocation with
    | none => state.page
    | some last =>
        version.pointer.setP state.page last (info.strip (version.pointer.getP state.page last))
  let pageExtras ←
    if state.startValue &&& version.attributes.extra ≠ 0 then
      markBack version.attributes.endOfExtras state.pageExtras
    else .ok state.pageExtras
  .ok (page, state.startValue, pageExtras)

/-- The loop over the data pages: the pages written, their starts and the extras. -/
def addAllPageStarts :
    List DataPage → List ℕ → Except Failure (List Page × List ℕ × List ℕ)
  | [], pageExtras => .ok ([], [], pageExtras)
  | data :: rest, pageExtras => do
      let (page, start, pageExtras) ← addPageStarts version info data pageExtras
      let (pages, starts, pageExtras) ← addAllPageStarts rest pageExtras
      .ok (page :: pages, start :: starts, pageExtras)

/-- `writeSlideInfoV2` and `writeSlideInfoV4` on a data region of `sizeInUse` bytes. -/
def writeSlideInfo (layout : ArchLayout) (sizeInUse : ℕ) (data : List DataPage) :
    Except Failure (List Page × Info) := do
  let info := Info.fixed layout
  let (pages, pageStarts, pageExtras) ← addAllPageStarts version info data []
  let slideInfoSize := align (sizeofSlideInfo + pageStarts.length * 2 + pageExtras.length * 2)
    layout.sharedRegionAlignP2
  if slideInfoSize > slideInfoBufferSizeAllocated layout sizeInUse then .error .bufferOverflow
  else .ok (pages, { info with pageStarts := pageStarts, pageExtras := pageExtras })

end Builder

section Loader

variable {w : ℕ} (version : Version w) (info : Info) (slideAmount : BitVec w)

/--
`rebaseChainV2` and `rebaseChainV4` from a word of a page.  A link always leads
forward, so a chain inside a page has no more links than the page has words.
-/
def rebaseChain : ℕ → ℕ → Page → Except Failure Page
  | 0, _, _ => .error .endless
  | fuel + 1, i, page =>
      if pageWords < i + version.pointer.span then .error .outOfBounds
      else
        let rawValue := version.pointer.getP page i
        let delta := ((rawValue &&& info.mask w) >>> info.deltaShift w).toNat % 2 ^ 32
        let value := version.slid (info.add w) slideAmount (rawValue &&& ~~~(info.mask w))
        let page := version.pointer.setP page i value
        if delta = 0 then .ok page else rebaseChain fuel (i + delta / 4) page

/-- The chains that start at `page_extras[chainIndex]` and after, up to the end mark. -/
def rebaseExtras : ℕ → ℕ → Page → Except Failure Page
  | 0, _, _ => .error .endless
  | fuel + 1, chainIndex, page =>
      match info.pageExtras[chainIndex]? with
      | none => .error .outOfBounds
      | some pInfo => do
          let page ← rebaseChain version info slideAmount pageWords
            (pInfo &&& version.attributes.index) page
          if pInfo &&& version.attributes.endOfExtras ≠ 0 then .ok page
          else rebaseExtras fuel ((chainIndex + 1) % 2 ^ 16) page

/-- What `rebaseDataPages` does to the page with the entry `pageEntry`. -/
def rebasePage (pageEntry : ℕ) (page : Page) : Except Failure Page :=
  if pageEntry = version.attributes.noRebase then .ok page
  else if pageEntry &&& version.attributes.extra ≠ 0 then
    rebaseExtras version info slideAmount (2 ^ 16) (pageEntry &&& version.attributes.index) page
  else rebaseChain version info slideAmount pageWords pageEntry page

/-- The index of the page at `dataPagesStart + (page_size * i)`; the product has 32 bits. -/
def pageAddress (i : ℕ) : ℕ := 4096 * i % 2 ^ 32 / 4096

/-- One turn of the loop of `rebaseDataPages` over the page starts. -/
def rebaseEntry (pages : List Page) (entry : ℕ × ℕ) : Except Failure (List Page) :=
  match pages[pageAddress entry.2]? with
  | none => .error .outOfBounds
  | some page => do
      let page ← rebasePage version info slideAmount entry.1 page
      .ok (pages.set (pageAddress entry.2) page)

/-- `rebaseDataPages` for slide info of versions 2 and 4. -/
def rebaseDataPages (pages : List Page) : Except Failure (List Page) :=
  info.pageStarts.zipIdx.foldlM (rebaseEntry version info slideAmount) pages

end Loader

/-! ## The versions -/

/-- Version 2 for pointers of `w` bits. -/
def version2 {w : ℕ} (pointer : Pointer w) : Version w where
  pointer := pointer
  attributes := attributesV2
  small value := value = 0
  tag high8 := match high8 with
    | none => 0
    | some highByte => (highByte.setWidth 64 <<< 56).setWidth w
  slid valueAdd slideAmount value := if value ≠ 0 then value + valueAdd + slideAmount else value

/-- `smallValue`: whether a value fits in `int16_t`. -/
def smallValue (value : BitVec 32) : Bool :=
  let high := value &&& 0xFFFF8000
  high = 0 || high = 0xFFFF8000

def version4 : Version 32 where
  pointer := pointer32
  attributes := attributesV4
  small := smallValue
  tag _ := 0
  slid valueAdd slideAmount value :=
    if value &&& 0xFFFF8000 = 0 then value
    else if value &&& 0x3FFF8000 = 0x3FFF8000 then value ||| 0xC0000000
    else value + valueAdd + slideAmount

def writeSlideInfoV2 {w : ℕ} (pointer : Pointer w) := writeSlideInfo (version2 pointer)

def writeSlideInfoV4 := writeSlideInfo version4

def rebaseDataPagesV2 {w : ℕ} (pointer : Pointer w) := rebaseDataPages (version2 pointer)

def rebaseDataPagesV4 := rebaseDataPages version4

end ObjcDyld.SlideInfo
