import ObjcDyld.ChainedFixups.Pointer
import ObjcDyld.SlideInfo.Pointers64

/-!
# Slide info of version 3

`writeSlideInfoV3` turns the rebase locations of a page into one chain of arm64e
pointers, authenticated or plain; `rebaseDataPages` follows the chain and leaves
a signed pointer or an address in every word of it.
-/

namespace ObjcDyld.SlideInfo

open ChainedFixups

/-! ## The builder -/

/-- A data page of an arm64e cache, with what `ASLR_Tracker` knows about its pointers. -/
structure AuthPage extends DataPage where
  authData : ℕ → Option AuthData

/-- The unslid addresses at which the cache begins and ends. -/
structure CacheRegion where
  /-- `_readExecuteRegion.unslidLoadAddress`. -/
  base : BitVec 64
  /-- `_readOnlyRegion.unslidLoadAddress + _readOnlyRegion.sizeInUse`. -/
  limit : BitVec 64
  deriving DecidableEq, Repr

inductive FailureV3 where
  | assertion
  /-- `_diagnostics.error`: "kernel slide info overflow buffer". -/
  | bufferOverflow
  /-- An access outside of the page. -/
  | outOfBounds
  /-- A chain that does not end. -/
  | endless
  deriving DecidableEq, Repr

/-- The row of arm64e has the values of arm64 in the columns of `ArchLayout`. -/
def ArchLayout.arm64e : ArchLayout := .arm64

section Builder

variable (region : CacheRegion) (data : AuthPage)

/-- The target to store: an offset if the base address does not fit into `bits` bits. -/
def storedTarget (bits : ℕ) (targetVMAddr : BitVec 64) : BitVec 64 :=
  if (region.base.setWidth bits).setWidth 64 ≠ region.base then targetVMAddr - region.base
  else targetVMAddr

def setPointerContentV3 (page : Page) (loc : ℕ) (targetVMAddr : BitVec 64) (next : ℕ) :
    Except FailureV3 Page :=
  if ¬ (region.base < targetVMAddr ∧ targetVMAddr < region.limit) then .error .assertion
  else match data.authData loc with
    | some auth =>
        let target := storedTarget region 32 targetVMAddr
        let pointer : Arm64eAuthRebase :=
          ⟨target.setWidth 32, auth.diversity, auth.addrDiv, auth.key, BitVec.ofNat 11 next, 0, 1⟩
        if pointer.target.setWidth 64 ≠ target ∨ pointer.next.toNat ≠ next then .error .assertion
        else .ok (pointer64.setP page loc pointer.raw64)
    | none =>
        let target := storedTarget region 43 targetVMAddr
        let pointer : Arm64eRebase :=
          ⟨target.setWidth 43, (data.high8 loc).getD 0, BitVec.ofNat 11 next, 0, 0⟩
        if pointer.target.setWidth 64 ≠ target ∨ pointer.next.toNat ≠ next then .error .assertion
        else .ok (pointer64.setP page loc pointer.raw64)

/-- `DYLD_CACHE_SLIDE_V3_PAGE_ATTR_NO_REBASE`. -/
def noRebaseV3 : ℕ := 0xFFFF

/-- The state of `pageStartV3` between two words of a page. -/
structure PageStateV3 where
  page : Page
  result : ℕ
  lastLoc : Option ℕ

/-- One turn of the loop over the words of a page; pointers are 8 bytes apart from each other. -/
def addLocationV3 (state : PageStateV3) (i : ℕ) : Except FailureV3 PageStateV3 :=
  if data.bitmap i then do
    let result := if state.result = noRebaseV3 then i * 4 else state.result
    match state.lastLoc with
    | none => .ok ⟨state.page, result, some i⟩
    | some lastLoc => do
        let page ← setPointerContentV3 region data state.page lastLoc
          (pointer64.getP state.page lastLoc) ((i - lastLoc) / 2)
        .ok ⟨page, result, some i⟩
  else .ok state

def pageStartV3 : Except FailureV3 (Page × ℕ) := do
  let start : PageStateV3 := ⟨data.content, noRebaseV3, none⟩
  let state ← (List.range pageWords).foldlM (addLocationV3 region data) start
  match state.lastLoc with
  | none => .ok (state.page, state.result)
  | some lastLoc => do
      let page ← setPointerContentV3 region data state.page lastLoc
        (pointer64.getP state.page lastLoc) 0
      .ok (page, state.result)

/-- The offset of `page_starts` in `dyld_cache_slide_info3`. -/
def offsetofPageStarts : ℕ := 24

/-- `writeSlideInfoV3`: the pages written and their starts. -/
def writeSlideInfoV3 (layout : ArchLayout) (sizeInUse : ℕ) (pages : List AuthPage) :
    Except FailureV3 (List Page × List ℕ) := do
  let written ← pages.mapM (pageStartV3 region)
  let slideInfoSize := align (offsetofPageStarts + pages.length * 2) layout.sharedRegionAlignP2
  if slideInfoSize > slideInfoBufferSizeAllocated layout sizeInUse then .error .bufferOverflow
  else .ok written.unzip

end Builder

/-! ## The loader -/

/-- `Arm64e::unpackTarget`. -/
def unpackTarget (pointer : Arm64eRebase) : BitVec 64 :=
  (pointer.high8.setWidth 64 <<< 56) ||| pointer.target.setWidth 64

/-- `signPointer`: the signature of a target for a location, given as a word of the data pages. -/
abbrev SignPointer :=
  (location : ℕ) → (diversity : BitVec 16) → (addrDiv : BitVec 1) → (key : BitVec 2) →
    (target : BitVec 64) → BitVec 64

section Loader

variable (signPointer : SignPointer) (sharedRegionStart slide : BitVec 64)

/-- What the loader makes of the word `raw` at a location. -/
def slidV3 (location : ℕ) (raw : BitVec 64) : BitVec 64 :=
  let auth := Arm64eAuthRebase.view raw
  if auth.auth = 1 then
    signPointer location auth.diversity auth.addrDiv auth.key
      (sharedRegionStart + auth.target.setWidth 64 + slide)
  else unpackTarget (Arm64eRebase.view raw) + slide

/--
The loop over a chain of the page `pageIndex`: the page and the words visited, in
order.  A link leads forward, so there are no more links than words.
-/
def rebaseChainV3 (pageIndex : ℕ) : ℕ → ℕ → Page → Except FailureV3 (Page × List ℕ)
  | 0, _, _ => .error .endless
  | fuel + 1, loc, page =>
      if pageWords < loc + 2 then .error .outOfBounds
      else do
        let raw := pointer64.getP page loc
        let delta := (Arm64eRebase.view raw).next.toNat
        let page := pointer64.setP page loc
          (slidV3 signPointer sharedRegionStart slide (pageWords * pageIndex + loc) raw)
        if delta = 0 then .ok (page, [loc])
        else do
          let (page, visited) ← rebaseChainV3 pageIndex fuel (loc + 2 * delta) page
          .ok (page, loc :: visited)

/-- What `rebaseDataPages` does to the page with the entry `pageStart`. -/
def rebasePageV3 (pageIndex pageStart : ℕ) (page : Page) : Except FailureV3 (Page × List ℕ) :=
  if pageStart = noRebaseV3 then .ok (page, [])
  else rebaseChainV3 signPointer sharedRegionStart slide pageIndex pageWords (2 * (pageStart / 8)) page

/-- One turn of the loop over the page starts; `visited` has the words visited page by page. -/
def rebaseEntryV3 (state : List Page × List (List ℕ)) (entry : ℕ × ℕ) :
    Except FailureV3 (List Page × List (List ℕ)) :=
  let pageIndex := pageAddress entry.2
  match state.1[pageIndex]? with
  | none => .error .outOfBounds
  | some page => do
      let (page, visited) ← rebasePageV3 signPointer sharedRegionStart slide pageIndex entry.1 page
      .ok (state.1.set pageIndex page, state.2 ++ [visited])

/-- `rebaseDataPages` for slide info of version 3. -/
def rebaseDataPagesV3 (pageStarts : List ℕ) (pages : List Page) :
    Except FailureV3 (List Page × List (List ℕ)) :=
  pageStarts.zipIdx.foldlM (rebaseEntryV3 signPointer sharedRegionStart slide) (pages, [])

end Loader

end ObjcDyld.SlideInfo
