import Mathlib

/-!
# Selector reference chains

The encoding of selector fixups by `ClosureBuilder::optimizeObjC` and their decoding by
`Image::forEachFixup`. Starts and entries of chains are the same 32-bit words.
-/

namespace ObjcDyld.Closures

/-- `ObjCOptimizerImage::SelectorFixup` with the index of its selector looked up. -/
structure SelectorFixup where
  fixupVMOffset : BitVec 32
  selectorTableIndex : BitVec 24
  inSharedCache : Bool
deriving DecidableEq

/-- `Image::SelectorReferenceFixup::chainEntry`: the index in the low 24 bits, then `next`, then the flag. -/
def chainEntry (index : BitVec 24) (next : BitVec 7) (inSharedCache : Bool) : BitVec 32 :=
  index.setWidth 32 ||| next.setWidth 32 <<< 24 ||| (BitVec.ofBool inSharedCache).setWidth 32 <<< 31

def entryIndex (word : BitVec 32) : BitVec 24 := word.extractLsb' 0 24

def entryNext (word : BitVec 32) : BitVec 7 := word.extractLsb' 24 7

def entryInSharedCache (word : BitVec 32) : Bool := word.getLsbD 31

def setNext (word : BitVec 32) (next : BitVec 7) : BitVec 32 :=
  chainEntry (entryIndex word) next (entryInSharedCache word)

def maxChainOffset : BitVec 64 := BitVec.ofNat 64 (4 * ((1 <<< 7) - 1))

theorem maxChainOffset_toNat : maxChainOffset.toNat = 508 := rfl

structure SelectorState where
  selRefFixups : List (BitVec 32)
  prevVMOffset : BitVec 64

namespace SelectorState

/-- The loop over the selector fixups; `none` when its assertion or `back()` fails. -/
def addSelector (state : SelectorState) (selectorFixup : SelectorFixup) : Option SelectorState :=
  let offset := selectorFixup.fixupVMOffset.setWidth 64
  let entry := chainEntry selectorFixup.selectorTableIndex 0 selectorFixup.inSharedCache
  if selectorFixup.fixupVMOffset &&& 3 ≠ 0 then none
  else if offset - state.prevVMOffset ≤ maxChainOffset then
    match state.selRefFixups.getLast? with
    | none => none
    | some back =>
        let next := ((offset - state.prevVMOffset) / 4).setWidth 7
        some ⟨state.selRefFixups.dropLast ++ [setNext back next, entry], offset⟩
  else some ⟨state.selRefFixups ++ [selectorFixup.fixupVMOffset, entry], offset⟩

def start : SelectorState := ⟨[], 0⟩

end SelectorState

structure SelectorCall where
  imageOffsetToFixup : BitVec 64
  selectorIndex : BitVec 24
  inSharedCache : Bool
deriving DecidableEq

/-- The walk of `forEachFixup` over the words: the calls so far, and `curFixupOffset` inside a chain. -/
structure SelectorWalk where
  calls : List SelectorCall
  curFixupOffset : Option (BitVec 64)

def SelectorWalk.word (walk : SelectorWalk) (fixupEntry : BitVec 32) : SelectorWalk :=
  match walk.curFixupOffset with
  | none => { walk with curFixupOffset := some (fixupEntry.setWidth 64) }
  | some curFixupOffset =>
      { calls := walk.calls ++ [⟨curFixupOffset, entryIndex fixupEntry, entryInSharedCache fixupEntry⟩]
        curFixupOffset :=
          if entryNext fixupEntry = 0 then none
          else some (curFixupOffset + 4 * (entryNext fixupEntry).setWidth 64) }

/-- The calls of the handler; `none` when the walk is still inside of a chain at the end and
goes on to read outside of the array. -/
def forEachSelectorRef (selRefFixupEntries : List (BitVec 32)) : Option (List SelectorCall) :=
  let walk := selRefFixupEntries.foldl SelectorWalk.word ⟨[], none⟩
  if walk.curFixupOffset = none then some walk.calls else none

def SelectorFixup.call (selectorFixup : SelectorFixup) : SelectorCall :=
  ⟨selectorFixup.fixupVMOffset.setWidth 64, selectorFixup.selectorTableIndex, selectorFixup.inSharedCache⟩

section

variable (index : BitVec 24) (next : BitVec 7) (inSharedCache : Bool)

@[simp] theorem entryIndex_chainEntry : entryIndex (chainEntry index next inSharedCache) = index := by
  apply BitVec.eq_of_getLsbD_eq
  intro bit lt
  simp only [entryIndex, chainEntry, BitVec.getLsbD_extractLsb', BitVec.getLsbD_or, BitVec.getLsbD_setWidth,
    BitVec.getLsbD_shiftLeft]
  interval_cases bit <;> simp

@[simp] theorem entryNext_chainEntry : entryNext (chainEntry index next inSharedCache) = next := by
  apply BitVec.eq_of_getLsbD_eq
  intro bit lt
  simp only [entryNext, chainEntry, BitVec.getLsbD_extractLsb', BitVec.getLsbD_or, BitVec.getLsbD_setWidth,
    BitVec.getLsbD_shiftLeft]
  interval_cases bit <;> simp

@[simp] theorem entryInSharedCache_chainEntry :
    entryInSharedCache (chainEntry index next inSharedCache) = inSharedCache := by
  simp [entryInSharedCache, chainEntry]

@[simp] theorem setNext_chainEntry (other : BitVec 7) :
    setNext (chainEntry index next inSharedCache) other = chainEntry index other inSharedCache := by
  rw [setNext, entryIndex_chainEntry, entryInSharedCache_chainEntry]

end

/-- The words end with the entry of the last fixup, and the walk over the words before it is in
a chain at the location of that fixup. -/
def Encoded (done : List SelectorFixup) (state : SelectorState) : Prop :=
  (done = [] ∧ state = SelectorState.start) ∨
  ∃ before last words, done = before ++ [last] ∧
    state = ⟨words ++ [chainEntry last.selectorTableIndex 0 last.inSharedCache], last.fixupVMOffset.setWidth 64⟩ ∧
    words.foldl SelectorWalk.word ⟨[], none⟩ =
      ⟨before.map SelectorFixup.call, some (last.fixupVMOffset.setWidth 64)⟩

theorem walk_entry (calls : List SelectorCall) (last : SelectorFixup) (next : BitVec 7) :
    SelectorWalk.word ⟨calls, some (last.fixupVMOffset.setWidth 64)⟩
        (chainEntry last.selectorTableIndex next last.inSharedCache) =
      ⟨calls ++ [last.call], if next = 0 then none
        else some (last.fixupVMOffset.setWidth 64 + 4 * next.setWidth 64)⟩ := by
  simp [SelectorWalk.word, SelectorFixup.call]

theorem Encoded.decodes {done : List SelectorFixup} {state : SelectorState} (encoded : Encoded done state) :
    forEachSelectorRef state.selRefFixups = some (done.map SelectorFixup.call) := by
  rcases encoded with ⟨rfl, rfl⟩ | ⟨before, last, words, rfl, rfl, walked⟩
  · rfl
  · rw [forEachSelectorRef, List.foldl_append, walked, List.foldl_cons, List.foldl_nil, walk_entry, if_pos rfl,
      if_pos rfl, List.map_append, List.map_singleton]

theorem aligned_mod {offset : BitVec 32} (aligned : offset &&& 3 = 0) : offset.toNat % 4 = 0 := by
  have zero := congrArg BitVec.toNat aligned
  rw [BitVec.toNat_and] at zero
  exact (Nat.and_two_pow_sub_one_eq_mod offset.toNat 2).symm.trans zero

theorem chain_next {last offset : BitVec 32} (aligned : offset &&& 3 = 0) (multiple : last &&& 3 = 0)
    (distinct : last ≠ offset)
    (near : offset.setWidth 64 - last.setWidth 64 ≤ maxChainOffset) :
    let next : BitVec 7 := ((offset.setWidth 64 - last.setWidth 64) / 4).setWidth 7
    next ≠ 0 ∧ last.setWidth 64 + 4 * next.setWidth 64 = offset.setWidth 64 := by
  have offset_mod := aligned_mod aligned
  have last_mod := aligned_mod multiple
  have apart : last.toNat ≠ offset.toNat := fun same => distinct (BitVec.eq_of_toNat_eq same)
  have near := BitVec.le_def.mp near
  rw [maxChainOffset_toNat] at near
  have later : last.toNat ≤ offset.toNat := by bv_omega
  obtain ⟨k, low, high, rfl⟩ : ∃ k, 0 < k ∧ k < 128 ∧ offset = last + BitVec.ofNat 32 (4 * k) :=
    ⟨(offset.toNat - last.toNat) / 4, by bv_omega, by bv_omega, by bv_omega⟩
  have gap : (last + BitVec.ofNat 32 (4 * k)).setWidth 64 - last.setWidth 64 = BitVec.ofNat 64 (4 * k) := by
    bv_omega
  have quotient : BitVec.ofNat 64 (4 * k) / 4 = BitVec.ofNat 64 k := by
    apply BitVec.eq_of_toNat_eq
    rw [BitVec.toNat_udiv, BitVec.toNat_ofNat, BitVec.toNat_ofNat]
    change 4 * k % 2 ^ 64 / 4 = k % 2 ^ 64
    omega
  rw [gap, quotient]
  constructor
  · intro zero
    have zero : k % 2 ^ 64 % 2 ^ 7 = 0 := congrArg BitVec.toNat zero
    omega
  · rw [show ((BitVec.ofNat 64 k).setWidth 7).setWidth 64 = BitVec.ofNat 64 k by bv_omega]
    bv_omega

theorem Encoded.step {done : List SelectorFixup} {state : SelectorState} (encoded : Encoded done state)
    (fixup : SelectorFixup) (aligned : fixup.fixupVMOffset &&& 3 = 0)
    (first : 512 ≤ fixup.fixupVMOffset.toNat)
    (new : ∀ last ∈ done.getLast?, last.fixupVMOffset ≠ fixup.fixupVMOffset)
    (alignedBefore : ∀ last ∈ done.getLast?, last.fixupVMOffset &&& 3 = 0) :
    ∃ next, state.addSelector fixup = some next ∧ Encoded (done ++ [fixup]) next := by
  have unmisaligned : ¬(fixup.fixupVMOffset &&& 3 ≠ 0) := not_not.mpr aligned
  rcases encoded with ⟨rfl, rfl⟩ | ⟨before, last, words, rfl, rfl, walked⟩
  · have far : ¬(fixup.fixupVMOffset.setWidth 64 - SelectorState.start.prevVMOffset ≤ maxChainOffset) := by
      intro near
      have near := BitVec.le_def.mp near
      rw [maxChainOffset_toNat] at near
      simp only [SelectorState.start] at near
      bv_omega
    refine ⟨_, by rw [SelectorState.addSelector, if_neg unmisaligned, if_neg far], .inr ?_⟩
    exact ⟨[], fixup, [fixup.fixupVMOffset], rfl, rfl, rfl⟩
  · have distinct := new last (List.getLast?_concat ..)
    have multiple := alignedBefore last (List.getLast?_concat ..)
    by_cases near : fixup.fixupVMOffset.setWidth 64 - last.fixupVMOffset.setWidth 64 ≤ maxChainOffset
    · obtain ⟨nonzero, moves⟩ := chain_next aligned multiple distinct near
      refine ⟨_, by rw [SelectorState.addSelector, if_neg unmisaligned, if_pos near, List.getLast?_concat], .inr ?_⟩
      refine ⟨before ++ [last], fixup, words ++ [chainEntry last.selectorTableIndex
        (((fixup.fixupVMOffset.setWidth 64 - last.fixupVMOffset.setWidth 64) / 4).setWidth 7)
        last.inSharedCache], rfl, ?_, ?_⟩
      · simp
      · rw [List.foldl_append, walked, List.foldl_cons, List.foldl_nil, walk_entry, if_neg nonzero, moves,
          List.map_append, List.map_singleton]
    · refine ⟨_, by rw [SelectorState.addSelector, if_neg unmisaligned, if_neg near], .inr ?_⟩
      refine ⟨before ++ [last], fixup, words ++ [chainEntry last.selectorTableIndex 0 last.inSharedCache,
        fixup.fixupVMOffset], rfl, by simp, ?_⟩
      rw [List.foldl_append, walked, List.foldl_cons, walk_entry, if_pos rfl, List.map_append, List.map_singleton]
      rfl

/-- The selector fixups of an image: at aligned offsets away from its start, no two at one place in a row. -/
structure SelectorFixups where
  fixups : List SelectorFixup
  aligned : ∀ fixup ∈ fixups, fixup.fixupVMOffset &&& 3 = 0
  inside : ∀ fixup ∈ fixups, 512 ≤ fixup.fixupVMOffset.toNat
  apart : fixups.IsChain fun a b => a.fixupVMOffset ≠ b.fixupVMOffset

def addSelectors (fixups : List SelectorFixup) : Option SelectorState :=
  fixups.foldlM SelectorState.addSelector SelectorState.start

theorem Encoded.run {done rest : List SelectorFixup} {state : SelectorState} (encoded : Encoded done state)
    (aligned : ∀ fixup ∈ done ++ rest, fixup.fixupVMOffset &&& 3 = 0)
    (inside : ∀ fixup ∈ done ++ rest, 512 ≤ fixup.fixupVMOffset.toNat)
    (apart : (done ++ rest).IsChain fun a b => a.fixupVMOffset ≠ b.fixupVMOffset) :
    ∃ last, rest.foldlM SelectorState.addSelector state = some last ∧ Encoded (done ++ rest) last := by
  induction rest generalizing done state with
  | nil => exact ⟨state, rfl, by rwa [List.append_nil]⟩
  | cons fixup rest ih =>
      have here : fixup ∈ done ++ fixup :: rest := by simp
      obtain ⟨next, step, encoded'⟩ := encoded.step fixup (aligned fixup here) (inside fixup here)
        (fun last mem => (List.isChain_append.mp apart).2.2 last mem fixup rfl)
        (fun last mem => aligned last (List.mem_append_left _ (List.mem_of_getLast? mem)))
      rw [List.append_cons] at aligned inside apart ⊢
      obtain ⟨last, run, done'⟩ := ih encoded' aligned inside apart
      exact ⟨last, by rw [List.foldlM_cons, step]; exact run, done'⟩

theorem SelectorFixups.lossless (input : SelectorFixups) :
    ∃ state, addSelectors input.fixups = some state ∧
      forEachSelectorRef state.selRefFixups = some (input.fixups.map SelectorFixup.call) := by
  obtain ⟨state, run, encoded⟩ := Encoded.run (.inl ⟨rfl, rfl⟩) input.aligned input.inside input.apart
  exact ⟨state, run, encoded.decodes⟩

end ObjcDyld.Closures
