import ObjcDyld.SlideInfo.Linking

/-!
# Page starts

The loop over the words of a page leaves a list of closed chains behind that
visit every rebase location, and a page start from which the loader finds them
all: directly, or through a block of the extras whose last entry is marked.
-/

namespace ObjcDyld.SlideInfo

open Loops

variable {w : ℕ} {version : Version w} {info : Info} {slide : BitVec w} {final : ℕ → BitVec w}

/-- The locations on a chain, which is given by its start and the rest. -/
def onChain (chain : ℕ × List ℕ) : List ℕ := chain.1 :: chain.2

/-! ## Attributes -/

/-- The attributes do not run into the values they are put on; a page start has `bits` bits. -/
structure Attributes.Lawful (attributes : Attributes) (bits : ℕ) : Prop where
  extra : attributes.extra = 2 ^ 15
  endOfExtras : attributes.endOfExtras = 2 ^ 15
  index : attributes.index = 2 ^ bits - 1
  ten_le : 10 ≤ bits
  bits_le : bits ≤ 15
  lastIndex_lt : attributes.lastIndex < 2 ^ bits
  start_lt : pageWords ≤ attributes.noRebase
  extra_ne : ∀ i, i ≤ attributes.lastIndex → i + 2 ^ 15 ≠ attributes.noRebase

theorem attributesV2_lawful : attributesV2.Lawful 14 :=
  ⟨rfl, rfl, rfl, by decide, by decide, by decide, by decide, fun i bound => by
    change i + 2 ^ 15 ≠ 0x4000
    omega⟩

theorem attributesV4_lawful : attributesV4.Lawful 15 :=
  ⟨rfl, rfl, rfl, by decide, by decide, by decide, by decide, fun i bound => by
    change i ≤ 0x7FFE at bound
    change i + 2 ^ 15 ≠ 0xFFFF
    omega⟩

theorem or_flag {i : ℕ} (below : i < 2 ^ 15) : i ||| 2 ^ 15 = i + 2 ^ 15 := by
  rw [Nat.or_comm, Nat.add_comm, ← Nat.mul_one (2 ^ 15), Nat.two_pow_add_eq_or_of_lt below 1]

theorem and_flag_eq_zero {i : ℕ} (below : i < 2 ^ 15) : i &&& 2 ^ 15 = 0 := by
  rw [Nat.and_two_pow, Nat.testBit_lt_two_pow below]
  rfl

theorem and_flag_ne_zero {i : ℕ} (below : i < 2 ^ 15) : (i + 2 ^ 15) &&& 2 ^ 15 ≠ 0 := by
  rw [Nat.and_two_pow, Nat.testBit_eq_decide_div_mod_eq,
    show (i + 2 ^ 15) / 2 ^ 15 % 2 = 1 by omega]
  decide

namespace Attributes.Lawful

variable {attributes : Attributes} {bits i : ℕ}

theorem pageWords_le (lawful : attributes.Lawful bits) : pageWords ≤ 2 ^ bits :=
  Nat.pow_le_pow_right (by decide : 0 < 2) lawful.ten_le

theorem pow_le (lawful : attributes.Lawful bits) : 2 ^ bits ≤ 2 ^ 15 :=
  Nat.pow_le_pow_right (by decide) lawful.bits_le

theorem and_index (lawful : attributes.Lawful bits) (below : i < 2 ^ bits) :
    i &&& attributes.index = i := by
  rw [lawful.index, Nat.and_two_pow_sub_one_eq_mod, Nat.mod_eq_of_lt below]

theorem flagged_and_index (lawful : attributes.Lawful bits) (below : i < 2 ^ bits) :
    (i + 2 ^ 15) &&& attributes.index = i := by
  have split : 2 ^ 15 = 2 ^ bits * 2 ^ (15 - bits) := by
    rw [← Nat.pow_add, Nat.add_sub_of_le lawful.bits_le]
  rw [lawful.index, Nat.and_two_pow_sub_one_eq_mod, split, Nat.add_mul_mod_self_left,
    Nat.mod_eq_of_lt below]

theorem start_ne (lawful : attributes.Lawful bits) (below : i < pageWords) :
    i ≠ attributes.noRebase :=
  Nat.ne_of_lt (Nat.lt_of_lt_of_le below lawful.start_lt)

end Attributes.Lawful

/-! ## The state between two words of a page -/

/-- Some pair of consecutive locations below `bound` cannot be linked. -/
def NeedsExtrasBelow (version : Version w) (info : Info) (data : DataPage) (bound : ℕ) : Prop :=
  ∃ i j, i < j ∧ j < bound ∧ data.bitmap i = true ∧ data.bitmap j = true ∧
    (∀ k, i < k → k < j → data.bitmap k = false) ∧ CannotLink version info data i j

/-- The chains of a page, in the order of their words. -/
structure Threaded (version : Version w) (info : Info) (slide : BitVec w) (final : ℕ → BitVec w)
    (page : Page) (chains : List (ℕ × List ℕ)) : Prop where
  closed : ∀ chain ∈ chains, Closed version info slide final page chain.1 chain.2
  order : chains.Pairwise fun chain later => ∀ i ∈ onChain chain, i + version.pointer.span ≤ later.1

/-- The state after some locations were found: closed chains and an open one. -/
structure Found (version : Version w) (info : Info) (slide : BitVec w) (final : ℕ → BitVec w)
    (data : DataPage) (pageExtras : List ℕ) (bound : ℕ) (state : PageState)
    (chains : List (ℕ × List ℕ)) (head : ℕ) (rest : List ℕ) (last : ℕ) : Prop where
  last_eq : (head :: rest).getLast (List.cons_ne_nil head rest) = last
  lastLocation : state.lastLocation = some last
  lastSet : data.bitmap last = true
  last_lt : last < bound
  quiet : ∀ j, last < j → j < bound → data.bitmap j = false
  opened : Open version info slide final state.page head rest
  threaded : Threaded version info slide final state.page chains
  below : ∀ chain ∈ chains, ∀ i ∈ onChain chain, i + version.pointer.span ≤ head
  visited : ∀ j, j < bound → data.bitmap j = true →
    j ∈ head :: rest ∨ ∃ chain ∈ chains, j ∈ onChain chain
  untouched : ∀ k, last ≤ k ∨ (¬ Covers version (head :: rest) k ∧
    ∀ chain ∈ chains, ¬ Covers version (onChain chain) k) → state.page k = data.content k
  direct : chains = [] → state.startValue = head ∧ state.pageExtras = pageExtras
  indirect : chains ≠ [] → pageExtras.length ≤ version.attributes.lastIndex ∧
    state.startValue = pageExtras.length ||| version.attributes.extra ∧
    state.pageExtras = pageExtras ++ chains.map Prod.fst ++ [head]
  needs : chains ≠ [] ↔ NeedsExtrasBelow version info data bound

/-- The state of the loop before word `bound`. -/
inductive Progress (version : Version w) (info : Info) (slide : BitVec w) (final : ℕ → BitVec w)
    (data : DataPage) (pageExtras : List ℕ) (bound : ℕ) (state : PageState) : Prop where
  | nothing
      (start : state = ⟨data.content, version.attributes.noRebase, none, pageExtras⟩)
      (empty : ∀ j, j < bound → data.bitmap j = false)
  | found {chains : List (ℕ × List ℕ)} {head : ℕ} {rest : List ℕ} {last : ℕ}
      (found : Found version info slide final data pageExtras bound state chains head rest last)

namespace Found

variable {data : DataPage} {pageExtras : List ℕ} {bound : ℕ} {state : PageState}
  {chains : List (ℕ × List ℕ)} {head : ℕ} {rest : List ℕ} {last : ℕ}

theorem head_le_last
    (found : Found version info slide final data pageExtras bound state chains head rest last) :
    head ≤ last := by
  rw [← found.last_eq]
  exact found.opened.le_last head List.mem_cons_self

theorem chain_lt
    (found : Found version info slide final data pageExtras bound state chains head rest last)
    {chain : ℕ × List ℕ} (mem : chain ∈ chains) {k : ℕ}
    (covered : Covers version (onChain chain) k) : k < last := by
  obtain ⟨i, on, -, high⟩ := covered
  exact Nat.lt_of_lt_of_le high ((found.below chain mem i on).trans found.head_le_last)

theorem startValue_ne {bits : ℕ} (lawful : version.attributes.Lawful bits) (fits : bound ≤ pageWords)
    (found : Found version info slide final data pageExtras bound state chains head rest last) :
    state.startValue ≠ version.attributes.noRebase := by
  have head_le := found.head_le_last
  have last_lt := found.last_lt
  by_cases direct : chains = []
  · rw [(found.direct direct).1]
    exact lawful.start_ne (by omega)
  · obtain ⟨index, start, -⟩ := found.indirect direct
    have := lawful.pow_le
    have := lawful.lastIndex_lt
    rw [start, lawful.extra, or_flag (by omega)]
    exact lawful.extra_ne _ index

theorem startValue_and {bits : ℕ} (lawful : version.attributes.Lawful bits) (fits : bound ≤ pageWords)
    (found : Found version info slide final data pageExtras bound state chains head rest last) :
    state.startValue &&& version.attributes.extra = 0 ↔ chains = [] := by
  have head_le := found.head_le_last
  have last_lt := found.last_lt
  have := lawful.pow_le
  have := lawful.pageWords_le
  constructor
  · intro direct
    by_contra indirect
    obtain ⟨index, start, -⟩ := found.indirect indirect
    have := lawful.lastIndex_lt
    rw [start, lawful.extra, or_flag (by omega)] at direct
    exact and_flag_ne_zero (by omega) direct
  · intro direct
    rw [(found.direct direct).1, lawful.extra]
    exact and_flag_eq_zero (by omega)

theorem skip
    (found : Found version info slide final data pageExtras bound state chains head rest last)
    (clear : data.bitmap bound = false) :
    Found version info slide final data pageExtras (bound + 1) state chains head rest last := by
  refine { found with
    last_lt := Nat.lt_succ_of_lt found.last_lt
    quiet := fun j after before => ?_
    visited := fun j before set => ?_
    needs := ?_ }
  · rcases Nat.lt_succ_iff_lt_or_eq.mp before with before | rfl
    · exact found.quiet j after before
    · exact clear
  · rcases Nat.lt_succ_iff_lt_or_eq.mp before with before | rfl
    · exact found.visited j before set
    · rw [clear] at set
      cases set
  · rw [found.needs]
    constructor
    · rintro ⟨i, j, order, before, more⟩
      exact ⟨i, j, order, Nat.lt_succ_of_lt before, more⟩
    · rintro ⟨i, j, order, before, set, set', more⟩
      rcases Nat.lt_succ_iff_lt_or_eq.mp before with before | rfl
      · exact ⟨i, j, order, before, set, set', more⟩
      · rw [clear] at set'
        cases set'

theorem needs_succ
    (found : Found version info slide final data pageExtras bound state chains head rest last)
    (set : data.bitmap bound = true) :
    NeedsExtrasBelow version info data (bound + 1) ↔
      NeedsExtrasBelow version info data bound ∨ CannotLink version info data last bound := by
  constructor
  · rintro ⟨i, j, order, before, setI, setJ, quiet, cannot⟩
    rcases Nat.lt_succ_iff_lt_or_eq.mp before with before | rfl
    · exact Or.inl ⟨i, j, order, before, setI, setJ, quiet, cannot⟩
    · rcases Nat.lt_trichotomy i last with less | rfl | more
      · have clear := quiet last less found.last_lt
        rw [found.lastSet] at clear
        cases clear
      · exact Or.inr cannot
      · rw [found.quiet i more order] at setI
        cases setI
  · rintro (⟨i, j, order, before, more⟩ | cannot)
    · exact ⟨i, j, order, Nat.lt_succ_of_lt before, more⟩
    · exact ⟨last, bound, found.last_lt, Nat.lt_succ_self bound, found.lastSet, set,
        found.quiet, cannot⟩

theorem linked
    (found : Found version info slide final data pageExtras bound state chains head rest last)
    (set : data.bitmap bound = true) {page' : Page} {stolen : List ℕ}
    (linked : Linked version info slide final state.page page' last bound stolen)
    (can : ¬ CannotLink version info data last bound) :
    Found version info slide final data pageExtras (bound + 1)
      { state with page := page', lastLocation := some bound } chains head
      (rest ++ (stolen ++ [bound])) bound := by
  have early : ∀ k, k < last → page' k = state.page k := by
    intro k before
    refine linked.others k ?_
    rintro ⟨i, mem, low, -⟩
    rcases List.mem_cons.mp mem with rfl | mem
    · omega
    · have := (linked.between i mem).1
      omega
  have onChains : ∀ chain ∈ chains, ∀ k, Covers version (onChain chain) k →
      page' k = state.page k :=
    fun chain mem k covered => early k (found.chain_lt mem covered)
  have opened : Open version info slide final page' head rest :=
    found.opened.congr fun k before => early k (by rwa [found.last_eq] at before)
  refine {
    last_eq := by simp
    lastLocation := rfl
    lastSet := set
    last_lt := Nat.lt_succ_self bound
    quiet := fun j after before => absurd before (by omega)
    opened := opened.append (by rw [found.last_eq]; exact linked.opened)
    threaded := ⟨fun chain mem => (found.threaded.closed chain mem).congr (onChains chain mem),
      found.threaded.order⟩
    below := found.below
    visited := fun j before isSet => ?_
    untouched := fun k away => ?_
    direct := found.direct
    indirect := found.indirect
    needs := ?_ }
  · rcases Nat.lt_succ_iff_lt_or_eq.mp before with before | rfl
    · rcases found.visited j before isSet with here | elsewhere
      · refine Or.inl ?_
        rw [← List.cons_append]
        exact List.mem_append_left _ here
      · exact Or.inr elsewhere
    · exact Or.inl (by simp)
  · have last_lt := found.last_lt
    have span := version.pointer.span_pos
    have apart : ¬ Covers version (last :: stolen) k → page' k = data.content k := by
      intro free
      rw [linked.others k free]
      refine found.untouched k ?_
      rcases away with after | ⟨free', others⟩
      · exact Or.inl (by omega)
      · refine Or.inr ⟨fun ⟨i, mem, range⟩ => free' ⟨i, ?_, range⟩, others⟩
        rw [← List.cons_append]
        exact List.mem_append_left _ mem
    refine apart ?_
    rintro ⟨i, mem, low, high⟩
    have isOn : i ∈ head :: (rest ++ (stolen ++ [bound])) := by
      rcases List.mem_cons.mp mem with rfl | mem
      · have := List.getLast_mem (List.cons_ne_nil head rest)
        rw [found.last_eq] at this
        rw [← List.cons_append]
        exact List.mem_append_left _ this
      · simp [mem]
    rcases away with after | ⟨free, -⟩
    · have ordered := linked.opened.apart_last i mem
      omega
    · exact free ⟨i, isOn, low, high⟩
  · rw [found.needs_succ set, found.needs]
    exact ⟨Or.inl, fun either => either.resolve_right can⟩

end Found

end ObjcDyld.SlideInfo
