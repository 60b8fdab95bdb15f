import ObjcDyld.SlideInfo.Version3

/-!
# The round trip of version 3

Builder and loader agree on where a target is stored: as an offset from the
cache base in authenticated pointers, as an address in plain ones.  The chain of
a page goes through its locations once, in order.
-/

namespace ObjcDyld.SlideInfo

open ChainedFixups Loops

/-! ## One pointer -/

/-- A region whose base needs more than 32 bits, and whose addresses need at most 43. -/
structure CacheRegion.Suits (region : CacheRegion) : Prop where
  base_ge : 2 ^ 32 ≤ region.base.toNat
  limit_le : region.limit.toNat ≤ region.base.toNat + 2 ^ 32
  limit_bits : region.limit.toNat ≤ 2 ^ 43

/-- The word that the builder makes of an address and a link. -/
def encodedV3 (region : CacheRegion) (data : AuthPage) (loc : ℕ) (value : BitVec 64) (next : ℕ) :
    BitVec 64 :=
  match data.authData loc with
  | some auth =>
      (⟨(value - region.base).setWidth 32, auth.diversity, auth.addrDiv, auth.key,
        BitVec.ofNat 11 next, 0, 1⟩ : Arm64eAuthRebase).raw64
  | none =>
      (⟨value.setWidth 43, (data.high8 loc).getD 0, BitVec.ofNat 11 next, 0, 0⟩ : Arm64eRebase).raw64

/-- What a location is to hold: a signature, or the tagged pointer. -/
def loadedPointerV3 (signPointer : SignPointer) (slide : BitVec 64) (pageIndex : ℕ)
    (data : AuthPage) (loc : ℕ) : BitVec 64 :=
  match data.authData loc with
  | some auth =>
      signPointer (pageWords * pageIndex + loc) auth.diversity auth.addrDiv auth.key
        (pointer64.getP data.content loc + slide)
  | none => taggedPointer slide data.toDataPage loc

section Pointer

variable {region : CacheRegion} {data : AuthPage} {loc : ℕ} {value : BitVec 64} {next : ℕ}

theorem setWidth_setWidth_eq {bits : ℕ} {value : BitVec 64} (wide : bits ≤ 64)
    (fits : value.toNat < 2 ^ bits) : (value.setWidth bits).setWidth 64 = value := by
  have power : 2 ^ bits ≤ 2 ^ 64 := Nat.pow_le_pow_right Nat.two_pos wide
  apply BitVec.eq_of_toNat_eq
  rw [BitVec.toNat_setWidth, BitVec.toNat_setWidth, Nat.mod_eq_of_lt fits,
    Nat.mod_eq_of_lt (by omega)]

theorem CacheRegion.Suits.storedTarget32 (suits : region.Suits) (value : BitVec 64) :
    storedTarget region 32 value = value - region.base := by
  have large := suits.base_ge
  refine if_pos fun same => ?_
  have low := congrArg BitVec.toNat same
  rw [BitVec.toNat_setWidth, BitVec.toNat_setWidth] at low
  omega

theorem CacheRegion.Suits.storedTarget43 (suits : region.Suits) (below : region.base < region.limit)
    (value : BitVec 64) : storedTarget region 43 value = value := by
  have bits := suits.limit_bits
  rw [BitVec.lt_def] at below
  refine if_neg (not_not.mpr (setWidth_setWidth_eq (by decide) (by omega)))

theorem setPointerContentV3_ok (suits : region.Suits) (page : Page) (above : region.base < value)
    (below : value < region.limit) (short : next < 2 ^ 11) :
    setPointerContentV3 region data page loc value next =
      .ok (pointer64.setP page loc (encodedV3 region data loc value next)) := by
  have link : (BitVec.ofNat 11 next).toNat = next := by
    rw [BitVec.toNat_ofNat, Nat.mod_eq_of_lt short]
  have inside : region.base < region.limit := BitVec.lt_trans above below
  have size := suits.limit_le
  have bits := suits.limit_bits
  have aboveNat := BitVec.lt_def.mp above
  have belowNat := BitVec.lt_def.mp below
  rw [setPointerContentV3, if_neg (not_not.mpr ⟨above, below⟩), encodedV3]
  cases data.authData loc with
  | some auth =>
      have fits : ((value - region.base).setWidth 32).setWidth 64 = value - region.base :=
        setWidth_setWidth_eq (by decide) (by
          rw [BitVec.toNat_sub_of_le (BitVec.le_of_lt above)]
          omega)
      simp only [suits.storedTarget32, fits, link, ne_eq, not_true_eq_false, or_self, if_false]
  | none =>
      have fits : (value.setWidth 43).setWidth 64 = value :=
        setWidth_setWidth_eq (by decide) (by omega)
      simp only [suits.storedTarget43 inside, fits, link, ne_eq, not_true_eq_false, or_self, if_false]

theorem next_encodedV3 (short : next < 2 ^ 11) :
    (Arm64eRebase.view (encodedV3 region data loc value next)).next.toNat = next := by
  have link : (BitVec.ofNat 11 next).toNat = next := by
    rw [BitVec.toNat_ofNat, Nat.mod_eq_of_lt short]
  rw [encodedV3]
  cases data.authData loc with
  | some auth => rw [(Arm64eRebase.view_next _).1, Arm64eAuthRebase.view_raw64, link]
  | none => rw [Arm64eRebase.view_raw64, link]

theorem slidV3_encodedV3 (signPointer : SignPointer) (slide : BitVec 64) (suits : region.Suits)
    (pageIndex : ℕ) (above : region.base < pointer64.getP data.content loc)
    (below : pointer64.getP data.content loc < region.limit) :
    slidV3 signPointer region.base slide (pageWords * pageIndex + loc)
        (encodedV3 region data loc (pointer64.getP data.content loc) next) =
      loadedPointerV3 signPointer slide pageIndex data loc := by
  have size := suits.limit_le
  have bits := suits.limit_bits
  have aboveNat := BitVec.lt_def.mp above
  have belowNat := BitVec.lt_def.mp below
  rw [encodedV3, loadedPointerV3, slidV3]
  cases data.authData loc with
  | some auth =>
      have fits : ((pointer64.getP data.content loc - region.base).setWidth 32).setWidth 64 =
          pointer64.getP data.content loc - region.base :=
        setWidth_setWidth_eq (by decide) (by
          rw [BitVec.toNat_sub_of_le (BitVec.le_of_lt above)]
          omega)
      simp only [Arm64eAuthRebase.view_raw64, if_true, fits]
      rw [BitVec.add_comm region.base, BitVec.sub_add_cancel]
  | none =>
      have fits : ((pointer64.getP data.content loc).setWidth 43).setWidth 64 =
          pointer64.getP data.content loc := setWidth_setWidth_eq (by decide) (by omega)
      have plain : (Arm64eAuthRebase.view (Arm64eRebase.raw64
          ⟨(pointer64.getP data.content loc).setWidth 43, (data.high8 loc).getD 0,
            BitVec.ofNat 11 next, 0, 0⟩)).auth ≠ 1 := by
        rw [← (Arm64eRebase.view_next _).2.2, Arm64eRebase.view_raw64]
        exact (by decide : (0 : BitVec 1) ≠ 1)
      have tag : ((data.high8 loc).getD 0).setWidth 64 <<< 56 = tagBits data.toDataPage loc := by
        rw [tagBits]
        cases data.high8 loc with
        | none => decide
        | some high8 => exact (BitVec.setWidth_eq _).symm
      have apart : pointer64.getP data.content loc &&& tagBits data.toDataPage loc = 0 := by
        rw [← tag]
        exact SpareBits.and_shiftLeft_eq_zero (by omega) _
      simp only [if_neg plain, Arm64eRebase.view_raw64, unpackTarget, fits]
      rw [tag, BitVec.or_comm, ← BitVec.add_eq_or_of_and_eq_zero _ _ apart, taggedPointer]
      ring

end Pointer

/-! ## The chain of a page -/

/-- The rebase locations of a page of an arm64e cache. -/
structure RecordedV3 (region : CacheRegion) (data : AuthPage) : Prop where
  inside : ∀ i, data.bitmap i = true → i + 2 ≤ pageWords
  aligned : ∀ i, data.bitmap i = true → i % 2 = 0
  above : ∀ i, data.bitmap i = true → region.base < pointer64.getP data.content i
  below : ∀ i, data.bitmap i = true → pointer64.getP data.content i < region.limit

/-- The locations of a page among its first `bound` words. -/
def locationsBelow (data : DataPage) (bound : ℕ) : List ℕ := (List.range bound).filter data.bitmap

def locations (data : DataPage) : List ℕ := locationsBelow data pageWords

theorem locationsBelow_succ (data : DataPage) (bound : ℕ) :
    locationsBelow data (bound + 1) =
      if data.bitmap bound then locationsBelow data bound ++ [bound] else locationsBelow data bound := by
  rw [locationsBelow, List.range_succ, List.filter_append, List.filter_singleton]
  cases data.bitmap bound with
  | true => rfl
  | false => exact List.append_nil _

theorem mem_locationsBelow {data : DataPage} {bound i : ℕ} :
    i ∈ locationsBelow data bound ↔ i < bound ∧ data.bitmap i = true := by
  rw [locationsBelow, List.mem_filter, List.mem_range]

/-- The words of the locations in a list. -/
def Within (locs : List ℕ) (k : ℕ) : Prop := ∃ i ∈ locs, i ≤ k ∧ k < i + 2

/-- A chain from `i` through `rest` whose last word has not been written. -/
def ChainV3 (region : CacheRegion) (data : AuthPage) (page : Page) : ℕ → List ℕ → Prop
  | _, [] => True
  | i, next :: rest =>
      i + 2 ≤ next ∧ (next - i) % 2 = 0 ∧
        pointer64.getP page i =
          encodedV3 region data i (pointer64.getP data.content i) ((next - i) / 2) ∧
        ChainV3 region data page next rest

section Chain

variable {region : CacheRegion} {data : AuthPage} {page page' : Page} {i : ℕ} {rest : List ℕ}

theorem getP64_congr {i : ℕ} (same : ∀ k, i ≤ k → k < i + 2 → page k = page' k) :
    pointer64.getP page i = pointer64.getP page' i :=
  (pointer64.get_eq_iff page page' i).mpr same

namespace ChainV3

theorem le_last (chain : ChainV3 region data page i rest) :
    ∀ j ∈ i :: rest, j ≤ (i :: rest).getLast (List.cons_ne_nil i rest) := by
  induction rest generalizing i with
  | nil => simp
  | cons next rest ih =>
      obtain ⟨apart, -, -, further⟩ := chain
      intro j mem
      rw [List.getLast_cons (List.cons_ne_nil next rest)]
      rcases List.mem_cons.mp mem with rfl | mem
      · have := ih further next List.mem_cons_self
        omega
      · exact ih further j mem

theorem head_le (chain : ChainV3 region data page i rest) : ∀ j ∈ i :: rest, i ≤ j := by
  induction rest generalizing i with
  | nil => simp
  | cons next rest ih =>
      obtain ⟨apart, -, -, further⟩ := chain
      intro j mem
      rcases List.mem_cons.mp mem with rfl | mem
      · exact Nat.le_refl j
      · have := ih further j mem
        omega

theorem congr (chain : ChainV3 region data page i rest)
    (same : ∀ k, i ≤ k → k < (i :: rest).getLast (List.cons_ne_nil i rest) → page' k = page k) :
    ChainV3 region data page' i rest := by
  induction rest generalizing i with
  | nil => trivial
  | cons next rest ih =>
      obtain ⟨apart, even, word, further⟩ := chain
      rw [List.getLast_cons (List.cons_ne_nil next rest)] at same
      have below := further.le_last next List.mem_cons_self
      refine ⟨apart, even, ?_, ih further fun k low high => same k (by omega) high⟩
      rwa [getP64_congr fun k low _ => same k low (by omega)]

theorem append (chain : ChainV3 region data page i rest) {last next : ℕ}
    (last_eq : (i :: rest).getLast (List.cons_ne_nil i rest) = last) (apart : last + 2 ≤ next)
    (even : (next - last) % 2 = 0)
    (word : pointer64.getP page last =
      encodedV3 region data last (pointer64.getP data.content last) ((next - last) / 2)) :
    ChainV3 region data page i (rest ++ [next]) := by
  induction rest generalizing i with
  | nil =>
      obtain rfl : i = last := last_eq
      exact ⟨apart, even, word, trivial⟩
  | cons second rest ih =>
      obtain ⟨apart', even', word', further⟩ := chain
      rw [List.getLast_cons (List.cons_ne_nil second rest)] at last_eq
      exact ⟨apart', even', word', ih further last_eq⟩

end ChainV3

/-- The state of the loop before word `bound`. -/
inductive ProgressV3 (region : CacheRegion) (data : AuthPage) (bound : ℕ) (state : PageStateV3) :
    Prop where
  | nothing (start : state = ⟨data.content, noRebaseV3, none⟩)
      (empty : locationsBelow data.toDataPage bound = [])
  | found {head : ℕ} {rest : List ℕ} {last : ℕ}
      (list : locationsBelow data.toDataPage bound = head :: rest)
      (last_eq : (head :: rest).getLast (List.cons_ne_nil head rest) = last)
      (result : state.result = head * 4) (lastLoc : state.lastLoc = some last)
      (chain : ChainV3 region data state.page head rest)
      (untouched : ∀ k, last ≤ k ∨ ¬ Within (head :: rest) k → state.page k = data.content k)

theorem ProgressV3.step (suits : region.Suits) (recorded : RecordedV3 region data) {bound : ℕ}
    {state : PageStateV3} (progress : ProgressV3 region data bound state) (fits : bound < pageWords) :
    ∃ state', addLocationV3 region data state bound = .ok state' ∧
      ProgressV3 region data (bound + 1) state' := by
  have words : pageWords = 1024 := rfl
  unfold addLocationV3
  cases set : data.bitmap bound with
  | false =>
      have same : locationsBelow data.toDataPage (bound + 1) = locationsBelow data.toDataPage bound := by
        rw [locationsBelow_succ, set]
        rfl
      refine ⟨state, rfl, ?_⟩
      cases progress with
      | nothing start empty => exact .nothing start (same.trans empty)
      | found list last_eq result lastLoc chain untouched =>
          exact .found (same.trans list) last_eq result lastLoc chain untouched
  | true =>
      have longer : locationsBelow data.toDataPage (bound + 1) =
          locationsBelow data.toDataPage bound ++ [bound] := by
        rw [locationsBelow_succ, set]
        rfl
      rw [if_pos rfl]
      cases progress with
      | nothing start empty =>
          subst start
          have list : locationsBelow data.toDataPage (bound + 1) = [bound] := by
            rw [longer, empty]
            rfl
          exact ⟨⟨data.content, bound * 4, some bound⟩, rfl,
            .found list rfl rfl rfl trivial fun _ _ => rfl⟩
      | found list last_eq result lastLoc chain untouched =>
          rename_i head rest last
          have lastOn : last ∈ head :: rest := last_eq ▸ List.getLast_mem _
          have head_le := chain.head_le last lastOn
          obtain ⟨last_lt, lastSet⟩ := mem_locationsBelow.mp (list ▸ lastOn)
          have even := recorded.aligned last lastSet
          have even' := recorded.aligned bound set
          have headOn : head ∈ head :: rest := List.mem_cons_self
          have value : pointer64.getP state.page last = pointer64.getP data.content last :=
            getP64_congr fun k low _ => untouched k (Or.inl low)
          have stays : state.result ≠ noRebaseV3 := by
            rw [result, noRebaseV3]
            omega
          rw [lastLoc]
          simp only [if_neg stays]
          have above := recorded.above last lastSet
          have below := recorded.below last lastSet
          rw [← value] at above below
          rw [setPointerContentV3_ok suits _ above below (by omega), ok_bind, value]
          have longerList : locationsBelow data.toDataPage (bound + 1) =
              head :: (rest ++ [bound]) := by rw [longer, list, List.cons_append]
          refine ⟨_, rfl, .found longerList (by simp) result rfl ?_ ?_⟩
          · refine (chain.congr fun k _ high => ?_).append last_eq (by omega) (by omega)
              (pointer64.get_set ..)
            rw [last_eq] at high
            exact pointer64.set_other _ _ _ k (Or.inl high)
          · intro k away
            have far : k < last ∨ last + 2 ≤ k := by
              rcases away with after | free
              · omega
              · by_contra here
                refine free ⟨last, ?_, by omega, by omega⟩
                rw [← List.cons_append]
                exact List.mem_append_left _ lastOn
            refine (pointer64.set_other _ _ _ k far).trans (untouched k ?_)
            rcases away with after | free
            · exact Or.inl (by omega)
            · refine Or.inr fun ⟨j, mem, range⟩ => free ⟨j, ?_, range⟩
              rw [← List.cons_append]
              exact List.mem_append_left _ mem

/-- What `pageStartV3` leaves behind: a page with one chain, and where it starts. -/
inductive WrittenV3 (region : CacheRegion) (data : AuthPage) (page : Page) (pageStart : ℕ) : Prop where
  | nothing (empty : locations data.toDataPage = []) (page_eq : page = data.content)
      (start : pageStart = noRebaseV3)
  | chain {head : ℕ} {rest : List ℕ} {last : ℕ}
      (list : locations data.toDataPage = head :: rest) (start : pageStart = head * 4)
      (last_eq : (head :: rest).getLast (List.cons_ne_nil head rest) = last)
      (chain : ChainV3 region data page head rest)
      (ends : pointer64.getP page last =
        encodedV3 region data last (pointer64.getP data.content last) 0)
      (others : ∀ k, ¬ Within (head :: rest) k → page k = data.content k)

theorem pageStartV3_spec (suits : region.Suits) (recorded : RecordedV3 region data) :
    ∃ page pageStart, pageStartV3 region data = .ok (page, pageStart) ∧
      WrittenV3 region data page pageStart := by
  have first : ProgressV3 region data 0 ⟨data.content, noRebaseV3, none⟩ := .nothing rfl rfl
  obtain ⟨state, run, progress⟩ := foldlM_range (ProgressV3 region data) first
    fun i (fits : i < pageWords) state progress => progress.step suits recorded fits
  unfold pageStartV3
  simp only [run, ok_bind]
  cases progress with
  | nothing start empty =>
      subst start
      exact ⟨_, _, rfl, .nothing empty rfl rfl⟩
  | found list last_eq result lastLoc chain untouched =>
      rename_i head rest last
      have lastOn : last ∈ head :: rest := last_eq ▸ List.getLast_mem _
      obtain ⟨last_lt, lastSet⟩ := mem_locationsBelow.mp (list ▸ lastOn)
      have value : pointer64.getP state.page last = pointer64.getP data.content last :=
        getP64_congr fun k low _ => untouched k (Or.inl low)
      simp only [lastLoc]
      have above := recorded.above last lastSet
      have below := recorded.below last lastSet
      rw [← value] at above below
      rw [setPointerContentV3_ok suits _ above below (by decide), ok_bind, value]
      refine ⟨_, _, rfl, .chain list result last_eq (chain.congr fun k _ high => ?_)
        (pointer64.get_set ..) fun k away => ?_⟩
      · rw [last_eq] at high
        exact pointer64.set_other _ _ _ k (Or.inl high)
      · have far : k < last ∨ last + 2 ≤ k := by
          by_contra here
          exact away ⟨last, lastOn, by omega, by omega⟩
        exact (pointer64.set_other _ _ _ k far).trans (untouched k (Or.inr away))

end Chain

/-! ## The loader -/

/--
Every location holds its final value, every other word its original one, and the
walk visited every location once.
-/
structure RestoredV3 (data : DataPage) (final : ℕ → BitVec 64) (page : Page) (visited : List ℕ) :
    Prop where
  locations : ∀ i, data.bitmap i = true → pointer64.getP page i = final i
  others : ∀ k, ¬ (∃ i, data.bitmap i = true ∧ i ≤ k ∧ k < i + 2) → page k = data.content k
  visits : ∀ i, i ∈ visited ↔ data.bitmap i = true
  once : visited.Nodup

section Loader

variable {region : CacheRegion} {data : AuthPage} {page : Page} (signPointer : SignPointer)
  (slide : BitVec 64) (pageIndex : ℕ)

theorem rebaseChainV3_chain (suits : region.Suits) (recorded : RecordedV3 region data) {i : ℕ}
    {rest : List ℕ} {last : ℕ} (chain : ChainV3 region data page i rest)
    (last_eq : (i :: rest).getLast (List.cons_ne_nil i rest) = last)
    (ends : pointer64.getP page last =
      encodedV3 region data last (pointer64.getP data.content last) 0)
    (set : ∀ j ∈ i :: rest, data.bitmap j = true) {fuel : ℕ} (enough : pageWords ≤ i + fuel) :
    ∃ page', rebaseChainV3 signPointer region.base slide pageIndex fuel i page =
        .ok (page', i :: rest) ∧
      (∀ j ∈ i :: rest, pointer64.getP page' j =
        loadedPointerV3 signPointer slide pageIndex data j) ∧
      ∀ k, ¬ Within (i :: rest) k → page' k = page k := by
  have words : pageWords = 1024 := rfl
  induction rest generalizing i page fuel with
  | nil =>
      obtain rfl : i = last := last_eq
      have here := set i List.mem_cons_self
      have bound := recorded.inside i here
      obtain ⟨fuel, rfl⟩ : ∃ n, fuel = n + 1 := ⟨fuel - 1, by omega⟩
      refine ⟨pointer64.setP page i (loadedPointerV3 signPointer slide pageIndex data i), ?_, ?_, ?_⟩
      · rw [rebaseChainV3, if_neg (Nat.not_lt_of_le bound)]
        simp only [ends, next_encodedV3 (show 0 < 2 ^ 11 by decide), if_true,
          slidV3_encodedV3 signPointer slide suits pageIndex (recorded.above i here)
            (recorded.below i here)]
      · intro j mem
        obtain rfl := List.mem_singleton.mp mem
        exact pointer64.get_set page j _
      · intro k away
        have far : k < i ∨ i + 2 ≤ k := by
          by_contra between
          exact away ⟨i, List.mem_cons_self, by omega, by omega⟩
        exact pointer64.set_other page i _ k far
  | cons next rest ih =>
      obtain ⟨apart, even, word, further⟩ := chain
      rw [List.getLast_cons (List.cons_ne_nil next rest)] at last_eq
      have here := set i List.mem_cons_self
      have bound := recorded.inside i here
      have inside := recorded.inside next (set next (List.mem_cons_of_mem i List.mem_cons_self))
      have ordered := further.head_le
      obtain ⟨fuel, rfl⟩ : ∃ n, fuel = n + 1 := ⟨fuel - 1, by omega⟩
      have later : ∀ value k, i + 2 ≤ k → pointer64.setP page i value k = page k :=
        fun value k low => pointer64.set_other page i value k (Or.inr low)
      have lastOn : last ∈ next :: rest := last_eq ▸ List.getLast_mem _
      have further' : ChainV3 region data
          (pointer64.setP page i (loadedPointerV3 signPointer slide pageIndex data i)) next rest :=
        further.congr fun k low _ => later _ k (by omega)
      obtain ⟨page', run, finals, others⟩ := ih further' last_eq
        (by
          rw [← ends]
          refine getP64_congr fun k low _ => later _ k ?_
          have := ordered last lastOn
          omega)
        (fun j mem => set j (List.mem_cons_of_mem i mem)) (show pageWords ≤ next + fuel by omega)
      refine ⟨page', ?_, ?_, ?_⟩
      · have link : (next - i) / 2 < 2 ^ 11 := by omega
        have moves : (next - i) / 2 ≠ 0 := by omega
        have step : i + 2 * ((next - i) / 2) = next := by omega
        rw [rebaseChainV3, if_neg (Nat.not_lt_of_le bound)]
        simp only [word, next_encodedV3 link, if_neg moves, step,
          slidV3_encodedV3 signPointer slide suits pageIndex (recorded.above i here)
            (recorded.below i here), run, ok_bind]
      · intro j mem
        rcases List.mem_cons.mp mem with rfl | mem
        · rw [← pointer64.get_set page j (loadedPointerV3 signPointer slide pageIndex data j)]
          refine getP64_congr fun k low high => others k ?_
          rintro ⟨o, mem, low', -⟩
          have := ordered o mem
          omega
        · exact finals j mem
      · intro k away
        rw [others k fun ⟨j, mem, range⟩ => away ⟨j, List.mem_cons_of_mem i mem, range⟩]
        have far : k < i ∨ i + 2 ≤ k := by
          by_contra between
          exact away ⟨i, List.mem_cons_self, by omega, by omega⟩
        exact pointer64.set_other page i _ k far

theorem rebasePageV3_written (suits : region.Suits) (recorded : RecordedV3 region data)
    {pageStart : ℕ} (written : WrittenV3 region data page pageStart) :
    ∃ page' visited, rebasePageV3 signPointer region.base slide pageIndex pageStart page =
        .ok (page', visited) ∧
      RestoredV3 data.toDataPage (loadedPointerV3 signPointer slide pageIndex data) page' visited := by
  have words : pageWords = 1024 := rfl
  have mem : ∀ i, i ∈ locations data.toDataPage ↔ data.bitmap i = true := by
    intro i
    rw [locations, mem_locationsBelow]
    refine and_iff_right_of_imp fun set => ?_
    have := recorded.inside i set
    omega
  have once : (locations data.toDataPage).Nodup := List.nodup_range.filter _
  cases written with
  | nothing empty page_eq start =>
      subst page_eq start
      rw [empty] at mem once
      refine ⟨data.content, [], ?_, fun i set => ?_, fun _ _ => rfl, mem, once⟩
      · rw [rebasePageV3, if_pos rfl]
      · exact absurd ((mem i).mpr set) List.not_mem_nil
  | chain list start last_eq chain ends others =>
      rename_i head rest last
      rw [list] at mem once
      have here := (mem head).mp List.mem_cons_self
      have inside := recorded.inside head here
      have aligned := recorded.aligned head here
      obtain ⟨page', run, finals, others'⟩ := rebaseChainV3_chain signPointer slide
        pageIndex suits recorded chain last_eq ends (fun j on => (mem j).mp on)
        (Nat.le_add_left pageWords head)
      refine ⟨page', head :: rest, ?_, fun i set => finals i ((mem i).mpr set), fun k away => ?_,
        mem, once⟩
      · have starts : pageStart ≠ noRebaseV3 := by
          rw [start, noRebaseV3]
          omega
        rw [rebasePageV3, if_neg starts, start, show 2 * (head * 4 / 8) = head by omega, run]
      · have free : ¬ Within (head :: rest) k := fun ⟨i, on, range⟩ => away ⟨i, (mem i).mp on, range⟩
        rw [others' k free, others k free]

theorem rebaseEntriesV3_written (suits : region.Suits) {pages : List AuthPage}
    (recorded : ∀ data ∈ pages, RecordedV3 region data) {written : List (Page × ℕ)}
    (all : List.Forall₂ (fun data page => WrittenV3 region data page.1 page.2) pages written)
    (done : List Page) (visitedBefore : List (List ℕ)) (short : done.length + pages.length ≤ 2 ^ 20) :
    ∃ rebased visited,
      ((written.map Prod.snd).zipIdx done.length).foldlM
          (rebaseEntryV3 signPointer region.base slide)
          (done ++ written.map Prod.fst, visitedBefore) =
        .ok (done ++ rebased, visitedBefore ++ visited) ∧
      ∀ i data, pages[i]? = some data → ∃ page locs, rebased[i]? = some page ∧
        visited[i]? = some locs ∧
        RestoredV3 data.toDataPage (loadedPointerV3 signPointer slide (done.length + i) data) page
          locs := by
  induction all generalizing done visitedBefore with
  | nil => exact ⟨[], [], by simp, by simp⟩
  | @cons data page rest written first more ih =>
      obtain ⟨page', locs, run, restored⟩ := rebasePageV3_written signPointer slide
        done.length suits (recorded data List.mem_cons_self) first
      rw [List.length_cons] at short
      obtain ⟨rebased, visited, further, restored'⟩ := ih
        (fun data mem => recorded data (List.mem_cons_of_mem _ mem)) (done ++ [page'])
        (visitedBefore ++ [locs]) (by rw [List.length_append, List.length_singleton]; omega)
      refine ⟨page' :: rebased, locs :: visited, ?_, fun i data' at_i => ?_⟩
      · have address : pageAddress done.length = done.length := by
          rw [pageAddress, Nat.mod_eq_of_lt (by omega), Nat.mul_div_cancel_left _ (by decide)]
        have entry : rebaseEntryV3 signPointer region.base slide
            (done ++ page.1 :: written.map Prod.fst, visitedBefore) (page.2, done.length) =
              .ok (done ++ page' :: written.map Prod.fst, visitedBefore ++ [locs]) := by
          rw [rebaseEntryV3, address, List.getElem?_append_right (Nat.le_refl _), Nat.sub_self]
          simp only [List.getElem?_cons_zero, run, ok_bind]
          rw [List.set_append, if_neg (Nat.lt_irrefl _), Nat.sub_self]
          rfl
        rw [List.map_cons, List.map_cons, List.zipIdx_cons, List.foldlM_cons, entry, ok_bind]
        simpa using further
      · cases i with
        | zero =>
            obtain rfl := Option.some.inj at_i
            exact ⟨page', locs, rfl, rfl, restored⟩
        | succ i =>
            obtain ⟨page'', locs', at_page, at_locs, more'⟩ := restored' i data' at_i
            refine ⟨page'', locs', at_page, at_locs, ?_⟩
            rwa [List.length_append, List.length_singleton,
              show done.length + 1 + i = done.length + (i + 1) by omega] at more'

end Loader

/-! ## The round trip -/

/-- The loader turns what the builder wrote into signed and slid pointers, page by page. -/
def RoundTripsV3 (signPointer : SignPointer) (layout : ArchLayout) (region : CacheRegion)
    (sizeInUse : ℕ) (slide : BitVec 64) (pages : List AuthPage) : Prop :=
  ∃ written pageStarts rebased visited,
    writeSlideInfoV3 region layout sizeInUse pages = .ok (written, pageStarts) ∧
      rebaseDataPagesV3 signPointer (BitVec.ofNat 64 layout.sharedMemoryStart) slide pageStarts
        written = .ok (rebased, visited) ∧
      ∀ i data, pages[i]? = some data → ∃ page locs, rebased[i]? = some page ∧
        visited[i]? = some locs ∧
        RestoredV3 data.toDataPage (loadedPointerV3 signPointer slide i data) page locs

theorem mapM_pageStartV3 {region : CacheRegion} (suits : region.Suits) {pages : List AuthPage}
    (recorded : ∀ data ∈ pages, RecordedV3 region data) :
    ∃ written, pages.mapM (pageStartV3 region) = .ok written ∧
      List.Forall₂ (fun data page => WrittenV3 region data page.1 page.2) pages written := by
  induction pages with
  | nil => exact ⟨[], rfl, .nil⟩
  | cons data rest ih =>
      obtain ⟨page, pageStart, run, first⟩ := pageStartV3_spec suits (recorded data List.mem_cons_self)
      obtain ⟨written, runs, more⟩ := ih fun data mem => recorded data (List.mem_cons_of_mem _ mem)
      refine ⟨(page, pageStart) :: written, ?_, .cons first more⟩
      rw [List.mapM_cons, run, ok_bind, runs]
      rfl

/-- Every cache of arm64e pages comes back slid and signed. -/
theorem roundTripsV3 (signPointer : SignPointer) {region : CacheRegion}
    (base : region.base = BitVec.ofNat 64 ArchLayout.arm64e.sharedMemoryStart)
    (limit : region.limit.toNat ≤
      ArchLayout.arm64e.sharedMemoryStart + ArchLayout.arm64e.sharedMemorySize)
    {sizeInUse : ℕ} (bound : sizeInUse ≤ ArchLayout.arm64e.sharedMemorySize)
    {pages : List AuthPage} (count : pages.length = dataPageCount sizeInUse)
    (recorded : ∀ data ∈ pages, RecordedV3 region data) (slide : BitVec 64) :
    RoundTripsV3 signPointer .arm64e region sizeInUse slide pages := by
  have start : ArchLayout.arm64e.sharedMemoryStart = 0x180000000 := rfl
  have size : ArchLayout.arm64e.sharedMemorySize = 2 ^ 32 := rfl
  have baseNat : region.base.toNat = 0x180000000 := by
    rw [base]
    rfl
  have suits : region.Suits := ⟨by omega, by omega, by omega⟩
  have short : pages.length ≤ 2 ^ 20 := by
    rw [count, dataPageCount]
    omega
  obtain ⟨written, runs, all⟩ := mapM_pageStartV3 suits recorded
  obtain ⟨rebased, visited, load, restored⟩ := rebaseEntriesV3_written signPointer slide suits
    recorded all [] [] (by simpa using short)
  have fits : ¬ align (offsetofPageStarts + pages.length * 2) ArchLayout.arm64e.sharedRegionAlignP2 >
      slideInfoBufferSizeAllocated .arm64e sizeInUse := by
    refine Nat.not_lt_of_le ((Nat.mul_le_mul_right _ (Nat.div_le_div_right ?_)).trans
      (starts_fit .arm64e sizeInUse (Nat.le_refl 2)))
    have : offsetofPageStarts ≤ sizeofSlideInfo := by decide
    omega
  refine ⟨written.map Prod.fst, written.map Prod.snd, rebased, visited, ?_, ?_, ?_⟩
  · rw [writeSlideInfoV3, runs, ok_bind]
    simp only [if_neg fits, List.unzip_eq_map]
  · rw [rebaseDataPagesV3, ← base]
    exact load
  · simpa using restored

/-- A page of an arm64e cache with an authenticated pointer and a tagged one to `0x180004000`. -/
def authPage : AuthPage where
  toDataPage := taggedPage [0, 8] fun i => if i = 8 then some 0x80 else none
  authData i := if i = 0 then some ⟨0x1234, 1, 2⟩ else none

/-- The cache of that page, with signatures in the upper 16 bits. -/
theorem roundTripsV3_authPage :
    RoundTripsV3 (fun _ diversity _ _ target => target ||| (diversity.setWidth 64 <<< 48)) .arm64e
      ⟨0x180000000, 0x180010000⟩ 4096 0x8000 [authPage] :=
  roundTripsV3 _ rfl (by decide) (by decide) rfl (fun data mem => by
    obtain rfl := List.mem_singleton.mp mem
    have value : ∀ i, authPage.bitmap i = true → i = 0 ∨ i = 8 := fun i set => by
      simpa [authPage, taggedPage] using set
    refine ⟨fun i set => ?_, fun i set => ?_, fun i set => ?_, fun i set => ?_⟩ <;>
      · rcases value i set with rfl | rfl
        · decide
        · decide) 0x8000

end ObjcDyld.SlideInfo
