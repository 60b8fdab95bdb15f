import ObjcDyld.SlideInfo.RoundTrip

/-!
# Tagged pointers of 64 bits

Version 2 for 64-bit pointers links every two locations of a page directly.  The
link is written together with the high-8 tag, but the end of a chain is written
without: the last location of a page comes back without its tag.
-/

namespace ObjcDyld.SlideInfo

open SpareBits

section Packing

variable {w : ℕ}

/-- The links of the slide info are numbers of `n` bits from bit `s + 2` on. -/
structure Info.Field (info : Info) (w s n : ℕ) : Prop where
  mask : info.mask w = field w (s + 2) n
  shift : info.deltaShift w = s
  maxDelta : info.maxDelta w = 4 * (2 ^ n - 1)
  fits : s + 2 + n ≤ w
  bits : n ≤ 16

variable {version : Version w} {info : Info} {slide : BitVec w} {s n : ℕ}

namespace Info.Field

variable {delta : ℕ}

theorem lt_of_le (field : info.Field w s n) (reach : 4 * delta ≤ info.maxDelta w) :
    delta < 2 ^ n := by
  have := field.maxDelta
  have := Nat.two_pow_pos n
  omega

theorem link_eq (field : info.Field w s n) :
    info.link w (4 * delta) = BitVec.ofNat w delta <<< (s + 2) := by
  apply BitVec.eq_of_toNat_eq
  rw [Info.link, field.shift, BitVec.toNat_shiftLeft, BitVec.toNat_shiftLeft, BitVec.toNat_ofNat,
    BitVec.toNat_ofNat, Nat.shiftLeft_eq, Nat.shiftLeft_eq, Nat.mod_mul_mod, Nat.mod_mul_mod,
    Nat.pow_add]
  congr 1
  ring

theorem link_and_mask (field : info.Field w s n) (reach : 4 * delta ≤ info.maxDelta w) :
    info.link w (4 * delta) &&& info.mask w = info.link w (4 * delta) := by
  rw [field.link_eq, field.mask, ofNat_shiftLeft_and_field (field.lt_of_le reach)]

theorem link_shiftRight (field : info.Field w s n) (reach : 4 * delta ≤ info.maxDelta w) :
    (info.link w (4 * delta) >>> info.deltaShift w).toNat % 2 ^ 32 = 4 * delta := by
  have small := field.lt_of_le reach
  have room : 2 ^ n * 2 ^ (s + 2) ≤ 2 ^ w := by
    rw [← Nat.pow_add]
    exact Nat.pow_le_pow_right (by decide) (by have := field.fits; omega)
  have bits : 2 ^ n ≤ 2 ^ 16 := Nat.pow_le_pow_right (by decide) field.bits
  have fits : 4 * delta * 2 ^ s < 2 ^ w := by
    have less : delta * 2 ^ (s + 2) < 2 ^ n * 2 ^ (s + 2) :=
      Nat.mul_lt_mul_of_pos_right small (Nat.two_pow_pos _)
    rw [show delta * 2 ^ (s + 2) = 4 * delta * 2 ^ s by rw [Nat.pow_add]; ring] at less
    exact Nat.lt_of_lt_of_le less room
  rw [Info.link, field.shift, toNat_ofNat_shiftLeft_shiftRight fits, Nat.mod_eq_of_lt (by omega)]

end Info.Field

theorem decodes_link (field : info.Field w s n) {value final : BitVec w} {delta : ℕ}
    (reach : 4 * delta ≤ info.maxDelta w)
    (slid : version.slid (info.add w) slide (value &&& ~~~(info.mask w)) = final) :
    Decodes version info slide ((value &&& ~~~(info.mask w)) ||| info.link w (4 * delta)) delta
      final := by
  have inside := field.link_and_mask reach
  refine ⟨?_, ?_⟩
  · rw [pack_and _ _ _ inside, field.link_shiftRight reach]
  · rwa [pack_and_not _ _ _ inside]

theorem decodes_end (field : info.Field w s n) {value final : BitVec w}
    (slid : version.slid (info.add w) slide (value &&& ~~~(info.mask w)) = final) :
    Decodes version info slide (value &&& ~~~(info.mask w)) 0 final := by
  have reach : 4 * 0 ≤ info.maxDelta w := Nat.zero_le _
  have packed := decodes_link field reach slid
  have none : info.link w (4 * 0) = 0#w := by
    rw [field.link_eq]
    exact BitVec.zero_shiftLeft _
  rwa [none, BitVec.or_zero] at packed

end Packing

/-! ## The 64-bit caches of version 2 -/

/-- The rebase locations of a page of a 64-bit cache. -/
structure Recorded64 (layout : ArchLayout) (data : DataPage) : Prop where
  inside : ∀ i, data.bitmap i = true → i + 2 ≤ pageWords
  apart : ∀ i j, data.bitmap i = true → data.bitmap j = true → i < j → i + 2 ≤ j
  above : ∀ i, data.bitmap i = true →
    layout.sharedMemoryStart < (pointer64.getP data.content i).toNat
  spare : ∀ i, data.bitmap i = true →
    (pointer64.getP data.content i - (Info.fixed layout).valueAdd) &&& layout.pointerDeltaMask = 0
  /-- A tagged pointer is an address with room for the tag. -/
  address : ∀ i, data.bitmap i = true → data.high8 i ≠ none →
    (pointer64.getP data.content i).toNat < 2 ^ 56

/-- The tag of a location in the top byte. -/
def tagBits (data : DataPage) (i : ℕ) : BitVec 64 := (version2 pointer64).tag (data.high8 i)

/-- The original address plus the slide, with the tag in the top byte. -/
def taggedPointer (slide : BitVec 64) (data : DataPage) (i : ℕ) : BitVec 64 :=
  pointer64.getP data.content i + slide + tagBits data i

/-- Whether a page has a location after the word `i`. -/
def hasLater (data : DataPage) (i : ℕ) : Bool :=
  (List.range pageWords).any fun j => decide (i < j) && data.bitmap j

theorem hasLater_iff {layout : ArchLayout} {data : DataPage} (recorded : Recorded64 layout data)
    (i : ℕ) : hasLater data i = true ↔ ∃ j, i < j ∧ data.bitmap j = true := by
  simp only [hasLater, List.any_eq_true, List.mem_range, Bool.and_eq_true, decide_eq_true_eq]
  constructor
  · rintro ⟨j, -, after, set⟩
    exact ⟨j, after, set⟩
  · rintro ⟨j, after, set⟩
    have := recorded.inside j set
    exact ⟨j, by omega, after, set⟩

/-- The value that the loader leaves in a word: the last location of a page has no tag. -/
def loadedPointer (slide : BitVec 64) (data : DataPage) (i : ℕ) : BitVec 64 :=
  if data.bitmap i then
    pointer64.getP data.content i + slide + (if hasLater data i then tagBits data i else 0)
  else pointer64.getP data.content i

theorem field64 {layout : ArchLayout} (mask : layout.pointerDeltaMask = 0x00FFFF0000000000) :
    (Info.fixed layout).Field 64 38 16 := by
  have bits : (Info.fixed layout).mask 64 = 0x00FFFF0000000000#64 := by
    simp only [Info.mask, Info.fixed, mask, BitVec.setWidth_eq]
    rfl
  refine ⟨?_, ?_, ?_, by decide, by decide⟩
  · rw [bits]
    decide
  · rw [Info.deltaShift, bits]
    decide +kernel
  · rw [Info.maxDelta, Info.deltaShift, bits]
    decide +kernel

theorem tag_and_mask (high8 : Option (BitVec 8)) :
    (version2 pointer64).tag high8 &&& 0x00FFFF0000000000 = 0 := by
  cases high8 with
  | none => exact BitVec.zero_and
  | some high8 =>
      rw [BitVec.and_comm]
      refine (congrArg _ (BitVec.setWidth_eq _)).trans (and_shiftLeft_eq_zero ?_ _)
      decide

section Encoding

variable {layout : ArchLayout} {data : DataPage}

/-- The value that the builder writes and the loader adds back is none or the cache base. -/
structure ArchLayout.Based (layout : ArchLayout) : Prop where
  mask : layout.pointerDeltaMask = 0x00FFFF0000000000
  valueAdd : (Info.fixed layout).valueAdd = BitVec.ofNat 64 layout.sharedMemoryStart ∨
    (Info.fixed layout).valueAdd = 0
  start : layout.sharedMemoryStart < 2 ^ 64

theorem Recorded64.sub_ne_zero (based : layout.Based) (recorded : Recorded64 layout data) {i : ℕ}
    (set : data.bitmap i = true) :
    pointer64.getP data.content i - (Info.fixed layout).valueAdd ≠ 0 := by
  have above := recorded.above i set
  intro zero
  have same := BitVec.sub_eq_iff_eq_add.mp zero
  rcases based.valueAdd with base | none
  · rw [same, base, zero_add, BitVec.toNat_ofNat, Nat.mod_eq_of_lt based.start] at above
    exact Nat.lt_irrefl _ above
  · rw [same, none] at above
    exact Nat.not_lt_zero _ above

theorem Recorded64.sub_and_tag (based : layout.Based) (recorded : Recorded64 layout data) {i : ℕ}
    (set : data.bitmap i = true) :
    (pointer64.getP data.content i - (Info.fixed layout).valueAdd) &&& tagBits data i = 0 := by
  rw [tagBits]
  cases tagged : data.high8 i with
  | none => exact BitVec.and_zero
  | some high8 =>
      have address := recorded.address i set (by simp [tagged])
      have above := recorded.above i set
      refine (congrArg _ (BitVec.setWidth_eq _)).trans (and_shiftLeft_eq_zero ?_ _)
      rcases based.valueAdd with base | none
      · have small := Nat.mod_eq_of_lt based.start
        rw [base, BitVec.toNat_sub_of_le (by
          rw [BitVec.le_def, BitVec.toNat_ofNat, small]
          exact Nat.le_of_lt above)]
        omega
      · rw [none, sub_zero]
        exact address

theorem Recorded64.slid (based : layout.Based) (recorded : Recorded64 layout data) {i : ℕ}
    (set : data.bitmap i = true) (slide : BitVec 64) {tag : BitVec 64}
    (tagged : tag = tagBits data i ∨ tag = 0) :
    (version2 pointer64).slid ((Info.fixed layout).add 64) slide
        ((pointer64.getP data.content i - (Info.fixed layout).add 64 ||| tag) &&&
          ~~~((Info.fixed layout).mask 64)) =
      pointer64.getP data.content i + slide + tag := by
  have add : (Info.fixed layout).add 64 = (Info.fixed layout).valueAdd := BitVec.setWidth_eq _
  have mask : (Info.fixed layout).mask 64 = layout.pointerDeltaMask := BitVec.setWidth_eq _
  have some := recorded.sub_ne_zero based set
  have apart : (pointer64.getP data.content i - (Info.fixed layout).valueAdd) &&& tag = 0 := by
    rcases tagged with rfl | rfl
    · exact recorded.sub_and_tag based set
    · exact BitVec.and_zero
  have spare : (pointer64.getP data.content i - (Info.fixed layout).valueAdd ||| tag) &&&
      layout.pointerDeltaMask = 0 := by
    have tagSpare : tag &&& layout.pointerDeltaMask = 0 := by
      rcases tagged with rfl | rfl
      · rw [based.mask]
        exact tag_and_mask _
      · exact BitVec.zero_and
    rw [BitVec.and_or_distrib_right, recorded.spare i set, tagSpare]
    rfl
  rw [add, mask, and_not_eq_self spare]
  have sum := (BitVec.add_eq_or_of_and_eq_zero _ _ apart).symm
  have nonzero : pointer64.getP data.content i - (Info.fixed layout).valueAdd ||| tag ≠ 0 := by
    intro zero
    exact some (BitVec.or_eq_zero_iff.mp zero).1
  refine (if_pos nonzero).trans ?_
  rw [sum]
  ring

theorem Recorded64.encodable (based : layout.Based) (recorded : Recorded64 layout data)
    (slide : BitVec 64) :
    Encodable (version2 pointer64) (Info.fixed layout) slide data (loadedPointer slide data) := by
  have field := field64 based.mask
  have reach : ¬ (Info.fixed layout).maxDelta 64 < 4 * pageWords := by
    rw [field.maxDelta]
    decide
  refine {
    inside := recorded.inside
    apart := recorded.apart
    within := fun i set => ?_
    near := fun i j setI setJ before delta positive bound => ?_
    far := fun short => absurd short reach
    ends := fun i set either => ?_
    stolen := fun short => absurd short reach
    single := fun short => absurd short reach
    keeps := fun i clear => ?_ }
  · have add : (Info.fixed layout).add 64 = (Info.fixed layout).valueAdd := BitVec.setWidth_eq _
    have mask : (Info.fixed layout).mask 64 = layout.pointerDeltaMask := BitVec.setWidth_eq _
    rw [add, mask]
    exact recorded.spare i set
  · have later : hasLater data i = true := (hasLater_iff recorded i).mpr ⟨j, before, setJ⟩
    have loaded : loadedPointer slide data i =
        pointer64.getP data.content i + slide + tagBits data i := by
      rw [loadedPointer, if_pos setI, if_pos later]
    rw [loaded]
    have decodes := decodes_link field bound (recorded.slid based setI slide (Or.inl rfl))
    have beside : tagBits data i &&& ~~~((Info.fixed layout).mask 64) = tagBits data i :=
      and_not_eq_self (by
        rw [show (Info.fixed layout).mask 64 = layout.pointerDeltaMask from BitVec.setWidth_eq _,
          based.mask]
        exact tag_and_mask _)
    rw [BitVec.and_or_distrib_right, beside, BitVec.or_assoc, BitVec.or_comm (tagBits data i),
      ← BitVec.or_assoc] at decodes
    exact decodes
  · have last := either.resolve_left reach
    have none : hasLater data i = false := by
      by_contra some
      obtain ⟨j, after, set⟩ := (hasLater_iff recorded i).mp (Bool.not_eq_false _ ▸ some)
      rw [last j after] at set
      cases set
    have loaded : loadedPointer slide data i = pointer64.getP data.content i + slide + 0 := by
      rw [loadedPointer, if_pos set, none]
      rfl
    have decodes := decodes_end field (recorded.slid based set slide (Or.inr rfl))
    rw [loaded]
    rw [show pointer64.getP data.content i - (Info.fixed layout).add 64 ||| 0 =
      pointer64.getP data.content i - (Info.fixed layout).add 64 from BitVec.or_zero] at decodes
    exact decodes
  · rw [loadedPointer, clear]
    rfl

end Encoding

/-! ## The round trip -/

section Trip

variable {layout : ArchLayout}

theorem based_of_row (row : layout = .x86_64 ∨ layout = .arm64) : layout.Based := by
  rcases row with rfl | rfl
  · exact ⟨rfl, Or.inl rfl, by decide⟩
  · exact ⟨rfl, Or.inr rfl, by decide⟩

theorem tagBits_eq_zero_iff (data : DataPage) (i : ℕ) :
    tagBits data i = 0 ↔ data.high8 i = none ∨ data.high8 i = some 0 := by
  rw [tagBits]
  cases data.high8 i with
  | none => exact iff_of_true rfl (Or.inl rfl)
  | some high8 =>
      have low := high8.isLt
      have toNat : ((version2 pointer64).tag (some high8)).toNat = high8.toNat * 2 ^ 56 := by
        simp only [version2, BitVec.setWidth_eq]
        rw [BitVec.toNat_shiftLeft, BitVec.toNat_setWidth, Nat.shiftLeft_eq]
        omega
      constructor
      · intro zero
        rw [zero] at toNat
        refine Or.inr (congrArg some (BitVec.eq_of_toNat_eq ?_))
        have : (0 : BitVec 64).toNat = 0 := rfl
        have : (0 : BitVec 8).toNat = 0 := rfl
        omega
      · intro either
        obtain rfl := Option.some.inj (either.resolve_left (Option.some_ne_none high8))
        decide

theorem roundTrips_loadedPointer (row : layout = .x86_64 ∨ layout = .arm64) {sizeInUse : ℕ}
    (bound : sizeInUse ≤ layout.sharedMemorySize) {pages : List DataPage}
    (count : pages.length = dataPageCount sizeInUse)
    (recorded : ∀ data ∈ pages, Recorded64 layout data) (slide : BitVec 64) :
    RoundTrips (version2 pointer64) layout sizeInUse slide (loadedPointer slide) pages := by
  have based := based_of_row row
  have sizes : layout.sharedMemorySize ≤ 2 ^ 32 ∧ layout.slideInfoBytesPerPage = 2 := by
    rcases row with rfl | rfl <;> exact ⟨by decide, rfl⟩
  have short : pages.length ≤ 2 ^ 20 := by
    rw [count, dataPageCount]
    omega
  rcases (writeSlideInfo_spec attributesV2_lawful
      (fun data mem => (recorded data mem).encodable based slide) short :
      (RoundTrips (version2 pointer64) layout sizeInUse slide (loadedPointer slide) pages ∧ _) ∨
        _) with
    ⟨trips, -⟩ | ⟨-, -, needs | large⟩ | ⟨-, unmarked⟩
  · exact trips
  · -- Every two locations of a page are within reach of a link.
    obtain ⟨data, mem, i, j, -, before, -, -, -, cannot⟩ := needs
    have far := cannot.1
    rw [(field64 based.mask).maxDelta] at far
    have words : pageWords = 1024 := rfl
    omega
  · rw [count] at large
    exact absurd (starts_fit layout sizeInUse (Nat.le_of_eq sizes.2.symm)) (Nat.not_le_of_lt large)
  · exact absurd (Or.inl rfl) unmarked

/--
The round trip leaves every location with its address slid and its tag in the
top byte exactly when the last locations of the pages have no tag.
-/
theorem roundTrips_taggedPointer_iff (row : layout = .x86_64 ∨ layout = .arm64) {sizeInUse : ℕ}
    (bound : sizeInUse ≤ layout.sharedMemorySize) {pages : List DataPage}
    (count : pages.length = dataPageCount sizeInUse)
    (recorded : ∀ data ∈ pages, Recorded64 layout data) (slide : BitVec 64) :
    RoundTrips (version2 pointer64) layout sizeInUse slide (taggedPointer slide) pages ↔
      ∀ data ∈ pages, ∀ i, data.bitmap i = true → (∀ j, i < j → data.bitmap j = false) →
        data.high8 i = none ∨ data.high8 i = some 0 := by
  rw [(roundTrips_loadedPointer row bound count recorded slide).expected_iff (taggedPointer slide)]
  have same : ∀ data ∈ pages, ∀ i, data.bitmap i = true →
      (taggedPointer slide data i = loadedPointer slide data i ↔
        ((∀ j, i < j → data.bitmap j = false) → tagBits data i = 0)) := by
    intro data mem i set
    have later := hasLater_iff (recorded data mem) i
    rw [taggedPointer, loadedPointer, if_pos set, add_right_inj]
    by_cases more : hasLater data i = true
    · obtain ⟨j, after, setJ⟩ := later.mp more
      rw [if_pos more]
      refine iff_of_true rfl fun last => ?_
      rw [last j after] at setJ
      cases setJ
    · rw [if_neg more]
      have last : ∀ j, i < j → data.bitmap j = false := by
        intro j after
        by_contra setJ
        exact more (later.mpr ⟨j, after, Bool.not_eq_false _ ▸ setJ⟩)
      exact ⟨fun zero _ => zero, fun zero => zero last⟩
  constructor
  · intro holds data mem i set last
    exact (tagBits_eq_zero_iff data i).mp ((same data mem i set).mp (holds data mem i set) last)
  · intro holds data mem i set
    exact (same data mem i set).mpr fun last =>
      (tagBits_eq_zero_iff data i).mpr (holds data mem i set last)

/-- A page of an arm64 cache with tagged pointers to `0x180004000` in some of its words. -/
def taggedPage (locations : List ℕ) (high8 : ℕ → Option (BitVec 8)) : DataPage where
  content k := if k % 2 = 0 then 0x80004000 else 1
  bitmap i := i ∈ locations
  high8 := high8

theorem taggedPage_recorded {locations : List ℕ} (even : ∀ i ∈ locations, i % 2 = 0)
    (inside : ∀ i ∈ locations, i + 2 ≤ pageWords) (high8 : ℕ → Option (BitVec 8)) :
    Recorded64 .arm64 (taggedPage locations high8) := by
  have mem : ∀ i, (taggedPage locations high8).bitmap i = true → i ∈ locations := fun i set =>
    of_decide_eq_true set
  have value : ∀ i, (taggedPage locations high8).bitmap i = true →
      pointer64.getP (taggedPage locations high8).content i = 0x180004000 := by
    intro i set
    have low := even i (mem i set)
    have high : (i + 1) % 2 ≠ 0 := by omega
    simp only [pointer64, taggedPage, if_pos low, if_neg high]
    decide
  refine ⟨fun i set => inside i (mem i set), fun i j setI setJ before => ?_, fun i set => ?_,
    fun i set => ?_, fun i set _ => ?_⟩
  · have := even i (mem i setI)
    have := even j (mem j setJ)
    omega
  · rw [value i set]
    decide
  · rw [value i set]
    decide
  · rw [value i set]
    decide

/-- A page whose first location is tagged and whose last is not comes back. -/
theorem roundTrips_taggedPointer_two_locations :
    RoundTrips (version2 pointer64) .arm64 4096 0x1000 (taggedPointer 0x1000)
      [taggedPage [0, 8] fun i => if i = 0 then some 0x80 else none] :=
  (roundTrips_taggedPointer_iff (Or.inr rfl) (by decide) rfl
    (fun data mem => by
      obtain rfl := List.mem_singleton.mp mem
      exact taggedPage_recorded (by decide) (by decide) _) 0x1000).mpr (by
    intro data mem i set last
    obtain rfl := List.mem_singleton.mp mem
    refine Or.inl (if_neg ?_)
    rintro rfl
    exact absurd (last 8 (by decide)) (by decide))

/-- The only location of a page loses its tag. -/
theorem not_roundTrips_taggedPointer_single :
    Recorded64 .arm64 (taggedPage [0] fun _ => some 0x80) ∧
      ¬ RoundTrips (version2 pointer64) .arm64 4096 0x1000 (taggedPointer 0x1000)
        [taggedPage [0] fun _ => some 0x80] := by
  have recorded : Recorded64 .arm64 (taggedPage [0] fun _ => some 0x80) :=
    taggedPage_recorded (by decide) (by decide) _
  refine ⟨recorded, fun trips => ?_⟩
  have loads := roundTrips_loadedPointer (Or.inr rfl) (show 4096 ≤ _ by decide) rfl
    (fun data mem => by
      obtain rfl := List.mem_singleton.mp mem
      exact recorded) 0x1000
  have same := (loads.expected_iff _).mp trips _ List.mem_cons_self 0 rfl
  revert same
  decide +kernel

end Trip

end ObjcDyld.SlideInfo
