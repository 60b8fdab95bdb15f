import ObjcDyld.SlideInfo.Pointers64

/-!
# Pointers of 32 bits

Links of two or three bits do not reach far: the builder steals words that hold
no pointer, and starts new chains in the extras where it finds none.  A page
comes back in all its words.  Version 4 marks a page without rebases by a start
that says the page has extras, and there may be none yet.
-/

namespace ObjcDyld.SlideInfo

open SpareBits

/-- The 32-bit caches with slide info: the version and the architecture. -/
inductive Format where
  /-- Version 2 for armv7s and armv7k. -/
  | armv7
  /-- Version 4 for arm64_32. -/
  | arm64_32
  deriving DecidableEq, Repr

namespace Format

def version : Format → Version 32
  | armv7 => version2 pointer32
  | arm64_32 => version4

def layout : Format → ArchLayout
  | armv7 => .armv7s
  | arm64_32 => .arm64_32

/-- The number of bits beside the delta mask. -/
def valueBits : Format → ℕ
  | armv7 => 29
  | arm64_32 => 30

end Format

/--
The rebase locations of a page of a 32-bit cache whose region has `regionSize`
bytes: their targets are at least 32KB away from its first and its last byte.
-/
structure Recorded32 (format : Format) (regionSize : ℕ) (data : DataPage) : Prop where
  inside : ∀ i, data.bitmap i = true → i < pageWords
  above : ∀ i, data.bitmap i = true →
    format.layout.sharedMemoryStart + 0x8000 ≤ (data.content i).toNat
  below : ∀ i, data.bitmap i = true →
    (data.content i).toNat + 0x8000 < format.layout.sharedMemoryStart + regionSize

/-- The original target plus the slide. -/
def slidPointer (slide : BitVec 32) (data : DataPage) (i : ℕ) : BitVec 32 := data.content i + slide

/-- The value that a word has after the loader. -/
def restoredWord (slide : BitVec 32) (data : DataPage) (i : ℕ) : BitVec 32 :=
  if data.bitmap i then slidPointer slide data i else data.content i

/-! ## Values that are no pointers -/

theorem and_high_eq_zero {value : BitVec 32} (small : value &&& 0xFFFF8000 = 0) :
    value.toNat < 0x8000 := by
  have low := congrArg BitVec.toNat (and_not_eq_self small)
  rw [BitVec.toNat_and] at low
  exact Nat.lt_of_le_of_lt (low ▸ Nat.and_le_right) (by decide)

theorem toNat_le_of_and_eq {value mask : BitVec 32} (all : value &&& mask = mask) :
    mask.toNat ≤ value.toNat := by
  have same := congrArg BitVec.toNat all
  rw [BitVec.toNat_and] at same
  exact same ▸ Nat.and_le_left

theorem and_not_or_self {value mask : BitVec 32} (all : value &&& mask = mask) :
    (value &&& ~~~mask) ||| mask = value := by
  ext i hi
  have here : (value &&& mask)[i] = mask[i] := by rw [all]
  simp only [BitVec.getElem_and] at here
  simp only [BitVec.getElem_or, BitVec.getElem_and, BitVec.getElem_not]
  revert here
  cases value[i] <;> cases mask[i] <;> simp

theorem version4_slid_small {value valueAdd slide : BitVec 32} (small : smallValue value = true) :
    version4.slid valueAdd slide (value &&& ~~~0xC0000000) = value := by
  simp only [smallValue, Bool.or_eq_true, decide_eq_true_eq] at small
  simp only [version4]
  rcases small with positive | negative
  · have spare : value &&& 0xC0000000 = 0 := by
      rw [show (0xC0000000 : BitVec 32) = 0xFFFF8000 &&& 0xC0000000 from rfl, ← BitVec.and_assoc,
        positive]
      exact BitVec.zero_and
    rw [and_not_eq_self spare, if_pos positive]
  · have middle : value &&& 0x3FFF8000 = 0x3FFF8000 := by
      rw [show (0x3FFF8000 : BitVec 32) = 0xFFFF8000 &&& 0x3FFF8000 from rfl, ← BitVec.and_assoc,
        negative]
    have high : value &&& 0xC0000000 = 0xC0000000 := by
      rw [show (0xC0000000 : BitVec 32) = 0xFFFF8000 &&& 0xC0000000 from rfl, ← BitVec.and_assoc,
        negative]
    have first : value &&& ~~~0xC0000000 &&& 0xFFFF8000 = 0x3FFF8000 := by
      rw [BitVec.and_assoc]
      exact middle
    have second : value &&& ~~~0xC0000000 &&& 0x3FFF8000 = 0x3FFF8000 := by
      rw [BitVec.and_assoc]
      exact middle
    rw [first, second, if_neg (by decide), if_pos rfl, and_not_or_self high]

/-! ## Encoding -/

section Encoding

variable {format : Format} {regionSize : ℕ} {data : DataPage}

/-- What the versions need of the values they put into words of 32 bits. -/
structure Plain (version : Version 32) (info : Info) (slide : BitVec 32) (data : DataPage) : Prop where
  pointer : version.pointer = pointer32
  tag : ∀ high8, version.tag high8 = 0
  spare : ∀ i, data.bitmap i = true → (data.content i - info.add 32) &&& info.mask 32 = 0
  large : ∀ i, data.bitmap i = true → version.small (data.content i) = false
  slid : ∀ i, data.bitmap i = true →
    version.slid (info.add 32) slide ((data.content i - info.add 32) &&& ~~~(info.mask 32)) =
      slidPointer slide data i
  stolen : ∀ value, version.small value = true →
    version.slid (info.add 32) slide (value &&& ~~~(info.mask 32)) = value

theorem Plain.encodable {version : Version 32} {info : Info} {slide : BitVec 32} {s n : ℕ}
    (plain : Plain version info slide data) (field : info.Field 32 s n)
    (inside : ∀ i, data.bitmap i = true → i < pageWords) :
    Encodable version info slide data (restoredWord slide data) := by
  have getP : ∀ i, version.pointer.getP data.content i = data.content i := fun i => by
    rw [plain.pointer]
    rfl
  have span : version.pointer.span = 1 := by
    rw [plain.pointer]
    rfl
  have location : ∀ i, data.bitmap i = true →
      restoredWord slide data i = slidPointer slide data i := fun i set => if_pos set
  have other : ∀ i, data.bitmap i = false → restoredWord slide data i = data.content i :=
    fun i clear => if_neg (by rw [clear]; exact Bool.false_ne_true)
  refine {
    inside := fun i set => by rw [span]; exact inside i set
    apart := fun i j _ _ before => by rw [span]; exact before
    within := fun i set => by rw [getP]; exact plain.spare i set
    near := fun i j setI _ _ delta _ reach => ?_
    far := fun _ i set delta _ reach => ?_
    ends := fun i set _ => ?_
    stolen := fun _ i clear small delta _ reach => ?_
    single := fun _ => span
    keeps := fun i clear => by rw [getP]; exact other i clear }
  · rw [getP, plain.tag, location i setI]
    exact (BitVec.or_zero).symm ▸ decodes_link field reach (plain.slid i setI)
  · rw [getP, linkValue, plain.large i set, location i set]
    exact decodes_link field reach (plain.slid i set)
  · rw [getP, location i set]
    exact decodes_end field (plain.slid i set)
  · rw [getP] at small ⊢
    rw [linkValue, small, other i clear]
    exact decodes_link field reach (plain.stolen _ small)

theorem field32 (format : Format) :
    (Info.fixed format.layout).Field 32 (format.valueBits - 2) (32 - format.valueBits) := by
  cases format with
  | armv7 => exact ⟨by decide, by decide +kernel, by decide +kernel, by decide, by decide⟩
  | arm64_32 => exact ⟨by decide, by decide +kernel, by decide +kernel, by decide, by decide⟩

theorem mask32 (format : Format) :
    (Info.fixed format.layout).mask 32 = ~~~(BitVec.ofNat 32 (2 ^ format.valueBits - 1)) := by
  cases format with
  | armv7 => decide
  | arm64_32 => decide

theorem add32 (format : Format) :
    (Info.fixed format.layout).add 32 = BitVec.ofNat 32 0x1A000000 := by
  cases format with
  | armv7 => decide
  | arm64_32 => decide

theorem Recorded32.offset (recorded : Recorded32 format regionSize data) {i : ℕ}
    (set : data.bitmap i = true) :
    (data.content i - (Info.fixed format.layout).add 32).toNat + 0x1A000000 =
      (data.content i).toNat := by
  have above := recorded.above i set
  have start : format.layout.sharedMemoryStart = 0x1A000000 := by cases format <;> rfl
  rw [start] at above
  rw [add32, BitVec.toNat_sub_of_le (by rw [BitVec.le_def, BitVec.toNat_ofNat]; omega),
    BitVec.toNat_ofNat]
  omega

theorem and_not_ofNat_eq_zero {value : BitVec 32} {bits : ℕ} (small : value.toNat < 2 ^ bits) :
    value &&& ~~~(BitVec.ofNat 32 (2 ^ bits - 1)) = 0 := by
  apply BitVec.eq_of_getLsbD_eq
  intro i hi
  rw [BitVec.getLsbD_and, BitVec.getLsbD_not, BitVec.getLsbD_ofNat, Nat.testBit_two_pow_sub_one]
  by_cases low : i < bits
  · simp [hi, low]
  · have clear : value.getLsbD i = false := by
      rw [BitVec.getLsbD, Nat.testBit_lt_two_pow
        (Nat.lt_of_lt_of_le small (Nat.pow_le_pow_right Nat.two_pos (Nat.le_of_not_lt low)))]
    simp [clear]

theorem Recorded32.plain (recorded : Recorded32 format regionSize data)
    (region : regionSize ≤ 2 ^ format.valueBits) (slide : BitVec 32) :
    Plain format.version (Info.fixed format.layout) slide data := by
  have start : format.layout.sharedMemoryStart = 0x1A000000 := by cases format <;> rfl
  have spare : ∀ i, data.bitmap i = true →
      (data.content i - (Info.fixed format.layout).add 32) &&&
        (Info.fixed format.layout).mask 32 = 0 := by
    intro i set
    rw [mask32]
    refine and_not_ofNat_eq_zero ?_
    have := recorded.offset set
    have := recorded.below i set
    omega
  have back : ∀ i, (data.content i - (Info.fixed format.layout).add 32) +
      (Info.fixed format.layout).add 32 + slide = slidPointer slide data i := fun i => by
    rw [slidPointer, BitVec.sub_add_cancel]
  cases format with
  | armv7 =>
      refine ⟨rfl, fun high8 => ?_, spare, fun i set => ?_, fun i set => ?_, fun value small => ?_⟩
      · cases high8 with
        | none => rfl
        | some high8 =>
            apply BitVec.eq_of_toNat_eq
            change (((high8.setWidth 64 <<< 56).setWidth 32 : BitVec 32)).toNat = 0
            rw [BitVec.toNat_setWidth, BitVec.toNat_shiftLeft, BitVec.toNat_setWidth,
              Nat.shiftLeft_eq]
            omega
      · have above := recorded.above i set
        refine decide_eq_false fun zero => ?_
        rw [zero] at above
        exact Nat.not_lt_zero _ above
      · rw [and_not_eq_self (spare i set), ← back]
        refine if_pos fun zero => ?_
        have offset := recorded.offset set
        have above := recorded.above i set
        rw [zero] at offset
        have : (0 : BitVec 32).toNat = 0 := rfl
        omega
      · obtain rfl : value = 0 := of_decide_eq_true small
        rw [show (0 : BitVec 32) &&& _ = 0 from BitVec.zero_and]
        rfl
  | arm64_32 =>
      refine ⟨rfl, fun _ => rfl, spare, fun i set => ?_, fun i set => ?_, fun value small => ?_⟩
      · have above := recorded.above i set
        have below := recorded.below i set
        have size : regionSize ≤ 2 ^ 30 := region
        change smallValue _ = false
        rw [Bool.eq_false_iff]
        intro small
        simp only [smallValue, Bool.or_eq_true, decide_eq_true_eq] at small
        rcases small with positive | negative
        · have := and_high_eq_zero positive
          omega
        · have high := toNat_le_of_and_eq negative
          rw [show (0xFFFF8000 : BitVec 32).toNat = 0xFFFF8000 from rfl] at high
          omega
      · have above := recorded.above i set
        have below := recorded.below i set
        have offset := recorded.offset set
        have size : regionSize ≤ 2 ^ 30 := region
        rw [and_not_eq_self (spare i set), ← back]
        refine (if_neg fun positive => ?_).trans (if_neg fun negative => ?_)
        · have := and_high_eq_zero positive
          omega
        · have high := toNat_le_of_and_eq negative
          rw [show (0x3FFF8000 : BitVec 32).toNat = 0x3FFF8000 from rfl] at high
          omega
      · exact version4_slid_small small

end Encoding

/-! ## The round trip -/

theorem writeSlideInfo32_spec (format : Format) {sizeInUse regionSize : ℕ}
    (region : regionSize ≤ 2 ^ format.valueBits) (bound : sizeInUse ≤ regionSize)
    {pages : List DataPage} (count : pages.length = dataPageCount sizeInUse)
    (recorded : ∀ data ∈ pages, Recorded32 format regionSize data) (slide : BitVec 32) :
    ((Reports format.version format.layout sizeInUse pages ∨
        RoundTrips format.version format.layout sizeInUse slide (slidPointer slide) pages) ∧
        MarksExtras format.version format.layout pages) ∨
      (writeSlideInfo format.version format.layout sizeInUse pages = .error .emptyBack ∧
        ¬ MarksExtras format.version format.layout pages) := by
  have short : pages.length ≤ 2 ^ 20 := by
    have bits : format.valueBits ≤ 30 := by cases format <;> decide
    have : 2 ^ format.valueBits ≤ 2 ^ 30 := Nat.pow_le_pow_right Nat.two_pos bits
    rw [count, dataPageCount]
    omega
  obtain ⟨bits, lawful⟩ : ∃ bits, format.version.attributes.Lawful bits := by
    cases format with
    | armv7 => exact ⟨14, attributesV2_lawful⟩
    | arm64_32 => exact ⟨15, attributesV4_lawful⟩
  have encodable : ∀ data ∈ pages, Encodable format.version (Info.fixed format.layout) slide data
      (restoredWord slide data) := fun data mem =>
    ((recorded data mem).plain region slide).encodable (field32 format) (recorded data mem).inside
  rcases (writeSlideInfo_spec lawful encodable short :
      (RoundTrips format.version format.layout sizeInUse slide (restoredWord slide) pages ∧ _) ∨
        _) with ⟨trips, marks⟩ | ⟨reports, marks, -⟩ | fails
  · refine Or.inl ⟨Or.inr ((trips.expected_iff _).mpr fun data mem i set => ?_), marks⟩
    exact (if_pos set).symm
  · exact Or.inl ⟨Or.inl reports, marks⟩
  · exact Or.inr fails

theorem not_reports_or_roundTrips {format : Format} {sizeInUse : ℕ} {pages : List DataPage}
    (fails : writeSlideInfo format.version format.layout sizeInUse pages = .error .emptyBack)
    (slide : BitVec 32) :
    ¬ (Reports format.version format.layout sizeInUse pages ∨
      RoundTrips format.version format.layout sizeInUse slide (slidPointer slide) pages) := by
  rintro (⟨failure, run, reported⟩ | ⟨_, _, _, run, -⟩)
  · rw [fails] at run
    obtain rfl := Except.error.inj run
    cases reported
  · rw [fails] at run
    cases run

/--
When the builder reports no error, the loader slides every location and leaves
every other word as it was, exactly when version 4 meets no page without rebases
before a page that needs extras.
-/
theorem reports_or_roundTrips_iff (format : Format) {sizeInUse regionSize : ℕ}
    (region : regionSize ≤ 2 ^ format.valueBits) (bound : sizeInUse ≤ regionSize)
    {pages : List DataPage} (count : pages.length = dataPageCount sizeInUse)
    (recorded : ∀ data ∈ pages, Recorded32 format regionSize data) (slide : BitVec 32) :
    (Reports format.version format.layout sizeInUse pages ∨
        RoundTrips format.version format.layout sizeInUse slide (slidPointer slide) pages) ↔
      (format = .arm64_32 →
        EmptyAfterExtras format.version (Info.fixed format.layout) pages) := by
  have marks : MarksExtras format.version format.layout pages ↔
      (format = .arm64_32 → EmptyAfterExtras format.version (Info.fixed format.layout) pages) := by
    cases format with
    | armv7 => exact iff_of_true (Or.inl rfl) (fun other => nomatch other)
    | arm64_32 => exact ⟨fun either _ => either.resolve_left (by decide), fun after => Or.inr (after rfl)⟩
  rw [← marks]
  rcases writeSlideInfo32_spec format region bound count recorded slide with
    ⟨holds, after⟩ | ⟨fails, before⟩
  · exact iff_of_true holds after
  · exact iff_of_false (not_reports_or_roundTrips fails slide) before

/-- A page of an arm64_32 cache with pointers to `0x1A010000` in some of its words. -/
def page32 (locations : List ℕ) : DataPage where
  content i := if i ∈ locations then 0x1A010000 else BitVec.ofNat 32 (0xFFFF0000 + i)
  bitmap i := i ∈ locations
  high8 _ := none

theorem page32_recorded {locations : List ℕ} (inside : ∀ i ∈ locations, i < pageWords)
    (format : Format) : Recorded32 format 0x20000000 (page32 locations) := by
  have start : format.layout.sharedMemoryStart = 0x1A000000 := by cases format <;> rfl
  have value : ∀ i, (page32 locations).bitmap i = true →
      (page32 locations).content i = 0x1A010000 := fun i set => if_pos (of_decide_eq_true set)
  refine ⟨fun i set => inside i (of_decide_eq_true set), fun i set => ?_, fun i set => ?_⟩
  · rw [value i set, start]
    decide
  · rw [value i set, start]
    decide

/-- A page whose two locations cannot be linked comes back, and so does an empty page after it. -/
theorem reports_or_roundTrips_extras :
    Reports version4 .arm64_32 8192 [page32 [1, 9], page32 []] ∨
      RoundTrips version4 .arm64_32 8192 0x4000 (slidPointer 0x4000)
        [page32 [1, 9], page32 []] := by
  refine (reports_or_roundTrips_iff .arm64_32 (show 0x20000000 ≤ 2 ^ 30 by decide)
    (show 8192 ≤ 0x20000000 by norm_num) rfl (fun data mem => ?_) 0x4000).mpr fun _ => ?_
  · rcases List.mem_cons.mp mem with rfl | mem
    · exact page32_recorded (by decide) .arm64_32
    · obtain rfl := List.mem_singleton.mp mem
      exact page32_recorded (by decide) .arm64_32
  · intro before data after split empty
    refine ⟨page32 [1, 9], ?_, 1, 9, by decide, by decide, rfl, rfl, ?_, by decide +kernel, ?_⟩
    · cases before with
      | nil =>
          obtain ⟨rfl, -⟩ := List.cons.inj split
          exact absurd (empty 1 (by decide)) (by decide)
      | cons first before =>
          obtain ⟨rfl, -⟩ := List.cons.inj split
          exact List.mem_cons_self
    · intro k low high
      interval_cases k <;> rfl
    · decide +kernel

/-- The first page of a cache has no rebases. -/
theorem not_reports_or_roundTrips_empty :
    Recorded32 .arm64_32 0x20000000 (page32 []) ∧
      ¬ (Reports version4 .arm64_32 4096 [page32 []] ∨
        RoundTrips version4 .arm64_32 4096 0x4000 (slidPointer 0x4000) [page32 []]) := by
  have recorded : Recorded32 .arm64_32 0x20000000 (page32 []) :=
    page32_recorded (by decide) .arm64_32
  refine ⟨recorded, ?_⟩
  rcases writeSlideInfo32_spec .arm64_32 (show 0x20000000 ≤ 2 ^ 30 by decide)
      (show 4096 ≤ 0x20000000 by norm_num) rfl (fun data mem => List.mem_singleton.mp mem ▸ recorded)
      0x4000 with ⟨-, marks⟩ | ⟨fails, -⟩
  · have after := marks.resolve_left (by decide)
    obtain ⟨earlier, mem, -⟩ := after [] (page32 []) [] rfl fun j _ => rfl
    cases mem
  · exact not_reports_or_roundTrips fails 0x4000

end ObjcDyld.SlideInfo
