import ObjcDyld.Common.SpareBits
import ObjcDyld.Common.Loops

/-!
# Data pages of the shared cache

The data region as the builder and the loader see it: pages of 4-byte words with
pointers of one or two words in them, what the ASLR tracker recorded about the
pointers, and the architecture's layout.  A location is the index of a 4-byte
word in its page; the offset of the source is four times that.
-/

namespace ObjcDyld.SlideInfo

open Function (update update_self update_of_ne)

/-- A page by its 4-byte words. -/
abbrev Page := ℕ → BitVec 32

/-- The number of 4-byte words in a page of 4096 bytes. -/
def pageWords : ℕ := 1024

/--
`Pointer32<LittleEndian>` and `Pointer64<LittleEndian>`: how a pointer of `w`
bits lies in the words of a page.
-/
structure Pointer (w : ℕ) where
  /-- The number of words in a pointer. -/
  span : ℕ
  getP : Page → ℕ → BitVec w
  setP : Page → ℕ → BitVec w → Page
  span_pos : 0 < span
  get_set : ∀ page i value, getP (setP page i value) i = value
  set_other : ∀ page i value k, k < i ∨ i + span ≤ k → setP page i value k = page k
  get_eq_iff : ∀ page page' i,
    getP page i = getP page' i ↔ ∀ k, i ≤ k → k < i + span → page k = page' k

def pointer32 : Pointer 32 where
  span := 1
  getP page i := page i
  setP page i value := update page i value
  span_pos := Nat.one_pos
  get_set _ _ _ := update_self ..
  set_other _ i _ k away := by
    have ne : k ≠ i := by omega
    exact update_of_ne ne ..
  get_eq_iff page page' i := by
    constructor
    · intro same k low high
      obtain rfl : k = i := by omega
      exact same
    · intro same
      exact same i (Nat.le_refl i) (Nat.lt_succ_self i)

theorem append_extractLsb' (value : BitVec 64) :
    value.extractLsb' 32 32 ++ value.extractLsb' 0 32 = value := by
  ext i hi
  rw [BitVec.getElem_append]
  split
  · simp [BitVec.getLsbD_eq_getElem hi]
  · rw [BitVec.getElem_extractLsb', show 32 + (i - 32) = i by omega, BitVec.getLsbD_eq_getElem hi]

theorem append_inj {high low high' low' : BitVec 32} (same : high ++ low = high' ++ low') :
    high = high' ∧ low = low' := by
  have numbers := congrArg BitVec.toNat same
  simp only [BitVec.toNat_append] at numbers
  rw [Nat.shiftLeft_eq, Nat.shiftLeft_eq, Nat.mul_comm, Nat.mul_comm high'.toNat,
    ← Nat.two_pow_add_eq_or_of_lt low.isLt, ← Nat.two_pow_add_eq_or_of_lt low'.isLt] at numbers
  have := low.isLt
  have := low'.isLt
  exact ⟨BitVec.eq_of_toNat_eq (by omega), BitVec.eq_of_toNat_eq (by omega)⟩

def pointer64 : Pointer 64 where
  span := 2
  getP page i := page (i + 1) ++ page i
  setP page i value :=
    update (update page i (value.extractLsb' 0 32)) (i + 1) (value.extractLsb' 32 32)
  span_pos := Nat.two_pos
  get_set page i value := by
    have ne : i ≠ i + 1 := by omega
    rw [update_self, update_of_ne ne, update_self]
    exact append_extractLsb' value
  set_other _ i _ k away := by
    have ne : k ≠ i + 1 := by omega
    have ne' : k ≠ i := by omega
    exact (update_of_ne ne ..).trans (update_of_ne ne' ..)
  get_eq_iff page page' i := by
    constructor
    · intro same k low high
      obtain ⟨upper, lower⟩ := append_inj same
      obtain rfl | rfl : k = i ∨ k = i + 1 := by omega
      · exact lower
      · exact upper
    · intro same
      rw [same i (by omega) (by omega), same (i + 1) (by omega) (by omega)]

/-- A page before slide info is written, and what `ASLR_Tracker` recorded for it. -/
structure DataPage where
  content : Page
  bitmap : ℕ → Bool
  high8 : ℕ → Option (BitVec 8)

/-- The columns of `_s_archLayout` that slide info depends on. -/
structure ArchLayout where
  sharedMemoryStart : ℕ
  sharedMemorySize : ℕ
  pointerDeltaMask : BitVec 64
  sharedRegionAlignP2 : ℕ
  slideInfoBytesPerPage : ℕ
  useValueAdd : Bool
  deriving DecidableEq, Repr

namespace ArchLayout

def x86_64 : ArchLayout := ⟨0x7FFF20000000, 0xEFE00000, 0x00FFFF0000000000, 12, 2, true⟩

def arm64 : ArchLayout := ⟨0x180000000, 0x100000000, 0x00FFFF0000000000, 14, 2, false⟩

def arm64_32 : ArchLayout := ⟨0x1A000000, 0x26000000, 0xC0000000, 14, 6, true⟩

/-- The row of armv7k has the same values in these columns. -/
def armv7s : ArchLayout := ⟨0x1A000000, 0x26000000, 0xE0000000, 14, 4, true⟩

end ArchLayout

/-- `align`: round up to a multiple of `2 ^ p2`. -/
def align (addr p2 : ℕ) : ℕ := (addr + 2 ^ p2 - 1) / 2 ^ p2 * 2 ^ p2

/-- `sizeof(dyld_cache_slide_info2)`, which is that of version 4 as well. -/
def sizeofSlideInfo : ℕ := 40

/-- `_slideInfoBufferSizeAllocated` for a data region of `sizeInUse` bytes. -/
def slideInfoBufferSizeAllocated (layout : ArchLayout) (sizeInUse : ℕ) : ℕ :=
  align (sizeofSlideInfo + sizeInUse / 4096 * layout.slideInfoBytesPerPage + 0x4000)
    layout.sharedRegionAlignP2

/-- `ASLR_Tracker::dataPageCount` for a data region of `sizeInUse` bytes. -/
def dataPageCount (sizeInUse : ℕ) : ℕ := (sizeInUse + 4096 - 1) / 4096

end ObjcDyld.SlideInfo
