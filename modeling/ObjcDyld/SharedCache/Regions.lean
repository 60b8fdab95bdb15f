import ObjcDyld.Common.WordRanges

/-!
# The regions of the shared cache

A mapped cache with its regions, and the test of a range of memory against them.  The test is made
on unslid addresses, with an end that the machine computes.
-/

namespace ObjcDyld.SharedCache

open WordRanges

def VM_PROT_WRITE : BitVec 32 := 2

/-- The fields of `dyld_cache_mapping_info` that `inCache` reads. -/
structure MappingInfo where
  address : BitVec 64
  size : BitVec 64
  initProt : BitVec 32
  deriving DecidableEq, Repr

def MappingInfo.readOnly (m : MappingInfo) : Bool := m.initProt &&& VM_PROT_WRITE == 0

/-- The comparisons of `inCache` with one region. -/
def MappingInfo.holds (m : MappingInfo) (unslidStart unslidEnd : BitVec 64) : Bool :=
  unslidStart ≥ m.address && unslidEnd < m.address + m.size

/--
A shared cache as it is mapped.  `preflightCacheFile` takes only files with three regions of
ascending addresses inside the shared region, and the slide is not negative.
-/
structure DyldSharedCache where
  /-- The address of the header. -/
  address : BitVec 64
  text : MappingInfo
  data : MappingInfo
  linkedit : MappingInfo
  slid : text.address ≤ address
  textBelow : text.address.toNat + text.size.toNat ≤ data.address.toNat
  dataBelow : data.address.toNat + data.size.toNat ≤ linkedit.address.toNat
  fits : address.toNat - text.address.toNat + linkedit.address.toNat + linkedit.size.toNat < 2 ^ 64

namespace DyldSharedCache

variable (cache : DyldSharedCache)

def mappings : List MappingInfo := [cache.text, cache.data, cache.linkedit]

def slide : BitVec 64 := cache.address - cache.text.address

/-- The first region that passes the comparisons. -/
def region (unslidStart unslidEnd : BitVec 64) : Option MappingInfo :=
  cache.mappings.find? fun m => m.holds unslidStart unslidEnd

/-- `inCache`, with `readOnly` for the value when it answers true. -/
def inCache (addr length : BitVec 64) : Option Bool :=
  if addr < cache.address then none
  else
    let unslidStart := addr - cache.slide
    if unslidStart > cache.linkedit.address + cache.linkedit.size then none
    else (cache.region unslidStart (unslidStart + length)).map MappingInfo.readOnly

/-- The memory that a region occupies. -/
def memory (m : MappingInfo) : Set ℕ :=
  Set.Ico (cache.slide.toNat + m.address.toNat) (cache.slide.toNat + m.address.toNat + m.size.toNat)

theorem slide_toNat : cache.slide.toNat = cache.address.toNat - cache.text.address.toNat :=
  BitVec.toNat_sub_of_le cache.slid

variable {cache} {m : MappingInfo} {addr length : BitVec 64}

theorem mapped (member : m ∈ cache.mappings) :
    cache.text.address.toNat ≤ m.address.toNat ∧
      cache.slide.toNat + m.address.toNat + m.size.toNat < 2 ^ 64 := by
  have fits := cache.fits
  have textBelow := cache.textBelow
  have dataBelow := cache.dataBelow
  have slid : cache.text.address.toNat ≤ cache.address.toNat := cache.slid
  rw [← cache.slide_toNat] at fits
  simp only [mappings, List.mem_cons, List.not_mem_nil, or_false] at member
  rcases member with rfl | rfl | rfl <;> omega

theorem unslid_toNat (above : ¬addr < cache.address) :
    (addr - cache.slide).toNat + cache.slide.toNat = addr.toNat := by
  have slide := cache.slide_toNat
  have slid : cache.text.address.toNat ≤ cache.address.toNat := cache.slid
  rw [BitVec.lt_def] at above
  rw [BitVec.toNat_sub_of_le (BitVec.le_def.mpr (by omega))]
  omega

theorem region_end (member : m ∈ cache.mappings) : (m.address + m.size).toNat = m.address.toNat + m.size.toNat := by
  have fits := (mapped member).2
  exact toNat_end (by rw [Wraps]; omega)

theorem subset_memory (member : m ∈ cache.mappings) (above : ¬addr < cache.address)
    (fits : ¬Wraps (addr - cache.slide) length)
    (holds : m.holds (addr - cache.slide) (addr - cache.slide + length)) :
    extent addr length ⊆ cache.memory m := by
  have unslid := unslid_toNat above
  simp only [MappingInfo.holds, Bool.and_eq_true, decide_eq_true_eq, ge_iff_le, BitVec.le_def, BitVec.lt_def,
    toNat_end fits, region_end member] at holds
  exact Set.Ico_subset_Ico (by omega) (by omega)

theorem not_subset_memory (member : m ∈ cache.mappings) (wraps : Wraps addr length) :
    ¬extent addr length ⊆ cache.memory m := by
  have fits := (mapped member).2
  have small := addr.isLt
  rw [Wraps] at wraps
  intro inside
  rw [extent, memory, Set.Ico_subset_Ico_iff (by omega)] at inside
  omega

end DyldSharedCache

end ObjcDyld.SharedCache
