import Mathlib

/-!
# Chained fixup pointers

The 64-bit words that chain the fixups of an image, as the views of the union
`ChainedFixupPointerOnDisk`: a word is taken apart into bit fields, some of them
are written, and the word is put together again.
-/

namespace ObjcDyld.ChainedFixups

/-- `dyld_chained_ptr_arm64e_rebase`. -/
structure Arm64eRebase where
  target : BitVec 43
  high8 : BitVec 8
  next : BitVec 11
  bind : BitVec 1
  auth : BitVec 1
  deriving DecidableEq, Repr

/-- `dyld_chained_ptr_arm64e_auth_rebase`. -/
structure Arm64eAuthRebase where
  target : BitVec 32
  diversity : BitVec 16
  addrDiv : BitVec 1
  key : BitVec 2
  next : BitVec 11
  bind : BitVec 1
  auth : BitVec 1
  deriving DecidableEq, Repr

/-- `dyld_chained_ptr_64_rebase`. -/
structure Generic64Rebase where
  target : BitVec 36
  high8 : BitVec 8
  reserved : BitVec 7
  next : BitVec 12
  bind : BitVec 1
  deriving DecidableEq, Repr

/-- `ASLR_Tracker::AuthData`; a key is one of IA, IB, DA and DB. -/
structure AuthData where
  diversity : BitVec 16
  addrDiv : BitVec 1
  key : BitVec 2
  deriving DecidableEq, Repr

namespace Arm64eRebase

/-- The view `arm64e.rebase` of a word. -/
def view (raw64 : BitVec 64) : Arm64eRebase where
  target := raw64.extractLsb' 0 43
  high8 := raw64.extractLsb' 43 8
  next := raw64.extractLsb' 51 11
  bind := raw64.extractLsb' 62 1
  auth := raw64.extractLsb' 63 1

def raw64 (pointer : Arm64eRebase) : BitVec 64 :=
  BitVec.ofNat 64 (pointer.target.toNat + 2 ^ 43 * pointer.high8.toNat +
    2 ^ 51 * pointer.next.toNat + 2 ^ 62 * pointer.bind.toNat + 2 ^ 63 * pointer.auth.toNat)

end Arm64eRebase

namespace Arm64eAuthRebase

/-- The view `arm64e.authRebase` of a word. -/
def view (raw64 : BitVec 64) : Arm64eAuthRebase where
  target := raw64.extractLsb' 0 32
  diversity := raw64.extractLsb' 32 16
  addrDiv := raw64.extractLsb' 48 1
  key := raw64.extractLsb' 49 2
  next := raw64.extractLsb' 51 11
  bind := raw64.extractLsb' 62 1
  auth := raw64.extractLsb' 63 1

def raw64 (pointer : Arm64eAuthRebase) : BitVec 64 :=
  BitVec.ofNat 64 (pointer.target.toNat + 2 ^ 32 * pointer.diversity.toNat +
    2 ^ 48 * pointer.addrDiv.toNat + 2 ^ 49 * pointer.key.toNat + 2 ^ 51 * pointer.next.toNat +
    2 ^ 62 * pointer.bind.toNat + 2 ^ 63 * pointer.auth.toNat)

end Arm64eAuthRebase

namespace Generic64Rebase

/-- The view `generic64.rebase` of a word. -/
def view (raw64 : BitVec 64) : Generic64Rebase where
  target := raw64.extractLsb' 0 36
  high8 := raw64.extractLsb' 36 8
  reserved := raw64.extractLsb' 44 7
  next := raw64.extractLsb' 51 12
  bind := raw64.extractLsb' 63 1

def raw64 (pointer : Generic64Rebase) : BitVec 64 :=
  BitVec.ofNat 64 (pointer.target.toNat + 2 ^ 36 * pointer.high8.toNat +
    2 ^ 44 * pointer.reserved.toNat + 2 ^ 51 * pointer.next.toNat + 2 ^ 63 * pointer.bind.toNat)

end Generic64Rebase

/-! ## Views of words that were put together -/

theorem toNat_extract (raw64 : BitVec 64) (start length : ℕ) :
    (raw64.extractLsb' start length).toNat = raw64.toNat / 2 ^ start % 2 ^ length := by
  rw [BitVec.extractLsb'_toNat, Nat.shiftRight_eq_div_pow]

@[simp] theorem Arm64eRebase.view_raw64 (pointer : Arm64eRebase) : view pointer.raw64 = pointer := by
  obtain ⟨target, high8, next, bind, auth⟩ := pointer
  simp only [view, raw64, Arm64eRebase.mk.injEq]
  refine ⟨?_, ?_, ?_, ?_, ?_⟩ <;>
    · apply BitVec.eq_of_toNat_eq
      rw [toNat_extract, BitVec.toNat_ofNat]
      omega

@[simp] theorem Arm64eAuthRebase.view_raw64 (pointer : Arm64eAuthRebase) :
    view pointer.raw64 = pointer := by
  obtain ⟨target, diversity, addrDiv, key, next, bind, auth⟩ := pointer
  simp only [view, raw64, Arm64eAuthRebase.mk.injEq]
  refine ⟨?_, ?_, ?_, ?_, ?_, ?_, ?_⟩ <;>
    · apply BitVec.eq_of_toNat_eq
      rw [toNat_extract, BitVec.toNat_ofNat]
      omega

@[simp] theorem Generic64Rebase.view_raw64 (pointer : Generic64Rebase) :
    view pointer.raw64 = pointer := by
  obtain ⟨target, high8, reserved, next, bind⟩ := pointer
  simp only [view, raw64, Generic64Rebase.mk.injEq]
  refine ⟨?_, ?_, ?_, ?_, ?_⟩ <;>
    · apply BitVec.eq_of_toNat_eq
      rw [toNat_extract, BitVec.toNat_ofNat]
      omega

theorem Arm64eRebase.view_next (raw64 : BitVec 64) :
    (view raw64).next = (Arm64eAuthRebase.view raw64).next ∧
      (view raw64).bind = (Arm64eAuthRebase.view raw64).bind ∧
      (view raw64).auth = (Arm64eAuthRebase.view raw64).auth :=
  ⟨rfl, rfl, rfl⟩

end ObjcDyld.ChainedFixups
