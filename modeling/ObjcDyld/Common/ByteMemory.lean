import Mathlib

/-!
# Byte memory

A memory of bytes in which little-endian numbers of any number of bytes are
loaded and stored at any address.
-/

namespace ObjcDyld.ByteMemory

open Function (update update_self update_of_ne)

abbrev Memory := ℕ → BitVec 8

/-- The number in the `n` bytes from `address` on. -/
def load (memory : Memory) (address : ℕ) : ℕ → ℕ
  | 0 => 0
  | n + 1 => (memory address).toNat + 2 ^ 8 * load memory (address + 1) n

/-- Store the low `n` bytes of a number from `address` on. -/
def store (memory : Memory) (address : ℕ) : ℕ → ℕ → Memory
  | 0, _ => memory
  | n + 1, value =>
      store (update memory address (BitVec.ofNat 8 value)) (address + 1) n (value / 2 ^ 8)

variable {memory memory' : Memory} {address n : ℕ}

theorem load_lt (memory : Memory) (address n : ℕ) : load memory address n < 2 ^ (8 * n) := by
  induction n generalizing address with
  | zero => exact Nat.one_pos
  | succ n ih =>
      have first := (memory address).isLt
      have rest := ih (address + 1)
      rw [load, show 8 * (n + 1) = 8 * n + 8 by omega, Nat.pow_add]
      omega

theorem store_other (value : ℕ) {k : ℕ} (away : k < address ∨ address + n ≤ k) :
    store memory address n value k = memory k := by
  induction n generalizing memory address value with
  | zero => rfl
  | succ n ih =>
      have ne : k ≠ address := by omega
      rw [store, ih _ (by omega), update_of_ne ne]

theorem load_congr (same : ∀ k, address ≤ k → k < address + n → memory k = memory' k) :
    load memory address n = load memory' address n := by
  induction n generalizing address with
  | zero => rfl
  | succ n ih =>
      rw [load, load, same address (Nat.le_refl _) (by omega),
        ih fun k low high => same k (by omega) (by omega)]

@[simp] theorem load_store (memory : Memory) (address n value : ℕ) :
    load (store memory address n value) address n = value % 2 ^ (8 * n) := by
  induction n generalizing memory address value with
  | zero => exact (Nat.mod_one value).symm
  | succ n ih =>
      have first : store (update memory address (BitVec.ofNat 8 value)) (address + 1) n
          (value / 2 ^ 8) address = BitVec.ofNat 8 value := by
        rw [store_other _ (Or.inl (Nat.lt_succ_self address)), update_self]
      rw [load, store, first, ih, BitVec.toNat_ofNat, show 8 * (n + 1) = 8 + 8 * n by omega,
        Nat.pow_add, Nat.mod_mul]

theorem load_store_other (value : ℕ) {a k : ℕ} (apart : a + k ≤ address ∨ address + n ≤ a) :
    load (store memory address n value) a k = load memory a k :=
  load_congr fun _ _ _ => store_other value (by omega)

section Words

def get32 (memory : Memory) (address : ℕ) : BitVec 32 := BitVec.ofNat 32 (load memory address 4)

def set32 (memory : Memory) (address : ℕ) (value : BitVec 32) : Memory :=
  store memory address 4 value.toNat

def get64 (memory : Memory) (address : ℕ) : BitVec 64 := BitVec.ofNat 64 (load memory address 8)

def set64 (memory : Memory) (address : ℕ) (value : BitVec 64) : Memory :=
  store memory address 8 value.toNat

@[simp] theorem get32_set32 (memory : Memory) (address : ℕ) (value : BitVec 32) :
    get32 (set32 memory address value) address = value := by
  rw [get32, set32, load_store]
  exact BitVec.eq_of_toNat_eq (by rw [BitVec.toNat_ofNat]; have := value.isLt; omega)

@[simp] theorem get64_set64 (memory : Memory) (address : ℕ) (value : BitVec 64) :
    get64 (set64 memory address value) address = value := by
  rw [get64, set64, load_store]
  exact BitVec.eq_of_toNat_eq (by rw [BitVec.toNat_ofNat]; have := value.isLt; omega)

theorem get32_congr (same : ∀ k, address ≤ k → k < address + 4 → memory k = memory' k) :
    get32 memory address = get32 memory' address := by
  rw [get32, get32, load_congr same]

theorem get64_congr (same : ∀ k, address ≤ k → k < address + 8 → memory k = memory' k) :
    get64 memory address = get64 memory' address := by
  rw [get64, get64, load_congr same]

theorem set32_other (value : BitVec 32) {k : ℕ} (away : k < address ∨ address + 4 ≤ k) :
    set32 memory address value k = memory k := store_other _ away

theorem set64_other (value : BitVec 64) {k : ℕ} (away : k < address ∨ address + 8 ≤ k) :
    set64 memory address value k = memory k := store_other _ away

theorem get64_set64_other (value : BitVec 64) {a : ℕ} (apart : a + 8 ≤ address ∨ address + 8 ≤ a) :
    get64 (set64 memory address value) a = get64 memory a :=
  get64_congr fun _ _ _ => set64_other value (by omega)

end Words

end ObjcDyld.ByteMemory
