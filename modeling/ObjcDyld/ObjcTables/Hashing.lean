import ObjcDyld.ObjcTables.Searches

/-!
# Evaluation of perfect hashes

The hash functions of `objc_stringhash_t` and `ObjCStringTable` over the tables that
`make_perfect` built.
-/

namespace ObjcDyld.ObjcTables

namespace PerfectHash

variable (phash : PerfectHash) (lookup8 : Name → BitVec 64 → BitVec 64)

/-- The index for a hash whose high bits are shifted down; `none` for a read outside a table. -/
def index (val shifted : BitVec 64) : Option (BitVec 32) := do
  let tab ← phash.tab[(val &&& phash.mask.setWidth 64).toNat]?
  let scrambled ← phash.scramble[tab.toNat]?
  return shifted.setWidth 32 ^^^ scrambled

/-- `objc_stringhash_t::hash`; `none` when the shift is undefined. -/
def hash (key : Name) : Option (BitVec 32) :=
  let val := lookup8 key phash.salt
  if 64 ≤ phash.shift.toNat then none else phash.index val (val >>> phash.shift.toNat)

/-- `ObjCStringTable::hash`, which does not shift by 64. -/
def closureHash (key : Name) : Option (BitVec 32) :=
  let val := lookup8 key phash.salt
  if phash.shift = 64 then phash.index val 0
  else if 64 ≤ phash.shift.toNat then none
  else phash.index val (val >>> phash.shift.toNat)

end PerfectHash

/-- A hash function into a table: every string is in range, and no two keys meet. -/
structure IsPerfect (hash : Name → Option (BitVec 32)) (capacity : BitVec 32) (keys : List Name) : Prop where
  bounded : ∀ name, ∃ index, hash name = some index ∧ index < capacity
  injective : ∀ name ∈ keys, ∀ other ∈ keys, hash name = hash other → name = other

variable {lookup8 : Name → BitVec 64 → BitVec 64} {keys : List Name} {nbits : ℕ} {found : Found} {nkeys : ℕ}

/-- The pair of a hash. -/
def highBits (nbits : ℕ) (val : BitVec 64) : BitVec 32 := (val >>> (64 - nbits)).setWidth 32

def lowBits (blen : ℕ) (val : BitVec 64) : ℕ := (val &&& BitVec.ofNat 64 (blen - 1)).toNat

theorem highBits_lt (small : nbits < 32) (val : BitVec 64) : (highBits nbits val).toNat < 2 ^ nbits := by
  rw [highBits, BitVec.toNat_setWidth, BitVec.toNat_ushiftRight, Nat.shiftRight_eq_div_pow]
  refine (Nat.mod_le _ _).trans_lt (Nat.div_lt_of_lt_mul ?_)
  rw [← pow_add, Nat.sub_add_cancel (by omega)]
  exact val.isLt

theorem lowBits_lt {bits : ℕ} (small : bits < 32) (val : BitVec 64) : lowBits (2 ^ bits) val < 2 ^ bits := by
  have less : 2 ^ bits < 2 ^ 64 := Nat.pow_lt_pow_right (by omega) (by omega)
  rw [lowBits, BitVec.toNat_and, BitVec.toNat_ofNat, Nat.mod_eq_of_lt (by omega), Nat.and_two_pow_sub_one_eq_mod]
  exact Nat.mod_lt _ (Nat.two_pow_pos bits)

theorem initnorm_aK (salt : BitVec 64) (blen i : ℕ) :
    (initnorm lookup8 keys nbits blen salt).aK i = highBits nbits (keyHash lookup8 salt (keys.getD i [])) := by
  unfold initnorm highBits
  rcases Nat.eq_zero_or_pos nbits with rfl | positive
  · simp [BitVec.ushiftRight_eq_zero]
  · simp [positive]

theorem initnorm_bK (salt : BitVec 64) {bits : ℕ} (i : ℕ) :
    (initnorm lookup8 keys nbits (2 ^ bits) salt).bK i =
      lowBits (2 ^ bits) (keyHash lookup8 salt (keys.getD i [])) := by
  unfold initnorm lowBits
  rcases Nat.eq_zero_or_pos bits with rfl | positive
  · simp
  · simp [Nat.one_lt_two_pow positive.ne']

theorem index_build (succeeded : found.Succeeded lookup8 keys (scrambleinit nbits) nbits) (small : nbits < 32)
    (val : BitVec 64) :
    (PerfectHash.build found nbits (2 ^ nbits) nkeys (scrambleinit nbits)).index val (val >>> (64 - nbits)) =
      some (highBits nbits val ^^^ scrambleinit nbits (found.tabb (lowBits found.blen val)).valB) := by
  obtain ⟨bits, le, blen⟩ := succeeded.blen
  obtain ⟨tabb, tables, sorted, mapped, eq⟩ := succeeded.mapping
  have less : 2 ^ bits < 2 ^ 32 := Nat.pow_lt_pow_right (by omega) (by omega)
  have mask : (BitVec.ofNat 32 (found.blen - 1)).setWidth 64 = BitVec.ofNat 64 (found.blen - 1) := by
    apply BitVec.eq_of_toNat_eq
    rw [BitVec.toNat_setWidth, BitVec.toNat_ofNat, BitVec.toNat_ofNat, Nat.mod_eq_of_lt (by omega : found.blen - 1 < 2 ^ 32)]
  have inside : lowBits found.blen val < found.blen := by
    rw [blen]
    exact lowBits_lt (by omega) val
  have value : (found.tabb (lowBits found.blen val)).valB < 256 := by
    rw [eq]
    exact (perfect_mapped (inittab_sorted sorted).2 mapped).small _
  simp only [PerfectHash.index, PerfectHash.build, mask]
  change ((((List.range found.blen).map fun i => BitVec.ofNat 8 (found.tabb i).valB)[lowBits found.blen val]?).bind
    fun tab => (((List.range 256).map (scrambleinit nbits))[tab.toNat]?).bind fun scrambled =>
      some ((val >>> (64 - nbits)).setWidth 32 ^^^ scrambled)) = _
  rw [List.getElem?_map, List.getElem?_range inside, Option.map_some, Option.bind_some, BitVec.toNat_ofNat,
    Nat.mod_eq_of_lt value, List.getElem?_map, List.getElem?_range value, Option.map_some, Option.bind_some, highBits]

theorem build_shift (small : nbits < 32) :
    (PerfectHash.build found nbits (2 ^ nbits) nkeys (scrambleinit nbits)).shift.toNat = 64 - nbits := by
  rw [PerfectHash.build, BitVec.toNat_ofNat, Nat.mod_eq_of_lt (by omega)]

theorem build_capacity (small : nbits < 32) :
    (PerfectHash.build found nbits (2 ^ nbits) nkeys (scrambleinit nbits)).capacity.toNat = 2 ^ nbits := by
  rw [PerfectHash.build, BitVec.toNat_ofNat, Nat.mod_eq_of_lt (Nat.pow_lt_pow_right (by omega) small)]

theorem index_lt (small : nbits < 32) (val : BitVec 64) (valB : ℕ) :
    highBits nbits val ^^^ scrambleinit nbits valB <
      (PerfectHash.build found nbits (2 ^ nbits) nkeys (scrambleinit nbits)).capacity := by
  rw [BitVec.lt_def, build_capacity small, BitVec.toNat_xor]
  exact Nat.xor_lt_two_pow (highBits_lt small val) (scrambleinit_lt small valB)

theorem keyHash_of_short {salt : BitVec 64} {name : Name} (short : name.length < 2 ^ 32) :
    keyHash lookup8 salt name = lookup8 name salt := by
  rw [keyHash, lenK, Nat.mod_eq_of_lt short, List.take_length]

theorem index_injective (succeeded : found.Succeeded lookup8 keys (scrambleinit nbits) nbits) (small : nbits < 32)
    (short : ∀ name ∈ keys, name.length < 2 ^ 32) {name other : Name} (inside : name ∈ keys) (inside' : other ∈ keys)
    (same : highBits nbits (lookup8 name found.salt) ^^^
        scrambleinit nbits (found.tabb (lowBits found.blen (lookup8 name found.salt))).valB =
      highBits nbits (lookup8 other found.salt) ^^^
        scrambleinit nbits (found.tabb (lowBits found.blen (lookup8 other found.salt))).valB) : name = other := by
  obtain ⟨bits, le, blen⟩ := succeeded.blen
  obtain ⟨tabb, tables, sorted, mapped, eq⟩ := succeeded.mapping
  obtain ⟨i, bound, rfl⟩ := List.mem_iff_getElem.mp inside
  obtain ⟨j, bound', rfl⟩ := List.mem_iff_getElem.mp inside'
  rw [blen] at sorted mapped same
  have hashes : ∀ k (bound : k < keys.length), keyHash lookup8 found.salt (keys.getD k []) = lookup8 keys[k] found.salt :=
    fun k bound => by rw [List.getD_eq_getElem _ _ bound, keyHash_of_short (short _ (List.getElem_mem bound))]
  have placed := perfect_mapped (inittab_sorted sorted).2 mapped
  have key_eq := placed.injective (inittab_sorted sorted).2 (fun key => by
      rw [initnorm_bK]
      exact lowBits_lt (by omega) _) bound bound' (by
    rw [hashUnder, hashUnder, initnorm_bK, initnorm_bK, initnorm_aK, initnorm_aK, hashes i bound, hashes j bound', ← eq]
    exact same)
  simp only [key_eq]

end ObjcDyld.ObjcTables

/-!
## Perfect hashes

When the tables of `make_perfect` are a perfect hash. The builder cuts the lengths of keys to
32 bits, and for one key it leaves a shift that `objc_stringhash_t::hash` cannot make.
-/

namespace ObjcDyld.ObjcTables

variable {lookup8 : Name → BitVec 64 → BitVec 64} {keys : List Name} {rounds : ℕ} {phash : PerfectHash}

theorem one_shiftLeft_mod {nbits : ℕ} (small : nbits < 32) : 2 * 1 <<< nbits % 2 ^ 32 = 0 ∨
    nbits + 1 < 32 ∧ 2 * 1 <<< nbits % 2 ^ 32 = 2 ^ (nbits + 1) := by
  rcases Nat.lt_or_eq_of_le (Nat.le_of_lt_succ small) with less | rfl
  · refine Or.inr ⟨by omega, ?_⟩
    rw [Nat.one_shiftLeft, ← pow_succ']
    exact Nat.mod_eq_of_lt (Nat.pow_lt_pow_right (by omega) (by omega))
  · exact Or.inl (by decide)

theorem tryCapacity_build {nbits : ℕ} (small : nbits < 32)
    (run : tryCapacity lookup8 rounds keys (2 ^ nbits) = some (some phash)) :
    ∃ found : Found, found.Succeeded lookup8 keys (scrambleinit nbits) nbits ∧
      phash = PerfectHash.build found nbits (2 ^ nbits) keys.length (scrambleinit nbits) := by
  unfold tryCapacity at run
  simp only [log2u_two_pow small, Option.bind_eq_bind, Option.bind_some] at run
  obtain ⟨result, search, run⟩ := Option.bind_eq_some_iff.mp run
  cases result with
  | none => exact absurd run (by simp)
  | some found =>
      have succeeded := findhash_succeeded small search
      simp only [succeeded.alen, log2u_two_pow small, Option.bind_some] at run
      exact ⟨found, succeeded, (Option.some.inj (Option.some.inj run)).symm⟩

theorem tryCapacity_zero (run : tryCapacity lookup8 rounds keys 0 = some (some phash)) : phash.capacity = 0 := by
  unfold tryCapacity at run
  obtain ⟨nbits, -, run⟩ := Option.bind_eq_some_iff.mp run
  obtain ⟨result, search, run⟩ := Option.bind_eq_some_iff.mp run
  cases result with
  | none => exact absurd run (by simp)
  | some found =>
      obtain ⟨loga, -, built⟩ := Option.bind_eq_some_iff.mp run
      obtain rfl := Option.some.inj (Option.some.inj built)
      rfl

theorem makePerfect_build (run : makePerfect lookup8 rounds keys = some phash) (nonzero : phash.capacity ≠ 0) :
    ∃ nbits < 32, keys.length ≤ 2 ^ nbits ∧ ∃ found : Found,
      found.Succeeded lookup8 keys (scrambleinit nbits) nbits ∧
        phash = PerfectHash.build found nbits (2 ^ nbits) keys.length (scrambleinit nbits) := by
  unfold makePerfect at run
  obtain ⟨nbits, log, run⟩ := Option.bind_eq_some_iff.mp run
  obtain ⟨small, reached, -⟩ := log2u_eq_some log
  have covers : ∀ {found : Found} {bits}, found.Succeeded lookup8 keys (scrambleinit bits) bits →
      keys.length ≤ 2 ^ nbits := by
    rintro found bits ⟨-, -, tabb, tables, sorted, -⟩
    rwa [Nat.mod_eq_of_lt (inittab_sorted sorted).1] at reached
  obtain ⟨first, attempt, run⟩ := Option.bind_eq_some_iff.mp run
  cases first with
  | some result =>
      obtain rfl := Option.some.inj run
      rw [Nat.one_shiftLeft] at attempt
      obtain ⟨found, succeeded, eq⟩ := tryCapacity_build small attempt
      exact ⟨nbits, small, covers succeeded, found, succeeded, eq⟩
  | none =>
      obtain ⟨second, attempt, run⟩ := Option.bind_eq_some_iff.mp run
      cases second with
      | none =>
          obtain rfl := Option.some.inj run
          exact absurd rfl nonzero
      | some result =>
          obtain rfl := Option.some.inj run
          rcases one_shiftLeft_mod small with zero | ⟨small', eq⟩
          · rw [zero] at attempt
            exact absurd (tryCapacity_zero attempt) nonzero
          · rw [eq] at attempt
            obtain ⟨found, succeeded, eq⟩ := tryCapacity_build small' attempt
            exact ⟨nbits + 1, small', (covers succeeded).trans (Nat.pow_le_pow_right (by omega) (Nat.le_succ _)),
              found, succeeded, eq⟩

theorem isPerfect_of_index {hash : Name → Option (BitVec 32)} {nbits : ℕ} (small : nbits < 32) {found : Found}
    (succeeded : found.Succeeded lookup8 keys (scrambleinit nbits) nbits)
    (short : ∀ name ∈ keys, name.length < 2 ^ 32)
    (eq : ∀ name, hash name = (PerfectHash.build found nbits (2 ^ nbits) keys.length (scrambleinit nbits)).index
      (lookup8 name found.salt) (lookup8 name found.salt >>> (64 - nbits))) :
    IsPerfect hash (PerfectHash.build found nbits (2 ^ nbits) keys.length (scrambleinit nbits)).capacity keys where
  bounded name := by
    rw [eq, index_build succeeded small]
    exact ⟨_, rfl, index_lt small _ _⟩
  injective name inside other inside' same := by
    rw [eq, eq, index_build succeeded small, index_build succeeded small] at same
    exact index_injective succeeded small short inside inside' (Option.some.inj same)

theorem hash_isPerfect (run : makePerfect lookup8 rounds keys = some phash) (nonzero : phash.capacity ≠ 0)
    (several : 1 < keys.length) (short : ∀ name ∈ keys, name.length < 2 ^ 32) :
    IsPerfect (phash.hash lookup8) phash.capacity keys := by
  obtain ⟨nbits, small, covers, found, succeeded, rfl⟩ := makePerfect_build run nonzero
  refine isPerfect_of_index small succeeded short fun name => ?_
  have positive : nbits ≠ 0 := by
    rintro rfl
    omega
  have shift := @build_shift nbits found keys.length small
  unfold PerfectHash.hash
  simp only [shift]
  rw [if_neg (by omega)]
  rfl

end ObjcDyld.ObjcTables
