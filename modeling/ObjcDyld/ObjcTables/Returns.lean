import ObjcDyld.ObjcTables.Hashing

/-!
# When the construction returns

Two keys that agree in their cut lengths meet under every salt, so the search goes on for
ever. Keys whose hashes differ in their high bits and share the low ones are mapped at once.
-/

namespace ObjcDyld.ObjcTables

variable {lookup8 : Name → BitVec 64 → BitVec 64} {keys : List Name} {pairs : Pairs} {scramble : ℕ → BitVec 32}

/-- The bytes of a key that the builder hashes. -/
def hashedBytes (name : Name) : Name := name.take (lenK name)

theorem findhashLoop_eq_none {smax : ℕ}
    (collide : ∀ loga blen salt, inittab (initnorm lookup8 keys loga blen salt) keys.length = none) (rounds : ℕ)
    (state : Finding) : findhashLoop lookup8 keys scramble smax rounds state = none := by
  induction rounds generalizing state with
  | zero => rfl
  | succ rounds ih =>
      rw [findhashLoop]
      cases log2u state.alen with
      | none => rfl
      | some loga => simpa [collide] using ih _

theorem makePerfect_eq_none
    (collide : ∀ loga blen salt, inittab (initnorm lookup8 keys loga blen salt) keys.length = none) (rounds : ℕ) :
    makePerfect lookup8 rounds keys = none := by
  have never : ∀ smax, tryCapacity lookup8 rounds keys smax = none := by
    intro smax
    unfold tryCapacity
    cases log2u smax with
    | none => rfl
    | some nbits =>
        have search : findhash lookup8 keys (scrambleinit nbits) smax rounds = none :=
          findhashLoop_eq_none collide rounds _
        simp [search]
  unfold makePerfect
  cases log2u (keys.length % 2 ^ 32) with
  | none => rfl
  | some nbits => simp [never]

theorem inittab_eq_none_of_collision (same : ¬(keys.map hashedBytes).Nodup) (loga blen : ℕ) (salt : BitVec 64) :
    inittab (initnorm lookup8 keys loga blen salt) keys.length = none := by
  cases run : inittab (initnorm lookup8 keys loga blen salt) keys.length with
  | none => rfl
  | some tabb =>
      obtain ⟨-, sorted⟩ := inittab_sorted run
      refine absurd (List.pairwise_iff_getElem.mpr fun i j bound bound' less meet => ?_) same
      rw [List.length_map] at bound bound'
      rw [List.getElem_map, List.getElem_map] at meet
      have hashes : keyHash lookup8 salt (keys.getD i []) = keyHash lookup8 salt (keys.getD j []) := by
        rw [List.getD_eq_getElem _ _ bound, List.getD_eq_getElem _ _ bound', keyHash, keyHash]
        exact congrArg (lookup8 · salt) meet
      have a_eq : (initnorm lookup8 keys loga blen salt).aK i = (initnorm lookup8 keys loga blen salt).aK j := by
        simp only [initnorm, hashes]
      have b_eq : (initnorm lookup8 keys loga blen salt).bK j = (initnorm lookup8 keys loga blen salt).bK i := by
        simp only [initnorm, hashes]
      have inside := (sorted.mem _ i).mpr ⟨bound, rfl⟩
      have inside' := (sorted.mem _ j).mpr ⟨bound', b_eq⟩
      have key_eq := List.inj_on_of_nodup_map (sorted.distinct _) inside inside' a_eq
      omega

theorem distinct_of_makePerfect {rounds : ℕ} {phash : PerfectHash}
    (run : makePerfect lookup8 rounds keys = some phash) :
    (keys.map hashedBytes).Nodup ∧ keys.length ≤ 2 ^ 31 := by
  constructor
  · by_contra same
    rw [makePerfect_eq_none (inittab_eq_none_of_collision same)] at run
    exact absurd run (by simp)
  · by_contra many
    rcases Nat.lt_or_ge keys.length (2 ^ 32) with less | more
    · obtain ⟨nbits, log, -⟩ := Option.bind_eq_some_iff.mp run
      obtain ⟨small, reached, -⟩ := log2u_eq_some log
      rw [Nat.mod_eq_of_lt less] at reached
      have le : 2 ^ nbits ≤ 2 ^ 31 := Nat.pow_le_pow_right (by omega) (by omega)
      omega
    · rw [makePerfect_eq_none fun loga blen salt => if_pos more] at run
      exact absurd run (by simp)

theorem inittab_total {count : ℕ} (small : count < 2 ^ 32)
    (apart : ∀ i < count, ∀ j < count, pairs.bK i = pairs.bK j → pairs.aK i = pairs.aK j → i = j) :
    ∃ tabb, inittab pairs count = some tabb := by
  suffices ∀ done ≤ count, ∃ tabb, (List.range done).foldlM (inittabKey pairs) (fun _ => ⟨0, [], 0, 0⟩) = some tabb by
    obtain ⟨tabb, run⟩ := this count le_rfl
    exact ⟨tabb, by rw [inittab, if_neg (by omega), run]⟩
  intro done
  induction done with
  | zero => exact fun _ => ⟨_, rfl⟩
  | succ done ih =>
      intro bound
      obtain ⟨tabb, run⟩ := ih (by omega)
      have alone : ¬((tabb (pairs.bK done)).listB.any fun otherkey => pairs.aK done = pairs.aK otherkey) = true := by
        intro meets
        obtain ⟨other, inside, same⟩ := List.any_eq_true.mp meets
        obtain ⟨less, b_eq⟩ := ((sorted_of_foldlM run).mem _ other).mp inside
        have eq := apart done (by omega) other (by omega) b_eq.symm (of_decide_eq_true same)
        omega
      rw [List.range_succ, List.foldlM_append, run]
      exact ⟨_, by
        simp only [Option.bind_eq_bind, Option.bind_some, List.foldlM_cons, List.foldlM_nil, inittabKey, if_neg alone]
        rfl⟩

theorem childOf_free {smax highwater i : ℕ} {tables : Tables} {list : List ℕ}
    (free : ∀ mykey ∈ list, tables.tabh (pairs.aK mykey ^^^ scramble i) = none)
    (below : ∀ mykey ∈ list, (pairs.aK mykey ^^^ scramble i).toNat < smax) :
    childOf pairs scramble smax highwater tables i list none = some none := by
  induction list with
  | nil => rfl
  | cons mykey rest ih =>
      rw [childOf]
      simp only [free mykey List.mem_cons_self, Nat.not_le.mpr (below mykey List.mem_cons_self), if_false]
      exact ih (fun other inside => free other (List.mem_cons_of_mem mykey inside))
        fun other inside => below other (List.mem_cons_of_mem mykey inside)

theorem augment_total (tabq : ℕ → QStuff) {smax item : ℕ} {keysOf : ℕ → List ℕ} {mapped : Set ℕ} {tables : Tables}
    (bucketed : Bucketed pairs keysOf) (fresh : item ∉ mapped) (before : Mapped pairs scramble keysOf mapped tables)
    (free : ∀ mykey ∈ keysOf item, tables.tabh (pairs.aK mykey ^^^ scramble 0) = none)
    (below : ∀ mykey ∈ keysOf item, (pairs.aK mykey ^^^ scramble 0).toNat < smax) :
    ∃ next, augment pairs scramble smax tabq tables item = some next := by
  have values : List.range 256 = 0 :: (List.range 255).map Nat.succ := List.range_succ_eq_map
  obtain ⟨applied, run, -⟩ := apply_mapped (Function.update (Function.update tabq 0 { tabq 0 with bQ := some item }) 1
      ⟨none, 0, 0, (tables.tabb item).valB⟩) before bucketed fresh (by simp) (Function.update_self _ _ _) one_ne_zero
    (by omega) free
  rw [← before.lists] at free below
  refine ⟨applied, ?_⟩
  rw [augment, values, augmentValues]
  simp only [childOf_free free below, run]

theorem perfect_total {nbits blen count : ℕ} {tabb : Tabb} (sorted : Sorted pairs count tabb)
    (zero : scramble 0 = 0) (low : ∀ i < count, pairs.bK i = 0) (high : ∀ i < count, (pairs.aK i).toNat < 2 ^ nbits) :
    ∃ tables, perfect pairs scramble (2 ^ nbits) blen tabb = some tables := by
  have only_zero : ∀ b ∈ schedule tabb blen, b = 0 := by
    intro b inside
    have positive := (mem_schedule.mp inside).2
    rw [sorted.length] at positive
    obtain ⟨key, member⟩ := List.exists_mem_of_length_pos positive
    obtain ⟨less, same⟩ := (sorted.mem b key).mp member
    rw [← same, low key less]
  unfold perfect
  match items : schedule tabb blen, only_zero, schedule_nodup tabb blen with
  | [], _, _ => exact ⟨_, rfl⟩
  | [b], only_zero, _ =>
      obtain rfl := only_zero b List.mem_cons_self
      have start : Mapped pairs scramble (fun b => (tabb b).listB) ∅ ⟨tabb, fun _ => none⟩ :=
        ⟨fun _ => rfl, fun b => by simp [sorted.valB b], HashDisplace.placed_empty _⟩
      obtain ⟨next, run⟩ := augment_total (fun _ => ⟨none, 0, 0, 0⟩) sorted.bucketed (Set.notMem_empty 0) start
        (fun _ _ => rfl) (fun mykey inside => by
          simpa [zero] using high mykey ((sorted.mem 0 mykey).mp inside).1)
      exact ⟨next, by simpa using run⟩
  | b :: c :: rest, only_zero, distinct =>
      have b_eq := only_zero b List.mem_cons_self
      have c_eq := only_zero c (List.mem_cons_of_mem b List.mem_cons_self)
      simp [b_eq, c_eq] at distinct

/-- A hash whose high bits are a number. -/
def spreadHash (nbits i : ℕ) : BitVec 64 := BitVec.ofNat 64 (i * 2 ^ (64 - nbits))

theorem spreadHash_toNat {nbits i : ℕ} (small : nbits < 32) (less : i < 2 ^ nbits) :
    (spreadHash nbits i).toNat = i * 2 ^ (64 - nbits) := by
  rw [spreadHash, BitVec.toNat_ofNat]
  refine Nat.mod_eq_of_lt ?_
  calc i * 2 ^ (64 - nbits) < 2 ^ nbits * 2 ^ (64 - nbits) := Nat.mul_lt_mul_of_pos_right less (Nat.two_pow_pos _)
    _ = 2 ^ 64 := by rw [← pow_add, Nat.add_sub_cancel' (by omega)]

theorem highBits_spreadHash {nbits i : ℕ} (small : nbits < 32) (less : i < 2 ^ nbits) :
    highBits nbits (spreadHash nbits i) = BitVec.ofNat 32 i := by
  apply BitVec.eq_of_toNat_eq
  rw [highBits, BitVec.toNat_setWidth, BitVec.toNat_ushiftRight, spreadHash_toNat small less,
    Nat.shiftRight_eq_div_pow, Nat.mul_div_cancel _ (Nat.two_pow_pos _), BitVec.toNat_ofNat]

theorem lowBits_spreadHash {nbits bits i : ℕ} (small : nbits < 32) (le : bits ≤ nbits) (less : i < 2 ^ nbits) :
    lowBits (2 ^ bits) (spreadHash nbits i) = 0 := by
  have fits : 2 ^ bits < 2 ^ 64 := Nat.pow_lt_pow_right (by omega) (by omega)
  rw [lowBits, BitVec.toNat_and, BitVec.toNat_ofNat, Nat.mod_eq_of_lt (by omega), Nat.and_two_pow_sub_one_eq_mod,
    spreadHash_toNat small less]
  exact Nat.mod_eq_zero_of_dvd (Dvd.dvd.mul_left (pow_dvd_pow 2 (by omega)) i)

theorem makePerfect_of_spread {nbits : ℕ} (log : log2u keys.length = some nbits)
    (spread : ∀ i (bound : i < keys.length) salt, keyHash lookup8 salt keys[i] = spreadHash nbits i) :
    ∃ found : Found, found.Succeeded lookup8 keys (scrambleinit nbits) nbits ∧
      makePerfect lookup8 1 keys =
        some (PerfectHash.build found nbits (2 ^ nbits) keys.length (scrambleinit nbits)) := by
  obtain ⟨small, covers, -⟩ := log2u_eq_some log
  have few : keys.length < 2 ^ 32 := covers.trans_lt (Nat.pow_lt_pow_right (by omega) small)
  have lengths := initalen_lengths nbits keys.length
  obtain ⟨bits, le, blen⟩ := lengths.blen
  simp only at blen
  -- the pairs of the first round: numbers in order, and zeros
  have aK : ∀ i < keys.length, ∀ salt,
      (initnorm lookup8 keys nbits (2 ^ bits) salt).aK i = BitVec.ofNat 32 i := by
    intro i bound salt
    rw [initnorm_aK, List.getD_eq_getElem _ _ bound, spread i bound, highBits_spreadHash small (by omega)]
  have bK : ∀ i < keys.length, ∀ salt, (initnorm lookup8 keys nbits (2 ^ bits) salt).bK i = 0 := by
    intro i bound salt
    rw [initnorm_bK, List.getD_eq_getElem _ _ bound, spread i bound, lowBits_spreadHash small le (by omega)]
  have number : ∀ i < keys.length, (BitVec.ofNat 32 i).toNat = i := fun i bound => by
    rw [BitVec.toNat_ofNat, Nat.mod_eq_of_lt (by omega)]
  let salt := (1 : BitVec 32).setWidth 64 * goldenRatio
  obtain ⟨tabb, sorted⟩ := @inittab_total (initnorm lookup8 keys nbits (2 ^ bits) salt) keys.length few
    (fun i bound j bound' _ same => by
      rw [aK i bound, aK j bound'] at same
      rw [← number i bound, ← number j bound', same])
  obtain ⟨tables, mapped⟩ := @perfect_total _ (scrambleinit nbits) nbits (2 ^ bits) _ tabb (inittab_sorted sorted).2
    (scrambleinit_zero nbits) (fun i bound => bK i bound salt)
    (fun i bound => by
      rw [aK i bound, number i bound]
      omega)
  have alen : (initalen (2 ^ nbits) keys.length).1 = 2 ^ nbits := lengths.alen
  have search : findhash lookup8 keys (scrambleinit nbits) (2 ^ nbits) 1 =
      some (some ⟨tables.tabb, 2 ^ nbits, 2 ^ bits, salt⟩) := by
    rw [findhash, Nat.mod_eq_of_lt few]
    simp only [findhashLoop, alen, blen, log2u_two_pow small, Option.bind_eq_bind, Option.bind_some]
    rw [sorted]
    simp only
    rw [mapped]
    rfl
  refine ⟨⟨tables.tabb, 2 ^ nbits, 2 ^ bits, salt⟩, ⟨rfl, ⟨bits, le, rfl⟩, tabb, tables, sorted, mapped, rfl⟩, ?_⟩
  have attempt : tryCapacity lookup8 1 keys (1 <<< nbits) = some (some (PerfectHash.build
      ⟨tables.tabb, 2 ^ nbits, 2 ^ bits, salt⟩ nbits (2 ^ nbits) keys.length (scrambleinit nbits))) := by
    rw [Nat.one_shiftLeft, tryCapacity]
    simp [log2u_two_pow small, search]
  rw [makePerfect, Nat.mod_eq_of_lt few, log]
  simp [attempt]

theorem log2u_total {val : ℕ} (bound : val ≤ 2 ^ 31) : ∃ log, log2u val = some log := by
  refine Option.isSome_iff_exists.mp (List.find?_isSome.mpr ⟨31, by simp, ?_⟩)
  simpa [Nat.one_shiftLeft] using bound

/-- Every behaviour of the hash under which tables are built makes them perfect. -/
def PerfectWheneverBuilt (keys : List Name) : Prop :=
  ∀ lookup8 rounds phash, makePerfect lookup8 rounds keys = some phash → phash.capacity ≠ 0 →
    IsPerfect (phash.hash lookup8) phash.capacity keys

/-- The hash that spreads the hashed bytes of the keys, and takes other strings for one of them. -/
def spreadLookup (keys : List Name) (nbits other : ℕ) (bytes : Name) (_ : BitVec 64) : BitVec 64 :=
  spreadHash nbits (if bytes ∈ keys.map hashedBytes then (keys.map hashedBytes).idxOf bytes else other)

theorem spreadLookup_hashedBytes {nbits other : ℕ} (distinct : (keys.map hashedBytes).Nodup) (i : ℕ)
    (bound : i < keys.length) (salt : BitVec 64) :
    keyHash (spreadLookup keys nbits other) salt keys[i] = spreadHash nbits i := by
  have bound' : i < (keys.map hashedBytes).length := by rwa [List.length_map]
  have place : (keys.map hashedBytes).idxOf (hashedBytes keys[i]) = i := by
    have at_i := distinct.idxOf_getElem i bound'
    rwa [List.getElem_map] at at_i
  have inside : hashedBytes keys[i] ∈ keys.map hashedBytes := List.mem_map_of_mem (List.getElem_mem bound)
  change spreadHash nbits (if hashedBytes keys[i] ∈ keys.map hashedBytes then
    (keys.map hashedBytes).idxOf (hashedBytes keys[i]) else other) = spreadHash nbits i
  rw [if_pos inside, place]

theorem build_nonzero {found : Found} {nbits nkeys : ℕ} (small : nbits < 32) :
    (PerfectHash.build found nbits (2 ^ nbits) nkeys (scrambleinit nbits)).capacity ≠ 0 := by
  intro zero
  have eq := congrArg BitVec.toNat zero
  rw [build_capacity small] at eq
  exact absurd eq (Nat.two_pow_pos nbits).ne'

theorem not_perfect_of_long (few : keys.length ≤ 2 ^ 31) (several : 1 < keys.length)
    (distinct : (keys.map hashedBytes).Nodup) {long : Name} (inside : long ∈ keys) (length : 2 ^ 32 ≤ long.length) :
    ¬PerfectWheneverBuilt keys := by
  intro perfect
  obtain ⟨nbits, log⟩ := log2u_total few
  have keys_distinct : keys.Nodup := List.Nodup.of_map _ distinct
  obtain ⟨i, bound, rfl⟩ := List.mem_iff_getElem.mp inside
  -- another key for the long one to meet
  obtain ⟨j, bound', differs⟩ : ∃ j, j < keys.length ∧ j ≠ i := by
    by_cases first : i = 0
    · exact ⟨1, several, by omega⟩
    · exact ⟨0, by omega, Ne.symm first⟩
  obtain ⟨found, succeeded, run⟩ := makePerfect_of_spread log (@spreadLookup_hashedBytes keys nbits j distinct)
  have short_bytes : ∀ name : Name, (hashedBytes name).length < 2 ^ 32 := fun name =>
    (List.length_take_le _ _).trans_lt (Nat.mod_lt _ (Nat.two_pow_pos 32))
  have of_long : ∀ name : Name, 2 ^ 32 ≤ name.length → spreadLookup keys nbits j name found.salt = spreadHash nbits j := by
    intro name length
    refine congrArg (spreadHash nbits) (if_neg fun member => ?_)
    obtain ⟨other, -, eq⟩ := List.mem_map.mp member
    have short := short_bytes other
    rw [eq] at short
    omega
  have meets : spreadLookup keys nbits j keys[j] found.salt = spreadHash nbits j := by
    rcases Nat.lt_or_ge keys[j].length (2 ^ 32) with short | long
    · exact (keyHash_of_short short).symm.trans (spreadLookup_hashedBytes distinct j bound' found.salt)
    · exact of_long _ long
  have same : (PerfectHash.build found nbits (2 ^ nbits) keys.length (scrambleinit nbits)).hash
        (spreadLookup keys nbits j) keys[i] =
      (PerfectHash.build found nbits (2 ^ nbits) keys.length (scrambleinit nbits)).hash
        (spreadLookup keys nbits j) keys[j] := by
    have salt : (PerfectHash.build found nbits (2 ^ nbits) keys.length (scrambleinit nbits)).salt = found.salt := rfl
    simp only [PerfectHash.hash, salt, of_long _ length, meets]
  have eq := (perfect _ _ _ run (build_nonzero (log2u_eq_some log).1)).injective _ inside _
    (List.getElem_mem bound') same
  exact differs ((keys_distinct.getElem_inj_iff).mp eq).symm

theorem not_perfect_of_few (few : keys.length ≤ 1) : ¬PerfectWheneverBuilt keys := by
  intro perfect
  have distinct : (keys.map hashedBytes).Nodup := by
    match keys, few with
    | [], _ => exact List.nodup_nil
    | [name], _ => exact List.nodup_singleton _
  have log : log2u keys.length = some 0 := by
    match keys, few with
    | [], _ => rfl
    | [_], _ => rfl
  obtain ⟨found, succeeded, run⟩ := makePerfect_of_spread log (@spreadLookup_hashedBytes keys 0 0 distinct)
  obtain ⟨index, undefined, -⟩ := (perfect _ _ _ run (build_nonzero (by omega))).bounded []
  have shift := @build_shift 0 found keys.length (by omega)
  rw [PerfectHash.hash] at undefined
  simp only [shift] at undefined
  rw [if_pos (by omega)] at undefined
  exact absurd undefined (by simp)

/--
The tables are perfect whenever they are built exactly for several keys whose lengths fit in 32
bits, or for keys with which the construction never returns.
-/
theorem perfectWheneverBuilt_iff (keys : List Name) :
    PerfectWheneverBuilt keys ↔ 1 < keys.length ∧ ((∀ name ∈ keys, name.length < 2 ^ 32) ∨
      2 ^ 31 < keys.length ∨ ¬(keys.map hashedBytes).Nodup) := by
  constructor
  · intro perfect
    have several : 1 < keys.length := by
      by_contra few
      exact not_perfect_of_few (Nat.le_of_not_lt few) perfect
    refine ⟨several, ?_⟩
    by_contra neither
    obtain ⟨long, few, distinct⟩ : (¬∀ name ∈ keys, name.length < 2 ^ 32) ∧ keys.length ≤ 2 ^ 31 ∧
        (keys.map hashedBytes).Nodup := by
      simpa only [not_or, not_lt, not_not] using neither
    obtain ⟨name, length⟩ := not_forall.mp long
    obtain ⟨inside, length⟩ := Classical.not_imp.mp length
    exact not_perfect_of_long few several distinct inside (Nat.le_of_not_lt length) perfect
  · rintro ⟨several, short | many | same⟩ lookup8 rounds phash run nonzero
    · exact hash_isPerfect run nonzero several short
    · exact absurd (distinct_of_makePerfect run).2 (Nat.not_le.mpr many)
    · exact absurd (distinct_of_makePerfect run).1 same

/-- One class name is hashed to no index. -/
theorem not_perfectWheneverBuilt_one : ¬PerfectWheneverBuilt [[0x4e, 0x53, 0x42]] :=
  not_perfect_of_few (by decide)

end ObjcDyld.ObjcTables
