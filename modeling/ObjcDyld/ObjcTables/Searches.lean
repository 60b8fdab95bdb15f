import ObjcDyld.ObjcTables.Mapping
import ObjcDyld.ObjcTables.PerfectHashes

/-!
# Ranges of the scramble table

`log2u` is the logarithm rounded up, and `permute` stays in the range of its bits and keeps 0.
-/

namespace ObjcDyld.ObjcTables

theorem log2u_eq_some {val log : ℕ} (eq : log2u val = some log) :
    log < 32 ∧ val ≤ 2 ^ log ∧ ∀ less < log, 2 ^ less < val := by
  obtain ⟨reached, bound, unreached⟩ := List.find?_range_eq_some.mp eq
  refine ⟨List.mem_range.mp bound, by simpa [Nat.one_shiftLeft] using reached, fun less small => ?_⟩
  simpa [Nat.one_shiftLeft] using unreached less small

theorem log2u_two_pow {log : ℕ} (bound : log < 32) : log2u (2 ^ log) = some log := by
  cases eq : log2u (2 ^ log) with
  | none =>
      have unreached := List.find?_eq_none.mp eq log (List.mem_range.mpr bound)
      simp [Nat.one_shiftLeft] at unreached
  | some other =>
      obtain ⟨-, reached, unreached⟩ := log2u_eq_some eq
      have ge : log ≤ other := (Nat.pow_le_pow_iff_right (by omega)).mp reached
      by_contra differs
      have less : log < other := by
        rcases Nat.lt_or_eq_of_le ge with less | rfl
        · exact less
        · simp at differs
      exact absurd (unreached log less) (lt_irrefl _)

theorem mask_toNat {nbits : ℕ} (bound : nbits < 32) : ((1#32 <<< nbits) - 1).toNat = 2 ^ nbits - 1 := by
  have small : 2 ^ nbits < 2 ^ 32 := Nat.pow_lt_pow_right (by omega) bound
  have shifted : (1#32 <<< nbits).toNat = 2 ^ nbits := by
    rw [BitVec.toNat_shiftLeft, BitVec.toNat_ofNat, Nat.mod_eq_of_lt (by omega : 1 < 2 ^ 32), Nat.one_shiftLeft,
      Nat.mod_eq_of_lt small]
  have one : (1 : BitVec 32).toNat = 1 := rfl
  rw [BitVec.toNat_sub_of_le, shifted, one]
  rw [BitVec.le_def, shifted, one]
  exact Nat.one_le_two_pow

theorem permuteRound_lt {nbits : ℕ} (bound : nbits < 32) (x : BitVec 32) :
    (permuteRound nbits x).toNat < 2 ^ nbits := by
  unfold permuteRound
  simp only
  generalize (_ : BitVec 32) + _ = sum
  rw [BitVec.toNat_xor]
  have low : (sum &&& ((1#32 <<< nbits) - 1)).toNat < 2 ^ nbits := by
    rw [BitVec.toNat_and, mask_toNat bound, Nat.and_two_pow_sub_one_eq_mod]
    exact Nat.mod_lt _ (Nat.two_pow_pos nbits)
  refine Nat.xor_lt_two_pow low ?_
  rw [BitVec.toNat_ushiftRight]
  exact (Nat.shiftRight_le _ _).trans_lt low

theorem permuteRound_zero (nbits : ℕ) : permuteRound nbits 0 = 0 := by
  simp [permuteRound]

theorem scrambleinit_lt {nbits : ℕ} (bound : nbits < 32) (i : ℕ) : (scrambleinit nbits i).toNat < 2 ^ nbits := by
  rw [scrambleinit, permute, Function.iterate_succ_apply']
  exact permuteRound_lt bound _

theorem scrambleinit_zero (nbits : ℕ) : scrambleinit nbits 0 = 0 :=
  Function.iterate_fixed (permuteRound_zero nbits) 20

end ObjcDyld.ObjcTables

/-!
## Searches for perfect hashes

Whatever rounds `findhash` goes through, `alen` stays the capacity and `blen` a smaller power
of two, and what it returns comes from one last round with distinct pairs and a mapping.
-/

namespace ObjcDyld.ObjcTables

variable {lookup8 : Name → BitVec 64 → BitVec 64} {keys : List Name} {scramble : ℕ → BitVec 32} {nbits : ℕ}

/-- The lengths between the rounds of a search for a table of `2 ^ nbits` slots. -/
structure Finding.Lengths (nbits : ℕ) (state : Finding) : Prop where
  alen : state.alen = 2 ^ nbits
  blen : ∃ bits ≤ nbits, state.blen = 2 ^ bits

theorem Finding.Lengths.badPairs {state : Finding} (lengths : state.Lengths nbits) :
    (state.badPairs (2 ^ nbits)).Lengths nbits := by
  obtain ⟨bits, le, eq⟩ := lengths.blen
  unfold Finding.badPairs
  split
  · simp only [lengths.alen, lt_irrefl, if_false]
    refine ⟨rfl, ?_⟩
    split
    · next less =>
        rw [eq] at less ⊢
        exact ⟨bits + 1, (Nat.pow_lt_pow_iff_right (by omega)).mp less, (pow_succ 2 bits).symm⟩
    · exact ⟨bits, le, eq⟩
  · exact ⟨lengths.alen, bits, le, eq⟩

theorem Finding.Lengths.badMapping {state next : Finding} (lengths : state.Lengths nbits)
    (run : state.badMapping (2 ^ nbits) = some next) : next.Lengths nbits := by
  obtain ⟨bits, le, eq⟩ := lengths.blen
  unfold Finding.badMapping at run
  split at run
  · split at run
    · next less =>
        obtain rfl := Option.some.inj run
        rw [eq] at less
        exact ⟨lengths.alen, bits + 1, (Nat.pow_lt_pow_iff_right (by omega)).mp less,
          by rw [eq, pow_succ]⟩
    · exact absurd run (by simp)
  · obtain rfl := Option.some.inj run
    exact ⟨lengths.alen, bits, le, eq⟩

theorem max_div_two_pow (nbits shift : ℕ) : max (2 ^ nbits / 2 ^ shift) 1 = 2 ^ (nbits - shift) := by
  rcases le_total shift nbits with le | ge
  · rw [Nat.pow_div le (by omega)]
    exact max_eq_left Nat.one_le_two_pow
  · rw [Nat.sub_eq_zero_of_le ge, pow_zero]
    refine max_eq_right ?_
    calc 2 ^ nbits / 2 ^ shift ≤ 2 ^ shift / 2 ^ shift := Nat.div_le_div_right (Nat.pow_le_pow_right (by omega) ge)
      _ = 1 := Nat.div_self (Nat.two_pow_pos shift)

theorem initalen_lengths (nbits nkeys : ℕ) :
    Finding.Lengths nbits ⟨1, (initalen (2 ^ nbits) nkeys).1, (initalen (2 ^ nbits) nkeys).2, 0, 0⟩ := by
  refine ⟨max_eq_left Nat.one_le_two_pow, ?_⟩
  unfold initalen
  simp only
  split
  · exact ⟨nbits - 4, Nat.sub_le _ _, max_div_two_pow nbits 4⟩
  · split
    · exact ⟨nbits - 3, Nat.sub_le _ _, max_div_two_pow nbits 3⟩
    · exact ⟨nbits - 2, Nat.sub_le _ _, max_div_two_pow nbits 2⟩

/-- The last round of a search: distinct pairs, and a mapping of them. -/
structure Found.Succeeded (lookup8 : Name → BitVec 64 → BitVec 64) (keys : List Name) (scramble : ℕ → BitVec 32)
    (nbits : ℕ) (found : Found) : Prop where
  alen : found.alen = 2 ^ nbits
  blen : ∃ bits ≤ nbits, found.blen = 2 ^ bits
  mapping : ∃ tabb tables, inittab (initnorm lookup8 keys nbits found.blen found.salt) keys.length = some tabb ∧
    perfect (initnorm lookup8 keys nbits found.blen found.salt) scramble (2 ^ nbits) found.blen tabb = some tables ∧
      found.tabb = tables.tabb

theorem findhashLoop_succeeded (small : nbits < 32) (rounds : ℕ) {state : Finding} (lengths : state.Lengths nbits)
    {found : Found} (run : findhashLoop lookup8 keys scramble (2 ^ nbits) rounds state = some (some found)) :
    found.Succeeded lookup8 keys scramble nbits := by
  induction rounds generalizing state with
  | zero => exact absurd run (by simp [findhashLoop])
  | succ rounds ih =>
      rw [findhashLoop] at run
      simp only [lengths.alen, log2u_two_pow small, Option.bind_eq_bind, Option.bind_some] at run
      split at run
      · exact ih lengths.badPairs run
      · next tabb sorted =>
          split at run
          · next tables mapped =>
              obtain rfl := Option.some.inj (Option.some.inj run)
              exact ⟨rfl, lengths.blen, tabb, tables, sorted, mapped, rfl⟩
          · split at run
            · exact absurd run (by simp)
            · next next after => exact ih (lengths.badMapping after) run

theorem findhash_succeeded (small : nbits < 32) {rounds : ℕ} {found : Found}
    (run : findhash lookup8 keys scramble (2 ^ nbits) rounds = some (some found)) :
    found.Succeeded lookup8 keys scramble nbits :=
  findhashLoop_succeeded small rounds (initalen_lengths nbits _) run

end ObjcDyld.ObjcTables
