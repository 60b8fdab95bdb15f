import ObjcDyld.Categories.Unattached

/-!
# When the lists hold the categories that wait

The lists are right as long as no category is removed from an array, and no array grows over the
number of elements whose size is a `uint32_t`. The first call that does so makes them wrong.
-/

namespace ObjcDyld.Categories

def arraySizes : List ℕ := List.iterate grownSize 2 53

theorem grownSize_mem : ∀ size ∈ arraySizes, size ≠ maximalCount →
    grownSize size ∈ arraySizes ∧ size < grownSize size ∧ arrayByteSize (grownSize size) = 16 * grownSize size := by
  decide +kernel

theorem le_maximalCount : ∀ size ∈ arraySizes, size ≤ maximalCount := by
  decide +kernel

theorem arrayByteSize_maximal : arrayByteSize (grownSize maximalCount) = 0 := by
  decide +kernel

/-- The list has these elements: one of them inline, more in an array. -/
inductive Represents : CategoryList → List LocstampedCategory → Prop where
  | inline (lc : LocstampedCategory) : Represents (.inline (some lc)) [lc]
  | array {slots : List (Option LocstampedCategory)} {size : ℕ} {lcs : List LocstampedCategory} (many : 2 ≤ lcs.length)
      (allocated : slots.length = size) (known : size ∈ arraySizes) (fits : lcs.length ≤ size)
      (filled : slots.take lcs.length = lcs.map some) : Represents (.array slots lcs.length size) lcs

variable {list : CategoryList} {lcs : List LocstampedCategory} {map : UnattachedCategories} {waiting : Waiting}

theorem Represents.count (represents : Represents list lcs) : list.count = lcs.length := by
  cases represents with
  | inline lc => rfl
  | array => rfl

theorem Represents.elements (represents : Represents list lcs) : list.elements = lcs.map some := by
  cases represents with
  | inline lc => rfl
  | array many allocated known fits filled => exact filled

theorem Represents.ne_nil (represents : Represents list lcs) : lcs ≠ [] := by
  cases represents with
  | inline lc => exact List.cons_ne_nil _ _
  | array many => exact List.length_pos_iff.mp (Nat.zero_lt_of_lt many)

theorem represents_set {slots : List (Option LocstampedCategory)} {size : ℕ} (many : 2 ≤ lcs.length)
    (allocated : slots.length = size) (known : size ∈ arraySizes) (fits : lcs.length < size)
    (filled : slots.take lcs.length = lcs.map some) (lc : LocstampedCategory) :
    Represents (.array (slots.set lcs.length (some lc)) ((lcs.length + 1) % 2 ^ 31) size) (lcs ++ [lc]) := by
  have small : lcs.length + 1 < 2 ^ 31 :=
    Nat.lt_of_le_of_lt (Nat.le_trans fits (le_maximalCount size known)) (by decide)
  have length : (lcs ++ [lc]).length = lcs.length + 1 := by rw [List.length_append, List.length_singleton]
  rw [Nat.mod_eq_of_lt small, ← length]
  refine .array (by omega) (by rw [List.length_set, allocated]) known (by omega) ?_
  rw [length, List.take_set, List.take_succ_eq_append_getElem (by omega), List.set_append_right _ _ (by simp), filled]
  simp [List.map_append]

theorem Represents.append (represents : Represents list lcs) (lc : LocstampedCategory)
    (small : lcs.length ≠ maximalCount) : ∃ list', list.append lc = some list' ∧ Represents list' (lcs ++ [lc]) := by
  cases represents with
  | inline first =>
      exact ⟨_, rfl, @Represents.array [some first, some lc] 2 [first, lc] le_rfl rfl (by decide +kernel) le_rfl rfl⟩
  | @array slots size _ many allocated known fits filled =>
      rw [CategoryList.append]
      by_cases full : lcs.length = size
      · obtain ⟨known', more, bytes⟩ := grownSize_mem size known (full ▸ small)
        have grown : (reallocf slots (arrayByteSize (grownSize size))).length = grownSize size := by
          rw [reallocf, bytes, Nat.mul_div_cancel_left _ (by decide), List.length_append, List.length_take,
            List.length_replicate]
          omega
        have kept : (reallocf slots (arrayByteSize (grownSize size))).take lcs.length = lcs.map some := by
          rw [reallocf, bytes, Nat.mul_div_cancel_left _ (by decide), List.take_append_of_le_length
            (by rw [List.length_take]; omega), List.take_take, Nat.min_eq_left (by omega), filled]
        simp only [full, if_true]
        rw [if_pos (by omega)]
        exact ⟨_, rfl, full ▸ represents_set many grown known' (by omega) kept lc⟩
      · simp only [full, if_false]
        rw [if_pos (by omega)]
        exact ⟨_, rfl, represents_set many allocated known (by omega) filled lc⟩

theorem Represents.append_maximal (represents : Represents list lcs) (lc : LocstampedCategory)
    (maximal : lcs.length = maximalCount) : list.append lc = none := by
  cases represents with
  | inline first => exact absurd maximal (by simp [maximalCount])
  | @array slots size _ many allocated known fits filled =>
      obtain rfl : size = lcs.length := le_antisymm (maximal ▸ le_maximalCount size known) fits
      have no_bytes : (reallocf slots 0).length = 0 := by rw [reallocf]; simp
      simp only [CategoryList.append, if_true]
      rw [maximal, arrayByteSize_maximal, no_bytes, if_neg (Nat.not_lt_zero _)]

theorem Represents.findIdx? {slots : List (Option LocstampedCategory)} {size : ℕ}
    (represents : Represents (.array slots lcs.length size) lcs) (cat : ℕ) :
    ((slots.take lcs.length).findIdx? fun slot => slot.any (·.cat = cat)) = lcs.findIdx? (·.cat = cat) := by
  rw [show slots.take lcs.length = lcs.map some from represents.elements, List.findIdx?_map]
  rfl

theorem Represents.erase_absent (represents : Represents list lcs) {cat : ℕ} (absent : ∀ lc ∈ lcs, lc.cat ≠ cat) :
    list.erase cat = list := by
  cases represents with
  | inline lc =>
      rw [CategoryList.erase, if_neg]
      simpa using absent lc List.mem_cons_self
  | array many allocated known fits filled =>
      have not_found : lcs.findIdx? (·.cat = cat) = none := List.findIdx?_eq_none_iff.mpr (by simpa using absent)
      rw [CategoryList.erase, (Represents.array many allocated known fits filled).findIdx? cat, not_found]

theorem Represents.erase_only (represents : Represents list lcs) {cat : ℕ} (single : lcs.length < 2)
    (present : ¬∀ lc ∈ lcs, lc.cat ≠ cat) : list.erase cat = .inline none ∧ lcs.eraseP (·.cat = cat) = [] := by
  cases represents with
  | inline lc =>
      have same : lc.cat = cat := by simpa using present
      simp [CategoryList.erase, same]
  | array many => exact absurd many (Nat.not_le.mpr single)

theorem Represents.erase_count (represents : Represents list lcs) (many : 2 ≤ lcs.length) (cat : ℕ) :
    (list.erase cat).count = lcs.length := by
  cases represents with
  | inline lc => exact absurd many (by simp)
  | array =>
      rw [CategoryList.erase]
      split <;> rfl

/-- Every list of the map has the categories that wait for its class. -/
def Sound (map : UnattachedCategories) (waiting : Waiting) : Prop :=
  ∀ cls, (map cls = none ∧ waiting cls = []) ∨ ∃ list, map cls = some list ∧ Represents list (waiting cls)

theorem Sound.agrees (sound : Sound map waiting) : Agrees map waiting := by
  refine ⟨fun cls => ?_, fun cls list at_cls => ?_, fun cls list at_cls => ?_⟩
  · obtain ⟨no_entry, nobody⟩ | ⟨list, at_cls, represents⟩ := sound cls
    · simp [no_entry, nobody]
    · simp [at_cls, represents.ne_nil]
  · obtain ⟨no_entry, -⟩ | ⟨list', at_cls', represents⟩ := sound cls
    · exact nomatch no_entry.symm.trans at_cls
    · obtain rfl := Option.some.inj (at_cls.symm.trans at_cls')
      exact represents.count
  · obtain ⟨no_entry, -⟩ | ⟨list', at_cls', represents⟩ := sound cls
    · exact nomatch no_entry.symm.trans at_cls
    · obtain rfl := Option.some.inj (at_cls.symm.trans at_cls')
      exact represents.elements

theorem Sound.update (sound : Sound map waiting) (cls : ℕ) (represents : Represents list lcs) :
    Sound (Function.update map cls (some list)) (Function.update waiting cls lcs) := by
  intro other
  by_cases same : other = cls
  · subst same
    exact .inr ⟨list, Function.update_self .., by rwa [Function.update_self]⟩
  · rw [Function.update_of_ne same, Function.update_of_ne same]
    exact sound other

theorem Sound.drop (sound : Sound map waiting) (cls : ℕ) :
    Sound (Function.update map cls none) (Function.update waiting cls []) := by
  intro other
  by_cases same : other = cls
  · subst same
    exact .inl ⟨Function.update_self .., Function.update_self ..⟩
  · rw [Function.update_of_ne same, Function.update_of_ne same]
    exact sound other

theorem Sound.addForClass (sound : Sound map waiting) (lc : LocstampedCategory) {cls : ℕ}
    (small : (waiting cls).length ≠ maximalCount) :
    ∃ next, map.addForClass lc cls = some next ∧ Sound next (Function.update waiting cls (waiting cls ++ [lc])) := by
  rw [UnattachedCategories.addForClass]
  obtain ⟨no_entry, nobody⟩ | ⟨list, at_cls, represents⟩ := sound cls
  · rw [no_entry, nobody]
    exact ⟨_, rfl, sound.update cls (.inline lc)⟩
  · obtain ⟨list', appended, represents'⟩ := represents.append lc small
    simp only [at_cls, appended]
    exact ⟨_, rfl, sound.update cls represents'⟩

theorem Sound.eraseCategoryForClass (sound : Sound map waiting) {cat cls : ℕ}
    (safe : (waiting cls).length < 2 ∨ ∀ lc ∈ waiting cls, lc.cat ≠ cat) :
    Sound (map.eraseCategoryForClass cat cls)
      (Function.update waiting cls ((waiting cls).eraseP (·.cat = cat))) := by
  rw [UnattachedCategories.eraseCategoryForClass]
  obtain ⟨no_entry, nobody⟩ | ⟨list, at_cls, represents⟩ := sound cls
  · rw [no_entry, nobody, List.eraseP_nil, ← nobody, Function.update_eq_self]
    exact sound
  · by_cases absent : ∀ lc ∈ waiting cls, lc.cat ≠ cat
    · have kept : (waiting cls).eraseP (·.cat = cat) = waiting cls := List.eraseP_of_forall_not (by simpa using absent)
      have counted : list.count ≠ 0 := represents.count ▸ List.length_pos_iff.mpr represents.ne_nil |>.ne'
      simp only [at_cls, represents.erase_absent absent, if_neg counted, kept]
      exact sound.update cls represents
    · obtain ⟨erased, left⟩ := represents.erase_only (safe.resolve_right absent) absent
      simp only [at_cls, erased, left]
      exact sound.drop cls

theorem Sound.run (sound : Sound map waiting) (call : Call) (safe : call.Safe waiting) :
    ∃ next, call.run map = some next ∧ Sound next (call.expected waiting) := by
  cases call with
  | addForClass lc cls => exact sound.addForClass lc safe
  | eraseCategoryForClass cat cls => exact ⟨_, rfl, sound.eraseCategoryForClass safe⟩
  | attachToClass previously => exact ⟨_, rfl, sound.drop previously⟩
  | eraseClass cls => exact ⟨_, rfl, sound.drop cls⟩

theorem Sound.safe (sound : Sound map waiting) (call : Call) {next : UnattachedCategories}
    (run : call.run map = some next) (agrees : Agrees next (call.expected waiting)) : call.Safe waiting := by
  cases call with
  | addForClass lc cls =>
      intro maximal
      obtain ⟨-, nobody⟩ | ⟨list, at_cls, represents⟩ := sound cls
      · rw [nobody] at maximal
        exact absurd maximal (by decide)
      · rw [Call.run, UnattachedCategories.addForClass, at_cls] at run
        simp only [represents.append_maximal lc maximal] at run
        exact nomatch run
  | eraseCategoryForClass cat cls =>
      by_contra unsafe_erase
      obtain ⟨many, present⟩ := not_or.mp unsafe_erase
      rw [Nat.not_lt] at many
      push Not at present
      obtain ⟨lc, member, same⟩ := present
      obtain ⟨-, nobody⟩ | ⟨list, at_cls, represents⟩ := sound cls
      · exact absurd member (by simp [nobody])
      · have counted := represents.erase_count many cat
        have positive : (list.erase cat).count ≠ 0 := by omega
        obtain rfl : _ = next := Option.some.inj run
        have wrong := agrees.count cls (list.erase cat) (by
          rw [UnattachedCategories.eraseCategoryForClass]
          simp only [at_cls, if_neg positive, Function.update_self])
        rw [counted, Call.expected, Function.update_self,
          List.length_eraseP_of_mem member (decide_eq_true same)] at wrong
        omega
  | attachToClass previously => trivial
  | eraseClass cls => trivial

theorem allSafe_concat_iff (done : List Call) (call : Call) :
    AllSafe (done ++ [call]) ↔ AllSafe done ∧ call.Safe (expectedCalls done) :=
  @Prefixes.each_concat_iff _ (fun before (call : Call) => call.Safe (expectedCalls before)) done call

theorem alwaysAgrees_concat_iff (done : List Call) (call : Call) :
    AlwaysAgrees (done ++ [call]) ↔ AlwaysAgrees done ∧
      ∃ map, runCalls (done ++ [call]) = some map ∧ Agrees map (expectedCalls (done ++ [call])) := by
  constructor
  · exact fun always => ⟨fun before inside => always before (inside.trans (List.prefix_append ..)), always _ (List.prefix_refl _)⟩
  · rintro ⟨always, last⟩ before inside
    obtain rfl | inside := List.prefix_concat_iff.mp inside
    · exact last
    · exact always before inside

/-- The map is right after every call exactly if no call removes a category from a list of two or more, and none
grows a list over the maximum. -/
theorem alwaysAgrees_iff (calls : List Call) : AlwaysAgrees calls ↔ AllSafe calls := by
  have start : Sound (fun _ => none) (fun _ => []) := fun _ => .inl ⟨rfl, rfl⟩
  -- the map stays sound while the calls are safe
  suffices (AlwaysAgrees calls ↔ AllSafe calls) ∧
      (AllSafe calls → ∃ map, runCalls calls = some map ∧ Sound map (expectedCalls calls)) from this.1
  induction calls using List.reverseRecOn with
  | nil =>
      refine ⟨⟨fun _ before call after split => by simp at split, fun _ before inside => ?_⟩, fun _ => ⟨_, rfl, start⟩⟩
      rw [List.prefix_nil.mp inside]
      exact ⟨_, rfl, start.agrees⟩
  | append_singleton done call ih =>
      obtain ⟨iff, sound⟩ := ih
      rw [alwaysAgrees_concat_iff, allSafe_concat_iff, iff]
      have expected : expectedCalls (done ++ [call]) = call.expected (expectedCalls done) := List.foldl_concat ..
      refine ⟨and_congr_right fun safe => ?_, fun ⟨safe, last⟩ => ?_⟩
      · obtain ⟨map, run, sound⟩ := sound safe
        rw [runCalls, Prefixes.foldlM_snoc done call run, expected]
        constructor
        · rintro ⟨next, step, agrees⟩
          exact sound.safe call step agrees
        · intro last
          obtain ⟨next, step, sound'⟩ := sound.run call last
          exact ⟨next, step, sound'.agrees⟩
      · obtain ⟨map, run, sound⟩ := sound safe
        obtain ⟨next, step, sound'⟩ := sound.run call last
        exact ⟨next, by rw [runCalls, Prefixes.foldlM_snoc done call run, step], expected ▸ sound'⟩

/-- The first of two categories of a class is unloaded: the list has the second one twice. -/
theorem not_alwaysAgrees_firstOfTwo :
    ¬AlwaysAgrees [.addForClass ⟨16, 1⟩ 8, .addForClass ⟨32, 1⟩ 8, .eraseCategoryForClass 16 8] := by
  intro always
  obtain ⟨map, run, agrees⟩ := always _ (List.prefix_refl _)
  obtain rfl : _ = map := Option.some.inj run
  have twice := agrees.count 8 _ rfl
  exact absurd twice (by decide)

end ObjcDyld.Categories
