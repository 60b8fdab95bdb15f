import ObjcDyld.Closures.InterposingTuples

/-!
# Which interposing tuples are collected

The tuples that should be collected are those of the entries with a bound and a rebased half.  The
code collects exactly them if no fixup lies just past a section, every such entry is within 4 GB of
the section's start and bound to an image or the cache, and the last section has a tuple if any has.
-/

namespace ObjcDyld.Closures

open ByteMemory ChainedFixups ChainWalk
open ResolvedSymbolTarget (kind kindAbsolute setImage)

/-! ## What should be collected -/

/-- The target of a bind whose offset passes a test. -/
def Fixup.bindAt (test : BitVec 64 → Bool) : Fixup → Option (BitVec 64)
  | bind offset target => if test offset then some target else none
  | rebase _ _ | badOrdinal _ => none

/-- The target of a rebase whose offset passes a test. -/
def Fixup.rebaseAt (test : BitVec 64 → Bool) : Fixup → Option (BitVec 64)
  | rebase offset target => if test offset then some target else none
  | bind _ _ | badOrdinal _ => none

/-- The last fixup of a kind decides. -/
def lastOf (select : Fixup → Option (BitVec 64)) (reported : List Fixup) : Option (BitVec 64) :=
  (reported.filterMap select).getLast?

namespace InterposingSection

variable (sect : InterposingSection) (image : InterposingImage)

/-- The offset is that of one of the halves of an entry. -/
def AtEntry (index : ℕ) (offset : BitVec 64) : Prop :=
  offset.toNat = (sect.sectVmOffset image).toNat + index * image.entrySize.toNat ∨
    offset.toNat = (sect.sectVmOffset image).toNat + index * image.entrySize.toNat + image.entrySize.toNat / 2

instance (index : ℕ) (offset : BitVec 64) : Decidable (sect.AtEntry image index offset) :=
  inferInstanceAs (Decidable (_ ∨ _))

def entryCount : ℕ := sect.sectSize.toNat / image.entrySize.toNat

def boundHalf (reported : List Fixup) (index : ℕ) : Option (BitVec 64) :=
  lastOf (Fixup.bindAt fun offset => sect.AtEntry image index offset) reported

def rebasedHalf (reported : List Fixup) (index : ℕ) : Option (BitVec 64) :=
  lastOf (Fixup.rebaseAt fun offset => sect.AtEntry image index offset) reported

/-- The tuple of an entry with a bound and a rebased half. -/
def expectedTuple (reported : List Fixup) (index : ℕ) : Option InterposingTuple :=
  match sect.boundHalf image reported index, sect.rebasedHalf image reported index with
  | some stock, some replacement => some ⟨stock, replacement⟩
  | _, _ => none

def expectedTuples (reported : List Fixup) : List InterposingTuple :=
  (List.range (sect.entryCount image)).filterMap (sect.expectedTuple image reported)

/-- No rebase or bind is taken for a tuple behind the array. -/
def WritesInside (reported : List Fixup) : Prop :=
  ∀ fixup ∈ reported, ∀ index, sect.tupleIndex image fixup.offset = some index →
    (∃ offset, fixup = .badOrdinal offset) ∨ index < sect.tupleCount image

/-- No bind to a tuple has an ordinal that is out of range. -/
def OrdinalsInRange (reported : List Fixup) : Prop :=
  ∀ offset, .badOrdinal offset ∈ reported → sect.tupleIndex image offset = none

/-- The entries with a bound and a rebased half are among the first 4 GB, and not bound to an absolute target. -/
def EntriesEmitted (reported : List Fixup) : Prop :=
  ∀ index < sect.entryCount image, ∀ stock ∈ sect.boundHalf image reported index,
    (sect.rebasedHalf image reported index).isSome →
      index * image.entrySize.toNat < 2 ^ 32 ∧ kind stock ≠ kindAbsolute

end InterposingSection

/-! ## The index of a tuple -/

section Index

variable {sect : InterposingSection} {image : InterposingImage}

theorem entrySize_cases (image : InterposingImage) : image.entrySize = 16 ∨ image.entrySize = 8 := by
  unfold InterposingImage.entrySize InterposingImage.pointerSize
  cases image.is64
  · exact Or.inr rfl
  · exact Or.inl rfl

theorem isTupleFixup_eq_some_iff {start last offset : BitVec 64} {entrySize : BitVec 32}
    (entry : entrySize = 16 ∨ entrySize = 8) {index : BitVec 32} :
    isTupleFixup start last offset entrySize = some index ↔
      start ≤ offset ∧ offset ≤ last ∧ offset.toNat - start.toNat < 2 ^ 32 ∧
        (offset.toNat = start.toNat + index.toNat * entrySize.toNat ∨
          offset.toNat = start.toNat + index.toNat * entrySize.toNat + entrySize.toNat / 2) := by
  unfold isTupleFixup
  by_cases below : offset < start
  · rw [if_pos below]
    exact iff_of_false (Option.some_ne_none _).symm fun inside => BitVec.not_le.mpr below inside.1
  by_cases past : offset > last
  · rw [if_neg below, if_pos past]
    exact iff_of_false (Option.some_ne_none _).symm fun inside => BitVec.not_le.mpr past inside.2.1
  rw [if_neg below, if_neg past]
  rw [BitVec.not_lt] at below
  simp only [below, BitVec.not_lt.mp past, true_and]
  have into : (offset - start).toNat = offset.toNat - start.toNat := BitVec.toNat_sub_of_le below
  have less : start.toNat ≤ offset.toNat := below
  have small := index.isLt
  -- The comparisons of the source, in numbers.
  have first : ∀ tupleIndex : BitVec 32, (tupleIndex * entrySize).setWidth 64 = offset - start ↔
      tupleIndex.toNat * entrySize.toNat % 2 ^ 32 = offset.toNat - start.toNat := by
    intro tupleIndex
    rw [← BitVec.toNat_inj, into, BitVec.toNat_setWidth, BitVec.toNat_mul]
    omega
  have second : ∀ tupleIndex : BitVec 32, (tupleIndex * entrySize + entrySize / 2).setWidth 64 = offset - start ↔
      (tupleIndex.toNat * entrySize.toNat % 2 ^ 32 + entrySize.toNat / 2) % 2 ^ 32 = offset.toNat - start.toNat := by
    intro tupleIndex
    have half : (entrySize / 2).toNat = entrySize.toNat / 2 := BitVec.toNat_udiv
    rw [← BitVec.toNat_inj, into, BitVec.toNat_setWidth, BitVec.toNat_add, BitVec.toNat_mul, half]
    omega
  have quotient : ((offset - start) / entrySize.setWidth 64).toNat =
      (offset.toNat - start.toNat) / entrySize.toNat := by
    rw [BitVec.toNat_udiv, into, BitVec.toNat_setWidth_of_le (by decide)]
  generalize found : ((offset - start) / entrySize.setWidth 64).setWidth 32 = tupleIndex
  have value : tupleIndex.toNat = (offset.toNat - start.toNat) / entrySize.toNat % 2 ^ 32 := by
    rw [← found, BitVec.toNat_setWidth, quotient]
  have eq_iff : tupleIndex = index ↔ tupleIndex.toNat = index.toNat := BitVec.toNat_inj.symm
  have size : entrySize.toNat = 16 ∨ entrySize.toNat = 8 := entry.imp (fun same => by rw [same]; rfl) fun same => by
    rw [same]
    rfl
  simp only [first, second]
  split
  · next holds =>
      rw [Option.some.injEq, eq_iff]
      rcases size with size | size <;>
        · rw [size] at holds value ⊢
          omega
  · next fails =>
      refine iff_of_false (Option.some_ne_none _).symm fun inside => fails ?_
      rcases size with size | size <;>
        · rw [size] at inside value ⊢
          omega

theorem entrySize_toNat (image : InterposingImage) : image.entrySize.toNat = 16 ∨ image.entrySize.toNat = 8 :=
  (entrySize_cases image).imp (fun same => by rw [same]; rfl) fun same => by
    rw [same]
    rfl

theorem sectVmEndOffset_toNat (member : sect ∈ image.sections) (accepted : sect.accepted image = true) :
    (sect.sectVmOffset image + sect.sectSize).toNat = (sect.sectVmOffset image).toNat + sect.sectSize.toNat := by
  have above : image.preferredLoadAddress.toNat ≤ sect.sectAddr.toNat := image.above sect member
  simp only [InterposingSection.accepted, InterposingSection.malformedSectionRange, Bool.and_eq_true,
    Bool.not_eq_true', Bool.or_eq_false_iff] at accepted
  have inside := (WordRanges.greaterThanAddOrOverflow_iff _ _ _).mp accepted.1.2.2
  have small := (sect.segVmAddr + sect.segFileSize).isLt
  have start : (sect.sectVmOffset image).toNat = sect.sectAddr.toNat - image.preferredLoadAddress.toNat :=
    BitVec.toNat_sub_of_le (BitVec.le_def.mpr above)
  rw [BitVec.toNat_add, start]
  omega

theorem tupleIndex_eq_some_iff (member : sect ∈ image.sections) (accepted : sect.accepted image = true)
    {offset : BitVec 64} {index : ℕ} (inside : index < sect.entryCount image) :
    sect.tupleIndex image offset = some index ↔
      sect.AtEntry image index offset ∧ index * image.entrySize.toNat < 2 ^ 32 := by
  have last := sectVmEndOffset_toNat member accepted
  have room : (index + 1) * image.entrySize.toNat ≤ sect.sectSize.toNat :=
    (Nat.mul_le_mul_right _ inside).trans (Nat.div_mul_le_self _ _)
  rw [InterposingSection.tupleIndex, Option.map_eq_some_iff, InterposingSection.AtEntry]
  constructor
  · rintro ⟨tupleIndex, found, rfl⟩
    obtain ⟨-, -, near, halves⟩ := (isTupleFixup_eq_some_iff (entrySize_cases image)).mp found
    exact ⟨halves, by omega⟩
  · rintro ⟨halves, near⟩
    have size := entrySize_toNat image
    have small : index < 2 ^ 32 := by
      rcases size with size | size <;> · rw [size] at near; omega
    refine ⟨BitVec.ofNat 32 index, (isTupleFixup_eq_some_iff (entrySize_cases image)).mpr ?_, ?_⟩
    · rw [BitVec.toNat_ofNat, Nat.mod_eq_of_lt small, BitVec.le_def, BitVec.le_def, last]
      rcases size with size | size <;>
        · rw [size] at near room halves ⊢
          omega
    · rw [BitVec.toNat_ofNat, Nat.mod_eq_of_lt small]

end Index

/-! ## The array -/

theorem lastOf_concat (select : Fixup → Option (BitVec 64)) (reported : List Fixup) (fixup : Fixup) :
    lastOf select (reported ++ [fixup]) = (select fixup).or (lastOf select reported) := by
  unfold lastOf
  rw [List.filterMap_append]
  cases found : select fixup with
  | none => simp [found]
  | some target => simp [found]

theorem modify_map_range {α : Type} (count index : ℕ) (value : ℕ → α) (set : α → α) :
    ((List.range count).map value).modify index set =
      (List.range count).map fun other => if other = index then set (value other) else value other := by
  refine List.ext_getElem (by simp) fun other inside _ => ?_
  rw [List.getElem_modify]
  simp only [List.getElem_map, List.getElem_range, eq_comm]

section Collecting

variable {sect : InterposingSection} {image : InterposingImage}

/-- The tuple at an index of the array, as the code finds its halves. -/
def foundTuple (sect : InterposingSection) (image : InterposingImage) (reported : List Fixup) (index : ℕ) :
    InterposingTuple where
  stockImplementation := (lastOf (Fixup.bindAt fun offset => sect.tupleIndex image offset = some index) reported).getD
    InterposingTuple.unset.stockImplementation
  newImplementation := (lastOf (Fixup.rebaseAt fun offset => sect.tupleIndex image offset = some index) reported).getD
    InterposingTuple.unset.newImplementation

/-- Rebases point to an image. -/
def Fixup.Proper : Fixup → Prop
  | rebase _ target => kind target ≠ kindAbsolute
  | bind _ _ | badOrdinal _ => True

/-- What the loops over the fixups keep. -/
structure Collected (sect : InterposingSection) (image : InterposingImage) (collector : Collector) : Prop where
  tuples : collector.resolvedTuples = (List.range (sect.tupleCount image)).map (foundTuple sect image collector.reported)
  inside : collector.outOfBounds = false ↔ sect.WritesInside image collector.reported
  ordinals : collector.diagError = false ↔ sect.OrdinalsInRange image collector.reported
  proper : ∀ fixup ∈ collector.reported, fixup.Proper

theorem forall_mem_concat {α : Type} {p : α → Prop} {items : List α} {item : α} :
    (∀ other ∈ items ++ [item], p other) ↔ (∀ other ∈ items, p other) ∧ p item := by
  rw [List.forall_mem_append, List.forall_mem_singleton]

theorem foundTuple_rebase (reported : List Fixup) (offset target : BitVec 64) (index : ℕ) :
    foundTuple sect image (reported ++ [.rebase offset target]) index =
      if sect.tupleIndex image offset = some index then
        { foundTuple sect image reported index with newImplementation := target }
      else foundTuple sect image reported index := by
  simp only [foundTuple, lastOf_concat, Fixup.bindAt, Fixup.rebaseAt, Option.none_or]
  by_cases here : sect.tupleIndex image offset = some index <;> simp [here]

theorem foundTuple_bind (reported : List Fixup) (offset target : BitVec 64) (index : ℕ) :
    foundTuple sect image (reported ++ [.bind offset target]) index =
      if sect.tupleIndex image offset = some index then
        { foundTuple sect image reported index with stockImplementation := target }
      else foundTuple sect image reported index := by
  simp only [foundTuple, lastOf_concat, Fixup.bindAt, Fixup.rebaseAt, Option.none_or]
  by_cases here : sect.tupleIndex image offset = some index <;> simp [here]

theorem foundTuple_badOrdinal (reported : List Fixup) (offset : BitVec 64) (index : ℕ) :
    foundTuple sect image (reported ++ [.badOrdinal offset]) index = foundTuple sect image reported index := by
  simp only [foundTuple, lastOf_concat, Fixup.bindAt, Fixup.rebaseAt, Option.none_or]

theorem Collected.write {collector : Collector} (collected : Collected sect image collector) {fixup : Fixup} {index : ℕ}
    (proper : fixup.Proper) (found : sect.tupleIndex image fixup.offset = some index)
    (writes : ∀ offset, fixup ≠ .badOrdinal offset)
    {set : InterposingTuple → InterposingTuple}
    (sets : ∀ other, foundTuple sect image (collector.reported ++ [fixup]) other =
      if other = index then set (foundTuple sect image collector.reported other)
      else foundTuple sect image collector.reported other) :
    Collected sect image (({ collector with reported := collector.reported ++ [fixup] } : Collector).write index set) := by
  have length : collector.resolvedTuples.length = sect.tupleCount image := by
    rw [collected.tuples, List.length_map, List.length_range]
  have inside : sect.WritesInside image (collector.reported ++ [fixup]) ↔
      sect.WritesInside image collector.reported ∧ index < sect.tupleCount image := by
    rw [InterposingSection.WritesInside, forall_mem_concat]
    refine and_congr_right fun _ => ?_
    simp only [found, Option.some.injEq, forall_eq']
    exact or_iff_right fun ⟨offset, bad⟩ => writes offset bad
  have ordinals : sect.OrdinalsInRange image (collector.reported ++ [fixup]) ↔
      sect.OrdinalsInRange image collector.reported := by
    simp only [InterposingSection.OrdinalsInRange, List.mem_append, List.mem_singleton]
    refine forall_congr' fun offset => ?_
    rw [or_iff_left fun bad => writes offset bad.symm]
  unfold Collector.write
  split
  · next less =>
      rw [length] at less
      refine ⟨?_, ?_, ?_, forall_mem_concat.mpr ⟨collected.proper, proper⟩⟩
      · rw [collected.tuples, modify_map_range]
        exact List.map_congr_left fun other _ => (sets other).symm
      · rw [inside, and_iff_left less]
        exact collected.inside
      · rw [ordinals]
        exact collected.ordinals
  · next past =>
      rw [length] at past
      refine ⟨?_, ?_, ?_, forall_mem_concat.mpr ⟨collected.proper, proper⟩⟩
      · -- The array does not have the index, so no tuple of it changes.
        rw [collected.tuples]
        refine List.map_congr_left fun other member => ?_
        rw [sets, if_neg]
        rintro rfl
        exact past (List.mem_range.mp member)
      · exact iff_of_false Bool.noConfusion fun all => past (inside.mp all).2
      · rw [ordinals]
        exact collected.ordinals

theorem Collected.take {collector : Collector} (collected : Collected sect image collector) {fixup : Fixup}
    (proper : fixup.Proper) :
    Collected sect image (collector.take sect image fixup) := by
  unfold Collector.take
  cases found : sect.tupleIndex image fixup.offset with
  | none =>
      have away : ∀ index, sect.tupleIndex image fixup.offset ≠ some index := fun index other =>
        Option.some_ne_none index (other.symm.trans found)
      have same : ∀ index, foundTuple sect image (collector.reported ++ [fixup]) index =
          foundTuple sect image collector.reported index := by
        intro index
        cases fixup with
        | rebase offset target => exact (foundTuple_rebase _ _ _ _).trans (if_neg (away index))
        | bind offset target => exact (foundTuple_bind _ _ _ _).trans (if_neg (away index))
        | badOrdinal offset => exact foundTuple_badOrdinal _ _ _
      refine ⟨?_, ?_, ?_, forall_mem_concat.mpr ⟨collected.proper, proper⟩⟩
      · rw [collected.tuples]
        exact List.map_congr_left fun index _ => (same index).symm
      · rw [InterposingSection.WritesInside, forall_mem_concat, ← InterposingSection.WritesInside, ← collected.inside]
        exact (and_iff_left fun index other => absurd other (away index)).symm
      · refine collected.ordinals.trans ⟨fun all offset member => ?_, fun all offset member => ?_⟩
        · rcases List.mem_append.mp member with before | last
          · exact all offset before
          · rw [← List.mem_singleton.mp last] at found
            exact found
        · exact all offset (List.mem_append_left _ member)
  | some index =>
      have here : ∀ other, sect.tupleIndex image fixup.offset = some other ↔ other = index := by
        intro other
        rw [found, Option.some.injEq, eq_comm]
      cases fixup with
      | rebase offset target =>
          refine collected.write proper found (fun _ bad => Fixup.noConfusion bad) fun other => ?_
          rw [foundTuple_rebase]
          exact if_congr (here other) rfl rfl
      | bind offset target =>
          refine collected.write proper found (fun _ bad => Fixup.noConfusion bad) fun other => ?_
          rw [foundTuple_bind]
          exact if_congr (here other) rfl rfl
      | badOrdinal offset =>
          refine ⟨?_, ?_, ?_, forall_mem_concat.mpr ⟨collected.proper, proper⟩⟩
          · rw [collected.tuples]
            exact List.map_congr_left fun other _ => (foundTuple_badOrdinal _ _ other).symm
          · rw [InterposingSection.WritesInside, forall_mem_concat, ← InterposingSection.WritesInside, ← collected.inside]
            exact (and_iff_left fun _ _ => Or.inl ⟨offset, rfl⟩).symm
          · refine iff_of_false Bool.noConfusion fun all => ?_
            have none := all offset (List.mem_append_right _ (List.mem_singleton_self _))
            exact Option.some_ne_none index (found.symm.trans none)

theorem collected_init : Collected sect image
    ⟨List.replicate (sect.tupleCount image) InterposingTuple.unset, false, false, []⟩ := by
  refine ⟨?_, iff_of_true rfl fun _ member => absurd member List.not_mem_nil,
    iff_of_true rfl fun _ member => absurd member List.not_mem_nil, List.forall_mem_nil _⟩
  exact (List.eq_replicate_iff.mpr ⟨by rw [List.length_map, List.length_range], fun tuple member => by
    obtain ⟨index, -, rfl⟩ := List.mem_map.mp member
    rfl⟩).symm

theorem foldl_take {collector : Collector} (collected : Collected sect image collector) {fixups : List Fixup}
    (proper : ∀ fixup ∈ fixups, fixup.Proper) :
    Collected sect image (fixups.foldl (Collector.take sect image) collector) := by
  induction fixups generalizing collector with
  | nil => exact collected
  | cons fixup fixups ih =>
      rw [List.forall_mem_cons] at proper
      exact ih (collected.take proper.1) proper.2

theorem kind_setImage (imageNum : BitVec 32) (offset : BitVec 64) : kind (setImage imageNum offset) = 2 := by
  unfold kind setImage
  exact BitVec.extractLsb'_append_eq_right

theorem setImage_proper (imageNum : BitVec 32) (offset target : BitVec 64) :
    (Fixup.rebase offset (setImage imageNum target)).Proper := by
  rw [Fixup.Proper, kind_setImage]
  decide

theorem chainedFixup_proper (targets : List (BitVec 64)) (segInfo : SegmentStarts) (location : ℕ) :
    (image.chainedFixup targets segInfo location).Proper := by
  unfold InterposingImage.chainedFixup
  dsimp only
  split
  · split <;> exact trivial
  · exact setImage_proper _ _ _

theorem collect_collected {fuel : ℕ} {collector : Collector} (run : collect sect image fuel = some collector) :
    Collected sect image collector := by
  have bound : Collected sect image ((image.binds.map fun bind => Fixup.bind bind.1 bind.2).foldl
      (Collector.take sect image) ((image.rebases.map image.rebaseFixup).foldl (Collector.take sect image)
        ⟨List.replicate (sect.tupleCount image) InterposingTuple.unset, false, false, []⟩)) := by
    refine foldl_take (foldl_take collected_init fun fixup member => ?_) fun fixup member => ?_
    · obtain ⟨offset, -, rfl⟩ := List.mem_map.mp member
      exact setImage_proper _ _ _
    · obtain ⟨bind, -, rfl⟩ := List.mem_map.mp member
      exact trivial
  rw [collect] at run
  cases chained : image.chained with
  | none =>
      rw [chained] at run
      obtain rfl := Option.some.inj run
      exact bound
  | some chains =>
      rw [chained] at run
      obtain ⟨result, walked, rfl⟩ := Option.map_eq_some_iff.mp run
      exact forEachFixupInAllChains_invariant (fun segInfo location collector collected =>
        collected.take (chainedFixup_proper _ _ _)) bound walked

end Collecting

/-! ## The tuples of one section -/

theorem filterMap_sublist {α β : Type} {found expected : α → Option β} {items : List α}
    (among : ∀ item ∈ items, found item = none ∨ found item = expected item) :
    (items.filterMap found).Sublist (items.filterMap expected) := by
  induction items with
  | nil => exact List.Sublist.refl _
  | cons item items ih =>
      rw [List.forall_mem_cons] at among
      rw [List.filterMap_cons, List.filterMap_cons]
      rcases among.1 with none | same
      · rw [none]
        cases expected item with
        | none => exact ih among.2
        | some value => exact (ih among.2).cons value
      · rw [same]
        cases expected item with
        | none => exact ih among.2
        | some value => exact (ih among.2).cons_cons value

theorem filterMap_eq_iff {α β : Type} {found expected : α → Option β} {items : List α}
    (among : ∀ item ∈ items, found item = none ∨ found item = expected item) :
    items.filterMap found = items.filterMap expected ↔ ∀ item ∈ items, found item = expected item := by
  refine ⟨fun same => ?_, fun same => List.filterMap_congr same⟩
  induction items with
  | nil => exact List.forall_mem_nil _
  | cons item items ih =>
      rw [List.forall_mem_cons] at among ⊢
      rw [List.filterMap_cons, List.filterMap_cons] at same
      rcases among.1 with none | equal
      · rw [none] at same ⊢
        cases value : expected item with
        | none =>
            rw [value] at same
            exact ⟨rfl, ih among.2 same⟩
        | some value' =>
            rw [value] at same
            have shorter := (filterMap_sublist among.2).length_le
            rw [show items.filterMap found = _ from same, List.length_cons] at shorter
            omega
      · rw [equal] at same ⊢
        refine ⟨rfl, ih among.2 ?_⟩
        cases value : expected item with
        | none => rwa [value] at same
        | some value' =>
            rw [value] at same
            exact (List.cons.inj same).2

section Emission

variable {sect : InterposingSection} {image : InterposingImage} {reported : List Fixup}

def emittedTuples (sect : InterposingSection) (image : InterposingImage) (reported : List Fixup) : List InterposingTuple :=
  ((List.range (sect.tupleCount image)).map (foundTuple sect image reported)).filter InterposingTuple.good

theorem lastOf_congr {select other : Fixup → Option (BitVec 64)} (same : ∀ fixup ∈ reported, select fixup = other fixup) :
    lastOf select reported = lastOf other reported := by
  rw [lastOf, lastOf, List.filterMap_congr same]

theorem lastOf_none {select : Fixup → Option (BitVec 64)} (nothing : ∀ fixup ∈ reported, select fixup = none) :
    lastOf select reported = none := by
  rw [lastOf, List.filterMap_eq_nil_iff.mpr nothing]
  rfl

theorem bindAt_congr {test test' : BitVec 64 → Bool} (fixup : Fixup) (same : test fixup.offset = test' fixup.offset) :
    fixup.bindAt test = fixup.bindAt test' ∧ fixup.rebaseAt test = fixup.rebaseAt test' := by
  cases fixup with
  | rebase offset target => exact ⟨rfl, by rw [Fixup.rebaseAt, Fixup.rebaseAt]; rw [Fixup.offset] at same; rw [same]⟩
  | bind offset target => exact ⟨by rw [Fixup.bindAt, Fixup.bindAt]; rw [Fixup.offset] at same; rw [same], rfl⟩
  | badOrdinal offset => exact ⟨rfl, rfl⟩

theorem foundTuple_unset {index : ℕ}
    (away : ∀ fixup ∈ reported, (∃ offset, fixup = .badOrdinal offset) ∨ sect.tupleIndex image fixup.offset ≠ some index) :
    foundTuple sect image reported index = .unset := by
  have noBind : lastOf (Fixup.bindAt fun offset => sect.tupleIndex image offset = some index) reported = none := by
    refine lastOf_none fun fixup member => ?_
    rcases away fixup member with ⟨offset, rfl⟩ | differs
    · rfl
    · cases fixup with
      | bind offset target => exact if_neg fun found => differs (of_decide_eq_true found)
      | rebase offset target => rfl
      | badOrdinal offset => rfl
  have noRebase : lastOf (Fixup.rebaseAt fun offset => sect.tupleIndex image offset = some index) reported = none := by
    refine lastOf_none fun fixup member => ?_
    rcases away fixup member with ⟨offset, rfl⟩ | differs
    · rfl
    · cases fixup with
      | rebase offset target => exact if_neg fun found => differs (of_decide_eq_true found)
      | bind offset target => rfl
      | badOrdinal offset => rfl
  rw [foundTuple, noBind, noRebase]
  rfl

theorem foundTuple_eq (member : sect ∈ image.sections) (accepted : sect.accepted image = true) {index : ℕ}
    (inside : index < sect.entryCount image) :
    foundTuple sect image reported index =
      if index * image.entrySize.toNat < 2 ^ 32 then
        ⟨(sect.boundHalf image reported index).getD InterposingTuple.unset.stockImplementation,
          (sect.rebasedHalf image reported index).getD InterposingTuple.unset.newImplementation⟩
      else .unset := by
  split
  · next near =>
      have same : ∀ fixup ∈ reported, decide (sect.tupleIndex image fixup.offset = some index) =
          decide (sect.AtEntry image index fixup.offset) := fun fixup _ =>
        decide_eq_decide.mpr ((tupleIndex_eq_some_iff member accepted inside).trans (and_iff_left near))
      have bound : lastOf (Fixup.bindAt fun offset => sect.tupleIndex image offset = some index) reported =
          sect.boundHalf image reported index :=
        lastOf_congr fun fixup member => (bindAt_congr fixup (same fixup member)).1
      have rebased : lastOf (Fixup.rebaseAt fun offset => sect.tupleIndex image offset = some index) reported =
          sect.rebasedHalf image reported index :=
        lastOf_congr fun fixup member => (bindAt_congr fixup (same fixup member)).2
      rw [foundTuple, bound, rebased]
  · next far =>
      exact foundTuple_unset fun fixup _ => Or.inr fun found =>
        far ((tupleIndex_eq_some_iff member accepted inside).mp found).2

theorem unset_not_good : InterposingTuple.unset.good = false := by decide

theorem tupleCount_le (sect : InterposingSection) (image : InterposingImage) :
    sect.tupleCount image ≤ sect.entryCount image := by
  rw [InterposingSection.tupleCount, InterposingSection.entryCount, BitVec.toNat_setWidth, BitVec.toNat_udiv,
    BitVec.toNat_setWidth_of_le (by decide)]
  exact Nat.mod_le _ _

theorem proper_of_rebasedHalf (proper : ∀ fixup ∈ reported, fixup.Proper) {index : ℕ} {replacement : BitVec 64}
    (rebased : sect.rebasedHalf image reported index = some replacement) : kind replacement ≠ kindAbsolute := by
  obtain ⟨fixup, member, selected⟩ := List.mem_filterMap.mp (List.mem_of_getLast? rebased)
  have holds := proper fixup member
  cases fixup with
  | rebase offset target =>
      rw [Fixup.rebaseAt] at selected
      split at selected
      · obtain rfl := Option.some.inj selected
        exact holds
      · cases selected
  | bind offset target => cases selected
  | badOrdinal offset => cases selected

theorem emittedTuples_eq (inside : sect.WritesInside image reported) :
    emittedTuples sect image reported = (List.range (sect.entryCount image)).filterMap fun index =>
      Option.guard InterposingTuple.good (foundTuple sect image reported index) := by
  have emitted : emittedTuples sect image reported = (List.range (sect.tupleCount image)).filterMap fun index =>
      Option.guard InterposingTuple.good (foundTuple sect image reported index) := by
    rw [emittedTuples, ← List.filterMap_eq_filter, List.filterMap_map]
    rfl
  obtain ⟨more, count⟩ := Nat.exists_eq_add_of_le (tupleCount_le sect image)
  have nothing : ((List.range more).map (sect.tupleCount image + ·)).filterMap (fun index =>
      Option.guard InterposingTuple.good (foundTuple sect image reported index)) = [] := by
    refine List.filterMap_eq_nil_iff.mpr fun index member => ?_
    obtain ⟨past, -, rfl⟩ := List.mem_map.mp member
    rw [foundTuple_unset fun fixup among => ?_]
    · exact Option.guard_eq_none_iff.mpr unset_not_good
    · by_contra found
      rw [not_or, not_not] at found
      rcases inside fixup among _ found.2 with bad | less
      · exact found.1 bad
      · omega
  rw [emitted, count, List.range_add, List.filterMap_append, nothing, List.append_nil]

theorem emittedTuples_iff (member : sect ∈ image.sections) (accepted : sect.accepted image = true)
    (inside : sect.WritesInside image reported) (proper : ∀ fixup ∈ reported, fixup.Proper) :
    emittedTuples sect image reported = sect.expectedTuples image reported ↔ sect.EntriesEmitted image reported := by
  have one : ∀ index < sect.entryCount image,
      (Option.guard InterposingTuple.good (foundTuple sect image reported index) = none ∨
        Option.guard InterposingTuple.good (foundTuple sect image reported index) =
          sect.expectedTuple image reported index) ∧
      (Option.guard InterposingTuple.good (foundTuple sect image reported index) =
          sect.expectedTuple image reported index ↔
        ∀ stock ∈ sect.boundHalf image reported index, (sect.rebasedHalf image reported index).isSome →
          index * image.entrySize.toNat < 2 ^ 32 ∧ kind stock ≠ kindAbsolute) := by
    intro index less
    rw [foundTuple_eq member accepted less, InterposingSection.expectedTuple]
    have absolute : kind InterposingTuple.unset.stockImplementation = kindAbsolute ∧
        kind InterposingTuple.unset.newImplementation = kindAbsolute := by decide
    -- A tuple with an absolute half is dropped, and none is expected where a half is missing.
    have dropped : ∀ tuple : InterposingTuple, tuple.good = false →
        Option.guard InterposingTuple.good tuple = none := fun tuple bad =>
      Option.guard_eq_none_iff.mpr bad
    cases bound : sect.boundHalf image reported index with
    | none =>
        rw [dropped _ (by split <;> simp [InterposingTuple.good, absolute.1])]
        exact ⟨Or.inl rfl, iff_of_true rfl fun stock set => absurd set (Option.some_ne_none stock).symm⟩
    | some stock =>
        cases rebased : sect.rebasedHalf image reported index with
        | none =>
            rw [dropped _ (by split <;> simp [InterposingTuple.good, absolute.2])]
            exact ⟨Or.inl rfl, iff_of_true rfl fun _ _ set => absurd set Bool.false_ne_true⟩
        | some replacement =>
            have isImage := proper_of_rebasedHalf proper rebased
            by_cases emitted : index * image.entrySize.toNat < 2 ^ 32 ∧ kind stock ≠ kindAbsolute
            · have good : InterposingTuple.good ⟨stock, replacement⟩ = true := by
                simp [InterposingTuple.good, emitted.2, isImage]
              have kept : Option.guard InterposingTuple.good ⟨stock, replacement⟩ = some ⟨stock, replacement⟩ :=
                Option.guard_eq_some_iff.mpr ⟨rfl, good⟩
              rw [if_pos emitted.1, Option.getD_some, Option.getD_some, kept]
              refine ⟨Or.inr rfl, iff_of_true rfl fun other set _ => ?_⟩
              obtain rfl := Option.some.inj set
              exact emitted
            · rw [dropped]
              · exact ⟨Or.inl rfl, iff_of_false (Option.some_ne_none _).symm fun all => emitted (all stock rfl rfl)⟩
              · split
                · next near =>
                    have isAbsolute : kind stock = kindAbsolute := by
                      by_contra differs
                      exact emitted ⟨near, differs⟩
                    simp [InterposingTuple.good, isAbsolute]
                · exact unset_not_good
  rw [emittedTuples_eq inside, InterposingSection.expectedTuples,
    filterMap_eq_iff fun index among => (one index (List.mem_range.mp among)).1]
  simp only [List.mem_range]
  exact forall_congr' fun index => forall_congr' fun less => (one index less).2

end Emission

/-! ## All sections of all images -/

/-- A section that was handled, its image, and the fixups that were handed on for it. -/
abbrev Handled := InterposingSection × InterposingImage × List Fixup

def Handled.expected (handled : Handled) : List InterposingTuple := handled.1.expectedTuples handled.2.1 handled.2.2

def sectionsOf (image : InterposingImage) : List (InterposingSection × InterposingImage) :=
  image.sections.map fun sect => (sect, image)

/-- Nothing is reported as an error: all sections are accepted, and no ordinal of a tuple is out of range. -/
def ErrorFree (sections : List (InterposingSection × InterposingImage)) (handled : List Handled) : Prop :=
  (∀ one ∈ sections, one.1.accepted one.2 = true) ∧ ∀ one ∈ handled, one.1.OrdinalsInRange one.2.1 one.2.2

/-- What `addInterposingTuples` keeps, with the sections it was called for. -/
structure Built (sections : List (InterposingSection × InterposingImage)) (builder : InterposingBuilder) : Prop where
  written : builder.written = builder.handled.map fun one => emittedTuples one.1 one.2.1 one.2.2
  inside : builder.outOfBounds = false ↔ ∀ one ∈ builder.handled, one.1.WritesInside one.2.1 one.2.2
  used : builder.interposingTuplesUsed = true ↔ ∃ tuples ∈ builder.written.getLast?, tuples ≠ []
  proper : ∀ one ∈ builder.handled, one.1 ∈ one.2.1.sections ∧ one.1.accepted one.2.1 = true ∧
    ∀ fixup ∈ one.2.2, fixup.Proper
  errors : builder.diagError = false ↔ ErrorFree sections builder.handled
  complete : builder.diagError = false → builder.handled.map (fun one => (one.1, one.2.1)) = sections

section Building

variable {sections : List (InterposingSection × InterposingImage)} {builder next : InterposingBuilder}
  {image : InterposingImage} {fuel : ℕ}

theorem built_init : Built [] .init := by
  refine ⟨rfl, iff_of_true rfl (List.forall_mem_nil _), iff_of_false Bool.false_ne_true ?_, List.forall_mem_nil _,
    iff_of_true rfl ⟨List.forall_mem_nil _, List.forall_mem_nil _⟩, fun _ => rfl⟩
  rintro ⟨tuples, last, -⟩
  cases last

theorem Built.addSection (built : Built sections builder) {sect : InterposingSection} (member : sect ∈ image.sections)
    (accepted : sect.accepted image = true) (run : builder.addSection image fuel sect = some next) :
    Built (sections ++ [(sect, image)]) next := by
  obtain ⟨collector, collects, rfl⟩ := Option.map_eq_some_iff.mp run
  have collected := collect_collected collects
  have emitted : collector.resolvedTuples.filter InterposingTuple.good = emittedTuples sect image collector.reported := by
    rw [collected.tuples]
    rfl
  refine ⟨?_, ?_, ?_, ?_, ?_, ?_⟩
  · simp only [built.written, emitted, List.map_append, List.map_cons, List.map_nil]
  · rw [Bool.or_eq_false_iff, built.inside, collected.inside, forall_mem_concat]
  · simp only [List.getLast?_concat, Option.mem_some_iff, exists_eq_left', Bool.not_eq_true', ne_eq,
      List.isEmpty_eq_false_iff]
  · exact forall_mem_concat.mpr ⟨built.proper, member, accepted, collected.proper⟩
  · rw [Bool.or_eq_false_iff, built.errors, collected.ordinals, ErrorFree, ErrorFree, forall_mem_concat, forall_mem_concat]
    simp only [accepted, and_true, and_assoc]
  · intro none
    rw [Bool.or_eq_false_iff] at none
    rw [List.map_append, built.complete none.1]
    rfl

theorem Built.addSections {more : List InterposingSection} (built : Built sections builder)
    (among : ∀ sect ∈ more, sect ∈ image.sections)
    (run : InterposingBuilder.addSections image fuel more builder = some next) :
    Built (sections ++ more.map fun sect => (sect, image)) next := by
  induction more generalizing sections builder with
  | nil =>
      obtain rfl := Option.some.inj run
      rwa [List.map_nil, List.append_nil]
  | cons sect more ih =>
      rw [List.forall_mem_cons] at among
      rw [InterposingBuilder.addSections] at run
      rw [List.map_cons, List.append_cons]
      split at run
      · next accepted =>
          obtain ⟨middle, first, rest⟩ := Option.bind_eq_some_iff.mp run
          exact ih (built.addSection among.1 accepted first) among.2 rest
      · next refused =>
          obtain rfl := Option.some.inj run
          have member : (sect, image) ∈ sections ++ [(sect, image)] ++ more.map fun sect => (sect, image) :=
            List.mem_append_left _ (List.mem_append_right _ (List.mem_singleton_self _))
          exact ⟨built.written, built.inside, built.used, built.proper,
            iff_of_false Bool.noConfusion fun free => refused (free.1 _ member), fun none => Bool.noConfusion none⟩

theorem addImages_built {images : List InterposingImage} (run : InterposingBuilder.addImages images fuel = some builder) :
    Built (images.flatMap sectionsOf) builder := by
  suffices ∀ (start : InterposingBuilder) (sections : List (InterposingSection × InterposingImage)),
      Built sections start → images.foldlM (InterposingBuilder.addInterposingTuples fuel) start = some builder →
        Built (sections ++ images.flatMap sectionsOf) builder from this .init [] built_init run
  clear run
  induction images with
  | nil =>
      intro start sections built run
      obtain rfl := Option.some.inj run
      rwa [List.flatMap_nil, List.append_nil]
  | cons image images ih =>
      intro start sections built run
      rw [List.foldlM_cons] at run
      obtain ⟨middle, first, rest⟩ := Option.bind_eq_some_iff.mp run
      rw [List.flatMap_cons, ← List.append_assoc]
      exact ih middle _ (built.addSections (fun _ member => member) first) rest

end Building

/-- Nothing is written outside of the arrays, and, unless an error is reported, the tuples of every section are
the expected ones, and the flag tells whether there are any. -/
def Exact (images : List InterposingImage) (builder : InterposingBuilder) : Prop :=
  builder.outOfBounds = false ∧ (builder.diagError = false →
    builder.handled.map (fun one => (one.1, one.2.1)) = images.flatMap sectionsOf ∧
      builder.written = builder.handled.map Handled.expected ∧
        (builder.interposingTuplesUsed = true ↔ ∃ tuples ∈ builder.written, tuples ≠ []))

/-- What the code relies on, of the sections and the fixups that are handed on for them. -/
def Relies (images : List InterposingImage) (handled : List Handled) : Prop :=
  (∀ one ∈ handled, one.1.WritesInside one.2.1 one.2.2) ∧ (ErrorFree (images.flatMap sectionsOf) handled →
    (∀ one ∈ handled, one.1.EntriesEmitted one.2.1 one.2.2) ∧
      ((∃ one ∈ handled, one.expected ≠ []) → ∀ last ∈ handled.getLast?, last.expected ≠ []))

/-- The fixups that are handed on for each section; there are none if a walk over chains does not end. -/
def handledSections (images : List InterposingImage) (fuel : ℕ) : Option (List Handled) :=
  (InterposingBuilder.addImages images fuel).map InterposingBuilder.handled

section Exactness

variable {images : List InterposingImage} {builder : InterposingBuilder} {fuel : ℕ}

theorem used_iff {sections : List (InterposingSection × InterposingImage)} (built : Built sections builder)
    (written : builder.written = builder.handled.map Handled.expected) :
    (builder.interposingTuplesUsed = true ↔ ∃ tuples ∈ builder.written, tuples ≠ []) ↔
      ((∃ one ∈ builder.handled, Handled.expected one ≠ []) → ∀ last ∈ builder.handled.getLast?, Handled.expected last ≠ []) := by
  have last : (∃ tuples ∈ builder.written.getLast?, tuples ≠ []) ↔
      ∃ last ∈ builder.handled.getLast?, Handled.expected last ≠ [] := by
    rw [written, List.getLast?_map]
    simp only [Option.mem_map, exists_exists_and_eq_and]
  have any : (∃ tuples ∈ builder.written, tuples ≠ []) ↔ ∃ one ∈ builder.handled, Handled.expected one ≠ [] := by
    rw [written]
    simp only [List.mem_map, exists_exists_and_eq_and]
  rw [built.used, last, any]
  constructor
  · intro same has other isLast
    obtain ⟨one, isLast', nonempty⟩ := same.mpr has
    rwa [Option.mem_unique isLast isLast']
  · intro all
    refine ⟨fun ⟨one, isLast, nonempty⟩ => ⟨one, List.mem_of_getLast? isLast, nonempty⟩, ?_⟩
    rintro ⟨one, member, nonempty⟩
    have isLast := List.getLast?_eq_some_getLast (List.ne_nil_of_mem member)
    exact ⟨_, isLast, all ⟨one, member, nonempty⟩ _ isLast⟩

theorem exact_iff (run : InterposingBuilder.addImages images fuel = some builder) :
    Exact images builder ↔ Relies images builder.handled := by
  have built := addImages_built run
  rw [Exact, Relies, built.inside]
  refine and_congr_right fun inside => ?_
  rw [built.errors]
  refine forall_congr' fun free => ?_
  rw [and_iff_right (built.complete (built.errors.mpr free))]
  have written : builder.written = builder.handled.map Handled.expected ↔
      ∀ one ∈ builder.handled, one.1.EntriesEmitted one.2.1 one.2.2 := by
    rw [built.written, List.map_inj_left]
    refine forall_congr' fun one => forall_congr' fun member => ?_
    obtain ⟨among, accepted, proper⟩ := built.proper one member
    exact emittedTuples_iff among accepted (inside one member) proper
  exact (and_congr_right fun same => used_iff built same).trans (and_congr_left' written)

/--
The interposing tuples are collected exactly if the walks over the chains end, no rebase or bind just
past a section is taken for a tuple, no entry with two halves is bound to an absolute target or far
from the start of its section, and the last section has a tuple if any section has.
-/
theorem addInterposingTuples_iff (images : List InterposingImage) :
    (∃ fuel builder, InterposingBuilder.addImages images fuel = some builder ∧ Exact images builder) ↔
      ∃ fuel handled, handledSections images fuel = some handled ∧ Relies images handled := by
  refine exists_congr fun fuel => ⟨?_, ?_⟩
  · rintro ⟨builder, run, exact⟩
    exact ⟨builder.handled, by rw [handledSections, run]; rfl, (exact_iff run).mp exact⟩
  · rintro ⟨handled, reported, relies⟩
    obtain ⟨builder, run, rfl⟩ := Option.map_eq_some_iff.mp reported
    exact ⟨builder, run, (exact_iff run).mpr relies⟩

end Exactness

/-- A section with one entry, at the start of its segment. -/
def oneEntry : InterposingSection := ⟨0x100004000, 16, 0x100004000, 0x4000⟩

theorem oneEntry_above : ∀ sect ∈ [oneEntry], (0x100000000 : BitVec 64) ≤ sect.sectAddr := by decide

/-- The entry is followed by another pointer that is rebased. -/
def pointerBehind : InterposingImage where
  is64 := true
  preferredLoadAddress := 0x100000000
  imageNum := 0x1000
  memory := fun _ => 0
  sections := [oneEntry]
  rebases := [0x4000, 0x4010]
  binds := [(0x4008, setImage 2 0x1000)]
  chained := none
  above := oneEntry_above

theorem pointerBehind_outOfBounds (fuel : ℕ) :
    (InterposingBuilder.addImages [pointerBehind] fuel).map InterposingBuilder.outOfBounds = some true := rfl

/-- The tuples of that image are not collected exactly. -/
theorem pointerBehind_not_exact :
    ¬∃ fuel builder, InterposingBuilder.addImages [pointerBehind] fuel = some builder ∧ Exact [pointerBehind] builder := by
  rintro ⟨fuel, builder, run, inside, -⟩
  have outside := pointerBehind_outOfBounds fuel
  rw [run, Option.map_some, inside] at outside
  cases outside

end ObjcDyld.Closures
