import ObjcDyld.CodeSignatures.Blobs

/-!
# Exactness of the selection

`forEachCodeDirectoryBlob` calls back as expected, and reads nothing outside of the blob, exactly for
unambiguous blobs.
-/

namespace ObjcDyld.CodeSignatures

open ByteMemory Rankings

namespace CodeSignature

variable {blob : CodeSignature} {visit : Visit} {i n cd : ℕ}

/-! ## The tests -/

theorem offset_test_of_long (i : ℕ) (long : codeDirectorySize ≤ blob.codeSignLen.toNat) :
    (blob.cdOffset i).setWidth 64 > blob.codeSignLen - BitVec.ofNat 64 codeDirectorySize ↔
      ¬ blob.directory i + codeDirectorySize ≤ blob.codeSignLen.toNat := by
  rw [directory]
  generalize blob.codeSignLen = len at *
  generalize blob.cdOffset i = offset at *
  simp only [codeDirectorySize] at *
  bv_omega

theorem offset_test_of_short (i : ℕ) (short : blob.codeSignLen.toNat < codeDirectorySize) :
    ¬ (blob.cdOffset i).setWidth 64 > blob.codeSignLen - BitVec.ofNat 64 codeDirectorySize := by
  generalize blob.codeSignLen = len at *
  generalize blob.cdOffset i = offset at *
  simp only [codeDirectorySize] at *
  bv_omega

theorem length_test (cd : ℕ) (inside : blob.directory i ≤ blob.codeSignLen.toNat) :
    (blob.cdLength cd).setWidth 64 > blob.codeSignLen - (blob.cdOffset i).setWidth 64 ↔
      ¬ blob.directory i + (blob.cdLength cd).toNat ≤ blob.codeSignLen.toNat := by
  rw [directory] at *
  generalize blob.codeSignLen = len at *
  generalize blob.cdOffset i = offset at *
  generalize blob.cdLength cd = length at *
  bv_omega

theorem count_test (long : superBlobSize ≤ blob.codeSignLen.toNat) :
    (blob.codeSignLen - BitVec.ofNat 64 superBlobSize) / BitVec.ofNat 64 blobIndexSize <
        blob.subBlobCount.setWidth 64 ↔
      ¬ superBlobSize + blobIndexSize * blob.subBlobCount.toNat ≤ blob.codeSignLen.toNat := by
  generalize blob.codeSignLen = len at *
  generalize blob.subBlobCount = count at *
  simp only [superBlobSize, blobIndexSize] at *
  rw [BitVec.lt_def, BitVec.toNat_udiv, BitVec.toNat_sub_of_le (by bv_omega)]
  simp only [BitVec.toNat_ofNat, BitVec.toNat_setWidth, Nat.reducePow, Nat.reduceMod]
  have := count.isLt
  omega

/-! ## Reads -/

@[simp] theorem Visit.read_calls (reads : List (ℕ × ℕ)) : (visit.read reads).calls = visit.calls := rfl

@[simp] theorem Visit.read_bestCd (reads : List (ℕ × ℕ)) : (visit.read reads).bestCd = visit.bestCd := rfl

@[simp] theorem Visit.callback_reads : (visit.callback cd).reads = visit.reads := rfl

@[simp] theorem Visit.callback_bestCd : (visit.callback cd).bestCd = visit.bestCd := rfl

@[simp] theorem Visit.callback_calls : (visit.callback cd).calls = visit.calls ++ [cd] := rfl

@[simp] theorem Visit.read_read (first second : List (ℕ × ℕ)) :
    (visit.read first).read second = visit.read (first ++ second) := by
  simp only [Visit.read, List.append_assoc]

/-- All reads are inside of a range of `len` bytes. -/
def Visit.ReadsInside (visit : Visit) (len : ℕ) : Prop := ∀ read ∈ visit.reads, read.1 + read.2 ≤ len

@[simp] theorem Visit.readsInside_callback {len : ℕ} :
    (visit.callback cd).ReadsInside len ↔ visit.ReadsInside len := Iff.rfl

theorem Visit.readsInside_read {len : ℕ} {reads : List (ℕ × ℕ)} :
    (visit.read reads).ReadsInside len ↔ visit.ReadsInside len ∧ ∀ read ∈ reads, read.1 + read.2 ≤ len := by
  simp only [ReadsInside, Visit.read, List.forall_mem_append]

@[simp] theorem Visit.readsInside_read_one {len start size : ℕ} :
    (visit.read [(start, size)]).ReadsInside len ↔ visit.ReadsInside len ∧ start + size ≤ len := by
  rw [readsInside_read, List.forall_mem_singleton]

theorem readsInside_start {len : ℕ} : Visit.start.ReadsInside len := fun _ member => absurd member List.not_mem_nil

/-! ## One entry of a blob that may hold a code directory -/

/-- What is left of the loop's body for an entry that passes the tests of its type and its bounds. -/
def take (blob : CodeSignature) (visit : Visit) (cd : ℕ) : Visit :=
  if blob.wantsAll = true then visit.callback cd
  else if blob.HasMagic cd then blob.rankDirectory visit cd else visit

theorem visitEntry_long (visit : Visit) (long : codeDirectorySize ≤ blob.codeSignLen.toNat)
    (index : indexOffset i + blobIndexSize ≤ blob.codeSignLen.toNat) :
    ∃ reads : List (ℕ × ℕ), (∀ read ∈ reads, read.1 + read.2 ≤ blob.codeSignLen.toNat) ∧
      blob.visitEntry visit i =
        if isCodeDirectoryType (blob.type i) = true ∧ blob.LiesInside (blob.directory i) then
          blob.take (visit.read reads) (blob.directory i)
        else visit.read reads := by
  have typeRead : indexOffset i + 4 ≤ blob.codeSignLen.toNat := by rw [blobIndexSize] at index; omega
  have offsetRead : indexOffset i + 4 + 4 ≤ blob.codeSignLen.toNat := by rw [blobIndexSize] at index; omega
  by_cases accepted : isCodeDirectoryType (blob.type i) = true
  · by_cases start : blob.directory i + codeDirectorySize ≤ blob.codeSignLen.toNat
    · have offsetTest := (offset_test_of_long i long).not.2 (not_not.2 start)
      have startInside : blob.directory i ≤ blob.codeSignLen.toNat := Nat.le_of_add_right_le start
      have magicRead : blob.directory i + 4 ≤ blob.codeSignLen.toNat := by rw [codeDirectorySize] at start; omega
      have lengthRead : blob.directory i + 4 + 4 ≤ blob.codeSignLen.toNat := by rw [codeDirectorySize] at start; omega
      by_cases inside : blob.directory i + (blob.cdLength (blob.directory i)).toNat ≤ blob.codeSignLen.toNat
      · have lengthTest := (length_test (blob.directory i) startInside).not.2 (not_not.2 inside)
        rw [directory] at lengthTest
        cases wanted : blob.wantsAll with
        | true =>
            refine ⟨[(indexOffset i, 4), (indexOffset i + 4, 4), (blob.directory i + 4, 4)], ?_, ?_⟩
            · simpa using ⟨typeRead, offsetRead, lengthRead⟩
            · simp only [visitEntry, take, accepted, offsetTest, lengthTest, wanted, LiesInside, start, inside]
              simp [directory]
        | false =>
            refine ⟨[(indexOffset i, 4), (indexOffset i + 4, 4), (blob.directory i + 4, 4), (blob.directory i, 4)],
              ?_, ?_⟩
            · simpa using ⟨typeRead, offsetRead, lengthRead, magicRead⟩
            · simp only [visitEntry, take, accepted, offsetTest, lengthTest, wanted, LiesInside, start, inside, HasMagic]
              simp [directory]
              rfl
      · have lengthTest := (length_test (blob.directory i) startInside).2 inside
        rw [directory] at lengthTest
        refine ⟨[(indexOffset i, 4), (indexOffset i + 4, 4), (blob.directory i + 4, 4)], ?_, ?_⟩
        · simpa using ⟨typeRead, offsetRead, lengthRead⟩
        · simp only [visitEntry, accepted, offsetTest, lengthTest, LiesInside, inside]
          simp [directory]
    · have offsetTest := (offset_test_of_long i long).2 start
      refine ⟨[(indexOffset i, 4), (indexOffset i + 4, 4)], ?_, ?_⟩
      · simpa using ⟨typeRead, offsetRead⟩
      · simp only [visitEntry, accepted, offsetTest, LiesInside, start]
        simp
  · refine ⟨[(indexOffset i, 4)], ?_, ?_⟩
    · simpa using typeRead
    · simp [visitEntry, accepted]

/-- What the walk has done after the entries below `n`, apart from the reads. -/
structure Walked (blob : CodeSignature) (n : ℕ) (visit : Visit) : Prop where
  inside : visit.ReadsInside blob.codeSignLen.toNat
  calls : visit.calls = if blob.wantsAll = true then
    ((List.range n).filter fun i =>
      isCodeDirectoryType (blob.type i) = true ∧ blob.LiesInside (blob.directory i)).map blob.directory else []
  bestCd : visit.bestCd = if blob.wantsAll = true then none else
    (firstBest blob.rank blob.IsSelectable n).map blob.directory

theorem Visit.readsInside_rankDirectory {len : ℕ} (inside : visit.ReadsInside len) (atEnd : cd + 38 ≤ len)
    (bestInside : ∀ best ∈ visit.bestCd, best + 38 ≤ len) : (blob.rankDirectory visit cd).ReadsInside len := by
  rw [rankDirectory]
  cases kept : visit.bestCd with
  | none => exact inside
  | some best =>
      have bound := bestInside best kept
      have read : (visit.read [(cd + 37, 1), (best + 37, 1)]).ReadsInside len :=
        Visit.readsInside_read.2 ⟨inside, by simpa using ⟨by omega, by omega⟩⟩
      dsimp only
      split
      · exact read
      · exact read

theorem rankDirectory_calls : (blob.rankDirectory visit cd).calls = visit.calls := by
  rw [rankDirectory]
  cases visit.bestCd with
  | none => rfl
  | some best =>
      dsimp only
      split
      · rfl
      · rfl

theorem rankDirectory_bestCd {best : Option ℕ} (kept : visit.bestCd = best.map blob.directory) :
    (blob.rankDirectory visit (blob.directory i)).bestCd = (keepBetter blob.rank best i).map blob.directory := by
  rw [rankDirectory, kept]
  cases best with
  | none => rfl
  | some j =>
      rw [keepBetter]
      by_cases better : blob.rank j < blob.rank i
      · rw [if_pos better]
        exact congrArg Visit.bestCd (if_pos better)
      · rw [if_neg better]
        exact (congrArg Visit.bestCd (if_neg better)).trans kept

theorem Walked.kept_inside (walked : Walked blob n visit) (wanted : blob.wantsAll = false) :
    ∀ best ∈ visit.bestCd, best + 38 ≤ blob.codeSignLen.toNat := by
  intro best kept
  rw [walked.bestCd, wanted, if_neg Bool.false_ne_true] at kept
  obtain ⟨i, found, rfl⟩ := Option.map_eq_some_iff.1 kept
  have inside := (firstBest_eq_some_iff.1 found).member.2.1.1
  rw [codeDirectorySize] at inside
  omega

theorem Walked.visitEntry (walked : Walked blob n visit) (long : codeDirectorySize ≤ blob.codeSignLen.toNat)
    (index : indexOffset n + blobIndexSize ≤ blob.codeSignLen.toNat) :
    Walked blob (n + 1) (blob.visitEntry visit n) := by
  obtain ⟨reads, inside, equation⟩ := visitEntry_long visit long index
  have readInside : (visit.read reads).ReadsInside blob.codeSignLen.toNat :=
    Visit.readsInside_read.2 ⟨walked.inside, inside⟩
  have calls := walked.calls
  have bestCd := walked.bestCd
  rw [equation]
  by_cases taken : isCodeDirectoryType (blob.type n) = true ∧ blob.LiesInside (blob.directory n)
  · rw [if_pos taken, take]
    cases wanted : blob.wantsAll with
    | true =>
        rw [wanted, if_pos rfl] at calls bestCd
        refine ⟨readInside, ?_, ?_⟩
        · rw [wanted, if_pos rfl, if_pos rfl, List.range_succ, List.filter_append, List.map_append,
            Visit.callback_calls, Visit.read_calls, calls, List.filter_cons_of_pos (by simpa using taken)]
          rfl
        · rw [wanted, if_pos rfl, if_pos rfl, Visit.callback_bestCd, Visit.read_bestCd, bestCd]
    | false =>
        rw [wanted, if_neg Bool.false_ne_true] at calls bestCd
        rw [if_neg Bool.false_ne_true]
        by_cases magic : blob.HasMagic (blob.directory n)
        · have selectable : blob.IsSelectable n := ⟨taken.1, taken.2, magic⟩
          have atEnd : blob.directory n + 38 ≤ blob.codeSignLen.toNat := by
            have := taken.2.1
            rw [codeDirectorySize] at this
            omega
          rw [if_pos magic]
          refine ⟨Visit.readsInside_rankDirectory readInside atEnd (walked.kept_inside wanted), ?_, ?_⟩
          · rw [wanted, if_neg Bool.false_ne_true, rankDirectory_calls, Visit.read_calls, calls]
          · rw [wanted, if_neg Bool.false_ne_true, firstBest, if_pos selectable]
            exact rankDirectory_bestCd bestCd
        · have skipped : ¬ blob.IsSelectable n := fun selectable => magic selectable.2.2
          rw [if_neg magic]
          refine ⟨readInside, ?_, ?_⟩
          · rw [wanted, if_neg Bool.false_ne_true, Visit.read_calls, calls]
          · rw [wanted, if_neg Bool.false_ne_true, firstBest, if_neg skipped, Visit.read_bestCd, bestCd]
  · have skipped : ¬ blob.IsSelectable n := fun selectable => taken ⟨selectable.1, selectable.2.1⟩
    rw [if_neg taken]
    refine ⟨readInside, ?_, ?_⟩
    · rw [List.range_succ, List.filter_append, List.filter_cons_of_neg (by simpa using taken), List.filter_nil,
        List.append_nil]
      exact calls
    · rw [firstBest, if_neg skipped]
      exact bestCd

theorem walked_visitEntries (long : codeDirectorySize ≤ blob.codeSignLen.toNat)
    (start : Walked blob 0 visit) (index : indexOffset n ≤ blob.codeSignLen.toNat) :
    Walked blob n (blob.visitEntries visit n) := by
  induction n with
  | zero => exact start
  | succ n ih =>
      have fits : indexOffset n + blobIndexSize ≤ blob.codeSignLen.toNat := by
        rw [indexOffset, blobIndexSize] at *
        omega
      exact (ih (by omega)).visitEntry long fits

/-! ## One entry of a blob that is too short -/

/-- Nothing was taken for a code directory so far, and nothing outside of the blob was read. -/
structure Clean (blob : CodeSignature) (visit : Visit) : Prop where
  inside : visit.ReadsInside blob.codeSignLen.toNat
  calls : visit.calls = []
  bestCd : visit.bestCd = none

/-- What an entry of a blob that is too short must be like to be passed. -/
def PassedShort (blob : CodeSignature) (i : ℕ) : Prop :=
  isCodeDirectoryType (blob.type i) = true →
    blob.directory i + 8 ≤ blob.codeSignLen.toNat ∧
      ¬ (blob.directory i + (blob.cdLength (blob.directory i)).toNat ≤ blob.codeSignLen.toNat ∧
        (blob.wantsAll = true ∨ blob.HasMagic (blob.directory i)))

theorem clean_read {reads : List (ℕ × ℕ)} (inside : ∀ read ∈ reads, read.1 + read.2 ≤ blob.codeSignLen.toNat) :
    Clean blob (visit.read reads) ↔ Clean blob visit :=
  ⟨fun clean => ⟨(Visit.readsInside_read.1 clean.inside).1, clean.calls, clean.bestCd⟩,
    fun clean => ⟨Visit.readsInside_read.2 ⟨clean.inside, inside⟩, clean.calls, clean.bestCd⟩⟩

theorem not_clean_callback : ¬ Clean blob (visit.callback cd) :=
  fun clean => absurd clean.calls (List.append_ne_nil_of_right_ne_nil _ (List.cons_ne_nil _ _))

theorem not_clean_rankDirectory : ¬ Clean blob (blob.rankDirectory visit cd) := by
  intro clean
  have kept := clean.bestCd
  rw [rankDirectory] at kept
  cases noneKept : visit.bestCd with
  | none => simp [noneKept] at kept
  | some best =>
      simp only [noneKept] at kept
      split at kept
      · simp at kept
      · simp [noneKept] at kept

theorem visitEntry_short (short : blob.codeSignLen.toNat < codeDirectorySize)
    (accepted : isCodeDirectoryType (blob.type i) = true) :
    blob.visitEntry visit i =
      if (blob.cdLength (blob.directory i)).setWidth 64 > blob.codeSignLen - (blob.cdOffset i).setWidth 64 then
        visit.read [(indexOffset i, 4), (indexOffset i + 4, 4), (blob.directory i + 4, 4)]
      else if blob.wantsAll = true then
        (visit.read [(indexOffset i, 4), (indexOffset i + 4, 4), (blob.directory i + 4, 4)]).callback (blob.directory i)
      else if blob.HasMagic (blob.directory i) then
        blob.rankDirectory (visit.read
          [(indexOffset i, 4), (indexOffset i + 4, 4), (blob.directory i + 4, 4), (blob.directory i, 4)])
          (blob.directory i)
      else visit.read
        [(indexOffset i, 4), (indexOffset i + 4, 4), (blob.directory i + 4, 4), (blob.directory i, 4)] := by
  have offsetTest := offset_test_of_short i short
  simp only [visitEntry, accepted, offsetTest, HasMagic, directory]
  simp
  rfl

theorem reads_rankDirectory {read : ℕ × ℕ} (member : read ∈ visit.reads) :
    read ∈ (blob.rankDirectory visit cd).reads := by
  rw [rankDirectory]
  cases visit.bestCd with
  | none => exact member
  | some best =>
      dsimp only
      split
      · exact List.mem_append_left _ member
      · exact List.mem_append_left _ member

theorem length_read_of_short (short : blob.codeSignLen.toNat < codeDirectorySize)
    (accepted : isCodeDirectoryType (blob.type i) = true) :
    (blob.directory i + 4, 4) ∈ (blob.visitEntry visit i).reads := by
  rw [visitEntry_short short accepted]
  split_ifs
  · simp [Visit.read]
  · simp [Visit.read, Visit.callback]
  · exact reads_rankDirectory (by simp [Visit.read])
  · simp [Visit.read]

theorem clean_visitEntry (short : blob.codeSignLen.toNat < codeDirectorySize)
    (index : indexOffset i + blobIndexSize ≤ blob.codeSignLen.toNat) :
    Clean blob (blob.visitEntry visit i) ↔ Clean blob visit ∧ PassedShort blob i := by
  have typeRead : indexOffset i + 4 ≤ blob.codeSignLen.toNat := by rw [blobIndexSize] at index; omega
  have offsetRead : indexOffset i + 4 + 4 ≤ blob.codeSignLen.toNat := by rw [blobIndexSize] at index; omega
  by_cases accepted : isCodeDirectoryType (blob.type i) = true
  · by_cases fits : blob.directory i + 8 ≤ blob.codeSignLen.toNat
    · have startInside : blob.directory i ≤ blob.codeSignLen.toNat := Nat.le_of_add_right_le fits
      have magicRead : blob.directory i + 4 ≤ blob.codeSignLen.toNat := by omega
      have lengthRead : blob.directory i + 4 + 4 ≤ blob.codeSignLen.toNat := by omega
      have lengthTest := length_test (blob.directory i) startInside
      have passed : PassedShort blob i ↔
          ¬ (blob.directory i + (blob.cdLength (blob.directory i)).toNat ≤ blob.codeSignLen.toNat ∧
            (blob.wantsAll = true ∨ blob.HasMagic (blob.directory i))) :=
        ⟨fun passed => (passed accepted).2, fun passed _ => ⟨fits, passed⟩⟩
      rw [passed, visitEntry_short short accepted]
      by_cases inside : blob.directory i + (blob.cdLength (blob.directory i)).toNat ≤ blob.codeSignLen.toNat
      · rw [if_neg (lengthTest.not.2 (not_not.2 inside))]
        by_cases wanted : blob.wantsAll = true
        · rw [if_pos wanted]
          exact iff_of_false not_clean_callback fun both => both.2 ⟨inside, Or.inl wanted⟩
        · rw [if_neg wanted]
          by_cases magic : blob.HasMagic (blob.directory i)
          · rw [if_pos magic]
            exact iff_of_false not_clean_rankDirectory fun both => both.2 ⟨inside, Or.inr magic⟩
          · rw [if_neg magic, clean_read (by simpa using ⟨typeRead, offsetRead, lengthRead, magicRead⟩)]
            exact (and_iff_left fun both => both.2.elim wanted magic).symm
      · rw [if_pos (lengthTest.2 inside), clean_read (by simpa using ⟨typeRead, offsetRead, lengthRead⟩)]
        exact (and_iff_left fun both => inside both.1).symm
    · refine iff_of_false ?_ fun both => fits (both.2 accepted).1
      intro clean
      have bound := clean.inside _ (length_read_of_short short accepted)
      exact fits (by omega)
  · have passed : PassedShort blob i := fun accepted' => absurd accepted' accepted
    have equation : blob.visitEntry visit i = visit.read [(indexOffset i, 4)] := by simp [visitEntry, accepted]
    rw [equation, clean_read (by simpa using typeRead), and_iff_left passed]

theorem clean_visitEntries (visit : Visit) (short : blob.codeSignLen.toNat < codeDirectorySize)
    (index : indexOffset n ≤ blob.codeSignLen.toNat) :
    Clean blob (blob.visitEntries visit n) ↔ Clean blob visit ∧ ∀ i < n, PassedShort blob i := by
  induction n with
  | zero => exact (and_iff_left fun i bound => absurd bound (Nat.not_lt_zero i)).symm
  | succ n ih =>
      have fits : indexOffset n + blobIndexSize ≤ blob.codeSignLen.toNat := by
        rw [indexOffset, blobIndexSize] at *
        omega
      rw [visitEntries, clean_visitEntry short fits, ih (by omega), and_assoc, Nat.forall_lt_succ_right]

/-! ## The whole blob -/

/-- The last lines: `bestCd`, if there is one, is called back. -/
def finish (visit : Visit) : Visit :=
  match visit.bestCd with
  | some bestCd => visit.callback bestCd
  | none => visit

theorem forEachCodeDirectoryBlob_of_superBlob (header : blob.IsSuperBlob) :
    blob.forEachCodeDirectoryBlob =
      finish (blob.visitEntries (Visit.start.read [(0, 4), (8, 4)]) blob.subBlobCount.toNat) := by
  have long : superBlobSize ≤ blob.codeSignLen.toNat := Nat.le_of_add_right_le header.1
  have lengthTest : ¬ blob.codeSignLen < BitVec.ofNat 64 superBlobSize := by
    rw [superBlobSize] at *
    bv_omega
  have countTest := (count_test long).not.2 (not_not.2 header.1)
  simp only [forEachCodeDirectoryBlob, lengthTest, countTest, header.2]
  rw [if_neg not_false, if_neg (not_not.2 rfl), if_neg not_false]
  rfl

theorem forEachCodeDirectoryBlob_of_not_superBlob (header : ¬ blob.IsSuperBlob) :
    blob.forEachCodeDirectoryBlob.calls = [] ∧ blob.forEachCodeDirectoryBlob.ReadsInside blob.codeSignLen.toNat := by
  rw [forEachCodeDirectoryBlob]
  split_ifs with tooShort magic count
  · exact ⟨rfl, readsInside_start⟩
  all_goals
    have long : superBlobSize ≤ blob.codeSignLen.toNat := by
      rw [superBlobSize] at *
      bv_omega
    have bound := long
    rw [superBlobSize] at bound
  · exact ⟨rfl, Visit.readsInside_read_one.2 ⟨readsInside_start, by omega⟩⟩
  · refine ⟨rfl, ?_⟩
    simp only [Visit.readsInside_read_one]
    exact ⟨⟨readsInside_start, by omega⟩, by omega⟩
  · exact absurd ⟨not_not.1 ((count_test long).not.1 count), not_not.1 magic⟩ header

theorem entryCount_of_superBlob (header : blob.IsSuperBlob) : blob.entryCount = blob.subBlobCount.toNat :=
  if_pos header

theorem entryCount_of_not_superBlob (header : ¬ blob.IsSuperBlob) : blob.entryCount = 0 := if_neg header

theorem isExact_of_not_superBlob (header : ¬ blob.IsSuperBlob) : blob.IsExact blob.forEachCodeDirectoryBlob := by
  obtain ⟨calls, inside⟩ := forEachCodeDirectoryBlob_of_not_superBlob header
  have none := entryCount_of_not_superBlob header
  refine ⟨inside, fun _ => ?_, fun _ i isBest => ?_, fun _ _ => calls⟩
  · rw [none]
    exact calls
  · rw [none] at isBest
    exact absurd isBest.lt (Nat.not_lt_zero i)

theorem readsInside_header (header : blob.IsSuperBlob) :
    (Visit.start.read [(0, 4), (8, 4)]).ReadsInside blob.codeSignLen.toNat := by
  have long := header.1
  rw [superBlobSize] at long
  refine Visit.readsInside_read.2 ⟨readsInside_start, ?_⟩
  simpa using ⟨by omega, by omega⟩

theorem indexOffset_le (header : blob.IsSuperBlob) :
    indexOffset blob.subBlobCount.toNat ≤ blob.codeSignLen.toNat := header.1

section Short

variable (short : blob.codeSignLen.toNat < codeDirectorySize)

include short

theorem not_liesInside_of_short : ¬ blob.LiesInside cd := by
  intro inside
  have := inside.1
  omega

theorem isExact_iff_of_short (visit : Visit) :
    blob.IsExact visit ↔ visit.ReadsInside blob.codeSignLen.toNat ∧ visit.calls = [] := by
  have noCandidate : ∀ i, ¬ blob.IsCandidate i := fun i candidate => not_liesInside_of_short short candidate.2.1
  have noEntry : ((List.range blob.entryCount).filter fun i =>
      blob.NamesDirectory i ∧ blob.LiesInside (blob.directory i)) = [] :=
    List.filter_eq_nil_iff.2 fun i _ => by simpa using fun _ => not_liesInside_of_short short
  constructor
  · intro exact
    refine ⟨exact.inside, ?_⟩
    cases wanted : blob.wantsAll with
    | true => rw [exact.all wanted, noEntry, List.map_nil]
    | false => exact exact.never wanted fun i _ => noCandidate i
  · rintro ⟨inside, calls⟩
    refine ⟨inside, fun _ => ?_, fun _ i isBest => absurd isBest.member (noCandidate i), fun _ _ => calls⟩
    rw [noEntry, List.map_nil, calls]

theorem isExact_iff_noneTakenShort (header : blob.IsSuperBlob) :
    blob.IsExact blob.forEachCodeDirectoryBlob ↔ blob.NoneTakenShort := by
  have start : Clean blob (Visit.start.read [(0, 4), (8, 4)]) := ⟨readsInside_header header, rfl, rfl⟩
  have walk := clean_visitEntries (Visit.start.read [(0, 4), (8, 4)]) short (indexOffset_le header)
  rw [isExact_iff_of_short short, forEachCodeDirectoryBlob_of_superBlob header, NoneTakenShort,
    entryCount_of_superBlob header]
  change _ ↔ ∀ i < blob.subBlobCount.toNat, PassedShort blob i
  rw [← and_iff_right start (b := ∀ i < blob.subBlobCount.toNat, PassedShort blob i), ← walk]
  generalize blob.visitEntries (Visit.start.read [(0, 4), (8, 4)]) blob.subBlobCount.toNat = visit
  constructor
  · rintro ⟨inside, calls⟩
    cases kept : visit.bestCd with
    | none =>
        rw [finish, kept] at inside calls
        exact ⟨inside, calls, kept⟩
    | some best =>
        rw [finish, kept] at calls
        exact absurd calls (List.append_ne_nil_of_right_ne_nil _ (List.cons_ne_nil _ _))
  · intro clean
    rw [finish, clean.bestCd]
    exact ⟨clean.inside, clean.calls⟩

end Short

section Long

variable (long : codeDirectorySize ≤ blob.codeSignLen.toNat) (header : blob.IsSuperBlob)

include long header

theorem walked_whole :
    Walked blob blob.entryCount
      (blob.visitEntries (Visit.start.read [(0, 4), (8, 4)]) blob.subBlobCount.toNat) := by
  rw [entryCount_of_superBlob header]
  refine walked_visitEntries long ⟨readsInside_header header, ?_, ?_⟩ (indexOffset_le header)
  · split <;> rfl
  · split <;> rfl

theorem isExact_iff_noImpostorInside (wanted : blob.wantsAll = true) :
    blob.IsExact blob.forEachCodeDirectoryBlob ↔ blob.NoImpostorInside := by
  have walked := walked_whole long header
  have kept := walked.bestCd
  have calls := walked.calls
  rw [wanted, if_pos rfl] at kept calls
  rw [forEachCodeDirectoryBlob_of_superBlob header, finish, kept]
  constructor
  · intro exact i bound impostor inside
    -- The expected entries are among those that were taken, and there are as many of them.
    have sub : ((List.range blob.entryCount).filter fun i =>
        blob.NamesDirectory i ∧ blob.LiesInside (blob.directory i)).Sublist
        ((List.range blob.entryCount).filter fun i =>
          isCodeDirectoryType (blob.type i) = true ∧ blob.LiesInside (blob.directory i)) := by
      refine List.monotone_filter_right _ fun i passed => ?_
      have passed := of_decide_eq_true passed
      exact decide_eq_true ⟨isCodeDirectoryType_of_host passed.1, passed.2⟩
    have lengths := congrArg List.length ((exact.all wanted).symm.trans calls)
    rw [List.length_map, List.length_map] at lengths
    have same := sub.eq_of_length lengths
    have taken : i ∈ (List.range blob.entryCount).filter fun i =>
        isCodeDirectoryType (blob.type i) = true ∧ blob.LiesInside (blob.directory i) :=
      List.mem_filter.2 ⟨List.mem_range.2 bound, decide_eq_true ⟨impostor.1, inside⟩⟩
    rw [← same] at taken
    exact impostor.2 (of_decide_eq_true (List.mem_filter.1 taken).2).1
  · intro noImpostor
    refine ⟨walked.inside, fun _ => ?_, fun unwanted => ?_, fun unwanted => ?_⟩
    · rw [calls]
      congr 1
      refine List.filter_congr fun i member => ?_
      rw [decide_eq_decide]
      refine ⟨fun taken => ⟨?_, taken.2⟩, fun named => ⟨isCodeDirectoryType_of_host named.1, named.2⟩⟩
      by_contra unnamed
      exact noImpostor i (List.mem_range.1 member) ⟨taken.1, unnamed⟩ taken.2
    · rw [wanted] at unwanted
      exact absurd unwanted.symm Bool.false_ne_true
    · rw [wanted] at unwanted
      exact absurd unwanted.symm Bool.false_ne_true

theorem calls_of_firstBest (wanted : blob.wantsAll = false) {i : ℕ}
    (isBest : IsFirstBest blob.rank blob.IsSelectable blob.entryCount i) :
    blob.forEachCodeDirectoryBlob.calls = [blob.directory i] := by
  have walked := walked_whole long header
  have kept := walked.bestCd
  have calls := walked.calls
  rw [wanted, if_neg Bool.false_ne_true] at kept calls
  rw [firstBest_eq_some_iff.2 isBest] at kept
  rw [forEachCodeDirectoryBlob_of_superBlob header, finish, kept]
  dsimp only [Option.map_some]
  rw [Visit.callback_calls, calls, List.nil_append]

theorem calls_of_none (wanted : blob.wantsAll = false) (empty : ∀ i < blob.entryCount, ¬ blob.IsSelectable i) :
    blob.forEachCodeDirectoryBlob.calls = [] := by
  have walked := walked_whole long header
  have kept := walked.bestCd
  have calls := walked.calls
  rw [wanted, if_neg Bool.false_ne_true] at kept calls
  rw [firstBest_eq_none_iff.2 empty] at kept
  rw [forEachCodeDirectoryBlob_of_superBlob header, finish, kept]
  exact calls

theorem readsInside_of_long : blob.forEachCodeDirectoryBlob.ReadsInside blob.codeSignLen.toNat := by
  have walked := walked_whole long header
  rw [forEachCodeDirectoryBlob_of_superBlob header, finish]
  split
  · exact walked.inside
  · exact walked.inside

theorem isExact_iff_noImpostorBest (wanted : blob.wantsAll = false) :
    blob.IsExact blob.forEachCodeDirectoryBlob ↔ blob.NoImpostorBest := by
  constructor
  · intro exact i _ isBest
    have calls := calls_of_firstBest long header wanted isBest
    rcases firstBest_spec blob.rank blob.IsCandidate blob.entryCount with ⟨_, empty⟩ | ⟨j, _, isBest'⟩
    · rw [exact.never wanted empty] at calls
      exact absurd calls.symm (List.cons_ne_nil _ _)
    · rw [exact.best wanted j isBest'] at calls
      exact ⟨j, isBest', (List.cons.inj calls).1⟩
  · intro noImpostor
    have selectable : ∀ i, blob.IsCandidate i → blob.IsSelectable i :=
      fun i candidate => ⟨isCodeDirectoryType_of_host candidate.1, candidate.2⟩
    -- The choice is that of the candidates alone, or its directory is.
    have agrees : ∀ i, IsFirstBest blob.rank blob.IsSelectable blob.entryCount i →
        ∃ j, IsFirstBest blob.rank blob.IsCandidate blob.entryCount j ∧ blob.directory j = blob.directory i := by
      intro i isBest
      by_cases named : blob.NamesDirectory i
      · exact ⟨i, isBest.of_subset ⟨named, isBest.member.2⟩ selectable, rfl⟩
      · exact noImpostor i ⟨isBest.member.1, named⟩ isBest
    refine ⟨readsInside_of_long long header, fun wanted' => ?_, fun _ j isBest' => ?_, fun _ empty => ?_⟩
    · rw [wanted] at wanted'
      exact absurd wanted' Bool.false_ne_true
    · rcases firstBest_spec blob.rank blob.IsSelectable blob.entryCount with ⟨_, empty⟩ | ⟨i, _, isBest⟩
      · exact absurd (selectable j isBest'.member) (empty j isBest'.lt)
      · obtain ⟨k, isBest'', same⟩ := agrees i isBest
        rw [calls_of_firstBest long header wanted isBest, ← same, isBest''.unique isBest']
    · refine calls_of_none long header wanted fun i bound member => ?_
      rcases firstBest_spec blob.rank blob.IsSelectable blob.entryCount with ⟨_, none⟩ | ⟨i, _, isBest⟩
      · exact none i bound member
      · obtain ⟨k, isBest', _⟩ := agrees i isBest
        exact empty k isBest'.lt isBest'.member

end Long

variable (blob)

/-- The selection is exact for the unambiguous blobs, and for no others. -/
theorem forEachCodeDirectoryBlob_exact_iff : blob.IsExact blob.forEachCodeDirectoryBlob ↔ blob.IsUnambiguous := by
  rw [IsUnambiguous]
  by_cases header : blob.IsSuperBlob
  · split_ifs with short wanted
    · exact isExact_iff_noneTakenShort short header
    · exact isExact_iff_noImpostorInside (not_lt.1 short) header wanted
    · exact isExact_iff_noImpostorBest (not_lt.1 short) header (Bool.eq_false_iff.2 wanted)
  · have none := entryCount_of_not_superBlob header
    refine iff_of_true (isExact_of_not_superBlob header) ?_
    split_ifs
    · intro i bound
      exact absurd bound (none ▸ Nat.not_lt_zero i)
    · intro i bound
      exact absurd bound (none ▸ Nat.not_lt_zero i)
    · intro i _ isBest
      exact absurd isBest.lt (none ▸ Nat.not_lt_zero i)

/-- A blob with one entry, of the type `0x01001000`, that points to a code directory. -/
def impostorBlob : CodeSignature where
  memory address :=
    ([0xfa, 0xde, 0x0c, 0xc0, 0, 0, 0, 108, 0, 0, 0, 1, 0x01, 0x00, 0x10, 0x00, 0, 0, 0, 20,
      0xfa, 0xde, 0x0c, 0x02, 0, 0, 0, 88] : List (BitVec 8)).getD address 0
  codeSignLen := 108
  isWatchOS := false
  isMainExecutable := true

/-- A code directory is called back although no entry of the index has the type of one. -/
theorem impostorBlob_not_exact : ¬ impostorBlob.IsExact impostorBlob.forEachCodeDirectoryBlob := by
  intro exact
  have empty : ∀ i < impostorBlob.entryCount, ¬ impostorBlob.IsCandidate i := by decide +kernel
  have calls : impostorBlob.forEachCodeDirectoryBlob.calls = [20] := by decide +kernel
  exact absurd (calls.symm.trans (exact.never rfl empty)) (List.cons_ne_nil _ _)

end CodeSignature

end ObjcDyld.CodeSignatures
