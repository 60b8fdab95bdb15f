import ObjcDyld.ChainedFixups.ChainStartsRuns

/-!
# Faithful starts of old arm64e images

For accepted bind opcodes: when `withChainStarts` returns, stays in its buffer, and hands out a
table whose walk starts exactly the chains of the opcodes.
-/

namespace ObjcDyld.ChainedFixups

open ByteMemory

variable {image : OldArm64e} {buffer after : Buffer} {memory : Memory} {done : List (ℕ × BitVec 64)}

structure FaithfulTable (image : OldArm64e) (buffer : Buffer) : Prop where
  inside : buffer.written ≤ image.bufferSize
  /-- The walk starts one chain for each chain start, where that is. -/
  walk : ∃ enough, ∀ fuel ≥ enough, ∃ events, buffer.starts.forEachFixupInAllChains (fun _ => false) fuel = some events ∧
    ((events.filterMap WalkEvent.chainStart).map buffer.starts.location).Perm
      (image.chainStarts.map fun start => (start.1, start.2.toNat))
  segments : ∀ start ∈ image.chainStarts, (buffer.starts.segInfo start.1).pageSize = 0x1000 ∧
    (buffer.starts.segInfo start.1).segmentOffset = image.segmentOffset start.1

/-- `withChainStarts` returns with a faithful table. -/
def Faithful (image : OldArm64e) (memory : Memory) : Prop :=
  ∃ buffer, image.withChainStarts memory = some buffer ∧ FaithfulTable image buffer

theorem bufferSize_lt (image : OldArm64e) : image.bufferSize < 2 ^ 32 := BitVec.isLt _

theorem InOrder.left {rest : List (ℕ × BitVec 64)} (inOrder : InOrder (done ++ rest)) : InOrder done := by
  intro before next after split
  exact inOrder before next (after ++ rest) (by rw [split, List.append_assoc, List.cons_append])

theorem recordsSize_le {next : ℕ × BitVec 64} (appends : Appends done next) :
    recordsSize done ≤ recordsSize (done ++ [next]) := by
  rcases List.eq_nil_or_concat' done with rfl | ⟨before, last, rfl⟩
  · exact Nat.zero_le _
  · have snoc := recordsSize_snoc before last next
    by_cases same : last.1 = next.1
    · have ascends := appends.ascends last (by simp) same
      rw [if_pos same] at snoc
      simp only [recordSize, SegmentStarts.offsetOfPageStart] at snoc
      omega
    · rw [if_neg same] at snoc
      omega

theorem exists_holds (inOrder : InOrder done) (inside : ∀ start ∈ done, start.1 < image.segCount)
    (fits : tableSize image done < 2 ^ 32) (memory : Memory) :
    ∃ buffer, done.foldlM (addChainStart image) (image.emptyTable memory) = some buffer ∧ Holds image done buffer := by
  induction done using List.reverseRecOn with
  | nil => exact ⟨_, rfl, holds_emptyTable image memory⟩
  | append_singleton done next ih =>
      have appends := inOrder done next [] rfl
      have grows := recordsSize_le appends
      have smaller : tableSize image done < 2 ^ 32 := by
        rw [tableSize] at fits ⊢
        omega
      obtain ⟨buffer, run, holds⟩ := ih inOrder.left
        (fun start member => inside start (List.mem_append_left _ member)) smaller
      have among := inside next (List.mem_append_right _ (List.mem_singleton_self next))
      have small : buffer.written < 2 ^ 32 := holds.written.trans_lt smaller
      obtain ⟨after, stepped⟩ := Buffer.exists_addChainStart among holds.laid.header
        (fun _ => (holds.laid.nextRecord_le (Nat.zero_lt_of_lt among)).trans_lt small)
        (appends.page_lt.trans (by decide)) fun stays => ((holds.place appends).1 stays).2
      refine ⟨after, ?_, holds.step appends stepped among small⟩
      rw [Prefixes.foldlM_snoc done next run, stepped]

theorem location_eq {start : ℕ × BitVec 64} (inRange : start.2.toNat < 65535 * 0x1000) :
    0x1000 * pageIndexOf start.2 + (entryOf start).toNat = start.2.toNat := by
  have page : pageIndexOf start.2 = start.2.toNat / 4096 % 2 ^ 32 := by
    rw [pageIndexOf, BitVec.toNat_setWidth, BitVec.toNat_udiv]
    rfl
  rw [page, toNat_entryOf, Nat.mod_eq_of_lt (by omega)]
  exact Nat.div_add_mod _ _

theorem Holds.faithfulTable (holds : Holds image image.chainStarts buffer) (inOrder : InOrder image.chainStarts)
    (fits : tableSize image image.chainStarts ≤ image.bufferSize) : FaithfulTable image buffer := by
  refine ⟨holds.written.trans_le fits, ⟨0, fun fuel _ => ?_⟩, fun start member =>
    ⟨(holds.entry start member).2.2, (holds.entry start member).2.1⟩⟩
  obtain ⟨events, run, chains⟩ := StartsInImage.forEachFixupInAllChains_plain holds.laid.plain fuel
  refine ⟨events, run, ?_⟩
  rw [chains]
  have pages : buffer.starts.started.Perm (image.chainStarts.map pageOf) := by
    refine (List.perm_ext_iff_of_nodup buffer.starts.started_nodup holds.nodup).mpr fun page => ?_
    rw [holds.started, List.mem_map]
  have located : (image.chainStarts.map fun start => (start.1, start.2.toNat)) =
      ((image.chainStarts.map pageOf).map buffer.starts.startOf).map buffer.starts.location := by
    rw [List.map_map, List.map_map]
    refine List.map_congr_left fun start member => ?_
    obtain ⟨before, rest, split⟩ := List.append_of_mem member
    obtain ⟨entry, -, size⟩ := holds.entry start member
    refine Prod.ext rfl ?_
    change start.2.toNat = (buffer.starts.segInfo start.1).pageSize * pageIndexOf start.2 +
      ((buffer.starts.segInfo start.1).pageStart (pageIndexOf start.2)).toNat
    rw [size, entry, location_eq (inOrder before start rest split).inRange]
  rw [located]
  exact (pages.map _).map _

theorem FaithfulTable.chains (faithful : FaithfulTable image buffer) (laid : Laid image buffer) :
    ((buffer.starts.started.map buffer.starts.startOf).map buffer.starts.location).Perm
      (image.chainStarts.map fun start => (start.1, start.2.toNat)) := by
  obtain ⟨enough, walk⟩ := faithful.walk
  obtain ⟨events, run, chains⟩ := walk enough le_rfl
  obtain ⟨events', run', plain⟩ := StartsInImage.forEachFixupInAllChains_plain laid.plain enough
  obtain rfl := Option.some.inj (run.symm.trans run')
  rwa [plain] at chains

theorem FaithfulTable.length_le (faithful : FaithfulTable image buffer) (laid : Laid image buffer) :
    image.chainStarts.length ≤ (keptPages image buffer).card := by
  have chains := faithful.chains laid
  have length : buffer.starts.started.length = image.chainStarts.length := by
    simpa only [List.length_map] using chains.length_eq
  have kept : buffer.starts.started.toFinset ⊆ keptPages image buffer := by
    intro page member
    have started := List.mem_toFinset.mp member
    have given := chains.subset (List.mem_map_of_mem (List.mem_map_of_mem started))
    obtain ⟨start, among, same⟩ := List.mem_map.mp given
    have segment : start.1 = page.1 := congrArg Prod.fst same
    refine mem_keptPages.mpr ⟨started, ?_, start, among, segment⟩
    rw [← segment]
    exact (faithful.segments start among).2
  calc
    image.chainStarts.length = buffer.starts.started.toFinset.card := by
      rw [List.toFinset_card_of_nodup buffer.starts.started_nodup, length]
    _ ≤ (keptPages image buffer).card := Finset.card_le_card kept

theorem FaithfulTable.offset_lt (faithful : FaithfulTable image buffer) (laid : Laid image buffer)
    {start : ℕ × BitVec 64} (among : start ∈ image.chainStarts) : start.2.toNat < 2 ^ 32 := by
  have given : (start.1, start.2.toNat) ∈ image.chainStarts.map fun start => (start.1, start.2.toNat) :=
    List.mem_map_of_mem among
  obtain ⟨chain, member, same⟩ := List.mem_map.mp ((faithful.chains laid).symm.subset given)
  obtain ⟨page, started, rfl⟩ := List.mem_map.mp member
  obtain ⟨-, -, before, -⟩ := StartsInImage.mem_started_iff.mp started
  have segment : page.1 = start.1 := congrArg Prod.fst same
  have offset : (buffer.starts.segInfo page.1).pageSize * page.2 +
      ((buffer.starts.segInfo page.1).pageStart page.2).toNat = start.2.toNat := congrArg Prod.snd same
  rw [segment] at before offset
  rw [(faithful.segments start among).1] at offset
  have count := Buffer.pageCount_lt (buffer.starts.segInfo start.1)
  have entry := ((buffer.starts.segInfo start.1).pageStart page.2).isLt
  omega

theorem Holds.keptPages_subset (holds : Holds image done buffer) :
    keptPages image buffer ⊆ (done.map pageOf).toFinset := by
  intro page kept
  obtain ⟨start, member, same⟩ := (holds.started page).mp (mem_keptPages.mp kept).started
  exact List.mem_toFinset.mpr (List.mem_map.mpr ⟨start, member, same⟩)

theorem Holds.keeps (holds : Holds image done buffer) {start : ℕ × BitVec 64} (member : start ∈ done)
    (among : start ∈ image.chainStarts) : Keeps image buffer (pageOf start) :=
  ⟨(holds.started _).mpr ⟨start, member, rfl⟩, (holds.entry start member).2.1, start, among, rfl⟩

theorem Holds.appends (apart : SegmentsApart image) (holds : Holds image done buffer) {next : ℕ × BitVec 64}
    (step : buffer.Stepped image.segCount image next after) (inside : ∀ start ∈ done ++ [next], start.1 < image.segCount)
    (members : ∀ start ∈ done ++ [next], start ∈ image.chainStarts) (small : next.2.toNat < 2 ^ 32)
    (loses : ∀ start ∈ done, Keeps image after (pageOf start)) (adds : Keeps image after (pageOf next))
    (new : ∀ start ∈ done, pageOf start ≠ pageOf next) : Appends done next := by
  have entry : ∀ start : ℕ × BitVec 64, Keeps image after (pageOf start) →
      after.starts.segInfoOffset start.1 = after.curSeg → pageIndexOf start.2 < after.record.pageCount ∧
        after.record.pageStart (pageIndexOf start.2) ≠ startNone ∧
        after.record.segmentOffset = image.segmentOffset start.1 := by
    intro start keeps current
    obtain ⟨-, -, before, some_start⟩ := StartsInImage.mem_started_iff.mp keeps.started
    have own := keeps.own
    change pageIndexOf start.2 < (after.starts.segInfo start.1).pageCount at before
    change (after.starts.segInfo start.1).pageStart (pageIndexOf start.2) ≠ startNone at some_start
    change (after.starts.segInfo start.1).segmentOffset = image.segmentOffset start.1 at own
    rw [segInfo_eq_record current] at before some_start own
    exact ⟨before, some_start, own⟩
  have next_inside := inside next (List.mem_append_right _ (List.mem_singleton_self next))
  have placed : after.starts.segInfoOffset next.1 = after.curSeg := by
    by_cases stays : next.1 = buffer.curSegIndex
    · have hasFixups := (StartsInImage.mem_started_iff.mp adds.started).2.1
      change after.starts.segInfoOffset next.1 ≠ 0 at hasFixups
      have same := step.infoOffset_other next.1 next_inside (.inr stays)
      rw [same, step.curSeg, if_pos stays]
      rcases holds.laid.current (Nat.zero_lt_of_lt next_inside) with current | ⟨zero, empty⟩
      · rwa [stays]
      · exact absurd (same.trans (by rw [stays, zero, empty])) hasFixups
    · exact step.infoOffset stays
  obtain ⟨before, -, -⟩ := entry next adds placed
  have reachable := step.page_lt
  rw [step.pageCount] at before
  have pageCount : after.record.pageCount = pageIndexOf next.2 + 1 := by
    rw [step.pageCount]
    omega
  refine ⟨?_, fun empty zero => ?_, fun last member same => ?_, fun last member other => ⟨fun zero => ?_, ?_⟩⟩
  · have page : pageIndexOf next.2 = next.2.toNat / 4096 % 2 ^ 32 := by
      rw [pageIndexOf, BitVec.toNat_setWidth, BitVec.toNat_udiv]
      rfl
    omega
  · -- the header has no offset of the first segment
    obtain ⟨curSegIndex, curSeg⟩ := holds.first empty
    have stays : next.1 = buffer.curSegIndex := zero.trans curSegIndex.symm
    have same := step.infoOffset_other next.1 next_inside (.inr stays)
    have hasFixups := (StartsInImage.mem_started_iff.mp adds.started).2.1
    change after.starts.segInfoOffset next.1 ≠ 0 at hasFixups
    rw [same, stays] at hasFixups
    have ends := (holds.laid.record (Nat.zero_lt_of_lt next_inside) hasFixups).1
    rw [SegmentStarts.offsetOfPageStart] at ends
    omega
  · have done_last := List.mem_of_getLast? member
    have upto := (entry last (loses last done_last) (by rw [same, placed])).1
    have ne : pageIndexOf last.2 ≠ pageIndexOf next.2 := fun eq => new last done_last (Prod.ext same eq)
    omega
  · -- the record of the first segment becomes the one of the next
    have done_last := List.mem_of_getLast? member
    obtain ⟨curSegIndex, offset, -, -⟩ := holds.last last member
    have last_inside := inside last (List.mem_append_left _ done_last)
    have shared : after.starts.segInfoOffset last.1 = after.curSeg := by
      rw [step.infoOffset_other last.1 last_inside (.inl other), offset, step.curSeg,
        if_neg fun stays => other (curSegIndex.symm.trans stays.symm), Buffer.nextRecord, if_pos (curSegIndex.trans zero)]
    have own := (entry last (loses last done_last) shared).2.2
    refine other (apart.segmentOffset (members last (List.mem_append_left _ done_last))
      (members next (List.mem_append_right _ (List.mem_singleton_self next))) ?_)
    exact own.symm.trans step.segmentOffset
  · intro start member' same
    obtain ⟨curSegIndex, -⟩ := holds.last last member
    obtain ⟨upto, some_start, -⟩ := entry start (loses start member') (by rw [same, placed])
    rcases step.entries upto with here | none | ⟨stays, -⟩
    · exact new start member' (Prod.ext same here)
    · exact some_start none
    · exact other (curSegIndex.symm.trans stays.symm)

theorem inOrder_of_faithfulTable (apart : SegmentsApart image) (inside : ∀ start ∈ image.chainStarts, start.1 < image.segCount)
    {final : Buffer} (run : image.chainStarts.foldlM (addChainStart image) (image.emptyTable memory) = some final)
    (faithful : FaithfulTable image final) :
    InOrder image.chainStarts ∧ tableSize image image.chainStarts ≤ image.bufferSize := by
  have fits : final.written < 2 ^ 32 := faithful.inside.trans_lt (bufferSize_lt image)
  have laid := (keptPages_run apart (holds_emptyTable image memory).laid run
    (fun start member => ⟨member, inside start member⟩) fits).1
  have length := faithful.length_le laid
  suffices steps : ∀ done rest, image.chainStarts = done ++ rest → ∃ buffer,
      done.foldlM (addChainStart image) (image.emptyTable memory) = some buffer ∧
      rest.foldlM (addChainStart image) buffer = some final ∧ Holds image done buffer ∧ InOrder done by
    obtain ⟨buffer, -, ran, holds, inOrder⟩ := steps image.chainStarts [] (List.append_nil _).symm
    obtain rfl := Option.some.inj ran
    exact ⟨inOrder, holds.written.symm.trans_le faithful.inside⟩
  intro done
  induction done using List.reverseRecOn with
  | nil =>
      intro rest split
      rw [List.nil_append] at split
      exact ⟨_, rfl, split ▸ run, holds_emptyTable image memory, fun before next rest empty => absurd empty (by simp)⟩
  | append_singleton done next ih =>
      intro rest split
      obtain ⟨buffer, ran, later, holds, inOrder⟩ := ih (next :: rest) (by rw [split]; simp)
      have members : ∀ start ∈ done ++ [next], start ∈ image.chainStarts :=
        fun start member => split ▸ List.mem_append_left _ member
      have rest_members : ∀ start ∈ rest, start ∈ image.chainStarts := fun start member => split ▸ List.mem_append_right _ member
      have next_member := members next (List.mem_append_right _ (List.mem_singleton_self next))
      have small := (written_le_of_run later).trans_lt fits
      rw [List.foldlM_cons] at later
      obtain ⟨after, stepped, later⟩ := Option.bind_eq_some_iff.mp later
      have step := holds.laid.stepped stepped (inside next next_member) small
      -- the pages that are kept in the end are at least as many as the chain starts: none is lost, one is new
      have card := (keptPages_run apart (step.laid holds.laid (inside next next_member)) later
        (fun start member => ⟨rest_members start member, inside start (rest_members start member)⟩) fits).2
      have subset := keptPages_subset apart holds.laid step next_member
      have before : (keptPages image buffer).card ≤ done.length := by
        refine (Finset.card_le_card holds.keptPages_subset).trans ((List.toFinset_card_le _).trans ?_)
        rw [List.length_map]
      have total : image.chainStarts.length = done.length + 1 + rest.length := by
        rw [split, List.length_append, List.length_append, List.length_singleton]
      have one := Finset.card_insert_le (pageOf next) (keptPages image buffer)
      have kept : keptPages image after = insert (pageOf next) (keptPages image buffer) :=
        Finset.eq_of_subset_of_card_le subset (by omega)
      have fresh : pageOf next ∉ keptPages image buffer := by
        intro member
        rw [Finset.insert_eq_of_mem member] at kept
        rw [kept] at card
        omega
      have keeps : ∀ start ∈ done, Keeps image buffer (pageOf start) :=
        fun start member => holds.keeps member (members start (List.mem_append_left _ member))
      have appends := holds.appends apart step (fun start member => inside start (members start member)) members
        (faithful.offset_lt laid next_member)
        (fun start member => mem_keptPages.mp
          (kept.symm ▸ Finset.mem_insert_of_mem (mem_keptPages.mpr (keeps start member))))
        (mem_keptPages.mp (kept.symm ▸ Finset.mem_insert_self _ _))
        (fun start member same => fresh (mem_keptPages.mpr (same ▸ keeps start member)))
      refine ⟨after, by rw [Prefixes.foldlM_snoc done next ran, stepped], later,
        holds.step appends stepped (inside next next_member) small, fun before' other rest' split' => ?_⟩
      -- the last one is the next one, the others are in order already
      rcases List.eq_nil_or_concat' rest' with rfl | ⟨rest', last, rfl⟩
      · obtain ⟨rfl, same⟩ := List.append_inj' split' rfl
        obtain rfl := (List.cons_eq_cons.mp same).1
        exact appends
      · have split'' : done ++ [next] = (before' ++ other :: rest') ++ [last] := by rw [split']; simp
        exact inOrder before' other rest' (List.append_inj' split'' rfl).1

/-- Old chain starts of accepted opcodes are synthesised faithfully when they come in order and fit; where
the segments with chain starts are at different addresses, only then. -/
theorem faithful_iff (image : OldArm64e) (memory : Memory) (accepted : validChainedFixupsInfoOldArm64e image = true) :
    (InOrder image.chainStarts ∧ tableSize image image.chainStarts ≤ image.bufferSize → Faithful image memory) ∧
      (SegmentsApart image → Faithful image memory →
        InOrder image.chainStarts ∧ tableSize image image.chainStarts ≤ image.bufferSize) := by
  have inside := (calls_of_accepted accepted).2
  have eq := OldArm64e.withChainStarts_eq accepted memory
  constructor
  · rintro ⟨inOrder, fits⟩
    obtain ⟨buffer, run, holds⟩ := exists_holds inOrder inside (fits.trans_lt (bufferSize_lt image)) memory
    exact ⟨buffer, eq.trans run, holds.faithfulTable inOrder fits⟩
  · rintro apart ⟨final, run, faithful⟩
    exact inOrder_of_faithfulTable apart inside (eq.symm.trans run) faithful

/-- One chain start in the second segment, at an offset that the opcodes give in four bytes. -/
def oneChainStart (offset : List (BitVec 8)) : OldArm64e where
  binds := 0x71 :: offset ++ [0xD1, 0x00]
  linkeditSegIndex := 2
  segments index := ⟨0x4000 + 0x1000000 * BitVec.ofNat 64 index, 0x800000, index = 1, index = 0⟩
  preferredLoadAddress := 0x4000
  dependentDylibCount := 0

/-- At 0x4010: the fifth page. -/
theorem faithful_iff_fifthPage : Faithful (oneChainStart [0x90, 0x80, 0x81, 0x00]) fun _ => 0 := by
  refine (faithful_iff _ _ (by decide +kernel)).1 ⟨fun done next rest split => ?_, by decide +kernel⟩
  have starts : (oneChainStart [0x90, 0x80, 0x81, 0x00]).chainStarts = [(1, 0x4010)] := by decide +kernel
  rw [starts] at split
  cases done with
  | nil =>
      obtain rfl := (List.cons_eq_cons.mp split).1
      exact ⟨by decide, fun _ => by decide, nofun, nofun⟩
  | cons first done => exact absurd (congrArg List.length split) (by simp)

/-- At 0x400000: the table takes two bytes for each of the 1024 pages before. -/
theorem not_faithful_farPage :
    validChainedFixupsInfoOldArm64e (oneChainStart [0x80, 0x80, 0x80, 0x02]) = true ∧
      ∀ memory, ¬Faithful (oneChainStart [0x80, 0x80, 0x80, 0x02]) memory := by
  have accepted : validChainedFixupsInfoOldArm64e (oneChainStart [0x80, 0x80, 0x80, 0x02]) = true := by decide +kernel
  refine ⟨accepted, fun memory => ?_⟩
  rintro ⟨final, run, faithful⟩
  have apart : SegmentsApart (oneChainStart [0x80, 0x80, 0x80, 0x02]) := by
    rw [SegmentsApart]
    decide +kernel
  have inOrder := inOrder_of_faithfulTable apart (calls_of_accepted accepted).2
    ((OldArm64e.withChainStarts_eq accepted memory).symm.trans run) faithful
  exact absurd inOrder.2 (by decide +kernel)

end ObjcDyld.ChainedFixups
