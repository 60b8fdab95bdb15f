import ObjcDyld.MachO.FatFiles

/-!
# Slices of fat files

Which slices `FatFile::forEachSlice` reports and `FatFile::isFatFileWithSlice` selects: what the check of one
slice accepts and reads, the loop over the entries, the extra entry, and the running maximum.
-/

namespace ObjcDyld.MachO

open Rankings StoppableRuns

namespace FatFile

/-! ## The check of one slice -/

variable {file : FatFile} {slice : FatArch} {diag : Option FatError} {i : ℕ}

theorem mapped_of_inside (inside : slice.offset + slice.size ≤ file.fileLen) :
    (file.machOFile slice).mh + slice.size < 2 ^ 64 := by
  have mapped := file.mapped
  simp only [machOFile]
  omega

theorem isMachO_eq (mf : MachOFile) {fileSize : ℕ} (mapped : mf.mh + fileSize < 2 ^ 64) :
    ((mf.isMachO fileSize).1 = true ↔ mf.hasMachOMagic = true ∧ ¬ mf.ExceedsLength fileSize ∧ mf.AllFit) ∧
      ((mf.isMachO fileSize).2 = none ↔ (mf.isMachO fileSize).1 = true ∨
        mf.hasMachOMagic = false ∧ mf.hasMachOBigEndianMagic = true) := by
  unfold MachOFile.isMachO
  cases magic : mf.hasMachOMagic with
  | false =>
      cases mf.hasMachOBigEndianMagic with
      | false => simp
      | true => simp
  | true =>
      rw [if_neg (by simp)]
      by_cases exceeds : mf.ExceedsLength fileSize
      · rw [if_pos exceeds]
        simp [exceeds]
      · rw [if_neg exceeds]
        have spec : MachOFile.WalksFrom mf (fun _ state => (state, false)) mf.ncmds mf.startCmds ()
            (mf.walkFrom (fun _ state => (state, false)) mf.ncmds 0 mf.startCmds ()) :=
          MachOFile.walkFrom_spec (MachOFile.area_lt mapped exceeds) le_rfl (Nat.le_add_right _ _)
        have goes_on : (mf.walkFrom (fun _ state => (state, false)) mf.ncmds 0 mf.startCmds ()).outcome.stopped = false := by
          rw [spec.outcome]
          exact congrArg Outcome.stopped (runUntil_of_not_stopping fun _ _ => rfl)
        have error : (mf.forEachLoadCommand (fun _ state => (state, false)) ()).error.isSome = true ↔ ¬ mf.AllFit := by
          rw [MachOFile.forEachLoadCommand, if_pos magic]
          exact spec.error.trans ⟨And.right, fun misfit => ⟨goes_on, misfit⟩⟩
        cases reported : (mf.forEachLoadCommand (fun _ state => (state, false)) ()).error with
        | none =>
            rw [reported] at error
            have fits : mf.AllFit := by simpa using error
            simp [exceeds, reported, fits]
        | some e =>
            rw [reported] at error
            have misfit : ¬ mf.AllFit := by simpa using error
            simp [exceeds, reported, misfit]

theorem inside_iff : ¬ (slice.offset > file.fileLen ∨ slice.size > file.fileLen - slice.offset) ↔
    slice.offset + slice.size ≤ file.fileLen := by omega

theorem aligned_iff (mf : MachOFile) (offset : ℕ) : offset &&& mf.pageSizeMask = 0 ↔ mf.pageSizeMask + 1 ∣ offset := by
  unfold MachOFile.pageSizeMask
  rw [Nat.dvd_iff_mod_eq_zero]
  split
  · exact iff_of_eq (congrArg (· = 0) (Nat.and_two_pow_sub_one_eq_mod offset 14))
  · exact iff_of_eq (congrArg (· = 0) (Nat.and_two_pow_sub_one_eq_mod offset 12))

theorem isMachOWith_spec (diag : Option FatError) (inside : slice.offset + slice.size ≤ file.fileLen) :
    (((file.machOFile slice).isMachOWith diag slice.size).valid = true ↔
      diag = none ∧ (file.machOFile slice).hasMachOMagic = true ∧ ¬ (file.machOFile slice).ExceedsLength slice.size ∧
        (file.machOFile slice).AllFit) ∧
    (((file.machOFile slice).isMachOWith diag slice.size).diag = none ↔ diag = none ∧
      (((file.machOFile slice).isMachOWith none slice.size).valid = true ∨ file.IsForeign slice)) := by
  obtain ⟨answer, silent⟩ := isMachO_eq (file.machOFile slice) (mapped_of_inside inside)
  cases error : ((file.machOFile slice).isMachO slice.size).2 with
  | none =>
      rw [error] at silent
      have accepted := silent.1 rfl
      rw [answer] at accepted
      cases diag with
      | none => simpa [MachOFile.isMachOWith, error, answer, IsForeign, inside] using accepted
      | some e => simp [MachOFile.isMachOWith, error]
  | some e =>
      rw [error] at silent
      have rejected : ¬ (((file.machOFile slice).isMachO slice.size).1 = true ∨
          (file.machOFile slice).hasMachOMagic = false ∧ (file.machOFile slice).hasMachOBigEndianMagic = true) :=
        fun accepted => absurd (silent.2 accepted) (Option.some_ne_none e)
      rw [not_or, answer] at rejected
      simp [MachOFile.isMachOWith, error, IsForeign, rejected]

theorem isValidSlice_valid_iff : (file.isValidSlice diag i slice).valid = true ↔ diag = none ∧ file.IsSlice slice := by
  unfold isValidSlice
  split
  · next beyond =>
      simp only [Bool.false_eq_true, false_iff, not_and]
      exact fun _ valid => inside_iff.2 valid.inside beyond
  · next within =>
      have inside := inside_iff.1 within
      obtain ⟨accepts, -⟩ := isMachOWith_spec diag inside
      dsimp only
      split
      · next rejected =>
          rw [rejected] at accepts ⊢
          simp only [Bool.false_eq_true, false_iff, not_and] at accepts ⊢
          exact fun clean valid => accepts clean valid.magic valid.header valid.commands
      · next accepted =>
          obtain ⟨clean, magic, header, commands⟩ := accepts.1 (by simpa using accepted)
          split
          · next mismatch =>
              simp only [Bool.false_eq_true, false_iff, not_and]
              exact fun _ valid => mismatch.elim (absurd valid.cputype) (absurd valid.cpusubtype)
          · next same =>
              rw [not_or, not_not, not_not] at same
              split
              · next unaligned =>
                  simp only [Bool.false_eq_true, false_iff, not_and]
                  exact fun _ valid => unaligned ((aligned_iff _ _).2 valid.aligned)
              · next aligned =>
                  have page := (aligned_iff _ _).1 (not_not.1 aligned)
                  exact iff_of_true rfl ⟨clean, inside, magic, header, commands, same.1, same.2, page⟩

theorem not_malformed_iff : ¬ file.Malformed slice ↔ file.IsSlice slice ∨ file.IsForeign slice := by
  unfold Malformed
  tauto

theorem isValidSlice_diag_iff :
    (file.isValidSlice diag i slice).diag = none ↔ diag = none ∧ ¬ file.Malformed slice := by
  rw [not_malformed_iff]
  unfold isValidSlice
  split
  · next beyond =>
      refine iff_of_false (Option.some_ne_none _) fun fine => ?_
      rcases fine.2 with valid | foreign
      · exact inside_iff.2 valid.inside beyond
      · exact inside_iff.2 foreign.1 beyond
  · next within =>
      have inside := inside_iff.1 within
      obtain ⟨accepts, silent⟩ := isMachOWith_spec diag inside
      dsimp only
      split
      · next rejected =>
          rw [silent]
          refine and_congr_right fun clean => or_congr_left ?_
          rw [clean] at rejected accepts
          rw [rejected] at accepts ⊢
          refine iff_of_false Bool.false_ne_true fun valid => ?_
          exact Bool.false_ne_true (accepts.2 ⟨rfl, valid.magic, valid.header, valid.commands⟩)
      · next accepted =>
          have valid := Bool.eq_true_of_not_eq_false accepted
          obtain ⟨clean, magic, header, commands⟩ := accepts.1 valid
          have homely : ¬ file.IsForeign slice := fun foreign => Bool.false_ne_true (foreign.2.1.symm.trans magic)
          split
          · next mismatch =>
              refine iff_of_false (Option.some_ne_none _) fun fine => ?_
              rcases fine.2 with valid | foreign
              · exact mismatch.elim (absurd valid.cputype) (absurd valid.cpusubtype)
              · exact homely foreign
          · next same =>
              rw [not_or, not_not, not_not] at same
              split
              · next unaligned =>
                  refine iff_of_false (Option.some_ne_none _) fun fine => ?_
                  rcases fine.2 with valid | foreign
                  · exact unaligned ((aligned_iff _ _).2 valid.aligned)
                  · exact homely foreign
              · next aligned =>
                  have page := (aligned_iff _ _).1 (not_not.1 aligned)
                  subst clean
                  exact iff_of_true (silent.2 ⟨rfl, .inl valid⟩)
                    ⟨rfl, .inl ⟨inside, magic, header, commands, same.1, same.2, page⟩⟩

theorem holds_iff {address size : ℕ} (low : file.start ≤ address) :
    file.Holds (address, size) ↔ address + size ≤ file.start + file.fileLen :=
  and_iff_right low

/-- Walking the commands of a file whose size check passes looks at its header, at the commands that fit and at the
first one that does not. -/
theorem walkReads_holds_iff (inside : slice.offset + slice.size ≤ file.fileLen)
    (magic : (file.machOFile slice).hasMachOMagic = true) (header : ¬ (file.machOFile slice).ExceedsLength slice.size) :
    (∀ read ∈ ((file.machOFile slice).forEachLoadCommand (fun _ state => (state, false)) ()).reads, file.Holds read) ↔
      (file.machOFile slice).AllFit ∨ (file.machOFile slice).endOf (file.machOFile slice).startCmds
        (file.machOFile slice).fitting + 8 ≤ file.start + file.fileLen := by
  have spec : MachOFile.WalksFrom (file.machOFile slice) (fun _ state => (state, false)) (file.machOFile slice).ncmds
      (file.machOFile slice).startCmds () ((file.machOFile slice).walkFrom (fun _ state => (state, false))
        (file.machOFile slice).ncmds 0 (file.machOFile slice).startCmds ()) :=
    MachOFile.walkFrom_spec (MachOFile.area_lt (mapped_of_inside inside) header) le_rfl (Nat.le_add_right _ _)
  have start : (file.machOFile slice).mh = file.start + slice.offset := rfl
  have headerSize := (file.machOFile slice).machHeaderSize_ge
  have cmds : (file.machOFile slice).startCmds = (file.machOFile slice).mh + (file.machOFile slice).machHeaderSize := rfl
  have room : (file.machOFile slice).startCmds + (file.machOFile slice).sizeofcmds ≤ file.start + file.fileLen := by
    unfold MachOFile.ExceedsLength at header
    omega
  rw [MachOFile.forEachLoadCommand, if_pos magic]
  constructor
  · intro holds
    by_contra neither
    obtain ⟨misfit, short⟩ := not_or.1 neither
    have goes_on : ((file.machOFile slice).walkFrom (fun _ state => (state, false)) (file.machOFile slice).ncmds 0
        (file.machOFile slice).startCmds ()).outcome.stopped = false := by
      rw [spec.outcome]
      exact congrArg Outcome.stopped (runUntil_of_not_stopping fun _ _ => rfl)
    have last := holds _ (List.mem_append_right _ (spec.last (spec.error.2 ⟨goes_on, misfit⟩)))
    exact short last.2
  · intro fits read member
    rcases List.mem_append.1 member with fixed | walked
    · simp only [MachOFile.headerReads, List.mem_cons, List.not_mem_nil, or_false] at fixed
      rcases fixed with rfl | rfl | rfl <;> exact ⟨by simp only; omega, by simp only; omega⟩
    · rcases spec.reads read walked with ⟨other, among, rfl⟩ | ⟨error, rfl⟩
      · obtain ⟨low, size, high⟩ := MachOFile.startCmds_le_of_mem le_rfl among
        exact ⟨by simp only; omega, by simp only; omega⟩
      · have low : (file.machOFile slice).startCmds ≤ (file.machOFile slice).endOf (file.machOFile slice).startCmds
            (file.machOFile slice).fitting := MachOFile.le_endOf le_rfl
        rcases fits with all | short
        · exact absurd all (spec.error.1 error).2
        · simp only [MachOFile.fitting] at low short
          exact ⟨by simp only; omega, by simp only; omega⟩

theorem isMachOReads_holds_iff (inside : slice.offset + slice.size ≤ file.fileLen) :
    (∀ read ∈ (file.machOFile slice).isMachOReads slice.size, file.Holds read) ↔ file.Readable slice := by
  have low : file.start ≤ (file.machOFile slice).mh := Nat.le_add_right _ _
  have first : file.Holds ((file.machOFile slice).mh, 4) ↔ (file.machOFile slice).mh + 4 ≤ file.start + file.fileLen :=
    holds_iff low
  have second : file.Holds ((file.machOFile slice).mh + 20, 4) ↔
      (file.machOFile slice).mh + 24 ≤ file.start + file.fileLen := holds_iff (Nat.le_add_right_of_le low)
  unfold MachOFile.isMachOReads Readable
  cases magic : (file.machOFile slice).hasMachOMagic with
  | false => simp [inside, first, magic]
  | true =>
      by_cases exceeds : (file.machOFile slice).ExceedsLength slice.size
      · simp [inside, exceeds, first, second, magic]
      · rw [if_neg (by simp), if_neg exceeds, List.forall_mem_append, walkReads_holds_iff inside magic exceeds]
        simp [inside, exceeds, first, second, magic, and_assoc]

theorem isValidSlice_reads_iff :
    (∀ read ∈ (file.isValidSlice diag i slice).reads, file.Holds read) ↔ file.Readable slice := by
  unfold isValidSlice
  split
  · next beyond =>
      exact iff_of_true (by simp) fun inside => absurd beyond (inside_iff.2 inside)
  · next within =>
      have inside := inside_iff.1 within
      have header := isMachOReads_holds_iff inside
      obtain ⟨accepts, -⟩ := isMachOWith_spec diag inside
      dsimp only
      split
      · exact header
      · next accepted =>
          obtain ⟨-, magic, size, -⟩ := accepts.1 (Bool.eq_true_of_not_eq_false accepted)
          have large := (file.machOFile slice).machHeaderSize_ge
          have start : (file.machOFile slice).mh = file.start + slice.offset := rfl
          have room : (file.machOFile slice).mh + 28 ≤ file.start + file.fileLen := by
            unfold MachOFile.ExceedsLength at size
            omega
          have types : file.Holds ((file.machOFile slice).mh + 4, 8) := ⟨by simp only; omega, by simp only; omega⟩
          have text : ∀ same, file.Holds ((file.machOFile slice).mh, min 7 (same + 1)) := fun same =>
            ⟨by simp only; omega, by simp only; omega⟩
          have reads : (∀ read ∈ ((file.machOFile slice).isMachOWith diag slice.size).reads ++
              [((file.machOFile slice).mh + 4, 8)], file.Holds read) ↔ file.Readable slice := by
            rw [List.forall_mem_append, List.forall_mem_singleton, and_iff_left types]
            exact header
          split
          · exact reads
          · split
            · rw [List.forall_mem_append, List.forall_mem_singleton, and_iff_left (text _)]
              exact reads
            · exact reads

/-! ## The loop -/

variable {σ : Type} {callback : FatArch → σ → σ × Bool} {state : σ} {rounds k : ℕ}

theorem reportable_cons (here : file.Reportable i) :
    file.reportable i (rounds + 1) = file.arch i :: file.reportable (i + 1) rounds := by
  simp [reportable, List.range'_succ, here]

theorem reportable_skip (here : ¬ file.Reportable i) :
    file.reportable i (rounds + 1) = file.reportable (i + 1) rounds := by
  simp [reportable, List.range'_succ, here]

theorem mem_reportable (member : slice ∈ file.reportable i rounds) :
    ∃ k, i ≤ k ∧ k < i + rounds ∧ file.Reportable k ∧ file.arch k = slice := by
  obtain ⟨k, among, rfl⟩ := List.mem_map.1 member
  obtain ⟨range, here⟩ := List.mem_filter.1 among
  obtain ⟨low, high⟩ := List.mem_range'_1.1 range
  exact ⟨k, low, high, of_decide_eq_true here, rfl⟩

/-- What a walk from one entry on does. -/
structure WalksFrom (file : FatFile) (callback : FatArch → σ → σ × Bool) (rounds i : ℕ) (state : σ)
    (walk : SliceWalk σ) : Prop where
  outcome : walk.outcome = runUntil (calling callback) (file.reportable i rounds) state
  clean : walk.outcome.stopped = true → walk.diag = none
  diag : walk.outcome.stopped = false → (walk.diag = none ↔ ∀ k < i + rounds, ¬ file.Malformed (file.arch k))
  reads : (∀ read ∈ walk.reads, file.Holds read) ↔ ∀ k, i ≤ k → k < i + rounds →
    (runUntil (calling callback) (file.reportable i (k - i)) state).stopped = false → file.EntryInside True k

theorem forall_entries_iff {property : ℕ → Prop} :
    (∀ k, i ≤ k → k < i + (rounds + 1) → property k) ↔
      property i ∧ ∀ k, i + 1 ≤ k → k < i + 1 + rounds → property k := by
  constructor
  · intro every
    exact ⟨every i le_rfl (by omega), fun k low high => every k (by omega) (by omega)⟩
  · rintro ⟨here, later⟩ k low high
    rcases Nat.lt_or_eq_of_le low with less | rfl
    · exact later k less (by omega)
    · exact here

theorem walkFrom_spec (state : σ) (earlier : diag = none ↔ ∀ k < i, ¬ file.Malformed (file.arch k)) :
    WalksFrom file callback rounds i state (file.walkFrom callback rounds i diag state) := by
  induction rounds generalizing i diag state with
  | zero =>
      refine ⟨rfl, fun stop => absurd stop Bool.false_ne_true, fun _ => earlier, iff_of_true ?_ fun k low high => ?_⟩
      · intro read member
        cases member
      · omega
  | succ rounds ih =>
      have valid : (file.isValidSlice diag i (file.arch i)).valid = true ↔ file.Reportable i := by
        rw [isValidSlice_valid_iff, earlier, and_comm]
        rfl
      have earlier' : (file.isValidSlice diag i (file.arch i)).diag = none ↔
          ∀ k < i + 1, ¬ file.Malformed (file.arch k) := by
        rw [isValidSlice_diag_iff, earlier, Nat.forall_lt_succ_right]
      have here : (∀ read ∈ (file.archAt i, file.archBytes) :: (file.isValidSlice diag i (file.arch i)).reads,
          file.Holds read) ↔ file.EntryInside True i := by
        rw [List.forall_mem_cons, isValidSlice_reads_iff, EntryInside, true_imp_iff]
      have none_before : (runUntil (calling callback) (file.reportable i (i - i)) state).stopped = false := by
        rw [Nat.sub_self]
        rfl
      have bound : i + (rounds + 1) = i + 1 + rounds := by omega
      simp only [walkFrom]
      by_cases reported : file.Reportable i
      · rw [if_pos (valid.2 reported)]
        cases stop : (calling callback (file.arch i) state).stopped with
        | true =>
            rw [if_pos rfl]
            constructor
            · rw [reportable_cons reported, runUntil_cons_of_stopped stop]
            · intro _
              exact earlier'.2 (Nat.forall_lt_succ_right.2 ⟨reported.2, not_malformed_iff.2 (.inl reported.1)⟩)
            · intro goes_on
              exact absurd (stop.symm.trans goes_on) (Bool.false_ne_true ∘ Eq.symm)
            · rw [here, forall_entries_iff]
              refine ⟨fun first => ⟨fun _ => first, fun k low _ goes_on => ?_⟩, fun every => every.1 none_before⟩
              obtain ⟨more, rfl⟩ := Nat.exists_eq_add_of_le low
              rw [show i + 1 + more - i = more + 1 by omega, reportable_cons reported,
                runUntil_cons_of_stopped stop, stop] at goes_on
              exact absurd goes_on (Bool.false_ne_true ∘ Eq.symm)
        | false =>
            rw [if_neg Bool.false_ne_true]
            have rest := ih (calling callback (file.arch i) state).state earlier'
            constructor
            · rw [reportable_cons reported, runUntil_cons stop]
              exact congrArg (Outcome.after (calling callback (file.arch i) state).calls) rest.outcome
            · exact rest.clean
            · rw [bound]
              exact rest.diag
            · rw [SliceWalk.after, List.forall_mem_append, here, rest.reads, forall_entries_iff]
              refine and_congr ⟨fun first _ => first, fun first => first none_before⟩
                (forall_congr' fun k => forall₂_congr fun low _ => ?_)
              obtain ⟨more, rfl⟩ := Nat.exists_eq_add_of_le low
              rw [show i + 1 + more - i = more + 1 by omega, show i + 1 + more - (i + 1) = more by omega,
                reportable_cons reported, runUntil_cons stop, Outcome.after_stopped]
      · rw [if_neg (mt valid.1 reported)]
        have rest := ih state earlier'
        constructor
        · rw [reportable_skip reported]
          exact rest.outcome
        · exact rest.clean
        · rw [bound]
          exact rest.diag
        · rw [SliceWalk.after, List.forall_mem_append, here, rest.reads, forall_entries_iff]
          refine and_congr ⟨fun first _ => first, fun first => first none_before⟩
            (forall_congr' fun k => forall₂_congr fun low _ => ?_)
          obtain ⟨more, rfl⟩ := Nat.exists_eq_add_of_le low
          rw [show i + 1 + more - i = more + 1 by omega, show i + 1 + more - (i + 1) = more by omega,
            reportable_skip reported]

/-! ## The whole walk -/

/-- The header has one of the two magic numbers. -/
def IsFat (file : FatFile) : Prop := file.magic = FAT_MAGIC ∨ file.magic = FAT_MAGIC_64

theorem reportable_succ :
    file.reportable 0 (k + 1) = file.reportable 0 k ++ if file.Reportable k then [file.arch k] else [] := by
  simp only [reportable, List.range'_1_concat, List.filter_append, List.map_append, Nat.zero_add]
  by_cases here : file.Reportable k <;> simp [here]

theorem runUntil_singleton : runUntil (calling callback) [slice] state = calling callback slice state := by
  cases stop : (calling callback slice state).stopped with
  | true => exact runUntil_cons_of_stopped stop
  | false =>
      rw [runUntil_cons stop]
      exact congrArg (Outcome.mk _ _) stop.symm

/-- The loop over the entries that `nfat_arch` counts. -/
def mainLoop (file : FatFile) (callback : FatArch → σ → σ × Bool) (state : σ) : SliceWalk σ :=
  file.walkFrom callback file.nfat_arch 0 none state

theorem mainLoop_spec (callback : FatArch → σ → σ × Bool) (state : σ) :
    WalksFrom file callback file.nfat_arch 0 state (file.mainLoop callback state) :=
  walkFrom_spec state (iff_of_true rfl fun k below => absurd below (Nat.not_lt_zero k))

theorem forEachSlice_of_plain (fat : file.IsFat) (admitted : file.nfat_arch ≤ maxArchs) (plain : ¬ file.LooksPast) :
    file.forEachSlice none callback state =
      (file.mainLoop callback state).after [] [(file.start, 4), (file.start + 4, 4)] := by
  unfold IsFat at fat
  unfold LooksPast at plain
  rw [forEachSlice, if_pos fat]
  simp only [if_neg (not_lt.2 admitted), if_neg plain]
  rfl

theorem forEachSlice_of_looksPast (admitted : file.nfat_arch ≤ maxArchs) (past : file.LooksPast) :
    file.forEachSlice none callback state = file.oneMore callback
      ((file.mainLoop callback state).after [] [(file.start, 4), (file.start + 4, 4)]) := by
  unfold LooksPast at past
  rw [forEachSlice, if_pos (.inl past.1)]
  simp only [if_neg (not_lt.2 admitted), if_pos past]
  rfl

theorem entryCount_of_extra (extra : file.HasExtra) : file.entryCount = file.nfat_arch + 1 := if_pos extra

theorem entryCount_of_none (plain : ¬ file.HasExtra) : file.entryCount = file.nfat_arch := if_neg plain

/-- The check of the entry behind the last one. -/
def extraCheck (file : FatFile) (callback : FatArch → σ → σ × Bool) (state : σ) : SliceCheck :=
  file.isValidSlice (file.mainLoop callback state).diag file.nfat_arch (file.arch file.nfat_arch)

theorem forEachSlice_of_extra (admitted : file.nfat_arch ≤ maxArchs) (extra : file.HasExtra) :
    file.forEachSlice none callback state =
      let main := file.mainLoop callback state
      let check := file.extraCheck callback state
      ⟨if check.valid then
          (calling callback (file.arch file.nfat_arch) main.outcome.state).after main.outcome.calls
        else main.outcome,
        check.diag, (file.start, 4) :: (file.start + 4, 4) :: main.reads ++
          (file.archAt file.nfat_arch, file.archBytes) :: check.reads⟩ := by
  rw [forEachSlice_of_looksPast admitted extra.1, oneMore]
  simp only [if_pos extra.2]
  have same : file.isValidSlice ((file.mainLoop callback state).after [] [(file.start, 4), (file.start + 4, 4)]).diag
      file.nfat_arch (file.arch file.nfat_arch) = file.extraCheck callback state := rfl
  rw [same]
  split <;> simp [SliceWalk.after, Outcome.after]

theorem forEachSlice_of_none (fat : file.IsFat) (admitted : file.nfat_arch ≤ maxArchs) (plain : ¬ file.HasExtra) :
    file.forEachSlice none callback state =
      let main := file.mainLoop callback state
      ⟨main.outcome, main.diag, (file.start, 4) :: (file.start + 4, 4) :: main.reads ++
        if file.LooksPast then [(file.archAt file.nfat_arch, file.archBytes)] else []⟩ := by
  by_cases past : file.LooksPast
  · have other : ¬ IsArm64 (file.arch file.nfat_arch) := fun arm => plain ⟨past, arm⟩
    rw [forEachSlice_of_looksPast admitted past, oneMore]
    simp only [if_neg other, if_pos past]
    rfl
  · rw [forEachSlice_of_plain fat admitted past]
    simp [past, SliceWalk.after, Outcome.after_nil]

theorem extraCheck_valid_iff : (file.extraCheck callback state).valid = true ↔
    (file.mainLoop callback state).diag = none ∧ file.IsSlice (file.arch file.nfat_arch) :=
  isValidSlice_valid_iff

theorem outcome_of_stopsAtEnd (fat : file.IsFat) (admitted : file.nfat_arch ≤ maxArchs)
    (last : file.StopsAtEnd callback state) : (file.forEachSlice none callback state).outcome =
      runUntil (calling callback) (file.reportable 0 file.entryCount) state := by
  have main := file.mainLoop_spec callback state
  by_cases extra : file.HasExtra
  · rw [forEachSlice_of_extra admitted extra, entryCount_of_extra extra, reportable_succ]
    cases stop : (file.mainLoop callback state).outcome.stopped with
    | true =>
        have run := stop
        rw [main.outcome] at run
        have foreign : ¬ file.IsSlice (file.arch file.nfat_arch) := fun valid => by
          rcases last with goes_on | none_behind
          · exact Bool.false_ne_true (goes_on.symm.trans run)
          · exact none_behind ⟨extra, valid⟩
        have unreported : ¬ file.Reportable file.nfat_arch := fun reported => foreign reported.1
        simp only [if_neg (mt extraCheck_valid_iff.1 fun both => foreign both.2), if_neg unreported, List.append_nil]
        exact main.outcome
    | false =>
        have run := stop
        rw [main.outcome] at run
        have valid : (file.extraCheck callback state).valid = true ↔ file.Reportable file.nfat_arch := by
          rw [extraCheck_valid_iff, main.diag stop, Nat.zero_add, and_comm]
          rfl
        rw [runUntil_append, if_neg (by rw [run]; exact Bool.false_ne_true)]
        by_cases reported : file.Reportable file.nfat_arch
        · simp only [if_pos reported, if_pos (valid.2 reported), runUntil_singleton, main.outcome]
        · simp only [if_neg reported, if_neg (mt valid.1 reported), main.outcome]
          rw [runUntil, Outcome.after, List.append_nil]
          exact congrArg (Outcome.mk _ _) run
  · rw [forEachSlice_of_none fat admitted extra, entryCount_of_none extra]
    exact main.outcome

theorem stopsAtEnd_of_stop (admitted : file.nfat_arch ≤ maxArchs)
    (stop : (file.forEachSlice none callback state).outcome =
      runUntil (calling callback) (file.forEachSlice none callback state).outcome.calls state) :
    file.StopsAtEnd callback state := by
  have main := file.mainLoop_spec callback state
  by_contra misses
  obtain ⟨stopped, behind⟩ := not_or.1 misses
  rw [Bool.not_eq_false] at stopped
  obtain ⟨extra, valid⟩ := not_not.1 behind
  have run : (file.mainLoop callback state).outcome.stopped = true := by
    rw [main.outcome]
    exact stopped
  rw [forEachSlice_of_extra admitted extra] at stop
  simp only [if_pos (extraCheck_valid_iff.2 ⟨main.clean run, valid⟩), Outcome.after_calls] at stop
  rw [main.outcome, runUntil_append, runUntil_calls, if_pos stopped] at stop
  have same := congrArg (List.length ∘ Outcome.calls) stop
  simp [calling] at same

theorem diag_iff (fat : file.IsFat) (admitted : file.nfat_arch ≤ maxArchs)
    (runs : (file.mainLoop callback state).outcome.stopped = false) :
    (file.forEachSlice none callback state).diag = none ↔ ∀ k < file.entryCount, ¬ file.Malformed (file.arch k) := by
  have main := (file.mainLoop_spec callback state).diag runs
  rw [Nat.zero_add] at main
  by_cases extra : file.HasExtra
  · rw [forEachSlice_of_extra admitted extra, entryCount_of_extra extra, Nat.forall_lt_succ_right, ← main]
    exact isValidSlice_diag_iff
  · rw [forEachSlice_of_none fat admitted extra, entryCount_of_none extra]
    exact main

theorem header_holds_iff : file.Holds (file.start, 4) ∧ file.Holds (file.start + 4, 4) ↔ 8 ≤ file.fileLen := by
  simp only [Holds]
  omega

theorem reads_iff (fat : file.IsFat) (admitted : file.nfat_arch ≤ maxArchs) :
    (∀ read ∈ (file.forEachSlice none callback state).reads, file.Holds read) ↔ file.LiesInside callback state := by
  have main : (∀ read ∈ (file.mainLoop callback state).reads, file.Holds read) ↔
      ∀ k, file.Visited callback state k → file.EntryInside True k := by
    rw [(file.mainLoop_spec callback state).reads]
    simp only [Visited, Nat.zero_add, Nat.zero_le, Nat.sub_zero, true_imp_iff, and_imp]
  have extra : (file.LooksPast → file.EntryInside file.HasExtra file.nfat_arch) ↔
      ∀ read ∈ (if file.LooksPast then [(file.archAt file.nfat_arch, file.archBytes)] else []) ++
        if file.HasExtra then (file.extraCheck callback state).reads else [], file.Holds read := by
    by_cases past : file.LooksPast
    · by_cases hasExtra : file.HasExtra
      · rw [if_pos past, if_pos hasExtra, List.forall_mem_append, List.forall_mem_singleton]
        simp only [past, hasExtra, EntryInside, true_imp_iff]
        exact and_congr_right fun _ => isValidSlice_reads_iff.symm
      · simp [past, hasExtra, EntryInside]
    · have plain : ¬ file.HasExtra := fun hasExtra => past hasExtra.1
      simp [past, plain]
  have parts : file.LiesInside callback state ↔ 8 ≤ file.fileLen ∧
      (∀ k, file.Visited callback state k → file.EntryInside True k) ∧
        (file.LooksPast → file.EntryInside file.HasExtra file.nfat_arch) :=
    ⟨fun lies => ⟨lies.1, lies.2, lies.3⟩, fun lies => ⟨lies.1, lies.2.1, lies.2.2⟩⟩
  rw [parts, extra, ← main, ← header_holds_iff]
  by_cases hasExtra : file.HasExtra
  · rw [forEachSlice_of_extra admitted hasExtra, if_pos hasExtra, if_pos hasExtra.1]
    simp only [List.cons_append, List.forall_mem_cons, List.forall_mem_append, List.nil_append, and_assoc]
  · rw [forEachSlice_of_none fat admitted hasExtra, if_neg hasExtra, List.append_nil]
    simp only [List.cons_append, List.forall_mem_cons, List.forall_mem_append, and_assoc]

/-! ## The selection -/

variable {archs : GradedArchs} {sliceOffset sliceLen : ℕ}

/-- A reportable slice that the selection may take. -/
def Takeable (file : FatFile) (archs : GradedArchs) (i : ℕ) : Prop := file.Reportable i ∧ 0 < file.grade archs i

instance : DecidablePred (file.Takeable archs) := fun _ => inferInstanceAs (Decidable (_ ∧ _))

/-- What the selection holds after a choice. -/
def selectionOf (file : FatFile) (archs : GradedArchs) (sliceOffset sliceLen : ℕ) : Option ℕ → Selection
  | none => ⟨0, sliceOffset, sliceLen⟩
  | some i => ⟨file.grade archs i, (file.arch i).offset, (file.arch i).size⟩

theorem select_eq (selection : Selection) (k : ℕ) : (select archs (file.arch k) selection).1 =
    if file.grade archs k ≠ 0 ∧ file.grade archs k > selection.bestGrade then
      ⟨file.grade archs k, (file.arch k).offset, (file.arch k).size⟩ else selection := rfl

theorem foldl_select (archs : GradedArchs) (sliceOffset sliceLen n : ℕ) :
    (file.reportable 0 n).foldl (fun selection slice => (select archs slice selection).1) ⟨0, sliceOffset, sliceLen⟩ =
      file.selectionOf archs sliceOffset sliceLen (firstBest (file.grade archs) (file.Takeable archs) n) := by
  induction n with
  | zero => rfl
  | succ n ih =>
      rw [reportable_succ, List.foldl_append, ih, firstBest]
      by_cases reported : file.Reportable n
      · rw [if_pos reported]
        change (select archs (file.arch n) _).1 = _
        rw [select_eq]
        cases best : firstBest (file.grade archs) (file.Takeable archs) n with
        | none =>
            by_cases positive : 0 < file.grade archs n
            · rw [if_pos ⟨ne_of_gt positive, positive⟩, if_pos (show file.Takeable archs n from ⟨reported, positive⟩)]
              rfl
            · rw [if_neg fun better => positive better.2, if_neg fun takes : file.Takeable archs n => positive takes.2]
        | some kept =>
            have taken := (firstBest_eq_some_iff.1 best).member
            by_cases better : file.grade archs n > file.grade archs kept
            · have positive : 0 < file.grade archs n := taken.2.trans better
              rw [if_pos (show file.Takeable archs n from ⟨reported, positive⟩), keepBetter, if_pos better]
              exact if_pos ⟨ne_of_gt positive, better⟩
            · rw [if_neg fun both => better both.2]
              split
              · rw [keepBetter, if_neg better]
              · rfl
      · rw [if_neg reported, if_neg fun takes : file.Takeable archs n => reported takes.1]
        rfl

theorem isFatFileWithSlice_eq (fat : file.IsFat) (admitted : file.nfat_arch ≤ maxArchs) :
    let selection := file.selectionOf archs sliceOffset sliceLen
      (firstBest (file.grade archs) (file.Takeable archs) file.entryCount)
    file.isFatFileWithSlice none archs sliceOffset sliceLen =
      if ∀ k < file.entryCount, ¬ file.Malformed (file.arch k) then
        ⟨selection.bestGrade ≠ 0, selection.sliceOffset, selection.sliceLen, selection.bestGrade = 0⟩
      else ⟨false, selection.sliceOffset, selection.sliceLen, false⟩ := by
  intro selection
  have known : ¬ (file.magic ≠ FAT_MAGIC ∧ file.magic ≠ FAT_MAGIC_64) := fun other => fat.elim other.1 other.2
  have goes_on : ∀ items state, (runUntil (calling (select archs)) items state).stopped = false := fun items state =>
    congrArg Outcome.stopped (runUntil_of_not_stopping fun _ _ => rfl)
  have runs : (file.mainLoop (select archs) ⟨0, sliceOffset, sliceLen⟩).outcome.stopped = false := by
    rw [(file.mainLoop_spec _ _).outcome]
    exact goes_on _ _
  have chosen : (file.forEachSlice none (select archs) ⟨0, sliceOffset, sliceLen⟩).outcome.state = selection := by
    rw [outcome_of_stopsAtEnd fat admitted (.inl (goes_on _ _)), runUntil_of_not_stopping fun _ _ => rfl]
    exact foldl_select ..
  have clean := file.diag_iff fat admitted runs
  rw [isFatFileWithSlice, if_neg known]
  simp only [chosen, ← clean]
  cases file.forEachSlice none (select archs) ⟨0, sliceOffset, sliceLen⟩ |>.diag with
  | none => rfl
  | some error => rfl

theorem graded_of_takeable {n : ℕ} (fine : ∀ k < n, ¬ file.Malformed (file.arch k))
    (best : IsFirstBest (file.grade archs) (file.Takeable archs) n i) :
    IsFirstBest (file.grade archs) (file.Graded archs) n i where
  lt := best.lt
  member := ⟨best.member.1.1, ne_of_gt best.member.2⟩
  highest k below graded := by
    by_cases positive : 0 < file.grade archs k
    · exact best.highest k below ⟨⟨graded.1, fun j before => fine j (before.trans below)⟩, positive⟩
    · exact (not_lt.1 positive).trans best.member.2.le
  first k before graded := by
    by_cases positive : 0 < file.grade archs k
    · exact best.first k before ⟨⟨graded.1, fun j earlier => fine j (earlier.trans (before.trans best.lt))⟩, positive⟩
    · exact (not_lt.1 positive).trans_lt best.member.2

theorem selects_iff (fat : file.IsFat) (admitted : file.nfat_arch ≤ maxArchs) :
    ((∃ i < file.entryCount, file.Graded archs i) → ∀ sliceOffset sliceLen,
      ∃ i, IsFirstBest (file.grade archs) (file.Graded archs) file.entryCount i ∧
        file.isFatFileWithSlice none archs sliceOffset sliceLen = ⟨true, (file.arch i).offset, (file.arch i).size, false⟩) ↔
      file.Selectable archs := by
  refine forall_congr' fun _ => ⟨fun selects => ?_, fun ⟨fine, i, below, valid, positive⟩ sliceOffset sliceLen => ?_⟩
  · obtain ⟨i, best, answer⟩ := selects 0 0
    rw [isFatFileWithSlice_eq fat admitted] at answer
    split at answer
    · next fine =>
        refine ⟨fine, ?_⟩
        cases choice : firstBest (file.grade archs) (file.Takeable archs) file.entryCount with
        | none =>
            rw [choice] at answer
            exact absurd (congrArg SliceAnswer.found answer) (by simp [selectionOf])
        | some k =>
            have taken := firstBest_eq_some_iff.1 choice
            exact ⟨k, taken.lt, taken.member.1.1, taken.member.2⟩
    · exact absurd (congrArg SliceAnswer.found answer) Bool.false_ne_true
  · have takes : file.Takeable archs i := ⟨⟨valid, fun k before => fine k (before.trans below)⟩, positive⟩
    rw [isFatFileWithSlice_eq fat admitted, if_pos fine]
    cases choice : firstBest (file.grade archs) (file.Takeable archs) file.entryCount with
    | none => exact absurd takes (firstBest_eq_none_iff.1 choice i below)
    | some k =>
        have taken := firstBest_eq_some_iff.1 choice
        have nonzero : file.grade archs k ≠ 0 := ne_of_gt taken.member.2
        refine ⟨k, graded_of_takeable fine taken, ?_⟩
        simp [selectionOf, nonzero]

/-- The walk and the selection are sound exactly when everything that is looked at lies in the file, no slice behind
the last entry follows a stop, and the entries allow a selection. -/
theorem isSound_iff (fat : file.IsFat) (admitted : file.nfat_arch ≤ maxArchs) :
    file.IsSound archs callback state ↔
      file.LiesInside callback state ∧ file.StopsAtEnd callback state ∧ file.Selectable archs := by
  constructor
  · intro sound
    exact ⟨(reads_iff fat admitted).1 sound.reads, stopsAtEnd_of_stop admitted sound.stop,
      (selects_iff fat admitted).1 sound.selects⟩
  · rintro ⟨inside, last, selectable⟩
    have outcome := outcome_of_stopsAtEnd fat admitted last
    refine ⟨(reads_iff fat admitted).2 inside, fun slice called => ?_, ?_, (selects_iff fat admitted).2 selectable⟩
    · rw [outcome] at called
      obtain ⟨k, -, below, reported, rfl⟩ := mem_reportable (mem_of_mem_calls called)
      exact ⟨reported.1, k, by omega, rfl⟩
    · rw [outcome]
      exact runUntil_calls.symm

/-- A header of no commands for x86_64, at page one behind some big-endian words. -/
def fileOf (words : List ℕ) : FatFile where
  memory address :=
    if address < 0x1000 then BitVec.ofNat 8 (words.getD (address / 4) 0 / 2 ^ (8 * (3 - address % 4)))
    else ([0xCF, 0xFA, 0xED, 0xFE, 7, 0, 0, 1, 3] : List (BitVec 8)).getD (address - 0x1000) 0
  start := 0
  fileLen := 0x1020
  mapped := by decide

/-- `GradedArchs::x86_64`. -/
def x86_64 : GradedArchs := ⟨[⟨0x01000007, 3, 1⟩]⟩

def oneSlice : FatFile := fileOf [FAT_MAGIC, 1, 0x01000007, 3, 0x1000, 0x20, 12]

/-- The same slice behind an entry for i386 that lies beyond the end of the file. -/
def twoSlices : FatFile := fileOf [FAT_MAGIC, 2, 7, 3, 0x9000, 0x20, 12, 0x01000007, 3, 0x1000, 0x20, 12]

theorem oneSlice_isSound_iff : oneSlice.IsSound x86_64 (fun _ state => (state, false)) () ↔
    oneSlice.LiesInside (fun _ state => (state, false)) () ∧ oneSlice.StopsAtEnd (fun _ state => (state, false)) () ∧
      oneSlice.Selectable x86_64 :=
  isSound_iff (.inl (by decide +kernel)) (by decide +kernel)

/-- A malformed entry for another architecture hides a valid slice. -/
theorem twoSlices_not_isSound : ¬ twoSlices.IsSound x86_64 (fun _ state => (state, false)) () := by
  intro sound
  have valid : twoSlices.IsSlice (twoSlices.arch 1) := by decide +kernel
  obtain ⟨i, -, answer⟩ := sound.selects ⟨1, by decide +kernel, valid, by decide +kernel⟩ 0 0
  have missed : (twoSlices.isFatFileWithSlice none x86_64 0 0).found = false := by decide +kernel
  rw [answer] at missed
  exact Bool.false_ne_true missed.symm

end FatFile

end ObjcDyld.MachO
