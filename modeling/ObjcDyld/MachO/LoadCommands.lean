import ObjcDyld.Common.ByteMemory
import ObjcDyld.Common.StoppableLoops

/-!
# Load commands

`MachOFile::forEachLoadCommand`, `MachOFile::isMachO` and the size check of
`MachOAnalyzer::validLoadCommands` on a file that is mapped at an address.  The size of a command is
read before the walk looks whether the command starts inside the area of the commands.
-/

namespace ObjcDyld.MachO

open ByteMemory StoppableRuns

abbrev MH_MAGIC : BitVec 32 := 0xFEEDFACE
abbrev MH_CIGAM : BitVec 32 := 0xCEFAEDFE
abbrev MH_MAGIC_64 : BitVec 32 := 0xFEEDFACF
abbrev MH_CIGAM_64 : BitVec 32 := 0xCFFAEDFE

/-- A file and the address it is mapped at. -/
structure MachOFile where
  memory : Memory
  mh : ℕ

/-- The messages of `isMachO` and `forEachLoadCommand`. -/
inductive CommandError
  /-- "file does not start with MH_MAGIC[_64]" -/
  | notMachO
  /-- "load commands exceed length of first segment" -/
  | exceedsLength
  /-- "malformed load command #i, size too small" -/
  | tooSmall (i : ℕ)
  /-- "malformed load command #i, size is too large" -/
  | tooLarge (i : ℕ)
  deriving DecidableEq

/-- What a walk of the load commands does to the state of its callback, what it reads and reports. -/
structure CommandWalk (σ : Type) where
  outcome : Outcome σ ℕ
  reads : List (ℕ × ℕ)
  error : Option CommandError

/-- The walk with earlier calls and reads in front. -/
def CommandWalk.after {σ : Type} (calls : List ℕ) (reads : List (ℕ × ℕ)) (walk : CommandWalk σ) : CommandWalk σ :=
  { walk with outcome := walk.outcome.after calls, reads := reads ++ walk.reads }

namespace MachOFile

variable {σ : Type} (file : MachOFile)

def magic : BitVec 32 := get32 file.memory file.mh
def cputype : BitVec 32 := get32 file.memory (file.mh + 4)
def cpusubtype : BitVec 32 := get32 file.memory (file.mh + 8)
def ncmds : ℕ := (get32 file.memory (file.mh + 16)).toNat
def sizeofcmds : ℕ := (get32 file.memory (file.mh + 20)).toNat

def is64 : Bool := file.magic = MH_MAGIC_64

def machHeaderSize : ℕ := if file.is64 then 32 else 28

def hasMachOMagic : Bool := file.magic = MH_MAGIC ∨ file.magic = MH_MAGIC_64

def hasMachOBigEndianMagic : Bool := file.magic = MH_CIGAM ∨ file.magic = MH_CIGAM_64

/-- `cmd->cmdsize`. -/
def cmdsize (cmd : ℕ) : ℕ := (get32 file.memory (cmd + 4)).toNat

def startCmds : ℕ := file.mh + file.machHeaderSize

/-- A pointer sum. -/
def advance (pointer size : ℕ) : ℕ := (pointer + size) % 2 ^ 64

def cmdsEnd : ℕ := advance file.startCmds file.sizeofcmds

def invoke (callback : ℕ → σ → σ × Bool) (cmd : ℕ) (state : σ) : Outcome σ ℕ :=
  ⟨(callback cmd state).1, [cmd], (callback cmd state).2⟩

/-- The loop of `forEachLoadCommand` from command `i` on, with the rounds that are left. -/
def walkFrom (callback : ℕ → σ → σ × Bool) : ℕ → ℕ → ℕ → σ → CommandWalk σ
  | 0, _, _, state => ⟨⟨state, [], false⟩, [], none⟩
  | rounds + 1, i, cmd, state =>
      let nextCmd := advance cmd (file.cmdsize cmd)
      let reads := [(cmd + 4, 4)]
      if file.cmdsize cmd < 8 then ⟨⟨state, [], false⟩, reads, some (.tooSmall i)⟩
      else if nextCmd > file.cmdsEnd ∨ nextCmd < file.startCmds then
        ⟨⟨state, [], false⟩, reads, some (.tooLarge i)⟩
      else
        let call := invoke callback cmd state
        if call.stopped then ⟨call, reads, none⟩
        else (walkFrom callback rounds (i + 1) nextCmd call.state).after call.calls reads

/-- The fields of the header that the walk looks at. -/
def headerReads : List (ℕ × ℕ) := [(file.mh, 4), (file.mh + 16, 4), (file.mh + 20, 4)]

/-- `MachOFile::forEachLoadCommand`. -/
def forEachLoadCommand (callback : ℕ → σ → σ × Bool) (state : σ) : CommandWalk σ :=
  if file.hasMachOMagic then
    (file.walkFrom callback file.ncmds 0 file.startCmds state).after [] file.headerReads
  else if file.hasMachOBigEndianMagic then ⟨⟨state, [], false⟩, [(file.mh, 4)], none⟩
  else ⟨⟨state, [], false⟩, [(file.mh, 4), (file.mh + 4, 4)], some .notMachO⟩

/-- The size check of `isMachO` and of `validLoadCommands`. -/
def ExceedsLength (fileSize : ℕ) : Prop := file.sizeofcmds + file.machHeaderSize > fileSize

instance (fileSize : ℕ) : Decidable (file.ExceedsLength fileSize) := inferInstanceAs (Decidable (_ > _))

/-- `MachOFile::isMachO`: the answer and the error, if there is one. -/
def isMachO (fileSize : ℕ) : Bool × Option CommandError :=
  if file.hasMachOMagic = false then
    (false, if file.hasMachOBigEndianMagic then none else some .notMachO)
  else if file.ExceedsLength fileSize then (false, some .exceedsLength)
  else
    let walk := file.forEachLoadCommand (fun _ state => (state, false)) ()
    (walk.error.isNone, walk.error)

/-! ## What is expected -/

/-- A command lies wholly inside the area of the commands, and has room for its own header. -/
def Fits (cmd : ℕ) : Prop := 8 ≤ file.cmdsize cmd ∧ cmd + file.cmdsize cmd ≤ file.startCmds + file.sizeofcmds

instance (cmd : ℕ) : Decidable (file.Fits cmd) := inferInstanceAs (Decidable (_ ∧ _))

/-- The first commands from an address on, up to the one that does not fit. -/
def fittingFrom : ℕ → ℕ → List ℕ
  | 0, _ => []
  | rounds + 1, cmd => if file.Fits cmd then cmd :: fittingFrom rounds (cmd + file.cmdsize cmd) else []

/-- The address after some commands. -/
def endOf (cmd : ℕ) : List ℕ → ℕ
  | [] => cmd
  | first :: others => endOf (first + file.cmdsize first) others

/-- The commands of the file that are to be called back with. -/
def fitting : List ℕ := file.fittingFrom file.ncmds file.startCmds

/-- All `ncmds` commands fit. -/
def AllFit : Prop := file.fitting.length = file.ncmds

/-- A read touches bytes of the header or of the area of the commands only. -/
def Inside (read : ℕ × ℕ) : Prop :=
  (file.mh ≤ read.1 ∧ read.1 + read.2 ≤ file.mh + file.machHeaderSize) ∨
    (file.startCmds ≤ read.1 ∧ read.1 + read.2 ≤ file.startCmds + file.sizeofcmds)

/-- The callback sees the commands that fit, in order and until it stops; nothing outside is read, and commands
that do not fit are reported. -/
structure IsSafe (callback : ℕ → σ → σ × Bool) (state : σ) (walk : CommandWalk σ) : Prop where
  inside : ∀ read ∈ walk.reads, file.Inside read
  calls : walk.outcome = runUntil (invoke callback) file.fitting state
  commands : ∀ cmd ∈ walk.outcome.calls, file.startCmds ≤ cmd ∧ file.Fits cmd
  error : walk.error.isSome = true ↔ walk.outcome.stopped = false ∧ ¬ file.AllFit

/-- The callback stops the walk, all commands fit, or the first one that does not has room for its header. -/
def HasRoom (callback : ℕ → σ → σ × Bool) (state : σ) : Prop :=
  (runUntil (invoke callback) file.fitting state).stopped = true ∨ file.AllFit ∨
    file.endOf file.startCmds file.fitting + 8 ≤ file.startCmds + file.sizeofcmds

/-! ## The walk -/

variable {file} {callback : ℕ → σ → σ × Bool} {state : σ} {cmd rounds i : ℕ}

theorem startCmds_le_of_mem {first : ℕ} (low : file.startCmds ≤ first) (member : cmd ∈ file.fittingFrom rounds first) :
    file.startCmds ≤ cmd ∧ file.Fits cmd := by
  induction rounds generalizing first with
  | zero => cases member
  | succ rounds ih =>
      rw [fittingFrom] at member
      split at member
      · rename_i fits
        rcases List.mem_cons.1 member with rfl | later
        · exact ⟨low, fits⟩
        · exact ih (by omega) later
      · cases member

theorem le_endOf {first : ℕ} (low : file.startCmds ≤ first) :
    file.startCmds ≤ file.endOf first (file.fittingFrom rounds first) := by
  induction rounds generalizing first with
  | zero => exact low
  | succ rounds ih =>
      rw [fittingFrom]
      split
      · exact ih (by omega)
      · exact low

theorem passes_iff (mapped : file.startCmds + file.sizeofcmds < 2 ^ 64) (low : file.startCmds ≤ cmd)
    (high : cmd ≤ file.startCmds + file.sizeofcmds) :
    (¬ file.cmdsize cmd < 8 ∧
      ¬ (advance cmd (file.cmdsize cmd) > file.cmdsEnd ∨ advance cmd (file.cmdsize cmd) < file.startCmds)) ↔
      file.Fits cmd := by
  have ends : file.cmdsEnd = file.startCmds + file.sizeofcmds := Nat.mod_eq_of_lt mapped
  have size : file.cmdsize cmd < 2 ^ 32 := (get32 _ _).isLt
  have area : file.sizeofcmds < 2 ^ 32 := (get32 _ _).isLt
  rw [ends]
  unfold Fits advance
  omega

/-- The walk from one command on, in terms of the commands that fit. -/
structure WalksFrom (file : MachOFile) (callback : ℕ → σ → σ × Bool) (rounds cmd : ℕ) (state : σ) (walk : CommandWalk σ) :
    Prop where
  outcome : walk.outcome = runUntil (invoke callback) (file.fittingFrom rounds cmd) state
  error : walk.error.isSome = true ↔ walk.outcome.stopped = false ∧ (file.fittingFrom rounds cmd).length ≠ rounds
  reads : ∀ read ∈ walk.reads, (∃ other ∈ file.fittingFrom rounds cmd, read = (other + 4, 4)) ∨
    walk.error.isSome = true ∧ read = (file.endOf cmd (file.fittingFrom rounds cmd) + 4, 4)
  last : walk.error.isSome = true → (file.endOf cmd (file.fittingFrom rounds cmd) + 4, 4) ∈ walk.reads

theorem walkFrom_reject (mapped : file.startCmds + file.sizeofcmds < 2 ^ 64) (low : file.startCmds ≤ cmd)
    (high : cmd ≤ file.startCmds + file.sizeofcmds) (misfit : ¬ file.Fits cmd) :
    ∃ error, file.walkFrom callback (rounds + 1) i cmd state = ⟨⟨state, [], false⟩, [(cmd + 4, 4)], some error⟩ := by
  simp only [walkFrom]
  split
  · exact ⟨_, rfl⟩
  · rename_i large
    split
    · exact ⟨_, rfl⟩
    · rename_i inside
      exact absurd ((passes_iff mapped low high).1 ⟨large, inside⟩) misfit

theorem walkFrom_accept (mapped : file.startCmds + file.sizeofcmds < 2 ^ 64) (low : file.startCmds ≤ cmd)
    (high : cmd ≤ file.startCmds + file.sizeofcmds) (fits : file.Fits cmd) :
    file.walkFrom callback (rounds + 1) i cmd state =
      if (invoke callback cmd state).stopped then ⟨invoke callback cmd state, [(cmd + 4, 4)], none⟩
      else (file.walkFrom callback rounds (i + 1) (cmd + file.cmdsize cmd) (callback cmd state).1).after [cmd]
        [(cmd + 4, 4)] := by
  obtain ⟨large, inside⟩ := (passes_iff mapped low high).2 fits
  have next : advance cmd (file.cmdsize cmd) = cmd + file.cmdsize cmd := Nat.mod_eq_of_lt (fits.2.trans_lt mapped)
  rw [next] at inside
  simp only [walkFrom, next, if_neg large, if_neg inside]
  rfl

theorem walkFrom_spec (mapped : file.startCmds + file.sizeofcmds < 2 ^ 64) (low : file.startCmds ≤ cmd)
    (high : cmd ≤ file.startCmds + file.sizeofcmds) :
    WalksFrom file callback rounds cmd state (file.walkFrom callback rounds i cmd state) := by
  induction rounds generalizing i cmd state with
  | zero =>
      constructor
      · rfl
      · simp [walkFrom, fittingFrom]
      · intro read member
        cases member
      · intro error
        cases error
  | succ rounds ih =>
      by_cases fits : file.Fits cmd
      · have commands : file.fittingFrom (rounds + 1) cmd = cmd :: file.fittingFrom rounds (cmd + file.cmdsize cmd) :=
          if_pos fits
        rw [walkFrom_accept mapped low high fits]
        cases stop : (invoke callback cmd state).stopped with
        | true =>
            rw [if_pos rfl]
            constructor
            · rw [commands, runUntil_cons_of_stopped stop]
            · simp [stop]
            · intro read member
              exact .inl ⟨cmd, commands ▸ List.mem_cons_self .., List.mem_singleton.1 member⟩
            · intro error
              cases error
        | false =>
            rw [if_neg Bool.false_ne_true]
            have rest : WalksFrom file callback rounds (cmd + file.cmdsize cmd) (callback cmd state).1
                (file.walkFrom callback rounds (i + 1) (cmd + file.cmdsize cmd) (callback cmd state).1) :=
              ih (Nat.le_add_right_of_le low) fits.2
            constructor
            · rw [commands, runUntil_cons stop]
              exact congrArg (Outcome.after [cmd]) rest.outcome
            · rw [commands, List.length_cons]
              exact rest.error.trans (by simp [CommandWalk.after])
            · intro read member
              rw [commands]
              rcases List.mem_cons.1 member with rfl | later
              · exact .inl ⟨cmd, List.mem_cons_self .., rfl⟩
              · rcases rest.reads read later with ⟨other, among, same⟩ | beyond
                · exact .inl ⟨other, List.mem_cons_of_mem _ among, same⟩
                · exact .inr beyond
            · intro error
              rw [commands]
              exact List.mem_cons_of_mem _ (rest.last error)
      · have commands : file.fittingFrom (rounds + 1) cmd = [] := if_neg fits
        obtain ⟨error, run⟩ : ∃ error, file.walkFrom callback (rounds + 1) i cmd state =
            ⟨⟨state, [], false⟩, [(cmd + 4, 4)], some error⟩ :=
          walkFrom_reject mapped low high fits
        rw [run]
        constructor
        · rw [commands]
          rfl
        · simp [commands]
        · intro read member
          rw [commands]
          exact .inr ⟨rfl, List.mem_singleton.1 member⟩
        · intro _
          rw [commands]
          exact List.mem_singleton_self _

theorem area_lt {fileSize : ℕ} (mapped : file.mh + fileSize < 2 ^ 64) (passes : ¬ file.ExceedsLength fileSize) :
    file.startCmds + file.sizeofcmds < 2 ^ 64 := by
  unfold ExceedsLength at passes
  unfold startCmds
  omega

theorem machHeaderSize_ge : 28 ≤ file.machHeaderSize := by
  unfold machHeaderSize
  split <;> omega

theorem inside_headerReads {read : ℕ × ℕ} (member : read ∈ file.headerReads) : file.Inside read := by
  have size := file.machHeaderSize_ge
  simp only [headerReads, List.mem_cons, List.not_mem_nil, or_false] at member
  rcases member with rfl | rfl | rfl <;> exact .inl ⟨by simp, by simp only; omega⟩

theorem inside_of_fits (low : file.startCmds ≤ cmd) (fits : file.Fits cmd) : file.Inside (cmd + 4, 4) := by
  unfold Fits at fits
  exact .inr ⟨by simp only; omega, by simp only; omega⟩

/-- The walk of a file that passes the size check is safe exactly when it is stopped, all commands fit, or the
first one that does not fit has room for its header. -/
theorem forEachLoadCommand_safe_iff {fileSize : ℕ} (mapped : file.mh + fileSize < 2 ^ 64)
    (magic : file.hasMachOMagic = true) (passes : ¬ file.ExceedsLength fileSize) :
    file.IsSafe callback state (file.forEachLoadCommand callback state) ↔ file.HasRoom callback state := by
  have spec : WalksFrom file callback file.ncmds file.startCmds state
      (file.walkFrom callback file.ncmds 0 file.startCmds state) :=
    walkFrom_spec (area_lt mapped passes) le_rfl (Nat.le_add_right _ _)
  have low : file.startCmds ≤ file.endOf file.startCmds file.fitting := le_endOf le_rfl
  rw [forEachLoadCommand, if_pos magic]
  constructor
  · intro safe
    by_contra noRoom
    simp only [HasRoom, not_or, Bool.not_eq_true, not_le] at noRoom
    obtain ⟨runs, misfit, short⟩ := noRoom
    have error := spec.error.2 ⟨by rw [spec.outcome]; exact runs, misfit⟩
    rcases safe.inside _ (List.mem_append_right _ (spec.last error)) with ⟨-, header⟩ | ⟨-, area⟩
    · simp only [startCmds, fitting] at low header
      omega
    · simp only [fitting] at short area
      omega
  · intro room
    refine ⟨fun read member => ?_, spec.outcome, fun cmd member => ?_, spec.error⟩
    · rcases List.mem_append.1 member with header | walked
      · exact inside_headerReads header
      · rcases spec.reads read walked with ⟨other, among, rfl⟩ | ⟨error, rfl⟩
        · obtain ⟨start, fits⟩ := startCmds_le_of_mem le_rfl among
          exact inside_of_fits start fits
        · obtain ⟨runs, misfit⟩ := spec.error.1 error
          rw [spec.outcome] at runs
          rcases room with stopped | all | fits
          · exact absurd stopped (by rw [fitting, runs]; exact Bool.false_ne_true)
          · exact absurd all misfit
          · simp only [fitting] at low fits
            exact .inr ⟨by simp only; omega, by simp only; omega⟩
    · have called : cmd ∈ (runUntil (invoke callback) file.fitting state).calls := by
        rw [fitting, ← spec.outcome]
        exact member
      exact startCmds_le_of_mem le_rfl (mem_of_mem_calls called)

/-- A file of 28 bytes that announces one command of no bytes. -/
def headerOnly : MachOFile where
  memory address := ([0xCE, 0xFA, 0xED, 0xFE, 0, 0, 0, 0, 0, 0, 0, 0, 0, 0, 0, 0, 1] : List (BitVec 8)).getD (address - 0x1000) 0
  mh := 0x1000

/-- A file of 36 bytes with one command of eight bytes. -/
def oneCommand : MachOFile where
  memory address := ([0xCE, 0xFA, 0xED, 0xFE, 0, 0, 0, 0, 0, 0, 0, 0, 0, 0, 0, 0, 1, 0, 0, 0, 8, 0, 0, 0, 0, 0, 0, 0,
    0, 0, 0, 0, 8] : List (BitVec 8)).getD (address - 0x1000) 0
  mh := 0x1000

theorem oneCommand_safe_iff :
    oneCommand.IsSafe (fun _ state => (state, false)) () (oneCommand.forEachLoadCommand (fun _ state => (state, false)) ()) ↔
      oneCommand.HasRoom (fun _ state => (state, false)) () :=
  forEachLoadCommand_safe_iff (show oneCommand.mh + 36 < 2 ^ 64 by decide) (by decide +kernel) (by decide +kernel)

/-- The size of a command behind the end of the file is read. -/
theorem headerOnly_not_safe :
    ¬ headerOnly.IsSafe (fun _ state => (state, false)) ()
      (headerOnly.forEachLoadCommand (fun _ state => (state, false)) ()) := by
  intro safe
  have outside : (0x1020, 4) ∈ (headerOnly.forEachLoadCommand (fun _ state => (state, false)) ()).reads := by
    decide +kernel
  rcases safe.inside _ outside with ⟨-, header⟩ | ⟨-, area⟩
  · exact absurd header (by decide +kernel)
  · exact absurd area (by decide +kernel)

end MachOFile

end ObjcDyld.MachO
