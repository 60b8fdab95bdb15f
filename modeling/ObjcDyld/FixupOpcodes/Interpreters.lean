import ObjcDyld.ChainedFixups.BindOpcodes
import ObjcDyld.Common.OpcodeStreams
import ObjcDyld.MachO.FunctionStarts

/-!
# The interpreters of the fixup opcodes

`MachOAnalyzer::forEachRebase`, `MachOAnalyzer::forEachBind` with its three streams, and
`MachOAnalyzer::parseOrgArm64eChainedFixups`, on streams of any bytes.
-/

namespace ObjcDyld.FixupOpcodes

open ByteStreams ChainedFixups MachO OpcodeStreams

/-- The bytes from `start` to `end` of a stream, and those behind `end` up to the next zero. -/
structure Stream where
  bytes : Bytes
  behind : Bytes := []

/-- What `LC_DYLD_INFO` says of an image. -/
structure DyldInfo where
  ptrSize : BitVec 64
  rebase : Stream
  bind : Stream
  lazyBind : Stream
  weakBind : Stream

structure RebaseState where
  type : BitVec 8 := 0
  segIndex : ℕ := 0
  segOffset : BitVec 64 := 0
  segIndexSet : Bool := false
  deriving DecidableEq, Inhabited

/-- What the handler of `forEachRebase` is called with. -/
structure Rebase where
  opcodeName : String
  state : RebaseState
  deriving DecidableEq, Inhabited

deriving instance DecidableEq for BindState
deriving instance Inhabited for BindState

/-- What the handler of `forEachBind` is called with. -/
structure Bind where
  opcodeName : String
  state : BindState
  lazyBind : Bool
  deriving DecidableEq, Inhabited

/-- The calls of the three handlers of `forEachBind`. -/
inductive BindEvent
  | bind (made : Bind)
  | strong (symbolName : Bytes)
  | missingLazyBind
  deriving DecidableEq, Inhabited

structure LazyState extends BindState where
  lazyDoneCount : ℕ := 0
  lazyBindCount : ℕ := 0

deriving instance Inhabited for BindCall

def opcodeOf (byte : BitVec 8) : ℕ := (byte >>> 4).toNat
def immediateOf (byte : BitVec 8) : ℕ := (byte &&& 0xF).toNat

/-- How `read_uleb128` ends. -/
def operandOf (read : UlebRead) : Operand :=
  if read.failed = false then .good else if read.rest = [] then .truncated else .tooLarge

/-- How two numbers are read, one after the other. -/
def both : Operand → Operand → Operand
  | .good, second => second
  | .truncated, _ => .truncated
  | .tooLarge, .truncated => .truncated
  | .tooLarge, _ => .tooLarge

section Shared

variable {κ : Type} [Inhabited κ] (state : BindState) (immediate : ℕ) (rest : Bytes)

def setDylibOrdinalImm : Action BindState κ :=
  .quiet { state with libraryOrdinal := immediate, libraryOrdinalSet := true } rest

def setDylibOrdinalUleb : Action BindState κ :=
  let read := scanUleb128 rest
  { Action.quiet { state with libraryOrdinal := (read.value.setWidth 32).toInt, libraryOrdinalSet := true } read.rest with
    before := operandOf read }

/-- The special ordinals are negative numbers. -/
def setDylibSpecialImm : Action BindState κ :=
  .quiet { state with libraryOrdinal := if immediate = 0 then 0 else immediate - 16, libraryOrdinalSet := true } rest

/-- The name goes up to the next zero, wherever that is. -/
def setSymbol (behind : Bytes) : Action BindState κ :=
  let state := { state with weakImport := immediate % 2 = 1 }
  if (0 : BitVec 8) ∈ rest then
    .quiet { state with symbolName := some (rest.takeWhile (· ≠ 0)) } ((rest.dropWhile (· ≠ 0)).drop 1)
  else { Action.quiet { state with symbolName := some (rest ++ behind) } [] with overrun := true }

def setTypeImm : Action BindState κ := .quiet { state with type := BitVec.ofNat 8 immediate } rest

/-- After an error the walk ends, and the addend is not used. -/
def setAddendSleb : Action BindState κ :=
  match readSleb128 rest with
  | some (addend, rest) => .quiet { state with addend := addend } rest
  | none => { Action.quiet state [] with before := .truncated }

def setSegmentAndOffsetUleb : Action BindState κ :=
  let read := scanUleb128 rest
  { Action.quiet { state with segmentIndex := immediate, segmentOffset := read.value, segIndexSet := true } read.rest with
    before := operandOf read }

def addAddrUleb : Action BindState κ :=
  let read := scanUleb128 rest
  { Action.quiet { state with segmentOffset := state.segmentOffset + read.value } read.rest with
    before := operandOf read }

end Shared

/-- The registers after some steps. -/
def advanced (state : BindState) (size : BitVec 64) (n : ℕ) : BindState :=
  { state with segmentOffset := state.segmentOffset + BitVec.ofNat 64 n * size }

def bindAt (opcodeName : String) (lazyBind : Bool) (state : BindState) (size : BitVec 64) (n : ℕ) : BindEvent :=
  .bind ⟨opcodeName, advanced state size n, lazyBind⟩

section Binds

variable (ptrSize : BitVec 64) (state : BindState) (immediate : ℕ) (rest : Bytes)

def doBind (lazyBind : Bool) : Action BindState BindEvent where
  regs := advanced state ptrSize 1
  rest := rest
  count := 1
  call := bindAt "BIND_OPCODE_DO_BIND" lazyBind state ptrSize

def doBindAddAddrUleb : Action BindState BindEvent :=
  let read := scanUleb128 rest
  { regs := advanced state (read.value + ptrSize) 1
    rest := read.rest
    count := 1
    call := bindAt "BIND_OPCODE_DO_BIND_ADD_ADDR_ULEB" false state ptrSize
    after := operandOf read }

def doBindAddAddrImmScaled : Action BindState BindEvent where
  regs := advanced state (BitVec.ofNat 64 immediate * ptrSize + ptrSize) 1
  rest := rest
  count := 1
  call := bindAt "BIND_OPCODE_DO_BIND_ADD_ADDR_IMM_SCALED" false state ptrSize

def doBindUlebTimesSkippingUleb : Action BindState BindEvent :=
  let count := scanUleb128 rest
  let skip := scanUleb128 count.rest
  { regs := advanced state (skip.value + ptrSize) count.value.toNat
    rest := skip.rest
    before := both (operandOf count) (operandOf skip)
    count := count.value.toNat
    call := bindAt "BIND_OPCODE_DO_BIND_ULEB_TIMES_SKIPPING_ULEB" false state (skip.value + ptrSize) }

/-- "bad bind opcode", whose message looks at the next byte. -/
def badBindOpcode : Action BindState BindEvent :=
  { Action.quiet state rest with error := true, outside := rest.isEmpty }

end Binds

def bindStep (ptrSize : BitVec 64) (behind : Bytes) (state : BindState) (byte : BitVec 8) (rest : Bytes) :
    Action BindState BindEvent :=
  let immediate := immediateOf byte
  match opcodeOf byte with
  | 0x0 => { Action.quiet state rest with done := true }
  | 0x1 => setDylibOrdinalImm state immediate rest
  | 0x2 => setDylibOrdinalUleb state rest
  | 0x3 => setDylibSpecialImm state immediate rest
  | 0x4 => setSymbol state immediate rest behind
  | 0x5 => setTypeImm state immediate rest
  | 0x6 => setAddendSleb state rest
  | 0x7 => setSegmentAndOffsetUleb state immediate rest
  | 0x8 => addAddrUleb state rest
  | 0x9 => doBind ptrSize state rest false
  | 0xA => doBindAddAddrUleb ptrSize state rest
  | 0xB => doBindAddAddrImmScaled ptrSize state immediate rest
  | 0xC => doBindUlebTimesSkippingUleb ptrSize state rest
  | _ => badBindOpcode state rest

/-- The lazy bind opcodes; `BIND_OPCODE_DONE` marks the end of each lazy pointer binding. -/
def lazyBindStep (ptrSize : BitVec 64) (behind : Bytes) (state : LazyState) (byte : BitVec 8) (rest : Bytes) :
    Action LazyState BindEvent :=
  let immediate := immediateOf byte
  let set := fun regs => { state with toBindState := regs }
  match opcodeOf byte with
  | 0x0 => .quiet { state with lazyDoneCount := state.lazyDoneCount + 1 } rest
  | 0x1 => (setDylibOrdinalImm state.toBindState immediate rest).lift set
  | 0x2 => (setDylibOrdinalUleb state.toBindState rest).lift set
  | 0x3 => (setDylibSpecialImm state.toBindState immediate rest).lift set
  | 0x4 => (setSymbol state.toBindState immediate rest behind).lift set
  | 0x6 => (setAddendSleb state.toBindState rest).lift set
  | 0x7 => (setSegmentAndOffsetUleb state.toBindState immediate rest).lift set
  | 0x9 => (doBind ptrSize state.toBindState rest true).lift fun regs =>
      { state with toBindState := regs, lazyBindCount := state.lazyBindCount + 1 }
  | _ => { Action.quiet state rest with error := true }

/-- A symbol in the weak bind opcodes, which may be a strong definition. -/
def setWeakSymbol (state : BindState) (immediate : ℕ) (rest behind : Bytes) : Action BindState BindEvent :=
  let act : Action BindState BindEvent := setSymbol state immediate rest behind
  { act with
    count := if immediate &&& 8 ≠ 0 then 1 else 0
    call := fun _ => .strong (act.regs.symbolName.getD []) }

def weakBindStep (ptrSize : BitVec 64) (behind : Bytes) (state : BindState) (byte : BitVec 8) (rest : Bytes) :
    Action BindState BindEvent :=
  let immediate := immediateOf byte
  match opcodeOf byte with
  | 0x0 => { Action.quiet state rest with done := true }
  | 0x1 | 0x2 | 0x3 => { Action.quiet state rest with error := true }
  | 0x4 => setWeakSymbol state immediate rest behind
  | 0x5 => setTypeImm state immediate rest
  | 0x6 => setAddendSleb state rest
  | 0x7 => setSegmentAndOffsetUleb state immediate rest
  | 0x8 => addAddrUleb state rest
  | 0x9 => doBind ptrSize state rest false
  | 0xA => doBindAddAddrUleb ptrSize state rest
  | 0xB => doBindAddAddrImmScaled ptrSize state immediate rest
  | 0xC => doBindUlebTimesSkippingUleb ptrSize state rest
  | _ => badBindOpcode state rest

def rebaseAt (opcodeName : String) (state : RebaseState) (size : BitVec 64) (n : ℕ) : Rebase :=
  ⟨opcodeName, { state with segOffset := state.segOffset + BitVec.ofNat 64 n * size }⟩

/-- An opcode that rebases a number of pointers. -/
def doRebase (opcodeName : String) (state : RebaseState) (rest : Bytes) (before : Operand) (count : ℕ)
    (size : BitVec 64) : Action RebaseState Rebase where
  regs := (rebaseAt opcodeName state size count).state
  rest := rest
  before := before
  count := count
  call := rebaseAt opcodeName state size

def rebaseStep (ptrSize : BitVec 64) (state : RebaseState) (byte : BitVec 8) (rest : Bytes) : Action RebaseState Rebase :=
  let immediate := immediateOf byte
  let read := scanUleb128 rest
  match opcodeOf byte with
  | 0x0 =>
      -- "rebase opcodes terminated early"
      { Action.quiet state rest with error := decide (rest.length > 8), done := true }
  | 0x1 => .quiet { state with type := BitVec.ofNat 8 immediate } rest
  | 0x2 => { Action.quiet { state with segIndex := immediate, segOffset := read.value, segIndexSet := true } read.rest with
      before := operandOf read }
  | 0x3 => { Action.quiet { state with segOffset := state.segOffset + read.value } read.rest with before := operandOf read }
  | 0x4 => .quiet { state with segOffset := state.segOffset + BitVec.ofNat 64 immediate * ptrSize } rest
  | 0x5 => doRebase "REBASE_OPCODE_DO_REBASE_IMM_TIMES" state rest .good immediate ptrSize
  | 0x6 => doRebase "REBASE_OPCODE_DO_REBASE_ADD_ADDR_ULEB" state read.rest (operandOf read) read.value.toNat ptrSize
  | 0x7 =>
      { regs := { state with segOffset := state.segOffset + (read.value + ptrSize) }
        rest := read.rest
        count := 1
        call := rebaseAt "REBASE_OPCODE_DO_REBASE_ADD_ADDR_ULEB" state ptrSize
        after := operandOf read }
  | 0x8 =>
      if read.failed then { Action.quiet state read.rest with before := operandOf read }
      else
        let skip := scanUleb128 read.rest
        doRebase "REBASE_OPCODE_DO_REBASE_ULEB_TIMES_SKIPPING_ULEB" state skip.rest (operandOf skip) read.value.toNat
          (skip.value + ptrSize)
  | _ => { Action.quiet state rest with error := true }

/-- Which callbacks of `parseOrgArm64eChainedFixups` there are. -/
structure GivenCallbacks where
  targetCount : Bool
  addTarget : Bool
  addChainStart : Bool

/-- `BIND_OPCODE_THREADED`. -/
def threadedStep (given : GivenCallbacks) (state : BindState) (immediate : ℕ) (rest : Bytes) :
    Action BindState BindCall :=
  match immediate with
  | 0 =>
      let read := scanUleb128 rest
      let large := decide (read.value.toNat > 65535)
      { regs := state
        rest := read.rest
        before := operandOf read
        error := large
        done := large
        count := if !large && given.targetCount then 1 else 0
        call := fun _ => .targetCount read.value.toNat }
  | 1 =>
      { regs := state
        rest := rest
        count := if given.addChainStart then 1 else 0
        call := fun _ => .addChainStart state.segmentIndex state.segIndexSet state.segmentOffset }
  | _ => { Action.quiet state rest with error := true }

def oldArm64eStep (given : GivenCallbacks) (behind : Bytes) (state : BindState) (byte : BitVec 8) (rest : Bytes) :
    Action BindState BindCall :=
  let immediate := immediateOf byte
  match opcodeOf byte with
  | 0x0 => { Action.quiet state rest with done := true }
  | 0x1 => setDylibOrdinalImm state immediate rest
  | 0x2 => setDylibOrdinalUleb state rest
  | 0x3 => setDylibSpecialImm state immediate rest
  | 0x4 => setSymbol state immediate rest behind
  | 0x5 => setTypeImm state immediate rest
  | 0x6 => setAddendSleb state rest
  | 0x7 => setSegmentAndOffsetUleb state immediate rest
  | 0x9 =>
      { regs := state
        rest := rest
        count := if given.addTarget then 1 else 0
        call := fun _ => .addTarget state }
  | 0xD => threadedStep given state immediate rest
  | _ => { Action.quiet state rest with error := true }

theorem scanUleb128From_le {bit : ℕ} {result : BitVec 64} (stream : Bytes) :
    (scanUleb128From bit result stream).rest.length ≤ stream.length := by
  induction stream generalizing bit result with
  | nil => exact le_rfl
  | cons byte tail ih =>
      simp only [scanUleb128From]
      split
      · exact le_rfl
      · split
        · exact Nat.le_succ _
        · exact ih.trans (Nat.le_succ _)

theorem scanUleb128_le (stream : Bytes) : (scanUleb128 stream).rest.length ≤ stream.length := scanUleb128From_le stream

theorem readSleb128From_le {bit : ℕ} {result value : BitVec 64} {stream rest : Bytes}
    (read : readSleb128From bit result stream = some (value, rest)) : rest.length ≤ stream.length := by
  induction stream generalizing bit result with
  | nil => cases read
  | cons byte tail ih =>
      simp only [readSleb128From] at read
      split at read
      · cases read
        exact Nat.le_succ _
      · exact (ih read).trans (Nat.le_succ _)

section Shrinks

variable {κ : Type} [Inhabited κ] (state : BindState) (immediate : ℕ) (rest : Bytes)

theorem setSymbol_le (behind : Bytes) :
    (setSymbol state immediate rest behind : Action BindState κ).rest.length ≤ rest.length := by
  unfold setSymbol
  dsimp only
  split
  · exact ((List.drop_suffix _ _).trans (List.dropWhile_suffix _)).length_le
  · exact Nat.zero_le _

theorem setAddendSleb_le : (setAddendSleb state rest : Action BindState κ).rest.length ≤ rest.length := by
  unfold setAddendSleb
  split
  · next read => exact readSleb128From_le read
  · exact Nat.zero_le _

end Shrinks

theorem bindStep_shrinks {ptrSize : BitVec 64} {behind : Bytes} (state : BindState) (byte : BitVec 8) (rest : Bytes) :
    (bindStep ptrSize behind state byte rest).rest.length ≤ rest.length := by
  simp only [bindStep]
  split
  · exact le_rfl
  · exact le_rfl
  · exact scanUleb128_le rest
  · exact le_rfl
  · exact setSymbol_le ..
  · exact le_rfl
  · exact setAddendSleb_le ..
  · exact scanUleb128_le rest
  · exact scanUleb128_le rest
  · exact le_rfl
  · exact scanUleb128_le rest
  · exact le_rfl
  · exact (scanUleb128_le _).trans (scanUleb128_le rest)
  · exact le_rfl

theorem lazyBindStep_shrinks {ptrSize : BitVec 64} {behind : Bytes} (state : LazyState) (byte : BitVec 8) (rest : Bytes) :
    (lazyBindStep ptrSize behind state byte rest).rest.length ≤ rest.length := by
  simp only [lazyBindStep]
  split
  · exact le_rfl
  · exact le_rfl
  · exact scanUleb128_le rest
  · exact le_rfl
  · exact setSymbol_le ..
  · exact setAddendSleb_le ..
  · exact scanUleb128_le rest
  · exact le_rfl
  · exact le_rfl

theorem weakBindStep_shrinks {ptrSize : BitVec 64} {behind : Bytes} (state : BindState) (byte : BitVec 8) (rest : Bytes) :
    (weakBindStep ptrSize behind state byte rest).rest.length ≤ rest.length := by
  simp only [weakBindStep]
  split
  · exact le_rfl
  · exact le_rfl
  · exact le_rfl
  · exact le_rfl
  · exact setSymbol_le ..
  · exact le_rfl
  · exact setAddendSleb_le ..
  · exact scanUleb128_le rest
  · exact scanUleb128_le rest
  · exact le_rfl
  · exact scanUleb128_le rest
  · exact le_rfl
  · exact (scanUleb128_le _).trans (scanUleb128_le rest)
  · exact le_rfl

theorem rebaseStep_shrinks {ptrSize : BitVec 64} (state : RebaseState) (byte : BitVec 8) (rest : Bytes) :
    (rebaseStep ptrSize state byte rest).rest.length ≤ rest.length := by
  simp only [rebaseStep]
  split
  · exact le_rfl
  · exact le_rfl
  · exact scanUleb128_le rest
  · exact scanUleb128_le rest
  · exact le_rfl
  · exact le_rfl
  · exact scanUleb128_le rest
  · exact scanUleb128_le rest
  · split
    · exact scanUleb128_le rest
    · exact (scanUleb128_le _).trans (scanUleb128_le rest)
  · exact le_rfl

theorem oldArm64eStep_shrinks {given : GivenCallbacks} {behind : Bytes} (state : BindState) (byte : BitVec 8) (rest : Bytes) :
    (oldArm64eStep given behind state byte rest).rest.length ≤ rest.length := by
  simp only [oldArm64eStep]
  split
  · exact le_rfl
  · exact le_rfl
  · exact scanUleb128_le rest
  · exact le_rfl
  · exact setSymbol_le ..
  · exact le_rfl
  · exact setAddendSleb_le ..
  · exact scanUleb128_le rest
  · exact le_rfl
  · unfold threadedStep
    split
    · exact scanUleb128_le rest
    · exact le_rfl
    · exact le_rfl
  · exact le_rfl

def bindMachine (ptrSize : BitVec 64) (behind : Bytes) : Machine BindState BindEvent :=
  ⟨bindStep ptrSize behind, bindStep_shrinks⟩

def lazyBindMachine (ptrSize : BitVec 64) (behind : Bytes) : Machine LazyState BindEvent :=
  ⟨lazyBindStep ptrSize behind, lazyBindStep_shrinks⟩

def weakBindMachine (ptrSize : BitVec 64) (behind : Bytes) : Machine BindState BindEvent :=
  ⟨weakBindStep ptrSize behind, weakBindStep_shrinks⟩

def rebaseMachine (ptrSize : BitVec 64) : Machine RebaseState Rebase := ⟨rebaseStep ptrSize, rebaseStep_shrinks⟩

def oldArm64eMachine (given : GivenCallbacks) (behind : Bytes) : Machine BindState BindCall :=
  ⟨oldArm64eStep given behind, oldArm64eStep_shrinks⟩

section Functions

variable {σ : Type} (info : DyldInfo) (fuel : ℕ) (state : σ)

/-- `MachOAnalyzer::forEachRebase` of an image with `LC_DYLD_INFO`. -/
def forEachRebase (handler : Rebase → σ → σ × Answer) : Option (Result RebaseState σ Rebase) :=
  walk handler (rebaseMachine info.ptrSize) fuel fuel {} info.rebase.bytes state

/-- The handlers of `forEachBind`. -/
structure BindHandlers (σ : Type) where
  handler : Bind → σ → σ × Answer
  strongHandler : Bytes → σ → σ
  missingLazyBindHandler : σ → σ

/-- Only the first handler can stop a walk. -/
def BindHandlers.answer (handlers : BindHandlers σ) : BindEvent → σ → σ × Answer
  | .bind made, state => handlers.handler made state
  | .strong symbolName, state => (handlers.strongHandler symbolName state, .goesOn)
  | .missingLazyBind, state => (handlers.missingLazyBindHandler state, .goesOn)

variable (handlers : BindHandlers σ)

/-- The registers at the start of the weak bind opcodes: `BIND_TYPE_POINTER` and `BIND_SPECIAL_DYLIB_WEAK_LOOKUP`. -/
def weakStart : BindState := { type := 1, libraryOrdinal := -3, libraryOrdinalSet := true }

def binds : Option (Result BindState σ BindEvent) :=
  walk handlers.answer (bindMachine info.ptrSize info.bind.behind) fuel fuel {} info.bind.bytes state

/-- More lazy pointer bindings end than there are binds. -/
def MissesLazyBinds (regs : LazyState) : Prop := regs.lazyDoneCount % 2 ^ 32 > (regs.lazyBindCount + 7) % 2 ^ 32

instance (regs : LazyState) : Decidable (MissesLazyBinds regs) := inferInstanceAs (Decidable (_ > _))

/-- The test behind the loop over the lazy bind opcodes. -/
def checkLazyBinds (lazies : Result LazyState σ BindEvent) : Result Unit σ BindEvent :=
  if MissesLazyBinds lazies.regs then
    { lazies.forget with
      state := handlers.missingLazyBindHandler lazies.state
      events := lazies.events ++ [.notice .missingLazyBind] }
  else lazies.forget

/-- The loop over the lazy bind opcodes. -/
def lazyWalk : Option (Result LazyState σ BindEvent) :=
  walk handlers.answer (lazyBindMachine info.ptrSize info.lazyBind.behind) fuel fuel { type := 1 } info.lazyBind.bytes state

def lazyBinds : Option (Result Unit σ BindEvent) :=
  if info.lazyBind.bytes = [] then some ⟨state, [], false, false, ()⟩
  else (lazyWalk info fuel state handlers).map (checkLazyBinds handlers)

/-- The loop over the weak bind opcodes. -/
def weakWalk : Option (Result BindState σ BindEvent) :=
  walk handlers.answer (weakBindMachine info.ptrSize info.weakBind.behind) fuel fuel weakStart info.weakBind.bytes state

def weakBinds : Option (Result Unit σ BindEvent) :=
  if info.weakBind.bytes = [] then some ⟨state, [], false, false, ()⟩
  else (weakWalk info fuel state handlers).map Result.forget

/-- `MachOAnalyzer::forEachBind` of an image with `LC_DYLD_INFO`: `stop` is cleared before each of the streams. -/
def forEachBind : Option (Result Unit σ BindEvent) :=
  andThen (fun fuel => binds info fuel state handlers)
    (fun state => andThen (fun fuel => lazyBinds info fuel state handlers)
      fun state fuel => weakBinds info fuel state handlers) fuel

/-- The callbacks of `parseOrgArm64eChainedFixups`, which may be missing. -/
structure OldArm64eHandlers (σ : Type) where
  targetCount : Option (ℕ → σ → σ × Answer)
  addTarget : Option (BindState → σ → σ × Answer)
  addChainStart : Option (ℕ → Bool → BitVec 64 → σ → σ × Answer)

def OldArm64eHandlers.given (handlers : OldArm64eHandlers σ) : GivenCallbacks :=
  ⟨handlers.targetCount.isSome, handlers.addTarget.isSome, handlers.addChainStart.isSome⟩

def OldArm64eHandlers.answer (handlers : OldArm64eHandlers σ) : BindCall → σ → σ × Answer
  | .targetCount totalTargets, state => handlers.targetCount.elim (state, .goesOn) (· totalTargets state)
  | .addTarget target, state => handlers.addTarget.elim (state, .goesOn) (· target state)
  | .addChainStart segmentIndex segIndexSet segmentOffset, state =>
      handlers.addChainStart.elim (state, .goesOn) (· segmentIndex segIndexSet segmentOffset state)

/-- `MachOAnalyzer::parseOrgArm64eChainedFixups`. -/
def parseOrgArm64eChainedFixups (callbacks : OldArm64eHandlers σ) : Option (Result BindState σ BindCall) :=
  walk callbacks.answer (oldArm64eMachine callbacks.given info.bind.behind) fuel fuel {} info.bind.bytes state

end Functions

end ObjcDyld.FixupOpcodes
