import ObjcDyld.MachO.Leb128

/-!
# The bind opcodes of old arm64e images

`MachOAnalyzer::parseOrgArm64eChainedFixups` with any callbacks, and the validation that runs it,
`validChainedFixupsInfoOldArm64e`.
-/

namespace ObjcDyld.ChainedFixups

open ByteStreams MachO

/-- What a segment of the image is, as far as its fixups go. -/
structure SegmentInfo where
  vmAddr : BitVec 64
  vmSize : BitVec 64
  writable : Bool
  executable : Bool

/-- An image without `LC_DYLD_CHAINED_FIXUPS`, and the bind opcodes of its `LC_DYLD_INFO`. -/
structure OldArm64e where
  binds : Bytes
  linkeditSegIndex : BitVec 32
  segments : ℕ → SegmentInfo
  preferredLoadAddress : BitVec 64
  dependentDylibCount : ℕ

/-- The variables of the loop over the opcodes, as they are at its start. -/
structure BindState where
  type : BitVec 8 := 0
  segmentOffset : BitVec 64 := 0
  segmentIndex : ℕ := 0
  symbolName : Option Bytes := none
  libraryOrdinal : ℤ := 0
  segIndexSet : Bool := false
  libraryOrdinalSet : Bool := false
  addend : BitVec 64 := 0
  weakImport : Bool := false

/-- The calls of the three callbacks. -/
inductive BindCall where
  | targetCount (totalTargets : ℕ)
  | addTarget (state : BindState)
  | addChainStart (segmentIndex : ℕ) (segIndexSet : Bool) (segmentOffset : BitVec 64)

def BindCall.chainStart : BindCall → Option (ℕ × BitVec 64)
  | .addChainStart segmentIndex _ segmentOffset => some (segmentIndex, segmentOffset)
  | _ => none

/-- The callbacks of a caller that passes `addChainStart` only, which finds no errors. -/
def onChainStart {σ : Type} (addChainStart : σ → ℕ × BitVec 64 → Option σ) (locals : σ) : BindCall → Option (σ × Bool)
  | .addChainStart segmentIndex _ segmentOffset =>
      (addChainStart locals (segmentIndex, segmentOffset)).map fun after => (after, true)
  | _ => some (locals, true)

/-- What one opcode does. -/
inductive Parsed where
  | done
  | error
  | next (state : BindState) (rest : Bytes) (call : Option BindCall)

/-- `BIND_OPCODE_THREADED`. -/
def parseThreaded (state : BindState) (immediate : ℕ) (rest : Bytes) : Parsed :=
  match immediate with
  | 0 =>
      match readUleb128 rest with
      | none => .error
      | some (targetTableCount, rest) =>
          if targetTableCount.toNat > 65535 then .error
          else .next state rest (some (.targetCount targetTableCount.toNat))
  | 1 => .next state rest (some (.addChainStart state.segmentIndex state.segIndexSet state.segmentOffset))
  | _ => .error

/-- One round of the loop over the opcodes. -/
def parseOpcode (state : BindState) (opcode immediate : ℕ) (rest : Bytes) : Parsed :=
  match opcode with
  | 0x0 => .done
  | 0x1 => .next { state with libraryOrdinal := immediate, libraryOrdinalSet := true } rest none
  | 0x2 =>
      match readUleb128 rest with
      | none => .error
      | some (ordinal, rest) =>
          .next { state with libraryOrdinal := (ordinal.setWidth 32).toInt, libraryOrdinalSet := true } rest none
  | 0x3 =>
      -- the special ordinals are negative numbers
      let libraryOrdinal : ℤ := if immediate = 0 then 0 else immediate - 16
      .next { state with libraryOrdinal := libraryOrdinal, libraryOrdinalSet := true } rest none
  | 0x4 =>
      -- a name without an end leads past the end of the opcodes
      let symbolName := rest.takeWhile (· ≠ 0)
      .next { state with weakImport := immediate % 2 = 1, symbolName := some symbolName }
        ((rest.dropWhile (· ≠ 0)).drop 1) none
  | 0x5 => .next { state with type := BitVec.ofNat 8 immediate } rest none
  | 0x6 =>
      match readSleb128 rest with
      | none => .error
      | some (addend, rest) => .next { state with addend := addend } rest none
  | 0x7 =>
      match readUleb128 rest with
      | none => .error
      | some (segmentOffset, rest) =>
          .next { state with segmentIndex := immediate, segmentOffset := segmentOffset, segIndexSet := true } rest none
  | 0x9 => .next state rest (some (.addTarget state))
  | 0xD => parseThreaded state immediate rest
  | _ => .error

/-- The loop over the opcodes. A callback changes its own variables and says whether it finds no
error, or does not return. The result is what the callbacks leave, and whether there was no error. -/
def parseOpcodes {σ : Type} (call : σ → BindCall → Option (σ × Bool)) :
    ℕ → BindState → Bytes → σ → Option (σ × Bool)
  | fuel + 1, state, byte :: rest, locals =>
      match parseOpcode state (byte >>> 4).toNat (byte &&& 0xF).toNat rest with
      | .done => some (locals, true)
      | .error => some (locals, false)
      | .next state rest none => parseOpcodes call fuel state rest locals
      | .next state rest (some made) =>
          match call locals made with
          | none => none
          | some (locals, false) => some (locals, false)
          | some (locals, true) => parseOpcodes call fuel state rest locals
  | _, _, _, locals => some (locals, true)

/-- `MachOAnalyzer::parseOrgArm64eChainedFixups`: each round reads at least one byte. -/
def parseOrgArm64eChainedFixups {σ : Type} (image : OldArm64e) (call : σ → BindCall → Option (σ × Bool))
    (locals : σ) : Option (σ × Bool) :=
  parseOpcodes call image.binds.length {} image.binds locals

/-- The variables of the validation. -/
structure TargetCounts where
  maxTargetCount : ℕ := 0
  currentTargetCount : ℕ := 0

def validTarget (image : OldArm64e) (counts : TargetCounts) (state : BindState) : Bool :=
  state.symbolName.isSome && state.libraryOrdinalSet && !(state.libraryOrdinal > image.dependentDylibCount) &&
    !(state.libraryOrdinal < -3) && state.type = 1 && !(counts.currentTargetCount > counts.maxTargetCount)

def validChainStart (image : OldArm64e) (segmentIndex : ℕ) (segIndexSet : Bool) (segmentOffset : BitVec 64) : Bool :=
  segIndexSet && !(segmentIndex ≥ image.linkeditSegIndex.toNat) &&
    !(segmentOffset > (image.segments segmentIndex).vmSize - 8) && (image.segments segmentIndex).writable &&
    !(image.segments segmentIndex).executable

def validateCall (image : OldArm64e) (counts : TargetCounts) : BindCall → Option (TargetCounts × Bool)
  | .targetCount totalTargets => some ({ counts with maxTargetCount := totalTargets }, true)
  | .addTarget state =>
      some ({ counts with currentTargetCount := counts.currentTargetCount + 1 }, validTarget image counts state)
  | .addChainStart segmentIndex segIndexSet segmentOffset =>
      some (counts, validChainStart image segmentIndex segIndexSet segmentOffset)

/-- `MachOAnalyzer::validChainedFixupsInfoOldArm64e`. -/
def validChainedFixupsInfoOldArm64e (image : OldArm64e) : Bool :=
  match parseOrgArm64eChainedFixups image (validateCall image) {} with
  | some (_, noError) => noError
  | none => false

/-- The calls in their order, and whether the opcodes have no error. -/
def callsOf : ℕ → BindState → Bytes → List BindCall × Bool
  | fuel + 1, state, byte :: rest =>
      match parseOpcode state (byte >>> 4).toNat (byte &&& 0xF).toNat rest with
      | .done => ([], true)
      | .error => ([], false)
      | .next state rest none => callsOf fuel state rest
      | .next state rest (some made) => (made :: (callsOf fuel state rest).1, (callsOf fuel state rest).2)
  | _, _, _ => ([], true)

/-- The callbacks, called one after another until one finds an error. -/
def runCalls {σ : Type} (call : σ → BindCall → Option (σ × Bool)) : List BindCall → σ → Option (σ × Bool)
  | [], locals => some (locals, true)
  | made :: calls, locals =>
      match call locals made with
      | none => none
      | some (locals, false) => some (locals, false)
      | some (locals, true) => runCalls call calls locals

theorem parseOpcodes_eq {σ : Type} (call : σ → BindCall → Option (σ × Bool)) (fuel : ℕ) (state : BindState)
    (stream : Bytes) (locals : σ) :
    parseOpcodes call fuel state stream locals =
      (runCalls call (callsOf fuel state stream).1 locals).map fun result =>
        (result.1, result.2 && (callsOf fuel state stream).2) := by
  induction fuel generalizing state stream locals with
  | zero => rfl
  | succ fuel ih =>
      cases stream with
      | nil => rfl
      | cons byte rest =>
          rw [parseOpcodes, callsOf]
          cases parseOpcode state (byte >>> 4).toNat (byte &&& 0xF).toNat rest with
          | done => rfl
          | error => rfl
          | next state rest made =>
              cases made with
              | none => exact ih state rest locals
              | some made =>
                  dsimp only [runCalls]
                  cases call locals made with
                  | none => rfl
                  | some result =>
                      obtain ⟨locals, noError⟩ := result
                      cases noError with
                      | false => rfl
                      | true => exact ih state rest locals

namespace OldArm64e

def calls (image : OldArm64e) : List BindCall := (callsOf image.binds.length {} image.binds).1

/-- The segments and offsets that `BIND_SUBOPCODE_THREADED_APPLY` gives, in their order. -/
def chainStarts (image : OldArm64e) : List (ℕ × BitVec 64) :=
  image.calls.filterMap BindCall.chainStart

end OldArm64e

variable {image : OldArm64e}

theorem runCalls_validate {calls : List BindCall} {counts counts' : TargetCounts}
    (run : runCalls (validateCall image) calls counts = some (counts', true)) :
    ∀ segmentIndex segIndexSet segmentOffset, .addChainStart segmentIndex segIndexSet segmentOffset ∈ calls →
      validChainStart image segmentIndex segIndexSet segmentOffset = true := by
  induction calls generalizing counts with
  | nil => exact fun _ _ _ member => absurd member List.not_mem_nil
  | cons made calls ih =>
      intro segmentIndex segIndexSet segmentOffset member
      rw [runCalls] at run
      cases called : validateCall image counts made with
      | none =>
          rw [called] at run
          exact absurd run (by simp)
      | some result =>
          obtain ⟨after, noError⟩ := result
          rw [called] at run
          cases noError with
          | false => exact absurd run (by simp)
          | true =>
              rcases List.mem_cons.mp member with rfl | later
              · exact congrArg Prod.snd (Option.some.inj called)
              · exact ih run segmentIndex segIndexSet segmentOffset later

theorem calls_of_accepted (accepted : validChainedFixupsInfoOldArm64e image = true) :
    (callsOf image.binds.length {} image.binds).2 = true ∧
      ∀ start ∈ image.chainStarts, start.1 < image.linkeditSegIndex.toNat := by
  rw [validChainedFixupsInfoOldArm64e, parseOrgArm64eChainedFixups, parseOpcodes_eq] at accepted
  cases run : runCalls (validateCall image) (callsOf image.binds.length {} image.binds).1 {} with
  | none =>
      rw [run] at accepted
      exact absurd accepted (by simp)
  | some result =>
      obtain ⟨counts, noError⟩ := result
      rw [run] at accepted
      obtain ⟨rfl, parsed⟩ := Bool.and_eq_true_iff.mp accepted
      refine ⟨parsed, fun start member => ?_⟩
      obtain ⟨made, among, found⟩ := List.mem_filterMap.mp member
      cases made with
      | targetCount => exact absurd found (by simp [BindCall.chainStart])
      | addTarget => exact absurd found (by simp [BindCall.chainStart])
      | addChainStart segmentIndex segIndexSet segmentOffset =>
          obtain rfl := Option.some.inj found
          have valid := runCalls_validate run segmentIndex segIndexSet segmentOffset among
          simp only [validChainStart, Bool.and_eq_true, Bool.not_eq_true', decide_eq_false_iff_not] at valid
          exact Nat.lt_of_not_le valid.1.1.1.2

theorem runCalls_onChainStart {σ : Type} (addChainStart : σ → ℕ × BitVec 64 → Option σ) (calls : List BindCall)
    (locals : σ) :
    runCalls (onChainStart addChainStart) calls locals =
      ((calls.filterMap BindCall.chainStart).foldlM addChainStart locals).map fun after => (after, true) := by
  induction calls generalizing locals with
  | nil => rfl
  | cons made calls ih =>
      cases made with
      | targetCount => exact ih locals
      | addTarget => exact ih locals
      | addChainStart segmentIndex segIndexSet segmentOffset =>
          dsimp only [runCalls, onChainStart, List.filterMap_cons, BindCall.chainStart]
          rw [List.foldlM_cons]
          cases addChainStart locals (segmentIndex, segmentOffset) with
          | none => rfl
          | some after => exact ih after

theorem parse_onChainStart {σ : Type} (accepted : validChainedFixupsInfoOldArm64e image = true)
    (addChainStart : σ → ℕ × BitVec 64 → Option σ) (locals : σ) :
    parseOrgArm64eChainedFixups image (onChainStart addChainStart) locals =
      (image.chainStarts.foldlM addChainStart locals).map fun after => (after, true) := by
  rw [parseOrgArm64eChainedFixups, parseOpcodes_eq, (calls_of_accepted accepted).1, runCalls_onChainStart,
    Option.map_map]
  rfl

end ObjcDyld.ChainedFixups
