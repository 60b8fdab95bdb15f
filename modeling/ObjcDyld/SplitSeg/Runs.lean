import ObjcDyld.Common.Loops
import ObjcDyld.SplitSeg.Retarget

/-!
# Runs over the split-seg info

A run that reports no error retargets every reference exactly when the new
addresses suit all of them; bits that are not part of a reference stay.
-/

namespace ObjcDyld.SplitSeg

open ByteMemory Loops Footprints Set

/-! ## Items -/

/-- What is adjusted together: a reference, or a pair with the new address of its anchor. -/
inductive Item where
  | single (reference : Reference)
  | pair (first second : Reference) (anchor : BitVec 64)

namespace Item

def references : Item → List Reference
  | single reference => [reference]
  | pair first second _ => [first, second]

def footprint : Item → Set ℕ
  | single reference => reference.footprint
  | pair first second _ => first.footprint ∪ second.footprint

/-- Pairs are made of the kinds that come in pairs, and of two instructions. -/
def Paired : Item → Prop
  | single reference => reference.kind.movInstructions = none
  | pair first second _ => first.kind = second.kind ∧ second.kind.movInstructions.isSome ∧
      Disjoint first.footprint second.footprint

/-- Pointers in chains are another matter. -/
def Unchained (context : Context) : Item → Prop
  | single reference =>
      reference.kind = .pointer32 ∨ reference.kind = .pointer64 → context.chained = none
  | pair _ _ _ => True

/-- The item refers to the original address of its target from its original address. -/
def RefersBefore (context : Context) (headerSlide : BitVec 64) (memory : Memory) : Item → Prop
  | single reference => RefersTo reference.kind memory reference.mappedAddr
      reference.fromOrigAddress (context.imageStartAddress - headerSlide) reference.toOrigAddress
  | pair first second anchor => ∃ instructions, second.kind.movInstructions = some instructions ∧
      PairRefersTo instructions memory first.mappedAddr second.mappedAddr
        (anchor - second.fromSlide) second.toOrigAddress

/-- The item refers to the new address of its target from its new address. -/
def RefersAfter (context : Context) (memory : Memory) : Item → Prop
  | single reference => RefersTo reference.kind memory reference.mappedAddr
      reference.fromNewAddress context.imageStartAddress reference.toNewAddress
  | pair first second anchor => ∃ instructions, second.kind.movInstructions = some instructions ∧
      PairRefersTo instructions memory first.mappedAddr second.mappedAddr anchor
        second.toNewAddress

def Fits (context : Context) (headerSlide : BitVec 64) : Item → Prop
  | single reference => reference.Fits context.imageStartAddress headerSlide
  | pair _ second _ => second.Fits context.imageStartAddress headerSlide

/-- The bits around the immediates are as they were. -/
def Kept (before after : Memory) (item : Item) : Prop :=
  ∀ reference ∈ item.references,
    get32 after reference.mappedAddr &&& reference.kind.kept =
      get32 before reference.mappedAddr &&& reference.kind.kept

/-- What adjusting an item does. -/
def Done (context : Context) (headerSlide : BitVec 64) (item : Item) (before after : Memory) : Prop :=
  item.Kept before after ∧ (item.Unchained context → item.RefersBefore context headerSlide before →
    (item.RefersAfter context after ↔ item.Fits context headerSlide))

end Item

/-- There is no first instruction of a pair that waits for the second. -/
def Buffer.NoneWaits (buffer : Buffer) : Prop :=
  ∀ kind, buffer.last.kind = some kind → kind.movInstructions = none

/-! ## Single references -/

section Single

variable {context : Context} {headerSlide : BitVec 64} {reference : Reference}
  {buffer buffer' : Buffer} {memory memory' : Memory}

theorem eqOn_set32 (memory : Memory) (mappedAddr : ℕ) (value : BitVec 32) :
    EqOn (set32 memory mappedAddr value) memory (Ico mappedAddr (mappedAddr + 4))ᶜ := by
  intro k outside
  refine set32_other value ?_
  rw [mem_compl_iff, mem_Ico] at outside
  omega

theorem eqOn_set64 (memory : Memory) (mappedAddr : ℕ) (value : BitVec 64) :
    EqOn (set64 memory mappedAddr value) memory (Ico mappedAddr (mappedAddr + 8))ᶜ := by
  intro k outside
  refine set64_other value ?_
  rw [mem_compl_iff, mem_Ico] at outside
  omega

theorem Buffer.update32_ok {mappedAddr : ℕ} {adjusted : BitVec 32 → Except Refusal (BitVec 32)}
    (run : buffer.update32 mappedAddr adjusted = .ok buffer') :
    ∃ value32, adjusted (get32 buffer.memory mappedAddr) = .ok value32 ∧
      buffer' = { buffer with memory := set32 buffer.memory mappedAddr value32 } := by
  obtain ⟨value32, found, run⟩ := bind_eq_ok run
  exact ⟨value32, found, (Except.ok.inj run).symm⟩

@[simp] theorem Buffer.trackLoh_memory (buffer : Buffer) (reference : Reference) :
    (buffer.trackLoh reference).memory = buffer.memory := by
  rw [Buffer.trackLoh]
  split <;> rfl

/-- What a reference of one kind does to its word; the kinds with a word of 32 bits. -/
structure Rewritten32 (reference : Reference) (before after : Memory)
    (adjusted : BitVec 32 → Except Refusal (BitVec 32)) : Prop where
  word : adjusted (get32 before reference.mappedAddr) = .ok (get32 after reference.mappedAddr)
  frame : EqOn after before (Ico reference.mappedAddr (reference.mappedAddr + 4))ᶜ

/-- A rewritten word of 64 bits. -/
structure Rewritten64 (reference : Reference) (before after : Memory) (value64 : BitVec 64) : Prop where
  word : get64 after reference.mappedAddr = value64
  frame : EqOn after before (Ico reference.mappedAddr (reference.mappedAddr + 8))ᶜ

theorem Buffer.rewritten32 {start : Buffer} (same : start.memory = buffer.memory)
    {adjusted : BitVec 32 → Except Refusal (BitVec 32)} {mappedAddr32 : ℕ} {kind : Option Kind}
    {toNewAddress : BitVec 64}
    (run : (start.update32 reference.mappedAddr adjusted >>= fun buffer =>
      .ok (buffer.setLast mappedAddr32 kind toNewAddress)) = .ok buffer') :
    Rewritten32 reference buffer.memory buffer'.memory adjusted ∧ buffer'.last.kind = kind := by
  obtain ⟨middle, updated, run⟩ := bind_eq_ok run
  obtain ⟨value32, found, rfl⟩ := update32_ok updated
  obtain rfl := Except.ok.inj run
  rw [same] at found
  refine ⟨⟨?_, ?_⟩, rfl⟩
  · simpa only [setLast, get32_set32, same] using found
  · simpa only [setLast, same] using eqOn_set32 buffer.memory reference.mappedAddr value32

/-- A reference that is rewritten alone. -/
structure Adjusted (context : Context) (headerSlide : BitVec 64) (reference : Reference)
    (buffer buffer' : Buffer) : Prop where
  last : buffer'.last.kind = some reference.kind
  done : (Item.single reference).Done context headerSlide buffer.memory buffer'.memory
  frame : EqOn buffer'.memory buffer.memory reference.footprintᶜ

theorem Adjusted.of_rewritten32 {kind : Kind} (isKind : reference.kind = kind) (size : kind.size = 4)
    {adjusted : BitVec 32 → Except Refusal (BitVec 32)}
    (rewritten : Rewritten32 reference buffer.memory buffer'.memory adjusted ∧
      buffer'.last.kind = some kind)
    (kept : ∀ {value32 value32'}, adjusted value32 = .ok value32' →
      value32' &&& kind.kept = value32 &&& kind.kept)
    (refers : (kind = .pointer32 ∨ kind = .pointer64 → context.chained = none) →
      RefersTo kind buffer.memory reference.mappedAddr reference.fromOrigAddress
        (context.imageStartAddress - headerSlide) reference.toOrigAddress →
      (RefersTo kind buffer'.memory reference.mappedAddr reference.fromNewAddress
        context.imageStartAddress reference.toNewAddress ↔
          reference.Fits context.imageStartAddress headerSlide)) :
    Adjusted context headerSlide reference buffer buffer' := by
  subst isKind
  refine ⟨rewritten.2, ⟨fun other mem => ?_, refers⟩, ?_⟩
  · obtain rfl := List.mem_singleton.mp mem
    exact kept rewritten.1.word
  · rw [Reference.footprint, size]
    exact rewritten.1.frame

theorem Adjusted.of_rewritten64 {kind : Kind} (isKind : reference.kind = kind) (size : kind.size = 8)
    (noKept : kind.kept = 0) {value64 : BitVec 64}
    (rewritten : Rewritten64 reference buffer.memory buffer'.memory value64)
    (last : buffer'.last.kind = some kind)
    (refers : (kind = .pointer32 ∨ kind = .pointer64 → context.chained = none) →
      RefersTo kind buffer.memory reference.mappedAddr reference.fromOrigAddress
        (context.imageStartAddress - headerSlide) reference.toOrigAddress →
      (RefersTo kind buffer'.memory reference.mappedAddr reference.fromNewAddress
        context.imageStartAddress reference.toNewAddress ↔
          reference.Fits context.imageStartAddress headerSlide)) :
    Adjusted context headerSlide reference buffer buffer' := by
  subst isKind
  refine ⟨last, ⟨fun other mem => ?_, refers⟩, ?_⟩
  · obtain rfl := List.mem_singleton.mp mem
    rw [noKept]
    simp
  · rw [Reference.footprint, size]
    exact rewritten.frame

theorem rewritten64_set (memory : Memory) (reference : Reference) (value64 : BitVec 64) :
    Rewritten64 reference memory (set64 memory reference.mappedAddr value64) value64 :=
  ⟨get64_set64 _ _ _, eqOn_set64 _ _ _⟩

theorem Buffer.updateChained64_ok {format : ChainedFixups.Format} {segOrigStart : BitVec 64}
    (run : buffer.updateChained64 reference format segOrigStart = .ok buffer') :
    ∃ value64, Rewritten64 reference buffer.memory buffer'.memory value64 := by
  simp only [Buffer.updateChained64] at run
  split at run
  · cases run
  · obtain rfl := Except.ok.inj run
    exact ⟨_, rewritten64_set _ _ _⟩

theorem rewritten32_set (memory : Memory) (reference : Reference) (value32 : BitVec 32) :
    Rewritten32 reference memory (set32 memory reference.mappedAddr value32) fun _ => .ok value32 :=
  ⟨by rw [get32_set32], eqOn_set32 _ _ _⟩

theorem Adjusted.untouched (last : buffer'.last.kind = some reference.kind)
    (same : buffer'.memory = buffer.memory)
    (noReference : ∀ memory address imageStart target,
      ¬ RefersTo reference.kind memory reference.mappedAddr address imageStart target) :
    Adjusted context headerSlide reference buffer buffer' := by
  refine ⟨last, ⟨fun other mem => ?_, fun _ refers => absurd refers (noReference _ _ _ _)⟩, ?_⟩
  · rw [same]
  · exact fun k _ => by rw [same]

theorem adjusted_pointer32 (kind : reference.kind = .pointer32)
    (run : adjustReference context reference buffer = .ok buffer') :
    Adjusted context headerSlide reference buffer buffer' := by
  simp only [adjustReference, kind] at run
  cases chained : context.chained with
  | none =>
      simp only [chained] at run
      obtain ⟨middle, updated, run⟩ := bind_eq_ok run
      obtain ⟨value32, found, rfl⟩ := Buffer.update32_ok updated
      obtain rfl := Except.ok.inj run
      have rewritten : Rewritten32 reference buffer.memory
          (set32 buffer.memory reference.mappedAddr value32) fun value32 =>
            if reference.toNewAddress ≠ value32.setWidth 64 + reference.targetSlide then
              .error (.pointer32 reference.fromNewAddress)
            else .ok (reference.toNewAddress.setWidth 32) :=
        ⟨by rw [get32_set32]; exact found, eqOn_set32 _ _ _⟩
      refine Adjusted.of_rewritten32 kind rfl ⟨rewritten, rfl⟩ (fun _ => by simp [Kind.kept])
        fun _ _ => ?_
      have word := rewritten.word
      split at word
      · cases word
      · simp only [RefersTo, Reference.Fits, kind, Buffer.setLast, Buffer.track]
        rw [← Except.ok.inj word, setWidth_setWidth_iff]
  | some format =>
      cases format with
      | ptr32 =>
          simp only [chained] at run
          obtain rfl := Except.ok.inj run
          refine Adjusted.of_rewritten32 kind rfl
            ⟨rewritten32_set buffer.memory reference _, rfl⟩ (fun _ => by simp [Kind.kept])
            fun unchained _ => ?_
          cases chained.symm.trans (unchained (Or.inl rfl))
      | fixups64 => simp only [chained] at run; cases run
      | other => simp only [chained] at run; cases run

theorem adjusted_pointer64 (kind : reference.kind = .pointer64)
    (run : adjustReference context reference buffer = .ok buffer') :
    Adjusted context headerSlide reference buffer buffer' := by
  simp only [adjustReference, kind] at run
  cases chained : context.chained with
  | none =>
      simp only [chained] at run
      split at run
      · cases run
      · obtain rfl := Except.ok.inj run
        have rewritten := rewritten64_set buffer.memory reference reference.toNewAddress
        refine Adjusted.of_rewritten64 kind rfl rfl rewritten rfl fun _ _ => ?_
        simp only [RefersTo, Reference.Fits, kind, iff_true]
        exact rewritten.word
  | some format =>
      cases format with
      | fixups64 format =>
          simp only [chained] at run
          obtain ⟨middle, updated, run⟩ := bind_eq_ok run
          obtain ⟨value64, rewritten⟩ := Buffer.updateChained64_ok updated
          obtain rfl := Except.ok.inj run
          refine Adjusted.of_rewritten64 kind rfl rfl rewritten rfl fun unchained _ => ?_
          cases chained.symm.trans (unchained (Or.inr rfl))
      | ptr32 => simp only [chained] at run; cases run
      | other => simp only [chained] at run; cases run

theorem adjusted_threadedPointer64 (kind : reference.kind = .threadedPointer64)
    (run : adjustReference context reference buffer = .ok buffer') :
    Adjusted context headerSlide reference buffer buffer' := by
  simp only [adjustReference, kind] at run
  obtain ⟨middle, updated, run⟩ := bind_eq_ok run
  obtain ⟨value64, rewritten⟩ := Buffer.updateChained64_ok updated
  obtain rfl := Except.ok.inj run
  exact Adjusted.of_rewritten64 kind rfl rfl rewritten rfl fun _ refers => absurd refers id

theorem adjusted_delta64 (kind : reference.kind = .delta64)
    (run : adjustReference context reference buffer = .ok buffer') :
    Adjusted context headerSlide reference buffer buffer' := by
  simp only [adjustReference, kind] at run
  obtain rfl := Except.ok.inj run
  have rewritten := rewritten64_set buffer.memory reference
    (get64 buffer.memory reference.mappedAddr + reference.adjust)
  refine Adjusted.of_rewritten64 kind rfl rfl rewritten rfl fun _ before => ?_
  simp only [RefersTo, Reference.Fits, kind, iff_true, Buffer.setLast] at before ⊢
  rw [rewritten.word, Reference.adjust]
  rw [Reference.fromOrigAddress, Reference.toOrigAddress] at before
  generalize get64 buffer.memory reference.mappedAddr = value at before ⊢
  bv_omega

theorem adjusted_delta32 (kind : reference.kind = .delta32)
    (run : adjustReference context reference buffer = .ok buffer') :
    Adjusted context headerSlide reference buffer buffer' := by
  simp only [adjustReference, kind] at run
  have rewritten := Buffer.rewritten32 rfl run
  refine Adjusted.of_rewritten32 kind rfl rewritten (fun _ => by simp [Kind.kept])
    fun _ before => ?_
  simp only [RefersTo, Reference.Fits, kind] at before ⊢
  exact adjustDelta32_refers before rewritten.1.word

theorem adjusted_imageOff32 (kind : reference.kind = .imageOff32)
    (run : adjustReference context reference buffer = .ok buffer') :
    Adjusted context headerSlide reference buffer buffer' := by
  simp only [adjustReference, kind] at run
  have rewritten := Buffer.rewritten32 rfl run
  refine Adjusted.of_rewritten32 kind rfl rewritten (fun _ => by simp [Kind.kept])
    fun _ before => ?_
  simp only [RefersTo, Reference.Fits, kind] at before ⊢
  exact adjustImageOff32_refers before rewritten.1.word

theorem adjusted_arm64Adrp (kind : reference.kind = .arm64Adrp)
    (run : adjustReference context reference buffer = .ok buffer') :
    Adjusted context headerSlide reference buffer buffer' := by
  simp only [adjustReference, kind] at run
  have rewritten := Buffer.rewritten32 (buffer.trackLoh_memory reference) run
  refine Adjusted.of_rewritten32 kind rfl rewritten adjustAdrp_kept fun _ before => ?_
  simp only [RefersTo, Reference.Fits, kind] at before ⊢
  have word := rewritten.1.word
  have still : isAdrp (get32 buffer'.memory reference.mappedAddr) := by
    simp only [isAdrp, and_eq_of_kept (adjustAdrp_kept word) 0x9F000000 (by decide)]
    exact before.1
  rw [← adjustAdrp_refers before.1 word]
  exact and_iff_right still

theorem adjusted_arm64Off12 (kind : reference.kind = .arm64Off12)
    (run : adjustReference context reference buffer = .ok buffer') :
    Adjusted context headerSlide reference buffer buffer' := by
  simp only [adjustReference, kind] at run
  have rewritten := Buffer.rewritten32 (buffer.trackLoh_memory reference) run
  refine Adjusted.of_rewritten32 kind rfl rewritten (fun run => (adjustOff12_ok run).1)
    fun _ before => ?_
  simp only [RefersTo, Reference.Fits, kind] at before ⊢
  obtain ⟨scale, known, before⟩ := before
  exact adjustOff12_refers known before rewritten.1.word

theorem adjusted_single (alone : reference.kind.movInstructions = none)
    (run : adjustReference context reference buffer = .ok buffer') :
    Adjusted context headerSlide reference buffer buffer' := by
  cases kind : reference.kind with
  | pointer32 => exact adjusted_pointer32 kind run
  | pointer64 => exact adjusted_pointer64 kind run
  | delta32 => exact adjusted_delta32 kind run
  | delta64 => exact adjusted_delta64 kind run
  | arm64Adrp => exact adjusted_arm64Adrp kind run
  | arm64Off12 => exact adjusted_arm64Off12 kind run
  | imageOff32 => exact adjusted_imageOff32 kind run
  | threadedPointer64 => exact adjusted_threadedPointer64 kind run
  | arm64Br26 | armBr24 | thumbBr22 =>
      simp only [adjustReference, kind] at run
      obtain rfl := Except.ok.inj run
      exact Adjusted.untouched (by simp only [kind, Buffer.setLast]) rfl
        (fun _ _ _ _ => by simp only [kind, RefersTo, not_false_iff])
  | armMovwMovt | thumbMovwMovt =>
      rw [kind] at alone
      cases alone

end Single

/-! ## Pairs -/

section Pair

variable {context : Context} {headerSlide : BitVec 64} {first second : Reference}
  {anchor : BitVec 64} {buffer buffer' : Buffer} {instructions : MovInstructions}

theorem Kind.kept_mov {kind : Kind} (mov : kind.movInstructions = some instructions) :
    kind.kept = instructions.kept := by
  cases kind <;> cases mov <;> rfl

theorem Kind.size_mov {kind : Kind} (mov : kind.movInstructions = some instructions) :
    kind.size = 4 := by
  cases kind <;> cases mov <;> rfl

theorem adjustReference_mov {reference : Reference}
    (mov : reference.kind.movInstructions = some instructions) :
    adjustReference context reference buffer = adjustPair instructions reference buffer := by
  cases kind : reference.kind <;> rw [kind] at mov <;> cases mov <;>
    simp only [adjustReference, kind]

theorem adjustPair_second {reference : Reference} (waits : buffer.last.kind = some reference.kind)
    (run : adjustPair instructions reference buffer = .ok buffer') :
    ∃ adjusted, adjustMovwMovt instructions (get32 buffer.memory buffer.last.mappedAddr32)
        (get32 buffer.memory reference.mappedAddr) reference.adjust = .ok adjusted ∧
      buffer'.last.kind = none ∧ buffer'.memory = set32 (set32 buffer.memory
        buffer.last.mappedAddr32 adjusted.1) reference.mappedAddr adjusted.2 := by
  simp only [adjustPair, if_pos waits] at run
  split at run
  · obtain ⟨adjusted, found, run⟩ := bind_eq_ok run
    obtain rfl := Except.ok.inj run
    exact ⟨adjusted, found, rfl, rfl⟩
  · cases run

theorem adjustPair_waited (mov : second.kind.movInstructions = some instructions)
    (same : first.kind = second.kind) (noneWaits : buffer.NoneWaits)
    (run : [first, second].foldlM (fun buffer reference =>
      adjustReference context reference buffer) buffer = .ok buffer') :
    ∃ adjusted, adjustMovwMovt instructions (get32 buffer.memory first.mappedAddr)
        (get32 buffer.memory second.mappedAddr) second.adjust = .ok adjusted ∧
      buffer'.last.kind = none ∧ buffer'.memory = set32 (set32 buffer.memory first.mappedAddr
        adjusted.1) second.mappedAddr adjusted.2 := by
  have firstMov : first.kind.movInstructions = some instructions := by rw [same, mov]
  have free : ¬ buffer.last.kind = some first.kind := fun last => by
    rw [noneWaits _ last] at firstMov
    cases firstMov
  have waiting : adjustReference context first buffer =
      .ok (buffer.setLast first.mappedAddr (some first.kind) first.toNewAddress) := by
    rw [adjustReference_mov firstMov]
    exact if_neg free
  rw [List.foldlM_cons, waiting, ok_bind, List.foldlM_cons, adjustReference_mov mov] at run
  obtain ⟨last, adjusts, run⟩ := bind_eq_ok run
  obtain rfl := Except.ok.inj run
  have waits : (buffer.setLast first.mappedAddr (some first.kind) first.toNewAddress).last.kind =
      some second.kind := congrArg some same
  obtain ⟨adjusted, found, last, memory_eq⟩ := adjustPair_second waits adjusts
  exact ⟨adjusted, found, last, memory_eq⟩

theorem adjusted_pair (paired : (Item.pair first second anchor).Paired)
    (noneWaits : buffer.NoneWaits)
    (run : [first, second].foldlM (fun buffer reference =>
      adjustReference context reference buffer) buffer = .ok buffer') :
    buffer'.NoneWaits ∧
      (Item.pair first second anchor).Done context headerSlide buffer.memory buffer'.memory ∧
      EqOn buffer'.memory buffer.memory (Item.pair first second anchor).footprintᶜ := by
  obtain ⟨same, isMov, apart⟩ := paired
  obtain ⟨instructions, mov⟩ := Option.isSome_iff_exists.mp isMov
  have firstMov : first.kind.movInstructions = some instructions := by rw [same, mov]
  obtain ⟨adjusted, found, last, memory_eq⟩ := adjustPair_waited mov same noneWaits run
  have firstWord : get32 buffer'.memory first.mappedAddr = adjusted.1 := by
    rw [Reference.footprint, Reference.footprint, Kind.size_mov firstMov, Kind.size_mov mov] at apart
    have still : get32 buffer'.memory first.mappedAddr =
        get32 (set32 buffer.memory first.mappedAddr adjusted.1) first.mappedAddr := by
      rw [memory_eq]
      refine get32_congr fun k low high => ?_
      exact eqOn_set32 _ _ _ fun inSecond => apart.ne_of_mem ⟨low, high⟩ inSecond rfl
    rw [still, get32_set32]
  have secondWord : get32 buffer'.memory second.mappedAddr = adjusted.2 := by
    rw [memory_eq, get32_set32]
  refine ⟨fun kind waits => ?_, ⟨fun reference mem => ?_, fun _ before => ?_⟩, fun k outside => ?_⟩
  · rw [last] at waits
    cases waits
  · obtain ⟨keptFirst, keptSecond⟩ := adjustMovwMovt_kept found
    rcases List.mem_cons.mp mem with rfl | mem
    · rw [firstWord, Kind.kept_mov firstMov, keptFirst]
    · obtain rfl := List.mem_singleton.mp mem
      rw [secondWord, Kind.kept_mov mov, keptSecond]
  · obtain ⟨_, mov', full, paired, before⟩ := before
    obtain rfl := Option.some.inj (mov.symm.trans mov')
    rw [setWidth_sub] at before
    have refers := adjustMovwMovt_refers paired before rfl found
    have fits : (Item.pair first second anchor).Fits context headerSlide ↔
        second.toNewAddress.toNat < 2 ^ 32 := by
      simp only [Item.Fits, Reference.Fits]
      cases kind : second.kind <;> rw [kind] at mov <;> cases mov
    rw [fits, ← refers]
    simp only [Item.RefersAfter, PairRefersTo, mov, firstWord, secondWord, Option.some.injEq,
      exists_eq_left']
  · rw [mem_compl_iff, Item.footprint, mem_union, not_or] at outside
    rw [Reference.footprint, Reference.footprint, Kind.size_mov firstMov, Kind.size_mov mov] at outside
    rw [memory_eq, eqOn_set32 _ _ _ outside.2, eqOn_set32 _ _ _ outside.1]

end Pair

/-! ## Items and groups -/

section Items

variable {context : Context} {headerSlide : BitVec 64}

theorem get32_and_kept_congr {reference : Reference} {memory memory' : Memory}
    (same : EqOn memory memory' reference.footprint) :
    get32 memory reference.mappedAddr &&& reference.kind.kept =
      get32 memory' reference.mappedAddr &&& reference.kind.kept := by
  rw [Reference.footprint] at same
  cases kind : reference.kind with
  | arm64Br26 | armBr24 | thumbBr22 => simp [Kind.kept]
  | pointer32 | pointer64 | delta32 | delta64 | arm64Adrp | arm64Off12 | armMovwMovt
  | thumbMovwMovt | imageOff32 | threadedPointer64 =>
      rw [kind] at same
      rw [get32_congr fun k low high => same ⟨low, high.trans_le (by simp [Kind.size])⟩]

theorem refersTo_congr {reference : Reference} {memory memory' : Memory}
    {address imageStart target : BitVec 64} (same : EqOn memory memory' reference.footprint) :
    RefersTo reference.kind memory reference.mappedAddr address imageStart target ↔
      RefersTo reference.kind memory' reference.mappedAddr address imageStart target := by
  rw [Reference.footprint] at same
  cases kind : reference.kind with
  | arm64Br26 | armBr24 | thumbBr22 | armMovwMovt | thumbMovwMovt | threadedPointer64 => exact Iff.rfl
  | pointer64 | delta64 =>
      rw [kind] at same
      simp only [RefersTo, get64_congr fun k low high => same ⟨low, high⟩]
  | pointer32 | delta32 | arm64Adrp | arm64Off12 | imageOff32 =>
      rw [kind] at same
      simp only [RefersTo, get32_congr fun k low high => same ⟨low, high⟩]

theorem pairRefersTo_congr {first second : Reference} {instructions : MovInstructions}
    (firstMov : first.kind.movInstructions = some instructions)
    (mov : second.kind.movInstructions = some instructions) {memory memory' : Memory}
    {anchor target : BitVec 64} (same : EqOn memory memory' (first.footprint ∪ second.footprint)) :
    PairRefersTo instructions memory first.mappedAddr second.mappedAddr anchor target ↔
      PairRefersTo instructions memory' first.mappedAddr second.mappedAddr anchor target := by
  rw [Reference.footprint, Reference.footprint, Kind.size_mov firstMov, Kind.size_mov mov] at same
  have word1 : get32 memory first.mappedAddr = get32 memory' first.mappedAddr :=
    get32_congr fun k low high => same (Or.inl ⟨low, high⟩)
  have word2 : get32 memory second.mappedAddr = get32 memory' second.mappedAddr :=
    get32_congr fun k low high => same (Or.inr ⟨low, high⟩)
  rw [PairRefersTo, PairRefersTo, word1, word2]

theorem Item.Done.congr {item : Item} (paired : item.Paired) {before before' after after' : Memory}
    (same : EqOn before before' item.footprint) (same' : EqOn after after' item.footprint)
    (done : item.Done context headerSlide before after) :
    item.Done context headerSlide before' after' := by
  obtain ⟨kept, refers⟩ := done
  cases item with
  | single reference =>
      refine ⟨fun other mem => ?_, fun unchained old => ?_⟩
      · have here := kept other mem
        obtain rfl := List.mem_singleton.mp mem
        rw [← get32_and_kept_congr same', ← get32_and_kept_congr same, here]
      · exact Iff.trans (refersTo_congr same').symm
          (refers unchained ((refersTo_congr same).mpr old))
  | pair first second anchor =>
      obtain ⟨sameKind, isMov, apart⟩ := paired
      obtain ⟨instructions, mov⟩ := Option.isSome_iff_exists.mp isMov
      have firstMov : first.kind.movInstructions = some instructions := by rw [sameKind, mov]
      refine ⟨fun other mem => ?_, fun unchained old => ?_⟩
      · have here := kept other mem
        have inside : other.footprint ⊆ (Item.pair first second anchor).footprint := by
          rcases List.mem_cons.mp mem with rfl | mem
          · exact subset_union_left
          · obtain rfl := List.mem_singleton.mp mem
            exact subset_union_right
        rw [← get32_and_kept_congr (same'.mono inside), ← get32_and_kept_congr (same.mono inside), here]
      · have refers := refers unchained
        simp only [Item.RefersBefore, Item.RefersAfter, mov, Option.some.injEq, exists_eq_left']
          at refers old ⊢
        exact Iff.trans (pairRefersTo_congr firstMov mov same').symm
          (refers ((pairRefersTo_congr firstMov mov same).mpr old))

/-- The call of `adjustReference` for every reference of an item. -/
def adjustItem (context : Context) (buffer : Buffer) (item : Item) : Except Refusal Buffer :=
  item.references.foldlM (fun buffer reference => adjustReference context reference buffer) buffer

theorem local_adjustItem {items : List Item} (paired : ∀ item ∈ items, item.Paired) :
    Local Buffer.memory Item.footprint Buffer.NoneWaits (adjustItem context)
      (Item.Done context headerSlide) items := by
  refine ⟨fun item mem buffer buffer' noneWaits run => ?_, fun item mem _ _ _ _ same same' done =>
    done.congr (paired item mem) same same'⟩
  have isPaired := paired item mem
  cases item with
  | pair first second anchor => exact adjusted_pair isPaired noneWaits run
  | single reference =>
      have taken : adjustReference context reference buffer = .ok buffer' := by
        rw [adjustItem, Item.references, List.foldlM_cons] at run
        obtain ⟨last, taken, run⟩ := bind_eq_ok run
        obtain rfl := Except.ok.inj run
        exact taken
      have adjusted : Adjusted context headerSlide reference buffer buffer' :=
        adjusted_single isPaired taken
      refine ⟨fun kind last => ?_, adjusted.done, adjusted.frame⟩
      obtain rfl := Option.some.inj (adjusted.last.symm.trans last)
      exact isPaired

end Items

/-! ## The whole run -/

/-- The references from a section to a section, put together in items. -/
structure Recording where
  info : FromToSection
  items : List Item

/-- All bytes of the references of a recording. -/
def Recording.footprint (recording : Recording) : Set ℕ :=
  ⋃ item ∈ recording.items, item.footprint

/-- The recorded references are those of the items; 255 is not a section. -/
structure Recording.Resolved (dylib : Dylib) (recording : Recording) : Prop where
  noSection : recording.info.toSectionIndex ≠ 255
  resolved : ∃ fromSection toSection,
    dylib.sectionEntry recording.info.fromSectionIndex = .ok fromSection ∧
      dylib.sectionEntry recording.info.toSectionIndex = .ok toSection ∧
      recording.info.recorded.mapM (fun recorded => recorded.reference fromSection toSection) =
        .ok (recording.items.flatMap Item.references)

/-- Split-seg info in which pairs are paired and no two references overlap. -/
structure WellFormed (dylib : Dylib) (recordings : List Recording) : Prop where
  resolved : ∀ recording ∈ recordings, recording.Resolved dylib
  paired : ∀ recording ∈ recordings, ∀ item ∈ recording.items, item.Paired
  apart : (recordings.flatMap Recording.items).Pairwise fun a b => Disjoint a.footprint b.footprint

/--
Every reference that referred to its target refers to the new address of its
target, and no bits outside of immediates have changed.
-/
structure Retargeted (dylib : Dylib) (recordings : List Recording) (before after : Memory) : Prop where
  refers : ∀ item ∈ recordings.flatMap Recording.items, item.Unchained dylib.context →
    item.RefersBefore dylib.context dylib.headerEntry.slide before →
      item.RefersAfter dylib.context after
  kept : ∀ item ∈ recordings.flatMap Recording.items, item.Kept before after
  frame : EqOn after before (⋃ item ∈ recordings.flatMap Recording.items, item.footprint)ᶜ

section Run

variable {dylib : Dylib} {recordings : List Recording} {buffer buffer' : Buffer}

theorem foldlM_adjustItem {context : Context} (items : List Item) (buffer : Buffer) :
    (items.flatMap Item.references).foldlM
        (fun buffer reference => adjustReference context reference buffer) buffer =
      items.foldlM (adjustItem context) buffer := by
  induction items generalizing buffer with
  | nil => rfl
  | cons item items ih =>
      rw [List.flatMap_cons, List.foldlM_append, List.foldlM_cons, adjustItem]
      exact congrArg _ (funext ih)

theorem Recording.Resolved.adjustFromToSection_eq {recording : Recording}
    (resolved : recording.Resolved dylib)
    (run : dylib.adjustFromToSection buffer recording.info = .ok buffer') :
    recording.items.foldlM (adjustItem dylib.context) { buffer with last := Last.none } =
      .ok buffer' := by
  obtain ⟨noSection, fromSection, toSection, fromEntry, toEntry, references⟩ := resolved
  rw [Dylib.adjustFromToSection, fromEntry, ok_bind, toEntry, ok_bind] at run
  split at run
  · cases run
  · rw [foldlM_of_mapM references] at run
    rw [← foldlM_adjustItem, run]

theorem WellFormed.local (wellFormed : WellFormed dylib recordings) :
    Local Buffer.memory Recording.footprint (fun _ => True)
      (fun buffer recording => dylib.adjustFromToSection buffer recording.info)
      (fun recording before after => ∀ item ∈ recording.items,
        item.Done dylib.context dylib.headerEntry.slide before after) recordings := by
  refine ⟨fun recording mem start last _ run => ?_,
    fun recording mem _ _ _ _ same same' done item itemMem => ?_⟩
  · have items := (wellFormed.resolved recording mem).adjustFromToSection_eq run
    have apart : recording.items.Pairwise fun a b => Disjoint a.footprint b.footprint :=
      (List.pairwise_flatMap.mp wellFormed.apart).1 recording mem
    obtain ⟨-, done, frame⟩ := (local_adjustItem (wellFormed.paired recording mem)).run apart
      (fun kind waits => by cases waits) items
    exact ⟨trivial, done, frame⟩
  · have inside : item.footprint ⊆ recording.footprint := fun k here =>
      mem_iUnion₂.mpr ⟨item, itemMem, here⟩
    exact (done item itemMem).congr (wellFormed.paired recording mem item itemMem)
      (same.mono inside) (same'.mono inside)

theorem WellFormed.adjusted (wellFormed : WellFormed dylib recordings)
    (run : dylib.adjustReferencesUsingInfoV2 (recordings.map Recording.info) buffer = .ok buffer') :
    (∀ item ∈ recordings.flatMap Recording.items,
        item.Done dylib.context dylib.headerEntry.slide buffer.memory buffer'.memory) ∧
      EqOn buffer'.memory buffer.memory
        (⋃ item ∈ recordings.flatMap Recording.items, item.footprint)ᶜ := by
  have apart : recordings.Pairwise fun a b => Disjoint a.footprint b.footprint := by
    refine (List.pairwise_flatMap.mp wellFormed.apart).2.imp fun across => ?_
    rw [Recording.footprint, Recording.footprint]
    simp only [disjoint_iUnion_left, disjoint_iUnion_right]
    exact fun b memB a memA => across a memA b memB
  rw [Dylib.adjustReferencesUsingInfoV2, List.foldlM_map] at run
  obtain ⟨-, done, frame⟩ := wellFormed.local.run apart trivial run
  refine ⟨fun item mem => ?_, fun k outside => frame fun inside => outside ?_⟩
  · obtain ⟨recording, isRecording, isItem⟩ := List.mem_flatMap.mp mem
    exact done recording isRecording item isItem
  · obtain ⟨recording, isRecording, inside⟩ := mem_iUnion₂.mp inside
    obtain ⟨item, isItem, inside⟩ := mem_iUnion₂.mp inside
    exact mem_iUnion₂.mpr ⟨item, List.mem_flatMap.mpr ⟨recording, isRecording, isItem⟩, inside⟩

/-- A run without an error retargets all references exactly when the new addresses suit them. -/
theorem retargeted_iff (wellFormed : WellFormed dylib recordings)
    (run : dylib.adjustReferencesUsingInfoV2 (recordings.map Recording.info) buffer = .ok buffer') :
    Retargeted dylib recordings buffer.memory buffer'.memory ↔
      ∀ item ∈ recordings.flatMap Recording.items, item.Unchained dylib.context →
        item.RefersBefore dylib.context dylib.headerEntry.slide buffer.memory →
          item.Fits dylib.context dylib.headerEntry.slide := by
  obtain ⟨done, frame⟩ := wellFormed.adjusted run
  constructor
  · intro retargeted item mem unchained before
    exact ((done item mem).2 unchained before).mp (retargeted.refers item mem unchained before)
  · intro fits
    refine ⟨fun item mem unchained before => ?_, fun item mem => (done item mem).1, frame⟩
    exact ((done item mem).2 unchained before).mpr (fits item mem unchained before)

end Run

/-! ## A dylib with a data segment -/

/-- A dylib whose segments are moved `0x20000000` bytes from each other. -/
def dataDylib : Dylib where
  firstSegment := ⟨0, 0x180000000, 0x1000, [⟨0x100, none, false⟩]⟩
  otherSegments := [⟨0x4000, 0x1A0000000, 0x8000, [⟨0x4000, none, false⟩]⟩]
  chained := none

/-- A reference from the start of a section to the offset `0x10` in the data section. -/
def toData (kind fromSectionIndex : ℕ) (reference : Reference) : Recording where
  info := ⟨fromSectionIndex, 2, [⟨0x10, [⟨kind, [0]⟩]⟩]⟩
  items := [.single reference]

def oneWord (mappedAddr : ℕ) (value32 : BitVec 32) : Buffer where
  memory := set32 (fun _ => 0) mappedAddr value32
  tracker := fun _ => ChainedFixups.Entry.empty
  lohTracker := []
  last := Last.none

theorem wellFormed_toData {kind fromSectionIndex : ℕ} {reference : Reference}
    (resolved : (toData kind fromSectionIndex reference).Resolved dataDylib)
    (alone : reference.kind.movInstructions = none) :
    WellFormed dataDylib [toData kind fromSectionIndex reference] := by
  refine ⟨fun recording mem => ?_, fun recording mem item itemMem => ?_, ?_⟩
  · obtain rfl := List.mem_singleton.mp mem
    exact resolved
  · obtain rfl := List.mem_singleton.mp mem
    obtain rfl := List.mem_singleton.mp itemMem
    exact alone
  · exact List.pairwise_singleton _ _

def textToData : Reference :=
  ⟨.delta32, 0x1100, 0x180000100, 0x1A0000010, 0x180000000, 0x19FFFC000, false⟩

theorem retargeted_textToData : ∃ buffer', dataDylib.adjustReferencesUsingInfoV2
      [(toData 0x03 1 textToData).info] (oneWord 0x1100 0x3F10) = .ok buffer' ∧
    Retargeted dataDylib [toData 0x03 1 textToData] (oneWord 0x1100 0x3F10).memory buffer'.memory := by
  have wellFormed : WellFormed dataDylib [toData 0x03 1 textToData] :=
    wellFormed_toData ⟨by decide, _, _, rfl, rfl, rfl⟩ rfl
  obtain ⟨buffer', run⟩ : ∃ buffer', dataDylib.adjustReferencesUsingInfoV2
      [(toData 0x03 1 textToData).info] (oneWord 0x1100 0x3F10) = .ok buffer' := ⟨_, rfl⟩
  have fits : textToData.Fits dataDylib.context.imageStartAddress dataDylib.headerEntry.slide := by
    decide +kernel
  refine ⟨buffer', run, (retargeted_iff wellFormed run).mpr fun item mem _ _ => ?_⟩
  obtain rfl := List.mem_singleton.mp mem
  exact fits

/-- An image offset from the data to the data, with the mach_header elsewhere. -/
def dataToData : Reference :=
  ⟨.imageOff32, 0x8000, 0x1A0000000, 0x1A0000010, 0x19FFFC000, 0x19FFFC000, false⟩

theorem not_retargeted_dataToData : ∃ buffer', dataDylib.adjustReferencesUsingInfoV2
      [(toData 0x0C 2 dataToData).info] (oneWord 0x8000 0x4010) = .ok buffer' ∧
    WellFormed dataDylib [toData 0x0C 2 dataToData] ∧
    ¬ Retargeted dataDylib [toData 0x0C 2 dataToData] (oneWord 0x8000 0x4010).memory
      buffer'.memory := by
  have wellFormed : WellFormed dataDylib [toData 0x0C 2 dataToData] :=
    wellFormed_toData ⟨by decide, _, _, rfl, rfl, rfl⟩ rfl
  obtain ⟨buffer', run⟩ : ∃ buffer', dataDylib.adjustReferencesUsingInfoV2
      [(toData 0x0C 2 dataToData).info] (oneWord 0x8000 0x4010) = .ok buffer' := ⟨_, rfl⟩
  refine ⟨buffer', run, wellFormed, fun retargeted => ?_⟩
  have mem : Item.single dataToData ∈ [toData 0x0C 2 dataToData].flatMap Recording.items :=
    List.mem_singleton_self _
  have before : (Item.single dataToData).RefersBefore dataDylib.context dataDylib.headerEntry.slide
      (oneWord 0x8000 0x4010).memory := by
    simp only [Item.RefersBefore, RefersTo, dataToData, oneWord, get32_set32]
    decide +kernel
  have unchained : (Item.single dataToData).Unchained dataDylib.context := fun _ => rfl
  have fits : dataToData.Fits dataDylib.context.imageStartAddress dataDylib.headerEntry.slide :=
    (((wellFormed.adjusted run).1 _ mem).2 unchained before).mp
      (retargeted.refers _ mem unchained before)
  exact absurd fits (by decide +kernel)

end ObjcDyld.SplitSeg
