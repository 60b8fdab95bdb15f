import ObjcDyld.ChainedFixups.Adjustor

/-!
# Chained rebases in the cache

A rebase that the Adjustor moved by a slide is resolved to its target plus that
slide, whichever way the target travelled.  The pointers of the split-seg info
are moved by the slide of their target's segment; the chains are moved by the
slide and the target once more.
-/

namespace ObjcDyld.ChainedFixups

open ByteMemory Loops

/-! ## One rebase -/

namespace Format

/-- Whether a word of a chain is a rebase. -/
def IsRebase (format : Format) (raw64 : BitVec 64) : Prop :=
  match format with
  | .arm64e => (Arm64eAuthRebase.view raw64).bind = 0
  | .ptr64 => (Generic64Rebase.view raw64).bind = 0

instance (format : Format) (raw64 : BitVec 64) : Decidable (format.IsRebase raw64) := by
  unfold IsRebase
  cases format <;> infer_instance

/-- The original target of a rebase; authenticated targets are offsets in the image. -/
def targetVMAddr (format : Format) (segOrigStart raw64 : BitVec 64) : BitVec 64 :=
  match format with
  | .arm64e =>
      if (Arm64eAuthRebase.view raw64).auth = 1 then
        (Arm64eAuthRebase.view raw64).target.setWidth 64 + segOrigStart
      else (Arm64eRebase.view raw64).target.setWidth 64
  | .ptr64 => (Generic64Rebase.view raw64).target.setWidth 64

def high8 (format : Format) (raw64 : BitVec 64) : Option (BitVec 8) :=
  let stored (high8 : BitVec 8) := if high8 ≠ 0 then some high8 else none
  match format with
  | .arm64e =>
      if (Arm64eAuthRebase.view raw64).auth = 1 then none
      else stored (Arm64eRebase.view raw64).high8
  | .ptr64 => stored (Generic64Rebase.view raw64).high8

def authData (format : Format) (raw64 : BitVec 64) : Option AuthData :=
  match format with
  | .arm64e =>
      let auth := Arm64eAuthRebase.view raw64
      if auth.auth = 1 then some ⟨auth.diversity, auth.addrDiv, auth.key⟩ else none
  | .ptr64 => none

end Format

/-- A cell that is moved: the chain stays, and the builder finds `target` in it. -/
structure Moved (builder : CacheBuilder) (format : Format) (before after : Cell)
    (target : BitVec 64) : Prop where
  next : format.next after.raw64 = format.next before.raw64
  rebase : format.IsRebase after.raw64
  resolves : ∃ entry, builder.chainedBind format after = builder.checkPointer ⟨target, entry⟩ ∧
    entry.added = true ∧ entry.high8 = format.high8 before.raw64 ∧
    entry.authData = format.authData before.raw64

section Convert

variable {builder : CacheBuilder} {cell : Cell} {targetSlide : BitVec 64}

theorem storeHigh8_high8 {high8 : BitVec 8} {entry : Entry} (fresh : entry.high8 = none) :
    (CacheBuilder.storeHigh8 high8 entry).high8 = if high8 ≠ 0 then some high8 else none := by
  rw [CacheBuilder.storeHigh8]
  split <;> simp_all

theorem storeHigh8_authData (high8 : BitVec 8) (entry : Entry) :
    (CacheBuilder.storeHigh8 high8 entry).authData = entry.authData := by
  rw [CacheBuilder.storeHigh8]
  split <;> rfl

theorem storeHigh8_added (high8 : BitVec 8) (entry : Entry) :
    (CacheBuilder.storeHigh8 high8 entry).added = entry.added := by
  rw [CacheBuilder.storeHigh8]
  split <;> rfl

theorem chainedBind_ptr64 {pointer : Generic64Rebase} (rebase : pointer.bind = 0) {entry : Entry}
    {target : BitVec 64}
    (found : (if pointer.target.setWidth 64 = kRebaseTargetInSideTableArm64 then
      entry.rebaseTarget64.getD (pointer.target.setWidth 64) else pointer.target.setWidth 64) = target) :
    builder.chainedBind .ptr64 ⟨pointer.raw64, entry⟩ =
      builder.checkPointer ⟨target, CacheBuilder.storeHigh8 pointer.high8 entry⟩ := by
  have noBind : (0 : BitVec 1) ≠ 1 := by decide
  simp only [CacheBuilder.chainedBind, Generic64Rebase.view_raw64, rebase, if_neg noBind, found]

theorem chainedBind_plain {pointer : Arm64eRebase} (rebase : pointer.bind = 0)
    (plain : pointer.auth ≠ 1) {entry : Entry} {target : BitVec 64}
    (found : (if pointer.target.setWidth 64 = kRebaseTargetInSideTableArm64e then
      entry.rebaseTarget64.getD (pointer.target.setWidth 64) else pointer.target.setWidth 64) = target) :
    builder.chainedBind .arm64e ⟨pointer.raw64, entry⟩ =
      builder.checkPointer ⟨target, CacheBuilder.storeHigh8 pointer.high8 entry⟩ := by
  have noBind : (0 : BitVec 1) ≠ 1 := by decide
  have views := Arm64eRebase.view_next pointer.raw64
  rw [Arm64eRebase.view_raw64] at views
  simp only [CacheBuilder.chainedBind, Arm64eRebase.view_raw64, ← views.2.1, ← views.2.2, rebase,
    if_neg noBind, if_neg plain, found]

theorem Moved.ptr64 {pointer : Generic64Rebase} {entry : Entry} {target : BitVec 64}
    (next : pointer.next = (Generic64Rebase.view cell.raw64).next) (rebase : pointer.bind = 0)
    (high8 : pointer.high8 = (Generic64Rebase.view cell.raw64).high8) (added : entry.added = true)
    (noHigh8 : entry.high8 = none) (noAuth : entry.authData = none)
    (found : (if pointer.target.setWidth 64 = kRebaseTargetInSideTableArm64 then
      entry.rebaseTarget64.getD (pointer.target.setWidth 64) else pointer.target.setWidth 64) = target) :
    Moved builder .ptr64 cell ⟨pointer.raw64, entry⟩ target := by
  refine ⟨?_, ?_, _, chainedBind_ptr64 rebase found, ?_, ?_, ?_⟩
  · simp only [Format.next, Generic64Rebase.view_raw64, next]
  · simp only [Format.IsRebase, Generic64Rebase.view_raw64, rebase]
  · rw [storeHigh8_added, added]
  · rw [storeHigh8_high8 noHigh8, high8]
    rfl
  · rw [storeHigh8_authData, noAuth]
    rfl

theorem moved_ptr64 (fresh : cell.entry = Entry.empty) (rebase : Format.ptr64.IsRebase cell.raw64)
    (targetSlide segOrigStart : BitVec 64) :
    Moved builder .ptr64 cell (convertGeneric64RebaseToIntermediate targetSlide cell).add
      (Format.ptr64.targetVMAddr segOrigStart cell.raw64 + targetSlide) := by
  have noHigh8 : cell.entry.high8 = none := by rw [fresh]; rfl
  have noAuth : cell.entry.authData = none := by rw [fresh]; rfl
  have noTarget : cell.entry.rebaseTarget64 = none := by rw [fresh]; rfl
  rw [convertGeneric64RebaseToIntermediate]
  by_cases fits : (((Generic64Rebase.view cell.raw64).target.setWidth 64 + targetSlide).setWidth
      36).setWidth 64 = (Generic64Rebase.view cell.raw64).target.setWidth 64 + targetSlide
  · simp only [if_pos fits, Cell.add]
    refine Moved.ptr64 rfl rebase rfl rfl noHigh8 noAuth ?_
    simp only [fits, noTarget, Option.getD_none, ite_self, Format.targetVMAddr]
  · have magic : (kRebaseTargetInSideTableArm64.setWidth 36).setWidth 64 =
        kRebaseTargetInSideTableArm64 := by decide
    simp only [if_neg fits, Cell.add]
    refine Moved.ptr64 rfl rebase rfl rfl noHigh8 noAuth ?_
    simp only [magic, if_true, Option.getD_some, Format.targetVMAddr]

theorem Moved.plain {pointer : Arm64eRebase} {entry : Entry} {target : BitVec 64}
    (next : pointer.next = (Arm64eRebase.view cell.raw64).next) (rebase : pointer.bind = 0)
    (plain : pointer.auth ≠ 1)
    (high8 : (if pointer.high8 ≠ 0 then some pointer.high8 else none) =
      Format.arm64e.high8 cell.raw64) (added : entry.added = true)
    (noHigh8 : entry.high8 = none) (authData : entry.authData = Format.arm64e.authData cell.raw64)
    (found : (if pointer.target.setWidth 64 = kRebaseTargetInSideTableArm64e then
      entry.rebaseTarget64.getD (pointer.target.setWidth 64) else pointer.target.setWidth 64) = target) :
    Moved builder .arm64e cell ⟨pointer.raw64, entry⟩ target := by
  refine ⟨?_, ?_, _, chainedBind_plain rebase plain found, ?_, ?_, ?_⟩
  · simp only [Format.next, Arm64eRebase.view_raw64, next]
  · have views := (Arm64eRebase.view_next pointer.raw64).2.1
    rw [Arm64eRebase.view_raw64] at views
    simp only [Format.IsRebase, ← views, rebase]
  · rw [storeHigh8_added, added]
  · rw [storeHigh8_high8 noHigh8, high8]
  · rw [storeHigh8_authData, authData]

theorem Moved.authenticated {pointer : Arm64eAuthRebase} {entry : Entry} {target : BitVec 64}
    (next : pointer.next = (Arm64eAuthRebase.view cell.raw64).next) (rebase : pointer.bind = 0)
    (auth : pointer.auth = 1)
    (authData : some ⟨pointer.diversity, pointer.addrDiv, pointer.key⟩ =
      Format.arm64e.authData cell.raw64)
    (high8 : none = Format.arm64e.high8 cell.raw64) (added : entry.added = true)
    (noHigh8 : entry.high8 = none) (found : pointer.target.setWidth 64 = target) :
    Moved builder .arm64e cell ⟨pointer.raw64, entry⟩ target := by
  have noBind : (0 : BitVec 1) ≠ 1 := by decide
  refine ⟨?_, ?_, { entry with authData := some ⟨pointer.diversity, pointer.addrDiv, pointer.key⟩ },
    ?_, added, noHigh8.trans high8, authData⟩
  · simp only [Format.next, (Arm64eRebase.view_next _).1, Arm64eAuthRebase.view_raw64, next]
  · simp only [Format.IsRebase, Arm64eAuthRebase.view_raw64, rebase]
  · simp only [CacheBuilder.chainedBind, Arm64eAuthRebase.view_raw64, rebase, if_neg noBind, auth,
      if_true, found]

theorem moved_arm64e (builder : CacheBuilder) (segOrigStart : BitVec 64) (fresh : cell.entry = Entry.empty)
    (rebase : Format.arm64e.IsRebase cell.raw64) (targetSlide : BitVec 64) :
    ∃ cell', convertArm64eRebaseToIntermediate segOrigStart targetSlide cell = .ok cell' ∧
      Moved builder .arm64e cell cell'.add
        (Format.arm64e.targetVMAddr segOrigStart cell.raw64 + targetSlide) := by
  have bind : (Arm64eAuthRebase.view cell.raw64).bind = 0 := rebase
  have noHigh8 : cell.entry.high8 = none := by rw [fresh]; rfl
  have noAuth : cell.entry.authData = none := by rw [fresh]; rfl
  have noTarget : cell.entry.rebaseTarget64 = none := by rw [fresh]; rfl
  have notAuth : (0 : BitVec 1) ≠ 1 := by decide
  have magic : (kRebaseTargetInSideTableArm64e.setWidth 43).setWidth 64 =
      kRebaseTargetInSideTableArm64e := by decide
  rw [convertArm64eRebaseToIntermediate]
  simp only [bind, ne_eq, not_true_eq_false, if_false]
  by_cases auth : (Arm64eAuthRebase.view cell.raw64).auth = 1
  · have isAuth : Format.arm64e.authData cell.raw64 = some ⟨(Arm64eAuthRebase.view cell.raw64).diversity,
        (Arm64eAuthRebase.view cell.raw64).addrDiv, (Arm64eAuthRebase.view cell.raw64).key⟩ := if_pos auth
    have noTag : none = Format.arm64e.high8 cell.raw64 := (if_pos auth).symm
    simp only [if_pos auth, Format.targetVMAddr]
    generalize target_eq : (Arm64eAuthRebase.view cell.raw64).target.setWidth 64 +
      segOrigStart + targetSlide = target
    by_cases fits32 : (target.setWidth 32).setWidth 64 = target
    · refine ⟨_, if_pos fits32, ?_⟩
      exact Moved.authenticated rfl rfl auth isAuth.symm noTag rfl noHigh8 fits32
    · by_cases fits43 : (target.setWidth 43).setWidth 64 = target
      · refine ⟨_, (if_neg fits32).trans (if_pos fits43), ?_⟩
        refine Moved.plain rfl rfl notAuth noTag rfl noHigh8 isAuth.symm ?_
        simp only [fits43, noTarget, Option.getD_none, ite_self]
      · refine ⟨_, (if_neg fits32).trans (if_neg fits43), ?_⟩
        refine Moved.plain rfl rfl notAuth noTag rfl noHigh8 isAuth.symm ?_
        simp only [magic, if_true, Option.getD_some]
  · have isPlain : none = Format.arm64e.authData cell.raw64 := (if_neg auth).symm
    have tag : (if (Arm64eRebase.view cell.raw64).high8 ≠ 0 then
        some (Arm64eRebase.view cell.raw64).high8 else none) = Format.arm64e.high8 cell.raw64 :=
      (if_neg auth).symm
    simp only [if_neg auth, Format.targetVMAddr]
    by_cases fits : (((Arm64eRebase.view cell.raw64).target.setWidth 64 + targetSlide).setWidth
        43).setWidth 64 = (Arm64eRebase.view cell.raw64).target.setWidth 64 + targetSlide
    · refine ⟨_, if_pos fits, ?_⟩
      refine Moved.plain rfl bind auth tag rfl noHigh8 (noAuth.trans isPlain) ?_
      simp only [fits, noTarget, Option.getD_none, ite_self]
    · refine ⟨_, if_neg fits, ?_⟩
      refine Moved.plain rfl bind auth tag rfl noHigh8 (noAuth.trans isPlain) ?_
      simp only [magic, if_true, Option.getD_some]

end Convert

/-! ## A dylib -/

section Dylib

variable {adjustor : Adjustor} {builder : CacheBuilder} {splitSegInfo : Adjustor.SplitSegInfo}
  {state : State} {locs : List ℕ}

def Adjustor.target (adjustor : Adjustor) (state : State) (location : ℕ) : BitVec 64 :=
  adjustor.image.format.targetVMAddr adjustor.segOrigStart (state.cell location).raw64

/--
A dylib in the cache: its fixups do not overlap and are new to the tracker, its
rebases have targets in its segments, its binds can be resolved, and split-seg
info, if there is any, has every rebase once, with the slide of its target.
-/
structure WellFormed (adjustor : Adjustor) (builder : CacheBuilder)
    (splitSegInfo : Adjustor.SplitSegInfo) (state : State) (locs : List ℕ) : Prop where
  walked : adjustor.image.locations state.memory = .ok locs
  apart : locs.Pairwise Apart
  fresh : ∀ location ∈ locs, state.tracker location = Entry.empty
  targets : ∀ location ∈ locs, adjustor.image.format.IsRebase (state.cell location).raw64 →
    ∃ slide, adjustor.slideForOrigAddress (adjustor.target state location) = .ok slide ∧
      builder.base < adjustor.target state location + slide ∧
      adjustor.target state location + slide < builder.limit
  binds : ∀ location ∈ locs, ¬ adjustor.image.format.IsRebase (state.cell location).raw64 →
    ∃ cell, builder.chainedBind adjustor.image.format (state.cell location) = .ok cell
  references : ∀ references, splitSegInfo = .version2 references →
    (references.map Adjustor.Reference.location).Nodup ∧
      (∀ reference ∈ references, reference.location ∈ locs) ∧
      ∀ location ∈ locs, adjustor.image.format.IsRebase (state.cell location).raw64 →
        ∃ reference ∈ references, reference.location = location ∧
          adjustor.slideForOrigAddress (adjustor.target state location) =
            .ok reference.toSectionSlide

/-- What the Adjustor leaves alone at a location. -/
structure ChainKept (format : Format) (before adjusted : Cell) : Prop where
  next : format.next adjusted.raw64 = format.next before.raw64
  bind : ¬ format.IsRebase before.raw64 → adjusted = before

/-- A rebase in the cache: the target with its slide, and what the tracker has of it. -/
structure ResolvedTo (format : Format) (before resolved : Cell) (target : BitVec 64) : Prop where
  raw64 : resolved.raw64 = target
  added : resolved.entry.added = true
  high8 : resolved.entry.high8 = format.high8 before.raw64
  authData : resolved.entry.authData = format.authData before.raw64

/--
The Adjustor reports an error, or it keeps the chains and the binds and the
builder resolves every rebase to its target plus the slide of the target's segment.
-/
def Survives (adjustor : Adjustor) (builder : CacheBuilder)
    (splitSegInfo : Adjustor.SplitSegInfo) (state : State) (locs : List ℕ) : Prop :=
  (∃ failure, adjustor.adjustRebases splitSegInfo state = .error failure ∧
      failure.reported = true) ∨
    ∃ adjusted resolved, adjustor.adjustRebases splitSegInfo state = .ok adjusted ∧
      builder.bindImage adjustor.image adjusted = .ok resolved ∧
      ∀ location ∈ locs,
        ChainKept adjustor.image.format (state.cell location) (adjusted.cell location) ∧
          (adjustor.image.format.IsRebase (state.cell location).raw64 → ∃ slide,
            adjustor.slideForOrigAddress (adjustor.target state location) = .ok slide ∧
              ResolvedTo adjustor.image.format (state.cell location) (resolved.cell location)
                (adjustor.target state location + slide))

/-- What the Adjustor did to the locations: rebases were moved to `moved`, binds are as they were. -/
def Adjusted (adjustor : Adjustor) (builder : CacheBuilder) (state adjusted : State)
    (locs : List ℕ) (moved : ℕ → BitVec 64) : Prop :=
  ∀ location ∈ locs,
    (adjustor.image.format.IsRebase (state.cell location).raw64 →
      Moved builder adjustor.image.format (state.cell location) (adjusted.cell location)
        (moved location)) ∧
    (¬ adjustor.image.format.IsRebase (state.cell location).raw64 →
      adjusted.cell location = state.cell location)

namespace Adjusted

variable {adjusted : State} {moved : ℕ → BitVec 64}

theorem kept (all : Adjusted adjustor builder state adjusted locs moved) {location : ℕ}
    (mem : location ∈ locs) :
    ChainKept adjustor.image.format (state.cell location) (adjusted.cell location) := by
  obtain ⟨rebase, bind⟩ := all location mem
  refine ⟨?_, bind⟩
  by_cases isRebase : adjustor.image.format.IsRebase (state.cell location).raw64
  · exact (rebase isRebase).next
  · rw [bind isRebase]

theorem bindImage_eq (all : Adjusted adjustor builder state adjusted locs moved)
    (wellFormed : WellFormed adjustor builder splitSegInfo state locs) :
    builder.bindImage adjustor.image adjusted =
      locs.foldlM (onCell (builder.chainedBind adjustor.image.format)) adjusted :=
  Image.forEach_eq (Image.locations_congr wellFormed.walked fun _ mem => (all.kept mem).next)
    wellFormed.apart

theorem survives (all : Adjusted adjustor builder state adjusted locs moved)
    (wellFormed : WellFormed adjustor builder splitSegInfo state locs)
    (run : adjustor.adjustRebases splitSegInfo state = .ok adjusted)
    (right : ∀ location ∈ locs, adjustor.image.format.IsRebase (state.cell location).raw64 →
      ∀ slide, adjustor.slideForOrigAddress (adjustor.target state location) = .ok slide →
        moved location = adjustor.target state location + slide) :
    Survives adjustor builder splitSegInfo state locs := by
  have total : ∀ location ∈ locs, ∃ cell,
      builder.chainedBind adjustor.image.format (adjusted.cell location) = .ok cell := by
    intro location mem
    obtain ⟨rebase, bind⟩ := all location mem
    by_cases isRebase : adjustor.image.format.IsRebase (state.cell location).raw64
    · obtain ⟨entry, resolves, -⟩ := (rebase isRebase).resolves
      obtain ⟨slide, known, above, below⟩ := wellFormed.targets location mem isRebase
      rw [right location mem isRebase slide known] at resolves
      exact ⟨_, resolves.trans (if_pos ⟨above, below⟩)⟩
    · rw [bind isRebase]
      exact wellFormed.binds location mem isRebase
  obtain ⟨resolved, bound⟩ := exists_foldlM_onCellOf wellFormed.apart total
  refine Or.inr ⟨adjusted, resolved, run, (all.bindImage_eq wellFormed).trans bound, ?_⟩
  intro location mem
  refine ⟨all.kept mem, fun isRebase => ?_⟩
  have handled := (foldlM_onCellOf_ok wellFormed.apart bound).1 location mem
  obtain ⟨entry, resolves, added, high8, authData⟩ := ((all location mem).1 isRebase).resolves
  obtain ⟨slide, known, above, below⟩ := wellFormed.targets location mem isRebase
  rw [right location mem isRebase slide known] at resolves
  have cell := Except.ok.inj (handled.symm.trans (resolves.trans (if_pos ⟨above, below⟩)))
  refine ⟨slide, known, ?_⟩
  rw [show resolved.cell location = _ from cell]
  exact ⟨rfl, added, high8, authData⟩

end Adjusted

theorem adjustPointer64_spec (builder : CacheBuilder) (format : Format) (segOrigStart : BitVec 64)
    {cell : Cell} (fresh : cell.entry = Entry.empty) (targetSlide : BitVec 64) :
    ∃ cell', adjustPointer64 format segOrigStart targetSlide cell = .ok cell' ∧
      (format.IsRebase cell.raw64 → Moved builder format cell cell'
        (format.targetVMAddr segOrigStart cell.raw64 + targetSlide)) ∧
      (¬ format.IsRebase cell.raw64 → cell' = cell) := by
  unfold adjustPointer64
  cases format with
  | arm64e =>
      by_cases rebase : (Arm64eAuthRebase.view cell.raw64).bind = 0
      · obtain ⟨cell', run, moved⟩ := moved_arm64e builder segOrigStart fresh rebase targetSlide
        simp only [if_pos rebase, run, ok_bind]
        exact ⟨_, rfl, fun _ => moved, fun bind => absurd rebase bind⟩
      · exact ⟨cell, if_neg rebase, fun isRebase => absurd isRebase rebase, fun _ => rfl⟩
  | ptr64 =>
      by_cases rebase : (Generic64Rebase.view cell.raw64).bind = 0
      · exact ⟨_, if_pos rebase, fun _ => moved_ptr64 fresh rebase targetSlide _,
          fun bind => absurd rebase bind⟩
      · exact ⟨cell, if_neg rebase, fun isRebase => absurd isRebase rebase, fun _ => rfl⟩

theorem WellFormed.apart_of_ne (wellFormed : WellFormed adjustor builder splitSegInfo state locs)
    {a b : ℕ} (memA : a ∈ locs) (memB : b ∈ locs) (ne : a ≠ b) : Apart a b :=
  wellFormed.apart.forall memA memB ne

theorem adjustReferences_survives {references : List Adjustor.Reference}
    (wellFormed : WellFormed adjustor builder (.version2 references) state locs) :
    Survives adjustor builder (.version2 references) state locs := by
  obtain ⟨nodup, inside, covers⟩ := wellFormed.references references rfl
  have apart : references.Pairwise fun a b => Apart a.location b.location :=
    (List.pairwise_map.mp nodup).imp_of_mem fun memA memB ne =>
      wellFormed.apart_of_ne (inside _ memA) (inside _ memB) ne
  have fresh : ∀ location ∈ locs, (state.cell location).entry = Entry.empty := wellFormed.fresh
  have total : ∀ reference ∈ references, ∃ cell,
      adjustPointer64 adjustor.image.format adjustor.segOrigStart reference.toSectionSlide
        (state.cell reference.location) = .ok cell := by
    intro reference mem
    obtain ⟨cell, handled, -⟩ := adjustPointer64_spec builder _ adjustor.segOrigStart
      (fresh _ (inside reference mem)) reference.toSectionSlide
    exact ⟨cell, handled⟩
  obtain ⟨adjusted, run⟩ := exists_foldlM_onCellOf apart total
  obtain ⟨handled, frame⟩ := foldlM_onCellOf_ok apart run
  have spec : ∀ reference ∈ references,
      (adjustor.image.format.IsRebase (state.cell reference.location).raw64 →
        Moved builder adjustor.image.format (state.cell reference.location)
          (adjusted.cell reference.location)
          (adjustor.target state reference.location + reference.toSectionSlide)) ∧
      (¬ adjustor.image.format.IsRebase (state.cell reference.location).raw64 →
        adjusted.cell reference.location = state.cell reference.location) := by
    intro reference mem
    obtain ⟨cell, run, moved⟩ := adjustPointer64_spec builder _ adjustor.segOrigStart
      (fresh _ (inside reference mem)) reference.toSectionSlide
    obtain rfl := Except.ok.inj ((handled reference mem).symm.trans run)
    exact moved
  -- The slide of a target, which the split-seg info has right.
  let moved (location : ℕ) : BitVec 64 := adjustor.target state location +
    match adjustor.slideForOrigAddress (adjustor.target state location) with
    | .ok slide => slide
    | .error _ => 0
  have all : Adjusted adjustor builder state adjusted locs moved := by
    intro location mem
    refine ⟨fun rebase => ?_, fun bind => ?_⟩
    · obtain ⟨reference, isReference, rfl, known⟩ := covers location mem rebase
      have value : moved reference.location =
          adjustor.target state reference.location + reference.toSectionSlide := by
        simp only [moved, known]
      rw [value]
      exact (spec reference isReference).1 rebase
    · by_cases named : ∃ reference ∈ references, reference.location = location
      · obtain ⟨reference, isReference, rfl⟩ := named
        exact (spec reference isReference).2 bind
      · refine frame location fun reference isReference => ?_
        exact wellFormed.apart_of_ne (inside reference isReference) mem fun same =>
          named ⟨reference, isReference, same⟩
  refine all.survives wellFormed run fun location mem rebase slide known => ?_
  simp only [moved, known]

theorem adjustRebaseChains_adjusted (format : adjustor.image.format = .ptr64)
    (wellFormed : WellFormed adjustor builder splitSegInfo state locs) :
    ∃ adjusted, adjustor.adjustRebaseChains state = .ok adjusted ∧
      ∃ moved, Adjusted adjustor builder state adjusted locs moved ∧
        ∀ location ∈ locs, adjustor.image.format.IsRebase (state.cell location).raw64 →
          ∀ slide, adjustor.slideForOrigAddress (adjustor.target state location) = .ok slide →
            moved location = adjustor.target state location +
              (adjustor.target state location + slide) := by
  let moved (location : ℕ) : BitVec 64 := adjustor.target state location +
    (adjustor.target state location +
      match adjustor.slideForOrigAddress (adjustor.target state location) with
      | .ok slide => slide
      | .error _ => 0)
  have spec : ∀ location ∈ locs, ∃ cell,
      adjustor.adjustRebase (state.cell location) = .ok cell ∧
        (adjustor.image.format.IsRebase (state.cell location).raw64 →
          Moved builder adjustor.image.format (state.cell location) cell (moved location)) ∧
        (¬ adjustor.image.format.IsRebase (state.cell location).raw64 →
          cell = state.cell location) := by
    intro location mem
    have fresh : (state.cell location).entry = Entry.empty := wellFormed.fresh location mem
    have targets := wellFormed.targets location mem
    simp only [moved, Adjustor.target, Adjustor.adjustRebase]
    rw [Adjustor.target] at targets
    rw [format] at targets ⊢
    by_cases rebase : (Generic64Rebase.view (state.cell location).raw64).bind = 0
    · obtain ⟨slide, known, -⟩ := targets rebase
      rw [Format.targetVMAddr] at known
      simp only [if_pos rebase, known, ok_bind, Format.targetVMAddr]
      exact ⟨_, rfl, fun _ => moved_ptr64 fresh rebase _ 0, fun bind => absurd rebase bind⟩
    · exact ⟨_, if_neg rebase, fun isRebase => absurd isRebase rebase, fun _ => rfl⟩
  obtain ⟨adjusted, run⟩ := exists_foldlM_onCellOf wellFormed.apart
    (fun location mem => (spec location mem).imp fun cell facts => facts.1)
  have handled := (foldlM_onCellOf_ok wellFormed.apart run).1
  refine ⟨adjusted, (Image.forEach_eq wellFormed.walked wellFormed.apart).trans run, moved,
    fun location mem => ?_, fun location mem rebase slide known => ?_⟩
  · obtain ⟨cell, runs, facts⟩ := spec location mem
    obtain rfl := Except.ok.inj ((handled location mem).symm.trans runs)
    exact facts
  · simp only [moved, known]

theorem add_self_eq_iff {target slide : BitVec 64} :
    target + (target + slide) = target + slide ↔ target = 0 := by
  rw [add_right_inj]
  exact add_eq_right

theorem adjustRebaseChains_arm64e (format : adjustor.image.format = .arm64e)
    (wellFormed : WellFormed adjustor builder .version1 state locs) :
    Survives adjustor builder .version1 state locs := by
  have chains : adjustor.adjustRebaseChains state =
      locs.foldlM (onCell adjustor.adjustRebase) state :=
    Image.forEach_eq wellFormed.walked wellFormed.apart
  cases locs with
  | nil =>
      have bound : builder.bindImage adjustor.image state = .ok state :=
        Image.forEach_eq wellFormed.walked List.Pairwise.nil
      exact Or.inr ⟨state, state, chains, bound, by simp⟩
  | cons first rest =>
      refine Or.inl ⟨.unsupportedFormat, ?_, rfl⟩
      rw [Adjustor.adjustRebases, chains, List.foldlM_cons]
      have refused : adjustor.adjustRebase (state.cell first) = .error .unsupportedFormat := by
        rw [Adjustor.adjustRebase, format]
      rw [onCell, onCellOf, id_eq, refused, error_bind, error_bind]

theorem Adjusted.resolved_eq {adjusted resolved : State} {moved : ℕ → BitVec 64} {location : ℕ}
    (all : Adjusted adjustor builder state adjusted locs moved)
    (wellFormed : WellFormed adjustor builder splitSegInfo state locs)
    (bound : builder.bindImage adjustor.image adjusted = .ok resolved) (mem : location ∈ locs)
    (rebase : adjustor.image.format.IsRebase (state.cell location).raw64) :
    (resolved.cell location).raw64 = moved location := by
  rw [all.bindImage_eq wellFormed] at bound
  have handled := (foldlM_onCellOf_ok wellFormed.apart bound).1 location mem
  obtain ⟨entry, resolves, -⟩ := ((all location mem).1 rebase).resolves
  have checked := resolves.symm.trans handled
  rw [CacheBuilder.checkPointer] at checked
  split at checked
  · exact congrArg Cell.raw64 (Except.ok.inj checked).symm
  · cases checked

theorem survives_chains_iff (format : adjustor.image.format = .ptr64)
    (wellFormed : WellFormed adjustor builder .version1 state locs) :
    Survives adjustor builder .version1 state locs ↔
      ∀ location ∈ locs, adjustor.image.format.IsRebase (state.cell location).raw64 →
        adjustor.target state location = 0 := by
  obtain ⟨adjusted, run, moved, all, doubled⟩ := adjustRebaseChains_adjusted format wellFormed
  constructor
  · rintro (⟨failure, failed, -⟩ | ⟨adjusted', resolved, run', bound, survives⟩)
    · cases run.symm.trans failed
    · obtain rfl := Except.ok.inj (run.symm.trans run')
      intro location mem rebase
      obtain ⟨slide, known, resolved⟩ := (survives location mem).2 rebase
      rw [← add_self_eq_iff, ← doubled location mem rebase slide known,
        ← all.resolved_eq wellFormed bound mem rebase]
      exact resolved.raw64
  · intro zeros
    refine all.survives wellFormed run fun location mem rebase slide known => ?_
    rw [doubled location mem rebase slide known]
    exact add_self_eq_iff.mpr (zeros location mem rebase)

/--
A dylib with chained fixups survives the move into the cache exactly when its
split-seg info is not of version 1, or it has authenticated pointers, which are
an error then, or all its rebases point to the address zero.
-/
theorem survives_iff (wellFormed : WellFormed adjustor builder splitSegInfo state locs) :
    Survives adjustor builder splitSegInfo state locs ↔
      splitSegInfo ≠ .version1 ∨ adjustor.image.format = .arm64e ∨
        ∀ location ∈ locs, adjustor.image.format.IsRebase (state.cell location).raw64 →
          adjustor.target state location = 0 := by
  cases splitSegInfo with
  | missing => exact iff_of_true (Or.inl ⟨.missingSplitSegInfo, rfl, rfl⟩) (Or.inl nofun)
  | version2 references =>
      exact iff_of_true (adjustReferences_survives wellFormed) (Or.inl nofun)
  | version1 =>
      cases format : adjustor.image.format with
      | arm64e =>
          exact iff_of_true (adjustRebaseChains_arm64e format wellFormed) (Or.inr (Or.inl rfl))
      | ptr64 =>
          have plain : ¬ Format.ptr64 = Format.arm64e := by decide
          rw [survives_chains_iff format wellFormed, format, or_iff_right (not_not_intro rfl),
            or_iff_right plain]

end Dylib

/-! ## A dylib with one pointer -/

/-- A dylib at `0x4000` that goes to `0x180004000`. -/
def onePointerDylib : Adjustor where
  firstSegment := ⟨0x4000, 0x1000, 0x180004000⟩
  otherSegments := []
  maskPointers := false
  image := ⟨.ptr64, [⟨16, 0x1000, 1, [0]⟩], 1⟩

/-- Its only rebase has the target `0x4010`. -/
def onePointer : State where
  memory := set64 (fun _ => 0) 16 0x4010
  tracker := fun _ => Entry.empty

def onePointerBuilder : CacheBuilder := ⟨0x180000000, 0x180000000, 0x190000000, []⟩

theorem wellFormed_onePointer {splitSegInfo : Adjustor.SplitSegInfo}
    (info : ∀ references, splitSegInfo = .version2 references → references = [⟨16, 0x180000000⟩]) :
    WellFormed onePointerDylib onePointerBuilder splitSegInfo onePointer [16] := by
  have slide : onePointerDylib.slideForOrigAddress (onePointerDylib.target onePointer 16) =
      .ok 0x180000000 := by decide +kernel
  refine ⟨by decide +kernel, List.pairwise_singleton _ _, fun _ _ => rfl, fun location mem _ => ?_,
    fun location mem bind => ?_, fun references known => ?_⟩
  · obtain rfl := List.mem_singleton.mp mem
    exact ⟨_, slide, by decide +kernel, by decide +kernel⟩
  · obtain rfl := List.mem_singleton.mp mem
    exact absurd (by decide +kernel) bind
  · obtain rfl := info references known
    refine ⟨by decide, by simp, fun location mem _ => ?_⟩
    obtain rfl := List.mem_singleton.mp mem
    exact ⟨_, List.mem_singleton_self _, rfl, slide⟩

/-- With split-seg info of version 2 the pointer is right. -/
theorem survives_onePointer :
    Survives onePointerDylib onePointerBuilder (.version2 [⟨16, 0x180000000⟩]) onePointer [16] :=
  (survives_iff (wellFormed_onePointer fun _ known =>
    (Adjustor.SplitSegInfo.version2.inj known).symm)).mpr (Or.inl nofun)

/-- With version 1 it points `0x4010` bytes too far. -/
theorem not_survives_onePointer :
    WellFormed onePointerDylib onePointerBuilder .version1 onePointer [16] ∧
      ¬ Survives onePointerDylib onePointerBuilder .version1 onePointer [16] := by
  have wellFormed : WellFormed onePointerDylib onePointerBuilder .version1 onePointer [16] :=
    wellFormed_onePointer nofun
  refine ⟨wellFormed, fun survives => ?_⟩
  have zero := (survives_chains_iff rfl wellFormed).mp survives 16 List.mem_cons_self
    (by decide +kernel)
  exact absurd zero (by decide +kernel)

end ObjcDyld.ChainedFixups
