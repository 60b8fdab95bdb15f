import ObjcDyld.Closures.OffsetPatterns
import ObjcDyld.Closures.TextFixups
import ObjcDyld.Common.Loops

/-!
# Bind patterns

The compression of resolved binds by `ClosureBuilder::addBindInfo`, their decoding by
`Image::forEachFixup`, and what applying the decoded binds leaves in memory.
-/

namespace ObjcDyld.Closures

open Writes (final final_append final_replace_iff final_snoc_congr_iff)

/-- A resolved bind as `ClosureBuilder::forEachBind` reports it; a target is its `raw` number. -/
structure Bind where
  runtimeOffset : BitVec 64
  target : BitVec 64
  weakBindCoalese : Bool
  small : runtimeOffset.toNat < 2 ^ 40

/-- `Image::BindPattern`. -/
structure BindPattern extends OffsetPattern where
  target : BitVec 64

structure BindState where
  binds : List BindPattern
  lastOffset : BitVec 64
  lastTarget : BitVec 64

/-- The pattern may be a previous bind to the location of this one, and of nothing else. -/
def BindPattern.SameLocation (aBind : BindPattern) (bind : Bind) : Prop :=
  aBind.startVmOffset.setWidth 64 = bind.runtimeOffset ∧ aBind.repeatCount = 1 ∧ aBind.skipCount = 0

instance (aBind : BindPattern) (bind : Bind) : Decidable (aBind.SameLocation bind) :=
  inferInstanceAs (Decidable (_ ∧ _ ∧ _))

/-- The loop over `binds` for a weak-coalesced bind: the first pattern for its location gets its target. -/
def updatePrevious (bind : Bind) : List BindPattern → Option (List BindPattern)
  | [] => none
  | aBind :: rest =>
      if aBind.SameLocation bind then some ({ aBind with target := bind.target } :: rest)
      else (updatePrevious bind rest).map (aBind :: ·)

namespace BindState

/-- The patterns when the bind is `mergedIntoPrevious`: it extends the last pattern or is a duplicate. -/
def mergeIntoPrevious (ptrSize : BitVec 64) (state : BindState) (bind : Bind) : Option (List BindPattern) :=
  match state.binds.getLast? with
  | none => none
  | some back =>
      if bind.target = state.lastTarget ∧ state.lastOffset < bind.runtimeOffset then
        (back.extend ptrSize state.lastOffset bind.runtimeOffset).map fun pattern =>
          state.binds.dropLast ++ [{ pattern with target := back.target }]
      else if bind.target = state.lastTarget ∧ bind.runtimeOffset = state.lastOffset then
        some state.binds
      else none

/-- The callback of `addBindInfo`; `none` when its assertion on `startVmOffset` fails. -/
def addBind (ptrSize : BitVec 64) (state : BindState) (bind : Bind) : Option BindState :=
  match if bind.weakBindCoalese then updatePrevious bind state.binds else none with
  | some binds => some { state with binds }
  | none =>
      match state.mergeIntoPrevious ptrSize bind with
      | some binds => some ⟨binds, bind.runtimeOffset, bind.target⟩
      | none =>
          let pattern : BindPattern := { OffsetPattern.single bind.runtimeOffset with target := bind.target }
          if pattern.startVmOffset.setWidth 64 = bind.runtimeOffset then
            some ⟨state.binds ++ [pattern], bind.runtimeOffset, bind.target⟩
          else none

/-- `lastOffset` is the negated 32-bit pointer size. -/
def start (ptrSize : BitVec 64) : BindState := ⟨[], (-(ptrSize.setWidth 32)).setWidth 64, 0⟩

end BindState

/-- The locations and targets that `Image::forEachFixup` calls its bind handler with. -/
def forEachBind (pointerSize : BitVec 64) (bindFixups : List BindPattern) : List (BitVec 64 × BitVec 64) :=
  bindFixups.flatMap fun bindPat => (bindPat.offsets pointerSize).map fun offset => (offset, bindPat.target)

/-- A bind of a location writes the bytes of the target's address there. -/
def bindAt (ptrSize location target : BitVec 64) (address : ℕ) : Option (BitVec 64 × ℕ) :=
  if location.toNat ≤ address ∧ address < location.toNat + ptrSize.toNat then
    some (target, address - location.toNat)
  else none

/-- Which byte of which target every byte of the image holds after some binds. -/
def imageAfter (ptrSize : BitVec 64) (pairs : List (BitVec 64 × BitVec 64)) : ℕ → Option (BitVec 64 × ℕ) :=
  final (pairs.map fun pair => bindAt ptrSize pair.1 pair.2)

/-- The binds that the patterns decode to leave in memory what the binds of the image do. -/
def Preserves (ptrSize : BitVec 64) (binds : List Bind) (state : BindState) : Prop :=
  imageAfter ptrSize (forEachBind ptrSize state.binds) =
    imageAfter ptrSize (binds.map fun bind => (bind.runtimeOffset, bind.target))

/-- The bind updates the first pattern of its location. -/
structure Updates (state : BindState) (bind : Bind) (before : List BindPattern) (found : BindPattern)
    (after : List BindPattern) : Prop where
  weak : bind.weakBindCoalese = true
  binds : state.binds = before ++ found :: after
  found : found.SameLocation bind
  first : ∀ aBind ∈ before, ¬aBind.SameLocation bind

/-- When the callback keeps the targets: no pattern after the one it updates binds a byte of
the location to anything else, and the pattern it merges a bind into has the target of the bind. -/
structure KeepsTargets (ptrSize : BitVec 64) (state : BindState) (bind : Bind) : Prop where
  updated : ∀ before found after, Updates state bind before found after → ∀ address value,
    bindAt ptrSize bind.runtimeOffset bind.target address = some value →
      imageAfter ptrSize (forEachBind ptrSize after) address = none ∨
        imageAfter ptrSize (forEachBind ptrSize after) address = some value
  merged : (∀ before found after, ¬Updates state bind before found after) →
    state.mergeIntoPrevious ptrSize bind ≠ none → ∀ back ∈ state.binds.getLast?, back.target = bind.target

theorem Updates.after_unique {state : BindState} {bind : Bind} {before before' after after' : List BindPattern}
    {found found' : BindPattern} (updates : Updates state bind before found after)
    (updates' : Updates state bind before' found' after') : after = after' := by
  obtain ⟨-, binds, same, first⟩ := updates
  obtain ⟨-, binds', same', first'⟩ := updates'
  have eq := binds.symm.trans binds'
  rcases List.append_eq_append_iff.mp eq with ⟨middle, rfl, split⟩ | ⟨middle, rfl, split⟩
  · cases middle with
    | nil => exact (List.cons.inj split).2
    | cons other rest =>
        obtain rfl := (List.cons.inj split).1
        exact absurd same (first' found (by simp))
  · cases middle with
    | nil => exact (List.cons.inj split).2.symm
    | cons other rest =>
        obtain rfl := (List.cons.inj split).1
        exact absurd same' (first found' (by simp))

section

variable {ptrSize location target other : BitVec 64}

theorem bindAt_none_iff {address : ℕ} :
    bindAt ptrSize location target address = none ↔ bindAt ptrSize location other address = none := by
  rw [bindAt, bindAt]
  split <;> simp

theorem bindAt_inj (positive : 0 < ptrSize.toNat) :
    bindAt ptrSize location target = bindAt ptrSize location other ↔ target = other := by
  refine ⟨fun same => ?_, fun same => by rw [same]⟩
  have first := congrFun same location.toNat
  have here : location.toNat ≤ location.toNat ∧ location.toNat < location.toNat + ptrSize.toNat :=
    ⟨Nat.le_refl _, Nat.lt_add_of_pos_right positive⟩
  rw [bindAt, bindAt, if_pos here, if_pos here] at first
  exact (Prod.mk.inj (Option.some.inj first)).1

theorem imageAfter_append (first second : List (BitVec 64 × BitVec 64)) (address : ℕ) :
    imageAfter ptrSize (first ++ second) address =
      (imageAfter ptrSize second address).or (imageAfter ptrSize first address) := by
  rw [imageAfter, List.map_append, final_append]
  rfl

theorem imageAfter_append_congr {first second : List (BitVec 64 × BitVec 64)}
    (same : imageAfter ptrSize first = imageAfter ptrSize second) (pairs : List (BitVec 64 × BitVec 64)) :
    imageAfter ptrSize (first ++ pairs) = imageAfter ptrSize (second ++ pairs) := by
  funext address
  rw [imageAfter_append, imageAfter_append, same]

theorem imageAfter_snoc_iff (positive : 0 < ptrSize.toNat) (pairs : List (BitVec 64 × BitVec 64)) :
    imageAfter ptrSize (pairs ++ [(location, other)]) = imageAfter ptrSize (pairs ++ [(location, target)]) ↔
      other = target := by
  rw [imageAfter, imageAfter, List.map_append, List.map_append, List.map_singleton, List.map_singleton,
    final_snoc_congr_iff fun _ => bindAt_none_iff, bindAt_inj positive]

theorem imageAfter_duplicate (pairs : List (BitVec 64 × BitVec 64)) :
    imageAfter ptrSize (pairs ++ [(location, other)] ++ [(location, target)]) =
      imageAfter ptrSize (pairs ++ [(location, target)]) := by
  funext address
  simp only [imageAfter, List.map_append, final_append, List.map_singleton, Writes.final_singleton]
  cases written : bindAt ptrSize location target address with
  | none => rw [bindAt_none_iff.mp written, Option.none_or, Option.none_or]
  | some value => rfl

end

section

variable {ptrSize : BitVec 64} {state : BindState} {bind : Bind}

theorem updatePrevious_some {binds : List BindPattern} {updated : List BindPattern}
    (update : updatePrevious bind binds = some updated) :
    ∃ before found after, binds = before ++ found :: after ∧ found.SameLocation bind ∧
      (∀ aBind ∈ before, ¬aBind.SameLocation bind) ∧
      updated = before ++ { found with target := bind.target } :: after := by
  induction binds generalizing updated with
  | nil => cases update
  | cons aBind rest ih =>
      rw [updatePrevious] at update
      split at update
      · rename_i found
        exact ⟨[], aBind, rest, rfl, found, nofun, (Option.some.inj update).symm⟩
      · rename_i other
        obtain ⟨updated', update', rfl⟩ := Option.map_eq_some_iff.mp update
        obtain ⟨before, found, after, rfl, same, first, rfl⟩ := ih update'
        refine ⟨aBind :: before, found, after, rfl, same, ?_, rfl⟩
        intro earlier mem
        rcases List.mem_cons.mp mem with rfl | mem
        · exact other
        · exact first earlier mem

theorem updatePrevious_none {binds : List BindPattern} (none : updatePrevious bind binds = none) :
    ∀ aBind ∈ binds, ¬aBind.SameLocation bind := by
  induction binds with
  | nil => nofun
  | cons aBind rest ih =>
      rw [updatePrevious] at none
      split at none
      · cases none
      · rename_i other
        intro earlier mem
        rcases List.mem_cons.mp mem with rfl | mem
        · exact other
        · exact ih (Option.map_eq_none_iff.mp none) earlier mem

/-- The last pattern ends with the location of the last bind that was not an update. -/
def BindState.Tracked (ptrSize : BitVec 64) (state : BindState) : Prop :=
  ∀ back ∈ state.binds.getLast?, back.EndsAt ptrSize state.lastOffset

/-- What the callback does to the patterns and what it remembers. -/
inductive Bound (ptrSize : BitVec 64) (state : BindState) (bind : Bind) : BindState → Prop
  | update (before found after) (updates : Updates state bind before found after) :
      Bound ptrSize state bind { state with binds := before ++ { found with target := bind.target } :: after }
  | merge (before back) (pattern : OffsetPattern) (fresh : ∀ before found after, ¬Updates state bind before found after)
      (merged : state.mergeIntoPrevious ptrSize bind ≠ none) (binds : state.binds = before ++ [back])
      (extended : pattern.offsets ptrSize = back.offsets ptrSize ++ [bind.runtimeOffset])
      (ends : pattern.EndsAt ptrSize bind.runtimeOffset) :
      Bound ptrSize state bind
        ⟨before ++ [{ pattern with target := back.target }], bind.runtimeOffset, bind.target⟩
  | duplicate (before back) (fresh : ∀ before found after, ¬Updates state bind before found after)
      (merged : state.mergeIntoPrevious ptrSize bind ≠ none) (binds : state.binds = before ++ [back])
      (same : bind.runtimeOffset = state.lastOffset) :
      Bound ptrSize state bind ⟨state.binds, bind.runtimeOffset, bind.target⟩
  | new (fresh : ∀ before found after, ¬Updates state bind before found after)
      (merged : state.mergeIntoPrevious ptrSize bind = none) :
      Bound ptrSize state bind
        ⟨state.binds ++ [{ OffsetPattern.single bind.runtimeOffset with target := bind.target }],
          bind.runtimeOffset, bind.target⟩

theorem addBind_bound (tracked : state.Tracked ptrSize) :
    ∃ next, state.addBind ptrSize bind = some next ∧ Bound ptrSize state bind next := by
  cases update : if bind.weakBindCoalese then updatePrevious bind state.binds else none with
  | some updated =>
      split at update
      · rename_i weak
        obtain ⟨before, found, after, eq, same, first, rfl⟩ := updatePrevious_some update
        refine ⟨_, ?_, .update before found after ⟨weak, eq, same, first⟩⟩
        rw [BindState.addBind, weak, if_pos rfl, update]
      · cases update
  | none =>
      have fresh : ∀ before found after, ¬Updates state bind before found after := by
        rintro before found after ⟨weak, eq, same, first⟩
        rw [if_pos weak] at update
        exact updatePrevious_none update found (by rw [eq]; simp) same
      cases merged : state.mergeIntoPrevious ptrSize bind with
      | some binds =>
          have run : state.addBind ptrSize bind = some ⟨binds, bind.runtimeOffset, bind.target⟩ := by
            rw [BindState.addBind, update, merged]
          refine ⟨_, run, ?_⟩
          have merges : state.mergeIntoPrevious ptrSize bind ≠ none := by rw [merged]; nofun
          rw [BindState.mergeIntoPrevious] at merged
          split at merged
          · cases merged
          rename_i back last
          obtain ⟨before, eq⟩ := List.getLast?_eq_some_iff.mp last
          split at merged
          · obtain ⟨pattern, extended, rfl⟩ := Option.map_eq_some_iff.mp merged
            obtain ⟨offsets, ends⟩ := OffsetPattern.extend_offsets (tracked back last) extended
            rw [eq, List.dropLast_concat]
            exact .merge before back pattern fresh merges eq offsets ends
          · split at merged
            · rename_i duplicate
              obtain rfl := Option.some.inj merged
              exact .duplicate before back fresh merges eq duplicate.2
            · cases merged
      | none =>
          refine ⟨_, ?_, .new fresh merged⟩
          have small := bind.small
          rw [BindState.addBind, update, merged]
          exact if_pos (by simp only [OffsetPattern.single]; bv_omega)

theorem forEachBind_append (first second : List BindPattern) :
    forEachBind ptrSize (first ++ second) = forEachBind ptrSize first ++ forEachBind ptrSize second :=
  List.flatMap_append

theorem forEachBind_single (pattern : BindPattern) :
    forEachBind ptrSize [pattern] = (pattern.offsets ptrSize).map fun offset => (offset, pattern.target) :=
  List.flatMap_singleton ..

theorem BindPattern.SameLocation.offsets {aBind : BindPattern} (same : aBind.SameLocation bind) :
    aBind.toOffsetPattern.offsets ptrSize = [bind.runtimeOffset] := by
  obtain ⟨location, once, none⟩ := same
  rw [OffsetPattern.offsets, once, none, location]
  rfl

theorem offsets_of_endsAt {pattern : OffsetPattern} {lastOffset : BitVec 64}
    (ends : pattern.EndsAt ptrSize lastOffset) : ∃ before, pattern.offsets ptrSize = before ++ [lastOffset] := by
  obtain ⟨n, count⟩ : ∃ n, pattern.repeatCount.toNat = n + 1 := ⟨_, (Nat.sub_add_cancel ends.positive).symm⟩
  have last := ends.last
  rw [count, Nat.add_sub_cancel] at last
  rw [OffsetPattern.offsets, count, OffsetPattern.offsetsFrom_succ, ← last]
  exact ⟨_, rfl⟩

theorem Bound.tracked {next : BindState} (bound : Bound ptrSize state bind next)
    (tracked : state.Tracked ptrSize) : next.Tracked ptrSize := by
  cases bound with
  | update before found after updates =>
      intro back last
      have held := updates.binds
      cases after using List.reverseRecOn with
      | nil =>
          obtain rfl := Option.some.inj ((List.getLast?_concat ..).symm.trans last)
          exact tracked found (by rw [held]; exact List.getLast?_concat ..)
      | append_singleton after final =>
          rw [← List.cons_append, ← List.append_assoc, List.getLast?_concat] at last
          obtain rfl := Option.some.inj last
          exact tracked final (by rw [held, ← List.cons_append, ← List.append_assoc]; exact List.getLast?_concat ..)
  | merge before back pattern fresh merged binds extended ends =>
      intro back' last
      obtain rfl := Option.some.inj ((List.getLast?_concat ..).symm.trans last)
      exact ends
  | duplicate before back fresh merged binds same =>
      intro back' last
      rw [same]
      exact tracked back' last
  | new fresh merged =>
      intro back' last
      obtain rfl := Option.some.inj ((List.getLast?_concat ..).symm.trans last)
      exact OffsetPattern.single_endsAt bind.small

theorem Bound.preserves_iff {next : BindState} (bound : Bound ptrSize state bind next)
    (positive : 0 < ptrSize.toNat) (tracked : state.Tracked ptrSize) {done : List Bind}
    (preserves : Preserves ptrSize done state) :
    Preserves ptrSize (done ++ [bind]) next ↔ KeepsTargets ptrSize state bind := by
  have expected : imageAfter ptrSize ((done ++ [bind]).map fun bind => (bind.runtimeOffset, bind.target)) =
      imageAfter ptrSize (forEachBind ptrSize state.binds ++ [(bind.runtimeOffset, bind.target)]) := by
    rw [List.map_append, List.map_singleton]
    exact imageAfter_append_congr preserves.symm _
  rw [Preserves, expected]
  cases bound with
  | update before found after updates =>
      have pairs (aBind : BindPattern) (same : aBind.SameLocation bind) :
          forEachBind ptrSize (before ++ aBind :: after) = forEachBind ptrSize before ++
            (bind.runtimeOffset, aBind.target) :: forEachBind ptrSize after := by
        rw [List.append_cons, forEachBind_append, forEachBind_append, forEachBind_single, same.offsets]
        simp
      have replaced : imageAfter ptrSize (forEachBind ptrSize
            (before ++ { found with target := bind.target } :: after)) =
          imageAfter ptrSize (forEachBind ptrSize state.binds ++ [(bind.runtimeOffset, bind.target)]) ↔
          ∀ address value, bindAt ptrSize bind.runtimeOffset bind.target address = some value →
            imageAfter ptrSize (forEachBind ptrSize after) address = none ∨
              imageAfter ptrSize (forEachBind ptrSize after) address = some value := by
        rw [updates.binds, pairs _ updates.found, pairs { found with target := bind.target } updates.found,
          imageAfter, imageAfter]
        simp only [List.map_append, List.map_cons, List.map_nil]
        exact final_replace_iff fun _ => bindAt_none_iff
      rw [replaced]
      constructor
      · refine fun kept => ⟨?_, fun fresh => absurd updates (fresh _ _ _)⟩
        intro before' found' after' updates'
        obtain rfl := updates.after_unique updates'
        exact kept
      · exact fun keeps => keeps.updated before found after updates
  | merge before back pattern fresh merged binds extended ends =>
      have decoded : forEachBind ptrSize (before ++ [{ pattern with target := back.target }]) =
          forEachBind ptrSize state.binds ++ [(bind.runtimeOffset, back.target)] := by
        rw [binds, forEachBind_append, forEachBind_append, forEachBind_single, forEachBind_single, extended]
        simp
      rw [decoded, imageAfter_snoc_iff positive]
      constructor
      · refine fun same => ⟨fun _ _ _ updates => absurd updates (fresh _ _ _), fun _ _ back' last => ?_⟩
        rw [binds, List.getLast?_concat] at last
        rwa [← Option.some.inj last]
      · exact fun keeps => keeps.merged fresh merged back (by rw [binds]; exact List.getLast?_concat ..)
  | duplicate before back fresh merged binds same =>
      obtain ⟨front, last⟩ := offsets_of_endsAt (tracked back (by rw [binds]; exact List.getLast?_concat ..))
      have decoded : forEachBind ptrSize state.binds =
          (forEachBind ptrSize before ++ front.map fun offset => (offset, back.target)) ++
            [(bind.runtimeOffset, back.target)] := by
        rw [binds, forEachBind_append, forEachBind_single, last, same]
        simp
      rw [decoded, imageAfter_duplicate, imageAfter_snoc_iff positive]
      constructor
      · refine fun same => ⟨fun _ _ _ updates => absurd updates (fresh _ _ _), fun _ _ back' last => ?_⟩
        rw [binds, List.getLast?_concat] at last
        rwa [← Option.some.inj last]
      · exact fun keeps => keeps.merged fresh merged back (by rw [binds]; exact List.getLast?_concat ..)
  | new fresh merged =>
      have decoded : forEachBind ptrSize
            (state.binds ++ [{ OffsetPattern.single bind.runtimeOffset with target := bind.target }]) =
          forEachBind ptrSize state.binds ++ [(bind.runtimeOffset, bind.target)] := by
        rw [forEachBind_append, forEachBind_single, OffsetPattern.single_offsets bind.small]
        rfl
      rw [decoded]
      exact iff_of_true rfl ⟨fun _ _ _ updates => absurd updates (fresh _ _ _), fun _ some => absurd merged some⟩

theorem preserves_prefixes_iff (positive : 0 < ptrSize.toNat) (binds : List Bind) :
    (∀ done rest, binds = done ++ rest → ∃ state,
        done.foldlM (BindState.addBind ptrSize) (BindState.start ptrSize) = some state ∧
          Preserves ptrSize done state) ↔
      ∀ done bind rest state, binds = done ++ bind :: rest →
        done.foldlM (BindState.addBind ptrSize) (BindState.start ptrSize) = some state →
          KeepsTargets ptrSize state bind := by
  have init : (BindState.start ptrSize).Tracked ptrSize := fun _ last => nomatch last
  refine Prefixes.holds_iff_safe
    (fun done state => BindState.Tracked ptrSize state ∧ Preserves ptrSize done state)
    ⟨init, rfl⟩ ?_ (fun _ _ good => good.2) binds
  intro done state bind good
  obtain ⟨next, run, bound⟩ : ∃ next, _ ∧ Bound ptrSize state bind next := addBind_bound good.1
  have iff := bound.preserves_iff positive good.1 good.2
  exact ⟨next, run, fun keeps => ⟨bound.tracked good.1, iff.mpr keeps⟩, iff.mp⟩

end

end ObjcDyld.Closures

/-!
## Runs of the bind and text fixup encoders

What the patterns of an image preserve after every callback of `addBindInfo` and of
the text part of `addRebaseInfo`.
-/

namespace ObjcDyld.Closures

/-- After each of the binds the patterns leave in memory what the binds so far do. -/
def BindsPreserved (ptrSize : BitVec 64) (binds : List Bind) : Prop :=
  ∀ done rest, binds = done ++ rest → ∃ state,
    done.foldlM (BindState.addBind ptrSize) (BindState.start ptrSize) = some state ∧
      Preserves ptrSize done state

/-- Each of the binds keeps the targets of the patterns before it. -/
def BindsKeepTargets (ptrSize : BitVec 64) (binds : List Bind) : Prop :=
  ∀ done bind rest state, binds = done ++ bind :: rest →
    done.foldlM (BindState.addBind ptrSize) (BindState.start ptrSize) = some state →
      KeepsTargets ptrSize state bind

/-- After each of the text rebases the patterns decode to the text rebases so far. -/
def TextPreserved (offsets : List (BitVec 32)) : Prop :=
  ∀ done rest, offsets = done ++ rest → ∃ state,
    done.foldlM (fun state offset => some (TextState.addTextRebase state offset)) TextState.start = some state ∧
      TextLossless done state

/-- Each of the text rebases fits the last pattern before it. -/
def TextFits (offsets : List (BitVec 32)) : Prop :=
  ∀ done offset rest state, offsets = done ++ offset :: rest →
    done.foldlM (fun state offset => some (TextState.addTextRebase state offset)) TextState.start = some state →
      FitsPattern state offset

/-- Two locations are bound to one target and the first of them is then coalesced to another. -/
def coalescedBinds : List Bind :=
  [⟨8, 0x1001, false, by decide⟩, ⟨8, 0x2001, true, by decide⟩, ⟨16, 0x1001, false, by decide⟩]

end ObjcDyld.Closures
