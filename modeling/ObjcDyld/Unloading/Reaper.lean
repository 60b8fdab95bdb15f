import ObjcDyld.Unloading.Images

/-!
# The mark phase

The marks of a collection are the images in use: those with a positive reference
count, and what they depend on, as far as they may be unloaded at all.
-/

namespace ObjcDyld.Unloading

open Loops Saturation

/-- An image that a collection keeps, of those that may be unloaded. -/
inductive InUse (all : AllImages) : LoadedImage → Prop where
  | opened {li : LoadedImage} (mem : li ∈ all.loadedImages)
      (unloadable : li.image.neverUnload = false)
      (count : 0 < all.refCount li.loadedAddress) : InUse all li
  | dependent {li lj : LoadedImage} (inUse : InUse all li) (mem : lj ∈ all.loadedImages)
      (unloadable : lj.image.neverUnload = false) (depends : li.DependsOn lj) : InUse all lj

/-! ## Marks -/

/-- The same images, of which more may be marked. -/
def Extends (before after : List ImageAndUse) : Prop :=
  List.Forall₂ (fun x y => y.li = x.li ∧ (x.inUse = true → y.inUse = true)) before after

namespace Extends

variable {before middle after : List ImageAndUse}

theorem refl (unloadables : List ImageAndUse) : Extends unloadables unloadables :=
  List.forall₂_same.mpr fun _ _ => ⟨rfl, id⟩

theorem trans (first : Extends before middle) (second : Extends middle after) :
    Extends before after := by
  induction first generalizing after with
  | nil => exact second
  | cons step _ ih =>
      cases second with
      | cons step' rest => exact .cons ⟨step'.1.trans step.1, fun used => step'.2 (step.2 used)⟩ (ih rest)

theorem antisymm (forth : Extends before after) (back : Extends after before) : before = after := by
  induction forth with
  | nil => rfl
  | @cons x y _ _ step _ ih =>
      cases back with
      | cons step' rest =>
          obtain ⟨li, inUse⟩ := x
          obtain ⟨lj, inUse'⟩ := y
          obtain rfl : lj = li := step.1
          have same : inUse = inUse' := Bool.eq_iff_iff.mpr ⟨step.2, step'.2⟩
          rw [same, ih rest]

theorem map_li (extends_ : Extends before after) :
    after.map ImageAndUse.li = before.map ImageAndUse.li := by
  induction extends_ with
  | nil => rfl
  | cons step _ ih => rw [List.map_cons, List.map_cons, step.1, ih]

theorem length_eq (extends_ : Extends before after) : after.length = before.length :=
  (List.Forall₂.length_eq extends_).symm

theorem marked (extends_ : Extends before after) {li : LoadedImage}
    (isMarked : ⟨li, true⟩ ∈ before) : ⟨li, true⟩ ∈ after := by
  induction extends_ with
  | nil => exact isMarked
  | @cons x y _ _ step _ ih =>
      rcases List.mem_cons.mp isMarked with rfl | isMarked
      · obtain ⟨lj, inUse⟩ := y
        obtain rfl : lj = li := step.1
        obtain rfl : inUse = true := step.2 rfl
        exact List.mem_cons_self
      · exact List.mem_cons_of_mem _ (ih isMarked)

theorem inUseCount_le (extends_ : Extends before after) : inUseCount before ≤ inUseCount after := by
  induction extends_ with
  | nil => exact Nat.le_refl _
  | @cons x y _ _ step _ ih =>
      rw [inUseCount, inUseCount, List.countP_cons, List.countP_cons]
      rw [inUseCount, inUseCount] at ih
      by_cases used : x.inUse = true
      · rw [if_pos used, if_pos (step.2 used)]
        omega
      · rw [if_neg used]
        omega

/-- Marks are never taken back, so that their number tells whether there are new ones. -/
theorem eq_of_inUseCount (extends_ : Extends before after)
    (same : inUseCount after = inUseCount before) : after = before := by
  induction extends_ with
  | nil => rfl
  | @cons x y before after step rest ih =>
      obtain ⟨li, inUse⟩ := x
      obtain ⟨lj, inUse'⟩ := y
      obtain rfl : lj = li := step.1
      have le := inUseCount_le rest
      simp only [inUseCount, List.countP_cons] at same le ih
      cases inUse with
      | true =>
          obtain rfl : inUse' = true := step.2 rfl
          rw [ih (by omega)]
      | false =>
          cases inUse' with
          | true => simp at same; omega
          | false => rw [ih (by simpa using same)]

/-- Steps that mark more mark more together. -/
theorem foldl {α : Type} {step : List ImageAndUse → α → List ImageAndUse}
    (extends_ : ∀ unloadables item, Extends unloadables (step unloadables item)) (items : List α)
    (unloadables : List ImageAndUse) : Extends unloadables (items.foldl step unloadables) := by
  induction items generalizing unloadables with
  | nil => exact refl unloadables
  | cons item items ih => exact (extends_ unloadables item).trans (ih _)

/-- If all steps together mark nothing, none of them does. -/
theorem foldl_fixed {α : Type} {step : List ImageAndUse → α → List ImageAndUse}
    (extends_ : ∀ unloadables item, Extends unloadables (step unloadables item)) {items : List α}
    {unloadables : List ImageAndUse} (fixed : items.foldl step unloadables = unloadables) :
    ∀ item ∈ items, step unloadables item = unloadables := by
  induction items with
  | nil => simp
  | cons first items ih =>
      rw [List.foldl_cons] at fixed
      have later := Extends.foldl extends_ items (step unloadables first)
      rw [fixed] at later
      have here := later.antisymm (extends_ unloadables first)
      rw [here] at fixed
      intro item mem
      rcases List.mem_cons.mp mem with rfl | mem
      · exact here
      · exact ih fixed item mem

end Extends

section MarkFirst

variable {kind : ImageAndUse → Bool} {unloadables : List ImageAndUse}

theorem extends_markFirst (kind : ImageAndUse → Bool) (unloadables : List ImageAndUse) :
    Extends unloadables (markFirst kind unloadables) := by
  induction unloadables with
  | nil => exact Extends.refl []
  | cons iu rest ih =>
      rw [markFirst]
      split
      · exact .cons ⟨rfl, fun _ => rfl⟩ (Extends.refl rest)
      · exact .cons ⟨rfl, id⟩ ih

theorem mem_markFirst {iu : ImageAndUse} (mem : iu ∈ markFirst kind unloadables) :
    iu ∈ unloadables ∨ ∃ iu' ∈ unloadables, kind iu' = true ∧ iu.li = iu'.li := by
  induction unloadables with
  | nil => exact Or.inl mem
  | cons first rest ih =>
      rw [markFirst] at mem
      split at mem
      · rename_i isKind
        rcases List.mem_cons.mp mem with rfl | mem
        · exact Or.inr ⟨first, List.mem_cons_self, isKind, rfl⟩
        · exact Or.inl (List.mem_cons_of_mem first mem)
      · rcases List.mem_cons.mp mem with rfl | mem
        · exact Or.inl List.mem_cons_self
        · rcases ih mem with old | ⟨iu', mem', isKind, same⟩
          · exact Or.inl (List.mem_cons_of_mem first old)
          · exact Or.inr ⟨iu', List.mem_cons_of_mem first mem', isKind, same⟩

theorem markFirst_marked {iu : ImageAndUse} (mem : iu ∈ unloadables) (isKind : kind iu = true)
    (only : ∀ iu' ∈ unloadables, kind iu' = true → iu'.li = iu.li) :
    ⟨iu.li, true⟩ ∈ markFirst kind unloadables := by
  induction unloadables with
  | nil => cases mem
  | cons first rest ih =>
      rw [markFirst]
      split
      · rename_i firstKind
        rw [← only first List.mem_cons_self firstKind]
        exact List.mem_cons_self
      · rename_i otherKind
        rcases List.mem_cons.mp mem with rfl | mem
        · exact absurd isKind otherKind
        · exact List.mem_cons_of_mem first
            (ih mem fun iu' mem' => only iu' (List.mem_cons_of_mem first mem'))

theorem markFirst_fixed (unmarked : ∀ iu, kind iu = true → iu.inUse = false)
    (fixed : markFirst kind unloadables = unloadables) : ∀ iu ∈ unloadables, kind iu = false := by
  induction unloadables with
  | nil => simp
  | cons first rest ih =>
      rw [markFirst] at fixed
      split at fixed
      · rename_i isKind
        have same := congrArg ImageAndUse.inUse (List.cons.inj fixed).1
        rw [unmarked first isKind] at same
        cases same
      · rename_i otherKind
        intro iu mem
        rcases List.mem_cons.mp mem with rfl | mem
        · exact Bool.eq_false_iff.mpr otherKind
        · exact ih (List.cons.inj fixed).2 iu mem

end MarkFirst

theorem extends_markDependentsOf (li : LoadedImage) (unloadables : List ImageAndUse) :
    Extends unloadables (markDependentsOf li unloadables) :=
  Extends.foldl (fun _ _ => extends_markFirst _ _) _ _

theorem extends_markDependentsAt (unloadables : List ImageAndUse) (index : ℕ) :
    Extends unloadables (markDependentsAt unloadables index) := by
  rw [markDependentsAt]
  split
  · exact Extends.refl _
  · split
    · exact extends_markDependentsOf _ _
    · exact Extends.refl _

theorem extends_markDependentOfInUseImages (unloadables : List ImageAndUse) :
    Extends unloadables (markDependentOfInUseImages unloadables) :=
  Extends.foldl extends_markDependentsAt _ _

theorem markDependentOfInUseImages_fixed {unloadables : List ImageAndUse}
    (fixed : markDependentOfInUseImages unloadables = unloadables) {li lj : LoadedImage}
    (marked : ⟨li, true⟩ ∈ unloadables) (mem : lj ∈ unloadables.map ImageAndUse.li)
    (depends : li.DependsOn lj) : ⟨lj, true⟩ ∈ unloadables := by
  obtain ⟨index, found⟩ := List.mem_iff_getElem?.mp marked
  have inRange : index ∈ List.range unloadables.length :=
    List.mem_range.mpr (List.getElem?_eq_some_iff.mp found).1
  have atIndex := Extends.foldl_fixed extends_markDependentsAt fixed index inRange
  simp only [markDependentsAt, found, if_true] at atIndex
  obtain ⟨num, isDependent, represents⟩ := depends
  have none := markFirst_fixed (fun iu isKind => by simp at isKind; exact isKind.1)
    (Extends.foldl_fixed (fun _ _ => extends_markFirst _ _) atIndex num isDependent)
  obtain ⟨⟨lk, inUse⟩, memIu, rfl⟩ := List.mem_map.mp mem
  have notKind := none _ memIu
  cases inUse with
  | true => exact memIu
  | false => simp [represents] at notKind

/-! ## The marks are the images in use -/

/-- Reference counts are positive, one for each address. -/
structure Counts (entries : List DlopenCount) : Prop where
  nodup : (entries.map DlopenCount.loadAddress).Nodup
  positive : ∀ entry ∈ entries, 0 < entry.refCount

theorem Counts.refCountIn_eq {entries : List DlopenCount} (counts : Counts entries)
    {entry : DlopenCount} (mem : entry ∈ entries) :
    refCountIn entries entry.loadAddress = entry.refCount := by
  obtain ⟨nodup, -⟩ := counts
  induction entries with
  | nil => cases mem
  | cons first entries ih =>
      rw [List.map_cons, List.nodup_cons] at nodup
      rw [refCountIn]
      rcases List.mem_cons.mp mem with rfl | mem
      · rw [if_pos rfl]
      · have ne : ¬ first.loadAddress = entry.loadAddress := fun same =>
          nodup.1 (same ▸ List.mem_map_of_mem mem)
        rw [if_neg ne, ih mem nodup.2]

theorem exists_of_refCountIn {entries : List DlopenCount} {loadAddress : ℕ}
    (count : 0 < refCountIn entries loadAddress) :
    ∃ entry ∈ entries, entry.loadAddress = loadAddress := by
  induction entries with
  | nil => exact absurd count (Nat.lt_irrefl 0)
  | cons first entries ih =>
      rw [refCountIn] at count
      split at count
      · rename_i here
        exact ⟨first, List.mem_cons_self, here⟩
      · obtain ⟨entry, mem, here⟩ := ih count
        exact ⟨entry, List.mem_cons_of_mem first mem, here⟩

section Marks

variable {all : AllImages}

/-- The images that may be unloaded, of which only images in use are marked. -/
structure Marks (all : AllImages) (unloadables : List ImageAndUse) : Prop where
  images : unloadables.map ImageAndUse.li =
    all.loadedImages.filter fun li => !li.image.neverUnload
  sound : ∀ li, ⟨li, true⟩ ∈ unloadables → InUse all li

theorem Marks.mem {unloadables : List ImageAndUse} (marks : Marks all unloadables)
    {iu : ImageAndUse} (mem : iu ∈ unloadables) :
    iu.li ∈ all.loadedImages ∧ iu.li.image.neverUnload = false := by
  have inMap := List.mem_map_of_mem (f := ImageAndUse.li) mem
  rw [marks.images, List.mem_filter] at inMap
  simpa using inMap

theorem marks_unloadables (all : AllImages) : Marks all all.unloadables := by
  refine ⟨?_, fun li mem => ?_⟩
  · rw [AllImages.unloadables, List.map_map]
    exact List.map_id _
  · obtain ⟨_, _, same⟩ := List.mem_map.mp mem
    cases same

theorem Marks.markFirst {kind : ImageAndUse → Bool} {unloadables : List ImageAndUse}
    (marks : Marks all unloadables) (used : ∀ iu ∈ unloadables, kind iu = true → InUse all iu.li) :
    Marks all (markFirst kind unloadables) := by
  refine ⟨(extends_markFirst kind unloadables).map_li.trans marks.images, fun li mem => ?_⟩
  rcases mem_markFirst mem with old | ⟨iu, memIu, isKind, same⟩
  · exact marks.sound li old
  · rw [show li = iu.li from same]
    exact used iu memIu isKind

theorem Marks.foldl {α : Type} {step : List ImageAndUse → α → List ImageAndUse} {items : List α}
    (preserves : ∀ unloadables, Marks all unloadables → ∀ item ∈ items,
      Marks all (step unloadables item)) {unloadables : List ImageAndUse}
    (marks : Marks all unloadables) : Marks all (items.foldl step unloadables) := by
  induction items generalizing unloadables with
  | nil => exact marks
  | cons item items ih =>
      exact ih (fun unloadables marks item mem => preserves unloadables marks item
        (List.mem_cons_of_mem _ mem)) (preserves unloadables marks item List.mem_cons_self)

theorem Marks.markDependentsOf {unloadables : List ImageAndUse} (marks : Marks all unloadables)
    {li : LoadedImage} (inUse : InUse all li) : Marks all (markDependentsOf li unloadables) := by
  refine Marks.foldl (fun unloadables marks num isDependent => ?_) marks
  refine marks.markFirst fun iu mem isKind => ?_
  simp only [Bool.and_eq_true] at isKind
  obtain ⟨loaded, unloadable⟩ := marks.mem mem
  exact .dependent inUse loaded unloadable ⟨num, isDependent, isKind.2⟩

theorem Marks.markDependentOfInUseImages {unloadables : List ImageAndUse}
    (marks : Marks all unloadables) : Marks all (markDependentOfInUseImages unloadables) := by
  refine Marks.foldl (fun unloadables marks index _ => ?_) marks
  rw [markDependentsAt]
  split
  · exact marks
  · rename_i iu found
    split
    · rename_i used
      have isMarked : ⟨iu.li, true⟩ ∈ unloadables := by
        rw [← used]
        exact List.mem_of_getElem? found
      exact marks.markDependentsOf (marks.sound _ isMarked)
    · exact marks

theorem Marks.markDirectlyDlopenedImagesAsUsed (counts : Counts all.dlopenRefCounts) :
    Marks all (markDirectlyDlopenedImagesAsUsed all.dlopenRefCounts all.unloadables) := by
  refine Marks.foldl (fun unloadables marks entry mem => ?_) (marks_unloadables all)
  split
  · refine marks.markFirst fun iu memIu isKind => ?_
    obtain ⟨loaded, unloadable⟩ := marks.mem memIu
    refine .opened loaded unloadable ?_
    rw [decide_eq_true_eq.mp isKind, AllImages.refCount, counts.refCountIn_eq mem]
    exact counts.positive entry mem
  · exact marks

theorem markDirectlyDlopenedImagesAsUsed_marked {entries : List DlopenCount} {li : LoadedImage}
    {unloadables : List ImageAndUse} (distinct : ∀ iu ∈ unloadables, ∀ iu' ∈ unloadables,
      iu.li.loadedAddress = iu'.li.loadedAddress → iu.li = iu'.li)
    (mem : li ∈ unloadables.map ImageAndUse.li) {entry : DlopenCount} (opened : entry ∈ entries)
    (here : entry.loadAddress = li.loadedAddress) (count : 0 < entry.refCount) :
    ⟨li, true⟩ ∈ markDirectlyDlopenedImagesAsUsed entries unloadables := by
  have step_extends : ∀ (unloadables : List ImageAndUse) (entry : DlopenCount),
      Extends unloadables (if entry.refCount ≠ 0 then
        markFirst (fun iu => iu.li.loadedAddress = entry.loadAddress) unloadables else unloadables) := by
    intro unloadables entry
    split
    · exact extends_markFirst _ _
    · exact Extends.refl _
  induction entries generalizing unloadables with
  | nil => cases opened
  | cons first entries ih =>
      rw [Unloading.markDirectlyDlopenedImagesAsUsed, List.foldl_cons]
      rcases List.mem_cons.mp opened with rfl | opened
      · refine (Extends.foldl step_extends entries _).marked ?_
        obtain ⟨iu, memIu, rfl⟩ := List.mem_map.mp mem
        rw [if_pos (by omega)]
        refine markFirst_marked memIu (by simp [here]) fun iu' mem' isKind => ?_
        simp only [decide_eq_true_eq] at isKind
        exact distinct iu' mem' iu memIu (isKind.trans here)
      · have images := (step_extends unloadables first).map_li
        refine ih (fun iu memIu iu' memIu' same => ?_) (by rw [images]; exact mem) opened
        have inMap := List.mem_map_of_mem (f := ImageAndUse.li) memIu
        have inMap' := List.mem_map_of_mem (f := ImageAndUse.li) memIu'
        rw [images] at inMap inMap'
        obtain ⟨old, oldMem, oldSame⟩ := List.mem_map.mp inMap
        obtain ⟨old', oldMem', oldSame'⟩ := List.mem_map.mp inMap'
        rw [← oldSame, ← oldSame'] at same ⊢
        exact distinct old oldMem old' oldMem' same

/-- The marks at the end of the mark phase. -/
def AllImages.marks (all : AllImages) : List ImageAndUse :=
  garbageCollect all.dlopenRefCounts all.unloadables

theorem marks_marks (counts : Counts all.dlopenRefCounts) : Marks all all.marks :=
  untilStable_induction (fun _ marks => marks.markDependentOfInUseImages) _
    (Marks.markDirectlyDlopenedImagesAsUsed counts)

theorem extends_marks (all : AllImages) :
    Extends (markDirectlyDlopenedImagesAsUsed all.dlopenRefCounts all.unloadables) all.marks :=
  untilStable_induction
    (fun unloadables before => before.trans (extends_markDependentOfInUseImages unloadables)) _
    (Extends.refl _)

theorem extends_markDirectlyDlopenedImagesAsUsed (entries : List DlopenCount)
    (unloadables : List ImageAndUse) :
    Extends unloadables (markDirectlyDlopenedImagesAsUsed entries unloadables) := by
  refine Extends.foldl (fun unloadables entry => ?_) _ _
  split
  · exact extends_markFirst _ _
  · exact Extends.refl _

theorem marks_fixed (all : AllImages) : markDependentOfInUseImages all.marks = all.marks := by
  refine untilStable_fixed
    (fun unloadables (same : unloadables.length = all.unloadables.length) =>
      (extends_markDependentOfInUseImages unloadables).length_eq.trans same)
    (fun unloadables _ => (extends_markDependentOfInUseImages unloadables).inUseCount_le)
    (fun unloadables _ => (extends_markDependentOfInUseImages unloadables).eq_of_inUseCount)
    (fun unloadables same => List.countP_le_length.trans same.le)
    (extends_markDirectlyDlopenedImagesAsUsed _ _).length_eq ?_
  omega

theorem InUse.marked (counts : Counts all.dlopenRefCounts)
    (distinct : (all.loadedImages.map LoadedImage.loadedAddress).Nodup) {li : LoadedImage}
    (inUse : InUse all li) : ⟨li, true⟩ ∈ all.marks := by
  have images (unloadables : List ImageAndUse) (marks : Marks all unloadables) {li : LoadedImage}
      (mem : li ∈ all.loadedImages) (unloadable : li.image.neverUnload = false) :
      li ∈ unloadables.map ImageAndUse.li := by
    rw [marks.images, List.mem_filter]
    exact ⟨mem, by simp [unloadable]⟩
  induction inUse with
  | @opened li mem unloadable count =>
      obtain ⟨entry, opened, here⟩ := exists_of_refCountIn count
      refine (extends_marks all).marked (markDirectlyDlopenedImagesAsUsed_marked
        (fun iu memIu iu' memIu' same => ?_) (images _ (marks_unloadables all) mem unloadable) opened
          here (counts.positive entry opened))
      exact List.inj_on_of_nodup_map distinct ((marks_unloadables all).mem memIu).1
        ((marks_unloadables all).mem memIu').1 same
  | dependent inUse mem unloadable depends ih =>
      exact markDependentOfInUseImages_fixed (marks_fixed all) ih
        (images _ (marks_marks counts) mem unloadable) depends

theorem mem_deadImages_iff (counts : Counts all.dlopenRefCounts)
    (distinct : (all.loadedImages.map LoadedImage.loadedAddress).Nodup) {li : LoadedImage} :
    li ∈ all.deadImages ↔
      li ∈ all.loadedImages ∧ li.image.neverUnload = false ∧ ¬ InUse all li := by
  have marks := marks_marks counts
  have nodup : (all.marks.map ImageAndUse.li).Nodup := by
    rw [marks.images]
    exact distinct.of_map.filter _
  constructor
  · intro dead
    obtain ⟨iu, memIu, rfl⟩ := List.mem_map.mp dead
    obtain ⟨memIu, notUsed⟩ := List.mem_filter.mp memIu
    obtain ⟨loaded, unloadable⟩ := marks.mem memIu
    refine ⟨loaded, unloadable, fun inUse => ?_⟩
    have same := List.inj_on_of_nodup_map nodup memIu (inUse.marked counts distinct) rfl
    rw [same] at notUsed
    cases notUsed
  · rintro ⟨loaded, unloadable, notInUse⟩
    have inMap : li ∈ all.marks.map ImageAndUse.li := by
      rw [marks.images, List.mem_filter]
      exact ⟨loaded, by simp [unloadable]⟩
    obtain ⟨⟨lj, inUse⟩, memIu, rfl⟩ := List.mem_map.mp inMap
    refine List.mem_map.mpr ⟨⟨lj, inUse⟩, List.mem_filter.mpr ⟨memIu, ?_⟩, rfl⟩
    cases inUse with
    | true => exact absurd (marks.sound lj memIu) notInUse
    | false => rfl

theorem nodup_deadImages (counts : Counts all.dlopenRefCounts)
    (distinct : (all.loadedImages.map LoadedImage.loadedAddress).Nodup) :
    (all.deadImages.map LoadedImage.loadedAddress).Nodup := by
  have sublist : (all.deadImages).Sublist all.loadedImages := by
    refine (List.filter_sublist.map ImageAndUse.li).trans ?_
    rw [← AllImages.marks, (marks_marks counts).images]
    exact List.filter_sublist
  exact distinct.sublist (sublist.map _)

end Marks

end ObjcDyld.Unloading
