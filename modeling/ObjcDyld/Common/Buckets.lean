import Mathlib

/-!
# Growing lists of buckets

A list that grows by whole buckets.  An entry goes into the first free slot; when there is none, a
fresh bucket is tied to the end.  A reader takes each bucket up to its first free slot.
-/

namespace ObjcDyld.Buckets

variable {α : Type*} (isFree : α → Bool)

/-- Put an entry into the first free slot of a bucket. -/
def fill (entry : α) : List α → Option (List α)
  | [] => none
  | slot :: slots => if isFree slot then some (entry :: slots) else (fill entry slots).map (slot :: ·)

/-- Put an entry into the first free slot of all buckets, or into a fresh bucket. -/
def insert (fresh : List α) (entry : α) : List (List α) → List (List α)
  | [] => [fresh]
  | bucket :: buckets =>
      match fill isFree entry bucket with
      | some filled => filled :: buckets
      | none => bucket :: insert fresh entry buckets

/-- What a reader sees. -/
def visible (buckets : List (List α)) : List α :=
  buckets.flatMap fun bucket => bucket.takeWhile fun slot => !isFree slot

/-- The slots in use are the given entries, and they come before all free slots. -/
def Holds (buckets : List (List α)) (entries : List α) : Prop :=
  (∀ entry ∈ entries, isFree entry = false) ∧
    ∃ unused, buckets.flatten = entries ++ unused ∧ ∀ slot ∈ unused, isFree slot = true

variable {isFree}

theorem fill_full {entry : α} {slots : List α} (full : ∀ slot ∈ slots, isFree slot = false) :
    fill isFree entry slots = none := by
  induction slots with
  | nil => rfl
  | cons slot slots ih =>
      rw [List.forall_mem_cons] at full
      rw [fill, full.1, ih full.2]
      rfl

theorem fill_append {entry slot : α} {before after : List α} (full : ∀ slot ∈ before, isFree slot = false)
    (free : isFree slot = true) :
    fill isFree entry (before ++ slot :: after) = some (before ++ entry :: after) := by
  induction before with
  | nil => rw [List.nil_append, fill, if_pos free, List.nil_append]
  | cons head before ih =>
      rw [List.forall_mem_cons] at full
      rw [List.cons_append, fill, full.1, ih full.2]
      rfl

theorem Holds.insert {entry : α} {spare : List α} {buckets : List (List α)} {entries : List α}
    (holds : Holds isFree buckets entries) (used : isFree entry = false)
    (free : ∀ slot ∈ spare, isFree slot = true) :
    Holds isFree (insert isFree (entry :: spare) entry buckets) (entries ++ [entry]) := by
  obtain ⟨inUse, unused, slots, unusedFree⟩ := holds
  refine ⟨List.forall_mem_append.mpr ⟨inUse, List.forall_mem_singleton.mpr used⟩, ?_⟩
  induction buckets generalizing entries with
  | nil =>
      obtain ⟨rfl, -⟩ := List.append_eq_nil_iff.mp slots.symm
      exact ⟨spare, by simp [Buckets.insert], free⟩
  | cons bucket buckets ih =>
      rw [List.flatten_cons, List.append_eq_append_iff] at slots
      -- The entries end in a later bucket, or a free slot of this one follows them.
      have later : ∀ entries', bucket ++ entries' = entries → buckets.flatten = entries' ++ unused →
          ∃ unused, (Buckets.insert isFree (entry :: spare) entry (bucket :: buckets)).flatten =
            entries ++ [entry] ++ unused ∧ ∀ slot ∈ unused, isFree slot = true := by
        rintro entries' rfl rest
        rw [List.forall_mem_append] at inUse
        obtain ⟨unused', slots', free'⟩ := ih inUse.2 rest
        refine ⟨unused', ?_, free'⟩
        rw [Buckets.insert, fill_full inUse.1]
        simp only [List.flatten_cons, slots', List.append_assoc]
      rcases slots with ⟨entries', same, rest⟩ | ⟨frees, rfl, rest⟩
      · exact later entries' same.symm rest
      · cases frees with
        | nil => exact later [] (by simp) (by simpa using rest.symm)
        | cons slot frees =>
            subst rest
            rw [List.forall_mem_append, List.forall_mem_cons] at unusedFree
            refine ⟨frees ++ buckets.flatten, ?_, List.forall_mem_append.mpr ⟨unusedFree.1.2, unusedFree.2⟩⟩
            rw [Buckets.insert, fill_append inUse unusedFree.1.1]
            simp

theorem Holds.visible_eq {buckets : List (List α)} {entries : List α} (holds : Holds isFree buckets entries) :
    visible isFree buckets = entries := by
  obtain ⟨inUse, unused, slots, unusedFree⟩ := holds
  induction buckets generalizing entries unused with
  | nil => exact (List.append_eq_nil_iff.mp slots.symm).1.symm
  | cons bucket buckets ih =>
      rw [List.flatten_cons, List.append_eq_append_iff] at slots
      have passes : ∀ used : List α, (∀ slot ∈ used, isFree slot = false) →
          ∀ slot ∈ used, (!isFree slot) = true := fun used all slot member => by rw [all slot member]; rfl
      rcases slots with ⟨entries', rfl, rest⟩ | ⟨frees, rfl, rfl⟩
      · rw [List.forall_mem_append] at inUse
        rw [visible, List.flatMap_cons, List.takeWhile_eq_self_iff.mpr (passes bucket inUse.1)]
        exact congrArg (bucket ++ ·) (ih inUse.2 unused rest unusedFree)
      · rw [List.forall_mem_append] at unusedFree
        have stops : frees.takeWhile (fun slot => !isFree slot) = [] := by
          cases frees with
          | nil => rfl
          | cons slot frees => rw [List.takeWhile_cons, unusedFree.1 slot List.mem_cons_self]; rfl
        have nothing : visible isFree buckets = [] :=
          ih (List.forall_mem_nil _) buckets.flatten rfl unusedFree.2
        rw [visible, List.flatMap_cons, List.takeWhile_append_of_pos (passes entries inUse), stops, List.append_nil]
        exact (congrArg (entries ++ ·) nothing).trans (List.append_nil entries)

end ObjcDyld.Buckets
