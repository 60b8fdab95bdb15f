import Mathlib

/-!
# Linked chains

A chain of items, each with a link to the next one, up to an item without a link. A chain is
determined by its start, so it has no item twice; and a walk along it ends.
-/

namespace ObjcDyld.LinkedChains

variable {α : Type*} {next next' : α → Option α} {start : Option α} {items : List α} {a b target : α}

/-- The items that the links lead to, from a start. -/
inductive Linked (next : α → Option α) : Option α → List α → Prop where
  | nil : Linked next none []
  | cons {a : α} {items : List α} (tail : Linked next (next a) items) : Linked next (some a) (a :: items)

theorem Linked.tail (linked : Linked next (some a) (b :: items)) : a = b ∧ Linked next (next a) items := by
  cases linked with
  | cons tail => exact ⟨rfl, tail⟩

theorem Linked.functional {items' : List α} (linked : Linked next start items) (linked' : Linked next start items') :
    items = items' := by
  induction linked generalizing items' with
  | nil => cases linked' with | nil => rfl
  | cons tail ih => cases linked' with | cons tail' => rw [ih tail']

theorem Linked.congr (linked : Linked next start items) (same : ∀ a ∈ items, next' a = next a) :
    Linked next' start items := by
  induction linked with
  | nil => exact .nil
  | @cons a items tail ih =>
      refine .cons ?_
      rw [same a List.mem_cons_self]
      exact ih fun b member => same b (List.mem_cons_of_mem _ member)

theorem Linked.drop {before after : List α} (linked : Linked next start (before ++ a :: after)) :
    Linked next (some a) (a :: after) := by
  induction before generalizing start with
  | nil =>
      cases linked with
      | cons tail => exact .cons tail
  | cons first before ih =>
      cases linked with
      | cons tail => exact ih tail

theorem Linked.replace {before after after' : List α} (linked : Linked next start (before ++ a :: after))
    (same : ∀ b ∈ before, next' b = next b) (tail : Linked next' (next' a) after') :
    Linked next' start (before ++ a :: after') := by
  induction before generalizing start with
  | nil =>
      cases linked with
      | cons _ => exact .cons tail
  | cons first before ih =>
      cases linked with
      | cons rest =>
          refine .cons ?_
          rw [same first List.mem_cons_self]
          exact ih rest fun b member => same b (List.mem_cons_of_mem _ member)

theorem Linked.nodup (linked : Linked next start items) : items.Nodup := by
  induction linked with
  | nil => exact List.nodup_nil
  | @cons a items tail ih =>
      refine List.nodup_cons.mpr ⟨fun member => ?_, ih⟩
      obtain ⟨before, after, rfl⟩ := List.append_of_mem member
      have same := (Linked.cons tail).functional tail.drop
      have length := congrArg List.length same
      simp only [List.length_cons, List.length_append] at length
      omega

theorem Linked.next_mem (linked : Linked next start items) (member : a ∈ items) :
    next a = none ∨ ∃ b ∈ items, next a = some b := by
  obtain ⟨before, after, rfl⟩ := List.append_of_mem member
  have tail := linked.drop.tail.2
  generalize next a = link at tail
  cases tail with
  | nil => exact .inl rfl
  | @cons b later _ => exact .inr ⟨b, by simp, rfl⟩

variable [DecidableEq α]

/-- Go on to the item whose link is the target, or that has none. -/
def walk (next : α → Option α) (target : α) : ℕ → α → Option α
  | 0, _ => none
  | fuel + 1, a =>
      match next a with
      | none => some a
      | some b => if b = target then some a else walk next target fuel b

theorem walk_found {before after : List α} (linked : Linked next (some a) (before ++ b :: target :: after)) {fuel : ℕ}
    (enough : before.length < fuel) : walk next target fuel a = some b := by
  induction before generalizing a fuel with
  | nil =>
      obtain ⟨rfl, tail⟩ := linked.tail
      obtain ⟨fuel, rfl⟩ := Nat.exists_eq_succ_of_ne_zero enough.ne'
      rw [walk]
      cases link : next a with
      | none => rfl
      | some c =>
          rw [link] at tail
          exact if_pos tail.tail.1
  | cons first before ih =>
      obtain ⟨rfl, tail⟩ := linked.tail
      obtain ⟨fuel, rfl⟩ := Nat.exists_eq_succ_of_ne_zero (Nat.ne_of_gt (Nat.zero_lt_of_lt enough))
      rw [walk]
      cases link : next a with
      | none =>
          rw [link] at tail
          cases before <;> exact nomatch tail
      | some c =>
          rw [link] at tail
          -- the target comes later, and only once
          have other : c ≠ target := by
            rintro rfl
            have nodup := tail.nodup
            cases before with
            | nil =>
                obtain ⟨rfl, -⟩ := tail.tail
                simp at nodup
            | cons second before =>
                obtain ⟨rfl, -⟩ := tail.tail
                simp at nodup
          dsimp only
          rw [if_neg other]
          exact ih tail (Nat.lt_of_succ_lt_succ enough)

theorem walk_last {before : List α} (linked : Linked next (some a) (before ++ [b])) (absent : target ∉ (before ++ [b]).tail)
    {fuel : ℕ} (enough : before.length < fuel) : walk next target fuel a = some b := by
  induction before generalizing a fuel with
  | nil =>
      obtain ⟨rfl, tail⟩ := linked.tail
      obtain ⟨fuel, rfl⟩ := Nat.exists_eq_succ_of_ne_zero enough.ne'
      rw [walk]
      cases link : next a with
      | none => rfl
      | some c =>
          rw [link] at tail
          exact nomatch tail
  | cons first before ih =>
      obtain ⟨rfl, tail⟩ := linked.tail
      obtain ⟨fuel, rfl⟩ := Nat.exists_eq_succ_of_ne_zero (Nat.ne_of_gt (Nat.zero_lt_of_lt enough))
      rw [walk]
      rw [List.cons_append, List.tail_cons] at absent
      cases link : next a with
      | none =>
          rw [link] at tail
          cases before <;> exact nomatch tail
      | some c =>
          rw [link] at tail
          have head : c ∈ before ++ [b] := by
            cases before with
            | nil => exact tail.tail.1 ▸ List.mem_cons_self
            | cons second before => exact tail.tail.1 ▸ List.mem_cons_self
          dsimp only
          rw [if_neg (by rintro rfl; exact absent head)]
          exact ih tail (fun member => absent (List.mem_of_mem_tail member)) (Nat.lt_of_succ_lt_succ enough)

end ObjcDyld.LinkedChains
