import ObjcDyld.Common.ByteMemory

/-!
# Counted loops

The induction rule for a `for` loop over `0 … n - 1` whose body may fail, and
facts about computations that may fail.
-/

namespace ObjcDyld.Loops

universe u v

variable {σ τ : Type u} {ε : Type v}

@[simp] theorem ok_bind (a : σ) (f : σ → Except ε τ) : (Except.ok a >>= f) = f a := rfl

@[simp] theorem error_bind (e : ε) (f : σ → Except ε τ) : (Except.error e >>= f) = .error e := rfl

@[simp] theorem pure_eq_ok (a : σ) : (pure a : Except ε σ) = .ok a := rfl

theorem bind_eq_ok {x : Except ε σ} {f : σ → Except ε τ} {b : τ} (run : (x >>= f) = .ok b) :
    ∃ a, x = .ok a ∧ f a = .ok b := by
  cases x with
  | error e => cases run
  | ok a => exact ⟨a, rfl, run⟩

/-- Whether a computation succeeds with a result of some kind is decided by running it. -/
instance decidableExistsOk (run : Except ε σ) (kind : σ → Prop) [DecidablePred kind] :
    Decidable (∃ result, run = .ok result ∧ kind result) :=
  match run with
  | .error _ => .isFalse fun ⟨_, eq, _⟩ => nomatch eq
  | .ok result =>
      decidable_of_iff (kind result)
        ⟨fun holds => ⟨result, rfl, holds⟩, fun ⟨_, eq, holds⟩ => Except.ok.inj eq ▸ holds⟩

theorem foldlM_of_mapM {α β : Type u} {items : List α} {f : α → Except ε β} {results : List β}
    (mapped : items.mapM f = .ok results) {step : σ → β → Except ε σ} (start : σ) :
    items.foldlM (fun s item => f item >>= step s) start = results.foldlM step start := by
  induction items generalizing start results with
  | nil =>
      obtain rfl := Except.ok.inj mapped
      rfl
  | cons item items ih =>
      rw [List.mapM_cons] at mapped
      obtain ⟨result, first, mapped⟩ := bind_eq_ok mapped
      obtain ⟨rest, others, mapped⟩ := bind_eq_ok mapped
      obtain rfl := Except.ok.inj mapped
      rw [List.foldlM_cons, List.foldlM_cons, first, ok_bind]
      exact congrArg _ (funext (ih others))

theorem foldlM_range {body : σ → ℕ → Except ε σ} {n : ℕ} (Inv : ℕ → σ → Prop) {start : σ}
    (init : Inv 0 start)
    (step : ∀ i, i < n → ∀ s, Inv i s → ∃ s', body s i = .ok s' ∧ Inv (i + 1) s') :
    ∃ s, (List.range n).foldlM body start = .ok s ∧ Inv n s := by
  induction n with
  | zero => exact ⟨start, rfl, init⟩
  | succ n ih =>
      obtain ⟨middle, run, inv⟩ := ih fun i hi => step i (Nat.lt_succ_of_lt hi)
      obtain ⟨last, ran, done⟩ := step n (Nat.lt_succ_self n) middle inv
      refine ⟨last, ?_, done⟩
      rw [List.range_succ, List.foldlM_append, run]
      change (body middle n >>= pure) = Except.ok last
      rw [ran]
      rfl

end ObjcDyld.Loops

/-!
## Steps on disjoint parts of a memory

A run of steps each of which reads and writes a part of the memory of its own:
what every step does to its part when it is taken is what the whole run does.
-/

namespace ObjcDyld.Footprints

open ByteMemory Loops Set

universe u

variable {σ ε : Type} {α : Type u}

/--
Steps that stay in their footprints: `Done` relates the memory before and after
a step, `ready` is what the steps need and keep of the state besides the memory.
-/
structure Local (memory : σ → Memory) (footprint : α → Set ℕ) (ready : σ → Prop)
    (step : σ → α → Except ε σ) (Done : α → Memory → Memory → Prop) (items : List α) : Prop where
  step_ok : ∀ item ∈ items, ∀ {s s' : σ}, ready s → step s item = .ok s' →
    ready s' ∧ Done item (memory s) (memory s') ∧ EqOn (memory s') (memory s) (footprint item)ᶜ
  congr : ∀ item ∈ items, ∀ {before before' after after' : Memory},
    EqOn before before' (footprint item) → EqOn after after' (footprint item) →
    Done item before after → Done item before' after'

variable {memory : σ → Memory} {footprint : α → Set ℕ} {ready : σ → Prop}
  {step : σ → α → Except ε σ} {Done : α → Memory → Memory → Prop} {items : List α}

theorem Local.run (steps : Local memory footprint ready step Done items)
    (apart : items.Pairwise fun a b => Disjoint (footprint a) (footprint b)) {s s' : σ}
    (isReady : ready s) (run : items.foldlM step s = .ok s') :
    ready s' ∧ (∀ item ∈ items, Done item (memory s) (memory s')) ∧
      EqOn (memory s') (memory s) (⋃ item ∈ items, footprint item)ᶜ := by
  induction items generalizing s with
  | nil =>
      obtain rfl := Except.ok.inj run
      exact ⟨isReady, by simp, fun _ _ => rfl⟩
  | cons first rest ih =>
      obtain ⟨firstApart, restApart⟩ := List.pairwise_cons.mp apart
      rw [List.foldlM_cons] at run
      obtain ⟨middle, taken, run⟩ := bind_eq_ok run
      obtain ⟨middleReady, done, frame⟩ := steps.step_ok first List.mem_cons_self isReady taken
      have later : Local memory footprint ready step Done rest :=
        ⟨fun item mem => steps.step_ok item (List.mem_cons_of_mem first mem),
          fun item mem => steps.congr item (List.mem_cons_of_mem first mem)⟩
      obtain ⟨lastReady, allDone, restFrame⟩ := ih later restApart middleReady run
      refine ⟨lastReady, fun item mem => ?_, fun k outside => ?_⟩
      · rcases List.mem_cons.mp mem with rfl | mem
        · -- The rest of the run does not reach the part of the first step.
          refine steps.congr item List.mem_cons_self (fun _ _ => rfl) (fun k inside => ?_) done
          refine (restFrame fun reached => ?_).symm
          obtain ⟨other, otherMem, inOther⟩ := mem_iUnion₂.mp reached
          exact (firstApart other otherMem).ne_of_mem inside inOther rfl
        · refine steps.congr item (List.mem_cons_of_mem first mem) (fun k inside => ?_)
            (fun _ _ => rfl) (allDone item mem)
          exact frame fun inFirst => (firstApart item mem).ne_of_mem inFirst inside rfl
      · have inRest : k ∉ ⋃ item ∈ rest, footprint item := fun reached => by
          obtain ⟨other, otherMem, inOther⟩ := mem_iUnion₂.mp reached
          exact outside (mem_iUnion₂.mpr ⟨other, List.mem_cons_of_mem first otherMem, inOther⟩)
        have inFirst : k ∉ footprint first := fun inside =>
          outside (mem_iUnion₂.mpr ⟨first, List.mem_cons_self, inside⟩)
        rw [restFrame inRest, frame inFirst]

end ObjcDyld.Footprints

/-!
## Sequences of writes

A write is a partial function from places to values. What a sequence of writes
leaves at a place is the value of the last write to it.
-/

namespace ObjcDyld.Writes

variable {α β : Type*}

/-- What a sequence of writes leaves at a place; `none` where none of them wrote. -/
def final (writes : List (α → Option β)) (place : α) : Option β :=
  writes.foldl (fun held write => (write place).or held) none

theorem foldl_or (writes : List (α → Option β)) (place : α) (held : Option β) :
    writes.foldl (fun held write => (write place).or held) held = (final writes place).or held := by
  induction writes generalizing held with
  | nil => rfl
  | cons write rest ih =>
      rw [final, List.foldl_cons, List.foldl_cons, ih, ih, Option.or_none, Option.or_assoc]

@[simp] theorem final_nil (place : α) : final ([] : List (α → Option β)) place = none := rfl

theorem final_append (first second : List (α → Option β)) (place : α) :
    final (first ++ second) place = (final second place).or (final first place) := by
  rw [final, List.foldl_append, ← final, foldl_or]

@[simp] theorem final_singleton (write : α → Option β) (place : α) : final [write] place = write place :=
  Option.or_none

variable {write other : α → Option β} {first second : List (α → Option β)}

/-- Replacing a write in the middle of a sequence by one to the same places has the effect of
another write at the end exactly when no later write leaves anything else there. -/
theorem final_replace_iff (same : ∀ place, write place = none ↔ other place = none) :
    final (first ++ other :: second) = final ((first ++ write :: second) ++ [other]) ↔
      ∀ place value, other place = some value →
        final second place = none ∨ final second place = some value := by
  rw [funext_iff]
  refine forall_congr' fun place => ?_
  rw [List.append_cons first other, List.append_cons first write]
  simp only [final_append, final_singleton]
  cases written : other place with
  | none =>
      rw [(same place).mpr written]
      simp
  | some value =>
      cases final second place with
      | none => simp
      | some held => simp

theorem final_snoc_congr_iff (same : ∀ place, write place = none ↔ other place = none) :
    final (first ++ [write]) = final (first ++ [other]) ↔ write = other := by
  rw [funext_iff, funext_iff]
  refine forall_congr' fun place => ?_
  rw [final_append, final_append, final_singleton, final_singleton]
  cases written : write place with
  | none => simp [(same place).mp written]
  | some value =>
      cases written' : other place with
      | none => exact absurd ((same place).mpr written') (by rw [written]; nofun)
      | some value' => simp

end ObjcDyld.Writes
