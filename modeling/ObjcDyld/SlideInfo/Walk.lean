import ObjcDyld.SlideInfo.Chains

/-!
# Walking the chains of a page

A chain is closed when every word on it decodes to the distance of the next one
and the last decodes to no distance at all.  The loader visits a closed chain
from its start and leaves the final value in every word of it, and it touches no
other word.
-/

namespace ObjcDyld.SlideInfo

open Loops

variable {w : ℕ} (version : Version w) (info : Info) (slide : BitVec w)

/-- The loader takes the word `raw` for a link of `delta` words and replaces it by `value`. -/
structure Decodes (raw : BitVec w) (delta : ℕ) (value : BitVec w) : Prop where
  delta : ((raw &&& info.mask w) >>> info.deltaShift w).toNat % 2 ^ 32 = 4 * delta
  value : version.slid (info.add w) slide (raw &&& ~~~(info.mask w)) = value

/-- The words of the locations in a list. -/
def Covers (locations : List ℕ) (k : ℕ) : Prop :=
  ∃ i ∈ locations, i ≤ k ∧ k < i + version.pointer.span

variable (final : ℕ → BitVec w)

/-- A chain from `i` through `rest` whose last word has no link yet. -/
def Open (page : Page) : ℕ → List ℕ → Prop
  | _, [] => True
  | i, next :: rest =>
      i + version.pointer.span ≤ next ∧
        Decodes version info slide (version.pointer.getP page i) (next - i) (final i) ∧
        Open page next rest

/-- A chain from `i` through `rest` with an end. -/
def Closed (page : Page) : ℕ → List ℕ → Prop
  | i, [] => Decodes version info slide (version.pointer.getP page i) 0 (final i)
  | i, next :: rest =>
      i + version.pointer.span ≤ next ∧
        Decodes version info slide (version.pointer.getP page i) (next - i) (final i) ∧
        Closed page next rest

variable {version info slide final} {page page' : Page}

theorem getP_congr {i : ℕ}
    (same : ∀ k, i ≤ k → k < i + version.pointer.span → page k = page' k) :
    version.pointer.getP page i = version.pointer.getP page' i :=
  (version.pointer.get_eq_iff page page' i).mpr same

theorem getP_setP_other {i j : ℕ} {value : BitVec w}
    (apart : i + version.pointer.span ≤ j ∨ j + version.pointer.span ≤ i) :
    version.pointer.getP (version.pointer.setP page i value) j = version.pointer.getP page j :=
  getP_congr fun k _ _ => version.pointer.set_other page i value k (by omega)

namespace Open

theorem head_le {i : ℕ} {rest : List ℕ} (opened : Open version info slide final page i rest) :
    ∀ j ∈ i :: rest, i ≤ j := by
  induction rest generalizing i with
  | nil => simp
  | cons next rest ih =>
      obtain ⟨apart, -, further⟩ := opened
      intro j mem
      rcases List.mem_cons.mp mem with rfl | mem
      · exact Nat.le_refl j
      · exact (Nat.le_add_right i _).trans (apart.trans (ih further j mem))

theorem le_last {i : ℕ} {rest : List ℕ} (opened : Open version info slide final page i rest) :
    ∀ j ∈ i :: rest, j ≤ (i :: rest).getLast (List.cons_ne_nil i rest) := by
  induction rest generalizing i with
  | nil => simp
  | cons next rest ih =>
      obtain ⟨apart, -, further⟩ := opened
      intro j mem
      rw [List.getLast_cons (List.cons_ne_nil next rest)]
      rcases List.mem_cons.mp mem with rfl | mem
      · exact (Nat.le_add_right j _).trans (apart.trans (ih further next List.mem_cons_self))
      · exact ih further j mem

theorem apart_last {i : ℕ} {rest : List ℕ} {last : ℕ}
    (opened : Open version info slide final page i (rest ++ [last])) :
    ∀ j ∈ i :: rest, j + version.pointer.span ≤ last := by
  induction rest generalizing i with
  | nil =>
      intro j mem
      obtain rfl := List.mem_singleton.mp mem
      exact opened.1
  | cons next rest ih =>
      obtain ⟨apart, -, further⟩ := opened
      intro j mem
      rcases List.mem_cons.mp mem with rfl | mem
      · have := ih further next List.mem_cons_self
        omega
      · exact ih further j mem

theorem congr {i : ℕ} {rest : List ℕ} (opened : Open version info slide final page i rest)
    (same : ∀ k, k < (i :: rest).getLast (List.cons_ne_nil i rest) → page' k = page k) :
    Open version info slide final page' i rest := by
  induction rest generalizing i with
  | nil => trivial
  | cons next rest ih =>
      obtain ⟨apart, decodes, further⟩ := opened
      rw [List.getLast_cons (List.cons_ne_nil next rest)] at same
      have below := further.le_last next List.mem_cons_self
      refine ⟨apart, ?_, ih further same⟩
      rwa [getP_congr fun k _ high => same k (by omega)]

theorem append {i : ℕ} {rest more : List ℕ} (opened : Open version info slide final page i rest)
    (further : Open version info slide final page
      ((i :: rest).getLast (List.cons_ne_nil i rest)) more) :
    Open version info slide final page i (rest ++ more) := by
  induction rest generalizing i with
  | nil => exact further
  | cons next rest ih =>
      obtain ⟨apart, decodes, tail⟩ := opened
      exact ⟨apart, decodes, ih tail further⟩

theorem close {i : ℕ} {rest : List ℕ} (opened : Open version info slide final page i rest)
    (ends : Decodes version info slide
      (version.pointer.getP page ((i :: rest).getLast (List.cons_ne_nil i rest))) 0
      (final ((i :: rest).getLast (List.cons_ne_nil i rest)))) :
    Closed version info slide final page i rest := by
  induction rest generalizing i with
  | nil => exact ends
  | cons next rest ih =>
      obtain ⟨apart, decodes, tail⟩ := opened
      exact ⟨apart, decodes, ih tail ends⟩

end Open

namespace Closed

theorem opened {i : ℕ} {rest : List ℕ} (closed : Closed version info slide final page i rest) :
    Open version info slide final page i rest := by
  induction rest generalizing i with
  | nil => trivial
  | cons next rest ih =>
      obtain ⟨apart, decodes, tail⟩ := closed
      exact ⟨apart, decodes, ih tail⟩

theorem congr {i : ℕ} {rest : List ℕ} (closed : Closed version info slide final page i rest)
    (same : ∀ k, Covers version (i :: rest) k → page' k = page k) :
    Closed version info slide final page' i rest := by
  induction rest generalizing i with
  | nil =>
      have here := getP_congr fun k low high => same k ⟨i, List.mem_cons_self, low, high⟩
      unfold Closed at closed ⊢
      rwa [here]
  | cons next rest ih =>
      obtain ⟨apart, decodes, tail⟩ := closed
      refine ⟨apart, ?_, ih tail fun k ⟨j, mem, range⟩ => same k ⟨j, List.mem_cons_of_mem i mem, range⟩⟩
      rwa [getP_congr fun k low high => same k ⟨i, List.mem_cons_self, low, high⟩]

end Closed

theorem rebaseChain_closed {i : ℕ} {rest : List ℕ}
    (closed : Closed version info slide final page i rest)
    (inside : ∀ j ∈ i :: rest, j + version.pointer.span ≤ pageWords) {fuel : ℕ}
    (enough : pageWords ≤ i + fuel) :
    ∃ page', rebaseChain version info slide fuel i page = .ok page' ∧
      (∀ j ∈ i :: rest, version.pointer.getP page' j = final j) ∧
      ∀ k, ¬ Covers version (i :: rest) k → page' k = page k := by
  induction rest generalizing i page fuel with
  | nil =>
      have bound := inside i List.mem_cons_self
      have positive := version.pointer.span_pos
      obtain ⟨fuel, rfl⟩ : ∃ n, fuel = n + 1 := ⟨fuel - 1, by omega⟩
      refine ⟨version.pointer.setP page i (final i), ?_, ?_, ?_⟩
      · rw [rebaseChain, if_neg (Nat.not_lt_of_le bound)]
        simp only [closed.delta, closed.value, Nat.mul_zero, if_true]
      · intro j mem
        obtain rfl := List.mem_singleton.mp mem
        exact version.pointer.get_set page j _
      · intro k away
        refine version.pointer.set_other page i _ k ?_
        by_contra between
        exact away ⟨i, List.mem_cons_self, by omega, by omega⟩
  | cons next rest ih =>
      obtain ⟨apart, decodes, tail⟩ := closed
      have bound := inside i List.mem_cons_self
      have positive := version.pointer.span_pos
      have ordered := tail.opened.head_le
      obtain ⟨fuel, rfl⟩ : ∃ n, fuel = n + 1 := ⟨fuel - 1, by omega⟩
      have tail' : Closed version info slide final (version.pointer.setP page i (final i)) next rest :=
        tail.congr fun k ⟨j, mem, low, _⟩ =>
          version.pointer.set_other page i _ k (by have := ordered j mem; omega)
      obtain ⟨page', run, finals, others⟩ := ih tail'
        (fun j mem => inside j (List.mem_cons_of_mem i mem)) (show pageWords ≤ next + fuel by omega)
      refine ⟨page', ?_, ?_, ?_⟩
      · have moves : 4 * (next - i) ≠ 0 := by omega
        have step : i + 4 * (next - i) / 4 = next := by omega
        rw [rebaseChain, if_neg (Nat.not_lt_of_le bound)]
        simp only [decodes.delta, decodes.value, if_neg moves, step, run]
      · intro j mem
        rcases List.mem_cons.mp mem with rfl | mem
        · rw [← version.pointer.get_set page j (final j)]
          refine getP_congr fun k low high => others k ?_
          rintro ⟨o, mem, low', -⟩
          have := ordered o mem
          omega
        · exact finals j mem
      · intro k away
        rw [others k fun ⟨j, mem, range⟩ => away ⟨j, List.mem_cons_of_mem i mem, range⟩]
        refine version.pointer.set_other page i _ k ?_
        by_contra between
        exact away ⟨i, List.mem_cons_self, by omega, by omega⟩

end ObjcDyld.SlideInfo
