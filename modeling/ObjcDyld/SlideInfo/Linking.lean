import ObjcDyld.SlideInfo.Walk

/-!
# Linking rebase locations

What `makeRebaseChain` does to the words between two consecutive rebase
locations: it either leads the open chain on to the next location, directly or
through stolen words, or it ends the chain at the last location.
-/

namespace ObjcDyld.SlideInfo

open Loops

variable {w : ℕ} {version : Version w} {info : Info} {slide : BitVec w} {final : ℕ → BitVec w}

/--
The page can be encoded: its locations lie apart in the page, and whatever the
builder writes into a word decodes to the word's final value.  A version whose
links do not reach across a page steals words of one-word pointers only.
-/
structure Encodable (version : Version w) (info : Info) (slide : BitVec w) (data : DataPage)
    (final : ℕ → BitVec w) : Prop where
  inside : ∀ i, data.bitmap i = true → i + version.pointer.span ≤ pageWords
  apart : ∀ i j, data.bitmap i = true → data.bitmap j = true → i < j →
    i + version.pointer.span ≤ j
  within : ∀ i, data.bitmap i = true →
    (version.pointer.getP data.content i - info.add w) &&& info.mask w = 0
  near : ∀ i j, data.bitmap i = true → data.bitmap j = true → i < j → ∀ delta, 0 < delta →
    4 * delta ≤ info.maxDelta w → Decodes version info slide
      (info.strip (version.pointer.getP data.content i) ||| info.link w (4 * delta) |||
        version.tag (data.high8 i)) delta (final i)
  far : info.maxDelta w < 4 * pageWords → ∀ i, data.bitmap i = true → ∀ delta, 0 < delta →
    4 * delta ≤ info.maxDelta w → Decodes version info slide
      (linkValue version info (version.pointer.getP data.content i) (4 * delta)) delta (final i)
  ends : ∀ i, data.bitmap i = true →
    info.maxDelta w < 4 * pageWords ∨ (∀ j, i < j → data.bitmap j = false) →
      Decodes version info slide (info.strip (version.pointer.getP data.content i)) 0 (final i)
  stolen : info.maxDelta w < 4 * pageWords → ∀ i, data.bitmap i = false →
    version.small (version.pointer.getP data.content i) = true → ∀ delta, 0 < delta →
      4 * delta ≤ info.maxDelta w → Decodes version info slide
        (linkValue version info (version.pointer.getP data.content i) (4 * delta)) delta (final i)
  single : info.maxDelta w < 4 * pageWords → version.pointer.span = 1
  keeps : ∀ i, data.bitmap i = false → final i = version.pointer.getP data.content i

/-! ## The search for words to steal -/

/-- `stolen` leads from `i` to `location` in steps that a link can bridge. -/
def Steps (version : Version w) (info : Info) (page : Page) (location : ℕ) : ℕ → List ℕ → Prop
  | i, [] => i < location ∧ 4 * location ≤ 4 * i + info.maxDelta w
  | i, n :: rest =>
      i < n ∧ 4 * n ≤ 4 * i + info.maxDelta w ∧ n < location ∧
        version.small (version.pointer.getP page n) = true ∧ Steps version info page location n rest

theorem stealFrom_some {page : Page} {i k n : ℕ} (found : stealFrom version page i k = some n) :
    i < n ∧ n ≤ i + k ∧ version.small (version.pointer.getP page n) = true := by
  induction k with
  | zero => cases found
  | succ k ih =>
      rw [stealFrom] at found
      by_cases here : version.small (version.pointer.getP page (i + (k + 1))) = true
      · rw [if_pos here] at found
        obtain rfl := Option.some.inj found
        exact ⟨by omega, Nat.le_refl _, here⟩
      · rw [if_neg here] at found
        obtain ⟨low, high, small⟩ := ih found
        exact ⟨low, by omega, small⟩

theorem nonRebaseLocations_spec (page : Page) {location i fuel : ℕ} (before : i < location)
    (enough : location ≤ i + fuel) :
    nonRebaseLocations version info page location fuel i = .ok none ∨
      ∃ stolen, nonRebaseLocations version info page location fuel i = .ok (some stolen) ∧
        Steps version info page location i stolen := by
  induction fuel generalizing i with
  | zero => omega
  | succ fuel ih =>
      rw [nonRebaseLocations]
      by_cases away : 4 * i < 4 * location - info.maxDelta w
      · rw [if_pos away]
        cases found : stealFrom version page i (info.maxDelta w / 4) with
        | none => exact Or.inl rfl
        | some n =>
            obtain ⟨low, high, small⟩ := stealFrom_some found
            have below : n < location := by omega
            rcases ih below (by omega) with fails | ⟨rest, run, steps⟩
            · simp only [fails, ok_bind]
              exact Or.inl rfl
            · simp only [run, ok_bind]
              exact Or.inr ⟨n :: rest, rfl, low, by omega, below, small, steps⟩
      · rw [if_neg away]
        exact Or.inr ⟨[], rfl, before, by omega⟩

theorem nonRebaseLocations_congr {page page' : Page} {location i fuel : ℕ}
    (single : version.pointer.span = 1)
    (same : ∀ k, i < k → k < location → page' k = page k) :
    nonRebaseLocations version info page' location fuel i =
      nonRebaseLocations version info page location fuel i := by
  have steal : ∀ i k, (∀ j, i < j → j ≤ i + k → page' j = page j) →
      stealFrom version page' i k = stealFrom version page i k := by
    intro i k same
    induction k with
    | zero => rfl
    | succ k ih =>
        have here : version.pointer.getP page' (i + (k + 1)) =
            version.pointer.getP page (i + (k + 1)) :=
          getP_congr fun j low high => same j (by omega) (by omega)
        rw [stealFrom, stealFrom, here, ih fun j low high => same j low (by omega)]
  induction fuel generalizing i with
  | zero => rfl
  | succ fuel ih =>
      rw [nonRebaseLocations, nonRebaseLocations]
      by_cases away : 4 * i < 4 * location - info.maxDelta w
      · rw [if_pos away, if_pos away,
          steal i _ fun j low high => same j low (by omega)]
        cases found : stealFrom version page i (info.maxDelta w / 4) with
        | none => rfl
        | some n =>
            have low := (stealFrom_some found).1
            simp only
            rw [ih fun k low' high => same k (by omega) high]
      · rw [if_neg away, if_neg away]

namespace Steps

variable {page : Page} {location i : ℕ} {stolen : List ℕ}

theorem between (steps : Steps version info page location i stolen) :
    ∀ n ∈ stolen, i < n ∧ n < location := by
  induction stolen generalizing i with
  | nil => simp
  | cons m rest ih =>
      obtain ⟨low, -, high, -, further⟩ := steps
      intro n mem
      rcases List.mem_cons.mp mem with rfl | mem
      · exact ⟨low, high⟩
      · obtain ⟨low', high'⟩ := ih further n mem
        exact ⟨by omega, high'⟩

theorem small (steps : Steps version info page location i stolen) :
    ∀ n ∈ stolen, version.small (version.pointer.getP page n) = true := by
  induction stolen generalizing i with
  | nil => simp
  | cons m rest ih =>
      obtain ⟨-, -, -, here, further⟩ := steps
      intro n mem
      rcases List.mem_cons.mp mem with rfl | mem
      · exact here
      · exact ih further n mem

theorem congr {page' : Page} (steps : Steps version info page location i stolen)
    (same : ∀ n ∈ stolen, version.pointer.getP page' n = version.pointer.getP page n) :
    Steps version info page' location i stolen := by
  induction stolen generalizing i with
  | nil => exact steps
  | cons m rest ih =>
      obtain ⟨low, reach, high, small, further⟩ := steps
      refine ⟨low, reach, high, ?_, ih further fun n mem => same n (List.mem_cons_of_mem m mem)⟩
      rwa [same m List.mem_cons_self]

end Steps

theorem linkAll_open (single : version.pointer.span = 1) {page : Page} {location previous : ℕ}
    {stolen : List ℕ} (steps : Steps version info page location previous stolen)
    (links : ∀ n ∈ previous :: stolen, ∀ delta, 0 < delta → 4 * delta ≤ info.maxDelta w →
      Decodes version info slide
        (linkValue version info (version.pointer.getP page n) (4 * delta)) delta (final n)) :
    Open version info slide final (linkAll version info location page previous stolen) previous
        (stolen ++ [location]) ∧
      ∀ k, ¬ Covers version (previous :: stolen) k →
        linkAll version info location page previous stolen k = page k := by
  induction stolen generalizing page previous with
  | nil =>
      obtain ⟨before, reach⟩ := steps
      refine ⟨⟨by omega, ?_, trivial⟩, fun k away => ?_⟩
      · have decodes := links previous List.mem_cons_self (location - previous) (by omega) (by omega)
        rwa [linkAll, version.pointer.get_set, ← Nat.mul_sub]
      · refine version.pointer.set_other page previous _ k ?_
        by_contra here
        exact away ⟨previous, List.mem_cons_self, by omega, by omega⟩
  | cons n rest ih =>
      have later := steps.between
      obtain ⟨low, reach, high, small, further⟩ := steps
      have after : ∀ m ∈ n :: rest, version.pointer.getP (version.pointer.setP page previous
          (linkValue version info (version.pointer.getP page previous) (4 * n - 4 * previous))) m =
            version.pointer.getP page m := fun m mem =>
        getP_setP_other (Or.inl (by have := (later m mem).1; omega))
      obtain ⟨opened, others⟩ := ih
        (further.congr fun m mem => after m (List.mem_cons_of_mem n mem)) (by
          intro m mem delta positive bound
          rw [after m mem]
          exact links m (List.mem_cons_of_mem previous mem) delta positive bound)
      have first : ∀ k, k < n → linkAll version info location page previous (n :: rest) k =
          version.pointer.setP page previous (linkValue version info
            (version.pointer.getP page previous) (4 * n - 4 * previous)) k := by
        intro k below
        refine others k ?_
        rintro ⟨m, mem, low', -⟩
        rcases List.mem_cons.mp mem with rfl | mem
        · omega
        · have := (further.between m mem).1
          omega
      refine ⟨⟨by omega, ?_, opened⟩, fun k away => ?_⟩
      · have decodes := links previous List.mem_cons_self (n - previous) (by omega) (by omega)
        rw [getP_congr fun k _ high => first k (by omega), version.pointer.get_set, ← Nat.mul_sub]
        exact decodes
      · rw [linkAll, others k fun ⟨m, mem, range⟩ => away ⟨m, List.mem_cons_of_mem previous mem, range⟩]
        refine version.pointer.set_other page previous _ k ?_
        by_contra here
        exact away ⟨previous, List.mem_cons_self, by omega, by omega⟩

/-! ## One link -/

/-- No words between two locations lead from the first one to the second. -/
def CannotLink (version : Version w) (info : Info) (data : DataPage) (i j : ℕ) : Prop :=
  4 * i + info.maxDelta w < 4 * j ∧
    nonRebaseLocations version info data.content j pageWords i = .ok none

/-- What `makeRebaseChain` leaves behind between a location and the next one. -/
structure Linked (version : Version w) (info : Info) (slide : BitVec w) (final : ℕ → BitVec w)
    (page page' : Page) (last next : ℕ) (stolen : List ℕ) : Prop where
  opened : Open version info slide final page' last (stolen ++ [next])
  between : ∀ n ∈ stolen, last < n ∧ n < next
  others : ∀ k, ¬ Covers version (last :: stolen) k → page' k = page k

theorem makeRebaseChain_spec {data : DataPage} (encodable : Encodable version info slide data final)
    {page : Page} {last next : ℕ} (lastSet : data.bitmap last = true)
    (nextSet : data.bitmap next = true) (before : last < next)
    (between : ∀ k, last < k → k < next → data.bitmap k = false)
    (untouched : ∀ k, last ≤ k → page k = data.content k) :
    (∃ page' stolen, makeRebaseChain version info data.high8 page last next = .ok (true, page') ∧
        ¬ CannotLink version info data last next ∧
        Linked version info slide final page page' last next stolen) ∨
      (∃ page', makeRebaseChain version info data.high8 page last next = .ok (false, page') ∧
        CannotLink version info data last next ∧
        Decodes version info slide (version.pointer.getP page' last) 0 (final last) ∧
        ∀ k, ¬ Covers version [last] k → page' k = page k) := by
  have lastValue : version.pointer.getP page last = version.pointer.getP data.content last :=
    getP_congr fun k low _ => untouched k low
  have others : ∀ value k, ¬ Covers version [last] k →
      version.pointer.setP page last value k = page k := by
    intro value k away
    refine version.pointer.set_other page last _ k ?_
    by_contra here
    exact away ⟨last, List.mem_cons_self, by omega, by omega⟩
  have apart := encodable.apart last next lastSet nextSet before
  have inside := encodable.inside next nextSet
  have positive := version.pointer.span_pos
  unfold makeRebaseChain
  simp only [lastValue, ne_eq, encodable.within last lastSet, not_true_eq_false, if_false]
  by_cases near : 4 * next ≤ 4 * last + info.maxDelta w
  · left
    rw [if_pos near]
    refine ⟨_, [], rfl, fun cannot => absurd near (Nat.not_le_of_lt cannot.1), ⟨apart, ?_, trivial⟩,
      by simp, others _⟩
    rw [version.pointer.get_set, ← Nat.mul_sub]
    exact encodable.near last next lastSet nextSet before _ (by omega) (by omega)
  · rw [if_neg near]
    have short : info.maxDelta w < 4 * pageWords := by omega
    have single := encodable.single short
    have same : nonRebaseLocations version info page next pageWords last =
        nonRebaseLocations version info data.content next pageWords last :=
      nonRebaseLocations_congr single fun k low _ => untouched k (Nat.le_of_lt low)
    rw [same]
    rcases (nonRebaseLocations_spec data.content before
        (show next ≤ last + pageWords by omega) :
        nonRebaseLocations version info data.content next pageWords last = .ok none ∨ _) with
      fails | ⟨stolen, run, steps⟩
    · right
      rw [fails, ok_bind]
      refine ⟨_, rfl, ⟨Nat.lt_of_not_le near, fails⟩, ?_, others _⟩
      rw [version.pointer.get_set]
      exact encodable.ends last lastSet (Or.inl short)
    · left
      rw [run, ok_bind]
      have steps' : Steps version info page next last stolen := by
        refine steps.congr fun n mem => getP_congr fun k low _ => untouched k ?_
        have := (steps.between n mem).1
        omega
      have links : ∀ n ∈ last :: stolen, ∀ delta, 0 < delta → 4 * delta ≤ info.maxDelta w →
          Decodes version info slide
            (linkValue version info (version.pointer.getP page n) (4 * delta)) delta (final n) := by
        intro n mem delta low high
        rcases List.mem_cons.mp mem with rfl | mem
        · rw [lastValue]
          exact encodable.far short n lastSet delta low high
        · obtain ⟨after, earlier⟩ := steps.between n mem
          have value : version.pointer.getP page n = version.pointer.getP data.content n :=
            getP_congr fun k low _ => untouched k (by omega)
          rw [value]
          exact encodable.stolen short n (between n after earlier) (steps.small n mem) delta low high
      obtain ⟨opened, rest⟩ := linkAll_open single steps' links
      refine ⟨_, stolen, rfl, fun cannot => ?_, opened, steps.between, rest⟩
      rw [cannot.2] at run
      cases run

end ObjcDyld.SlideInfo
