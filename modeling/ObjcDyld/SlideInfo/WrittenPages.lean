import ObjcDyld.SlideInfo.PageStarts

/-!
# Written pages

The loop over a page ends with closed chains through all its locations, unless
the extras overflow.  The loader then finds every location of the page.
-/

namespace ObjcDyld.SlideInfo

open Loops

variable {w : ℕ} {version : Version w} {info : Info} {slide : BitVec w} {final : ℕ → BitVec w}
  {data : DataPage} {pageExtras : List ℕ}

/-! ## The loop over the words of a page -/

theorem Found.split {bound : ℕ} {state : PageState} {chains : List (ℕ × List ℕ)} {head : ℕ}
    {rest : List ℕ} {last : ℕ}
    (found : Found version info slide final data pageExtras bound state chains head rest last)
    (encodable : Encodable version info slide data final) (set : data.bitmap bound = true)
    {state' : PageState} (lastLocation : state'.lastLocation = some bound)
    (ends : Decodes version info slide (version.pointer.getP state'.page last) 0 (final last))
    (others : ∀ k, ¬ Covers version [last] k → state'.page k = state.page k)
    (cannot : CannotLink version info data last bound)
    (index : pageExtras.length ≤ version.attributes.lastIndex)
    (start : state'.startValue = pageExtras.length ||| version.attributes.extra)
    (extras : state'.pageExtras = pageExtras ++ chains.map Prod.fst ++ [head, bound]) :
    Found version info slide final data pageExtras (bound + 1) state' (chains ++ [(head, rest)])
      bound [] bound := by
  have span := version.pointer.span_pos
  have apart := encodable.apart last bound found.lastSet set found.last_lt
  have early : ∀ k, k < last → state'.page k = state.page k := by
    intro k before
    refine others k ?_
    rintro ⟨i, mem, low, -⟩
    obtain rfl := List.mem_singleton.mp mem
    omega
  have members : ∀ i ∈ head :: rest, i + version.pointer.span ≤ bound := by
    intro i mem
    have := found.opened.le_last i mem
    rw [found.last_eq] at this
    omega
  have closed : Closed version info slide final state'.page head rest := by
    refine Open.close (found.opened.congr fun k before => early k ?_) ?_
    · rwa [found.last_eq] at before
    · rw [found.last_eq]
      exact ends
  refine {
    last_eq := rfl
    lastLocation := lastLocation
    lastSet := set
    last_lt := Nat.lt_succ_self bound
    quiet := fun j after before => absurd before (by omega)
    opened := trivial
    threaded := ⟨fun chain mem => ?_, ?_⟩
    below := fun chain mem i on => ?_
    visited := fun j before isSet => ?_
    untouched := fun k away => ?_
    direct := fun none => absurd none (by simp)
    indirect := fun _ => ⟨index, start, ?_⟩
    needs := ?_ }
  · rcases List.mem_append.mp mem with mem | mem
    · exact (found.threaded.closed chain mem).congr fun k covered =>
        early k (found.chain_lt mem covered)
    · obtain rfl := List.mem_singleton.mp mem
      exact closed
  · refine List.pairwise_append.mpr ⟨found.threaded.order, List.pairwise_singleton _ _, ?_⟩
    rintro chain mem later isLater
    obtain rfl := List.mem_singleton.mp isLater
    exact found.below chain mem
  · rcases List.mem_append.mp mem with mem | mem
    · have := found.below chain mem i on
      have := members head List.mem_cons_self
      omega
    · obtain rfl := List.mem_singleton.mp mem
      exact members i on
  · rcases Nat.lt_succ_iff_lt_or_eq.mp before with before | rfl
    · refine Or.inr ?_
      rcases found.visited j before isSet with here | ⟨chain, mem, on⟩
      · exact ⟨(head, rest), by simp, here⟩
      · exact ⟨chain, List.mem_append_left _ mem, on⟩
    · exact Or.inl List.mem_cons_self
  · have lastOn : last ∈ head :: rest := by
      have := List.getLast_mem (List.cons_ne_nil head rest)
      rwa [found.last_eq] at this
    rcases away with after | ⟨-, free⟩
    · rw [others k ?_]
      · exact found.untouched k (Or.inl (by omega))
      · rintro ⟨i, mem, -, high⟩
        obtain rfl := List.mem_singleton.mp mem
        omega
    · have free' : ¬ Covers version (head :: rest) k := free (head, rest) (by simp)
      rw [others k fun ⟨i, mem, range⟩ => free' ⟨i, List.mem_singleton.mp mem ▸ lastOn, range⟩]
      exact found.untouched k (Or.inr ⟨free', fun chain mem => free chain (List.mem_append_left _ mem)⟩)
  · rw [extras]
    simp
  · rw [found.needs_succ set]
    exact iff_of_true (by simp) (Or.inr cannot)

theorem Progress.step {bits bound : ℕ} {state : PageState}
    (lawful : version.attributes.Lawful bits) (encodable : Encodable version info slide data final)
    (progress : Progress version info slide final data pageExtras bound state)
    (fits : bound < pageWords) :
    (∃ state', addLocation version info data state bound = .ok state' ∧
        Progress version info slide final data pageExtras (bound + 1) state') ∨
      (addLocation version info data state bound = .error .extrasOverflow ∧
        version.attributes.lastIndex < pageExtras.length ∧
        NeedsExtrasBelow version info data (bound + 1)) := by
  unfold addLocation
  cases set : data.bitmap bound with
  | false =>
      rw [if_neg (by decide)]
      refine Or.inl ⟨state, rfl, ?_⟩
      cases progress with
      | nothing start empty =>
          refine .nothing start fun j before => ?_
          rcases Nat.lt_succ_iff_lt_or_eq.mp before with before | rfl
          · exact empty j before
          · exact set
      | found found => exact .found (found.skip set)
  | true =>
      rw [if_pos rfl]
      cases progress with
      | nothing start empty =>
          subst start
          rw [if_pos rfl]
          have first : Found version info slide final data pageExtras (bound + 1)
              ⟨data.content, bound, some bound, pageExtras⟩ [] bound [] bound := ?_
          · exact Or.inl ⟨_, rfl, .found first⟩
          refine {
            last_eq := rfl
            lastLocation := rfl
            lastSet := set
            last_lt := Nat.lt_succ_self bound
            quiet := fun j after before => absurd before (by omega)
            opened := trivial
            threaded := ⟨by simp, List.Pairwise.nil⟩
            below := by simp
            visited := fun j before isSet => ?_
            untouched := fun k _ => rfl
            direct := fun _ => ⟨rfl, rfl⟩
            indirect := fun some => absurd rfl some
            needs := ?_ }
          · rcases Nat.lt_succ_iff_lt_or_eq.mp before with before | rfl
            · rw [empty j before] at isSet
              cases isSet
            · exact Or.inl List.mem_cons_self
          · refine iff_of_false (by simp) ?_
            rintro ⟨i, j, order, before, setI, -⟩
            rw [empty i (by omega)] at setI
            cases setI
      | found found =>
          rename_i chains head rest last
          rw [if_neg (found.startValue_ne lawful (Nat.le_of_lt fits)), found.lastLocation,
            Option.getD_some]
          rcases makeRebaseChain_spec encodable found.lastSet set found.last_lt found.quiet
              (fun k after => found.untouched k (Or.inl after)) with
            ⟨page', stolen, run, can, linked⟩ | ⟨page', run, cannot, ends, others⟩
          · rw [run, ok_bind]
            exact Or.inl ⟨_, rfl, .found (found.linked set linked can)⟩
          · rw [run, ok_bind]
            simp only [Bool.false_eq_true, if_false, found.startValue_and lawful (Nat.le_of_lt fits)]
            by_cases direct : chains = []
            · obtain ⟨start, extras⟩ := found.direct direct
              rw [if_pos direct, extras]
              by_cases overflow : pageExtras.length > version.attributes.lastIndex
              · rw [if_pos overflow]
                exact Or.inr ⟨rfl, overflow, (found.needs_succ set).mpr (Or.inr cannot)⟩
              · rw [if_neg overflow]
                refine Or.inl ⟨_, rfl, .found (found.split encodable set rfl ends others cannot
                  (Nat.le_of_not_lt overflow) rfl ?_)⟩
                rw [direct, start]
                simp
            · obtain ⟨index, start, extras⟩ := found.indirect direct
              rw [if_neg direct]
              refine Or.inl ⟨_, rfl, .found (found.split encodable set rfl ends others cannot
                index start ?_)⟩
              rw [extras]
              simp

theorem Progress.loop {bits : ℕ} (lawful : version.attributes.Lawful bits)
    (encodable : Encodable version info slide data final) (pageExtras : List ℕ) (bound : ℕ)
    (fits : bound ≤ pageWords) :
    let start : PageState := ⟨data.content, version.attributes.noRebase, none, pageExtras⟩
    (∃ state, (List.range bound).foldlM (addLocation version info data) start = .ok state ∧
        Progress version info slide final data pageExtras bound state) ∨
      ((List.range bound).foldlM (addLocation version info data) start = .error .extrasOverflow ∧
        version.attributes.lastIndex < pageExtras.length ∧
        NeedsExtrasBelow version info data bound) := by
  intro start
  induction bound with
  | zero => exact Or.inl ⟨start, rfl, .nothing rfl fun j before => absurd before (Nat.not_lt_zero j)⟩
  | succ bound ih =>
      rw [List.range_succ, List.foldlM_append]
      rcases ih (Nat.le_of_succ_le fits) with ⟨state, run, progress⟩ | ⟨run, overflow, needs⟩
      · rw [run, ok_bind]
        simp only [List.foldlM_cons, List.foldlM_nil]
        rcases progress.step lawful encodable fits with ⟨state', step, progress'⟩ | ⟨step, more⟩
        · exact Or.inl ⟨state', by rw [step]; rfl, progress'⟩
        · exact Or.inr ⟨by rw [step]; rfl, more⟩
      · rw [run]
        obtain ⟨i, j, order, before, more⟩ := needs
        exact Or.inr ⟨rfl, overflow, i, j, order, Nat.lt_succ_of_lt before, more⟩

/-! ## The end of a page -/

/-- Chain starts in the extras, the last one with the end mark. -/
def markedStarts (mark : ℕ) : List ℕ → List ℕ
  | [] => []
  | [start] => [start ||| mark]
  | start :: next :: rest => start :: markedStarts mark (next :: rest)

@[simp] theorem markedStarts_append (mark : ℕ) (starts : List ℕ) (last : ℕ) :
    markedStarts mark (starts ++ [last]) = starts ++ [last ||| mark] := by
  induction starts with
  | nil => rfl
  | cons start rest ih =>
      cases rest with
      | nil => rfl
      | cons next rest =>
          rw [List.cons_append, List.cons_append, markedStarts, ← List.cons_append, ih]
          rfl

/-- How the page start and the extras lead to the chains of a page. -/
inductive Starts (attributes : Attributes) (pageExtras : List ℕ) :
    List (ℕ × List ℕ) → ℕ → List ℕ → Prop where
  | nothing : Starts attributes pageExtras [] attributes.noRebase pageExtras
  | one (chain : ℕ × List ℕ) : Starts attributes pageExtras [chain] chain.1 pageExtras
  | many (chains : List (ℕ × List ℕ)) (some : chains ≠ [])
      (index : pageExtras.length ≤ attributes.lastIndex) :
      Starts attributes pageExtras chains (pageExtras.length ||| attributes.extra)
        (pageExtras ++ markedStarts attributes.endOfExtras (chains.map Prod.fst))

/-- A page as it is written, with its chains, its start and the extras up to it. -/
structure Written (version : Version w) (info : Info) (slide : BitVec w) (final : ℕ → BitVec w)
    (data : DataPage) (pageExtras : List ℕ) (page : Page) (start : ℕ) (extras : List ℕ)
    (chains : List (ℕ × List ℕ)) : Prop where
  threaded : Threaded version info slide final page chains
  inside : ∀ chain ∈ chains, ∀ i ∈ onChain chain, i + version.pointer.span ≤ pageWords
  visited : ∀ j, j < pageWords → data.bitmap j = true → ∃ chain ∈ chains, j ∈ onChain chain
  untouched : ∀ k, (∀ chain ∈ chains, ¬ Covers version (onChain chain) k) →
    page k = data.content k
  starts : Starts version.attributes pageExtras chains start extras

/-- The last entry of the extras, if there is one, bears the end mark. -/
def Marked (attributes : Attributes) (pageExtras : List ℕ) : Prop :=
  ∀ back, pageExtras.getLast? = some back → back ||| attributes.endOfExtras = back

/-- Some pair of consecutive locations of the page cannot be linked. -/
def NeedsExtras (version : Version w) (info : Info) (data : DataPage) : Prop :=
  NeedsExtrasBelow version info data pageWords

theorem markBack_marked {attributes : Attributes} (marked : Marked attributes pageExtras)
    (some : pageExtras ≠ []) : markBack attributes.endOfExtras pageExtras = .ok pageExtras := by
  have back := List.getLast?_eq_getLast_of_ne_nil some
  rw [markBack, back]
  simp only
  rw [marked _ back, List.dropLast_concat_getLast]

theorem written_nothing (pageExtras : List ℕ)
    (empty : ∀ j, j < pageWords → data.bitmap j = false) :
    Written version info slide final data pageExtras data.content version.attributes.noRebase
      pageExtras [] where
  threaded := ⟨by simp, List.Pairwise.nil⟩
  inside := by simp
  visited j before set := by
    rw [empty j before] at set
    cases set
  untouched _ _ := rfl
  starts := .nothing

theorem Found.written {state : PageState} {chains : List (ℕ × List ℕ)} {head : ℕ} {rest : List ℕ}
    {last : ℕ}
    (found : Found version info slide final data pageExtras pageWords state chains head rest last)
    (encodable : Encodable version info slide data final) {page : Page}
    (written : page = version.pointer.setP state.page last
      (info.strip (version.pointer.getP state.page last))) {start : ℕ} {extras : List ℕ}
    (starts : Starts version.attributes pageExtras (chains ++ [(head, rest)]) start extras) :
    Written version info slide final data pageExtras page start extras
      (chains ++ [(head, rest)]) := by
  have span := version.pointer.span_pos
  have lastInside := encodable.inside last found.lastSet
  have lastValue : version.pointer.getP state.page last = version.pointer.getP data.content last :=
    getP_congr fun k low _ => found.untouched k (Or.inl low)
  have others : ∀ k, ¬ Covers version [last] k → page k = state.page k := by
    intro k away
    rw [written]
    refine version.pointer.set_other state.page last _ k ?_
    by_contra here
    exact away ⟨last, List.mem_cons_self, by omega, by omega⟩
  have early : ∀ k, k < last → page k = state.page k := by
    intro k before
    refine others k ?_
    rintro ⟨i, mem, low, -⟩
    obtain rfl := List.mem_singleton.mp mem
    omega
  have closed : Closed version info slide final page head rest := by
    refine Open.close (found.opened.congr fun k before => early k ?_) ?_
    · rwa [found.last_eq] at before
    · rw [found.last_eq, written, version.pointer.get_set, lastValue]
      refine encodable.ends last found.lastSet (Or.inr fun j after => ?_)
      by_contra set
      rw [Bool.not_eq_false] at set
      have := encodable.inside j set
      rw [found.quiet j after (by omega)] at set
      cases set
  have lastOn : last ∈ head :: rest := by
    have := List.getLast_mem (List.cons_ne_nil head rest)
    rwa [found.last_eq] at this
  have members : ∀ i ∈ head :: rest, i + version.pointer.span ≤ pageWords := by
    intro i mem
    have := found.opened.le_last i mem
    rw [found.last_eq] at this
    omega
  refine ⟨⟨fun chain mem => ?_, ?_⟩, fun chain mem i on => ?_, fun j before set => ?_,
    fun k free => ?_, starts⟩
  · rcases List.mem_append.mp mem with mem | mem
    · exact (found.threaded.closed chain mem).congr fun k covered =>
        early k (found.chain_lt mem covered)
    · obtain rfl := List.mem_singleton.mp mem
      exact closed
  · refine List.pairwise_append.mpr ⟨found.threaded.order, List.pairwise_singleton _ _, ?_⟩
    rintro chain mem later isLater
    obtain rfl := List.mem_singleton.mp isLater
    exact found.below chain mem
  · rcases List.mem_append.mp mem with mem | mem
    · have := found.below chain mem i on
      have := members head List.mem_cons_self
      omega
    · obtain rfl := List.mem_singleton.mp mem
      exact members i on
  · rcases found.visited j before set with here | ⟨chain, mem, on⟩
    · exact ⟨(head, rest), by simp, here⟩
    · exact ⟨chain, List.mem_append_left _ mem, on⟩
  · have free' : ¬ Covers version (head :: rest) k := free (head, rest) (by simp)
    rw [others k fun ⟨i, mem, range⟩ => free' ⟨i, List.mem_singleton.mp mem ▸ lastOn, range⟩]
    exact found.untouched k
      (Or.inr ⟨free', fun chain mem => free chain (List.mem_append_left _ mem)⟩)

/--
A page is written, or its extras begin too late, or it needs no extras and its
start says that it does.
-/
theorem addPageStarts_spec {bits : ℕ} (lawful : version.attributes.Lawful bits)
    (encodable : Encodable version info slide data final)
    (marked : Marked version.attributes pageExtras) :
    (∃ page start extras chains,
        addPageStarts version info data pageExtras = .ok (page, start, extras) ∧
        Written version info slide final data pageExtras page start extras chains ∧
        Marked version.attributes extras ∧
        (extras = [] ↔ pageExtras = [] ∧ ¬ NeedsExtras version info data) ∧
        ((∀ j, j < pageWords → data.bitmap j = false) →
          version.attributes.noRebase &&& version.attributes.extra = 0 ∨ pageExtras ≠ [])) ∨
      (addPageStarts version info data pageExtras = .error .extrasOverflow ∧
        version.attributes.lastIndex < pageExtras.length ∧ NeedsExtras version info data) ∨
      (addPageStarts version info data pageExtras = .error .emptyBack ∧
        version.attributes.noRebase &&& version.attributes.extra ≠ 0 ∧ pageExtras = [] ∧
        ∀ j, j < pageWords → data.bitmap j = false) := by
  unfold addPageStarts
  rcases Progress.loop lawful encodable pageExtras pageWords (Nat.le_refl _) with
    ⟨state, run, progress⟩ | ⟨run, overflow, needs⟩
  swap
  · simp only [run, error_bind]
    exact Or.inr (Or.inl ⟨trivial, overflow, needs⟩)
  simp only [run, ok_bind]
  cases progress with
  | nothing start empty =>
      subst start
      have noNeed : ¬ NeedsExtras version info data := by
        rintro ⟨i, j, order, before, setI, -⟩
        rw [empty i (by omega)] at setI
        cases setI
      have written : Written version info slide final data pageExtras data.content
          version.attributes.noRebase pageExtras [] := written_nothing pageExtras empty
      by_cases flagged : version.attributes.noRebase &&& version.attributes.extra = 0
      · simp only [ne_eq, flagged, not_true_eq_false, if_false]
        exact Or.inl ⟨_, _, _, [], rfl, written, marked, by simp [noNeed], fun _ => Or.inl trivial⟩
      · simp only [ne_eq, flagged, not_false_eq_true, if_true]
        by_cases none : pageExtras = []
        · subst none
          exact Or.inr (Or.inr ⟨rfl, trivial, rfl, empty⟩)
        · rw [markBack_marked marked none, ok_bind]
          exact Or.inl ⟨_, _, _, [], rfl, written, marked, by simp [none], fun _ => Or.inr none⟩
  | found found =>
      rename_i chains head rest last
      left
      have last_lt := found.last_lt
      have notEmpty : ¬ ∀ j, j < pageWords → data.bitmap j = false := by
        intro empty
        have clear := empty last last_lt
        rw [found.lastSet] at clear
        cases clear
      have used := found.startValue_and lawful (Nat.le_refl _)
      rw [found.lastLocation]
      by_cases direct : chains = []
      · obtain ⟨start, extras⟩ := found.direct direct
        have noNeed : ¬ NeedsExtras version info data := fun needs => found.needs.mpr needs direct
        simp only [ne_eq, used.mpr direct, not_true_eq_false, if_false]
        refine ⟨_, _, _, chains ++ [(head, rest)], rfl, found.written encodable rfl ?_, ?_, ?_,
          fun empty => absurd empty notEmpty⟩
        · rw [start, extras, direct]
          exact .one (head, rest)
        · rwa [extras]
        · simp [extras, noNeed]
      · obtain ⟨index, start, extras⟩ := found.indirect direct
        have needs : NeedsExtras version info data := found.needs.mp direct
        have unused : state.startValue &&& version.attributes.extra ≠ 0 :=
          fun zero => direct (used.mp zero)
        have mark : markBack version.attributes.endOfExtras state.pageExtras = .ok (pageExtras ++
            markedStarts version.attributes.endOfExtras ((chains ++ [(head, rest)]).map Prod.fst)) := by
          have back : (pageExtras ++ chains.map Prod.fst ++ [head]).getLast? = some head :=
            List.getLast?_concat
          rw [extras, markBack, back]
          simp
        simp only [if_pos unused, mark, ok_bind]
        refine ⟨_, _, _, chains ++ [(head, rest)], rfl, found.written encodable rfl ?_, ?_, ?_,
          fun empty => absurd empty notEmpty⟩
        · rw [start]
          exact .many _ (by simp) index
        · intro back isBack
          simp only [List.map_append, List.map_cons, List.map_nil, markedStarts_append,
            ← List.append_assoc, List.getLast?_concat, Option.some.injEq] at isBack
          rw [← isBack, Nat.or_assoc, Nat.or_self]
        · simp [needs]

end ObjcDyld.SlideInfo
