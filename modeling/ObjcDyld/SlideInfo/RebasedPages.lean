import ObjcDyld.SlideInfo.WrittenPages

/-!
# Rebased pages

What the loader makes of written pages: it follows every chain of every page,
directly or through the extras, and leaves the final values in the locations and
the original content everywhere else.
-/

namespace ObjcDyld.SlideInfo

open Loops

variable {w : ℕ} {version : Version w} {info loaded : Info} {slide : BitVec w}

/-! ## One page -/

/-- Every location holds its final value, and every other word its original one. -/
structure Restored (version : Version w) (data : DataPage) (final : ℕ → BitVec w) (page : Page) :
    Prop where
  locations : ∀ i, data.bitmap i = true → version.pointer.getP page i = final i
  others : ∀ k, ¬ (∃ i, data.bitmap i = true ∧ i ≤ k ∧ k < i + version.pointer.span) →
    page k = data.content k

/-- What the loader reads of the slide info when it follows a chain. -/
structure SameMasks (info loaded : Info) : Prop where
  deltaMask : loaded.deltaMask = info.deltaMask
  valueAdd : loaded.valueAdd = info.valueAdd

section Page

variable {final : ℕ → BitVec w} {data : DataPage} {pageExtras : List ℕ} {page : Page}

theorem Closed.sameMasks (same : SameMasks info loaded) {i : ℕ} {rest : List ℕ}
    (closed : Closed version info slide final page i rest) :
    Closed version loaded slide final page i rest := by
  have decodes : ∀ {raw : BitVec w} {delta : ℕ} {value : BitVec w},
      Decodes version info slide raw delta value → Decodes version loaded slide raw delta value := by
    rintro raw delta value ⟨link, slid⟩
    refine ⟨?_, ?_⟩
    · rwa [Info.mask, Info.deltaShift, Info.mask, same.deltaMask]
    · rwa [Info.mask, Info.add, same.deltaMask, same.valueAdd]
  induction rest generalizing i with
  | nil => exact decodes closed
  | cons next rest ih => exact ⟨closed.1, decodes closed.2.1, ih closed.2.2⟩

theorem Threaded.length_le {chains : List (ℕ × List ℕ)}
    (order : chains.Pairwise fun chain later => ∀ i ∈ onChain chain, i + version.pointer.span ≤ later.1)
    (inside : ∀ chain ∈ chains, ∀ i ∈ onChain chain, i + version.pointer.span ≤ pageWords)
    {bound : ℕ} (from_le : ∀ chain ∈ chains, bound ≤ chain.1) (bound_le : bound ≤ pageWords) :
    bound + chains.length ≤ pageWords := by
  induction chains generalizing bound with
  | nil => exact bound_le
  | cons chain rest ih =>
      obtain ⟨first, order⟩ := List.pairwise_cons.mp order
      have span := version.pointer.span_pos
      have low := from_le chain List.mem_cons_self
      have fits := inside chain List.mem_cons_self chain.1 List.mem_cons_self
      have tail := @ih order (fun later mem => inside later (List.mem_cons_of_mem chain mem))
        (bound + 1) (fun later mem => by
          have := first later mem chain.1 List.mem_cons_self
          omega) (by omega)
      rw [List.length_cons]
      omega

theorem not_covers_of_before {chain later : ℕ × List ℕ}
    (opened : Open version info slide final page later.1 later.2)
    (before : ∀ i ∈ onChain chain, i + version.pointer.span ≤ later.1) {k : ℕ}
    (covered : Covers version (onChain later) k) : ¬ Covers version (onChain chain) k := by
  rintro ⟨i, mem, -, high⟩
  obtain ⟨j, mem', low, -⟩ := covered
  have := before i mem
  have := opened.head_le j mem'
  omega

/-- The chains of a page after the loader went through them. -/
structure Visited (version : Version w) (final : ℕ → BitVec w) (page page' : Page)
    (chains : List (ℕ × List ℕ)) : Prop where
  finals : ∀ chain ∈ chains, ∀ i ∈ onChain chain, version.pointer.getP page' i = final i
  others : ∀ k, (∀ chain ∈ chains, ¬ Covers version (onChain chain) k) → page' k = page k

theorem rebaseExtras_threaded {bits : ℕ} (lawful : version.attributes.Lawful bits)
    {first : ℕ × List ℕ} {rest : List (ℕ × List ℕ)}
    (threaded : Threaded version info slide final page (first :: rest))
    (inside : ∀ chain ∈ first :: rest, ∀ i ∈ onChain chain, i + version.pointer.span ≤ pageWords)
    {before later : List ℕ}
    (extras : info.pageExtras = before ++
      markedStarts version.attributes.endOfExtras ((first :: rest).map Prod.fst) ++ later)
    (short : before.length + rest.length < 2 ^ 16) {fuel : ℕ} (enough : rest.length < fuel) :
    ∃ page', rebaseExtras version info slide fuel before.length page = .ok page' ∧
      Visited version final page page' (first :: rest) := by
  induction rest generalizing first before page fuel with
  | nil =>
      obtain ⟨fuel, rfl⟩ : ∃ n, fuel = n + 1 := ⟨fuel - 1, by omega⟩
      have span := version.pointer.span_pos
      have start := inside first List.mem_cons_self first.1 List.mem_cons_self
      have bound := lawful.pageWords_le
      have power := lawful.pow_le
      have entry : info.pageExtras[before.length]? = some (first.1 + 2 ^ 15) := by
        rw [extras, List.append_assoc, List.getElem?_append_right (Nat.le_refl _), Nat.sub_self,
          lawful.endOfExtras, ← or_flag (show first.1 < 2 ^ 15 by omega)]
        rfl
      obtain ⟨page', run, finals, others⟩ := rebaseChain_closed
        (threaded.closed first List.mem_cons_self) (inside first List.mem_cons_self)
        (Nat.le_add_left pageWords first.1)
      refine ⟨page', ?_, fun chain mem => ?_, fun k away => others k (away first List.mem_cons_self)⟩
      · rw [rebaseExtras, entry]
        simp only
        rw [lawful.flagged_and_index (by omega), run, ok_bind, lawful.endOfExtras,
          if_pos (and_flag_ne_zero (by omega))]
      · obtain rfl := List.mem_singleton.mp mem
        exact finals
  | cons second rest ih =>
      obtain ⟨fuel, rfl⟩ : ∃ n, fuel = n + 1 := ⟨fuel - 1, by omega⟩
      have span := version.pointer.span_pos
      have start := inside first List.mem_cons_self first.1 List.mem_cons_self
      have bound := lawful.pageWords_le
      have power := lawful.pow_le
      obtain ⟨ahead, order⟩ := List.pairwise_cons.mp threaded.order
      rw [List.length_cons] at short enough
      have entry : info.pageExtras[before.length]? = some first.1 := by
        rw [extras, List.append_assoc, List.getElem?_append_right (Nat.le_refl _), Nat.sub_self]
        rfl
      obtain ⟨page₁, run, finals, others⟩ := rebaseChain_closed
        (threaded.closed first List.mem_cons_self) (inside first List.mem_cons_self)
        (Nat.le_add_left pageWords first.1)
      have apart : ∀ chain ∈ second :: rest, ∀ k, Covers version (onChain chain) k →
          ¬ Covers version (onChain first) k := fun chain mem k covered =>
        not_covers_of_before (threaded.closed chain (List.mem_cons_of_mem first mem)).opened
          (ahead chain mem) covered
      have threaded₁ : Threaded version info slide final page₁ (second :: rest) :=
        ⟨fun chain mem => (threaded.closed chain (List.mem_cons_of_mem first mem)).congr
          fun k covered => others k (apart chain mem k covered), order⟩
      obtain ⟨page', further, visited⟩ := @ih page₁ second threaded₁
        (fun chain mem => inside chain (List.mem_cons_of_mem first mem)) (before ++ [first.1])
        (by
          rw [extras]
          simp only [List.map_cons, markedStarts, List.append_assoc, List.cons_append,
            List.nil_append])
        (by
          rw [List.length_append, List.length_singleton]
          omega) fuel (by omega)
      refine ⟨page', ?_, fun chain mem => ?_, fun k away => ?_⟩
      · rw [List.length_append, List.length_singleton] at further
        rw [rebaseExtras, entry]
        simp only
        rw [lawful.and_index (show first.1 < 2 ^ bits by omega), run, ok_bind, lawful.endOfExtras,
          and_flag_eq_zero (show first.1 < 2 ^ 15 by omega), if_neg (not_not.mpr rfl),
          Nat.mod_eq_of_lt (by omega)]
        exact further
      · rcases List.mem_cons.mp mem with rfl | mem
        · intro i on
          rw [← finals i on]
          refine getP_congr fun k low high => visited.others k fun later isLater covered => ?_
          exact apart later isLater k covered ⟨i, on, low, high⟩
        · exact visited.finals chain mem
      · rw [visited.others k fun chain mem => away chain (List.mem_cons_of_mem first mem)]
        exact others k (away first List.mem_cons_self)

theorem Visited.restored (encodable : Encodable version info slide data final) {start : ℕ}
    {extras : List ℕ} {chains : List (ℕ × List ℕ)}
    (written : Written version info slide final data pageExtras page start extras chains)
    {page' : Page} (visited : Visited version final page page' chains) :
    Restored version data final page' := by
  refine ⟨fun i set => ?_, fun k away => ?_⟩
  · have span := version.pointer.span_pos
    have inside := encodable.inside i set
    obtain ⟨chain, mem, on⟩ := written.visited i (by omega) set
    exact visited.finals chain mem i on
  · by_cases covered : ∃ chain ∈ chains, Covers version (onChain chain) k
    · obtain ⟨chain, mem, i, on, low, high⟩ := covered
      have clear : data.bitmap i = false := by
        by_contra set
        rw [Bool.not_eq_false] at set
        exact away ⟨i, set, low, high⟩
      -- A stolen word: the whole pointer is the original one, and so is the word.
      have value := visited.finals chain mem i on
      rw [encodable.keeps i clear] at value
      exact (version.pointer.get_eq_iff _ _ i).mp value k low high
    · have free : ∀ chain ∈ chains, ¬ Covers version (onChain chain) k :=
        fun chain mem here => covered ⟨chain, mem, here⟩
      rw [visited.others k free, written.untouched k free]

theorem rebasePage_written {bits : ℕ} (lawful : version.attributes.Lawful bits)
    (encodable : Encodable version info slide data final) (same : SameMasks info loaded)
    {start : ℕ} {extras : List ℕ} {chains : List (ℕ × List ℕ)}
    (written : Written version info slide final data pageExtras page start extras chains)
    (seen : extras <+: loaded.pageExtras) :
    ∃ page', rebasePage version loaded slide start page = .ok page' ∧
      Restored version data final page' := by
  have threaded : Threaded version loaded slide final page chains :=
    ⟨fun chain mem => (written.threaded.closed chain mem).sameMasks same, written.threaded.order⟩
  have inside := written.inside
  have span := version.pointer.span_pos
  have bound := lawful.pageWords_le
  have power := lawful.pow_le
  suffices found : ∃ page', rebasePage version loaded slide start page = .ok page' ∧
      Visited version final page page' chains by
    obtain ⟨page', run, visited⟩ := found
    exact ⟨page', run, visited.restored encodable written⟩
  cases written.starts with
  | nothing =>
      refine ⟨page, ?_, by simp, fun _ _ => rfl⟩
      rw [rebasePage, if_pos rfl]
  | one chain =>
      have fits := inside chain List.mem_cons_self chain.1 List.mem_cons_self
      obtain ⟨page', run, finals, others⟩ := rebaseChain_closed
        (threaded.closed chain List.mem_cons_self) (inside chain List.mem_cons_self)
        (Nat.le_add_left pageWords chain.1)
      refine ⟨page', ?_, fun chain' mem => ?_, fun k away => others k (away chain List.mem_cons_self)⟩
      · have small : chain.1 &&& version.attributes.extra = 0 := by
          rw [lawful.extra]
          exact and_flag_eq_zero (by omega)
        rw [rebasePage, if_neg (lawful.start_ne (by omega)), if_neg (not_not.mpr small), run]
      · obtain rfl := List.mem_singleton.mp mem
        exact finals
  | many chains some index =>
      obtain ⟨first, rest, rfl⟩ := List.exists_cons_of_ne_nil some
      obtain ⟨later, extras⟩ := seen
      have below := lawful.lastIndex_lt
      have count := Threaded.length_le threaded.order inside (fun _ _ => Nat.zero_le _)
        (Nat.zero_le pageWords)
      rw [List.length_cons] at count
      have words : pageWords = 1024 := rfl
      obtain ⟨page', run, visited⟩ := rebaseExtras_threaded lawful threaded inside extras.symm
        (show pageExtras.length + rest.length < 2 ^ 16 by omega)
        (show rest.length < 2 ^ 16 by omega)
      refine ⟨page', ?_, visited⟩
      have start : pageExtras.length ||| version.attributes.extra = pageExtras.length + 2 ^ 15 := by
        rw [lawful.extra, or_flag (by omega)]
      have flag : pageExtras.length + 2 ^ 15 &&& version.attributes.extra ≠ 0 := by
        rw [lawful.extra]
        exact and_flag_ne_zero (by omega)
      rw [rebasePage, start, if_neg (lawful.extra_ne _ index), if_pos flag,
        lawful.flagged_and_index (by omega), run]

end Page

/-! ## The pages of a cache -/

variable {final : DataPage → ℕ → BitVec w}

/-- Pages as they are written one after another, with their starts and the extras. -/
inductive WrittenAll (version : Version w) (info : Info) (slide : BitVec w)
    (final : DataPage → ℕ → BitVec w) :
    List DataPage → List ℕ → List Page → List ℕ → List ℕ → Prop where
  | nil (extras : List ℕ) : WrittenAll version info slide final [] extras [] [] extras
  | cons {data : DataPage} {rest : List DataPage} {pageExtras : List ℕ} {page : Page} {start : ℕ}
      {extras : List ℕ} {chains : List (ℕ × List ℕ)} {pages : List Page}
      {starts : List ℕ} {extras' : List ℕ}
      (written : Written version info slide (final data) data pageExtras page start extras chains)
      (more : WrittenAll version info slide final rest extras pages starts extras') :
      WrittenAll version info slide final (data :: rest) pageExtras (page :: pages)
        (start :: starts) extras'

/-- A page without rebases comes after a page that needs extras. -/
def EmptyAfterExtras (version : Version w) (info : Info) (pages : List DataPage) : Prop :=
  ∀ before data after, pages = before ++ data :: after →
    (∀ j, j < pageWords → data.bitmap j = false) →
    ∃ earlier ∈ before, NeedsExtras version info earlier

theorem Starts.extend {attributes : Attributes} {pageExtras : List ℕ}
    {chains : List (ℕ × List ℕ)} {start : ℕ} {extras : List ℕ}
    (starts : Starts attributes pageExtras chains start extras) : pageExtras <+: extras := by
  cases starts with
  | nothing => exact List.prefix_refl _
  | one chain => exact List.prefix_refl _
  | many chains some index => exact List.prefix_append _ _

theorem WrittenAll.extend {pages : List DataPage} {pageExtras : List ℕ} {written : List Page}
    {starts extras : List ℕ}
    (all : WrittenAll version info slide final pages pageExtras written starts extras) :
    pageExtras <+: extras := by
  induction all with
  | nil extras => exact List.prefix_refl _
  | cons written more ih => exact written.starts.extend.trans ih

theorem WrittenAll.length_eq {pages : List DataPage} {pageExtras : List ℕ} {written : List Page}
    {starts extras : List ℕ}
    (all : WrittenAll version info slide final pages pageExtras written starts extras) :
    starts.length = pages.length := by
  induction all with
  | nil => rfl
  | cons written more ih => rw [List.length_cons, List.length_cons, ih]

/--
The outcomes of writing slide info: pages with chains, an error that is reported,
or an access to the last of no extras.
-/
inductive Outcome (version : Version w) (info : Info) (slide : BitVec w)
    (final : DataPage → ℕ → BitVec w) (pages : List DataPage) (pageExtras : List ℕ) :
    Except Failure (List Page × List ℕ × List ℕ) → Prop where
  | written {written : List Page} {starts extras : List ℕ}
      (all : WrittenAll version info slide final pages pageExtras written starts extras)
      (unused : extras = [] ↔ pageExtras = [] ∧ ∀ data ∈ pages, ¬ NeedsExtras version info data)
      (after : version.attributes.noRebase &&& version.attributes.extra = 0 ∨ pageExtras ≠ [] ∨
        EmptyAfterExtras version info pages) :
      Outcome version info slide final pages pageExtras (.ok (written, starts, extras))
  | overflow (needs : ∃ data ∈ pages, NeedsExtras version info data)
      (after : version.attributes.noRebase &&& version.attributes.extra = 0 ∨ pageExtras ≠ [] ∨
        EmptyAfterExtras version info pages) :
      Outcome version info slide final pages pageExtras (.error .extrasOverflow)
  | emptyBack (flagged : version.attributes.noRebase &&& version.attributes.extra ≠ 0)
      (none : pageExtras = []) (before : ¬ EmptyAfterExtras version info pages) :
      Outcome version info slide final pages pageExtras (.error .emptyBack)

theorem EmptyAfterExtras.cons_iff {data : DataPage} {rest : List DataPage}
    (some : ¬ ∀ j, j < pageWords → data.bitmap j = false) :
    EmptyAfterExtras version info (data :: rest) ↔
      NeedsExtras version info data ∨ EmptyAfterExtras version info rest := by
  constructor
  · intro after
    by_cases needs : NeedsExtras version info data
    · exact Or.inl needs
    · refine Or.inr fun before empty later split clear => ?_
      obtain ⟨earlier, mem, more⟩ := after (data :: before) empty later (by rw [split]; rfl) clear
      rcases List.mem_cons.mp mem with rfl | mem
      · exact absurd more needs
      · exact ⟨earlier, mem, more⟩
  · intro either before empty later split clear
    cases before with
    | nil =>
        obtain ⟨rfl, -⟩ := List.cons.inj split
        exact absurd clear some
    | cons first before =>
        obtain ⟨rfl, rest_eq⟩ := List.cons.inj split
        rcases either with needs | after
        · exact ⟨data, List.mem_cons_self, needs⟩
        · obtain ⟨earlier, mem, more⟩ := after before empty later rest_eq clear
          exact ⟨earlier, List.mem_cons_of_mem data mem, more⟩

theorem emptyAfterExtras_step {data : DataPage} {pageExtras extras : List ℕ}
    (unused : extras = [] ↔ pageExtras = [] ∧ ¬ NeedsExtras version info data)
    (flag : (∀ j, j < pageWords → data.bitmap j = false) →
      version.attributes.noRebase &&& version.attributes.extra = 0 ∨ pageExtras ≠ [])
    (rest : List DataPage) :
    (version.attributes.noRebase &&& version.attributes.extra = 0 ∨ extras ≠ [] ∨
        EmptyAfterExtras version info rest) ↔
      (version.attributes.noRebase &&& version.attributes.extra = 0 ∨ pageExtras ≠ [] ∨
        EmptyAfterExtras version info (data :: rest)) := by
  have kept : pageExtras ≠ [] → extras ≠ [] := fun some none => some (unused.mp none).1
  by_cases empty : ∀ j, j < pageWords → data.bitmap j = false
  · rcases flag empty with clear | some
    · exact iff_of_true (Or.inl clear) (Or.inl clear)
    · exact iff_of_true (Or.inr (Or.inl (kept some))) (Or.inr (Or.inl some))
  · rw [EmptyAfterExtras.cons_iff empty]
    constructor
    · rintro (clear | some | after)
      · exact Or.inl clear
      · refine Or.inr ?_
        by_cases none : pageExtras = []
        · refine Or.inr (Or.inl ?_)
          by_contra noNeed
          exact some (unused.mpr ⟨none, noNeed⟩)
        · exact Or.inl none
      · exact Or.inr (Or.inr (Or.inr after))
    · rintro (clear | some | needs | after)
      · exact Or.inl clear
      · exact Or.inr (Or.inl (kept some))
      · exact Or.inr (Or.inl fun none => (unused.mp none).2 needs)
      · exact Or.inr (Or.inr after)

theorem addAllPageStarts_spec {bits : ℕ} (lawful : version.attributes.Lawful bits)
    {pages : List DataPage}
    (encodable : ∀ data ∈ pages, Encodable version info slide data (final data))
    {pageExtras : List ℕ} (marked : Marked version.attributes pageExtras) :
    Outcome version info slide final pages pageExtras
      (addAllPageStarts version info pages pageExtras) := by
  induction pages generalizing pageExtras with
  | nil =>
      refine .written (.nil pageExtras) (by simp) (Or.inr (Or.inr fun before data after split => ?_))
      simp at split
  | cons data rest ih =>
      rw [addAllPageStarts]
      rcases addPageStarts_spec lawful (encodable data List.mem_cons_self) marked with
        ⟨page, start, extras, chains, run, written, marked', unused, flag⟩ |
        ⟨run, overflow, needs⟩ | ⟨run, flagged, none, empty⟩
      · rw [run, ok_bind]
        have extend := emptyAfterExtras_step unused flag rest
        have outcome := ih (fun data mem => encodable data (List.mem_cons_of_mem _ mem)) marked'
        simp only
        generalize addAllPageStarts version info rest extras = result at outcome
        cases outcome with
        | written all unused' after =>
            refine .written (.cons written all) ?_ (extend.mp after)
            rw [unused', unused, List.forall_mem_cons, and_assoc]
        | overflow needs after =>
            obtain ⟨later, mem, more⟩ := needs
            exact .overflow ⟨later, List.mem_cons_of_mem data mem, more⟩ (extend.mp after)
        | emptyBack flagged none before =>
            have failed := extend.not.mp
              (not_or.mpr ⟨flagged, not_or.mpr ⟨not_not.mpr none, before⟩⟩)
            rw [not_or, not_or, not_not] at failed
            exact .emptyBack flagged failed.2.1 failed.2.2
      · rw [run]
        refine .overflow ⟨data, List.mem_cons_self, needs⟩ (Or.inr (Or.inl ?_))
        rintro rfl
        exact Nat.not_lt_zero _ overflow
      · rw [run]
        refine .emptyBack flagged none fun after => ?_
        obtain ⟨earlier, mem, -⟩ := after [] data rest rfl empty
        cases mem

theorem rebaseEntries_written {bits : ℕ} (lawful : version.attributes.Lawful bits)
    (same : SameMasks info loaded) {pages : List DataPage}
    (encodable : ∀ data ∈ pages, Encodable version info slide data (final data))
    {pageExtras : List ℕ} {written : List Page} {starts extras : List ℕ}
    (all : WrittenAll version info slide final pages pageExtras written starts extras)
    (seen : extras <+: loaded.pageExtras) (done : List Page)
    (short : done.length + pages.length ≤ 2 ^ 20) :
    ∃ rebased, (starts.zipIdx done.length).foldlM (rebaseEntry version loaded slide)
        (done ++ written) = .ok (done ++ rebased) ∧
      List.Forall₂ (fun data page => Restored version data (final data) page) pages rebased := by
  induction all generalizing done with
  | nil => exact ⟨[], by simp, .nil⟩
  | @cons data rest pageExtras page start extras₁ chains pages starts extras' written more ih =>
      obtain ⟨page', run, restored⟩ := rebasePage_written lawful
        (encodable data List.mem_cons_self) same written (more.extend.trans seen)
      rw [List.length_cons] at short
      obtain ⟨rebased, further, restored'⟩ := ih
        (fun data mem => encodable data (List.mem_cons_of_mem _ mem)) seen (done ++ [page'])
        (by rw [List.length_append, List.length_singleton]; omega)
      refine ⟨page' :: rebased, ?_, .cons restored restored'⟩
      have address : pageAddress done.length = done.length := by
        rw [pageAddress, Nat.mod_eq_of_lt (by omega), Nat.mul_div_cancel_left _ (by decide)]
      have entry : rebaseEntry version loaded slide (done ++ page :: pages) (start, done.length) =
          .ok (done ++ page' :: pages) := by
        rw [rebaseEntry, address, List.getElem?_append_right (Nat.le_refl _), Nat.sub_self]
        simp only [List.getElem?_cons_zero, run, ok_bind]
        rw [List.set_append, if_neg (Nat.lt_irrefl _), Nat.sub_self]
        rfl
      rw [List.zipIdx_cons, List.foldlM_cons, entry, ok_bind]
      simpa using further

end ObjcDyld.SlideInfo
