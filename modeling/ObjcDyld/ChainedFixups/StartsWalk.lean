import ObjcDyld.ChainedFixups.Payload
import ObjcDyld.Common.StoppableLoops

/-!
# The walk over the starts table

`MachOLoaded::forEachFixupInAllChains` up to its calls of `walkChain`, whose results are a
parameter, and what it does on a table that the validator has accepted.
-/

namespace ObjcDyld.ChainedFixups

open StoppableLoops

/-- A call of `walkChain`: its arguments, and the entry of the table that it comes from. -/
structure ChainStart where
  segIndex : ℕ
  pageIndex : ℕ
  entry : ℕ
  offsetInPage : ℕ
deriving DecidableEq

/-- What the walk does: it reads an entry of a `page_start` array, or starts a chain. -/
inductive WalkEvent where
  | reads (segIndex entry : ℕ)
  | starts (start : ChainStart)
deriving DecidableEq

namespace SegmentStarts

variable (segInfo : SegmentStarts)

def entryEvents (segIndex pageIndex entry : ℕ) : List WalkEvent :=
  [.reads segIndex entry, .starts ⟨segIndex, pageIndex, entry, unflagged (segInfo.pageStart entry)⟩]

def walkList (stops : ChainStart → Bool) (segIndex pageIndex : ℕ) : ℕ → ℕ → Option (List WalkEvent × Bool)
  | 0, _ => none
  | fuel + 1, overflowIndex =>
      let events := segInfo.entryEvents segIndex pageIndex overflowIndex
      if stops ⟨segIndex, pageIndex, overflowIndex, unflagged (segInfo.pageStart overflowIndex)⟩ then
        some (events, true)
      else if flagged (segInfo.pageStart overflowIndex) then some (events, false)
      else (walkList stops segIndex pageIndex fuel (overflowIndex + 1)).map fun rest => (events ++ rest.1, rest.2)

/-- One round of the loop over the pages; what the walk of a single chain returns is not looked at. -/
def walkPage (stops : ChainStart → Bool) (fuel segIndex pageIndex : ℕ) : Option (List WalkEvent × Bool) :=
  let offsetInPage := segInfo.pageStart pageIndex
  if offsetInPage = startNone then some ([.reads segIndex pageIndex], false)
  else if flagged offsetInPage then
    -- 32-bit chains which may need multiple starts per page
    (segInfo.walkList stops segIndex pageIndex fuel (unflagged offsetInPage)).map fun list =>
      (.reads segIndex pageIndex :: list.1, list.2)
  else some ([.reads segIndex pageIndex, .starts ⟨segIndex, pageIndex, pageIndex, offsetInPage.toNat⟩], false)

end SegmentStarts

namespace StartsInImage

variable (starts : StartsInImage)

/-- One round of the loop over the segments. -/
def walkSegment (stops : ChainStart → Bool) (fuel segIndex : ℕ) : Option (List WalkEvent × Bool) :=
  if starts.segInfoOffset segIndex = 0 then some ([], false)
  else
    let segInfo := starts.segInfo segIndex
    untilStopped (segInfo.walkPage stops fuel segIndex) (List.range segInfo.pageCount)

/-- `MachOLoaded::forEachFixupInAllChains`. -/
def forEachFixupInAllChains (stops : ChainStart → Bool) (fuel : ℕ) : Option (List WalkEvent) :=
  (untilStopped (starts.walkSegment stops fuel) (List.range starts.segCount)).map Prod.fst

end StartsInImage

namespace SegmentStarts

variable (segInfo : SegmentStarts)

/-- The entry is in the list: no entry from the first one on is flagged before it. -/
def InList (first entry : ℕ) : Prop :=
  first ≤ entry ∧ ∀ index, first ≤ index → index < entry → flagged (segInfo.pageStart index) = false

inductive PageEvent (segIndex pageIndex : ℕ) : WalkEvent → Prop
  | reads : PageEvent segIndex pageIndex (.reads segIndex pageIndex)
  | single (unflagged : flagged (segInfo.pageStart pageIndex) = false) :
      PageEvent segIndex pageIndex (.starts ⟨segIndex, pageIndex, pageIndex, (segInfo.pageStart pageIndex).toNat⟩)
  | list (multiple : segInfo.MultipleStarts pageIndex) {entry : ℕ}
      (inList : segInfo.InList (unflagged (segInfo.pageStart pageIndex)) entry) {event : WalkEvent}
      (member : event ∈ segInfo.entryEvents segIndex pageIndex entry) : PageEvent segIndex pageIndex event

variable {segInfo} {stops : ChainStart → Bool} {segIndex pageIndex : ℕ}

theorem Validated.entry_le {first last entry : ℕ} (validated : segInfo.Validated first last)
    (inList : segInfo.InList first entry) : entry ≤ last + 1 := by
  by_contra beyond
  have unended := inList.2 (last + 1) (Nat.le_succ_of_le validated.le) (by omega)
  rw [validated.ends] at unended
  exact absurd unended (by simp)

theorem walkList_spec {first last : ℕ} (validated : segInfo.Validated first last) (stops : ChainStart → Bool)
    (segIndex pageIndex fuel index : ℕ) (inList : segInfo.InList first index) (enough : last + 2 ≤ index + fuel) :
    ∃ result, segInfo.walkList stops segIndex pageIndex fuel index = some result ∧
      (∀ event ∈ result.1, ∃ entry, segInfo.InList first entry ∧
        event ∈ segInfo.entryEvents segIndex pageIndex entry) ∧
      ((∀ start, stops start = false) → result.2 = false ∧ ∀ entry, index ≤ entry → segInfo.InList first entry →
        ∀ event ∈ segInfo.entryEvents segIndex pageIndex entry, event ∈ result.1) := by
  induction fuel generalizing index with
  | zero =>
      have upto := validated.entry_le inList
      omega
  | succ fuel ih =>
      rw [walkList]
      by_cases stop : stops ⟨segIndex, pageIndex, index, unflagged (segInfo.pageStart index)⟩ = true
      · rw [if_pos stop]
        refine ⟨_, rfl, fun event member => ⟨index, inList, member⟩, fun never => ?_⟩
        rw [never] at stop
        exact absurd stop Bool.false_ne_true
      rw [if_neg stop]
      cases flag : flagged (segInfo.pageStart index) with
      | true =>
          rw [if_pos rfl]
          refine ⟨_, rfl, fun event member => ⟨index, inList, member⟩, fun _ => ⟨rfl, ?_⟩⟩
          intro entry from_index among event member
          rcases Nat.eq_or_lt_of_le from_index with rfl | after
          · exact member
          · have unended := among.2 index inList.1 after
            rw [flag] at unended
            exact absurd unended (by simp)
      | false =>
          have next : segInfo.InList first (index + 1) := by
            refine ⟨Nat.le_succ_of_le inList.1, fun other from_first upto => ?_⟩
            rcases Nat.lt_succ_iff_lt_or_eq.mp upto with before | rfl
            · exact inList.2 other from_first before
            · exact flag
          obtain ⟨result, run, only, all⟩ := ih (index + 1) next (by omega)
          rw [if_neg Bool.false_ne_true, run]
          refine ⟨_, rfl, fun event member => ?_, fun never => ⟨(all never).1, ?_⟩⟩
          · rcases List.mem_append.mp member with here | later
            · exact ⟨index, inList, here⟩
            · exact only event later
          · intro entry from_index among event member
            rcases Nat.eq_or_lt_of_le from_index with rfl | after
            · exact List.mem_append_left _ member
            · exact List.mem_append_right _ ((all never).2 entry after among event member)

/-- The walk of an accepted page ends; it does nothing but what the page has, and all of it unless
it is stopped. -/
theorem walkPage_spec (accepted : segInfo.checkPage pageIndex = true) (stops : ChainStart → Bool)
    (segIndex fuel : ℕ) (enough : segInfo.maxOverflowIndex + 2 ≤ fuel) :
    ∃ result, segInfo.walkPage stops fuel segIndex pageIndex = some result ∧
      (∀ event ∈ result.1, segInfo.PageEvent segIndex pageIndex event) ∧
      ((∀ start, stops start = false) → result.2 = false ∧
        ∀ event, segInfo.PageEvent segIndex pageIndex event → event ∈ result.1) := by
  rw [checkPage] at accepted
  rw [walkPage]
  by_cases none : segInfo.pageStart pageIndex = startNone
  · have flag : flagged (segInfo.pageStart pageIndex) = true := by
      rw [none]
      decide
    rw [if_pos none]
    refine ⟨_, rfl, fun event member => ?_, fun _ => ⟨rfl, ?_⟩⟩
    · obtain rfl := List.mem_singleton.mp member
      exact .reads
    · intro event done
      cases done with
      | reads => exact List.mem_singleton_self _
      | single unflagged => exact absurd (flag.symm.trans unflagged) (by simp)
      | list multiple => exact absurd none multiple.1
  rw [if_neg none] at accepted ⊢
  cases flag : flagged (segInfo.pageStart pageIndex) with
  | false =>
      rw [if_neg Bool.false_ne_true]
      refine ⟨_, rfl, fun event member => ?_, fun _ => ⟨rfl, ?_⟩⟩
      · rcases List.mem_cons.mp member with rfl | member
        · exact .reads
        · obtain rfl := List.mem_singleton.mp member
          exact .single flag
      · intro event done
        cases done with
        | reads => exact List.mem_cons_self
        | single => exact List.mem_cons_of_mem _ (List.mem_singleton_self _)
        | list multiple => exact absurd (flag.symm.trans multiple.2) (by simp)
  | true =>
      rw [flag, Bool.not_true, if_neg Bool.false_ne_true, Option.isSome_iff_exists] at accepted
      obtain ⟨last, found⟩ := accepted
      have validated := (validatedList_iff _ _).mp found
      have bound := validated.bound
      obtain ⟨result, run, only, all⟩ := walkList_spec validated stops segIndex pageIndex fuel
        (unflagged (segInfo.pageStart pageIndex)) ⟨le_rfl, fun index low high => by omega⟩ (by omega)
      rw [if_pos rfl, run]
      refine ⟨_, rfl, fun event member => ?_, fun never => ⟨(all never).1, ?_⟩⟩
      · rcases List.mem_cons.mp member with rfl | member
        · exact .reads
        · obtain ⟨entry, inList, member⟩ := only event member
          exact .list ⟨none, flag⟩ inList member
      · intro event done
        cases done with
        | reads => exact List.mem_cons_self
        | single unflagged => exact absurd (flag.symm.trans unflagged) (by simp)
        | list multiple inList member =>
            exact List.mem_cons_of_mem _ ((all never).2 _ inList.1 inList event member)

end SegmentStarts

namespace StartsInImage

variable {starts : StartsInImage}

/-- What is done for the segments with fixups. -/
structure WalkDoes (starts : StartsInImage) (segIndex pageIndex : ℕ) (event : WalkEvent) : Prop where
  segment : segIndex < starts.segCount
  hasFixups : starts.segInfoOffset segIndex ≠ 0
  page : pageIndex < (starts.segInfo segIndex).pageCount
  event : (starts.segInfo segIndex).PageEvent segIndex pageIndex event

/-- The pages of a segment pass the checks of the validator. -/
def PagesPass (starts : StartsInImage) (segIndex : ℕ) : Prop :=
  ∀ page < (starts.segInfo segIndex).pageCount, (starts.segInfo segIndex).checkPage page = true

theorem walkSegment_spec {segIndex : ℕ} (less : segIndex < starts.segCount)
    (pages : starts.segInfoOffset segIndex ≠ 0 → starts.PagesPass segIndex) (stops : ChainStart → Bool) (fuel : ℕ)
    (enough : starts.segInfoOffset segIndex ≠ 0 → (starts.segInfo segIndex).maxOverflowIndex + 2 ≤ fuel) :
    ∃ result, starts.walkSegment stops fuel segIndex = some result ∧
      (∀ event ∈ result.1, ∃ pageIndex, starts.WalkDoes segIndex pageIndex event) ∧
      ((∀ start, stops start = false) → result.2 = false ∧
        ∀ pageIndex event, starts.WalkDoes segIndex pageIndex event → event ∈ result.1) := by
  rw [walkSegment]
  by_cases hasFixups : starts.segInfoOffset segIndex = 0
  · rw [if_pos hasFixups]
    exact ⟨_, rfl, fun event member => absurd member List.not_mem_nil,
      fun _ => ⟨rfl, fun pageIndex event does => absurd hasFixups does.hasFixups⟩⟩
  rw [if_neg hasFixups]
  obtain ⟨result, run, only, all⟩ := untilStopped_spec (List.range (starts.segInfo segIndex).pageCount) _ _
    fun page inside => SegmentStarts.walkPage_spec (pages hasFixups page (List.mem_range.mp inside)) stops segIndex fuel
      (enough hasFixups)
  refine ⟨result, run, fun event member => ?_, fun never => ⟨(all never).1, fun page event does => ?_⟩⟩
  · obtain ⟨page, inside, done⟩ := only event member
    exact ⟨page, less, hasFixups, List.mem_range.mp inside, done⟩
  · exact (all never).2 page (List.mem_range.mpr does.page) event does.event

/-- The walk over a table whose pages pass ends; it does what the table has, and all of it unless it
is stopped. -/
theorem forEachFixupInAllChains_spec
    (pages : ∀ index < starts.segCount, starts.segInfoOffset index ≠ 0 → starts.PagesPass index)
    (stops : ChainStart → Bool) (fuel : ℕ)
    (enough : ∀ index < starts.segCount, starts.segInfoOffset index ≠ 0 →
      (starts.segInfo index).maxOverflowIndex + 2 ≤ fuel) :
    ∃ events, starts.forEachFixupInAllChains stops fuel = some events ∧
      (∀ event ∈ events, ∃ segIndex pageIndex, starts.WalkDoes segIndex pageIndex event) ∧
      ((∀ start, stops start = false) →
        ∀ segIndex pageIndex event, starts.WalkDoes segIndex pageIndex event → event ∈ events) := by
  obtain ⟨result, run, only, all⟩ := untilStopped_spec (List.range starts.segCount)
    (fun segIndex event => ∃ pageIndex, starts.WalkDoes segIndex pageIndex event) (∀ start, stops start = false)
    fun segIndex inside => by
      have less := List.mem_range.mp inside
      obtain ⟨result, run, only, all⟩ :=
        walkSegment_spec less (pages segIndex less) stops fuel (enough segIndex less)
      exact ⟨result, run, only, fun never => ⟨(all never).1, fun event ⟨page, does⟩ => (all never).2 page event does⟩⟩
  rw [forEachFixupInAllChains, run]
  refine ⟨result.1, rfl, fun event member => ?_, fun never segIndex page event does => ?_⟩
  · obtain ⟨segIndex, -, done⟩ := only event member
    exact ⟨segIndex, done⟩
  · exact (all never).2 segIndex (List.mem_range.mpr does.segment) event ⟨page, does⟩

end StartsInImage

end ObjcDyld.ChainedFixups
