import ObjcDyld.Closures.LoadedImages
import ObjcDyld.Common.TopDown

/-!
# Visiting dependents from the top down

`AllImages::visitDependentsTopDown` hands an image and the images it depends on to a handler, which
may stop the visit.  Images are told apart by the number that a link requests; a root that overrides
an image of the cache answers to two numbers.
-/

namespace ObjcDyld.ImageList

open Closures (LinkKind LinkedImage kMissingWeakLinkedImage)

/-- What a visit uses of `closure::Image`. -/
structure LinkingImage where
  imageNum : BitVec 32
  isDylib : Bool
  inDyldCache : Bool
  /-- `isOverrideOfDyldCacheImage`. -/
  cacheImageNum : Option (BitVec 32)
  dependents : List LinkedImage
  deriving DecidableEq

/-- `Image::representsImageNum`. -/
def LinkingImage.representsImageNum (image : LinkingImage) (num : BitVec 32) : Bool :=
  if image.imageNum == num then true
  else if !image.isDylib then false
  else if image.inDyldCache then false
  else
    match image.cacheImageNum with
    | some cacheImageNum => cacheImageNum == num
    | none => false

/-- `_loadedImages`, and `_initialImages` as long as those are not allocated. -/
structure LinkedImages where
  loadedImages : List LinkingImage
  initialImages : Option (List LinkingImage)

namespace LinkedImages

variable (all : LinkedImages)

/-- `AllImages::count`. -/
def count : ℕ := all.loadedImages.length

/-- The images that are searched; a `LoadedImage` is its index among them. -/
def images : List LinkingImage := all.initialImages.getD all.loadedImages

def findImageNum (imageNum : BitVec 32) : Option ℕ :=
  all.images.findIdx? fun image => image.representsImageNum imageNum

def dependents (li : ℕ) : List LinkedImage :=
  match all.images[li]? with
  | some image => image.dependents
  | none => []

def imageNum (li : ℕ) : BitVec 32 :=
  match all.images[li]? with
  | some image => image.imageNum
  | none => 0

/-- The size of `dependentsToRecurse`. -/
def maxDependentsToRecurse : ℕ := 256

/-- What a visit keeps: the numbers in `visited`, the images the handler was called with, `stopped`, and whether an array
was too small. -/
structure Visit where
  visited : List (BitVec 32)
  calls : List ℕ
  stopped : Bool
  overflow : Bool
  deriving DecidableEq

/-- `visited.push_back`. -/
def Visit.markVisited (visit : Visit) (imageNum : BitVec 32) (count : ℕ) : Visit :=
  { visit with visited := visit.visited ++ [imageNum], overflow := visit.overflow || count ≤ visit.visited.length }

/-- The block for `forEachDependentImage`, on the rest of the links; the handler sees the images it was called with. -/
def visitDependents (handler : List ℕ → Bool) : List LinkedImage → Visit → List ℕ → Visit × List ℕ
  | [], visit, dependentsToRecurse => (visit, dependentsToRecurse)
  | dependent :: rest, visit, dependentsToRecurse =>
      let depImageNum := dependent.imageNum.setWidth 32
      -- ignore missing weak links
      if dependent.imageNum = kMissingWeakLinkedImage ∧ dependent.kind = .weak then
        visitDependents handler rest visit dependentsToRecurse
      else if dependent.kind = .upward then visitDependents handler rest visit dependentsToRecurse
      else if depImageNum ∈ visit.visited then visitDependents handler rest visit dependentsToRecurse
      else
        match all.findImageNum depImageNum with
        | none => visitDependents handler rest visit dependentsToRecurse
        | some depLi =>
            let visit := { visit with calls := visit.calls ++ [depLi] }.markVisited depImageNum all.count
            if handler visit.calls then ({ visit with stopped := true }, dependentsToRecurse)
            else
              visitDependents handler rest
                { visit with overflow := visit.overflow || maxDependentsToRecurse ≤ dependentsToRecurse.length }
                (dependentsToRecurse ++ [depLi])

/-- `breadthFirstRecurseDependents`, to a bounded depth. -/
def breadthFirstRecurseDependents (handler : List ℕ → Bool) : ℕ → ℕ → Visit → Option Visit
  | 0, _, _ => none
  | depth + 1, nodeLi, visit =>
      let (visit, dependentsToRecurse) := all.visitDependents handler (all.dependents nodeLi) visit []
      if visit.stopped then some visit
      else dependentsToRecurse.foldlM (fun visit depLi => breadthFirstRecurseDependents handler depth depLi visit) visit

def visitDependentsTopDown (handler : List ℕ → Bool) (depth start : ℕ) : Option Visit :=
  let visit : Visit := ⟨[], [start], false, false⟩
  if handler visit.calls then some visit
  else all.breadthFirstRecurseDependents handler depth start (visit.markVisited (all.imageNum start) all.count)

/-! ## What is expected of a visit -/

/-- A link that is neither missing nor upward and that leads to a loaded image. -/
def IsFollowed (dependent : LinkedImage) : Prop :=
  ¬ (dependent.imageNum = kMissingWeakLinkedImage ∧ dependent.kind = .weak) ∧ dependent.kind ≠ .upward ∧
    (all.findImageNum (dependent.imageNum.setWidth 32)).isSome

instance : DecidablePred all.IsFollowed := fun _ => inferInstanceAs (Decidable (_ ∧ _))

/-- The numbers that are requested by links. -/
def requested (dependents : List LinkedImage) : List (BitVec 32) :=
  (dependents.filter fun dependent => all.IsFollowed dependent).map fun dependent => dependent.imageNum.setWidth 32

def requests (li : ℕ) : List (BitVec 32) := all.requested (all.dependents li)

/-- The image is the start image, or is reached from it through links. -/
def Reaches (start : ℕ) : ℕ → Prop :=
  Relation.ReflTransGen (fun li depLi => ∃ num ∈ all.requests li, all.findImageNum num = some depLi) start

structure IsVisit (handler : List ℕ → Bool) (start : ℕ) (visit : Visit) : Prop where
  first : visit.calls.head? = some start
  once : visit.calls.Nodup
  reached : ∀ li ∈ visit.calls, all.Reaches start li
  complete : handler visit.calls = false → ∀ li, all.Reaches start li → li ∈ visit.calls
  last : ∀ earlier, earlier <+: visit.calls → earlier ≠ visit.calls → earlier ≠ [] → handler earlier = false
  fits : visit.overflow = false

/-! ## When it does -/

/-- The image is reached through links that request other numbers than that of the start image. -/
def ReachesApart (start : ℕ) : ℕ → Prop :=
  Relation.ReflTransGen
    (fun li depLi => ∃ num ∈ all.requests li, num ≠ all.imageNum start ∧ all.findImageNum num = some depLi) start

/-- No image is requested by two numbers. -/
structure WellNumbered (start : ℕ) : Prop where
  apart : ∀ a b, all.ReachesApart start a → all.ReachesApart start b → ∀ m ∈ all.requests a, ∀ n ∈ all.requests b,
    m ≠ all.imageNum start → n ≠ all.imageNum start → all.findImageNum m = all.findImageNum n → m = n
  notStart : ∀ a, all.ReachesApart start a → ∀ m ∈ all.requests a, m ≠ all.imageNum start →
    all.findImageNum m ≠ some start
  own : ∀ a, all.ReachesApart start a → all.imageNum start ∈ all.requests a → ∀ li,
    all.findImageNum (all.imageNum start) = some li → all.ReachesApart start li

/-- The image that a number leads to in a visit. -/
def imageOf (start : ℕ) (num : BitVec 32) : ℕ :=
  if num = all.imageNum start then start else (all.findImageNum num).getD 0

/-- The graph of the numbers that are visited. -/
def succ (start : ℕ) (num : BitVec 32) : List (BitVec 32) := all.requests (all.imageOf start num)

/-- The arrays are large enough for a visit that is not stopped. -/
structure Fits (start : ℕ) : Prop where
  visited : ∀ images : List ℕ, images.Nodup → (∀ li ∈ images, all.ReachesApart start li) → images.length ≤ all.count
  toRecurse : ∀ config, TopDown.Steps (all.succ start) TopDown.never (.start (all.imageNum start)) config →
    config.widest ≤ maxDependentsToRecurse

/-- The images can be visited for every handler: no image answers to two of the numbers, the arrays are large enough, and
an image that calls its first new dependent leaves no new ones to those that wait. -/
structure Visitable (start : ℕ) : Prop where
  numbered : all.WellNumbered start
  fits : all.Fits start
  patient : TopDown.Patient (all.succ start) (all.imageNum start)

/-! ## The visit as a walk from the top down -/

variable {all} {handler : List ℕ → Bool} {start li : ℕ} {num : BitVec 32} {visit : Visit}

/-- What the handler answers for the numbers that are marked. -/
def stopsAt (all : LinkedImages) (handler : List ℕ → Bool) (start : ℕ) (seen : List (BitVec 32)) : Bool :=
  handler (seen.map (all.imageOf start))

theorem imageOf_start : all.imageOf start (all.imageNum start) = start := if_pos rfl

theorem imageOf_found (apart : num ≠ all.imageNum start) (found : all.findImageNum num = some li) :
    all.imageOf start num = li := by
  rw [imageOf, if_neg apart, found, Option.getD_some]

theorem isSome_of_requests (requested : num ∈ all.requests li) : (all.findImageNum num).isSome := by
  obtain ⟨dependent, inside, rfl⟩ := List.mem_map.1 requested
  exact (of_decide_eq_true (List.mem_filter.1 inside).2).2.2

theorem requested_cons_of_followed {dependent : LinkedImage} {rest : List LinkedImage}
    (followed : all.IsFollowed dependent) :
    all.requested (dependent :: rest) = dependent.imageNum.setWidth 32 :: all.requested rest := by
  rw [requested, List.filter_cons_of_pos (by simpa using followed), List.map_cons]
  rfl

theorem requested_cons_of_dropped {dependent : LinkedImage} {rest : List LinkedImage}
    (dropped : ¬ all.IsFollowed dependent) : all.requested (dependent :: rest) = all.requested rest := by
  rw [requested, List.filter_cons_of_neg (by simpa using dropped)]
  rfl

/-- What one look at the links of an image does, beside the pass over the numbers. -/
structure Passed (all : LinkedImages) (start : ℕ) (stopped : Bool) (wide : Prop) (recurse : List ℕ)
    (pass : TopDown.Pass (BitVec 32)) (visit : Visit) (dependentsToRecurse : List ℕ) : Prop where
  visited : visit.visited = pass.seen
  calls : visit.calls = pass.seen.map (all.imageOf start)
  stopped : visit.stopped = (stopped || pass.stopped)
  overflow : visit.overflow = true ↔
    all.count < pass.seen.length ∨ wide ∨ maxDependentsToRecurse < dependentsToRecurse.length
  found : dependentsToRecurse = recurse ++ pass.found.map (all.imageOf start)

theorem visitDependents_passed (dependents : List LinkedImage) (visit : Visit) (recurse : List ℕ) {wide : Prop}
    (calls : visit.calls = visit.visited.map (all.imageOf start)) (rooted : all.imageNum start ∈ visit.visited)
    (overflow : visit.overflow = true ↔
      all.count < visit.visited.length ∨ wide ∨ maxDependentsToRecurse < recurse.length) :
    Passed all start visit.stopped wide recurse
      (TopDown.scan (all.stopsAt handler start) (all.requested dependents) visit.visited)
      (all.visitDependents handler dependents visit recurse).1
      (all.visitDependents handler dependents visit recurse).2 := by
  induction dependents generalizing visit recurse with
  | nil => exact ⟨rfl, calls, (Bool.or_false _).symm, overflow, (List.append_nil _).symm⟩
  | cons dependent rest ih =>
      rw [visitDependents]
      by_cases missing : dependent.imageNum = kMissingWeakLinkedImage ∧ dependent.kind = .weak
      · rw [if_pos missing, requested_cons_of_dropped fun followed => followed.1 missing]
        exact ih visit recurse calls rooted overflow
      rw [if_neg missing]
      by_cases upward : dependent.kind = .upward
      · rw [if_pos upward, requested_cons_of_dropped fun followed => followed.2.1 upward]
        exact ih visit recurse calls rooted overflow
      rw [if_neg upward]
      cases found : all.findImageNum (dependent.imageNum.setWidth 32) with
      | none =>
          have dropped : ¬ all.IsFollowed dependent := by
            intro followed
            have isSome := followed.2.2
            rw [found] at isSome
            exact Bool.false_ne_true isSome
          rw [requested_cons_of_dropped dropped]
          split
          · exact ih visit recurse calls rooted overflow
          · exact ih visit recurse calls rooted overflow
      | some depLi =>
          have followed : all.IsFollowed dependent := ⟨missing, upward, by rw [found]; rfl⟩
          rw [requested_cons_of_followed followed]
          by_cases inside : dependent.imageNum.setWidth 32 ∈ visit.visited
          · rw [if_pos inside, TopDown.scan, if_pos inside]
            exact ih visit recurse calls rooted overflow
          · have apart : dependent.imageNum.setWidth 32 ≠ all.imageNum start := fun same => inside (same ▸ rooted)
            have called : visit.calls ++ [depLi] =
                (visit.visited ++ [dependent.imageNum.setWidth 32]).map (all.imageOf start) := by
              rw [List.map_append, List.map_singleton, imageOf_found apart found, calls]
            have marked : (visit.overflow || decide (all.count ≤ visit.visited.length)) = true ↔
                all.count < (visit.visited ++ [dependent.imageNum.setWidth 32]).length ∨ wide ∨
                  maxDependentsToRecurse < recurse.length := by
              rw [Bool.or_eq_true, overflow, decide_eq_true_eq, List.length_append, List.length_singleton]
              grind
            rw [if_neg inside, TopDown.scan, if_neg inside]
            dsimp only [Visit.markVisited]
            cases stop : handler (visit.calls ++ [depLi]) with
            | true =>
                have stop' : all.stopsAt handler start (visit.visited ++ [dependent.imageNum.setWidth 32]) = true := by
                  rw [stopsAt, ← called, stop]
                rw [if_pos rfl, if_pos stop']
                exact ⟨rfl, called, (Bool.or_true _).symm, marked, (List.append_nil _).symm⟩
            | false =>
                have stop' : ¬ all.stopsAt handler start (visit.visited ++ [dependent.imageNum.setWidth 32]) = true := by
                  rw [stopsAt, ← called, stop]
                  exact Bool.false_ne_true
                rw [if_neg Bool.false_ne_true, if_neg stop']
                have pushed : (visit.overflow || decide (all.count ≤ visit.visited.length) ||
                      decide (maxDependentsToRecurse ≤ recurse.length)) = true ↔
                    all.count < (visit.visited ++ [dependent.imageNum.setWidth 32]).length ∨ wide ∨
                      maxDependentsToRecurse < (recurse ++ [depLi]).length := by
                  have longer : (recurse ++ [depLi]).length = recurse.length + 1 := List.length_append
                  rw [Bool.or_eq_true, marked, decide_eq_true_eq, longer]
                  grind
                have passed := ih
                  ⟨visit.visited ++ [dependent.imageNum.setWidth 32], visit.calls ++ [depLi], visit.stopped,
                    visit.overflow || decide (all.count ≤ visit.visited.length) ||
                      decide (maxDependentsToRecurse ≤ recurse.length)⟩
                  (recurse ++ [depLi]) called (List.mem_append_left _ rooted) pushed
                refine ⟨passed.visited, passed.calls, passed.stopped, passed.overflow, ?_⟩
                refine passed.found.trans ?_
                rw [List.append_assoc, List.map_cons, imageOf_found apart found]
                rfl

/-- The state of a visit and the configuration of the walk over numbers. -/
structure Matches (all : LinkedImages) (start : ℕ) (visit : Visit) (config : TopDown.Config (BitVec 32)) : Prop where
  visited : visit.visited = config.seen
  calls : visit.calls = config.seen.map (all.imageOf start)
  stopped : visit.stopped = config.stopped
  overflow : visit.overflow = true ↔ all.count < config.seen.length ∨ maxDependentsToRecurse < config.widest
  rooted : all.imageNum start ∈ config.seen

open TopDown (Config Steps never)

/-- The walk that a visit takes. -/
abbrev Walks (all : LinkedImages) (handler : List ℕ → Bool) (start : ℕ) : Config (BitVec 32) → Config (BitVec 32) → Prop :=
  Steps (all.succ start) (all.stopsAt handler start)

theorem Matches.step (handler : List ℕ → Bool) {config : Config (BitVec 32)} (matching : Matches all start visit config)
    {waiting : List (BitVec 32)} (pending : config.pending = num :: waiting) :
    Matches all start (all.visitDependents handler (all.dependents (all.imageOf start num)) visit []).1
        (TopDown.step (all.succ start) (all.stopsAt handler start) config) ∧
      ((all.visitDependents handler (all.dependents (all.imageOf start num)) visit []).1.stopped = true →
        (TopDown.step (all.succ start) (all.stopsAt handler start) config).pending = waiting) ∧
      ((all.visitDependents handler (all.dependents (all.imageOf start num)) visit []).1.stopped = false →
        (all.visitDependents handler (all.dependents (all.imageOf start num)) visit []).2 =
            (TopDown.scan (all.stopsAt handler start) (all.succ start num) config.seen).found.map (all.imageOf start) ∧
          (TopDown.step (all.succ start) (all.stopsAt handler start) config).pending =
            (TopDown.scan (all.stopsAt handler start) (all.succ start num) config.seen).found ++ waiting) := by
  have noneYet : visit.overflow = true ↔ all.count < visit.visited.length ∨
      maxDependentsToRecurse < config.widest ∨ maxDependentsToRecurse < ([] : List ℕ).length := by
    rw [matching.overflow, matching.visited, List.length_nil]
    exact or_congr_right (or_iff_left (Nat.not_lt_zero _)).symm
  have passed : Passed all start visit.stopped (maxDependentsToRecurse < config.widest) []
      (TopDown.scan (all.stopsAt handler start) (all.succ start num) visit.visited) _ _ :=
    visitDependents_passed (all.dependents (all.imageOf start num)) visit [] (matching.visited ▸ matching.calls)
      (matching.visited ▸ matching.rooted) noneYet
  rw [matching.visited, matching.stopped] at passed
  generalize all.visitDependents handler (all.dependents (all.imageOf start num)) visit [] = out at passed ⊢
  obtain ⟨visit', dependentsToRecurse⟩ := out
  have rooted := (TopDown.scan_grows (all.stopsAt handler start) (all.succ start num) config.seen).subset matching.rooted
  have found : dependentsToRecurse = _ := passed.found.trans (List.nil_append _)
  have overflow : visit'.overflow = true ↔
      all.count < (TopDown.scan (all.stopsAt handler start) (all.succ start num) config.seen).seen.length ∨
        maxDependentsToRecurse < max config.widest
          (TopDown.scan (all.stopsAt handler start) (all.succ start num) config.seen).found.length := by
    rw [passed.overflow, found, List.length_map, lt_max_iff]
  cases stop : config.stopped || (TopDown.scan (all.stopsAt handler start) (all.succ start num) config.seen).stopped with
  | true =>
      have stopped : visit'.stopped = true := passed.stopped.trans stop
      rw [TopDown.step_of_stopped pending (Bool.or_eq_true _ _ ▸ stop)]
      refine ⟨⟨passed.visited, passed.calls, stopped, overflow, rooted⟩, fun _ => rfl, fun goesOn => ?_⟩
      exact absurd (goesOn.symm.trans stopped) Bool.false_ne_true
  | false =>
      have goesOn : visit'.stopped = false := passed.stopped.trans stop
      obtain ⟨running, notStopped⟩ := Bool.or_eq_false_iff.1 stop
      rw [TopDown.step_of_goesOn pending running notStopped]
      refine ⟨⟨passed.visited, passed.calls, goesOn, overflow, rooted⟩, fun stopped => ?_, fun _ => ⟨found, rfl⟩⟩
      exact absurd (goesOn.symm.trans stopped) Bool.false_ne_true

theorem breadthFirst_walks (depth : ℕ) {visit visit' : Visit} {config : Config (BitVec 32)}
    {waiting : List (BitVec 32)} (matching : Matches all start visit config) (pending : config.pending = num :: waiting)
    (returns : all.breadthFirstRecurseDependents handler depth (all.imageOf start num) visit = some visit') :
    ∃ next, Walks all handler start config next ∧ next.pending = waiting ∧ Matches all start visit' next := by
  induction depth generalizing num visit visit' config waiting with
  | zero => exact absurd returns.symm (Option.some_ne_none visit')
  | succ depth ih =>
      -- the recursions for the images that were found
      have recursions : ∀ (found : List (BitVec 32)) {visit : Visit} {config : Config (BitVec 32)},
          Matches all start visit config → config.pending = found ++ waiting →
          (found.map (all.imageOf start)).foldlM
            (fun visit depLi => all.breadthFirstRecurseDependents handler depth depLi visit) visit = some visit' →
          ∃ next, Walks all handler start config next ∧ next.pending = waiting ∧ Matches all start visit' next := by
        intro found
        induction found with
        | nil =>
            intro visit config matching pending returns
            obtain rfl : visit = visit' := Option.some.inj returns
            exact ⟨config, Relation.ReflTransGen.refl, pending, matching⟩
        | cons node found ihFound =>
            intro visit config matching pending returns
            rw [List.map_cons, List.foldlM_cons] at returns
            obtain ⟨middle, first, rest⟩ := Option.bind_eq_some_iff.1 returns
            obtain ⟨between, path, pending', matching'⟩ := ih matching pending first
            obtain ⟨next, path', done, matching''⟩ := ihFound matching' pending' rest
            exact ⟨next, path.trans path', done, matching''⟩
      obtain ⟨matching', whenStopped, whenNot⟩ := matching.step handler pending
      have nonempty : config.pending ≠ [] := List.ne_nil_of_mem (pending ▸ List.mem_cons_self)
      rw [breadthFirstRecurseDependents] at returns
      cases stopped : (all.visitDependents handler (all.dependents (all.imageOf start num)) visit []).1.stopped with
      | true =>
          simp only [stopped, if_true] at returns
          rw [Option.some.inj returns] at matching'
          exact ⟨_, Steps.one nonempty, whenStopped stopped, matching'⟩
      | false =>
          obtain ⟨same, pending'⟩ := whenNot stopped
          simp only [stopped, Bool.false_eq_true, if_false, same] at returns
          obtain ⟨next, path, done, matching''⟩ := recursions _ matching' pending' returns
          exact ⟨next, (Steps.one nonempty).trans path, done, matching''⟩

/-! ## Termination -/

/-- All numbers that links request. -/
def allRequests (all : LinkedImages) : Finset (BitVec 32) :=
  (all.images.flatMap fun image => all.requested image.dependents).toFinset

/-- How many numbers are still to be visited. -/
def unseen (all : LinkedImages) (seen : List (BitVec 32)) : ℕ := (all.allRequests \ seen.toFinset).card

theorem mem_allRequests {link : BitVec 32} (linked : link ∈ all.succ start num) : link ∈ all.allRequests := by
  rw [succ, requests, dependents] at linked
  cases image : all.images[all.imageOf start num]? with
  | none =>
      rw [image] at linked
      exact absurd linked List.not_mem_nil
  | some linking =>
      rw [image] at linked
      exact List.mem_toFinset.2 (List.mem_flatMap.2 ⟨linking, List.mem_of_getElem? image, linked⟩)

theorem unseen_le {seen seen' : List (BitVec 32)} (grows : seen ⊆ seen') : all.unseen seen' ≤ all.unseen seen :=
  TopDown.unmarked_le grows

theorem unseen_lt {seen seen' : List (BitVec 32)} {link : BitVec 32} (grows : seen ⊆ seen')
    (request : link ∈ all.allRequests) (fresh : link ∉ seen) (marked : link ∈ seen') :
    all.unseen seen' < all.unseen seen :=
  TopDown.unmarked_lt grows request fresh marked

theorem breadthFirst_returns (handler : List ℕ → Bool) (depth : ℕ) {visit : Visit} {config : Config (BitVec 32)}
    {waiting : List (BitVec 32)} (matching : Matches all start visit config) (pending : config.pending = num :: waiting)
    (deep : all.unseen config.seen < depth) :
    ∃ visit', all.breadthFirstRecurseDependents handler depth (all.imageOf start num) visit = some visit' := by
  induction depth generalizing num visit config waiting with
  | zero => exact absurd deep (Nat.not_lt_zero _)
  | succ depth ih =>
      have recursions : ∀ (found : List (BitVec 32)) {visit : Visit} {config : Config (BitVec 32)},
          Matches all start visit config → config.pending = found ++ waiting →
          (found ≠ [] → all.unseen config.seen < depth) →
          ∃ visit', (found.map (all.imageOf start)).foldlM
            (fun visit depLi => all.breadthFirstRecurseDependents handler depth depLi visit) visit = some visit' := by
        intro found
        induction found with
        | nil => exact fun {visit} _ _ _ _ => ⟨visit, rfl⟩
        | cons node found ihFound =>
            intro visit config matching pending deep
            have deep := deep (List.cons_ne_nil _ _)
            obtain ⟨middle, first⟩ := ih matching pending deep
            obtain ⟨between, path, pending', matching'⟩ := breadthFirst_walks depth matching pending first
            have less : all.unseen between.seen ≤ all.unseen config.seen := unseen_le path.grows.subset
            obtain ⟨visit', rest⟩ := ihFound matching' pending' fun _ => Nat.lt_of_le_of_lt less deep
            exact ⟨visit', by rw [List.map_cons, List.foldlM_cons, first]; exact rest⟩
      obtain ⟨matching', _, whenNot⟩ := matching.step handler pending
      have grows := (TopDown.step_grows (all.succ start) (all.stopsAt handler start) config).subset
      rw [breadthFirstRecurseDependents]
      cases stopped : (all.visitDependents handler (all.dependents (all.imageOf start num)) visit []).1.stopped with
      | true => exact ⟨_, if_pos stopped⟩
      | false =>
          obtain ⟨same, pending'⟩ := whenNot stopped
          obtain ⟨visit', rest⟩ := recursions _ matching' pending' fun nonempty => by
            obtain ⟨link, inside⟩ := List.exists_mem_of_ne_nil _ nonempty
            obtain ⟨linked, fresh, marked⟩ := TopDown.fresh_of_found inside
            have less := unseen_lt grows (mem_allRequests linked) fresh (TopDown.step_seen pending ▸ marked)
            omega
          exact ⟨visit', (if_neg (by rw [stopped]; exact Bool.false_ne_true)).trans (same ▸ rest)⟩

theorem matches_start :
    Matches all start (Visit.markVisited ⟨[], [start], false, false⟩ (all.imageNum start) all.count)
      (.start (all.imageNum start)) where
  visited := rfl
  calls := congrArg (fun li => [li]) imageOf_start.symm
  stopped := rfl
  overflow := by
    simp only [Visit.markVisited, Config.start, Bool.false_or, decide_eq_true_eq, List.length_nil, List.length_singleton]
    omega
  rooted := List.mem_singleton_self _

theorem visitDependentsTopDown_of_goesOn (goesOn : handler [start] = false) (depth : ℕ) :
    all.visitDependentsTopDown handler depth start =
      all.breadthFirstRecurseDependents handler depth (all.imageOf start (all.imageNum start))
        (Visit.markVisited ⟨[], [start], false, false⟩ (all.imageNum start) all.count) := by
  rw [visitDependentsTopDown, imageOf_start]
  exact if_neg (by rw [goesOn]; exact Bool.false_ne_true)

theorem visitDependentsTopDown_returns (goesOn : handler [start] = false) :
    ∃ depth visit, all.visitDependentsTopDown handler depth start = some visit := by
  obtain ⟨visit, returns⟩ :=
    breadthFirst_returns handler (all.unseen [all.imageNum start] + 1) matches_start rfl (Nat.lt_succ_self _)
  exact ⟨_, visit, (visitDependentsTopDown_of_goesOn goesOn _).trans returns⟩

theorem visitDependentsTopDown_walks (goesOn : handler [start] = false) {depth : ℕ}
    (returns : all.visitDependentsTopDown handler depth start = some visit) :
    ∃ config, Walks all handler start (.start (all.imageNum start)) config ∧ config.pending = [] ∧
      Matches all start visit config :=
  breadthFirst_walks depth matches_start rfl ((visitDependentsTopDown_of_goesOn goesOn depth).symm.trans returns)

/-! ## Numbers and images -/

/-- A number that a visit may mark. -/
abbrev ReachedNumber (all : LinkedImages) (start : ℕ) : BitVec 32 → Prop :=
  Relation.ReflTransGen (fun above below => below ∈ all.succ start above) (all.imageNum start)

theorem reachesApart_imageOf (reached : ReachedNumber all start num) : all.ReachesApart start (all.imageOf start num) := by
  induction reached with
  | refl => exact imageOf_start ▸ Relation.ReflTransGen.refl
  | @tail above below _ link ih =>
      by_cases own : below = all.imageNum start
      · rw [own, imageOf_start]
        exact Relation.ReflTransGen.refl
      · obtain ⟨li, found⟩ := Option.isSome_iff_exists.1 (isSome_of_requests link)
        rw [imageOf_found own found]
        exact ih.tail ⟨below, link, own, found⟩

theorem exists_number_of_reachesApart (reached : all.ReachesApart start li) :
    ∃ num, ReachedNumber all start num ∧ all.imageOf start num = li := by
  induction reached with
  | refl => exact ⟨all.imageNum start, Relation.ReflTransGen.refl, imageOf_start⟩
  | @tail above below _ link ih =>
      obtain ⟨num, reached, rfl⟩ := ih
      obtain ⟨request, linked, apart, found⟩ := link
      exact ⟨request, reached.tail linked, imageOf_found apart found⟩

theorem ReachesApart.reaches (reached : all.ReachesApart start li) : all.Reaches start li := by
  induction reached with
  | refl => exact Relation.ReflTransGen.refl
  | tail _ link ih =>
      obtain ⟨num, request, _, found⟩ := link
      exact ih.tail ⟨num, request, found⟩

theorem request_of_reachedNumber (reached : ReachedNumber all start num) :
    num = all.imageNum start ∨ ∃ li, all.ReachesApart start li ∧ num ∈ all.requests li := by
  rcases Relation.ReflTransGen.cases_tail reached with same | ⟨above, before, link⟩
  · exact Or.inl same
  · exact Or.inr ⟨_, reachesApart_imageOf before, link⟩

theorem WellNumbered.injective (numbered : all.WellNumbered start) {m n : BitVec 32}
    (reachedM : ReachedNumber all start m) (reachedN : ReachedNumber all start n)
    (same : all.imageOf start m = all.imageOf start n) : m = n := by
  -- a number other than that of the start image does not lead to the start image
  have apart : ∀ num, ReachedNumber all start num → num ≠ all.imageNum start → all.imageOf start num ≠ start := by
    intro num reached other isStart
    obtain own | ⟨li, reached, request⟩ := request_of_reachedNumber reached
    · exact other own
    · obtain ⟨depLi, found⟩ := Option.isSome_iff_exists.1 (isSome_of_requests request)
      rw [imageOf_found other found] at isStart
      exact numbered.notStart li reached num request other (isStart ▸ found)
  by_cases ownM : m = all.imageNum start
  · by_contra differ
    exact apart n reachedN (fun ownN => differ (ownM.trans ownN.symm)) (same ▸ ownM ▸ imageOf_start)
  by_cases ownN : n = all.imageNum start
  · exact absurd (same.trans (ownN ▸ imageOf_start)) (apart m reachedM ownM)
  obtain ⟨a, reachedA, requestM⟩ := (request_of_reachedNumber reachedM).resolve_left ownM
  obtain ⟨b, reachedB, requestN⟩ := (request_of_reachedNumber reachedN).resolve_left ownN
  obtain ⟨liM, foundM⟩ := Option.isSome_iff_exists.1 (isSome_of_requests requestM)
  obtain ⟨liN, foundN⟩ := Option.isSome_iff_exists.1 (isSome_of_requests requestN)
  rw [imageOf_found ownM foundM, imageOf_found ownN foundN] at same
  exact numbered.apart a b reachedA reachedB m requestM n requestN ownM ownN (foundM.trans (same ▸ foundN.symm))

theorem WellNumbered.reachesApart (numbered : all.WellNumbered start) (reached : all.Reaches start li) :
    all.ReachesApart start li := by
  induction reached with
  | refl => exact Relation.ReflTransGen.refl
  | tail _ link ih =>
      obtain ⟨num, request, found⟩ := link
      by_cases own : num = all.imageNum start
      · exact numbered.own _ ih (own ▸ request) _ (own ▸ found)
      · exact ih.tail ⟨num, request, own, found⟩

/-! ## Visits for every handler -/

theorem quietBelow_handler {seen : List (BitVec 32)} (below : TopDown.QuietBelow (all.stopsAt handler start) seen)
    (earlier : List ℕ) (initial : earlier <+: seen.map (all.imageOf start))
    (proper : earlier ≠ seen.map (all.imageOf start)) (nonempty : earlier ≠ []) : handler earlier = false := by
  obtain ⟨marks, initial', rfl⟩ := List.prefix_map_iff.1 initial
  exact below marks initial' (fun same => proper (congrArg _ same)) fun empty => nonempty (congrArg _ empty)

theorem isVisit_of_walk (visitable : all.Visitable start) (goesOn : handler [start] = false)
    {config : Config (BitVec 32)} (path : Walks all handler start (.start (all.imageNum start)) config)
    (done : config.pending = []) (matching : Matches all start visit config) : all.IsVisit handler start visit := by
  have goesOn' : all.stopsAt handler start [all.imageNum start] = false := by
    rw [stopsAt, List.map_singleton, imageOf_start, goesOn]
  have sound := path.sound
  have reached : ∀ li ∈ visit.calls, all.ReachesApart start li := by
    intro li called
    rw [matching.calls] at called
    obtain ⟨num, inside, rfl⟩ := List.mem_map.1 called
    exact reachesApart_imageOf (sound.reached num inside)
  have once : visit.calls.Nodup := by
    rw [matching.calls]
    exact sound.nodup.map_on fun m insideM n insideN =>
      visitable.numbered.injective (sound.reached m insideM) (sound.reached n insideN)
  have room : ¬ all.count < config.seen.length := by
    have few := visitable.fits.visited visit.calls once reached
    rw [matching.calls, List.length_map] at few
    exact Nat.not_lt.2 few
  have first : visit.calls.head? = some start := by
    obtain ⟨rest, seen⟩ := path.grows
    rw [matching.calls, ← seen]
    exact congrArg some imageOf_start
  rcases path.patient visitable.patient goesOn' with ⟨free, quiet⟩ | ⟨halted, other, otherPath, narrow⟩
  · refine ⟨first, once, fun li called => (reached li called).reaches, fun _ li reaches => ?_, ?_, ?_⟩
    · obtain ⟨num, reachedNum, rfl⟩ := exists_number_of_reachesApart (visitable.numbered.reachesApart reaches)
      rw [matching.calls]
      exact List.mem_map_of_mem ((free.mem_iff done).2 reachedNum)
    · rw [matching.calls]
      exact quietBelow_handler quiet.below
    · rw [Bool.eq_false_iff, ne_eq, matching.overflow]
      exact not_or.2 ⟨room, Nat.not_lt.2 (visitable.fits.toRecurse config free)⟩
  · refine ⟨first, once, fun li called => (reached li called).reaches, fun notStopped => ?_, ?_, ?_⟩
    · rw [matching.calls] at notStopped
      exact absurd (halted.atStop.symm.trans notStopped).symm Bool.false_ne_true
    · rw [matching.calls]
      exact quietBelow_handler halted.below
    · rw [Bool.eq_false_iff, ne_eq, matching.overflow]
      exact not_or.2 ⟨room, Nat.not_lt.2 (narrow.trans (visitable.fits.toRecurse other otherPath))⟩

theorem isVisit_of_stopped (stopped : handler [start] = true) :
    all.IsVisit handler start ⟨[], [start], false, false⟩ where
  first := rfl
  once := List.nodup_singleton start
  reached _ called := List.mem_singleton.1 called ▸ Relation.ReflTransGen.refl
  complete goesOn := absurd (goesOn.symm.trans stopped) Bool.false_ne_true
  last earlier initial proper nonempty := by
    rcases List.prefix_concat_iff.1 (show earlier <+: [] ++ [start] from initial) with same | empty
    · exact absurd same proper
    · exact absurd (List.prefix_nil.1 empty) nonempty
  fits := rfl

theorem isVisit_of_visitable (visitable : all.Visitable start) (handler : List ℕ → Bool) :
    ∃ depth visit, all.visitDependentsTopDown handler depth start = some visit ∧ all.IsVisit handler start visit := by
  cases stop : handler [start] with
  | true => exact ⟨0, _, if_pos stop, isVisit_of_stopped stop⟩
  | false =>
      obtain ⟨depth, visit, returns⟩ : ∃ depth visit, all.visitDependentsTopDown handler depth start = some visit :=
        visitDependentsTopDown_returns stop
      obtain ⟨config, path, done, matching⟩ := visitDependentsTopDown_walks stop returns
      exact ⟨depth, visit, returns, isVisit_of_walk visitable stop path done matching⟩

theorem patient_of_isVisit
    (visits : ∀ handler, ∃ depth visit, all.visitDependentsTopDown handler depth start = some visit ∧
      all.IsVisit handler start visit) : TopDown.Patient (all.succ start) (all.imageNum start) := by
  intro config path node waiting pending first isFirst other waits link linked
  by_contra neither
  obtain ⟨fresh, differs⟩ := not_or.1 neither
  -- the handler that stops at the first image that `node` finds
  let handler : List ℕ → Bool := fun calls => calls.length == config.seen.length + 1
  have stopsAt : ∀ marks : List (BitVec 32),
      all.stopsAt handler start marks = true ↔ marks.length = config.seen.length + 1 := fun marks => by
    rw [LinkedImages.stopsAt, beq_iff_eq, List.length_map]
  have goesOn : handler [start] = false := by
    have nonempty := List.length_pos_of_mem path.sound.rooted
    rw [beq_eq_false_iff_ne, List.length_singleton]
    omega
  obtain ⟨depth, visit, returns, isVisit⟩ := visits handler
  obtain ⟨final, ends, done, matching⟩ := visitDependentsTopDown_walks goesOn returns
  obtain ⟨initial, marked⟩ := path.called_again pending isFirst waits linked stopsAt ends done
  have proper : (config.seen ++ [first]).map (all.imageOf start) ≠ visit.calls := by
    intro same
    have lengths := congrArg List.length same
    rw [matching.calls, List.length_map, List.length_map] at lengths
    rw [← initial.eq_of_length lengths] at marked
    rcases List.mem_append.1 marked with old | new
    · exact fresh old
    · exact differs (List.mem_singleton.1 new)
  have quiet := isVisit.last _ (matching.calls ▸ initial.map _) proper (by simp)
  have stopped : handler ((config.seen ++ [first]).map (all.imageOf start)) = true :=
    (stopsAt (config.seen ++ [first])).2 List.length_append
  exact Bool.false_ne_true (quiet.symm.trans stopped)

theorem visitable_of_isVisit
    (visits : ∀ handler, ∃ depth visit, all.visitDependentsTopDown handler depth start = some visit ∧
      all.IsVisit handler start visit) : all.Visitable start := by
  obtain ⟨depth, visit, returns, isVisit⟩ := visits fun _ => false
  obtain ⟨final, path, done, matching⟩ := visitDependentsTopDown_walks rfl returns
  have free : Steps (all.succ start) never (.start (all.imageNum start)) final := path
  have once := isVisit.once
  rw [matching.calls] at once
  have injective := List.inj_on_of_nodup_map once
  have requested : ∀ li, all.ReachesApart start li → ∀ num ∈ all.requests li, num ∈ final.seen := by
    intro li reached num request
    obtain ⟨above, reachedAbove, rfl⟩ := exists_number_of_reachesApart reached
    exact (free.mem_iff done).2 (reachedAbove.tail request)
  have noOverflow := isVisit.fits
  rw [Bool.eq_false_iff, ne_eq, matching.overflow, not_or, Nat.not_lt, Nat.not_lt] at noOverflow
  refine ⟨⟨?_, ?_, ?_⟩, ⟨?_, ?_⟩, patient_of_isVisit visits⟩
  · intro a b reachedA reachedB m requestM n requestN ownM ownN same
    obtain ⟨liM, foundM⟩ := Option.isSome_iff_exists.1 (isSome_of_requests requestM)
    refine injective (requested a reachedA m requestM) (requested b reachedB n requestN) ?_
    rw [imageOf_found ownM foundM, imageOf_found ownN (same ▸ foundM)]
  · intro a reached m request own found
    refine own (injective (requested a reached m request) path.sound.rooted ?_)
    rw [imageOf_found own found, imageOf_start]
  · intro a reached request li found
    have called := isVisit.complete rfl li (reached.reaches.tail ⟨_, request, found⟩)
    rw [matching.calls] at called
    obtain ⟨num, inside, rfl⟩ := List.mem_map.1 called
    exact reachesApart_imageOf (path.sound.reached num inside)
  · intro images nodup reached
    have inside : images ⊆ final.seen.map (all.imageOf start) := by
      intro li member
      obtain ⟨num, reachedNum, rfl⟩ := exists_number_of_reachesApart (reached li member)
      exact List.mem_map_of_mem ((free.mem_iff done).2 reachedNum)
    have few := (nodup.subperm inside).length_le
    rw [List.length_map] at few
    exact few.trans noOverflow.1
  · intro config before
    exact (Steps.widest_le (Steps.to_end before free done)).trans noOverflow.2

variable (all start)

/-- The visits from an image end and are as expected for every handler exactly when the images can be visited. -/
theorem visitDependentsTopDown_iff :
    (∀ handler, ∃ depth visit, all.visitDependentsTopDown handler depth start = some visit ∧
      all.IsVisit handler start visit) ↔ all.Visitable start :=
  ⟨visitable_of_isVisit, isVisit_of_visitable⟩

/-- Five images; the first links to the second and third, which link to the fourth and to the fifth. -/
def branchedImages : LinkedImages where
  loadedImages :=
    [⟨1, false, false, none, [⟨2, .regular⟩, ⟨3, .regular⟩]⟩, ⟨2, true, false, none, [⟨4, .regular⟩]⟩,
      ⟨3, true, false, none, [⟨5, .regular⟩]⟩, ⟨4, true, false, none, []⟩, ⟨5, true, false, none, []⟩]
  initialImages := none

def stopsAtFourth (calls : List ℕ) : Bool := calls.getLast? == some 3

/-- The handler that has stopped the visit at the fourth image is called with the fifth. -/
theorem branchedImages_called_again :
    branchedImages.visitDependentsTopDown stopsAtFourth 3 0 = some ⟨[1, 2, 3, 4, 5], [0, 1, 2, 3, 4], true, false⟩ ∧
      stopsAtFourth [0, 1, 2, 3] = true ∧
      ¬ ∀ handler, ∃ depth visit, branchedImages.visitDependentsTopDown handler depth 0 = some visit ∧
        branchedImages.IsVisit handler 0 visit := by
  refine ⟨by decide +kernel, by decide, fun visits => ?_⟩
  have pending : (Config.start (branchedImages.imageNum 0)).pending ≠ [] := List.cons_ne_nil _ _
  have leaves := patient_of_isVisit visits _ (Steps.one pending) 2 [3] (by decide +kernel) 4 (by decide +kernel) 3
    (List.mem_singleton_self 3) 5 (by decide +kernel)
  exact absurd leaves (by decide +kernel)

end LinkedImages

end ObjcDyld.ImageList
