import Mathlib

/-!
# Traversals from the top down

A graph is walked from a root: a node marks those nodes it links to that are not marked yet, and
then each of the nodes it marked does the same.  A callback sees the marked nodes so far, each time
one is marked, and can stop the walk; the nodes that were still waiting then mark theirs nevertheless.
-/

namespace ObjcDyld.TopDown

variable {ν : Type} [DecidableEq ν]

/-! ## A pass over the links of one node -/

/-- What a pass leaves behind: the marked nodes, those of them it marked and went on after, and whether it was stopped. -/
structure Pass (ν : Type) where
  seen : List ν
  found : List ν
  stopped : Bool

/-- Mark the nodes of a list until the callback stops. -/
def scan (stops : List ν → Bool) : List ν → List ν → Pass ν
  | [], seen => ⟨seen, [], false⟩
  | node :: links, seen =>
      if node ∈ seen then scan stops links seen
      else if stops (seen ++ [node]) then ⟨seen ++ [node], [], true⟩
      else
        let rest := scan stops links (seen ++ [node])
        ⟨rest.seen, node :: rest.found, rest.stopped⟩

/-- The callback that never stops. -/
def never : List ν → Bool := fun _ => false

section Scan

variable {stops : List ν → Bool} {links seen : List ν} {node : ν}

omit [DecidableEq ν] in
theorem nodup_snoc (nodup : seen.Nodup) (fresh : node ∉ seen) : (seen ++ [node]).Nodup :=
  List.concat_eq_append ▸ nodup.concat fresh

theorem scan_grows (stops : List ν → Bool) (links seen : List ν) : seen <+: (scan stops links seen).seen := by
  fun_induction scan stops links seen with
  | case1 seen => exact List.prefix_rfl
  | case2 node links seen inside ih => exact ih
  | case3 node links seen fresh stop => exact List.prefix_append _ _
  | case4 node links seen fresh goesOn rest ih => exact (List.prefix_append _ _).trans ih

theorem nodup_scan (nodup : seen.Nodup) : (scan stops links seen).seen.Nodup := by
  fun_induction scan stops links seen with
  | case1 seen => exact nodup
  | case2 node links seen inside ih => exact ih nodup
  | case3 node links seen fresh stop => exact nodup_snoc nodup fresh
  | case4 node links seen fresh goesOn rest ih => exact ih (nodup_snoc nodup fresh)

theorem mem_of_scan (inside : node ∈ (scan stops links seen).seen) : node ∈ seen ∨ node ∈ links := by
  fun_induction scan stops links seen with
  | case1 seen => exact Or.inl inside
  | case2 next links seen _ ih => exact (ih inside).imp_right (List.mem_cons_of_mem _)
  | case3 next links seen _ _ =>
      rcases List.mem_append.1 inside with old | new
      · exact Or.inl old
      · exact Or.inr (List.mem_singleton.1 new ▸ List.mem_cons_self)
  | case4 next links seen _ _ rest ih =>
      rcases ih inside with old | new
      · rcases List.mem_append.1 old with old | new
        · exact Or.inl old
        · exact Or.inr (List.mem_singleton.1 new ▸ List.mem_cons_self)
      · exact Or.inr (List.mem_cons_of_mem _ new)

theorem fresh_of_found (inside : node ∈ (scan stops links seen).found) :
    node ∈ links ∧ node ∉ seen ∧ node ∈ (scan stops links seen).seen := by
  fun_induction scan stops links seen with
  | case1 seen => exact absurd inside List.not_mem_nil
  | case2 next links seen _ ih => exact (ih inside).imp_left (List.mem_cons_of_mem _)
  | case3 next links seen _ _ => exact absurd inside List.not_mem_nil
  | case4 next links seen fresh _ rest ih =>
      rcases List.mem_cons.1 inside with rfl | later
      · exact ⟨List.mem_cons_self, fresh, (scan_grows _ _ _).subset (List.mem_append_right _ (List.mem_singleton_self _))⟩
      · obtain ⟨link, notMarked, marked⟩ := ih later
        exact ⟨List.mem_cons_of_mem _ link, fun old => notMarked (List.mem_append_left _ old), marked⟩

theorem scan_of_goesOn (goesOn : (scan stops links seen).stopped = false) :
    (scan stops links seen).seen = seen ++ (scan stops links seen).found ∧
      ∀ link ∈ links, link ∈ (scan stops links seen).seen := by
  fun_induction scan stops links seen with
  | case1 seen => exact ⟨(List.append_nil seen).symm, List.forall_mem_nil _⟩
  | case2 node links seen inside ih =>
      obtain ⟨same, all⟩ := ih goesOn
      exact ⟨same, List.forall_mem_cons.2 ⟨(scan_grows _ links seen).subset inside, all⟩⟩
  | case3 node links seen fresh stop => exact absurd goesOn.symm Bool.false_ne_true
  | case4 node links seen fresh _ rest ih =>
      obtain ⟨same, all⟩ := ih goesOn
      refine ⟨by rw [same, List.append_assoc]; rfl, List.forall_mem_cons.2 ⟨?_, all⟩⟩
      exact (scan_grows _ links (seen ++ [node])).subset (List.mem_append_right _ (List.mem_singleton_self node))

theorem scan_of_seen (all : ∀ link ∈ links, link ∈ seen) : scan stops links seen = ⟨seen, [], false⟩ := by
  induction links with
  | nil => rfl
  | cons node links ih =>
      rw [List.forall_mem_cons] at all
      rw [scan, if_pos all.1, ih all.2]

/-- The callback has not stopped the walk before its last mark. -/
def QuietBelow (stops : List ν → Bool) (seen : List ν) : Prop :=
  ∀ earlier, earlier <+: seen → earlier ≠ seen → earlier ≠ [] → stops earlier = false

/-- The callback has not stopped the walk. -/
def Quiet (stops : List ν → Bool) (seen : List ν) : Prop :=
  ∀ earlier, earlier <+: seen → earlier ≠ [] → stops earlier = false

omit [DecidableEq ν] in
theorem Quiet.below (quiet : Quiet stops seen) : QuietBelow stops seen := fun earlier initial _ nonempty =>
  quiet earlier initial nonempty

omit [DecidableEq ν] in
theorem quietBelow_snoc (quiet : Quiet stops seen) : QuietBelow stops (seen ++ [node]) := by
  intro earlier initial proper nonempty
  rcases List.prefix_concat_iff.1 initial with same | before
  · exact absurd same proper
  · exact quiet earlier before nonempty

omit [DecidableEq ν] in
theorem quiet_snoc (quiet : Quiet stops seen) (goesOn : stops (seen ++ [node]) = false) :
    Quiet stops (seen ++ [node]) := by
  intro earlier initial nonempty
  rcases List.prefix_concat_iff.1 initial with same | before
  · rw [same]
    exact goesOn
  · exact quiet earlier before nonempty

/-- A pass that is stopped ends with the mark at which it was, the first at which the callback stops; one that is not
stopped does what a pass without the callback does. -/
theorem scan_of_quiet (links : List ν) (quiet : Quiet stops seen) :
    ((scan stops links seen).stopped = false ∧ Quiet stops (scan stops links seen).seen ∧
      scan stops links seen = scan never links seen) ∨
    (scan stops links seen).stopped = true ∧ stops (scan stops links seen).seen = true ∧
      QuietBelow stops (scan stops links seen).seen := by
  fun_induction scan stops links seen with
  | case1 seen => exact Or.inl ⟨rfl, quiet, rfl⟩
  | case2 node links seen inside ih =>
      rw [scan, if_pos inside]
      exact ih quiet
  | case3 node links seen fresh stop => exact Or.inr ⟨rfl, stop, quietBelow_snoc quiet⟩
  | case4 node links seen fresh goesOn rest ih =>
      rw [Bool.not_eq_true] at goesOn
      rcases ih (quiet_snoc quiet goesOn) with ⟨notStopped, still, same⟩ | stopped
      · refine Or.inl ⟨notStopped, still, ?_⟩
        rw [scan, if_neg fresh]
        exact congrArg (fun pass : Pass ν => (⟨pass.seen, node :: pass.found, pass.stopped⟩ : Pass ν)) same
      · exact Or.inr stopped

theorem scan_eq_never (quiet : Quiet stops (scan never links seen).seen) :
    scan stops links seen = scan never links seen := by
  fun_induction scan never links seen with
  | case1 seen => rfl
  | case2 node links seen inside ih => rw [scan, if_pos inside, ih quiet]
  | case3 node links seen fresh stop => exact absurd stop Bool.false_ne_true
  | case4 node links seen fresh _ rest ih =>
      have goesOn : stops (seen ++ [node]) = false :=
        quiet (seen ++ [node]) (scan_grows _ links (seen ++ [node])) (List.append_ne_nil_of_right_ne_nil _ (List.cons_ne_nil _ _))
      rw [scan, if_neg fresh, goesOn, if_neg Bool.false_ne_true, ih quiet]

theorem scan_first (stops : List ν → Bool) (links seen : List ν) :
    (∀ link ∈ links, link ∈ seen) ∨
      ∃ first, first ∈ (scan never links seen).found.head? ∧ seen ++ [first] <+: (scan stops links seen).seen := by
  induction links with
  | nil => exact Or.inl (List.forall_mem_nil _)
  | cons node links ih =>
      by_cases inside : node ∈ seen
      · rw [scan, if_pos inside, scan, if_pos inside]
        exact ih.imp_left fun all => List.forall_mem_cons.2 ⟨inside, all⟩
      · refine Or.inr ⟨node, ?_, ?_⟩
        · rw [scan, if_neg inside]
          exact rfl
        · rw [scan, if_neg inside]
          split
          · exact List.prefix_rfl
          · exact scan_grows _ links (seen ++ [node])

theorem scan_stops_first {first : ν} (isFirst : first ∈ (scan never links seen).found.head?)
    (stop : stops (seen ++ [first]) = true) : scan stops links seen = ⟨seen ++ [first], [], true⟩ := by
  induction links with
  | nil => exact absurd isFirst.symm (Option.some_ne_none first)
  | cons node links ih =>
      by_cases inside : node ∈ seen
      · rw [scan, if_pos inside] at isFirst ⊢
        exact ih isFirst
      · rw [scan, if_neg inside] at isFirst
        obtain rfl : node = first := Option.some.inj isFirst
        rw [scan, if_neg inside, if_pos stop]

theorem scan_goesOn_of_longer (longer : ∀ marks : List ν, seen.length < marks.length → stops marks = false) :
    (scan stops links seen).stopped = false := by
  fun_induction scan stops links seen with
  | case1 seen => rfl
  | case2 node links seen inside ih => exact ih longer
  | case3 node links seen fresh stop =>
      rw [longer (seen ++ [node]) (by simp)] at stop
      exact absurd stop Bool.false_ne_true
  | case4 node links seen fresh goesOn rest ih =>
      refine ih fun marks long => longer marks ?_
      rw [List.length_append] at long
      exact Nat.lt_of_le_of_lt (Nat.le_add_right _ _) long

theorem length_found_le (stops : List ν → Bool) (links seen : List ν) :
    (scan stops links seen).found.length ≤ (scan never links seen).found.length := by
  fun_induction scan stops links seen with
  | case1 seen => exact Nat.le_refl _
  | case2 node links seen inside ih =>
      rw [scan, if_pos inside]
      exact ih
  | case3 node links seen fresh stop => exact Nat.zero_le _
  | case4 node links seen fresh goesOn rest ih =>
      rw [scan, if_neg fresh]
      exact Nat.succ_le_succ ih

theorem scan_never_goesOn (links seen : List ν) : (scan never links seen).stopped = false := by
  induction links generalizing seen with
  | nil => rfl
  | cons node links ih =>
      rw [scan]
      split
      · exact ih seen
      · exact ih (seen ++ [node])

end Scan

/-! ## Nodes that are not marked -/

/-- How many nodes of a set are not marked. -/
def unmarked (nodes : Finset ν) (seen : List ν) : ℕ := (nodes \ seen.toFinset).card

section Unmarked

variable {nodes : Finset ν} {seen seen' : List ν}

theorem unmarked_le (grows : seen ⊆ seen') : unmarked nodes seen' ≤ unmarked nodes seen :=
  Finset.card_le_card fun _ inside =>
    have ⟨node, fresh⟩ := Finset.mem_sdiff.1 inside
    Finset.mem_sdiff.2 ⟨node, fun old => fresh (List.mem_toFinset.2 (grows (List.mem_toFinset.1 old)))⟩

theorem unmarked_lt {node : ν} (grows : seen ⊆ seen') (isNode : node ∈ nodes) (fresh : node ∉ seen) (marked : node ∈ seen') :
    unmarked nodes seen' < unmarked nodes seen := by
  refine Finset.card_lt_card ⟨fun _ inside => ?_, fun below => ?_⟩
  · obtain ⟨other, fresh⟩ := Finset.mem_sdiff.1 inside
    exact Finset.mem_sdiff.2 ⟨other, fun old => fresh (List.mem_toFinset.2 (grows (List.mem_toFinset.1 old)))⟩
  · have inside := below (Finset.mem_sdiff.2 ⟨isNode, fun old => fresh (List.mem_toFinset.1 old)⟩)
    exact (Finset.mem_sdiff.1 inside).2 (List.mem_toFinset.2 marked)

end Unmarked

/-! ## A walk -/

/-- The nodes whose links were not looked at yet, the marked nodes, whether the walk was stopped, and how many nodes
one node found at most. -/
structure Config (ν : Type) where
  pending : List ν
  seen : List ν
  stopped : Bool
  widest : ℕ

def Config.start (root : ν) : Config ν := ⟨[root], [root], false, 0⟩

/-- The first waiting node looks at its links; a walk that was stopped does not go on to what it finds. -/
def step (succ : ν → List ν) (stops : List ν → Bool) (config : Config ν) : Config ν :=
  match config.pending with
  | [] => config
  | node :: waiting =>
      let pass := scan stops (succ node) config.seen
      let widest := max config.widest pass.found.length
      if config.stopped || pass.stopped then ⟨waiting, pass.seen, true, widest⟩
      else ⟨pass.found ++ waiting, pass.seen, false, widest⟩

def Step (succ : ν → List ν) (stops : List ν → Bool) (config next : Config ν) : Prop :=
  config.pending ≠ [] ∧ step succ stops config = next

abbrev Steps (succ : ν → List ν) (stops : List ν → Bool) : Config ν → Config ν → Prop :=
  Relation.ReflTransGen (Step succ stops)

section Walk

variable {succ : ν → List ν} {stops : List ν → Bool} {config next final : Config ν} {root node : ν}
  {waiting seen : List ν} {widest : ℕ}

theorem step_of_goesOn (pending : config.pending = node :: waiting) (running : config.stopped = false)
    (goesOn : (scan stops (succ node) config.seen).stopped = false) :
    step succ stops config =
      ⟨(scan stops (succ node) config.seen).found ++ waiting, (scan stops (succ node) config.seen).seen, false,
        max config.widest (scan stops (succ node) config.seen).found.length⟩ := by
  simp only [step, pending, running, goesOn, Bool.or_self, Bool.false_eq_true, if_false]

theorem step_of_stopped (pending : config.pending = node :: waiting)
    (stop : config.stopped = true ∨ (scan stops (succ node) config.seen).stopped = true) :
    step succ stops config =
      ⟨waiting, (scan stops (succ node) config.seen).seen, true,
        max config.widest (scan stops (succ node) config.seen).found.length⟩ := by
  simp only [step, pending, Bool.or_eq_true, stop, if_true]

theorem step_seen (pending : config.pending = node :: waiting) :
    (step succ stops config).seen = (scan stops (succ node) config.seen).seen := by
  cases stop : config.stopped || (scan stops (succ node) config.seen).stopped with
  | true => rw [step_of_stopped pending (Bool.or_eq_true _ _ ▸ stop)]
  | false =>
      obtain ⟨running, goesOn⟩ := Bool.or_eq_false_iff.1 stop
      rw [step_of_goesOn pending running goesOn]

theorem Steps.one (pending : config.pending ≠ []) : Steps succ stops config (step succ stops config) :=
  Relation.ReflTransGen.single ⟨pending, rfl⟩

theorem Steps.to_end (path : Steps succ stops config next) (ends : Steps succ stops config final)
    (done : final.pending = []) : Steps succ stops next final := by
  have unique : Relator.RightUnique (Step succ stops) := fun _ _ _ first second => first.2.symm.trans second.2
  rcases Relation.ReflTransGen.total_of_right_unique unique path ends with onwards | back
  · exact onwards
  · rcases Relation.ReflTransGen.cases_head back with rfl | ⟨other, out, _⟩
    · exact Relation.ReflTransGen.refl
    · exact absurd done out.1

theorem step_grows (succ : ν → List ν) (stops : List ν → Bool) (config : Config ν) : config.seen <+: (step succ stops config).seen := by
  rw [step]
  split
  · exact List.prefix_rfl
  · dsimp only
    split
    · exact scan_grows _ _ _
    · exact scan_grows _ _ _

theorem Steps.grows (path : Steps succ stops config next) : config.seen <+: next.seen := by
  induction path with
  | refl => exact List.prefix_rfl
  | tail _ edge ih => exact edge.2 ▸ ih.trans (step_grows _ _ _)

theorem Steps.widest_le (path : Steps succ stops config next) : config.widest ≤ next.widest := by
  induction path with
  | refl => exact Nat.le_refl _
  | @tail middle next _ edge ih =>
      obtain ⟨nonempty, rfl⟩ := edge
      refine ih.trans ?_
      rw [step]
      split
      · exact Nat.le_refl _
      · dsimp only
        split
        · exact Nat.le_max_left _ _
        · exact Nat.le_max_left _ _

/-- What holds of the nodes that a walk has marked. -/
structure Sound (succ : ν → List ν) (root : ν) (config : Config ν) : Prop where
  nodup : config.seen.Nodup
  rooted : root ∈ config.seen
  waiting : ∀ node ∈ config.pending, node ∈ config.seen
  reached : ∀ node ∈ config.seen, Relation.ReflTransGen (fun above below => below ∈ succ above) root node

omit [DecidableEq ν] in
theorem Sound.start : Sound succ root (Config.start root) where
  nodup := List.nodup_singleton root
  rooted := List.mem_singleton_self root
  waiting _ inside := inside
  reached _ inside := List.mem_singleton.1 inside ▸ Relation.ReflTransGen.refl

theorem Sound.step (sound : Sound succ root config) : Sound succ root (step succ stops config) := by
  rw [TopDown.step]
  cases pending : config.pending with
  | nil => exact sound
  | cons node waiting =>
      have ⟨nodeWaiting, waitingSeen⟩ := List.forall_mem_cons.1 (pending ▸ sound.waiting)
      have grows := (scan_grows stops (succ node) config.seen).subset
      have reached : ∀ other ∈ (scan stops (succ node) config.seen).seen,
          Relation.ReflTransGen (fun above below => below ∈ succ above) root other := by
        intro other inside
        rcases mem_of_scan inside with old | link
        · exact sound.reached other old
        · exact (sound.reached node nodeWaiting).tail link
      dsimp only
      split
      · exact ⟨nodup_scan sound.nodup, grows sound.rooted, fun other inside => grows (waitingSeen other inside), reached⟩
      · next goesOn =>
        have notStopped : (scan stops (succ node) config.seen).stopped = false := by
          rw [Bool.or_eq_true, not_or] at goesOn
          exact Bool.eq_false_iff.2 goesOn.2
        refine ⟨nodup_scan sound.nodup, grows sound.rooted, ?_, reached⟩
        intro other inside
        rcases List.mem_append.1 inside with found | waits
        · exact (scan_of_goesOn notStopped).1 ▸ List.mem_append_right _ found
        · exact grows (waitingSeen other waits)

theorem Steps.sound (path : Steps succ stops (Config.start root) config) : Sound succ root config := by
  induction path with
  | refl => exact Sound.start
  | tail _ edge ih => exact edge.2 ▸ ih.step

theorem Steps.settled (path : Steps succ never (Config.start root) config) :
    config.stopped = false ∧ ∀ node ∈ config.seen, node ∈ config.pending ∨ ∀ link ∈ succ node, link ∈ config.seen := by
  induction path with
  | refl => exact ⟨rfl, fun _ inside => Or.inl inside⟩
  | @tail config next _ edge ih =>
      obtain ⟨running, settled⟩ := ih
      obtain ⟨nonempty, rfl⟩ := edge
      obtain ⟨node, waiting, pending⟩ := List.exists_cons_of_ne_nil nonempty
      have goesOn := scan_never_goesOn (succ node) config.seen
      obtain ⟨same, all⟩ := scan_of_goesOn goesOn
      rw [step_of_goesOn pending running goesOn]
      refine ⟨rfl, fun other inside => ?_⟩
      rw [same] at inside
      rcases List.mem_append.1 inside with old | found
      · rcases settled other old with waits | links
        · rw [pending] at waits
          rcases List.mem_cons.1 waits with rfl | waits
          · exact Or.inr all
          · exact Or.inl (List.mem_append_right _ waits)
        · exact Or.inr fun link inside => (scan_grows _ _ _).subset (links link inside)
      · exact Or.inl (List.mem_append_left _ found)

theorem Steps.mem_iff (path : Steps succ never (Config.start root) config) (done : config.pending = []) :
    node ∈ config.seen ↔ Relation.ReflTransGen (fun above below => below ∈ succ above) root node := by
  refine ⟨path.sound.reached node, fun reached => ?_⟩
  induction reached with
  | refl => exact path.sound.rooted
  | tail _ link ih =>
      rcases path.settled.2 _ ih with waits | links
      · rw [done] at waits
        exact absurd waits List.not_mem_nil
      · exact links _ link

theorem Steps.agree (path : Steps succ never (Config.start root) config) (quiet : Quiet stops config.seen) :
    Steps succ stops (Config.start root) config := by
  induction path with
  | refl => exact Relation.ReflTransGen.refl
  | @tail config next before edge ih =>
      obtain ⟨nonempty, rfl⟩ := edge
      obtain ⟨node, waiting, pending⟩ := List.exists_cons_of_ne_nil nonempty
      have quietBefore : Quiet stops config.seen := fun earlier initial => quiet earlier (initial.trans (step_grows succ never config))
      have same : step succ stops config = step succ never config := by
        have running := (Steps.settled before).1
        have goesOn := scan_never_goesOn (succ node) config.seen
        rw [step_of_goesOn pending running goesOn] at quiet ⊢
        have equal := scan_eq_never quiet
        rw [step_of_goesOn pending running (equal ▸ goesOn), equal]
      exact (ih quietBefore).tail ⟨nonempty, same⟩

/-- Whenever a node finds its first node, the links of all nodes that are waiting are marked or lead to that one. -/
def Patient (succ : ν → List ν) (root : ν) : Prop :=
  ∀ config, Steps succ never (Config.start root) config → ∀ node waiting, config.pending = node :: waiting →
    ∀ first ∈ (scan never (succ node) config.seen).found.head?,
      ∀ other ∈ waiting, ∀ link ∈ succ other, link ∈ config.seen ∨ link = first

/-- A walk that was stopped, and in which the nodes that are waiting have nothing to mark. -/
structure Halted (succ : ν → List ν) (stops : List ν → Bool) (config : Config ν) : Prop where
  stopped : config.stopped = true
  atStop : stops config.seen = true
  below : QuietBelow stops config.seen
  settled : ∀ node ∈ config.pending, ∀ link ∈ succ node, link ∈ config.seen

theorem Halted.step (halted : Halted succ stops config) :
    Halted succ stops (step succ stops config) ∧ (step succ stops config).widest = config.widest := by
  cases pending : config.pending with
  | nil =>
      rw [TopDown.step, pending]
      exact ⟨halted, rfl⟩
  | cons node waiting =>
      have settled := halted.settled
      rw [pending, List.forall_mem_cons] at settled
      obtain ⟨links, settled⟩ := settled
      rw [step_of_stopped pending (Or.inl halted.stopped), scan_of_seen links]
      exact ⟨⟨rfl, halted.atStop, halted.below, settled⟩, Nat.max_eq_left (Nat.zero_le _)⟩

theorem Steps.patient (path : Steps succ stops (Config.start root) config) (patient : Patient succ root)
    (goesOn : stops [root] = false) :
    (Steps succ never (Config.start root) config ∧ Quiet stops config.seen) ∨
      Halted succ stops config ∧ ∃ other, Steps succ never (Config.start root) other ∧ config.widest ≤ other.widest := by
  induction path with
  | refl =>
      refine Or.inl ⟨Relation.ReflTransGen.refl, fun earlier initial nonempty => ?_⟩
      rcases List.prefix_concat_iff.1 (show earlier <+: [] ++ [root] from initial) with rfl | empty
      · exact goesOn
      · exact absurd (List.prefix_nil.1 empty) nonempty
  | @tail config next _ edge ih =>
      obtain ⟨nonempty, rfl⟩ := edge
      rcases ih with ⟨free, quiet⟩ | ⟨halted, other, otherPath, narrow⟩
      · obtain ⟨node, waiting, pending⟩ := List.exists_cons_of_ne_nil nonempty
        have running := free.settled.1
        have never := scan_never_goesOn (succ node) config.seen
        rcases scan_of_quiet (succ node) quiet with ⟨goesOn, still, same⟩ | ⟨stopped, stop, below⟩
        · left
          rw [step_of_goesOn pending running goesOn]
          refine ⟨free.tail ⟨nonempty, ?_⟩, still⟩
          rw [step_of_goesOn pending running never, same]
        · right
          rw [step_of_stopped pending (Or.inr stopped)]
          refine ⟨⟨rfl, stop, below, ?_⟩, TopDown.step succ TopDown.never config, free.tail ⟨nonempty, rfl⟩, ?_⟩
          · intro other waits link inside
            rcases scan_first stops (succ node) config.seen with all | ⟨first, isFirst, marked⟩
            · rw [scan_of_seen all] at stopped
              exact absurd stopped Bool.false_ne_true
            · rcases patient config free node waiting pending first isFirst other waits link inside with old | rfl
              · exact (scan_grows _ _ _).subset old
              · exact marked.subset (List.mem_append_right _ (List.mem_singleton_self _))
          · rw [step_of_goesOn pending running never]
            exact max_le_max le_rfl (length_found_le stops (succ node) config.seen)
      · obtain ⟨halted', same⟩ := halted.step
        exact Or.inr ⟨halted', other, otherPath, same ▸ narrow⟩

theorem Steps.marks_waiting (path : Steps succ stops config next) (stopped : config.stopped = true)
    (longer : ∀ marks : List ν, config.seen.length < marks.length → stops marks = false) :
    next.stopped = true ∧
      ∀ node ∈ config.pending, node ∈ next.pending ∨ ∀ link ∈ succ node, link ∈ next.seen := by
  induction path with
  | refl => exact ⟨stopped, fun _ inside => Or.inl inside⟩
  | @tail middle next before edge ih =>
      obtain ⟨still, marked⟩ := ih
      obtain ⟨nonempty, rfl⟩ := edge
      obtain ⟨node, waiting, pending⟩ := List.exists_cons_of_ne_nil nonempty
      have length := (Steps.grows before).length_le
      have goesOn : (scan stops (succ node) middle.seen).stopped = false :=
        scan_goesOn_of_longer fun marks long => longer marks (Nat.lt_of_le_of_lt length long)
      rw [step_of_stopped pending (Or.inl still)]
      refine ⟨rfl, fun other inside => ?_⟩
      rcases marked other inside with waits | links
      · rw [pending] at waits
        rcases List.mem_cons.1 waits with rfl | waits
        · exact Or.inr (scan_of_goesOn goesOn).2
        · exact Or.inl waits
      · exact Or.inr fun link inside => (scan_grows _ _ _).subset (links link inside)

theorem Steps.called_again {waiting : List ν} {first other link : ν} (path : Steps succ never (Config.start root) config)
    (pending : config.pending = node :: waiting) (isFirst : first ∈ (scan never (succ node) config.seen).found.head?)
    (waits : other ∈ waiting) (linked : link ∈ succ other)
    (stopsAt : ∀ marks : List ν, stops marks = true ↔ marks.length = config.seen.length + 1)
    (ends : Steps succ stops (Config.start root) final) (done : final.pending = []) :
    config.seen ++ [first] <+: final.seen ∧ link ∈ final.seen := by
  have quiet : Quiet stops config.seen := by
    intro earlier initial _
    have length := initial.length_le
    rw [Bool.eq_false_iff, ne_eq, stopsAt]
    omega
  have pass := scan_stops_first isFirst ((stopsAt (config.seen ++ [first])).2 (by simp))
  have toStop := (path.agree quiet).tail ⟨List.ne_nil_of_mem (pending ▸ List.mem_cons_self), rfl⟩
  rw [step_of_stopped pending (Or.inr (congrArg Pass.stopped pass)), pass] at toStop
  have onwards := Steps.to_end toStop ends done
  obtain ⟨_, marked⟩ := onwards.marks_waiting rfl fun marks long => by
    rw [Bool.eq_false_iff, ne_eq, stopsAt]
    simp only [List.length_append, List.length_singleton] at long
    omega
  refine ⟨onwards.grows, ?_⟩
  rcases marked other waits with still | links
  · rw [done] at still
    exact absurd still List.not_mem_nil
  · exact links link linked

end Walk

end ObjcDyld.TopDown
