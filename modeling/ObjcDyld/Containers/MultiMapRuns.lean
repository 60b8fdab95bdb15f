import ObjcDyld.Common.Prefixes
import ObjcDyld.Containers.MultiMap

/-!
# Runs of insertions

What an insertion keeps: the nodes of equal keys are linked in their order, and every first node is
placed in the hash buffer. From it, what `forEachEntry` calls its handler with after any run.
-/

namespace ObjcDyld.Containers

open TriangularProbe (search search_spec Placed)

variable {κ ν : Type} (keys : Keys κ)

/-- Two nodes have equal keys. -/
def Same (nodes : List (NodeEntry κ ν)) (i j : ℕ) : Prop :=
  ∃ first second, nodes[i]? = some first ∧ nodes[j]? = some second ∧ keys.equal first.key second.key = true

variable {keys} {nodes : List (NodeEntry κ ν)}

namespace Same

theorem symm {i j : ℕ} (same : Same keys nodes i j) : Same keys nodes j i := by
  obtain ⟨first, second, at_i, at_j, equal⟩ := same
  exact ⟨second, first, at_j, at_i, keys.symm _ _ equal⟩

theorem trans {i j k : ℕ} (same : Same keys nodes i j) (same' : Same keys nodes j k) : Same keys nodes i k := by
  obtain ⟨first, second, at_i, at_j, equal⟩ := same
  obtain ⟨second', third, at_j', at_k, equal'⟩ := same'
  obtain rfl := Option.some.inj (at_j.symm.trans at_j')
  exact ⟨first, third, at_i, at_k, keys.trans _ _ _ equal equal'⟩

theorem lt_length {i j : ℕ} (same : Same keys nodes i j) : i < nodes.length ∧ j < nodes.length := by
  obtain ⟨first, second, at_i, at_j, -⟩ := same
  exact ⟨(List.getElem?_eq_some_iff.mp at_i).1, (List.getElem?_eq_some_iff.mp at_j).1⟩

theorem congr {other : List (NodeEntry κ ν)} (eq : nodes.map (·.key) = other.map (·.key)) {i j : ℕ} :
    Same keys nodes i j ↔ Same keys other i j := by
  have keyed : ∀ list : List (NodeEntry κ ν), Same keys list i j ↔
      ∃ first second, (list.map (·.key))[i]? = some first ∧ (list.map (·.key))[j]? = some second ∧
        keys.equal first second = true := by
    intro list
    simp only [List.getElem?_map, Option.map_eq_some_iff]
    constructor
    · rintro ⟨first, second, at_i, at_j, equal⟩
      exact ⟨_, _, ⟨first, at_i, rfl⟩, ⟨second, at_j, rfl⟩, equal⟩
    · rintro ⟨_, _, ⟨first, at_i, rfl⟩, ⟨second, at_j, rfl⟩, equal⟩
      exact ⟨first, second, at_i, at_j, equal⟩
  rw [keyed, keyed, eq]

theorem append_iff {node : NodeEntry κ ν} {i j : ℕ} (small : i < nodes.length) (small' : j < nodes.length) :
    Same keys (nodes ++ [node]) i j ↔ Same keys nodes i j := by
  simp only [Same, List.getElem?_append_left small, List.getElem?_append_left small']

end Same

variable (keys nodes)

def HasEarlier (i : ℕ) : Prop := ∃ j < i, Same keys nodes j i

def HasLater (i : ℕ) : Prop := ∃ j > i, Same keys nodes i j

/-- The marks of a node say whether its key was there before and comes again, and where. -/
structure Linked (i : ℕ) (next : NextNode) : Prop where
  head : next.isDuplicateHead = true ↔ ¬HasEarlier keys nodes i ∧ HasLater keys nodes i
  entry : next.isDuplicateEntry = true ↔ HasEarlier keys nodes i ∧ HasLater keys nodes i
  tail : next.isDuplicateTail = true ↔ HasEarlier keys nodes i ∧ ¬HasLater keys nodes i
  after : HasLater keys nodes i → i < next.nextIndex.toNat ∧ Same keys nodes i next.nextIndex.toNat ∧
    ∀ j, i < j → j < next.nextIndex.toNat → ¬Same keys nodes i j

def Chained : Prop := ∀ i node, nodes[i]? = some node → Linked keys nodes i node.next

/-- The hash buffer has the first nodes of all keys, each where a search for its key passes. -/
structure Hashed (hashBuffer : List (Option ℕ)) : Prop where
  firsts : ∀ i, some i ∈ hashBuffer → i < nodes.length ∧ ¬HasEarlier keys nodes i
  placed : ∀ i node, nodes[i]? = some node → ¬HasEarlier keys nodes i →
    Placed hashBuffer (keys.hash node.key).toNat i

variable {keys nodes}

namespace Linked

variable {i : ℕ} {next : NextNode}

theorem hasMoreDuplicates (linked : Linked keys nodes i next) :
    next.hasMoreDuplicates = true ↔ HasLater keys nodes i := by
  rw [NextNode.hasMoreDuplicates, Bool.or_eq_true, linked.head, linked.entry]
  tauto

theorem hasAnyDuplicates (linked : Linked keys nodes i next) :
    next.hasAnyDuplicates = true ↔ HasEarlier keys nodes i ∨ HasLater keys nodes i := by
  rw [NextNode.hasAnyDuplicates, Bool.or_eq_true, Bool.or_eq_true, linked.head, linked.entry, linked.tail]
  tauto

end Linked

theorem mem_of_hasLater {i : ℕ} (later : HasLater keys nodes i) : i < nodes.length := by
  obtain ⟨j, -, same⟩ := later
  exact same.lt_length.1

theorem chainEnd_spec (chained : Chained keys nodes) (fuel : ℕ) {i : ℕ} (inside : i < nodes.length)
    (enough : nodes.length - i < fuel) : ∃ tail, MultiMap.chainEnd nodes fuel i = some tail ∧
      Same keys nodes i tail ∧ ¬HasLater keys nodes tail := by
  induction fuel generalizing i with
  | zero => exact absurd enough (Nat.not_lt_zero _)
  | succ fuel ih =>
      have at_i := List.getElem?_eq_getElem inside
      have linked := chained i _ at_i
      rw [MultiMap.chainEnd, at_i]
      simp only [Option.bind_eq_bind, Option.bind_some]
      split
      · next more =>
          obtain ⟨less, same, -⟩ := linked.after (linked.hasMoreDuplicates.mp more)
          obtain ⟨tail, run, same', last⟩ := ih same.lt_length.2 (by omega)
          exact ⟨tail, run, same.trans same', last⟩
      · next last =>
          refine ⟨i, rfl, ⟨_, _, at_i, at_i, keys.refl _⟩, fun later => last (linked.hasMoreDuplicates.mpr later)⟩

variable (keys)

def valuesFrom (nodes : List (NodeEntry κ ν)) (key : κ) (start : ℕ) : List ν :=
  ((nodes.drop start).filter fun node => keys.equal key node.key).map (·.value)

variable {keys}

theorem valuesFrom_congr {first second : κ} (equal : keys.equal first second = true) (start : ℕ) :
    valuesFrom keys nodes first start = valuesFrom keys nodes second start := by
  have iff : ∀ key, keys.equal first key = keys.equal second key := by
    intro key
    rw [Bool.eq_iff_iff]
    exact ⟨keys.trans _ _ _ (keys.symm _ _ equal), keys.trans _ _ _ equal⟩
  simp only [valuesFrom, iff]

theorem valuesFrom_skip {key : κ} {start stop : ℕ} (le : start ≤ stop)
    (differ : ∀ j node, start ≤ j → j < stop → nodes[j]? = some node → keys.equal key node.key = false) :
    valuesFrom keys nodes key start = valuesFrom keys nodes key stop := by
  obtain ⟨count, rfl⟩ := Nat.exists_eq_add_of_le le
  have none_between : ((nodes.drop start).take count).filter (fun node => keys.equal key node.key) = [] := by
    refine List.filter_eq_nil_iff.mpr fun node inside => ?_
    obtain ⟨j, small, at_j⟩ := List.mem_iff_getElem.mp inside
    rw [List.getElem_take, List.getElem_drop] at at_j
    have small' : j < count := by
      rw [List.length_take] at small
      omega
    rw [differ (start + j) node (by omega) (by omega) (List.getElem?_eq_some_iff.mpr ⟨_, at_j⟩)]
    exact Bool.false_ne_true
  rw [valuesFrom, ← List.take_append_drop count (nodes.drop start), List.filter_append, none_between, List.nil_append,
    List.drop_drop, valuesFrom]

theorem valuesFrom_cons {key : κ} {i : ℕ} {node : NodeEntry κ ν} (at_i : nodes[i]? = some node)
    (equal : keys.equal key node.key = true) :
    valuesFrom keys nodes key i = node.value :: valuesFrom keys nodes key (i + 1) := by
  obtain ⟨inside, eq⟩ := List.getElem?_eq_some_iff.mp at_i
  rw [valuesFrom, List.drop_eq_getElem_cons inside, eq, List.filter_cons, if_pos equal, List.map_cons, valuesFrom]

theorem valuesFrom_last {i : ℕ} {node : NodeEntry κ ν} (at_i : nodes[i]? = some node)
    (last : ¬HasLater keys nodes i) : valuesFrom keys nodes node.key (i + 1) = [] := by
  obtain ⟨inside, -⟩ := List.getElem?_eq_some_iff.mp at_i
  rw [valuesFrom_skip (Nat.succ_le_of_lt inside), valuesFrom, List.drop_length, List.filter_nil, List.map_nil]
  intro j other after _ at_j
  by_contra equal
  exact last ⟨j, after, node, other, at_i, at_j, by simpa using equal⟩

theorem duplicates_spec (chained : Chained keys nodes) (fuel : ℕ) {i : ℕ} {node : NodeEntry κ ν}
    (at_i : nodes[i]? = some node) (later : HasLater keys nodes i) (enough : nodes.length - i < fuel) :
    MultiMap.duplicates nodes fuel node.next = some (valuesFrom keys nodes node.key (i + 1)) := by
  induction fuel generalizing i node with
  | zero => exact absurd enough (Nat.not_lt_zero _)
  | succ fuel ih =>
      obtain ⟨less, ⟨node', second, at_i', at_next, equal⟩, least⟩ := (chained i node at_i).after later
      obtain rfl := Option.some.inj (at_i.symm.trans at_i')
      have inside := mem_of_hasLater later
      have values : valuesFrom keys nodes node.key (i + 1) =
          second.value :: valuesFrom keys nodes second.key (node.next.nextIndex.toNat + 1) := by
        rw [valuesFrom_skip (Nat.succ_le_of_lt less), valuesFrom_cons at_next equal, valuesFrom_congr equal]
        intro j other after before at_j
        by_contra same
        exact least j after before ⟨node, other, at_i, at_j, by simpa using same⟩
      have linked := chained _ second at_next
      rw [MultiMap.duplicates, at_next, values]
      simp only [Option.bind_eq_bind, Option.bind_some]
      split
      · next more =>
          rw [ih at_next (linked.hasMoreDuplicates.mp more) (by omega)]
          rfl
      · next no_more =>
          rw [valuesFrom_last at_next fun later' => no_more (linked.hasMoreDuplicates.mpr later')]
          rfl

theorem entryOf_spec (chained : Chained keys nodes) {i : ℕ} {node : NodeEntry κ ν} (at_i : nodes[i]? = some node) :
    (HasEarlier keys nodes i → MultiMap.entryOf nodes node = some none) ∧
      (¬HasEarlier keys nodes i →
        MultiMap.entryOf nodes node = some (some (node.key, valuesFrom keys nodes node.key 0))) := by
  have linked := chained i node at_i
  constructor
  · intro earlier
    rw [MultiMap.entryOf, linked.hasAnyDuplicates.mpr (Or.inl earlier)]
    have not_head : node.next.isDuplicateHead = false := by
      by_contra head
      exact (linked.head.mp (by simpa using head)).1 earlier
    rw [not_head]
    rfl
  · intro first
    have values : valuesFrom keys nodes node.key 0 = node.value :: valuesFrom keys nodes node.key (i + 1) := by
      rw [valuesFrom_skip (Nat.zero_le i), valuesFrom_cons at_i (keys.refl _)]
      intro j other _ before at_j
      by_contra equal
      exact first ⟨j, before, other, node, at_j, at_i, keys.symm _ _ (by simpa using equal)⟩
    rw [MultiMap.entryOf, values]
    by_cases later : HasLater keys nodes i
    · rw [linked.hasAnyDuplicates.mpr (Or.inr later), linked.head.mpr ⟨first, later⟩]
      simp only [Bool.not_true, Bool.false_eq_true, if_false]
      rw [duplicates_spec chained _ at_i later (by omega)]
      rfl
    · have no_duplicates : node.next.hasAnyDuplicates = false := by
        by_contra any
        rcases linked.hasAnyDuplicates.mp (by simpa using any) with earlier | later'
        · exact first earlier
        · exact later later'
      rw [no_duplicates, valuesFrom_last at_i later]
      rfl

theorem hasEarlier_append_iff {node : NodeEntry κ ν} {i : ℕ} (small : i < nodes.length) :
    HasEarlier keys (nodes ++ [node]) i ↔ HasEarlier keys nodes i := by
  constructor
  · rintro ⟨j, less, same⟩
    exact ⟨j, less, (Same.append_iff (by omega) small).mp same⟩
  · rintro ⟨j, less, same⟩
    exact ⟨j, less, (Same.append_iff (by omega) small).mpr same⟩

theorem hasLater_append_iff {node : NodeEntry κ ν} {i : ℕ} (small : i < nodes.length) :
    HasLater keys (nodes ++ [node]) i ↔ HasLater keys nodes i ∨ Same keys (nodes ++ [node]) i nodes.length := by
  constructor
  · rintro ⟨j, more, same⟩
    have inside := same.lt_length.2
    rw [List.length_append, List.length_singleton] at inside
    rcases Nat.lt_or_ge j nodes.length with before | last
    · exact Or.inl ⟨j, more, (Same.append_iff small before).mp same⟩
    · obtain rfl : j = nodes.length := by omega
      exact Or.inr same
  · rintro (⟨j, more, same⟩ | same)
    · exact ⟨j, more, (Same.append_iff small same.lt_length.2).mpr same⟩
    · exact ⟨nodes.length, small, same⟩

theorem Linked.append {i : ℕ} {next : NextNode} (linked : Linked keys nodes i next) (small : i < nodes.length)
    {node : NodeEntry κ ν} (kept : Same keys (nodes ++ [node]) i nodes.length → HasLater keys nodes i) :
    Linked keys (nodes ++ [node]) i next := by
  have later : HasLater keys (nodes ++ [node]) i ↔ HasLater keys nodes i := by
    rw [hasLater_append_iff small]
    exact ⟨fun either => either.elim id kept, Or.inl⟩
  have earlier : HasEarlier keys (nodes ++ [node]) i ↔ HasEarlier keys nodes i := hasEarlier_append_iff small
  constructor
  · rw [later, earlier, linked.head]
  · rw [later, earlier, linked.entry]
  · rw [later, earlier, linked.tail]
  · intro has
    obtain ⟨less, same, least⟩ := linked.after (later.mp has)
    refine ⟨less, (Same.append_iff small same.lt_length.2).mpr same, fun j after before same' => ?_⟩
    exact least j after before ((Same.append_iff small (by have := same.lt_length.2; omega)).mp same')

theorem Linked.congr {other : List (NodeEntry κ ν)} (eq : nodes.map (·.key) = other.map (·.key)) {i : ℕ}
    {next : NextNode} (linked : Linked keys nodes i next) : Linked keys other i next := by
  have earlier : HasEarlier keys nodes i ↔ HasEarlier keys other i := by
    simp only [HasEarlier, Same.congr eq]
  have later : HasLater keys nodes i ↔ HasLater keys other i := by
    simp only [HasLater, Same.congr eq]
  constructor
  · rw [← later, ← earlier, linked.head]
  · rw [← later, ← earlier, linked.entry]
  · rw [← later, ← earlier, linked.tail]
  · rw [← later]
    simp only [← Same.congr eq]
    exact linked.after

theorem linked_new_tail {node : NodeEntry κ ν} {tail : ℕ} (same : Same keys (nodes ++ [node]) tail nodes.length)
    (small : tail < nodes.length) :
    Linked keys (nodes ++ [node]) nodes.length NextNode.makeDuplicateTailNode := by
  have earlier : HasEarlier keys (nodes ++ [node]) nodes.length := ⟨tail, small, same⟩
  have last : ¬HasLater keys (nodes ++ [node]) nodes.length := by
    rintro ⟨j, more, same'⟩
    have := same'.lt_length.2
    rw [List.length_append, List.length_singleton] at this
    omega
  constructor <;> simp [NextNode.makeDuplicateTailNode, earlier, last]

theorem linked_new_single {node : NodeEntry κ ν}
    (fresh : ∀ i < nodes.length, ¬Same keys (nodes ++ [node]) i nodes.length) :
    Linked keys (nodes ++ [node]) nodes.length NextNode.makeNoDuplicates := by
  have first : ¬HasEarlier keys (nodes ++ [node]) nodes.length := by
    rintro ⟨j, less, same⟩
    exact fresh j less same
  have last : ¬HasLater keys (nodes ++ [node]) nodes.length := by
    rintro ⟨j, more, same'⟩
    have := same'.lt_length.2
    rw [List.length_append, List.length_singleton] at this
    omega
  constructor <;> simp [NextNode.makeNoDuplicates, first, last]

theorem linkTail_spec {node tailNode : NodeEntry κ ν} {tail : ℕ} (at_tail : nodes[tail]? = some tailNode)
    (linked : Linked keys nodes tail tailNode.next) (last : ¬HasLater keys nodes tail)
    (same : Same keys (nodes ++ [node]) tail nodes.length) (few : nodes.length < 2 ^ 29) :
    ∃ next, MultiMap.linkTail tailNode.next nodes.length = some next ∧ Linked keys (nodes ++ [node]) tail next := by
  have small : tail < nodes.length := (List.getElem?_eq_some_iff.mp at_tail).1
  have index : (BitVec.ofNat 29 nodes.length).toNat = nodes.length := by
    rw [BitVec.toNat_ofNat, Nat.mod_eq_of_lt few]
  have later : HasLater keys (nodes ++ [node]) tail := (hasLater_append_iff small).mpr (Or.inr same)
  have earlier : HasEarlier keys (nodes ++ [node]) tail ↔ HasEarlier keys nodes tail := hasEarlier_append_iff small
  have after : tail < nodes.length ∧ Same keys (nodes ++ [node]) tail nodes.length ∧
      ∀ j, tail < j → j < nodes.length → ¬Same keys (nodes ++ [node]) tail j := by
    refine ⟨small, same, fun j more less same' => ?_⟩
    exact last ⟨j, more, (Same.append_iff small less).mp same'⟩
  have not_head : tailNode.next.isDuplicateHead = false := by
    by_contra head
    exact last (linked.head.mp (by simpa using head)).2
  have not_entry : tailNode.next.isDuplicateEntry = false := by
    by_contra entry
    exact last (linked.entry.mp (by simpa using entry)).2
  have tail_iff : tailNode.next.isDuplicateTail = true ↔ HasEarlier keys nodes tail := by
    rw [linked.tail]
    exact ⟨And.left, fun earlier => ⟨earlier, last⟩⟩
  unfold MultiMap.linkTail
  simp only [NextNode.hasAnyDuplicates, not_head, not_entry, Bool.false_or]
  cases is_tail : tailNode.next.isDuplicateTail with
  | false =>
      have first : ¬HasEarlier keys nodes tail := fun has => by
        rw [tail_iff.mpr has] at is_tail
        exact absurd is_tail (by simp)
      refine ⟨_, rfl, ⟨?_, ?_, ?_, ?_⟩⟩
      · simp [earlier, first, later]
      · simp [earlier, first]
      · simp [earlier, first]
      · intro _
        simp only [index]
        exact after
  | true =>
      have has := tail_iff.mp is_tail
      refine ⟨_, rfl, ⟨?_, ?_, ?_, ?_⟩⟩
      · simp [earlier, has]
      · simp [earlier, has, later]
      · simp [later]
      · intro _
        simp only [index]
        exact after

/-- Nodes that are the first of their keys, by their marks. -/
def isFirst (node : NodeEntry κ ν) : Bool := !(node.next.isDuplicateEntry || node.next.isDuplicateTail)

theorem Linked.isFirst_iff {i : ℕ} {node : NodeEntry κ ν} (linked : Linked keys nodes i node.next) :
    isFirst node = true ↔ ¬HasEarlier keys nodes i := by
  rw [isFirst, Bool.not_eq_true', Bool.or_eq_false_iff]
  simp only [Bool.eq_false_iff, ne_eq, linked.entry, linked.tail]
  tauto

/-- What every map has that was built by insertions. -/
structure Valid (keys : Keys κ) (map : MultiMap κ ν) : Prop where
  chained : Chained keys map.nodeBuffer
  hashed : Hashed keys map.nodeBuffer map.hashBuffer
  size : ∃ bits, map.hashBuffer.length = 2 ^ bits
  growth : map.nextHashBufferGrowth * 4 = map.hashBuffer.length * 3
  used : map.hashBuffer.countP Option.isSome = map.hashBufferUseCount
  counted : map.nodeBuffer.countP isFirst = map.hashBufferUseCount
  room : map.hashBufferUseCount ≤ map.nextHashBufferGrowth

theorem empty_valid_of (growth bits : ℕ) (eq : growth * 4 = 2 ^ bits * 3) :
    Valid keys (⟨growth, 0, List.replicate (2 ^ bits) none, []⟩ : MultiMap κ ν) where
  chained := by
    intro i node at_i
    simp at at_i
  hashed := by
    constructor
    · intro i inside
      exact absurd (List.eq_of_mem_replicate inside) (by simp)
    · intro i node at_i
      simp at at_i
  size := ⟨bits, List.length_replicate⟩
  growth := by rw [List.length_replicate, eq]
  used := by simp [List.countP_replicate]
  counted := rfl
  room := Nat.zero_le _

theorem empty_valid : Valid keys (MultiMap.empty : MultiMap κ ν) :=
  empty_valid_of 768 10 rfl

/-- The new hash buffer after the first nodes. -/
structure Rehashing (keys : Keys κ) (nodes : List (NodeEntry κ ν)) (count : ℕ) (hashBuffer : List (Option ℕ)) : Prop where
  firsts : ∀ i, some i ∈ hashBuffer → i < count ∧ ¬HasEarlier keys nodes i
  placed : ∀ i node, i < count → nodes[i]? = some node → ¬HasEarlier keys nodes i →
    Placed hashBuffer (keys.hash node.key).toNat i
  used : hashBuffer.countP Option.isSome = (nodes.take count).countP isFirst

theorem rehash_spec (chained : Chained keys nodes) {bits : ℕ} (room : nodes.countP isFirst < 2 ^ bits) (count : ℕ)
    (le : count ≤ nodes.length) :
    ∃ hashBuffer, (nodes.zipIdx.take count).foldlM (MultiMap.rehashNode keys) (List.replicate (2 ^ bits) none) =
        some hashBuffer ∧ hashBuffer.length = 2 ^ bits ∧ Rehashing keys nodes count hashBuffer := by
  induction count with
  | zero =>
      refine ⟨_, rfl, List.length_replicate, ⟨fun i inside => ?_, fun i node less => ?_, ?_⟩⟩
      · exact absurd (List.eq_of_mem_replicate inside) (by simp)
      · exact absurd less (Nat.not_lt_zero _)
      · simp [List.countP_replicate]
  | succ count ih =>
      obtain ⟨hashBuffer, run, size, rehashing⟩ := ih (by omega)
      have inside : count < nodes.length := by omega
      have at_count := List.getElem?_eq_getElem inside
      set node := nodes[count]
      have linked := chained count node at_count
      have taken : nodes.take (count + 1) = nodes.take count ++ [node] :=
        List.take_succ_eq_append_getElem (by omega)
      have zipped : nodes.zipIdx.take (count + 1) = nodes.zipIdx.take count ++ [(node, count)] := by
        rw [List.take_succ_eq_append_getElem (by rw [List.length_zipIdx]; omega), List.getElem_zipIdx, Nat.zero_add]
      rw [zipped, Prefixes.foldlM_snoc _ _ run, MultiMap.rehashNode]
      by_cases first : isFirst node = true
      · have is_first := linked.isFirst_iff.mp first
        have few : hashBuffer.countP Option.isSome < hashBuffer.length := by
          rw [rehashing.used, size]
          exact Nat.lt_of_le_of_lt ((List.take_sublist count nodes).countP_le) room
        obtain ⟨index, found, here⟩ := search_spec size (TriangularProbe.none_mem_of_countP_lt few) (fun _ => false)
          (keys.hash node.key).toNat
        obtain ⟨vacant, -, puts⟩ := here.resolve_left (by simp)
        rw [isFirst, Bool.not_eq_true'] at first
        simp only [first, Bool.false_eq_true, if_false, found, Option.bind_eq_bind, Option.bind_some]
        refine ⟨_, rfl, by rw [List.length_set, size], ⟨fun i inside => ?_, fun i other less at_i no_earlier => ?_, ?_⟩⟩
        · rcases List.mem_or_eq_of_mem_set inside with before | new
          · obtain ⟨less, no_earlier⟩ := rehashing.firsts i before
            exact ⟨by omega, no_earlier⟩
          · obtain rfl := Option.some.inj new
            exact ⟨Nat.lt_succ_self _, is_first⟩
        · rcases Nat.lt_or_ge i count with before | last
          · exact (rehashing.placed i other before at_i no_earlier).set vacant count
          · obtain rfl : i = count := by omega
            obtain rfl := Option.some.inj (at_count.symm.trans at_i)
            exact puts i
        · rw [TriangularProbe.countP_set vacant, rehashing.used, taken, List.countP_append]
          simp [isFirst, first]
      · have earlier : HasEarlier keys nodes count := by
          by_contra no_earlier
          exact first (linked.isFirst_iff.mpr no_earlier)
        have marked : (node.next.isDuplicateEntry || node.next.isDuplicateTail) = true := by
          rw [isFirst, Bool.not_eq_true', Bool.not_eq_false] at first
          exact first
        simp only [marked, if_true]
        refine ⟨hashBuffer, rfl, size, ⟨fun i inside => ?_, fun i other less at_i no_earlier => ?_, ?_⟩⟩
        · obtain ⟨less, no_earlier⟩ := rehashing.firsts i inside
          exact ⟨by omega, no_earlier⟩
        · rcases Nat.lt_or_ge i count with before | last
          · exact rehashing.placed i other before at_i no_earlier
          · obtain rfl : i = count := by omega
            exact absurd earlier no_earlier
        · rw [rehashing.used, taken, List.countP_append]
          simp [isFirst, marked]

theorem grow_spec {map : MultiMap κ ν} (valid : Valid keys map)
    (full : map.hashBufferUseCount = map.nextHashBufferGrowth) :
    ∃ grown, MultiMap.grow keys map = some grown ∧ Valid keys grown ∧ grown.nodeBuffer = map.nodeBuffer ∧
      grown.hashBufferUseCount < grown.nextHashBufferGrowth := by
  obtain ⟨bits, size⟩ := valid.size
  have growth := valid.growth
  have positive := Nat.two_pow_pos bits
  have room : map.nodeBuffer.countP isFirst < 2 ^ (bits + 1) := by
    rw [valid.counted, Nat.pow_succ]
    omega
  obtain ⟨hashBuffer, run, size', rehashing⟩ := rehash_spec valid.chained room map.nodeBuffer.length le_rfl
  rw [List.take_of_length_le (by rw [List.length_zipIdx]), Nat.pow_succ, ← size] at run
  rw [MultiMap.grow, run]
  refine ⟨_, rfl, ?_, rfl, ?_⟩
  · constructor
    · exact valid.chained
    · exact ⟨rehashing.firsts, fun i node at_i =>
        rehashing.placed i node (List.getElem?_eq_some_iff.mp at_i).1 at_i⟩
    · exact ⟨bits + 1, size'⟩
    · simp only [size', Nat.pow_succ]
      omega
    · rw [rehashing.used, List.take_length, valid.counted]
    · exact valid.counted
    · have := valid.room
      simp only
      omega
  · simp only
    omega

/-- What an insertion adds to the nodes, whatever marks it changes. -/
def contents (map : MultiMap κ ν) : List (κ × ν) := map.nodeBuffer.map fun node => (node.key, node.value)

theorem set_held {α : Type} {list : List α} {i : ℕ} {held : α} (at_i : list[i]? = some held) :
    list.set i held = list := by
  obtain ⟨inside, rfl⟩ := List.getElem?_eq_some_iff.mp at_i
  exact List.set_getElem_self inside

theorem same_append_iff {node : NodeEntry κ ν} {i : ℕ} {first : NodeEntry κ ν} (at_i : nodes[i]? = some first) :
    Same keys (nodes ++ [node]) i nodes.length ↔ keys.equal first.key node.key = true := by
  have small := (List.getElem?_eq_some_iff.mp at_i).1
  have at_last : (nodes ++ [node])[nodes.length]? = some node := List.getElem?_concat_length
  have at_i' : (nodes ++ [node])[i]? = some first := by rw [List.getElem?_append_left small, at_i]
  constructor
  · rintro ⟨first', second, at_first, at_second, equal⟩
    obtain rfl := Option.some.inj (at_i'.symm.trans at_first)
    obtain rfl := Option.some.inj (at_last.symm.trans at_second)
    exact equal
  · exact fun equal => ⟨first, node, at_i', at_last, equal⟩

theorem insert_fresh {map : MultiMap κ ν} (valid : Valid keys map) (v : κ × ν) {index : ℕ}
    (room : map.hashBufferUseCount < map.nextHashBufferGrowth) (vacant : map.hashBuffer[index]? = some none)
    (fresh : ∀ (i : ℕ) (node : NodeEntry κ ν), map.nodeBuffer[i]? = some node → keys.equal node.key v.1 = false)
    (puts : ∀ i, Placed (map.hashBuffer.set index (some i)) (keys.hash v.1).toNat i) :
    Valid keys { map with
      hashBuffer := map.hashBuffer.set index (some map.nodeBuffer.length)
      hashBufferUseCount := map.hashBufferUseCount + 1
      nodeBuffer := map.nodeBuffer ++ [⟨v.1, v.2, NextNode.makeNoDuplicates⟩] } := by
  have differs : ∀ i < map.nodeBuffer.length, ¬Same keys
      (map.nodeBuffer ++ [⟨v.1, v.2, NextNode.makeNoDuplicates⟩]) i map.nodeBuffer.length := by
    intro i small same
    have at_i := List.getElem?_eq_getElem small
    have equal := (same_append_iff at_i).mp same
    rw [fresh i _ at_i] at equal
    exact absurd equal (by simp)
  have first : ¬HasEarlier keys (map.nodeBuffer ++ [⟨v.1, v.2, NextNode.makeNoDuplicates⟩]) map.nodeBuffer.length := by
    rintro ⟨i, less, same⟩
    exact differs i less same
  constructor
  · intro i node at_i
    rcases Nat.lt_or_ge i map.nodeBuffer.length with before | last
    · rw [List.getElem?_append_left before] at at_i
      exact (valid.chained i node at_i).append before fun same => absurd same (differs i before)
    · obtain ⟨small, eq⟩ := List.getElem?_eq_some_iff.mp at_i
      rw [List.length_append, List.length_singleton] at small
      obtain rfl : i = map.nodeBuffer.length := by omega
      rw [List.getElem_concat_length rfl] at eq
      rw [← eq]
      exact linked_new_single differs
  · constructor
    · intro i inside
      rcases List.mem_or_eq_of_mem_set inside with before | new
      · obtain ⟨less, no_earlier⟩ := valid.hashed.firsts i before
        exact ⟨by simp only [List.length_append, List.length_singleton]; omega,
          fun has => no_earlier ((hasEarlier_append_iff less).mp has)⟩
      · obtain rfl := Option.some.inj new
        exact ⟨by simp, first⟩
    · intro i node at_i no_earlier
      rcases Nat.lt_or_ge i map.nodeBuffer.length with before | last
      · rw [List.getElem?_append_left before] at at_i
        have no_earlier := fun has => no_earlier ((hasEarlier_append_iff before).mpr has)
        exact (valid.hashed.placed i node at_i no_earlier).set vacant _
      · obtain ⟨small, eq⟩ := List.getElem?_eq_some_iff.mp at_i
        rw [List.length_append, List.length_singleton] at small
        obtain rfl : i = map.nodeBuffer.length := by omega
        rw [List.getElem_concat_length rfl] at eq
        rw [← eq]
        exact puts _
  · obtain ⟨bits, size⟩ := valid.size
    exact ⟨bits, by rw [List.length_set, size]⟩
  · rw [List.length_set]
    exact valid.growth
  · rw [TriangularProbe.countP_set vacant, valid.used]
  · rw [List.countP_append, valid.counted]
    rfl
  · exact room

theorem insert_duplicate {map : MultiMap κ ν} (valid : Valid keys map) (v : κ × ν) {tail : ℕ}
    {tailNode : NodeEntry κ ν} (at_tail : map.nodeBuffer[tail]? = some tailNode)
    (equal : keys.equal tailNode.key v.1 = true) (last : ¬HasLater keys map.nodeBuffer tail)
    (few : map.nodeBuffer.length < 2 ^ 29) :
    ∃ next, MultiMap.linkTail tailNode.next map.nodeBuffer.length = some next ∧
      Valid keys { map with
        nodeBuffer := map.nodeBuffer.set tail { tailNode with next := next } ++
          [⟨v.1, v.2, NextNode.makeDuplicateTailNode⟩] } := by
  set new : NodeEntry κ ν := ⟨v.1, v.2, NextNode.makeDuplicateTailNode⟩
  have small := (List.getElem?_eq_some_iff.mp at_tail).1
  have tail_same : Same keys (map.nodeBuffer ++ [new]) tail map.nodeBuffer.length :=
    (same_append_iff at_tail).mpr equal
  have linked := valid.chained tail tailNode at_tail
  obtain ⟨next, link, linked'⟩ := linkTail_spec at_tail linked last tail_same few
  refine ⟨next, link, ?_⟩
  set changed : NodeEntry κ ν := { tailNode with next := next }
  have keyed : (map.nodeBuffer ++ [new]).map (·.key) =
      (map.nodeBuffer.set tail changed ++ [new]).map (·.key) := by
    rw [List.map_append, List.map_append, List.map_set]
    have held : (map.nodeBuffer.map (·.key))[tail]? = some changed.key := by
      rw [List.getElem?_map, at_tail]
      rfl
    rw [set_held held]
  have length : (map.nodeBuffer.set tail changed).length = map.nodeBuffer.length := List.length_set
  have earlier_iff : ∀ i < map.nodeBuffer.length,
      HasEarlier keys (map.nodeBuffer.set tail changed ++ [new]) i ↔ HasEarlier keys map.nodeBuffer i := by
    intro i before
    have grown : HasEarlier keys (map.nodeBuffer ++ [new]) i ↔ HasEarlier keys map.nodeBuffer i :=
      hasEarlier_append_iff before
    rw [← grown]
    simp only [HasEarlier, Same.congr keyed]
  have chained : Chained keys (map.nodeBuffer.set tail changed ++ [new]) := by
    intro i node at_i
    refine Linked.congr keyed ?_
    rcases Nat.lt_or_ge i map.nodeBuffer.length with before | beyond
    · rw [List.getElem?_append_left (by omega)] at at_i
      by_cases own : tail = i
      · rw [← own, List.getElem?_set_self small] at at_i
        rw [← own, ← Option.some.inj at_i]
        exact linked'
      · rw [List.getElem?_set_ne own] at at_i
        refine (valid.chained i node at_i).append before fun same => ?_
        have same_tail : Same keys map.nodeBuffer i tail :=
          (Same.append_iff before small).mp (same.trans tail_same.symm)
        rcases Nat.lt_or_ge i tail with less | ge
        · exact ⟨tail, less, same_tail⟩
        · exact absurd ⟨i, by omega, same_tail.symm⟩ last
    · obtain ⟨inside, eq⟩ := List.getElem?_eq_some_iff.mp at_i
      rw [List.length_append, List.length_singleton, length] at inside
      obtain rfl : i = map.nodeBuffer.length := by omega
      rw [List.getElem_concat_length length.symm] at eq
      rw [← eq]
      exact linked_new_tail tail_same small
  constructor
  · exact chained
  · constructor
    · intro i inside
      obtain ⟨less, no_earlier⟩ := valid.hashed.firsts i inside
      exact ⟨by simp only [List.length_append, length, List.length_singleton]; omega,
        fun has => no_earlier ((earlier_iff i less).mp has)⟩
    · intro i node at_i no_earlier
      rcases Nat.lt_or_ge i map.nodeBuffer.length with before | beyond
      · have key : ∃ old, map.nodeBuffer[i]? = some old ∧ old.key = node.key := by
          rw [List.getElem?_append_left (by omega)] at at_i
          by_cases own : tail = i
          · rw [← own, List.getElem?_set_self small] at at_i
            exact ⟨tailNode, own ▸ at_tail, by rw [← Option.some.inj at_i]⟩
          · rw [List.getElem?_set_ne own] at at_i
            exact ⟨node, at_i, rfl⟩
        obtain ⟨old, at_old, same_key⟩ := key
        rw [← same_key]
        exact valid.hashed.placed i old at_old fun has => no_earlier ((earlier_iff i before).mpr has)
      · obtain ⟨inside, -⟩ := List.getElem?_eq_some_iff.mp at_i
        rw [List.length_append, List.length_singleton, length] at inside
        obtain rfl : i = map.nodeBuffer.length := by omega
        exact absurd ⟨tail, small, (Same.congr keyed).mp tail_same⟩ no_earlier
  · exact valid.size
  · exact valid.growth
  · exact valid.used
  · have same_mark : isFirst changed = isFirst tailNode := by
      have linked'' : Linked keys (map.nodeBuffer ++ [new]) tail changed.next := linked'
      rw [Bool.eq_iff_iff, linked''.isFirst_iff, linked.isFirst_iff, hasEarlier_append_iff small]
    rw [List.countP_append, List.countP_set small, (List.getElem?_eq_some_iff.mp at_tail).2, same_mark,
      ← valid.counted]
    have counted : (if isFirst tailNode = true then 1 else 0) ≤ map.nodeBuffer.countP isFirst := by
      split
      · next first => exact List.countP_pos_iff.mpr ⟨tailNode, List.mem_of_getElem? at_tail, first⟩
      · exact Nat.zero_le _
    have new_not : [new].countP isFirst = 0 := rfl
    omega
  · exact valid.room

theorem makeRoom_spec {map : MultiMap κ ν} (valid : Valid keys map) :
    ∃ roomy, MultiMap.makeRoom keys map = some roomy ∧ Valid keys roomy ∧ roomy.nodeBuffer = map.nodeBuffer ∧
      roomy.hashBufferUseCount < roomy.nextHashBufferGrowth := by
  unfold MultiMap.makeRoom
  split
  · next full => exact grow_spec valid full
  · next room => exact ⟨map, rfl, valid, rfl, Nat.lt_of_le_of_ne valid.room room⟩

theorem fresh_of_unplaced {map : MultiMap κ ν} (valid : Valid keys map) {key : κ}
    (differ : ∀ item, Placed map.hashBuffer (keys.hash key).toNat item →
      MultiMap.hasKey keys map.nodeBuffer key item = false) (i : ℕ) (node : NodeEntry κ ν)
    (at_i : map.nodeBuffer[i]? = some node) : keys.equal node.key key = false := by
  induction i using Nat.strong_induction_on generalizing node with
  | _ i ih =>
      by_contra same
      rw [Bool.not_eq_false] at same
      by_cases earlier : HasEarlier keys map.nodeBuffer i
      · obtain ⟨j, less, first, second, at_j, at_i', equal⟩ := earlier
        obtain rfl := Option.some.inj (at_i.symm.trans at_i')
        have differs := ih j less first at_j
        rw [keys.trans _ _ _ equal same] at differs
        exact absurd differs (by simp)
      · have placed := valid.hashed.placed i node at_i earlier
        rw [keys.hash_eq _ _ same] at placed
        have unequal := differ i placed
        rw [MultiMap.hasKey, at_i] at unequal
        exact absurd same (Bool.eq_false_iff.mp unequal)

theorem insertNode_spec {map : MultiMap κ ν} (valid : Valid keys map) (v : κ × ν)
    (room : map.hashBufferUseCount < map.nextHashBufferGrowth) (few : map.nodeBuffer.length < 2 ^ 29) :
    ∃ next, MultiMap.insertNode keys map v = some next ∧ Valid keys next ∧ contents next = contents map ++ [v] := by
  obtain ⟨bits, size⟩ := valid.size
  have free : none ∈ map.hashBuffer := by
    refine TriangularProbe.none_mem_of_countP_lt ?_
    have growth := valid.growth
    rw [valid.used]
    omega
  obtain ⟨index, found, here⟩ := search_spec size free (MultiMap.hasKey keys map.nodeBuffer v.1) (keys.hash v.1).toNat
  rw [MultiMap.insertNode, found]
  simp only [Option.bind_eq_bind, Option.bind_some]
  rcases here with ⟨item, at_index, has_key⟩ | ⟨vacant, differ, puts⟩
  · obtain ⟨inside, -⟩ := valid.hashed.firsts item (List.mem_of_getElem? at_index)
    obtain ⟨tail, walk, ⟨node, tailNode, at_item, at_tail, equal⟩, last⟩ :=
      chainEnd_spec valid.chained (map.nodeBuffer.length + 1) inside (by omega)
    rw [MultiMap.hasKey, at_item] at has_key
    have equal' : keys.equal tailNode.key v.1 = true := keys.trans _ _ _ (keys.symm _ _ equal) has_key
    obtain ⟨next, link, valid'⟩ := insert_duplicate valid v at_tail equal' last few
    rw [at_index]
    simp only [walk, at_tail, link, Option.bind_some]
    refine ⟨_, rfl, valid', ?_⟩
    have held : (contents map)[tail]? = some (tailNode.key, tailNode.value) := by
      rw [contents, List.getElem?_map, at_tail]
      rfl
    rw [contents, List.map_append, List.map_set, List.map_singleton, ← contents, set_held held]
  · rw [vacant]
    refine ⟨_, rfl, insert_fresh valid v room vacant (fresh_of_unplaced valid differ) puts, ?_⟩
    rw [contents, List.map_append, List.map_singleton, ← contents]

theorem insert_spec {map : MultiMap κ ν} (valid : Valid keys map) (v : κ × ν)
    (few : map.nodeBuffer.length < 2 ^ 29) : ∃ next, MultiMap.insert keys map v = some next ∧ Valid keys next ∧
      contents next = contents map ++ [v] := by
  obtain ⟨roomy, made, valid', same_nodes, room⟩ := makeRoom_spec valid
  obtain ⟨next, inserted, valid'', same⟩ := insertNode_spec valid' v room (by rw [same_nodes]; exact few)
  refine ⟨next, ?_, valid'', ?_⟩
  · rw [MultiMap.insert, made]
    exact inserted
  · rw [same, contents, same_nodes, contents]

theorem insert_run (inserts : List (κ × ν)) (few : inserts.length ≤ 2 ^ 29) :
    ∃ map, inserts.foldlM (MultiMap.insert keys) MultiMap.empty = some map ∧ Valid keys map ∧
      contents map = inserts := by
  induction inserts using List.reverseRecOn with
  | nil => exact ⟨MultiMap.empty, rfl, empty_valid, rfl⟩
  | append_singleton done v ih =>
      rw [List.length_append, List.length_singleton] at few
      obtain ⟨map, run, valid, same⟩ := ih (by omega)
      have length : map.nodeBuffer.length = done.length := by rw [← same, contents, List.length_map]
      obtain ⟨next, inserted, valid', same'⟩ := insert_spec valid v (by omega)
      exact ⟨next, by rw [Prefixes.foldlM_snoc _ _ run, inserted], valid', by rw [same', same]⟩

variable (keys)

/-- The entries of a multimap: each key that no earlier insertion had, with all values inserted for it. -/
def entries (inserts : List (κ × ν)) : List (κ × List ν) :=
  inserts.zipIdx.filterMap fun (v, i) =>
    if (inserts.take i).any fun earlier => keys.equal earlier.1 v.1 then none
    else some (v.1, (inserts.filter fun other => keys.equal v.1 other.1).map (·.2))

theorem mapM_zipIdx {α β : Type} {f : α → Option β} (g : α × ℕ → β) (list : List α)
    (each : ∀ i a, list[i]? = some a → f a = some (g (a, i))) : list.mapM f = some (list.zipIdx.map g) := by
  induction list using List.reverseRecOn with
  | nil => rfl
  | append_singleton done last ih =>
      have before : done.mapM f = some (done.zipIdx.map g) := by
        refine ih fun i a at_i => each i a ?_
        rw [List.getElem?_append_left (List.getElem?_eq_some_iff.mp at_i).1, at_i]
      have now : f last = some (g (last, done.length)) := each _ _ List.getElem?_concat_length
      rw [List.mapM_append, before, List.zipIdx_append, List.map_append]
      simp [now]

variable {keys}

theorem any_take_iff {map : MultiMap κ ν} {i : ℕ} {node : NodeEntry κ ν} (at_i : map.nodeBuffer[i]? = some node) :
    (((contents map).take i).any fun earlier => keys.equal earlier.1 node.key) = true ↔
      HasEarlier keys map.nodeBuffer i := by
  rw [List.any_eq_true]
  constructor
  · rintro ⟨v, inside, equal⟩
    obtain ⟨j, at_j⟩ := List.getElem?_of_mem inside
    have less : j < i := by
      have small := (List.getElem?_eq_some_iff.mp at_j).1
      rw [List.length_take] at small
      omega
    rw [List.getElem?_take_of_lt less, contents, List.getElem?_map, Option.map_eq_some_iff] at at_j
    obtain ⟨other, at_j, rfl⟩ := at_j
    exact ⟨j, less, other, node, at_j, at_i, equal⟩
  · rintro ⟨j, less, other, node', at_j, at_i', equal⟩
    obtain rfl := Option.some.inj (at_i.symm.trans at_i')
    refine ⟨(other.key, other.value), @List.mem_of_getElem? _ _ j _ ?_, equal⟩
    rw [List.getElem?_take_of_lt less, contents, List.getElem?_map, at_j]
    rfl

theorem valuesFrom_contents (map : MultiMap κ ν) (key : κ) :
    valuesFrom keys map.nodeBuffer key 0 = ((contents map).filter fun other => keys.equal key other.1).map (·.2) := by
  rw [valuesFrom, List.drop_zero, contents, List.filter_map, List.map_map]
  rfl

theorem forEachEntry_spec {map : MultiMap κ ν} (valid : Valid keys map) :
    MultiMap.forEachEntry map = some (entries keys (contents map)) := by
  have each : ∀ i node, map.nodeBuffer[i]? = some node → MultiMap.entryOf map.nodeBuffer node =
      some (if ((contents map).take i).any fun earlier => keys.equal earlier.1 node.key then none
        else some (node.key, ((contents map).filter fun other => keys.equal node.key other.1).map (·.2))) := by
    intro i node at_i
    obtain ⟨skipped, called⟩ := entryOf_spec valid.chained at_i
    split
    · next earlier => exact skipped ((any_take_iff at_i).mp earlier)
    · next first =>
        rw [called fun has => first ((any_take_iff at_i).mpr has), valuesFrom_contents]
  rw [MultiMap.forEachEntry, mapM_zipIdx (fun entry =>
    if ((contents map).take entry.2).any fun earlier => keys.equal earlier.1 entry.1.key then none
    else some (entry.1.key, ((contents map).filter fun other => keys.equal entry.1.key other.1).map (·.2))) _ each]
  simp only [Option.bind_eq_bind, Option.bind_some, Option.pure_def, Option.some.injEq]
  rw [entries, List.reduceOption, List.filterMap_map]
  conv_rhs => rw [contents, List.zipIdx_map, List.filterMap_map]
  rfl

variable (keys)

/-- Every run of insertions ends, and the handler is called once for each key, in the order of
the first insertions, with the values of the key in the order of their insertions. -/
theorem forEachEntry_inserted (inserts : List (κ × ν)) (few : inserts.length < 2 ^ 29) :
    ∃ map, inserts.foldlM (MultiMap.insert keys) MultiMap.empty = some map ∧
      MultiMap.forEachEntry map = some (entries keys inserts) := by
  obtain ⟨map, run, valid, same⟩ := @insert_run _ _ keys inserts (Nat.le_of_lt few)
  exact ⟨map, run, by rw [forEachEntry_spec valid, same]⟩

/-- Words that are their own hashes. -/
def wordKeys : Keys (BitVec 64) where
  hash word := word
  equal first second := first == second
  refl _ := beq_self_eq_true _
  symm _ _ equal := by rw [eq_of_beq equal, beq_self_eq_true]
  trans _ _ _ equal equal' := by rw [eq_of_beq equal, equal']
  hash_eq _ _ equal := eq_of_beq equal

theorem forEachEntry_inserted_words :
    ∃ map, [(7, 1), (1031, 2), (7, 3)].foldlM (MultiMap.insert wordKeys) MultiMap.empty = some map ∧
      MultiMap.forEachEntry map = some [(7, [1, 3]), (1031, [2])] :=
  forEachEntry_inserted wordKeys [(7, 1), (1031, 2), (7, 3)] (by decide)

end ObjcDyld.Containers
