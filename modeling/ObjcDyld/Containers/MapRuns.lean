import ObjcDyld.Containers.MultiMap

/-!
# Runs of a map

Every node is placed in the hash buffer, where the probe for its key meets it, and a quarter of the
hash buffer is free. So every probe ends, at the node of the key if there is one.
-/

namespace ObjcDyld.Containers

open TriangularProbe (search search_spec Placed)

variable {κ ν : Type} {keys : Keys κ}

section Nodes

variable {μ : Type} {nodes : List (κ × μ)} {key : κ} {i : ℕ}

variable (keys nodes) in
def DistinctKeys : Prop := (nodes.map Prod.fst).Pairwise fun first second => keys.equal first second = false

theorem nodeOf_eq_some {node : κ × μ} (distinct : DistinctKeys keys nodes) (at_i : nodes[i]? = some node)
    (equal : keys.equal node.1 key = true) : nodeOf keys nodes key = some i := by
  obtain ⟨inside, rfl⟩ := List.getElem?_eq_some_iff.mp at_i
  refine List.findIdx?_eq_some_iff_getElem.mpr ⟨inside, equal, fun j less same => ?_⟩
  have differ := List.pairwise_iff_getElem.mp (List.pairwise_map.mp distinct) j i (less.trans inside) inside less
  rw [keys.trans _ _ _ same (keys.symm _ _ equal)] at differ
  exact Bool.noConfusion differ

theorem nodeOf_eq_none_iff : nodeOf keys nodes key = none ↔ ∀ node ∈ nodes, keys.equal node.1 key = false :=
  List.findIdx?_eq_none_iff

theorem DistinctKeys.append (distinct : DistinctKeys keys nodes) (v : κ × μ) (fresh : nodeOf keys nodes v.1 = none) :
    DistinctKeys keys (nodes ++ [v]) := by
  refine List.pairwise_map.mpr (List.pairwise_append.mpr
    ⟨List.pairwise_map.mp distinct, List.pairwise_singleton _ _, fun node inside other last => ?_⟩)
  rw [List.mem_singleton.mp last]
  exact nodeOf_eq_none_iff.mp fresh node inside

end Nodes

namespace Map

/-- The nodes are in the hash buffer, each where a search for its key passes. -/
structure Hashed (keys : Keys κ) (nodes : List (κ × ν)) (hashBuffer : List (Option ℕ)) : Prop where
  inside : ∀ i, some i ∈ hashBuffer → i < nodes.length
  placed : ∀ (i : ℕ) (node : κ × ν), nodes[i]? = some node → Placed hashBuffer (keys.hash node.1).toNat i
  used : hashBuffer.countP Option.isSome = nodes.length

/-- What every map has after any calls. -/
structure Valid (keys : Keys κ) (map : Map κ ν) : Prop where
  distinct : DistinctKeys keys map.nodeBuffer
  hashed : Hashed keys map.nodeBuffer map.hashBuffer
  size : ∃ bits, map.hashBuffer.length = 2 ^ bits
  growth : map.nextHashBufferGrowth * 4 = map.hashBuffer.length * 3
  counted : map.nodeBuffer.length = map.hashBufferUseCount
  room : map.hashBufferUseCount ≤ map.nextHashBufferGrowth

variable {map : Map κ ν} {nodes : List (κ × ν)} {hashBuffer : List (Option ℕ)}

theorem hashed_empty (count : ℕ) : Hashed keys ([] : List (κ × ν)) (List.replicate count none) where
  inside i member := nomatch List.eq_of_mem_replicate member
  placed i node at_i := nomatch at_i
  used := by rw [List.countP_replicate]; rfl

theorem empty_valid : Valid keys (empty : Map κ ν) where
  distinct := .nil
  hashed := hashed_empty 1024
  size := ⟨10, List.length_replicate⟩
  growth := by simp only [empty, List.length_replicate]
  counted := rfl
  room := Nat.zero_le _

theorem Hashed.append (hashed : Hashed keys nodes hashBuffer) {index : ℕ} (v : κ × ν)
    (vacant : hashBuffer[index]? = some none)
    (puts : Placed (hashBuffer.set index (some nodes.length)) (keys.hash v.1).toNat nodes.length) :
    Hashed keys (nodes ++ [v]) (hashBuffer.set index (some nodes.length)) where
  inside i member := by
    rw [List.length_append, List.length_singleton]
    obtain before | new := List.mem_or_eq_of_mem_set member
    · exact (hashed.inside i before).trans (Nat.lt_succ_self _)
    · rw [Option.some.inj new]
      exact Nat.lt_succ_self _
  placed i node at_i := by
    rcases Nat.lt_or_ge i nodes.length with before | last
    · rw [List.getElem?_append_left before] at at_i
      exact (hashed.placed i node at_i).set vacant _
    · obtain ⟨small, eq⟩ := List.getElem?_eq_some_iff.mp at_i
      rw [List.length_append, List.length_singleton] at small
      obtain rfl : i = nodes.length := by omega
      rw [List.getElem_concat_length rfl] at eq
      rw [← eq]
      exact puts
  used := by rw [TriangularProbe.countP_set vacant, hashed.used, List.length_append, List.length_singleton]

theorem Valid.free (valid : Valid keys map) : none ∈ map.hashBuffer := by
  obtain ⟨bits, size⟩ := valid.size
  have positive := Nat.two_pow_pos bits
  have growth := valid.growth
  have room := valid.room
  refine TriangularProbe.none_mem_of_countP_lt ?_
  rw [valid.hashed.used, valid.counted]
  omega

theorem Valid.search (valid : Valid keys map) (key : κ) :
    ∃ index, search map.hashBuffer (hasKey keys map.nodeBuffer key) (keys.hash key).toNat = some index ∧
      ((∃ i, map.hashBuffer[index]? = some (some i) ∧ nodeOf keys map.nodeBuffer key = some i) ∨
        map.hashBuffer[index]? = some none ∧ nodeOf keys map.nodeBuffer key = none ∧
          ∀ item, Placed (map.hashBuffer.set index (some item)) (keys.hash key).toNat item) := by
  obtain ⟨bits, size⟩ := valid.size
  obtain ⟨index, found, here⟩ := search_spec size valid.free (hasKey keys map.nodeBuffer key) (keys.hash key).toNat
  refine ⟨index, found, ?_⟩
  rcases here with ⟨i, at_index, has_key⟩ | ⟨vacant, differ, puts⟩
  · have at_i := List.getElem?_eq_getElem (valid.hashed.inside i (List.mem_of_getElem? at_index))
    rw [hasKey, at_i] at has_key
    exact .inl ⟨i, at_index, nodeOf_eq_some valid.distinct at_i has_key⟩
  · refine .inr ⟨vacant, nodeOf_eq_none_iff.mpr fun node member => ?_, puts⟩
    obtain ⟨i, at_i⟩ := List.getElem?_of_mem member
    by_contra equal
    rw [Bool.not_eq_false] at equal
    -- the node of an equal key is on the way of this probe, too
    have placed := valid.hashed.placed i node at_i
    rw [keys.hash_eq _ _ equal] at placed
    have unequal := differ i placed
    rw [hasKey, at_i] at unequal
    exact Bool.noConfusion (equal.symm.trans unequal)

theorem find_spec (valid : Valid keys map) (key : κ) : map.find keys key = some (nodeOf keys map.nodeBuffer key) := by
  obtain ⟨index, found, here⟩ := valid.search key
  rw [find, found]
  obtain ⟨i, at_index, node⟩ | ⟨vacant, absent, -⟩ := here
  · simp [at_index, node]
  · simp [vacant, absent]

theorem rehash_spec {bits : ℕ} (room : nodes.length < 2 ^ bits) (count : ℕ) (le : count ≤ nodes.length) :
    ∃ hashBuffer, (nodes.zipIdx.take count).foldlM (rehashNode keys) (List.replicate (2 ^ bits) none) = some hashBuffer ∧
      hashBuffer.length = 2 ^ bits ∧ Hashed keys (nodes.take count) hashBuffer := by
  induction count with
  | zero => exact ⟨_, rfl, List.length_replicate, hashed_empty _⟩
  | succ count ih =>
      obtain ⟨hashBuffer, run, size, hashed⟩ := ih (Nat.le_of_succ_le le)
      have inside : count < nodes.length := le
      have length : (nodes.take count).length = count := List.length_take_of_le (Nat.le_of_succ_le le)
      have taken : nodes.take (count + 1) = nodes.take count ++ [nodes[count]] := List.take_succ_eq_append_getElem inside
      have zipped : nodes.zipIdx.take (count + 1) = nodes.zipIdx.take count ++ [(nodes[count], count)] := by
        rw [List.take_succ_eq_append_getElem (by rwa [List.length_zipIdx]), List.getElem_zipIdx, Nat.zero_add]
      have few : hashBuffer.countP Option.isSome < hashBuffer.length := by
        rw [hashed.used, length, size]
        exact inside.trans room
      obtain ⟨index, found, here⟩ := search_spec size (TriangularProbe.none_mem_of_countP_lt few) (fun _ => false)
        (keys.hash nodes[count].1).toNat
      obtain ⟨vacant, -, puts⟩ := here.resolve_left (by simp)
      rw [zipped, Prefixes.foldlM_snoc _ _ run, rehashNode, found, taken]
      have appended := hashed.append nodes[count] vacant (by rw [length]; exact puts count)
      rw [length] at appended
      exact ⟨_, rfl, by rw [List.length_set, size], appended⟩

theorem grow_spec (valid : Valid keys map) (full : map.hashBufferUseCount = map.nextHashBufferGrowth) :
    ∃ grown, grow keys map = some grown ∧ Valid keys grown ∧ grown.nodeBuffer = map.nodeBuffer ∧
      grown.hashBufferUseCount < grown.nextHashBufferGrowth := by
  obtain ⟨bits, size⟩ := valid.size
  have growth := valid.growth
  have positive := Nat.two_pow_pos bits
  have room : map.nodeBuffer.length < 2 ^ (bits + 1) := by
    rw [valid.counted, Nat.pow_succ]
    omega
  obtain ⟨hashBuffer, run, size', hashed⟩ : ∃ hashBuffer, (map.nodeBuffer.zipIdx.take map.nodeBuffer.length).foldlM (rehashNode keys) _ = some hashBuffer ∧ _ :=
    rehash_spec room map.nodeBuffer.length le_rfl
  rw [List.take_of_length_le (by rw [List.length_zipIdx]), Nat.pow_succ, ← size] at run
  rw [List.take_length] at hashed
  rw [grow, run]
  refine ⟨_, rfl, ⟨valid.distinct, hashed, ⟨bits + 1, size'⟩, ?_, valid.counted, ?_⟩, rfl, ?_⟩
  · simp only [size', Nat.pow_succ]
    omega
  · have := valid.room
    simp only
    omega
  · simp only
    omega

theorem makeRoom_spec (valid : Valid keys map) :
    ∃ roomy, makeRoom keys map = some roomy ∧ Valid keys roomy ∧ roomy.nodeBuffer = map.nodeBuffer ∧
      roomy.hashBufferUseCount < roomy.nextHashBufferGrowth := by
  unfold makeRoom
  split
  · next full => exact grow_spec valid full
  · next room => exact ⟨map, rfl, valid, rfl, Nat.lt_of_le_of_ne valid.room room⟩

theorem insertNode_spec (valid : Valid keys map) (v : κ × ν) (room : map.hashBufferUseCount < map.nextHashBufferGrowth) :
    ∃ next, insertNode keys map v = some (next, (insertAbsent keys map.nodeBuffer v).2) ∧ Valid keys next ∧
      next.nodeBuffer = (insertAbsent keys map.nodeBuffer v).1 := by
  obtain ⟨index, found, here⟩ := valid.search v.1
  rw [insertNode, found]
  obtain ⟨i, at_index, node⟩ | ⟨vacant, absent, puts⟩ := here
  · simp only [insertAbsent, node, at_index, Option.bind_eq_bind, Option.bind_some]
    exact ⟨map, rfl, valid, rfl⟩
  · simp only [insertAbsent, absent, vacant, Option.bind_eq_bind, Option.bind_some]
    refine ⟨_, rfl, ⟨valid.distinct.append v absent, valid.hashed.append v vacant (puts _), ?_, ?_, ?_, room⟩, rfl⟩
    · obtain ⟨bits, size⟩ := valid.size
      exact ⟨bits, by rw [List.length_set, size]⟩
    · rw [List.length_set]
      exact valid.growth
    · rw [List.length_append, valid.counted, List.length_singleton]

theorem insert_spec (valid : Valid keys map) (v : κ × ν) :
    ∃ next, insert keys map v = some (next, (insertAbsent keys map.nodeBuffer v).2) ∧ Valid keys next ∧
      next.nodeBuffer = (insertAbsent keys map.nodeBuffer v).1 := by
  obtain ⟨roomy, made, valid', same, room⟩ := makeRoom_spec valid
  obtain ⟨next, inserted, valid'', nodes⟩ := insertNode_spec valid' v room
  rw [same] at inserted nodes
  exact ⟨next, by rw [insert, made]; exact inserted, valid'', nodes⟩

theorem write_keys (map : Map κ ν) (nodeBufferIndex : ℕ) (value : ν) :
    (map.write nodeBufferIndex value).nodeBuffer.map Prod.fst = map.nodeBuffer.map Prod.fst := by
  refine List.ext_getElem? fun i => ?_
  rw [write, List.getElem?_map, List.getElem?_modify, List.getElem?_map]
  cases map.nodeBuffer[i]? with
  | none => split <;> rfl
  | some node => split <;> rfl

theorem write_valid (valid : Valid keys map) (nodeBufferIndex : ℕ) (value : ν) :
    Valid keys (map.write nodeBufferIndex value) := by
  have keyed := write_keys map nodeBufferIndex value
  have length := congrArg List.length keyed
  rw [List.length_map, List.length_map] at length
  refine ⟨?_, ⟨fun i member => ?_, fun i node at_i => ?_, ?_⟩, valid.size, valid.growth, length.trans valid.counted, valid.room⟩
  · rw [DistinctKeys, keyed]
    exact valid.distinct
  · rw [length]
    exact valid.hashed.inside i member
  · have at_key : (map.nodeBuffer.map Prod.fst)[i]? = some node.1 := by
      rw [← keyed, List.getElem?_map, at_i]
      rfl
    obtain ⟨old, at_old, same⟩ := Option.map_eq_some_iff.mp (List.getElem?_map.symm.trans at_key)
    rw [← same]
    exact valid.hashed.placed i old at_old
  · rw [length]
    exact valid.hashed.used

end Map

variable [Inhabited ν]

theorem MapCall.run_spec {map : Map κ ν} (valid : map.Valid keys) (call : MapCall κ ν) :
    ∃ next, call.run keys map = some (next, (call.expected keys map.nodeBuffer).2) ∧ next.Valid keys ∧
      next.nodeBuffer = (call.expected keys map.nodeBuffer).1 := by
  cases call with
  | insert key value =>
      obtain ⟨next, run, valid', nodes⟩ := Map.insert_spec valid (key, value)
      exact ⟨next, by rw [MapCall.run, run]; rfl, valid', nodes⟩
  | subscript key =>
      obtain ⟨next, run, valid', nodes⟩ := Map.insert_spec valid (key, default)
      exact ⟨next, by rw [MapCall.run, Map.subscript, run]; rfl, valid', nodes⟩
  | find key => exact ⟨map, by rw [MapCall.run, Map.find_spec valid]; rfl, valid, rfl⟩
  | write nodeBufferIndex value => exact ⟨_, rfl, Map.write_valid valid nodeBufferIndex value, rfl⟩

theorem runCalls_spec (calls : List (MapCall κ ν)) :
    ∃ map, runCalls keys calls = some (map, (expectedCalls keys calls).2) ∧ map.Valid keys ∧
      map.nodeBuffer = (expectedCalls keys calls).1 := by
  induction calls using List.reverseRecOn with
  | nil => exact ⟨Map.empty, rfl, Map.empty_valid, rfl⟩
  | append_singleton done call ih =>
      obtain ⟨map, run, valid, nodes⟩ := ih
      obtain ⟨next, step, valid', nodes'⟩ := call.run_spec valid
      rw [nodes] at step nodes'
      refine ⟨next, ?_, valid', ?_⟩
      · rw [runCalls, Prefixes.foldlM_snoc _ _ run]
        simp only [step, expectedCalls, List.foldl_concat]
        rfl
      · rw [nodes', expectedCalls, expectedCalls, List.foldl_concat]

variable (keys)

/-- A map is an association list into which keys are inserted if they are absent: every run of calls ends
and returns what such a list returns, and the nodes are that list, in which no key is twice. -/
theorem runCalls_insertAbsent (calls : List (MapCall κ ν)) :
    ∃ map, runCalls keys calls = some (map, (expectedCalls keys calls).2) ∧
      map.nodeBuffer = (expectedCalls keys calls).1 ∧ DistinctKeys keys map.nodeBuffer := by
  obtain ⟨map, run, valid, nodes⟩ : ∃ map, runCalls keys calls = some (map, _) ∧ map.Valid keys ∧ _ := runCalls_spec calls
  exact ⟨map, run, nodes, valid.distinct⟩

end ObjcDyld.Containers
