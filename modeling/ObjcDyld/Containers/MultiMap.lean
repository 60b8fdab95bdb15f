import ObjcDyld.Common.Prefixes
import ObjcDyld.Common.TriangularProbe

/-!
# The multimap of the closure builder

`dyld3::MultiMap`: nodes in the order of their insertion, with the nodes of one key linked by their
indexes, and a hash buffer with the index of each key's first node.
-/

namespace ObjcDyld.Containers

open TriangularProbe (search)

/-- `GetHash` and `IsEqual` of a key type, of which the hash respects the equality. -/
structure Keys (κ : Type) where
  hash : κ → BitVec 64
  equal : κ → κ → Bool
  refl : ∀ key, equal key key = true
  symm : ∀ first second, equal first second = true → equal second first = true
  trans : ∀ first second third, equal first second = true → equal second third = true → equal first third = true
  hash_eq : ∀ first second, equal first second = true → hash first = hash second

/-- `MultiMap::NextNode`. -/
structure NextNode where
  isDuplicateHead : Bool
  isDuplicateEntry : Bool
  isDuplicateTail : Bool
  nextIndex : BitVec 29

namespace NextNode

def hasAnyDuplicates (next : NextNode) : Bool :=
  next.isDuplicateHead || next.isDuplicateEntry || next.isDuplicateTail

def hasMoreDuplicates (next : NextNode) : Bool := next.isDuplicateHead || next.isDuplicateEntry

def makeNoDuplicates : NextNode := ⟨false, false, false, 0⟩

def makeDuplicateTailNode : NextNode := ⟨false, false, true, 0⟩

end NextNode

/-- `MultiMap::NodeEntryT`. -/
structure NodeEntry (κ ν : Type) where
  key : κ
  value : ν
  next : NextNode

/-- `dyld3::MultiMap`; an unused entry of the hash buffer is `none` for `SentinelHash`. -/
structure MultiMap (κ ν : Type) where
  nextHashBufferGrowth : ℕ
  hashBufferUseCount : ℕ
  hashBuffer : List (Option ℕ)
  nodeBuffer : List (NodeEntry κ ν)

namespace MultiMap

variable {κ ν : Type} (keys : Keys κ)

/-- The constructor: the hash buffer is kept about 75% full. -/
def empty : MultiMap κ ν := ⟨768, 0, List.replicate 1024 none, []⟩

/-- A step of the walk that fills the new hash buffer: keys differ, so it looks for the next sentinel only. -/
def rehashNode (newHashBuffer : List (Option ℕ)) (node : NodeEntry κ ν × ℕ) : Option (List (Option ℕ)) :=
  if node.1.next.isDuplicateEntry || node.1.next.isDuplicateTail then some newHashBuffer
  else do
    let newHashIndex ← search newHashBuffer (fun _ => false) (keys.hash node.1.key).toNat
    return newHashBuffer.set newHashIndex (some node.2)

/-- Grow the hash buffer and rehash everything. -/
def grow (map : MultiMap κ ν) : Option (MultiMap κ ν) := do
  let newHashBuffer ← map.nodeBuffer.zipIdx.foldlM (rehashNode keys) (List.replicate (map.hashBuffer.length * 2) none)
  return { map with nextHashBufferGrowth := map.nextHashBufferGrowth * 2, hashBuffer := newHashBuffer }

def hasKey (nodeBuffer : List (NodeEntry κ ν)) (key : κ) (nodeBufferIndex : ℕ) : Bool :=
  match nodeBuffer[nodeBufferIndex]? with
  | some node => keys.equal node.key key
  | none => false

def chainEnd (nodeBuffer : List (NodeEntry κ ν)) : ℕ → ℕ → Option ℕ
  | 0, _ => none
  | fuel + 1, nodeBufferIndex => do
      let node ← nodeBuffer[nodeBufferIndex]?
      if node.next.hasMoreDuplicates then chainEnd nodeBuffer fuel node.next.nextIndex.toNat
      else return nodeBufferIndex

/-- The last node of a chain gets a successor; a single node becomes the head of a list. -/
def linkTail (tailNode : NextNode) (count : ℕ) : Option NextNode :=
  if !tailNode.hasAnyDuplicates then
    some { tailNode with isDuplicateHead := true, nextIndex := BitVec.ofNat 29 count }
  else if tailNode.isDuplicateTail then
    some { tailNode with isDuplicateTail := false, isDuplicateEntry := true, nextIndex := BitVec.ofNat 29 count }
  else none -- the assertion

/-- The start of `insert`: see if there is enough space. -/
def makeRoom (map : MultiMap κ ν) : Option (MultiMap κ ν) :=
  if map.hashBufferUseCount = map.nextHashBufferGrowth then grow keys map else some map

/-- The rest of `insert`: find the index in the hash buffer and add the new node. -/
def insertNode (map : MultiMap κ ν) (v : κ × ν) : Option (MultiMap κ ν) := do
  let hashIndex ← search map.hashBuffer (hasKey keys map.nodeBuffer v.1) (keys.hash v.1).toNat
  match map.hashBuffer[hashIndex]? with
  | some (some nodeBufferIndex) =>
      let tail ← chainEnd map.nodeBuffer (map.nodeBuffer.length + 1) nodeBufferIndex
      let tailNode ← map.nodeBuffer[tail]?
      let next ← linkTail tailNode.next map.nodeBuffer.length
      return { map with
        nodeBuffer := map.nodeBuffer.set tail { tailNode with next := next } ++
          [⟨v.1, v.2, NextNode.makeDuplicateTailNode⟩] }
  | _ =>
      return { map with
        hashBuffer := map.hashBuffer.set hashIndex (some map.nodeBuffer.length)
        hashBufferUseCount := map.hashBufferUseCount + 1
        nodeBuffer := map.nodeBuffer ++ [⟨v.1, v.2, NextNode.makeNoDuplicates⟩] }

/-- `MultiMap::insert`; `none` if one of its loops did not end or an assertion failed. -/
def insert (map : MultiMap κ ν) (v : κ × ν) : Option (MultiMap κ ν) := do
  let map ← makeRoom keys map
  insertNode keys map v

/-- The values of the nodes after a head; the loop that counts them takes the same steps as the
loop that copies them. -/
def duplicates (nodeBuffer : List (NodeEntry κ ν)) : ℕ → NextNode → Option (List ν)
  | 0, _ => none
  | fuel + 1, nextNode => do
      let node ← nodeBuffer[nextNode.nextIndex.toNat]?
      if node.next.hasMoreDuplicates then
        let values ← duplicates nodeBuffer fuel node.next
        return node.value :: values
      else return [node.value]

/-- The call that `forEachEntry` makes for a node, if it is not skipped as a duplicate. -/
def entryOf (nodeBuffer : List (NodeEntry κ ν)) (headNode : NodeEntry κ ν) : Option (Option (κ × List ν)) :=
  if !headNode.next.hasAnyDuplicates then some (some (headNode.key, [headNode.value]))
  else if !headNode.next.isDuplicateHead then some none
  else do
    let values ← duplicates nodeBuffer (nodeBuffer.length + 1) headNode.next
    return some (headNode.key, headNode.value :: values)

/-- `MultiMap::forEachEntry`: the calls of the handler. -/
def forEachEntry (map : MultiMap κ ν) : Option (List (κ × List ν)) := do
  let entries ← map.nodeBuffer.mapM (entryOf map.nodeBuffer)
  return entries.reduceOption

end MultiMap

end ObjcDyld.Containers

/-!
## The map of the closure builder

`dyld3::Map`: nodes in the order of their insertion, and a hash buffer with their indexes that
doubles when three quarters of it are used. What every run of calls does is what an association list does.
-/

namespace ObjcDyld.Containers

open TriangularProbe (search search_spec Placed)

/-- `dyld3::Map`; an unused entry of the hash buffer is `none` for `SentinelHash`. -/
structure Map (κ ν : Type) where
  nextHashBufferGrowth : ℕ
  hashBufferUseCount : ℕ
  hashBuffer : List (Option ℕ)
  nodeBuffer : List (κ × ν)

namespace Map

variable {κ ν : Type} (keys : Keys κ)

/-- The constructor: the hash buffer is kept about 75% full. -/
def empty : Map κ ν := ⟨768, 0, List.replicate 1024 none, []⟩

/-- `IsEqual::equal(nodeBuffer[nodeBufferIndex].first, key)`. -/
def hasKey (nodeBuffer : List (κ × ν)) (key : κ) (nodeBufferIndex : ℕ) : Bool :=
  match nodeBuffer[nodeBufferIndex]? with
  | some node => keys.equal node.1 key
  | none => false

/-- `find`, both of them: the index of the node, or `none` for `end()`; nothing if the loop does not end. -/
def find (map : Map κ ν) (key : κ) : Option (Option ℕ) := do
  let hashIndex ← search map.hashBuffer (hasKey keys map.nodeBuffer key) (keys.hash key).toNat
  match map.hashBuffer[hashIndex]? with
  | some (some nodeBufferIndex) => return some nodeBufferIndex
  | _ => return none

/-- A step of the walk that fills the new hash buffer: keys differ, so it looks for the next sentinel only. -/
def rehashNode (newHashBuffer : List (Option ℕ)) (node : (κ × ν) × ℕ) : Option (List (Option ℕ)) := do
  let newHashIndex ← search newHashBuffer (fun _ => false) (keys.hash node.1.1).toNat
  return newHashBuffer.set newHashIndex (some node.2)

/-- Grow and rehash everything. -/
def grow (map : Map κ ν) : Option (Map κ ν) := do
  let newHashBuffer ← map.nodeBuffer.zipIdx.foldlM (rehashNode keys) (List.replicate (map.hashBuffer.length * 2) none)
  return { map with nextHashBufferGrowth := map.nextHashBufferGrowth * 2, hashBuffer := newHashBuffer }

/-- The start of `insert`: see if there is enough space. -/
def makeRoom (map : Map κ ν) : Option (Map κ ν) :=
  if map.hashBufferUseCount = map.nextHashBufferGrowth then grow keys map else some map

/-- The rest of `insert`: the index of the node, and whether it is new. -/
def insertNode (map : Map κ ν) (v : κ × ν) : Option (Map κ ν × ℕ × Bool) := do
  let hashIndex ← search map.hashBuffer (hasKey keys map.nodeBuffer v.1) (keys.hash v.1).toNat
  match map.hashBuffer[hashIndex]? with
  | some (some nodeBufferIndex) => return (map, nodeBufferIndex, false)
  | _ =>
      return ({ map with
        hashBuffer := map.hashBuffer.set hashIndex (some map.nodeBuffer.length)
        hashBufferUseCount := map.hashBufferUseCount + 1
        nodeBuffer := map.nodeBuffer ++ [v] }, map.nodeBuffer.length, true)

/-- `Map::insert`; `none` if one of its loops does not end. -/
def insert (map : Map κ ν) (v : κ × ν) : Option (Map κ ν × ℕ × Bool) := do
  let map ← makeRoom keys map
  insertNode keys map v

/-- `operator[]`: the index of the node whose value it returns a reference to. -/
def subscript [Inhabited ν] (map : Map κ ν) (key : κ) : Option (Map κ ν × ℕ) := do
  let (map, nodeBufferIndex, _) ← insert keys map (key, default)
  return (map, nodeBufferIndex)

/-- The caller writes the value through a reference or an iterator. -/
def write (map : Map κ ν) (nodeBufferIndex : ℕ) (value : ν) : Map κ ν :=
  { map with nodeBuffer := map.nodeBuffer.modify nodeBufferIndex fun node => (node.1, value) }

end Map

/-- What a user of a map does. -/
inductive MapCall (κ ν : Type) where
  | insert (key : κ) (value : ν)
  | subscript (key : κ)
  | find (key : κ)
  | write (nodeBufferIndex : ℕ) (value : ν)

/-- The index of the node that a call returns, and whether it is new. -/
structure MapResult where
  node : Option ℕ
  inserted : Bool
  deriving DecidableEq

variable {κ ν : Type} [Inhabited ν] (keys : Keys κ)

def MapCall.run (map : Map κ ν) : MapCall κ ν → Option (Map κ ν × MapResult)
  | .insert key value => do
      let (map, node, inserted) ← map.insert keys (key, value)
      return (map, ⟨some node, inserted⟩)
  | .subscript key => do
      let (map, node) ← map.subscript keys key
      return (map, ⟨some node, false⟩)
  | .find key => do
      let node ← map.find keys key
      return (map, ⟨node, false⟩)
  | .write nodeBufferIndex value => some (map.write nodeBufferIndex value, ⟨none, false⟩)

def runCalls (calls : List (MapCall κ ν)) : Option (Map κ ν × List MapResult) :=
  calls.foldlM (fun (map, results) call => do
    let (map, result) ← call.run keys map
    return (map, results ++ [result])) (Map.empty, [])

def nodeOf {μ : Type} (nodes : List (κ × μ)) (key : κ) : Option ℕ := nodes.findIdx? fun node => keys.equal node.1 key

def insertAbsent (nodes : List (κ × ν)) (v : κ × ν) : List (κ × ν) × ℕ × Bool :=
  match nodeOf keys nodes v.1 with
  | some node => (nodes, node, false)
  | none => (nodes ++ [v], nodes.length, true)

/-- What a call does to the nodes in the order of their insertion. -/
def MapCall.expected (nodes : List (κ × ν)) : MapCall κ ν → List (κ × ν) × MapResult
  | .insert key value =>
      let (nodes, node, inserted) := insertAbsent keys nodes (key, value)
      (nodes, ⟨some node, inserted⟩)
  | .subscript key =>
      let (nodes, node, _) := insertAbsent keys nodes (key, default)
      (nodes, ⟨some node, false⟩)
  | .find key => (nodes, ⟨nodeOf keys nodes key, false⟩)
  | .write nodeBufferIndex value => (nodes.modify nodeBufferIndex fun node => (node.1, value), ⟨none, false⟩)

def expectedCalls (calls : List (MapCall κ ν)) : List (κ × ν) × List MapResult :=
  calls.foldl (fun (nodes, results) call =>
    let (nodes, result) := call.expected keys nodes
    (nodes, results ++ [result])) ([], [])

end ObjcDyld.Containers
