import ObjcDyld.Common.Repeats
import ObjcDyld.MachO.Leb128

/-!
# Offsets of the nodes of a trie

`Trie::emit` assigns offsets to the nodes until the sizes of all of them, which depend on the offsets of their
children, have settled.
-/

namespace ObjcDyld.Tries

open MachO

/-- `Trie::Node`, without its offset; `fInfo` is there when `fIsTerminal` is set, and the children are named. -/
structure Node (V ν : Type) where
  fInfo : Option V
  fChildren : List (List Char × ν)

/-- A trie, the size of its export info, and the vector of its nodes. -/
structure Trie (V ν : Type) where
  encodedSize : V → BitVec 32
  root : ν
  node : ν → Node V ν
  orderedNodes : List ν
  rootFirst : orderedNodes.head? = some root
  nodup : orderedNodes.Nodup
  complete : ∀ parent ∈ orderedNodes, ∀ edge ∈ (node parent).fChildren, edge.2 ∈ orderedNodes

/-- The variables of a pass. -/
structure Pass (ν : Type) where
  fTrieOffset : ν → BitVec 32
  offset : BitVec 32
  more : Bool

namespace Trie

variable {V ν : Type} (trie : Trie V ν)

/-- The part of a node's size that does not depend on its children: export info and its length, or a zero, and the
count of children. -/
def infoSize (node : Node V ν) : BitVec 32 :=
  match node.fInfo with
  | some info => trie.encodedSize info + BitVec.ofNat 32 (uleb128Size ((trie.encodedSize info).setWidth 64)) + 1
  | none => 2

/-- The size of an edge: the zero terminated substring and the offset of the child. -/
def edgeBytes (fTrieOffset : ν → BitVec 32) (edge : List Char × ν) : ℕ :=
  edge.1.length + 1 + uleb128Size ((fTrieOffset edge.2).setWidth 64)

def nodeSize (fTrieOffset : ν → BitVec 32) (node : Node V ν) : BitVec 32 :=
  node.fChildren.foldl (fun size edge => size + BitVec.ofNat 32 (edgeBytes fTrieOffset edge)) (trie.infoSize node)

variable [DecidableEq ν]

/-- `Node::updateOffset`. -/
def updateOffset (pass : Pass ν) (node : ν) : Pass ν where
  fTrieOffset := Function.update pass.fTrieOffset node pass.offset
  offset := pass.offset + trie.nodeSize pass.fTrieOffset (trie.node node)
  more := pass.more || pass.fTrieOffset node != pass.offset

/-- The body of the loop. -/
def pass (fTrieOffset : ν → BitVec 32) : Pass ν := trie.orderedNodes.foldl trie.updateOffset ⟨fTrieOffset, 0, false⟩

/-- The offsets after some passes; a new node has the offset 0. -/
def offsetsAfter : ℕ → ν → BitVec 32
  | 0 => fun _ => 0
  | passes + 1 => (trie.pass (offsetsAfter passes)).fTrieOffset

/-- The loop of `Trie::emit`, for a number of passes at most. -/
def assignOffsets (passes : ℕ) : Option (Pass ν) :=
  Repeats.repeatWhile (fun done : Pass ν => trie.pass done.fTrieOffset) (·.more) passes ⟨fun _ => 0, 0, true⟩

/-! ## The length of an encoding -/

/-- The bytes that a node takes. -/
def byteCount (fTrieOffset : ν → BitVec 32) (node : Node V ν) : ℕ :=
  (match node.fInfo with
    | some info => (trie.encodedSize info).toNat + uleb128Size ((trie.encodedSize info).setWidth 64) + 1
    | none => 2) + (node.fChildren.map (edgeBytes fTrieOffset)).sum

/-- The bytes that the nodes take from one on, with the offsets that they have when they are come to. -/
def lengthFrom : List ν → Pass ν → ℕ
  | [], _ => 0
  | node :: nodes, pass => trie.byteCount pass.fTrieOffset (trie.node node) + lengthFrom nodes (trie.updateOffset pass node)

/-- The encoding is shorter than 2^32 bytes in every pass. -/
def StaysShort : Prop := ∀ passes, trie.lengthFrom trie.orderedNodes ⟨trie.offsetsAfter passes, 0, false⟩ < 2 ^ 32

end Trie

/-! ## Sizes grow with offsets -/

theorem uleb128Size_mono {small large : BitVec 64} (le : small.toNat ≤ large.toNat) : uleb128Size small ≤ uleb128Size large := by
  induction small using uleb128Size.induct generalizing large with
  | case1 small more ih =>
      have shifted : (small >>> 7).toNat ≤ (large >>> 7).toNat := by
        rw [toNat_shifted, toNat_shifted]
        exact Nat.div_le_div_right le
      have more' : large >>> 7 ≠ 0 := by
        intro zero
        rw [zero] at shifted
        exact more (BitVec.eq_of_toNat_eq (Nat.le_zero.1 shifted))
      rw [uleb128Size, dif_pos more]
      conv_rhs => rw [uleb128Size, dif_pos more']
      exact Nat.succ_le_succ (ih shifted)
  | case2 small last =>
      rw [uleb128Size, dif_neg last, uleb128Size]
      split
      · exact Nat.succ_le_succ (Nat.zero_le _)
      · exact Nat.le_refl 1

theorem uleb128Size_le (groups : ℕ) {value : BitVec 64} (fits : value.toNat < 2 ^ (7 * (groups + 1))) :
    uleb128Size value ≤ groups + 1 := by
  induction groups generalizing value with
  | zero =>
      have last : value >>> 7 = 0 := BitVec.eq_of_toNat_eq ((toNat_shifted value).trans (Nat.div_eq_of_lt fits))
      rw [uleb128Size, dif_neg (not_not.2 last)]
  | succ groups ih =>
      rw [uleb128Size]
      split
      · refine Nat.succ_le_succ (ih ?_)
        rw [toNat_shifted]
        exact Nat.div_lt_of_lt_mul (by rwa [← Nat.pow_add, Nat.add_comm 7])
      · exact Nat.succ_le_succ (Nat.zero_le _)

namespace Trie

variable {V ν : Type} {trie : Trie V ν} {first second : ν → BitVec 32}

theorem nodeSize_eq (fTrieOffset : ν → BitVec 32) (node : Node V ν) :
    trie.nodeSize fTrieOffset node = BitVec.ofNat 32 (trie.byteCount fTrieOffset node) := by
  have edges : ∀ (edges : List (List Char × ν)) (size : ℕ),
      edges.foldl (fun size edge => size + BitVec.ofNat 32 (edgeBytes fTrieOffset edge)) (BitVec.ofNat 32 size) =
        BitVec.ofNat 32 (size + (edges.map (edgeBytes fTrieOffset)).sum) := by
    intro edges
    induction edges with
    | nil => exact fun size => rfl
    | cons edge edges ih =>
        intro size
        rw [List.foldl_cons, ← BitVec.ofNat_add, ih, List.map_cons, List.sum_cons, Nat.add_assoc]
  have info : trie.infoSize node = BitVec.ofNat 32 (match node.fInfo with
      | some info => (trie.encodedSize info).toNat + uleb128Size ((trie.encodedSize info).setWidth 64) + 1
      | none => 2) := by
    rw [infoSize]
    cases node.fInfo with
    | none => rfl
    | some info =>
        dsimp only
        rw [BitVec.ofNat_add, BitVec.ofNat_add, BitVec.ofNat_toNat, BitVec.setWidth_eq]
        rfl
  rw [nodeSize, info, edges]
  rfl

theorem byteCount_mono (trie : Trie V ν) (le : ∀ node, first node ≤ second node) (node : Node V ν) :
    trie.byteCount first node ≤ trie.byteCount second node := by
  refine Nat.add_le_add_left (List.sum_le_sum fun edge _ => Nat.add_le_add_left (uleb128Size_mono ?_) _) _
  rw [BitVec.toNat_setWidth_of_le (by decide), BitVec.toNat_setWidth_of_le (by decide)]
  exact le edge.2

variable [DecidableEq ν] {before after : Pass ν} {nodes : List ν} {node : ν}

theorem toNat_offset (short : before.offset.toNat + trie.byteCount before.fTrieOffset (trie.node node) < 2 ^ 32) :
    (trie.updateOffset before node).offset.toNat =
      before.offset.toNat + trie.byteCount before.fTrieOffset (trie.node node) := by
  rw [updateOffset, nodeSize_eq, BitVec.toNat_add, BitVec.toNat_ofNat, Nat.add_mod_mod, Nat.mod_eq_of_lt short]

theorem foldl_mono (offsets : ∀ node, before.fTrieOffset node ≤ after.fTrieOffset node) (le : before.offset ≤ after.offset)
    (short : before.offset.toNat + trie.lengthFrom nodes before < 2 ^ 32)
    (short' : after.offset.toNat + trie.lengthFrom nodes after < 2 ^ 32) :
    ∀ node, (nodes.foldl trie.updateOffset before).fTrieOffset node ≤ (nodes.foldl trie.updateOffset after).fTrieOffset node := by
  induction nodes generalizing before after with
  | nil => exact offsets
  | cons next nodes ih =>
      rw [lengthFrom, ← Nat.add_assoc] at short short'
      have here := toNat_offset (Nat.lt_of_le_of_lt (Nat.le_add_right _ _) short)
      have here' := toNat_offset (Nat.lt_of_le_of_lt (Nat.le_add_right _ _) short')
      have sizes := trie.byteCount_mono offsets (trie.node next)
      refine ih (fun node => ?_) ?_ (by rw [here]; exact short) (by rw [here']; exact short')
      · by_cases same : node = next
        · subst same
          simp only [updateOffset, Function.update_self]
          exact le
        · simp only [updateOffset, Function.update_of_ne same]
          exact offsets node
      · rw [BitVec.le_def, here, here']
        exact Nat.add_le_add le sizes

theorem pass_mono (le : ∀ node, first node ≤ second node)
    (short : trie.lengthFrom trie.orderedNodes ⟨first, 0, false⟩ < 2 ^ 32)
    (short' : trie.lengthFrom trie.orderedNodes ⟨second, 0, false⟩ < 2 ^ 32) (node : ν) :
    (trie.pass first).fTrieOffset node ≤ (trie.pass second).fTrieOffset node := by
  refine @foldl_mono V ν trie _ ⟨first, 0, false⟩ ⟨second, 0, false⟩ _ le (BitVec.le_refl _) ?_ ?_ node
  · exact (Nat.zero_add _).symm ▸ short
  · exact (Nat.zero_add _).symm ▸ short'

theorem offsetsAfter_mono (short : trie.StaysShort) (passes : ℕ) (node : ν) :
    trie.offsetsAfter passes node ≤ trie.offsetsAfter (passes + 1) node := by
  induction passes generalizing node with
  | zero => exact BitVec.le_def.2 (Nat.zero_le _)
  | succ passes ih => exact pass_mono ih (short passes) (short (passes + 1)) node

/-! ## The loop -/

theorem foldl_of_not_mem (other : node ∉ nodes) :
    (nodes.foldl trie.updateOffset before).fTrieOffset node = before.fTrieOffset node := by
  induction nodes generalizing before with
  | nil => rfl
  | cons next nodes ih =>
      rw [List.mem_cons, not_or] at other
      rw [List.foldl_cons, ih other.2]
      exact Function.update_of_ne other.1 _ _

theorem foldl_more_iff (nodup : nodes.Nodup) : (nodes.foldl trie.updateOffset before).more = true ↔
    before.more = true ∨
      ∃ node ∈ nodes, (nodes.foldl trie.updateOffset before).fTrieOffset node ≠ before.fTrieOffset node := by
  induction nodes generalizing before with
  | nil => exact (or_iff_left fun ⟨_, member, _⟩ => List.not_mem_nil member).symm
  | cons next nodes ih =>
      rw [List.nodup_cons] at nodup
      have here : ((next :: nodes).foldl trie.updateOffset before).fTrieOffset next = before.offset :=
        (foldl_of_not_mem nodup.1).trans (Function.update_self _ _ _)
      have others : ∀ node ∈ nodes, (trie.updateOffset before next).fTrieOffset node = before.fTrieOffset node :=
        fun node member => Function.update_of_ne (ne_of_mem_of_not_mem member nodup.1) _ _
      rw [List.exists_mem_cons_iff, here, List.foldl_cons, ih nodup.2, updateOffset, Bool.or_eq_true, bne_iff_ne, or_assoc,
        ne_comm]
      refine or_congr_right (or_congr_right (exists_congr fun node => and_congr_right fun member => ?_))
      rw [← others node member]
      rfl

theorem pass_more_iff (fTrieOffset : ν → BitVec 32) : (trie.pass fTrieOffset).more = true ↔
    ∃ node ∈ trie.orderedNodes, (trie.pass fTrieOffset).fTrieOffset node ≠ fTrieOffset node :=
  (foldl_more_iff trie.nodup).trans (or_iff_right Bool.false_ne_true)

/-- What the offsets of the nodes can still grow by. -/
def room (trie : Trie V ν) (fTrieOffset : ν → BitVec 32) : ℕ :=
  (trie.orderedNodes.map fun node => 2 ^ 32 - (fTrieOffset node).toNat).sum

omit [DecidableEq ν] in
theorem room_lt (grows : ∀ node, first node ≤ second node) (changed : ∃ node ∈ trie.orderedNodes, second node ≠ first node) :
    trie.room second < trie.room first := by
  refine List.sum_lt_sum _ _ (fun node _ => Nat.sub_le_sub_left (grows node) _) ?_
  obtain ⟨node, member, differs⟩ := changed
  have less : (first node).toNat < (second node).toNat :=
    Nat.lt_of_le_of_ne (grows node) fun same => differs (BitVec.eq_of_toNat_eq same.symm)
  exact ⟨node, member, by have := (second node).isLt; omega⟩

/-- The loop comes to a pass that changes no offset, and no offset ever decreases. -/
theorem assignOffsets_settles (trie : Trie V ν) (short : trie.StaysShort) :
    (∃ fuel settled passes, trie.assignOffsets fuel = some settled ∧
      settled.fTrieOffset = trie.offsetsAfter (passes + 1) ∧
        ∀ node ∈ trie.orderedNodes, trie.offsetsAfter (passes + 1) node = trie.offsetsAfter passes node) ∧
      ∀ passes node, trie.offsetsAfter passes node ≤ trie.offsetsAfter (passes + 1) node := by
  refine ⟨?_, offsetsAfter_mono short⟩
  have step : ∀ done : Pass ν, (∃ passes, done.fTrieOffset = trie.offsetsAfter passes) →
      ∃ passes, (trie.pass done.fTrieOffset).fTrieOffset = trie.offsetsAfter passes := by
    rintro done ⟨passes, reached⟩
    exact ⟨passes + 1, by rw [reached, offsetsAfter]⟩
  have lower : ∀ done : Pass ν, (∃ passes, done.fTrieOffset = trie.offsetsAfter passes) →
      (trie.pass done.fTrieOffset).more = true →
        trie.room (trie.pass done.fTrieOffset).fTrieOffset < trie.room done.fTrieOffset := by
    rintro done ⟨passes, reached⟩ more
    rw [reached] at more ⊢
    exact room_lt (offsetsAfter_mono short passes) ((pass_more_iff _).1 more)
  have start : ∃ passes, (⟨fun _ => 0, 0, true⟩ : Pass ν).fTrieOffset = trie.offsetsAfter passes := ⟨0, rfl⟩
  obtain ⟨last, run, ⟨passes, reached⟩, still⟩ := Repeats.repeatWhile_spec _ (fun done => trie.room done.fTrieOffset)
    step lower (trie.room (fun _ => 0) + 1) start (Nat.lt_succ_self _)
  rw [reached] at run still
  refine ⟨_, _, passes, run, rfl, fun node member => ?_⟩
  by_contra differs
  exact absurd ((pass_more_iff _).2 ⟨node, member, differs⟩) (ne_true_of_eq_false still)

end Trie

/-- A root that is linked to one symbol. -/
def oneSymbolNode (isSymbol : Bool) : Node Unit Bool := if isSymbol then ⟨some (), []⟩ else ⟨none, [(['_', 'f'], true)]⟩

theorem oneSymbolNode_complete (parent : Bool) (edge : List Char × Bool) (_ : edge ∈ (oneSymbolNode parent).fChildren) :
    edge.2 ∈ [false, true] := by
  cases edge.2 with
  | false => exact List.mem_cons_self
  | true => exact List.mem_cons_of_mem _ List.mem_cons_self

theorem oneSymbol_nodup : [false, true].Nodup := by decide

/-- The trie of that root. -/
def oneSymbol : Trie Unit Bool where
  encodedSize _ := 3
  root := false
  node := oneSymbolNode
  orderedNodes := [false, true]
  rootFirst := rfl
  nodup := oneSymbol_nodup
  complete parent _ := oneSymbolNode_complete parent

theorem oneSymbol_short : oneSymbol.StaysShort := by
  intro passes
  have groups : uleb128Size ((oneSymbol.offsetsAfter passes true).setWidth 64) ≤ 10 :=
    uleb128Size_le 9 (lt_of_lt_of_le (BitVec.isLt _) (Nat.pow_le_pow_right (by decide) (by decide)))
  have info : uleb128Size (3 : BitVec 64) = 1 := by
    rw [uleb128Size]
    rfl
  have root : oneSymbol.byteCount (oneSymbol.offsetsAfter passes) (oneSymbolNode false) =
      2 + (2 + 1 + uleb128Size ((oneSymbol.offsetsAfter passes true).setWidth 64)) := rfl
  have symbol : ∀ offsets, oneSymbol.byteCount offsets (oneSymbolNode true) = 3 + uleb128Size (3 : BitVec 64) + 1 :=
    fun _ => rfl
  change oneSymbol.byteCount (oneSymbol.offsetsAfter passes) (oneSymbolNode false) +
    (oneSymbol.byteCount _ (oneSymbolNode true) + 0) < 2 ^ 32
  rw [root, symbol, info]
  omega

theorem oneSymbol_settles : ∃ fuel settled passes, oneSymbol.assignOffsets fuel = some settled ∧
    settled.fTrieOffset = oneSymbol.offsetsAfter (passes + 1) ∧
      ∀ node ∈ oneSymbol.orderedNodes, oneSymbol.offsetsAfter (passes + 1) node = oneSymbol.offsetsAfter passes node :=
  (oneSymbol.assignOffsets_settles oneSymbol_short).1

end ObjcDyld.Tries
