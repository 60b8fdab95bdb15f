import ObjcDyld.PropertyAttributes.Strings

/-!
# The block of a property attribute list

The decoder fills one block whose size it has estimated from the commas.  The
estimate holds everything that is written exactly when the counts of the input
say so, since the strings lose their commas and the quotes around names.
-/

namespace ObjcDyld.PropertyAttributes

/-! ## The pieces of a string -/

/-- The non-empty pieces between the commas. -/
def pieces (attrs : List Char) : List (List Char) := (attrs.splitOn ',').filter (· ≠ [])

/-- The calls that the iteration makes, piece by piece. -/
def iteratePieces {σ : Type} (fn : σ → List Char → List Char → Bool × σ) :
    List (List Char) → ℕ → σ → ℕ × σ
  | [], attrcount, context => (attrcount, context)
  | piece :: rest, attrcount, context =>
      let (continues, context) := fn context (splitAttribute piece).1 (splitAttribute piece).2
      if continues then iteratePieces fn rest ((attrcount + 1) % 2 ^ 32) context
      else ((attrcount + 1) % 2 ^ 32, context)

theorem takeWhile_comma_free (attrs : List Char) : ',' ∉ attrs.takeWhile (· ≠ ',') := by
  intro member
  have := List.mem_takeWhile_imp member
  simp at this

theorem pieces_eq (attrs : List Char) :
    pieces attrs =
      [attrs.takeWhile (· ≠ ',')].filter (· ≠ []) ++
        pieces (attrs.dropWhile (· ≠ ',')).tail := by
  have split := List.takeWhile_append_dropWhile (p := (· ≠ ',')) (l := attrs)
  have free := takeWhile_comma_free attrs
  cases rest : attrs.dropWhile (· ≠ ',') with
  | nil =>
      have whole : attrs.takeWhile (· ≠ ',') = attrs := by
        rw [rest, List.append_nil] at split
        exact split
      rw [whole] at free ⊢
      simp [pieces, List.splitOn_eq_singleton free]
  | cons c rest' =>
      have comma : c = ',' := by
        have := List.head?_dropWhile_not (p := (· ≠ ',')) attrs
        rw [rest] at this
        simpa using this
      rw [rest, comma] at split
      conv_lhs => rw [← split]
      rw [pieces, List.splitOn_append_cons_self_of_not_mem free, List.tail_cons, pieces,
        ← List.filter_append]
      rfl

theorem pieces_nil : pieces [] = [] := rfl

theorem iteratePropertyAttributes_eq {σ : Type} (fn : σ → List Char → List Char → Bool × σ)
    (attrs : List Char) (attrcount : ℕ) (context : σ) :
    iteratePropertyAttributes fn attrs attrcount context =
      iteratePieces fn (pieces attrs) attrcount context := by
  induction attrs, attrcount, context using iteratePropertyAttributes.induct fn with
  | case1 attrcount context => rw [iteratePropertyAttributes, dif_pos rfl, pieces_nil, iteratePieces]
  | case2 attrs attrcount context more piece rest empty ih =>
      have none_here : [attrs.takeWhile (· ≠ ',')].filter (· ≠ []) = [] := by
        rw [show attrs.takeWhile (· ≠ ',') = [] from empty]
        rfl
      rw [iteratePropertyAttributes, dif_neg more, pieces_eq attrs, none_here, List.nil_append]
      exact (if_pos empty).trans ih
  | case3 attrs attrcount context more piece rest filled name value split after count called ih =>
      have here : [attrs.takeWhile (· ≠ ',')].filter (· ≠ []) = [attrs.takeWhile (· ≠ ',')] := by
        rw [List.filter_cons, if_pos (decide_eq_true filled)]
        rfl
      have parts : splitAttribute (attrs.takeWhile (· ≠ ',')) = (name, value) := split
      rw [iteratePropertyAttributes, dif_neg more, pieces_eq attrs, here, List.singleton_append,
        iteratePieces]
      simp only [parts, called, if_true]
      exact (if_neg filled).trans ih
  | case4 attrs attrcount context more piece filled name value split continues after called stops =>
      have here : [attrs.takeWhile (· ≠ ',')].filter (· ≠ []) = [attrs.takeWhile (· ≠ ',')] := by
        rw [List.filter_cons, if_pos (decide_eq_true filled)]
        rfl
      have parts : splitAttribute (attrs.takeWhile (· ≠ ',')) = (name, value) := split
      rw [iteratePropertyAttributes, dif_neg more, pieces_eq attrs, here, List.singleton_append,
        iteratePieces]
      simp only [parts, called, stops]
      exact if_neg filled

/-! ## Counting characters -/

/-- The quotes of a piece that belong to neither the name nor the value. -/
def droppedQuotes : List Char → ℕ
  | [] => 0
  | c :: start =>
      if c ≠ '"' then 0
      else
        let name := start.takeWhile fun c => c ≠ '"' && c ≠ ','
        if (start.drop name.length).head? = some '"' then 2 else 1

theorem length_splitAttribute (piece : List Char) :
    (splitAttribute piece).1.length + (splitAttribute piece).2.length + droppedQuotes piece =
      piece.length := by
  cases piece with
  | nil => rfl
  | cons c start =>
      rw [splitAttribute, droppedQuotes]
      split
      next => simp only [List.length_cons, List.length_nil]; omega
      next =>
        have bound := (List.takeWhile_prefix (l := start) fun c => c ≠ '"' && c ≠ ',').length_le
        simp only
        generalize start.takeWhile (fun c => c ≠ '"' && c ≠ ',') = name at bound ⊢
        split
        next quoted =>
          have more : start.drop name.length ≠ [] := by
            intro empty
            rw [empty] at quoted
            cases quoted
          have positive := List.length_pos_iff.mpr more
          rw [List.length_drop] at positive
          simp only [List.length_tail, List.length_drop, List.length_cons]
          omega
        next =>
          simp only [List.length_drop, List.length_cons]
          omega

theorem sum_splitOn (attrs : List Char) :
    ((attrs.splitOn ',').map List.length).sum + attrs.count ',' = attrs.length := by
  induction attrs with
  | nil => rfl
  | cons c attrs ih =>
      rw [List.splitOn_cons_eq_if_modifyHead, List.count_cons, List.length_cons]
      cases comma : c == ',' with
      | true =>
          simp only [if_true, List.map_cons, List.length_nil, List.sum_cons]
          omega
      | false =>
          obtain ⟨first, rest, split⟩ := List.exists_cons_of_ne_nil (List.splitOn_ne_nil ',' attrs)
          rw [split] at ih ⊢
          simp only [Bool.false_eq_true, if_false, List.modifyHead_cons, List.map_cons,
            List.length_cons, List.sum_cons] at ih ⊢
          omega

theorem sum_filter_ne_nil (lists : List (List Char)) :
    ((lists.filter (· ≠ [])).map List.length).sum = (lists.map List.length).sum := by
  induction lists with
  | nil => rfl
  | cons first rest ih =>
      cases first with
      | nil => simpa using ih
      | cons c first => simpa using ih

theorem sum_pieces (attrs : List Char) :
    ((pieces attrs).map List.length).sum + attrs.count ',' = attrs.length := by
  rw [pieces, sum_filter_ne_nil, sum_splitOn]

theorem attributeBound_eq (attrs : List Char) :
    attributeBound attrs = (attrs.count ',' + 1) % 2 ^ 32 := by
  have general (count : ℕ) : attrs.foldl
      (fun attrcount c => if c = ',' then (attrcount + 1) % 2 ^ 32 else attrcount)
      (count % 2 ^ 32) = (attrs.count ',' + count) % 2 ^ 32 := by
    induction attrs generalizing count with
    | nil => rw [List.foldl_nil, List.count_nil, Nat.zero_add]
    | cons c attrs ih =>
        rw [List.foldl_cons, List.count_cons]
        split
        next comma =>
          rw [show (count % 2 ^ 32 + 1) % 2 ^ 32 = (count + 1) % 2 ^ 32 by omega, ih]
          simp only [comma, beq_self_eq_true, if_true]
          congr 1
          omega
        next other =>
          rw [ih]
          simp [other]
  exact general 1

/-! ## What is written -/

/-- The two strings of an attribute, each with its terminator. -/
def stringsOf (attr : List Char × List Char) : List Char :=
  attr.1 ++ '\x00' :: (attr.2 ++ ['\x00'])

/-- Where the strings of the attributes start when the first one starts at the offset. -/
def offsetsFrom : ℕ → List (List Char × List Char) → List (ℕ × ℕ)
  | _, [] => []
  | offset, attr :: rest =>
      (offset, offset + attr.1.length + 1) ::
        offsetsFrom (offset + (stringsOf attr).length) rest

theorem length_offsetsFrom (offset : ℕ) (attributes : List (List Char × List Char)) :
    (offsetsFrom offset attributes).length = attributes.length := by
  induction attributes generalizing offset with
  | nil => rfl
  | cons attr rest ih => rw [offsetsFrom, List.length_cons, List.length_cons, ih]

theorem iteratePieces_copy (list : List (List Char)) {attrcount : ℕ} (block : AttributeBlock)
    (reduced : attrcount < 2 ^ 32) :
    iteratePieces copyOneAttribute list attrcount block =
      ((attrcount + list.length) % 2 ^ 32,
        { block with
          array := block.array ++ offsetsFrom block.chars.length (list.map splitAttribute)
          chars := block.chars ++ (list.map splitAttribute).flatMap stringsOf }) := by
  induction list generalizing attrcount block with
  | nil =>
      rw [iteratePieces, List.length_nil, Nat.add_zero, Nat.mod_eq_of_lt reduced]
      simp [offsetsFrom]
  | cons piece rest ih =>
      rw [iteratePieces]
      simp only [copyOneAttribute, if_true]
      rw [ih _ (Nat.mod_lt _ (by decide))]
      refine Prod.ext ?_ ?_
      · simp only [List.length_cons]
        omega
      · simp [offsetsFrom, stringsOf]

theorem copyPropertyAttributeList_eq (attrs : List Char) :
    copyPropertyAttributeList attrs =
      ((pieces attrs).length % 2 ^ 32,
        { newBlock attrs with
          array := offsetsFrom 0 ((pieces attrs).map splitAttribute)
          chars := ((pieces attrs).map splitAttribute).flatMap stringsOf }) := by
  rw [copyPropertyAttributeList, iteratePropertyAttributes_eq,
    iteratePieces_copy _ _ (by decide), Nat.zero_add]
  rfl

theorem length_strings (list : List (List Char)) :
    ((list.map splitAttribute).flatMap stringsOf).length + (list.map droppedQuotes).sum =
      (list.map List.length).sum + 2 * list.length := by
  induction list with
  | nil => rfl
  | cons piece rest ih =>
      have split := length_splitAttribute piece
      simp only [List.map_cons, List.flatMap_cons, List.length_append, List.sum_cons,
        List.length_cons, stringsOf, List.length_nil] at ih ⊢
      omega

/-! ## When it fits -/

/--
The counts of a string whose attributes fit in the block: the terminators of the non-empty pieces
have room in what commas and quotes leave and what the estimate adds, and so has the array.
-/
structure FitsBlock (attrs : List Char) : Prop where
  strings : 2 * (pieces attrs).length ≤
    attrs.count ',' + ((pieces attrs).map droppedQuotes).sum + attributeBound attrs * 2 % 2 ^ 32
  array : (pieces attrs).length * sizeofAttribute ≤
    attributeBound attrs * sizeofAttribute + sizeofAttribute + attrs.length +
      attributeBound attrs * 2 % 2 ^ 32

theorem inside_iff (attrs : List Char) :
    (copyPropertyAttributeList attrs).2.Inside ↔ FitsBlock attrs := by
  have written := length_strings (pieces attrs)
  have total := sum_pieces attrs
  have count := length_offsetsFrom 0 ((pieces attrs).map splitAttribute)
  rw [List.length_map] at count
  rw [copyPropertyAttributeList_eq]
  unfold AttributeBlock.Inside
  simp only [newBlock, count]
  constructor
  · rintro ⟨array, strings⟩
    refine ⟨?_, array⟩
    simp only [sizeofAttribute] at strings
    omega
  · rintro ⟨strings, array⟩
    refine ⟨array, ?_⟩
    simp only [sizeofAttribute]
    omega

theorem length_splitOn (attrs : List Char) :
    (attrs.splitOn ',').length = attrs.count ',' + 1 := by
  induction attrs with
  | nil => rfl
  | cons c attrs ih =>
      rw [List.splitOn_cons_eq_if_modifyHead, List.count_cons]
      cases c == ',' with
      | true => simp only [if_true, List.length_cons, ih]
      | false => simp only [Bool.false_eq_true, if_false, List.length_modifyHead, ih, Nat.add_zero]

theorem fitsBlock_of_commas {attrs : List Char} (few : attrs.count ',' + 1 < 2 ^ 31) :
    FitsBlock attrs := by
  have bound : (pieces attrs).length ≤ attrs.count ',' + 1 := by
    rw [← length_splitOn]
    exact List.length_filter_le _ _
  have exact_bound : attributeBound attrs = attrs.count ',' + 1 := by
    rw [attributeBound_eq, Nat.mod_eq_of_lt (by omega)]
  refine ⟨?_, ?_⟩
  · rw [exact_bound]
    omega
  · simp only [exact_bound, sizeofAttribute]
    omega

end ObjcDyld.PropertyAttributes
