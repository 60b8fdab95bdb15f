import ObjcDyld.PropertyAttributes.Blocks

/-!
# The round trip of property attributes

Decoding what was encoded gives back the attributes that have a value.
-/

namespace ObjcDyld.PropertyAttributes

/-! ## Encoded attributes -/

/-- The attributes that have a value, which are the ones that are encoded. -/
def valued (attrs : List Attribute) : List (List Char × List Char) :=
  attrs.filterMap fun attr => attr.value.map fun value => (attr.name, value)

/-- An attribute without the comma behind it. -/
def spell (attr : List Char × List Char) : List Char :=
  if 1 < attr.1.length then '"' :: (attr.1 ++ '"' :: attr.2) else attr.1 ++ attr.2

theorem formatAttribute_eq (attr : List Char × List Char) :
    formatAttribute attr.1 attr.2 = spell attr ++ [','] := by
  unfold formatAttribute spell
  split <;> simp

theorem foldlM_writeAttribute {attrs : List Attribute} {s written : List Char} :
    attrs.foldlM writeAttribute s = some written ↔
      (∀ attr ∈ valued attrs, (formatAttribute attr.1 attr.2).length ≤ intMax) ∧
        written = s ++ (valued attrs).flatMap fun attr => formatAttribute attr.1 attr.2 := by
  induction attrs generalizing s with
  | nil => simp [valued, eq_comm]
  | cons attr attrs ih =>
      rw [List.foldlM_cons, writeAttribute]
      cases value : attr.value with
      | none =>
          have skipped : valued (attr :: attrs) = valued attrs := by simp [valued, value]
          rw [skipped]
          exact ih
      | some value' =>
          have kept : valued (attr :: attrs) = (attr.name, value') :: valued attrs := by
            simp [valued, value]
          rw [kept]
          simp only [sprintf, Option.bind_eq_bind, List.mem_cons, forall_eq_or_imp,
            List.flatMap_cons]
          split
          next fits =>
            rw [Option.bind_some, ih]
            simp [fits]
          next long => simp [long]

theorem dropLast_flatMap {list : List (List Char × List Char)} (more : list ≠ []) :
    (list.flatMap fun attr => formatAttribute attr.1 attr.2).dropLast =
      [','].intercalate (list.map spell) := by
  induction list with
  | nil => exact absurd rfl more
  | cons attr rest ih =>
      rw [List.flatMap_cons, formatAttribute_eq, List.map_cons]
      cases rest with
      | nil => simp
      | cons next rest =>
          have later := ih (List.cons_ne_nil _ _)
          have some_left : ((next :: rest).flatMap fun attr => formatAttribute attr.1 attr.2) ≠ [] := by
            simp [formatAttribute_eq]
          rw [List.dropLast_append_of_ne_nil some_left, later, List.map_cons,
            List.intercalate_cons_cons]

theorem copyPropertyAttributeString_eq_some_iff {attrs : List Attribute} {string : List Char} :
    copyPropertyAttributeString attrs = some string ↔
      (attrs = [] ∨ valued attrs ≠ []) ∧
        (∀ attr ∈ valued attrs, (formatAttribute attr.1 attr.2).length ≤ intMax) ∧
          string = [','].intercalate ((valued attrs).map spell) := by
  unfold copyPropertyAttributeString
  split
  next empty => simp [empty, valued, eq_comm]
  next some_attrs =>
    have nothing : ((valued attrs).flatMap fun attr => formatAttribute attr.1 attr.2) = [] ↔
        valued attrs = [] := by
      cases valued attrs with
      | nil => simp
      | cons attr rest => simp [formatAttribute_eq]
    constructor
    · intro encoded
      obtain ⟨s, written, last⟩ := Option.bind_eq_some_iff.mp encoded
      obtain ⟨fits, rfl⟩ := foldlM_writeAttribute.mp written
      rw [List.nil_append] at last
      split at last
      next => exact absurd last.symm (Option.some_ne_none _)
      next more =>
        rw [nothing] at more
        refine ⟨.inr more, fits, ?_⟩
        rw [← dropLast_flatMap more]
        exact (Option.some.inj last).symm
    · rintro ⟨more, fits, rfl⟩
      obtain empty | more := more
      · exact absurd empty some_attrs
      · rw [foldlM_writeAttribute.mpr ⟨fits, rfl⟩]
        simp only [List.nil_append, Option.bind_eq_bind, Option.bind_some]
        rw [if_neg (nothing.not.mpr more), dropLast_flatMap more]

/-! ## Decoding them -/

/-- What the debug build asserts of an attribute: its strings are C strings without separators. -/
structure Encodable (attr : Attribute) : Prop where
  named : attr.name ≠ []
  name_comma : ',' ∉ attr.name
  name_quote : '"' ∉ attr.name
  name_nul : '\x00' ∉ attr.name
  value_comma : ∀ value ∈ attr.value, ',' ∉ value
  value_nul : ∀ value ∈ attr.value, '\x00' ∉ value

/-- The same for a name with its value. -/
structure EncodablePair (attr : List Char × List Char) : Prop where
  named : attr.1 ≠ []
  name_comma : ',' ∉ attr.1
  name_quote : '"' ∉ attr.1
  name_nul : '\x00' ∉ attr.1
  value_comma : ',' ∉ attr.2
  value_nul : '\x00' ∉ attr.2

theorem encodable_valued {attrs : List Attribute} (encodable : ∀ attr ∈ attrs, Encodable attr) :
    ∀ attr ∈ valued attrs, EncodablePair attr := by
  intro pair member
  obtain ⟨attr, isAttr, same⟩ := List.mem_filterMap.mp member
  obtain ⟨value, isValue, rfl⟩ := Option.map_eq_some_iff.mp same
  have held := encodable attr isAttr
  exact ⟨held.named, held.name_comma, held.name_quote, held.name_nul, held.value_comma value isValue,
    held.value_nul value isValue⟩

namespace EncodablePair

variable {attr : List Char × List Char}

theorem spell_comma (encodable : EncodablePair attr) : ',' ∉ spell attr := by
  unfold spell
  split <;> simp [encodable.name_comma, encodable.value_comma]

theorem spell_ne_nil (encodable : EncodablePair attr) : spell attr ≠ [] := by
  unfold spell
  split <;> simp [encodable.named]

theorem splitAttribute_spell (encodable : EncodablePair attr) :
    splitAttribute (spell attr) = attr := by
  obtain ⟨name, value⟩ := attr
  have named : name ≠ [] := encodable.named
  have quote : '"' ∉ name := encodable.name_quote
  have comma : ',' ∉ name := encodable.name_comma
  unfold spell
  split
  next long =>
    have inner : ∀ c ∈ name, (c ≠ '"' && c ≠ ',') = true := by
      intro c member
      have first : c ≠ '"' := fun same => quote (same ▸ member)
      have second : c ≠ ',' := fun same => comma (same ▸ member)
      simp [first, second]
    have taken : (name ++ '"' :: value).takeWhile (fun c => c ≠ '"' && c ≠ ',') = name := by
      rw [List.takeWhile_append_of_pos inner, List.takeWhile_cons]
      simp
    rw [splitAttribute, if_neg (not_not_intro rfl)]
    simp only [taken, List.drop_left, List.head?_cons, if_true, List.tail_cons]
  next short =>
    obtain ⟨c, rest, rfl⟩ := List.exists_cons_of_ne_nil named
    have single : rest = [] := by
      simp only [List.length_cons] at short
      exact List.eq_nil_of_length_eq_zero (by omega)
    subst single
    have other : c ≠ '"' := fun same => quote (same ▸ List.mem_cons_self)
    simp [splitAttribute, other]

theorem droppedQuotes_spell (encodable : EncodablePair attr) :
    droppedQuotes (spell attr) = if 1 < attr.1.length then 2 else 0 := by
  have whole := length_splitAttribute (spell attr)
  rw [encodable.splitAttribute_spell] at whole
  unfold spell at whole ⊢
  split
  next long =>
    rw [if_pos long] at whole
    simp only [List.length_cons, List.length_append] at whole
    omega
  next short =>
    rw [if_neg short] at whole
    simp only [List.length_append] at whole
    omega

end EncodablePair

section Encoded

variable {list : List (List Char × List Char)}

theorem splitOn_spelled (encodable : ∀ attr ∈ list, EncodablePair attr) (more : list ≠ []) :
    ([','].intercalate (list.map spell)).splitOn ',' = list.map spell := by
  refine List.splitOn_intercalate ',' (fun piece member => ?_) (by simpa using more)
  obtain ⟨attr, isAttr, rfl⟩ := List.mem_map.mp member
  exact (encodable attr isAttr).spell_comma

theorem pieces_spelled (encodable : ∀ attr ∈ list, EncodablePair attr) :
    pieces ([','].intercalate (list.map spell)) = list.map spell := by
  cases list with
  | nil => rfl
  | cons attr rest =>
      rw [pieces, splitOn_spelled encodable (List.cons_ne_nil _ _), List.filter_eq_self]
      intro piece member
      obtain ⟨attr, isAttr, rfl⟩ := List.mem_map.mp member
      exact decide_eq_true (encodable attr isAttr).spell_ne_nil

theorem map_splitAttribute_spelled (encodable : ∀ attr ∈ list, EncodablePair attr) :
    (list.map spell).map splitAttribute = list := by
  rw [List.map_map]
  exact (List.map_congr_left fun attr member =>
    (encodable attr member).splitAttribute_spell).trans (List.map_id list)

end Encoded

/-! ## Reading the block -/

theorem stringAt_eq {block : AttributeBlock} {front text : List Char} (back : List Char)
    (chars : block.chars = front ++ (text ++ '\x00' :: back)) (unterminated : '\x00' ∉ text) :
    block.stringAt front.length = text := by
  have inner : ∀ c ∈ text, decide (c ≠ '\x00') = true := by
    intro c member
    exact decide_eq_true fun same => unterminated (same ▸ member)
  rw [AttributeBlock.stringAt, chars, List.drop_left, List.takeWhile_append_of_pos inner,
    List.takeWhile_cons]
  simp

theorem map_stringAt {block : AttributeBlock} {list : List (List Char × List Char)}
    {front : List Char} (encodable : ∀ attr ∈ list, EncodablePair attr)
    (chars : block.chars = front ++ list.flatMap stringsOf) :
    (offsetsFrom front.length list).map
      (fun (name, value) => (block.stringAt name, block.stringAt value)) = list := by
  induction list generalizing front with
  | nil => rfl
  | cons attr rest ih =>
      obtain ⟨name, value⟩ := attr
      have held := encodable (name, value) List.mem_cons_self
      have nameRead : block.stringAt front.length = name := by
        refine stringAt_eq (value ++ '\x00' :: rest.flatMap stringsOf) ?_ held.name_nul
        rw [chars, List.flatMap_cons, stringsOf]
        simp
      have valueRead : block.stringAt (front.length + name.length + 1) = value := by
        have place : front.length + name.length + 1 = (front ++ (name ++ ['\x00'])).length := by
          simp only [List.length_append, List.length_singleton]
          omega
        rw [place]
        refine stringAt_eq (rest.flatMap stringsOf) ?_ held.value_nul
        rw [chars, List.flatMap_cons, stringsOf]
        simp
      have later := @ih (front ++ stringsOf (name, value))
        (fun attr member => encodable attr (List.mem_cons_of_mem _ member))
        (by rw [chars, List.flatMap_cons, List.append_assoc])
      rw [List.length_append] at later
      rw [offsetsFrom, List.map_cons, later]
      simp only [nameRead, valueRead]

theorem iteratePieces_find (query : List Char) (list : List (List Char)) (attrcount : ℕ) :
    (iteratePieces (findOneAttribute query) list attrcount none).2 =
      ((list.map splitAttribute).find? fun attr => query = attr.1).map Prod.snd := by
  induction list generalizing attrcount with
  | nil => rfl
  | cons piece rest ih =>
      rw [iteratePieces, List.map_cons, List.find?_cons]
      by_cases found : query = (splitAttribute piece).1
      · simp [findOneAttribute, found]
      · simp only [findOneAttribute, if_neg found, if_true, ih, decide_eq_false found]

/-! ## The round trip -/

structure Decodes (attrs : List Attribute) (string : List Char) : Prop where
  attributes : (copyPropertyAttributeList string).2.attributes = some (valued attrs)
  count : (copyPropertyAttributeList string).1 = (valued attrs).length
  empty : valued attrs = [] → string = []
  value : ∀ name, copyPropertyAttributeValue string name =
    ((valued attrs).find? fun attr => name = attr.1).map Prod.snd

/-- The attributes are encoded as a string that is decoded to those with a value. -/
def RoundTrips (attrs : List Attribute) : Prop :=
  ∃ string, copyPropertyAttributeString attrs = some string ∧ Decodes attrs string

/--
Something is written unless there is nothing to write, each `sprintf` stays below `INT_MAX`, and
there are few attributes with a value, or many with long names.
-/
structure Writable (attrs : List Attribute) : Prop where
  written : attrs = [] ∨ ∃ attr ∈ attrs, attr.value ≠ none
  formatted : ∀ attr ∈ valued attrs, (formatAttribute attr.1 attr.2).length ≤ intMax
  terminated : valued attrs = [] ∨ (valued attrs).length + 1 ≤
    2 * (valued attrs).countP (fun attr => 1 < attr.1.length) + (valued attrs).length * 2 % 2 ^ 32

theorem valued_ne_nil_iff (attrs : List Attribute) :
    valued attrs ≠ [] ↔ ∃ attr ∈ attrs, attr.value ≠ none := by
  rw [valued, ne_eq, List.filterMap_eq_nil_iff]
  simp

section Encoded

variable {list : List (List Char × List Char)}

theorem sum_droppedQuotes (encodable : ∀ attr ∈ list, EncodablePair attr) :
    ((list.map spell).map droppedQuotes).sum =
      2 * list.countP fun attr => 1 < attr.1.length := by
  induction list with
  | nil => rfl
  | cons attr rest ih =>
      have later := ih fun attr member => encodable attr (List.mem_cons_of_mem _ member)
      have here := (encodable attr List.mem_cons_self).droppedQuotes_spell
      simp only [List.map_cons, List.sum_cons, later, here, List.countP_cons, decide_eq_true_eq]
      split <;> omega

theorem fitsBlock_spelled (encodable : ∀ attr ∈ list, EncodablePair attr)
    (few : list.length < 2 ^ 32) :
    FitsBlock ([','].intercalate (list.map spell)) ↔
      list = [] ∨ list.length + 1 ≤
        2 * list.countP (fun attr => 1 < attr.1.length) + list.length * 2 % 2 ^ 32 := by
  cases list with
  | nil => exact iff_of_true (fitsBlock_of_commas (by decide)) (.inl rfl)
  | cons attr rest =>
      have commas := length_splitOn ([','].intercalate ((attr :: rest).map spell))
      rw [splitOn_spelled encodable (List.cons_ne_nil _ _), List.length_map] at commas
      have bound : attributeBound ([','].intercalate ((attr :: rest).map spell)) =
          (attr :: rest).length := by
        rw [attributeBound_eq, ← commas, Nat.mod_eq_of_lt few]
      have dropped := sum_droppedQuotes encodable
      have count := pieces_spelled encodable
      constructor
      · rintro ⟨strings, -⟩
        rw [bound, count, dropped, List.length_map] at strings
        exact .inr (by omega)
      · rintro (empty | terminated)
        · exact absurd empty (List.cons_ne_nil _ _)
        · refine ⟨?_, ?_⟩
          · rw [bound, count, dropped, List.length_map]
            omega
          · rw [bound, count, List.length_map]
            omega

end Encoded

theorem decodes_iff {attrs : List Attribute} (encodable : ∀ attr ∈ attrs, Encodable attr)
    (few : attrs.length < 2 ^ 32) :
    Decodes attrs ([','].intercalate ((valued attrs).map spell)) ↔
      FitsBlock ([','].intercalate ((valued attrs).map spell)) := by
  have pairs := encodable_valued encodable
  have fewer : (valued attrs).length < 2 ^ 32 := (List.length_filterMap_le _ _).trans_lt few
  have pieces_eq := pieces_spelled pairs
  have split := map_splitAttribute_spelled pairs
  have block := copyPropertyAttributeList_eq ([','].intercalate ((valued attrs).map spell))
  rw [pieces_eq, split, List.length_map, Nat.mod_eq_of_lt fewer] at block
  constructor
  · intro decodes
    rw [← inside_iff]
    have read := decodes.attributes
    unfold AttributeBlock.attributes at read
    split at read
    next inside => exact inside.1
    next => exact absurd read.symm (Option.some_ne_none _)
  · intro fits
    have inside := (inside_iff _).mpr fits
    refine ⟨?_, by rw [block], fun nothing => by rw [nothing]; rfl, fun name => ?_⟩
    · have room : (copyPropertyAttributeList
          ([','].intercalate ((valued attrs).map spell))).2.array.length * sizeofAttribute ≤
            (copyPropertyAttributeList
              ([','].intercalate ((valued attrs).map spell))).2.strings := by
        have commas := length_splitOn ([','].intercalate ((valued attrs).map spell))
        rw [block]
        simp only [length_offsetsFrom, newBlock, attributeBound_eq]
        cases list : valued attrs with
        | nil => exact Nat.zero_le _
        | cons attr rest =>
            rw [list] at fewer pairs commas
            rw [splitOn_spelled pairs (List.cons_ne_nil _ _), List.length_map] at commas
            rw [← commas, Nat.mod_eq_of_lt fewer]
            exact Nat.mul_le_mul_right _ (Nat.le_succ _)
      rw [AttributeBlock.attributes, if_pos ⟨inside, room⟩, block]
      exact congrArg some (@map_stringAt _ _ [] pairs rfl)
    · rw [copyPropertyAttributeValue, iteratePropertyAttributes_eq, pieces_eq, iteratePieces_find,
        split]

/--
Attributes whose strings have no separators round trip exactly when they are writable, and a string
is decoded inside the block that was allocated for it exactly when its counts fit; the decoding
itself always ends.
-/
theorem roundTrips_iff (string : List Char) :
    (∀ attrs : List Attribute, (∀ attr ∈ attrs, Encodable attr) → attrs.length < 2 ^ 32 →
      (RoundTrips attrs ↔ Writable attrs)) ∧
    ((copyPropertyAttributeList string).2.Inside ↔ FitsBlock string) := by
  refine ⟨fun attrs encodable few => ?_, inside_iff string⟩
  have pairs := encodable_valued encodable
  have fewer : (valued attrs).length < 2 ^ 32 := (List.length_filterMap_le _ _).trans_lt few
  constructor
  · rintro ⟨string, encoded, decodes⟩
    obtain ⟨written, formatted, rfl⟩ := copyPropertyAttributeString_eq_some_iff.mp encoded
    have fits := (decodes_iff encodable few).mp decodes
    refine ⟨?_, formatted, (fitsBlock_spelled pairs fewer).mp fits⟩
    rw [← valued_ne_nil_iff]
    exact written
  · intro writable
    have fits := (fitsBlock_spelled pairs fewer).mpr writable.terminated
    refine ⟨_, copyPropertyAttributeString_eq_some_iff.mpr ⟨?_, writable.formatted, rfl⟩,
      (decodes_iff encodable few).mpr fits⟩
    rw [valued_ne_nil_iff]
    exact writable.written

theorem Writable.of_few {attrs : List Attribute}
    (written : attrs = [] ∨ ∃ attr ∈ attrs, attr.value ≠ none)
    (formatted : ∀ attr ∈ valued attrs, (formatAttribute attr.1 attr.2).length ≤ intMax)
    (few : attrs.length < 2 ^ 31) : Writable attrs := by
  have fewer : (valued attrs).length < 2 ^ 31 := (List.length_filterMap_le _ _).trans_lt few
  refine ⟨written, formatted, ?_⟩
  cases list : valued attrs with
  | nil => exact .inl rfl
  | cons attr rest =>
      rw [list] at fewer
      simp only [List.length_cons] at fewer ⊢
      exact .inr (by omega)

/-- `T@"NSString",C,"gp""x"`, with an attribute without a value in between. -/
def copiedProperty : List Attribute :=
  [⟨"T".toList, some "@\"NSString\"".toList⟩, ⟨"N".toList, none⟩, ⟨"C".toList, some []⟩,
    ⟨"gp".toList, some "\"x\"".toList⟩]

theorem roundTrips_iff_copied : RoundTrips copiedProperty := by
  have encodable : ∀ attr ∈ copiedProperty, Encodable attr := by
    intro attr member
    simp only [copiedProperty, List.mem_cons, List.not_mem_nil, or_false] at member
    obtain rfl | rfl | rfl | rfl := member <;>
      exact ⟨by decide, by decide, by decide, by decide, by decide, by decide⟩
  refine ((roundTrips_iff []).1 copiedProperty encodable (by decide)).mpr ?_
  exact .of_few (.inr ⟨_, List.mem_cons_self, by decide⟩) (by decide +kernel) (by decide)

/-- An attribute without a value leaves the returned string uninitialised. -/
theorem not_roundTrips_null : ¬RoundTrips [⟨"N".toList, none⟩] := by
  rintro ⟨string, encoded, -⟩
  exact absurd encoded.symm (Option.some_ne_none string)

end ObjcDyld.PropertyAttributes
