import ObjcDyld.TypeEncodings.Grammar

/-!
# Parsing what was encoded

The scanners recover the parts of a spelled method encoding.
-/

namespace ObjcDyld.TypeEncodings

/-- The string does not go on with a character of this kind. -/
def Stops (kind : Char → Bool) (rest : List Char) : Prop := ∀ c ∈ rest.head?, kind c = false

theorem Stops.nil (kind : Char → Bool) : Stops kind [] := fun c member => by cases member

theorem Stops.mono {kind narrower : Char → Bool} {rest : List Char} (stops : Stops kind rest)
    (narrow : ∀ c, narrower c = true → kind c = true) : Stops narrower rest := by
  intro c member
  have wide := stops c member
  cases test : narrower c with
  | false => rfl
  | true => rw [narrow c test] at wide; exact wide

theorem Stops.head_ne {kind : Char → Bool} {rest : List Char} (stops : Stops kind rest) {c : Char}
    (isKind : kind c = true) : rest.head? ≠ some c := by
  intro head
  have := stops c head
  rw [isKind] at this
  exact Bool.false_ne_true this.symm

/-! ## Digits -/

theorem digits_isDigit (n : ℕ) : ∀ c ∈ Nat.toDigits 10 n, c.isDigit = true :=
  fun _ member => Nat.isDigit_of_mem_toDigits (by decide) (by decide) member

theorem dropWhile_stops {kind : Char → Bool} {rest : List Char} (stops : Stops kind rest) :
    rest.dropWhile kind = rest := by
  cases rest with
  | nil => rfl
  | cons c rest => rw [List.dropWhile_cons, stops c rfl, if_neg Bool.false_ne_true]

theorem takeWhile_stops {kind : Char → Bool} {rest : List Char} (stops : Stops kind rest) :
    rest.takeWhile kind = [] := by
  cases rest with
  | nil => rfl
  | cons c rest => rw [List.takeWhile_cons, stops c rfl, if_neg Bool.false_ne_true]

theorem skipDigits_toDigits (n : ℕ) {rest : List Char} (stops : Stops Char.isDigit rest) :
    skipDigits (Nat.toDigits 10 n ++ rest) = rest := by
  rw [skipDigits, List.dropWhile_append_of_pos (digits_isDigit n), dropWhile_stops stops]

theorem takeWhile_toDigits (n : ℕ) {rest : List Char} (stops : Stops Char.isDigit rest) :
    (Nat.toDigits 10 n ++ rest).takeWhile Char.isDigit = Nat.toDigits 10 n := by
  rw [List.takeWhile_append_of_pos (digits_isDigit n), takeWhile_stops stops, List.append_nil]

theorem foldl_unsigned (digits : List Char) (start : ℕ) :
    digits.foldl (fun size c => (size * 10 + digitValue c) % 2 ^ 32) (start % 2 ^ 32) =
      Nat.ofDigitChars 10 digits start % 2 ^ 32 := by
  induction digits generalizing start with
  | nil => rfl
  | cons c digits ih =>
      have step : (start % 2 ^ 32 * 10 + digitValue c) % 2 ^ 32 =
          (10 * start + (c.toNat - '0'.toNat)) % 2 ^ 32 := by
        rw [digitValue]
        omega
      rw [List.foldl_cons, step, ih, Nat.ofDigitChars_cons]

theorem bmod_step (offset digit : ℤ) (size : ℕ) :
    (offset.bmod size * 10 + digit).bmod size = (offset * 10 + digit).bmod size := by
  rw [← Int.bmod_add_bmod, Int.bmod_mul_bmod, Int.bmod_add_bmod]

theorem foldl_int (digits : List Char) (start : ℕ) :
    digits.foldl (fun offset c => wrapInt (offset * 10 + digitValue c)) (wrapInt start) =
      wrapInt (Nat.ofDigitChars 10 digits start) := by
  induction digits generalizing start with
  | nil => rw [List.foldl_nil, Nat.ofDigitChars_nil]
  | cons c digits ih =>
      have step : wrapInt (wrapInt start * 10 + digitValue c) =
          wrapInt ((10 * start + (c.toNat - '0'.toNat) : ℕ) : ℤ) := by
        refine (bmod_step _ _ _).trans (congrArg wrapInt ?_)
        rw [digitValue]
        push_cast
        ring
      rw [List.foldl_cons, step, ih, Nat.ofDigitChars_cons]

theorem wrapInt_of_range {value : ℤ} (low : -2 ^ 31 ≤ value) (high : value < 2 ^ 31) :
    wrapInt value = value := by
  rw [wrapInt]
  exact Int.bmod_eq_of_le (by omega) (by omega)

/-! ## Nested text -/

theorem subtypeUntil_spell (text : Text) (kind : Bracket) {level : ℤ} (inside : 0 ≤ level)
    (rest : List Char) :
    subtypeUntil kind.closeChar level (text.spell ++ rest) =
      (subtypeUntil kind.closeChar level rest).map (· + text.spell.length) := by
  induction text generalizing level rest with
  | nil => simp [Text.spell]
  | char c plain next ih =>
      have other : ¬(level = 0 ∧ c = kind.closeChar) := by
        rintro ⟨-, rfl⟩
        exact absurd plain (by cases kind <;> decide)
      have still : (if c = ']' ∨ c = '}' ∨ c = ')' then level - 1
          else if c = '[' ∨ c = '{' ∨ c = '(' then level + 1 else level) = level := by
        simp only [isBracket, Bool.or_eq_false_iff, decide_eq_false_iff_not] at plain
        simp [plain]
      rw [Text.spell, List.cons_append, subtypeUntil, if_neg other]
      simp only [still]
      rw [ih inside, Option.map_map, List.length_cons]
      rfl
  | group inner body next bodyIh nextIh =>
      have opens : ¬(level = 0 ∧ inner.openChar = kind.closeChar) := by
        rintro ⟨-, same⟩
        exact absurd same (by cases inner <;> cases kind <;> decide)
      have closes : ¬(level + 1 = 0 ∧ inner.closeChar = kind.closeChar) := by
        rintro ⟨zero, -⟩
        omega
      rw [Text.spell, List.cons_append, List.append_assoc, List.cons_append, subtypeUntil,
        if_neg opens]
      have deeper : (if inner.openChar = ']' ∨ inner.openChar = '}' ∨ inner.openChar = ')'
          then level - 1
          else if inner.openChar = '[' ∨ inner.openChar = '{' ∨ inner.openChar = '('
          then level + 1 else level) = level + 1 := by
        cases inner <;> rfl
      have back : (if inner.closeChar = ']' ∨ inner.closeChar = '}' ∨ inner.closeChar = ')'
          then level + 1 - 1
          else if inner.closeChar = '[' ∨ inner.closeChar = '{' ∨ inner.closeChar = '('
          then level + 1 + 1 else level + 1) = level := by
        cases inner <;> exact Int.add_sub_cancel level 1
      simp only [deeper]
      rw [bodyIh (by omega), subtypeUntil, if_neg closes]
      simp only [back]
      rw [nextIh inside, Option.map_map, Option.map_map, Option.map_map]
      congr 1
      funext length
      simp only [Function.comp_apply, List.length_cons, List.length_append]
      omega

theorem skipSubtype_spell (text : Text) (kind : Bracket) (rest : List Char) :
    skipSubtype kind.closeChar (text.spell ++ kind.closeChar :: rest) = some rest := by
  rw [skipSubtype, subtypeUntil_spell text kind (Int.le_refl 0), subtypeUntil, if_pos ⟨rfl, rfl⟩]
  simp only [Option.map_some, Nat.zero_add, Option.some.injEq]
  rw [List.drop_length_add_append]
  rfl

/-! ## Types -/

/-- The text without its leading digits. -/
def Text.dropDigits : Text → Text
  | nil => nil
  | char c plain rest => if c.isDigit then rest.dropDigits else char c plain rest
  | group kind body rest => group kind body rest

theorem skipDigits_spell (text : Text) (kind : Bracket) (rest : List Char) :
    skipDigits (text.spell ++ kind.closeChar :: rest) =
      text.dropDigits.spell ++ kind.closeChar :: rest := by
  induction text with
  | nil =>
      refine dropWhile_stops fun c member => ?_
      obtain rfl := Option.some.inj member
      cases kind <;> decide
  | char c plain next ih =>
      rw [Text.spell, List.cons_append, skipDigits, List.dropWhile_cons, Text.dropDigits]
      split
      next => exact ih
      next => rfl
  | group inner body next =>
      refine dropWhile_stops fun c member => ?_
      obtain rfl := Option.some.inj member
      cases inner <;> decide

theorem skipFirstType_base (base : Base) {rest : List Char}
    (unmarked : base = .object → rest.head? ≠ some '?') :
    skipFirstType (base.spell ++ rest) = some rest := by
  cases base with
  | object =>
      rw [Base.spell, List.singleton_append, skipFirstType]
      simp [isQualifier, unmarked rfl]
  | block => simp [Base.spell, skipFirstType, isQualifier]
  | array count element =>
      have digits : skipDigits (Nat.toDigits 10 count ++ (element.spell ++ ']' :: rest)) =
          element.dropDigits.spell ++ ']' :: rest := by
        have spelled := skipDigits_spell element .square rest
        simp only [Bracket.closeChar] at spelled
        rw [← spelled, skipDigits, List.dropWhile_append_of_pos (digits_isDigit count)]
        rfl
      have skipped := skipSubtype_spell element.dropDigits .square rest
      simp only [Bracket.closeChar] at skipped
      simp [Base.spell, skipFirstType, isQualifier, digits, skipped]
  | struct body =>
      have skipped := skipSubtype_spell body .curly rest
      simp only [Bracket.closeChar] at skipped
      simp [Base.spell, skipFirstType, isQualifier, skipped]
  | union body =>
      have skipped := skipSubtype_spell body .round rest
      simp only [Bracket.closeChar] at skipped
      simp [Base.spell, skipFirstType, isQualifier, skipped]
  | basic c plain =>
      simp only [isSpecial, Bool.or_eq_false_iff, decide_eq_false_iff_not] at plain
      simp [Base.spell, skipFirstType, plain]

theorem Qualifier.isQualifier (qualifier : Qualifier) : isQualifier qualifier.char = true := by
  cases qualifier <;> rfl

theorem skipFirstType_spell (type : EncodedType) {rest : List Char}
    (unmarked : type.endsInObject = true → rest.head? ≠ some '?') :
    skipFirstType (type.spell ++ rest) = some rest := by
  obtain ⟨qualifiers, base⟩ := type
  rw [EncodedType.spell, List.append_assoc]
  induction qualifiers with
  | nil =>
      refine skipFirstType_base base fun isObject => unmarked ?_
      rw [EncodedType.endsInObject, isObject]
  | cons qualifier qualifiers ih =>
      rw [List.map_cons, List.cons_append, skipFirstType, if_pos qualifier.isQualifier]
      exact ih unmarked

theorem copyFirstType_spell (type : EncodedType) {rest : List Char}
    (unmarked : type.endsInObject = true → rest.head? ≠ some '?') :
    copyFirstType (type.spell ++ rest) = some type.spell := by
  rw [copyFirstType, skipFirstType_spell type unmarked]
  simp

theorem EncodedType.spell_ne_nil (type : EncodedType) (rest : List Char) :
    type.spell ++ rest ≠ [] := by
  have base : type.base.spell ≠ [] := by
    cases type.base <;> exact List.cons_ne_nil _ _
  intro empty
  obtain ⟨spelled, -⟩ := List.append_eq_nil_iff.mp empty
  exact base (List.append_eq_nil_iff.mp spelled).2

/-! ## Offsets -/

theorem toDigits_head_ne (n : ℕ) (rest : List Char) {c : Char} (other : c.isDigit = false) :
    (Nat.toDigits 10 n ++ rest).head? ≠ some c := by
  intro head
  obtain ⟨first, digits, spelled⟩ := List.exists_cons_of_ne_nil (Nat.toDigits_ne_nil (n := n) (b := 10))
  rw [spelled, List.cons_append, List.head?_cons] at head
  obtain rfl := Option.some.inj head
  have digit := digits_isDigit n first (by rw [spelled]; exact List.mem_cons_self)
  rw [other] at digit
  exact Bool.false_ne_true digit

theorem skipHint_of_ne {typedesc : List Char} (other : typedesc.head? ≠ some '+') :
    skipHint typedesc = typedesc := if_neg other

section Place

variable {argument : Argument} {rest : List Char}

theorem Argument.absorbs_isDigit (argument : Argument) {c : Char} (digit : c.isDigit = true) :
    argument.absorbs c = true := by
  unfold Argument.absorbs
  split <;> simp [digit]

theorem stops_isDigit (stops : Stops argument.absorbs rest) : Stops Char.isDigit rest :=
  stops.mono fun _ digit => argument.absorbs_isDigit digit

theorem skipHint_spellPlace (stops : Stops argument.absorbs rest) :
    skipHint (argument.spellPlace ++ rest) = argument.spellOffset ++ rest := by
  cases hinted : argument.hint with
  | true => simp [Argument.spellPlace, hinted, skipHint]
  | false =>
      have place : argument.spellPlace = argument.spellOffset := by
        simp [Argument.spellPlace, hinted]
      rw [place]
      refine skipHint_of_ne ?_
      cases offset : argument.offset with
      | none =>
          rw [Argument.spellOffset, offset, List.nil_append]
          exact stops.head_ne (by simp [Argument.absorbs, offset, hinted])
      | some written =>
          rw [Argument.spellOffset, offset]
          obtain ⟨negative, magnitude⟩ := written
          cases negative with
          | true => simp [Offset.spell]
          | false => exact toDigits_head_ne magnitude rest (by decide)

theorem sign_spellOffset (stops : Stops argument.absorbs rest) :
    ((argument.spellOffset ++ rest).head? = some '-' ↔
        ∃ offset ∈ argument.offset, offset.negative = true) ∧
      (if (argument.spellOffset ++ rest).head? = some '-' then (argument.spellOffset ++ rest).tail
        else argument.spellOffset ++ rest) =
        (match argument.offset with
          | none => rest
          | some offset => Nat.toDigits 10 offset.magnitude ++ rest) := by
  cases offset : argument.offset with
  | none =>
      have unsigned : rest.head? ≠ some '-' := stops.head_ne (by simp [Argument.absorbs, offset])
      rw [Argument.spellOffset, offset, List.nil_append, if_neg unsigned]
      exact ⟨⟨fun signed => absurd signed unsigned, fun ⟨_, member, _⟩ => by cases member⟩, rfl⟩
  | some written =>
      rw [Argument.spellOffset, offset]
      obtain ⟨negative, magnitude⟩ := written
      cases negative with
      | true => simp [Offset.spell]
      | false =>
          have unsigned := toDigits_head_ne magnitude rest (c := '-') (by decide)
          simp only [Offset.spell, Bool.false_eq_true, if_false, List.nil_append, if_neg unsigned,
            and_true]
          refine ⟨fun signed => absurd signed unsigned, fun ⟨_, member, signed⟩ => ?_⟩
          obtain rfl := Option.some.inj member
          exact absurd signed Bool.false_ne_true

theorem skipOffset_spellPlace (stops : Stops argument.absorbs rest) :
    skipOffset (argument.spellPlace ++ rest) = rest := by
  rw [skipOffset]
  simp only [skipHint_spellPlace stops, (sign_spellOffset stops).2]
  cases argument.offset with
  | none => exact dropWhile_stops (stops_isDigit stops)
  | some offset => exact skipDigits_toDigits _ (stops_isDigit stops)

theorem readOffset_spellPlace (stops : Stops argument.absorbs rest)
    (low : -2 ^ 31 < argument.offsetValue) (high : argument.offsetValue < 2 ^ 31) :
    (readOffset 0 (argument.spellPlace ++ rest)).1 = argument.offsetValue := by
  obtain ⟨signed, digits⟩ := sign_spellOffset stops
  rw [readOffset]
  simp only [skipHint_spellPlace stops, digits]
  cases offset : argument.offset with
  | none =>
      have unsigned : ¬(argument.spellOffset ++ rest).head? = some '-' := by
        rw [signed, offset]
        rintro ⟨_, member, -⟩
        cases member
      simp only [if_neg unsigned, takeWhile_stops (stops_isDigit stops), List.foldl_nil,
        Argument.offsetValue, offset]
  | some written =>
      obtain ⟨negative, magnitude⟩ := written
      have counted : (Nat.toDigits 10 magnitude).foldl
          (fun offset c => wrapInt (offset * 10 + digitValue c)) 0 = wrapInt magnitude := by
        have := foldl_int (Nat.toDigits 10 magnitude) 0
        rw [Nat.ofDigitChars_ten_toDigits] at this
        exact this
      rw [Argument.offsetValue, offset] at low high
      simp only [takeWhile_toDigits magnitude (stops_isDigit stops), counted, Argument.offsetValue,
        offset, signed, Option.mem_some_iff, exists_eq_left']
      cases negative with
      | true =>
          simp only [Offset.value, if_true] at low high ⊢
          have positive : wrapInt (magnitude : ℤ) = magnitude :=
            wrapInt_of_range (by omega) (by omega)
          rw [positive]
          exact wrapInt_of_range (by omega) (by omega)
      | false =>
          simp only [Offset.value, Bool.false_eq_true, if_false] at low high ⊢
          exact wrapInt_of_range (by omega) (by omega)

theorem spellPlace_unmarked (stops : Stops argument.absorbs rest)
    (isObject : argument.type.endsInObject = true) :
    (argument.spellPlace ++ rest).head? ≠ some '?' := by
  cases hinted : argument.hint with
  | true => simp [Argument.spellPlace, hinted]
  | false =>
      cases offset : argument.offset with
      | none =>
          have place : argument.spellPlace = [] := by
            simp [Argument.spellPlace, Argument.spellOffset, hinted, offset]
          rw [place, List.nil_append]
          exact stops.head_ne (by simp [Argument.absorbs, offset, hinted, isObject])
      | some written =>
          have place : argument.spellPlace = written.spell := by
            simp [Argument.spellPlace, Argument.spellOffset, hinted, offset]
          rw [place]
          obtain ⟨negative, magnitude⟩ := written
          cases negative with
          | true => simp [Offset.spell]
          | false => exact toDigits_head_ne magnitude rest (by decide)

end Place

/-! ## Arguments -/

theorem head?_spell (type : EncodedType) (rest : List Char) :
    (type.spell ++ rest).head? = type.spell.head? := by
  obtain ⟨first, others, spelled⟩ :=
    List.exists_cons_of_ne_nil (by simpa using type.spell_ne_nil [])
  rw [spelled]
  rfl

theorem SetApart.stops {absorbs : Char → Bool} {arguments : List Argument}
    (apart : SetApart absorbs arguments) : Stops absorbs (spellArguments arguments) := by
  cases arguments with
  | nil => exact .nil absorbs
  | cons argument arguments =>
      intro c member
      rw [spellArguments, Argument.spell, List.append_assoc, head?_spell] at member
      exact apart.1 c member

theorem skipFirstType_argument (argument : Argument) {rest : List Char}
    (stops : Stops argument.absorbs rest) :
    skipFirstType (argument.spell ++ rest) = some (argument.spellPlace ++ rest) := by
  rw [Argument.spell, List.append_assoc]
  exact skipFirstType_spell argument.type fun isObject => spellPlace_unmarked stops isObject

theorem spell_argument_ne_nil (argument : Argument) (rest : List Char) :
    argument.spell ++ rest ≠ [] := by
  rw [Argument.spell, List.append_assoc]
  exact argument.type.spell_ne_nil _

theorem countArguments_step {typedesc rest : List Char} {nargs : ℕ} (more : typedesc ≠ [])
    (skipped : skipFirstType typedesc = some rest) :
    countArguments typedesc nargs = countArguments (skipOffset rest) ((nargs + 1) % 2 ^ 32) := by
  rw [countArguments, if_neg more]
  split
  next failed => rw [skipped] at failed; exact absurd failed (Option.some_ne_none _)
  next found =>
    rw [skipped] at found
    rw [Option.some.inj found]

theorem positionArgument_step {arg nargs : ℕ} {typedesc rest : List Char} {selfOffset : ℤ}
    (more : typedesc ≠ []) (before : nargs ≠ arg) (skipped : skipFirstType typedesc = some rest) :
    positionArgument arg typedesc nargs selfOffset =
      positionArgument arg (skipOffset rest) ((nargs + 1) % 2 ^ 32)
        (if nargs = 0 then (readOffset selfOffset rest).1 else selfOffset) := by
  rw [positionArgument, if_neg (not_or.mpr ⟨more, before⟩)]
  split
  next failed => rw [skipped] at failed; exact absurd failed (Option.some_ne_none _)
  next found =>
    rw [skipped] at found
    obtain rfl := Option.some.inj found
    split <;> rfl

theorem countArguments_spell {absorbs : Char → Bool} {arguments : List Argument} {nargs : ℕ}
    (apart : SetApart absorbs arguments) (fits : nargs + arguments.length < 2 ^ 32) :
    countArguments (spellArguments arguments) nargs = some (nargs + arguments.length) := by
  induction arguments generalizing absorbs nargs with
  | nil => rw [spellArguments, countArguments, if_pos rfl]; rfl
  | cons argument arguments ih =>
      rw [List.length_cons] at fits ⊢
      have stops := apart.2.stops
      rw [spellArguments, countArguments_step (spell_argument_ne_nil argument _)
        (skipFirstType_argument argument stops), skipOffset_spellPlace stops,
        Nat.mod_eq_of_lt (by omega), ih apart.2 (by omega)]
      congr 1
      omega

theorem positionArgument_spell {absorbs : Char → Bool} {arguments : List Argument} {arg nargs : ℕ}
    {selfOffset : ℤ} (apart : SetApart absorbs arguments) (positive : nargs ≠ 0) (le : nargs ≤ arg)
    (fits : nargs + arguments.length < 2 ^ 32) :
    positionArgument arg (spellArguments arguments) nargs selfOffset =
      some (spellArguments (arguments.drop (arg - nargs)), min arg (nargs + arguments.length),
        selfOffset) := by
  induction arguments generalizing absorbs nargs with
  | nil =>
      rw [positionArgument, if_pos (.inl rfl), List.drop_nil, List.length_nil, Nat.add_zero,
        Nat.min_eq_right le]
  | cons argument arguments ih =>
      rw [List.length_cons] at fits ⊢
      have stops := apart.2.stops
      obtain rfl | before := Nat.eq_or_lt_of_le le
      · rw [positionArgument, if_pos (.inr rfl), Nat.sub_self, List.drop_zero,
          Nat.min_eq_left (Nat.le_add_right _ _)]
      · rw [spellArguments, positionArgument_step (spell_argument_ne_nil argument _) (by omega)
          (skipFirstType_argument argument stops), skipOffset_spellPlace stops, if_neg positive,
          Nat.mod_eq_of_lt (by omega), ih apart.2 (by omega) (by omega) (by omega)]
        rw [show arg - nargs = arg - (nargs + 1) + 1 by omega, List.drop_succ_cons,
          show nargs + 1 + arguments.length = nargs + (arguments.length + 1) by omega]

theorem positionArgument_first {absorbs : Char → Bool} {first : Argument}
    {arguments : List Argument} {arg : ℕ} (apart : SetApart absorbs (first :: arguments))
    (fits : arguments.length + 1 < 2 ^ 32) (low : -2 ^ 31 < first.offsetValue)
    (high : first.offsetValue < 2 ^ 31) :
    positionArgument arg (spellArguments (first :: arguments)) 0 0 =
      some (spellArguments ((first :: arguments).drop arg), min arg (arguments.length + 1),
        if arg = 0 then 0 else first.offsetValue) := by
  have stops := apart.2.stops
  cases arg with
  | zero => rw [positionArgument, if_pos (.inr rfl), List.drop_zero, Nat.zero_min, if_pos rfl]
  | succ arg =>
      rw [spellArguments, positionArgument_step (spell_argument_ne_nil first _) (by omega)
        (skipFirstType_argument first stops), skipOffset_spellPlace stops, if_pos rfl,
        readOffset_spellPlace stops low high, show (0 + 1) % 2 ^ 32 = 1 from rfl,
        positionArgument_spell apart.2 (by decide) (by omega) (by omega), List.drop_succ_cons,
        if_neg (Nat.succ_ne_zero arg), Nat.add_sub_cancel, Nat.add_comm 1]

/-! ## Whole encodings -/

/-- What the functions should answer for the string of a method encoding. -/
structure Recovered (method : MethodEncoding) (typedesc : List Char) : Prop where
  numberOfArguments : encodingGetNumberOfArguments typedesc = some method.arguments.length
  sizeOfArguments : encodingGetSizeOfArguments typedesc = some (method.frameSize.getD 0)
  returnType : encodingCopyReturnType (some typedesc) = some (some method.returnType.spell)
  argumentType : ∀ index argument, method.arguments[index]? = some argument →
    encodingCopyArgumentType (some typedesc) index = some (some argument.type.spell)
  argumentInfo : ∀ index argument, method.arguments[index]? = some argument →
    ∀ first ∈ method.arguments.head?,
      (encodingGetArgumentInfo typedesc index).map ArgumentInfo.offset =
        some (argument.offsetValue - first.offsetValue)
  pastEnd : ∀ index, method.arguments.length ≤ index →
    encodingCopyArgumentType (some typedesc) index = some none

section Method

variable {method : MethodEncoding}

theorem stops_frameSize (apart : SetApart method.absorbs method.arguments) :
    Stops Char.isDigit (spellArguments method.arguments) := by
  refine apart.stops.mono fun c digit => ?_
  unfold MethodEncoding.absorbs
  split <;> simp [digit]

theorem skipFirstType_method (apart : SetApart method.absorbs method.arguments) :
    (method.returnType.endsInObject = true →
      (method.spellFrameSize ++ spellArguments method.arguments).head? ≠ some '?') ∧
    skipFirstType method.spell = some (method.spellFrameSize ++ spellArguments method.arguments) := by
  have unmarked (isObject : method.returnType.endsInObject = true) :
      (method.spellFrameSize ++ spellArguments method.arguments).head? ≠ some '?' := by
    cases size : method.frameSize with
    | none =>
        rw [MethodEncoding.spellFrameSize, size, List.nil_append]
        exact apart.stops.head_ne (by simp [MethodEncoding.absorbs, size, isObject])
    | some number =>
        rw [MethodEncoding.spellFrameSize, size]
        exact toDigits_head_ne number _ (by decide)
  exact ⟨unmarked, skipFirstType_spell method.returnType unmarked⟩

theorem skipDigits_frameSize (apart : SetApart method.absorbs method.arguments) :
    skipDigits (method.spellFrameSize ++ spellArguments method.arguments) =
      spellArguments method.arguments := by
  unfold MethodEncoding.spellFrameSize
  split
  next => exact dropWhile_stops (stops_frameSize apart)
  next size _ => exact skipDigits_toDigits size (stops_frameSize apart)

theorem getSizeOfArguments_spell (apart : SetApart method.absorbs method.arguments)
    (fits : ∀ size ∈ method.frameSize, size < 2 ^ 32) :
    encodingGetSizeOfArguments method.spell = some (method.frameSize.getD 0) := by
  rw [encodingGetSizeOfArguments, (skipFirstType_method apart).2]
  cases size : method.frameSize with
  | none =>
      simp only [MethodEncoding.spellFrameSize, size, List.nil_append, Option.bind_eq_bind,
        Option.bind_some, takeWhile_stops (stops_frameSize apart)]
      rfl
  | some number =>
      have counted := foldl_unsigned (Nat.toDigits 10 number) 0
      rw [Nat.ofDigitChars_ten_toDigits, Nat.mod_eq_of_lt (fits number size)] at counted
      simp only [MethodEncoding.spellFrameSize, size, Option.bind_eq_bind, Option.bind_some,
        takeWhile_toDigits number (stops_frameSize apart)]
      exact congrArg some counted

theorem SetApart.drop {absorbs : Char → Bool} {arguments rest : List Argument}
    {argument : Argument} {count : ℕ} (apart : SetApart absorbs arguments)
    (dropped : arguments.drop count = argument :: rest) : SetApart argument.absorbs rest := by
  induction count generalizing absorbs arguments with
  | zero =>
      rw [List.drop_zero] at dropped
      rw [dropped] at apart
      exact apart.2
  | succ count ih =>
      cases arguments with
      | nil => rw [List.drop_nil] at dropped; exact absurd dropped.symm (List.cons_ne_nil _ _)
      | cons first arguments => exact ih apart.2 dropped

theorem getArgumentInfo_spell (apart : SetApart method.absorbs method.arguments)
    (fits : method.FitsInts) (arg : ℕ) :
    encodingGetArgumentInfo method.spell arg =
      match method.arguments.drop arg with
      | [] => some ⟨method.arguments.length, none, 0⟩
      | argument :: rest =>
          some ⟨arg, some (spellArguments (argument :: rest)),
            argument.offsetValue - (method.arguments.head?.getD argument).offsetValue⟩ := by
  rw [encodingGetArgumentInfo, (skipFirstType_method apart).2]
  simp only [Option.bind_eq_bind, Option.bind_some, skipDigits_frameSize apart]
  have count := fits.arguments
  have offsets := fits.offsets
  have differences := fits.differences
  cases arguments : method.arguments with
  | nil =>
      rw [spellArguments, positionArgument, if_pos (.inl rfl), List.drop_nil]
      rfl
  | cons first others =>
      rw [arguments] at apart count offsets differences
      obtain ⟨firstLow, firstHigh⟩ := offsets first List.mem_cons_self
      rw [positionArgument_first apart count firstLow firstHigh]
      simp only [Option.bind_some]
      cases dropped : (first :: others).drop arg with
      | nil =>
          have past : others.length + 1 ≤ arg := List.drop_eq_nil_iff.mp dropped
          rw [spellArguments, if_pos rfl, Nat.min_eq_right past]
          rfl
      | cons argument rest =>
          have stops := (apart.drop dropped).stops
          have member : argument ∈ first :: others :=
            List.mem_of_mem_drop (dropped ▸ List.mem_cons_self)
          have inside : arg < others.length + 1 := by
            by_contra past
            rw [List.drop_eq_nil_iff.mpr (Nat.not_lt.mp past)] at dropped
            exact absurd dropped.symm (List.cons_ne_nil _ _)
          obtain ⟨low, high⟩ := offsets argument member
          rw [spellArguments, if_neg (spell_argument_ne_nil argument _),
            skipFirstType_argument argument stops, Nat.min_eq_left inside.le]
          simp only [Option.bind_some, readOffset_spellPlace stops low high, List.head?_cons,
            Option.getD_some]
          cases arg with
          | zero =>
              rw [List.drop_zero] at dropped
              obtain ⟨rfl, -⟩ := List.cons.inj dropped
              rw [if_pos rfl, Int.sub_self]
              rfl
          | succ arg =>
              obtain ⟨least, most⟩ := differences argument member first rfl
              rw [if_neg (Nat.succ_ne_zero arg), if_neg (Nat.succ_ne_zero arg),
                wrapInt_of_range least most]
              rfl

theorem drop_of_getElem? {arguments : List Argument} {index : ℕ} {argument : Argument}
    (at_index : arguments[index]? = some argument) :
    arguments.drop index = argument :: arguments.drop (index + 1) := by
  obtain ⟨bound, rfl⟩ := List.getElem?_eq_some_iff.mp at_index
  exact List.drop_eq_getElem_cons bound

end Method

/--
The functions recover every method encoding from its string, provided that its numbers fit in the
functions' own types and that no argument's type starts with a character that is read as part of
what stands before it: a digit, or, where the offset or frame size before it is left out, the mark
of a block, a hint or a sign.
-/
theorem recovered_spell (method : MethodEncoding) (fits : method.FitsInts)
    (apart : SetApart method.absorbs method.arguments) : Recovered method method.spell := by
  obtain ⟨unmarked, skipped⟩ := skipFirstType_method apart
  have info := getArgumentInfo_spell apart fits
  refine ⟨?_, getSizeOfArguments_spell apart fits.frameSize, ?_, fun index argument at_index => ?_,
    fun index argument at_index first isFirst => ?_, fun index past => ?_⟩
  · rw [encodingGetNumberOfArguments, skipped]
    simp only [Option.bind_eq_bind, Option.bind_some, skipDigits_frameSize apart]
    rw [countArguments_spell apart (by rw [Nat.zero_add]; exact fits.arguments), Nat.zero_add]
  · rw [encodingCopyReturnType, MethodEncoding.spell]
    simp only [copyFirstType_spell method.returnType unmarked, Option.map_some]
  · have dropped := drop_of_getElem? at_index
    have stops := (apart.drop dropped).stops
    have copied := copyFirstType_spell argument.type fun isObject => spellPlace_unmarked stops isObject
    rw [← List.append_assoc] at copied
    rw [encodingCopyArgumentType, info, dropped]
    simp only [Option.bind_eq_bind, Option.bind_some, spellArguments, Argument.spell, copied,
      Option.map_some]
  · rw [info, drop_of_getElem? at_index, Option.mem_def.mp isFirst]
    rfl
  · rw [encodingCopyArgumentType, info, List.drop_eq_nil_iff.mpr past]
    rfl

/-- A type without qualifiers that is one character. -/
def basicType (c : Char) (plain : isSpecial c = false) : EncodedType := ⟨[], .basic c plain⟩

/-- `v44@0:+8r^{p=[4i](u=c@?)}-16@?24`: a method with a structure and a block. -/
def nestedMethod : MethodEncoding where
  returnType := basicType 'v' rfl
  frameSize := some 44
  arguments :=
    [⟨⟨[], .object⟩, false, some ⟨false, 0⟩⟩, ⟨basicType ':' rfl, true, some ⟨false, 8⟩⟩,
      ⟨⟨[.const, .pointer], .struct (.char 'p' rfl (.char '=' rfl
        (.group .square (.char '4' rfl (.char 'i' rfl .nil))
          (.group .round (.char 'u' rfl (.char '=' rfl (.char 'c' rfl (.char '@' rfl
            (.char '?' rfl .nil))))) .nil))))⟩, false, some ⟨true, 16⟩⟩,
      ⟨⟨[], .block⟩, false, some ⟨false, 24⟩⟩]

example : nestedMethod.spell = "v44@0:+8r^{p=[4i](u=c@?)}-16@?24".toList := by decide +kernel

theorem recovered_nestedMethod : Recovered nestedMethod nestedMethod.spell := by
  have starts {absorbs : Char → Bool} {type : List Char} {c : Char} (head : type.head? = some c)
      (free : absorbs c = false) : ∀ first ∈ type.head?, absorbs first = false := by
    intro first member
    rw [head] at member
    obtain rfl := Option.some.inj member
    exact free
  exact recovered_spell nestedMethod
    ⟨by decide, by decide, by decide +kernel, by decide +kernel⟩
    ⟨starts rfl rfl, starts rfl rfl, starts rfl rfl, starts rfl rfl, trivial⟩

/-- A digit that is an argument's type is taken for the end of the frame size. -/
theorem not_recovered_digit :
    ¬Recovered ⟨basicType 'v' rfl, some 16, [⟨basicType '5' rfl, false, some ⟨false, 0⟩⟩]⟩
      (MethodEncoding.spell
        ⟨basicType 'v' rfl, some 16, [⟨basicType '5' rfl, false, some ⟨false, 0⟩⟩]⟩) := by
  intro recovered
  exact absurd recovered.numberOfArguments (by decide +kernel)

end ObjcDyld.TypeEncodings
