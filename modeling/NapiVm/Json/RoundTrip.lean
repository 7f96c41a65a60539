import NapiVm.Json.Accepts
import NapiVm.Json.Reindent

/-!
# There and back

The parser, on what the serializer writes.

* `tree` — the tree of the texts of a value.
* `writes_stringify`, `writes_pretty` — they are its texts.
* `denote_tree` — it denotes the value.
* `jsonParse_stringified_iff` — how deep the parser follows the serializer.
-/

namespace NapiVm.JsonRoundTrip

open JsString JsonText JsonGrammar JsonParser NumberText List
open JsonStringify (maxStringLen maxJsonDepth JsonError encode encode_append encode_nil encode_cons
  encode_unit serialize reindent pretty prettyItems prettyFields height heightItems heightFields)

/-! ## Numbers -/

/-- `str::parse::<f64>` of a JSON number. -/
def parseF64 (lexeme : List Char) : UInt64 := (numberValue lexeme).getD 0

/-- Zero has no sign. -/
def withoutSign (bits : UInt64) : UInt64 := if bits = 0x8000000000000000 then 0 else bits

theorem digits_of_unsigned {digits : List Char} {n : Int} (h : unsigned digits = some n) :
    Digits digits := by
  rw [unsigned] at h
  split at h
  · next hdigits => exact ⟨hdigits.1, all_eq_true.1 hdigits.2⟩
  · cases h

theorem isExponent_of_some {l : List Char} {n : Int} (h : exponentOf l = some n) :
    IsExponent l := by
  cases l with
  | nil => exact .inl rfl
  | cons c rest =>
    rw [exponentOf.eq_def] at h
    dsimp only at h
    split at h
    · next hc =>
        split at h
        · exact .inr ⟨c, ['+'], _, rfl, hc, .inr (.inl rfl), digits_of_unsigned h⟩
        · obtain ⟨m, hm, -⟩ := Option.map_eq_some_iff.1 h
          exact .inr ⟨c, ['-'], _, rfl, hc, .inr (.inr rfl), digits_of_unsigned hm⟩
        · exact .inr ⟨c, [], _, rfl, hc, .inl rfl, digits_of_unsigned h⟩
    · cases h

theorem isFraction_of_some {l digits rest : List Char} (h : fractionOf l = some (digits, rest)) :
    ∃ fraction, l = fraction ++ rest ∧ IsFraction fraction := by
  unfold fractionOf at h
  split at h
  · next r =>
      split at h
      · cases h
      · next hne =>
          cases h
          refine ⟨'.' :: r.takeWhile Char.isDigit, ?_, .inr ⟨_, rfl, hne, ?_⟩⟩
          · rw [cons_append, takeWhile_append_dropWhile]
          · exact all_eq_true.1 all_takeWhile
  · cases h
    exact ⟨[], rfl, .inl rfl⟩

theorem isNumber_of_magnitude {sign : Bool} {l : List Char} {bits : UInt64}
    (h : magnitudeOf sign l = some bits) :
    ∃ int fraction exponent, l = int ++ (fraction ++ exponent) ∧ IsInt int ∧
      IsFraction fraction ∧ IsExponent exponent := by
  rw [magnitudeOf] at h
  split at h
  · cases h
  next hint =>
  obtain ⟨⟨digits, exponent⟩, hfraction, h⟩ := Option.bind_eq_some_iff.1 h
  obtain ⟨e, hexponent, -⟩ := Option.map_eq_some_iff.1 h
  obtain ⟨fraction, hrest, hisFraction⟩ := isFraction_of_some hfraction
  refine ⟨l.takeWhile Char.isDigit, fraction, exponent, ?_, ?_, hisFraction,
    isExponent_of_some hexponent⟩
  · rw [← hrest, takeWhile_append_dropWhile]
  · obtain ⟨hne, hzero⟩ := not_or.1 hint
    have hdigits : Digits (l.takeWhile Char.isDigit) :=
      ⟨hne, all_eq_true.1 all_takeWhile⟩
    by_cases hhead : (l.takeWhile Char.isDigit).head? = some '0'
    · have hlength : (l.takeWhile Char.isDigit).length = 1 := by
        by_contra hlength
        exact hzero ⟨hhead, hlength⟩
      obtain ⟨c, hc⟩ := length_eq_one_iff.1 hlength
      rw [hc] at hhead ⊢
      exact .inl (by rw [Option.some.inj hhead])
    · exact .inr ⟨hdigits, hhead⟩

theorem isNumber_of_some {l : List Char} {bits : UInt64} (h : numberValue l = some bits) :
    IsNumber l := by
  unfold numberValue at h
  split at h
  · obtain ⟨int, fraction, exponent, rfl, hint, hfraction, hexponent⟩ := isNumber_of_magnitude h
    exact ⟨['-'], int, fraction, exponent, rfl, .inr rfl, hint, hfraction, hexponent⟩
  · obtain ⟨int, fraction, exponent, rfl, hint, hfraction, hexponent⟩ := isNumber_of_magnitude h
    exact ⟨[], int, fraction, exponent, rfl, .inl rfl, hint, hfraction, hexponent⟩

theorem numberText_negativeZero : numberText 0x8000000000000000 = numberText 0 := by decide

theorem numberValue_zero : numberValue (numberText 0) = some 0 :=
  numberValue_numberText (by decide) (by decide)

theorem isNumber_numberText {bits : UInt64} (h : Binary64.isFinite bits = true) :
    IsNumber (numberText bits) := by
  by_cases hzero : bits = 0x8000000000000000
  · rw [hzero, numberText_negativeZero]
    exact isNumber_of_some numberValue_zero
  · exact isNumber_of_some (numberValue_numberText h hzero)

/-- A number is read back, but for the sign of zero. -/
theorem parseF64_numberText {bits : UInt64} (h : Binary64.isFinite bits = true) :
    parseF64 (numberText bits) = withoutSign bits := by
  rw [parseF64, withoutSign]
  by_cases hzero : bits = 0x8000000000000000
  · rw [if_pos hzero, hzero, numberText_negativeZero, numberValue_zero, Option.getD_some]
  · rw [if_neg hzero, numberValue_numberText h hzero, Option.getD_some]

/-! ## Strings -/

/-- An escape of four digits. -/
def escape (u : UInt16) : Piece :=
  .unicode (hexLower (u.toNat / 4096)) (hexLower (u.toNat / 256 % 16))
    (hexLower (u.toNat / 16 % 16)) (hexLower (u.toNat % 16))

/-- The part of a literal that a code point is quoted as. -/
def piece : Item → Piece
  | .error u => escape u
  | .ok c =>
    if c = '"' then .letter '"'
    else if c = '\\' then .letter '\\'
    else if c.toNat = 8 then .letter 'b'
    else if c.toNat = 9 then .letter 't'
    else if c.toNat = 10 then .letter 'n'
    else if c.toNat = 12 then .letter 'f'
    else if c.toNat = 13 then .letter 'r'
    else if c.toNat < 32 then escape (UInt16.ofNat c.toNat)
    else .char c

def pieces (units : List UInt16) : List Piece := (decodeUtf16 units).map piece

/-- The units of a code point. -/
def itemUnits : Item → List UInt16
  | .ok c => encodeUtf16 c
  | .error u => [u]

theorem escape_spec (u : UInt16) : (escape u).text = scalars (unicodeEscape u) ∧
    (escape u).Valid ∧ (escape u).value = [u] := by
  obtain ⟨a, b, c, d, htext, hdigits, -⟩ := hexDigits_unicodeEscape u
  have heq : escape u = .unicode a b c d := by
    injection htext with _ htext
    injection htext with _ htext
    injection htext with ha htext
    injection htext with hb htext
    injection htext with hc htext
    injection htext with hd
    rw [escape, ha, hb, hc, hd]
  rw [heq, htext]
  refine ⟨rfl, ?_, ?_⟩
  · rw [Piece.Valid, hdigits]
    rfl
  · rw [Piece.value, hdigits, Option.map_some, UInt16.ofNat_toNat]
    rfl

theorem piece_spec (item : Item) : (piece item).text = scalars (quoteChar item) ∧
    (piece item).Valid ∧ (piece item).value = itemUnits item := by
  cases item with
  | error u => exact escape_spec u
  | ok c =>
    have hcode : ∀ {d : Char}, c.toNat = d.toNat → c = d := fun h => Char.toNat_inj.1 h
    rw [piece, quoteChar]
    split
    next h =>
      subst h
      exact ⟨rfl, by unfold Piece.Valid; decide, by decide⟩
    next hquote =>
    split
    next h =>
      subst h
      exact ⟨rfl, by unfold Piece.Valid; decide, by decide⟩
    next hslash =>
    split
    next h =>
      obtain rfl := @hcode '\x08' h
      exact ⟨rfl, by unfold Piece.Valid; decide, by decide⟩
    split
    next h =>
      obtain rfl := @hcode '\t' h
      exact ⟨rfl, by unfold Piece.Valid; decide, by decide⟩
    split
    next h =>
      obtain rfl := @hcode '\n' h
      exact ⟨rfl, by unfold Piece.Valid; decide, by decide⟩
    split
    next h =>
      obtain rfl := @hcode '\x0c' h
      exact ⟨rfl, by unfold Piece.Valid; decide, by decide⟩
    split
    next h =>
      obtain rfl := @hcode '\r' h
      exact ⟨rfl, by unfold Piece.Valid; decide, by decide⟩
    split
    next h =>
      obtain ⟨htext, hvalid, hvalue⟩ := escape_spec (UInt16.ofNat c.toNat)
      refine ⟨htext, hvalid, ?_⟩
      rw [hvalue, itemUnits, encodeUtf16, if_pos (by omega)]
    next h => exact ⟨rfl, ⟨h, hquote, hslash⟩, rfl⟩

theorem flatMap_decodeUtf16 (units : List UInt16) :
    (decodeUtf16 units).flatMap itemUnits = units := by
  induction units using decodeUtf16.induct with
  | case1 => rfl
  | case2 u h =>
    rw [decodeUtf16, if_pos h]
    rfl
  | case3 u h =>
    simp only [Bool.or_eq_true, not_or, Bool.not_eq_true] at h
    rw [decodeUtf16, if_neg (by simp [h]), flatMap_cons, itemUnits, encodeUtf16_unit h.1 h.2]
    rfl
  | case4 u l r hh hl ih =>
    rw [decodeUtf16, if_pos hh, if_pos hl, flatMap_cons, ih, itemUnits, encodeUtf16_pair hh hl]
    rfl
  | case5 u l r hh hl ih =>
    rw [decodeUtf16, if_pos hh, if_neg hl, flatMap_cons, ih]
    rfl
  | case6 u l r hh hl ih =>
    rw [decodeUtf16, if_neg hh, if_pos hl, flatMap_cons, ih]
    rfl
  | case7 u l r hh hl ih =>
    rw [decodeUtf16, if_neg hh, if_neg hl, flatMap_cons, ih, itemUnits,
      encodeUtf16_unit (by simpa using hh) (by simpa using hl)]
    rfl

theorem units_pieces (s : List UInt16) : units (pieces s) = s := by
  rw [units, pieces, flatMap_map]
  simp only [(piece_spec _).2.2]
  exact flatMap_decodeUtf16 s

theorem scalars_append_scalars (a b : List Char) : scalars (a ++ b) = scalars a ++ scalars b :=
  map_append

/-- A quoted string is a literal. -/
theorem writesString_quote (s : List UInt16) (y : List Item) :
    WritesString (pieces s) (scalars (quote s) ++ y) y := by
  constructor
  · intro p hp
    obtain ⟨item, -, rfl⟩ := mem_map.1 hp
    exact (piece_spec item).2.1
  · have htext : ∀ items : List Item,
        (items.map piece).flatMap Piece.text = scalars (items.flatMap quoteChar) := by
      intro items
      induction items with
      | nil => rfl
      | cons item items ih =>
        rw [map_cons, flatMap_cons, flatMap_cons, ih, (piece_spec item).1,
          scalars_append_scalars]
    rw [quote, quoteRest, scalars_append, scalars_append_scalars, append_assoc, pieces, htext]
    rfl

/-! ## Values -/

mutual

/-- The tree of the texts of a value. -/
def tree : JsonValue → Tree
  | .null => .null
  | .bool b => .bool b
  | .number bits => .number (numberText bits)
  | .string s => .string (pieces s)
  | .array items => .array (treeItems items)
  | .object fields => .object (treeFields fields)

def treeItems : List JsonValue → List Tree
  | [] => []
  | v :: items => tree v :: treeItems items

def treeFields : List (List UInt16 × JsonValue) → List (List Piece × Tree)
  | [] => []
  | (key, v) :: fields => (pieces key, tree v) :: treeFields fields

end

mutual

/-- Numbers are finite, and the keys of an object are different. -/
def Plain : JsonValue → Prop
  | .number bits => Binary64.isFinite bits = true
  | .array items => plainItems items
  | .object fields => (fields.map Prod.fst).Nodup ∧ plainFields fields
  | _ => True

def plainItems : List JsonValue → Prop
  | [] => True
  | v :: items => Plain v ∧ plainItems items

def plainFields : List (List UInt16 × JsonValue) → Prop
  | [] => True
  | (_, v) :: fields => Plain v ∧ plainFields fields

end

mutual

/-- A value whose zeros have no sign. -/
def withoutSigns : JsonValue → JsonValue
  | .number bits => .number (withoutSign bits)
  | .array items => .array (withoutSignsItems items)
  | .object fields => .object (withoutSignsFields fields)
  | v => v

def withoutSignsItems : List JsonValue → List JsonValue
  | [] => []
  | v :: items => withoutSigns v :: withoutSignsItems items

def withoutSignsFields : List (List UInt16 × JsonValue) → List (List UInt16 × JsonValue)
  | [] => []
  | (key, v) :: fields => (key, withoutSigns v) :: withoutSignsFields fields

end

theorem put_fresh {key : List UInt16} {v : JsonValue} {props : List (List UInt16 × JsonValue)}
    (h : key ∉ props.map Prod.fst) : put key v props = props ++ [(key, v)] := by
  induction props with
  | nil => rfl
  | cons p props ih =>
    obtain ⟨hp, hprops⟩ := not_or.1 (mt mem_cons.2 h)
    rw [put, if_neg (Ne.symm hp), ih hprops, cons_append]

mutual

/-- The tree denotes the value. -/
theorem denote_tree (v : JsonValue) (hv : Plain v) : denote parseF64 (tree v) = withoutSigns v := by
  match v with
  | .null => rfl
  | .bool b => rfl
  | .number bits => exact congrArg JsonValue.number (parseF64_numberText hv)
  | .string s => exact congrArg JsonValue.string (units_pieces s)
  | .array items => exact congrArg JsonValue.array (denote_treeItems items hv)
  | .object fields =>
    exact congrArg JsonValue.object
      (denote_treeFields fields [] hv.1 (disjoint_nil_left _) hv.2)

theorem denote_treeItems (items : List JsonValue) (h : plainItems items) :
    denoteItems parseF64 (treeItems items) = withoutSignsItems items := by
  match items with
  | [] => rfl
  | v :: items =>
    rw [treeItems, denoteItems, denote_tree v h.1, denote_treeItems items h.2, withoutSignsItems]

theorem denote_treeFields (fields : List (List UInt16 × JsonValue))
    (props : List (List UInt16 × JsonValue)) (hnodup : (fields.map Prod.fst).Nodup)
    (hdisjoint : (props.map Prod.fst).Disjoint (fields.map Prod.fst)) (h : plainFields fields) :
    denoteMembers parseF64 props (treeFields fields) = props ++ withoutSignsFields fields := by
  match fields with
  | [] => exact (append_nil props).symm
  | (key, v) :: fields =>
    obtain ⟨hkey, hnodup⟩ := nodup_cons.1 hnodup
    obtain ⟨hfresh, hdisjoint⟩ := disjoint_cons_right.1 hdisjoint
    rw [treeFields, denoteMembers, units_pieces, denote_tree v h.1, put_fresh hfresh,
      denote_treeFields fields _ hnodup _ h.2, withoutSignsFields, append_assoc]
    · rfl
    · rw [map_append]
      exact disjoint_append_left.2 ⟨hdisjoint, singleton_disjoint.2 hkey⟩

end

/-! ## Limits -/

mutual

/-- The parser counts one level more than the serializer. -/
theorem levels_tree (v : JsonValue) : levels (tree v) = height v + 1 := by
  match v with
  | .null => rfl
  | .bool b => rfl
  | .number bits => rfl
  | .string s => rfl
  | .array items => rw [tree, levels, levels_treeItems items, height]
  | .object fields => rw [tree, levels, levels_treeFields fields, height]

theorem levels_treeItems (items : List JsonValue) :
    levelsItems (treeItems items) = heightItems items := by
  match items with
  | [] => rfl
  | v :: items => rw [treeItems, levelsItems, levels_tree v, levels_treeItems items, heightItems]

theorem levels_treeFields (fields : List (List UInt16 × JsonValue)) :
    levelsMembers (treeFields fields) = heightFields fields := by
  match fields with
  | [] => rfl
  | (key, v) :: fields =>
    rw [treeFields, levelsMembers, levels_tree v, levels_treeFields fields, heightFields]

end

theorem length_le_keysOf (keys : List (List UInt16)) (ms : List (List Piece × Tree)) :
    keys.length ≤ (keysOf keys ms).length := by
  induction ms generalizing keys with
  | nil => exact Nat.le_refl _
  | cons m ms ih =>
    have hadd : keys.length ≤ (addKey (JsonGrammar.units m.1) keys).length := by
      rw [addKey]
      split
      · exact Nat.le_refl _
      · rw [length_append]
        exact Nat.le_add_right _ _
    exact hadd.trans (ih _)

mutual

/-- Without duplicates, an object that is not too large is never full before a member. -/
theorem membersFit_tree (v : JsonValue) (hv : Plain v) (h : PropertiesFit (tree v)) :
    MembersFit (tree v) := by
  match v with
  | .null => trivial
  | .bool b => trivial
  | .number bits => trivial
  | .string s => trivial
  | .array items => exact membersFit_treeItems items hv h
  | .object fields =>
    exact membersFit_treeFields fields [] hv.1 (disjoint_nil_left _) hv.2 h.1 h.2

theorem membersFit_treeItems (items : List JsonValue) (hitems : plainItems items)
    (h : propertiesFitItems (treeItems items)) : membersFitItems (treeItems items) := by
  match items with
  | [] => trivial
  | v :: items =>
    exact ⟨membersFit_tree v hitems.1 h.1, membersFit_treeItems items hitems.2 h.2⟩

theorem membersFit_treeFields (fields : List (List UInt16 × JsonValue))
    (keys : List (List UInt16)) (hnodup : (fields.map Prod.fst).Nodup)
    (hdisjoint : keys.Disjoint (fields.map Prod.fst)) (hfields : plainFields fields)
    (hcount : (keysOf keys (treeFields fields)).length ≤ maxObjectProps)
    (h : propertiesFitMembers (treeFields fields)) :
    membersFitMembers keys (treeFields fields) := by
  match fields with
  | [] => trivial
  | (key, v) :: fields =>
    obtain ⟨hkey, hnodup⟩ := nodup_cons.1 hnodup
    obtain ⟨hfresh, hdisjoint⟩ := disjoint_cons_right.1 hdisjoint
    have hadd : addKey (JsonGrammar.units (pieces key)) keys = keys ++ [key] := by
      rw [units_pieces, addKey, if_neg hfresh]
    have hcount' : (keysOf (keys ++ [key]) (treeFields fields)).length ≤ maxObjectProps := by
      rw [← hadd]
      exact hcount
    have hlength := (length_le_keysOf (keys ++ [key]) (treeFields fields)).trans hcount'
    rw [length_append, length_singleton] at hlength
    refine ⟨hlength, membersFit_tree v hfields.1 h.1, ?_⟩
    rw [hadd]
    exact membersFit_treeFields fields _ hnodup
      (disjoint_append_left.2 ⟨hdisjoint, singleton_disjoint.2 hkey⟩) hfields.2
      hcount' h.2

end

/-! ## Texts -/

theorem ws_refl (x : List Item) : Ws x x := ⟨[], nofun, rfl⟩

theorem ws_scalars {l : List Char} (h : ∀ c ∈ l, isSpace c = true) (x : List Item) :
    Ws (scalars l ++ x) x := ⟨l, h, rfl⟩

theorem scalars_append_append (a b : List Char) (x : List Item) :
    scalars (a ++ b) ++ x = scalars a ++ (scalars b ++ x) := by
  rw [scalars_append_scalars, append_assoc]

mutual

/-- The text without white space. -/
theorem writes_stringify (v : JsonValue) (hv : Plain v) (y : List Item) :
    Writes (tree v) (scalars (stringify v) ++ y) y := by
  match v with
  | .null => exact rfl
  | .bool true => exact rfl
  | .bool false => exact rfl
  | .number bits =>
    rw [stringify, if_pos (show Binary64.isFinite bits = true from hv)]
    exact ⟨isNumber_numberText hv, rfl⟩
  | .string s => exact writesString_quote s y
  | .array items =>
    refine ⟨scalars (stringifyItems items) ++ (.ok ']' :: y), ?_, writes_stringifyItems items hv _⟩
    rw [stringify, scalars_append, scalars_append_append]
    rfl
  | .object fields =>
    refine ⟨scalars (stringifyFields fields) ++ (.ok '}' :: y), ?_,
      writes_stringifyFields fields hv.2 _⟩
    rw [stringify, scalars_append, scalars_append_append]
    rfl

theorem writes_stringifyItems (items : List JsonValue) (h : plainItems items) (y : List Item) :
    WritesItems (treeItems items) (scalars (stringifyItems items) ++ y) y := by
  match items with
  | [] => exact ws_refl y
  | [v] => exact ⟨_, y, ws_refl _, writes_stringify v h.1 y, ws_refl y⟩
  | v :: w :: items =>
    rw [stringifyItems_cons, scalars_append_append, scalars_append]
    exact writesItems_cons.2 ⟨_, _, ws_refl _, writes_stringify v h.1 _,
      .inr ⟨cons_ne_nil _ _, _, ws_refl _, writes_stringifyItems (w :: items) h.2 y⟩⟩

theorem writes_stringifyFields (fields : List (List UInt16 × JsonValue)) (h : plainFields fields)
    (y : List Item) :
    WritesMembers (treeFields fields) (scalars (stringifyFields fields) ++ y) y := by
  match fields with
  | [] => exact ws_refl y
  | [(key, v)] =>
    rw [stringifyFields, scalars_append_append, scalars_append]
    exact ⟨_, _, _, _, y, ws_refl _, writesString_quote key _, ws_refl _, ws_refl _,
      writes_stringify v h.1 y, ws_refl y⟩
  | (key, v) :: w :: fields =>
    rw [stringifyFields_cons, scalars_append_append, scalars_append, scalars_append_append,
      scalars_append]
    exact writesMembers_cons.2 ⟨_, _, _, _, _, ws_refl _, writesString_quote key _, ws_refl _,
      ws_refl _, writes_stringify v h.1 _,
      .inr ⟨cons_ne_nil _ _, _, ws_refl _, writes_stringifyFields (w :: fields) h.2 y⟩⟩

end

/-- The end of a line, and the indent of the next one. -/
theorem ws_newline {l : List Char} (h : ∀ c ∈ l, isSpace c = true) (x : List Item) :
    Ws (scalars ('\n' :: l) ++ x) x :=
  ws_scalars (forall_mem_cons.2 ⟨by decide, h⟩) x

theorem mem_append_space {a b : List Char} (ha : ∀ c ∈ a, isSpace c = true)
    (hb : ∀ c ∈ b, isSpace c = true) : ∀ c ∈ a ++ b, isSpace c = true := fun c hc =>
  (mem_append.1 hc).elim (ha c) (hb c)

/-- How the text of a container begins and ends. -/
theorem encode_lines {c c' : Char} (hc : c.toNat < 0xD800) (hc' : c'.toNat < 0xD800)
    (next current text : List Char) :
    encode (c :: '\n' :: (next ++ (text ++ '\n' :: (current ++ [c'])))) =
      unit c :: unit '\n' :: (encode next ++ (encode text ++
        unit '\n' :: (encode current ++ [unit c']))) := by
  rw [encode_unit hc, encode_unit (by decide), encode_append, encode_append,
    encode_unit (by decide), encode_append, encode_unit hc', encode_nil]

theorem scalars_lines (c c' : Char) (next current text : List Char) (y : List Item) :
    scalars (c :: '\n' :: (next ++ (text ++ '\n' :: (current ++ [c'])))) ++ y =
      .ok c :: (scalars ('\n' :: next) ++ (scalars text ++
        (scalars ('\n' :: current) ++ (.ok c' :: y)))) := by
  simp only [scalars_append, scalars_append_append]
  rfl

/-- The end of a line behind a comma, and the indent of the next one. -/
theorem encode_commaLine (text current rest : List Char) :
    encode (text ++ ',' :: '\n' :: (current ++ rest)) =
      encode text ++ unit ',' :: unit '\n' :: (encode current ++ encode rest) := by
  rw [encode_append, encode_unit (by decide), encode_unit (by decide), encode_append]

theorem scalars_commaLine (text current rest : List Char) (y : List Item) :
    scalars (text ++ ',' :: '\n' :: (current ++ rest)) ++ y =
      scalars text ++ (.ok ',' :: (scalars ('\n' :: current) ++ (scalars rest ++ y))) := by
  simp only [scalars_append, scalars_append_append]

theorem encode_colon (key rest : List Char) :
    encode (key ++ ':' :: ' ' :: rest) = encode key ++ unit ':' :: unit ' ' :: encode rest := by
  rw [encode_append, encode_unit (by decide), encode_unit (by decide)]

theorem scalars_colon (key rest : List Char) (y : List Item) :
    scalars (key ++ ':' :: ' ' :: rest) ++ y =
      scalars key ++ (.ok ':' :: (scalars [' '] ++ (scalars rest ++ y))) := by
  simp only [scalars_append, scalars_append_append]
  rfl

theorem ws_blank (x : List Item) : Ws (scalars [' '] ++ x) x :=
  ws_scalars (forall_mem_singleton.2 (by decide)) x

mutual

/-- The indented text. -/
theorem writes_pretty (v : JsonValue) (hv : Plain v) {gap current : List Char}
    (hgap : ∀ c ∈ gap, isSpace c = true) (hcurrent : ∀ c ∈ current, isSpace c = true) :
    ∃ text, pretty (encode gap) (encode current) v = encode text ∧
      ∀ y, Writes (tree v) (scalars text ++ y) y := by
  have hnext := mem_append_space hcurrent hgap
  match v with
  | .null => exact ⟨_, rfl, writes_stringify .null hv⟩
  | .bool b => exact ⟨_, rfl, writes_stringify (.bool b) hv⟩
  | .number bits => exact ⟨_, rfl, writes_stringify (.number bits) hv⟩
  | .string s => exact ⟨_, rfl, writes_stringify (.string s) hv⟩
  | .array [] => exact ⟨['[', ']'], rfl, writes_stringify (.array []) hv⟩
  | .array (v :: items) =>
    obtain ⟨text, htext, hwrites⟩ :=
      writes_prettyItems (v :: items) (cons_ne_nil _ _) hv hgap hnext
    refine ⟨'[' :: '\n' :: (current ++ gap ++ (text ++ '\n' :: (current ++ [']']))), ?_,
      fun y => ?_⟩
    · rw [encode_lines (by decide) (by decide), ← htext, encode_append]
      rfl
    · rw [scalars_lines]
      exact ⟨_, rfl, hwrites _ _ _ (ws_newline hnext _) (ws_newline hcurrent _)⟩
  | .object [] => exact ⟨['{', '}'], rfl, writes_stringify (.object []) hv⟩
  | .object (p :: fields) =>
    obtain ⟨text, htext, hwrites⟩ :=
      writes_prettyFields (p :: fields) (cons_ne_nil _ _) hv.2 hgap hnext
    refine ⟨'{' :: '\n' :: (current ++ gap ++ (text ++ '\n' :: (current ++ ['}']))), ?_,
      fun y => ?_⟩
    · rw [encode_lines (by decide) (by decide), ← htext, encode_append]
      rfl
    · rw [scalars_lines]
      exact ⟨_, rfl, hwrites _ _ _ (ws_newline hnext _) (ws_newline hcurrent _)⟩

theorem writes_prettyItems (items : List JsonValue) (hne : items ≠ []) (h : plainItems items)
    {gap current : List Char} (hgap : ∀ c ∈ gap, isSpace c = true)
    (hcurrent : ∀ c ∈ current, isSpace c = true) :
    ∃ text, prettyItems (encode gap) (encode current) items = encode text ∧
      ∀ x y z, Ws x (scalars text ++ y) → Ws y z → WritesItems (treeItems items) x z := by
  match items with
  | [v] =>
    obtain ⟨text, htext, hwrites⟩ := writes_pretty v h.1 hgap hcurrent
    exact ⟨text, htext, fun x y z hx hy => ⟨_, y, hx, hwrites y, hy⟩⟩
  | v :: w :: items =>
    obtain ⟨text, htext, hwrites⟩ := writes_pretty v h.1 hgap hcurrent
    obtain ⟨text', htext', hwrites'⟩ :=
      writes_prettyItems (w :: items) (cons_ne_nil _ _) h.2 hgap hcurrent
    refine ⟨text ++ ',' :: '\n' :: (current ++ text'), ?_, fun x y z hx hy => ?_⟩
    · rw [encode_commaLine, ← htext, ← htext']
      rfl
    · rw [scalars_commaLine] at hx
      exact writesItems_cons.2 ⟨_, _, hx, hwrites _, .inr ⟨cons_ne_nil _ _, _, ws_refl _,
        hwrites' _ _ _ (ws_newline hcurrent _) hy⟩⟩

theorem writes_prettyFields (fields : List (List UInt16 × JsonValue)) (hne : fields ≠ [])
    (h : plainFields fields) {gap current : List Char} (hgap : ∀ c ∈ gap, isSpace c = true)
    (hcurrent : ∀ c ∈ current, isSpace c = true) :
    ∃ text, prettyFields (encode gap) (encode current) fields = encode text ∧
      ∀ x y z, Ws x (scalars text ++ y) → Ws y z → WritesMembers (treeFields fields) x z := by
  match fields with
  | [(key, v)] =>
    obtain ⟨text, htext, hwrites⟩ := writes_pretty v h.1 hgap hcurrent
    refine ⟨quote key ++ ':' :: ' ' :: text, ?_, fun x y z hx hy => ?_⟩
    · rw [encode_colon, ← htext]
      rfl
    · rw [scalars_colon] at hx
      exact ⟨_, _, _, _, _, hx, writesString_quote key _, ws_refl _, ws_blank _, hwrites y, hy⟩
  | (key, v) :: w :: fields =>
    obtain ⟨text, htext, hwrites⟩ := writes_pretty v h.1 hgap hcurrent
    obtain ⟨text', htext', hwrites'⟩ :=
      writes_prettyFields (w :: fields) (cons_ne_nil _ _) h.2 hgap hcurrent
    refine ⟨quote key ++ ':' :: ' ' :: (text ++ ',' :: '\n' :: (current ++ text')), ?_,
      fun x y z hx hy => ?_⟩
    · rw [encode_colon, encode_commaLine, ← htext, ← htext']
      rfl
    · rw [scalars_colon, scalars_commaLine] at hx
      exact writesMembers_cons.2 ⟨_, _, _, _, _, hx, writesString_quote key _, ws_refl _,
        ws_blank _, hwrites _, .inr ⟨cons_ne_nil _ _, _, ws_refl _,
          hwrites' _ _ _ (ws_newline hcurrent _) hy⟩⟩

end

theorem decodeUtf16_encode (text : List Char) : decodeUtf16 (encode text) = scalars text := by
  induction text with
  | nil => rfl
  | cons c text ih =>
    rw [encode_cons, decodeUtf16_encodeUtf16, ih]
    rfl

/-- What `JSON.stringify` gives of a value, without white space or with an indent of it. -/
def Stringified (v : JsonValue) (text : List UInt16) : Prop :=
  serialize v = .ok text ∨ ∃ compact gap, serialize v = .ok compact ∧
    (∀ c ∈ gap, isSpace c = true) ∧ reindent compact (encode gap) = .ok text

theorem isText_of_writes {t : Tree} {text : List Char}
    (h : ∀ y, Writes t (scalars text ++ y) y) : IsText (decodeUtf16 (encode text)) t := by
  have hwrites := h []
  rw [append_nil] at hwrites
  rw [decodeUtf16_encode]
  exact ⟨_, [], ws_refl _, hwrites, ws_refl _⟩

/-- It is a text of the value's tree. -/
theorem Stringified.isText {v : JsonValue} {text : List UInt16} (h : Stringified v text)
    (hv : Plain v) : IsText (decodeUtf16 text) (tree v) := by
  rcases h with h | ⟨compact, gap, h, hgap, htext⟩
  · obtain ⟨-, rfl, -⟩ := JsonStringify.serialize_eq_ok.1 h
    exact isText_of_writes (writes_stringify v hv)
  · obtain ⟨-, rfl, -⟩ := JsonStringify.serialize_eq_ok.1 h
    obtain ⟨text', hpretty, hwrites⟩ := writes_pretty v hv hgap (forall_mem_nil _)
    rcases (JsonStringify.reindent_eq_pretty v (encode gap)).2 with heq | ⟨heq, -⟩
    · rw [htext, ← encode_nil, hpretty] at heq
      cases heq
      exact isText_of_writes hwrites
    · rw [htext] at heq
      cases heq

/-- What is stringified is parsed back, if the parser, which counts one level more, still takes it,
and if no run of characters is checked as too long. -/
theorem jsonParse_stringified_iff {v : JsonValue} {text : List UInt16} (hv : Plain v)
    (htext : Stringified v text) (hlength : text.length ≤ maxStringLen)
    (helements : elements (tree v) ≤ maxElements) (hproperties : PropertiesFit (tree v)) :
    jsonParse parseF64 text = .ok (withoutSigns v) ↔
      height v < maxJsonDepth ∧ StringsFit (tree v) := by
  have ht := htext.isText hv
  have hlevels := levels_tree v
  rw [jsonParse_eq_ok hlength]
  constructor
  · rintro ⟨t, ht', haccepted, -⟩
    obtain rfl := isText_unique ht ht'
    have hle := haccepted.levels
    exact ⟨by omega, haccepted.strings⟩
  · rintro ⟨hheight, hstrings⟩
    exact ⟨tree v, ht, ⟨by omega, helements, hstrings, membersFit_tree v hv hproperties⟩,
      (denote_tree v hv).symm⟩

theorem serialize_small : serialize (.array [.number 0, .string [0xD800]]) =
    .ok (encode (stringify (.array [.number 0, .string [0xD800]]))) :=
  JsonStringify.serialize_eq_ok.2 ⟨by decide, rfl, by decide⟩

theorem jsonParse_stringified_small :
    jsonParse parseF64 (encode (stringify (.array [.number 0, .string [0xD800]]))) =
        .ok (withoutSigns (.array [.number 0, .string [0xD800]])) ↔
      height (.array [.number 0, .string [0xD800]]) < maxJsonDepth ∧
        StringsFit (tree (.array [.number 0, .string [0xD800]])) :=
  jsonParse_stringified_iff ⟨(by decide : Binary64.isFinite 0 = true), trivial, trivial⟩
    (.inl serialize_small) (JsonStringify.serialize_eq_ok.1 serialize_small).2.2 (by decide)
    ⟨trivial, trivial, trivial⟩

/-- `null` in so many arrays. -/
def nested : Nat → JsonValue
  | 0 => .null
  | n + 1 => .array [nested n]

theorem height_nested (n : Nat) : height (nested n) = n := by
  induction n with
  | zero => rfl
  | succ n ih =>
    rw [nested, height, heightItems, heightItems, ih]
    exact Nat.max_eq_left (Nat.zero_le _)

theorem length_nested (n : Nat) : (encode (stringify (nested n))).length = 2 * n + 4 := by
  induction n with
  | zero => decide
  | succ n ih =>
    rw [nested, stringify, stringifyItems, encode_unit (by decide), encode_append,
      encode_unit (by decide), encode_nil, length_cons, length_append, ih,
      length_singleton]
    omega

/-- In the nested arrays, nothing is against a limit but the depth. -/
theorem nested_plain (n : Nat) : Plain (nested n) ∧ elements (tree (nested n)) = n ∧
    PropertiesFit (tree (nested n)) := by
  induction n with
  | zero => exact ⟨trivial, rfl, trivial⟩
  | succ n ih =>
    obtain ⟨hplain, helements, hproperties⟩ := ih
    refine ⟨⟨hplain, trivial⟩, ?_, hproperties, trivial⟩
    rw [nested, tree, treeItems, treeItems, elements, elementsItems, elementsItems, helements]

theorem serialize_nested : serialize (nested 512) = .ok (encode (stringify (nested 512))) :=
  JsonStringify.serialize_eq_ok.2 ⟨by rw [height_nested]; decide, rfl, by
    rw [length_nested]
    decide⟩

/-- Of 512 levels around a value, the serializer writes a text that the parser refuses. -/
theorem jsonParse_nested : ∃ text, Plain (nested 512) ∧ Stringified (nested 512) text ∧
    text.length ≤ maxStringLen ∧ elements (tree (nested 512)) ≤ maxElements ∧
    PropertiesFit (tree (nested 512)) ∧ ∀ v, jsonParse parseF64 text ≠ .ok v := by
  obtain ⟨hplain, helements, hproperties⟩ := nested_plain 512
  have hlength := (JsonStringify.serialize_eq_ok.1 serialize_nested).2.2
  have htext : Stringified (nested 512) (encode (stringify (nested 512))) := .inl serialize_nested
  refine ⟨_, hplain, htext, hlength, by rw [helements]; decide, hproperties, fun v hv => ?_⟩
  obtain ⟨t, ht, haccepted, -⟩ := (jsonParse_eq_ok hlength).1 hv
  obtain rfl := isText_unique (htext.isText hplain) ht
  have hle := haccepted.levels
  rw [levels_tree, height_nested] at hle
  exact absurd hle (by decide)

end NapiVm.JsonRoundTrip
