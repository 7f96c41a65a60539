import NapiVm.Text.JsString
import NapiVm.Text.NumberText

/-!
# JSON texts

`JSON.stringify` and `JSON.parse` of a script, for values that are data only.

* `JsonValue` — what a text is parsed to.
* `JsonValue.setOwn` — a property of an object, in the order of own keys.
* `parse_stringify` — a value is read back from its text.
-/

namespace NapiVm.JsonText

open JsString NumberText List

/-! ## Values -/

/-- `JsonValue`, of numbers by their bits and strings by their units. -/
inductive JsonValue where
  | null
  | bool (b : Bool)
  | number (bits : UInt64)
  | string (units : List UInt16)
  | array (items : List JsonValue)
  | object (fields : List (List UInt16 × JsonValue))

/-- The number that a key is the decimal text of, without leading zeros. -/
def canonicalIndex (key : List UInt16) : Option Nat :=
  let digits := key.map fun u => Char.ofNat u.toNat
  if digits ≠ [] ∧ digits.all Char.isDigit ∧ (digits.head? = some '0' → digits.length = 1) then
    some (Nat.ofDigitChars 10 digits 0)
  else none

/-- The array index that a key denotes. -/
def arrayKey (key : List UInt16) : Option Nat := (canonicalIndex key).filter (· < 2 ^ 32 - 1)

/-- Of two own keys, whether the first has to come first: indices in their order, and before all
other keys. -/
def keyBefore (a b : List UInt16) : Bool :=
  match arrayKey a, arrayKey b with
  | some i, some j => i < j
  | some _, none => true
  | none, _ => false

/-- A new own property goes behind those that it does not have to come before. -/
def insertKey {α : Type} (key : List UInt16) (value : α) :
    List (List UInt16 × α) → List (List UInt16 × α)
  | [] => [(key, value)]
  | field :: rest =>
    if keyBefore key field.1 then (key, value) :: field :: rest
    else field :: insertKey key value rest

/-- `object[key] = value`. -/
def setOwn {α : Type} (fields : List (List UInt16 × α)) (key : List UInt16) (value : α) :
    List (List UInt16 × α) :=
  if fields.any fun field => field.1 = key then
    fields.map fun field => if field.1 = key then (key, value) else field
  else insertKey key value fields

/-- The own properties of an object, in their order. -/
def KeyOrdered {α : Type} (fields : List (List UInt16 × α)) : Prop :=
  (fields.map Prod.fst).Pairwise fun a b => a ≠ b ∧ keyBefore b a = false

theorem setOwn_last {α : Type} {fields : List (List UInt16 × α)} {key : List UInt16} {value : α}
    (h : KeyOrdered (fields ++ [(key, value)])) : setOwn fields key value = fields ++ [(key, value)] := by
  have hlast : ∀ field ∈ fields, field.1 ≠ key ∧ keyBefore key field.1 = false := by
    rw [KeyOrdered, map_append] at h
    exact fun field hfield => (pairwise_append.1 h).2.2 _ (mem_map_of_mem hfield) key
      mem_cons_self
  have hnew : ¬ (fields.any fun field => field.1 = key) = true := by
    rw [any_eq_true]
    rintro ⟨field, hfield, heq⟩
    exact (hlast field hfield).1 (of_decide_eq_true heq)
  rw [setOwn, if_neg hnew]
  clear h hnew
  induction fields with
  | nil => rfl
  | cons field rest ih =>
    obtain ⟨hfirst, hrest⟩ := forall_mem_cons.1 hlast
    rw [insertKey, if_neg (by rw [hfirst.2]; exact Bool.false_ne_true), ih hrest]
    rfl

/-! ## Strings -/

/-- A lowercase hexadecimal digit. -/
def hexLower (n : Nat) : Char := Char.ofNat (if n < 10 then 48 + n else 87 + n)

/-- `\u` with four digits. -/
def unicodeEscape (u : UInt16) : List Char :=
  ['\\', 'u', hexLower (u.toNat / 4096), hexLower (u.toNat / 256 % 16),
    hexLower (u.toNat / 16 % 16), hexLower (u.toNat % 16)]

/-- `QuoteJSONString`, of one code point. -/
def quoteChar : Except UInt16 Char → List Char
  | .error u => unicodeEscape u
  | .ok c =>
    if c = '"' then ['\\', '"']
    else if c = '\\' then ['\\', '\\']
    else if c.toNat = 8 then ['\\', 'b']
    else if c.toNat = 9 then ['\\', 't']
    else if c.toNat = 10 then ['\\', 'n']
    else if c.toNat = 12 then ['\\', 'f']
    else if c.toNat = 13 then ['\\', 'r']
    else if c.toNat < 32 then unicodeEscape (UInt16.ofNat c.toNat)
    else [c]

/-- A string behind its first quote. -/
def quoteRest (units : List UInt16) : List Char := (decodeUtf16 units).flatMap quoteChar ++ ['"']

def quote (units : List UInt16) : List Char := '"' :: quoteRest units

/-- The unit of an escape with one letter. -/
def simpleEscape (c : Char) : Option UInt16 :=
  if c = '"' ∨ c = '\\' ∨ c = '/' then some (UInt16.ofNat c.toNat)
  else if c = 'b' then some 8
  else if c = 't' then some 9
  else if c = 'n' then some 10
  else if c = 'f' then some 12
  else if c = 'r' then some 13
  else none

/-- The units up to the quote, and what follows it. -/
def parseChars : List Char → Option (List UInt16 × List Char)
  | [] => none
  | '"' :: rest => some ([], rest)
  | '\\' :: 'u' :: a :: b :: c :: d :: rest =>
    (hexDigits 0 [a, b, c, d]).bind fun n =>
      (parseChars rest).map fun p => (UInt16.ofNat n :: p.1, p.2)
  | '\\' :: c :: rest =>
    (simpleEscape c).bind fun u => (parseChars rest).map fun p => (u :: p.1, p.2)
  | c :: rest =>
    if c.toNat < 32 then none
    else (parseChars rest).map fun p => (encodeUtf16 c ++ p.1, p.2)

theorem hexValue_hexLower {n : Nat} (h : n < 16) : hexValue (hexLower n) = some n := by
  have hall : ∀ m : Fin 16, hexValue (hexLower m) = some m.val := by decide
  exact hall ⟨n, h⟩

theorem parseChars_unicode (u : UInt16) (rest : List Char) :
    parseChars (unicodeEscape u ++ rest) = (parseChars rest).map fun p => (u :: p.1, p.2) := by
  have hu : u.toNat < 65536 := u.toNat_lt
  have hsum : (((0 * 16 + u.toNat / 4096) * 16 + u.toNat / 256 % 16) * 16 + u.toNat / 16 % 16) *
      16 + u.toNat % 16 = u.toNat := by omega
  have hdigits : hexDigits 0 [hexLower (u.toNat / 4096), hexLower (u.toNat / 256 % 16),
      hexLower (u.toNat / 16 % 16), hexLower (u.toNat % 16)] = some u.toNat := by
    simp only [hexDigits, hexValue_hexLower (show u.toNat / 4096 < 16 by omega),
      hexValue_hexLower (show u.toNat / 256 % 16 < 16 by omega),
      hexValue_hexLower (show u.toNat / 16 % 16 < 16 by omega),
      hexValue_hexLower (show u.toNat % 16 < 16 by omega), Option.bind_some, hsum]
  simp only [unicodeEscape, cons_append, nil_append, parseChars, hdigits,
    Option.bind_some, UInt16.ofNat_toNat]

theorem parseChars_plain {c : Char} (hquote : c ≠ '"') (hslash : c ≠ '\\') (h : ¬ c.toNat < 32)
    (rest : List Char) :
    parseChars (c :: rest) = (parseChars rest).map fun p => (encodeUtf16 c ++ p.1, p.2) := by
  rw [parseChars, if_neg h]
  · exact hquote
  · rintro _ _ _ _ _ rfl
    exact absurd rfl hslash
  · rintro _ _ rfl
    exact absurd rfl hslash

/-- A character is read back from how it is quoted. -/
theorem parseChars_quoteChar (c : Char) (rest : List Char) :
    parseChars (quoteChar (.ok c) ++ rest) =
      (parseChars rest).map fun p => (encodeUtf16 c ++ p.1, p.2) := by
  have hcode : ∀ {d : Char}, c.toNat = d.toNat → c = d := fun h => Char.toNat_inj.1 h
  rw [quoteChar]
  split
  next h =>
    subst h
    rfl
  next hquote =>
  split
  next h =>
    subst h
    rfl
  next hslash =>
  split
  next h =>
    obtain rfl := hcode (d := '\x08') h
    rfl
  split
  next h =>
    obtain rfl := hcode (d := '\t') h
    rfl
  split
  next h =>
    obtain rfl := hcode (d := '\n') h
    rfl
  split
  next h =>
    obtain rfl := hcode (d := '\x0c') h
    rfl
  split
  next h =>
    obtain rfl := hcode (d := '\r') h
    rfl
  split
  next h =>
    rw [parseChars_unicode, encodeUtf16, if_pos (by omega)]
    rfl
  next h => exact parseChars_plain hquote hslash h rest

theorem parseChars_quoteRest (units : List UInt16) (rest : List Char) :
    parseChars (quoteRest units ++ rest) = some (units, rest) := by
  rw [quoteRest, append_assoc]
  induction units using decodeUtf16.induct with
  | case1 => rfl
  | case2 u h =>
    rw [decodeUtf16, if_pos h, flatMap_cons, flatMap_nil, append_nil, quoteChar, parseChars_unicode]
    rfl
  | case3 u h =>
    simp only [Bool.or_eq_true, not_or, Bool.not_eq_true] at h
    rw [decodeUtf16, if_neg (by simp [h]), flatMap_cons, flatMap_nil, append_nil,
      parseChars_quoteChar, encodeUtf16_unit h.1 h.2]
    rfl
  | case4 u l r hh hl ih =>
    rw [decodeUtf16, if_pos hh, if_pos hl, flatMap_cons, append_assoc,
      parseChars_quoteChar, ih, encodeUtf16_pair hh hl]
    rfl
  | case5 u l r hh hl ih =>
    rw [decodeUtf16, if_pos hh, if_neg hl, flatMap_cons, append_assoc, quoteChar,
      parseChars_unicode, ih]
    rfl
  | case6 u l r hh hl ih =>
    rw [decodeUtf16, if_neg hh, if_pos hl, flatMap_cons, append_assoc, quoteChar,
      parseChars_unicode, ih]
    rfl
  | case7 u l r hh hl ih =>
    rw [decodeUtf16, if_neg hh, if_neg hl, flatMap_cons, append_assoc,
      parseChars_quoteChar, ih, encodeUtf16_unit (by simpa using hh) (by simpa using hl)]
    rfl

/-! ## `JSON.stringify` -/

mutual

/-- `JSON.stringify`. -/
def stringify : JsonValue → List Char
  | .null => ['n', 'u', 'l', 'l']
  | .bool true => ['t', 'r', 'u', 'e']
  | .bool false => ['f', 'a', 'l', 's', 'e']
  | .number bits => if Binary64.isFinite bits then numberText bits else ['n', 'u', 'l', 'l']
  | .string units => quote units
  | .array items => '[' :: (stringifyItems items ++ [']'])
  | .object fields => '{' :: (stringifyFields fields ++ ['}'])

/-- The items of an array, with commas between them. -/
def stringifyItems : List JsonValue → List Char
  | [] => []
  | [item] => stringify item
  | item :: rest => stringify item ++ ',' :: stringifyItems rest

/-- The properties of an object, with commas between them. -/
def stringifyFields : List (List UInt16 × JsonValue) → List Char
  | [] => []
  | [(key, value)] => quote key ++ ':' :: stringify value
  | (key, value) :: rest => quote key ++ ':' :: (stringify value ++ ',' :: stringifyFields rest)

end

/-! ## `JSON.parse` -/

def isSpace (c : Char) : Bool := c = ' ' || c = '\t' || c = '\n' || c = '\r'

def skipSpace (l : List Char) : List Char := l.dropWhile isSpace

def isNumberChar (c : Char) : Bool :=
  c.isDigit || c = '-' || c = '+' || c = '.' || c = 'e' || c = 'E'

/-- A word, or a number. -/
def parseWord : List Char → Option (JsonValue × List Char)
  | 'n' :: 'u' :: 'l' :: 'l' :: rest => some (.null, rest)
  | 't' :: 'r' :: 'u' :: 'e' :: rest => some (.bool true, rest)
  | 'f' :: 'a' :: 'l' :: 's' :: 'e' :: rest => some (.bool false, rest)
  | l => (numberValue (l.takeWhile isNumberChar)).map fun bits =>
    (.number bits, l.dropWhile isNumberChar)

mutual

/-- A value and what follows it, with a bound on the steps. -/
def parseValue : Nat → List Char → Option (JsonValue × List Char)
  | 0, _ => none
  | n + 1, l =>
    match skipSpace l with
    | '"' :: rest => (parseChars rest).map fun p => (.string p.1, p.2)
    | '[' :: rest =>
      if (skipSpace rest).head? = some ']' then some (.array [], (skipSpace rest).tail)
      else (parseItems n rest).map fun p => (.array p.1, p.2)
    | '{' :: rest =>
      if (skipSpace rest).head? = some '}' then some (.object [], (skipSpace rest).tail)
      else (parseFields n [] rest).map fun p => (.object p.1, p.2)
    | rest => parseWord rest

/-- The items of an array, up to its end. -/
def parseItems : Nat → List Char → Option (List JsonValue × List Char)
  | 0, _ => none
  | n + 1, l =>
    (parseValue n l).bind fun p =>
      match skipSpace p.2 with
      | ']' :: rest => some ([p.1], rest)
      | ',' :: rest => (parseItems n rest).map fun q => (p.1 :: q.1, q.2)
      | _ => none

/-- The properties of an object that has some, up to its end. -/
def parseFields : Nat → List (List UInt16 × JsonValue) → List Char →
    Option (List (List UInt16 × JsonValue) × List Char)
  | 0, _, _ => none
  | n + 1, fields, l =>
    match skipSpace l with
    | '"' :: rest =>
      (parseChars rest).bind fun key =>
        match skipSpace key.2 with
        | ':' :: rest =>
          (parseValue n rest).bind fun p =>
            match skipSpace p.2 with
            | '}' :: rest => some (setOwn fields key.1 p.1, rest)
            | ',' :: rest => parseFields n (setOwn fields key.1 p.1) rest
            | _ => none
        | _ => none
    | _ => none

end

/-- `JSON.parse`; there are at most two steps for each character. -/
def parse (text : List Char) : Option JsonValue :=
  match parseValue (2 * text.length + 2) text with
  | some (value, rest) => if skipSpace rest = [] then some value else none
  | none => none

/-! ## There and back -/

/-- Data of so many levels: numbers are finite, and no zero has a sign. -/
def Data (valid : List UInt16 → Prop) : Nat → JsonValue → Prop
  | 0, _ => False
  | _ + 1, .number bits => Binary64.isFinite bits = true ∧ bits ≠ 0x8000000000000000
  | _ + 1, .string units => valid units
  | n + 1, .array items => ∀ item ∈ items, Data valid n item
  | n + 1, .object fields =>
    KeyOrdered fields ∧ ∀ field ∈ fields, valid field.1 ∧ Data valid n field.2
  | _ + 1, _ => True

theorem isNumberChar_of_isDigit {c : Char} (h : c.isDigit = true) : isNumberChar c = true := by
  simp [isNumberChar, h]

theorem numberChars_layout {digits : List Char} (h : ∀ c ∈ digits, c.isDigit = true) (n : Int) :
    ∀ c ∈ layout digits n, isNumberChar c = true := by
  have hdigits := fun c hc => isNumberChar_of_isDigit (h c hc)
  have hmantissa : ∀ c ∈ mantissa digits, isNumberChar c = true := by
    intro c hc
    cases digits with
    | nil => cases hc
    | cons d digits =>
      cases digits with
      | nil => exact hdigits c hc
      | cons e digits =>
        simp only [mantissa, mem_cons] at hc
        rcases hc with rfl | rfl | hc
        · exact hdigits _ mem_cons_self
        · rfl
        · exact hdigits c (mem_cons_of_mem d (mem_cons.2 hc))
  intro c hc
  unfold layout at hc
  split at hc
  · rcases mem_append.1 hc with hc | hc
    · exact hdigits c hc
    · rw [eq_of_mem_replicate hc]
      rfl
  split at hc
  · rcases mem_append.1 hc with hc | hc
    · exact hdigits c (mem_of_mem_take hc)
    · rcases mem_cons.1 hc with rfl | hc
      · rfl
      · exact hdigits c (mem_of_mem_drop hc)
  split at hc
  · simp only [mem_cons, mem_append] at hc
    rcases hc with rfl | rfl | hc | hc
    · rfl
    · rfl
    · rw [eq_of_mem_replicate hc]
      rfl
    · exact hdigits c hc
  · simp only [mem_cons, mem_append] at hc
    rcases hc with hc | rfl | rfl | hc
    · exact hmantissa c hc
    · rfl
    · split <;> rfl
    · exact isNumberChar_of_isDigit (digits_toDigits c hc)

theorem numberChars_numberText (bits : UInt64) : ∀ c ∈ numberText bits, isNumberChar c = true := by
  intro c hc
  unfold numberText at hc
  split at hc
  · rw [mem_singleton.1 hc]
    rfl
  · rcases mem_append.1 hc with hc | hc
    · unfold minus at hc
      split at hc
      · rw [mem_singleton.1 hc]
        rfl
      · cases hc
    · exact numberChars_layout digits_toDigits _ c hc

theorem numberText_ne_nil (bits : UInt64) : numberText bits ≠ [] := by
  unfold numberText
  split
  · exact cons_ne_nil _ _
  · obtain ⟨c, hc, -⟩ := head_layout digits_toDigits Nat.toDigits_ne_nil
      ((Nat.toDigits 10 (Binary64.shortest (bits.toNat % 2 ^ 63)).1).length +
        (Binary64.shortest (bits.toNat % 2 ^ 63)).2)
    intro hnil
    rw [(append_eq_nil_iff.1 hnil).2] at hc
    cases hc

/-- How a text begins: not with a space, and with nothing that ends an array. -/
structure Begins (l : List Char) : Prop where
  first : ∃ c rest, l = c :: rest ∧ isSpace c = false ∧ c ≠ ']'

theorem begins_numberChars {l : List Char} (hne : l ≠ []) (h : ∀ c ∈ l, isNumberChar c = true) :
    Begins l := by
  obtain ⟨c, rest, rfl⟩ := exists_cons_of_ne_nil hne
  have hc := h c mem_cons_self
  refine ⟨c, rest, rfl, ?_, ?_⟩
  · rw [Bool.eq_false_iff]
    intro hspace
    simp only [isSpace, Bool.or_eq_true, decide_eq_true_eq] at hspace
    rcases hspace with ((rfl | rfl) | rfl) | rfl <;> cases hc
  · rintro rfl
    cases hc

theorem begins_stringify (v : JsonValue) : Begins (stringify v) := by
  cases v with
  | null | string units | array items | object fields => exact ⟨_, _, rfl, rfl, by decide⟩
  | bool b => cases b <;> exact ⟨_, _, rfl, rfl, by decide⟩
  | number bits =>
    rw [stringify]
    split
    · exact begins_numberChars (numberText_ne_nil bits) (numberChars_numberText bits)
    · exact ⟨_, _, rfl, rfl, by decide⟩

theorem Begins.skipSpace {l : List Char} (h : Begins l) (rest : List Char) :
    skipSpace (l ++ rest) = l ++ rest := by
  obtain ⟨c, l, rfl, hc, -⟩ := h.first
  rw [JsonText.skipSpace, cons_append, dropWhile_cons_of_neg (by simp [hc])]

/-- What may follow a value. -/
def Ends (rest : List Char) : Prop := ∀ c, rest.head? = some c → isNumberChar c = false

theorem parseWord_number {bits : UInt64} (hfinite : Binary64.isFinite bits = true)
    (hzero : bits ≠ 0x8000000000000000) {rest : List Char} (hrest : Ends rest) :
    parseWord (numberText bits ++ rest) = some (.number bits, rest) := by
  have hchars := numberChars_numberText bits
  obtain ⟨htake, hdrop⟩ := takeWhile_exact hchars hrest
  obtain ⟨c, text, htext⟩ := exists_cons_of_ne_nil (numberText_ne_nil bits)
  have hc : isNumberChar c = true := hchars c (htext ▸ mem_cons_self)
  have hback := numberValue_numberText hfinite hzero
  unfold parseWord
  split
  next h =>
    rw [htext] at h
    rw [(cons.inj h).1] at hc
    cases hc
  next h =>
    rw [htext] at h
    rw [(cons.inj h).1] at hc
    cases hc
  next h =>
    rw [htext] at h
    rw [(cons.inj h).1] at hc
    cases hc
  next => rw [htake, hdrop, hback, Option.map_some]

theorem skipSpace_cons {c : Char} (h : isSpace c = false) (rest : List Char) :
    skipSpace (c :: rest) = c :: rest := dropWhile_cons_of_neg (by simp [h])

theorem ends_cons {c : Char} (h : isNumberChar c = false) (rest : List Char) : Ends (c :: rest) := by
  rintro d ⟨⟩
  exact h

theorem stringifyItems_cons (a b : JsonValue) (rest : List JsonValue) :
    stringifyItems (a :: b :: rest) = stringify a ++ ',' :: stringifyItems (b :: rest) := by
  rw [stringifyItems]
  exact cons_ne_nil b rest

theorem stringifyFields_cons (key : List UInt16) (a : JsonValue) (b : List UInt16 × JsonValue)
    (rest : List (List UInt16 × JsonValue)) :
    stringifyFields ((key, a) :: b :: rest) =
      quote key ++ ':' :: (stringify a ++ ',' :: stringifyFields (b :: rest)) := by
  rw [stringifyFields]
  exact cons_ne_nil b rest

section RoundTrip

variable {valid : List UInt16 → Prop} {n : Nat}

/-- Every value of a level is read back. -/
def ReadBack (valid : List UInt16 → Prop) (n : Nat) : Prop :=
  ∀ v, Data valid n v → ∀ fuel rest, 2 * (stringify v).length ≤ fuel → Ends rest →
    parseValue fuel (stringify v ++ rest) = some (v, rest)

theorem stringify_length_pos (v : JsonValue) : 0 < (stringify v).length := by
  obtain ⟨c, l, h, -⟩ := (begins_stringify v).first
  rw [h]
  exact Nat.succ_pos _

variable {fuel : Nat}

variable {items : List JsonValue} {fields : List (List UInt16 × JsonValue)}

theorem parseItems_stringify (hback : ReadBack valid n) (hne : items ≠ [])
    (h : ∀ item ∈ items, Data valid n item) (rest : List Char)
    (hfuel : 2 * (stringifyItems items).length + 1 ≤ fuel) :
    parseItems fuel (stringifyItems items ++ ']' :: rest) = some (items, rest) := by
  induction items generalizing fuel with
  | nil => exact absurd rfl hne
  | cons item items ih =>
    obtain ⟨fuel, rfl⟩ := Nat.exists_eq_succ_of_ne_zero (show fuel ≠ 0 by omega)
    obtain ⟨hitem, hitems⟩ := forall_mem_cons.1 h
    cases items with
    | nil =>
      rw [stringifyItems] at hfuel ⊢
      rw [parseItems, hback item hitem fuel _ (by omega) (ends_cons rfl rest)]
      rfl
    | cons next items =>
      rw [stringifyItems_cons, length_append, length_cons] at hfuel
      have hrest := ih (cons_ne_nil next items) hitems (show
        2 * (stringifyItems (next :: items)).length + 1 ≤ fuel by omega)
      rw [stringifyItems_cons, append_assoc, cons_append, parseItems,
        hback item hitem fuel _ (by omega) (ends_cons rfl _), Option.bind_some,
        skipSpace_cons rfl]
      exact congrArg (Option.map fun q => (item :: q.1, q.2)) hrest

theorem parseFields_stringify (hback : ReadBack valid n) (hne : fields ≠ [])
    (h : ∀ field ∈ fields, Data valid n field.2) (done : List (List UInt16 × JsonValue))
    (hordered : KeyOrdered (done ++ fields)) (rest : List Char)
    (hfuel : 2 * (stringifyFields fields).length + 1 ≤ fuel) :
    parseFields fuel done (stringifyFields fields ++ '}' :: rest) = some (done ++ fields, rest) := by
  induction fields generalizing fuel done with
  | nil => exact absurd rfl hne
  | cons field fields ih =>
    obtain ⟨key, value⟩ := field
    obtain ⟨fuel, rfl⟩ := Nat.exists_eq_succ_of_ne_zero (show fuel ≠ 0 by omega)
    obtain ⟨hvalue, hfields⟩ := forall_mem_cons.1 h
    have hlast : setOwn done key value = done ++ [(key, value)] := by
      refine setOwn_last (hordered.sublist (List.Sublist.map _ ?_))
      exact (singleton_sublist.2 mem_cons_self).append_left done
    cases fields with
    | nil =>
      rw [stringifyFields, length_append, length_cons] at hfuel
      have hv := hback value hvalue fuel ('}' :: rest) (by omega) (ends_cons rfl rest)
      simp (disch := decide) only [stringifyFields, append_assoc, cons_append, quote,
        parseFields, skipSpace_cons, parseChars_quoteRest, Option.bind_some, hv, hlast]
    | cons next fields =>
      rw [stringifyFields_cons, length_append, length_cons, length_append, length_cons] at hfuel
      have hrest := ih (cons_ne_nil next fields) hfields (done ++ [(key, value)])
        (by rwa [append_assoc]) (show
          2 * (stringifyFields (next :: fields)).length + 1 ≤ fuel by omega)
      rw [append_assoc] at hrest
      have hv := hback value hvalue fuel
        (',' :: (stringifyFields (next :: fields) ++ '}' :: rest)) (by omega) (ends_cons rfl _)
      simp (disch := decide) only [stringifyFields_cons, append_assoc, cons_append, quote,
        parseFields, skipSpace_cons, parseChars_quoteRest, Option.bind_some, hv, hlast]
      exact hrest

theorem begins_items (item : JsonValue) (items : List JsonValue) :
    Begins (stringifyItems (item :: items)) := by
  obtain ⟨c, l, hl, hc⟩ := (begins_stringify item).first
  cases items with
  | nil => exact ⟨c, l, hl, hc⟩
  | cons next items =>
    rw [stringifyItems_cons, hl]
    exact ⟨c, l ++ ',' :: stringifyItems (next :: items), rfl, hc⟩

theorem fields_begin (field : List UInt16 × JsonValue) (fields : List (List UInt16 × JsonValue)) :
    ∃ l, stringifyFields (field :: fields) = '"' :: l := by
  obtain ⟨key, value⟩ := field
  cases fields with
  | nil => exact ⟨_, rfl⟩
  | cons next fields =>
    rw [stringifyFields_cons]
    exact ⟨_, rfl⟩

theorem parseValue_number {bits : UInt64} (h : Data valid (n + 1) (.number bits))
    {rest : List Char} (hrest : Ends rest) :
    parseValue (fuel + 1) (stringify (.number bits) ++ rest) = some (.number bits, rest) := by
  rw [parseValue, (begins_stringify _).skipSpace, stringify, if_pos h.1]
  obtain ⟨c, text, htext⟩ := exists_cons_of_ne_nil (numberText_ne_nil bits)
  have hc : isNumberChar c = true := numberChars_numberText bits c (htext ▸ mem_cons_self)
  have hword := parseWord_number h.1 h.2 hrest
  rw [htext] at hword ⊢
  split
  next heq =>
    rw [(cons.inj heq).1] at hc
    cases hc
  next heq =>
    rw [(cons.inj heq).1] at hc
    cases hc
  next heq =>
    rw [(cons.inj heq).1] at hc
    cases hc
  next => exact hword

theorem parseValue_array (hback : ReadBack valid n) (h : Data valid (n + 1) (.array items))
    (rest : List Char) (hfuel : 2 * (stringify (.array items)).length ≤ fuel + 1) :
    parseValue (fuel + 1) (stringify (.array items) ++ rest) = some (.array items, rest) := by
  rw [stringify, length_cons, length_append] at hfuel
  cases items with
  | nil => rfl
  | cons item items =>
    have hitems := parseItems_stringify hback (cons_ne_nil item items) h rest
      (show 2 * (stringifyItems (item :: items)).length + 1 ≤ fuel by omega)
    have hbegins := begins_items item items
    have hhead : ¬ (stringifyItems (item :: items) ++ ']' :: rest).head? = some ']' := by
      obtain ⟨c, l, hl, -, hc⟩ := hbegins.first
      rw [hl]
      exact fun heq => hc (Option.some.inj heq)
    simp (disch := decide) only [parseValue, stringify, cons_append, append_assoc,
      nil_append, skipSpace_cons, hbegins.skipSpace, if_neg hhead, hitems, Option.map_some]

theorem parseValue_object (hback : ReadBack valid n) (h : Data valid (n + 1) (.object fields))
    (rest : List Char) (hfuel : 2 * (stringify (.object fields)).length ≤ fuel + 1) :
    parseValue (fuel + 1) (stringify (.object fields) ++ rest) = some (.object fields, rest) := by
  rw [stringify, length_cons, length_append] at hfuel
  cases fields with
  | nil => rfl
  | cons field fields =>
    have hfields := parseFields_stringify hback (cons_ne_nil field fields)
      (fun field hfield => (h.2 field hfield).2) [] h.1 rest
      (show 2 * (stringifyFields (field :: fields)).length + 1 ≤ fuel by omega)
    obtain ⟨l, hl⟩ := fields_begin field fields
    rw [hl, cons_append] at hfields
    have hhead : ¬ ('"' :: (l ++ '}' :: rest)).head? = some '}' := nofun
    simp (disch := decide) only [parseValue, stringify, cons_append, append_assoc,
      nil_append, hl, skipSpace_cons, if_neg hhead, hfields, Option.map_some]

theorem parseValue_stringify (valid : List UInt16 → Prop) (n : Nat) : ReadBack valid n := by
  induction n with
  | zero => exact fun v h => h.elim
  | succ n ih =>
    intro v h fuel rest hfuel hrest
    have hpos := stringify_length_pos v
    obtain ⟨fuel, rfl⟩ := Nat.exists_eq_succ_of_ne_zero (show fuel ≠ 0 by omega)
    cases v with
    | null => rfl
    | bool b => cases b <;> rfl
    | number bits => exact parseValue_number h hrest
    | string units =>
      simp (disch := decide) only [parseValue, stringify, quote, cons_append, skipSpace_cons,
        parseChars_quoteRest, Option.map_some]
    | array items => exact parseValue_array ih h rest hfuel
    | object fields => exact parseValue_object ih h rest hfuel

end RoundTrip

/-- A value is read back from its text. -/
theorem parse_stringify {valid : List UInt16 → Prop} {n : Nat} {v : JsonValue}
    (h : Data valid n v) : parse (stringify v) = some v := by
  have hback := parseValue_stringify valid n v h (2 * (stringify v).length + 2) [] (by omega)
    (by rintro c ⟨⟩)
  rw [append_nil] at hback
  rw [parse, hback]
  rfl

end NapiVm.JsonText
