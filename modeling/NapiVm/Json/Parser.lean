import NapiVm.Json.Grammar
import NapiVm.Json.Serialize
import NapiVm.Text.Str

/-!
# The parser

`JSON.parse` without a reviver.  The text is rewritten first: an unpaired surrogate becomes an
escape.  Then it is parsed by recursive descent.

* `jsonParse` — the code.
* `number_sound`, `number_complete` — the scan takes the numbers of the grammar.
* `string_sound`, `string_complete` — the literals of the grammar are read, and a backslash before
  an unpaired surrogate with them.
-/

namespace NapiVm.JsonParser

open JsString JsonText JsonGrammar List
open JsonStringify (maxStringLen maxJsonDepth JsonError encode encode_append encode_nil encode_unit)

/-- `MAX_OBJECT_PROPS`. -/
def maxObjectProps : Nat := 262144

/-- What `remaining_elements` begins with. -/
def maxElements : Nat := 4 * 1024 * 1024

/-! ## Strings and numbers -/

/-- `push_str` of a run of characters; there is no call for an empty one. -/
def pushStr (out : List UInt16) (run : List Char) : Except JsonError (List UInt16) :=
  if run = [] then .ok out
  else if maxStringLen < out.length + Str.len run then .error .stringLimit
  else .ok (out ++ encode run)

/-- `push_char` of a character of one unit. -/
def pushChar (out : List UInt16) (u : UInt16) : Except JsonError (List UInt16) :=
  if maxStringLen < out.length + 1 then .error .stringLimit else .ok (out ++ [u])

/-- `string`, behind the quote.  `run` is what the fast path has passed and not yet pushed. -/
def string : List Char → List UInt16 → List Char → Except JsonError (List UInt16 × List Char)
  | [], out, run => (pushStr out run).bind fun _ => .error .invalidJson
  | '"' :: rest, out, run => (pushStr out run).map fun out => (out, rest)
  | ['\\'], out, run => (pushStr out run).bind fun _ => .error .invalidJson
  | '\\' :: 'u' :: a :: b :: c :: d :: rest, out, run =>
    (pushStr out run).bind fun out =>
      match hexDigits 0 [a, b, c, d] with
      | some n => string rest (out ++ [UInt16.ofNat n]) []
      | none => .error .invalidJson
  | '\\' :: c :: rest, out, run =>
    (pushStr out run).bind fun out =>
      match simpleEscape c with
      | some u => (pushChar out u).bind fun out => string rest out []
      | none => .error .invalidJson
  | c :: rest, out, run =>
    if c.toNat < 32 then .error .invalidJson else string rest out (run ++ [c])

attribute [grind =] string



def takeSign : List Char → List Char × List Char
  | '-' :: rest => (['-'], rest)
  | l => ([], l)

/-- One digit or more. -/
def takeDigits (l : List Char) : Option (List Char × List Char) :=
  if l.takeWhile Char.isDigit = [] then none
  else some (l.takeWhile Char.isDigit, l.dropWhile Char.isDigit)

def takeInt : List Char → Option (List Char × List Char)
  | '0' :: rest => some (['0'], rest)
  | l => takeDigits l

def takeFraction : List Char → Option (List Char × List Char)
  | '.' :: rest => (takeDigits rest).map fun part => ('.' :: part.1, part.2)
  | l => some ([], l)

def takeExponentSign : List Char → List Char × List Char
  | '+' :: rest => (['+'], rest)
  | '-' :: rest => (['-'], rest)
  | l => ([], l)

def takeExponent : List Char → Option (List Char × List Char)
  | [] => some ([], [])
  | c :: rest =>
    if c = 'e' ∨ c = 'E' then
      (takeDigits (takeExponentSign rest).2).map fun part =>
        (c :: ((takeExponentSign rest).1 ++ part.1), part.2)
    else some ([], c :: rest)

/-- The scan of `number`: a number, and what follows it. -/
def number (l : List Char) : Option (List Char × List Char) :=
  (takeInt (takeSign l).2).bind fun int =>
    (takeFraction int.2).bind fun fraction =>
      (takeExponent fraction.2).map fun exponent =>
        ((takeSign l).1 ++ (int.1 ++ (fraction.1 ++ exponent.1)), exponent.2)

/-! ## Values -/

/-- A property with its first place and its last value. -/
def put (key : List UInt16) (value : JsonValue) :
    List (List UInt16 × JsonValue) → List (List UInt16 × JsonValue)
  | [] => [(key, value)]
  | p :: props => if p.1 = key then (key, value) :: props else p :: put key value props

/-- `literal`. -/
def literal (word : List Char) (value : JsonValue) (remaining : Nat) (l : List Char) :
    Except JsonError (JsonValue × Nat × List Char) :=
  if word.isPrefixOf l then .ok (value, remaining, l.drop word.length) else .error .invalidJson

/-- `Value::checked_object`. -/
def checkedObject (props : List (List UInt16 × JsonValue)) (remaining : Nat) (l : List Char) :
    Except JsonError (JsonValue × Nat × List Char) :=
  if maxObjectProps < props.length then .error .propertyLimit
  else .ok (.object props, remaining, l)

section

variable (parseF64 : List Char → UInt64)

mutual

/-- `value`: a value, the elements that may still come, and what follows.  The first argument is a
bound on the steps. -/
def value : Nat → Nat → Nat → List Char → Except JsonError (JsonValue × Nat × List Char)
  | 0, _, _, _ => .error .invalidJson
  | n + 1, depth, remaining, l =>
    if maxJsonDepth < depth + 1 then .error .jsonDepth
    else
      match skipSpace l with
      | '{' :: rest =>
        match skipSpace rest with
        | '}' :: rest => checkedObject [] remaining rest
        | _ => object n (depth + 1) remaining [] rest
      | '[' :: rest =>
        match skipSpace rest with
        | ']' :: rest => .ok (.array [], remaining, rest)
        | _ => (array n (depth + 1) remaining rest).map fun r => (.array r.1, r.2)
      | '"' :: rest => (string rest [] []).map fun r => (.string r.1, remaining, r.2)
      | 't' :: rest => literal ['t', 'r', 'u', 'e'] (.bool true) remaining ('t' :: rest)
      | 'f' :: rest => literal ['f', 'a', 'l', 's', 'e'] (.bool false) remaining ('f' :: rest)
      | 'n' :: rest => literal ['n', 'u', 'l', 'l'] .null remaining ('n' :: rest)
      | c :: rest =>
        if c = '-' ∨ c.isDigit = true then
          match number (c :: rest) with
          | some (lexeme, rest) => .ok (.number (parseF64 lexeme), remaining, rest)
          | none => .error .invalidJson
        else .error .invalidJson
      | [] => .error .invalidJson

/-- `array`, of one item or more, behind the bracket. -/
def array : Nat → Nat → Nat → List Char → Except JsonError (List JsonValue × Nat × List Char)
  | 0, _, _, _ => .error .invalidJson
  | n + 1, depth, remaining, l =>
    if remaining = 0 then .error .elementLimit
    else
      (value n depth (remaining - 1) l).bind fun item =>
        match skipSpace item.2.2 with
        | ',' :: rest =>
          (array n depth item.2.1 rest).map fun items => (item.1 :: items.1, items.2)
        | ']' :: rest => .ok ([item.1], item.2.1, rest)
        | _ => .error .invalidJson

/-- `object`, of one member or more, behind the brace. -/
def object : Nat → Nat → Nat → List (List UInt16 × JsonValue) → List Char →
    Except JsonError (JsonValue × Nat × List Char)
  | 0, _, _, _, _ => .error .invalidJson
  | n + 1, depth, remaining, props, l =>
    match skipSpace l with
    | '"' :: rest =>
      (string rest [] []).bind fun key =>
        match skipSpace key.2 with
        | ':' :: rest =>
          if maxObjectProps ≤ props.length then .error .propertyLimit
          else
            (value n depth remaining rest).bind fun v =>
              match skipSpace v.2.2 with
              | ',' :: rest => object n depth v.2.1 (put key.1 v.1 props) rest
              | '}' :: rest => checkedObject (put key.1 v.1 props) v.2.1 rest
              | _ => .error .invalidJson
        | _ => .error .invalidJson
    | _ => .error .invalidJson

end

/-- The text that is parsed: an unpaired surrogate is written as an escape. -/
def encoded (items : List Item) : List Char :=
  items.flatMap fun item =>
    match item with
    | .ok c => [c]
    | .error u => unicodeEscape u

/-- `json_parse` without a reviver.  There are at most two steps for each character. -/
def jsonParse (units : List UInt16) : Except JsonError JsonValue :=
  if maxStringLen < units.length then .error .stringLimit
  else
    let text := encoded (decodeUtf16 units)
    (value parseF64 (2 * text.length + 1) 0 maxElements text).bind fun r =>
      if skipSpace r.2.2 = [] then .ok r.1 else .error .invalidJson

end

/-! ## Numbers -/

/-- The text does not go on with a number. -/
def Ended (l : List Char) : Prop := ∀ c, l.head? = some c → isNumberChar c = false

variable {l rest : List Char} {c : Char}

variable {digits lexeme exponent : List Char} {out r : List UInt16} {ε α β : Type} {x : Except ε α}
  {b : β}

theorem takeDigits_eq (h : takeDigits l = some (digits, rest)) :
    l = digits ++ rest ∧ Digits digits := by
  rw [takeDigits] at h
  split at h
  · cases h
  · next hne =>
      cases h
      exact ⟨takeWhile_append_dropWhile.symm, hne, all_eq_true.1 all_takeWhile⟩

/-- The text does not go on with a digit. -/
def NoDigit (l : List Char) : Prop := ∀ c, l.head? = some c → c.isDigit = false

theorem Ended.noDigit (h : Ended l) : NoDigit l := by
  intro c hc
  rw [Bool.eq_false_iff]
  intro hdigit
  have hnumber := isNumberChar_of_isDigit hdigit
  rw [h c hc] at hnumber
  cases hnumber

theorem takeDigits_append (h : Digits digits) (hrest : NoDigit rest) :
    takeDigits (digits ++ rest) = some (digits, rest) := by
  have htake : rest.takeWhile Char.isDigit = [] ∧ rest.dropWhile Char.isDigit = rest := by
    cases rest with
    | nil => exact ⟨rfl, rfl⟩
    | cons c rest =>
      have hc : ¬ c.isDigit = true := by
        rw [hrest c rfl]
        exact Bool.false_ne_true
      exact ⟨takeWhile_cons_of_neg hc, dropWhile_cons_of_neg hc⟩
  rw [takeDigits, takeWhile_append_of_pos h.isDigit, dropWhile_append_of_pos h.isDigit,
    htake.1, htake.2, append_nil, if_neg h.ne_nil]

theorem number_sound (h : number l = some (lexeme, rest)) :
    l = lexeme ++ rest ∧ IsNumber lexeme := by
  rw [number, Option.bind_eq_some_iff] at h
  obtain ⟨⟨int, l₁⟩, hint, h⟩ := h
  rw [Option.bind_eq_some_iff] at h
  obtain ⟨⟨fraction, l₂⟩, hfraction, h⟩ := h
  rw [Option.map_eq_some_iff] at h
  obtain ⟨⟨exponent, l₃⟩, hexponent, h⟩ := h
  injection h with hlexeme hrest
  dsimp only at hlexeme hrest
  subst hlexeme hrest
  have hsign : l = (takeSign l).1 ++ (takeSign l).2 ∧
      ((takeSign l).1 = [] ∨ (takeSign l).1 = ['-']) := by
    unfold takeSign
    split
    · exact ⟨rfl, .inr rfl⟩
    · exact ⟨rfl, .inl rfl⟩
  have hint' : (takeSign l).2 = int ++ l₁ ∧ IsInt int := by
    unfold takeInt at hint
    split at hint
    · next heq =>
        cases hint
        exact ⟨heq, .inl rfl⟩
    · next hne =>
        obtain ⟨heq, hdigits⟩ := takeDigits_eq hint
        refine ⟨heq, .inr ⟨hdigits, fun hzero => ?_⟩⟩
        cases int with
        | nil => cases hzero
        | cons c int =>
          cases hzero
          exact hne _ heq
  have hfraction' : l₁ = fraction ++ l₂ ∧ IsFraction fraction := by
    dsimp only at hfraction
    unfold takeFraction at hfraction
    split at hfraction
    · rw [Option.map_eq_some_iff] at hfraction
      obtain ⟨⟨digits, l₄⟩, hdigits, hfraction⟩ := hfraction
      obtain ⟨heq, hdigits⟩ := takeDigits_eq hdigits
      cases hfraction
      exact ⟨by rw [heq]; rfl, .inr ⟨digits, rfl, hdigits⟩⟩
    · cases hfraction
      exact ⟨rfl, .inl rfl⟩
  have hexponent' : l₂ = exponent ++ l₃ ∧ IsExponent exponent := by
    dsimp only at hexponent
    unfold takeExponent at hexponent
    split at hexponent
    · cases hexponent
      exact ⟨rfl, .inl rfl⟩
    · next c l₄ =>
        split at hexponent
        · next hc =>
            have hsign' : l₄ = (takeExponentSign l₄).1 ++ (takeExponentSign l₄).2 ∧
                ((takeExponentSign l₄).1 = [] ∨ (takeExponentSign l₄).1 = ['+'] ∨
                  (takeExponentSign l₄).1 = ['-']) := by
              unfold takeExponentSign
              split
              · exact ⟨rfl, .inr (.inl rfl)⟩
              · exact ⟨rfl, .inr (.inr rfl)⟩
              · exact ⟨rfl, .inl rfl⟩
            rw [Option.map_eq_some_iff] at hexponent
            obtain ⟨⟨digits, l₅⟩, hdigits, hexponent⟩ := hexponent
            obtain ⟨heq, hdigits⟩ := takeDigits_eq hdigits
            cases hexponent
            refine ⟨?_, .inr ⟨c, _, digits, rfl, hc, hsign'.2, hdigits⟩⟩
            rw [cons_append, append_assoc, ← heq, ← hsign'.1]
        · cases hexponent
          exact ⟨rfl, .inl rfl⟩
  refine ⟨?_, _, _, _, _, rfl, hsign.2, hint'.2, hfraction'.2, hexponent'.2⟩
  rw [append_assoc, append_assoc, append_assoc, ← hexponent'.1, ← hfraction'.1,
    ← hint'.1, ← hsign.1]

theorem takeSign_of_ne (h : l.head? ≠ some '-') : takeSign l = ([], l) := by
  unfold takeSign
  split
  · exact absurd rfl h
  · rfl

theorem takeInt_of_ne (h : l.head? ≠ some '0') : takeInt l = takeDigits l := by
  unfold takeInt
  split
  · exact absurd rfl h
  · rfl

theorem takeFraction_of_ne (h : l.head? ≠ some '.') : takeFraction l = some ([], l) := by
  unfold takeFraction
  split
  · exact absurd rfl h
  · rfl

theorem takeExponentSign_of_ne (h : l.head? ≠ some '+') (h' : l.head? ≠ some '-') :
    takeExponentSign l = ([], l) := by
  unfold takeExponentSign
  split
  · exact absurd rfl h
  · exact absurd rfl h'
  · rfl

/-- Digits begin with a digit. -/
theorem digits_head_ne (h : Digits l) (rest : List Char) (hc : c.isDigit = false) :
    (l ++ rest).head? ≠ some c := by
  cases l with
  | nil => exact absurd rfl h.ne_nil
  | cons d l =>
    intro hd
    cases hd
    rw [h.isDigit c mem_cons_self] at hc
    cases hc

theorem Ended.head_ne (h : Ended l) (hc : isNumberChar c = true) : l.head? ≠ some c := by
  intro hhead
  rw [h c hhead] at hc
  cases hc

theorem takeExponent_append (h : IsExponent exponent) (hrest : Ended rest) :
    takeExponent (exponent ++ rest) = some (exponent, rest) := by
  rcases h with rfl | ⟨e, sign, digits, rfl, he, hsign, hdigits⟩
  · cases rest with
    | nil => rfl
    | cons c rest =>
      have hc : ¬ (c = 'e' ∨ c = 'E') := by
        rintro (rfl | rfl)
        · exact hrest.head_ne (by decide) rfl
        · exact hrest.head_ne (by decide) rfl
      rw [nil_append, takeExponent, if_neg hc]
  · have htake : takeExponentSign (sign ++ (digits ++ rest)) = (sign, digits ++ rest) := by
      rcases hsign with rfl | rfl | rfl
      · exact takeExponentSign_of_ne (digits_head_ne hdigits rest (by decide))
          (digits_head_ne hdigits rest (by decide))
      · rfl
      · rfl
    rw [cons_append, append_assoc, takeExponent, if_pos he, htake,
      takeDigits_append hdigits hrest.noDigit, Option.map_some]

/-- What follows the digits before a point. -/
theorem noDigit_exponent (h : IsExponent exponent) (hrest : Ended rest) :
    NoDigit (exponent ++ rest) ∧ (exponent ++ rest).head? ≠ some '.' := by
  rcases h with rfl | ⟨e, sign, digits, rfl, he, -, -⟩
  · exact ⟨hrest.noDigit, hrest.head_ne (by decide)⟩
  · constructor
    · rintro c hc
      cases hc
      rcases he with rfl | rfl <;> decide
    · intro hc
      cases hc
      revert he
      decide

theorem number_complete (h : IsNumber lexeme) (hrest : Ended rest) :
    number (lexeme ++ rest) = some (lexeme, rest) := by
  obtain ⟨sign, int, fraction, exponent, rfl, hsign, hint, hfraction, hexponent⟩ := h
  obtain ⟨hnoDigit, hnoPoint⟩ := noDigit_exponent hexponent hrest
  have hfractionTake : takeFraction (fraction ++ (exponent ++ rest)) =
      some (fraction, exponent ++ rest) := by
    rcases hfraction with rfl | ⟨digits, rfl, hdigits⟩
    · exact takeFraction_of_ne hnoPoint
    · rw [cons_append, takeFraction, takeDigits_append hdigits hnoDigit, Option.map_some]
  have hnoDigit' : NoDigit (fraction ++ (exponent ++ rest)) := by
    rcases hfraction with rfl | ⟨digits, rfl, hdigits⟩
    · exact hnoDigit
    · rintro c hc
      cases hc
      decide
  have hintTake : takeInt (int ++ (fraction ++ (exponent ++ rest))) =
      some (int, fraction ++ (exponent ++ rest)) := by
    rcases hint with rfl | ⟨hdigits, hzero⟩
    · rfl
    · rw [takeInt_of_ne, takeDigits_append hdigits hnoDigit']
      cases int with
      | nil => exact absurd rfl hdigits.ne_nil
      | cons c int => exact hzero
  have hsignTake : takeSign (sign ++ (int ++ (fraction ++ (exponent ++ rest)))) =
      (sign, int ++ (fraction ++ (exponent ++ rest))) := by
    rcases hsign with rfl | rfl
    · refine takeSign_of_ne ?_
      rcases hint with rfl | ⟨hdigits, -⟩
      · exact fun h => absurd (Option.some.inj h) (by decide)
      · exact digits_head_ne hdigits _ (by decide)
    · rfl
  simp only [number, append_assoc, hsignTake, hintTake, hfractionTake,
    takeExponent_append hexponent hrest, Option.bind_some, Option.map_some]

/-! ## String literals -/

theorem encoded_ok (c : Char) (x : List Item) : encoded (.ok c :: x) = c :: encoded x := rfl

theorem encoded_error (u : UInt16) (x : List Item) :
    encoded (.error u :: x) = unicodeEscape u ++ encoded x := rfl

/-- How a part of a string literal is written for the parser. -/
def code : Piece → List Char
  | .char c => [c]
  | .lone u => unicodeEscape u
  | .letter c => ['\\', c]
  | .unicode a b c d => ['\\', 'u', a, b, c, d]
  | .misread u => '\\' :: unicodeEscape u

theorem encoded_text (p : Piece) (x : List Item) : encoded (p.text ++ x) = code p ++ encoded x := by
  cases p <;> rfl

/-- Of the rewritten text, only a backslash can be one that the rewriting has put there. -/
theorem encoded_head {x : List Item} (h : encoded x = c :: l) (hc : c ≠ '\\') :
    ∃ y, x = .ok c :: y ∧ l = encoded y := by
  cases x with
  | nil => cases h
  | cons i x =>
    cases i with
    | error u =>
      injection h with hhead
      exact absurd hhead.symm hc
    | ok d =>
      injection h with hhead htail
      exact ⟨x, by rw [hhead], htail.symm⟩

/-- A run of characters fits behind so many units. -/
def RunFits (before : Nat) (run : List Char) : Prop :=
  run = [] ∨ before + Str.len run ≤ maxStringLen

/-- What of the limit is checked of a literal, behind so many units and a run. -/
def Fits : List Piece → Nat → List Char → Prop
  | [], before, run => RunFits before run
  | .char c :: ps, before, run => Fits ps before (run ++ [c])
  | .lone _ :: ps, before, run =>
    RunFits before run ∧ Fits ps (before + (encode run).length + 1) []
  | .unicode _ _ _ _ :: ps, before, run =>
    RunFits before run ∧ Fits ps (before + (encode run).length + 1) []
  | .letter _ :: ps, before, run =>
    RunFits before run ∧ before + (encode run).length + 1 ≤ maxStringLen ∧
      Fits ps (before + (encode run).length + 1) []
  | .misread u :: ps, before, run =>
    RunFits before run ∧ before + (encode run).length + 1 ≤ maxStringLen ∧
      Fits ps (before + (encode run).length + 1) (unicodeEscape u).tail

theorem pushStr_eq_ok {run : List Char} :
    pushStr out run = .ok r ↔ r = out ++ encode run ∧ RunFits out.length run := by
  rw [pushStr, RunFits]
  by_cases hrun : run = []
  · rw [if_pos hrun, hrun]
    constructor
    · intro h
      cases h
      exact ⟨(append_nil _).symm, .inl rfl⟩
    · rintro ⟨rfl, -⟩
      rw [encode, flatMap_nil, append_nil]
  · rw [if_neg hrun]
    by_cases hlong : maxStringLen < out.length + Str.len run
    · rw [if_pos hlong]
      constructor
      · simp
      · rintro ⟨-, h | h⟩
        · exact absurd h hrun
        · omega
    · rw [if_neg hlong]
      constructor
      · intro h
        cases h
        exact ⟨rfl, .inr (Nat.le_of_not_lt hlong)⟩
      · rintro ⟨rfl, -⟩
        rfl

theorem pushChar_eq_ok {u : UInt16} :
    pushChar out u = .ok r ↔ r = out ++ [u] ∧ out.length + 1 ≤ maxStringLen := by
  rw [pushChar]
  split
  · next hlong =>
      constructor
      · nofun
      · rintro ⟨-, h⟩
        omega
  · next hshort =>
      constructor
      · intro h
        cases h
        exact ⟨rfl, Nat.le_of_not_lt hshort⟩
      · rintro ⟨rfl, -⟩
        rfl

theorem bind_eq_ok {f : α → Except ε β} : x.bind f = .ok b ↔ ∃ a, x = .ok a ∧ f a = .ok b := by
  cases x with
  | error e => exact ⟨nofun, nofun⟩
  | ok a =>
    constructor
    · exact fun h => ⟨a, rfl, h⟩
    · rintro ⟨a', h, h'⟩
      cases h
      exact h'

theorem map_eq_ok {f : α → β} : x.map f = .ok b ↔ ∃ a, x = .ok a ∧ f a = b := by
  cases x with
  | error e => exact ⟨nofun, nofun⟩
  | ok a =>
    constructor
    · intro h
      cases h
      exact ⟨a, rfl, rfl⟩
    · rintro ⟨a', h, rfl⟩
      cases h
      rfl

section

variable {out : List UInt16} {run rest l : List Char} {r : List UInt16 × List Char}

variable {c a b d : Char} {n : Nat}

theorem string_plain (hc : (Piece.char c).Valid) :
    string (c :: rest) out run = string rest out (run ++ [c]) := by
  rw [string, if_neg hc.1]
  · exact hc.2.1
  · exact fun h _ => hc.2.2 h
  · exact fun _ _ _ _ _ h _ => hc.2.2 h
  · exact fun _ _ h _ => hc.2.2 h

theorem string_letter {u : UInt16} (hc : simpleEscape c = some u) :
    string ('\\' :: c :: rest) out run = (pushStr out run).bind fun out =>
      (pushChar out u).bind fun out => string rest out [] := by
  have hne : c ≠ 'u' := by
    rintro rfl
    have hnone : simpleEscape 'u' = none := by decide
    rw [hnone] at hc
    cases hc
  rw [string]
  · rw [hc]
  · rintro a b c' d rest rfl
    exact absurd rfl hne

theorem string_unicode (hn : hexDigits 0 [a, b, c, d] = some n) :
    string ('\\' :: 'u' :: a :: b :: c :: d :: rest) out run =
      (pushStr out run).bind fun out => string rest (out ++ [UInt16.ofNat n]) [] := by
  rw [string, hn]

theorem hexDigits_unicodeEscape (u : UInt16) : ∃ a b c d,
    unicodeEscape u = ['\\', 'u', a, b, c, d] ∧ hexDigits 0 [a, b, c, d] = some u.toNat ∧
      ∀ e ∈ ['u', a, b, c, d], (Piece.char e).Valid := by
  have hu : u.toNat < 65536 := u.toNat_lt
  have hsum : (((0 * 16 + u.toNat / 4096) * 16 + u.toNat / 256 % 16) * 16 + u.toNat / 16 % 16) *
      16 + u.toNat % 16 = u.toNat := by omega
  have hvalid : ∀ n < 16, ¬ (hexLower n).toNat < 32 ∧ hexLower n ≠ '"' ∧ hexLower n ≠ '\\' := by
    decide
  refine ⟨_, _, _, _, rfl, ?_, ?_⟩
  · simp only [hexDigits, hexValue_hexLower (show u.toNat / 4096 < 16 by omega),
      hexValue_hexLower (show u.toNat / 256 % 16 < 16 by omega),
      hexValue_hexLower (show u.toNat / 16 % 16 < 16 by omega),
      hexValue_hexLower (show u.toNat % 16 < 16 by omega), Option.bind_some, hsum]
  · simp only [forall_mem_cons]
    exact ⟨(by unfold Piece.Valid; decide), hvalid _ (by omega), hvalid _ (by omega),
      hvalid _ (by omega), hvalid _ (by omega), fun e he => absurd he not_mem_nil⟩

/-- An unpaired surrogate, as it is written for the parser. -/
theorem string_lone (u : UInt16) : string (unicodeEscape u ++ rest) out run =
    (pushStr out run).bind fun out => string rest (out ++ [u]) [] := by
  obtain ⟨a, b, c, d, htext, hdigits, -⟩ := hexDigits_unicodeEscape u
  rw [htext]
  simp only [cons_append, nil_append]
  rw [string_unicode hdigits, UInt16.ofNat_toNat]

/-- Behind a backslash, it is taken for an escaped backslash and five characters. -/
theorem string_misread (u : UInt16) : string ('\\' :: (unicodeEscape u ++ rest)) out run =
    (pushStr out run).bind fun out => (pushChar out (unit '\\')).bind fun out =>
      string rest out (unicodeEscape u).tail := by
  obtain ⟨a, b, c, d, htext, -, hvalid⟩ := hexDigits_unicodeEscape u
  simp only [forall_mem_cons] at hvalid
  obtain ⟨hu, ha, hb, hc, hd, -⟩ := hvalid
  have hslash : simpleEscape '\\' = some (unit '\\') := by decide
  rw [htext]
  simp only [cons_append, nil_append]
  rw [string_letter hslash]
  simp only [string_plain hu, string_plain ha, string_plain hb, string_plain hc, string_plain hd,
    nil_append, cons_append, tail_cons]

theorem encode_append_singleton (run : List Char) (c : Char) :
    encode (run ++ [c]) = encode run ++ encodeUtf16 c := by
  rw [encode_append]
  exact congrArg _ (append_nil _)

/-- What fits is read. -/
theorem string_complete {ps : List Piece} (hps : ∀ p ∈ ps, p.Valid) (hfits : Fits ps out.length run)
    (y : List Item) : string (encoded (ps.flatMap Piece.text ++ .ok '"' :: y)) out run =
      .ok (out ++ encode run ++ units ps, encoded y) := by
  induction ps generalizing out run with
  | nil =>
    rw [flatMap_nil, nil_append, encoded_ok, string, pushStr_eq_ok.2 ⟨rfl, hfits⟩]
    rw [units, flatMap_nil, append_nil]
    rfl
  | cons p ps ih =>
    obtain ⟨hp, hrest⟩ := forall_mem_cons.1 hps
    rw [flatMap_cons, append_assoc, units, flatMap_cons, ← units]
    have hlength : ∀ u : UInt16,
        (out ++ encode run ++ [u]).length = out.length + (encode run).length + 1 := by
      intro u
      simp only [length_append, length_singleton]
    -- the run has been pushed, and a unit
    have hnext : ∀ {u : UInt16}, Fits ps (out.length + (encode run).length + 1) [] →
        string (encoded (ps.flatMap Piece.text ++ .ok '"' :: y)) (out ++ encode run ++ [u]) [] =
          .ok (out ++ encode run ++ ([u] ++ units ps), encoded y) := by
      intro u hfits
      rw [ih hrest (by rwa [hlength]), encode_nil, append_nil, append_assoc]
    rw [encoded_text]
    cases p with
    | char c =>
      simp only [code, cons_append, nil_append]
      rw [string_plain hp, ih hrest hfits, encode_append_singleton, Piece.value]
      simp only [append_assoc]
    | lone u =>
      rw [code, string_lone, pushStr_eq_ok.2 ⟨rfl, hfits.1⟩]
      exact hnext hfits.2
    | unicode a b c d =>
      obtain ⟨n, hn⟩ := Option.isSome_iff_exists.1 hp
      simp only [code, cons_append, nil_append]
      rw [string_unicode hn, pushStr_eq_ok.2 ⟨rfl, hfits.1⟩, Piece.value, hn]
      exact hnext hfits.2
    | letter c =>
      obtain ⟨u, hu⟩ := Option.isSome_iff_exists.1 hp
      have hpush : pushChar (out ++ encode run) u = .ok (out ++ encode run ++ [u]) :=
        pushChar_eq_ok.2 ⟨rfl, by rw [length_append]; exact hfits.2.1⟩
      simp only [code, cons_append, nil_append]
      rw [string_letter hu, pushStr_eq_ok.2 ⟨rfl, hfits.1⟩, Piece.value, hu]
      simp only [Except.bind, hpush]
      exact hnext hfits.2.2
    | misread u =>
      have hpush : pushChar (out ++ encode run) (unit '\\') =
          .ok (out ++ encode run ++ [unit '\\']) :=
        pushChar_eq_ok.2 ⟨rfl, by rw [length_append]; exact hfits.2.1⟩
      have hvalue : Piece.value (.misread u) = unit '\\' :: encode (unicodeEscape u).tail :=
        encode_unit (by decide) _
      rw [code, cons_append, string_misread, pushStr_eq_ok.2 ⟨rfl, hfits.1⟩, hvalue]
      simp only [Except.bind, hpush]
      rw [ih hrest (by rw [hlength]; exact hfits.2.2)]
      simp only [append_assoc, cons_append, nil_append]

theorem not_ok_of_error {x : Except JsonError (List UInt16)} :
    (x.bind fun _ => Except.error JsonError.invalidJson) ≠ Except.ok r := by
  intro h
  obtain ⟨_, -, h⟩ := bind_eq_ok.1 h
  cases h

theorem string_badEscape (hu : c ≠ 'u') (hc : simpleEscape c = none) :
    string ('\\' :: c :: rest) out run = (pushStr out run).bind fun _ => .error .invalidJson := by
  rw [string]
  · rw [hc]
  · rintro a b c' d rest rfl
    exact absurd rfl hu

theorem string_control (hquote : c ≠ '"') (hslash : c ≠ '\\') (hc : c.toNat < 32) :
    string (c :: rest) out run = .error .invalidJson := by
  rw [string, if_pos hc]
  · exact hquote
  · exact fun h _ => hslash h
  · exact fun _ _ _ _ _ h _ => hslash h
  · exact fun _ _ h _ => hslash h

/-- Behind `\\u`, only four digits are read. -/
theorem string_unicode_ok (h : string ('\\' :: 'u' :: l) out run = .ok r) : ∃ a b c d rest n,
    l = a :: b :: c :: d :: rest ∧ hexDigits 0 [a, b, c, d] = some n ∧
      RunFits out.length run ∧ string rest (out ++ encode run ++ [UInt16.ofNat n]) [] = .ok r := by
  have hu : simpleEscape 'u' = none := by decide
  rcases l with _ | ⟨a, _ | ⟨b, _ | ⟨c, _ | ⟨d, rest⟩⟩⟩⟩
  · simp only [string, hu] at h
    exact absurd h not_ok_of_error
  · simp only [string, hu] at h
    exact absurd h not_ok_of_error
  · simp only [string, hu] at h
    exact absurd h not_ok_of_error
  · simp only [string, hu] at h
    exact absurd h not_ok_of_error
  · cases hn : hexDigits 0 [a, b, c, d] with
    | none =>
      simp only [string, hn] at h
      exact absurd h not_ok_of_error
    | some n =>
      rw [string_unicode hn] at h
      obtain ⟨out', hpush, h⟩ := bind_eq_ok.1 h
      obtain ⟨rfl, hrun⟩ := pushStr_eq_ok.1 hpush
      exact ⟨a, b, c, d, rest, n, rfl, hn, hrun, h⟩

/-- Hexadecimal digits are no backslashes. -/
theorem ne_slash_of_hexDigits (h : hexDigits 0 [a, b, c, d] = some n) :
    a ≠ '\\' ∧ b ≠ '\\' ∧ c ≠ '\\' ∧ d ≠ '\\' := by
  have hslash : hexValue '\\' = none := by decide
  simp only [hexDigits, Option.bind_eq_some_iff] at h
  obtain ⟨a', ha, b', hb, c', hc, d', hd, -⟩ := h
  refine ⟨?_, ?_, ?_, ?_⟩ <;> rintro rfl <;> simp_all

/-- What is read is a literal that fits. -/
theorem string_sound {x : List Item} (h : string (encoded x) out run = .ok r) :
    ∃ ps y, (∀ p ∈ ps, p.Valid) ∧ x = ps.flatMap Piece.text ++ .ok '"' :: y ∧
      r = (out ++ encode run ++ units ps, encoded y) ∧ Fits ps out.length run := by
  induction hn : x.length using Nat.strong_induction_on generalizing x out run with
  | h n ih =>
    -- one piece, and then the rest
    have hpiece : ∀ (p : Piece) (x' : List Item) (out' : List UInt16) (run' : List Char),
        p.Valid → x = p.text ++ x' → string (encoded x') out' run' = .ok r →
        out' ++ encode run' = out ++ encode run ++ p.value →
        (∀ ps, Fits ps out'.length run' → Fits (p :: ps) out.length run) →
        ∃ ps y, (∀ p ∈ ps, p.Valid) ∧ x = ps.flatMap Piece.text ++ .ok '"' :: y ∧
          r = (out ++ encode run ++ units ps, encoded y) ∧ Fits ps out.length run := by
      intro p x' out' run' hp hx hrest hout hfits
      have hlength : x'.length < n := by
        rw [← hn, hx, length_append]
        have : 0 < p.text.length := by cases p <;> exact Nat.succ_pos _
        omega
      obtain ⟨ps, y, hps, rfl, rfl, hps'⟩ := ih _ hlength hrest rfl
      refine ⟨p :: ps, y, forall_mem_cons.2 ⟨hp, hps⟩, ?_, ?_, hfits ps hps'⟩
      · rw [hx, flatMap_cons, append_assoc]
      · rw [hout, units, units, flatMap_cons, append_assoc]
    cases x with
    | nil =>
      rw [encoded, flatMap_nil, string] at h
      exact absurd h not_ok_of_error
    | cons i x =>
      cases i with
      | error u =>
        rw [encoded_error, string_lone] at h
        obtain ⟨out', hpush, h⟩ := bind_eq_ok.1 h
        obtain ⟨rfl, hrun⟩ := pushStr_eq_ok.1 hpush
        refine hpiece (.lone u) x _ [] trivial rfl h ?_ fun ps hps => ⟨hrun, ?_⟩
        · rw [encode_nil, append_nil]
          rfl
        · simpa only [length_append, length_singleton] using hps
      | ok c =>
        rw [encoded_ok] at h
        by_cases hquote : c = '"'
        · subst hquote
          rw [string] at h
          obtain ⟨out', hpush, rfl⟩ := map_eq_ok.1 h
          obtain ⟨rfl, hrun⟩ := pushStr_eq_ok.1 hpush
          exact ⟨[], x, nofun, rfl, by rw [units, flatMap_nil, append_nil], hrun⟩
        · by_cases hslash : c = '\\'
          · subst hslash
            cases x with
            | nil =>
              rw [encoded, flatMap_nil, string] at h
              exact absurd h not_ok_of_error
            | cons j x =>
              cases j with
              | error u =>
                rw [encoded_error, string_misread] at h
                obtain ⟨out', hpush, h⟩ := bind_eq_ok.1 h
                obtain ⟨rfl, hrun⟩ := pushStr_eq_ok.1 hpush
                obtain ⟨out', hpush, h⟩ := bind_eq_ok.1 h
                obtain ⟨rfl, hchar⟩ := pushChar_eq_ok.1 hpush
                rw [length_append] at hchar
                have hvalue : Piece.value (.misread u) =
                    unit '\\' :: encode (unicodeEscape u).tail :=
                  encode_unit (by decide) _
                refine hpiece (.misread u) x _ _ trivial rfl h ?_ fun ps hps =>
                  ⟨hrun, hchar, ?_⟩
                · rw [hvalue, append_assoc]
                  rfl
                · simpa only [length_append, length_singleton] using hps
              | ok d =>
                rw [encoded_ok] at h
                by_cases hu : d = 'u'
                · subst hu
                  obtain ⟨a, b, c, d, rest, m, h₀, hm, hrun, h⟩ := string_unicode_ok h
                  obtain ⟨ha, hb, hc, hd⟩ := ne_slash_of_hexDigits hm
                  obtain ⟨x₁, rfl, h₁⟩ := encoded_head h₀ ha
                  obtain ⟨x₂, rfl, h₂⟩ := encoded_head h₁.symm hb
                  obtain ⟨x₃, rfl, h₃⟩ := encoded_head h₂.symm hc
                  obtain ⟨x₄, rfl, rfl⟩ := encoded_head h₃.symm hd
                  refine hpiece (.unicode a b c d) x₄ _ [] (by rw [Piece.Valid, hm]; rfl)
                    rfl h ?_ fun ps hps => ⟨hrun, ?_⟩
                  · rw [encode_nil, append_nil, Piece.value, hm]
                    rfl
                  · simpa only [length_append, length_singleton] using hps
                · cases hescape : simpleEscape d with
                  | none =>
                    rw [string_badEscape hu hescape] at h
                    exact absurd h not_ok_of_error
                  | some u =>
                    rw [string_letter hescape] at h
                    obtain ⟨out', hpush, h⟩ := bind_eq_ok.1 h
                    obtain ⟨rfl, hrun⟩ := pushStr_eq_ok.1 hpush
                    obtain ⟨out', hpush, h⟩ := bind_eq_ok.1 h
                    obtain ⟨rfl, hchar⟩ := pushChar_eq_ok.1 hpush
                    rw [length_append] at hchar
                    refine hpiece (.letter d) x _ [] (by rw [Piece.Valid, hescape]; rfl)
                      rfl h ?_ fun ps hps => ⟨hrun, hchar, ?_⟩
                    · rw [encode_nil, append_nil, Piece.value, hescape]
                      rfl
                    · simpa only [length_append, length_singleton] using hps
          · by_cases hcontrol : c.toNat < 32
            · rw [string_control hquote hslash hcontrol] at h
              cases h
            · have hvalid : (Piece.char c).Valid := ⟨hcontrol, hquote, hslash⟩
              rw [string_plain hvalid] at h
              refine hpiece (.char c) x out (run ++ [c]) hvalid rfl h ?_ fun ps hps => hps
              rw [encode_append_singleton, ← append_assoc]
              rfl

end

end NapiVm.JsonParser
