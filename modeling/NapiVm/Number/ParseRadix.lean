import NapiVm.Buffer.RoundTrip
import NapiVm.Lib.Binary64
import NapiVm.Lib.Rounding

/-!
# Reading numbers in other radices

* `readRadix` — literals with a prefix, of the lexer's `read_num`.
* `parseInt` — the global of that name.
* `folded` — the digits one after the other, each rounded away.
* `radix_nearest_iff` — when that is as good as rounding once.
-/

namespace NapiVm.NumberText

open Rounding

/-! ## Digits -/

/-- `char::to_digit`. -/
def toDigit (c : Char) (radix : Nat) : Option Nat :=
  let digit :=
    if 48 ≤ c.toNat ∧ c.toNat ≤ 57 then c.toNat - 48
    else if 97 ≤ c.toNat ∧ c.toNat ≤ 122 then c.toNat - 87
    else if 65 ≤ c.toNat ∧ c.toNat ≤ 90 then c.toNat - 55
    else radix
  if digit < radix then some digit else none

/-- `char::is_digit`. -/
def isDigit (radix : Nat) (c : Char) : Bool := (toDigit c radix).isSome

/-- `char::from_digit`, of a digit of a radix up to 36. -/
def fromDigit (digit : Nat) : Char :=
  if digit < 10 then Char.ofNat (48 + digit) else Char.ofNat (87 + digit)

/-- What the digits stand for. -/
def values (radix : Nat) (digits : List Char) : List Nat :=
  digits.map fun c => (toDigit c radix).getD 0

/-- The integer denoted. -/
def denoted (radix : Nat) (digits : List Char) : Nat :=
  (values radix digits).foldl (fun v d => v * radix + d) 0

/-- The digits one after the other, in binary64.  Infinity is not among the results: they are right
up to `2 ^ 1024`. -/
def folded (radix : Nat) (digits : List Char) : Nat :=
  (values radix digits).foldl (push 53 radix) 0

/-! ## Literals -/

inductive Token where
  | number (value : Nat)
  | bigInt (literal : List Char)
  | unknown (c : Char)
  deriving DecidableEq

/-- The letters after a zero, with their radix. -/
def radixPrefixes : List (Char × Nat) :=
  [('x', 16), ('X', 16), ('b', 2), ('B', 2), ('o', 8), ('O', 8)]

/-- A separator that does not stand between two digits. -/
def misplaced (radix : Nat) : Option Char → List Char → Bool
  | _, [] => false
  | before, c :: raw =>
    (c == '_' && (!before.any (isDigit radix) || !raw.head?.any (isDigit radix))) ||
      misplaced radix (some c) raw

/-- `read_num`, of a literal with a prefix: the token, and what is left of the source. -/
def readRadix : List Char → Option (Token × List Char)
  | '0' :: letter :: src =>
    (radixPrefixes.lookup letter).map fun radix =>
      let raw := src.takeWhile fun c => isDigit radix c || c == '_'
      let src := src.dropWhile fun c => isDigit radix c || c == '_'
      if raw.isEmpty || misplaced radix none raw then (.unknown '_', src)
      else if src.head? = some 'n' then (.bigInt ('0' :: letter :: raw), src.tail)
      else (.number (folded radix (raw.filter (· != '_'))), src)
  | _ => none

/-! ## `parseInt` -/

/-- The white space of `trim_units`. -/
def isWhitespace (unit : UInt16) : Bool :=
  let n := unit.toNat
  decide (9 ≤ n) && decide (n ≤ 13) || decide (0x2000 ≤ n) && decide (n ≤ 0x200A) ||
    [0x20, 0xA0, 0x1680, 0x2028, 0x2029, 0x202F, 0x205F, 0x3000, 0xFEFF].contains n

/-- `to_int32`. -/
def toInt32 (number : UInt64) : Int :=
  if Binary64.isFinite number then
    let n : Int := if Binary64.sign number then -(Binary64.trunc number : Int)
      else Binary64.trunc number
    (n + 2147483648) % 4294967296 - 2147483648
  else 0

/-- `parse_int`, of a string and the number that the radix argument converts to: no number, or
whether it is negative, and its magnitude. -/
def parseInt (string : List UInt16) (argument : Option UInt64) : Option (Bool × Nat) :=
  let s := BufferCodec.asStr (string.dropWhile isWhitespace)
  let radix := (argument.map toInt32).getD 0
  if radix ≠ 0 ∧ ¬ (2 ≤ radix ∧ radix ≤ 36) then none
  else
    let neg := s.head? == some '-'
    let digits := if s.head? = some '+' ∨ s.head? = some '-' then s.tail else s
    let hex := decide (radix = 0 ∨ radix = 16) &&
      (['0', 'x'].isPrefixOf digits || ['0', 'X'].isPrefixOf digits)
    let radix := if radix = 0 then 10 else radix.toNat
    let radix := if hex then 16 else radix
    let digits := (if hex then digits.drop 2 else digits).takeWhile (isDigit radix)
    if digits = [] then none
    else if radix = 10 then some (neg, round 53 (denoted 10 digits))
    else some (neg, folded radix digits)

/-! ### Rounding once -/

section Fold

variable {radix k : Nat} {digits : List Char}

theorem values_lt (hradix : 0 < radix) : ∀ d ∈ values radix digits, d < radix := by
  intro d hd
  obtain ⟨c, -, rfl⟩ := List.mem_map.1 hd
  cases hdigit : toDigit c radix with
  | none => exact hradix
  | some digit =>
    unfold toDigit at hdigit
    simp only [Option.ite_none_right_eq_some] at hdigit
    rw [Option.getD_some, ← Option.some.inj hdigit.2]
    exact hdigit.1

theorem nearest_folded_iff (digits : List Char) (k : Nat) :
    Nearest 53 (denoted (2 ^ k) digits) (folded (2 ^ k) digits) ↔
      ¬ Lost 53 (2 ^ k) 0 (values (2 ^ k) digits) :=
  nearest_foldl_iff (by decide) (Nat.two_pow_pos 53) (values_lt (Nat.two_pow_pos k))

end Fold

section Readers

variable {radix : Nat} {digits after : List Char}

theorem span_digits {p : Char → Bool} (hdigits : ∀ c ∈ digits, p c = true)
    (hafter : ∀ c, after.head? = some c → p c = false) :
    (digits ++ after).takeWhile p = digits ∧ (digits ++ after).dropWhile p = after := by
  rw [List.takeWhile_append_of_pos hdigits, List.dropWhile_append_of_pos hdigits]
  cases after with
  | nil => exact ⟨List.append_nil _, rfl⟩
  | cons c after =>
    have hc := hafter c rfl
    rw [List.takeWhile_cons, List.dropWhile_cons, hc]
    exact ⟨List.append_nil _, rfl⟩

theorem digit_range {c : Char} (h : isDigit radix c = true) :
    48 ≤ c.toNat ∧ c.toNat ≤ 57 ∨ 97 ≤ c.toNat ∧ c.toNat ≤ 122 ∨ 65 ≤ c.toNat ∧ c.toNat ≤ 90 := by
  unfold isDigit toDigit at h
  simp only at h
  split at h
  · exact .inl ‹_›
  · split at h
    · exact .inr (.inl ‹_›)
    · split at h
      · exact .inr (.inr ‹_›)
      · rw [if_neg (Nat.lt_irrefl _)] at h
        cases h

theorem ne_of_isDigit {c d : Char} (h : isDigit radix c = true)
    (hd : ¬ (48 ≤ d.toNat ∧ d.toNat ≤ 57 ∨ 97 ≤ d.toNat ∧ d.toNat ≤ 122 ∨
      65 ≤ d.toNat ∧ d.toNat ≤ 90)) : c ≠ d :=
  fun heq => hd (heq ▸ digit_range h)

theorem misplaced_digits (hdigits : ∀ c ∈ digits, isDigit radix c = true) (before : Option Char) :
    misplaced radix before digits = false := by
  induction digits generalizing before with
  | nil => rfl
  | cons c digits ih =>
    obtain ⟨hc, hrest⟩ := List.forall_mem_cons.1 hdigits
    have hsep : (c == '_') = false := beq_eq_false_iff_ne.2 (ne_of_isDigit hc (by decide))
    rw [misplaced, hsep, Bool.false_and, Bool.false_or, ih hrest]

/-- A literal of digits alone. -/
theorem readRadix_digits {letter : Char} (hletter : (letter, radix) ∈ radixPrefixes)
    (hne : digits ≠ []) (hdigits : ∀ c ∈ digits, isDigit radix c = true)
    (hafter : ∀ c, after.head? = some c → isDigit radix c = false ∧ c ≠ '_' ∧ c ≠ 'n') :
    readRadix ('0' :: letter :: (digits ++ after)) =
      some (.number (folded radix digits), after) := by
  have hlookup : radixPrefixes.lookup letter = some radix := by
    have hall : radixPrefixes.all (fun entry => radixPrefixes.lookup entry.1 == some entry.2) =
        true := by decide
    exact beq_iff_eq.1 (List.all_eq_true.1 hall _ hletter)
  have hraw : ∀ c ∈ digits, (isDigit radix c || c == '_') = true := fun c hc => by
    rw [hdigits c hc, Bool.true_or]
  obtain ⟨htake, hdrop⟩ := span_digits hraw fun c hc => by
    obtain ⟨hdigit, hsep, -⟩ := hafter c hc
    rw [hdigit, beq_eq_false_iff_ne.2 hsep, Bool.or_false]
  have hempty : digits.isEmpty = false := List.isEmpty_eq_false_iff.2 hne
  have hn : ¬ after.head? = some 'n' := fun h => (hafter 'n' h).2.2 rfl
  have hfilter : digits.filter (· != '_') = digits :=
    List.filter_eq_self.2 fun c hc => bne_iff_ne.2 (ne_of_isDigit (hdigits c hc) (by decide))
  rw [readRadix, hlookup, Option.map_some]
  simp only [htake, hdrop, hempty, misplaced_digits hdigits, Bool.or_self, Bool.false_eq_true,
    if_false, hn, hfilter]

/-- Text that begins with a visible character of ASCII. -/
theorem dropWhile_isWhitespace {c : Char} (hlow : 33 ≤ c.toNat) (hhigh : c.toNat < 128)
    {white : List UInt16} (hwhite : ∀ unit ∈ white, isWhitespace unit = true) (text : List Char) :
    (white ++ (c :: text).flatMap JsString.encodeUtf16).dropWhile isWhitespace =
      (c :: text).flatMap JsString.encodeUtf16 := by
  have hall : ∀ i : Fin 128, 33 ≤ i.val → isWhitespace (UInt16.ofNat i) = false := by
    decide +kernel
  have hunit : JsString.encodeUtf16 c = [UInt16.ofNat c.toNat] := if_pos (by omega)
  rw [List.dropWhile_append_of_pos hwhite, List.flatMap_cons, hunit, List.singleton_append,
    List.dropWhile_cons, hall ⟨c.toNat, hhigh⟩ hlow]
  rfl

/-- Digits alone, after white space and a sign. -/
theorem parseInt_digits (hradix : radix ∈ [2, 4, 8, 16, 32]) {argument : UInt64}
    (hargument : toInt32 argument = radix) {white : List UInt16}
    (hwhite : ∀ unit ∈ white, isWhitespace unit = true) {sign : List Char}
    (hsign : sign ∈ [[], ['+'], ['-']]) (hne : digits ≠ [])
    (hdigits : ∀ c ∈ digits, isDigit radix c = true) :
    parseInt (white ++ (sign ++ digits).flatMap JsString.encodeUtf16) (some argument) =
      some (sign == ['-'], folded radix digits) := by
  obtain ⟨first, rest, rfl⟩ := List.exists_cons_of_ne_nil hne
  have hfirst := hdigits first List.mem_cons_self
  have hplus : first ≠ '+' := ne_of_isDigit hfirst (by decide)
  have hminus : first ≠ '-' := ne_of_isDigit hfirst (by decide)
  have htrim : (white ++ (sign ++ first :: rest).flatMap JsString.encodeUtf16).dropWhile
      isWhitespace = (sign ++ first :: rest).flatMap JsString.encodeUtf16 := by
    simp only [List.mem_cons, List.not_mem_nil, or_false] at hsign
    rcases hsign with rfl | rfl | rfl
    · have hrange := digit_range hfirst
      exact dropWhile_isWhitespace (by omega) (by omega) hwhite rest
    · exact dropWhile_isWhitespace (by decide) (by decide) hwhite _
    · exact dropWhile_isWhitespace (by decide) (by decide) hwhite _
  have hall : [2, 4, 8, 16, 32].all (fun radix : Nat =>
      decide ((radix : Int) ≠ 0 ∧ (2 : Int) ≤ radix ∧ (radix : Int) ≤ 36 ∧ radix ≠ 10 ∧
        (((radix : Int) = 0 ∨ (radix : Int) = 16) → radix = 16))) = true := by decide
  obtain ⟨hzero, hlow, hhigh, hten, hsixteen⟩ :=
    of_decide_eq_true (List.all_eq_true.1 hall radix hradix)
  have hhex : (decide ((radix : Int) = 0 ∨ (radix : Int) = 16) &&
      (['0', 'x'].isPrefixOf (first :: rest) || ['0', 'X'].isPrefixOf (first :: rest))) =
        false := by
    cases hradix16 : decide ((radix : Int) = 0 ∨ (radix : Int) = 16) with
    | false => rfl
    | true =>
      obtain rfl := hsixteen (of_decide_eq_true hradix16)
      cases rest with
      | nil => simp only [List.isPrefixOf, Bool.and_false, Bool.or_self]
      | cons second rest =>
        have hsecond := hdigits second (List.mem_cons_of_mem _ List.mem_cons_self)
        have hx : ('x' == second) = false := beq_eq_false_iff_ne.2 fun heq => by
          rw [← heq] at hsecond
          exact absurd hsecond (by decide)
        have hX : ('X' == second) = false := beq_eq_false_iff_ne.2 fun heq => by
          rw [← heq] at hsecond
          exact absurd hsecond (by decide)
        simp only [List.isPrefixOf, hx, hX, Bool.false_and, Bool.and_false, Bool.or_self]
  have htake : (first :: rest).takeWhile (isDigit radix) = first :: rest := by
    have hnone : ∀ c, ([] : List Char).head? = some c → isDigit radix c = false :=
      nofun
    have hspan := (span_digits hdigits hnone).1
    rwa [List.append_nil] at hspan
  have hrange : ¬ ((radix : Int) ≠ 0 ∧ ¬ (2 ≤ (radix : Int) ∧ (radix : Int) ≤ 36)) :=
    fun h => h.2 ⟨hlow, hhigh⟩
  have hsigned : ∀ sign ∈ [[], ['+'], ['-']], ((sign ++ first :: rest).head? == some '-') =
      (sign == ['-']) ∧ (if (sign ++ first :: rest).head? = some '+' ∨
        (sign ++ first :: rest).head? = some '-' then (sign ++ first :: rest).tail
        else sign ++ first :: rest) = first :: rest := by
    intro sign hsign
    simp only [List.mem_cons, List.not_mem_nil, or_false] at hsign
    rcases hsign with rfl | rfl | rfl
    · simp [hplus, hminus]
    · simp
    · simp
  obtain ⟨hneg, htail⟩ := hsigned sign hsign
  rw [parseInt, htrim, BufferCodec.asStr_text]
  simp only [Option.map_some, Option.getD_some, hargument, hrange, if_false, hneg, htail, hhex,
    Bool.false_eq_true, Int.toNat_natCast]
  simp only [hzero, if_false, htake, List.cons_ne_nil, hten]

end Readers

/-! ### Both -/

/-- **Rounding once.**  A literal of digits in radix 2, 8 or 16, and `parseInt` of digits in radix
2, 4, 8, 16 or 32, give the number nearest to the integer denoted, unless the digits up to the one
that passes 53 bits stand half a unit above an even number and a digit that is not zero follows. -/
theorem radix_nearest_iff (digits : List Char) (hne : digits ≠ []) :
    (∀ letter radix, (letter, radix) ∈ radixPrefixes →
      (∀ c ∈ digits, isDigit radix c = true) → ∀ after : List Char,
      (∀ c, after.head? = some c → isDigit radix c = false ∧ c ≠ '_' ∧ c ≠ 'n') →
      ∃ value, readRadix ('0' :: letter :: (digits ++ after)) = some (.number value, after) ∧
        (Nearest 53 (denoted radix digits) value ↔ ¬ Lost 53 radix 0 (values radix digits))) ∧
    ∀ radix ∈ [2, 4, 8, 16, 32], (∀ c ∈ digits, isDigit radix c = true) →
      ∀ argument, toInt32 argument = radix →
      ∀ white : List UInt16, (∀ unit ∈ white, isWhitespace unit = true) →
      ∀ sign ∈ [[], ['+'], ['-']], ∃ value,
        parseInt (white ++ (sign ++ digits).flatMap JsString.encodeUtf16) (some argument) =
          some (sign == ['-'], value) ∧
        (Nearest 53 (denoted radix digits) value ↔ ¬ Lost 53 radix 0 (values radix digits)) := by
  have hpower : ∀ radix ∈ [2, 4, 8, 16, 32],
      Nearest 53 (denoted radix digits) (folded radix digits) ↔
        ¬ Lost 53 radix 0 (values radix digits) := by
    intro radix hradix
    simp only [List.mem_cons, List.not_mem_nil, or_false] at hradix
    rcases hradix with rfl | rfl | rfl | rfl | rfl
    · exact nearest_folded_iff digits 1
    · exact nearest_folded_iff digits 2
    · exact nearest_folded_iff digits 3
    · exact nearest_folded_iff digits 4
    · exact nearest_folded_iff digits 5
  refine ⟨fun letter radix hletter hdigits after hafter => ?_,
    fun radix hradix hdigits argument hargument white hwhite sign hsign => ?_⟩
  · have hall : radixPrefixes.all (fun entry => [2, 4, 8, 16, 32].contains entry.2) = true := by
      decide
    have hradix := List.contains_iff_mem.1 (List.all_eq_true.1 hall _ hletter)
    exact ⟨_, readRadix_digits hletter hne hdigits hafter, hpower radix hradix⟩
  · exact ⟨_, parseInt_digits hradix hargument hwhite hsign hne hdigits, hpower radix hradix⟩

theorem radix_nearest_iff_ff : ∃ value, readRadix "0xff;".toList = some (.number value, [';']) ∧
    (Nearest 53 (denoted 16 ['f', 'f']) value ↔ ¬ Lost 53 16 0 (values 16 ['f', 'f'])) := by
  have hall : ['f', 'f'].all (isDigit 16) = true := by decide
  exact (radix_nearest_iff ['f', 'f'] (List.cons_ne_nil _ _)).1 'x' 16 (by decide)
    (List.all_eq_true.1 hall) [';'] fun c hc => by
      cases hc
      decide

/-- One half above an even number, and one sixteenth more. -/
def lostDigits : List Char := "200000000000011".toList

theorem lost_sticky_bit : ∃ value,
    readRadix ('0' :: 'x' :: lostDigits) = some (.number value, []) ∧
      ¬ Nearest 53 (denoted 16 lostDigits) value := by
  refine ⟨folded 16 lostDigits, rfl, fun h => ?_⟩
  refine (nearest_folded_iff lostDigits 4).1 h ?_
  have hvalues : values (2 ^ 4) lostDigits = [2, 0, 0, 0, 0, 0, 0, 0, 0, 0, 0, 0, 0, 1, 1] := by
    decide
  have hulp : ulp 53 (2 ^ 53 + 1) = 2 ^ 1 := ulp_eq (by decide) (by decide) (by decide)
  have hhalf : Halfway 53 (2 ^ 53 + 1) := by
    rw [Halfway, hulp]
    decide
  rw [hvalues]
  simp only [Lost, Nat.reducePow, Nat.reduceMul, Nat.reduceAdd, Nat.reduceLT, if_true, if_false]
  exact ⟨hhalf, 1, List.mem_singleton_self 1, by decide⟩

end NapiVm.NumberText
