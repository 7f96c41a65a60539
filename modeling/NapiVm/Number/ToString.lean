import NapiVm.Number.ParseRadix

/-!
# Writing numbers in other radices

* `numberToString` — `Number.prototype.toString`, with a radix.
* `integer?` — the integer that a text denotes.
* `toString_exact_iff` — when the digits of an integral number are exact.
-/

namespace NapiVm.NumberText

open Binary64

/-! ## Digits -/

/-- `to_integer_or_infinity`, where the result is in the range of radices. -/
def radixOf (number : UInt64) : Option Nat :=
  if isNan number || !isFinite number || sign number then none
  else
    let radix := trunc number
    if 2 ≤ radix ∧ radix ≤ 36 then some radix else none

/-- The loop over the digits, the last one first. -/
def digitLoop (radix magnitude : Nat) : List Char :=
  if magnitude = 0 ∨ radix < 2 then []
  else fromDigit (magnitude % radix) :: digitLoop radix (magnitude / radix)
  termination_by magnitude
  decreasing_by
    exact Nat.div_lt_self (by omega) (by omega)

/-- `number_to_string`, of a number and the one that the radix argument converts to.  A magnitude
beyond `u128::MAX` becomes that one. -/
def numberToString (ecmascriptNumberString : UInt64 → List Char) (value : UInt64)
    (argument : Option UInt64) : Except String (List Char) :=
  match (argument.map radixOf).getD (some 10) with
  | none => .error "RangeError: toString() radix must be between 2 and 36"
  | some radix =>
    if radix = 10 then .ok (ecmascriptNumberString value)
    else if !isFinite value then .ok (ecmascriptNumberString value)
    else
      let negative := sign value && !isZero value
      let magnitude := min (trunc value) (2 ^ 128 - 1)
      let digits := if magnitude = 0 then ['0'] else digitLoop radix magnitude
      .ok (digits ++ if negative then ['-'] else []).reverse

/-- The integer that a text of digits denotes, if it is one. -/
def integer? (radix : Nat) (text : List Char) : Option Int :=
  let digits := if text.head? = some '-' then text.tail else text
  if digits ≠ [] ∧ digits.all (isDigit radix) = true then
    some (if text.head? = some '-' then -(denoted radix digits : Int) else denoted radix digits)
  else none

/-- No zero stands before other digits. -/
def NoLeadingZero (text : List Char) : Prop :=
  let digits := if text.head? = some '-' then text.tail else text
  digits.head? = some '0' → digits = ['0']

section ToString

variable {radix : Nat} (hlow : 2 ≤ radix) (hhigh : radix ≤ 36)

theorem toDigit_fromDigit {digit : Nat} (hdigit : digit < radix) (hhigh : radix ≤ 36) :
    toDigit (fromDigit digit) radix = some digit := by
  have hall : ∀ i : Fin 36, toDigit (fromDigit i) 36 = some i.val := by decide
  have hvalue := hall ⟨digit, by omega⟩
  unfold toDigit at hvalue ⊢
  simp only [Option.ite_none_right_eq_some, Option.some.injEq] at hvalue ⊢
  have hrange : 48 ≤ (fromDigit digit).toNat ∧ (fromDigit digit).toNat ≤ 57 ∨
      97 ≤ (fromDigit digit).toNat ∧ (fromDigit digit).toNat ≤ 122 := by
    have hranges : ∀ i : Fin 36, 48 ≤ (fromDigit i).toNat ∧ (fromDigit i).toNat ≤ 57 ∨
        97 ≤ (fromDigit i).toNat ∧ (fromDigit i).toNat ≤ 122 := by decide
    exact hranges ⟨digit, by omega⟩
  rcases hrange with hrange | hrange
  · rw [if_pos hrange] at hvalue ⊢
    omega
  · rw [if_neg (by omega), if_pos hrange] at hvalue ⊢
    omega

include hlow hhigh

/-- The loop gives digits, and they denote the magnitude. -/
theorem digitLoop_spec (magnitude : Nat) :
    (∀ c ∈ digitLoop radix magnitude, isDigit radix c = true) ∧
      denoted radix (digitLoop radix magnitude).reverse = magnitude := by
  induction magnitude using digitLoop.induct radix with
  | case1 magnitude hend =>
    rw [digitLoop, if_pos hend]
    refine ⟨fun c hc => absurd hc List.not_mem_nil, ?_⟩
    exact (hend.resolve_right (by omega)).symm
  | case2 magnitude hgoes ih =>
    obtain ⟨hdigits, hvalue⟩ := ih
    have hdigit := toDigit_fromDigit (Nat.mod_lt magnitude (by omega : 0 < radix)) hhigh
    rw [digitLoop, if_neg hgoes]
    constructor
    · refine List.forall_mem_cons.2 ⟨?_, hdigits⟩
      rw [isDigit, hdigit]
      rfl
    · rw [List.reverse_cons, denoted, values, List.map_append, List.foldl_append]
      rw [denoted, values] at hvalue
      rw [hvalue, List.map_singleton, hdigit]
      exact Nat.div_add_mod' magnitude radix

/-- The first digit is not zero. -/
theorem head?_digitLoop {magnitude : Nat} (hpos : magnitude ≠ 0) :
    ∃ digit, 0 < digit ∧ digit < radix ∧
      (digitLoop radix magnitude).reverse.head? = some (fromDigit digit) := by
  induction magnitude using digitLoop.induct radix with
  | case1 magnitude hend => exact absurd (hend.resolve_right (by omega)) hpos
  | case2 magnitude hgoes ih =>
    rw [digitLoop, if_neg hgoes, List.reverse_cons]
    by_cases hlast : magnitude / radix = 0
    · have hsmall : magnitude < radix := (Nat.div_eq_zero_iff_lt (by omega)).1 hlast
      refine ⟨magnitude, Nat.pos_of_ne_zero hpos, hsmall, ?_⟩
      rw [hlast, digitLoop, if_pos (.inl rfl), Nat.mod_eq_of_lt hsmall]
      rfl
    · obtain ⟨digit, hdigit, hlt, hhead⟩ := ih hlast
      refine ⟨digit, hdigit, hlt, ?_⟩
      rw [List.head?_append, hhead]
      rfl

end ToString

theorem reverse_digits {radix : Nat} (hlow : 2 ≤ radix) (hhigh : radix ≤ 36) (magnitude : Nat) :
    ∃ digits : List Char,
      (if magnitude = 0 then ['0'] else digitLoop radix magnitude).reverse = digits ∧
      digits ≠ [] ∧ digits.head? ≠ some '-' ∧ digits.all (isDigit radix) = true ∧
      denoted radix digits = magnitude ∧ (digits.head? = some '0' → digits = ['0']) := by
  by_cases hmagnitude : magnitude = 0
  · have hzero := toDigit_fromDigit (show 0 < radix by omega) hhigh
    refine ⟨['0'], by rw [if_pos hmagnitude]; rfl, List.cons_ne_nil _ _, by decide, ?_, ?_,
      fun _ => rfl⟩
    · rw [List.all_cons, List.all_nil, Bool.and_true, isDigit]
      exact congrArg Option.isSome hzero
    · rw [denoted, values, List.map_singleton]
      exact (congrArg (fun digit => 0 * radix + Option.getD digit 0) hzero).trans
        (by rw [Nat.zero_mul, hmagnitude]; rfl)
  · obtain ⟨hdigits, hvalue⟩ := digitLoop_spec hlow hhigh magnitude
    obtain ⟨digit, hpos, hlt, hhead⟩ := head?_digitLoop hlow hhigh hmagnitude
    have hall : ∀ i : Fin 36, fromDigit i ≠ '-' ∧ (fromDigit i = '0' → i.val = 0) := by decide
    obtain ⟨hminus, hzero⟩ := hall ⟨digit, by omega⟩
    refine ⟨_, rfl, ?_, ?_, ?_, ?_, ?_⟩
    · rw [if_neg hmagnitude]
      intro hnil
      rw [hnil] at hhead
      cases hhead
    · rw [if_neg hmagnitude, hhead]
      exact fun h => hminus (Option.some.inj h)
    · rw [if_neg hmagnitude, List.all_reverse]
      exact List.all_eq_true.2 hdigits
    · rw [if_neg hmagnitude, hvalue]
    · rw [if_neg hmagnitude, hhead]
      exact fun h => absurd (hzero (Option.some.inj h)) (Nat.ne_of_gt hpos)

/-- What a number without a fraction is made of. -/
theorem of_toInt? {value : UInt64} {n : Int} (h : toInt? value = some n) :
    isFinite value = true ∧ trunc value = n.natAbs ∧
      n = if sign value && !isZero value then -(n.natAbs : Int)
        else n.natAbs := by
  obtain ⟨m, hm, rfl⟩ := Option.map_eq_some_iff.1 h
  obtain ⟨hfinite, htrunc, hzero⟩ := of_magnitude? hm
  have hsigned : (if sign value then -(m : Int) else m).natAbs = m := by
    split <;> omega
  rw [hsigned]
  refine ⟨hfinite, htrunc, ?_⟩
  cases hz : isZero value with
  | true =>
    obtain rfl := hzero.1 hz
    rw [Bool.not_true, Bool.and_false]
    split <;> rfl
  | false => rw [Bool.not_false, Bool.and_true]

section

variable {value number : UInt64} {radix : Nat} {n : Int}

theorem radixOf_range (h : radixOf number = some radix) : 2 ≤ radix ∧ radix ≤ 36 := by
  unfold radixOf at h
  split at h
  · cases h
  · simp only [Option.ite_none_right_eq_some] at h
    rw [← Option.some.inj h.2]
    exact h.1

/-- The text of a finite number: the digits of what `u128` keeps of the magnitude. -/
theorem numberToString_text (ecmascriptNumberString : UInt64 → List Char)
    (hradix : radixOf number = some radix) (hten : radix ≠ 10)
    (hfinite : isFinite value = true) :
    ∃ text, numberToString ecmascriptNumberString value (some number) = .ok text ∧
      NoLeadingZero text ∧ integer? radix text =
        some (if sign value && !isZero value then
          -((min (trunc value) (2 ^ 128 - 1) : Nat) : Int)
        else (min (trunc value) (2 ^ 128 - 1) : Nat)) := by
  obtain ⟨hlow, hhigh⟩ := radixOf_range hradix
  rw [numberToString, Option.map_some, Option.getD_some, hradix]
  simp only [hten, if_false, hfinite, Bool.not_true, Bool.false_eq_true]
  refine ⟨_, rfl, ?_⟩
  generalize min (trunc value) (2 ^ 128 - 1) = magnitude
  obtain ⟨digits, htext, hne, hsign, hall, hvalue, hzero⟩ := reverse_digits hlow hhigh magnitude
  rw [List.reverse_append, htext]
  cases sign value && !isZero value with
  | true =>
    simp only [if_true, List.reverse_singleton, List.singleton_append, NoLeadingZero, integer?,
      List.head?_cons, List.tail_cons, hne, hall, hvalue, ne_eq, not_false_eq_true, and_self]
    exact ⟨hzero, trivial⟩
  | false =>
    simp only [Bool.false_eq_true, if_false, List.reverse_nil, List.nil_append, NoLeadingZero,
      integer?, hsign, hne, hall, hvalue, ne_eq, not_false_eq_true, and_self, if_true]
    exact ⟨hzero, trivial⟩

/-- **Exact digits.**  For an integral number and a radix other than 10, the text denotes the
number, with no zero before it, exactly when the magnitude is one of `u128`. -/
theorem toString_exact_iff (ecmascriptNumberString : UInt64 → List Char)
    (hvalue : toInt? value = some n) (hradix : radixOf number = some radix)
    (hten : radix ≠ 10) :
    ∃ text, numberToString ecmascriptNumberString value (some number) = .ok text ∧
      (integer? radix text = some n ∧ NoLeadingZero text ↔ n.natAbs < 2 ^ 128) := by
  obtain ⟨hfinite, htrunc, hsigned⟩ := of_toInt? hvalue
  obtain ⟨text, htext, hzero, hinteger⟩ :=
    numberToString_text ecmascriptNumberString hradix hten hfinite
  refine ⟨text, htext, ?_⟩
  rw [hinteger, htrunc, and_iff_left hzero, Option.some.injEq]
  cases hminus : sign value && !isZero value with
  | true =>
    rw [hminus, if_pos rfl] at hsigned
    rw [if_pos rfl]
    omega
  | false =>
    rw [hminus, if_neg Bool.false_ne_true] at hsigned
    rw [if_neg Bool.false_ne_true]
    omega

end

theorem toString_exact_iff_ff : ∃ text,
    numberToString (fun _ => []) 0x406FE00000000000 (some 0x4030000000000000) = .ok text ∧
      (integer? 16 text = some 255 ∧ NoLeadingZero text ↔ (255 : Int).natAbs < 2 ^ 128) :=
  toString_exact_iff _ (by decide) (by decide) (by decide)

/-- All digits of `2 ^ 128` are those of the number before it. -/
theorem toString_saturates : toInt? 0x47F0000000000000 = some (2 ^ 128) ∧
    ∃ text, numberToString (fun _ => []) 0x47F0000000000000 (some 0x4030000000000000) = .ok text ∧
      integer? 16 text = some (2 ^ 128 - 1) := by
  have hvalue : toInt? 0x47F0000000000000 = some (2 ^ 128) := by decide
  obtain ⟨hfinite, htrunc, -⟩ := of_toInt? hvalue
  have hradix : radixOf 0x4030000000000000 = some 16 := by decide
  obtain ⟨text, htext, -, hinteger⟩ :=
    numberToString_text (fun _ => []) hradix (by decide) hfinite
  refine ⟨hvalue, text, htext, ?_⟩
  rw [hinteger, htrunc]
  decide

end NapiVm.NumberText
