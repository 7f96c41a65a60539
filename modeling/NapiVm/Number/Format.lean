import NapiVm.Number.BigNat
import NapiVm.Number.ToString

/-!
# Numbers with so many digits

* `roundedDecimalInteger` — a number times a power of ten, rounded once.
* `significantDigits` — the first digits of a number, and the exponent of the first one.
* `numberToFixed`, `numberToPrecision`, `numberToExponential` — the methods of numbers.
-/

namespace NapiVm.NumberText

/-! ## Integers -/

/-- `binary_rational`, of the magnitude of a finite number. -/
def binaryRational (number : UInt64) : Except String (Nat × Nat) :=
  let exponent := Binary64.exponent number
  let mantissa := Binary64.fraction number + if exponent = 0 then 0 else 2 ^ 52
  let shift : Int := if exponent = 0 then -1074 else exponent - 1075
  if 0 ≤ shift then do
    let numerator ← BigNat.shl mantissa shift.toNat
    .ok (numerator, 1)
  else do
    let denominator ← BigNat.shl 1 (-shift).toNat
    .ok (mantissa, denominator)

/-- The fraction times a power of ten. -/
def scaled (numerator denominator : Nat) (scale : Int) : Except String (Nat × Nat) := do
  let power ← BigNat.pow 10 scale.natAbs
  if 0 ≤ scale then do
    let numerator ← BigNat.mul numerator power
    .ok (numerator, denominator)
  else do
    let denominator ← BigNat.mul denominator power
    .ok (numerator, denominator)

/-- `rounded_decimal_integer`. -/
def roundedDecimalInteger (number : UInt64) (scale : Int) : Except String Nat := do
  let (numerator, denominator) ← binaryRational number
  let (numerator, denominator) ← scaled numerator denominator scale
  let doubled ← BigNat.shl numerator 1
  let sum ← BigNat.add doubled denominator
  let divisor ← BigNat.shl denominator 1
  BigNat.div sum divisor

/-- `to_decimal`. -/
def toDecimal (n : Nat) : List Char := (if n = 0 then ['0'] else digitLoop 10 n).reverse

/-! ## Digits -/

/-- `compare_power`: whether the fraction is less than a power of ten. -/
def lessThanPower (numerator denominator : Nat) (exponent : Int) : Except String Bool := do
  let power ← BigNat.pow 10 exponent.natAbs
  if 0 ≤ exponent then do
    let right ← BigNat.mul denominator power
    .ok (decide (numerator < right))
  else do
    let left ← BigNat.mul numerator power
    .ok (decide (left < denominator))

/-- The first loop on the exponent, with more steps than it takes. -/
def descend (numerator denominator : Nat) : Nat → Int → Except String Int
  | 0, exponent => .ok exponent
  | steps + 1, exponent => do
      let less ← lessThanPower numerator denominator exponent
      if less then descend numerator denominator steps (exponent - 1) else .ok exponent

/-- The second loop. -/
def ascend (numerator denominator : Nat) : Nat → Int → Except String Int
  | 0, exponent => .ok exponent
  | steps + 1, exponent => do
      let less ← lessThanPower numerator denominator (exponent + 1)
      if less then .ok exponent else ascend numerator denominator steps (exponent + 1)

/-- `significant_digits`, from an estimate of the exponent. -/
def significantDigits (number : UInt64) (precision : Nat) (estimate : Int) :
    Except String (List Char × Int) :=
  if Binary64.isZero number then .ok (List.replicate precision '0', 0)
  else do
    let (numerator, denominator) ← binaryRational number
    let exponent ← descend numerator denominator (estimate.natAbs + 700) estimate
    let exponent ← ascend numerator denominator (exponent.natAbs + 700) exponent
    let integer ← roundedDecimalInteger number (precision - 1 - exponent)
    let text := toDecimal integer
    if precision < text.length then .ok (text.take precision, exponent + 1)
    else .ok (text, exponent)

/-- `{exponent:+}`. -/
def signed (exponent : Int) : List Char :=
  (if exponent < 0 then '-' else '+') :: toDecimal exponent.natAbs

/-- `exponential_digits`. -/
def exponentialDigits (digits : List Char) (exponent : Int) : List Char :=
  if digits.length = 1 then digits ++ 'e' :: signed exponent
  else digits.take 1 ++ '.' :: digits.drop 1 ++ 'e' :: signed exponent

/-! ## Methods -/

/-- `value < 0.0`. -/
def negative (value : UInt64) : Bool := Binary64.sign value && !Binary64.isZero value

/-- A sign before the text of a magnitude. -/
def withSign (value : UInt64) (text : List Char) : List Char :=
  if negative value then '-' :: text else text

/-- `to_integer_or_infinity`, where the result is a count from `low` to 100. -/
def countOf (low : Nat) (number : UInt64) : Option Nat :=
  let count : Nat := if Binary64.isNan number then 0 else Binary64.trunc number
  if (Binary64.sign number && !Binary64.isNan number && decide (count ≠ 0)) = true then none
  else if low ≤ count ∧ count ≤ 100 then some count else none

/-- The text of digits with the point in its place, or with an exponent. -/
def precisionText (text : List Char) (digits : Nat) (exponent : Int) : List Char :=
  if exponent < -6 ∨ digits ≤ exponent then exponentialDigits text exponent
  else if 0 ≤ exponent then
    let point := exponent.toNat + 1
    if text.length ≤ point then text ++ List.replicate (point - text.length) '0'
    else text.take point ++ '.' :: text.drop point
  else '0' :: '.' :: List.replicate (-exponent - 1).toNat '0' ++ text

/-- Zero, with so many digits behind the point. -/
def zeroText (decimals : Nat) : List Char :=
  if decimals = 0 then ['0'] else '0' :: '.' :: List.replicate decimals '0'

section Methods

/- The text of `ecmascript_number_string`, its digits with the exponent of the first one, and the
estimate from `log10`. -/
variable (ecmascriptNumberString : UInt64 → List Char)
  (shortestDigits : UInt64 → List Char × Int) (estimate : Int)

/-- `number_to_precision`. -/
def numberToPrecision (value : UInt64) (argument : Option UInt64) : Except String (List Char) :=
  match argument with
  | none => .ok (ecmascriptNumberString value)
  | some number =>
    if !Binary64.isFinite value then .ok (ecmascriptNumberString value)
    else
      match countOf 1 number with
      | none => .error "RangeError: toPrecision() argument must be between 1 and 100"
      | some digits =>
        if Binary64.isZero value then .ok (zeroText (digits - 1))
        else do
          let (text, exponent) ← significantDigits value digits estimate
          .ok (withSign value (precisionText text digits exponent))

/-- `number_to_exponential`. -/
def numberToExponential (value : UInt64) (argument : Option UInt64) :
    Except String (List Char) :=
  if !Binary64.isFinite value then .ok (ecmascriptNumberString value)
  else
    match argument with
    | none =>
      let (digits, exponent) := shortestDigits value
      .ok (withSign value (exponentialDigits digits exponent))
    | some number =>
      match countOf 0 number with
      | none => .error "RangeError: toExponential digits must be between 0 and 100"
      | some fraction => do
          let (digits, exponent) ← significantDigits value (fraction + 1) estimate
          .ok (withSign value (exponentialDigits digits exponent))

/-- The text of an integer with so many digits behind the point. -/
def fixedText (integer digits : Nat) : List Char :=
  let text := toDecimal integer
  if digits = 0 then text
  else
    let text := List.replicate (digits + 1 - text.length) '0' ++ text
    text.take (text.length - digits) ++ '.' :: text.drop (text.length - digits)

/-- `number_to_fixed`; an argument that is not there converts to a NaN. -/
def numberToFixed (value : UInt64) (argument : Option UInt64) : Except String (List Char) :=
  match countOf 0 (argument.getD Binary64.nan) with
  | none => .error "RangeError: toFixed digits must be between 0 and 100"
  | some digits =>
    if !Binary64.isFinite value || decide (10 ^ 21 ≤ Binary64.trunc value) then
      .ok (ecmascriptNumberString value)
    else do
      let integer ← roundedDecimalInteger value digits
      .ok (withSign value (fixedText integer digits))

end Methods

end NapiVm.NumberText
