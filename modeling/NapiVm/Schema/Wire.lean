import NapiVm.Schema.Value

/-!
# The wire types of strings

Decimals, bytes in base64 and points in time, each in its one canonical text.
-/

namespace NapiVm.Schema

/-! ## Decimals -/

/-- `canonical_decimal`. -/
def canonicalDecimal (s : List Char) (signed : Bool) : Bool :=
  let digits (d : List Char) : Bool :=
    d ≠ [] && d.all Char.isDigit && (d.length = 1 || d.head? ≠ some '0')
  match s with
  | '-' :: x => if !signed || x = ['0'] then false else digits x
  | d => digits d

/-- `parse`, before the range is checked. -/
def parseInt (s : List Char) : Option Int :=
  let magnitude (d : List Char) : Option Nat :=
    if d ≠ [] ∧ d.all Char.isDigit then some (digitsValue d) else none
  match s with
  | '-' :: d => (magnitude d).map fun n => -(n : Int)
  | '+' :: d => (magnitude d).map fun n => (n : Int)
  | d => (magnitude d).map fun n => (n : Int)

/-- `parse::<i64>`. -/
def parseI64 (s : List Char) : Option Int :=
  (parseInt s).filter fun n => -2 ^ 63 ≤ n ∧ n < 2 ^ 63

/-- `parse::<u64>`, of a text without a sign. -/
def parseU64 (s : List Char) : Option Int := (parseInt s).filter fun n => 0 ≤ n ∧ n < 2 ^ 64

/-! ## Bytes -/

/-- `as_bytes`. -/
def asBytes (s : String) : List UInt8 := s.toList.flatMap String.utf8EncodeChar

/-- `val`: the six bits that a letter stands for. -/
def sextet (b : UInt8) : Option Nat :=
  let n := b.toNat
  if 65 ≤ n ∧ n ≤ 90 then some (n - 65)
  else if 97 ≤ n ∧ n ≤ 122 then some (n - 97 + 26)
  else if 48 ≤ n ∧ n ≤ 57 then some (n - 48 + 52)
  else if n = 43 then some 62
  else if n = 47 then some 63
  else none

/-- `canonical_base64`. -/
def canonicalBase64 (b : List UInt8) : Bool :=
  if b.length % 4 ≠ 0 then false
  else if b = [] then true
  else
    let padding := (b.reverse.takeWhile (· = 61)).length
    if 2 < padding then false
    else if (b.take (b.length - padding)).any (fun c => sextet c = none) then false
    else
      match padding with
      | 1 => ((b[b.length - 2]?).bind sextet).any fun v => v % 4 = 0
      | 2 => ((b[b.length - 3]?).bind sextet).any fun v => v % 16 = 0
      | _ => true

/-! ## Points in time -/

/-- `n(a, z)`. -/
def digitsAt (b : List UInt8) (a z : Nat) : Option Nat :=
  let p := (b.drop a).take (z - a)
  if p.all (fun c => 48 ≤ c.toNat ∧ c.toNat ≤ 57) then
    some (p.foldl (fun n c => n * 10 + (c.toNat - 48)) 0)
  else none

/-- The number of days in a month, if it is one. -/
def daysIn (y m : Nat) : Option Nat :=
  if m = 1 ∨ m = 3 ∨ m = 5 ∨ m = 7 ∨ m = 8 ∨ m = 10 ∨ m = 12 then some 31
  else if m = 4 ∨ m = 6 ∨ m = 9 ∨ m = 11 then some 30
  else if m = 2 then
    some (if y % 4 = 0 ∧ (y % 100 ≠ 0 ∨ y % 400 = 0) then 29 else 28)
  else none

/-- `utc_datetime`. -/
def utcDatetime (b : List UInt8) : Bool :=
  if b.length ≠ 24 || b[4]? ≠ some 45 || b[7]? ≠ some 45 || b[10]? ≠ some 84 ||
      b[13]? ≠ some 58 || b[16]? ≠ some 58 || b[19]? ≠ some 46 || b[23]? ≠ some 90 then false
  else
    match digitsAt b 0 4, digitsAt b 5 7, digitsAt b 8 10, digitsAt b 11 13, digitsAt b 14 16,
      digitsAt b 17 19, digitsAt b 20 23 with
    | some y, some m, some d, some h, some min, some sec, some _ =>
      match daysIn y m with
      | none => false
      | some days => 1 ≤ y && 1 ≤ d && d ≤ days && h < 24 && min < 60 && sec < 60
    | _, _, _, _, _, _, _ => false

end NapiVm.Schema
