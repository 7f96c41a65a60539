import NapiVm.Date.Civil
import NapiVm.Lib.Decimal
import NapiVm.Schema.Wire
import NapiVm.Text.Str

/-!
# Dates as texts

The three texts that the `Date` builtin writes, and the one parser that reads them, with what else
it reads.

* `toIso`, `formatDate` — `toISOString`, `toString` and `toUTCString`.
* `parseIso` — the parser: words first, then the legacy forms, then the ISO form.
-/

namespace NapiVm.DateText

open Binary64 CivilDays Str Schema

/-! ## Time values -/

/-- The units of a number without its sign. -/
def magnitude (ms : UInt64) : Nat := units (ms.toNat % 2 ^ 63)

/-- `as i64`, of a number that is not too large. -/
def truncate (ms : UInt64) : Int :=
  if Binary64.sign ms then -((magnitude ms / one : Nat) : Int) else (magnitude ms / one : Nat)

/-- `Civil`. -/
structure Civil where
  year : Int
  month : Int
  day : Int
  hour : Int
  minute : Int
  second : Int
  millis : Int
  weekday : Int

/-- `civil`.  The days are so few that nothing overflows. -/
def civil (ms : UInt64) : Option Civil :=
  if !isFinite ms || decide (8640000000000000 * one < magnitude ms) then none
  else
    let total := truncate ms
    let days := total / 86400000
    let rest := total % 86400000
    (civilFromDays i64 days).map fun date =>
      { year := date.1
        month := date.2.1
        day := date.2.2
        hour := rest / 3600000
        minute := rest / 60000 % 60
        second := rest / 1000 % 60
        millis := rest % 1000
        weekday := (days + 4) % 7 }

/-- `utc_ms`.  No part of a text has so many digits that something overflows. -/
def utcMs (year month day hour minute second ms : Int) : UInt64 :=
  let days := (daysFromCivil i128 year month day).getD 0
  let secs := days * 86400 + hour * 3600 + minute * 60 + second
  Binary64.ofInt (secs * 1000 + ms)

/-! ## From time values -/

/-- Digits with zeros before them. -/
def padded (width n : Nat) : List Char :=
  List.replicate (width - (Nat.toDigits 10 n).length) '0' ++ Nat.toDigits 10 n

/-- `{:0width}`. -/
def zeros (width : Nat) (n : Int) : List Char :=
  if n < 0 then '-' :: padded (width - 1) n.natAbs else padded width n.natAbs

/-- `{:+0width}`. -/
def signedZeros (width : Nat) (n : Int) : List Char :=
  (if n < 0 then '-' else '+') :: padded (width - 1) n.natAbs

def weekdays : List (List Char) :=
  ["Sun", "Mon", "Tue", "Wed", "Thu", "Fri", "Sat"].map String.toList

def months : List (List Char) :=
  ["Jan", "Feb", "Mar", "Apr", "May", "Jun", "Jul", "Aug", "Sep", "Oct", "Nov",
    "Dec"].map String.toList

/-- `to_iso`. -/
def toIso (ms : UInt64) : List Char :=
  match civil ms with
  | some c =>
    let year := if 0 ≤ c.year ∧ c.year ≤ 9999 then zeros 4 c.year else signedZeros 7 c.year
    year ++ '-' :: zeros 2 c.month ++ '-' :: zeros 2 c.day ++ 'T' :: zeros 2 c.hour ++
      ':' :: zeros 2 c.minute ++ ':' :: zeros 2 c.second ++ '.' :: zeros 3 c.millis ++ ['Z']
  | none => "Invalid Date".toList

/-- `DateFormat`. -/
inductive DateFormat where
  | full
  | date
  | time
  | utc
  deriving DecidableEq

/-- `format_date`. -/
def formatDate (ms : UInt64) (format : DateFormat) : List Char :=
  match civil ms with
  | none => "Invalid Date".toList
  | some c =>
    let year := if c.year < 0 then '-' :: zeros 4 (-c.year) else zeros 4 c.year
    let weekday := weekdays.getD c.weekday.toNat []
    let month := months.getD (c.month.toNat - 1) []
    let date := weekday ++ ' ' :: month ++ ' ' :: zeros 2 c.day ++ ' ' :: year
    let time := zeros 2 c.hour ++ ':' :: zeros 2 c.minute ++ ':' :: zeros 2 c.second
    match format with
    | .date => date
    | .time => time ++ " GMT+0000 (Coordinated Universal Time)".toList
    | .full => date ++ ' ' :: time ++ " GMT+0000 (Coordinated Universal Time)".toList
    | .utc =>
      weekday ++ ',' :: ' ' :: zeros 2 c.day ++ ' ' :: month ++ ' ' :: year ++ ' ' :: time ++
        " GMT".toList

/-! ## To time values -/

/-- `legacy_year`. -/
def legacyYear (year : Int) : Int :=
  if 0 ≤ year ∧ year ≤ 49 then year + 2000
  else if 50 ≤ year ∧ year ≤ 99 then year + 1900
  else year

/-- `legacy_civil`. -/
def legacyCivil (year month day : Int) : Option UInt64 :=
  if ¬ (1 ≤ month ∧ month ≤ 12) ∨ ¬ (1 ≤ day ∧ day ≤ 31) then none
  else some (utcMs (legacyYear year) month day 0 0 0 0)

/-- A part that is not a number. -/
def notDigits (part : List Char) : Bool := part.isEmpty || !part.all Char.isDigit

/-- The first three bytes are a month's name. -/
def monthOf (word : List Char) : Option Nat :=
  (getTo 3 word).bind fun name => months.findIdx? fun month => eqIgnoreAsciiCase name month

/-- `parse_legacy_civil`, of a text with a slash. -/
def parseSlashes (text : List Char) : Option UInt64 :=
  match split (· == '/') text with
  | [x, y, z] =>
    if notDigits x || notDigits y || notDigits z then none
    else do
      let a ← parseI64 x
      let b ← parseI64 y
      let c ← parseI64 z
      if a > 31 then legacyCivil a b c else legacyCivil c a b
  | _ => none

/-- `parse_legacy_civil`. -/
def parseLegacyCivil (text : List Char) : Option UInt64 :=
  if text.contains '/' then parseSlashes text
  else
    let words := splitWhitespace text
    if words.length ≠ 3 then none
    else do
      let monthIndex ← words.findIdx? fun word => (monthOf word).isSome
      let month ← monthOf (words.getD monthIndex [])
      let nums ← (words.eraseIdx monthIndex).mapM fun word => parseI64 (trimEndMatches ',' word)
      let year := if nums.getD 0 0 > 31 then nums.getD 0 0 else nums.getD 1 0
      let day := if nums.getD 0 0 > 31 then nums.getD 1 0 else nums.getD 0 0
      legacyCivil year (month + 1) day

/-- `parse_iso`, of words that begin with a day of the week. -/
def parseWords (words : List (List Char)) : Option UInt64 := do
  let word := words.getD
  let utc := (word 0 []).getLast? == some ','
  let day := if utc then word 1 [] else word 2 []
  let month := if utc then word 2 [] else word 1 []
  let month ← months.findIdx? (· == month)
  if utc && word 5 [] != "GMT".toList || !utc && word 5 [] != "GMT+0000".toList then none
  else
    match split (· == ':') (word 4 []) with
    | [hour, minute, second] =>
      return utcMs (← parseI64 (word 3 [])) (month + 1) (← parseI64 day) (← parseI64 hour)
        (← parseI64 minute) (← parseI64 second) 0
    | _ => none

/-- The offset of a zone, behind its sign. -/
def parseZone (strict : Bool) (sign : Char) (tz : List Char) : Option Int := do
  if !tz.all fun c => c.toNat < 128 then none
  else
    let (hh, mm) ←
      match splitOnce [':'] tz with
      | some (hours, minutes) =>
        if len hours ≠ 2 ∨ len minutes ≠ 2 then none else some (hours, minutes)
      | none =>
        if len tz = 4 then some (tz.take 2, tz.drop 2)
        else if len tz = 2 ∧ strict = false then some (tz, ['0', '0'])
        else none
    let tzh ← parseI64 hh
    let tzm ← parseI64 mm
    if tzh > 23 ∨ tzm > 59 then none
    else
      let mag := tzh * 3600 + tzm * 60
      return if sign = '-' then -mag else mag

/-- A time without its zone, and the offset of the zone. -/
def peelZone (strict : Bool) (t : List Char) : Option (List Char × Int) :=
  match splitOnce ['Z'] t with
  | some (before, behind) => if behind ≠ [] then none else some (before, 0)
  | none =>
    match rfind (fun c => c == '+' || c == '-') t with
    | some (before, sign, tz) => (parseZone strict sign tz).map fun offset => (before, offset)
    | none => some (t, 0)

/-- A part of a time that is not one. -/
def badPart (strict : Bool) (part : List Char) : Bool :=
  part.isEmpty || decide (2 < len part) || !part.all Char.isDigit || strict && len part != 2

/-- The milliseconds of a fraction. -/
def fractionMillis (fr : List Char) : Int :=
  let digits := fr.take 3
  (parseI64 (digits ++ List.replicate (3 - digits.length) '0')).getD 0

/-- A time of the day and the offset of its zone. -/
def parseTime (strict : Bool) (t : List Char) : Option (Int × Int × Int × Int × Int) := do
  let (t, offset) ← peelZone strict t
  let (hms, frac) :=
    match splitOnce ['.'] t with
    | some (hms, frac) => (hms, some frac)
    | none => (t, none)
  let parts := split (· == ':') hms
  if ¬ (2 ≤ parts.length ∧ parts.length ≤ 3) ∨ parts.any (badPart strict) then none
  else
    let hour ← parseI64 (parts.getD 0 [])
    let minute ← parseI64 (parts.getD 1 [])
    let second ← if parts.length = 3 then parseI64 (parts.getD 2 []) else some 0
    if hour > 24 ∨ minute > 59 ∨ second > 59 ∨ hour = 24 ∧ (minute ≠ 0 ∨ second ≠ 0) then none
    else
      match frac with
      | none => return (hour, minute, second, 0, offset)
      | some fr =>
        if parts.length ≠ 3 ∨ notDigits fr then none
        else if hour = 24 ∧ fractionMillis fr ≠ 0 then none
        else return (hour, minute, second, fractionMillis fr, offset)

/-- The difference of a whole number and an offset in seconds. -/
def minusSeconds (base : UInt64) (offset : Int) : UInt64 :=
  Binary64.ofInt ((Binary64.toInt? base).getD 0 - offset * 1000)

/-- `parse_iso`, of a date and perhaps a time. -/
def parseDate (s : List Char) : Option UInt64 := do
  let strict := s.contains 'T'
  let (date, time) :=
    match splitOnce ['T'] s with
    | some (date, time) => (date, some time)
    | none =>
      match splitOnce [' '] s with
      | some (date, time) => (date, some time)
      | none => (s, none)
  let negative := date.head? == some '-'
  let dseps := split (fun c => c == '-' || c == '/')
    (date.dropWhile fun c => c == '-' || c == '+')
  if 3 < dseps.length ∨ dseps.any notDigits then none
  else
    let yearWidth := if date.head? = some '+' ∨ date.head? = some '-' then 6 else 4
    if strict ∧ (dseps.length ≠ 3 ∨ len (dseps.getD 0 []) ≠ yearWidth ∨ len (dseps.getD 1 []) ≠ 2 ∨
        len (dseps.getD 2 []) ≠ 2) then none
    else
      let year ← parseI64 (dseps.getD 0 [])
      if negative ∧ year = 0 then none
      else
        let year := if negative then -year else year
        let month := ((dseps[1]?).bind parseI64).getD 1
        let day := ((dseps[2]?).bind parseI64).getD 1
        if ¬ (1 ≤ month ∧ month ≤ 12) ∨ ¬ (1 ≤ day ∧ day ≤ 31) then none
        else
          let (hour, minute, second, millis, offset) ←
            match time with
            | some t => parseTime strict t
            | none => some (0, 0, 0, 0, 0)
          return minusSeconds (utcMs year month day hour minute second millis) offset

/-- `parse_iso`. -/
def parseIso (s : List Char) : Option UInt64 :=
  let s := trim s
  let words := splitWhitespace s
  if 6 ≤ words.length ∧ weekdays.contains (trimEndMatches ',' (words.getD 0 [])) then
    parseWords words
  else if s.contains '/' || words.any fun word => (monthOf word).isSome then parseLegacyCivil s
  else parseDate s

end NapiVm.DateText
