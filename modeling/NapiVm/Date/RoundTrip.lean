import NapiVm.Date.Text
import NapiVm.Schema.Scalars

/-!
# Dates are read as they are written

* `civil_ofInt`, `utcMs_date` — a time value, the parts of it, and the time value again.
* `parseTime_text`, `parseDate_text`, `parseWords_text` — the parser on the parts of a text.
* `parseIso_formats` — the round trip of the three texts.
-/

namespace NapiVm.DateText

open Binary64 CivilDays Str Schema Calendar List

/-! ## The parts of a time value -/

variable {t : Int} {l : List Char}

theorem magnitude_ofInt (h : t.natAbs < 2 ^ 53) : magnitude (Binary64.ofInt t) = t.natAbs * one :=
  units_of_magnitude? (magnitude?_ofNat _ h).1

theorem truncate_ofInt (h : t.natAbs < 2 ^ 53) : truncate (Binary64.ofInt t) = t := by
  have hsign : Binary64.sign (Binary64.ofInt t) = decide (t < 0) := (magnitude?_ofNat _ h).2
  rw [truncate, hsign, magnitude_ofInt h, Nat.mul_div_cancel _ Binary64.one_pos]
  by_cases ht : t < 0
  · simp only [ht, decide_true, if_true]
    omega
  · simp only [ht, decide_false, Bool.false_eq_true, if_false]
    omega

theorem isFinite_ofInt (h : t.natAbs < 2 ^ 53) : isFinite (Binary64.ofInt t) = true := by
  have hmagnitude := (magnitude?_ofNat (decide (t < 0)) h).1
  rw [isFinite, decide_eq_true_eq, Binary64.ofInt]
  intro hexponent
  rw [magnitude?, if_pos hexponent] at hmagnitude
  cases hmagnitude

/-- The parts of a time value. -/
def parts (t : Int) : Civil :=
  let date := Date.ofDay (t / 86400000)
  { year := date.year
    month := date.month
    day := date.day
    hour := t % 86400000 / 3600000
    minute := t % 86400000 / 60000 % 60
    second := t % 86400000 / 1000 % 60
    millis := t % 86400000 % 1000
    weekday := (t / 86400000 + 4) % 7 }

theorem civil_ofInt (h : t.natAbs ≤ 8640000000000000) :
    civil (Binary64.ofInt t) = some (parts t) := by
  have hlt : t.natAbs < 2 ^ 53 := by omega
  have hsmall : ¬ 8640000000000000 * one < t.natAbs * one :=
    Nat.not_lt.2 (Nat.mul_le_mul_right _ h)
  have hdate : civilFromDays i64 (t / 86400000) =
      some ((Date.ofDay (t / 86400000)).year, (Date.ofDay (t / 86400000)).month,
        (Date.ofDay (t / 86400000)).day) := by
    have hnumber := number_ofDay (t / 86400000)
    have hcivil := civilFromDays_i64 (d := Date.ofDay (t / 86400000)) (by omega) (by omega)
    rwa [hnumber] at hcivil
  rw [civil, isFinite_ofInt hlt, magnitude_ofInt hlt, truncate_ofInt hlt]
  simp only [hsmall, decide_false, Bool.not_true, Bool.or_self, Bool.false_eq_true, if_false, hdate,
    Option.map_some]
  rfl

/-- A date with a time of the day. -/
theorem utcMs_date (d : Date) (hyear : Is64 d.year) (hour minute second ms : Int) :
    utcMs d.year d.month d.day hour minute second ms =
      Binary64.ofInt ((number d * 86400 + hour * 3600 + minute * 60 + second) * 1000 + ms) := by
  obtain ⟨hmonth, hmonthle, hday, hdayle⟩ := d.valid
  have hlength := monthLength_le d.year d.month
  rw [utcMs, daysFromCivil_i128 hyear ⟨by omega, by omega⟩ ⟨by omega, by omega⟩]
  rfl

/-- The year of a time value has six digits at most. -/
theorem year_parts (h : t.natAbs ≤ 8640000000000000) :
    -999999 ≤ (parts t).year ∧ (parts t).year ≤ 999999 := by
  have hnumber := number_ofDay (t / 86400000)
  show -999999 ≤ (Date.ofDay (t / 86400000)).year ∧ (Date.ofDay (t / 86400000)).year ≤ 999999
  generalize Date.ofDay (t / 86400000) = d at hnumber ⊢
  obtain ⟨hmonth, hmonthle, hday, -⟩ := d.valid
  obtain ⟨hdoy, hdoyle, -⟩ := dayOfYear d.valid
  rw [number, dayNumber, yearStart] at hnumber
  omega

/-! ## Digits -/

/-- Digits, and nothing else. -/
structure Digits (l : List Char) : Prop where
  ne : l ≠ []
  digit : ∀ c ∈ l, c.isDigit = true

theorem digits_padded (width n : Nat) : Digits (padded width n) where
  ne := fun h => Nat.toDigits_ne_nil (append_eq_nil_iff.1 h).2
  digit := fun c hc => by
    rcases mem_append.1 hc with hc | hc
    · rw [eq_of_mem_replicate hc]
      rfl
    · exact Nat.isDigit_of_mem_toDigits (by decide) (by decide) hc

theorem length_padded {width n : Nat} (hwidth : 0 < width) (hn : n < 10 ^ width) :
    (padded width n).length = width := by
  have hlength := (Nat.length_toDigits_le_iff (b := 10) (by decide) hwidth).2 hn
  rw [padded, length_append, length_replicate]
  omega

theorem digitsValue_zeros (k : Nat) (l : List Char) :
    digitsValue (replicate k '0' ++ l) = digitsValue l := by
  induction k with
  | zero => rfl
  | succ k ih =>
    rw [replicate_succ, cons_append, ← ih]
    rfl

theorem digitsValue_padded (width n : Nat) : digitsValue (padded width n) = n := by
  rw [padded, digitsValue_zeros, digitsValue_toDigits]

theorem Digits.parseInt (h : Digits l) : parseInt l = some (digitsValue l : Int) := by
  have hall : l.all Char.isDigit = true := all_eq_true.2 h.digit
  cases l with
  | nil => exact absurd rfl h.ne
  | cons c rest =>
    have hc := h.digit c mem_cons_self
    rw [Schema.parseInt]
    · simp only [ne_eq, reduceCtorEq, not_false_eq_true, hall, and_self, if_true]
      rfl
    · rintro d hd
      cases hd
      cases hc
    · rintro d hd
      cases hd
      cases hc

theorem parseI64_padded {width n : Nat} (hn : n < 2 ^ 63) :
    parseI64 (padded width n) = some (n : Int) := by
  rw [parseI64, (digits_padded width n).parseInt, digitsValue_padded, Option.filter_some,
    if_pos (by simp only [decide_eq_true_eq]; omega)]

theorem isDigit_iff {c : Char} : c.isDigit = true ↔ 48 ≤ c.toNat ∧ c.toNat ≤ 57 := by
  simp only [Char.isDigit, Bool.and_eq_true, decide_eq_true_eq]
  rfl

theorem Digits.notMem (h : Digits l) {c : Char} (hc : c.isDigit = false) : c ∉ l :=
  fun hmem => absurd (h.digit c hmem) (by rw [hc]; exact Bool.false_ne_true)

theorem Digits.len_eq (h : Digits l) : len l = l.length := by
  obtain ⟨-, hdigit⟩ := h
  induction l with
  | nil => rfl
  | cons c l ih =>
    obtain ⟨hc, hl⟩ := forall_mem_cons.1 hdigit
    have hsize : c.utf8Size = 1 := by
      rw [Char.utf8Size, if_pos]
      have := (isDigit_iff.1 hc).2
      show c.toNat ≤ 127
      omega
    have ih := ih hl
    rw [len] at ih ⊢
    rw [map_cons, sum_cons, ih, hsize, length_cons, Nat.add_comm]

theorem Digits.notDigits (h : Digits l) : notDigits l = false := by
  rw [DateText.notDigits, all_eq_true.2 h.digit, isEmpty_eq_false_iff.2 h.ne]
  rfl

section Time

variable {hour minute second millis : Nat}

theorem len_padded {width n : Nat} (hwidth : 0 < width) (hn : n < 10 ^ width) :
    len (padded width n) = width := by
  rw [(digits_padded width n).len_eq, length_padded hwidth hn]

theorem badPart_padded {n : Nat} (hn : n < 100) : badPart true (padded 2 n) = false := by
  have hdigits := digits_padded 2 n
  rw [badPart, isEmpty_eq_false_iff.2 hdigits.ne, all_eq_true.2 hdigits.digit,
    len_padded (by decide) hn]
  rfl

theorem fractionMillis_padded {n : Nat} (hn : n < 1000) : fractionMillis (padded 3 n) = n := by
  have hlength : (padded 3 n).length = 3 := length_padded (by decide) hn
  have htake : (padded 3 n).take 3 = padded 3 n := take_of_length_le (Nat.le_of_eq hlength)
  rw [fractionMillis, htake, hlength]
  rw [Nat.sub_self, replicate_zero, append_nil, parseI64_padded (by omega)]
  rfl

/-- A time of the day. -/
theorem split_time (hour minute second : Nat) :
    split (· == ':') (padded 2 hour ++ ':' :: (padded 2 minute ++ ':' :: padded 2 second)) =
      [padded 2 hour, padded 2 minute, padded 2 second] := by
  have hcolon : ∀ n, ∀ c ∈ padded 2 n, (c == ':') = false := fun n c hc =>
    beq_false_of_ne fun h => (digits_padded 2 n).notMem (c := ':') rfl (h ▸ hc)
  rw [split_mid (hcolon _) rfl, split_mid (hcolon _) rfl, split_last (hcolon _)]

theorem parseTime_text (hhour : hour < 24) (hminute : minute < 60) (hsecond : second < 60)
    (hmillis : millis < 1000) :
    parseTime true (padded 2 hour ++ ':' :: (padded 2 minute ++ ':' :: (padded 2 second ++
      '.' :: (padded 3 millis ++ ['Z'])))) =
        some ((hour : Int), (minute : Int), (second : Int), (millis : Int), 0) := by
  have hmem : ∀ {width n : Nat} {c : Char}, c.isDigit = false → c ∉ padded width n :=
    fun hc => (digits_padded _ _).notMem hc
  have hpoint : splitOnce ['.'] (padded 2 hour ++ ':' :: (padded 2 minute ++ ':' ::
      padded 2 second) ++ '.' :: padded 3 millis) = some (padded 2 hour ++ ':' ::
        (padded 2 minute ++ ':' :: padded 2 second), padded 3 millis) := by
    refine splitOnce_mid ?_
    simp [hmem]
  have hzone : splitOnce ['Z'] (padded 2 hour ++ ':' :: (padded 2 minute ++ ':' ::
      padded 2 second) ++ '.' :: padded 3 millis ++ 'Z' :: []) = some (padded 2 hour ++ ':' ::
        (padded 2 minute ++ ':' :: padded 2 second) ++ '.' :: padded 3 millis, []) := by
    refine splitOnce_mid ?_
    simp [hmem]
  simp only [append_assoc, cons_append] at hpoint hzone
  have hbad : [padded 2 hour, padded 2 minute, padded 2 second].any (badPart true) = false := by
    simp only [any_cons, any_nil, badPart_padded (show hour < 100 by omega),
      badPart_padded (show minute < 100 by omega), badPart_padded (show second < 100 by omega),
      Bool.or_self]
  rw [parseTime, peelZone, hzone]
  simp only [ne_eq, not_true_eq_false, if_false, Option.bind_eq_bind, Option.bind_some]
  simp only [hpoint, split_time, hbad, length_cons, length_nil, getD_cons_zero, getD_cons_succ]
  simp only [parseI64_padded (show hour < 2 ^ 63 by omega),
    parseI64_padded (show minute < 2 ^ 63 by omega),
    parseI64_padded (show second < 2 ^ 63 by omega), Option.bind_some]
  rw [if_neg (by decide), if_pos trivial, if_neg (by omega), if_neg (by
    rw [(digits_padded 3 millis).notDigits]
    simp only [not_true_eq_false, Bool.false_eq_true, or_self, not_false_eq_true]),
    if_neg (by omega), fractionMillis_padded hmillis]
  rfl

end Time

section Day

variable {sgn time : List Char} {width n month day : Nat} {year : Int}

/-- The sign of a year, the width of its digits, and what it stands for. -/
inductive YearText : List Char → Nat → Nat → Int → Prop where
  | four (n : Nat) : n < 10 ^ 4 → YearText [] 4 n n
  | plus (n : Nat) : n < 10 ^ 6 → YearText ['+'] 6 n n
  | minus (n : Nat) : n < 10 ^ 6 → n ≠ 0 → YearText ['-'] 6 n (-n)

theorem split_day (width n month day : Nat) :
    split (fun c => c == '-' || c == '/')
        (padded width n ++ '-' :: (padded 2 month ++ '-' :: padded 2 day)) =
      [padded width n, padded 2 month, padded 2 day] := by
  have hsep : ∀ width n, ∀ c ∈ padded width n, (c == '-' || c == '/') = false := by
    intro width n c hc
    have hdigit := (digits_padded width n).digit c hc
    rw [beq_false_of_ne (show c ≠ '-' from fun h => by rw [h] at hdigit; cases hdigit),
      beq_false_of_ne (show c ≠ '/' from fun h => by rw [h] at hdigit; cases hdigit)]
    rfl
  rw [split_mid (hsep _ _) rfl, split_mid (hsep _ _) rfl, split_last (hsep _ _)]

/-- The sign of a year is dropped before its parts are looked at. -/
theorem YearText.dropSign (h : YearText sgn width n year) (rest : List Char) :
    (sgn ++ (padded width n ++ rest)).dropWhile (fun c => c == '-' || c == '+') =
      padded width n ++ rest := by
  obtain ⟨c, tail, hpadded⟩ : ∃ c tail, padded width n = c :: tail :=
    exists_cons_of_ne_nil (digits_padded width n).ne
  have hc : c.isDigit = true :=
    (digits_padded width n).digit c (by rw [hpadded]; exact mem_cons_self)
  have hdrop : (padded width n ++ rest).dropWhile (fun c => c == '-' || c == '+') =
      padded width n ++ rest := by
    refine dropWhile_head fun a ha => ?_
    rw [hpadded] at ha
    cases ha
    rw [beq_false_of_ne (show c ≠ '-' from fun h => by rw [h] at hc; cases hc),
      beq_false_of_ne (show c ≠ '+' from fun h => by rw [h] at hc; cases hc)]
    rfl
  cases h <;> exact hdrop

/-- The first character of a year. -/
theorem YearText.head (h : YearText sgn width n year) (rest : List Char) :
    (((sgn ++ (padded width n ++ rest)).head? = some '+' ∨
        (sgn ++ (padded width n ++ rest)).head? = some '-') ↔ width = 6) ∧
      ((sgn ++ (padded width n ++ rest)).head? == some '-') = decide (sgn = ['-']) := by
  obtain ⟨c, tail, hpadded⟩ : ∃ c tail, padded width n = c :: tail :=
    exists_cons_of_ne_nil (digits_padded width n).ne
  have hc : c.isDigit = true :=
    (digits_padded width n).digit c (by rw [hpadded]; exact mem_cons_self)
  have hplus : c ≠ '+' := fun h => by rw [h] at hc; cases hc
  have hminus : c ≠ '-' := fun h => by rw [h] at hc; cases hc
  cases h with
  | four => simp [hpadded, hplus, hminus]
  | plus => simp
  | minus => simp

theorem parseDate_text (hyear : YearText sgn width n year) (hmonth : 1 ≤ month ∧ month ≤ 12)
    (hday : 1 ≤ day ∧ day ≤ 31) {hour minute second millis offset : Int}
    (htime : parseTime true time = some (hour, minute, second, millis, offset)) :
    parseDate (sgn ++ (padded width n ++ '-' :: (padded 2 month ++ '-' :: padded 2 day)) ++
        'T' :: time) =
      some (minusSeconds (utcMs year month day hour minute second millis) offset) := by
  obtain ⟨hhead, hnegative⟩ := hyear.head ('-' :: (padded 2 month ++ '-' :: padded 2 day))
  have hmem : ∀ {width n : Nat} {c : Char}, c.isDigit = false → c ∉ padded width n :=
    fun hc => (digits_padded _ _).notMem hc
  have hsplit : splitOnce ['T'] (sgn ++ (padded width n ++ '-' :: (padded 2 month ++ '-' ::
      padded 2 day)) ++ 'T' :: time) = some (sgn ++ (padded width n ++ '-' :: (padded 2 month ++
        '-' :: padded 2 day)), time) := by
    refine splitOnce_mid ?_
    cases hyear <;> simp [hmem]
  have hcontains : (sgn ++ (padded width n ++ '-' :: (padded 2 month ++ '-' ::
      padded 2 day)) ++ 'T' :: time).contains 'T' = true := by
    rw [contains_iff_mem]
    exact mem_append_right _ mem_cons_self
  have hdigits : [padded width n, padded 2 month, padded 2 day].any notDigits = false := by
    simp only [any_cons, any_nil, (digits_padded _ _).notDigits, Bool.or_self]
  have hwidth : len (padded width n) = width := by
    cases hyear with
    | four n hn | plus n hn | minus n hn => exact len_padded (by decide) hn
  have hmonthWidth : len (padded 2 month) = 2 := len_padded (by decide) (by omega)
  have hdayWidth : len (padded 2 day) = 2 := len_padded (by decide) (by omega)
  have hyearWidth : (if width = 6 then 6 else 4) = width := by
    cases hyear <;> rfl
  have hn : n < 2 ^ 63 := by
    cases hyear <;> omega
  rw [parseDate, hsplit, hcontains]
  simp only [hyear.dropSign, split_day, hdigits, hhead, hnegative, hyearWidth, length_cons,
    length_nil, getD_cons_zero, getD_cons_succ, hwidth, hmonthWidth, hdayWidth,
    getElem?_cons_succ, getElem?_cons_zero, Option.bind_some, parseI64_padded hn,
    parseI64_padded (show month < 2 ^ 63 by omega), parseI64_padded (show day < 2 ^ 63 by omega),
    Option.getD_some, htime, Option.bind_eq_bind]
  have hzero : ¬ (decide (sgn = ['-']) = true ∧ (n : Int) = 0) := by
    cases hyear with
    | four => simp
    | plus => simp
    | minus n hn hne => simp [hne]
  have hvalue : (if decide (sgn = ['-']) = true then -(n : Int) else n) = year := by
    cases hyear <;> rfl
  rw [if_neg (by decide), if_neg (by simp), if_neg hzero, if_neg (by omega), hvalue]
  rfl

end Day

/-! ## The words of a text -/

variable {c : Char} {l : List Char} {words : List (List Char)} {t year : Int}

theorem digit_notWhite (hc : c.isDigit = true) : isWhitespace c = false := by
  obtain ⟨hlow, hhigh⟩ := isDigit_iff.1 hc
  have hmem : [0x20, 0x85, 0xA0, 0x1680, 0x2028, 0x2029, 0x202F, 0x205F, 0x3000].contains c.toNat =
      false := by
    rw [← Bool.not_eq_true, contains_iff_mem]
    simp only [mem_cons, not_mem_nil, or_false]
    omega
  rw [isWhitespace]
  simp only [hmem, decide_eq_false (show ¬ (9 ≤ c.toNat ∧ c.toNat ≤ 13) by omega),
    decide_eq_false (show ¬ (0x2000 ≤ c.toNat ∧ c.toNat ≤ 0x200A) by omega), Bool.or_self]

/-- What begins a year is not a letter. -/
theorem monthOf_none (hc : c.isDigit = true ∨ c = '+' ∨ c = '-') (rest : List Char) :
    monthOf (c :: rest) = none := by
  have hlower : c.toLower.isLower = false := by
    rcases hc with hc | rfl | rfl
    · obtain ⟨hlow, hhigh⟩ := isDigit_iff.1 hc
      have hupper : c.toLower = c := by
        unfold Char.toLower
        rw [dif_neg]
        rintro ⟨h, -⟩
        have : 65 ≤ c.toNat := h
        omega
      rw [hupper, ← Bool.not_eq_true]
      intro h
      have : 97 ≤ c.toNat := of_decide_eq_true (Bool.and_eq_true_iff.1 h).1
      omega
    · decide
    · decide
  have hmonths : months.all (fun month => (month.map Char.toLower).head?.any Char.isLower) =
      true := by decide
  rw [monthOf]
  cases hget : getTo 3 (c :: rest) with
  | none => rfl
  | some name =>
    obtain ⟨tail, rfl⟩ : ∃ tail, name = c :: tail := by
      rw [getTo] at hget
      split at hget
      · obtain ⟨tail, -, rfl⟩ := Option.map_eq_some_iff.1 hget
        exact ⟨tail, rfl⟩
      · cases hget
    rw [Option.bind_some, findIdx?_eq_none_iff]
    intro month hmonth
    have hletter := all_eq_true.1 hmonths month hmonth
    rw [eqIgnoreAsciiCase, decide_eq_false_iff_not]
    intro hsame
    rw [← hsame, map_cons, head?_cons, Option.any_some, hlower] at hletter
    cases hletter

/-- One word that begins like a year. -/
theorem parseIso_date {rest : List Char} (hc : c.isDigit = true ∨ c = '+' ∨ c = '-')
    (hwhite : ∀ a ∈ c :: rest, isWhitespace a = false) (hslash : '/' ∉ c :: rest) :
    parseIso (c :: rest) = parseDate (c :: rest) := by
  have htrim : trim (c :: rest) = c :: rest :=
    trim_eq (fun a ha => hwhite a (mem_of_mem_head? ha))
      fun a ha => hwhite a (mem_of_mem_getLast? ha)
  rw [parseIso, htrim, splitWhitespace_last (cons_ne_nil _ _) hwhite]
  simp only [length_singleton, Nat.reduceLeDiff, false_and, if_false, any_cons,
    any_nil, monthOf_none hc, Option.isSome_none, Bool.or_self,
    contains_eq_mem, hslash, decide_false, Bool.false_eq_true]

/-- A word of a text. -/
def IsWord (l : List Char) : Prop := l ≠ [] ∧ ∀ a ∈ l, isWhitespace a = false

theorem isWord_of_all (h : l ≠ [] ∧ l.all (fun a => !isWhitespace a) = true) : IsWord l :=
  ⟨h.1, fun a ha => by
    have ha := all_eq_true.1 h.2 a ha
    rwa [Bool.not_eq_true'] at ha⟩

theorem Digits.isWord (h : Digits l) : IsWord l :=
  ⟨h.ne, fun a ha => digit_notWhite (h.digit a ha)⟩

theorem IsWord.append {r : List Char} (hl : IsWord l) (hr : IsWord r) : IsWord (l ++ r) :=
  ⟨fun h => hl.1 (append_eq_nil_iff.1 h).1, fun a ha => (mem_append.1 ha).elim (hl.2 a) (hr.2 a)⟩

theorem IsWord.cons (hc : isWhitespace c = false) (hl : IsWord l) : IsWord (c :: l) :=
  ⟨cons_ne_nil _ _, forall_mem_cons.2 ⟨hc, hl.2⟩⟩

theorem IsWord.split (h : IsWord l) (rest : List Char) :
    splitWhitespace (l ++ ' ' :: rest) = l :: splitWhitespace rest :=
  splitWhitespace_mid h.1 h.2

/-- The time of a text. -/
def timeText (hour minute second : Nat) : List Char :=
  padded 2 hour ++ ':' :: (padded 2 minute ++ ':' :: padded 2 second)

theorem isWord_timeText (hour minute second : Nat) : IsWord (timeText hour minute second) :=
  (digits_padded _ _).isWord.append
    (((digits_padded _ _).isWord.append ((digits_padded _ _).isWord.cons (by decide))).cons
      (by decide))

/-- Words with a space between them. -/
def joined : List (List Char) → List Char
  | [] => []
  | [word] => word
  | word :: words => word ++ ' ' :: joined words

section

variable (h : ∀ word ∈ words, IsWord word)

include h

theorem splitWhitespace_joined : splitWhitespace (joined words) = words := by
  induction words with
  | nil => rfl
  | cons word words ih =>
    obtain ⟨hword, hwords⟩ := forall_mem_cons.1 h
    cases words with
    | nil => exact splitWhitespace_last hword.1 hword.2
    | cons next words => rw [joined, hword.split, ih hwords]; exact nofun

omit h in
theorem joined_ne {word : List Char} (hword : IsWord word) : joined (word :: words) ≠ [] := by
  cases words with
  | nil => exact hword.1
  | cons next words => exact fun h => hword.1 (append_eq_nil_iff.1 h).1

/-- A text of words has no whitespace at its ends. -/
theorem trim_joined : trim (joined words) = joined words := by
  refine trim_eq ?_ ?_
  · match words with
    | [] => exact nofun
    | [word] => exact fun a ha => (h word mem_cons_self).2 a (mem_of_mem_head? ha)
    | word :: next :: words =>
      intro a ha
      have hword := h word mem_cons_self
      rw [joined, head?_append_of_ne_nil _ hword.1] at ha
      · exact hword.2 a (mem_of_mem_head? ha)
      · exact nofun
  · induction words with
    | nil => exact nofun
    | cons word words ih =>
      cases words with
      | nil => exact fun a ha => (h word mem_cons_self).2 a (mem_of_mem_getLast? ha)
      | cons next words =>
        intro a ha
        obtain ⟨-, hwords⟩ := forall_mem_cons.1 h
        have hne : joined (next :: words) ≠ [] := joined_ne (hwords next mem_cons_self)
        rw [joined, getLast?_append_of_ne_nil _ (cons_ne_nil _ _),
          getLast?_cons_of_ne_nil hne] at ha
        · exact ih hwords a ha
        · exact nofun

/-- Words that begin with a day of the week. -/
theorem parseIso_words (hlength : 6 ≤ words.length)
    (hday : trimEndMatches ',' (words.getD 0 []) ∈ weekdays) :
    parseIso (joined words) = parseWords words := by
  rw [parseIso, trim_joined h, splitWhitespace_joined h]
  simp only [contains_iff_mem, hday, hlength, and_self, if_true]

end

/-- A day of the week, with and without a comma. -/
theorem weekday_spec {k : Nat} (hk : k < 7) : IsWord (weekdays.getD k []) ∧
    weekdays.getD k [] ∈ weekdays ∧
    trimEndMatches ',' (weekdays.getD k []) = weekdays.getD k [] ∧
    trimEndMatches ',' (weekdays.getD k [] ++ [',']) = weekdays.getD k [] ∧
    ((weekdays.getD k []).getLast? == some ',') = false := by
  have hall : ∀ k < 7, (weekdays.getD k [] ≠ [] ∧
      (weekdays.getD k []).all (fun a => !isWhitespace a) = true) ∧
      weekdays.getD k [] ∈ weekdays ∧
      trimEndMatches ',' (weekdays.getD k []) = weekdays.getD k [] ∧
      trimEndMatches ',' (weekdays.getD k [] ++ [',']) = weekdays.getD k [] ∧
      ((weekdays.getD k []).getLast? == some ',') = false := by decide
  obtain ⟨hword, hrest⟩ := hall k hk
  exact ⟨isWord_of_all hword, hrest⟩

theorem month_isWord {month : Nat} (hmonth : 1 ≤ month ∧ month ≤ 12) :
    IsWord (months.getD (month - 1) []) := by
  have hall : ∀ k < 12, months.getD k [] ≠ [] ∧
      (months.getD k []).all (fun a => !isWhitespace a) = true := by decide
  exact isWord_of_all (hall (month - 1) (by omega))

/-! ## The three texts -/

theorem parts_spec (h : t.natAbs ≤ 8640000000000000) :
    ∃ (year : Int) (month day hour minute second millis weekday : Nat),
      parts t = ⟨year, month, day, hour, minute, second, millis, weekday⟩ ∧
      (-999999 ≤ year ∧ year ≤ 999999) ∧ (1 ≤ month ∧ month ≤ 12) ∧ (1 ≤ day ∧ day ≤ 31) ∧
      hour < 24 ∧ minute < 60 ∧ second < 60 ∧ millis < 1000 ∧ weekday < 7 ∧
      (millis : Int) = t % 1000 ∧
      ∀ ms, utcMs year month day hour minute second ms = Binary64.ofInt (t - millis + ms) := by
  have hyear : -999999 ≤ (Date.ofDay (t / 86400000)).year ∧
    (Date.ofDay (t / 86400000)).year ≤ 999999 := year_parts h
  have hdate := fun ms => utcMs_date (Date.ofDay (t / 86400000)) ⟨by omega, by omega⟩
    (t % 86400000 / 3600000) (t % 86400000 / 60000 % 60) (t % 86400000 / 1000 % 60) ms
  rw [number_ofDay] at hdate
  unfold parts
  generalize Date.ofDay (t / 86400000) = d at hyear hdate ⊢
  obtain ⟨hmonth, hmonthle, hday, hdayle⟩ := d.valid
  have hlength := monthLength_le d.year d.month
  refine ⟨d.year, d.month.toNat, d.day.toNat, (t % 86400000 / 3600000).toNat,
    (t % 86400000 / 60000 % 60).toNat, (t % 86400000 / 1000 % 60).toNat,
    (t % 86400000 % 1000).toNat, ((t / 86400000 + 4) % 7).toNat, ?_, hyear, by omega, by omega,
    by omega, by omega, by omega, by omega, by omega, by omega, fun ms => ?_⟩
  · rw [Int.toNat_of_nonneg (by omega), Int.toNat_of_nonneg (by omega),
      Int.toNat_of_nonneg (by omega), Int.toNat_of_nonneg (by omega),
      Int.toNat_of_nonneg (by omega), Int.toNat_of_nonneg (by omega),
      Int.toNat_of_nonneg (by omega)]
  · rw [Int.toNat_of_nonneg (by omega), Int.toNat_of_nonneg (by omega),
      Int.toNat_of_nonneg (by omega), Int.toNat_of_nonneg (by omega),
      Int.toNat_of_nonneg (by omega), hdate]
    congr 1
    omega

theorem zeros_ofNat (width n : Nat) : zeros width (n : Int) = padded width n := by
  rw [zeros, if_neg (by omega), Int.natAbs_natCast]

theorem isoYear (h : -999999 ≤ year ∧ year ≤ 999999) : ∃ sgn width n,
    YearText sgn width n year ∧
      (if 0 ≤ year ∧ year ≤ 9999 then zeros 4 year else signedZeros 7 year) =
        sgn ++ padded width n := by
  by_cases hfour : 0 ≤ year ∧ year ≤ 9999
  · rw [if_pos hfour]
    obtain ⟨n, rfl⟩ := Int.eq_ofNat_of_zero_le hfour.1
    exact ⟨[], 4, n, .four n (by omega), zeros_ofNat 4 n⟩
  · rw [if_neg hfour, signedZeros]
    by_cases hneg : year < 0
    · obtain ⟨n, rfl⟩ : ∃ n : Nat, year = -n := ⟨year.natAbs, by omega⟩
      rw [if_pos hneg, Int.natAbs_neg, Int.natAbs_natCast]
      exact ⟨['-'], 6, n, .minus n (by omega) (by omega), rfl⟩
    · obtain ⟨n, rfl⟩ := Int.eq_ofNat_of_zero_le (Int.not_lt.1 hneg)
      rw [if_neg hneg, Int.natAbs_natCast]
      exact ⟨['+'], 6, n, .plus n (by omega), rfl⟩

theorem wordYear (h : -999999 ≤ year ∧ year ≤ 999999) :
    IsWord (if year < 0 then '-' :: zeros 4 (-year) else zeros 4 year) ∧
      parseI64 (if year < 0 then '-' :: zeros 4 (-year) else zeros 4 year) = some year := by
  by_cases hneg : year < 0
  · obtain ⟨n, rfl⟩ : ∃ n : Nat, year = -n := ⟨year.natAbs, by omega⟩
    have hdigits := digits_padded 4 n
    rw [if_pos hneg, Int.neg_neg, zeros_ofNat]
    refine ⟨hdigits.isWord.cons (by decide), ?_⟩
    have hall : (padded 4 n).all Char.isDigit = true := all_eq_true.2 hdigits.digit
    rw [parseI64, Schema.parseInt]
    simp only [ne_eq, hdigits.ne, not_false_eq_true, hall, and_self, if_true, digitsValue_padded]
    exact if_pos (by simp only [decide_eq_true_eq]; omega)
  · obtain ⟨n, rfl⟩ := Int.eq_ofNat_of_zero_le (Int.not_lt.1 hneg)
    rw [if_neg hneg, zeros_ofNat]
    exact ⟨(digits_padded 4 n).isWord, parseI64_padded (by omega)⟩

/-- A character of an ISO text. -/
def isoChar (c : Char) : Bool := c.isDigit || ['+', '-', 'T', ':', '.', 'Z'].contains c

theorem isoChar_padded (width n : Nat) : (padded width n).all isoChar = true :=
  all_eq_true.2 fun c hc => by
    rw [isoChar, (digits_padded width n).digit c hc, Bool.true_or]

theorem of_isoChar (h : isoChar c = true) : isWhitespace c = false ∧ c ≠ '/' := by
  rw [isoChar, Bool.or_eq_true, contains_iff_mem] at h
  rcases h with h | h
  · exact ⟨digit_notWhite h, fun hc => by rw [hc] at h; cases h⟩
  · simp only [mem_cons, not_mem_nil, or_false] at h
    rcases h with rfl | rfl | rfl | rfl | rfl | rfl <;> decide

/-- A year is read from its first character on. -/
theorem YearText.cons {sgn : List Char} {width n : Nat} (h : YearText sgn width n year) :
    ∃ c rest, (c.isDigit = true ∨ c = '+' ∨ c = '-') ∧
      sgn ++ padded width n = c :: rest ∧ sgn.all isoChar = true := by
  cases h with
  | four n hn =>
    obtain ⟨c, rest, hpadded⟩ := exists_cons_of_ne_nil (digits_padded 4 n).ne
    have hc := (digits_padded 4 n).digit c (by rw [hpadded]; exact mem_cons_self)
    exact ⟨c, rest, .inl hc, hpadded, rfl⟩
  | plus => exact ⟨_, _, .inr (.inl rfl), rfl, rfl⟩
  | minus => exact ⟨_, _, .inr (.inr rfl), rfl, rfl⟩

section

variable (h : t.natAbs ≤ 8640000000000000)

include h

theorem parseIso_toIso : parseIso (toIso (Binary64.ofInt t)) = some (Binary64.ofInt t) := by
  obtain ⟨year, month, day, hour, minute, second, millis, weekday, hparts, hyear, hmonth, hday,
    hhour, hminute, hsecond, hmillis, -, -, hms⟩ := parts_spec h
  obtain ⟨sgn, width, n, hyearText, hyearEq⟩ := isoYear hyear
  obtain ⟨c, rest, hc, hcons, hsgn⟩ := hyearText.cons
  have hdate := parseDate_text hyearText hmonth hday (parseTime_text hhour hminute hsecond hmillis)
  rw [toIso, civil_ofInt h, hparts]
  simp only [hyearEq, zeros_ofNat, append_assoc, cons_append] at hdate ⊢
  have hall : (sgn ++ (padded width n ++ '-' :: (padded 2 month ++ '-' :: (padded 2 day ++
      'T' :: (padded 2 hour ++ ':' :: (padded 2 minute ++ ':' :: (padded 2 second ++
        '.' :: (padded 3 millis ++ ['Z'])))))))).all isoChar = true := by
    simp only [all_append, all_cons, isoChar_padded, hsgn, all_nil]
    decide
  have htext : ∀ tail, sgn ++ (padded width n ++ tail) = c :: (rest ++ tail) := by
    intro tail
    rw [← append_assoc, hcons, cons_append]
  rw [htext] at hall hdate ⊢
  rw [all_eq_true] at hall
  rw [parseIso_date hc (fun a ha => (of_isoChar (hall a ha)).1)
    (fun ha => (of_isoChar (hall _ ha)).2 rfl), hdate, hms, minusSeconds, toInt?_ofInt (by omega)]
  simp only [Option.getD_some, Int.zero_mul, Int.sub_zero]
  congr 2
  omega

omit h in
/-- The parts of a text, in one of the two orders. -/
theorem parseWords_eq {utc : Bool} {month day hour minute second : Nat}
    (hutc : ((words.getD 0 []).getLast? == some ',') = utc)
    (hday : (if utc then words.getD 1 [] else words.getD 2 []) = padded 2 day)
    (hmonth : (if utc then words.getD 2 [] else words.getD 1 []) = months.getD (month - 1) [])
    (hyear : parseI64 (words.getD 3 []) = some year)
    (htime : words.getD 4 [] = timeText hour minute second)
    (hzone : words.getD 5 [] = if utc then "GMT".toList else "GMT+0000".toList)
    (hmonthle : 1 ≤ month ∧ month ≤ 12) (hdayle : day ≤ 31) (hhour : hour < 24)
    (hminute : minute < 60) (hsecond : second < 60) :
    parseWords words = some (utcMs year month day hour minute second 0) := by
  have hindex : ∀ month < 13, 1 ≤ month →
      months.findIdx? (· == months.getD (month - 1) []) = some (month - 1) := by decide
  have hzone' : (utc && words.getD 5 [] != "GMT".toList ||
      !utc && words.getD 5 [] != "GMT+0000".toList) = false := by
    rw [hzone]
    cases utc <;> decide
  have hcast : ((month - 1 : Nat) : Int) + 1 = month := by omega
  rw [parseWords]
  simp only [hutc, hday, hmonth, hyear, htime, hzone', hindex month (by omega) hmonthle.1, timeText,
    split_time, Bool.false_eq_true, if_false, Option.bind_eq_bind, Option.bind_some,
    parseI64_padded (show day < 2 ^ 63 by omega), parseI64_padded (show hour < 2 ^ 63 by omega),
    parseI64_padded (show minute < 2 ^ 63 by omega),
    parseI64_padded (show second < 2 ^ 63 by omega), hcast]
  rfl

/-- `toString`. -/
theorem parseIso_full :
    parseIso (formatDate (Binary64.ofInt t) .full) = some (Binary64.ofInt (t / 1000 * 1000)) := by
  obtain ⟨year, month, day, hour, minute, second, millis, weekday, hparts, hyear, hmonth, hday,
    hhour, hminute, hsecond, -, hweekday, hmillis, hms⟩ := parts_spec h
  obtain ⟨hyearWord, hyearParse⟩ := wordYear hyear
  obtain ⟨hweekdayWord, hmem, htrim, -, hcomma⟩ := weekday_spec hweekday
  have hzone : " GMT+0000 (Coordinated Universal Time)".toList = ' ' :: ("GMT+0000".toList ++
      ' ' :: ("(Coordinated".toList ++ ' ' :: ("Universal".toList ++ ' ' :: "Time)".toList))) := by
    decide
  rw [formatDate, civil_ofInt h, hparts]
  simp only [zeros_ofNat, Int.toNat_natCast]
  generalize (if year < 0 then '-' :: zeros 4 (-year) else zeros 4 year) = yearText at *
  have htext : joined [weekdays.getD weekday [], months.getD (month - 1) [], padded 2 day, yearText,
      timeText hour minute second, "GMT+0000".toList, "(Coordinated".toList, "Universal".toList,
      "Time)".toList] = weekdays.getD weekday [] ++ ' ' :: months.getD (month - 1) [] ++
        ' ' :: padded 2 day ++ ' ' :: yearText ++ ' ' :: (padded 2 hour ++ ':' :: padded 2 minute ++
          ':' :: padded 2 second) ++ " GMT+0000 (Coordinated Universal Time)".toList := by
    rw [hzone]
    simp only [joined, timeText, append_assoc, cons_append]
  have hparse : parseWords [weekdays.getD weekday [], months.getD (month - 1) [], padded 2 day,
      yearText, timeText hour minute second, "GMT+0000".toList, "(Coordinated".toList,
      "Universal".toList, "Time)".toList] = some (utcMs year month day hour minute second 0) :=
    parseWords_eq hcomma rfl rfl hyearParse rfl rfl hmonth hday.2 hhour hminute hsecond
  rw [← htext, parseIso_words]
  · rw [hparse, hms]
    congr 2
    omega
  · simp only [forall_mem_cons]
    exact ⟨hweekdayWord, month_isWord hmonth, (digits_padded 2 day).isWord, hyearWord,
      isWord_timeText _ _ _, isWord_of_all (by decide), isWord_of_all (by decide),
      isWord_of_all (by decide), isWord_of_all (by decide), fun _ h => absurd h not_mem_nil⟩
  · simp only [length_cons]
    omega
  · rw [getD_cons_zero, htrim]
    exact hmem

/-- `toUTCString`. -/
theorem parseIso_utc :
    parseIso (formatDate (Binary64.ofInt t) .utc) = some (Binary64.ofInt (t / 1000 * 1000)) := by
  obtain ⟨year, month, day, hour, minute, second, millis, weekday, hparts, hyear, hmonth, hday,
    hhour, hminute, hsecond, -, hweekday, hmillis, hms⟩ := parts_spec h
  obtain ⟨hyearWord, hyearParse⟩ := wordYear hyear
  obtain ⟨hweekdayWord, hmem, -, htrim, -⟩ := weekday_spec hweekday
  have hcomma : ((weekdays.getD weekday [] ++ [',']).getLast? == some ',') = true := by
    rw [getLast?_concat]
    rfl
  have hzone : " GMT".toList = ' ' :: "GMT".toList := by decide
  rw [formatDate, civil_ofInt h, hparts]
  simp only [zeros_ofNat, Int.toNat_natCast]
  generalize (if year < 0 then '-' :: zeros 4 (-year) else zeros 4 year) = yearText at *
  have htext : joined [weekdays.getD weekday [] ++ [','], padded 2 day, months.getD (month - 1) [],
      yearText, timeText hour minute second, "GMT".toList] = weekdays.getD weekday [] ++ ',' ::
        ' ' :: padded 2 day ++ ' ' :: months.getD (month - 1) [] ++ ' ' :: yearText ++
          ' ' :: (padded 2 hour ++ ':' :: padded 2 minute ++ ':' :: padded 2 second) ++
            " GMT".toList := by
    rw [hzone]
    simp only [joined, timeText, append_assoc, cons_append, nil_append]
  have hparse : parseWords [weekdays.getD weekday [] ++ [','], padded 2 day,
      months.getD (month - 1) [], yearText, timeText hour minute second, "GMT".toList] =
        some (utcMs year month day hour minute second 0) :=
    parseWords_eq hcomma rfl rfl hyearParse rfl rfl hmonth hday.2 hhour hminute hsecond
  rw [← htext, parseIso_words]
  · rw [hparse, hms]
    congr 2
    omega
  · simp only [forall_mem_cons]
    exact ⟨hweekdayWord.append (isWord_of_all (by decide)), (digits_padded 2 day).isWord,
      month_isWord hmonth, hyearWord, isWord_timeText _ _ _, isWord_of_all (by decide),
      fun _ h => absurd h not_mem_nil⟩
  · simp only [length_cons]
    omega
  · rw [getD_cons_zero, htrim]
    exact hmem

end

/-- **Dates are read as they are written.**  For each whole time value that there is, the ISO text
is read back to it, and the other two texts to it without its milliseconds. -/
theorem parseIso_formats (t : Int) (h : -8640000000000000 ≤ t ∧ t ≤ 8640000000000000) :
    parseIso (toIso (Binary64.ofInt t)) = some (Binary64.ofInt t) ∧
      parseIso (formatDate (Binary64.ofInt t) .full) =
        some (Binary64.ofInt (t / 1000 * 1000)) ∧
      parseIso (formatDate (Binary64.ofInt t) .utc) =
        some (Binary64.ofInt (t / 1000 * 1000)) :=
  ⟨parseIso_toIso (by omega), parseIso_full (by omega), parseIso_utc (by omega)⟩

theorem parseIso_formats_before :
    parseIso (toIso (Binary64.ofInt (-1))) = some (Binary64.ofInt (-1)) ∧
      parseIso (formatDate (Binary64.ofInt (-1)) .full) =
        some (Binary64.ofInt (-1 / 1000 * 1000)) ∧
      parseIso (formatDate (Binary64.ofInt (-1)) .utc) =
        some (Binary64.ofInt (-1 / 1000 * 1000)) :=
  parseIso_formats (-1) (by decide)

end NapiVm.DateText
