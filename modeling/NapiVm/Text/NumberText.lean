import NapiVm.Lib.Decimal
import NapiVm.Value.ArrayIndex

/-!
# Numbers as texts

The text that a number has in a script, and the numbers of JSON texts.

* `numberText` — `Number::toString`.
* `numberValue` — the number that a JSON text stands for.
* `numberValue_numberText` — the way there and back.
-/

namespace NapiVm.NumberText

open Binary64

/-! ## From numbers -/

/-- The first digit, and the others behind a point. -/
def mantissa : List Char → List Char
  | d :: e :: rest => d :: '.' :: e :: rest
  | digits => digits

/-- Digits, with the point behind `n` of them. -/
def layout (digits : List Char) (n : Int) : List Char :=
  if digits.length ≤ n ∧ n ≤ 21 then digits ++ List.replicate (n - digits.length).toNat '0'
  else if 0 < n ∧ n ≤ 21 then digits.take n.toNat ++ '.' :: digits.drop n.toNat
  else if -6 < n ∧ n ≤ 0 then '0' :: '.' :: (List.replicate (-n).toNat '0' ++ digits)
  else mantissa digits ++ 'e' :: (if 0 < n then '+' else '-') :: Nat.toDigits 10 (n - 1).natAbs

def minus (sign : Bool) : List Char := if sign then ['-'] else []

/-- `Number::toString`, of a finite number. -/
def numberText (bits : UInt64) : List Char :=
  if bits.toNat % 2 ^ 63 = 0 then ['0']
  else
    let d := shortest (bits.toNat % 2 ^ 63)
    let digits := Nat.toDigits 10 d.1
    minus (Binary64.sign bits) ++ layout digits (digits.length + d.2)

/-! ## To numbers -/

def unsigned (digits : List Char) : Option Int :=
  if digits ≠ [] ∧ digits.all Char.isDigit then some (Nat.ofDigitChars 10 digits 0) else none

/-- The exponent, if there is one. -/
def exponentOf : List Char → Option Int
  | [] => some 0
  | c :: rest =>
    if c = 'e' ∨ c = 'E' then
      match rest with
      | '+' :: digits => unsigned digits
      | '-' :: digits => (unsigned digits).map fun e => -e
      | digits => unsigned digits
    else none

/-- The digits behind the point, if there is one, and what follows. -/
def fractionOf : List Char → Option (List Char × List Char)
  | '.' :: rest =>
    if rest.takeWhile Char.isDigit = [] then none
    else some (rest.takeWhile Char.isDigit, rest.dropWhile Char.isDigit)
  | rest => some ([], rest)

/-- A JSON number without its sign. -/
def magnitudeOf (sign : Bool) (l : List Char) : Option UInt64 :=
  let int := l.takeWhile Char.isDigit
  if int = [] ∨ int.head? = some '0' ∧ int.length ≠ 1 then none
  else
    (fractionOf (l.dropWhile Char.isDigit)).bind fun part =>
      (exponentOf part.2).map fun e =>
        ofDecimal sign (Nat.ofDigitChars 10 (int ++ part.1) 0) (e - part.1.length)

/-- A JSON number. -/
def numberValue : List Char → Option UInt64
  | '-' :: rest => magnitudeOf true rest
  | l => magnitudeOf false l

/-! ## There and back -/

section Parts

variable {int frac rest : List Char} {e : Int}

theorem takeWhile_exact {p : Char → Bool} (hint : ∀ c ∈ int, p c = true)
    (hrest : ∀ c, rest.head? = some c → p c = false) :
    (int ++ rest).takeWhile p = int ∧ (int ++ rest).dropWhile p = rest := by
  rw [List.takeWhile_append_of_pos hint, List.dropWhile_append_of_pos hint]
  cases rest with
  | nil => simp
  | cons c rest => simp [hrest c rfl]

/-- The digits in front of the point. -/
structure Leading (int : List Char) : Prop where
  digits : ∀ c ∈ int, c.isDigit = true
  ne : int ≠ []
  zero : int.head? = some '0' → int.length = 1

theorem magnitudeOf_int (sign : Bool) (hint : Leading int) (he : exponentOf rest = some e)
    (hrest : ∀ c, rest.head? = some c → c.isDigit = false ∧ c ≠ '.') :
    magnitudeOf sign (int ++ rest) = some (ofDecimal sign (Nat.ofDigitChars 10 int 0) e) := by
  obtain ⟨htake, hdrop⟩ := takeWhile_exact hint.digits fun c hc => (hrest c hc).1
  have hfraction : fractionOf rest = some ([], rest) := by
    unfold fractionOf
    split
    next r => exact absurd rfl (hrest '.' rfl).2
    next => rfl
  have hnot : ¬ (int = [] ∨ int.head? = some '0' ∧ int.length ≠ 1) := by
    rintro (h | ⟨h, hlen⟩)
    · exact hint.ne h
    · exact hlen (hint.zero h)
  rw [magnitudeOf, htake, hdrop, if_neg hnot, hfraction, Option.bind_some, he]
  simp

theorem magnitudeOf_point (sign : Bool) (hint : Leading int) (hfrac : ∀ c ∈ frac, c.isDigit = true)
    (hne : frac ≠ []) (he : exponentOf rest = some e)
    (hrest : ∀ c, rest.head? = some c → c.isDigit = false) :
    magnitudeOf sign (int ++ '.' :: (frac ++ rest)) =
      some (ofDecimal sign (Nat.ofDigitChars 10 (int ++ frac) 0) (e - frac.length)) := by
  have hpoint : ∀ c, ('.' :: (frac ++ rest)).head? = some c → c.isDigit = false := by
    rintro c ⟨⟩
    rfl
  obtain ⟨htake, hdrop⟩ := takeWhile_exact hint.digits hpoint
  obtain ⟨htake', hdrop'⟩ := takeWhile_exact hfrac hrest
  have hnot : ¬ (int = [] ∨ int.head? = some '0' ∧ int.length ≠ 1) := by
    rintro (h | ⟨h, hlen⟩)
    · exact hint.ne h
    · exact hlen (hint.zero h)
  rw [magnitudeOf, htake, hdrop, if_neg hnot, fractionOf, htake', hdrop', if_neg hne,
    Option.bind_some, he]
  rfl

end Parts

section Layout

variable {s : Nat} {sign : Bool}

theorem digits_toDigits : ∀ c ∈ Nat.toDigits 10 s, c.isDigit = true :=
  fun _ hc => Nat.isDigit_of_mem_toDigits (by decide) (by decide) hc

theorem leading_toDigits (hs : 0 < s) (rest : List Char) (hrest : ∀ c ∈ rest, c.isDigit = true) :
    Leading (Nat.toDigits 10 s ++ rest) where
  digits := fun c hc => (List.mem_append.1 hc).elim (digits_toDigits c) (hrest c)
  ne := fun h => Nat.toDigits_ne_nil (List.append_eq_nil_iff.1 h).1
  zero := fun h => by
    rw [List.head?_append_of_ne_nil _ Nat.toDigits_ne_nil] at h
    exact absurd h (head_toDigits hs)

theorem unsigned_toDigits (n : Nat) : unsigned (Nat.toDigits 10 n) = some (n : Int) := by
  rw [unsigned, if_pos ⟨Nat.toDigits_ne_nil, List.all_eq_true.2 digits_toDigits⟩,
    Nat.ofDigitChars_ten_toDigits]

theorem exponentOf_text (n : Int) :
    exponentOf ('e' :: (if 0 < n then '+' else '-') :: Nat.toDigits 10 (n - 1).natAbs) =
      some (n - 1) := by
  split
  next h =>
    simp only [exponentOf, true_or, if_true, unsigned_toDigits]
    exact congrArg some (by omega)
  next h =>
    simp only [exponentOf, true_or, if_true, unsigned_toDigits, Option.map_some]
    exact congrArg some (by omega)

theorem ofDecimal_zeros (n : Nat) : ofDecimal sign (s * 10 ^ n) 0 = ofDecimal sign s n := by
  rw [ofDecimal, ofDecimal, nearestDecimal, nearestDecimal, if_pos (Int.le_refl 0),
    if_pos (Int.natCast_nonneg n), Int.toNat_natCast]
  simp

/-- The digits, and zeros behind them. -/
theorem magnitudeOf_whole (hs : 0 < s) (m : Nat) :
    magnitudeOf sign (Nat.toDigits 10 s ++ List.replicate m '0') = some (ofDecimal sign s m) := by
  have hzeros : ∀ c ∈ List.replicate m '0', c.isDigit = true := by
    intro c hc
    rw [List.eq_of_mem_replicate hc]
    rfl
  have hint := magnitudeOf_int sign (leading_toDigits hs _ hzeros) (rfl : exponentOf [] = some 0)
    nofun
  rwa [List.append_nil, Nat.ofDigitChars_append, Nat.ofDigitChars_ten_toDigits,
    Nat.ofDigitChars_replicate_zero, Nat.mul_comm, ofDecimal_zeros] at hint

/-- A point between the digits. -/
theorem magnitudeOf_between (hs : 0 < s) {n : Nat} (hpos : 0 < n)
    (hlt : n < (Nat.toDigits 10 s).length) :
    magnitudeOf sign ((Nat.toDigits 10 s).take n ++ '.' :: (Nat.toDigits 10 s).drop n) =
      some (ofDecimal sign s (n - (Nat.toDigits 10 s).length)) := by
  have hint : Leading ((Nat.toDigits 10 s).take n) := by
    refine ⟨fun c hc => digits_toDigits c (List.mem_of_mem_take hc), fun hnil => ?_,
      fun hhead => ?_⟩
    · have hlen := congrArg List.length hnil
      rw [List.length_take, List.length_nil] at hlen
      omega
    · rw [List.head?_take, if_neg (by omega)] at hhead
      exact absurd hhead (head_toDigits hs)
  have hne : (Nat.toDigits 10 s).drop n ≠ [] := by
    rw [ne_eq, List.drop_eq_nil_iff]
    omega
  have hpoint := magnitudeOf_point sign hint
    (fun c hc => digits_toDigits c (List.mem_of_mem_drop hc)) hne
    (rfl : exponentOf [] = some 0) nofun
  rw [List.append_nil, List.take_append_drop, Nat.ofDigitChars_ten_toDigits,
    List.length_drop] at hpoint
  rw [hpoint]
  congr 2
  omega

/-- Zeros between the point and the digits. -/
theorem magnitudeOf_small (m : Nat) :
    magnitudeOf sign ('0' :: '.' :: (List.replicate m '0' ++ Nat.toDigits 10 s)) =
      some (ofDecimal sign s (-m - (Nat.toDigits 10 s).length)) := by
  have hzero : Leading ['0'] := ⟨by simp, by simp, fun _ => rfl⟩
  have hfrac : ∀ c ∈ List.replicate m '0' ++ Nat.toDigits 10 s, c.isDigit = true := by
    intro c hc
    rcases List.mem_append.1 hc with hc | hc
    · rw [List.eq_of_mem_replicate hc]
      rfl
    · exact digits_toDigits c hc
  have hne : List.replicate m '0' ++ Nat.toDigits 10 s ≠ [] := fun hnil =>
    Nat.toDigits_ne_nil (List.append_eq_nil_iff.1 hnil).2
  have hpoint := magnitudeOf_point sign hzero hfrac hne (rfl : exponentOf [] = some 0) nofun
  have hvalue : Nat.ofDigitChars 10 (['0'] ++ (List.replicate m '0' ++ Nat.toDigits 10 s)) 0 =
      s := by
    rw [Nat.ofDigitChars_append, Nat.ofDigitChars_append, Nat.ofDigitChars_replicate_zero]
    simp [Nat.ofDigitChars_cons, Nat.ofDigitChars_ten_toDigits]
  rw [List.append_nil, hvalue, List.length_append, List.length_replicate] at hpoint
  refine hpoint.trans ?_
  congr 2
  omega

/-- A point behind the first digit, and an exponent. -/
theorem magnitudeOf_mantissa (n : Int) :
    magnitudeOf sign (mantissa (Nat.toDigits 10 s) ++
        'e' :: (if 0 < n then '+' else '-') :: Nat.toDigits 10 (n - 1).natAbs) =
      some (ofDecimal sign s (n - (Nat.toDigits 10 s).length)) := by
  have hvalue : Nat.ofDigitChars 10 (Nat.toDigits 10 s) 0 = s := Nat.ofDigitChars_ten_toDigits
  have hdigits := fun c hc => digits_toDigits (s := s) c hc
  have hexponent := exponentOf_text n
  cases hds : Nat.toDigits 10 s with
  | nil => exact absurd hds Nat.toDigits_ne_nil
  | cons d rest =>
    rw [hds] at hvalue hdigits
    have hint : Leading [d] := ⟨by simpa using hdigits d List.mem_cons_self, by simp, fun _ => rfl⟩
    cases rest with
    | nil =>
      have hone := magnitudeOf_int sign hint hexponent (fun c hc => by cases hc; decide)
      rw [hvalue] at hone
      exact hone
    | cons f rest =>
      have hpoint := magnitudeOf_point sign hint
        (fun c hc => hdigits c (List.mem_cons_of_mem d hc)) (List.cons_ne_nil f rest) hexponent
        (fun c hc => by cases hc; rfl)
      rw [show [d] ++ f :: rest = d :: f :: rest from rfl, hvalue] at hpoint
      refine hpoint.trans ?_
      congr 2
      simp only [List.length_cons]
      omega

theorem magnitudeOf_layout (sign : Bool) (hs : 0 < s) (e : Int) :
    magnitudeOf sign (layout (Nat.toDigits 10 s) ((Nat.toDigits 10 s).length + e)) =
      some (ofDecimal sign s e) := by
  unfold layout
  split
  next h =>
    obtain ⟨m, rfl⟩ := Int.eq_ofNat_of_zero_le (show 0 ≤ e by omega)
    rw [show ((Nat.toDigits 10 s).length + (m : Int) - (Nat.toDigits 10 s).length).toNat = m by
      omega]
    exact magnitudeOf_whole hs m
  next hlong =>
    split
    next h =>
      obtain ⟨n, hn⟩ := Int.eq_ofNat_of_zero_le h.1.le
      rw [hn, Int.toNat_natCast, magnitudeOf_between hs (by omega) (by omega), ← hn]
      congr 2
      omega
    next =>
      split
      next h =>
        obtain ⟨m, hm⟩ := Int.eq_ofNat_of_zero_le (show 0 ≤ -((Nat.toDigits 10 s).length + e) by omega)
        rw [hm, Int.toNat_natCast, magnitudeOf_small, ← hm]
        congr 2
        omega
      next =>
        rw [magnitudeOf_mantissa]
        congr 2
        omega

end Layout

/-- The digits of a number are followed by no `-`. -/
theorem head_layout {digits : List Char} (hdigits : ∀ c ∈ digits, c.isDigit = true)
    (hne : digits ≠ []) (n : Int) : ∃ c, (layout digits n).head? = some c ∧ c.isDigit = true := by
  obtain ⟨d, rest, rfl⟩ := List.exists_cons_of_ne_nil hne
  have hd := hdigits d List.mem_cons_self
  unfold layout
  split
  · exact ⟨d, rfl, hd⟩
  · split
    next h =>
      obtain ⟨m, hm⟩ := Nat.exists_eq_succ_of_ne_zero (show n.toNat ≠ 0 by omega)
      rw [hm]
      exact ⟨d, rfl, hd⟩
    · split
      · exact ⟨'0', rfl, rfl⟩
      · refine ⟨d, ?_, hd⟩
        cases rest <;> rfl

theorem numberValue_minus (l : List Char) : numberValue ('-' :: l) = magnitudeOf true l := rfl

theorem numberValue_digit {l : List Char} {c : Char} (h : l.head? = some c)
    (hc : c.isDigit = true) : numberValue l = magnitudeOf false l := by
  unfold numberValue
  split
  next =>
    cases h
    cases hc
  next => rfl

theorem ofDecimal_of_nearest {sign : Bool} {s m : Nat} {e : Int} (h : nearestDecimal s e = m)
    (hm : m < 2047 * 2 ^ 52) :
    ofDecimal sign s e = UInt64.ofNat ((if sign then 2 ^ 63 else 0) + m) := by
  rw [ofDecimal, h, Nat.min_eq_left hm.le]

/-- A number is read back from its text. -/
theorem numberValue_numberText {bits : UInt64} (hfinite : isFinite bits = true)
    (hzero : bits ≠ 0x8000000000000000) : numberValue (numberText bits) = some bits := by
  have hsmall : bits.toNat % 2 ^ 63 < 2047 * 2 ^ 52 := by
    have hne : bits.toNat / 2 ^ 52 % 2 ^ 11 ≠ 2047 := of_decide_eq_true hfinite
    omega
  have hbits : UInt64.ofNat ((if Binary64.sign bits then 2 ^ 63 else 0) + bits.toNat % 2 ^ 63) =
      bits := by
    have hlt : bits.toNat < 2 ^ 64 := bits.toNat_lt
    have hsum : (if Binary64.sign bits then 2 ^ 63 else 0) + bits.toNat % 2 ^ 63 = bits.toNat := by
      unfold Binary64.sign
      by_cases h : 2 ^ 63 ≤ bits.toNat
      · simp only [h, decide_true, if_true]
        omega
      · simp only [h, decide_false, Bool.false_eq_true, if_false]
        omega
    rw [hsum, UInt64.ofNat_toNat]
  unfold numberText
  split
  next h =>
    -- the zero without a sign
    have hint : Leading ['0'] := ⟨by simp, by simp, fun _ => rfl⟩
    have hvalue := magnitudeOf_int false hint (rfl : exponentOf [] = some 0) nofun
    rw [h] at hbits
    cases hs : Binary64.sign bits with
    | true =>
      rw [hs] at hbits
      exact absurd hbits.symm hzero
    | false =>
      rw [hs] at hbits
      refine hvalue.trans (congrArg some ?_)
      rw [← hbits, show Nat.ofDigitChars 10 ['0'] 0 = 0 from rfl,
        ofDecimal_of_nearest (nearestDecimal_zero 0) (by decide)]
  next h =>
    dsimp only
    have hback := nearestDecimal_shortest hsmall
    have hpos : 0 < (shortest (bits.toNat % 2 ^ 63)).1 := by
      refine Nat.pos_of_ne_zero fun h0 => h ?_
      rw [← hback, h0, nearestDecimal_zero]
    have hvalue := fun sign => magnitudeOf_layout sign hpos (shortest (bits.toNat % 2 ^ 63)).2
    obtain ⟨c, hc, hdigit⟩ := head_layout digits_toDigits Nat.toDigits_ne_nil
      ((Nat.toDigits 10 (shortest (bits.toNat % 2 ^ 63)).1).length +
        (shortest (bits.toNat % 2 ^ 63)).2)
    cases hs : Binary64.sign bits with
    | true =>
      rw [hs] at hbits
      rw [minus, if_pos rfl, List.cons_append, List.nil_append, numberValue_minus, hvalue,
        ofDecimal_of_nearest hback hsmall, hbits]
    | false =>
      rw [hs] at hbits
      rw [minus, if_neg Bool.false_ne_true, List.nil_append, numberValue_digit hc hdigit, hvalue,
        ofDecimal_of_nearest hback hsmall, hbits]

end NapiVm.NumberText
