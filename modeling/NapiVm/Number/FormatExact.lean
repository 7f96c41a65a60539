import NapiVm.Number.Significant

/-!
# So many digits, exactly

* `Precise`, `Scientific` — the text of the nearest digits, in either notation.
* `digits_exact` — what the methods write of a finite number.
-/

namespace NapiVm.NumberText

/-! ## Methods -/

theorem countOf_range {low digits : ℕ} {number : UInt64} (h : countOf low number = some digits) :
    low ≤ digits ∧ digits ≤ 100 := by
  unfold countOf at h
  simp only [Option.ite_none_left_eq_some, Option.ite_none_right_eq_some, Option.some.injEq] at h
  obtain ⟨-, hrange, hcount⟩ := h
  exact hcount ▸ hrange

/-- What `toPrecision` is to write.  A zero has no first digit. -/
def Precise (x : ℚ) (precision : ℕ) (text : List Char) : Prop :=
  if x = 0 then Decimals text 0 (precision - 1)
  else ∃ n exponent, Best x precision n exponent ∧
    if exponent < -6 ∨ precision ≤ exponent then Exponential text n precision exponent
    else Decimals text n (precision - 1 - exponent).toNat

/-- What `toExponential` is to write. -/
def Scientific (x : ℚ) (precision : ℕ) (text : List Char) : Prop :=
  if x = 0 then Exponential text 0 precision 0
  else ∃ n exponent, Best x precision n exponent ∧ Exponential text n precision exponent

/-- A method writes such a text, with the sign, if anything; and it does write something unless the
estimate is huge. -/
def Writes (value : UInt64) (estimate : ℤ) (result : Except String (List Char))
    (good : List Char → Prop) : Prop :=
  (∀ written, result = .ok written → ∃ text, written = withSign value text ∧ good text) ∧
    (estimate.natAbs ≤ 32000 → ∃ written, result = .ok written)

section Methods

variable {value : UInt64} (hfinite : Binary64.isFinite value = true) (estimate : ℤ)
include hfinite

theorem magnitude_eq_zero : magnitude value = 0 ↔ Binary64.isZero value = true := by
  obtain ⟨mantissa, shift, heq, -, -, -, hiff⟩ := magnitude_eq hfinite
  rw [heq, hiff, mul_eq_zero, Nat.cast_eq_zero]
  exact or_iff_left (zpow_pos (by norm_num) shift).ne'

variable {precision : ℕ} {good : List Char → Prop} {number : UInt64}

/-- Where a method goes on with the digits. -/
theorem writes_digits (hzero : Binary64.isZero value = false)
    (hlow : 0 < precision) (hhigh : precision ≤ 101) (layout : List Char → ℤ → List Char)

    (hgood : ∀ digits n exponent, IsInteger digits n → digits.length = precision →
      Best (magnitude value) precision n exponent → good (layout digits exponent)) :
    Writes value estimate (significantDigits value precision estimate >>= fun digits =>
      .ok (withSign value (layout digits.1 digits.2))) good := by
  constructor
  · intro written h
    obtain ⟨⟨digits, exponent⟩, hdigits, h⟩ := ok_of_bind h
    obtain ⟨n, hn, hlength, hbest⟩ := significantDigits_ok hfinite hzero hlow hdigits
    cases h
    exact ⟨_, rfl, hgood digits n exponent hn hlength hbest⟩
  · intro hestimate
    obtain ⟨digits, hdigits⟩ := significantDigits_eq hfinite hzero hhigh hestimate
    rw [hdigits]
    exact ⟨_, rfl⟩

omit hfinite in
theorem writes_zero (hzero : Binary64.isZero value = true) {text : List Char} (hgood : good text) :
    Writes value estimate (.ok text) good := by
  have hsign : withSign value text = text := by
    rw [withSign, negative, hzero, Bool.not_true, Bool.and_false]
    rfl
  refine ⟨fun written h => ?_, fun _ => ⟨text, rfl⟩⟩
  cases h
  exact ⟨text, hsign.symm, hgood⟩

theorem numberToFixed_ok (ecmascriptNumberString : UInt64 → List Char) {argument : Option UInt64}
    {digits : ℕ} (hdigits : countOf 0 (argument.getD Binary64.nan) = some digits)
    (hsmall : magnitude value < 10 ^ 21) :
    ∃ n text, numberToFixed ecmascriptNumberString value argument = .ok (withSign value text) ∧
      Closest (magnitude value) (10 ^ (-(digits : ℤ))) n ∧ Decimals text n digits := by
  obtain ⟨-, hmost⟩ := countOf_range hdigits
  obtain ⟨n, hn⟩ := roundedDecimalInteger_eq hfinite (show (digits : ℤ).natAbs ≤ 1000 by omega)
  have htrunc : ¬ 10 ^ 21 ≤ Binary64.trunc value := by
    have hlt := (trunc_le_magnitude hfinite).trans_lt hsmall
    exact not_le.2 (by exact_mod_cast hlt)
  refine ⟨n, fixedText n digits, ?_, roundedDecimalInteger_ok hfinite hn, fixedText_decimals n _⟩
  rw [numberToFixed, hdigits, hfinite, decide_eq_false htrunc]
  change (roundedDecimalInteger value digits >>= _) = _
  rw [hn]
  rfl

theorem numberToPrecision_writes (ecmascriptNumberString : UInt64 → List Char)
    (hprecision : countOf 1 number = some precision) :
    Writes value estimate (numberToPrecision ecmascriptNumberString estimate value (some number))
      (Precise (magnitude value) precision) := by
  obtain ⟨hlow, hhigh⟩ := countOf_range hprecision
  rw [numberToPrecision, hprecision, hfinite]
  dsimp only
  rw [if_neg (show ¬ (!true) = true by decide)]
  cases hzero : Binary64.isZero value with
  | true =>
    rw [if_pos rfl]
    refine writes_zero estimate hzero ?_
    rw [Precise, if_pos ((magnitude_eq_zero hfinite).2 hzero)]
    exact zeroText_decimals _
  | false =>
    rw [if_neg Bool.false_ne_true]
    refine writes_digits hfinite estimate hzero hlow (by omega)
      (fun digits exponent => precisionText digits precision exponent) ?_
    intro digits n exponent hn hlength hbest
    rw [Precise, if_neg fun h => Bool.false_ne_true (hzero ▸ (magnitude_eq_zero hfinite).1 h)]
    refine ⟨n, exponent, hbest, ?_⟩
    split
    · next hlarge =>
        rw [precisionText, if_pos hlarge, ← hn.2.2.1]
        exact exponentialDigits_exponential hn.2.1 hlength hlow
    · exact precisionText_decimals hn hlength (by omega) (by omega)

theorem numberToExponential_writes (ecmascriptNumberString : UInt64 → List Char)
    (shortestDigits : UInt64 → List Char × ℤ) {fraction : ℕ}
    (hfraction : countOf 0 number = some fraction) :
    Writes value estimate
      (numberToExponential ecmascriptNumberString shortestDigits estimate value (some number))
      (Scientific (magnitude value) (fraction + 1)) := by
  obtain ⟨-, hhigh⟩ := countOf_range hfraction
  rw [numberToExponential, hfraction, hfinite, if_neg (show ¬ (!true) = true by decide)]
  dsimp only
  cases hzero : Binary64.isZero value with
  | true =>
    have hpositive : negative value = false := by
      rw [negative, hzero, Bool.not_true, Bool.and_false]
    rw [significantDigits, if_pos hzero]
    change Writes value estimate (.ok (withSign value _)) _
    rw [withSign, hpositive, if_neg Bool.false_ne_true]
    refine writes_zero estimate hzero ?_
    rw [Scientific, if_pos ((magnitude_eq_zero hfinite).2 hzero)]
    have hexponential : Exponential
        (exponentialDigits (List.replicate (fraction + 1) '0') 0) _ (fraction + 1) 0 :=
      exponentialDigits_exponential (all_digits_zeros (fraction + 1)) List.length_replicate
        (Nat.succ_pos fraction)
    rw [denoted_zeros] at hexponential
    exact hexponential
  | false =>
    refine writes_digits hfinite estimate hzero (Nat.succ_pos fraction) (by omega)
      exponentialDigits ?_
    intro digits n exponent hn hlength hbest
    rw [Scientific, if_neg fun h => Bool.false_ne_true (hzero ▸ (magnitude_eq_zero hfinite).1 h)]
    refine ⟨n, exponent, hbest, ?_⟩
    rw [← hn.2.2.1]
    exact exponentialDigits_exponential hn.2.1 hlength (Nat.succ_pos fraction)

/-- What the methods write of a finite number. -/
theorem digits_exact (ecmascriptNumberString : UInt64 → List Char)
    (shortestDigits : UInt64 → List Char × ℤ) :
    (∀ (argument : Option UInt64) (digits : ℕ),
      countOf 0 (argument.getD Binary64.nan) = some digits → magnitude value < 10 ^ 21 →
        ∃ n text, numberToFixed ecmascriptNumberString value argument = .ok (withSign value text) ∧
          Closest (magnitude value) (10 ^ (-(digits : ℤ))) n ∧ Decimals text n digits) ∧
    (∀ (number : UInt64) (precision : ℕ), countOf 1 number = some precision →
      Writes value estimate
        (numberToPrecision ecmascriptNumberString estimate value (some number))
        (Precise (magnitude value) precision)) ∧
    (∀ (number : UInt64) (fraction : ℕ), countOf 0 number = some fraction →
      Writes value estimate
        (numberToExponential ecmascriptNumberString shortestDigits estimate value (some number))
        (Scientific (magnitude value) (fraction + 1))) :=
  ⟨fun _ _ hdigits hsmall => numberToFixed_ok hfinite ecmascriptNumberString hdigits hsmall,
    fun _ _ hprecision =>
      numberToPrecision_writes hfinite estimate ecmascriptNumberString hprecision,
    fun _ _ hfraction =>
      numberToExponential_writes hfinite estimate ecmascriptNumberString shortestDigits hfraction⟩

end Methods

/-- A quarter with one decimal. -/
theorem digits_exact_quarter : ∃ n text,
    numberToFixed (fun _ => []) 0x3FD0000000000000 (some 0x3FF0000000000000) =
      .ok (withSign 0x3FD0000000000000 text) ∧
    Closest (magnitude 0x3FD0000000000000) (10 ^ (-((1 : ℕ) : ℤ))) n ∧ Decimals text n 1 :=
  (digits_exact (by decide) 0 (fun _ => []) fun _ => ([], 0)).1 (some 0x3FF0000000000000) 1
    (by decide) (by
      rw [magnitude, show Binary64.exponent 0x3FD0000000000000 = 1021 by decide,
        show Binary64.fraction 0x3FD0000000000000 = 0 by decide]
      norm_num)

/-- The power of ten is too large for such an estimate; and a zero has no first digit. -/
theorem huge_estimate :
    ¬ (∃ text, numberToPrecision (fun _ => []) 40000 0x3FF0000000000000
        (some 0x4000000000000000) = .ok text) ∧
      numberToPrecision (fun _ => []) 0 0 (some 0x4000000000000000) = .ok ['0', '.', '0'] ∧
        denoted 10 ['0', '0'] < 10 ^ (2 - 1) := by
  refine ⟨?_, by decide, by decide⟩
  rintro ⟨text, h⟩
  change (significantDigits 0x3FF0000000000000 2 40000 >>= fun digits =>
    .ok (withSign 0x3FF0000000000000 (precisionText digits.1 2 digits.2))) = .ok text at h
  obtain ⟨digits, hdigits, -⟩ := ok_of_bind h
  have hlt := significantDigits_lt (by decide) hdigits
  have hlarge : 2 ^ (32 * BigNat.maxLimbs) ≤ 10 ^ 40000 :=
    calc 2 ^ (32 * BigNat.maxLimbs) ≤ 2 ^ (33 * 4000) :=
          Nat.pow_le_pow_right (by decide) (by decide)
      _ = (2 ^ 33) ^ 4000 := Nat.pow_mul ..
      _ ≤ (10 ^ 10) ^ 4000 := Nat.pow_le_pow_left (by decide) _
      _ = 10 ^ 40000 := (Nat.pow_mul ..).symm
  exact Nat.not_lt.2 hlarge hlt

end NapiVm.NumberText
