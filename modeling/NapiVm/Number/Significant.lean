import NapiVm.Number.Closest
import NapiVm.Number.DecimalText

/-!
# The first digits of a number

* `descend_ok`, `ascend_ok` — the search for the exponent ends at the right one.
* `Best` — the digits, with their exponent, that are nearest to a number.
* `significantDigits_ok`, `significantDigits_eq` — they are found, whatever the estimate is; an
  estimate that is not huge is no reason to fail.
-/

namespace NapiVm.NumberText

/-! ## The exponent -/

theorem ten_zpow_pos (k : ℤ) : (0 : ℚ) < 10 ^ k := zpow_pos (by norm_num) k

theorem ten_zpow_le {j k : ℤ} (h : j ≤ k) : (10 : ℚ) ^ j ≤ 10 ^ k :=
  zpow_le_zpow_right₀ (by norm_num) h

theorem ten_zpow_lt {j k : ℤ} : (10 : ℚ) ^ j < 10 ^ k ↔ j < k :=
  zpow_lt_zpow_iff_right₀ (by norm_num)

section Search

variable {x : ℚ} {numerator denominator : ℕ} (hx : IsFraction x numerator denominator)
include hx

theorem lessThanPower_ok {exponent : ℤ} {less : Bool}
    (h : lessThanPower numerator denominator exponent = .ok less) :
    less = true ↔ x < 10 ^ exponent := by
  have hd : (0 : ℚ) < denominator := Nat.cast_pos.2 hx.pos
  obtain ⟨power, hpower, h⟩ := ok_of_bind h
  obtain rfl := BigNat.eq_of_pow hpower
  split at h
  · next hpos =>
      obtain ⟨right, hright, h⟩ := ok_of_bind h
      obtain rfl := BigNat.eq_of_mul hright
      obtain ⟨k, rfl⟩ := Int.eq_ofNat_of_zero_le hpos
      cases h
      rw [decide_eq_true_eq, ← hx.eq, zpow_natCast, div_lt_iff₀ hd, Int.natAbs_natCast, mul_comm]
      exact_mod_cast Iff.rfl
  · next hneg =>
      obtain ⟨left, hleft, h⟩ := ok_of_bind h
      obtain rfl := BigNat.eq_of_mul hleft
      obtain ⟨k, hk⟩ := Int.eq_ofNat_of_zero_le (show 0 ≤ -exponent by omega)
      have hten : (0 : ℚ) < 10 ^ k := pow_pos (by norm_num) k
      cases h
      rw [decide_eq_true_eq, ← hx.eq, show exponent = -(k : ℤ) by omega, zpow_neg, zpow_natCast,
        Int.natAbs_neg, Int.natAbs_natCast, div_lt_iff₀ hd, ← div_eq_inv_mul, lt_div_iff₀ hten]
      exact_mod_cast Iff.rfl

/-- An exponent that is not huge is no reason to fail. -/
theorem lessThanPower_eq {exponent : ℤ} (hexponent : exponent.natAbs ≤ 32001) :
    ∃ less, lessThanPower numerator denominator exponent = .ok less := by
  have hten := lt_two_pow_ten exponent.natAbs
  rw [lessThanPower, pow_ten_eq (by omega)]
  change ∃ less, (if 0 ≤ exponent then _ else _) = _
  split
  · rw [BigNat.mul_eq hx.denominator_le hten (by omega)]
    exact ⟨_, rfl⟩
  · rw [BigNat.mul_eq hx.numerator_le hten (by omega)]
    exact ⟨_, rfl⟩

section Descend

variable (hlow : 10 ^ (-324 : ℤ) ≤ x)
include hlow

/-- The first loop ends at a power that the number reaches. -/
theorem descend_ok {steps : ℕ} : ∀ {exponent result : ℤ}, exponent + 324 ≤ steps →
    descend numerator denominator steps exponent = .ok result → 10 ^ result ≤ x := by
  induction steps with
  | zero =>
    intro exponent result hsteps h
    cases h
    exact (ten_zpow_le (by omega)).trans hlow
  | succ steps ih =>
    intro exponent result hsteps h
    obtain ⟨less, hless, h⟩ := ok_of_bind h
    have hiff := lessThanPower_ok hx hless
    split at h
    · exact ih (by omega) h
    · next hreached =>
        cases h
        exact not_lt.1 fun hlt => hreached (hiff.2 hlt)

theorem descend_eq (steps : ℕ) : ∀ {exponent : ℤ}, exponent.natAbs ≤ 32000 →
    ∃ result, descend numerator denominator steps exponent = .ok result ∧
      result.natAbs ≤ 32000 := by
  induction steps with
  | zero => exact fun hexponent => ⟨_, rfl, hexponent⟩
  | succ steps ih =>
    intro exponent hexponent
    obtain ⟨less, hless⟩ := lessThanPower_eq hx (show exponent.natAbs ≤ 32001 by omega)
    have hiff := lessThanPower_ok hx hless
    rw [descend, hless]
    change ∃ result, (if less = true then _ else _) = _ ∧ _
    split
    · next hlt =>
        have hsmall : -324 < exponent := ten_zpow_lt.1 (hlow.trans_lt (hiff.1 hlt))
        exact ih (by omega)
    · exact ⟨_, rfl, hexponent⟩

end Descend

section Ascend

variable (hhigh : x < 10 ^ (309 : ℤ))
include hhigh

/-- The second loop ends at the last power that the number reaches. -/
theorem ascend_ok {steps : ℕ} : ∀ {exponent result : ℤ}, 309 ≤ exponent + steps →
    10 ^ exponent ≤ x → ascend numerator denominator steps exponent = .ok result →
    10 ^ result ≤ x ∧ x < 10 ^ (result + 1) := by
  induction steps with
  | zero =>
    intro exponent result hsteps hreached
    have hlt : exponent < 309 := ten_zpow_lt.1 (hreached.trans_lt hhigh)
    omega
  | succ steps ih =>
    intro exponent result hsteps hreached h
    obtain ⟨less, hless, h⟩ := ok_of_bind h
    have hiff := lessThanPower_ok hx hless
    split at h
    · next hlast =>
        cases h
        exact ⟨hreached, hiff.1 hlast⟩
    · next hmore => exact ih (by omega) (not_lt.1 fun hlt => hmore (hiff.2 hlt)) h

theorem ascend_eq (steps : ℕ) : ∀ {exponent : ℤ}, exponent.natAbs ≤ 32000 →
    10 ^ exponent ≤ x → ∃ result, ascend numerator denominator steps exponent = .ok result := by
  induction steps with
  | zero => exact fun _ _ => ⟨_, rfl⟩
  | succ steps ih =>
    intro exponent hexponent hreached
    have hlt : exponent < 309 := ten_zpow_lt.1 (hreached.trans_lt hhigh)
    obtain ⟨less, hless⟩ := lessThanPower_eq hx (show (exponent + 1).natAbs ≤ 32001 by omega)
    have hiff := lessThanPower_ok hx hless
    rw [ascend, hless]
    change ∃ result, (if less = true then _ else _) = _
    split
    · exact ⟨_, rfl⟩
    · next hmore =>
        have hreached' := not_lt.1 fun hlt => hmore (hiff.2 hlt)
        have hlt' := ten_zpow_lt.1 (hreached'.trans_lt hhigh)
        exact ih (by omega) hreached'

end Ascend

end Search

/-! ## The digits -/

/-- The integer of so many digits and the exponent of the first one that are nearest to the
number, the larger ones on a tie. -/
def Best (x : ℚ) (precision n : ℕ) (exponent : ℤ) : Prop :=
  10 ^ (precision - 1) ≤ n ∧ n < 10 ^ precision ∧
    ∀ (m : ℕ) (other : ℤ), 10 ^ (precision - 1) ≤ m → m < 10 ^ precision →
      |n * 10 ^ (exponent - precision + 1) - x| ≤ |m * 10 ^ (other - precision + 1) - x| ∧
        (|n * 10 ^ (exponent - precision + 1) - x| = |m * 10 ^ (other - precision + 1) - x| →
          (m * 10 ^ (other - precision + 1) : ℚ) ≤ n * 10 ^ (exponent - precision + 1))

namespace Closest

variable {x unit : ℚ} {n : ℕ}

theorem le_of_le (h : Closest x unit n) (hunit : 0 < unit) {m : ℤ} (hm : m * unit ≤ x) : m ≤ n := by
  by_contra hlt
  have hcast : (n : ℚ) < m := by exact_mod_cast not_le.1 hlt
  have hmul := mul_lt_mul_of_pos_right hcast hunit
  have habs := (h m).1
  rw [abs_of_nonpos (by linarith), abs_of_nonpos (by linarith)] at habs
  linarith

theorem le_of_ge (h : Closest x unit n) (hunit : 0 < unit) {m : ℤ} (hm : x ≤ m * unit) : n ≤ m := by
  by_contra hlt
  have hcast : (m : ℚ) < n := by exact_mod_cast not_le.1 hlt
  have hmul := mul_lt_mul_of_pos_right hcast hunit
  have habs := (h m).1
  rw [abs_of_nonneg (by linarith), abs_of_nonneg (by linarith)] at habs
  linarith

end Closest

section Digits

variable {x : ℚ} {precision n : ℕ} {exponent : ℤ} (hprecision : 0 < precision)
include hprecision

/-- A one with zeros, times the unit of the last digit. -/
theorem pow_mul_unit (exponent : ℤ) : ((10 ^ (precision - 1) : ℕ) : ℚ) *
    10 ^ (exponent - precision + 1) = 10 ^ exponent := by
  push_cast
  rw [← zpow_natCast, ← zpow_add₀ (by norm_num)]
  congr 1
  omega

omit hprecision in
theorem mul_unit_lt {m : ℕ} (hm : m < 10 ^ precision) (exponent : ℤ) :
    (m : ℚ) * 10 ^ (exponent - precision + 1) < 10 ^ (exponent + 1) := by
  have hcast : (m : ℚ) < 10 ^ precision := by exact_mod_cast hm
  refine (mul_lt_mul_of_pos_right hcast (ten_zpow_pos _)).trans_eq ?_
  rw [← zpow_natCast, ← zpow_add₀ (by norm_num)]
  congr 1
  omega

variable (hreached : 10 ^ exponent ≤ x)
  (hclosest : Closest x (10 ^ (exponent - precision + 1)) n)
include hreached hclosest

theorem closest_range (hlast : x < 10 ^ (exponent + 1)) :
    10 ^ (precision - 1) ≤ n ∧ n ≤ 10 ^ precision := by
  have hunit : (0 : ℚ) < 10 ^ (exponent - precision + 1) := ten_zpow_pos _
  have hlow : ((10 ^ (precision - 1) : ℕ) : ℤ) ≤ n := by
    refine hclosest.le_of_le hunit ?_
    rw [Int.cast_natCast, pow_mul_unit hprecision]
    exact hreached
  have hhigh : (n : ℤ) ≤ (10 ^ precision : ℕ) := by
    refine hclosest.le_of_ge hunit (hlast.le.trans_eq ?_)
    push_cast
    rw [← zpow_natCast, ← zpow_add₀ (by norm_num)]
    congr 1
    omega
  exact ⟨by exact_mod_cast hlow, by exact_mod_cast hhigh⟩

/-- No other digits and exponent are nearer.  With a smaller exponent they are below the power of
ten that the number reaches. -/
theorem nearest_of_closest {m : ℕ} (hm : m < 10 ^ precision) (other : ℤ) :
    |n * 10 ^ (exponent - precision + 1) - x| ≤ |m * 10 ^ (other - precision + 1) - x| ∧
      (|n * 10 ^ (exponent - precision + 1) - x| = |m * 10 ^ (other - precision + 1) - x| →
        (m * 10 ^ (other - precision + 1) : ℚ) ≤ n * 10 ^ (exponent - precision + 1)) := by
  by_cases hother : exponent ≤ other
  · obtain ⟨k, hk⟩ := Int.eq_ofNat_of_zero_le (Int.sub_nonneg.2 hother)
    have hmultiple : (m : ℚ) * 10 ^ (other - precision + 1) =
        ((m * 10 ^ k : ℕ) : ℤ) * 10 ^ (exponent - precision + 1) := by
      push_cast
      rw [mul_assoc, ← zpow_natCast, ← zpow_add₀ (by norm_num)]
      congr 2
      omega
    rw [hmultiple]
    refine ⟨(hclosest _).1, fun heq => ?_⟩
    exact mul_le_mul_of_nonneg_right (by exact_mod_cast (hclosest _).2 heq) (ten_zpow_pos _).le
  · have hbelow : (m : ℚ) * 10 ^ (other - precision + 1) < 10 ^ exponent :=
      (mul_unit_lt hm other).trans_le (ten_zpow_le (by omega))
    have hpower := (hclosest ((10 ^ (precision - 1) : ℕ) : ℤ)).1
    rw [Int.cast_natCast, pow_mul_unit hprecision, abs_of_nonpos (sub_nonpos.2 hreached)] at hpower
    have hfar : |(m : ℚ) * 10 ^ (other - precision + 1) - x| =
        x - m * 10 ^ (other - precision + 1) := by
      rw [abs_of_neg (by linarith)]
      ring
    rw [hfar]
    exact ⟨by linarith, fun heq => absurd heq (ne_of_lt (by linarith))⟩

end Digits

/-! ## Finite numbers -/

section Value

variable {value : UInt64} (hfinite : Binary64.isFinite value = true)
include hfinite

theorem magnitude_eq : ∃ (mantissa : ℕ) (shift : ℤ), magnitude value = mantissa * 2 ^ shift ∧
    mantissa < 2 ^ 53 ∧ -1074 ≤ shift ∧ shift ≤ 971 ∧
      (Binary64.isZero value = true ↔ mantissa = 0) := by
  have hexponent := exponent_lt hfinite
  have hfraction := fraction_lt value
  refine ⟨_, _, rfl, ?_, ?_, ?_, ?_⟩
  · split <;> omega
  · split <;> omega
  · split <;> omega
  · rw [Binary64.isZero, Bool.and_eq_true, decide_eq_true_eq, decide_eq_true_eq]
    split <;> omega

theorem magnitude_bounds (hzero : Binary64.isZero value = false) :
    10 ^ (-324 : ℤ) ≤ magnitude value ∧ magnitude value < 10 ^ (309 : ℤ) := by
  obtain ⟨mantissa, shift, heq, hlt, hlow, hhigh, hiff⟩ := magnitude_eq hfinite
  have hpos : 1 ≤ mantissa := by
    refine Nat.one_le_iff_ne_zero.2 fun hm => ?_
    rw [hiff.2 hm] at hzero
    cases hzero
  have hpos' : (1 : ℚ) ≤ mantissa := by exact_mod_cast hpos
  have hlt' : (mantissa : ℚ) < 2 ^ (53 : ℤ) := by exact_mod_cast hlt
  have htwo (k : ℤ) : (0 : ℚ) < 2 ^ k := zpow_pos (by norm_num) k
  rw [heq]
  constructor
  · have hsmall : (10 : ℚ) ^ (-324 : ℤ) ≤ 2 ^ (-1074 : ℤ) := by
      have hnat : 2 ^ 1074 ≤ 10 ^ 324 := by decide +kernel
      rw [zpow_neg, zpow_neg]
      refine inv_anti₀ (htwo _) ?_
      exact_mod_cast hnat
    calc (10 : ℚ) ^ (-324 : ℤ) ≤ 2 ^ (-1074 : ℤ) := hsmall
      _ ≤ 2 ^ shift := zpow_le_zpow_right₀ (by norm_num) hlow
      _ ≤ mantissa * 2 ^ shift := le_mul_of_one_le_left (htwo _).le hpos'
  · have hlarge : (2 : ℚ) ^ (1024 : ℤ) < 10 ^ (309 : ℤ) := by
      have hnat : 2 ^ 1024 < 10 ^ 309 := by decide +kernel
      exact_mod_cast hnat
    calc (mantissa : ℚ) * 2 ^ shift < 2 ^ (53 : ℤ) * 2 ^ shift :=
          mul_lt_mul_of_pos_right hlt' (htwo _)
      _ ≤ 2 ^ (53 : ℤ) * 2 ^ (971 : ℤ) :=
          mul_le_mul_of_nonneg_left (zpow_le_zpow_right₀ (by norm_num) hhigh) (htwo _).le
      _ = 2 ^ (1024 : ℤ) := by
          rw [← zpow_add₀ (by norm_num)]
          rfl
      _ < 10 ^ (309 : ℤ) := hlarge

section Nonzero

variable (hzero : Binary64.isZero value = false) {precision : ℕ} {estimate : ℤ}
include hzero

/-- The digits are the nearest ones. -/
theorem significantDigits_ok (hprecision : 0 < precision) {text : List Char} {exponent : ℤ}
    (h : significantDigits value precision estimate = .ok (text, exponent)) :
    ∃ n, IsInteger text n ∧ text.length = precision ∧
      Best (magnitude value) precision n exponent := by
  obtain ⟨numerator, denominator, hrational, hx⟩ := binaryRational_eq hfinite
  obtain ⟨hlow, hhigh⟩ := magnitude_bounds hfinite hzero
  rw [significantDigits, hzero, if_neg Bool.false_ne_true, hrational] at h
  obtain ⟨pair, hpair, h⟩ := ok_of_bind h
  cases hpair
  obtain ⟨start, hstart, h⟩ := ok_of_bind h
  obtain ⟨power, hpower, h⟩ := ok_of_bind h
  obtain ⟨n, hn, h⟩ := ok_of_bind h
  have hreached := descend_ok hx hlow (by omega) hstart
  obtain ⟨hfirst, hlast⟩ := ascend_ok hx hhigh (by omega) hreached hpower
  have hclosest := roundedDecimalInteger_ok hfinite hn
  rw [show -((precision : ℤ) - 1 - power) = power - precision + 1 by omega] at hclosest
  obtain ⟨hrange, hrange'⟩ := closest_range hprecision hfirst hclosest hlast
  have hten : 10 ^ precision = 10 * 10 ^ (precision - 1) := by
    rw [← Nat.pow_succ', Nat.succ_eq_add_one, Nat.sub_add_cancel hprecision]
  have hinteger := toDecimal_integer n
  by_cases hcarry : n = 10 ^ precision
  · -- the digits of the power of ten, but for the last zero
    have hone := toDecimal_integer (10 ^ (precision - 1))
    have hpos : 0 < 10 ^ (precision - 1) := Nat.pow_pos (by decide)
    have hlength := length_eq hone hprecision (Nat.le_refl _) (by omega)
    have htext : toDecimal n = toDecimal (10 ^ (precision - 1)) ++ ['0'] := by
      rw [hcarry, hten, toDecimal_mul_ten (Nat.ne_of_gt hpos)]
    have hlong : precision < (toDecimal n).length := by
      rw [htext, List.length_append, hlength]
      exact Nat.lt_succ_self _
    have hvalue : ((10 ^ (precision - 1) : ℕ) : ℚ) * 10 ^ (power + 1 - precision + 1) =
        n * 10 ^ (power - precision + 1) := by
      rw [pow_mul_unit hprecision, hcarry]
      push_cast
      rw [← zpow_natCast, ← zpow_add₀ (by norm_num)]
      congr 1
      omega
    rw [if_pos hlong, htext, List.take_left' hlength] at h
    cases h
    refine ⟨_, hone, hlength, Nat.le_refl _, by omega, fun m other _ hm => ?_⟩
    rw [hvalue]
    exact nearest_of_closest hprecision hfirst hclosest hm other
  · have hlength := length_eq hinteger hprecision hrange (by omega)
    rw [if_neg (by omega)] at h
    cases h
    exact ⟨n, hinteger, hlength, hrange, by omega, fun m other _ hm =>
      nearest_of_closest hprecision hfirst hclosest hm other⟩

/-- An estimate that is not huge is no reason to fail. -/
theorem significantDigits_eq (hprecision : precision ≤ 101) (hestimate : estimate.natAbs ≤ 32000) :
    ∃ result, significantDigits value precision estimate = .ok result := by
  obtain ⟨numerator, denominator, hrational, hx⟩ := binaryRational_eq hfinite
  obtain ⟨hlow, hhigh⟩ := magnitude_bounds hfinite hzero
  obtain ⟨start, hstart, hsmall⟩ := descend_eq hx hlow (estimate.natAbs + 700) hestimate
  have hreached := descend_ok hx hlow (by omega) hstart
  obtain ⟨power, hpower⟩ := ascend_eq hx hhigh (start.natAbs + 700) hsmall hreached
  obtain ⟨hfirst, hlast⟩ := ascend_ok hx hhigh (by omega) hreached hpower
  have hleast : -325 < power := by
    have hlt := ten_zpow_lt.1 (hlow.trans_lt hlast)
    omega
  have hmost : power < 309 := ten_zpow_lt.1 (hfirst.trans_lt hhigh)
  obtain ⟨n, hn⟩ := roundedDecimalInteger_eq hfinite
    (show ((precision : ℤ) - 1 - power).natAbs ≤ 1000 by omega)
  rw [significantDigits, hzero, if_neg Bool.false_ne_true, hrational]
  change ∃ result, (descend numerator denominator (estimate.natAbs + 700) estimate >>= _) = _
  rw [hstart]
  change ∃ result, (ascend numerator denominator (start.natAbs + 700) start >>= _) = _
  rw [hpower]
  change ∃ result, (roundedDecimalInteger value (precision - 1 - power) >>= _) = _
  rw [hn]
  change ∃ result, (if precision < (toDecimal n).length then _ else _) = _
  split
  · exact ⟨_, rfl⟩
  · exact ⟨_, rfl⟩

omit hfinite in
/-- Where the power for an estimate is too large, nothing is found. -/
theorem significantDigits_lt {result : List Char × ℤ}
    (h : significantDigits value precision estimate = .ok result) :
    10 ^ estimate.natAbs < 2 ^ (32 * BigNat.maxLimbs) := by
  rw [significantDigits, hzero, if_neg Bool.false_ne_true] at h
  obtain ⟨pair, -, h⟩ := ok_of_bind h
  obtain ⟨start, hstart, -⟩ := ok_of_bind h
  rw [Nat.add_succ, descend] at hstart
  obtain ⟨less, hless, -⟩ := ok_of_bind hstart
  obtain ⟨power, hpower, -⟩ := ok_of_bind hless
  rw [← BigNat.eq_of_pow hpower]
  exact BigNat.pow_lt hpower

end Nonzero

theorem trunc_le_magnitude : (Binary64.trunc value : ℚ) ≤ magnitude value := by
  have htwo (k : ℕ) : (0 : ℚ) < 2 ^ k := pow_pos (by norm_num) k
  have hexponent := exponent_lt hfinite
  rw [Binary64.trunc, magnitude]
  split
  · rw [Nat.cast_zero]
    exact mul_nonneg (Nat.cast_nonneg _) (zpow_pos (by norm_num) _).le
  · split
    · next hlarge =>
        rw [show (Binary64.exponent value : ℤ) - 1075 = (Binary64.exponent value - 1075 : ℕ) by omega,
          zpow_natCast]
        push_cast
        rw [add_comm]
    · next hsmall =>
        rw [show (Binary64.exponent value : ℤ) - 1075 = -(1075 - Binary64.exponent value : ℕ) by
          omega, zpow_neg, zpow_natCast, ← div_eq_mul_inv, le_div_iff₀ (htwo _), add_comm]
        exact_mod_cast Nat.div_mul_le_self _ _

end Value

end NapiVm.NumberText
