import NapiVm.Number.Format
import Mathlib.Algebra.Order.Floor.Defs
import Mathlib.Tactic.FieldSimp
import Mathlib.Tactic.Positivity

/-!
# The closest integer

* `magnitude` — the number that a pattern stands for, without its sign.
* `Closest` — the integer whose multiple of a unit is nearest to a number.
* `roundedDecimalInteger_ok`, `roundedDecimalInteger_eq` — it is rounded to that one, and never
  too large on the way.
-/

namespace NapiVm.NumberText

/-! ## The number -/

/-- The magnitude of a finite number: its significand times a power of two. -/
def magnitude (value : UInt64) : ℚ :=
  (Binary64.fraction value + if Binary64.exponent value = 0 then 0 else 2 ^ 52 : ℕ) *
    2 ^ (if Binary64.exponent value = 0 then -1074 else (Binary64.exponent value : ℤ) - 1075)

theorem mul_le_two_pow {a b i j k : ℕ} (ha : a ≤ 2 ^ i) (hb : b ≤ 2 ^ j) (h : i + j ≤ k) :
    a * b ≤ 2 ^ k :=
  (Nat.mul_le_mul ha hb).trans (Nat.pow_add 2 i j ▸ Nat.pow_le_pow_right Nat.two_pos h)

/-- A fraction that is small enough for what is done with it. -/
structure IsFraction (x : ℚ) (numerator denominator : ℕ) : Prop where
  pos : 0 < denominator
  eq : (numerator : ℚ) / denominator = x
  numerator_le : numerator ≤ 2 ^ 1024
  denominator_le : denominator ≤ 2 ^ 1074

section Rational

variable {value : UInt64}

theorem exponent_lt (hfinite : Binary64.isFinite value = true) :
    Binary64.exponent value < 2047 := by
  have hne : Binary64.exponent value ≠ 2047 := of_decide_eq_true hfinite
  have hlt : Binary64.exponent value < 2 ^ 11 := Nat.mod_lt _ (by decide)
  omega

theorem fraction_lt (value : UInt64) : Binary64.fraction value < 2 ^ 52 :=
  Nat.mod_lt _ (by decide)

theorem binaryRational_eq (hfinite : Binary64.isFinite value = true) :
    ∃ numerator denominator, binaryRational value = .ok (numerator, denominator) ∧
      IsFraction (magnitude value) numerator denominator := by
  have hexponent := exponent_lt hfinite
  have hfraction := fraction_lt value
  rw [binaryRational, magnitude]
  generalize hmantissa : Binary64.fraction value +
    (if Binary64.exponent value = 0 then 0 else 2 ^ 52) = mantissa
  have hlt : mantissa < 2 ^ 53 := by
    rw [← hmantissa]
    split <;> omega
  generalize hshift : (if Binary64.exponent value = 0 then (-1074 : ℤ)
    else (Binary64.exponent value : ℤ) - 1075) = shift
  have hrange : -1074 ≤ shift ∧ shift ≤ 971 := by
    rw [← hshift]
    split <;> omega
  split
  · next hpos =>
      obtain ⟨k, rfl⟩ := Int.eq_ofNat_of_zero_le hpos
      have hsmall : mantissa * 2 ^ k ≤ 2 ^ 1024 :=
        mul_le_two_pow (Nat.le_of_lt hlt) (Nat.le_refl _) (by omega)
      rw [Int.toNat_natCast, BigNat.shl_eq hsmall (by omega) (by omega)]
      refine ⟨_, _, rfl, Nat.one_pos, ?_, hsmall, Nat.one_le_two_pow⟩
      push_cast
      rw [div_one, zpow_natCast]
  · next hneg =>
      obtain ⟨k, hk⟩ := Int.eq_ofNat_of_zero_le (show 0 ≤ -shift by omega)
      have hsmall : 1 * 2 ^ k ≤ 2 ^ 1074 := by
        rw [Nat.one_mul]
        exact Nat.pow_le_pow_right (by decide) (by omega)
      rw [hk, Int.toNat_natCast, BigNat.shl_eq hsmall (by omega) (by omega), Nat.one_mul]
      refine ⟨_, _, rfl, Nat.two_pow_pos k, ?_, ?_, by rwa [Nat.one_mul] at hsmall⟩
      · rw [show shift = -(k : ℤ) by omega, zpow_neg, zpow_natCast, div_eq_mul_inv]
        push_cast
        rfl
      · exact (Nat.le_of_lt hlt).trans (Nat.pow_le_pow_right (by decide) (by decide))

end Rational

/-! ## Rounding -/

/-- The integer whose multiple of the unit is nearest to the number, the larger one on a tie. -/
def Closest (x unit : ℚ) (n : ℕ) : Prop :=
  ∀ m : ℤ, |n * unit - x| ≤ |m * unit - x| ∧ (|n * unit - x| = |m * unit - x| → m ≤ n)

/-- Half a unit more, rounded down. -/
theorem closest_half_up {numerator denominator : ℕ} (hpos : 0 < denominator) :
    Closest (numerator / denominator) 1 ((numerator * 2 + denominator) / (denominator * 2)) := by
  have hd : (0 : ℚ) < denominator := by exact_mod_cast hpos
  generalize hr : (numerator * 2 + denominator) / (denominator * 2) = r
  have hdiv := Nat.div_add_mod (numerator * 2 + denominator) (denominator * 2)
  have hmod := Nat.mod_lt (numerator * 2 + denominator) (show 0 < denominator * 2 by omega)
  rw [hr] at hdiv
  have hlow : denominator * 2 * r ≤ numerator * 2 + denominator := by omega
  have hhigh : numerator * 2 + denominator < denominator * 2 * (r + 1) := by
    have hsucc : denominator * 2 * (r + 1) = denominator * 2 * r + denominator * 2 :=
      Nat.mul_succ ..
    omega
  have hlow' : (denominator : ℚ) * 2 * r ≤ numerator * 2 + denominator := by exact_mod_cast hlow
  have hhigh' : (numerator : ℚ) * 2 + denominator < denominator * 2 * (r + 1) := by
    exact_mod_cast hhigh
  have habove : (r : ℚ) - 1 / 2 ≤ numerator / denominator := by
    rw [le_div_iff₀ hd]
    linarith
  have hbelow : (numerator : ℚ) / denominator < r + 1 / 2 := by
    rw [div_lt_iff₀ hd]
    linarith
  generalize (numerator : ℚ) / denominator = x at habove hbelow
  intro m
  rw [mul_one, mul_one]
  have hself : |(r : ℚ) - x| ≤ 1 / 2 := abs_le.2 ⟨by linarith, by linarith⟩
  rcases lt_trichotomy m (r : ℤ) with hlt | rfl | hgt
  · have hm : (m : ℚ) + 1 ≤ r := by exact_mod_cast hlt
    have hfar : |(m : ℚ) - x| = x - m := by
      rw [abs_sub_comm, abs_of_nonneg (by linarith)]
    refine ⟨?_, fun _ => hlt.le⟩
    rw [hfar]
    linarith
  · exact ⟨by rw [Int.cast_natCast], fun _ => le_refl _⟩
  · have hm : (r : ℚ) + 1 ≤ m := by exact_mod_cast hgt
    have hfar : |(m : ℚ) - x| = m - x := abs_of_nonneg (by linarith)
    rw [hfar]
    exact ⟨by linarith, fun heq => absurd heq (ne_of_lt (by linarith))⟩

/-- The unit of a multiple. -/
theorem Closest.scale {x unit c : ℚ} (hc : 0 < c) {n : ℕ} (h : Closest (x * c) (unit * c) n) :
    Closest x unit n := by
  intro m
  have hscale (a : ℚ) : |a * (unit * c) - x * c| = |a * unit - x| * c := by
    rw [show a * (unit * c) - x * c = (a * unit - x) * c by ring, abs_mul, abs_of_pos hc]
  have hm := h m
  rw [hscale, hscale, mul_le_mul_iff_left₀ hc, mul_left_inj' hc.ne'] at hm
  exact hm

theorem lt_two_pow_ten (k : ℕ) : 10 ^ k ≤ 2 ^ (4 * k) := by
  rw [Nat.pow_mul]
  exact Nat.pow_le_pow_left (by decide) k

theorem pow_ten_eq {k : ℕ} (hk : k ≤ 32700) : BigNat.pow 10 k = .ok (10 ^ k) :=
  BigNat.pow_eq (show 10 ≤ 2 ^ 4 by decide) (by omega)

section Scaled

variable {x : ℚ} {numerator denominator : ℕ}

theorem scaled_ok (hx : IsFraction x numerator denominator) {scale : ℤ} {result : ℕ × ℕ}
    (h : scaled numerator denominator scale = .ok result) :
    0 < result.2 ∧ (result.1 : ℚ) / result.2 = x * 10 ^ scale := by
  have hd : (denominator : ℚ) ≠ 0 := Nat.cast_ne_zero.2 hx.pos.ne'
  obtain ⟨power, hpower, h⟩ := ok_of_bind h
  obtain rfl := BigNat.eq_of_pow hpower
  split at h
  · next hpos =>
      obtain ⟨product, hproduct, h⟩ := ok_of_bind h
      obtain rfl := BigNat.eq_of_mul hproduct
      obtain ⟨k, rfl⟩ := Int.eq_ofNat_of_zero_le hpos
      cases h
      refine ⟨hx.pos, ?_⟩
      rw [← hx.eq, Int.natAbs_natCast, zpow_natCast]
      push_cast
      rw [div_mul_eq_mul_div]
  · next hneg =>
      obtain ⟨product, hproduct, h⟩ := ok_of_bind h
      obtain rfl := BigNat.eq_of_mul hproduct
      obtain ⟨k, hk⟩ := Int.eq_ofNat_of_zero_le (show 0 ≤ -scale by omega)
      cases h
      have habs : scale.natAbs = k := by omega
      refine ⟨Nat.mul_pos hx.pos (Nat.pow_pos (by decide)), ?_⟩
      rw [← hx.eq, habs, show scale = -(k : ℤ) by omega, zpow_neg, zpow_natCast]
      push_cast
      rw [div_mul_eq_div_div, div_eq_mul_inv (_ / _)]

/-- A scale that is not large is no reason to fail. -/
theorem scaled_eq (hx : IsFraction x numerator denominator) {scale : ℤ}
    (hscale : scale.natAbs ≤ 1000) : ∃ result, scaled numerator denominator scale = .ok result ∧
      result.1 ≤ 2 ^ 6000 ∧ result.2 ≤ 2 ^ 6000 := by
  have hten := lt_two_pow_ten scale.natAbs
  have hbound {n i : ℕ} (hn : n ≤ 2 ^ i) (hi : i ≤ 1074) : n * 10 ^ scale.natAbs ≤ 2 ^ 6000 :=
    mul_le_two_pow hn hten (by omega)
  have hsmall {n i : ℕ} (hn : n ≤ 2 ^ i) (hi : i ≤ 1074) : n ≤ 2 ^ 6000 :=
    hn.trans (Nat.pow_le_pow_right (by decide) (by omega))
  rw [scaled, pow_ten_eq (by omega)]
  change ∃ result, (if 0 ≤ scale then _ else _) = _ ∧ _
  split
  · rw [BigNat.mul_eq hx.numerator_le hten (by omega)]
    exact ⟨_, rfl, hbound hx.numerator_le (by omega), hsmall hx.denominator_le (by omega)⟩
  · rw [BigNat.mul_eq hx.denominator_le hten (by omega)]
    exact ⟨_, rfl, hsmall hx.numerator_le (by omega), hbound hx.denominator_le (by omega)⟩

end Scaled

section Rounded

variable {value : UInt64} {scale : ℤ}

theorem roundedDecimalInteger_ok (hfinite : Binary64.isFinite value = true) {n : ℕ}
    (h : roundedDecimalInteger value scale = .ok n) :
    Closest (magnitude value) (10 ^ (-scale)) n := by
  obtain ⟨numerator, denominator, hrational, hx⟩ := binaryRational_eq hfinite
  obtain ⟨pair, hpair, h⟩ := ok_of_bind h
  rw [hrational] at hpair
  cases hpair
  obtain ⟨result, hresult, h⟩ := ok_of_bind h
  obtain ⟨hpos, hvalue⟩ := scaled_ok hx hresult
  obtain ⟨doubled, hdoubled, h⟩ := ok_of_bind h
  obtain ⟨sum, hsum, h⟩ := ok_of_bind h
  obtain ⟨divisor, hdivisor, h⟩ := ok_of_bind h
  have hten : (0 : ℚ) < 10 ^ scale := zpow_pos (by norm_num) scale
  refine Closest.scale hten ?_
  rw [← hvalue, zpow_neg, inv_mul_cancel₀ hten.ne', BigNat.eq_of_div h, BigNat.eq_of_add hsum,
    BigNat.eq_of_shl hdoubled, BigNat.eq_of_shl hdivisor, Nat.pow_one]
  exact closest_half_up hpos

theorem roundedDecimalInteger_eq (hfinite : Binary64.isFinite value = true)
    (hscale : scale.natAbs ≤ 1000) : ∃ n, roundedDecimalInteger value scale = .ok n := by
  obtain ⟨numerator, denominator, hrational, hx⟩ := binaryRational_eq hfinite
  obtain ⟨result, hresult, hnum, hden⟩ := scaled_eq hx hscale
  obtain ⟨hpos, -⟩ := scaled_ok hx hresult
  have hdouble {n : ℕ} (hn : n ≤ 2 ^ 6000) : n * 2 ^ 1 ≤ 2 ^ 6001 :=
    mul_le_two_pow hn (Nat.le_refl _) (by decide)
  have hsum : result.1 * 2 ^ 1 + result.2 ≤ 2 ^ 6002 := by
    refine (Nat.add_le_add (hdouble hnum)
      (hden.trans (Nat.pow_le_pow_right Nat.two_pos (Nat.le_succ 6000)))).trans ?_
    rw [← Nat.mul_two]
    exact mul_le_two_pow (Nat.le_refl _) (Nat.le_refl (2 ^ 1)) (by decide)
  rw [roundedDecimalInteger, hrational]
  change ∃ n, (scaled numerator denominator scale >>= _) = _
  rw [hresult]
  change ∃ n, (BigNat.shl result.1 1 >>= _) = _
  rw [BigNat.shl_eq (hdouble hnum) (by omega) (by omega)]
  change ∃ n, (BigNat.add (result.1 * 2 ^ 1) result.2 >>= _) = _
  rw [BigNat.add_eq hsum (by omega)]
  change ∃ n, (BigNat.shl result.2 1 >>= _) = _
  rw [BigNat.shl_eq (hdouble hden) (by omega) (by omega)]
  exact ⟨_, BigNat.div_eq (Nat.ne_of_gt (Nat.mul_pos hpos (by decide)))⟩

end Rounded

end NapiVm.NumberText
