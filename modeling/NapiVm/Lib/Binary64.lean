import Mathlib.Algebra.Group.Nat.Defs
import Mathlib.Data.Nat.Log
import Mathlib.Tactic.Common

/-!
# Integers in binary64

Conversions between integers and binary64 bit patterns: `ofInt` rounds to
nearest, ties to even, and `toInt?` reads a pattern without a fraction back.
Below `2 ^ 53` nothing is rounded, so an integer is read back (`toInt?_ofInt`).
-/

namespace Binary64

/-- The pattern with these three fields. -/
def pack (sign : Bool) (exponent fraction : Nat) : UInt64 :=
  UInt64.ofNat ((if sign then 2 ^ 63 else 0) + exponent * 2 ^ 52 + fraction)

/-- The sign bit. -/
def sign (b : UInt64) : Bool := decide (2 ^ 63 ≤ b.toNat)

/-- The biased exponent. -/
def exponent (b : UInt64) : Nat := b.toNat / 2 ^ 52 % 2 ^ 11

/-- The fraction field. -/
def fraction (b : UInt64) : Nat := b.toNat % 2 ^ 52

/-- Neither infinite nor a NaN. -/
def isFinite (b : UInt64) : Bool := decide (exponent b ≠ 2047)

/-- A magnitude with a sign, rounded to nearest, ties to even. -/
def ofNat (sign : Bool) (m : Nat) : UInt64 :=
  if m = 0 then pack sign 0 0
  else
    let e := Nat.log 2 m
    if e ≤ 52 then pack sign (e + 1023) (m * 2 ^ (52 - e) - 2 ^ 52)
    else
      let q := m / 2 ^ (e - 52)
      let r := m % 2 ^ (e - 52)
      let q := if 2 ^ (e - 52) < 2 * r ∨ 2 * r = 2 ^ (e - 52) ∧ q % 2 = 1 then q + 1 else q
      if q = 2 ^ 53 then pack sign (e + 1024) 0 else pack sign (e + 1023) (q - 2 ^ 52)

/-- An integer as a binary64 number. -/
def ofInt (n : Int) : UInt64 := ofNat (decide (n < 0)) n.natAbs

/-- The magnitude of a finite number without a fraction. -/
def magnitude? (b : UInt64) : Option Nat :=
  if exponent b = 2047 then none
  else if exponent b = 0 then if fraction b = 0 then some 0 else none
  else if 1075 ≤ exponent b then some ((2 ^ 52 + fraction b) * 2 ^ (exponent b - 1075))
  else if (2 ^ 52 + fraction b) % 2 ^ (1075 - exponent b) = 0 then
    some ((2 ^ 52 + fraction b) / 2 ^ (1075 - exponent b))
  else none

/-- The integer a number without a fraction stands for. -/
def toInt? (b : UInt64) : Option Int :=
  (magnitude? b).map fun m : Nat => if sign b then -(m : Int) else (m : Int)

/-- A quiet NaN. -/
def nan : UInt64 := pack false 2047 (2 ^ 51)

def isNan (b : UInt64) : Bool := decide (exponent b = 2047) && decide (fraction b ≠ 0)

/-- Either zero. -/
def isZero (b : UInt64) : Bool := decide (exponent b = 0) && decide (fraction b = 0)

/-- The magnitude of a finite number, without its fraction. -/
def trunc (b : UInt64) : Nat :=
  if exponent b = 0 then 0
  else if 1075 ≤ exponent b then (2 ^ 52 + fraction b) * 2 ^ (exponent b - 1075)
  else (2 ^ 52 + fraction b) / 2 ^ (1075 - exponent b)

/-- A number without a fraction is all magnitude. -/
theorem of_magnitude? {b : UInt64} {m : Nat} (h : magnitude? b = some m) :
    isFinite b = true ∧ trunc b = m ∧ (isZero b = true ↔ m = 0) := by
  have hpos : 0 < 2 ^ 52 + fraction b := Nat.add_pos_left (Nat.two_pow_pos 52) _
  unfold magnitude? at h
  unfold isFinite trunc isZero
  rw [Bool.and_eq_true, decide_eq_true_eq, decide_eq_true_eq, decide_eq_true_eq]
  split at h
  · cases h
  · next hfinite =>
      refine ⟨hfinite, ?_⟩
      split at h
      · next hexponent =>
          split at h
          · next hfraction =>
              rw [if_pos hexponent, ← Option.some.inj h]
              exact ⟨rfl, iff_of_true ⟨hexponent, hfraction⟩ rfl⟩
          · cases h
      · next hexponent =>
          rw [if_neg hexponent]
          split at h
          · next hlarge =>
              rw [if_pos hlarge, Option.some.inj h]
              have hm : 0 < m := Option.some.inj h ▸ Nat.mul_pos hpos (Nat.two_pow_pos _)
              exact ⟨rfl, iff_of_false (fun h => hexponent h.1) (Nat.ne_of_gt hm)⟩
          · next hsmall =>
              split at h
              · next hexact =>
                  rw [if_neg hsmall, Option.some.inj h]
                  have hm : m ≠ 0 := fun hm => by
                    have hmul := Nat.div_mul_cancel (Nat.dvd_of_mod_eq_zero hexact)
                    rw [Option.some.inj h, hm, Nat.zero_mul] at hmul
                    exact Nat.ne_of_gt hpos hmul.symm
                  exact ⟨rfl, iff_of_false (fun h => hexponent h.1) hm⟩
              · cases h
section Fields

variable {s : Bool} {e f : Nat} (he : e < 2 ^ 11) (hf : f < 2 ^ 52)
include he hf

theorem toNat_pack : (pack s e f).toNat = (if s then 2 ^ 63 else 0) + e * 2 ^ 52 + f := by
  have hlt : (if s then 2 ^ 63 else 0) + e * 2 ^ 52 + f < 2 ^ 64 := by
    split <;> omega
  simp only [pack, UInt64.toNat_ofNat']
  exact Nat.mod_eq_of_lt hlt

theorem sign_pack : sign (pack s e f) = s := by
  unfold sign
  rw [toNat_pack he hf]
  cases s with
  | true =>
    simp only [if_true, decide_eq_true_eq]
    omega
  | false =>
    simp only [Bool.false_eq_true, if_false, decide_eq_false_iff_not]
    omega

theorem exponent_pack : exponent (pack s e f) = e := by
  unfold exponent
  rw [toNat_pack he hf]
  split <;> omega

theorem fraction_pack : fraction (pack s e f) = f := by
  unfold fraction
  rw [toNat_pack he hf]
  split <;> omega

end Fields

/-- A magnitude below `2 ^ 53` is exact. -/
theorem magnitude?_ofNat {m : Nat} (s : Bool) (h : m < 2 ^ 53) :
    magnitude? (ofNat s m) = some m ∧ sign (ofNat s m) = s := by
  unfold ofNat
  by_cases hm : m = 0
  · rw [if_pos hm]
    have he : (0 : Nat) < 2 ^ 11 := by decide
    have hf : (0 : Nat) < 2 ^ 52 := by decide
    refine ⟨?_, sign_pack he hf⟩
    simp [magnitude?, exponent_pack he hf, fraction_pack he hf, hm]
  · have hlog : Nat.log 2 m ≤ 52 := by
      have := Nat.log_lt_of_lt_pow hm h
      omega
    have hlow : 2 ^ Nat.log 2 m ≤ m := Nat.pow_log_le_self 2 hm
    have hhigh : m < 2 ^ (Nat.log 2 m + 1) := Nat.lt_pow_succ_log_self (by decide) m
    rw [if_neg hm]
    dsimp only
    rw [if_pos hlog]
    revert hlog hlow hhigh
    generalize Nat.log 2 m = e
    intro hlog hlow hhigh
    -- the significand fills exactly 53 bits
    have hlo : 2 ^ 52 ≤ m * 2 ^ (52 - e) := by
      calc 2 ^ 52 = 2 ^ e * 2 ^ (52 - e) := by rw [← pow_add]; congr 1; omega
        _ ≤ m * 2 ^ (52 - e) := Nat.mul_le_mul_right _ hlow
    have hhi : m * 2 ^ (52 - e) < 2 ^ 53 := by
      calc m * 2 ^ (52 - e) < 2 ^ (e + 1) * 2 ^ (52 - e) :=
            Nat.mul_lt_mul_of_pos_right hhigh (Nat.pow_pos (by decide))
        _ = 2 ^ 53 := by rw [← pow_add]; congr 1; omega
    have he : e + 1023 < 2 ^ 11 := by omega
    have hf : m * 2 ^ (52 - e) - 2 ^ 52 < 2 ^ 52 := by omega
    have hsum : 2 ^ 52 + (m * 2 ^ (52 - e) - 2 ^ 52) = m * 2 ^ (52 - e) := by omega
    refine ⟨?_, sign_pack he hf⟩
    unfold magnitude?
    rw [exponent_pack he hf, fraction_pack he hf, hsum, if_neg (by omega), if_neg (by omega)]
    by_cases h52 : e = 52
    · subst h52
      simp
    · have hshift : 1075 - (e + 1023) = 52 - e := by omega
      rw [if_neg (by omega), hshift, if_pos (Nat.mul_mod_left _ _),
        Nat.mul_div_cancel _ (Nat.pow_pos (by decide))]

/-- An integer below `2 ^ 53` in magnitude reads back. -/
theorem toInt?_ofInt {n : Int} (h : n.natAbs < 2 ^ 53) : toInt? (ofInt n) = some n := by
  obtain ⟨hmag, hsign⟩ := magnitude?_ofNat (decide (n < 0)) h
  unfold toInt? ofInt
  rw [hmag, Option.map_some, hsign]
  by_cases hn : n < 0
  · simp only [hn, decide_true, if_true]
    exact congrArg some (by omega)
  · simp only [hn, decide_false, Bool.false_eq_true, if_false]
    exact congrArg some (by omega)

end Binary64
