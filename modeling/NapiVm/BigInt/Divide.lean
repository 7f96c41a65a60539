import NapiVm.BigInt.Basic

/-!
# Division of integers

Bit at a time: a remainder that grows from the highest bit of the dividend on.

* `divLoop_spec` — the quotient and the remainder of the bits so far.
* `division_exact` — truncation, and a remainder with the sign of the dividend.
-/

namespace NapiVm
namespace BigInt

/-- Twice the limbs, and a bit. -/
def shiftIn : List UInt32 → UInt32 → List UInt32 × UInt32
  | [], carry => ([], carry)
  | limb :: limbs, carry =>
    let shifted := (limb.toUInt64 <<< 1) ||| carry.toUInt64
    let rest := shiftIn limbs (shifted >>> 32).toUInt32
    (shifted.toUInt32 :: rest.1, rest.2)

def setBit (limbs : List UInt32) (bit : Nat) : List UInt32 :=
  limbs.modify (bit / 32) (· ||| (1 <<< UInt32.ofNat (bit % 32)))

/-- The remainder with the next bit of the dividend. -/
def nextRemainder (a : List UInt32) (bit : Nat) (remainder : List UInt32) : List UInt32 :=
  let next := shiftIn remainder (limbBit a bit)
  trim (if 0 < next.2 then next.1 ++ [next.2] else next.1)

/-- From the bit below so many on. -/
def divLoop (a b : List UInt32) : Nat → List UInt32 → List UInt32 → List UInt32 × List UInt32
  | 0, quotient, remainder => (quotient, remainder)
  | bit + 1, quotient, remainder =>
    let remainder := nextRemainder a bit remainder
    if cmpMagnitude remainder b = .lt then divLoop a b bit quotient remainder
    else divLoop a b bit (setBit quotient bit) (trim (subMagnitude remainder b))

def divmodMagnitude (a b : List UInt32) : List UInt32 × List UInt32 :=
  if cmpMagnitude a b = .lt then ([], a)
  else divLoop a b (a.length * 32) (List.replicate a.length 0) []

def divisionByZero : Failure := .error "RangeError: Division by zero"

/-- Truncating division. -/
def div (a b : BigInt) : BigResult BigInt :=
  if b.isZero then .error divisionByZero
  else .ok (normalized (a.negative != b.negative) (divmodMagnitude a.limbs b.limbs).1)

/-- Remainder, taking the sign of the dividend. -/
def rem (a b : BigInt) : BigResult BigInt :=
  if b.isZero then .error divisionByZero
  else .ok (normalized a.negative (divmodMagnitude a.limbs b.limbs).2)

/-! ## One bit -/

variable {limbs : List UInt32} {bit : Nat}

theorem shiftIn_spec {carry : UInt32} (hcarry : carry.toNat ≤ 1) :
    (shiftIn limbs carry).1.length = limbs.length ∧ (shiftIn limbs carry).2.toNat ≤ 1 ∧
      magnitude (shiftIn limbs carry).1 +
        2 ^ (32 * limbs.length) * (shiftIn limbs carry).2.toNat =
          2 * magnitude limbs + carry.toNat := by
  induction limbs generalizing carry with
  | nil =>
    refine ⟨rfl, hcarry, ?_⟩
    simp [shiftIn]
  | cons limb limbs ih =>
    have hlimb := limb.toNat_lt
    have hshifted : ((limb.toUInt64 <<< 1) ||| carry.toUInt64).toNat =
        2 * limb.toNat + carry.toNat := by
      have hor := Nat.two_pow_add_eq_or_of_lt (b := carry.toNat) (i := 1) (by omega) limb.toNat
      rw [UInt64.toNat_or, UInt64.toNat_shiftLeft, UInt32.toNat_toUInt64, UInt32.toNat_toUInt64,
        Nat.shiftLeft_eq, Nat.mul_comm limb.toNat]
      exact (congrArg (· ||| carry.toNat) (Nat.mod_eq_of_lt (by
        change 2 ^ 1 * limb.toNat < 2 ^ 64
        omega))).trans hor.symm
    have hsplit := toNat_split ((limb.toUInt64 <<< 1) ||| carry.toUInt64)
    have hhigh : (((limb.toUInt64 <<< 1) ||| carry.toUInt64) >>> 32).toUInt32.toNat =
        (((limb.toUInt64 <<< 1) ||| carry.toUInt64) >>> 32).toNat := by
      rw [UInt64.toNat_toUInt32, toNat_high, hshifted]
      omega
    obtain ⟨hlen, hle, hvalue⟩ := @ih (((limb.toUInt64 <<< 1) ||| carry.toUInt64) >>> 32).toUInt32
      (by rw [hhigh, toNat_high, hshifted]; omega)
    rw [shiftIn]
    refine ⟨congrArg (· + 1) hlen, hle, ?_⟩
    dsimp only
    rw [List.length_cons, Nat.mul_succ, Nat.add_comm _ 32, pow_add, magnitude_cons,
      magnitude_cons, Nat.mul_assoc]
    omega

theorem nextRemainder_spec (a : List UInt32) (bit : Nat) (remainder : List UInt32) :
    Trimmed (nextRemainder a bit remainder) ∧ magnitude (nextRemainder a bit remainder) =
      2 * magnitude remainder + ((magnitude a).testBit bit).toNat := by
  refine ⟨trimmed_trim _, ?_⟩
  obtain ⟨hlen, hle, hvalue⟩ := @shiftIn_spec remainder (limbBit a bit)
    (by rw [toNat_limbBit]; exact Bool.toNat_le _)
  rw [toNat_limbBit] at hvalue
  rw [nextRemainder, magnitude_trim, ← hvalue]
  split
  next => rw [magnitude_concat, hlen]
  next hzero =>
    have hzero : (shiftIn remainder (limbBit a bit)).2.toNat = 0 := by
      rw [UInt32.lt_iff_toNat_lt, UInt32.toNat_zero] at hzero
      omega
    rw [hzero, Nat.mul_zero, Nat.add_zero]

theorem toNat_oneShift (i : Nat) : ((1 : UInt32) <<< UInt32.ofNat (i % 32)).toNat = 2 ^ (i % 32) := by
  rw [UInt32.toNat_shiftLeft, toNat_ofNat_mod, Nat.shiftLeft_eq]
  refine (congrArg (· % 2 ^ 32) (Nat.one_mul _)).trans (Nat.mod_eq_of_lt ?_)
  exact Nat.pow_lt_pow_right (by decide) (Nat.mod_lt _ (by decide))

theorem magnitude_setBit (h : bit < limbs.length * 32) :
    magnitude (setBit limbs bit) = magnitude limbs ||| 2 ^ bit := by
  refine Nat.eq_of_testBit_eq fun i => ?_
  rw [Nat.testBit_or, testBit_magnitude, testBit_magnitude, Nat.testBit_two_pow, setBit,
    List.getD_eq_getElem?_getD, List.getD_eq_getElem?_getD, List.getElem?_modify]
  by_cases hslot : bit / 32 = i / 32
  · have hin : i / 32 < limbs.length := by omega
    have hbit : (bit = i) = (bit % 32 = i % 32) := by
      rw [eq_iff_iff]
      omega
    simp only [hslot, if_true, List.getElem?_eq_getElem hin, Option.map_eq_map, Option.map_some,
      Option.getD_some, UInt32.toNat_or, Nat.testBit_or, toNat_oneShift, Nat.testBit_two_pow, hbit]
  · have hne : bit ≠ i := fun h => hslot (by rw [h])
    simp only [hslot, if_false, decide_eq_false hne, Bool.or_false, id_map']

/-- The bit below those that are set adds a power of two. -/
theorem magnitude_setBit_of_dvd {q : Nat} (h : bit < limbs.length * 32)
    (hq : magnitude limbs = 2 ^ (bit + 1) * q) :
    magnitude (setBit limbs bit) = 2 ^ bit * (2 * q + 1) := by
  have hlt : 2 ^ bit < 2 ^ (bit + 1) := Nat.pow_lt_pow_right (by decide) (Nat.lt_succ_self _)
  rw [magnitude_setBit h, hq, ← Nat.two_pow_add_eq_or_of_lt hlt, pow_succ, Nat.mul_add,
    Nat.mul_one, Nat.mul_assoc]

/-! ## All bits -/

/-- The bits from `bit` on are divided. -/
structure Divided (a b : List UInt32) (bit : Nat) (quotient remainder : List UInt32) : Prop where
  length : quotient.length = a.length
  trimmed : Trimmed remainder
  lt : magnitude remainder < magnitude b
  value : ∃ q, magnitude quotient = 2 ^ bit * q ∧
    magnitude a / 2 ^ bit = q * magnitude b + magnitude remainder

theorem divLoop_spec {a b quotient remainder : List UInt32} (hb : Trimmed b)
    (hbit : bit ≤ a.length * 32) (h : Divided a b bit quotient remainder) :
    Divided a b 0 (divLoop a b bit quotient remainder).1 (divLoop a b bit quotient remainder).2 := by
  induction bit generalizing quotient remainder with
  | zero => exact h
  | succ bit ih =>
    obtain ⟨htrimmed, hnext⟩ := nextRemainder_spec a bit remainder
    obtain ⟨q, hq, hvalue⟩ := h.value
    have hlt := h.lt
    have hsplit := Nat.div_add_mod (magnitude a / 2 ^ bit) 2
    rw [← Nat.toNat_testBit, Nat.div_div_eq_div_mul, ← pow_succ, hvalue] at hsplit
    have hle := Bool.toNat_le ((magnitude a).testBit bit)
    rw [divLoop]
    split
    next hless =>
      rw [cmpMagnitude_lt htrimmed hb] at hless
      refine ih (Nat.le_of_succ_le hbit) ⟨h.length, htrimmed, hless, 2 * q, ?_, ?_⟩
      · rw [hq, pow_succ, Nat.mul_assoc]
      · rw [hnext, ← hsplit, Nat.mul_assoc]
        omega
    next hmore =>
      rw [cmpMagnitude_lt htrimmed hb] at hmore
      have hge := Nat.le_of_not_lt hmore
      have hlen := (length_le_iff hb _).2 (hge.trans_lt (magnitude_lt _))
      obtain ⟨-, hsub⟩ := subMagnitude_spec hlen hge
      refine ih (Nat.le_of_succ_le hbit) ⟨?_, trimmed_trim _, ?_, 2 * q + 1, ?_, ?_⟩
      · rw [setBit, List.length_modify, h.length]
      · rw [magnitude_trim, hsub, hnext]
        omega
      · exact magnitude_setBit_of_dvd (by rw [h.length]; exact hbit) hq
      · rw [magnitude_trim, hsub, ← hsplit, Nat.add_mul, Nat.mul_assoc]
        omega

theorem divmodMagnitude_spec {a b : List UInt32} (ha : Trimmed a) (hb : Trimmed b)
    (hne : magnitude b ≠ 0) :
    magnitude (divmodMagnitude a b).1 = magnitude a / magnitude b ∧
      magnitude (divmodMagnitude a b).2 = magnitude a % magnitude b := by
  rw [divmodMagnitude]
  split
  next hlt =>
    rw [cmpMagnitude_lt ha hb] at hlt
    rw [Nat.div_eq_of_lt hlt, Nat.mod_eq_of_lt hlt]
    exact ⟨rfl, rfl⟩
  next =>
    have hstart : Divided a b (a.length * 32) (List.replicate a.length 0) [] := by
      refine ⟨List.length_replicate .., fun h => absurd rfl h, Nat.pos_of_ne_zero hne, 0, ?_, ?_⟩
      · rw [magnitude_replicate, Nat.mul_zero]
      · rw [Nat.div_eq_of_lt (by rw [Nat.mul_comm]; exact magnitude_lt a), Nat.zero_mul]
        rfl
    obtain ⟨-, -, hlt, q, hq, hvalue⟩ := divLoop_spec hb (Nat.le_refl _) hstart
    rw [pow_zero, Nat.one_mul] at hq
    rw [pow_zero, Nat.div_one, Nat.mul_comm, ← hq] at hvalue
    rw [hvalue, Nat.mul_add_div (Nat.pos_of_ne_zero hne), Nat.mul_add_mod, Nat.div_eq_of_lt hlt,
      Nat.mod_eq_of_lt hlt, Nat.add_zero]
    exact ⟨rfl, rfl⟩

/-- The quotient is truncated, and the remainder has the sign of the dividend. -/
theorem division_exact (a b : BigInt) (ha : a.WellFormed) (hb : b.WellFormed) :
    (b.toInt ≠ 0 → ∃ q r, a.div b = .ok q ∧ a.rem b = .ok r ∧ q.WellFormed ∧ r.WellFormed ∧
      a.toInt = q.toInt * b.toInt + r.toInt ∧ r.toInt.natAbs < b.toInt.natAbs ∧
      (r.toInt = 0 ∨ (r.toInt < 0 ↔ a.toInt < 0)) ∧ q.toInt = a.toInt.tdiv b.toInt) ∧
      (b.toInt = 0 → a.div b = .error divisionByZero ∧ a.rem b = .error divisionByZero) := by
  have hisZero : b.isZero = true ↔ b.toInt = 0 := by
    rw [← hb.eq_zero_iff, isZero, List.isEmpty_iff]
  refine ⟨fun hne => ?_, fun hzero => ?_⟩
  · have hmagnitude : magnitude b.limbs ≠ 0 := by
      rw [← natAbs_toInt]
      exact fun h => hne (Int.natAbs_eq_zero.1 h)
    obtain ⟨hq, hr⟩ := divmodMagnitude_spec ha.trimmed hb.trimmed hmagnitude
    rw [div, rem, if_neg fun h => hne (hisZero.1 h), if_neg fun h => hne (hisZero.1 h)]
    refine ⟨_, _, rfl, rfl, wellFormed_normalized _ _, wellFormed_normalized _ _, ?_⟩
    have hquotient : (normalized (a.negative != b.negative)
        (divmodMagnitude a.limbs b.limbs).1).toInt = a.toInt.tdiv b.toInt := by
      rw [toInt_normalized, hq, toInt, toInt]
      cases a.negative <;> cases b.negative <;> simp
    have hremainder : (normalized a.negative (divmodMagnitude a.limbs b.limbs).2).toInt =
        a.toInt.tmod b.toInt := by
      rw [toInt_normalized, hr, toInt, toInt]
      cases a.negative <;> cases b.negative <;> simp [Int.tmod_eq_emod_of_nonneg]
    rw [hquotient, hremainder]
    refine ⟨(Int.tdiv_mul_add_tmod ..).symm, ?_, ?_, rfl⟩
    · rw [Int.natAbs_tmod]
      exact Nat.mod_lt _ (Int.natAbs_pos.2 hne)
    · have hneg := ha.negative_iff
      rw [← hremainder, toInt_normalized, ← hneg]
      cases a.negative with
      | true => simp; omega
      | false => simp
  · rw [div, rem, if_pos (hisZero.2 hzero), if_pos (hisZero.2 hzero)]
    exact ⟨rfl, rfl⟩

theorem division_exact_minus_seven :
    (∃ q r, (fromI64 (-7)).div (fromI64 2) = .ok q ∧ (fromI64 (-7)).rem (fromI64 2) = .ok r ∧
      q.toInt = -3 ∧ -7 = q.toInt * 2 + r.toInt) ∧
      (fromI64 (-7)).div zero = .error divisionByZero := by
  have hseven := @toInt_fromI64 (-7) (by decide)
  have htwo := @toInt_fromI64 2 (by decide)
  refine ⟨?_, ((division_exact (fromI64 (-7)) zero (wellFormed_fromI64 _)
    wellFormed_zero).2 rfl).1⟩
  obtain ⟨q, r, hq, hr, -, -, hvalue, -, -, htdiv⟩ := (division_exact (fromI64 (-7)) (fromI64 2)
    (wellFormed_fromI64 _) (wellFormed_fromI64 _)).1 (by rw [htwo]; decide)
  rw [hseven, htwo] at hvalue htdiv
  exact ⟨q, r, hq, hr, htdiv, hvalue⟩

end BigInt
end NapiVm
