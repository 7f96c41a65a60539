import NapiVm.BigInt.Bitwise
import NapiVm.BigInt.Shift
import NapiVm.Lib.Binary64
import NapiVm.Lib.Rounding

/-!
# Integers as binary64 numbers

One significand, rounded once.

* `toF64` — the last bit that is dropped, and whether any below it is set.
* `toF64_nearest` — to the nearest, ties to even.
-/

namespace NapiVm
namespace BigInt

/-- So many bits from `low` on, the last of them first. -/
def bitsFrom (limbs : List UInt32) : Nat → Nat → UInt64
  | _, 0 => 0
  | low, n + 1 => (bitsFrom limbs (low + 1) n <<< 1) ||| (limbBit limbs low).toUInt64

/-- A bit below `low` is set. -/
def stickyBelow (limbs : List UInt32) (low : Nat) : Bool :=
  (limbs.take (low / 32)).any (fun word : UInt32 => word ≠ 0) ||
    decide (limbs.getD (low / 32) 0 &&& (((1 : UInt32) <<< UInt32.ofNat (low % 32)) - 1) ≠ 0)

def roundedSignificand (limbs : List UInt32) (bits : Nat) : UInt64 :=
  let significand := bitsFrom limbs (bits - 53) 53
  if limbBit limbs (bits - 53 - 1) ≠ 0 ∧
      (stickyBelow limbs (bits - 53 - 1) = true ∨ significand &&& 1 ≠ 0) then significand + 1
  else significand

def signBit (negative : Bool) : UInt64 := if negative then (1 : UInt64) <<< 63 else 0

def infinity (negative : Bool) : UInt64 := signBit negative ||| ((0x7ff : UInt64) <<< 52)

/-- The pattern of a significand, with a carry out of it in the exponent. -/
def assemble (negative : Bool) (bits : Nat) (significand : UInt64) : UInt64 :=
  let carried := significand = (1 : UInt64) <<< 53
  let exponent := if carried then bits else bits - 1
  let significand := if carried then significand >>> 1 else significand
  if 1023 < exponent then infinity negative
  else signBit negative ||| (UInt64.ofNat (exponent + 1023) <<< 52) |||
    (significand &&& (((1 : UInt64) <<< 52) - 1))

def toF64 (x : BigInt) : UInt64 :=
  if x.bitLength = 0 then 0
  else if x.bitLength ≤ 53 then Binary64.ofNat x.negative
    ((x.limbs.getD 0 0).toNat + 2 ^ 32 * (x.limbs.getD 1 0).toNat)
  else if 1024 < x.bitLength then infinity x.negative
  else assemble x.negative x.bitLength (roundedSignificand x.limbs x.bitLength)

/-! ## The significand -/

variable {n k bits exponent : Nat}

theorem toNat_bitsFrom (limbs : List UInt32) (low : Nat) (hn : n ≤ 63) :
    (bitsFrom limbs low n).toNat = magnitude limbs / 2 ^ low % 2 ^ n := by
  induction n generalizing low with
  | zero =>
    rw [pow_zero, Nat.mod_one]
    rfl
  | succ n ih =>
    have hrest := ih (low + 1) (by omega)
    have hlt : (bitsFrom limbs (low + 1) n).toNat < 2 ^ 62 := by
      rw [hrest]
      exact (Nat.mod_lt _ (Nat.two_pow_pos n)).trans_le
        (Nat.pow_le_pow_right (by decide) (by omega))
    have hbit := Nat.toNat_testBit (magnitude limbs) low
    have hshift : (bitsFrom limbs (low + 1) n <<< 1).toNat =
        2 ^ 1 * (bitsFrom limbs (low + 1) n).toNat := by
      rw [UInt64.toNat_shiftLeft, Nat.shiftLeft_eq, Nat.mul_comm]
      exact Nat.mod_eq_of_lt (by change 2 ^ 1 * _ < 2 ^ 64; omega)
    rw [bitsFrom, UInt64.toNat_or, hshift, UInt32.toNat_toUInt64, toNat_limbBit,
      ← Nat.two_pow_add_eq_or_of_lt (by have := Bool.toNat_le ((magnitude limbs).testBit low); omega),
      hrest, hbit, pow_succ 2 low, ← Nat.div_div_eq_div_mul, pow_one, pow_succ 2 n, Nat.mul_comm _ 2,
      Nat.mod_mul, Nat.add_comm]

theorem magnitude_eq_zero_iff (limbs : List UInt32) :
    magnitude limbs = 0 ↔ ∀ word ∈ limbs, word = 0 := by
  induction limbs with
  | nil => exact iff_of_true rfl fun _ h => absurd h List.not_mem_nil
  | cons limb limbs ih =>
    rw [magnitude_cons, List.forall_mem_cons, ← ih, ← UInt32.toNat_inj, UInt32.toNat_zero]
    omega

theorem toNat_onesBelow (hk : k < 32) :
    (((1 : UInt32) <<< UInt32.ofNat k) - 1).toNat = 2 ^ k - 1 := by
  rcases Nat.eq_zero_or_pos k with rfl | hpos
  · rfl
  · exact @toNat_lowMask k 0 hpos (by omega)

theorem stickyBelow_iff (limbs : List UInt32) (low : Nat) :
    stickyBelow limbs low = true ↔ magnitude limbs % 2 ^ low ≠ 0 := by
  have hk := Nat.mod_lt low (by decide : 32 > 0)
  have hwords : (limbs.take (low / 32)).any (fun word : UInt32 => word ≠ 0) = true ↔
      magnitude limbs % 2 ^ (32 * (low / 32)) ≠ 0 := by
    rw [← magnitude_take, Ne, magnitude_eq_zero_iff, List.any_eq_true]
    simp only [decide_eq_true_eq, not_forall, exists_prop]
  have hlimb : (limbs.getD (low / 32) 0).toNat =
      magnitude limbs / 2 ^ (32 * (low / 32)) % 2 ^ 32 := by
    rw [← magnitude_drop, ← headD_add_tail (limbs.drop (low / 32)), Nat.add_mul_mod_self_left,
      Nat.mod_eq_of_lt (UInt32.toNat_lt _), List.headD_eq_head?_getD, List.head?_drop,
      List.getD_eq_getElem?_getD]
  have hdvd : 2 ^ (low % 32) ∣ 2 ^ 32 := Nat.pow_dvd_pow 2 (Nat.le_of_lt hk)
  have hmask : limbs.getD (low / 32) 0 &&& (((1 : UInt32) <<< UInt32.ofNat (low % 32)) - 1) ≠ 0 ↔
      magnitude limbs / 2 ^ (32 * (low / 32)) % 2 ^ (low % 32) ≠ 0 := by
    rw [Ne, ← UInt32.toNat_inj, UInt32.toNat_and, toNat_onesBelow hk,
      Nat.and_two_pow_sub_one_eq_mod, hlimb, Nat.mod_mod_of_dvd _ hdvd]
    rfl
  have hpow := pow_bits low
  have hsplit := Nat.mod_mul (x := magnitude limbs) (a := 2 ^ (32 * (low / 32)))
    (b := 2 ^ (low % 32))
  rw [hpow] at hsplit
  rw [stickyBelow, Bool.or_eq_true, hwords, decide_eq_true_iff, hmask, hsplit, Ne, Ne, Ne,
    Nat.add_eq_zero_iff, Nat.mul_eq_zero]
  have hpos := Nat.two_pow_pos (32 * (low / 32))
  omega

theorem roundedSignificand_spec {limbs : List UInt32} (hbits : 54 ≤ bits)
    (hlow : 2 ^ (bits - 1) ≤ magnitude limbs) (hhigh : magnitude limbs < 2 ^ bits) :
    (roundedSignificand limbs bits).toNat * 2 ^ (bits - 53) = Rounding.round 53 (magnitude limbs) ∧
      2 ^ 52 ≤ (roundedSignificand limbs bits).toNat ∧
      (roundedSignificand limbs bits).toNat ≤ 2 ^ 53 := by
  have hfloor : 2 ^ (53 - 1) * 2 ^ (bits - 53) ≤ magnitude limbs := by
    rwa [← pow_add, show 53 - 1 + (bits - 53) = bits - 1 by omega]
  have hceil : magnitude limbs < 2 ^ 53 * 2 ^ (bits - 53) := by
    rwa [← pow_add, show 53 + (bits - 53) = bits by omega]
  have hulp := Rounding.ulp_eq (by decide) hfloor hceil
  have hlt := (Nat.div_lt_iff_lt_mul (Nat.two_pow_pos (bits - 53))).2 hceil
  have hge := (Nat.le_div_iff_mul_le (Nat.two_pow_pos (bits - 53))).2 hfloor
  have hvalue := toNat_bitsFrom limbs (n := 53) (bits - 53) (by decide)
  rw [Nat.mod_eq_of_lt hlt] at hvalue
  have hguard : limbBit limbs (bits - 53 - 1) ≠ 0 ↔
      magnitude limbs / 2 ^ (bits - 53 - 1) % 2 ≠ 0 := by
    rw [Ne, ← UInt32.toNat_inj, toNat_limbBit, Nat.toNat_testBit]
    rfl
  have hodd : bitsFrom limbs (bits - 53) 53 &&& 1 ≠ 0 ↔
      magnitude limbs / 2 ^ (bits - 53) % 2 ≠ 0 := by
    rw [Ne, ← UInt64.toNat_inj, UInt64.toNat_and, hvalue]
    exact not_congr (Eq.congr_left (Nat.and_one_is_mod _))
  have hsticky := stickyBelow_iff limbs (bits - 53 - 1)
  have hunit : 2 ^ (bits - 53) = 2 ^ (bits - 53 - 1) * 2 := by
    rw [← pow_succ, Nat.sub_add_cancel (by omega)]
  have hmod := Nat.mod_mul (x := magnitude limbs) (a := 2 ^ (bits - 53 - 1)) (b := 2)
  rw [← hunit] at hmod
  have hrest := Nat.mod_lt (magnitude limbs) (Nat.two_pow_pos (bits - 53 - 1))
  have hbit := Nat.mod_two_eq_zero_or_one (magnitude limbs / 2 ^ (bits - 53 - 1))
  have hup : (limbBit limbs (bits - 53 - 1) ≠ 0 ∧ (stickyBelow limbs (bits - 53 - 1) = true ∨
      bitsFrom limbs (bits - 53) 53 &&& 1 ≠ 0)) ↔
        2 ^ (bits - 53) < 2 * (magnitude limbs % 2 ^ (bits - 53)) ∨
          2 ^ (bits - 53) = 2 * (magnitude limbs % 2 ^ (bits - 53)) ∧
            magnitude limbs / 2 ^ (bits - 53) % 2 = 1 := by
    have hparity := Nat.mod_two_eq_zero_or_one (magnitude limbs / 2 ^ (bits - 53))
    rw [hguard, hsticky, hodd, hmod]
    generalize magnitude limbs / 2 ^ (bits - 53) % 2 = odd at hparity ⊢
    rcases hbit with hbit | hbit
    · rw [hbit]
      omega
    · rw [hbit]
      omega
  rw [Rounding.round, hulp]
  rw [roundedSignificand]
  split
  next h =>
    rw [if_pos (hup.1 h), UInt64.toNat_add, hvalue, UInt64.toNat_one, Nat.mod_eq_of_lt (by omega)]
    exact ⟨rfl, by omega, by omega⟩
  next h =>
    rw [if_neg fun h' => h (hup.2 h'), hvalue]
    exact ⟨rfl, hge, Nat.le_of_lt hlt⟩

/-! ## The pattern -/

theorem infinity_eq (negative : Bool) : infinity negative = Binary64.pack negative 2047 0 := by
  cases negative <;> rfl

theorem pack_fields (negative : Bool) (significand : UInt64) (hexponent : exponent < 2 ^ 11) :
    signBit negative ||| (UInt64.ofNat exponent <<< 52) |||
      (significand &&& (((1 : UInt64) <<< 52) - 1)) =
        Binary64.pack negative exponent (significand.toNat % 2 ^ 52) := by
  have hfraction := Nat.mod_lt significand.toNat (Nat.two_pow_pos 52)
  have hexp : (UInt64.ofNat exponent <<< 52).toNat = 2 ^ 52 * exponent := by
    rw [UInt64.toNat_shiftLeft, UInt64.toNat_ofNat', Nat.shiftLeft_eq, Nat.mul_comm]
    change 2 ^ 52 * (exponent % 2 ^ 64) % 2 ^ 64 = _
    omega
  have hmask : (significand &&& (((1 : UInt64) <<< 52) - 1)).toNat = significand.toNat % 2 ^ 52 := by
    rw [UInt64.toNat_and]
    exact Nat.and_two_pow_sub_one_eq_mod _ 52
  rw [← UInt64.toNat_inj, Binary64.toNat_pack hexponent hfraction, UInt64.toNat_or,
    UInt64.toNat_or, hexp, hmask, Nat.or_assoc, ← Nat.two_pow_add_eq_or_of_lt hfraction]
  cases negative with
  | true =>
    have hor := Nat.two_pow_add_eq_or_of_lt (i := 63)
      (b := 2 ^ 52 * exponent + significand.toNat % 2 ^ 52) (by omega) 1
    rw [if_pos rfl]
    change 2 ^ 63 * 1 ||| _ = _
    rw [← hor]
    omega
  | false =>
    rw [if_neg Bool.false_ne_true]
    change 0 ||| _ = _
    rw [Nat.zero_or]
    omega

theorem magnitude?_pack (negative : Bool) {fraction : Nat} (hlow : 1075 ≤ exponent)
    (hhigh : exponent < 2047) (hfraction : fraction < 2 ^ 52) :
    Binary64.magnitude? (Binary64.pack negative exponent fraction) =
      some ((2 ^ 52 + fraction) * 2 ^ (exponent - 1075)) := by
  have hexponent : exponent < 2 ^ 11 := by omega
  rw [Binary64.magnitude?, Binary64.exponent_pack hexponent hfraction,
    Binary64.fraction_pack hexponent hfraction, if_neg (by omega), if_neg (by omega), if_pos hlow]

theorem assemble_spec (negative : Bool) {significand : UInt64} (hlow : 54 ≤ bits)
    (hge : 2 ^ 52 ≤ significand.toNat) (hle : significand.toNat ≤ 2 ^ 53) :
    if 1024 < bits ∨ bits = 1024 ∧ significand.toNat = 2 ^ 53 then
      assemble negative bits significand = infinity negative
    else
      Binary64.magnitude? (assemble negative bits significand) =
        some (significand.toNat * 2 ^ (bits - 53)) ∧
      Binary64.sign (assemble negative bits significand) = negative := by
  have hcarried : significand = (1 : UInt64) <<< 53 ↔ significand.toNat = 2 ^ 53 := by
    rw [← UInt64.toNat_inj]
    rfl
  have hhalf : (significand >>> 1).toNat = significand.toNat / 2 := by
    rw [UInt64.toNat_shiftRight, Nat.shiftRight_eq_div_pow]
    rfl
  rw [assemble]
  by_cases hfull : significand.toNat = 2 ^ 53
  · rw [if_pos (hcarried.2 hfull), if_pos (hcarried.2 hfull)]
    split
    next hover => rw [if_pos (by omega)]
    next hfits =>
      rw [if_neg (by omega), pack_fields _ _ (by omega), hhalf, hfull]
      refine ⟨(magnitude?_pack _ (by omega) (by omega) (by decide)).trans ?_,
        Binary64.sign_pack (by omega) (by decide)⟩
      rw [show bits + 1023 - 1075 = bits - 53 + 1 by omega, pow_succ]
      congr 1
      change 2 ^ 52 * _ = _
      omega
  · have hnot := fun h => hfull (hcarried.1 h)
    rw [if_neg hnot, if_neg hnot]
    split
    next hover => rw [if_pos (by omega)]
    next hfits =>
      have hfraction := Nat.mod_lt significand.toNat (Nat.two_pow_pos 52)
      rw [if_neg (by omega), pack_fields _ _ (by omega)]
      refine ⟨(magnitude?_pack _ (by omega) (by omega) hfraction).trans ?_,
        Binary64.sign_pack (by omega) hfraction⟩
      rw [show bits - 1 + 1023 - 1075 = bits - 53 by omega,
        show 2 ^ 52 + significand.toNat % 2 ^ 52 = significand.toNat by omega]

/-! ## Rounding once -/

/-- Half a unit below the first power of two that is too large. -/
theorem overflow_iff {m : Nat} (hlow : 2 ^ 52 * 2 ^ (k + 1) ≤ m)
    (hhigh : m < 2 ^ 53 * 2 ^ (k + 1)) :
    Rounding.round 53 m = 2 ^ 53 * 2 ^ (k + 1) ↔ (2 ^ 54 - 1) * 2 ^ k ≤ m := by
  have hulp : Rounding.ulp 53 m = 2 ^ (k + 1) := Rounding.ulp_eq (by decide) hlow hhigh
  have hpos := Nat.two_pow_pos (k + 1)
  have hsplit := Nat.div_add_mod m (2 ^ (k + 1))
  have hrest := Nat.mod_lt m hpos
  have hlt := (Nat.div_lt_iff_lt_mul hpos).2 hhigh
  rw [Rounding.round, hulp]
  generalize m % 2 ^ (k + 1) = rest at *
  generalize m / 2 ^ (k + 1) = q at *
  have hunit : 2 ^ (k + 1) = 2 * 2 ^ k := pow_succ' 2 k
  by_cases hlast : q = 2 ^ 53 - 1
  · subst hlast
    split
    next hup => exact iff_of_true rfl (by omega)
    next hdown => exact iff_of_false (by omega) (by omega)
  · have hmul : (q + 2) * 2 ^ (k + 1) ≤ 2 ^ 53 * 2 ^ (k + 1) := Nat.mul_le_mul_right _ (by omega)
    rw [Nat.add_mul] at hmul
    rw [Nat.mul_comm] at hsplit
    split
    next hup =>
      rw [Nat.add_mul]
      exact iff_of_false (by omega) (by omega)
    next hdown => exact iff_of_false (by omega) (by omega)

theorem limit_eq (h : n = 54 + k) : 2 ^ n - 2 ^ k = (2 ^ 54 - 1) * 2 ^ k := by
  rw [h, pow_add, Nat.sub_mul, Nat.one_mul]

theorem toF64_finite {x : BigInt} (hx : x.WellFormed) (hlow : 54 ≤ x.bitLength)
    (hhigh : x.bitLength ≤ 54 + k) (hk : 54 + k = 1024) :
    ((2 ^ 54 - 1) * 2 ^ k ≤ x.toInt.natAbs → x.toF64 = infinity x.negative) ∧
    (x.toInt.natAbs < (2 ^ 54 - 1) * 2 ^ k →
      ∃ m, Binary64.magnitude? x.toF64 = some m ∧ Rounding.Nearest 53 x.toInt.natAbs m ∧
        Binary64.sign x.toF64 = x.negative) := by
  have hsize := bitLength_eq hx.trimmed
  have hge := Nat.lt_size.1 (show x.bitLength - 1 < (magnitude x.limbs).size by omega)
  have hlt := Nat.size_le.1 (show (magnitude x.limbs).size ≤ x.bitLength by omega)
  obtain ⟨hround, hlowest, hlargest⟩ := roundedSignificand_spec hlow hge hlt
  have hassemble := assemble_spec x.negative hlow hlowest hlargest
  rw [toF64, if_neg (by omega), if_neg (by omega), if_neg (by omega), natAbs_toInt]
  have hfull : (1024 < x.bitLength ∨ x.bitLength = 1024 ∧
      (roundedSignificand x.limbs x.bitLength).toNat = 2 ^ 53) ↔
        (2 ^ 54 - 1) * 2 ^ k ≤ magnitude x.limbs := by
    by_cases hlast : x.bitLength = 1024
    · have hunit : x.bitLength - 53 = k + 1 := by omega
      have hfloor : 2 ^ 52 * 2 ^ (k + 1) ≤ magnitude x.limbs := by
        rwa [← pow_add, show 52 + (k + 1) = x.bitLength - 1 by omega]
      have hceil : magnitude x.limbs < 2 ^ 53 * 2 ^ (k + 1) := by
        rwa [← pow_add, show 53 + (k + 1) = x.bitLength by omega]
      rw [← overflow_iff hfloor hceil, ← hround, hunit,
        Nat.mul_left_inj (Nat.two_pow_pos (k + 1)).ne']
      exact ⟨fun h => (h.resolve_left (by omega)).2, fun h => .inr ⟨hlast, h⟩⟩
    · have hsmall : 2 ^ x.bitLength ≤ 2 ^ (53 + k) :=
        Nat.pow_le_pow_right (by decide) (by omega)
      rw [pow_add] at hsmall
      exact iff_of_false (by omega) (by omega)
  rw [← Nat.not_le, ← hfull]
  refine ⟨fun h => by rwa [if_pos h] at hassemble, fun h => ?_⟩
  rw [if_neg h, hround] at hassemble
  exact ⟨_, hassemble.1, Rounding.nearest_round (by decide) _, hassemble.2⟩

/-- **One rounding.**  From 54 bits on the pattern denotes the number nearest to the integer, ties
to even; it is infinite from half a unit above the largest number on. -/
theorem toF64_nearest (x : BigInt) (hx : x.WellFormed) :
    (54 ≤ x.bitLength → x.bitLength ≤ 1024 →
      (2 ^ 1024 - 2 ^ 970 ≤ x.toInt.natAbs → x.toF64 = Binary64.pack x.negative 2047 0) ∧
      (x.toInt.natAbs < 2 ^ 1024 - 2 ^ 970 →
        ∃ m, Binary64.magnitude? x.toF64 = some m ∧ Rounding.Nearest 53 x.toInt.natAbs m ∧
          Binary64.sign x.toF64 = x.negative)) ∧
    (1024 < x.bitLength → x.toF64 = Binary64.pack x.negative 2047 0) := by
  rw [← infinity_eq]
  rw [limit_eq (n := 1024) (k := 970) rfl]
  refine ⟨fun hlow hhigh => toF64_finite hx hlow hhigh rfl, fun h => ?_⟩
  rw [toF64, if_neg (by omega), if_neg (by omega), if_pos h]

/-- Half a unit above an even significand, and a bit more. -/
theorem toF64_nearest_tie : ∃ m, Binary64.magnitude? (toF64 ⟨true, [3, 0x400000]⟩) = some m ∧
    Rounding.Nearest 53 (2 ^ 54 + 3) m := by
  have hwf : (⟨true, [3, 0x400000]⟩ : BigInt).WellFormed :=
    ⟨fun _ => by simp, fun h => by cases h⟩
  obtain ⟨m, hm, hnearest, -⟩ :=
    ((toF64_nearest ⟨true, [3, 0x400000]⟩ hwf).1 (by decide) (by decide)).2 (by
      rw [limit_eq (n := 1024) (k := 970) rfl]
      have hsmall : 2 ^ 54 + 3 < (2 ^ 54 - 1) * 2 ^ 1 := by decide
      exact hsmall.trans_le (Nat.mul_le_mul_left _ (Nat.pow_le_pow_right (by decide) (by decide))))
  exact ⟨m, hm, hnearest⟩

end BigInt
end NapiVm
