import Mathlib.Data.Int.Bitwise
import NapiVm.BigInt.Basic

/-!
# Bits of integers

Numbers in two's complement, in limbs enough for both operands.

* `signed` — the integer of so many bits, the last one for the sign.
* `bitwise_exact` — the bitwise operators and the wrapping to a width.
-/

namespace NapiVm
namespace BigInt

def resize (limbs : List UInt32) (width : Nat) : List UInt32 :=
  (limbs ++ List.replicate (width - limbs.length) 0).take width

/-- Stops where nothing is carried. -/
def carryOver : UInt64 → List UInt32 → List UInt32
  | _, [] => []
  | carry, limb :: limbs =>
    let sum := limb.toUInt64 + carry
    sum.toUInt32 :: if sum >>> 32 = 0 then limbs else carryOver (sum >>> 32) limbs

def complement (limbs : List UInt32) : List UInt32 := carryOver 1 (limbs.map (~~~ ·))

def twosComplement (x : BigInt) (width : Nat) : List UInt32 :=
  if x.negative then complement (resize x.limbs width) else resize x.limbs width

def fromTwosComplement (limbs : List UInt32) : BigInt :=
  if limbs.getLast?.any (fun limb : UInt32 => limb >>> 31 = 1) then normalized true (complement limbs)
  else normalized false limbs

/-- Limb by limb, in two's complement of a common width. -/
def bitwise (op : UInt32 → UInt32 → UInt32) (a b : BigInt) : BigResult BigInt :=
  let width := max a.limbs.length b.limbs.length + 1
  .ok (fromTwosComplement (List.zipWith op (a.twosComplement width) (b.twosComplement width)))

def bitand (a b : BigInt) : BigResult BigInt := bitwise (· &&& ·) a b

def bitor (a b : BigInt) : BigResult BigInt := bitwise (· ||| ·) a b

def bitxor (a b : BigInt) : BigResult BigInt := bitwise (· ^^^ ·) a b

def bitnot (x : BigInt) : BigResult BigInt := x.negate.sub (fromI64 1)

/-- The limbs with the place of their first bit. -/
def overLimbs (f : Nat → UInt32 → UInt32) : Nat → List UInt32 → List UInt32
  | _, [] => []
  | low, limb :: limbs => f low limb :: overLimbs f (low + 32) limbs

def lowMask (bits low : Nat) : UInt32 := ((1 : UInt32) <<< UInt32.ofNat (bits - low)) - 1

def maskLimb (bits low : Nat) (limb : UInt32) : UInt32 :=
  if bits ≤ low then 0 else if bits < low + 32 then limb &&& lowMask bits low else limb

def extendLimb (bits low : Nat) (limb : UInt32) : UInt32 :=
  if bits ≤ low then 0xffffffff
  else if bits < low + 32 then limb ||| ~~~ lowMask bits low else limb

/-- Limbs that are masked; extended if the last bit is the sign and is set. -/
def wrapped (bits : Nat) (isSigned : Bool) (limbs : List UInt32) : BigInt :=
  if isSigned ∧ limbBit limbs (bits - 1) = 1 then
    fromTwosComplement (overLimbs (extendLimb bits) 0 limbs)
  else normalized false limbs

def asNBit (x : BigInt) (bits : Nat) (isSigned : Bool) : BigResult BigInt :=
  if bits = 0 then .ok zero
  else if isSigned ∧ x.bitLength < bits ∨ ¬ isSigned ∧ ¬ x.negative ∧ x.bitLength ≤ bits then .ok x
  else if maxLimbs * 32 < bits then .error overflow
  else
    .ok (wrapped bits isSigned
      (overLimbs (maskLimb bits) 0 (x.twosComplement ((bits + 31) / 32 + 1))))

/-- The integer of so many bits of which the last one is the sign. -/
def signed (bits u : Nat) : Int := if u.testBit (bits - 1) then (u : Int) - 2 ^ bits else (u : Int)

/-! ## Signed numbers -/

theorem cast_two_pow (n : Nat) : (2 : Int) ^ n = ((2 ^ n : Nat) : Int) := by
  push_cast
  rfl

variable {bits u width i : Nat} {limbs : List UInt32} {x : BigInt}

theorem testBit_top (hbits : 0 < bits) (hu : u < 2 ^ bits) :
    u.testBit (bits - 1) = true ↔ 2 ^ (bits - 1) ≤ u := by
  have hpow : 2 ^ bits = 2 * 2 ^ (bits - 1) := by rw [← pow_succ', Nat.sub_add_cancel hbits]
  have hlt : u / 2 ^ (bits - 1) < 2 := by
    rw [Nat.div_lt_iff_lt_mul (Nat.two_pow_pos _), ← hpow]
    exact hu
  have hone : 1 ≤ u / 2 ^ (bits - 1) ↔ 2 ^ (bits - 1) ≤ u := by
    rw [Nat.le_div_iff_mul_le (Nat.two_pow_pos _), Nat.one_mul]
  rw [Nat.testBit_eq_decide_div_mod_eq, decide_eq_true_iff, ← hone]
  generalize u / 2 ^ (bits - 1) = top at hlt
  omega

/-- Beyond its bits a signed number has its sign. -/
theorem testBit_signed (hbits : 0 < bits) (hu : u < 2 ^ bits) (i : Nat) :
    (signed bits u).testBit i = u.testBit (min i (bits - 1)) := by
  have htop := testBit_top hbits hu
  rw [signed]
  split
  next hneg =>
    have hsucc : (u : Int) - 2 ^ bits = Int.negSucc (2 ^ bits - (u + 1)) := by
      rw [cast_two_pow]
      omega
    rw [hsucc]
    change (!(2 ^ bits - (u + 1)).testBit i) = _
    rw [Nat.testBit_two_pow_sub_succ hu]
    by_cases hi : i < bits
    · rw [min_eq_left (by omega), decide_eq_true hi, Bool.true_and, Bool.not_not]
    · rw [min_eq_right (by omega), decide_eq_false hi, Bool.false_and, hneg]
      rfl
  next hpos =>
    change u.testBit i = _
    by_cases hi : i < bits
    · rw [min_eq_left (by omega)]
    · have hlt : u < 2 ^ i := hu.trans_le (Nat.pow_le_pow_right (by decide) (by omega))
      rw [min_eq_right (by omega), Bool.eq_false_iff.2 hpos, Nat.testBit_lt_two_pow hlt]

theorem signed_bounds (hbits : 0 < bits) (hu : u < 2 ^ bits) :
    -(2 ^ (bits - 1) : Int) ≤ signed bits u ∧ signed bits u < 2 ^ (bits - 1) := by
  have htop := testBit_top hbits hu
  have hpow : 2 ^ bits = 2 * 2 ^ (bits - 1) := by rw [← pow_succ', Nat.sub_add_cancel hbits]
  rw [signed, cast_two_pow, cast_two_pow]
  split
  next hneg =>
    rw [htop] at hneg
    omega
  next hpos =>
    rw [htop] at hpos
    omega

/-- In its range a number is the one that its bits stand for. -/
theorem signed_emod {z : Int} (hbits : 0 < bits) (hlow : -(2 ^ (bits - 1) : Int) ≤ z)
    (hhigh : z < 2 ^ (bits - 1)) : signed bits (z % 2 ^ bits).toNat = z := by
  have hpow : 2 ^ bits = 2 * 2 ^ (bits - 1) := by rw [← pow_succ', Nat.sub_add_cancel hbits]
  rw [cast_two_pow] at hlow hhigh ⊢
  have hpos := Nat.two_pow_pos (bits - 1)
  have hlt : (z % (2 ^ bits : Nat)).toNat < 2 ^ bits := by
    have hmod := Int.emod_lt_of_pos z (b := ((2 ^ bits : Nat) : Int)) (by omega)
    have hge := Int.emod_nonneg z (b := ((2 ^ bits : Nat) : Int)) (by omega)
    omega
  have htop := testBit_top hbits hlt
  rw [signed, cast_two_pow]
  by_cases hneg : z < 0
  · have hmod : z % (2 ^ bits : Nat) = z + (2 ^ bits : Nat) := by
      rw [← Int.add_emod_right]
      exact Int.emod_eq_of_lt (by omega) (by omega)
    rw [hmod] at htop ⊢
    rw [if_pos (htop.2 (by omega))]
    omega
  · have hmod : z % (2 ^ bits : Nat) = z := Int.emod_eq_of_lt (by omega) (by omega)
    rw [hmod] at htop ⊢
    rw [if_neg fun h => by have := htop.1 h; omega]
    omega

/-! ## Two's complement -/

theorem length_resize (limbs : List UInt32) (width : Nat) : (resize limbs width).length = width := by
  rw [resize, List.length_take, List.length_append, List.length_replicate]
  omega

theorem magnitude_take (limbs : List UInt32) (n : Nat) :
    magnitude (limbs.take n) = magnitude limbs % 2 ^ (32 * n) := by
  have hsplit := magnitude_append (limbs.take n) (limbs.drop n)
  have hlt := magnitude_lt (limbs.take n)
  rw [List.take_append_drop] at hsplit
  rw [hsplit]
  rw [List.length_take] at hlt ⊢
  by_cases hn : n ≤ limbs.length
  · rw [min_eq_left hn] at hlt ⊢
    rw [Nat.add_mul_mod_self_left, Nat.mod_eq_of_lt hlt]
  · rw [List.drop_eq_nil_of_le (by omega), magnitude_nil, Nat.mul_zero, Nat.add_zero]
    exact (Nat.mod_eq_of_lt (hlt.trans_le (Nat.pow_le_pow_right (by decide) (by omega)))).symm

theorem magnitude_resize (limbs : List UInt32) (width : Nat) :
    magnitude (resize limbs width) = magnitude limbs % 2 ^ (32 * width) := by
  rw [resize, magnitude_take, magnitude_append, magnitude_replicate, Nat.mul_zero, Nat.add_zero]

theorem carryOver_spec {carry : UInt64} (hcarry : carry.toNat ≤ 1) :
    (carryOver carry limbs).length = limbs.length ∧
      magnitude (carryOver carry limbs) =
        (magnitude limbs + carry.toNat) % 2 ^ (32 * limbs.length) := by
  induction limbs generalizing carry with
  | nil =>
    refine ⟨rfl, ?_⟩
    rw [List.length_nil, Nat.mul_zero, pow_zero, Nat.mod_one]
    rfl
  | cons limb limbs ih =>
    have hlimb := limb.toNat_lt
    have hlt := magnitude_lt limbs
    have hsum : (limb.toUInt64 + carry).toNat = limb.toNat + carry.toNat := by
      rw [UInt64.toNat_add, UInt32.toNat_toUInt64]
      omega
    have hsplit := toNat_split (limb.toUInt64 + carry)
    rw [hsum] at hsplit
    rw [carryOver]
    split
    next hzero =>
      rw [hzero, UInt64.toNat_zero, Nat.mul_zero, Nat.add_zero] at hsplit
      have hlow := (limb.toUInt64 + carry).toUInt32.toNat_lt
      refine ⟨rfl, ?_⟩
      rw [magnitude_cons, hsplit, magnitude_cons, List.length_cons, Nat.mul_succ,
        Nat.add_comm _ 32, pow_add, Nat.mod_eq_of_lt (by omega)]
      omega
    next =>
      obtain ⟨hlen, hvalue⟩ := @ih ((limb.toUInt64 + carry) >>> 32)
        (by rw [toNat_high, hsum]; omega)
      refine ⟨congrArg (· + 1) hlen, ?_⟩
      have hlow := (limb.toUInt64 + carry).toUInt32.toNat_lt
      rw [magnitude_cons, hvalue, magnitude_cons, List.length_cons, Nat.mul_succ,
        Nat.add_comm _ 32, pow_add, show limb.toNat + 2 ^ 32 * magnitude limbs + carry.toNat =
          (limb.toUInt64 + carry).toUInt32.toNat + 2 ^ 32 * (magnitude limbs +
            ((limb.toUInt64 + carry) >>> 32).toNat) by omega, Nat.mod_mul,
        Nat.add_mul_mod_self_left, Nat.mod_eq_of_lt hlow, Nat.add_mul_div_left _ _ (by decide),
        Nat.div_eq_of_lt hlow, Nat.zero_add]

theorem magnitude_map_not (limbs : List UInt32) :
    magnitude (limbs.map (~~~ ·)) = 2 ^ (32 * limbs.length) - 1 - magnitude limbs := by
  induction limbs with
  | nil => rfl
  | cons limb limbs ih =>
    have hlimb := limb.toNat_lt
    have hlt := magnitude_lt limbs
    have hnot : (~~~ limb).toNat = 2 ^ 32 - 1 - limb.toNat := UInt32.toNat_not limb
    rw [List.map_cons, magnitude_cons, ih, magnitude_cons, List.length_cons, Nat.mul_succ,
      Nat.add_comm _ 32, pow_add, hnot]
    omega

theorem length_complement (limbs : List UInt32) : (complement limbs).length = limbs.length := by
  rw [complement, (carryOver_spec (by decide)).1, List.length_map]

theorem magnitude_complement (limbs : List UInt32) : magnitude (complement limbs) =
    (2 ^ (32 * limbs.length) - magnitude limbs) % 2 ^ (32 * limbs.length) := by
  have hlt := magnitude_lt limbs
  rw [complement, (carryOver_spec (by decide)).2, magnitude_map_not, List.length_map,
    UInt64.toNat_one]
  congr 1
  omega

theorem length_twosComplement (x : BigInt) (width : Nat) :
    (x.twosComplement width).length = width := by
  rw [twosComplement]
  split
  · rw [length_complement, length_resize]
  · exact length_resize _ _

/-- The number modulo the width. -/
theorem magnitude_twosComplement (x : BigInt) (width : Nat) :
    magnitude (x.twosComplement width) = (x.toInt % 2 ^ (32 * width)).toNat := by
  have hlt := Nat.mod_lt (magnitude x.limbs) (Nat.two_pow_pos (32 * width))
  rw [twosComplement, toInt, cast_two_pow]
  split
  next =>
    rw [magnitude_complement, length_resize, magnitude_resize]
    have hneg : (-(magnitude x.limbs : Int)) % (2 ^ (32 * width) : Nat) =
        (((2 ^ (32 * width) - magnitude x.limbs % 2 ^ (32 * width)) % 2 ^ (32 * width) : Nat) :
          Int) := by
      rw [Int.natCast_emod, Int.natCast_sub (Nat.le_of_lt hlt), Int.natCast_emod,
        Int.sub_emod_emod, ← Int.add_neg_eq_sub, Int.add_emod_left]
    rw [hneg, Int.toNat_natCast]
  next => rw [magnitude_resize, ← Int.natCast_emod, Int.toNat_natCast]

theorem topBit_iff (hne : limbs ≠ []) :
    limbs.getLast?.any (fun limb : UInt32 => limb >>> 31 = 1) = true ↔
      (magnitude limbs).testBit (32 * limbs.length - 1) = true := by
  have hpos := List.length_pos_iff.2 hne
  have hslot : (32 * limbs.length - 1) / 32 = limbs.length - 1 := by omega
  have hbit : (32 * limbs.length - 1) % 32 = 31 := by omega
  have hlt := (limbs.getLast hne).toNat_lt
  rw [testBit_magnitude, hslot, hbit, List.getLast?_eq_getLast_of_ne_nil hne, Option.any_some,
    decide_eq_true_iff, List.getD_eq_getElem _ _ (by omega), ← List.getLast_eq_getElem hne,
    ← UInt32.toNat_inj, UInt32.toNat_shiftRight, Nat.shiftRight_eq_div_pow,
    Nat.testBit_eq_decide_div_mod_eq, decide_eq_true_iff]
  change _ / 2 ^ 31 = 1 ↔ _
  omega

theorem wellFormed_fromTwosComplement (limbs : List UInt32) :
    (fromTwosComplement limbs).WellFormed := by
  rw [fromTwosComplement]
  split <;> exact wellFormed_normalized _ _

theorem toInt_fromTwosComplement (hne : limbs ≠ []) :
    (fromTwosComplement limbs).toInt = signed (32 * limbs.length) (magnitude limbs) := by
  have hlt := magnitude_lt limbs
  have hpos := List.length_pos_iff.2 hne
  rw [fromTwosComplement, signed, cast_two_pow]
  by_cases htop : (magnitude limbs).testBit (32 * limbs.length - 1) = true
  · have hge := (testBit_top (by omega) hlt).1 htop
    have hhalf := Nat.two_pow_pos (32 * limbs.length - 1)
    rw [if_pos ((topBit_iff hne).2 htop), if_pos htop, toInt_normalized, if_pos rfl,
      magnitude_complement, Nat.mod_eq_of_lt (by omega)]
    omega
  · rw [if_neg fun h => htop ((topBit_iff hne).1 h), if_neg htop, toInt_normalized]
    rfl

/-! ## Operators -/

/-- Limbs enough for a number are enough for its sign. -/
theorem signed_twosComplement (h : x.limbs.length < width) :
    signed (32 * width) (magnitude (x.twosComplement width)) = x.toInt := by
  have hlt : magnitude x.limbs < 2 ^ (32 * width - 1) :=
    (magnitude_lt x.limbs).trans_le (Nat.pow_le_pow_right (by decide) (by omega))
  have habs := natAbs_toInt x
  rw [magnitude_twosComplement]
  refine signed_emod (by omega) ?_ ?_
  all_goals
    rw [cast_two_pow]
    omega

variable {op : UInt32 → UInt32 → UInt32} {f : Bool → Bool → Bool} {j : Nat}

section

variable (hop : ∀ x y : UInt32, ∀ j < 32, (op x y).toNat.testBit j = f (x.toNat.testBit j)
  (y.toNat.testBit j))

include hop

theorem testBit_zipWith {a b : List UInt32} (hlen : a.length = b.length) (hi : i < 32 * a.length) :
    (magnitude (List.zipWith op a b)).testBit i =
      f ((magnitude a).testBit i) ((magnitude b).testBit i) := by
  rw [testBit_magnitude, testBit_magnitude, testBit_magnitude,
    List.getD_eq_getElem _ _ (by rw [List.length_zipWith]; omega),
    List.getD_eq_getElem _ _ (by omega), List.getD_eq_getElem _ _ (by omega),
    List.getElem_zipWith, hop _ _ _ (Nat.mod_lt _ (by decide))]

theorem bitwise_spec (a b : BigInt) : ∃ r, bitwise op a b = .ok r ∧ r.WellFormed ∧
      ∀ i, r.toInt.testBit i = f (a.toInt.testBit i) (b.toInt.testBit i) := by
  refine ⟨_, rfl, wellFormed_fromTwosComplement _, fun i => ?_⟩
  have hwa : a.limbs.length < max a.limbs.length b.limbs.length + 1 := by omega
  have hwb : b.limbs.length < max a.limbs.length b.limbs.length + 1 := by omega
  generalize max a.limbs.length b.limbs.length + 1 = width at hwa hwb ⊢
  have hla := length_twosComplement a width
  have hlb := length_twosComplement b width
  have hma := magnitude_lt (a.twosComplement width)
  have hmb := magnitude_lt (b.twosComplement width)
  have hlen : (List.zipWith op (a.twosComplement width) (b.twosComplement width)).length =
      width := by
    rw [List.length_zipWith, hla, hlb, min_self]
  have hlt := magnitude_lt (List.zipWith op (a.twosComplement width) (b.twosComplement width))
  have hne : List.zipWith op (a.twosComplement width) (b.twosComplement width) ≠ [] := by
    rw [← List.length_pos_iff, hlen]
    omega
  rw [hla] at hma
  rw [hlb] at hmb
  rw [hlen] at hlt
  rw [← signed_twosComplement hwa, ← signed_twosComplement hwb, toInt_fromTwosComplement hne, hlen,
    testBit_signed (by omega) hlt, testBit_signed (by omega) hma, testBit_signed (by omega) hmb,
    testBit_zipWith hop (hla.trans hlb.symm) (by rw [hla]; omega)]

end

theorem bitnot_spec :
    (∃ r, x.bitnot = .ok r ∧ r.WellFormed ∧ r.toInt = -x.toInt - 1) ∨
      x.bitnot = .error overflow ∧ 2 ^ (32 * maxLimbs) ≤ (-x.toInt - 1).natAbs := by
  have hsub := sub_spec (b := fromI64 1) (wellFormed_negate x)
  rw [toInt_negate, toInt_fromI64 (by decide)] at hsub
  exact hsub

/-! ## Wrapping -/

theorem getD_overLimbs (f : Nat → UInt32 → UInt32) (low : Nat) (limbs : List UInt32)
    (hi : i < limbs.length) :
    (overLimbs f low limbs).getD i 0 = f (low + 32 * i) (limbs.getD i 0) := by
  induction limbs generalizing low i with
  | nil => cases hi
  | cons limb limbs ih =>
    rw [overLimbs]
    cases i with
    | zero => rw [List.getD_cons_zero, List.getD_cons_zero, Nat.mul_zero, Nat.add_zero]
    | succ i =>
      rw [List.getD_cons_succ, List.getD_cons_succ, ih _ (Nat.lt_of_succ_lt_succ hi),
        show low + 32 + 32 * i = low + 32 * (i + 1) by omega]

theorem length_overLimbs (f : Nat → UInt32 → UInt32) (low : Nat) (limbs : List UInt32) :
    (overLimbs f low limbs).length = limbs.length := by
  induction limbs generalizing low with
  | nil => rfl
  | cons limb limbs ih => exact congrArg (· + 1) (ih _)

theorem testBit_overLimbs (f : Nat → UInt32 → UInt32) (hi : i < 32 * limbs.length) :
    (magnitude (overLimbs f 0 limbs)).testBit i =
      (f (32 * (i / 32)) (limbs.getD (i / 32) 0)).toNat.testBit (i % 32) := by
  rw [testBit_magnitude, getD_overLimbs f 0 limbs (by omega), Nat.zero_add]

theorem toNat_lowMask {low : Nat} (hlow : low < bits) (hhigh : bits < low + 32) :
    (lowMask bits low).toNat = 2 ^ (bits - low) - 1 := by
  have hmod : bits - low = (bits - low) % 32 := (Nat.mod_eq_of_lt (by omega)).symm
  have hshift : ((1 : UInt32) <<< UInt32.ofNat (bits - low)).toNat = 2 ^ (bits - low) := by
    rw [UInt32.toNat_shiftLeft, hmod, toNat_ofNat_mod, Nat.shiftLeft_eq]
    refine (congrArg (· % 2 ^ 32) (Nat.one_mul _)).trans (Nat.mod_eq_of_lt ?_)
    exact Nat.pow_lt_pow_right (by decide) (Nat.mod_lt _ (by decide))
  rw [lowMask, UInt32.toNat_sub_of_le _ _ (UInt32.le_iff_toNat_le.2 (by
    rw [hshift]
    exact Nat.two_pow_pos _)), hshift]
  rfl

/-- The bits of a limb below the width. -/
theorem testBit_maskLimb (bits low : Nat) (limb : UInt32) (hj : j < 32) :
    (maskLimb bits low limb).toNat.testBit j =
      (decide (low + j < bits) && limb.toNat.testBit j) := by
  rw [maskLimb]
  split
  next h => rw [decide_eq_false (by omega), Bool.false_and, UInt32.toNat_zero, Nat.zero_testBit]
  next hlow =>
    split
    next hhigh =>
      rw [UInt32.toNat_and, Nat.testBit_and, toNat_lowMask (Nat.lt_of_not_le hlow) hhigh,
        Nat.testBit_two_pow_sub_one, Bool.and_comm]
      congr 1
      rw [decide_eq_decide]
      omega
    next => rw [decide_eq_true (by omega), Bool.true_and]

theorem testBit_extendLimb (bits low : Nat) (limb : UInt32) (hj : j < 32) :
    (extendLimb bits low limb).toNat.testBit j =
      (decide (bits ≤ low + j) || limb.toNat.testBit j) := by
  rw [extendLimb]
  split
  next h =>
    rw [decide_eq_true (by omega), Bool.true_or]
    exact (Nat.testBit_two_pow_sub_one 32 j).trans (decide_eq_true hj)
  next hlow =>
    split
    next hhigh =>
      have hnot : (~~~ lowMask bits low).toNat = 2 ^ 32 - (lowMask bits low).toNat.succ := by
        rw [UInt32.toNat_not, Nat.sub_sub, Nat.add_comm]
        rfl
      rw [UInt32.toNat_or, Nat.testBit_or, hnot,
        Nat.testBit_two_pow_sub_succ (lowMask bits low).toNat_lt,
        toNat_lowMask (Nat.lt_of_not_le hlow) hhigh, Nat.testBit_two_pow_sub_one,
        decide_eq_true hj, Bool.true_and, Bool.or_comm, ← decide_not]
      congr 1
      rw [decide_eq_decide]
      omega
    next => rw [decide_eq_false (by omega), Bool.false_or]

theorem magnitude_masked (hbits : bits ≤ 32 * limbs.length) :
    magnitude (overLimbs (maskLimb bits) 0 limbs) = magnitude limbs % 2 ^ bits := by
  refine Nat.eq_of_testBit_eq fun i => ?_
  rw [Nat.testBit_mod_two_pow]
  by_cases hi : i < 32 * limbs.length
  · rw [testBit_overLimbs _ hi, testBit_maskLimb _ _ _ (Nat.mod_lt _ (by decide)),
      Nat.div_add_mod, testBit_magnitude limbs]
  · have hlt := magnitude_lt (overLimbs (maskLimb bits) 0 limbs)
    rw [length_overLimbs] at hlt
    rw [decide_eq_false (by omega), Bool.false_and]
    exact Nat.testBit_lt_two_pow (hlt.trans_le (Nat.pow_le_pow_right (by decide) (by omega)))

/-- All bits from the width on are set. -/
theorem magnitude_extended (hbits : bits ≤ 32 * limbs.length) (h : magnitude limbs < 2 ^ bits) :
    magnitude (overLimbs (extendLimb bits) 0 limbs) + 2 ^ bits =
      magnitude limbs + 2 ^ (32 * limbs.length) := by
  have hpow : 2 ^ (32 * limbs.length) = 2 ^ bits * 2 ^ (32 * limbs.length - bits) := by
    rw [← pow_add, Nat.add_sub_cancel' hbits]
  have hpos := Nat.two_pow_pos (32 * limbs.length - bits)
  have hvalue : magnitude (overLimbs (extendLimb bits) 0 limbs) =
      2 ^ bits * (2 ^ (32 * limbs.length - bits) - 1) + magnitude limbs := by
    refine Nat.eq_of_testBit_eq fun i => ?_
    rw [Nat.testBit_two_pow_mul_add _ h, Nat.testBit_two_pow_sub_one]
    by_cases hi : i < 32 * limbs.length
    · rw [testBit_overLimbs _ hi, testBit_extendLimb _ _ _ (Nat.mod_lt _ (by decide)),
        Nat.div_add_mod, ← testBit_magnitude limbs]
      split
      next hlow => rw [decide_eq_false (by omega), Bool.false_or]
      next hhigh => rw [decide_eq_true (by omega), Bool.true_or, decide_eq_true (by omega)]
    · have hlt := magnitude_lt (overLimbs (extendLimb bits) 0 limbs)
      rw [length_overLimbs] at hlt
      rw [if_neg (by omega), decide_eq_false (by omega)]
      exact Nat.testBit_lt_two_pow (hlt.trans_le (Nat.pow_le_pow_right (by decide) (by omega)))
  rw [hvalue, hpow, Nat.mul_sub, Nat.mul_one]
  have hle : 2 ^ bits ≤ 2 ^ bits * 2 ^ (32 * limbs.length - bits) :=
    Nat.le_mul_of_pos_right _ hpos
  omega

/-- Congruent, and in the range of so many bits with a sign. -/
def SignedResidue (bits : Nat) (a z : Int) : Prop :=
  -(2 ^ (bits - 1) : Int) ≤ z ∧ z < 2 ^ (bits - 1) ∧ (2 : Int) ^ bits ∣ z - a

theorem toNat_emod_lt (bits : Nat) (a : Int) : (a % 2 ^ bits).toNat < 2 ^ bits := by
  rw [cast_two_pow]
  have hpos := Nat.two_pow_pos bits
  have hlt := Int.emod_lt_of_pos a (b := ((2 ^ bits : Nat) : Int)) (by omega)
  omega

theorem cast_emod (bits : Nat) (a : Int) : ((a % 2 ^ bits).toNat : Int) = a % 2 ^ bits := by
  have hpos := Nat.two_pow_pos bits
  exact Int.toNat_of_nonneg (Int.emod_nonneg _ (by rw [cast_two_pow]; omega))

/-- There is one residue with a sign. -/
theorem signedResidue_iff (hbits : 0 < bits) (a z : Int) :
    SignedResidue bits a z ↔ z = signed bits (a % 2 ^ bits).toNat := by
  constructor
  · rintro ⟨hlow, hhigh, hdvd⟩
    rw [← Int.emod_emod_of_dvd a (Int.dvd_refl _), ← Int.emod_eq_emod_iff_emod_sub_eq_zero.2
      (Int.emod_eq_zero_of_dvd hdvd), Int.emod_emod_of_dvd _ (Int.dvd_refl _),
      signed_emod hbits hlow hhigh]
  · rintro rfl
    obtain ⟨hlow, hhigh⟩ := signed_bounds hbits (toNat_emod_lt bits a)
    refine ⟨hlow, hhigh, ?_⟩
    have hself : (2 : Int) ^ bits ∣ a % 2 ^ bits - a := Int.dvd_emod_sub_self
    rw [signed, cast_emod]
    split
    · rw [sub_right_comm]
      exact Int.dvd_sub hself (Int.dvd_refl _)
    · exact hself

theorem magnitude_masked_twosComplement (x : BigInt) (h : bits ≤ 32 * width) :
    magnitude (overLimbs (maskLimb bits) 0 (x.twosComplement width)) =
      (x.toInt % 2 ^ bits).toNat := by
  rw [magnitude_masked (by rwa [length_twosComplement]), magnitude_twosComplement]
  have hdvd : (2 : Int) ^ bits ∣ 2 ^ (32 * width) := pow_dvd_pow 2 h
  have hcast : (((x.toInt % 2 ^ (32 * width)).toNat % 2 ^ bits : Nat) : Int) =
      x.toInt % 2 ^ bits := by
    rw [Int.natCast_emod, cast_emod, ← cast_two_pow, Int.emod_emod_of_dvd _ hdvd]
  rw [← hcast, Int.toNat_natCast]

theorem bitLength_le_iff (hx : x.WellFormed) (n : Nat) :
    x.bitLength ≤ n ↔ x.toInt.natAbs < 2 ^ n := by
  rw [bitLength_eq hx.trimmed, Nat.size_le, natAbs_toInt]

theorem wellFormed_wrapped (bits : Nat) (isSigned : Bool) (limbs : List UInt32) :
    (wrapped bits isSigned limbs).WellFormed := by
  rw [wrapped]
  split
  · exact wellFormed_fromTwosComplement _
  · exact wellFormed_normalized _ _

/-- The limbs that are masked, and with a sign extended, denote the residue. -/
theorem toInt_wrapped {a : Int} (isSigned : Bool) (hwidth : bits < 32 * width)
    (hlen : limbs.length = width) (hmasked : magnitude limbs = (a % 2 ^ bits).toNat) :
    (wrapped bits isSigned limbs).toInt =
      if isSigned then signed bits (a % 2 ^ bits).toNat else a % 2 ^ bits := by
  have hlt := toNat_emod_lt bits a
  have hcast := cast_emod bits a
  have hbit := limbBit_eq_one limbs (bits - 1)
  rw [hmasked] at hbit
  rw [wrapped]
  revert hlt hcast hbit hmasked
  generalize (a % 2 ^ bits).toNat = u
  intro hmasked hlt hcast hbit
  split
  next htop =>
    have hextended := @magnitude_extended bits limbs
      (by rw [hlen]; exact Nat.le_of_lt hwidth) (by rwa [hmasked])
    have hsize := length_overLimbs (extendLimb bits) 0 limbs
    have hne : overLimbs (extendLimb bits) 0 limbs ≠ [] := by
      rw [← List.length_pos_iff, hsize, hlen]
      omega
    have hall := magnitude_lt (overLimbs (extendLimb bits) 0 limbs)
    rw [hmasked, hlen] at hextended
    rw [hsize, hlen] at hall
    have hhalf : 2 * 2 ^ bits ≤ 2 ^ (32 * width) := by
      rw [← pow_succ']
      exact Nat.pow_le_pow_right (by decide) hwidth
    have hpow : 2 ^ (32 * width) = 2 * 2 ^ (32 * width - 1) := by
      rw [← pow_succ', Nat.sub_add_cancel (by omega)]
    have hsign := (testBit_top (by omega) hall).2 (by omega)
    rw [toInt_fromTwosComplement hne, hsize, hlen, signed, if_pos hsign, if_pos htop.1, signed,
      if_pos (hbit.1 htop.2), cast_two_pow, cast_two_pow]
    omega
  next hnot =>
    rw [toInt_normalized, if_neg Bool.false_ne_true, hmasked]
    split
    next hsigned => rw [signed, if_neg fun h => hnot ⟨hsigned, hbit.2 h⟩]
    next => exact hcast

/-- What is kept is the residue, in the range that the sign asks for. -/
theorem asNBit_spec {r : BigInt} {isSigned : Bool} (hx : x.WellFormed)
    (h : x.asNBit bits isSigned = .ok r) : r.WellFormed ∧ (bits = 0 → r.toInt = 0) ∧
      (0 < bits → r.toInt =
        if isSigned then signed bits (x.toInt % 2 ^ bits).toNat else x.toInt % 2 ^ bits) ∧
      (x.limbs.length ≤ maxLimbs → r.limbs.length ≤ maxLimbs) := by
  rw [asNBit] at h
  split at h
  next hzero =>
    cases h
    exact ⟨wellFormed_zero, fun _ => rfl, fun hpos => absurd hzero hpos.ne', fun _ => by decide⟩
  next hne =>
    have hbits := Nat.pos_of_ne_zero hne
    have hpow : 2 ^ bits = 2 * 2 ^ (bits - 1) := by rw [← pow_succ', Nat.sub_add_cancel hbits]
    split at h
    next hfast =>
      cases h
      refine ⟨hx, fun hzero => absurd hzero hne, fun _ => ?_, id⟩
      rcases hfast with ⟨hsigned, hlt⟩ | ⟨hunsigned, hpositive, hle⟩
      · have hfits := (bitLength_le_iff hx (bits - 1)).1 (by omega)
        rw [if_pos hsigned, signed_emod hbits]
        all_goals
          rw [cast_two_pow]
          omega
      · have hfits := (bitLength_le_iff hx bits).1 hle
        have hnot : ¬ x.toInt < 0 := fun hneg => hpositive (hx.negative_iff.2 hneg)
        rw [if_neg hunsigned, Int.emod_eq_of_lt (by omega) (by rw [cast_two_pow]; omega)]
    next =>
      split at h
      next => cases h
      next hcap =>
        cases h
        have hwf := wellFormed_wrapped bits isSigned
          (overLimbs (maskLimb bits) 0 (x.twosComplement ((bits + 31) / 32 + 1)))
        have hwidth : bits < 32 * ((bits + 31) / 32 + 1) := by omega
        have hvalue := toInt_wrapped isSigned hwidth
          ((length_overLimbs ..).trans (length_twosComplement ..))
          (magnitude_masked_twosComplement x (Nat.le_of_lt hwidth))
        refine ⟨hwf, fun hzero => absurd hzero hne, fun _ => hvalue, fun _ => ?_⟩
        have hlimit : 2 ^ bits ≤ 2 ^ (32 * maxLimbs) :=
          Nat.pow_le_pow_right (by decide) (by omega)
        have hlt := toNat_emod_lt bits x.toInt
        have hcast := cast_emod bits x.toInt
        refine (hwf.length_le_iff _).2 (Nat.lt_of_lt_of_le ?_ hlimit)
        rw [hvalue]
        split
        · have hbounds := signed_bounds hbits hlt
          rw [cast_two_pow] at hbounds
          omega
        · omega

/-- The operators combine the bits of two's complement, and a width keeps the residue. -/
theorem bitwise_exact (a b : BigInt) (ha : a.WellFormed) :
    (∃ r, a.bitand b = .ok r ∧ r.WellFormed ∧
      ∀ i, r.toInt.testBit i = (a.toInt.testBit i && b.toInt.testBit i)) ∧
    (∃ r, a.bitor b = .ok r ∧ r.WellFormed ∧
      ∀ i, r.toInt.testBit i = (a.toInt.testBit i || b.toInt.testBit i)) ∧
    (∃ r, a.bitxor b = .ok r ∧ r.WellFormed ∧
      ∀ i, r.toInt.testBit i = (a.toInt.testBit i ^^ b.toInt.testBit i)) ∧
    (∀ r, a.bitnot = .ok r → r.WellFormed ∧ r.toInt = -a.toInt - 1) ∧
    (∀ n r, a.asNBit n false = .ok r → r.WellFormed ∧ r.toInt = a.toInt % 2 ^ n) ∧
    (∀ n r, a.asNBit n true = .ok r → r.WellFormed ∧ (n = 0 → r.toInt = 0) ∧
      (0 < n → ∀ z, SignedResidue n a.toInt z ↔ z = r.toInt)) := by
  refine ⟨bitwise_spec (fun x y j _ => ?_) a b, bitwise_spec (fun x y j _ => ?_) a b,
    bitwise_spec (fun x y j _ => ?_) a b, fun r h => ?_, fun n r h => ?_, fun n r h => ?_⟩
  · rw [UInt32.toNat_and, Nat.testBit_and]
  · rw [UInt32.toNat_or, Nat.testBit_or]
  · rw [UInt32.toNat_xor, Nat.testBit_xor]
  · simpa [h] using bitnot_spec (x := a)
  · obtain ⟨hwf, hzero, hpos, -⟩ := asNBit_spec ha h
    refine ⟨hwf, ?_⟩
    rcases Nat.eq_zero_or_pos n with rfl | hn
    · rw [hzero rfl, pow_zero, Int.emod_one]
    · exact (hpos hn).trans (if_neg Bool.false_ne_true)
  · obtain ⟨hwf, hzero, hpos, -⟩ := asNBit_spec ha h
    refine ⟨hwf, hzero, fun hn z => ?_⟩
    rw [signedResidue_iff hn, hpos hn, if_pos rfl]

theorem bitwise_exact_byte : ((fromI64 255).asNBit 8 true = .ok (fromI64 (-1))) ∧
    ∀ z, SignedResidue 8 255 z ↔ z = -1 := by
  have h : (fromI64 255).asNBit 8 true = .ok (fromI64 (-1)) := by decide
  have hresidue := ((bitwise_exact (fromI64 255) zero (wellFormed_fromI64 _)).2.2.2.2.2 8 _ h).2.2
    (by decide)
  rw [toInt_fromI64 (by decide), toInt_fromI64 (by decide)] at hresidue
  exact ⟨h, hresidue⟩

end BigInt
end NapiVm
