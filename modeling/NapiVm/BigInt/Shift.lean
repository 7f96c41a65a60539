import NapiVm.BigInt.Basic

/-!
# Shifts of integers

* `shlPositive`, `shrPositive` — whole limbs, then bits.
* `shift_iff` — when they scale and floor.
-/

namespace NapiVm
namespace BigInt

def smallShift (amount : BigInt) : BigResult Nat :=
  if 1 < amount.limbs.length then .error overflow
  else if maxLimbs * 32 < (amount.limbs.headD 0).toNat then .error overflow
  else .ok (amount.limbs.headD 0).toNat

/-- The bits that leave a limb at its top. -/
def highBits (offset : Nat) (limb : UInt32) : UInt32 :=
  if offset = 0 then 0 else limb >>> UInt32.ofNat (32 - offset)

def shlLimbs (offset : Nat) : List UInt32 → UInt32 → List UInt32 × UInt32
  | [], carry => ([], carry)
  | limb :: limbs, carry =>
    let rest := shlLimbs offset limbs (highBits offset limb)
    (((limb <<< UInt32.ofNat offset) ||| carry) :: rest.1, rest.2)

/-- The bits that the next limb lends. -/
def lentBits (offset : Nat) (next : UInt32) : UInt32 :=
  if offset = 0 then 0 else next <<< UInt32.ofNat (32 - offset)

def shrLimbs (offset : Nat) : List UInt32 → List UInt32
  | [] => []
  | limb :: limbs =>
    ((limb >>> UInt32.ofNat offset) ||| lentBits offset (limbs.headD 0)) :: shrLimbs offset limbs

def shlBits (bits : Nat) (limbs : List UInt32) : List UInt32 :=
  let shifted := shlLimbs (bits % 32) limbs 0
  let out := List.replicate (bits / 32) 0 ++ shifted.1
  if 0 < shifted.2 then out ++ [shifted.2] else out

def shlPositive (x amount : BigInt) : BigResult BigInt := do
  let bits ← smallShift amount
  let limbs := shlBits bits x.limbs
  if maxLimbs < limbs.length then .error overflow else .ok (normalized x.negative limbs)

/-- One lower if a bit of a negative number got lost. -/
def floored (x shifted restored : BigInt) : BigResult BigInt :=
  if restored = x then .ok shifted else shifted.sub (fromI64 1)

def shrPositive (x amount : BigInt) : BigResult BigInt := do
  let bits ← smallShift amount
  if x.limbs.length ≤ bits / 32 then
    return if x.negative then fromI64 (-1) else zero
  let shifted := normalized x.negative (shrLimbs (bits % 32) (x.limbs.drop (bits / 32)))
  if x.negative then shlPositive shifted amount >>= floored x shifted else return shifted

/-- A negated amount is not negative, so one of the two calls the other once at most. -/
def shl (x amount : BigInt) : BigResult BigInt :=
  if amount.negative then shrPositive x amount.negate else shlPositive x amount

def shr (x amount : BigInt) : BigResult BigInt :=
  if amount.negative then shlPositive x amount.negate else shrPositive x amount

/-! ## Limbs -/

theorem smallShift_eq {amount : BigInt} (h : Trimmed amount.limbs) :
    smallShift amount = if maxLimbs * 32 < magnitude amount.limbs then .error overflow
      else .ok (magnitude amount.limbs) := by
  have hlen := length_le_iff h 1
  rw [smallShift]
  split
  next hlong =>
    have hlarge : maxLimbs * 32 < magnitude amount.limbs := by
      unfold maxLimbs
      omega
    rw [if_pos hlarge]
  next hshort =>
    have hvalue : (amount.limbs.headD 0).toNat = magnitude amount.limbs := by
      have hsplit := headD_add_tail amount.limbs
      have htail : amount.limbs.tail = [] := by
        rw [← List.length_eq_zero_iff, List.length_tail]
        omega
      rwa [htail, magnitude_nil, Nat.mul_zero, Nat.add_zero] at hsplit
    rw [hvalue]

section Limbs

variable {k : Nat} (hk : k < 32)
include hk

theorem pow_split : 2 ^ k * 2 ^ (32 - k) = 2 ^ 32 := by
  rw [← pow_add, Nat.add_sub_cancel' (Nat.le_of_lt hk)]

theorem toNat_ofNat_lt : (UInt32.ofNat k).toNat % 32 = k := by
  rw [UInt32.toNat_ofNat']
  omega

theorem toNat_shl (limb : UInt32) :
    (limb <<< UInt32.ofNat k).toNat = 2 ^ k * (limb.toNat % 2 ^ (32 - k)) := by
  rw [UInt32.toNat_shiftLeft, toNat_ofNat_lt hk, Nat.shiftLeft_eq, Nat.mul_comm, ← pow_split hk,
    Nat.mul_mod_mul_left]

theorem toNat_shr (limb : UInt32) : (limb >>> UInt32.ofNat k).toNat = limb.toNat / 2 ^ k := by
  rw [UInt32.toNat_shiftRight, toNat_ofNat_lt hk, Nat.shiftRight_eq_div_pow]

theorem toNat_highBits (limb : UInt32) : (highBits k limb).toNat = limb.toNat / 2 ^ (32 - k) := by
  rw [highBits]
  split
  next hzero =>
    rw [hzero, Nat.sub_zero, Nat.div_eq_of_lt limb.toNat_lt]
    rfl
  next hne => rw [toNat_shr (by omega)]

theorem toNat_lentBits (limb : UInt32) :
    (lentBits k limb).toNat = 2 ^ (32 - k) * (limb.toNat % 2 ^ k) := by
  rw [lentBits]
  split
  next hzero =>
    rw [hzero, pow_zero, Nat.mod_one, Nat.mul_zero]
    rfl
  next hne => rw [toNat_shl (by omega), show 32 - (32 - k) = k by omega]

/-- The bits that leave a limb enter the next one. -/
theorem shlLimbs_spec {limbs : List UInt32} {carry : UInt32} (hcarry : carry.toNat < 2 ^ k) :
    (shlLimbs k limbs carry).1.length = limbs.length ∧
      magnitude (shlLimbs k limbs carry).1 +
        2 ^ (32 * limbs.length) * (shlLimbs k limbs carry).2.toNat =
          magnitude limbs * 2 ^ k + carry.toNat := by
  induction limbs generalizing carry with
  | nil =>
    refine ⟨rfl, ?_⟩
    simp [shlLimbs]
  | cons limb limbs ih =>
    have hhigh : limb.toNat / 2 ^ (32 - k) < 2 ^ k := by
      rw [Nat.div_lt_iff_lt_mul (Nat.two_pow_pos _), pow_split hk]
      exact limb.toNat_lt
    obtain ⟨hlen, hvalue⟩ := @ih (highBits k limb) (by rwa [toNat_highBits hk])
    rw [toNat_highBits hk] at hvalue
    have hlow : ((limb <<< UInt32.ofNat k) ||| carry).toNat =
        2 ^ k * (limb.toNat % 2 ^ (32 - k)) + carry.toNat := by
      rw [UInt32.toNat_or, toNat_shl hk, Nat.two_pow_add_eq_or_of_lt hcarry]
    have hsplit := congrArg (2 ^ k * ·) (Nat.mod_add_div limb.toNat (2 ^ (32 - k)))
    rw [Nat.mul_add, ← Nat.mul_assoc, pow_split hk] at hsplit
    rw [shlLimbs]
    refine ⟨congrArg (· + 1) hlen, ?_⟩
    dsimp only
    rw [List.length_cons, Nat.mul_succ, Nat.add_comm _ 32, pow_add, magnitude_cons,
      magnitude_cons, hlow, Nat.mul_assoc, Nat.add_mul, Nat.mul_assoc, Nat.mul_comm limb.toNat]
    omega

theorem magnitude_shrLimbs (limbs : List UInt32) :
    magnitude (shrLimbs k limbs) = magnitude limbs / 2 ^ k := by
  induction limbs with
  | nil => rw [shrLimbs, magnitude_nil, Nat.zero_div]
  | cons limb limbs ih =>
    have hlow : limb.toNat / 2 ^ k < 2 ^ (32 - k) := by
      rw [Nat.div_lt_iff_lt_mul (Nat.two_pow_pos _), Nat.mul_comm, pow_split hk]
      exact limb.toNat_lt
    have hnext : (limbs.headD 0).toNat % 2 ^ k = magnitude limbs % 2 ^ k := by
      rw [← headD_add_tail limbs, ← pow_split hk, Nat.mul_assoc, Nat.add_mul_mod_self_left]
    have hsplit := congrArg (2 ^ (32 - k) * ·) (Nat.mod_add_div (magnitude limbs) (2 ^ k))
    rw [Nat.mul_add, ← Nat.mul_assoc, Nat.mul_comm (2 ^ (32 - k)) (2 ^ k), pow_split hk] at hsplit
    rw [shrLimbs, magnitude_cons, magnitude_cons, ih, UInt32.toNat_or, toNat_shr hk,
      toNat_lentBits hk, hnext, Nat.or_comm, ← Nat.two_pow_add_eq_or_of_lt hlow]
    have hdiv : (limb.toNat + 2 ^ 32 * magnitude limbs) / 2 ^ k =
        limb.toNat / 2 ^ k + 2 ^ (32 - k) * magnitude limbs := by
      rw [← pow_split hk, Nat.mul_assoc, Nat.add_mul_div_left _ _ (Nat.two_pow_pos k)]
    omega

end Limbs

theorem magnitude_drop (limbs : List UInt32) (n : Nat) :
    magnitude (limbs.drop n) = magnitude limbs / 2 ^ (32 * n) := by
  induction n generalizing limbs with
  | zero => rw [List.drop_zero, Nat.mul_zero, pow_zero, Nat.div_one]
  | succ n ih =>
    cases limbs with
    | nil => rw [List.drop_nil, magnitude_nil, Nat.zero_div]
    | cons limb limbs =>
      rw [List.drop_succ_cons, ih, magnitude_cons, Nat.mul_succ, Nat.add_comm _ 32, pow_add,
        ← Nat.div_div_eq_div_mul, Nat.add_mul_div_left _ _ (Nat.two_pow_pos 32),
        Nat.div_eq_of_lt limb.toNat_lt, Nat.zero_add]

theorem pow_bits (n : Nat) : 2 ^ (32 * (n / 32)) * 2 ^ (n % 32) = 2 ^ n := by
  rw [← pow_add, Nat.div_add_mod]

/-! ## To the left -/

/-- No limb too many: before the number is normalized its last limb is not zero. -/
theorem shlBits_spec {limbs : List UInt32} (h : Trimmed limbs) (n : Nat) :
    magnitude (shlBits n limbs) = magnitude limbs * 2 ^ n ∧
      (limbs = [] → (shlBits n limbs).length = n / 32) ∧
      (limbs ≠ [] → 2 ^ (32 * ((shlBits n limbs).length - 1)) ≤ magnitude (shlBits n limbs)) := by
  obtain ⟨hlen, hvalue⟩ := @shlLimbs_spec _ (Nat.mod_lt n (by decide)) limbs 0 (Nat.two_pow_pos _)
  rw [UInt32.toNat_zero, Nat.add_zero] at hvalue
  have hout : magnitude (List.replicate (n / 32) 0 ++ (shlLimbs (n % 32) limbs 0).1) +
      2 ^ (32 * (n / 32 + limbs.length)) * (shlLimbs (n % 32) limbs 0).2.toNat =
        magnitude limbs * 2 ^ n := by
    rw [magnitude_append, magnitude_replicate, List.length_replicate, Nat.zero_add, Nat.mul_add,
      pow_add, Nat.mul_assoc, ← Nat.mul_add, hvalue, Nat.mul_left_comm, pow_bits]
  rw [shlBits]
  split
  next hcarry =>
    rw [UInt32.lt_iff_toNat_lt, UInt32.toNat_zero] at hcarry
    have hmagnitude := magnitude_concat
      (List.replicate (n / 32) 0 ++ (shlLimbs (n % 32) limbs 0).1) (shlLimbs (n % 32) limbs 0).2
    rw [List.length_append, List.length_replicate, hlen, hout] at hmagnitude
    refine ⟨hmagnitude, fun hnil => ?_, fun _ => ?_⟩
    · rw [hnil] at hcarry
      exact absurd hcarry (Nat.lt_irrefl 0)
    · rw [hmagnitude, List.length_append, List.length_append, List.length_replicate, hlen,
        List.length_singleton, Nat.add_sub_cancel, ← hout]
      exact Nat.le_add_left_of_le (Nat.le_mul_of_pos_right _ hcarry)
  next hzero =>
    have hzero : (shlLimbs (n % 32) limbs 0).2.toNat = 0 := by
      rw [UInt32.lt_iff_toNat_lt, UInt32.toNat_zero] at hzero
      omega
    rw [hzero, Nat.mul_zero, Nat.add_zero] at hout
    rw [hout, List.length_append, List.length_replicate, hlen]
    refine ⟨rfl, fun hnil => by rw [hnil, List.length_nil, Nat.add_zero], fun hne => ?_⟩
    have hpos := List.length_pos_iff.2 hne
    rw [show 32 * (n / 32 + limbs.length - 1) = 32 * (limbs.length - 1) + 32 * (n / 32) by omega,
      pow_add]
    exact Nat.mul_le_mul (magnitude_ge h hne)
      (Nat.pow_le_pow_right (by decide) (Nat.mul_div_le n 32))

variable {x amount : BigInt}

theorem shlPositive_spec (hx : Trimmed x.limbs) (ha : Trimmed amount.limbs)
    (hsmall : magnitude amount.limbs ≤ maxLimbs * 32) :
    (∃ r, shlPositive x amount = .ok r ∧ r.WellFormed ∧
      r.toInt = x.toInt * 2 ^ magnitude amount.limbs ∧ r.limbs.length ≤ maxLimbs) ∧
        magnitude x.limbs * 2 ^ magnitude amount.limbs < 2 ^ (32 * maxLimbs) ∨
      shlPositive x amount = .error overflow ∧
        2 ^ (32 * maxLimbs) ≤ magnitude x.limbs * 2 ^ magnitude amount.limbs := by
  obtain ⟨hvalue, hnil, hge⟩ := shlBits_spec hx (magnitude amount.limbs)
  have hlt := magnitude_lt (shlBits (magnitude amount.limbs) x.limbs)
  rw [shlPositive, smallShift_eq ha, if_neg (Nat.not_lt.2 hsmall), ← hvalue]
  simp only [bind, Except.bind]
  split
  next hlong =>
    refine .inr ⟨rfl, (Nat.pow_le_pow_right (by decide) ?_).trans (hge fun h => ?_)⟩
    · omega
    · have hlen := hnil h
      omega
  next hfits =>
    refine .inl ⟨⟨_, rfl, wellFormed_normalized _ _, ?_, (length_normalized_le _ _).trans
      (Nat.le_of_not_lt hfits)⟩, hlt.trans_le (Nat.pow_le_pow_right (by decide) (by omega))⟩
    rw [toInt_normalized, hvalue, toInt]
    split
    · rw [Int.neg_mul]
      push_cast
      rfl
    · push_cast
      rfl

theorem shlPositive_large (ha : Trimmed amount.limbs) (h : maxLimbs * 32 < magnitude amount.limbs) :
    shlPositive x amount = .error overflow := by
  rw [shlPositive, smallShift_eq ha, if_pos h]
  rfl

/-! ## To the right -/

theorem shrPositive_large (ha : Trimmed amount.limbs) (h : maxLimbs * 32 < magnitude amount.limbs) :
    shrPositive x amount = .error overflow := by
  rw [shrPositive, smallShift_eq ha, if_pos h]
  rfl

theorem length_shrLimbs (offset : Nat) (limbs : List UInt32) :
    (shrLimbs offset limbs).length = limbs.length := by
  induction limbs with
  | nil => rfl
  | cons limb limbs ih => exact congrArg (· + 1) ih

/-- A shift by more than all limbs. -/
theorem ediv_of_lt (hx : x.WellFormed) {n : Nat} (h : magnitude x.limbs < 2 ^ n) :
    x.toInt / 2 ^ n = if x.negative then -1 else 0 := by
  have hneg := hx.negative_iff
  have habs := natAbs_toInt x
  have hcast : (2 : Int) ^ n = ((2 ^ n : Nat) : Int) := by push_cast; rfl
  rw [hcast, Int.ediv_eq_iff_of_pos (by omega)]
  cases hx' : x.negative with
  | true =>
    rw [hx'] at hneg
    have hneg := hneg.1 rfl
    rw [if_pos rfl, Int.neg_one_mul, Int.add_left_neg]
    exact ⟨by omega, hneg⟩
  | false =>
    rw [hx'] at hneg
    have hneg : ¬ x.toInt < 0 := fun h => Bool.false_ne_true (hneg.2 h)
    rw [if_neg Bool.false_ne_true, Int.zero_mul]
    omega

/-- The number without its last bits; one less of them is the floor if they are not all zero. -/
theorem floored_spec {shifted restored : BigInt} {n : Nat} (hx : x.WellFormed)
    (hshifted : shifted.WellFormed) (hrestored : restored.WellFormed) (hneg : x.negative = true)
    (hvalue : shifted.toInt = -((magnitude x.limbs / 2 ^ n : Nat) : Int))
    (hback : restored.toInt = shifted.toInt * 2 ^ n)
    (hfits : magnitude x.limbs / 2 ^ n * 2 ^ n < 2 ^ (32 * maxLimbs)) :
    ∃ r, floored x shifted restored = .ok r ∧ r.WellFormed ∧ r.toInt = x.toInt / 2 ^ n ∧
      r.toInt.natAbs < 2 ^ (32 * maxLimbs) := by
  have hcast : (2 : Int) ^ n = ((2 ^ n : Nat) : Int) := by push_cast; rfl
  have hdiv : x.toInt / 2 ^ n = -((magnitude x.limbs / 2 ^ n : Nat) : Int) -
      if 2 ^ n ∣ magnitude x.limbs then 0 else 1 := by
    rw [toInt_of_negative hneg, hcast, Int.neg_ediv, Int.sign_natCast_of_ne_zero
      (Nat.two_pow_pos n).ne', Int.natCast_ediv]
    simp only [Int.natCast_dvd_natCast]
  have hsame : restored = x ↔ 2 ^ n ∣ magnitude x.limbs := by
    have hinj : restored = x ↔ restored.toInt = x.toInt :=
      ⟨congrArg toInt, hrestored.eq_of_toInt hx⟩
    rw [hinj, hback, hvalue, toInt_of_negative hneg, Int.neg_mul, neg_inj, hcast,
      ← Int.natCast_mul, Int.natCast_inj]
    exact ⟨fun h => ⟨_, (Nat.mul_comm _ _).trans h |>.symm⟩, Nat.div_mul_cancel⟩
  have hq : magnitude x.limbs / 2 ^ n ≤ magnitude x.limbs / 2 ^ n * 2 ^ n :=
    Nat.le_mul_of_pos_right _ (Nat.two_pow_pos n)
  rw [floored]
  split
  next heq =>
    rw [if_pos (hsame.1 heq), Int.sub_zero] at hdiv
    refine ⟨shifted, rfl, hshifted, hvalue.trans hdiv.symm, ?_⟩
    rw [hvalue, Int.natAbs_neg, Int.natAbs_natCast]
    exact hq.trans_lt hfits
  next hne =>
    rw [if_neg fun h => hne (hsame.2 h), ← hvalue] at hdiv
    have hsmall : (shifted.toInt - 1).natAbs < 2 ^ (32 * maxLimbs) := by
      have hn : n ≠ 0 := by
        rintro rfl
        exact hne (hsame.2 (Nat.pow_zero 2 ▸ Nat.one_dvd _))
      have htwo := Nat.mul_le_mul_left (magnitude x.limbs / 2 ^ n) (Nat.pow_le_pow_right
        (by decide : 0 < 2) (Nat.one_le_iff_ne_zero.2 hn))
      have hone : 2 ^ 1 ≤ 2 ^ (32 * maxLimbs) := Nat.pow_le_pow_right (by decide) (by decide)
      rw [hvalue]
      omega
    have hone := @toInt_fromI64 1 (by decide)
    rcases sub_spec (b := fromI64 1) hshifted with ⟨r, hr, hwf, hsub⟩ | ⟨-, hlarge⟩
    · rw [hone] at hsub
      exact ⟨r, hr, hwf, hsub.trans hdiv.symm, hsub ▸ hsmall⟩
    · rw [hone] at hlarge
      omega

/-- The shift is the floor unless a negative number is too long to be shifted back. -/
theorem shrPositive_spec (hx : x.WellFormed) (ha : Trimmed amount.limbs)
    (hsmall : magnitude amount.limbs ≤ maxLimbs * 32) :
    (∃ r, shrPositive x amount = .ok r ∧ r.WellFormed ∧
      r.toInt = x.toInt / 2 ^ magnitude amount.limbs ∧
        (x.limbs.length ≤ maxLimbs → r.limbs.length ≤ maxLimbs)) ∧
      ¬ (x.toInt < 0 ∧ maxLimbs < x.limbs.length) ∨
      shrPositive x amount = .error overflow ∧ x.toInt < 0 ∧ maxLimbs < x.limbs.length := by
  have hback := fun s : BigInt => @shlPositive_spec s amount
  rw [shrPositive, smallShift_eq ha, if_neg (Nat.not_lt.2 hsmall)]
  simp only [bind, Except.bind, pure, Except.pure]
  split
  next hshort =>
    have hlt : magnitude x.limbs < 2 ^ magnitude amount.limbs :=
      (magnitude_lt x.limbs).trans_le (Nat.pow_le_pow_right (by decide) (by omega))
    refine .inl ⟨⟨_, rfl, ?_, ?_, fun _ => ?_⟩, fun ⟨_, hlong⟩ => ?_⟩
    · split
      · exact wellFormed_fromI64 _
      · exact wellFormed_zero
    · rw [ediv_of_lt hx hlt]
      split
      · exact toInt_fromI64 (by decide)
      · rfl
    · split <;> decide
    · omega
  next hlong =>
    have hmagnitude : magnitude (shrLimbs (magnitude amount.limbs % 32)
        (x.limbs.drop (magnitude amount.limbs / 32))) =
          magnitude x.limbs / 2 ^ magnitude amount.limbs := by
      rw [magnitude_shrLimbs (Nat.mod_lt _ (by decide)), magnitude_drop, Nat.div_div_eq_div_mul,
        pow_bits]
    have hlen : (shrLimbs (magnitude amount.limbs % 32)
        (x.limbs.drop (magnitude amount.limbs / 32))).length ≤ x.limbs.length := by
      rw [length_shrLimbs, List.length_drop]
      exact Nat.sub_le _ _
    cases hneg : x.negative with
    | false =>
      have hpos := Bool.eq_false_iff.1 hneg
      rw [Ne, hx.negative_iff] at hpos
      rw [if_neg Bool.false_ne_true]
      refine .inl ⟨⟨_, rfl, wellFormed_normalized _ _, ?_, fun hle => ?_⟩, fun h => hpos h.1⟩
      · rw [toInt_normalized, if_neg Bool.false_ne_true, hmagnitude, toInt_of_positive hneg]
        push_cast
        rfl
      · exact (length_normalized_le _ _).trans (hlen.trans hle)
    | true =>
      rw [if_pos rfl]
      have hlt := hx.negative_iff.1 hneg
      have hwf := wellFormed_normalized true (shrLimbs (magnitude amount.limbs % 32)
        (x.limbs.drop (magnitude amount.limbs / 32)))
      have hvalue := toInt_normalized true (shrLimbs (magnitude amount.limbs % 32)
        (x.limbs.drop (magnitude amount.limbs / 32)))
      rw [if_pos rfl, hmagnitude] at hvalue
      revert hwf hvalue
      generalize normalized true _ = shifted
      intro hwf hvalue
      have hshifted : magnitude shifted.limbs = magnitude x.limbs / 2 ^ magnitude amount.limbs := by
        rw [← natAbs_toInt, hvalue, Int.natAbs_neg, Int.natAbs_natCast]
      have hlong := hx.length_le_iff maxLimbs
      rw [natAbs_toInt] at hlong
      have hcut : magnitude x.limbs / 2 ^ magnitude amount.limbs * 2 ^ magnitude amount.limbs <
          2 ^ (32 * maxLimbs) ↔ magnitude x.limbs < 2 ^ (32 * maxLimbs) := by
        rw [show 32 * maxLimbs = 32 * maxLimbs - magnitude amount.limbs + magnitude amount.limbs
          by omega, pow_add, Nat.mul_lt_mul_right (Nat.two_pow_pos _),
          Nat.div_lt_iff_lt_mul (Nat.two_pow_pos _)]
      rw [← hshifted] at hcut
      rcases hback shifted hwf.trimmed ha hsmall with
        ⟨⟨restored, hr, hrestored, hscaled, -⟩, hfits⟩ | ⟨herror, hlarge⟩
      · rw [hshifted] at hfits
        obtain ⟨r, hfloored, hwf', hr', hsize⟩ :=
          floored_spec hx hwf hrestored hneg hvalue hscaled hfits
        rw [hr]
        refine .inl ⟨⟨r, hfloored, hwf', hr', fun _ => (hwf'.length_le_iff _).2 hsize⟩, ?_⟩
        rw [← hshifted, hcut, ← hlong] at hfits
        exact fun h => absurd hfits (Nat.not_le.2 h.2)
      · rw [herror]
        rw [← Nat.not_lt, hcut, ← hlong, Nat.not_le] at hlarge
        exact .inr ⟨rfl, hlt, hlarge⟩

/-! ## Both directions -/

/-- To the right the floor of a quotient, to the left a product if it fits; a negative amount is
the other direction. -/
def Shifts (x amount : BigInt) : Prop :=
  (0 ≤ amount.toInt →
    (∃ r, x.shr amount = .ok r ∧ r.WellFormed ∧ r.toInt = x.toInt / 2 ^ amount.toInt.toNat) ∧
    ((x.toInt * 2 ^ amount.toInt.toNat).natAbs < 2 ^ (32 * maxLimbs) →
      ∃ r, x.shl amount = .ok r ∧ r.WellFormed ∧ r.toInt = x.toInt * 2 ^ amount.toInt.toNat) ∧
    (2 ^ (32 * maxLimbs) ≤ (x.toInt * 2 ^ amount.toInt.toNat).natAbs →
      ∃ e, x.shl amount = .error e)) ∧
  (amount.toInt < 0 → x.shl amount = x.shr amount.negate ∧ x.shr amount = x.shl amount.negate)

theorem shift_iff (x amount : BigInt) (hx : x.WellFormed) (ha : amount.WellFormed) :
    Shifts x amount ↔ (0 ≤ amount.toInt → amount.toInt ≤ 32 * maxLimbs ∧
      ¬ (x.toInt < 0 ∧ maxLimbs < x.limbs.length)) := by
  by_cases hneg : amount.negative = true
  · have hlt := ha.negative_iff.1 hneg
    have hnegate : amount.negate.negative = false := by
      rw [negate, normalized, hneg]
      rfl
    refine iff_of_true ⟨fun h => absurd h (by omega), fun _ => ?_⟩ fun h => absurd h (by omega)
    rw [shl, shr, shr, shl, if_pos hneg, if_pos hneg, hnegate, if_neg Bool.false_ne_true,
      if_neg Bool.false_ne_true]
    exact ⟨rfl, rfl⟩
  · have hge : ¬ amount.toInt < 0 := fun h => hneg (ha.negative_iff.2 h)
    have hvalue := toInt_of_positive (Bool.eq_false_iff.2 hneg)
    rw [Shifts, shl, shr, if_neg hneg, if_neg hneg, hvalue, Int.toNat_natCast]
    have habs : (x.toInt * 2 ^ magnitude amount.limbs).natAbs =
        magnitude x.limbs * 2 ^ magnitude amount.limbs := by
      rw [Int.natAbs_mul, natAbs_toInt, Int.natAbs_pow]
      rfl
    rw [habs]
    by_cases hsmall : magnitude amount.limbs ≤ maxLimbs * 32
    · have hright := shrPositive_spec hx ha.trimmed hsmall
      have hleft := shlPositive_spec hx.trimmed ha.trimmed hsmall
      refine ⟨fun h _ => ⟨by omega, ?_⟩, fun h => ⟨fun h0 => ⟨?_, ?_, ?_⟩, fun h => absurd h (by omega)⟩⟩
      · obtain ⟨⟨r, hr, -⟩, -⟩ := h.1 (by omega)
        rw [hr] at hright
        simp only [reduceCtorEq, false_and, or_false] at hright
        exact hright.2
      · rcases hright with ⟨⟨r, hr, hwf, hfloor, -⟩, -⟩ | ⟨-, hlong⟩
        · exact ⟨r, hr, hwf, hfloor⟩
        · exact absurd hlong (h h0).2
      · intro hfits
        rcases hleft with ⟨⟨r, hr, hwf, hscaled, -⟩, -⟩ | ⟨-, hlarge⟩
        · exact ⟨r, hr, hwf, hscaled⟩
        · exact absurd hfits (Nat.not_lt.2 hlarge)
      · intro hlarge
        rcases hleft with ⟨-, hfits⟩ | ⟨herror, -⟩
        · exact absurd hfits (Nat.not_lt.2 hlarge)
        · exact ⟨_, herror⟩
    · have hlarge := Nat.lt_of_not_le hsmall
      refine iff_of_false (fun h => ?_) fun h => ?_
      · obtain ⟨⟨r, hr, -⟩, -⟩ := h.1 (by omega)
        rw [shrPositive_large ha.trimmed hlarge] at hr
        cases hr
      · have hle := (h (by omega)).1
        omega

theorem shift_iff_minus_five : Shifts (fromI64 (-5)) (fromI64 1) ∧
    (fromI64 (-5)).shr (fromI64 1) = .ok (fromI64 (-3)) :=
  ⟨(shift_iff (fromI64 (-5)) (fromI64 1) (wellFormed_fromI64 _) (wellFormed_fromI64 _)).2
    fun _ => by decide, by decide⟩

/-- One is not shifted to the right by more than the limbs of the largest number. -/
theorem shr_large_error : ¬ Shifts (fromI64 1) (fromI64 131073) := by
  intro h
  obtain ⟨⟨r, hr, -⟩, -⟩ := h.1 (by decide)
  rw [shr, if_neg (by decide), shrPositive_large (wellFormed_fromI64 _).trimmed (by decide)] at hr
  cases hr

end BigInt
end NapiVm
