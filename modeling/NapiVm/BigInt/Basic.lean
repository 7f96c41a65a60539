import Mathlib.Data.Nat.Size
import NapiVm.BigInt.Magnitude

/-!
# Integers of any size

A sign and a magnitude without zeros at the end; zero has no sign.

* `BigInt.add`, `BigInt.mul`, `BigInt.pow` — what they return is exact (`ring_exact`).
-/

namespace NapiVm

structure BigInt where
  negative : Bool
  limbs : List UInt32
  deriving DecidableEq, Repr

namespace BigInt

def zero : BigInt := ⟨false, []⟩

def isZero (x : BigInt) : Bool := x.limbs.isEmpty

def normalized (negative : Bool) (limbs : List UInt32) : BigInt :=
  ⟨negative && !(trim limbs).isEmpty, trim limbs⟩

def fromI64 (value : Int) : BigInt :=
  normalized (value < 0) [UInt32.ofNat value.natAbs, UInt32.ofNat (value.natAbs / 2 ^ 32)]

def add (a b : BigInt) : BigResult BigInt :=
  if a.negative = b.negative then do
    let limbs ← addMagnitude a.limbs b.limbs
    return normalized a.negative limbs
  else
    match cmpMagnitude a.limbs b.limbs with
    | .eq => .ok zero
    | .gt => .ok (normalized a.negative (subMagnitude a.limbs b.limbs))
    | .lt => .ok (normalized b.negative (subMagnitude b.limbs a.limbs))

def negate (x : BigInt) : BigInt := normalized (!x.negative) x.limbs

def sub (a b : BigInt) : BigResult BigInt := a.add b.negate

def mul (a b : BigInt) : BigResult BigInt := do
  let limbs ← mulMagnitude a.limbs b.limbs
  return normalized (a.negative != b.negative) limbs

def leadingZeros (limb : UInt32) : Nat := if limb = 0 then 32 else 31 - limb.toNat.log2

/-- Position of the highest set bit, plus one. Zero for zero. -/
def bitLength (x : BigInt) : Nat :=
  match x.limbs.getLast? with
  | none => 0
  | some top => (x.limbs.length - 1) * 32 + (32 - leadingZeros top)

def limbBit (limbs : List UInt32) (index : Nat) : UInt32 :=
  (limbs.getD (index / 32) 0 >>> UInt32.ofNat (index % 32)) &&& 1

def mulIf (condition : Prop) [Decidable condition] (a b : BigInt) : BigResult BigInt :=
  if condition then a.mul b else .ok a

/-- The bits of the exponent from `bits - n` on. -/
def powLoop (exponent : BigInt) (bits : Nat) : Nat → BigInt → BigInt → BigResult BigInt
  | 0, result, _ => .ok result
  | n + 1, result, base => do
      let result ← mulIf (limbBit exponent.limbs (bits - (n + 1)) = 1) result base
      let base ← mulIf (bits - (n + 1) + 1 < bits) base base
      powLoop exponent bits n result base

def pow (base exponent : BigInt) : BigResult BigInt :=
  if exponent.negative then .error (.error "RangeError: Exponent must be non-negative")
  else powLoop exponent exponent.bitLength exponent.bitLength (fromI64 1) base

/-- The integer that is denoted. -/
def toInt (x : BigInt) : Int :=
  if x.negative then -(magnitude x.limbs : Int) else (magnitude x.limbs : Int)

/-- No zero limb at the end, and no negative zero. -/
structure WellFormed (x : BigInt) : Prop where
  trimmed : Trimmed x.limbs
  zero : x.limbs = [] → x.negative = false

/-! ## Normal forms -/

theorem wellFormed_normalized (negative : Bool) (limbs : List UInt32) :
    (normalized negative limbs).WellFormed := by
  refine ⟨trimmed_trim limbs, fun h => ?_⟩
  have h : trim limbs = [] := h
  simp only [normalized, h, List.isEmpty_nil, Bool.not_true, Bool.and_false]

theorem wellFormed_zero : zero.WellFormed := ⟨fun h => absurd rfl h, fun _ => rfl⟩

theorem toInt_of_positive {x : BigInt} (h : x.negative = false) : x.toInt = magnitude x.limbs := by
  rw [toInt, h]
  rfl

theorem toInt_of_negative {x : BigInt} (h : x.negative = true) :
    x.toInt = -(magnitude x.limbs : Int) := by
  rw [toInt, if_pos h]

theorem toInt_normalized (negative : Bool) (limbs : List UInt32) :
    (normalized negative limbs).toInt =
      if negative then -(magnitude limbs : Int) else (magnitude limbs : Int) := by
  rw [toInt, normalized]
  dsimp only
  rw [magnitude_trim]
  cases negative with
  | false => rfl
  | true =>
    by_cases h : trim limbs = []
    · have hzero := magnitude_trim limbs
      rw [h, magnitude_nil] at hzero
      simp [h, ← hzero]
    · simp [h]

theorem length_normalized_le (negative : Bool) (limbs : List UInt32) :
    (normalized negative limbs).limbs.length ≤ limbs.length := length_trim_le limbs

theorem natAbs_toInt (x : BigInt) : x.toInt.natAbs = magnitude x.limbs := by
  rw [toInt]
  split <;> omega

namespace WellFormed

variable {x y : BigInt}

theorem eq_zero_iff (h : x.WellFormed) : x.limbs = [] ↔ x.toInt = 0 := by
  rw [eq_nil_iff h.trimmed, ← natAbs_toInt, Int.natAbs_eq_zero]

theorem negative_iff (h : x.WellFormed) : x.negative = true ↔ x.toInt < 0 := by
  have hzero := h.zero
  rw [eq_nil_iff h.trimmed] at hzero
  cases hx : x.negative with
  | true =>
    rw [hx] at hzero
    rw [toInt_of_negative hx]
    refine iff_of_true rfl ?_
    have hne : magnitude x.limbs ≠ 0 := fun h => by cases hzero h
    omega
  | false =>
    rw [toInt_of_positive hx]
    exact iff_of_false Bool.false_ne_true (by omega)

/-- An integer has one well-formed value. -/
theorem eq_of_toInt (hx : x.WellFormed) (hy : y.WellFormed) (h : x.toInt = y.toInt) : x = y := by
  have hlimbs : x.limbs = y.limbs :=
    eq_of_magnitude hx.trimmed hy.trimmed (by rw [← natAbs_toInt, ← natAbs_toInt, h])
  have hnegative : x.negative = y.negative := by
    rw [Bool.eq_iff_iff, hx.negative_iff, hy.negative_iff, h]
  cases x
  cases y
  cases hlimbs
  cases hnegative
  rfl

theorem length_le_iff (h : x.WellFormed) (n : Nat) :
    x.limbs.length ≤ n ↔ x.toInt.natAbs < 2 ^ (32 * n) := by
  rw [BigInt.length_le_iff h.trimmed, natAbs_toInt]

end WellFormed

theorem wellFormed_fromI64 (value : Int) : (fromI64 value).WellFormed := wellFormed_normalized _ _

theorem toInt_fromI64 {value : Int} (h : value.natAbs < 2 ^ 64) : (fromI64 value).toInt = value := by
  have hmagnitude : magnitude [UInt32.ofNat value.natAbs, UInt32.ofNat (value.natAbs / 2 ^ 32)] =
      value.natAbs := by
    simp only [magnitude_cons, magnitude_nil, UInt32.toNat_ofNat']
    omega
  rw [fromI64, toInt_normalized, hmagnitude]
  split
  next hneg =>
    have hneg := of_decide_eq_true hneg
    omega
  next hpos =>
    have hpos := of_decide_eq_false (Bool.eq_false_iff.2 hpos)
    omega

/-! ## Sums and products -/

theorem wellFormed_negate (x : BigInt) : x.negate.WellFormed := wellFormed_normalized _ _

theorem toInt_negate (x : BigInt) : x.negate.toInt = -x.toInt := by
  rw [negate, toInt_normalized, toInt]
  cases x.negative with
  | false => rfl
  | true => exact (Int.neg_neg _).symm

theorem add_spec {a b : BigInt} (ha : a.WellFormed) (hb : b.WellFormed) :
    (∃ r, a.add b = .ok r ∧ r.WellFormed ∧ r.toInt = a.toInt + b.toInt) ∨
      a.add b = .error overflow ∧ 2 ^ (32 * maxLimbs) ≤ (a.toInt + b.toInt).natAbs := by
  rw [add]
  split
  next hsign =>
    obtain ⟨out, hvalue, hle, hcarry, hadd⟩ := addMagnitude_spec a.limbs b.limbs
    have hsum : (normalized a.negative out).toInt = a.toInt + b.toInt := by
      rw [toInt_normalized, toInt, toInt, ← hsign, hvalue]
      split <;> omega
    rw [hadd]
    split
    next hlong =>
      refine .inr ⟨rfl, ?_⟩
      rw [← hsum, natAbs_toInt, normalized, magnitude_trim]
      by_cases hmore : max a.limbs.length b.limbs.length < out.length
      · exact (Nat.pow_le_pow_right (by decide) (by omega)).trans (hcarry hmore)
      · -- no carry: one of the two is as long already
        rw [hvalue]
        by_contra hlt
        have hla := (length_le_iff ha.trimmed maxLimbs).2 (by omega)
        have hlb := (length_le_iff hb.trimmed maxLimbs).2 (by omega)
        omega
    next => exact .inl ⟨_, rfl, wellFormed_normalized _ _, hsum⟩
  next hsign =>
    rw [cmpMagnitude_eq ha.trimmed hb.trimmed]
    rcases Nat.lt_trichotomy (magnitude a.limbs) (magnitude b.limbs) with hlt | heq | hgt
    · have hlen := (length_le_iff ha.trimmed _).2 (hlt.trans (magnitude_lt b.limbs))
      rw [compare_lt_iff_lt.2 hlt]
      refine .inl ⟨_, rfl, wellFormed_normalized _ _, ?_⟩
      rw [toInt_normalized, (subMagnitude_spec hlen (Nat.le_of_lt hlt)).2, toInt, toInt]
      cases ha' : a.negative <;> cases hb' : b.negative <;> simp_all <;> omega
    · rw [compare_eq_iff_eq.2 heq]
      refine .inl ⟨_, rfl, wellFormed_zero, ?_⟩
      rw [toInt, toInt, heq]
      cases ha' : a.negative <;> cases hb' : b.negative <;> simp_all [zero, toInt]
    · have hlen := (length_le_iff hb.trimmed _).2 (hgt.trans (magnitude_lt a.limbs))
      rw [compare_gt_iff_gt.2 hgt]
      refine .inl ⟨_, rfl, wellFormed_normalized _ _, ?_⟩
      rw [toInt_normalized, (subMagnitude_spec hlen (Nat.le_of_lt hgt)).2, toInt, toInt]
      cases ha' : a.negative <;> cases hb' : b.negative <;> simp_all <;> omega

theorem sub_spec {a b : BigInt} (ha : a.WellFormed) :
    (∃ r, a.sub b = .ok r ∧ r.WellFormed ∧ r.toInt = a.toInt - b.toInt) ∨
      a.sub b = .error overflow ∧ 2 ^ (32 * maxLimbs) ≤ (a.toInt - b.toInt).natAbs := by
  have h := add_spec ha (wellFormed_negate b)
  rw [toInt_negate, ← Int.sub_eq_add_neg] at h
  exact h

theorem mul_spec (a b : BigInt) :
    (∃ r, a.mul b = .ok r ∧ r.WellFormed ∧ r.toInt = a.toInt * b.toInt ∧
      r.limbs.length ≤ maxLimbs) ∨
      a.mul b = .error overflow ∧ maxLimbs < a.limbs.length + b.limbs.length := by
  rw [mul]
  rcases mulMagnitude_spec a.limbs b.limbs with ⟨limbs, hmul, hvalue, hle⟩ | ⟨herror, hlong⟩
  · rw [hmul]
    refine .inl ⟨_, rfl, wellFormed_normalized _ _, ?_, (length_normalized_le _ _).trans hle⟩
    rw [toInt_normalized, hvalue, toInt, toInt]
    cases a.negative <;> cases b.negative <;> simp
  · rw [herror]
    exact .inr ⟨rfl, hlong⟩

/-! ## Bits -/

theorem testBit_magnitude (limbs : List UInt32) (i : Nat) :
    (magnitude limbs).testBit i = (limbs.getD (i / 32) 0).toNat.testBit (i % 32) := by
  induction limbs generalizing i with
  | nil => simp
  | cons limb limbs ih =>
    rw [magnitude_cons, Nat.add_comm, Nat.testBit_two_pow_mul_add _ limb.toNat_lt]
    split
    next hlt => rw [Nat.div_eq_of_lt hlt, Nat.mod_eq_of_lt hlt, List.getD_cons_zero]
    next hge =>
      have hdiv : i / 32 = (i - 32) / 32 + 1 := by omega
      have hmod : i % 32 = (i - 32) % 32 := by omega
      rw [hdiv, hmod, List.getD_cons_succ, ih]

theorem toNat_ofNat_mod (i : Nat) : (UInt32.ofNat (i % 32)).toNat % 32 = i % 32 := by
  rw [UInt32.toNat_ofNat']
  omega

theorem toNat_limbBit (limbs : List UInt32) (i : Nat) :
    (limbBit limbs i).toNat = ((magnitude limbs).testBit i).toNat := by
  rw [testBit_magnitude, limbBit, UInt32.toNat_and, UInt32.toNat_shiftRight, toNat_ofNat_mod,
    Nat.shiftRight_eq_div_pow, Nat.toNat_testBit]
  exact Nat.and_one_is_mod _

theorem limbBit_eq_one (limbs : List UInt32) (i : Nat) :
    limbBit limbs i = 1 ↔ (magnitude limbs).testBit i = true := by
  rw [← UInt32.toNat_inj, toNat_limbBit]
  cases (magnitude limbs).testBit i <;> decide

theorem size_eq {limb : UInt32} (h : limb ≠ 0) : 32 - leadingZeros limb = limb.toNat.size := by
  have hne : limb.toNat ≠ 0 := fun hzero => h (UInt32.toNat_inj.1 hzero)
  have hlog : limb.toNat.log2 < 32 := (Nat.log2_lt hne).2 limb.toNat_lt
  have hsize : limb.toNat.size = limb.toNat.log2 + 1 :=
    Nat.le_antisymm (Nat.size_le.2 Nat.lt_log2_self) (Nat.lt_size.2 (Nat.log2_self_le hne))
  rw [leadingZeros, if_neg h, hsize]
  omega

/-- The bit length is that of the magnitude. -/
theorem bitLength_eq {x : BigInt} (h : Trimmed x.limbs) : x.bitLength = (magnitude x.limbs).size := by
  rw [bitLength]
  revert h
  generalize x.limbs = limbs
  intro h
  induction limbs using List.reverseRecOn with
  | nil => rfl
  | append_singleton limbs top _ =>
    have htop : top ≠ 0 := by
      have hlast := h (List.append_ne_nil_of_right_ne_nil _ (List.cons_ne_nil _ _))
      rwa [List.getLast_append_singleton] at hlast
    have hlt := magnitude_lt limbs
    have hsize := Nat.lt_size_self top.toNat
    have hpos : 0 < top.toNat.size :=
      Nat.size_pos.2 (Nat.pos_of_ne_zero fun hzero => htop (UInt32.toNat_inj.1 hzero))
    have hlow := Nat.lt_size.1 (Nat.sub_one_lt_of_lt hpos)
    rw [List.getLast?_append, List.getLast?_singleton, Option.some_or]
    dsimp only
    rw [size_eq htop, List.length_append, List.length_singleton, Nat.add_sub_cancel,
      magnitude_concat, Nat.mul_comm]
    refine Nat.le_antisymm ?_ (Nat.size_le.2 ?_)
    · rw [show 32 * limbs.length + top.toNat.size = 32 * limbs.length + (top.toNat.size - 1) + 1
        by omega]
      refine Nat.lt_size.2 (Nat.le_add_left_of_le ?_)
      rw [pow_add]
      exact Nat.mul_le_mul_left _ hlow
    · rw [pow_add]
      have hmul := Nat.mul_le_mul_left (2 ^ (32 * limbs.length)) hsize
      rw [Nat.mul_succ] at hmul
      omega

/-! ## Powers -/

theorem toInt_of_mul {a b r : BigInt} (h : a.mul b = .ok r) :
    r.WellFormed ∧ r.toInt = a.toInt * b.toInt ∧ r.limbs.length ≤ maxLimbs := by
  rcases mul_spec a b with ⟨r', hmul, hr⟩ | ⟨herror, -⟩
  · rw [hmul] at h
    cases h
    exact hr
  · rw [herror] at h
    cases h

theorem mulIf_spec (condition : Prop) [Decidable condition] (a b : BigInt) :
    (∃ r, mulIf condition a b = .ok r ∧
      r.toInt = if condition then a.toInt * b.toInt else a.toInt) ∨
      mulIf condition a b = .error overflow := by
  unfold mulIf
  split
  · exact (mul_spec a b).imp (fun ⟨r, hr, _, hvalue, _⟩ => ⟨r, hr, hvalue⟩) And.left
  · exact .inl ⟨a, rfl, rfl⟩

/-- What is left of the exponent, from the next bit on. -/
theorem powLoop_spec {exponent : BigInt} {bits n : Nat} {result base : BigInt} (hn : n ≤ bits)
    (hbits : magnitude exponent.limbs < 2 ^ bits) :
    (∃ r, powLoop exponent bits n result base = .ok r ∧
      r.toInt = result.toInt * base.toInt ^ (magnitude exponent.limbs / 2 ^ (bits - n))) ∨
      powLoop exponent bits n result base = .error overflow := by
  induction n generalizing result base with
  | zero =>
    refine .inl ⟨result, rfl, ?_⟩
    rw [Nat.sub_zero, Nat.div_eq_of_lt hbits, pow_zero, Int.mul_one]
  | succ n ih =>
    rw [powLoop]
    have hstep : bits - n = bits - (n + 1) + 1 := by omega
    have hbit := limbBit_eq_one exponent.limbs (bits - (n + 1))
    have hlast : ¬ bits - (n + 1) + 1 < bits →
        magnitude exponent.limbs / 2 ^ (bits - (n + 1)) / 2 = 0 := fun hlast => by
      rw [Nat.div_div_eq_div_mul, ← pow_succ, show bits - (n + 1) + 1 = bits by omega]
      exact Nat.div_eq_of_lt hbits
    have hsplit := Nat.div_add_mod (magnitude exponent.limbs / 2 ^ (bits - (n + 1))) 2
    rw [← Nat.toNat_testBit] at hsplit
    rcases mulIf_spec (limbBit exponent.limbs (bits - (n + 1)) = 1) result base with
      ⟨result', hr, hresult⟩ | herror
    · rcases mulIf_spec (bits - (n + 1) + 1 < bits) base base with ⟨base', hb, hbase⟩ | herror
      · rw [hr]
        refine (@ih result' base' (Nat.le_of_succ_le hn)).imp ?_ fun h => ?_
        · rintro ⟨r, h, hvalue⟩
          refine ⟨r, ?_, ?_⟩
          · simp only [bind, Except.bind, hb, h]
          · rw [hstep, pow_succ, ← Nat.div_div_eq_div_mul] at hvalue
            have hsquare : base'.toInt ^ (magnitude exponent.limbs / 2 ^ (bits - (n + 1)) / 2) =
                base.toInt ^ (2 * (magnitude exponent.limbs / 2 ^ (bits - (n + 1)) / 2)) := by
              rw [hbase]
              split
              next => rw [pow_mul, pow_two]
              next hend => rw [hlast hend, pow_zero]
            have hfactor : result'.toInt = result.toInt *
                base.toInt ^ ((magnitude exponent.limbs).testBit (bits - (n + 1))).toNat := by
              rw [hresult]
              split
              next hone => rw [hbit.1 hone, Bool.toNat_true, pow_one]
              next hzero =>
                rw [Bool.eq_false_iff.2 fun h => hzero (hbit.2 h), Bool.toNat_false, pow_zero,
                  Int.mul_one]
            rw [hvalue, hfactor, hsquare, Int.mul_assoc, ← pow_add, Nat.add_comm, hsplit]
        · simp only [bind, Except.bind, hb, h]
      · refine .inr ?_
        rw [hr]
        simp only [bind, Except.bind, herror]
    · refine .inr ?_
      rw [herror]
      rfl

theorem pow_spec (a : BigInt) {e : BigInt} (he : e.WellFormed) (hpos : e.negative = false) :
    (∃ r, a.pow e = .ok r ∧ r.toInt = a.toInt ^ magnitude e.limbs) ∨ a.pow e = .error overflow := by
  have hloop := @powLoop_spec e _ _ (fromI64 1) a
    (Nat.le_refl (magnitude e.limbs).size) (Nat.lt_size_self _)
  rw [Nat.sub_self, pow_zero, Nat.div_one, toInt_fromI64 (by decide), Int.one_mul] at hloop
  rwa [pow, hpos, if_neg Bool.false_ne_true, bitLength_eq he.trimmed]

/-- Arithmetic is exact, nothing is indexed out of bounds, and a sum is refused only for its size. -/
theorem ring_exact (a b : BigInt) (ha : a.WellFormed) (hb : b.WellFormed) :
    (a.negate.WellFormed ∧ a.negate.toInt = -a.toInt) ∧
      (∀ r, a.add b = .ok r → r.WellFormed ∧ r.toInt = a.toInt + b.toInt) ∧
      (∀ r, a.sub b = .ok r → r.WellFormed ∧ r.toInt = a.toInt - b.toInt) ∧
      (∀ r, a.mul b = .ok r → r.WellFormed ∧ r.toInt = a.toInt * b.toInt) ∧
      (∀ r, 0 ≤ b.toInt → a.pow b = .ok r → r.toInt = a.toInt ^ b.toInt.toNat) ∧
      (∀ e, a.add b = .error e →
        e = overflow ∧ 2 ^ (32 * maxLimbs) ≤ (a.toInt + b.toInt).natAbs) ∧
      (∀ e, a.sub b = .error e →
        e = overflow ∧ 2 ^ (32 * maxLimbs) ≤ (a.toInt - b.toInt).natAbs) ∧
      (∀ e, a.mul b = .error e → e = overflow) ∧
      ∀ e, 0 ≤ b.toInt → a.pow b = .error e → e = overflow := by
  have hpow (hb0 : 0 ≤ b.toInt) := pow_spec a hb <|
    Bool.eq_false_iff.2 fun h => absurd (hb.negative_iff.1 h) (by omega)
  refine ⟨⟨wellFormed_negate a, toInt_negate a⟩, fun r h => ?_, fun r h => ?_, fun r h => ?_,
    fun r hb0 h => ?_, fun e h => ?_, fun e h => ?_, fun e h => ?_, fun e hb0 h => ?_⟩
  · simpa [h] using add_spec ha hb
  · simpa [h] using sub_spec (b := b) ha
  · exact ⟨(toInt_of_mul h).1, (toInt_of_mul h).2.1⟩
  · have hvalue := hpow hb0
    rw [← natAbs_toInt] at hvalue
    rw [← Int.natAbs_of_nonneg hb0, Int.toNat_natCast]
    simpa [h] using hvalue
  · simpa [h] using add_spec ha hb
  · simpa [h] using sub_spec (b := b) ha
  · have herror := mul_spec a b
    simp only [h, reduceCtorEq, false_and, exists_false, false_or, Except.error.injEq] at herror
    exact herror.1
  · simpa [h] using hpow hb0

theorem ring_exact_seven : (fromI64 7).pow (fromI64 3) = .ok (fromI64 343) ∧
    (∀ r, (fromI64 7).pow (fromI64 3) = .ok r → r.toInt = 7 ^ 3) := by
  refine ⟨by decide +kernel, fun r h => ?_⟩
  exact (ring_exact (fromI64 7) (fromI64 3) (wellFormed_fromI64 7)
    (wellFormed_fromI64 3)).2.2.2.2.1 r (by decide) h

end BigInt
end NapiVm
