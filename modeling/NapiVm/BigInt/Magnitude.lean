import Mathlib.Data.List.DropRight
import Mathlib.Data.Nat.Digits.Defs

/-!
# Magnitudes of integers

Limbs of 32 bits, the least significant one first, with 64 bits for what is in between.

* `addMagnitude`, `subMagnitude`, `mulMagnitude` — limb by limb, with a carry.
* `magnitude` — the number that limbs stand for; each loop keeps it.
-/

namespace NapiVm

open List
namespace BigInt

/-- Guard against an operation that builds a number without bound. -/
def maxLimbs : Nat := 4096

/-- The message of an error, or an index out of bounds. -/
inductive Failure
  | error (message : String)
  | panic
  deriving DecidableEq, Repr

abbrev BigResult := Except Failure

def overflow : Failure := .error "RangeError: BigInt is too large"

/-- Pop the zeros at the end. -/
def trim (limbs : List UInt32) : List UInt32 := limbs.rdropWhile (· = 0)

def cmpLimbs : List (UInt32 × UInt32) → Ordering
  | [] => .eq
  | (x, y) :: rest => if x = y then cmpLimbs rest else compare x y

def cmpMagnitude (a b : List UInt32) : Ordering :=
  if a.length = b.length then cmpLimbs (a.reverse.zip b.reverse) else compare a.length b.length

/-- The sum of so many limbs, and the carry; a limb that is not there is zero. -/
def addLimbs : Nat → List UInt32 → List UInt32 → UInt64 → List UInt32 × UInt64
  | 0, _, _, carry => ([], carry)
  | n + 1, a, b, carry =>
    let sum := carry + (a.headD 0).toUInt64 + (b.headD 0).toUInt64
    let rest := addLimbs n a.tail b.tail (sum >>> 32)
    (sum.toUInt32 :: rest.1, rest.2)

def addMagnitude (a b : List UInt32) : BigResult (List UInt32) :=
  let sum := addLimbs (max a.length b.length) a b 0
  let out := if 0 < sum.2 then sum.1 ++ [sum.2.toUInt32] else sum.1
  if maxLimbs < out.length then .error overflow else .ok out

def subLimbs : List UInt32 → List UInt32 → Int → List UInt32
  | [], _, _ => []
  | limb :: a, b, borrow =>
    let diff := (limb.toNat : Int) - ((b.headD 0).toNat : Int) - borrow
    if diff < 0 then UInt32.ofInt (diff + 2 ^ 32) :: subLimbs a b.tail 1
    else UInt32.ofInt diff :: subLimbs a b.tail 0

/-- `a - b`, where `a >= b`. -/
def subMagnitude (a b : List UInt32) : List UInt32 := subLimbs a b 0

/-- The carry of a row, from its last slot on. -/
def rippleCarry : UInt64 → List UInt32 → BigResult (List UInt32)
  | carry, [] => if 0 < carry then .error .panic else .ok []
  | carry, limb :: out =>
    if 0 < carry then do
      let total := limb.toUInt64 + carry
      let out ← rippleCarry (total >>> 32) out
      return total.toUInt32 :: out
    else .ok (limb :: out)

/-- One limb times all of `b`, added to the limbs of `out` from its slot on. -/
def mulRow (x : UInt32) : List UInt32 → UInt64 → List UInt32 → BigResult (List UInt32)
  | [], carry, out => rippleCarry carry out
  | _ :: _, _, [] => .error .panic
  | y :: b, carry, limb :: out => do
      let total := limb.toUInt64 + x.toUInt64 * y.toUInt64 + carry
      let out ← mulRow x b (total >>> 32) out
      return total.toUInt32 :: out

/-- The rows; after each one a limb is settled. -/
def mulRows (b : List UInt32) : List UInt32 → List UInt32 → BigResult (List UInt32)
  | [], out => .ok out
  | x :: a, out => do
      let out ← mulRow x b 0 out
      let rest ← mulRows b a out.tail
      return out.take 1 ++ rest

def mulMagnitude (a b : List UInt32) : BigResult (List UInt32) :=
  if a = [] ∨ b = [] then .ok []
  else if maxLimbs < a.length + b.length then .error overflow
  else mulRows b a (List.replicate (a.length + b.length) 0)

/-- The number that limbs stand for. -/
def magnitude (limbs : List UInt32) : Nat := Nat.ofDigits (2 ^ 32) (limbs.map UInt32.toNat)

/-- No zero at the end. -/
def Trimmed (limbs : List UInt32) : Prop := ∀ h : limbs ≠ [], limbs.getLast h ≠ 0

/-! ## Numbers of limbs -/

@[simp]
theorem magnitude_nil : magnitude [] = 0 := rfl

@[simp]
theorem magnitude_cons (limb : UInt32) (limbs : List UInt32) :
    magnitude (limb :: limbs) = limb.toNat + 2 ^ 32 * magnitude limbs := by
  rw [magnitude, map_cons, Nat.ofDigits_cons]
  rfl

theorem magnitude_append (a b : List UInt32) :
    magnitude (a ++ b) = magnitude a + 2 ^ (32 * a.length) * magnitude b := by
  rw [magnitude, map_append, Nat.ofDigits_append, length_map, pow_mul]
  rfl

theorem magnitude_concat (a : List UInt32) (limb : UInt32) :
    magnitude (a ++ [limb]) = magnitude a + 2 ^ (32 * a.length) * limb.toNat := by
  rw [magnitude_append, magnitude_cons, magnitude_nil, Nat.mul_zero, Nat.add_zero]

@[simp]
theorem magnitude_replicate (n : Nat) : magnitude (replicate n 0) = 0 := by
  rw [magnitude, map_replicate]
  exact Nat.ofDigits_replicate_zero

theorem headD_add_tail (limbs : List UInt32) :
    (limbs.headD 0).toNat + 2 ^ 32 * magnitude limbs.tail = magnitude limbs := by
  cases limbs with
  | nil => rfl
  | cons limb limbs => exact (magnitude_cons limb limbs).symm

theorem magnitude_lt (limbs : List UInt32) : magnitude limbs < 2 ^ (32 * limbs.length) := by
  rw [pow_mul, ← length_map UInt32.toNat]
  refine Nat.ofDigits_lt_base_pow_length (by decide) fun n hn => ?_
  obtain ⟨limb, -, rfl⟩ := mem_map.1 hn
  exact limb.toNat_lt

/-! ## No zeros at the end -/

theorem trimmed_trim (limbs : List UInt32) : Trimmed (trim limbs) := fun h hzero =>
  rdropWhile_last_not _ _ h (decide_eq_true hzero)

theorem length_trim_le (limbs : List UInt32) : (trim limbs).length ≤ limbs.length :=
  (List.rdropWhile_prefix _ _).length_le

@[simp]
theorem magnitude_trim (limbs : List UInt32) : magnitude (trim limbs) = magnitude limbs := by
  induction limbs using reverseRecOn with
  | nil => rfl
  | append_singleton limbs limb ih =>
    rw [trim, rdropWhile_concat]
    split
    next hzero =>
      rw [of_decide_eq_true hzero, magnitude_concat]
      exact ih
    next => rfl

variable {limbs a b out : List UInt32} {carry : UInt64}

theorem magnitude_ge (h : Trimmed limbs) (hne : limbs ≠ []) :
    2 ^ (32 * (limbs.length - 1)) ≤ magnitude limbs := by
  induction limbs using reverseRecOn with
  | nil => exact absurd rfl hne
  | append_singleton limbs limb ih =>
    have hlimb : limb ≠ 0 := fun hzero => h hne (by rw [getLast_append_singleton, hzero])
    have hpos : 0 < limb.toNat :=
      Nat.pos_of_ne_zero fun hzero => hlimb (UInt32.toNat_inj.1 hzero)
    rw [magnitude_concat, length_append, length_singleton, Nat.add_sub_cancel]
    exact Nat.le_add_left_of_le (Nat.le_mul_of_pos_right _ hpos)

theorem length_le_iff (h : Trimmed limbs) (n : Nat) :
    limbs.length ≤ n ↔ magnitude limbs < 2 ^ (32 * n) := by
  refine ⟨fun hn => (magnitude_lt limbs).trans_le
    (Nat.pow_le_pow_right (by decide) (Nat.mul_le_mul_left 32 hn)), fun hlt => ?_⟩
  by_contra hn
  have hne : limbs ≠ [] := by
    rintro rfl
    exact hn (Nat.zero_le n)
  have hge := magnitude_ge h hne
  have hpow : 2 ^ (32 * n) ≤ 2 ^ (32 * (limbs.length - 1)) :=
    Nat.pow_le_pow_right (by decide) (by omega)
  omega

theorem eq_nil_iff (h : Trimmed limbs) : limbs = [] ↔ magnitude limbs = 0 := by
  have hle := length_le_iff h 0
  rw [Nat.le_zero, length_eq_zero_iff, Nat.mul_zero, pow_zero, Nat.lt_one_iff] at hle
  exact hle

/-! ## Comparison -/

theorem compare_limbs (x y : UInt32) : compare x y = compare x.toNat y.toNat := by
  simp only [compare, compareOfLessAndEq, UInt32.lt_iff_toNat_lt, ← UInt32.toNat_inj]

theorem cmpLimbs_reverse : ∀ {a b : List UInt32}, a.length = b.length →
    cmpLimbs (a.reverse.zip b.reverse) = compare (magnitude a) (magnitude b) := by
  intro a
  induction a using reverseRecOn with
  | nil =>
    intro b h
    rw [length_eq_zero_iff.1 h.symm]
    rfl
  | append_singleton a x ih =>
    intro b h
    induction b using reverseRecOn with
    | nil => simp at h
    | append_singleton b y _ =>
      have hlen : a.length = b.length := by simpa using h
      have ha := magnitude_lt a
      have hb := magnitude_lt b
      rw [reverse_append, reverse_append, reverse_singleton,
        reverse_singleton, singleton_append, singleton_append,
        zip_cons_cons, cmpLimbs, magnitude_concat, magnitude_concat, ih hlen, hlen]
      rw [hlen] at ha
      split
      next heq =>
        subst heq
        rcases Nat.lt_trichotomy (magnitude a) (magnitude b) with hlt | heq | hgt
        · rw [compare_lt_iff_lt.2 hlt, compare_lt_iff_lt.2 (Nat.add_lt_add_right hlt _)]
        · rw [heq]
          exact (compare_eq_iff_eq.2 rfl).trans (compare_eq_iff_eq.2 rfl).symm
        · rw [compare_gt_iff_gt.2 hgt, compare_gt_iff_gt.2 (Nat.add_lt_add_right hgt _)]
      next hne =>
        rcases Nat.lt_trichotomy x.toNat y.toNat with hlt | heq | hgt
        · have hmul := Nat.mul_le_mul_left (2 ^ (32 * b.length)) hlt
          rw [Nat.mul_succ] at hmul
          rw [compare_limbs, compare_lt_iff_lt.2 hlt]
          exact (compare_lt_iff_lt.2 (by omega)).symm
        · exact absurd (UInt32.toNat_inj.1 heq) hne
        · have hmul := Nat.mul_le_mul_left (2 ^ (32 * b.length)) hgt
          rw [Nat.mul_succ] at hmul
          rw [compare_limbs, compare_gt_iff_gt.2 hgt]
          exact (compare_gt_iff_gt.2 (by omega)).symm

/-- Without zeros at the end more limbs are a larger number. -/
theorem cmpMagnitude_eq (ha : Trimmed a) (hb : Trimmed b) :
    cmpMagnitude a b = compare (magnitude a) (magnitude b) := by
  rw [cmpMagnitude]
  split
  next h => exact cmpLimbs_reverse h
  next h =>
    rcases Nat.lt_or_gt_of_ne h with hlt | hgt
    · have hle := (length_le_iff ha (b.length - 1)).1 (by omega)
      have hge := magnitude_ge hb fun hnil => by simp [hnil] at hlt
      rw [compare_lt_iff_lt.2 hlt, compare_lt_iff_lt.2 (hle.trans_le hge)]
    · have hle := (length_le_iff hb (a.length - 1)).1 (by omega)
      have hge := magnitude_ge ha fun hnil => by simp [hnil] at hgt
      rw [compare_gt_iff_gt.2 hgt, compare_gt_iff_gt.2 (hle.trans_le hge)]

theorem cmpMagnitude_lt (ha : Trimmed a) (hb : Trimmed b) :
    cmpMagnitude a b = .lt ↔ magnitude a < magnitude b := by
  rw [cmpMagnitude_eq ha hb, compare_lt_iff_lt]

theorem eq_of_magnitude (ha : Trimmed a) (hb : Trimmed b) (h : magnitude a = magnitude b) :
    a = b := by
  have hlen : a.length = b.length := by
    refine Nat.le_antisymm ((length_le_iff ha _).2 ?_) ((length_le_iff hb _).2 ?_)
    · exact h ▸ magnitude_lt b
    · exact h ▸ magnitude_lt a
  refine map_injective_iff.2 (fun x y hxy => UInt32.toNat_inj.1 hxy)
    (Nat.ofDigits_inj_of_len_eq (b := 2 ^ 32) (by decide) (by simpa using hlen) ?_ ?_ h)
  all_goals
    intro n hn
    obtain ⟨limb, -, rfl⟩ := mem_map.1 hn
    exact limb.toNat_lt

/-! ## Sum and difference -/

theorem toNat_high (total : UInt64) : (total >>> 32).toNat = total.toNat / 2 ^ 32 := by
  rw [UInt64.toNat_shiftRight, Nat.shiftRight_eq_div_pow]
  rfl

/-- A limb and a carry are all of a total. -/
theorem toNat_split (total : UInt64) :
    total.toUInt32.toNat + 2 ^ 32 * (total >>> 32).toNat = total.toNat := by
  rw [toNat_high, UInt64.toNat_toUInt32]
  exact Nat.mod_add_div _ _

theorem addLimbs_spec {n : Nat} (ha : a.length ≤ n) (hb : b.length ≤ n) (hcarry : carry.toNat ≤ 1) :
    (addLimbs n a b carry).1.length = n ∧ (addLimbs n a b carry).2.toNat ≤ 1 ∧
      magnitude (addLimbs n a b carry).1 + 2 ^ (32 * n) * (addLimbs n a b carry).2.toNat =
        magnitude a + magnitude b + carry.toNat := by
  induction n generalizing a b carry with
  | zero =>
    rw [length_eq_zero_iff.1 (Nat.le_zero.1 ha), length_eq_zero_iff.1 (Nat.le_zero.1 hb)]
    refine ⟨rfl, hcarry, ?_⟩
    simp [addLimbs]
  | succ n ih =>
    rw [addLimbs]
    have hx := (a.headD 0).toNat_lt
    have hy := (b.headD 0).toNat_lt
    have hsum : (carry + (a.headD 0).toUInt64 + (b.headD 0).toUInt64).toNat =
        carry.toNat + (a.headD 0).toNat + (b.headD 0).toNat := by
      simp only [UInt64.toNat_add, UInt32.toNat_toUInt64]
      omega
    have hsplit := toNat_split (carry + (a.headD 0).toUInt64 + (b.headD 0).toUInt64)
    rw [hsum] at hsplit
    obtain ⟨hlen, hle, hvalue⟩ := @ih a.tail b.tail
      ((carry + (a.headD 0).toUInt64 + (b.headD 0).toUInt64) >>> 32)
      (by rw [length_tail]; omega) (by rw [length_tail]; omega)
      (by rw [toNat_high, hsum]; omega)
    refine ⟨congrArg (· + 1) hlen, hle, ?_⟩
    have ha := headD_add_tail a
    have hb := headD_add_tail b
    dsimp only
    rw [magnitude_cons, Nat.mul_succ, Nat.add_comm _ 32, pow_add, Nat.mul_assoc]
    omega

/-- A sum needs one limb more at most. -/
theorem addMagnitude_spec (a b : List UInt32) : ∃ out : List UInt32,
    magnitude out = magnitude a + magnitude b ∧ out.length ≤ max a.length b.length + 1 ∧
      (max a.length b.length < out.length → 2 ^ (32 * (out.length - 1)) ≤ magnitude out) ∧
      addMagnitude a b = if maxLimbs < out.length then .error overflow else .ok out := by
  obtain ⟨hlen, hcarry, hvalue⟩ := @addLimbs_spec a b 0 _ (Nat.le_max_left a.length b.length)
    (Nat.le_max_right a.length b.length) (Nat.zero_le 1)
  refine ⟨_, ?_, ?_, ?_, rfl⟩
  all_goals
    generalize addLimbs (max a.length b.length) a b 0 = sum at *
    rw [UInt64.toNat_zero, Nat.add_zero] at hvalue
    split
  next hpos =>
    rw [magnitude_concat, hlen, UInt64.toNat_toUInt32, Nat.mod_eq_of_lt (by omega)]
    exact hvalue
  next hzero =>
    have hzero : sum.2.toNat = 0 := by
      rw [UInt64.lt_iff_toNat_lt, UInt64.toNat_zero] at hzero
      omega
    rw [← hvalue, hzero, Nat.mul_zero, Nat.add_zero]
  next => rw [length_append, hlen, length_singleton]
  next => omega
  next hpos =>
    intro _
    rw [UInt64.lt_iff_toNat_lt, UInt64.toNat_zero] at hpos
    rw [magnitude_concat, hlen, UInt64.toNat_toUInt32, Nat.mod_eq_of_lt (by omega),
      length_append, hlen, length_singleton, Nat.add_sub_cancel]
    exact Nat.le_add_left_of_le (Nat.le_mul_of_pos_right _ hpos)
  next => omega

theorem toNat_ofInt {n : Int} (h : 0 ≤ n) (hlt : n < 2 ^ 32) :
    ((UInt32.ofInt n).toNat : Int) = n := by
  simp [UInt32.ofInt]
  omega

theorem subLimbs_spec {borrow : Int} (hb : b.length ≤ a.length) (h0 : 0 ≤ borrow)
    (h1 : borrow ≤ 1) :
    (subLimbs a b borrow).length = a.length ∧ ∃ last : Nat,
      (magnitude (subLimbs a b borrow) : Int) + magnitude b + borrow =
        magnitude a + ((2 ^ (32 * a.length) * last : Nat) : Int) := by
  induction a generalizing b borrow with
  | nil =>
    rw [length_eq_zero_iff.1 (Nat.le_zero.1 hb)]
    refine ⟨rfl, borrow.toNat, ?_⟩
    simp [subLimbs, h0]
  | cons limb a ih =>
    have hx := limb.toNat_lt
    have hy := (b.headD 0).toNat_lt
    have hb' := headD_add_tail b
    have htail : b.tail.length ≤ a.length := by
      rw [length_tail, Nat.sub_le_iff_le_add]
      exact hb
    rw [subLimbs]
    rw [length_cons, Nat.mul_succ, Nat.add_comm _ 32, pow_add, magnitude_cons limb a]
    split
    next hneg =>
      obtain ⟨hlen, last, hvalue⟩ := @ih _ 1 htail (by decide) (by decide)
      refine ⟨congrArg (· + 1) hlen, last, ?_⟩
      have hlimb := toNat_ofInt (n := (limb.toNat : Int) - ((b.headD 0).toNat : Int) - borrow +
        2 ^ 32) (by omega) (by omega)
      rw [magnitude_cons, Nat.mul_assoc]
      omega
    next hpos =>
      obtain ⟨hlen, last, hvalue⟩ := @ih _ 0 htail (by decide) (by decide)
      refine ⟨congrArg (· + 1) hlen, last, ?_⟩
      have hlimb := toNat_ofInt (n := (limb.toNat : Int) - ((b.headD 0).toNat : Int) - borrow)
        (by omega) (by omega)
      rw [magnitude_cons, Nat.mul_assoc]
      omega

/-- Nothing is borrowed in the end. -/
theorem subMagnitude_spec (hlen : b.length ≤ a.length) (h : magnitude b ≤ magnitude a) :
    (subMagnitude a b).length = a.length ∧
      magnitude (subMagnitude a b) = magnitude a - magnitude b := by
  obtain ⟨hsize, last, hvalue⟩ := subLimbs_spec hlen (Int.le_refl 0) (by decide)
  refine ⟨hsize, ?_⟩
  have hlt := magnitude_lt (subLimbs a b 0)
  rw [hsize] at hlt
  rw [subMagnitude]
  have hlast : last = 0 := by
    by_contra hne
    have hmul := Nat.le_mul_of_pos_right (2 ^ (32 * a.length)) (Nat.pos_of_ne_zero hne)
    omega
  rw [hlast, Nat.mul_zero] at hvalue
  omega

/-! ## Product -/

theorem rippleCarry_spec (hcarry : carry.toNat < 2 ^ 32)
    (h : magnitude out + carry.toNat < 2 ^ (32 * out.length)) :
    ∃ r, rippleCarry carry out = .ok r ∧ r.length = out.length ∧
      magnitude r = magnitude out + carry.toNat := by
  induction out generalizing carry with
  | nil =>
    have hzero : carry.toNat = 0 := by
      rw [length_nil, Nat.mul_zero, pow_zero] at h
      omega
    rw [rippleCarry, if_neg (by rw [UInt64.lt_iff_toNat_lt, hzero]; decide), hzero]
    exact ⟨[], rfl, rfl, rfl⟩
  | cons limb out ih =>
    rw [rippleCarry]
    split
    next hpos =>
      have hlimb := limb.toNat_lt
      have htotal : (limb.toUInt64 + carry).toNat = limb.toNat + carry.toNat := by
        rw [UInt64.toNat_add, UInt32.toNat_toUInt64]
        omega
      have hsplit := toNat_split (limb.toUInt64 + carry)
      rw [htotal] at hsplit
      rw [length_cons, Nat.mul_succ, Nat.add_comm _ 32, pow_add, magnitude_cons] at h
      obtain ⟨r, hr, hlen, hvalue⟩ := @ih ((limb.toUInt64 + carry) >>> 32) (by omega) (by omega)
      refine ⟨(limb.toUInt64 + carry).toUInt32 :: r, ?_, congrArg (· + 1) hlen, ?_⟩
      · dsimp only
        rw [hr]
        rfl
      · rw [magnitude_cons, magnitude_cons]
        omega
    next hzero =>
      rw [UInt64.lt_iff_toNat_lt, UInt64.toNat_zero] at hzero
      exact ⟨limb :: out, rfl, rfl, by omega⟩

/-- A row fits as long as its sum does, and then no slot is out of bounds. -/
theorem mulRow_spec {x : UInt32} (hcarry : carry.toNat < 2 ^ 32) (hb : b.length ≤ out.length)
    (h : magnitude out + x.toNat * magnitude b + carry.toNat < 2 ^ (32 * out.length)) :
    ∃ r, mulRow x b carry out = .ok r ∧ r.length = out.length ∧
      magnitude r = magnitude out + x.toNat * magnitude b + carry.toNat := by
  induction b generalizing carry out with
  | nil =>
    rw [magnitude_nil, Nat.mul_zero, Nat.add_zero] at h ⊢
    rw [mulRow]
    exact rippleCarry_spec hcarry h
  | cons y b ih =>
    cases out with
    | nil => cases hb
    | cons limb out =>
      rw [mulRow]
      have hlimb := limb.toNat_lt
      have hmul : x.toNat * y.toNat ≤ (2 ^ 32 - 1) * (2 ^ 32 - 1) :=
        Nat.mul_le_mul (Nat.le_sub_one_of_lt x.toNat_lt) (Nat.le_sub_one_of_lt y.toNat_lt)
      have htotal : (limb.toUInt64 + x.toUInt64 * y.toUInt64 + carry).toNat =
          limb.toNat + x.toNat * y.toNat + carry.toNat := by
        simp only [UInt64.toNat_add, UInt64.toNat_mul, UInt32.toNat_toUInt64]
        omega
      have hsplit := toNat_split (limb.toUInt64 + x.toUInt64 * y.toUInt64 + carry)
      rw [htotal] at hsplit
      rw [magnitude_cons, magnitude_cons, Nat.mul_add, Nat.mul_left_comm] at h
      rw [length_cons, Nat.mul_succ, Nat.add_comm _ 32, pow_add] at h
      obtain ⟨r, hr, hlen, hvalue⟩ := @ih out
        ((limb.toUInt64 + x.toUInt64 * y.toUInt64 + carry) >>> 32)
        (by omega) (Nat.le_of_succ_le_succ hb) (by omega)
      refine ⟨(limb.toUInt64 + x.toUInt64 * y.toUInt64 + carry).toUInt32 :: r, ?_,
        congrArg (· + 1) hlen, ?_⟩
      · rw [hr]
        rfl
      · rw [magnitude_cons, magnitude_cons, magnitude_cons, Nat.mul_add, Nat.mul_left_comm]
        omega

/-- Before each row the sum so far is as long as `b`. -/
theorem mulRows_spec (hlen : out.length = a.length + b.length)
    (h : magnitude out < 2 ^ (32 * b.length)) :
    ∃ r, mulRows b a out = .ok r ∧ r.length = out.length ∧
      magnitude r = magnitude out + magnitude a * magnitude b := by
  induction a generalizing out with
  | nil =>
    rw [mulRows, magnitude_nil, Nat.zero_mul, Nat.add_zero]
    exact ⟨out, rfl, rfl, rfl⟩
  | cons x a ih =>
    rw [mulRows]
    have hb := magnitude_lt b
    have hrow : magnitude out + x.toNat * magnitude b + 0 < 2 ^ 32 * 2 ^ (32 * b.length) := by
      have hmul : x.toNat * magnitude b ≤ (2 ^ 32 - 1) * magnitude b :=
        Nat.mul_le_mul_right _ (Nat.le_sub_one_of_lt x.toNat_lt)
      omega
    have hfits : 2 ^ 32 * 2 ^ (32 * b.length) ≤ 2 ^ (32 * out.length) := by
      rw [← pow_add, hlen, length_cons]
      exact Nat.pow_le_pow_right (by decide) (by omega)
    obtain ⟨row, hr, hrowLen, hrowValue⟩ := @mulRow_spec b out 0 x (by decide) (by omega) (hrow.trans_le hfits)
    rw [UInt64.toNat_zero, Nat.add_zero] at hrowValue
    cases row with
    | nil =>
      rw [← hrowLen, length_cons, length_nil] at hlen
      omega
    | cons limb row =>
      rw [length_cons] at hlen hrowLen
      rw [magnitude_cons] at hrowValue
      obtain ⟨rest, hrest, hrestLen, hrestValue⟩ := @ih row (by omega) (by omega)
      refine ⟨limb :: rest, ?_, ?_, ?_⟩
      · rw [hr]
        simp only [bind, Except.bind, tail_cons, hrest]
        rfl
      · rw [length_cons, hrestLen]
        exact hrowLen
      · rw [magnitude_cons, magnitude_cons, Nat.add_mul, Nat.mul_assoc]
        omega

/-- A product fails only for the number of limbs. -/
theorem mulMagnitude_spec (a b : List UInt32) :
    (∃ r, mulMagnitude a b = .ok r ∧ magnitude r = magnitude a * magnitude b ∧
      r.length ≤ maxLimbs) ∨
      mulMagnitude a b = .error overflow ∧ maxLimbs < a.length + b.length := by
  rw [mulMagnitude]
  split
  next h =>
    refine .inl ⟨[], rfl, ?_, Nat.zero_le _⟩
    rcases h with rfl | rfl
    · rw [magnitude_nil, Nat.zero_mul]
    · rw [magnitude_nil, Nat.mul_zero]
  next =>
    split
    next hlong => exact .inr ⟨rfl, hlong⟩
    next hfits =>
      obtain ⟨r, hr, hlen, hvalue⟩ := @mulRows_spec a b
        (replicate (a.length + b.length) 0) (length_replicate ..)
        (by rw [magnitude_replicate]; exact Nat.two_pow_pos _)
      rw [magnitude_replicate, Nat.zero_add] at hvalue
      rw [length_replicate] at hlen
      exact .inl ⟨r, hr, hvalue, by omega⟩

end BigInt
end NapiVm
