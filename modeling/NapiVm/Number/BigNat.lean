import Mathlib.Algebra.Group.Nat.Defs
import Mathlib.Data.Nat.Size
import NapiVm.Lib.Exact

/-!
# Big integers that are not negative

A big integer is its value here; what the limbs of the source decide is when it is too large.

* `add`, `mul`, `div`, `shl`, `pow` — the operations, with their checks.
* `mul_eq`, `pow_eq` — values of so many bits are not too large.
* `pow_lt` — a power that is not too large.
-/

namespace NapiVm.BigNat

/-- `MAX_LIMBS`. -/
def maxLimbs : Nat := 4096

/-- How many limbs of 32 bits a value has. -/
def limbs (n : Nat) : Nat := (n.size + 31) / 32

/-- `overflow`. -/
def overflow : String := "RangeError: BigInt is too large"

/-- The result of an operation that gives so many limbs. -/
def sized (count n : Nat) : Except String Nat :=
  if maxLimbs < count then .error overflow else .ok n

/-- `add`. -/
def add (a b : Nat) : Except String Nat := sized (limbs (a + b)) (a + b)

/-- `mul`. -/
def mul (a b : Nat) : Except String Nat :=
  if a = 0 ∨ b = 0 then .ok 0 else sized (limbs a + limbs b) (a * b)

/-- `div`. -/
def div (a b : Nat) : Except String Nat :=
  if b = 0 then .error "RangeError: Division by zero" else .ok (a / b)

/-- `shl`. -/
def shl (n bits : Nat) : Except String Nat :=
  if maxLimbs * 32 < bits then .error overflow else sized (limbs (n * 2 ^ bits)) (n * 2 ^ bits)

/-- A factor for the last bit of the exponent. -/
def mulBit (result base exponent : Nat) : Except String Nat :=
  if exponent % 2 = 1 then mul result base else .ok result

/-- The loop of `pow` over the bits that are left of the exponent. -/
def powLoop (result base exponent : Nat) : Except String Nat :=
  if exponent = 0 then .ok result
  else do
    let result ← mulBit result base exponent
    if exponent / 2 = 0 then .ok result
    else do
      let base ← mul base base
      powLoop result base (exponent / 2)
  termination_by exponent
  decreasing_by
    exact Nat.div_lt_self (by omega) (by decide)

/-- `pow`. -/
def pow (base exponent : Nat) : Except String Nat := powLoop 1 base exponent

/-! ## Values -/

variable {n r a b exponent base i : Nat}

variable {count bits j : Nat}

theorem eq_of_sized (h : sized count n = .ok r) : r = n := by
  unfold sized at h
  split at h
  · cases h
  · cases h
    rfl

theorem eq_of_add (h : add a b = .ok r) : r = a + b := eq_of_sized h

theorem eq_of_mul (h : mul a b = .ok r) : r = a * b := by
  unfold mul at h
  split at h
  · next hzero =>
      cases h
      rcases hzero with rfl | rfl
      · exact (Nat.zero_mul b).symm
      · exact (Nat.mul_zero a).symm
  · exact eq_of_sized h

theorem eq_of_div (h : div a b = .ok r) : r = a / b := by
  unfold div at h
  split at h
  · cases h
  · cases h
    rfl

theorem eq_of_shl (h : shl n bits = .ok r) : r = n * 2 ^ bits := by
  unfold shl at h
  split at h
  · cases h
  · exact eq_of_sized h

theorem eq_of_powLoop : ∀ {result base r : Nat},
    powLoop result base exponent = .ok r → r = result * base ^ exponent := by
  induction exponent using Nat.strongRecOn with
  | ind exponent ih =>
    intro result base r h
    by_cases hzero : exponent = 0
    · rw [powLoop, if_pos hzero] at h
      cases h
      rw [hzero, Nat.pow_zero, Nat.mul_one]
    · rw [powLoop, if_neg hzero] at h
      obtain ⟨product, hproduct, h⟩ := ok_of_bind h
      have hbit : product = result * base ^ (exponent % 2) := by
        unfold mulBit at hproduct
        split at hproduct
        · next hodd => rw [eq_of_mul hproduct, hodd, Nat.pow_one]
        · next heven =>
            cases hproduct
            rw [show exponent % 2 = 0 by omega, Nat.pow_zero, Nat.mul_one]
      split at h
      · next hlast =>
          cases h
          rw [hbit, show exponent % 2 = exponent by omega]
      · obtain ⟨square, hsquare, h⟩ := ok_of_bind h
        rw [ih _ (Nat.div_lt_self (by omega) (by decide)) h, hbit, eq_of_mul hsquare,
          ← Nat.pow_two, ← Nat.pow_mul, Nat.mul_assoc, ← Nat.pow_add, Nat.mod_add_div]

theorem eq_of_pow (h : pow base exponent = .ok r) : r = base ^ exponent :=
  (eq_of_powLoop h).trans (Nat.one_mul _)

/-! ## Sizes -/

theorem limbs_le {k : Nat} (h : n ≤ 2 ^ k) : limbs n ≤ k / 32 + 1 := by
  have hsize : n.size ≤ k + 1 :=
    Nat.size_le.2 (Nat.lt_of_le_of_lt h (Nat.pow_lt_pow_right (by decide) (Nat.lt_succ_self k)))
  unfold limbs
  omega

theorem sized_eq (h : count ≤ maxLimbs) : sized count n = .ok n :=
  if_neg (Nat.not_lt.2 h)

/-- Values of so many bits together. -/
theorem mul_eq (ha : a ≤ 2 ^ i) (hb : b ≤ 2 ^ j) (h : i + j ≤ 131008) : mul a b = .ok (a * b) := by
  have hlimbs := limbs_le ha
  have hlimbs' := limbs_le hb
  rw [mul]
  split
  · next hzero =>
      rcases hzero with rfl | rfl
      · rw [Nat.zero_mul]
      · rw [Nat.mul_zero]
  · refine sized_eq ?_
    unfold maxLimbs
    omega

theorem add_eq (h : a + b ≤ 2 ^ i) (hi : i ≤ 131008) : add a b = .ok (a + b) := by
  have hlimbs := limbs_le h
  refine sized_eq ?_
  unfold maxLimbs
  omega

theorem shl_eq (h : n * 2 ^ bits ≤ 2 ^ i) (hbits : bits ≤ 131008) (hi : i ≤ 131008) :
    shl n bits = .ok (n * 2 ^ bits) := by
  have hlimbs := limbs_le h
  have hshort : ¬ maxLimbs * 32 < bits := by
    unfold maxLimbs
    omega
  rw [shl, if_neg hshort]
  refine sized_eq ?_
  unfold maxLimbs
  omega

theorem div_eq (hb : b ≠ 0) : div a b = .ok (a / b) := if_neg hb

theorem powLoop_eq : ∀ {result base i j : Nat}, result ≤ 2 ^ i → base ≤ 2 ^ j →
    i + j * exponent ≤ 131008 → powLoop result base exponent = .ok (result * base ^ exponent) := by
  induction exponent using Nat.strongRecOn with
  | ind exponent ih =>
    intro result base i j hresult hbase hbits
    by_cases hzero : exponent = 0
    · rw [powLoop, if_pos hzero, hzero, Nat.pow_zero, Nat.mul_one]
    · have hone : j * 1 ≤ j * exponent := Nat.mul_le_mul_left j (Nat.one_le_iff_ne_zero.2 hzero)
      have hproduct : mulBit result base exponent = .ok (result * base ^ (exponent % 2)) := by
        unfold mulBit
        split
        · next hodd => rw [mul_eq hresult hbase (by omega), hodd, Nat.pow_one]
        · next heven => rw [show exponent % 2 = 0 by omega, Nat.pow_zero, Nat.mul_one]
      have hsplit : exponent % 2 + 2 * (exponent / 2) = exponent := Nat.mod_add_div exponent 2
      rw [powLoop, if_neg hzero, hproduct]
      change (if exponent / 2 = 0 then Except.ok (result * base ^ (exponent % 2))
        else mul base base >>= fun square =>
          powLoop (result * base ^ (exponent % 2)) square (exponent / 2)) = _
      split
      · next hlast => rw [show exponent % 2 = exponent by omega]
      · next hmore =>
          have htwo : j * 2 ≤ j * exponent := Nat.mul_le_mul_left j (by omega)
          have hbits' : i + j * (exponent % 2) + (j + j) * (exponent / 2) ≤ 131008 := by
            have hsum : j * (exponent % 2) + (j + j) * (exponent / 2) = j * exponent := by
              rw [← Nat.two_mul, Nat.mul_comm 2 j, Nat.mul_assoc, ← Nat.mul_add, hsplit]
            omega
          rw [mul_eq hbase hbase (by omega)]
          have hresult' : result * base ^ (exponent % 2) ≤ 2 ^ (i + j * (exponent % 2)) := by
            rw [Nat.pow_add, Nat.pow_mul]
            exact Nat.mul_le_mul hresult (Nat.pow_le_pow_left hbase _)
          have hbase' : base * base ≤ 2 ^ (j + j) := by
            rw [Nat.pow_add]
            exact Nat.mul_le_mul hbase hbase
          refine (ih _ (Nat.div_lt_self (by omega) (by decide)) hresult' hbase' hbits').trans ?_
          rw [← Nat.pow_two, ← Nat.pow_mul, Nat.mul_assoc, ← Nat.pow_add, hsplit]

theorem pow_eq (hbase : base ≤ 2 ^ j) (h : j * exponent ≤ 131008) :
    pow base exponent = .ok (base ^ exponent) := by
  have hone : 1 ≤ 2 ^ 0 := Nat.le_refl 1
  rw [pow, powLoop_eq hone hbase (by omega), Nat.one_mul]

/-! ## The limit -/

theorem lt_of_limbs (n : Nat) : n < 2 ^ (32 * limbs n) := by
  refine Nat.lt_of_lt_of_le (Nat.lt_size_self n) (Nat.pow_le_pow_right (by decide) ?_)
  unfold limbs
  omega

/-- A product has at most so many limbs. -/
theorem mul_lt (h : mul a b = .ok r) : r < 2 ^ (32 * maxLimbs) := by
  unfold mul at h
  split at h
  · cases h
    exact Nat.two_pow_pos _
  · rw [sized] at h
    split at h
    · cases h
    · next hlimbs =>
        cases h
        refine Nat.lt_of_lt_of_le (Nat.mul_lt_mul'' (lt_of_limbs a) (lt_of_limbs b)) ?_
        rw [← Nat.pow_add]
        exact Nat.pow_le_pow_right (by decide) (by omega)

theorem powLoop_lt : ∀ {result base r : Nat}, result < 2 ^ (32 * maxLimbs) →
    powLoop result base exponent = .ok r → r < 2 ^ (32 * maxLimbs) := by
  induction exponent using Nat.strongRecOn with
  | ind exponent ih =>
    intro result base r hresult h
    by_cases hzero : exponent = 0
    · rw [powLoop, if_pos hzero] at h
      cases h
      exact hresult
    · rw [powLoop, if_neg hzero] at h
      obtain ⟨product, hproduct, h⟩ := ok_of_bind h
      have hlt : product < 2 ^ (32 * maxLimbs) := by
        unfold mulBit at hproduct
        split at hproduct
        · exact mul_lt hproduct
        · cases hproduct
          exact hresult
      split at h
      · cases h
        exact hlt
      · obtain ⟨square, -, h⟩ := ok_of_bind h
        exact ih _ (Nat.div_lt_self (by omega) (by decide)) hlt h

theorem pow_lt (h : pow base exponent = .ok r) : r < 2 ^ (32 * maxLimbs) :=
  powLoop_lt (Nat.one_lt_two_pow (by decide)) h

end NapiVm.BigNat
