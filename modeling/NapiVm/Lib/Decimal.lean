import NapiVm.Lib.Binary64

/-!
# Binary64 numbers in decimal

Magnitudes are counted in units of `2 ^ -1074`, which all of them are whole numbers of.

* `ofDecimal` — a decimal number, rounded to nearest, ties to even.
* `shortest` — the fewest digits that a number can be read back from, and the closest of those.
-/

namespace Binary64

/-! ## Rounding -/

/-- How far below one the units are. -/
def precision : Nat := 1074

/-- The units of one. -/
def one : Nat := 2 ^ precision

theorem one_pos : 0 < one := Nat.two_pow_pos precision

/-- The units of a pattern without its sign.  They go on above the largest number, so that what is
halfway to it is rounded up. -/
def units (b : Nat) : Nat :=
  if b / 2 ^ 52 = 0 then b % 2 ^ 52 else (2 ^ 52 + b % 2 ^ 52) * 2 ^ (b / 2 ^ 52 - 1)

theorem units_lt_succ (b : Nat) : units b < units (b + 1) := by
  have hlow : b % 2 ^ 52 < 2 ^ 52 := Nat.mod_lt _ (by decide)
  have hpos : 0 < 2 ^ (b / 2 ^ 52 - 1) := Nat.pow_pos (by decide)
  by_cases hcarry : b % 2 ^ 52 + 1 = 2 ^ 52
  · -- the fraction is full, and the exponent goes up
    have hdiv : (b + 1) / 2 ^ 52 = b / 2 ^ 52 + 1 := by omega
    have hmod : (b + 1) % 2 ^ 52 = 0 := by omega
    rw [units, units, hdiv, hmod, if_neg (Nat.succ_ne_zero _), Nat.add_sub_cancel, Nat.add_zero]
    split
    next hzero =>
      rw [hzero, pow_zero, Nat.mul_one]
      exact hlow
    next hne =>
      obtain ⟨e, he⟩ := Nat.exists_eq_succ_of_ne_zero hne
      have hlt : 2 ^ 52 + b % 2 ^ 52 < 2 ^ 52 * 2 := by omega
      calc (2 ^ 52 + b % 2 ^ 52) * 2 ^ (b / 2 ^ 52 - 1) = (2 ^ 52 + b % 2 ^ 52) * 2 ^ e := by
            rw [he, Nat.succ_sub_one]
        _ < 2 ^ 52 * 2 * 2 ^ e := Nat.mul_lt_mul_of_pos_right hlt (Nat.pow_pos (by decide))
        _ = 2 ^ 52 * 2 ^ (b / 2 ^ 52) := by rw [he, Nat.mul_assoc, ← pow_succ']
  · have hdiv : (b + 1) / 2 ^ 52 = b / 2 ^ 52 := by omega
    have hmod : (b + 1) % 2 ^ 52 = b % 2 ^ 52 + 1 := by omega
    rw [units, units, hdiv, hmod]
    split
    · omega
    · exact Nat.mul_lt_mul_of_pos_right (by omega) hpos

theorem units_strictMono : StrictMono units := strictMono_nat_of_lt_succ units_lt_succ

variable {m b : Nat}

/-- The units of a number without a fraction. -/
theorem units_of_magnitude? {b : UInt64} (h : magnitude? b = some m) :
    units (b.toNat % 2 ^ 63) = m * one := by
  have hexponent : b.toNat % 2 ^ 63 / 2 ^ 52 = exponent b := by
    rw [exponent]
    omega
  have hfraction : b.toNat % 2 ^ 63 % 2 ^ 52 = fraction b := by
    rw [fraction]
    omega
  rw [units, hexponent, hfraction, one, precision]
  rw [magnitude?] at h
  by_cases hmax : exponent b = 2047
  · rw [if_pos hmax] at h
    cases h
  rw [if_neg hmax] at h
  by_cases hzero : exponent b = 0
  · rw [if_pos hzero] at h
    rw [if_pos hzero]
    by_cases hf : fraction b = 0
    · rw [if_pos hf] at h
      cases h
      rw [hf, Nat.zero_mul]
    · rw [if_neg hf] at h
      cases h
  rw [if_neg hzero] at h
  rw [if_neg hzero]
  by_cases hlarge : 1075 ≤ exponent b
  · rw [if_pos hlarge] at h
    rw [← Option.some.inj h]
    have hsplit : exponent b - 1 = exponent b - 1075 + 1074 := by omega
    rw [hsplit, pow_add]
    exact (Nat.mul_assoc _ _ _).symm
  · rw [if_neg hlarge] at h
    by_cases hmod : (2 ^ 52 + fraction b) % 2 ^ (1075 - exponent b) = 0
    · rw [if_pos hmod] at h
      rw [← Option.some.inj h]
      obtain ⟨q, hq⟩ := Nat.dvd_of_mod_eq_zero hmod
      have hsum : 1075 - exponent b + (exponent b - 1) = 1074 := by omega
      rw [hq, Nat.mul_div_cancel_left _ (Nat.two_pow_pos _), Nat.mul_comm _ q, Nat.mul_assoc,
        ← pow_add, hsum]
    · rw [if_neg hmod] at h
      cases h

/-- The last number with a property that holds up to it, bit by bit from above. -/
def lastBelow (p : Nat → Bool) : Nat → Nat → Nat
  | 0, b => b
  | n + 1, b => if p (b + 2 ^ n) then lastBelow p n (b + 2 ^ n) else lastBelow p n b

theorem lastBelow_eq {p : Nat → Bool} (hp : ∀ c, p c = true ↔ c ≤ m) {n : Nat} (hle : b ≤ m)
    (hlt : m < b + 2 ^ n) : lastBelow p n b = m := by
  induction n generalizing b with
  | zero =>
    rw [pow_zero] at hlt
    rw [lastBelow]
    omega
  | succ n ih =>
    rw [pow_succ] at hlt
    rw [lastBelow]
    split
    next h => exact ih ((hp _).1 h) (by omega)
    next h =>
      have hnot : ¬ b + 2 ^ n ≤ m := fun hle => h ((hp _).2 hle)
      exact ih hle (by omega)

/-- The pattern that is nearest to a fraction. -/
def nearest (num den : Nat) : Nat :=
  let b := lastBelow (fun c => units c * den ≤ num * one) 63 0
  let middle := (units b + units (b + 1)) * den
  if 2 * (num * one) < middle ∨ 2 * (num * one) = middle ∧ b % 2 = 0 then b else b + 1

/-- What is a number is rounded to itself. -/
theorem nearest_units {num den : Nat} (hm : m < 2 ^ 63) (hden : 0 < den)
    (h : num * one = units m * den) : nearest num den = m := by
  have hlast : lastBelow (fun c => units c * den ≤ num * one) 63 0 = m := by
    refine lastBelow_eq (fun c => ?_) (Nat.zero_le m) (by omega)
    rw [decide_eq_true_eq, h, Nat.mul_le_mul_right_iff hden]
    exact units_strictMono.le_iff_le
  have hmiddle : 2 * (units m * den) < (units m + units (m + 1)) * den := by
    have hlt := Nat.mul_lt_mul_of_pos_right (units_lt_succ m) hden
    rw [Nat.add_mul]
    omega
  rw [nearest, hlast, h, if_pos (.inl hmiddle)]

/-- The pattern nearest to `s * 10 ^ e`. -/
def nearestDecimal (s : Nat) (e : Int) : Nat :=
  if 0 ≤ e then nearest (s * 10 ^ e.toNat) 1 else nearest s (10 ^ (-e).toNat)

theorem nearestDecimal_zero (e : Int) : nearestDecimal 0 e = 0 := by
  have hunits : units 0 = 0 := rfl
  rw [nearestDecimal]
  split
  · exact nearest_units (Nat.two_pow_pos 63) Nat.one_pos (by rw [hunits, Nat.zero_mul, Nat.zero_mul,
      Nat.zero_mul])
  · exact nearest_units (Nat.two_pow_pos 63) (Nat.pow_pos (by decide)) (by rw [hunits,
      Nat.zero_mul, Nat.zero_mul])

/-- A decimal number with a sign; what is too large is infinite. -/
def ofDecimal (sign : Bool) (s : Nat) (e : Int) : UInt64 :=
  UInt64.ofNat ((if sign then 2 ^ 63 else 0) + min (nearestDecimal s e) (2047 * 2 ^ 52))

/-! ## Digits -/

/-- Where the decimal point stands, counted from the first digit. -/
def place (b : Nat) : Int :=
  if one ≤ units b then (Nat.log 10 (units b / one) : Nat) + 1
  else 1 - (Nat.clog 10 ((one + units b - 1) / units b) : Nat)

/-- A number as a fraction of `10 ^ e`. -/
def fraction10 (b : Nat) (e : Int) : Nat × Nat :=
  if 0 ≤ e then (units b, one * 10 ^ e.toNat) else (units b * 10 ^ (-e).toNat, one)

/-- Digits with an exponent are read back as the number. -/
def fits (b : Nat) (d : Nat × Int) : Bool := nearestDecimal d.1 d.2 = b

/-- One of two that fits. -/
def pick (b : Nat) (closer : Bool) (low high : Nat × Int) : Option (Nat × Int) :=
  if fits b low && fits b high then some (if closer then low else high)
  else if fits b low then some low
  else if fits b high then some high
  else none

/-- `k` digits that fit, if there are any: of the two that are next to the number, the closer one,
or else the even one. -/
def candidate (b k : Nat) : Option (Nat × Int) :=
  let e := place b - k
  let x := fraction10 b e
  let s := x.1 / x.2
  pick b (2 * x.1 < (2 * s + 1) * x.2 || 2 * x.1 = (2 * s + 1) * x.2 && s % 2 = 0) (s, e)
    (if s + 1 = 10 ^ k then (10 ^ (k - 1), e + 1) else (s + 1, e))

/-- The fewest digits, from `k` on. -/
def shortestFrom (b : Nat) : Nat → Nat → Option (Nat × Int)
  | 0, _ => none
  | n + 1, k => (candidate b k).or (shortestFrom b n (k + 1))

/-- The fewest digits, and the exponent of the last one. -/
def shortest (b : Nat) : Nat × Int := (shortestFrom b 1500 1).getD (0, 0)

theorem fits_pick {closer : Bool} {low high d : Nat × Int} (h : pick b closer low high = some d) :
    fits b d = true := by
  unfold pick at h
  split at h
  next hboth =>
    rw [Bool.and_eq_true] at hboth
    cases closer with
    | true =>
      cases h
      exact hboth.1
    | false =>
      cases h
      exact hboth.2
  · split at h
    next hlow =>
      cases h
      exact hlow
    · split at h
      next hhigh =>
        cases h
        exact hhigh
      · cases h

theorem pick_isSome {low : Nat × Int} (h : fits b low = true) (closer : Bool) (high : Nat × Int) :
    (pick b closer low high).isSome = true := by
  simp only [pick, h, Bool.true_and, if_true]
  split <;> rfl

/-- With digits down to the last unit the number is exact. -/
theorem candidate_isSome {k : Nat} (hb : b < 2 ^ 63) (hk : place b - k = -(precision : Int)) :
    (candidate b k).isSome = true := by
  have hten : 10 ^ precision = 5 ^ precision * one := by rw [one, ← Nat.mul_pow]
  have hexact : units b * 10 ^ precision / one = units b * 5 ^ precision := by
    rw [hten, ← Nat.mul_assoc, Nat.mul_div_cancel _ one_pos]
  have hneg : ¬ (0 : Int) ≤ -(precision : Int) := by decide
  have hfraction : fraction10 b (-(precision : Int)) = (units b * 10 ^ precision, one) := by
    rw [fraction10, if_neg hneg, Int.neg_neg, Int.toNat_natCast]
  unfold candidate
  dsimp only
  rw [hk, hfraction]
  refine pick_isSome (decide_eq_true ?_) _ _
  rw [hexact, nearestDecimal, if_neg hneg, Int.neg_neg, Int.toNat_natCast]
  exact nearest_units hb (Nat.pow_pos (by decide)) (by rw [Nat.mul_assoc, ← hten])

theorem shortestFrom_spec {n k k' : Nat} (hle : k ≤ k') (hlt : k' < k + n)
    (h : (candidate b k').isSome = true) : ∃ d, shortestFrom b n k = some d ∧ fits b d = true := by
  induction n generalizing k with
  | zero => omega
  | succ n ih =>
    rw [shortestFrom]
    cases hk : candidate b k with
    | some d => exact ⟨d, rfl, fits_pick hk⟩
    | none =>
      have hne : k ≠ k' := by
        rintro rfl
        rw [hk] at h
        cases h
      exact ih (by omega) (by omega)

theorem two_pow_le (n : Nat) : 2 ^ (3 * n) ≤ 10 ^ n := by
  rw [pow_mul]
  exact Nat.pow_le_pow_left (by decide) n

/-- More decimal places than a number has in front of its point, and zeros behind it. -/
def decimals : Nat := 360

theorem units_lt (hb : b < 2047 * 2 ^ 52) : units b < one * 10 ^ decimals := by
  have hlow : b % 2 ^ 52 < 2 ^ 52 := Nat.mod_lt _ (by decide)
  have hexponent : 53 + (b / 2 ^ 52 - 1) ≤ precision + 3 * decimals := by
    unfold precision decimals
    omega
  have hlt : units b < 2 ^ (53 + (b / 2 ^ 52 - 1)) := by
    rw [units, pow_add]
    split
    next hzero =>
      rw [hzero, Nat.zero_sub, pow_zero, Nat.mul_one]
      omega
    next => exact Nat.mul_lt_mul_of_pos_right (by omega) (Nat.two_pow_pos _)
  refine hlt.trans_le ((Nat.pow_le_pow_right (by decide) hexponent).trans ?_)
  rw [pow_add, one]
  exact Nat.mul_le_mul_left (2 ^ precision) (two_pow_le decimals)

theorem place_bounds (hb : b < 2047 * 2 ^ 52) : -400 < place b ∧ place b < 400 := by
  have hdecimals : decimals < 399 := by decide
  unfold place
  split
  next hone =>
    have hdiv : units b / one < 10 ^ decimals := by
      rw [Nat.div_lt_iff_lt_mul one_pos, Nat.mul_comm]
      exact units_lt hb
    have hlog : Nat.log 10 (units b / one) < decimals :=
      Nat.log_lt_of_lt_pow (Nat.div_pos hone one_pos).ne' hdiv
    omega
  next hone =>
    have hten : one ≤ 10 ^ decimals :=
      (Nat.pow_le_pow_right (by decide) (by decide : precision ≤ 3 * decimals)).trans
        (two_pow_le decimals)
    have hquotient : (one + units b - 1) / units b ≤ 10 ^ decimals := by
      revert hone hten
      generalize 10 ^ decimals = top
      generalize units b = u
      generalize one = o
      intro hone hten
      cases u with
      | zero => exact (Nat.div_zero _).trans_le (Nat.zero_le top)
      | succ v =>
        have hmul : v ≤ v * top := Nat.le_mul_of_pos_right v (by omega)
        refine Nat.div_le_of_le_mul ?_
        rw [Nat.add_one_mul]
        omega
    have hclog := Nat.clog_le_of_le_pow hquotient
    omega

/-- A finite number can be read back from its digits. -/
theorem nearestDecimal_shortest (hb : b < 2047 * 2 ^ 52) :
    nearestDecimal (shortest b).1 (shortest b).2 = b := by
  obtain ⟨hlow, hhigh⟩ := place_bounds hb
  have hprecision : precision = 1074 := rfl
  obtain ⟨k, hk⟩ := Int.eq_ofNat_of_zero_le (show 0 ≤ place b + precision by omega)
  have hsome := candidate_isSome (k := k) (hb.trans (by decide)) (by omega)
  obtain ⟨d, hd, hback⟩ := shortestFrom_spec (n := 1500) (show 1 ≤ k by omega) (by omega) hsome
  rw [shortest, hd]
  exact of_decide_eq_true hback

end Binary64
