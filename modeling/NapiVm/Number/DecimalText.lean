import NapiVm.Number.Format
import Mathlib.Data.List.Induction

/-!
# Texts of decimal digits

* `IsInteger`, `Decimals`, `Exponential` — the integer that a text is made of, and where it has its
  point.
* `length_eq` — how many digits an integer has.
* `fixedText_decimals`, `precisionText_decimals`, `exponentialDigits_exponential` — what the
  methods make of digits.
-/

namespace NapiVm.NumberText

open List

/-! ## Texts -/

/-- A text of digits, without zeros before them. -/
def IsInteger (text : List Char) (n : ℕ) : Prop :=
  text ≠ [] ∧ text.all (isDigit 10) = true ∧ denoted 10 text = n ∧
    (text.head? = some '0' → text = ['0'])

/-- What stands behind the digits of the integral part. -/
def pointed (back : List Char) : List Char := if back = [] then [] else '.' :: back

/-- The digits of an integer, so many of them behind the point. -/
def Decimals (text : List Char) (n decimals : ℕ) : Prop :=
  ∃ front back : List Char, text = front ++ pointed back ∧ back.length = decimals ∧ front ≠ [] ∧
    (front.head? = some '0' → front = ['0']) ∧ (front ++ back).all (isDigit 10) = true ∧
      denoted 10 (front ++ back) = n

/-- The digits of an integer, one of them before the point, and an exponent. -/
def Exponential (text : List Char) (n precision : ℕ) (exponent : ℤ) : Prop :=
  ∃ (first : Char) (back power : List Char),
    text = first :: pointed back ++ 'e' :: (if exponent < 0 then '-' else '+') :: power ∧
      back.length + 1 = precision ∧ (first :: back).all (isDigit 10) = true ∧
        denoted 10 (first :: back) = n ∧ IsInteger power exponent.natAbs

theorem denoted_concat (radix : ℕ) (text : List Char) (c : Char) :
    denoted radix (text ++ [c]) = denoted radix text * radix + (toDigit c radix).getD 0 := by
  rw [denoted, values, map_append, foldl_append]
  rfl

theorem denoted_append (radix : ℕ) (front back : List Char) : denoted radix (front ++ back) =
    denoted radix front * radix ^ back.length + denoted radix back := by
  induction back using reverseRecOn with
  | nil =>
    rw [append_nil, length_nil, Nat.pow_zero, Nat.mul_one]
    rfl
  | append_singleton back c ih =>
    rw [← append_assoc, denoted_concat, ih, denoted_concat, length_append,
      length_singleton, Nat.pow_succ, Nat.add_mul, Nat.mul_assoc, Nat.add_assoc]

theorem denoted_zeros (k : ℕ) : denoted 10 (replicate k '0') = 0 := by
  induction k with
  | zero => rfl
  | succ k ih => rw [replicate_succ', denoted_concat, ih]; rfl

theorem all_digits_zeros (k : ℕ) : (replicate k '0').all (isDigit 10) = true := by
  refine all_eq_true.2 fun c hc => ?_
  rw [(mem_replicate.1 hc).2]
  decide

section Digits

variable {text : List Char} {n : ℕ}

theorem denoted_lt (hdigits : text.all (isDigit 10) = true) :
    denoted 10 text < 10 ^ text.length := by
  induction text using reverseRecOn with
  | nil => exact Nat.one_pos
  | append_singleton text c ih =>
    rw [all_append, Bool.and_eq_true] at hdigits
    have hlt := ih hdigits.1
    have hdigit : (toDigit c 10).getD 0 < 10 :=
      values_lt (by decide) _ (mem_map_of_mem (mem_singleton.2 rfl))
    rw [denoted_concat, length_append, length_singleton, Nat.pow_succ]
    omega

theorem eq_zero_of_toDigit {c : Char} (hdigit : isDigit 10 c = true)
    (hzero : (toDigit c 10).getD 0 = 0) : c = '0' := by
  obtain ⟨digit, hsome⟩ := Option.isSome_iff_exists.1 hdigit
  rw [hsome, Option.getD_some] at hzero
  rw [toDigit] at hsome
  simp only [Option.ite_none_right_eq_some, Option.some.injEq] at hsome
  have hvalue : c.toNat = 48 := by
    have h := hsome.2
    split at h
    · omega
    · split at h
      · omega
      · split at h <;> omega
  rw [← Char.ofNat_toNat c, hvalue]

theorem le_denoted (h : IsInteger text n) (hn : n ≠ 0) : 10 ^ (text.length - 1) ≤ n := by
  obtain ⟨hne, hdigits, hvalue, hzero⟩ := h
  cases text with
  | nil => exact absurd rfl hne
  | cons c rest =>
    rw [all_cons, Bool.and_eq_true] at hdigits
    have hfirst : (toDigit c 10).getD 0 ≠ 0 := by
      intro hc
      have hc' := eq_zero_of_toDigit hdigits.1 hc
      rw [hzero (congrArg some hc')] at hvalue
      exact hn hvalue.symm
    rw [← hvalue, ← singleton_append, denoted_append]
    refine Nat.le_add_right_of_le ?_
    rw [length_append, length_singleton, Nat.add_sub_cancel_left]
    have hone : denoted 10 [c] = (toDigit c 10).getD 0 := Nat.zero_add _
    exact Nat.le_mul_of_pos_left _ (Nat.pos_of_ne_zero (hone ▸ hfirst))

theorem length_eq (h : IsInteger text n) {precision : ℕ} (hprecision : 0 < precision)
    (hlow : 10 ^ (precision - 1) ≤ n) (hhigh : n < 10 ^ precision) :
    text.length = precision := by
  have hlt := denoted_lt h.2.1
  have hle := le_denoted h (Nat.ne_of_gt (Nat.lt_of_lt_of_le (Nat.pow_pos (by decide)) hlow))
  rw [h.2.2.1] at hlt
  have hlow' := (Nat.pow_lt_pow_iff_right (by decide)).1 (hlow.trans_lt hlt)
  have hhigh' := (Nat.pow_lt_pow_iff_right (by decide)).1 (hle.trans_lt hhigh)
  omega

end Digits

theorem toDecimal_integer (n : ℕ) : IsInteger (toDecimal n) n := by
  obtain ⟨digits, htext, hne, -, hdigits, hvalue, hzero⟩ :=
    reverse_digits (show 2 ≤ 10 by decide) (by decide) n
  rw [IsInteger, toDecimal, htext]
  exact ⟨hne, hdigits, hvalue, hzero⟩

variable {n point : ℕ} {text : List Char}

theorem toDecimal_mul_ten (hn : n ≠ 0) : toDecimal (10 * n) = toDecimal n ++ ['0'] := by
  have hne : 10 * n ≠ 0 := by omega
  have hgoes : ¬ (10 * n = 0 ∨ 10 < 2) := by omega
  rw [toDecimal, if_neg hne, digitLoop, if_neg hgoes, Nat.mul_mod_right,
    Nat.mul_div_cancel_left _ (by decide), reverse_cons, toDecimal, if_neg hn]
  rfl

/-- Digits with the point behind the first ones. -/
theorem decimals_split (hpos : 0 < point) (hle : point ≤ text.length)
    (hdigits : text.all (isDigit 10) = true) (hzero : text.head? = some '0' → point = 1) :
    Decimals (text.take point ++ pointed (text.drop point)) (denoted 10 text)
      (text.length - point) := by
  refine ⟨text.take point, text.drop point, rfl, length_drop .., ?_, ?_, ?_, ?_⟩
  · rw [Ne, take_eq_nil_iff]
    rintro (h | rfl)
    · omega
    · exact Nat.not_lt.2 hle hpos
  · intro hhead
    rw [head?_take, if_neg (by omega)] at hhead
    rw [hzero hhead]
    cases text with
    | nil => cases hhead
    | cons c text =>
      cases Option.some.inj hhead
      rfl
  · rw [take_append_drop]
    exact hdigits
  · rw [take_append_drop]

theorem decimals_of_integer (h : IsInteger text n) : Decimals text n 0 := by
  obtain ⟨hne, hdigits, hvalue, hzero⟩ := h
  exact ⟨text, [], (append_nil text).symm, rfl, hne, hzero,
    by rw [append_nil]; exact hdigits, by rw [append_nil]; exact hvalue⟩

/-- A point with digits behind it. -/
theorem decimals_point {decimals : ℕ} (hpos : 0 < point)
    (hlength : text.length = point + decimals) (hdecimals : decimals ≠ 0)
    (hdigits : text.all (isDigit 10) = true) (hzero : text.head? = some '0' → point = 1) :
    Decimals (text.take point ++ '.' :: text.drop point) (denoted 10 text) decimals := by
  have hsplit := decimals_split hpos (by omega) hdigits hzero
  have hback : text.drop point ≠ [] := by
    rw [Ne, drop_eq_nil_iff]
    omega
  rw [pointed, if_neg hback, hlength, Nat.add_sub_cancel_left] at hsplit
  exact hsplit

theorem fixedText_decimals (n digits : ℕ) : Decimals (fixedText n digits) n digits := by
  have hinteger := toDecimal_integer n
  rw [fixedText]
  split
  · next hnone => exact hnone ▸ decimals_of_integer hinteger
  · next hsome =>
      obtain ⟨hne, hdigits, hvalue, hzero⟩ := hinteger
      generalize toDecimal n = text at hne hdigits hvalue hzero
      have hpos : 0 < text.length := length_pos_iff.2 hne
      -- zeros are written only where the digits do not reach over the point
      have hhead : (replicate (digits + 1 - text.length) '0' ++ text).head? = some '0' →
          digits + 1 - text.length + text.length - digits = 1 := by
        intro hhead
        by_cases hlong : digits < text.length
        · rw [show digits + 1 - text.length = 0 by omega] at hhead
          have hone : text.length = 1 := congrArg length (hzero hhead)
          omega
        · omega
      have hlength : (replicate (digits + 1 - text.length) '0' ++ text).length =
          digits + 1 - text.length + text.length := by
        rw [length_append, length_replicate]
      have hpoint := decimals_point (by omega) (hlength.trans (by omega)) hsome
        (by rw [all_append, hdigits, all_digits_zeros]; rfl) hhead
      rw [denoted_append, denoted_zeros, Nat.zero_mul, Nat.zero_add, hvalue, ← hlength] at hpoint
      exact hpoint

theorem zeroText_decimals (decimals : ℕ) : Decimals (zeroText decimals) 0 decimals := by
  rw [zeroText]
  split
  · next hnone =>
      rw [hnone]
      exact decimals_of_integer (toDecimal_integer 0)
  · next hsome =>
      have hdigits := all_digits_zeros (decimals + 1)
      have hpoint := decimals_point Nat.one_pos
        (length_replicate.trans (Nat.add_comm _ _)) hsome hdigits fun _ => rfl
      rw [denoted_zeros] at hpoint
      exact hpoint

section Precision

variable {text : List Char} {n precision : ℕ} {exponent : ℤ}

theorem exponentialDigits_exponential (hdigits : text.all (isDigit 10) = true)
    (hlength : text.length = precision) (hprecision : 0 < precision) :
    Exponential (exponentialDigits text exponent) (denoted 10 text) precision exponent := by
  cases text with
  | nil =>
    rw [← hlength] at hprecision
    exact absurd hprecision (Nat.lt_irrefl 0)
  | cons first back =>
    refine ⟨first, back, toDecimal exponent.natAbs, ?_, hlength, hdigits, rfl, toDecimal_integer _⟩
    rw [exponentialDigits, signed, pointed]
    cases back with
    | nil => rfl
    | cons c back => rfl

variable (hinteger : IsInteger text n) (hlength : text.length = precision)
include hinteger hlength

theorem precisionText_decimals (hlow : -6 ≤ exponent) (hhigh : exponent < precision) :
    Decimals (precisionText text precision exponent) n (precision - 1 - exponent).toNat := by
  have hsmall : ¬ (exponent < -6 ∨ (precision : ℤ) ≤ exponent) := by omega
  rw [precisionText, if_neg hsmall]
  split
  · next hpos =>
      obtain ⟨k, rfl⟩ := Int.eq_ofNat_of_zero_le hpos
      dsimp only
      rw [Int.toNat_natCast]
      split
      · next hend =>
          rw [show k + 1 - text.length = 0 by omega, replicate_zero, append_nil,
            show (precision - 1 - (k : ℤ)).toNat = 0 by omega]
          exact decimals_of_integer hinteger
      · next hinside =>
          obtain ⟨hne, hdigits, hvalue, hzero⟩ := hinteger
          have hpoint := decimals_point (Nat.succ_pos k)
            (show text.length = k + 1 + (precision - 1 - (k : ℤ)).toNat by omega) (by omega)
            hdigits fun hhead => by
              have hone : text.length = 1 := congrArg length (hzero hhead)
              omega
          rw [hvalue] at hpoint
          exact hpoint
  · next hneg =>
      obtain ⟨hne, hdigits, hvalue, hzero⟩ := hinteger
      have hpos : 0 < text.length := length_pos_iff.2 hne
      generalize hzeros : (-exponent - 1).toNat = zeros
      have hall : ('0' :: (replicate zeros '0' ++ text)).all (isDigit 10) = true := by
        rw [all_cons, all_append, hdigits, all_digits_zeros]
        decide
      have hcount : ('0' :: (replicate zeros '0' ++ text)).length =
          1 + (precision - 1 - exponent).toNat := by
        rw [length_cons, length_append, length_replicate]
        omega
      have hpoint := decimals_point Nat.one_pos hcount (by omega) hall fun _ => rfl
      rw [← cons_append, ← replicate_succ, denoted_append, denoted_zeros, Nat.zero_mul,
        Nat.zero_add, hvalue] at hpoint
      exact hpoint

end Precision

end NapiVm.NumberText
