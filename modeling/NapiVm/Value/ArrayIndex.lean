import Mathlib.Data.List.Basic
import Mathlib.Tactic.IntervalCases

/-!
# Array indices as property keys

Arrays keep sparse elements and all their attributes under the decimal key of
the index.  `array_index` reads such a key back: it accepts exactly the canonical
decimal form of the numbers below `2^32 - 1`.

* `arrayIndex_indexKey` — every array index is read back from its own key.
* `arrayIndex_eq_some` — no other key denotes it.
* `indexKey_injective` — two indices never share a key.
-/

namespace NapiVm

/-- The digit loop of `array_index`.  A character stands for the bytes the source
looks at: a character of several bytes is no digit, and neither are its bytes. -/
def arrayIndexDigits (index : Nat) : List Char → Option Nat
  | [] => some index
  | c :: cs =>
    if c.isDigit then
      let index := index * 10 + (c.toNat - '0'.toNat)
      if 2 ^ 32 - 1 ≤ index then none else arrayIndexDigits index cs
    else none

/-- `array_index`: the index a canonical decimal key denotes. -/
def arrayIndex (key : String) : Option Nat :=
  let bytes := key.toList
  if bytes.isEmpty || decide (10 < bytes.length) then none
  else if decide (1 < bytes.length) && bytes.head? == some '0' then none
  else arrayIndexDigits 0 bytes

/-- `index.to_string()`. -/
def indexKey (index : Nat) : String := index.repr

theorem ofDigitChars_le (cs : List Char) (n : Nat) : n ≤ Nat.ofDigitChars 10 cs n := by
  induction cs generalizing n with
  | nil => simp
  | cons c cs ih =>
    rw [Nat.ofDigitChars_cons]
    exact Nat.le_trans (by omega) (ih _)

variable {cs : List Char} {n m : Nat}

/-- The loop computes the number its digits denote, as long as that is an index. -/
theorem arrayIndexDigits_eq (hd : ∀ c ∈ cs, c.isDigit = true)
    (h : Nat.ofDigitChars 10 cs n < 2 ^ 32 - 1) :
    arrayIndexDigits n cs = some (Nat.ofDigitChars 10 cs n) := by
  induction cs generalizing n with
  | nil => simp [arrayIndexDigits]
  | cons c cs ih =>
    have hc : c.isDigit = true := hd c (by simp)
    have hcomm : n * 10 + (c.toNat - '0'.toNat) = 10 * n + (c.toNat - '0'.toNat) := by
      rw [Nat.mul_comm]
    rw [Nat.ofDigitChars_cons] at h ⊢
    have hsmall : ¬ 2 ^ 32 - 1 ≤ 10 * n + (c.toNat - '0'.toNat) := by
      have := ofDigitChars_le cs (10 * n + (c.toNat - '0'.toNat))
      omega
    rw [arrayIndexDigits]
    simp only [hc, if_true, hcomm, hsmall, if_false]
    exact ih (fun c' hc' => hd c' (List.mem_cons_of_mem c hc')) h

/-- Decimal notation has no leading zero, except for zero itself. -/
theorem head_toDigits (h : 0 < n) : (Nat.toDigits 10 n).head? ≠ some '0' := by
  induction n using Nat.strongRecOn with
  | ind n ih =>
    rw [Nat.toDigits_eq_if (by decide)]
    split
    · rename_i hlt
      simp only [List.head?_cons, ne_eq, Option.some.injEq]
      interval_cases n <;> decide
    · rename_i hge
      have hpos : 0 < n / 10 := by omega
      rw [List.head?_append_of_ne_nil _ Nat.toDigits_ne_nil]
      exact ih (n / 10) (by omega) hpos

/-- **An array index is read back from its key.** -/
theorem arrayIndex_indexKey (h : n < 2 ^ 32 - 1) : arrayIndex (indexKey n) = some n := by
  have hlist : (indexKey n).toList = Nat.toDigits 10 n := Nat.toList_repr
  have hne : Nat.toDigits 10 n ≠ [] := Nat.toDigits_ne_nil
  have hlen : (Nat.toDigits 10 n).length ≤ 10 :=
    (Nat.length_toDigits_le_iff (by decide) (by decide)).2 (by omega)
  have hzero : ¬ (1 < (Nat.toDigits 10 n).length ∧ (Nat.toDigits 10 n).head? = some '0') := by
    rintro ⟨hlong, hhead⟩
    by_cases hn : 10 ≤ n
    · exact head_toDigits (by omega) hhead
    · rw [Nat.toDigits_of_lt_base (by omega)] at hlong
      simp at hlong
  have hvalue : Nat.ofDigitChars 10 (Nat.toDigits 10 n) 0 = n := Nat.ofDigitChars_ten_toDigits
  have hdigits : ∀ c ∈ Nat.toDigits 10 n, c.isDigit = true :=
    fun c hc => Nat.isDigit_of_mem_toDigits (by decide) (by decide) hc
  unfold arrayIndex
  simp only [hlist]
  rw [if_neg (by simp [hne, hlen]), if_neg (by simpa using hzero)]
  rw [arrayIndexDigits_eq hdigits (by rw [hvalue]; exact h), hvalue]

/-- Two indices never share a key. -/
theorem indexKey_injective (h : indexKey m = indexKey n) : m = n := by
  have hlist : Nat.toDigits 10 m = Nat.toDigits 10 n := by
    rw [← Nat.toList_repr, ← Nat.toList_repr]
    exact congrArg String.toList h
  rw [← Nat.ofDigitChars_ten_toDigits (n := m), hlist, Nat.ofDigitChars_ten_toDigits]

/-- A digit character is the digit of its value. -/
theorem digitChar_of_isDigit {c : Char} (h : c.isDigit = true) :
    c.toNat - '0'.toNat < 10 ∧ Nat.digitChar (c.toNat - '0'.toNat) = c := by
  have hrange : 48 ≤ c.toNat ∧ c.toNat ≤ 57 := by
    simpa [Char.isDigit, Char.le_def, UInt32.le_iff_toNat_le] using h
  have hlt : c.toNat - '0'.toNat < 10 := by
    show c.toNat - 48 < 10
    omega
  refine ⟨hlt, Char.toNat_inj.1 ?_⟩
  rw [Nat.toNat_digitChar_of_lt_ten hlt]
  show 48 + (c.toNat - 48) = c.toNat
  omega

/-- The loop extends the decimal notation of a positive number digit by digit. -/
theorem toDigits_arrayIndexDigits (hn : 0 < n) (h : arrayIndexDigits n cs = some m) :
    Nat.toDigits 10 m = Nat.toDigits 10 n ++ cs := by
  induction cs generalizing n with
  | nil =>
    obtain rfl : n = m := by simpa [arrayIndexDigits] using h
    simp
  | cons c cs ih =>
    rw [arrayIndexDigits] at h
    by_cases hc : c.isDigit = true
    · obtain ⟨hlt, hchar⟩ := digitChar_of_isDigit hc
      simp only [hc, if_true] at h
      split at h
      · simp at h
      · rw [ih (by omega) h, Nat.mul_comm, ← Nat.toDigits_append_toDigits (by decide) hn hlt,
          Nat.toDigits_of_lt_base hlt, hchar]
        simp
    · simp [hc] at h

/-- **Only the canonical key denotes an index.** -/
theorem arrayIndex_eq_some {key : String} (h : arrayIndex key = some n) : key = indexKey n := by
  have hlist : key.toList = Nat.toDigits 10 n := by
    unfold arrayIndex at h
    simp only at h
    split at h
    · simp at h
    · split at h
      · simp at h
      · next hempty hzero =>
          cases hk : key.toList with
          | nil => simp [hk] at hempty
          | cons c cs =>
            rw [hk, arrayIndexDigits] at h
            by_cases hc : c.isDigit = true
            · obtain ⟨hlt, hchar⟩ := digitChar_of_isDigit hc
              simp only [hc, if_true, Nat.zero_mul, Nat.zero_add] at h
              split at h
              · simp at h
              · by_cases hpos : 0 < c.toNat - '0'.toNat
                · rw [toDigits_arrayIndexDigits hpos h, Nat.toDigits_of_lt_base hlt, hchar]
                  rfl
                · -- a leading zero is the whole key
                  have hz : c = '0' := by
                    rw [← hchar, show c.toNat - '0'.toNat = 0 by omega]
                    rfl
                  have hnil : cs = [] := by
                    rw [hk, hz] at hzero
                    by_contra hne
                    have := List.length_pos_iff.2 hne
                    simp [this] at hzero
                  subst hz hnil
                  obtain rfl : 0 = n := by simpa [arrayIndexDigits] using h
                  rfl
            · simp [hc] at h
  rw [indexKey, Nat.repr_eq_ofList_toDigits, ← hlist, String.ofList_toList]

/-- A key that starts with an underscore denotes no index. -/
theorem indexKey_ne_underscore (n : Nat) (rest : String) : indexKey n ≠ "_" ++ rest := by
  intro h
  have hmem : '_' ∈ Nat.toDigits 10 n := by
    rw [← Nat.toList_repr, show n.repr = "_" ++ rest from h]
    simp
  exact Nat.underscore_not_in_toDigits hmem

end NapiVm
