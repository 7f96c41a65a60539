import Mathlib.Data.Nat.Digits.Lemmas
import NapiVm.BigInt.Basic
import NapiVm.Number.DecimalText

/-!
# Texts and words of integers

* `parse` — multiplies before it adds, each with its own limit.
* `toDecimal`, `toRadix` — the remainders of divisions by a small number.
* `codecs_iff` — what is read back.
-/

namespace NapiVm

open List
namespace BigInt

/-- From the last limb down; the remainder stays below the radix. -/
def divLimbs (radix : UInt32) : List UInt32 → List UInt32 × UInt64
  | [] => ([], 0)
  | limb :: limbs =>
    let rest := divLimbs radix limbs
    let current := (rest.2 <<< 32) ||| limb.toUInt64
    ((current / radix.toUInt64).toUInt32 :: rest.1, current % radix.toUInt64)

variable {radix : UInt32} {limbs : List UInt32}

theorem divLimbs_spec (hradix : 0 < radix.toNat) (limbs : List UInt32) :
    (divLimbs radix limbs).1.length = limbs.length ∧ (divLimbs radix limbs).2.toNat < radix.toNat ∧
      radix.toNat * magnitude (divLimbs radix limbs).1 + (divLimbs radix limbs).2.toNat =
        magnitude limbs := by
  induction limbs with
  | nil => exact ⟨rfl, hradix, rfl⟩
  | cons limb limbs ih =>
    obtain ⟨hlen, hlt, hvalue⟩ := ih
    have hlimb := limb.toNat_lt
    have hmax := radix.toNat_lt
    have hcurrent : (((divLimbs radix limbs).2 <<< 32) ||| limb.toUInt64).toNat =
        2 ^ 32 * (divLimbs radix limbs).2.toNat + limb.toNat := by
      have hshift : ((divLimbs radix limbs).2 <<< 32).toNat =
          2 ^ 32 * (divLimbs radix limbs).2.toNat := by
        rw [UInt64.toNat_shiftLeft, Nat.shiftLeft_eq, Nat.mul_comm]
        exact Nat.mod_eq_of_lt (by change 2 ^ 32 * _ < 2 ^ 64; omega)
      rw [UInt64.toNat_or, hshift, UInt32.toNat_toUInt64, Nat.two_pow_add_eq_or_of_lt hlimb]
    have hquotient : (2 ^ 32 * (divLimbs radix limbs).2.toNat + limb.toNat) / radix.toNat <
        2 ^ 32 := by
      rw [Nat.div_lt_iff_lt_mul hradix]
      have hmul := Nat.mul_le_mul_left (2 ^ 32) hlt
      rw [Nat.mul_succ] at hmul
      omega
    have hsplit := Nat.div_add_mod (2 ^ 32 * (divLimbs radix limbs).2.toNat + limb.toNat)
      radix.toNat
    rw [divLimbs]
    refine ⟨congrArg (· + 1) hlen, ?_, ?_⟩
    · rw [UInt64.toNat_mod, hcurrent]
      exact Nat.mod_lt _ hradix
    · dsimp only
      rw [magnitude_cons, magnitude_cons, UInt64.toNat_mod, UInt64.toNat_toUInt32,
        UInt64.toNat_div, UInt32.toNat_toUInt64, hcurrent, Nat.mod_eq_of_lt hquotient, Nat.mul_add,
        Nat.mul_left_comm]
      omega

theorem divLimbs_lt (hne : limbs ≠ []) (hradix : 2 ≤ radix.toNat) :
    magnitude (trim (divLimbs radix limbs).1) +
      (trim (divLimbs radix limbs).1).length < magnitude limbs + limbs.length := by
  obtain ⟨hlen, -, hvalue⟩ := divLimbs_spec (Nat.lt_of_lt_of_le Nat.zero_lt_two hradix) limbs
  have hle := length_trim_le (divLimbs radix limbs).1
  have hmul := Nat.mul_le_mul_right (magnitude (divLimbs radix limbs).1) hradix
  have hpos := length_pos_iff.2 hne
  rw [magnitude_trim]
  by_cases hzero : magnitude (divLimbs radix limbs).1 = 0
  · have hnil := (eq_nil_iff (trimmed_trim (divLimbs radix limbs).1)).2 (by rwa [magnitude_trim])
    rw [hnil, length_nil]
    omega
  · omega

/-- The loop over the digits, the last one first. -/
def remainders (radix : UInt32) (limbs : List UInt32) : List UInt32 :=
  if limbs = [] ∨ radix.toNat < 2 then []
  else (divLimbs radix limbs).2.toUInt32 :: remainders radix (trim (divLimbs radix limbs).1)
  termination_by magnitude limbs + limbs.length
  decreasing_by
    exact divLimbs_lt (fun h => by simp_all) (by omega)

/-- Nine digits, with zeros before them. -/
def padded (chunk : UInt32) : List Char :=
  let text := NumberText.toDecimal chunk.toNat
  List.replicate (9 - text.length) '0' ++ text

def signText (negative : Bool) : List Char := if negative then ['-'] else []

def toDecimal (x : BigInt) : List Char :=
  if x.isZero then ['0']
  else
    let chunks := (remainders 1000000000 x.limbs).reverse
    signText x.negative ++ NumberText.toDecimal (chunks.headD 0).toNat ++
      chunks.tail.flatMap padded

def toRadix (x : BigInt) (radix : UInt32) : List Char :=
  if radix = 10 then x.toDecimal
  else if x.isZero then ['0']
  else
    ((remainders radix x.limbs).map (fun digit => NumberText.fromDigit digit.toNat) ++
      signText x.negative).reverse

def syntaxError : Failure := .error "SyntaxError: Cannot convert to a BigInt"

/-- The prefixes of radices, each in two cases. -/
def prefixOf (rest : List Char) : Nat × List Char :=
  if ['0', 'x'].isPrefixOf rest || ['0', 'X'].isPrefixOf rest then (16, rest.drop 2)
  else if ['0', 'o'].isPrefixOf rest || ['0', 'O'].isPrefixOf rest then (8, rest.drop 2)
  else if ['0', 'b'].isPrefixOf rest || ['0', 'B'].isPrefixOf rest then (2, rest.drop 2)
  else (10, rest)

def parseDigits (radix : Nat) : List Char → BigInt → BigResult BigInt
  | [], value => .ok value
  | c :: digits, value =>
    if c = '_' then parseDigits radix digits value
    else
      match NumberText.toDigit c radix with
      | none => .error syntaxError
      | some digit => do
        let value ← value.mul (fromI64 radix)
        let value ← value.add (fromI64 digit)
        parseDigits radix digits value

def parse (text : List Char) : BigResult BigInt :=
  let text := Str.trim text
  if text = [] then .ok zero
  else
    let negative := decide (text.head? = some '-')
    let rest := if text.head? = some '-' ∨ text.head? = some '+' then text.tail else text
    if (prefixOf rest).2 = [] then .error syntaxError
    else do
      let value ← parseDigits (prefixOf rest).1 (prefixOf rest).2 zero
      return { value with negative := negative && !value.isZero }

def wordsOf : List UInt32 → List UInt64
  | [] => []
  | [low] => [low.toUInt64]
  | low :: high :: limbs => ((high.toUInt64 <<< 32) ||| low.toUInt64) :: wordsOf limbs

def toWords (x : BigInt) : Bool × List UInt64 := (x.negative, wordsOf x.limbs)

def fromWords (negative : Bool) (words : List UInt64) : BigInt :=
  normalized negative (words.flatMap fun word : UInt64 => [word.toUInt32, (word >>> 32).toUInt32])

/-- The digits of a number, without zeros before them. -/
def standard (radix n : Nat) : List Char :=
  if n = 0 then ['0'] else ((Nat.digits radix n).map NumberText.fromDigit).reverse

/-! ## Writing -/

theorem remainders_eq (hradix : 2 ≤ radix.toNat) (h : Trimmed limbs) :
    (remainders radix limbs).map UInt32.toNat = Nat.digits radix.toNat (magnitude limbs) := by
  induction limbs using remainders.induct radix with
  | case1 limbs hend =>
    rw [remainders, if_pos hend, hend.resolve_right (by omega), magnitude_nil, Nat.digits_zero]
    rfl
  | case2 limbs hgoes ih =>
    obtain ⟨-, hlt, hvalue⟩ := divLimbs_spec (Nat.lt_of_lt_of_le Nat.zero_lt_two hradix) limbs
    have hmax := radix.toNat_lt
    have hpos : 0 < magnitude limbs :=
      Nat.pos_of_ne_zero fun hzero => hgoes (.inl ((eq_nil_iff h).2 hzero))
    rw [remainders, if_neg hgoes, map_cons, ih (trimmed_trim _), magnitude_trim,
      Nat.digits_def' hradix hpos, ← hvalue, Nat.mul_add_mod, Nat.mod_eq_of_lt hlt,
      Nat.mul_add_div (Nat.lt_of_lt_of_le Nat.zero_lt_two hradix), Nat.div_eq_of_lt hlt,
      Nat.add_zero, UInt64.toNat_toUInt32, Nat.mod_eq_of_lt (by omega)]

theorem digitLoop_eq {radix : Nat} (hradix : 2 ≤ radix) (n : Nat) :
    NumberText.digitLoop radix n = (Nat.digits radix n).map NumberText.fromDigit := by
  induction n using NumberText.digitLoop.induct radix with
  | case1 n hend =>
    rw [NumberText.digitLoop, if_pos hend, hend.resolve_right (by omega), Nat.digits_zero]
    rfl
  | case2 n hgoes ih =>
    have hdigits := Nat.digits_def' hradix (n := n) (Nat.pos_of_ne_zero fun h => hgoes (.inl h))
    rw [NumberText.digitLoop, if_neg hgoes, ih, hdigits]
    rfl

theorem toDecimal_eq_standard (n : Nat) : NumberText.toDecimal n = standard 10 n := by
  rw [NumberText.toDecimal, standard, digitLoop_eq (by decide)]
  split <;> rfl

theorem padded_eq (chunk : UInt32) :
    padded chunk = ((Nat.digits 10 chunk.toNat ++ replicate
      (9 - (Nat.digits 10 chunk.toNat).length) 0).map NumberText.fromDigit).reverse := by
  rw [padded, toDecimal_eq_standard, standard]
  split
  next hzero =>
    rw [hzero, Nat.digits_zero]
    decide
  next =>
    rw [length_reverse, length_map, map_append, reverse_append, map_replicate, reverse_replicate]
    rfl

/-- Nine digits behind a number. -/
theorem standard_chunk {chunk : UInt32} {q : Nat} (h : chunk.toNat < 10 ^ 9) (hq : 0 < q) :
    standard 10 (chunk.toNat + 10 ^ 9 * q) = standard 10 q ++ padded chunk := by
  have hlen : (Nat.digits 10 chunk.toNat).length ≤ 9 :=
    (Nat.digits_length_le_iff (by decide) _).2 h
  have hdigits := Nat.digits_append_zeroes_append_digits (b := 10)
    (k := 9 - (Nat.digits 10 chunk.toNat).length) (n := chunk.toNat) (by decide) hq
  rw [Nat.add_sub_cancel' hlen] at hdigits
  rw [standard, standard, if_neg (by omega), if_neg hq.ne', ← hdigits, padded_eq,
    map_append, reverse_append]

theorem chunks_eq (h : Trimmed limbs) (hne : limbs ≠ []) :
    NumberText.toDecimal ((remainders 1000000000 limbs).reverse.headD 0).toNat ++
      (remainders 1000000000 limbs).reverse.tail.flatMap padded =
        standard 10 (magnitude limbs) := by
  induction limbs using remainders.induct 1000000000 with
  | case1 limbs hend => exact absurd (hend.resolve_right (by decide)) hne
  | case2 limbs hgoes ih =>
    obtain ⟨-, hlt, hvalue⟩ := @divLimbs_spec 1000000000 (by decide) limbs
    have hradix : (1000000000 : UInt32).toNat = 10 ^ 9 := rfl
    rw [hradix] at hlt hvalue
    have hchunk : (divLimbs 1000000000 limbs).2.toUInt32.toNat =
        (divLimbs 1000000000 limbs).2.toNat := by
      rw [UInt64.toNat_toUInt32]
      omega
    rw [remainders, if_neg hgoes, reverse_cons]
    by_cases hlast : trim (divLimbs 1000000000 limbs).1 = []
    · have hzero := (eq_nil_iff (trimmed_trim _)).1 hlast
      rw [magnitude_trim] at hzero
      rw [hzero, Nat.mul_zero, Nat.zero_add] at hvalue
      rw [hlast, remainders, if_pos (.inl rfl), ← hvalue, ← hchunk, ← toDecimal_eq_standard]
      exact append_nil _
    · have hpos : 0 < magnitude (divLimbs 1000000000 limbs).1 :=
        Nat.pos_of_ne_zero fun hzero =>
          hlast ((eq_nil_iff (trimmed_trim _)).2 (by rwa [magnitude_trim]))
      have hrest := ih (trimmed_trim _) hlast
      have hsome : (remainders 1000000000 (trim (divLimbs 1000000000 limbs).1)).reverse ≠ [] := by
        rw [remainders, if_neg (fun h => hlast (h.resolve_right (by decide)))]
        exact reverse_ne_nil_iff.2 (cons_ne_nil _ _)
      rw [magnitude_trim] at hrest
      rw [← hvalue, Nat.add_comm, ← hchunk, standard_chunk (by rwa [hchunk]) hpos, ← hrest]
      obtain ⟨first, rest, hcons⟩ := exists_cons_of_ne_nil hsome
      rw [hcons, cons_append, headD_cons, headD_cons, tail_cons,
        tail_cons, flatMap_append, append_assoc]
      simp only [flatMap_cons, flatMap_nil, append_nil]

theorem toRadix_eq {x : BigInt} (hx : x.WellFormed) (hradix : 2 ≤ radix.toNat) :
    x.toRadix radix = signText x.negative ++ standard radix.toNat x.toInt.natAbs := by
  rw [natAbs_toInt]
  by_cases hzero : x.limbs = []
  · have htext : x.toRadix radix = ['0'] := by
      have hisZero : x.isZero = true := List.isEmpty_iff.2 hzero
      rw [toRadix, toDecimal, if_pos hisZero]
      split <;> rfl
    rw [htext, hx.zero hzero, hzero, magnitude_nil]
    rfl
  · have hisZero : ¬ x.isZero = true := fun h => hzero (List.isEmpty_iff.1 h)
    have hne : magnitude x.limbs ≠ 0 := fun h => hzero ((eq_nil_iff hx.trimmed).2 h)
    rw [toRadix]
    split
    next hten =>
      rw [toDecimal, if_neg hisZero, hten, append_assoc]
      exact congrArg _ (chunks_eq hx.trimmed hzero)
    next =>
      have hmap : (remainders radix x.limbs).map (fun digit => NumberText.fromDigit digit.toNat) =
          (Nat.digits radix.toNat (magnitude x.limbs)).map NumberText.fromDigit := by
        rw [← remainders_eq hradix hx.trimmed, map_map]
        rfl
      rw [hmap, reverse_append, standard, if_neg hne]
      cases x.negative <;> rfl

/-! ## Words -/

theorem toUInt32_word (low high : UInt32) :
    ((high.toUInt64 <<< 32) ||| low.toUInt64).toUInt32 = low ∧
      (((high.toUInt64 <<< 32) ||| low.toUInt64) >>> 32).toUInt32 = high := by
  have hlow := low.toNat_lt
  have hhigh := high.toNat_lt
  have hshift : (high.toUInt64 <<< 32).toNat = 2 ^ 32 * high.toNat := by
    rw [UInt64.toNat_shiftLeft, Nat.shiftLeft_eq, Nat.mul_comm, UInt32.toNat_toUInt64]
    exact Nat.mod_eq_of_lt (by change 2 ^ 32 * _ < 2 ^ 64; omega)
  have hword : ((high.toUInt64 <<< 32) ||| low.toUInt64).toNat =
      2 ^ 32 * high.toNat + low.toNat := by
    rw [UInt64.toNat_or, hshift, UInt32.toNat_toUInt64, Nat.two_pow_add_eq_or_of_lt hlow]
  constructor
  · rw [← UInt32.toNat_inj, UInt64.toNat_toUInt32, hword]
    omega
  · rw [← UInt32.toNat_inj, UInt64.toNat_toUInt32, toNat_high, hword]
    omega

theorem flatMap_wordsOf (limbs : List UInt32) : ∃ n, (wordsOf limbs).flatMap
    (fun word : UInt64 => [word.toUInt32, (word >>> 32).toUInt32]) =
      limbs ++ replicate n 0 := by
  induction limbs using wordsOf.induct with
  | case1 => exact ⟨0, rfl⟩
  | case2 low =>
    refine ⟨1, ?_⟩
    have hword := toUInt32_word low 0
    have hzero : ((0 : UInt32).toUInt64 <<< 32) ||| low.toUInt64 = low.toUInt64 := by simp
    rw [hzero] at hword
    rw [wordsOf, flatMap_singleton, hword.1, hword.2]
    rfl
  | case3 low high limbs ih =>
    obtain ⟨n, ih⟩ := ih
    refine ⟨n, ?_⟩
    rw [wordsOf, flatMap_cons, ih, (toUInt32_word low high).1, (toUInt32_word low high).2]
    rfl

theorem fromWords_toWords {x : BigInt} (hx : x.WellFormed) :
    fromWords x.toWords.1 x.toWords.2 = x := by
  obtain ⟨n, hwords⟩ := flatMap_wordsOf x.limbs
  refine (wellFormed_normalized _ _).eq_of_toInt hx ?_
  rw [toWords, hwords, toInt_normalized, magnitude_append, magnitude_replicate, Nat.mul_zero,
    Nat.add_zero, toInt]

/-! ## Reading -/

theorem mul_long {a b : BigInt} (ha : a.limbs ≠ []) (hb : b.limbs ≠ [])
    (h : maxLimbs < a.limbs.length + b.limbs.length) : a.mul b = .error overflow := by
  rw [mul, mulMagnitude, if_neg (not_or.2 ⟨ha, hb⟩), if_pos h]
  rfl

theorem parseDigits_append (radix : Nat) (front back : List Char) (value : BigInt) :
    parseDigits radix (front ++ back) value =
      parseDigits radix front value >>= parseDigits radix back := by
  induction front generalizing value with
  | nil => rfl
  | cons c front ih =>
    rw [cons_append, parseDigits, parseDigits]
    split
    · exact ih value
    · split
      · rfl
      · simp only [bind_assoc, ih]

section Radix

variable {radix : Nat} (hlow : 2 ≤ radix) (hhigh : radix ≤ 36)

theorem standard_digit {n : Nat} (h : n < radix) : standard radix n = [NumberText.fromDigit n] := by
  rw [standard]
  split
  next hzero => rw [hzero]; rfl
  next hne =>
    rw [Nat.digits_of_lt radix n hne h]
    rfl

include hlow in
theorem standard_last {n : Nat} (h : radix ≤ n) :
    standard radix n = standard radix (n / radix) ++ [NumberText.fromDigit (n % radix)] := by
  have hne : n / radix ≠ 0 := Nat.ne_of_gt (Nat.div_pos h (by omega))
  rw [standard, if_neg (by omega), Nat.digits_def' hlow (by omega), map_cons,
    reverse_cons, standard, if_neg hne]

include hlow hhigh

/-- One more digit, where there is room for the product. -/
theorem parseDigits_digit {value : BigInt} (hvalue : value.WellFormed) {digit : Nat}
    (hdigit : digit < radix) :
    (value.limbs.length < maxLimbs → ∃ r, parseDigits radix [NumberText.fromDigit digit] value =
      .ok r ∧ r.WellFormed ∧ r.toInt = value.toInt * radix + digit) ∧
    (maxLimbs ≤ value.limbs.length →
      parseDigits radix [NumberText.fromDigit digit] value = .error overflow) := by
  have hsome := NumberText.toDigit_fromDigit hdigit hhigh
  have hsep : NumberText.fromDigit digit ≠ '_' :=
    @NumberText.ne_of_isDigit radix _ _ (by rw [NumberText.isDigit, hsome]; rfl) (by decide)
  have hstep : parseDigits radix [NumberText.fromDigit digit] value =
      (value.mul (fromI64 radix) >>= fun value => value.add (fromI64 digit)) := by
    simp only [parseDigits, if_neg hsep, hsome]
    exact congrArg _ (funext fun value => bind_pure (value.add _))
  have hradix : (fromI64 (radix : Int)).toInt = radix := toInt_fromI64 (by omega)
  have hdigitInt : (fromI64 (digit : Int)).toInt = digit := toInt_fromI64 (by omega)
  have hwf := wellFormed_fromI64 (radix : Int)
  have hone : (fromI64 (radix : Int)).limbs.length ≤ 1 :=
    (hwf.length_le_iff 1).2 (by rw [hradix]; omega)
  have hsome : (fromI64 (radix : Int)).limbs ≠ [] := fun h => by
    have hzero := hwf.eq_zero_iff.1 h
    omega
  rw [hstep]
  constructor
  · intro hlen
    rcases mul_spec value (fromI64 radix) with ⟨product, hmul, hproduct, hint, -⟩ | ⟨-, hlong⟩
    · rw [hradix] at hint
      rw [hmul]
      rcases add_spec hproduct (wellFormed_fromI64 (digit : Int)) with
        ⟨r, hadd, hr, hsum⟩ | ⟨-, hlarge⟩
      · exact ⟨r, hadd, hr, by rw [hsum, hint, hdigitInt]⟩
      · have hsmall := (hvalue.length_le_iff (maxLimbs - 1)).1 (by omega)
        have hpow : 2 ^ (32 * maxLimbs) = 2 ^ (32 * (maxLimbs - 1)) * 2 ^ 32 := by
          rw [← pow_add]
          exact congrArg (2 ^ ·) (by decide)
        have hmul : (value.toInt * radix).natAbs = value.toInt.natAbs * radix := by
          rw [Int.natAbs_mul, Int.natAbs_natCast]
        have hle : (value.toInt.natAbs + 1) * radix ≤ 2 ^ (32 * (maxLimbs - 1)) * 2 ^ 32 :=
          Nat.mul_le_mul hsmall (by omega)
        have habs := Int.natAbs_add_le (value.toInt * radix) digit
        rw [Nat.add_mul] at hle
        rw [hint, hdigitInt, hpow] at hlarge
        omega
    · omega
  · intro hlen
    have hne : value.limbs ≠ [] := ne_nil_of_length_pos (Nat.lt_of_lt_of_le (by decide) hlen)
    have hpos := length_pos_iff.2 hsome
    rw [mul_long hne hsome (by omega)]
    rfl

theorem parseDigits_standard (n : Nat) :
    (n / radix < 2 ^ (32 * (maxLimbs - 1)) →
      ∃ r, parseDigits radix (standard radix n) zero = .ok r ∧ r.WellFormed ∧ r.toInt = n) ∧
    (2 ^ (32 * (maxLimbs - 1)) ≤ n / radix →
      parseDigits radix (standard radix n) zero = .error overflow) := by
  induction n using Nat.strongRecOn with
  | ind n ih =>
    by_cases hn : n < radix
    · have hstep := (parseDigits_digit hlow hhigh wellFormed_zero hn).1 (by decide)
      rw [show zero.toInt = 0 from rfl, Int.zero_mul, Int.zero_add] at hstep
      rw [standard_digit hn, Nat.div_eq_of_lt hn]
      exact ⟨fun _ => hstep, fun h => absurd h (Nat.not_le.2 (Nat.pow_pos (by decide)))⟩
    · have hlt : n / radix < n := Nat.div_lt_self (by omega) hlow
      have hle : n / radix / radix ≤ n / radix := Nat.div_le_self _ _
      have hmod : n % radix < radix := Nat.mod_lt n (by omega)
      obtain ⟨hok, herror⟩ := ih (n / radix) hlt
      rw [standard_last hlow (by omega), parseDigits_append]
      constructor
      · intro hroom
        obtain ⟨value, hread, hvalue, hint⟩ := hok (hle.trans_lt hroom)
        have hlen := (hvalue.length_le_iff (maxLimbs - 1)).2 (by rw [hint]; exact hroom)
        obtain ⟨r, hdigit, hr, hsum⟩ := (parseDigits_digit hlow hhigh hvalue hmod).1
          (Nat.lt_of_le_of_lt hlen (by decide))
        rw [hread]
        refine ⟨r, hdigit, hr, ?_⟩
        rw [hsum, hint]
        exact_mod_cast Nat.div_add_mod' n radix
      · intro hlarge
        by_cases hroom : n / radix / radix < 2 ^ (32 * (maxLimbs - 1))
        · obtain ⟨value, hread, hvalue, hint⟩ := hok hroom
          have hlen : ¬ value.limbs.length ≤ maxLimbs - 1 := by
            rw [hvalue.length_le_iff, hint, Int.natAbs_natCast]
            exact Nat.not_lt.2 hlarge
          rw [hread]
          exact (parseDigits_digit hlow hhigh hvalue hmod).2 (by omega)
        · rw [herror (Nat.not_lt.1 hroom)]
          rfl

end Radix

/-! ## Texts -/

variable {radix : Nat} {text front : List Char} {x : BigInt}

theorem isDigit_standard (hlow : 2 ≤ radix) (hhigh : radix ≤ 36) {top : Nat} (htop : radix ≤ top)
    (hmax : top ≤ 36) (n : Nat) :
    standard radix n ≠ [] ∧ ∀ c ∈ standard radix n, NumberText.isDigit top c = true := by
  have hdigit {digit : Nat} (h : digit < radix) :
      NumberText.isDigit top (NumberText.fromDigit digit) = true := by
    rw [NumberText.isDigit, NumberText.toDigit_fromDigit (h.trans_le htop) hmax]
    rfl
  induction n using Nat.strongRecOn with
  | ind n ih =>
    by_cases hn : n < radix
    · rw [standard_digit hn]
      exact ⟨cons_ne_nil _ _, forall_mem_singleton.2 (hdigit hn)⟩
    · obtain ⟨-, hdigits⟩ := ih (n / radix) (Nat.div_lt_self (by omega) hlow)
      rw [standard_last hlow (by omega)]
      refine ⟨append_ne_nil_of_right_ne_nil _ (cons_ne_nil _ _), fun c hc => ?_⟩
      rcases mem_append.1 hc with hc | hc
      · exact hdigits c hc
      · exact mem_singleton.1 hc ▸ hdigit (Nat.mod_lt n (by omega))

theorem isWhitespace_digit {c : Char} (h : NumberText.isDigit 36 c = true) :
    Str.isWhitespace c = false := by
  have hrange := NumberText.digit_range h
  simp only [Str.isWhitespace, contains_eq_mem, mem_cons, not_mem_nil,
    Bool.or_eq_false_iff, decide_eq_false_iff_not, or_false]
  omega

/-- A sign, a prefix and digits. -/
theorem parse_signText (negative : Bool) (hne : text ≠ [])
    (hdigits : ∀ c ∈ text, NumberText.isDigit 36 c = true) (hrest : (prefixOf text).2 ≠ []) :
    parse (signText negative ++ text) = (do
      let value ← parseDigits (prefixOf text).1 (prefixOf text).2 zero
      return { value with negative := negative && !value.isZero }) := by
  have htrim : Str.trim (signText negative ++ text) = signText negative ++ text := by
    refine Str.trim_eq (fun c hc => ?_) fun c hc => ?_
    · rcases mem_append.1 (mem_of_mem_head? hc) with hc | hc
      · cases negative with
        | false => cases hc
        | true => exact mem_singleton.1 hc ▸ by decide
      · exact isWhitespace_digit (hdigits c hc)
    · rw [getLast?_append_of_ne_nil _ hne] at hc
      exact isWhitespace_digit (hdigits c (mem_of_mem_getLast? hc))
  obtain ⟨first, rest, rfl⟩ := exists_cons_of_ne_nil hne
  have hfirst := hdigits first mem_cons_self
  have hminus : first ≠ '-' := NumberText.ne_of_isDigit hfirst (by decide)
  have hplus : first ≠ '+' := NumberText.ne_of_isDigit hfirst (by decide)
  rw [parse, htrim]
  cases negative with
  | false =>
    have hhead : ¬ ((first :: rest).head? = some '-' ∨ (first :: rest).head? = some '+') := by
      simp [hminus, hplus]
    have hsign : decide ((first :: rest).head? = some '-') = false := by simp [hminus]
    rw [signText, if_neg Bool.false_ne_true, nil_append, if_neg hne]
    simp only [if_neg hhead, hsign, if_neg hrest]
  | true => exact if_neg hrest

theorem prefixOf_digits (h : ∀ c ∈ text, NumberText.isDigit 10 c = true) :
    prefixOf text = (10, text) := by
  have hother {letter : Char} (hletter : NumberText.isDigit 10 letter = false) :
      ['0', letter].isPrefixOf text = false := by
    rw [Bool.eq_false_iff, Ne, isPrefixOf_iff_prefix]
    intro hpre
    have hmem := hpre.subset (mem_cons_of_mem _ (mem_singleton.2 rfl))
    rw [h letter hmem] at hletter
    cases hletter
  rw [prefixOf, hother (by decide), hother (by decide), hother (by decide), hother (by decide),
    hother (by decide), hother (by decide)]
  rfl

/-- The texts of the radices that literals have. -/
def literals : List (Nat × List Char) :=
  [(10, []), (2, ['0', 'b']), (8, ['0', 'o']), (16, ['0', 'x'])]

theorem prefixOf_literal (h : (radix, front) ∈ literals) (n : Nat) :
    prefixOf (front ++ standard radix n) = (radix, standard radix n) := by
  simp only [literals, mem_cons, Prod.mk.injEq, not_mem_nil, or_false] at h
  rcases h with ⟨rfl, rfl⟩ | ⟨rfl, rfl⟩ | ⟨rfl, rfl⟩ | ⟨rfl, rfl⟩
  · exact prefixOf_digits
      (isDigit_standard (by decide) (by decide) (Nat.le_refl 10) (by decide) n).2
  all_goals rfl

theorem parse_literal (hx : x.WellFormed) (h : (radix, front) ∈ literals) :
    parse (signText x.negative ++ (front ++ standard radix x.toInt.natAbs)) = .ok x ↔
      x.toInt.natAbs / radix < 2 ^ (32 * (maxLimbs - 1)) := by
  have hbounds : 2 ≤ radix ∧ radix ≤ 36 ∧ ∀ c ∈ front, NumberText.isDigit 36 c = true := by
    simp only [literals, mem_cons, Prod.mk.injEq, not_mem_nil, or_false] at h
    rcases h with ⟨rfl, rfl⟩ | ⟨rfl, rfl⟩ | ⟨rfl, rfl⟩ | ⟨rfl, rfl⟩ <;>
      exact ⟨by decide, by decide, all_eq_true.1 (by decide)⟩
  obtain ⟨hlow, hhigh, hfront⟩ := hbounds
  obtain ⟨hne, hdigits⟩ :=
    isDigit_standard hlow hhigh hhigh (Nat.le_refl 36) x.toInt.natAbs
  obtain ⟨hok, herror⟩ := parseDigits_standard hlow hhigh x.toInt.natAbs
  have hliteral := prefixOf_literal h x.toInt.natAbs
  rw [parse_signText x.negative (append_ne_nil_of_right_ne_nil _ hne)
    (fun c hc => (mem_append.1 hc).elim (hfront c) (hdigits c)) (by rwa [hliteral]), hliteral]
  by_cases hroom : x.toInt.natAbs / radix < 2 ^ (32 * (maxLimbs - 1))
  · obtain ⟨value, hread, hvalue, hint⟩ := hok hroom
    have hlimbs : value.limbs = x.limbs := by
      refine eq_of_magnitude hvalue.trimmed hx.trimmed ?_
      rw [← natAbs_toInt, ← natAbs_toInt, hint, Int.natAbs_natCast]
    refine iff_of_true ?_ hroom
    rw [hread]
    change Except.ok (BigInt.mk (x.negative && !value.isZero) value.limbs) = Except.ok x
    rw [isZero, hlimbs]
    cases hempty : x.limbs.isEmpty with
    | false => rw [Bool.not_false, Bool.and_true]
    | true =>
      have hnegative := hx.zero (List.isEmpty_iff.1 hempty)
      rw [Bool.not_true, Bool.and_false, ← hnegative]
  · refine iff_of_false (fun hread => ?_) hroom
    rw [herror (Nat.not_lt.1 hroom)] at hread
    cases hread

theorem parse_toDecimal (hx : x.WellFormed) :
    parse x.toDecimal = .ok x ↔ x.toInt.natAbs / 10 < 2 ^ (32 * (maxLimbs - 1)) := by
  have htext : x.toDecimal = signText x.negative ++ ([] ++ standard 10 x.toInt.natAbs) := by
    rw [nil_append]
    exact @toRadix_eq 10 _ hx (by decide)
  rw [htext]
  exact parse_literal hx (by decide)

/-- What the texts and words of an integer are, and what is read back. -/
structure Codecs (x : BigInt) : Prop where
  decimal : parse x.toDecimal = .ok x
  binary : parse (signText x.negative ++ (['0', 'b'] ++ toRadix ⟨false, x.limbs⟩ 2)) = .ok x
  octal : parse (signText x.negative ++ (['0', 'o'] ++ toRadix ⟨false, x.limbs⟩ 8)) = .ok x
  hex : parse (signText x.negative ++ (['0', 'x'] ++ toRadix ⟨false, x.limbs⟩ 16)) = .ok x
  digits : ∀ radix : UInt32, 2 ≤ radix.toNat → radix.toNat ≤ 36 →
    x.toRadix radix = signText x.negative ++ standard radix.toNat x.toInt.natAbs
  words : fromWords x.toWords.1 x.toWords.2 = x

/-- A limb more than the number has must be there when its last digit is read. -/
theorem codecs_iff (x : BigInt) (hx : x.WellFormed) :
    Codecs x ↔ x.toInt.natAbs < 2 ^ (32 * maxLimbs - 31) := by
  have hpow : 2 ^ (32 * maxLimbs - 31) = 2 * 2 ^ (32 * (maxLimbs - 1)) := by
    rw [← pow_succ']
    exact congrArg (2 ^ ·) (by decide)
  have hdigits {radix : UInt32} (h : 2 ≤ radix.toNat) : toRadix ⟨false, x.limbs⟩ radix =
      standard radix.toNat x.toInt.natAbs := by
    rw [toRadix_eq (x := ⟨false, x.limbs⟩) ⟨hx.trimmed, fun _ => rfl⟩ h, natAbs_toInt,
      natAbs_toInt]
    rfl
  have htwo : ((2, ['0', 'b']) : Nat × List Char) ∈ literals := by decide
  rw [hpow]
  constructor
  · intro h
    have hread := h.binary
    rw [hdigits (by decide)] at hread
    have hlt := (parse_literal hx htwo).1 hread
    omega
  · intro hlt
    refine ⟨?_, ?_, ?_, ?_, fun radix hlow _ => toRadix_eq hx hlow, fromWords_toWords hx⟩
    · exact (parse_toDecimal hx).2 (by omega)
    · rw [hdigits (by decide)]
      exact (parse_literal hx htwo).2 (by omega)
    · rw [hdigits (by decide)]
      exact (parse_literal hx (by decide)).2 (by change _ / 8 < _; omega)
    · rw [hdigits (by decide)]
      exact (parse_literal hx (by decide)).2 (by change _ / 16 < _; omega)

theorem codecs_iff_minus_two : Codecs (fromI64 (-2)) := by
  refine (codecs_iff (fromI64 (-2)) (wellFormed_fromI64 (-2))).2 ?_
  rw [toInt_fromI64 (by decide)]
  exact (show 2 < 2 ^ 2 by decide).trans_le (Nat.pow_le_pow_right (by decide) (by decide))

/-- One high bit. -/
theorem top_spec {n : Nat} (hn : maxLimbs = n + 1) :
    (⟨false, replicate n 0 ++ [0x80000000]⟩ : BigInt).WellFormed ∧
      (replicate n 0 ++ [(0x80000000 : UInt32)]).length ≤ maxLimbs ∧
      parse (toDecimal ⟨false, replicate n 0 ++ [0x80000000]⟩) ≠
        .ok ⟨false, replicate n 0 ++ [0x80000000]⟩ := by
  have hne : replicate n 0 ++ [(0x80000000 : UInt32)] ≠ [] :=
    append_ne_nil_of_right_ne_nil _ (cons_ne_nil _ _)
  have hx : (⟨false, replicate n 0 ++ [0x80000000]⟩ : BigInt).WellFormed := by
    refine ⟨fun _ => ?_, fun h => absurd h hne⟩
    rw [getLast_append_singleton]
    decide
  refine ⟨hx, ?_, fun hread => ?_⟩
  · rw [length_append, length_replicate, hn]
    exact Nat.le_refl _
  · have hlt := (parse_toDecimal hx).1 hread
    have hle := Nat.mul_le_mul_left (2 ^ (32 * n)) (show 10 ≤ (0x80000000 : UInt32).toNat by decide)
    rw [natAbs_toInt, magnitude_concat, magnitude_replicate, length_replicate, Nat.zero_add,
      hn, Nat.add_sub_cancel] at hlt
    exact Nat.not_le.2 hlt ((Nat.le_div_iff_mul_le (by decide)).2 hle)

theorem parse_toDecimal_top : ∃ x : BigInt,
    x = ⟨false, List.replicate (maxLimbs - 1) 0 ++ [0x80000000]⟩ ∧ x.WellFormed ∧
      x.limbs.length ≤ maxLimbs ∧ parse x.toDecimal ≠ .ok x :=
  ⟨_, rfl, top_spec rfl⟩

end BigInt
end NapiVm
