import NapiVm.BigInt.Bitwise
import NapiVm.BigInt.Codec
import NapiVm.BigInt.Divide
import NapiVm.BigInt.Shift

/-!
# The cap on the size of integers

* `Operation` — what gives integers to programs.
* `Clears` — two numbers whose bits are all cleared, and the sign is not.
* `capped_iff` — the results that are within the cap.
-/

namespace NapiVm
namespace BigInt

/-- The limbs of a magnitude, behind so many others. -/
def limbsOf (count m : Nat) : BigResult (List UInt32) :=
  if m = 0 then .ok []
  else if maxLimbs < count + 1 then .error overflow
  else do
    let limbs ← limbsOf (count + 1) (m / 2 ^ 32)
    return UInt32.ofNat (m % 2 ^ 32) :: limbs

/-- The quotients and remainders by a power of two are exact. -/
def fromF64 (value : UInt64) : BigResult BigInt :=
  match Binary64.magnitude? value with
  | none => .error (.error "RangeError: Cannot convert a non-integer to a BigInt")
  | some m => do
      let limbs ← limbsOf 0 m
      return normalized (Binary64.sign value && !Binary64.isZero value) limbs

/-- On two integers, or one, or none. -/
inductive Operation
  | parse (text : List Char)
  | fromF64 (value : UInt64)
  | negate
  | add
  | sub
  | mul
  | div
  | rem
  | pow
  | shl
  | shr
  | bitand
  | bitor
  | bitxor
  | bitnot
  | asNBit (bits : Nat) (isSigned : Bool)

def Operation.run (a b : BigInt) : Operation → BigResult BigInt
  | .parse text => BigInt.parse text
  | .fromF64 value => BigInt.fromF64 value
  | .negate => .ok a.negate
  | .add => a.add b
  | .sub => a.sub b
  | .mul => a.mul b
  | .div => a.div b
  | .rem => a.rem b
  | .pow => a.pow b
  | .shl => a.shl b
  | .shr => a.shr b
  | .bitand => a.bitand b
  | .bitor => a.bitor b
  | .bitxor => a.bitxor b
  | .bitnot => a.bitnot
  | .asNBit bits isSigned => a.asNBit bits isSigned

structure Capped (x : BigInt) : Prop extends WellFormed x where
  length : x.limbs.length ≤ maxLimbs

/-- A negative number with no bit set as far as the limbs go. -/
def Clears (f : Bool → Bool → Bool) (a b : BigInt) : Prop :=
  f a.negative b.negative = true ∧
    ∀ i < 32 * maxLimbs, f (a.toInt.testBit i) (b.toInt.testBit i) = false

def Operation.Overflows (a b : BigInt) : Operation → Prop
  | .bitand => Clears Bool.and a b
  | .bitxor => Clears Bool.xor a b
  | _ => False

theorem ok_of_bind {α β : Type} {x : BigResult α} {f : α → BigResult β} {r : β}
    (h : x >>= f = .ok r) : ∃ v, x = .ok v ∧ f v = .ok r := by
  cases x with
  | error e => cases h
  | ok v => exact ⟨v, rfl, h⟩

/-! ## Arithmetic -/

section Arithmetic

variable {a b r : BigInt}

theorem capped_small {value : Int} (h : value.natAbs < 2 ^ 64) : (fromI64 value).Capped := by
  refine ⟨wellFormed_fromI64 value, ((wellFormed_fromI64 value).length_le_iff 2).2 ?_ |>.trans ?_⟩
  · rwa [toInt_fromI64 h]
  · decide

section

variable (ha : a.Capped)

include ha

theorem capped_negate : a.negate.Capped :=
  ⟨wellFormed_negate a, (length_normalized_le _ _).trans ha.length⟩

omit ha in
theorem length_of_addMagnitude {a b out : List UInt32} (h : addMagnitude a b = .ok out) :
    out.length ≤ maxLimbs := by
  obtain ⟨out', -, -, -, hadd⟩ := addMagnitude_spec a b
  rw [hadd] at h
  split at h
  · cases h
  next hfits =>
    cases h
    exact Nat.le_of_not_lt hfits

theorem capped_add (hb : b.Capped) (h : a.add b = .ok r) : r.Capped := by
  rcases add_spec ha.toWellFormed hb.toWellFormed with ⟨sum, hadd, hsum, hvalue⟩ | ⟨herror, -⟩
  · obtain rfl : sum = r := by
      rw [hadd] at h
      exact Except.ok.inj h
    refine ⟨hsum, ?_⟩
    by_cases hsign : a.negative = b.negative
    · rw [add, if_pos hsign] at h
      obtain ⟨out, hout, h⟩ := ok_of_bind h
      cases h
      exact (length_normalized_le _ _).trans (length_of_addMagnitude hout)
    · -- Of numbers with different signs, neither is farther from zero than the sum may be.
      have hla := (ha.length_le_iff maxLimbs).1 ha.length
      have hlb := (hb.length_le_iff maxLimbs).1 hb.length
      have hopposite : ¬ (a.toInt < 0 ↔ b.toInt < 0) := by
        rwa [← ha.negative_iff, ← hb.negative_iff, ← Bool.eq_iff_iff]
      rw [hsum.length_le_iff, hvalue]
      omega
  · rw [herror] at h
    cases h

theorem capped_sub (hb : b.Capped) (h : a.sub b = .ok r) : r.Capped :=
  capped_add ha (capped_negate hb) h

omit ha in
theorem capped_mul (h : a.mul b = .ok r) : r.Capped :=
  ⟨(toInt_of_mul h).1, (toInt_of_mul h).2.2⟩

theorem capped_powLoop {exponent : BigInt} {bits n : Nat}
    (h : powLoop exponent bits n a b = .ok r) :
    r.Capped := by
  induction n generalizing a b with
  | zero =>
    cases h
    exact ha
  | succ n ih =>
    rw [powLoop] at h
    obtain ⟨result, hresult, h⟩ := ok_of_bind h
    obtain ⟨base, -, h⟩ := ok_of_bind h
    refine ih ?_ h
    unfold mulIf at hresult
    split at hresult
    · exact capped_mul hresult
    · cases hresult
      exact ha

theorem capped_normalized (negative : Bool) {limbs : List UInt32}
    (h : magnitude limbs ≤ magnitude a.limbs) : (normalized negative limbs).Capped := by
  have hlt := (length_le_iff ha.trimmed maxLimbs).1 ha.length
  refine ⟨wellFormed_normalized _ _, ((wellFormed_normalized _ _).length_le_iff _).2 ?_⟩
  rw [natAbs_toInt]
  exact (magnitude_trim limbs).trans_le h |>.trans_lt hlt

/-- Neither the quotient nor the remainder is farther from zero than the dividend. -/
theorem capped_div (hb : b.Capped) (h : a.div b = .ok r ∨ a.rem b = .ok r) : r.Capped := by
  rw [div, rem] at h
  split at h
  · rcases h with h | h <;> cases h
  next hne =>
    obtain ⟨hq, hr⟩ := divmodMagnitude_spec ha.trimmed hb.trimmed fun hzero =>
      hne (List.isEmpty_iff.2 ((eq_nil_iff hb.trimmed).2 hzero))
    rcases h with h | h
    · cases h
      exact capped_normalized ha _ (hq.trans_le (Nat.div_le_self _ _))
    · cases h
      exact capped_normalized ha _ (hr.trans_le (Nat.mod_le _ _))

/-- A shift ends in one of its directions. -/
theorem capped_shift (hb : Trimmed b.limbs)
    (h : shlPositive a b = .ok r ∨ shrPositive a b = .ok r) :
    r.Capped := by
  by_cases hsmall : magnitude b.limbs ≤ maxLimbs * 32
  · rcases h with h | h
    · rcases shlPositive_spec ha.trimmed hb hsmall with ⟨⟨x, hx, hwf, -, hlen⟩, -⟩ | ⟨hx, -⟩
      · cases hx.symm.trans h
        exact ⟨hwf, hlen⟩
      · cases hx.symm.trans h
    · rcases shrPositive_spec ha.toWellFormed hb hsmall with ⟨⟨x, hx, hwf, -, hlen⟩, -⟩ | ⟨hx, -⟩
      · cases hx.symm.trans h
        exact ⟨hwf, hlen ha.length⟩
      · cases hx.symm.trans h
  · rw [shlPositive_large hb (Nat.lt_of_not_le hsmall),
      shrPositive_large hb (Nat.lt_of_not_le hsmall)] at h
    rcases h with h | h <;> cases h

end

theorem capped_parseDigits {radix : Nat} (hradix : radix ≤ 36) {text : List Char} (ha : a.Capped)
    (h : parseDigits radix text a = .ok r) : r.Capped := by
  induction text generalizing a with
  | nil =>
    cases h
    exact ha
  | cons c text ih =>
    rw [parseDigits] at h
    split at h
    · exact ih ha h
    · split at h
      · cases h
      next digit hdigit =>
        obtain ⟨product, hmul, h⟩ := ok_of_bind h
        obtain ⟨sum, hadd, h⟩ := ok_of_bind h
        have hsmall : digit < radix := by
          rw [NumberText.toDigit, Option.ite_none_right_eq_some] at hdigit
          exact Option.some.inj hdigit.2 ▸ hdigit.1
        exact ih (capped_add (capped_mul hmul) (capped_small (by omega)) hadd) h

theorem length_limbsOf {count m : Nat} {limbs : List UInt32} (hcount : count ≤ maxLimbs)
    (h : limbsOf count m = .ok limbs) : count + limbs.length ≤ maxLimbs := by
  induction count, m using limbsOf.induct generalizing limbs with
  | case1 count =>
    rw [limbsOf, if_pos rfl] at h
    cases h
    exact hcount
  | case2 count m hm hlong =>
    rw [limbsOf, if_neg hm, if_pos hlong] at h
    cases h
  | case3 count m hm hshort ih =>
    rw [limbsOf, if_neg hm, if_neg hshort] at h
    obtain ⟨rest, hrest, h⟩ := ok_of_bind h
    cases h
    have hle := ih (by omega) hrest
    rw [List.length_cons]
    omega

theorem capped_fromF64 {value : UInt64} (h : fromF64 value = .ok r) : r.Capped := by
  rw [fromF64] at h
  split at h
  · cases h
  · obtain ⟨limbs, hlimbs, h⟩ := ok_of_bind h
    have hlen := length_limbsOf (Nat.zero_le _) hlimbs
    rw [Nat.zero_add] at hlen
    cases h
    exact ⟨wellFormed_normalized _ _, (length_normalized_le _ _).trans hlen⟩

theorem capped_parse {text : List Char} (h : parse text = .ok r) : r.Capped := by
  have hzero : zero.Capped := ⟨wellFormed_zero, Nat.zero_le _⟩
  have hradix (rest : List Char) : (prefixOf rest).1 ≤ 36 := by
    rw [prefixOf]
    split
    · exact Nat.le_of_ble_eq_true rfl
    · split
      · exact Nat.le_of_ble_eq_true rfl
      · split <;> exact Nat.le_of_ble_eq_true rfl
  rw [parse] at h
  split at h
  · cases h
    exact hzero
  · dsimp only at h
    generalize (if (Str.trim text).head? = some '-' ∨ (Str.trim text).head? = some '+' then
      (Str.trim text).tail else Str.trim text) = rest at h
    split at h
    · cases h
    · obtain ⟨value, hvalue, h⟩ := ok_of_bind h
      have hcapped := capped_parseDigits (hradix _) hzero hvalue
      cases h
      refine ⟨⟨hcapped.trimmed, fun hempty => ?_⟩, hcapped.length⟩
      have hisZero : value.isZero = true := List.isEmpty_iff.2 hempty
      rw [hisZero, Bool.not_true, Bool.and_false]

theorem capped_pow (h : a.pow b = .ok r) : r.Capped := by
  rw [pow] at h
  split at h
  · cases h
  · exact capped_powLoop (capped_small (by decide)) h

end Arithmetic

/-! ## Bits -/

/-- Beyond the limbs all bits are the sign. -/
theorem testBit_capped {x : BigInt} (hx : x.Capped) {i : Nat} (hi : 32 * maxLimbs ≤ i) :
    x.toInt.testBit i = x.negative := by
  have hlt := ((hx.length_le_iff maxLimbs).1 hx.length).trans_le
    (Nat.pow_le_pow_right (by decide) hi)
  have hneg := hx.negative_iff
  revert hlt hneg
  generalize x.toInt = z
  intro hlt hneg
  cases z with
  | ofNat m =>
    have hsign : x.negative = false := Bool.eq_false_iff.2 fun h => absurd (hneg.1 h) (by simp)
    rw [hsign]
    exact Nat.testBit_lt_two_pow hlt
  | negSucc m =>
    rw [hneg.2 (Int.negSucc_lt_zero m)]
    have hbit : m.testBit i = false := Nat.testBit_lt_two_pow (Nat.lt_of_succ_lt hlt)
    exact (congrArg not hbit)

/-- Of the integers with the same bits from `n` on, the least one is too large. -/
theorem natAbs_lt_iff {z : Int} {n : Nat} {sign : Bool} (h : ∀ i, n ≤ i → z.testBit i = sign) :
    z.natAbs < 2 ^ n ↔ ¬ (sign = true ∧ ∀ i < n, z.testBit i = false) := by
  have hzero (m : Nat) : m.testBit (max n m) = false := Nat.testBit_lt_two_pow
    (Nat.lt_two_pow_self.trans_le (Nat.pow_le_pow_right (by decide) (Nat.le_max_right n m)))
  cases z with
  | ofNat m =>
    have hbits : ∀ i, n ≤ i → m.testBit i = sign := h
    have hsign : sign = false := (hbits _ (Nat.le_max_left n m)).symm.trans (hzero m)
    rw [hsign] at hbits ⊢
    exact iff_of_true (Nat.lt_pow_two_of_testBit m hbits) fun h => Bool.false_ne_true h.1
  | negSucc m =>
    have hbits : ∀ i, n ≤ i → (!m.testBit i) = sign := h
    have hsign : sign = true := by
      rw [← hbits _ (Nat.le_max_left n m), hzero, Bool.not_false]
    rw [hsign] at hbits ⊢
    have hlt : m < 2 ^ n := Nat.lt_pow_two_of_testBit m fun i hi => by
      rw [← Bool.not_eq_true', hbits i hi]
    have hall : (∀ i < n, (!m.testBit i) = false) ↔ m = 2 ^ n - 1 := by
      refine ⟨fun hset => Nat.eq_of_testBit_eq fun i => ?_, fun heq i hi => ?_⟩
      · rw [Nat.testBit_two_pow_sub_one]
        by_cases hi : i < n
        · rw [decide_eq_true hi, ← Bool.not_eq_false', hset i hi]
        · rw [decide_eq_false hi, ← Bool.not_eq_true', hbits i (Nat.le_of_not_lt hi)]
      · rw [heq, Nat.testBit_two_pow_sub_one, decide_eq_true hi, Bool.not_true]
    have hclear : (∀ i < n, (Int.negSucc m).testBit i = false) ↔ m = 2 ^ n - 1 := hall
    rw [hclear, Int.natAbs_negSucc, eq_self_iff_true, true_and]
    omega

section Bits

variable {op : UInt32 → UInt32 → UInt32} {f : Bool → Bool → Bool}
  (hop : ∀ x y : UInt32, ∀ j < 32,
    (op x y).toNat.testBit j = f (x.toNat.testBit j) (y.toNat.testBit j))
  {a b : BigInt} (ha : a.Capped) (hb : b.Capped)

include hop ha hb

theorem capped_bitwise : (∀ r, bitwise op a b = .ok r → r.Capped) ↔ ¬ Clears f a b := by
  obtain ⟨r, hr, hwf, hbits⟩ := bitwise_spec hop a b
  have hhigh : ∀ i, 32 * maxLimbs ≤ i → r.toInt.testBit i = f a.negative b.negative :=
    fun i hi => by rw [hbits, testBit_capped ha hi, testBit_capped hb hi]
  have hiff := natAbs_lt_iff hhigh
  simp only [hbits] at hiff
  rw [Clears, ← hiff, ← hwf.length_le_iff, hr]
  constructor
  · intro h
    exact (h r rfl).length
  · intro hlen r' h
    cases h
    exact ⟨hwf, hlen⟩

end Bits

/-- A bit that is set in one of them stays set. -/
theorem not_clears_or {a b : BigInt} (ha : a.Capped) (hb : b.Capped) : ¬ Clears Bool.or a b := by
  rintro ⟨hsign, hlow⟩
  simp only [Bool.or_eq_false_iff] at hlow
  have hcapped {x : BigInt} (hx : x.Capped) (hneg : x.negative = true)
      (hlow : ∀ i < 32 * maxLimbs, x.toInt.testBit i = false) : False :=
    (natAbs_lt_iff fun i hi => testBit_capped hx hi).1
      ((hx.length_le_iff maxLimbs).1 hx.length) ⟨hneg, hlow⟩
  rcases Bool.or_eq_true_iff.1 hsign with hneg | hneg
  · exact hcapped ha hneg fun i hi => (hlow i hi).1
  · exact hcapped hb hneg fun i hi => (hlow i hi).2

/-- All results are within the cap, but for the integer below those of the largest size. -/
theorem capped_iff (op : Operation) (a b : BigInt) (ha : a.Capped) (hb : b.Capped) :
    (∀ r, op.run a b = .ok r → r.Capped) ↔ ¬ op.Overflows a b := by
  cases op with
  | parse text => exact iff_of_true (fun r h => capped_parse h) id
  | fromF64 value => exact iff_of_true (fun r h => capped_fromF64 h) id
  | negate => exact iff_of_true (fun r h => Except.ok.inj h ▸ capped_negate ha) id
  | add => exact iff_of_true (fun r h => capped_add ha hb h) id
  | sub => exact iff_of_true (fun r h => capped_sub ha hb h) id
  | mul => exact iff_of_true (fun r h => capped_mul h) id
  | div => exact iff_of_true (fun r h => capped_div ha hb (.inl h)) id
  | rem => exact iff_of_true (fun r h => capped_div ha hb (.inr h)) id
  | pow => exact iff_of_true (fun r h => capped_pow h) id
  | shl =>
    refine iff_of_true (fun r h => ?_) id
    rw [Operation.run, shl] at h
    split at h
    · exact capped_shift ha (wellFormed_negate b).trimmed (.inr h)
    · exact capped_shift ha hb.trimmed (.inl h)
  | shr =>
    refine iff_of_true (fun r h => ?_) id
    rw [Operation.run, shr] at h
    split at h
    · exact capped_shift ha (wellFormed_negate b).trimmed (.inl h)
    · exact capped_shift ha hb.trimmed (.inr h)
  | bitand => exact capped_bitwise (fun x y j _ => by rw [UInt32.toNat_and, Nat.testBit_and]) ha hb
  | bitor =>
    refine iff_of_true ((capped_bitwise (fun x y j _ => ?_) ha hb).2 (not_clears_or ha hb)) id
    rw [UInt32.toNat_or, Nat.testBit_or]
  | bitxor => exact capped_bitwise (fun x y j _ => by rw [UInt32.toNat_xor, Nat.testBit_xor]) ha hb
  | bitnot =>
    exact iff_of_true (fun r h => capped_sub (capped_negate ha) (capped_small (by decide)) h) id
  | asNBit bits isSigned =>
    refine iff_of_true (fun r h => ?_) id
    obtain ⟨hwf, -, -, hlen⟩ := asNBit_spec ha.toWellFormed h
    exact ⟨hwf, hlen ha.length⟩

theorem capped_iff_minus_one :
    ∃ r, Operation.run (fromI64 (-1)) (fromI64 (-1)) .bitand = .ok r ∧ r.Capped := by
  refine ⟨_, rfl, (capped_iff .bitand (fromI64 (-1)) (fromI64 (-1)) (capped_small (by decide))
    (capped_small (by decide))).2 (fun h => ?_) _ rfl⟩
  have hbit := h.2 0 (by decide)
  rw [toInt_fromI64 (by decide)] at hbit
  cases hbit

theorem magnitude_ones (n : Nat) : magnitude (List.replicate n 0xffffffff) = 2 ^ (32 * n) - 1 := by
  have hnot := magnitude_map_not (List.replicate n 0)
  rwa [List.map_replicate, List.length_replicate, magnitude_replicate, Nat.sub_zero] at hnot

theorem testBit_ones {n i : Nat} (h : i < n) : ((2 ^ n - 1 : Nat) : Int).testBit i = true :=
  (Nat.testBit_two_pow_sub_one n i).trans (decide_eq_true h)

theorem bitxor_ones {n : Nat} (hn : n = maxLimbs) :
    Capped ⟨false, List.replicate n 0xffffffff⟩ ∧
      ∃ r, (fromI64 (-1)).bitxor ⟨false, List.replicate n 0xffffffff⟩ = .ok r ∧ ¬ r.Capped := by
  have hop : ∀ x y : UInt32, ∀ j < 32,
      (x ^^^ y).toNat.testBit j = (x.toNat.testBit j ^^ y.toNat.testBit j) := fun x y j _ => by
    rw [UInt32.toNat_xor, Nat.testBit_xor]
  have hcapped : Capped ⟨false, List.replicate n 0xffffffff⟩ := by
    refine ⟨⟨fun hne => ?_, fun h => rfl⟩, ?_⟩
    · rw [List.getLast_replicate]
      decide
    · rw [List.length_replicate, hn]
  have hclears : Clears Bool.xor (fromI64 (-1)) ⟨false, List.replicate n 0xffffffff⟩ := by
    refine ⟨rfl, fun i hi => ?_⟩
    rw [← hn] at hi
    rw [toInt_fromI64 (by decide), toInt, if_neg Bool.false_ne_true, magnitude_ones,
      testBit_ones hi]
    exact congrArg (fun bit => Bool.xor (!bit) true) (Nat.zero_testBit i)
  obtain ⟨r, hr, -⟩ := bitwise_spec hop (fromI64 (-1)) ⟨false, List.replicate n 0xffffffff⟩
  refine ⟨hcapped, r, hr, fun hle => ?_⟩
  refine (capped_bitwise hop (capped_small (by decide)) hcapped).1 (fun r' hr' => ?_) hclears
  rw [hr] at hr'
  exact Except.ok.inj hr' ▸ hle

/-- `-1n ^ (2n ** 131072n - 1n)`. -/
theorem bitxor_too_large : ∃ b r : BigInt, b = ⟨false, List.replicate maxLimbs 0xffffffff⟩ ∧
    (fromI64 (-1)).Capped ∧ b.Capped ∧ (fromI64 (-1)).bitxor b = .ok r ∧ ¬ r.Capped := by
  obtain ⟨hb, r, hr, hlarge⟩ := bitxor_ones rfl
  exact ⟨_, r, rfl, capped_small (by decide), hb, hr, hlarge⟩

end BigInt
end NapiVm
