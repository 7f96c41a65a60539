import Mathlib.Data.Nat.Digits.Defs

/-!
# Strings and their key encoding

An ECMAScript string is a sequence of UTF-16 code units, unpaired surrogates
included.  A property slot is named by a UTF-8 string, so `to_key` escapes what
UTF-8 cannot hold: an unpaired surrogate becomes the marker U+FDD0, the letter
`s` and four hexadecimal digits, and the marker itself is doubled.

* `fromKey_toKey` : `from_key` undoes `to_key`, whatever the units.
* `toKey_injective` : no two strings share a key.
* `property_keys` : the borrowing path agrees.
* `isPrefix_keyChars` : a key begins with plain text exactly when the string does.
-/

namespace NapiVm.JsString

open List

/-! ## UTF-16 -/

/-- A high surrogate. -/
def isHigh (u : UInt16) : Bool := decide (0xD800 ≤ u.toNat) && decide (u.toNat ≤ 0xDBFF)

/-- A low surrogate. -/
def isLow (u : UInt16) : Bool := decide (0xDC00 ≤ u.toNat) && decide (u.toNat ≤ 0xDFFF)

/-- The scalar of a surrogate pair. -/
def pairScalar (hi lo : UInt16) : Char :=
  Char.ofNat (0x10000 + (hi.toNat - 0xD800) * 1024 + (lo.toNat - 0xDC00))

/-- `char::decode_utf16`: scalars, with unpaired surrogates as errors. -/
def decodeUtf16 : List UInt16 → List (Except UInt16 Char)
  | [] => []
  | [u] => if isHigh u || isLow u then [.error u] else [.ok (Char.ofNat u.toNat)]
  | u :: l :: rest =>
    if isHigh u then
      if isLow l then .ok (pairScalar u l) :: decodeUtf16 rest
      else .error u :: decodeUtf16 (l :: rest)
    else if isLow u then .error u :: decodeUtf16 (l :: rest)
    else .ok (Char.ofNat u.toNat) :: decodeUtf16 (l :: rest)

/-- `char::encode_utf16`. -/
def encodeUtf16 (c : Char) : List UInt16 :=
  if c.toNat < 0x10000 then [UInt16.ofNat c.toNat]
  else [UInt16.ofNat (0xD800 + (c.toNat - 0x10000) / 1024),
    UInt16.ofNat (0xDC00 + (c.toNat - 0x10000) % 1024)]

/-- `String::from_utf16`: `none` on an unpaired surrogate. -/
def toUtf8 (units : List UInt16) : Option String :=
  ((decodeUtf16 units).mapM Except.toOption).map String.ofList

/-- The units of a host string. -/
def ofString (text : String) : List UInt16 := text.toList.flatMap encodeUtf16

/-! ## The escape -/

/-- The marker U+FDD0. -/
def marker : Char := Char.ofNat 0xFDD0

/-- An uppercase hexadecimal digit. -/
def hexChar (n : Nat) : Char := Char.ofNat (if n < 10 then 48 + n else 55 + n)

/-- `{:04X}`. -/
def hex4 (u : UInt16) : List Char :=
  [hexChar (u.toNat / 4096), hexChar (u.toNat / 256 % 16), hexChar (u.toNat / 16 % 16),
    hexChar (u.toNat % 16)]

/-- One step of `to_key`. -/
def escape : Except UInt16 Char → List Char
  | .ok c => if c = marker then [marker, marker] else [c]
  | .error u => marker :: 's' :: hex4 u

/-- The characters of `to_key`. -/
def keyChars (units : List UInt16) : List Char := (decodeUtf16 units).flatMap escape

/-- `JsString::to_key`. -/
def toKey (units : List UInt16) : String := String.ofList (keyChars units)

/-- The value of a hexadecimal digit of either case. -/
def hexValue (c : Char) : Option Nat :=
  if '0' ≤ c ∧ c ≤ '9' then some (c.toNat - 48)
  else if 'A' ≤ c ∧ c ≤ 'F' then some (c.toNat - 55)
  else if 'a' ≤ c ∧ c ≤ 'f' then some (c.toNat - 87)
  else none

/-- Read digits onto an accumulator. -/
def hexDigits : Nat → List Char → Option Nat
  | acc, [] => some acc
  | acc, c :: rest => (hexValue c).bind fun d => hexDigits (acc * 16 + d) rest

/-- `u16::from_str_radix(text, 16)`. -/
def fromHex (text : List Char) : Option UInt16 :=
  let digits :=
    match text with
    | '+' :: rest => rest
    | text => text
  if digits = [] then none
  else (hexDigits 0 digits).bind fun n => if n < 65536 then some (UInt16.ofNat n) else none

/-- `JsString::from_key`, on the characters of the key. -/
def unitsOfKey : List Char → List UInt16
  | [] => []
  | c :: rest =>
    if c = marker then
      match rest with
      | [] => [0xFDD0]
      | d :: rest =>
        if d = marker then 0xFDD0 :: unitsOfKey rest
        else if d = 's' then
          let hex := rest.take 4
          (match fromHex hex with
            | some u => [u]
            | none => encodeUtf16 marker ++ encodeUtf16 's' ++ hex.flatMap encodeUtf16) ++
            unitsOfKey (rest.drop 4)
        else 0xFDD0 :: encodeUtf16 d ++ unitsOfKey rest
    else encodeUtf16 c ++ unitsOfKey rest
  termination_by text => text.length
  decreasing_by
    all_goals
      simp only [List.length_cons, List.length_drop]
      omega

/-- `JsString::from_key`. -/
def fromKey (key : String) : List UInt16 := unitsOfKey key.toList

/-! ## Round trips -/

variable {n : Nat} {u : UInt16}

theorem hexValue_hexChar (h : n < 16) : hexValue (hexChar n) = some n := by
  have hall : ∀ m : Fin 16, hexValue (hexChar m) = some m.val := by decide
  exact hall ⟨n, h⟩

theorem hexChar_ne_plus (h : n < 16) : hexChar n ≠ '+' := by
  have hall : ∀ m : Fin 16, hexChar m ≠ '+' := by decide
  exact hall ⟨n, h⟩

/-- Four digits read back as the unit they were written for. -/
theorem fromHex_hex4 (u : UInt16) : fromHex (hex4 u) = some u := by
  have hu : u.toNat < 65536 := u.toNat_lt
  have h₁ : u.toNat / 4096 < 16 := by omega
  have h₂ : u.toNat / 256 % 16 < 16 := by omega
  have h₃ : u.toNat / 16 % 16 < 16 := by omega
  have h₄ : u.toNat % 16 < 16 := by omega
  have hsum : (((0 * 16 + u.toNat / 4096) * 16 + u.toNat / 256 % 16) * 16 + u.toNat / 16 % 16) *
      16 + u.toNat % 16 = u.toNat := by omega
  have hdigits : hexDigits 0 (hex4 u) = some u.toNat := by
    simp only [hex4, hexDigits, hexValue_hexChar h₁, hexValue_hexChar h₂, hexValue_hexChar h₃,
      hexValue_hexChar h₄, Option.bind_some, hsum]
  unfold fromHex
  have htext : (match hex4 u with
      | '+' :: rest => rest
      | text => text) = hex4 u := by
    unfold hex4
    split
    · next he => exact absurd (cons.inj he).1 (hexChar_ne_plus h₁)
    · rfl
  dsimp only
  rw [htext, if_neg (by simp [hex4]), hdigits]
  simp [hu]

theorem encodeUtf16_marker : encodeUtf16 marker = [0xFDD0] := by decide

/-- A scalar's escape reads back as the units of the scalar. -/
theorem unitsOfKey_escape_ok (c : Char) (rest : List Char) :
    unitsOfKey (escape (.ok c) ++ rest) = encodeUtf16 c ++ unitsOfKey rest := by
  have hesc : escape (.ok c) = if c = marker then [marker, marker] else [c] := rfl
  rw [hesc]
  by_cases h : c = marker
  · subst h
    rw [if_pos rfl, cons_append, unitsOfKey.eq_def]
    simp [encodeUtf16_marker]
  · rw [if_neg h, cons_append, nil_append, unitsOfKey.eq_def]
    simp only [h, if_false]

/-- A surrogate's escape reads back as the surrogate. -/
theorem unitsOfKey_escape_error (u : UInt16) (rest : List Char) :
    unitsOfKey (escape (.error u) ++ rest) = u :: unitsOfKey rest := by
  have hs : ('s' : Char) ≠ marker := by decide
  have htake : (hex4 u ++ rest).take 4 = hex4 u := by simp [hex4]
  have hdrop : (hex4 u ++ rest).drop 4 = rest := by simp [hex4]
  unfold escape
  rw [cons_append, cons_append, unitsOfKey, if_pos rfl]
  simp only [hs, if_false, if_true, htake, hdrop, fromHex_hex4]
  rfl

theorem toNat_ofNat_of_lt (h : n < 0xD800 ∨ 0xDFFF < n ∧ n < 0x110000) :
    (Char.ofNat n).toNat = n := by
  have hv : n.isValidChar := by
    unfold Nat.isValidChar
    omega
  rw [Char.ofNat, dif_pos hv]
  exact UInt32.toNat_ofNatLT

/-- A unit that is no surrogate is its own encoding. -/
theorem encodeUtf16_unit (hh : isHigh u = false) (hl : isLow u = false) :
    encodeUtf16 (Char.ofNat u.toNat) = [u] := by
  have hu : u.toNat < 65536 := u.toNat_lt
  simp only [isHigh, isLow, Bool.and_eq_false_iff, decide_eq_false_iff_not] at hh hl
  have hn : (Char.ofNat u.toNat).toNat = u.toNat := toNat_ofNat_of_lt (by omega)
  unfold encodeUtf16
  rw [hn, if_pos (by omega)]
  simp

/-- A surrogate pair is the encoding of its scalar. -/
theorem encodeUtf16_pair {l : UInt16} (hh : isHigh u = true) (hl : isLow l = true) :
    encodeUtf16 (pairScalar u l) = [u, l] := by
  simp only [isHigh, isLow, Bool.and_eq_true, decide_eq_true_eq] at hh hl
  have hn : (pairScalar u l).toNat = 0x10000 + (u.toNat - 0xD800) * 1024 + (l.toNat - 0xDC00) :=
    toNat_ofNat_of_lt (by omega)
  have hhi : 0xD800 + (0x10000 + (u.toNat - 0xD800) * 1024 + (l.toNat - 0xDC00) - 0x10000) / 1024 =
      u.toNat := by omega
  have hlo : 0xDC00 + (0x10000 + (u.toNat - 0xD800) * 1024 + (l.toNat - 0xDC00) - 0x10000) % 1024 =
      l.toNat := by omega
  unfold encodeUtf16
  rw [hn, if_neg (by omega), hhi, hlo]
  simp

theorem unitsOfKey_keyChars (units : List UInt16) : unitsOfKey (keyChars units) = units := by
  unfold keyChars
  induction units using decodeUtf16.induct with
  | case1 => rw [decodeUtf16, flatMap_nil, unitsOfKey]
  | case2 u h =>
    rw [decodeUtf16, if_pos h, flatMap_cons, flatMap_nil, unitsOfKey_escape_error,
      unitsOfKey]
  | case3 u h =>
    simp only [Bool.or_eq_true, not_or, Bool.not_eq_true] at h
    rw [decodeUtf16, if_neg (by simp [h]), flatMap_cons, flatMap_nil,
      unitsOfKey_escape_ok, unitsOfKey, encodeUtf16_unit h.1 h.2, append_nil]
  | case4 u l rest hh hl ih =>
    rw [decodeUtf16, if_pos hh, if_pos hl, flatMap_cons, unitsOfKey_escape_ok, ih,
      encodeUtf16_pair hh hl]
    rfl
  | case5 u l rest hh hl ih =>
    rw [decodeUtf16, if_pos hh, if_neg hl, flatMap_cons, unitsOfKey_escape_error, ih]
  | case6 u l rest hh hl ih =>
    rw [decodeUtf16, if_neg hh, if_pos hl, flatMap_cons, unitsOfKey_escape_error, ih]
  | case7 u l rest hh hl ih =>
    rw [decodeUtf16, if_neg hh, if_neg hl, flatMap_cons, unitsOfKey_escape_ok, ih,
      encodeUtf16_unit (by simpa using hh) (by simpa using hl)]
    rfl

/-- Reading a key back gives the string it was made from. -/
theorem fromKey_toKey (units : List UInt16) : fromKey (toKey units) = units := by
  unfold fromKey toKey
  rw [String.toList_ofList, unitsOfKey_keyChars]

theorem toKey_injective {a b : List UInt16} (h : toKey a = toKey b) : a = b := by
  rw [← fromKey_toKey a, h, fromKey_toKey]

/-! ## The borrowing path -/

/-- `String::from_utf16_lossy`. -/
def toLossy (units : List UInt16) : String :=
  String.ofList ((decodeUtf16 units).map fun x => x.toOption.getD (Char.ofNat 0xFFFD))

/-- The scan of `to_key_cow`: the text is the key. -/
def borrows : List UInt16 → Bool
  | [] => true
  | [u] => u != 0xFDD0 && !(isHigh u || isLow u)
  | u :: l :: rest =>
    if u = 0xFDD0 then false
    else if isHigh u && isLow l then borrows rest
    else if isHigh u || isLow u then false
    else borrows (l :: rest)

/-- `JsString::to_key_cow`. -/
def toKeyCow (units : List UInt16) : String :=
  if borrows units then toLossy units else toKey units

theorem scalar_ne_marker (hh : isHigh u = false) (hl : isLow u = false) (h : u ≠ 0xFDD0) :
    Char.ofNat u.toNat ≠ marker := by
  intro heq
  have hunits := encodeUtf16_unit hh hl
  rw [heq, encodeUtf16_marker, cons.injEq] at hunits
  exact h hunits.1.symm

theorem pair_ne_marker {l : UInt16} (hh : isHigh u = true) (hl : isLow l = true) :
    pairScalar u l ≠ marker := by
  intro heq
  have hunits := encodeUtf16_pair hh hl
  rw [heq, encodeUtf16_marker, cons.injEq] at hunits
  cases hunits.2

theorem escape_scalar {c : Char} (h : c ≠ marker) : escape (.ok c) =
    [(Except.ok c : Except UInt16 Char).toOption.getD (Char.ofNat 0xFFFD)] := if_neg h

/-- Where the scan ends well there is nothing to escape. -/
theorem escape_borrows {units : List UInt16} (h : borrows units = true) :
    ∀ x ∈ decodeUtf16 units, escape x = [x.toOption.getD (Char.ofNat 0xFFFD)] := by
  induction units using decodeUtf16.induct with
  | case1 => simp [decodeUtf16]
  | case2 u hs =>
    rw [borrows, hs, Bool.not_true, Bool.and_false] at h
    cases h
  | case3 u hs =>
    simp only [Bool.or_eq_true, not_or, Bool.not_eq_true] at hs
    simp only [borrows, Bool.and_eq_true, bne_iff_ne] at h
    simp only [decodeUtf16, hs, Bool.or_self, Bool.false_eq_true, if_false, mem_singleton,
      forall_eq]
    exact escape_scalar (scalar_ne_marker hs.1 hs.2 h.1)
  | case4 u l rest hh hl ih =>
    rw [borrows] at h
    split at h
    · cases h
    · rw [hh, hl, Bool.and_self, if_pos rfl] at h
      rw [decodeUtf16, if_pos hh, if_pos hl, forall_mem_cons]
      exact ⟨escape_scalar (pair_ne_marker hh hl), ih h⟩
  | case5 u l rest hh hl | case6 u l rest hh hl =>
    simp [borrows, hh, hl] at h
  | case7 u l rest hh hl ih =>
    rw [Bool.not_eq_true] at hh hl
    rw [borrows] at h
    split at h
    · cases h
    next hne =>
      simp only [hh, hl, Bool.false_and, Bool.or_self, Bool.false_eq_true, if_false] at h
      simp only [decodeUtf16, hh, hl, Bool.false_eq_true, if_false, forall_mem_cons]
      exact ⟨escape_scalar (scalar_ne_marker hh hl hne), ih h⟩

/-- **Property keys are lossless**, on the borrowing path too. -/
theorem property_keys (units : List UInt16) :
    fromKey (toKey units) = units ∧ toKeyCow units = toKey units ∧
      ∀ other, toKey other = toKey units ↔ other = units := by
  refine ⟨fromKey_toKey units, ?_, fun other => ⟨toKey_injective, congrArg toKey⟩⟩
  unfold toKeyCow
  split
  next h =>
    have hmap : keyChars units =
        (decodeUtf16 units).map fun x => x.toOption.getD (Char.ofNat 0xFFFD) := by
      rw [keyChars, List.flatMap_def, List.map_congr_left (escape_borrows h), ← List.flatMap_def,
        ← List.map_eq_flatMap]
    rw [toLossy, toKey, hmap]
  next => rfl

/-! ## Plain text -/

/-- The unit of a plain character. -/
def unit (c : Char) : UInt16 := UInt16.ofNat c.toNat

/-- A unit below the surrogates is kept as it is. -/
theorem keyChars_plain (h : u.toNat < 0xD800) (rest : List UInt16) :
    keyChars (u :: rest) = Char.ofNat u.toNat :: keyChars rest := by
  have hh : isHigh u = false := by
    simp only [isHigh, Bool.and_eq_false_iff, decide_eq_false_iff_not]
    omega
  have hl : isLow u = false := by
    simp only [isLow, Bool.and_eq_false_iff, decide_eq_false_iff_not]
    omega
  have hm : Char.ofNat u.toNat ≠ marker := by
    intro e
    have hn := congrArg Char.toNat e
    rw [toNat_ofNat_of_lt (Or.inl h)] at hn
    have : marker.toNat = 0xFDD0 := by decide
    omega
  have hesc : escape (.ok (Char.ofNat u.toNat)) = [Char.ofNat u.toNat] := if_neg hm
  unfold keyChars
  cases rest with
  | nil => simp [decodeUtf16, hh, hl, hesc]
  | cons l rest => simp [decodeUtf16, hh, hl, hesc]

/-- Any other unit begins its key with a character that is not plain. -/
theorem keyChars_other (h : 0xD800 ≤ u.toNat) (rest : List UInt16) :
    ∃ d tail, keyChars (u :: rest) = d :: tail ∧ 0xD800 ≤ d.toNat := by
  have hu : u.toNat < 65536 := u.toNat_lt
  have hmarker : marker.toNat = 0xFDD0 := by decide
  have herror : ∀ (v : UInt16) (tail : List Char),
      ∃ d r, escape (.error v) ++ tail = d :: r ∧ 0xD800 ≤ d.toNat := by
    intro v tail
    exact ⟨marker, _, rfl, by omega⟩
  have hok : ∀ (c : Char) (tail : List Char), 0xD800 ≤ c.toNat →
      ∃ d r, escape (.ok c) ++ tail = d :: r ∧ 0xD800 ≤ d.toNat := by
    intro c tail hc
    have hesc : escape (.ok c) = if c = marker then [marker, marker] else [c] := rfl
    rw [hesc]
    split
    · exact ⟨marker, _, rfl, by omega⟩
    · exact ⟨c, _, rfl, hc⟩
  have hbmp : isHigh u = false → isLow u = false → 0xD800 ≤ (Char.ofNat u.toNat).toNat := by
    intro hh hl
    simp only [isHigh, isLow, Bool.and_eq_false_iff, decide_eq_false_iff_not] at hh hl
    rw [toNat_ofNat_of_lt (by omega)]
    exact h
  unfold keyChars
  cases rest with
  | nil =>
    rw [decodeUtf16]
    split
    · exact herror u []
    · next hs =>
        simp only [Bool.or_eq_true, not_or, Bool.not_eq_true] at hs
        exact hok _ _ (hbmp hs.1 hs.2)
  | cons l rest =>
    rw [decodeUtf16]
    split
    · next hh =>
        split
        · next hl =>
            simp only [isHigh, isLow, Bool.and_eq_true, decide_eq_true_eq] at hh hl
            have hn : (pairScalar u l).toNat =
                0x10000 + (u.toNat - 0xD800) * 1024 + (l.toNat - 0xDC00) :=
              toNat_ofNat_of_lt (by omega)
            exact hok _ _ (by omega)
        · exact herror _ _
    · next hh =>
        split
        · exact herror _ _
        · next hl => exact hok _ _ (hbmp (by simpa using hh) (by simpa using hl))

theorem unit_eq_iff {c : Char} (hc : c.toNat < 0xD800) :
    unit c = u ↔ u.toNat < 0xD800 ∧ c = Char.ofNat u.toNat := by
  have hn : (unit c).toNat = c.toNat := by
    simp only [unit, UInt16.toNat_ofNat']
    omega
  constructor
  · rintro rfl
    rw [hn]
    exact ⟨hc, (Char.ofNat_toNat c).symm⟩
  · rintro ⟨hu, rfl⟩
    apply UInt16.toNat_inj.1
    rw [hn, toNat_ofNat_of_lt (Or.inl hu)]

/-- A key begins with plain text exactly when its string does. -/
theorem isPrefix_keyChars {text : List Char} (h : ∀ c ∈ text, c.toNat < 0xD800)
    (units : List UInt16) : text <+: keyChars units ↔ text.map unit <+: units := by
  induction text generalizing units with
  | nil => simp
  | cons c text ih =>
    have hc := h c mem_cons_self
    have ih := ih fun d hd => h d (mem_cons_of_mem _ hd)
    cases units with
    | nil => simp [keyChars, decodeUtf16]
    | cons u rest =>
      rw [map_cons, cons_prefix_cons, unit_eq_iff hc]
      by_cases hu : u.toNat < 0xD800
      · rw [keyChars_plain hu, cons_prefix_cons, ih]
        simp [hu]
      · obtain ⟨d, tail, heq, hd⟩ := keyChars_other (Nat.le_of_not_lt hu) rest
        rw [heq, cons_prefix_cons]
        have hne : c ≠ d := by
          rintro rfl
          omega
        simp [hne, hu]

/-! ## Host strings -/

theorem char_cases (c : Char) : c.toNat < 0xD800 ∨ 0xDFFF < c.toNat ∧ c.toNat < 0x110000 := by
  have h := c.valid
  simp only [UInt32.isValidChar, Nat.isValidChar] at h
  exact h

/-- The units of a scalar decode to it. -/
theorem decodeUtf16_encodeUtf16 (c : Char) (rest : List UInt16) :
    decodeUtf16 (encodeUtf16 c ++ rest) = .ok c :: decodeUtf16 rest := by
  have hc := char_cases c
  unfold encodeUtf16
  split
  · next hlt =>
      have hn : (UInt16.ofNat c.toNat).toNat = c.toNat := by
        rw [UInt16.toNat_ofNat']
        omega
      have hh : isHigh (UInt16.ofNat c.toNat) = false := by
        simp only [isHigh, hn, Bool.and_eq_false_iff, decide_eq_false_iff_not]
        omega
      have hl : isLow (UInt16.ofNat c.toNat) = false := by
        simp only [isLow, hn, Bool.and_eq_false_iff, decide_eq_false_iff_not]
        omega
      have hback : Char.ofNat (UInt16.ofNat c.toNat).toNat = c := by rw [hn, Char.ofNat_toNat]
      rw [cons_append, nil_append]
      cases rest with
      | nil =>
        simp only [decodeUtf16, hh, hl, hback]
        rfl
      | cons l rest => rw [decodeUtf16, hh, hl, hback]; rfl
  · next hge =>
      have hhi : (UInt16.ofNat (0xD800 + (c.toNat - 0x10000) / 1024)).toNat =
          0xD800 + (c.toNat - 0x10000) / 1024 := by
        rw [UInt16.toNat_ofNat']
        omega
      have hlo : (UInt16.ofNat (0xDC00 + (c.toNat - 0x10000) % 1024)).toNat =
          0xDC00 + (c.toNat - 0x10000) % 1024 := by
        rw [UInt16.toNat_ofNat']
        omega
      have hh : isHigh (UInt16.ofNat (0xD800 + (c.toNat - 0x10000) / 1024)) = true := by
        simp only [isHigh, hhi, Bool.and_eq_true, decide_eq_true_eq]
        omega
      have hl : isLow (UInt16.ofNat (0xDC00 + (c.toNat - 0x10000) % 1024)) = true := by
        simp only [isLow, hlo, Bool.and_eq_true, decide_eq_true_eq]
        omega
      have hpair : pairScalar (UInt16.ofNat (0xD800 + (c.toNat - 0x10000) / 1024))
          (UInt16.ofNat (0xDC00 + (c.toNat - 0x10000) % 1024)) = c := by
        unfold pairScalar
        rw [hhi, hlo]
        have hn : 0x10000 + (0xD800 + (c.toNat - 0x10000) / 1024 - 0xD800) * 1024 +
            (0xDC00 + (c.toNat - 0x10000) % 1024 - 0xDC00) = c.toNat := by omega
        rw [hn, Char.ofNat_toNat]
      rw [cons_append, cons_append, nil_append, decodeUtf16, if_pos hh, if_pos hl,
        hpair]

theorem decodeUtf16_ofString (text : String) :
    decodeUtf16 (ofString text) = text.toList.map .ok := by
  unfold ofString
  induction text.toList with
  | nil => rfl
  | cons c rest ih => rw [flatMap_cons, decodeUtf16_encodeUtf16, ih, map_cons]

/-- A host string survives its code units. -/
theorem toUtf8_ofString (text : String) : toUtf8 (ofString text) = some text := by
  have hall : ∀ l : List Char, (l.map (Except.ok (ε := UInt16))).mapM Except.toOption = some l := by
    intro l
    induction l with
    | nil => rfl
    | cons c l ih => simp [mapM_cons, ih, Except.toOption]
  unfold toUtf8
  rw [decodeUtf16_ofString, hall, Option.map_some, String.ofList_toList]

/-- A host string's key begins with text free of the marker exactly when the string does. -/
theorem isPrefix_keyChars_ofString {text : List Char} (h : ∀ c ∈ text, c ≠ marker)
    (name : String) : text <+: keyChars (ofString name) ↔ text <+: name.toList := by
  have hlist : ∀ l : List Char, text <+: l.flatMap (fun c => escape (.ok c)) ↔ text <+: l := by
    induction text with
    | nil => simp
    | cons c text ih =>
      have hc := h c mem_cons_self
      have ih := ih fun d hd => h d (mem_cons_of_mem _ hd)
      intro l
      cases l with
      | nil => simp
      | cons d l =>
        have hesc : escape (.ok d) = if d = marker then [marker, marker] else [d] := rfl
        rw [flatMap_cons, hesc]
        by_cases hd : d = marker
        · simp [hd, hc]
        · rw [if_neg hd, cons_append, nil_append, cons_prefix_cons,
            cons_prefix_cons, ih]
  unfold keyChars
  rw [decodeUtf16_ofString, flatMap_map]
  exact hlist name.toList

end NapiVm.JsString
