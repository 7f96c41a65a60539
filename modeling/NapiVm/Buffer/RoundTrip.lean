import NapiVm.Buffer.Codec

/-!
# What is decoded is encoded back

* `pack`, `sextets` — base64 without its alphabet: six bits at a time.
* `letters` — all that base64 looks at.
* `codecs_round_trip` — the round trips, and the length of decoded letters.
-/

namespace NapiVm.BufferCodec

open JsString List

/-! ## Texts and their bytes -/

theorem asStr_text (text : List Char) : asStr (text.flatMap encodeUtf16) = text := by
  have hdecode := decodeUtf16_ofString (String.ofList text)
  rw [ofString, String.toList_ofList] at hdecode
  rw [asStr, hdecode, map_map]
  exact map_id' _

variable {c : Char} {k : Nat} {value : UInt8} {accumulator : UInt32}

theorem utf8_ascii (h : c.toNat < 128) : String.utf8EncodeChar c = [UInt8.ofNat c.toNat] :=
  if_pos (Nat.le_of_lt_succ h)

/-- The bytes of the other characters are no letters. -/
theorem utf8_high (h : 128 ≤ c.toNat) : ∀ byte ∈ String.utf8EncodeChar c, 128 ≤ byte.toNat := by
  have hc : 128 ≤ c.val.toNat := h
  have hbyte : ∀ n, 128 ≤ n → n < 256 → 128 ≤ (UInt8.ofNat n).toNat := fun n hlow hhigh => by
    rw [UInt8.toNat_ofNat', Nat.mod_eq_of_lt hhigh]
    exact hlow
  intro byte hmem
  unfold String.utf8EncodeChar at hmem
  simp only at hmem
  split at hmem
  · omega
  · split at hmem
    · simp only [mem_cons, not_mem_nil, or_false] at hmem
      rcases hmem with rfl | rfl <;> exact hbyte _ (by omega) (by omega)
    · split at hmem
      · simp only [mem_cons, not_mem_nil, or_false] at hmem
        rcases hmem with rfl | rfl | rfl <;> exact hbyte _ (by omega) (by omega)
      · simp only [mem_cons, not_mem_nil, or_false] at hmem
        rcases hmem with rfl | rfl | rfl | rfl <;> exact hbyte _ (by omega) (by omega)

/-! ## Bits -/

theorem or_eq_add {a b : Nat} (hb : b < 2 ^ k) : 2 ^ k * a ||| b = 2 ^ k * a + b :=
  (Nat.two_pow_add_eq_or_of_lt hb a).symm

theorem shiftLeft_or {high low : UInt8} (hk : k < 8) (hlow : low.toNat < 2 ^ k)
    (hhigh : high.toNat < 2 ^ (8 - k)) :
    ((high <<< UInt8.ofNat k) ||| low).toNat = 2 ^ k * high.toNat + low.toNat := by
  have hlt : high.toNat * 2 ^ k < 2 ^ 8 := by
    calc high.toNat * 2 ^ k < 2 ^ (8 - k) * 2 ^ k :=
          Nat.mul_lt_mul_of_pos_right hhigh (Nat.two_pow_pos k)
      _ = 2 ^ 8 := by rw [← pow_add, Nat.sub_add_cancel (Nat.le_of_lt hk)]
  rw [UInt8.toNat_or, UInt8.toNat_shiftLeft, UInt8.toNat_ofNat', Nat.shiftLeft_eq]
  rw [Nat.mod_eq_of_lt (show k < 2 ^ 8 by omega), Nat.mod_eq_of_lt hk, Nat.mod_eq_of_lt hlt,
    Nat.mul_comm, or_eq_add hlow]

/-! ## Hexadecimal digits -/

theorem hexNibble_digit {n : Nat} (hn : n < 16) : ∃ byte,
    String.utf8EncodeChar (Nat.digitChar n) = [byte] ∧ hexNibble byte = some (UInt8.ofNat n) := by
  have hall : ∀ i : Fin 16, (String.utf8EncodeChar (Nat.digitChar i)).map hexNibble =
      [some (UInt8.ofNat i)] := by decide
  obtain ⟨byte, hbyte, hnibble⟩ := map_eq_singleton_iff.1 (hall ⟨n, hn⟩)
  exact ⟨byte, hbyte, hnibble⟩

theorem encodeHex_hexByte (byte : UInt8) (rest : List UInt8) :
    encodeHex (utf8 (hexByte byte) ++ rest) = byte :: encodeHex rest := by
  have hbyte := byte.toNat_lt
  obtain ⟨a, ha, hhigh⟩ := hexNibble_digit (n := byte.toNat / 16) (by omega)
  obtain ⟨b, hb, hlow⟩ := hexNibble_digit (n := byte.toNat % 16) (by omega)
  have hsum : (UInt8.ofNat (byte.toNat / 16) <<< 4) ||| UInt8.ofNat (byte.toNat % 16) = byte := by
    have h := shiftLeft_or (k := 4) (by decide)
      (show (UInt8.ofNat (byte.toNat % 16)).toNat < 2 ^ 4 by rw [UInt8.toNat_ofNat']; omega)
      (show (UInt8.ofNat (byte.toNat / 16)).toNat < 2 ^ (8 - 4) by rw [UInt8.toNat_ofNat']; omega)
    rw [← UInt8.toNat_inj]
    refine h.trans ?_
    rw [UInt8.toNat_ofNat', UInt8.toNat_ofNat']
    omega
  rw [hexByte, utf8, flatMap_cons, flatMap_cons, ha, hb]
  simp only [flatMap_nil, append_nil, cons_append, nil_append, encodeHex, hhigh, hlow, hsum]

theorem encodeHex_hex (bytes : List UInt8) : encodeHex (utf8 (bytes.flatMap hexByte)) = bytes := by
  induction bytes with
  | nil => rfl
  | cons byte bytes ih =>
    have happend : utf8 ((byte :: bytes).flatMap hexByte) =
        utf8 (hexByte byte) ++ utf8 (bytes.flatMap hexByte) := by
      rw [utf8, utf8, utf8, flatMap_cons, flatMap_append]
    rw [happend, encodeHex_hexByte, ih]

/-! ## Units -/

theorem encodeUtf16_byte (byte : UInt8) :
    encodeUtf16 (Char.ofNat byte.toNat) = [byte.toUInt16] := by
  have hbyte := byte.toNat_lt
  have hnat : (Char.ofNat byte.toNat).toNat = byte.toNat := toNat_ofNat_of_lt (.inl (by omega))
  have hunit : UInt16.ofNat byte.toNat = byte.toUInt16 := by
    rw [← UInt16.toNat_inj, UInt16.toNat_ofNat', UInt8.toNat_toUInt16]
    exact Nat.mod_eq_of_lt (by omega)
  rw [encodeUtf16, hnat, if_pos (by omega), hunit]

theorem latin1_bytes (bytes : List UInt8) :
    ((bytes.map fun byte => Char.ofNat byte.toNat).flatMap encodeUtf16).map UInt16.toUInt8 =
      bytes := by
  induction bytes with
  | nil => rfl
  | cons byte bytes ih =>
    rw [map_cons, flatMap_cons, encodeUtf16_byte, singleton_append, map_cons,
      ih, UInt8.toUInt8_toUInt16]

theorem fromLeBytes_toLeBytes (string : List UInt16) :
    fromLeBytes (string.flatMap toLeBytes) = string := by
  induction string with
  | nil => rfl
  | cons u string ih =>
    have hu := u.toNat_lt
    have hunit : u.toUInt8.toUInt16 ||| ((u >>> 8).toUInt8.toUInt16 <<< 8) = u := by
      rw [← UInt16.toNat_inj, UInt16.toNat_or, UInt16.toNat_shiftLeft, UInt8.toNat_toUInt16,
        UInt8.toNat_toUInt16, UInt16.toNat_toUInt8, UInt16.toNat_toUInt8, UInt16.toNat_shiftRight]
      simp only [UInt16.reduceToNat, Nat.reduceMod, Nat.shiftRight_eq_div_pow, Nat.shiftLeft_eq]
      rw [Nat.mod_eq_of_lt (show u.toNat / 2 ^ 8 % 2 ^ 8 * 2 ^ 8 < 2 ^ 16 by omega), Nat.or_comm,
        Nat.mul_comm, or_eq_add (show u.toNat % 2 ^ 8 < 2 ^ 8 by omega)]
      omega
    rw [flatMap_cons, toLeBytes, cons_append, singleton_append, fromLeBytes, hunit, ih]

theorem toLeBytes_fromLeBytes : ∀ bytes : List UInt8, bytes.length % 2 = 0 →
    (fromLeBytes bytes).flatMap toLeBytes = bytes
  | [], _ => rfl
  | [_], h => by cases h
  | low :: high :: rest, h => by
      have hlow := low.toNat_lt
      have hhigh := high.toNat_lt
      have hnat : (low.toUInt16 ||| (high.toUInt16 <<< 8)).toNat =
          2 ^ 8 * high.toNat + low.toNat := by
        rw [UInt16.toNat_or, UInt16.toNat_shiftLeft, UInt8.toNat_toUInt16, UInt8.toNat_toUInt16]
        simp only [UInt16.reduceToNat, Nat.reduceMod, Nat.shiftLeft_eq]
        rw [Nat.mod_eq_of_lt (show high.toNat * 2 ^ 8 < 2 ^ 16 by omega), Nat.or_comm, Nat.mul_comm,
          or_eq_add hlow]
      have hrest : rest.length % 2 = 0 := by
        simp only [length_cons] at h
        omega
      have hbytes : toLeBytes (low.toUInt16 ||| (high.toUInt16 <<< 8)) = [low, high] := by
        rw [toLeBytes, cons.injEq, cons.injEq]
        refine ⟨?_, ?_, rfl⟩
        · rw [← UInt8.toNat_inj, UInt16.toNat_toUInt8, hnat]
          omega
        · rw [← UInt8.toNat_inj, UInt16.toNat_toUInt8, UInt16.toNat_shiftRight, hnat]
          simp only [UInt16.reduceToNat, Nat.reduceMod, Nat.shiftRight_eq_div_pow]
          omega
      rw [fromLeBytes, flatMap_cons, hbytes, toLeBytes_fromLeBytes rest hrest]
      rfl

/-! ## Base64 -/

/-- Six bits at a time, a byte whenever there are eight. -/
def pack : List UInt8 → UInt32 → UInt8 → List UInt8
  | [], _, _ => []
  | value :: rest, accumulator, bits =>
    let accumulator := (accumulator <<< 6) ||| value.toUInt32
    let bits := bits + 6
    if 8 ≤ bits then
      (accumulator >>> (bits - 8).toUInt32).toUInt8 :: pack rest accumulator (bits - 8)
    else pack rest accumulator bits

/-- What the letters before the first `=` stand for. -/
def sextets (bytes : List UInt8) : List UInt8 := (bytes.takeWhile (· != 61)).filterMap sextet

theorem decodeBytes_eq_pack (bytes : List UInt8) (accumulator : UInt32) (bits : UInt8) :
    decodeBytes bytes accumulator bits = pack (sextets bytes) accumulator bits := by
  induction bytes generalizing accumulator bits with
  | nil => rfl
  | cons byte rest ih =>
    rw [decodeBytes, sextets, takeWhile_cons]
    by_cases hend : byte = 61
    · rw [if_pos hend, hend]
      rfl
    · rw [if_neg hend, bne_iff_ne.2 hend, if_pos rfl, filterMap_cons]
      cases hsextet : sextet byte with
      | none => exact ih _ _
      | some value =>
        simp only [pack, ih]
        rfl

theorem length_pack (values : List UInt8) (accumulator : UInt32) {bits : UInt8}
    (hbits : bits.toNat < 8) :
    (pack values accumulator bits).length = (bits.toNat + 6 * values.length) / 8 := by
  induction values generalizing accumulator bits with
  | nil =>
    rw [pack, length_nil]
    omega
  | cons value values ih =>
    have hadd : (bits + 6).toNat = bits.toNat + 6 := by
      rw [UInt8.toNat_add]
      exact Nat.mod_eq_of_lt (show bits.toNat + 6 < 256 by omega)
    rw [pack]
    simp only [UInt8.le_iff_toNat_le, hadd]
    by_cases hfull : (8 : UInt8).toNat ≤ bits.toNat + 6
    · have hfull' : 8 ≤ bits.toNat + 6 := hfull
      have hsub : (bits + 6 - 8).toNat = bits.toNat + 6 - 8 := by
        rw [UInt8.toNat_sub_of_le _ _ (by rw [UInt8.le_iff_toNat_le, hadd]; exact hfull), hadd]
        rfl
      rw [if_pos hfull, length_cons, ih _ (by omega), hsub, length_cons]
      omega
    · have hfull' : ¬ 8 ≤ bits.toNat + 6 := hfull
      rw [if_neg hfull, ih _ (by omega), hadd, length_cons]
      omega

/-- Six bits behind the accumulator. -/
def push (accumulator : UInt32) (value : UInt8) : UInt32 := (accumulator <<< 6) ||| value.toUInt32

theorem toNat_push (accumulator : UInt32) (hvalue : value.toNat < 64) :
    (push accumulator value).toNat = (accumulator.toNat * 64 + value.toNat) % 2 ^ 32 := by
  have hlt := accumulator.toNat_lt
  rw [push, UInt32.toNat_or, UInt32.toNat_shiftLeft, UInt8.toNat_toUInt32]
  simp only [UInt32.reduceToNat, Nat.reduceMod, Nat.shiftLeft_eq]
  have hmod : accumulator.toNat * 2 ^ 6 % 2 ^ 32 = 2 ^ 6 * (accumulator.toNat % 2 ^ 26) := by omega
  rw [hmod, or_eq_add (show value.toNat < 2 ^ 6 from hvalue)]
  omega

theorem pack_zero (value : UInt8) (rest : List UInt8) (accumulator : UInt32) :
    pack (value :: rest) accumulator 0 = pack rest (push accumulator value) 6 := rfl

theorem pack_six (value : UInt8) (rest : List UInt8) (accumulator : UInt32) :
    pack (value :: rest) accumulator 6 =
      (push accumulator value >>> 4).toUInt8 :: pack rest (push accumulator value) 4 := rfl

theorem pack_four (value : UInt8) (rest : List UInt8) (accumulator : UInt32) :
    pack (value :: rest) accumulator 4 =
      (push accumulator value >>> 2).toUInt8 :: pack rest (push accumulator value) 2 := rfl

theorem pack_two (value : UInt8) (rest : List UInt8) (accumulator : UInt32) :
    pack (value :: rest) accumulator 2 =
      (push accumulator value >>> 0).toUInt8 :: pack rest (push accumulator value) 0 := rfl

/-! Values of a chunk. -/

theorem toNat_first (a : UInt8) : (a >>> 2).toNat = a.toNat / 4 := by
  rw [UInt8.toNat_shiftRight]
  simp only [UInt8.reduceToNat, Nat.reduceMod, Nat.shiftRight_eq_div_pow]

theorem toNat_second (a b : UInt8) :
    (((a &&& 0x03) <<< 4) ||| (b >>> 4)).toNat = a.toNat % 4 * 16 + b.toNat / 16 := by
  have hb := b.toNat_lt
  have hand : (a &&& 0x03).toNat = a.toNat % 4 := by
    rw [UInt8.toNat_and]
    exact Nat.and_two_pow_sub_one_eq_mod a.toNat 2
  have hshift : (b >>> 4).toNat = b.toNat / 16 := by
    rw [UInt8.toNat_shiftRight]
    simp only [UInt8.reduceToNat, Nat.reduceMod, Nat.shiftRight_eq_div_pow]
  have h := shiftLeft_or (k := 4) (by decide) (show (b >>> 4).toNat < 2 ^ 4 by omega)
    (show (a &&& 0x03).toNat < 2 ^ (8 - 4) by omega)
  refine h.trans ?_
  omega

theorem toNat_third (b c : UInt8) :
    (((b &&& 0x0F) <<< 2) ||| (c >>> 6)).toNat = b.toNat % 16 * 4 + c.toNat / 64 := by
  have hc := c.toNat_lt
  have hand : (b &&& 0x0F).toNat = b.toNat % 16 := by
    rw [UInt8.toNat_and]
    exact Nat.and_two_pow_sub_one_eq_mod b.toNat 4
  have hshift : (c >>> 6).toNat = c.toNat / 64 := by
    rw [UInt8.toNat_shiftRight]
    simp only [UInt8.reduceToNat, Nat.reduceMod, Nat.shiftRight_eq_div_pow]
  have h := shiftLeft_or (k := 2) (by decide) (show (c >>> 6).toNat < 2 ^ 2 by omega)
    (show (b &&& 0x0F).toNat < 2 ^ (8 - 2) by omega)
  refine h.trans ?_
  omega

theorem toNat_fourth (c : UInt8) : (c &&& 0x3F).toNat = c.toNat % 64 := by
  rw [UInt8.toNat_and]
  exact Nat.and_two_pow_sub_one_eq_mod c.toNat 6

variable {byte : UInt8} {bytes : List UInt8} {string : List UInt16} {encoding : Encoding}

/-- The bits of a byte among those of the accumulator. -/
theorem toUInt8_shiftRight (hk : k < 32) (h : accumulator.toNat / 2 ^ k % 256 = byte.toNat) :
    (accumulator >>> UInt32.ofNat k).toUInt8 = byte := by
  have hshift : (UInt32.ofNat k).toNat % 32 = k := by
    rw [UInt32.toNat_ofNat', Nat.mod_eq_of_lt (show k < 2 ^ 32 by omega), Nat.mod_eq_of_lt hk]
  rw [← UInt8.toNat_inj, UInt32.toNat_toUInt8, UInt32.toNat_shiftRight, hshift,
    Nat.shiftRight_eq_div_pow]
  exact h

/-- The first two letters give the first byte, and what is left of the second letter. -/
theorem pack_first (a b : UInt8) (rest : List UInt8) (accumulator : UInt32) : ∃ next : UInt32,
    next.toNat % 16 = b.toNat / 16 ∧
      pack ((a >>> 2) :: (((a &&& 0x03) <<< 4) ||| (b >>> 4)) :: rest) accumulator 0 =
        a :: pack rest next 4 := by
  have ha := a.toNat_lt
  have hb := b.toNat_lt
  have hacc := accumulator.toNat_lt
  have hone := toNat_push accumulator (show (a >>> 2).toNat < 64 by rw [toNat_first]; omega)
  have htwo := toNat_push (push accumulator (a >>> 2))
    (show (((a &&& 0x03) <<< 4) ||| (b >>> 4)).toNat < 64 by rw [toNat_second]; omega)
  rw [toNat_first] at hone
  rw [toNat_second, hone] at htwo
  refine ⟨push (push accumulator (a >>> 2)) (((a &&& 0x03) <<< 4) ||| (b >>> 4)), ?_, ?_⟩
  · rw [htwo]
    omega
  · rw [pack_zero, pack_six]
    congr 1
    refine toUInt8_shiftRight (k := 4) (by decide) ?_
    rw [htwo]
    omega

theorem pack_second (b c : UInt8) (rest : List UInt8)
    (haccumulator : accumulator.toNat % 16 = b.toNat / 16) : ∃ next : UInt32,
      next.toNat % 4 = c.toNat / 64 ∧
        pack ((((b &&& 0x0F) <<< 2) ||| (c >>> 6)) :: rest) accumulator 4 =
          b :: pack rest next 2 := by
  have hb := b.toNat_lt
  have hc := c.toNat_lt
  have hacc := accumulator.toNat_lt
  have hone := toNat_push accumulator
    (show (((b &&& 0x0F) <<< 2) ||| (c >>> 6)).toNat < 64 by rw [toNat_third]; omega)
  rw [toNat_third] at hone
  refine ⟨push accumulator (((b &&& 0x0F) <<< 2) ||| (c >>> 6)), ?_, ?_⟩
  · rw [hone]
    omega
  · rw [pack_four]
    congr 1
    refine toUInt8_shiftRight (k := 2) (by decide) ?_
    rw [hone]
    omega

theorem pack_third (c : UInt8) (rest : List UInt8)
    (haccumulator : accumulator.toNat % 4 = c.toNat / 64) : ∃ next : UInt32,
      pack ((c &&& 0x3F) :: rest) accumulator 2 = c :: pack rest next 0 := by
  have hc := c.toNat_lt
  have hacc := accumulator.toNat_lt
  have hone := toNat_push accumulator (show (c &&& 0x3F).toNat < 64 by rw [toNat_fourth]; omega)
  rw [toNat_fourth] at hone
  refine ⟨push accumulator (c &&& 0x3F), ?_⟩
  rw [pack_two]
  congr 1
  refine toUInt8_shiftRight (k := 0) (by decide) ?_
  rw [hone]
  omega

/-! Letters. -/

theorem letter_value (url : Bool) (hvalue : value.toNat < 64) : ∃ byte,
    String.utf8EncodeChar (letter url value) = [byte] ∧ byte ≠ 61 ∧ sextet byte = some value := by
  have hall : ∀ url : Bool, ∀ i : Fin 64,
      (String.utf8EncodeChar (letter url (UInt8.ofNat i))).map
        (fun byte => (byte == 61, sextet byte)) = [(false, some (UInt8.ofNat i))] := by
    decide +kernel
  obtain ⟨byte, hbyte, hpair⟩ := map_eq_singleton_iff.1 (hall url ⟨value.toNat, hvalue⟩)
  obtain ⟨hend, hsextet⟩ := Prod.mk.inj hpair
  simp only [UInt8.ofNat_toNat] at hbyte hsextet
  exact ⟨byte, hbyte, bne_iff_ne.1 (congrArg not hend), hsextet⟩

/-- A letter gives its value, whatever follows. -/
theorem sextets_letter (url : Bool) (hvalue : value.toNat < 64) (text : List Char) :
    sextets (utf8 (letter url value :: text)) = value :: sextets (utf8 text) := by
  obtain ⟨byte, hbyte, hend, hsextet⟩ := letter_value url hvalue
  rw [utf8, flatMap_cons, hbyte, singleton_append, sextets, takeWhile_cons,
    bne_iff_ne.2 hend, if_pos rfl, filterMap_cons, hsextet]
  rfl

/-- What stands in the places of letters that are not there. -/
def padding (url : Bool) : List Char := if url then [] else ['=']

theorem sextets_padding (url : Bool) : sextets (utf8 (padding url)) = [] := by
  cases url <;> rfl

theorem sextets_padding_twice (url : Bool) : sextets (utf8 (padding url ++ padding url)) = [] := by
  cases url <;> rfl

theorem pack_encodeBase64 (url : Bool) (bytes : List UInt8) (accumulator : UInt32) :
    pack (sextets (utf8 (encodeBase64 url bytes))) accumulator 0 = bytes := by
  have hfirst (a : UInt8) : (a >>> 2).toNat < 64 := by
    have ha := a.toNat_lt
    rw [toNat_first]
    omega
  have hsecond (a b : UInt8) : (((a &&& 0x03) <<< 4) ||| (b >>> 4)).toNat < 64 := by
    have hb := b.toNat_lt
    rw [toNat_second]
    omega
  have hthird (b c : UInt8) : (((b &&& 0x0F) <<< 2) ||| (c >>> 6)).toNat < 64 := by
    have hc := c.toNat_lt
    rw [toNat_third]
    omega
  have hfourth (c : UInt8) : (c &&& 0x3F).toNat < 64 := by
    rw [toNat_fourth]
    omega
  induction bytes using encodeBase64.induct generalizing accumulator with
  | case1 => rfl
  | case2 a =>
    have hletters : encodeBase64 url [a] =
        letter url (a >>> 2) :: letter url (((a &&& 0x03) <<< 4) ||| ((0 : UInt8) >>> 4)) ::
          (padding url ++ padding url) := rfl
    obtain ⟨one, -, hone⟩ := pack_first a 0 [] accumulator
    rw [hletters, sextets_letter url (hfirst a), sextets_letter url (hsecond a 0),
      sextets_padding_twice, hone, pack]
  | case3 a b =>
    have hletters : encodeBase64 url [a, b] =
        letter url (a >>> 2) :: letter url (((a &&& 0x03) <<< 4) ||| (b >>> 4)) ::
          letter url (((b &&& 0x0F) <<< 2) ||| ((0 : UInt8) >>> 6)) :: padding url := by
      cases url <;> rfl
    obtain ⟨one, hbits, hone⟩ :=
      pack_first a b [((b &&& 0x0F) <<< 2) ||| ((0 : UInt8) >>> 6)] accumulator
    obtain ⟨two, -, htwo⟩ := pack_second b 0 [] hbits
    rw [hletters, sextets_letter url (hfirst a), sextets_letter url (hsecond a b),
      sextets_letter url (hthird b 0), sextets_padding, hone, htwo, pack]
  | case4 a b c rest ih =>
    obtain ⟨one, hone, hpack⟩ := pack_first a b (((b &&& 0x0F) <<< 2 ||| c >>> 6) ::
      (c &&& 0x3F) :: sextets (utf8 (encodeBase64 url rest))) accumulator
    obtain ⟨two, htwo, hpack'⟩ :=
      pack_second b c ((c &&& 0x3F) :: sextets (utf8 (encodeBase64 url rest))) hone
    obtain ⟨three, hpack''⟩ := pack_third c (sextets (utf8 (encodeBase64 url rest))) htwo
    have hletters : encodeBase64 url (a :: b :: c :: rest) =
        letter url (a >>> 2) :: letter url (((a &&& 0x03) <<< 4) ||| (b >>> 4)) ::
          letter url (((b &&& 0x0F) <<< 2) ||| (c >>> 6)) :: letter url (c &&& 0x3F) ::
            encodeBase64 url rest := rfl
    rw [hletters, sextets_letter url (hfirst a), sextets_letter url (hsecond a b),
      sextets_letter url (hthird b c), sextets_letter url (hfourth c), hpack, hpack', hpack'',
      ih three]

/-! ## Other characters -/

/-- The letters of both alphabets. -/
def isLetter (c : Char) : Bool := c.isAlphanum || ['+', '/', '-', '_'].contains c

/-- The letters before the first `=`. -/
def letters (text : List Char) : List Char := (text.takeWhile (· != '=')).filter isLetter

def letterValue (c : Char) : UInt8 := (sextet (UInt8.ofNat c.toNat)).getD 0

theorem sextet_ascii (h : c.toNat < 128) : sextet (UInt8.ofNat c.toNat) =
    if isLetter c then some (letterValue c) else none := by
  have hall : ∀ i : Fin 128, sextet (UInt8.ofNat (Char.ofNat i).toNat) =
      if isLetter (Char.ofNat i) then some (letterValue (Char.ofNat i)) else none := by
    decide +kernel
  have hc := hall ⟨c.toNat, h⟩
  simp only [Char.ofNat_toNat] at hc
  exact hc

theorem isLetter_high (h : 128 ≤ c.toNat) : isLetter c = false := by
  have hc : 128 ≤ c.val.toNat := h
  have hsmall : ['+', '/', '-', '_'].all (·.toNat < 128) = true := by decide
  have hnot : ['+', '/', '-', '_'].contains c = false := by
    rw [← Bool.not_eq_true, contains_iff_mem]
    intro hmem
    exact Nat.not_lt.2 h (of_decide_eq_true (all_eq_true.1 hsmall c hmem))
  have hrange {lo hi : UInt32} (hhi : hi.toNat < 128) : ¬ (lo ≤ c.val ∧ c.val ≤ hi) := fun hmem =>
    absurd (UInt32.le_iff_toNat_le.1 hmem.2) (by omega)
  have hupper : c.isUpper = false := decide_eq_false (hrange (by decide))
  have hlower : c.isLower = false := by
    refine Bool.eq_false_iff.2 fun hlower => ?_
    obtain ⟨hlo, hhi⟩ := Bool.and_eq_true_iff.1 hlower
    exact hrange (by decide) ⟨of_decide_eq_true hlo, of_decide_eq_true hhi⟩
  have hdigit : c.isDigit = false := by
    refine Bool.eq_false_iff.2 fun hdigit => ?_
    obtain ⟨hlo, hhi⟩ := Bool.and_eq_true_iff.1 hdigit
    exact hrange (by decide) ⟨of_decide_eq_true hlo, of_decide_eq_true hhi⟩
  have halpha : c.isAlphanum = false := by
    rw [Char.isAlphanum, show c.isAlpha = false from Bool.or_eq_false_iff.2 ⟨hupper, hlower⟩,
      hdigit, Bool.or_false]
  rw [isLetter, halpha, hnot, Bool.false_or]

theorem sextets_append_skip (rest : List UInt8)
    (h : ∀ byte ∈ bytes, byte ≠ 61 ∧ sextet byte = none) :
    sextets (bytes ++ rest) = sextets rest := by
  induction bytes with
  | nil => rfl
  | cons byte bytes ih =>
    obtain ⟨hend, hnone⟩ := h byte mem_cons_self
    rw [cons_append, sextets, takeWhile_cons, bne_iff_ne.2 hend, if_pos rfl, filterMap_cons, hnone]
    exact ih fun byte hmem => h byte (mem_cons_of_mem _ hmem)

/-- A byte of no letter. -/
theorem sextet_high (h : 128 ≤ byte.toNat) : byte ≠ 61 ∧ sextet byte = none := by
  have hall : ∀ i : Fin 256, 128 ≤ i.val → UInt8.ofNat i ≠ 61 ∧ sextet (UInt8.ofNat i) = none := by
    decide +kernel
  have hbyte := hall ⟨byte.toNat, byte.toNat_lt⟩ h
  simp only [UInt8.ofNat_toNat] at hbyte
  exact hbyte

theorem sextets_utf8 (text : List Char) : sextets (utf8 text) = (letters text).map letterValue := by
  induction text with
  | nil => rfl
  | cons c text ih =>
    by_cases hend : c = '='
    · rw [hend]
      rfl
    · have hletters : letters (c :: text) =
          if isLetter c then c :: letters text else letters text := by
        rw [letters, takeWhile_cons, bne_iff_ne.2 hend, if_pos rfl, filter_cons]
        rfl
      rw [hletters, utf8, flatMap_cons]
      by_cases hascii : c.toNat < 128
      · have hbyte : UInt8.ofNat c.toNat ≠ 61 := by
          intro heq
          have hnat := congrArg UInt8.toNat heq
          rw [UInt8.toNat_ofNat', Nat.mod_eq_of_lt (by omega)] at hnat
          exact hend (Char.toNat_inj.1 hnat)
        rw [utf8_ascii hascii, singleton_append, sextets, takeWhile_cons,
          bne_iff_ne.2 hbyte, if_pos rfl, filterMap_cons, sextet_ascii hascii]
        cases isLetter c with
        | false => exact ih
        | true => exact congrArg (letterValue c :: ·) ih
      · have hhigh := Nat.le_of_not_lt hascii
        rw [isLetter_high hhigh]
        exact (sextets_append_skip _ fun byte hmem =>
          sextet_high (utf8_high hhigh byte hmem)).trans ih

theorem decodeBase64_letters (text : List Char) :
    decodeBase64 text = pack ((letters text).map letterValue) 0 0 := by
  rw [decodeBase64, decodeBytes_eq_pack, sextets_utf8]

theorem length_decodeBase64 (text : List Char) :
    (decodeBase64 text).length = 6 * (letters text).length / 8 := by
  rw [decodeBase64_letters, length_pack _ _ (by decide), length_map]
  exact congrArg (· / 8) (Nat.zero_add _)

/-! ## Round trips -/

theorem length_flatMap_toLeBytes (string : List UInt16) :
    (string.flatMap toLeBytes).length = 2 * string.length := by
  induction string with
  | nil => rfl
  | cons unit string ih =>
    rw [flatMap_cons, length_append, ih, length_cons]
    exact (Nat.add_comm _ _).trans (Nat.mul_succ 2 _).symm

theorem encode_eq_ok (hraw : rawBytes string encoding = bytes)
    (hlength : bytes.length ≤ maxBufferLength) : encode string encoding = .ok bytes := by
  rw [encode, hraw]
  exact if_neg (Nat.not_lt.2 hlength)

/-- The letters of bytes are text, and its bytes are what is decoded. -/
theorem rawBytes_decode (bytes : List UInt8)
    (h : encoding ∈ [Encoding.hex, .base64, .base64url, .latin1]) :
    rawBytes (decode bytes encoding) encoding = bytes := by
  have hbase64 (url : Bool) : decodeBase64 (encodeBase64 url bytes) = bytes := by
    rw [decodeBase64, decodeBytes_eq_pack, pack_encodeBase64]
  cases encoding with
  | hex =>
    rw [decode, if_neg (by decide), decodeText, rawBytes, asStr_text, encodeHex_hex]
  | base64 | base64url =>
    rw [decode, if_neg (by decide), decodeText, rawBytes, asStr_text, hbase64]
  | latin1 =>
    rw [decode, if_neg (by decide), decodeText, rawBytes, latin1_bytes]
  | utf8 | ascii | utf16le => exact absurd h (by decide)

/-- A string of more than half the limit is refused in UTF-16. -/
theorem encode_utf16le_long (h : maxBufferLength < 2 * string.length) :
    encode string .utf16le = .error (rangeError "The value of \"size\" is out of range") := by
  rw [encode]
  exact if_pos (by rw [rawBytes, length_flatMap_toLeBytes]; exact h)

theorem codecs_round_trip :
    (∀ bytes : List UInt8, bytes.length ≤ maxBufferLength →
      (∀ encoding ∈ [Encoding.hex, .base64, .base64url, .latin1],
        encode (decode bytes encoding) encoding = .ok bytes) ∧
      (bytes.length % 2 = 0 → encode (decode bytes .utf16le) .utf16le = .ok bytes)) ∧
    (∀ string : List UInt16,
      (2 * string.length ≤ maxBufferLength → ∃ bytes,
        encode string .utf16le = .ok bytes ∧ decode bytes .utf16le = string) ∧
      (maxBufferLength < 2 * string.length → encode string .utf16le =
        .error (rangeError "The value of \"size\" is out of range"))) ∧
    (∀ text text' : List Char, letters text = letters text' →
      decodeBase64 text = decodeBase64 text') ∧
    ∀ text : List Char, (decodeBase64 text).length = 6 * (letters text).length / 8 := by
  refine ⟨fun bytes hlength => ⟨?_, ?_⟩, fun string => ⟨?_, encode_utf16le_long⟩, ?_,
    length_decodeBase64⟩
  · intro encoding hencoding
    exact encode_eq_ok (rawBytes_decode bytes hencoding) hlength
  · intro heven
    exact encode_eq_ok (toLeBytes_fromLeBytes bytes heven) hlength
  · intro hlength
    have hbytes : (string.flatMap toLeBytes).length ≤ maxBufferLength := by
      rw [length_flatMap_toLeBytes]
      exact hlength
    exact ⟨_, encode_eq_ok rfl hbytes, fromLeBytes_toLeBytes string⟩
  · intro text text' heq
    rw [decodeBase64_letters, decodeBase64_letters, heq]

theorem codecs_round_trip_small :
    encode (decode [77, 97] .base64) .base64 = .ok [77, 97] ∧
      encode (decode [77, 97] .utf16le) .utf16le = .ok [77, 97] ∧
      (∃ bytes, encode [0x26, 0xD800] .utf16le = .ok bytes ∧
        decode bytes .utf16le = [0x26, 0xD800]) ∧
      decodeBase64 "T W\nE=!".toList = decodeBase64 "TWE".toList := by
  have hbytes := codecs_round_trip.1 [77, 97] (by decide)
  exact ⟨hbytes.1 .base64 (by decide), hbytes.2 (by decide),
    (codecs_round_trip.2.1 [0x26, 0xD800]).1 (by decide),
    codecs_round_trip.2.2.1 _ _ (by decide)⟩

/-- Half the limit and one unit more. -/
theorem utf16le_beyond_limit : ¬ ∀ string : List UInt16, ∃ bytes,
    encode string .utf16le = .ok bytes ∧ decode bytes .utf16le = string := by
  intro h
  obtain ⟨bytes, hencode, -⟩ := h (List.replicate (maxBufferLength / 2 + 1) 0)
  rw [encode_utf16le_long (by rw [List.length_replicate]; decide)] at hencode
  cases hencode

end NapiVm.BufferCodec
