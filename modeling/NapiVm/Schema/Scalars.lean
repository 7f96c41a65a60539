import NapiVm.Schema.Check

/-!
# Canonical scalars

Bytes travel as base64 and 64-bit integers as decimals, each in exactly one text.

* `encodeBytes`, `decodeBytes` — base64.
* `canonicalBase64_iff` — the canonical texts are those that `encodeBytes` makes.
* `scalars_canonical` — both for every string.
-/

namespace NapiVm.Schema

open Rpc

/-! ## Base64 -/

/-- `A`. -/
def alphabet : List Char :=
  ['A', 'B', 'C', 'D', 'E', 'F', 'G', 'H', 'I', 'J', 'K', 'L', 'M', 'N', 'O', 'P', 'Q', 'R', 'S',
   'T', 'U', 'V', 'W', 'X', 'Y', 'Z', 'a', 'b', 'c', 'd', 'e', 'f', 'g', 'h', 'i', 'j', 'k', 'l',
   'm', 'n', 'o', 'p', 'q', 'r', 's', 't', 'u', 'v', 'w', 'x', 'y', 'z', '0', '1', '2', '3', '4',
   '5', '6', '7', '8', '9', '+', '/']

/-- The letter for the lowest six bits. -/
def letter (n : Nat) : Char := alphabet.getD (n % 64) 'A'

/-- The letters of a chunk; its bytes are put together to one number. -/
def encodeChunk (a : UInt8) (b c : Option UInt8) : List Char :=
  let n := a.toNat * 2 ^ 16 + (b.getD 0).toNat * 2 ^ 8 + (c.getD 0).toNat
  [letter (n / 2 ^ 18), letter (n / 2 ^ 12), if b.isSome then letter (n / 2 ^ 6) else '=',
    if c.isSome then letter n else '=']

def encodeChunks : List UInt8 → List Char
  | [] => []
  | [a] => encodeChunk a none none
  | [a, b] => encodeChunk a (some b) none
  | a :: b :: c :: rest => encodeChunk a (some b) (some c) ++ encodeChunks rest

/-- `encode_bytes`. -/
def encodeBytes (bytes : List UInt8) : String := String.ofList (encodeChunks bytes)

/-- `position`, and 0 for a byte that is no letter. -/
def position (b : UInt8) : Nat := (alphabet.findIdx? fun c => c.toNat = b.toNat).getD 0

/-- The bytes of the chunks; one that is shorter is not canonical. -/
def decodeChunks : List UInt8 → List UInt8
  | a :: b :: c :: d :: rest =>
    let n := [a, b, c, d].foldl (fun n x => n * 2 ^ 6 + position x) 0
    [UInt8.ofNat (n / 2 ^ 16)] ++ (if c ≠ 61 then [UInt8.ofNat (n / 2 ^ 8)] else []) ++
      (if d ≠ 61 then [UInt8.ofNat n] else []) ++ decodeChunks rest
  | _ => []

/-- `decode_bytes`. -/
def decodeBytes (s : String) : Except RpcError (List UInt8) :=
  if !canonicalBase64 (asBytes s) then .error (invalid "noncanonical base64")
  else .ok (decodeChunks (asBytes s))

/-! ### Letters -/

/-- The byte of a letter. -/
def letterByte (n : Nat) : UInt8 := UInt8.ofNat (letter n).toNat

theorem letter_mod (n : Nat) : letter (n % 64) = letter n := by rw [letter, letter, Nat.mod_mod]

theorem letterByte_mod (n : Nat) : letterByte (n % 64) = letterByte n := by
  rw [letterByte, letter_mod, letterByte]

/-- What holds of the letters of 0 to 63 holds of all. -/
theorem letter_cases {p : Nat → Prop} (h : ∀ i : Fin 64, p i) (n : Nat) : p (n % 64) :=
  h ⟨n % 64, Nat.mod_lt _ (by decide)⟩

theorem utf8_letter (n : Nat) : String.utf8EncodeChar (letter n) = [letterByte n] := by
  have hall : ∀ i : Fin 64, String.utf8EncodeChar (letter i) = [letterByte i] := by decide +kernel
  have h := letter_cases (p := fun i => String.utf8EncodeChar (letter i) = [letterByte i]) hall n
  rwa [letter_mod, letterByte_mod] at h

theorem sextet_letterByte (n : Nat) : sextet (letterByte n) = some (n % 64) := by
  have hall : ∀ i : Fin 64, sextet (letterByte i) = some (i : Nat) := by decide +kernel
  have h := letter_cases (p := fun i => sextet (letterByte i) = some i) hall n
  rwa [letterByte_mod] at h

theorem position_letterByte (n : Nat) : position (letterByte n) = n % 64 := by
  have hall : ∀ i : Fin 64, position (letterByte i) = i := by decide +kernel
  have h := letter_cases (p := fun i => position (letterByte i) = i) hall n
  rwa [letterByte_mod] at h

theorem letterByte_ne (n : Nat) : letterByte n ≠ 61 := by
  intro h
  have hsome := sextet_letterByte n
  rw [h] at hsome
  cases hsome

variable {b : UInt8} {v n w : Nat}

/-- A byte that stands for six bits is their letter. -/
theorem eq_letterByte (h : sextet b = some v) : v < 64 ∧ b = letterByte v := by
  have hall : ∀ i : Fin 256, (sextet (UInt8.ofNat i)).all
      (fun v => v < 64 && UInt8.ofNat i = letterByte v) = true := by decide +kernel
  have hb := hall ⟨b.toNat, b.toNat_lt⟩
  rw [UInt8.ofNat_toNat, h] at hb
  simpa using hb

/-! ### Chunks -/

/-- The bytes of the text. -/
def codes (bytes : List UInt8) : List UInt8 := (encodeChunks bytes).flatMap String.utf8EncodeChar

theorem asBytes_encodeBytes (bytes : List UInt8) : asBytes (encodeBytes bytes) = codes bytes := by
  rw [asBytes, encodeBytes, String.toList_ofList, codes]

theorem utf8_equals : String.utf8EncodeChar '=' = [61] := by decide

theorem codes_one (a : UInt8) :
    codes [a] = [letterByte (a.toNat * 2 ^ 16 / 2 ^ 18), letterByte (a.toNat * 2 ^ 16 / 2 ^ 12), 61,
      61] := by
  simp [codes, encodeChunks, encodeChunk, utf8_letter, utf8_equals]

theorem codes_two (a b : UInt8) :
    codes [a, b] = [letterByte ((a.toNat * 2 ^ 16 + b.toNat * 2 ^ 8) / 2 ^ 18),
      letterByte ((a.toNat * 2 ^ 16 + b.toNat * 2 ^ 8) / 2 ^ 12),
      letterByte ((a.toNat * 2 ^ 16 + b.toNat * 2 ^ 8) / 2 ^ 6), 61] := by
  simp [codes, encodeChunks, encodeChunk, utf8_letter, utf8_equals]

theorem codes_three (a b c : UInt8) (rest : List UInt8) :
    codes (a :: b :: c :: rest) =
      letterByte ((a.toNat * 2 ^ 16 + b.toNat * 2 ^ 8 + c.toNat) / 2 ^ 18) ::
        letterByte ((a.toNat * 2 ^ 16 + b.toNat * 2 ^ 8 + c.toNat) / 2 ^ 12) ::
        letterByte ((a.toNat * 2 ^ 16 + b.toNat * 2 ^ 8 + c.toNat) / 2 ^ 6) ::
        letterByte (a.toNat * 2 ^ 16 + b.toNat * 2 ^ 8 + c.toNat) :: codes rest := by
  simp [codes, encodeChunks, encodeChunk, utf8_letter]

theorem position_equals : position 61 = 0 := rfl

/-- A number with the byte as its last eight bits. -/
theorem ofNat_eq (h : n % 2 ^ 8 = b.toNat) : UInt8.ofNat n = b := by
  rw [← UInt8.toNat_inj, UInt8.toNat_ofNat']
  exact h

/-- The number that four letters stand for. -/
def chunkValue (a b c d : UInt8) : Nat := [a, b, c, d].foldl (fun n x => n * 2 ^ 6 + position x) 0

theorem chunkValue_eq (a b c d : UInt8) : chunkValue a b c d =
    (((0 * 2 ^ 6 + position a) * 2 ^ 6 + position b) * 2 ^ 6 + position c) * 2 ^ 6 +
      position d := rfl

theorem decodeChunks_cons (a b c d : UInt8) (rest : List UInt8) :
    decodeChunks (a :: b :: c :: d :: rest) =
      [UInt8.ofNat (chunkValue a b c d / 2 ^ 16)] ++
        (if c ≠ 61 then [UInt8.ofNat (chunkValue a b c d / 2 ^ 8)] else []) ++
        (if d ≠ 61 then [UInt8.ofNat (chunkValue a b c d)] else []) ++ decodeChunks rest := rfl

/-- **Bytes are read back.** -/
theorem decodeChunks_codes (bytes : List UInt8) : decodeChunks (codes bytes) = bytes := by
  induction bytes using encodeChunks.induct with
  | case1 => rfl
  | case2 a =>
    have ha := a.toNat_lt
    rw [codes_one, decodeChunks_cons, chunkValue_eq, position_letterByte, position_letterByte,
      position_equals, ofNat_eq (b := a) (by omega), if_neg (by simp), if_neg (by simp)]
    rfl
  | case3 a b =>
    have ha := a.toNat_lt
    have hb := b.toNat_lt
    rw [codes_two, decodeChunks_cons, chunkValue_eq, position_letterByte, position_letterByte,
      position_letterByte, position_equals, ofNat_eq (b := a) (by omega),
      ofNat_eq (b := b) (by omega), if_pos (letterByte_ne _), if_neg (by simp)]
    rfl
  | case4 a b c rest ih =>
    have ha := a.toNat_lt
    have hb := b.toNat_lt
    have hc := c.toNat_lt
    rw [codes_three, decodeChunks_cons, chunkValue_eq, position_letterByte, position_letterByte,
      position_letterByte, position_letterByte, ofNat_eq (b := a) (by omega),
      ofNat_eq (b := b) (by omega), ofNat_eq (b := c) (by omega), if_pos (letterByte_ne _),
      if_pos (letterByte_ne _), ih]
    rfl

/-! ### Canonical texts -/

/-- How many bytes of padding there are at the end. -/
def padding (b : List UInt8) : Nat := (b.reverse.takeWhile (· = 61)).length

theorem padding_le (b : List UInt8) : padding b ≤ b.length := by
  have h := (b.reverse.takeWhile_sublist (p := fun c => decide (c = 61))).length_le
  rwa [List.length_reverse] at h

theorem padding_cons (c : UInt8) (b : List UInt8) :
    padding (c :: b) = if padding b = b.length ∧ c = 61 then b.length + 1 else padding b := by
  have hpadding : (b.reverse.takeWhile (· = 61)).length = padding b := rfl
  rw [padding, List.reverse_cons, List.takeWhile_append, List.length_reverse, hpadding]
  by_cases hall : padding b = b.length
  · rw [if_pos hall]
    by_cases hc : c = 61
    · rw [if_pos ⟨hall, hc⟩]
      simp [hc]
    · rw [if_neg (fun h => hc h.2)]
      simp [hc, hall]
  · rw [if_neg hall, if_neg (fun h => hall h.1), hpadding]

theorem canonicalBase64_eq (b : List UInt8) : canonicalBase64 b = if b.length % 4 ≠ 0 then false
    else if b = [] then true
    else if 2 < padding b then false
    else if (b.take (b.length - padding b)).any (fun c => sextet c = none) then false
    else
      match padding b with
      | 1 => ((b[b.length - 2]?).bind sextet).any fun v => v % 4 = 0
      | 2 => ((b[b.length - 3]?).bind sextet).any fun v => v % 16 = 0
      | _ => true := rfl

/-- A chunk before others is four letters. -/
theorem canonicalBase64_cons {a c d : UInt8} {rest : List UInt8} (hne : rest ≠ [])
    (hlen : rest.length % 4 = 0) :
    canonicalBase64 (a :: b :: c :: d :: rest) =
      ((sextet a).isSome && (sextet b).isSome && (sextet c).isSome && (sextet d).isSome &&
        canonicalBase64 rest) := by
  have hpos := List.length_pos_iff.2 hne
  have hle := padding_le rest
  by_cases hlong : 2 < padding rest
  · -- too much padding, in the rest or in all of it
    have hlong' : 2 < padding (a :: b :: c :: d :: rest) := by
      simp only [padding_cons, List.length_cons]
      split_ifs <;> omega
    have hfalse : canonicalBase64 rest = false := by simp [canonicalBase64_eq, hne, hlen, hlong]
    rw [hfalse, Bool.and_false, canonicalBase64_eq]
    simp [hlong']
  · have hshort : padding rest ≠ rest.length := by omega
    have hpadding : padding (a :: b :: c :: d :: rest) = padding rest := by
      simp only [padding_cons, List.length_cons]
      split_ifs <;> omega
    have htake : (a :: b :: c :: d :: rest).take (rest.length + 4 - padding rest) =
        a :: b :: c :: d :: rest.take (rest.length - padding rest) := by
      have hsub : rest.length + 4 - padding rest = rest.length - padding rest + 4 := by omega
      rw [hsub]
      rfl
    have hlast : ∀ k, k ≤ 3 → (a :: b :: c :: d :: rest)[rest.length + 4 - k]? =
        rest[rest.length - k]? := by
      intro k hk
      have hsub : rest.length + 4 - k = rest.length - k + 4 := by omega
      rw [hsub]
      rfl
    have hmod : (rest.length + 4) % 4 = 0 := by omega
    rw [canonicalBase64_eq, canonicalBase64_eq]
    simp only [List.length_cons, hpadding, hlen, hmod, hne, hlong, reduceCtorEq, if_false, ne_eq,
      not_true_eq_false, htake, hlast 2 (by decide), hlast 3 (by decide), List.any_cons]
    cases sextet a
    · simp
    cases sextet b
    · simp
    cases sextet c
    · simp
    cases sextet d <;> simp

/-- A letter whose number ends in the six bits. -/
theorem letterByte_eq (h : n % 64 = v % 64) : letterByte n = letterByte v := by
  rw [← letterByte_mod, h, letterByte_mod]

theorem exists_letterByte (h : sextet b ≠ none) : ∃ v, v < 64 ∧ b = letterByte v := by
  obtain ⟨v, hv⟩ := Option.ne_none_iff_exists'.1 h
  exact ⟨v, eq_letterByte hv⟩

theorem toNat_ofNat_of_lt (h : n < 256) : (UInt8.ofNat n).toNat = n := by
  rw [UInt8.toNat_ofNat']
  exact Nat.mod_eq_of_lt h

/-- A chunk without padding. -/
theorem codes_letters {x y : Nat} (hv : v < 64) (hw : w < 64) (hx : x < 64) (hy : y < 64) :
    codes [UInt8.ofNat (v * 4 + w / 16), UInt8.ofNat (w % 16 * 16 + x / 4),
      UInt8.ofNat (x % 4 * 64 + y)] = [letterByte v, letterByte w, letterByte x, letterByte y] := by
  rw [codes_three, toNat_ofNat_of_lt (by omega), toNat_ofNat_of_lt (by omega),
    toNat_ofNat_of_lt (by omega)]
  generalize hn : (v * 4 + w / 16) * 2 ^ 16 + (w % 16 * 16 + x / 4) * 2 ^ 8 + (x % 4 * 64 + y) = n
  have h1 : letterByte (n / 2 ^ 18) = letterByte v := letterByte_eq (by omega)
  have h2 : letterByte (n / 2 ^ 12) = letterByte w := letterByte_eq (by omega)
  have h3 : letterByte (n / 2 ^ 6) = letterByte x := letterByte_eq (by omega)
  have h4 : letterByte n = letterByte y := letterByte_eq (by omega)
  rw [h1, h2, h3, h4]
  rfl

/-- A chunk with one byte of padding. -/
theorem codes_padded {x : Nat} (hv : v < 64) (hw : w < 64) (hx : x < 64) (hlow : x % 4 = 0) :
    codes [UInt8.ofNat (v * 4 + w / 16), UInt8.ofNat (w % 16 * 16 + x / 4)] =
      [letterByte v, letterByte w, letterByte x, 61] := by
  rw [codes_two, toNat_ofNat_of_lt (by omega), toNat_ofNat_of_lt (by omega)]
  generalize hn : (v * 4 + w / 16) * 2 ^ 16 + (w % 16 * 16 + x / 4) * 2 ^ 8 = n
  have h1 : letterByte (n / 2 ^ 18) = letterByte v := letterByte_eq (by omega)
  have h2 : letterByte (n / 2 ^ 12) = letterByte w := letterByte_eq (by omega)
  have h3 : letterByte (n / 2 ^ 6) = letterByte x := letterByte_eq (by omega)
  rw [h1, h2, h3]

/-- A chunk with two bytes of padding. -/
theorem codes_padded_twice (hv : v < 64) (hw : w < 64) (hlow : w % 16 = 0) :
    codes [UInt8.ofNat (v * 4 + w / 16)] = [letterByte v, letterByte w, 61, 61] := by
  rw [codes_one, toNat_ofNat_of_lt (by omega)]
  generalize hn : (v * 4 + w / 16) * 2 ^ 16 = n
  have h1 : letterByte (n / 2 ^ 18) = letterByte v := letterByte_eq (by omega)
  have h2 : letterByte (n / 2 ^ 12) = letterByte w := letterByte_eq (by omega)
  rw [h1, h2]

/-- One chunk, with its padding. -/
theorem codes_of_chunk {a c d : UInt8} (h : canonicalBase64 [a, b, c, d] = true) :
    ∃ bytes, codes bytes = [a, b, c, d] := by
  rw [canonicalBase64_eq] at h
  by_cases hd : d = 61
  · by_cases hc : c = 61
    · by_cases hb : b = 61
      · -- three bytes of padding are too many
        have hlong : 2 < padding [a, b, c, d] := by
          subst hb hc hd
          by_cases ha : a = 61 <;> simp [padding, ha]
        simp [hlong] at h
      · have hpadding : padding [a, b, c, d] = 2 := by simp [padding, hb, hc, hd]
        obtain ⟨⟨ha', hb'⟩, hlow⟩ : (sextet a ≠ none ∧ sextet b ≠ none) ∧
            (sextet b).any (fun v => v % 16 = 0) = true := by simpa [hpadding] using h
        obtain ⟨v, hv, rfl⟩ := exists_letterByte ha'
        obtain ⟨w, hw, rfl⟩ := exists_letterByte hb'
        rw [sextet_letterByte, Nat.mod_eq_of_lt hw] at hlow
        subst hc hd
        exact ⟨_, codes_padded_twice hv hw (of_decide_eq_true hlow)⟩
    · have hpadding : padding [a, b, c, d] = 1 := by simp [padding, hc, hd]
      obtain ⟨⟨ha', hb', hc'⟩, hlow⟩ : (sextet a ≠ none ∧ sextet b ≠ none ∧ sextet c ≠ none) ∧
          (sextet c).any (fun v => v % 4 = 0) = true := by simpa [hpadding] using h
      obtain ⟨v, hv, rfl⟩ := exists_letterByte ha'
      obtain ⟨w, hw, rfl⟩ := exists_letterByte hb'
      obtain ⟨x, hx, rfl⟩ := exists_letterByte hc'
      rw [sextet_letterByte, Nat.mod_eq_of_lt hx] at hlow
      exact ⟨_, hd ▸ codes_padded hv hw hx (of_decide_eq_true hlow)⟩
  · have hpadding : padding [a, b, c, d] = 0 := by simp [padding, hd]
    obtain ⟨ha', hb', hc', hd'⟩ : sextet a ≠ none ∧ sextet b ≠ none ∧ sextet c ≠ none ∧
        sextet d ≠ none := by simpa [hpadding] using h
    obtain ⟨v, hv, rfl⟩ := exists_letterByte ha'
    obtain ⟨w, hw, rfl⟩ := exists_letterByte hb'
    obtain ⟨x, hx, rfl⟩ := exists_letterByte hc'
    obtain ⟨y, hy, rfl⟩ := exists_letterByte hd'
    exact ⟨_, codes_letters hv hw hx hy⟩

theorem codes_append (a b c : UInt8) (rest : List UInt8) :
    codes ([a, b, c] ++ rest) = codes [a, b, c] ++ codes rest := by
  rw [List.cons_append, List.cons_append, List.cons_append, List.nil_append, codes_three,
    codes_three]
  rfl

theorem length_codes (bytes : List UInt8) : (codes bytes).length % 4 = 0 := by
  induction bytes using encodeChunks.induct with
  | case1 => rfl
  | case2 a => simp [codes_one]
  | case3 a b => simp [codes_two]
  | case4 a b c rest ih =>
    rw [codes_three]
    simp only [List.length_cons]
    omega

theorem codes_ne_nil {bytes : List UInt8} (h : bytes ≠ []) : codes bytes ≠ [] := by
  cases bytes using encodeChunks.fun_cases with
  | case1 => exact absurd rfl h
  | case2 a => simp [codes_one]
  | case3 a b => simp [codes_two]
  | case4 a b c rest => simp [codes_three]

section

variable {a b c d : UInt8} {v w x y : Nat}

theorem ne_equals (h : sextet a = some v) : a ≠ 61 := by
  rintro rfl
  cases h

theorem canonicalBase64_letters (ha : sextet a = some v) (hb : sextet b = some w)
    (hc : sextet c = some x) (hd : sextet d = some y) : canonicalBase64 [a, b, c, d] = true := by
  rw [canonicalBase64_eq]
  simp [padding, ne_equals hd, ha, hb, hc, hd]

theorem canonicalBase64_padded (ha : sextet a = some v) (hb : sextet b = some w)
    (hc : sextet c = some x) (hlow : x % 4 = 0) : canonicalBase64 [a, b, c, 61] = true := by
  rw [canonicalBase64_eq]
  simp [padding, ne_equals hc, ha, hb, hc, hlow]

theorem canonicalBase64_padded_twice (ha : sextet a = some v) (hb : sextet b = some w)
    (hlow : w % 16 = 0) : canonicalBase64 [a, b, 61, 61] = true := by
  rw [canonicalBase64_eq]
  simp [padding, ne_equals hb, ha, hb, hlow]

end

/-- What is encoded is canonical. -/
theorem canonicalBase64_codes (bytes : List UInt8) : canonicalBase64 (codes bytes) = true := by
  induction bytes using encodeChunks.induct with
  | case1 => rfl
  | case2 a =>
    rw [codes_one]
    exact canonicalBase64_padded_twice (sextet_letterByte _) (sextet_letterByte _) (by omega)
  | case3 a b =>
    rw [codes_two]
    exact canonicalBase64_padded (sextet_letterByte _) (sextet_letterByte _) (sextet_letterByte _)
      (by omega)
  | case4 a b c rest ih =>
    rw [codes_three]
    by_cases hrest : rest = []
    · rw [hrest]
      exact canonicalBase64_letters (sextet_letterByte _) (sextet_letterByte _)
        (sextet_letterByte _) (sextet_letterByte _)
    · rw [canonicalBase64_cons (codes_ne_nil hrest) (length_codes rest), ih]
      simp [sextet_letterByte]

/-- A canonical text is that of some bytes. -/
theorem codes_of_canonical {l : List UInt8} (h : canonicalBase64 l = true) :
    ∃ bytes, codes bytes = l := by
  induction l using decodeChunks.induct with
  | case1 a b c d rest ih =>
    by_cases hrest : rest = []
    · rw [hrest] at h ⊢
      exact codes_of_chunk h
    · have hlen : rest.length % 4 = 0 := by
        by_contra hlen
        rw [canonicalBase64_eq, if_pos (by simp; omega)] at h
        cases h
      rw [canonicalBase64_cons hrest hlen] at h
      simp only [Bool.and_eq_true, Option.isSome_iff_ne_none] at h
      obtain ⟨⟨⟨⟨ha, hb⟩, hc⟩, hd⟩, hr⟩ := h
      obtain ⟨v, hv, rfl⟩ := exists_letterByte ha
      obtain ⟨w, hw, rfl⟩ := exists_letterByte hb
      obtain ⟨x, hx, rfl⟩ := exists_letterByte hc
      obtain ⟨y, hy, rfl⟩ := exists_letterByte hd
      obtain ⟨bytes, rfl⟩ := ih hr
      refine ⟨[UInt8.ofNat (v * 4 + w / 16), UInt8.ofNat (w % 16 * 16 + x / 4),
        UInt8.ofNat (x % 4 * 64 + y)] ++ bytes, ?_⟩
      rw [codes_append, codes_letters hv hw hx hy]
      rfl
  | case2 l hshort =>
    rcases l with _ | ⟨a, _ | ⟨b, _ | ⟨c, _ | ⟨d, rest⟩⟩⟩⟩
    · exact ⟨[], rfl⟩
    · simp [canonicalBase64_eq] at h
    · simp [canonicalBase64_eq] at h
    · simp [canonicalBase64_eq] at h
    · exact absurd rfl (hshort a b c d rest)

variable {s : String} {d : List Char}

theorem asBytes_injective {t : String} (h : asBytes s = asBytes t) : s = t := by
  have hutf8 : ∀ s : String, s.toByteArray = (asBytes s).toByteArray := by
    intro s
    conv => lhs; rw [← String.ofList_toList (s := s), String.toByteArray_ofList]
    rfl
  rw [← String.toByteArray_inj, hutf8, hutf8, h]

/-- **The canonical texts are those of bytes.** -/
theorem canonicalBase64_iff (s : String) :
    canonicalBase64 (asBytes s) = true ↔ ∃ bytes, s = encodeBytes bytes := by
  constructor
  · intro h
    obtain ⟨bytes, hbytes⟩ := codes_of_canonical h
    exact ⟨bytes, asBytes_injective (by rw [asBytes_encodeBytes, hbytes])⟩
  · rintro ⟨bytes, rfl⟩
    rw [asBytes_encodeBytes]
    exact canonicalBase64_codes bytes

theorem decodeBytes_encodeBytes (bytes : List UInt8) :
    decodeBytes (encodeBytes bytes) = .ok bytes := by
  rw [decodeBytes, asBytes_encodeBytes, canonicalBase64_codes, decodeChunks_codes]
  rfl

theorem encodeBytes_decodeBytes {bytes : List UInt8} (h : decodeBytes s = .ok bytes) :
    encodeBytes bytes = s := by
  rw [decodeBytes] at h
  split_ifs at h with hcanonical
  obtain ⟨bytes', rfl⟩ := (canonicalBase64_iff s).1 (by simpa using hcanonical)
  rw [asBytes_encodeBytes, decodeChunks_codes] at h
  cases h
  rfl

/-! ## Decimals -/

theorem exists_digitChar {c : Char} (h : c.isDigit = true) : ∃ k, k < 10 ∧ c = Nat.digitChar k := by
  simp only [Char.isDigit, Bool.and_eq_true, decide_eq_true_eq, UInt32.le_iff_toNat_le] at h
  have hlow : 48 ≤ c.toNat := h.1
  have hhigh : c.toNat ≤ 57 := h.2
  refine ⟨c.toNat - 48, by omega, Char.toNat_inj.1 ?_⟩
  rw [Nat.toNat_digitChar_of_lt_ten (by omega)]
  omega

/-- Digits without a leading zero are those of their value. -/
theorem toDigits_digitsValue (hne : d ≠ []) (hall : ∀ c ∈ d, c.isDigit = true)
    (hhead : d.length = 1 ∨ d.head? ≠ some '0') : Nat.toDigits 10 (digitsValue d) = d := by
  induction d using List.reverseRecOn with
  | nil => exact absurd rfl hne
  | append_singleton d c ih =>
    obtain ⟨k, hk, rfl⟩ := exists_digitChar (hall c (by simp))
    have hvalue : digitsValue (d ++ [Nat.digitChar k]) = 10 * digitsValue d + k := by
      rw [digitsValue, List.foldl_append, List.foldl_cons, List.foldl_nil,
        Nat.toNat_digitChar_sub_48_of_lt_ten hk, digitsValue]
    rw [hvalue]
    by_cases hd : d = []
    · subst hd
      rw [show digitsValue [] = 0 from rfl, Nat.mul_zero, Nat.zero_add,
        Nat.toDigits_of_lt_base hk, List.nil_append]
    · have hhead' : d.head? ≠ some '0' := by
        rcases hhead with hlen | hhead
        · simp [hd] at hlen
        · rwa [List.head?_append_of_ne_nil _ hd] at hhead
      have ih := ih hd (fun c hc => hall c (List.mem_append_left _ hc)) (.inr hhead')
      have hpos : 0 < digitsValue d := by
        rw [Nat.pos_iff_ne_zero]
        intro hzero
        rw [hzero, Nat.toDigits_zero] at ih
        rw [← ih] at hhead'
        exact hhead' rfl
      rw [← Nat.toDigits_append_toDigits (by decide) hpos hk, ih, Nat.toDigits_of_lt_base hk]

/-- Digits as they are written, without a leading zero. -/
def plainDigits (d : List Char) : Bool :=
  d ≠ [] && d.all Char.isDigit && (d.length = 1 || d.head? ≠ some '0')

theorem plainDigits_iff : plainDigits d = true ↔ ∃ n : Nat, d = Nat.toDigits 10 n := by
  simp only [plainDigits, Bool.and_eq_true, Bool.or_eq_true, decide_eq_true_eq, List.all_eq_true]
  constructor
  · rintro ⟨⟨hne, hall⟩, hhead⟩
    exact ⟨digitsValue d, (toDigits_digitsValue hne hall hhead).symm⟩
  · rintro ⟨n, rfl⟩
    refine ⟨⟨Nat.toDigits_ne_nil, fun c hc =>
      Nat.isDigit_of_mem_toDigits (by decide) (by decide) hc⟩, ?_⟩
    rcases Nat.eq_zero_or_pos n with rfl | hpos
    · exact .inl rfl
    · exact .inr (head_toDigits hpos)

theorem digitsValue_toDigits (n : Nat) : digitsValue (Nat.toDigits 10 n) = n :=
  Nat.ofDigitChars_ten_toDigits

/-- The first digit is no sign. -/
theorem head_digits (h : plainDigits d = true) {c : Char} (hc : c.isDigit = false) :
    d.head? ≠ some c := by
  cases d with
  | nil => simp
  | cons a d =>
    intro hsame
    cases hsame
    simp [plainDigits, hc] at h

theorem canonicalDecimal_minus (x : List Char) (signed : Bool) :
    canonicalDecimal ('-' :: x) signed = (signed && x ≠ ['0'] && plainDigits x) := by
  cases signed <;> by_cases hx : x = ['0'] <;> simp [canonicalDecimal, plainDigits, hx]

theorem canonicalDecimal_other (h : d.head? ≠ some '-') (signed : Bool) :
    canonicalDecimal d signed = plainDigits d := by
  cases d with
  | nil => rfl
  | cons c d =>
    rw [canonicalDecimal]
    · rfl
    · rintro x hx
      cases hx
      exact h rfl

theorem parseInt_minus (n : Nat) : parseInt ('-' :: Nat.toDigits 10 n) = some (-(n : Int)) := by
  have hplain := plainDigits_iff.2 ⟨n, rfl⟩
  simp only [plainDigits, Bool.and_eq_true, decide_eq_true_eq] at hplain
  simp [parseInt, hplain.1, digitsValue_toDigits]

theorem parseInt_digits (n : Nat) : parseInt (Nat.toDigits 10 n) = some (n : Int) := by
  have hplain := plainDigits_iff.2 ⟨n, rfl⟩
  have hminus := head_digits hplain (c := '-') (by decide)
  have hplus := head_digits hplain (c := '+') (by decide)
  have hvalue := digitsValue_toDigits n
  simp only [plainDigits, Bool.and_eq_true, decide_eq_true_eq] at hplain
  generalize Nat.toDigits 10 n = d at hplain hminus hplus hvalue
  rw [parseInt]
  · simp [hplain.1, hvalue]
  · rintro x rfl
    exact hminus rfl
  · rintro x rfl
    exact hplus rfl

/-- The text of an integer. -/
theorem toList_toString (n : Nat) : (toString (n : Int)).toList = Nat.toDigits 10 n ∧
    (0 < n → (toString (-(n : Int))).toList = '-' :: Nat.toDigits 10 n) := by
  refine ⟨Nat.toList_repr, fun hpos => ?_⟩
  obtain ⟨m, rfl⟩ := Nat.exists_eq_succ_of_ne_zero hpos.ne'
  show ("-" ++ Nat.repr (m + 1)).toList = _
  rw [String.toList_append, Nat.toList_repr]
  rfl

/-- The canonical texts are those of integers, and are read back. -/
theorem canonicalDecimal_iff {signed : Bool} :
    canonicalDecimal s.toList signed = true ↔
      ∃ n : Int, (signed = true ∨ 0 ≤ n) ∧ s = toString n := by
  constructor
  · intro h
    by_cases hminus : s.toList.head? = some '-'
    · obtain ⟨x, hx⟩ := List.head?_eq_some_iff.1 hminus
      rw [hx, canonicalDecimal_minus] at h
      simp only [Bool.and_eq_true, decide_eq_true_eq] at h
      obtain ⟨⟨hsigned, hzero⟩, hdigits⟩ := h
      obtain ⟨n, rfl⟩ := plainDigits_iff.1 hdigits
      have hpos : 0 < n := by
        rw [Nat.pos_iff_ne_zero]
        rintro rfl
        exact hzero (Nat.toDigits_zero 10)
      refine ⟨-(n : Int), .inl hsigned, String.toList_inj.1 ?_⟩
      rw [hx, (toList_toString n).2 hpos]
    · rw [canonicalDecimal_other hminus] at h
      obtain ⟨n, hn⟩ := plainDigits_iff.1 h
      refine ⟨(n : Int), .inr (Int.natCast_nonneg n), String.toList_inj.1 ?_⟩
      rw [hn, (toList_toString n).1]
  · rintro ⟨n, hn, rfl⟩
    rcases Int.eq_nat_or_neg n with ⟨m, rfl | rfl⟩
    · have hplain := plainDigits_iff.2 ⟨m, rfl⟩
      rw [(toList_toString m).1, canonicalDecimal_other (head_digits hplain (by decide))]
      exact hplain
    · rcases Nat.eq_zero_or_pos m with rfl | hpos
      · cases signed <;> decide
      · have hsigned : signed = true := hn.resolve_right (by omega)
        have hne : Nat.toDigits 10 m ≠ ['0'] := by
          intro hzero
          have hvalue := digitsValue_toDigits m
          rw [hzero] at hvalue
          exact hpos.ne hvalue
        rw [(toList_toString m).2 hpos, canonicalDecimal_minus, hsigned, plainDigits_iff.2 ⟨m, rfl⟩]
        simp [hne]

theorem parseInt_toString (n : Int) : parseInt (toString n).toList = some n := by
  rcases Int.eq_nat_or_neg n with ⟨m, rfl | rfl⟩
  · rw [(toList_toString m).1]
    exact parseInt_digits m
  · rcases Nat.eq_zero_or_pos m with rfl | hpos
    · rfl
    · rw [(toList_toString m).2 hpos]
      exact parseInt_minus m

theorem i64_iff (s : String) :
    wireOk "i64-decimal" s = true ↔ ∃ n : Int64, s = toString n.toInt := by
  rw [wireOk, if_pos rfl, Bool.and_eq_true, canonicalDecimal_iff]
  constructor
  · rintro ⟨⟨n, -, rfl⟩, hparse⟩
    rw [parseI64, parseInt_toString] at hparse
    have hrange : -2 ^ 63 ≤ n ∧ n < 2 ^ 63 := by simpa [Option.filter] using hparse
    exact ⟨Int64.ofInt n, by rw [Int64.toInt_ofInt_of_le hrange.1 hrange.2]⟩
  · rintro ⟨n, rfl⟩
    refine ⟨⟨n.toInt, .inl rfl, rfl⟩, ?_⟩
    have hlow := n.le_toInt
    have hhigh := n.toInt_lt
    rw [parseI64, parseInt_toString]
    simp only [Option.filter]
    rw [if_pos (by simpa using ⟨hlow, hhigh⟩)]
    rfl

theorem u64_iff (s : String) :
    wireOk "u64-decimal" s = true ↔ ∃ n : UInt64, s = toString n.toNat := by
  rw [wireOk, if_neg (by decide), if_pos rfl, Bool.and_eq_true, canonicalDecimal_iff]
  constructor
  · rintro ⟨⟨n, -, rfl⟩, hparse⟩
    rw [parseU64, parseInt_toString] at hparse
    have hrange : 0 ≤ n ∧ n < 2 ^ 64 := by simpa [Option.filter] using hparse
    obtain ⟨m, rfl⟩ := Int.eq_ofNat_of_zero_le hrange.1
    refine ⟨UInt64.ofNat m, ?_⟩
    have hlt : m < UInt64.size := by
      have := hrange.2
      simp only [UInt64.size]
      omega
    rw [UInt64.toNat_ofNat_of_lt' hlt]
    rfl
  · rintro ⟨n, rfl⟩
    have hlt := n.toNat_lt
    refine ⟨⟨(n.toNat : Int), .inr (Int.natCast_nonneg _), rfl⟩, ?_⟩
    have htext : toString n.toNat = toString (n.toNat : Int) := rfl
    rw [htext, parseU64, parseInt_toString]
    simp only [Option.filter]
    rw [if_pos (by simp; omega)]
    rfl

/-- **Wire scalars are exactly canonical.** -/
theorem scalars_canonical :
    (∀ s, canonicalBase64 (asBytes s) = true ↔ ∃ bytes, s = encodeBytes bytes) ∧
      (∀ bytes, decodeBytes (encodeBytes bytes) = .ok bytes) ∧
      (∀ s bytes, decodeBytes s = .ok bytes → encodeBytes bytes = s) ∧
      (∀ s, wireOk "i64-decimal" s = true ↔ ∃ n : Int64, s = toString n.toInt) ∧
      ∀ s, wireOk "u64-decimal" s = true ↔ ∃ n : UInt64, s = toString n.toNat :=
  ⟨canonicalBase64_iff, decodeBytes_encodeBytes, fun _ _ h => encodeBytes_decodeBytes h, i64_iff,
    u64_iff⟩

theorem scalars_canonical_read : encodeBytes [97, 98, 99, 100] = "YWJjZA==" := by
  have hread : decodeBytes "YWJjZA==" = .ok [97, 98, 99, 100] := by rfl
  exact scalars_canonical.2.2.1 _ _ hread

end NapiVm.Schema
