import NapiVm.Buffer.RoundTrip
import NapiVm.Buffer.Write
import NapiVm.Lib.Cut
import NapiVm.Lib.Exact
import NapiVm.Text.Scalars

/-!
# Where a write may stop

* `CleanCut` — the room for a string does not end inside a character.
* `wholeCharacters_iff_cleanCut` — then, and only then, what fits is whole characters.
* `write_characters_iff` — what `bufferWrite` leaves behind, and when it is whole characters.
-/

namespace NapiVm.BufferCodec

open JsString List

/-- The room that a write has, for the bytes of its string. -/
def TypedArrayData.room (view : TypedArrayData) (offset length : Nat) : Nat :=
  min length (view.effectiveLength - offset)

/-! ## Whole characters -/

/-- The string begins with whole characters whose bytes these are. -/
def WholeCharacters (string : List UInt16) (encoding : Encoding) (bytes : List UInt8) : Prop :=
  ∃ front back, string = front ++ back ∧
    decodeUtf16 string = decodeUtf16 front ++ decodeUtf16 back ∧ bytes = rawBytes front encoding

/-- A byte inside a character of UTF-8. -/
def isContinuation (byte : UInt8) : Bool := byte &&& 0xC0 == 0x80

/-- So many bytes of units, each as wide, do not end inside a unit or a surrogate pair. -/
def CleanUnits (width : Nat) (string : List UInt16) (room : Nat) : Prop :=
  room < width * string.length → room % width = 0 ∧
    ¬ Across (string.take (room / width)) (string.drop (room / width))

/-- The room for the bytes of a string does not end inside a character. -/
def CleanCut (string : List UInt16) (room : Nat) : Encoding → Prop
  | .utf8 => ∀ byte, (utf8 (asStr string))[room]? = some byte → isContinuation byte = false
  | .utf16le => CleanUnits 2 string room
  | .ascii | .latin1 => CleanUnits 1 string room
  | .hex | .base64 | .base64url => True

section Cuts

variable {string : List UInt16} {encoding : Encoding} {bytes : List UInt8}

theorem wholeCharacters_iff : WholeCharacters string encoding bytes ↔
    ∃ front back, string = front ++ back ∧ ¬ Across front back ∧
      bytes = rawBytes front encoding := by
  constructor
  · rintro ⟨front, back, rfl, hscalars, hbytes⟩
    exact ⟨front, back, rfl, decodeUtf16_append_iff.1 hscalars, hbytes⟩
  · rintro ⟨front, back, rfl, hacross, hbytes⟩
    exact ⟨front, back, rfl, decodeUtf16_append hacross, hbytes⟩

/-- In an encoding of the text, the characters are those of the text. -/
theorem wholeCharacters_text (write : List Char → List UInt8)
    (hwrite : ∀ string, rawBytes string encoding = write (asStr string)) :
    WholeCharacters string encoding bytes ↔ ∃ m, write ((asStr string).take m) = bytes := by
  constructor
  · rintro ⟨front, back, -, hscalars, hbytes⟩
    refine ⟨(asStr front).length, ?_⟩
    have hfront : asStr string = asStr front ++ asStr back := by
      rw [asStr, hscalars, map_append]
      rfl
    rw [hfront, take_left, hbytes, hwrite]
  · rintro ⟨m, hbytes⟩
    obtain ⟨front, back, hstring, hacross, hfront⟩ := exists_split string m
    refine wholeCharacters_iff.2 ⟨front, back, hstring, hacross, ?_⟩
    rw [← hbytes, hwrite, asStr, asStr, hfront, map_take]

/-- In an encoding of the units, a cut is after some units. -/
theorem wholeCharacters_units (write : UInt16 → List UInt8) {width : Nat} (hwidth : 0 < width)
    (hlength : ∀ unit, (write unit).length = width)
    (hwrite : ∀ string, rawBytes string encoding = string.flatMap write) (room : Nat) :
    WholeCharacters string encoding ((rawBytes string encoding).take room) ↔
      CleanUnits width string room := by
  have hbytes : ∀ string : List UInt16, (string.flatMap write).length = width * string.length := by
    intro string
    induction string with
    | nil => rfl
    | cons unit string ih =>
      rw [flatMap_cons, length_append, hlength, ih, length_cons, Nat.mul_succ, Nat.add_comm]
  rw [wholeCharacters_iff]
  constructor
  · rintro ⟨front, back, rfl, hacross, htake⟩ hroom
    have hfront := congrArg length htake
    rw [hwrite, hwrite, length_take, hbytes, hbytes, Nat.min_eq_left (Nat.le_of_lt hroom)]
      at hfront
    rw [hfront, Nat.mul_mod_right, Nat.mul_div_cancel_left _ hwidth, take_left, drop_left]
    exact ⟨rfl, hacross⟩
  · intro hclean
    by_cases hroom : room < width * string.length
    · obtain ⟨hmod, hacross⟩ := hclean hroom
      refine ⟨_, _, (take_append_drop (room / width) string).symm, hacross, ?_⟩
      have hsplit : string.flatMap write = (string.take (room / width)).flatMap write ++
          (string.drop (room / width)).flatMap write := by
        rw [← flatMap_append, take_append_drop]
      have hle : room / width ≤ string.length :=
        Nat.le_of_lt (Nat.div_lt_of_lt_mul hroom)
      have hfront : ((string.take (room / width)).flatMap write).length = room := by
        rw [hbytes, length_take, Nat.min_eq_left hle]
        exact Nat.mul_div_cancel' (Nat.dvd_of_mod_eq_zero hmod)
      rw [hwrite, hwrite, hsplit]
      exact take_left' hfront
    · refine ⟨string, [], (append_nil _).symm, fun h => by (cases h.2), ?_⟩
      rw [hwrite]
      exact take_of_length_le (by rw [hbytes]; exact Nat.le_of_not_lt hroom)

end Cuts

/-! ### UTF-8 -/

theorem isContinuation_iff (byte : UInt8) :
    isContinuation byte = true ↔ 128 ≤ byte.toNat ∧ byte.toNat < 192 := by
  have hall : ∀ i : Fin 256, isContinuation (UInt8.ofNat i) = true ↔ 128 ≤ i.val ∧ i.val < 192 := by
    decide +kernel
  have hbyte := hall ⟨byte.toNat, byte.toNat_lt⟩
  simp only [UInt8.ofNat_toNat] at hbyte
  exact hbyte

theorem isContinuation_ofNat {n : Nat} (h : n < 256) :
    isContinuation (UInt8.ofNat n) = true ↔ 128 ≤ n ∧ n < 192 := by
  rw [isContinuation_iff, UInt8.toNat_ofNat', Nat.mod_eq_of_lt h]

theorem marked_utf8 : Cut.Marked String.utf8EncodeChar fun byte => isContinuation byte = false := by
  intro c
  have hc : c.val.toNat < 0x110000 := by
    have hvalid := c.valid
    unfold UInt32.isValidChar Nat.isValidChar at hvalid
    omega
  have hfirst {n : Nat} (hn : n < 256) (hout : n < 128 ∨ 192 ≤ n) :
      isContinuation (UInt8.ofNat n) = false := by
    rw [Bool.eq_false_iff, Ne, isContinuation_ofNat hn]
    omega
  have hrest (n : Nat) : ¬ isContinuation (UInt8.ofNat (n % 64 + 128)) = false := by
    rw [Bool.not_eq_false, isContinuation_ofNat (by omega)]
    omega
  unfold String.utf8EncodeChar
  simp only
  split
  · exact ⟨_, [], rfl, hfirst (by omega) (by omega), nofun⟩
  · split
    · refine ⟨_, _, rfl, hfirst (by omega) (by omega), fun b hb => ?_⟩
      simp only [mem_cons, not_mem_nil, or_false] at hb
      rw [hb]
      exact hrest _
    · split
      · refine ⟨_, _, rfl, hfirst (by omega) (by omega), fun b hb => ?_⟩
        simp only [mem_cons, not_mem_nil, or_false] at hb
        rcases hb with rfl | rfl <;> exact hrest _
      · refine ⟨_, _, rfl, hfirst (by omega) (by omega), fun b hb => ?_⟩
        simp only [mem_cons, not_mem_nil, or_false] at hb
        rcases hb with rfl | rfl | rfl <;> exact hrest _

/-! ### Base64 -/

theorem pack_append (values values' : List UInt8) (accumulator : UInt32) (bits : UInt8) :
    pack values accumulator bits <+: pack (values ++ values') accumulator bits := by
  induction values generalizing accumulator bits with
  | nil => exact nil_prefix
  | cons value values ih =>
    rw [cons_append, pack, pack]
    split
    · exact (cons_prefix_cons ..).2 ⟨rfl, ih _ _⟩
    · exact ih _ _

theorem letters_append (text text' : List Char) : ∃ more,
    letters (text ++ text') = letters text ++ more ∧ more.length ≤ text'.length := by
  rw [letters, letters, takeWhile_append]
  split
  · next hall =>
      have htext : text.takeWhile (· != '=') = text :=
        (List.takeWhile_prefix _).eq_of_length hall
      rw [filter_append, htext]
      exact ⟨_, rfl, (length_filter_le _ _).trans (takeWhile_sublist _).length_le⟩
  · exact ⟨[], (append_nil _).symm, Nat.zero_le _⟩

theorem decodeBase64_append (text text' : List Char) :
    decodeBase64 text <+: decodeBase64 (text ++ text') := by
  obtain ⟨more, hmore, -⟩ := letters_append text text'
  rw [decodeBase64_letters, decodeBase64_letters, hmore, map_append]
  exact pack_append ..

theorem base64_cut (text : List Char) (n : Nat) :
    ∃ m, decodeBase64 (text.take m) = (decodeBase64 text).take n := by
  refine Cut.exists_cut rfl decodeBase64_append ?_ text n
  · intro text c
    obtain ⟨more, hmore, hlength⟩ := letters_append text [c]
    rw [length_singleton] at hlength
    rw [length_decodeBase64, length_decodeBase64, hmore, length_append]
    omega

/-! ### Hexadecimal digits -/

theorem encodeHex_append : ∀ bytes bytes' : List UInt8,
    encodeHex bytes <+: encodeHex (bytes ++ bytes')
  | [], _ | [_], _ => nil_prefix
  | a :: b :: bytes, bytes' => by
      rw [cons_append, cons_append, encodeHex, encodeHex]
      split
      · exact (cons_prefix_cons ..).2 ⟨rfl, encodeHex_append bytes bytes'⟩
      · exact nil_prefix

theorem length_encodeHex_byte : ∀ (bytes : List UInt8) (byte : UInt8),
    (encodeHex (bytes ++ [byte])).length ≤ (encodeHex bytes).length + 1
  | [], _ => Nat.zero_le _
  | [a], byte => by
      rw [singleton_append, encodeHex]
      split
      · exact Nat.le_refl _
      · exact Nat.zero_le _
  | a :: b :: bytes, byte => by
      rw [cons_append, cons_append, encodeHex, encodeHex]
      split
      · exact Nat.succ_le_succ (length_encodeHex_byte bytes byte)
      · exact Nat.zero_le _

/-- What begins with no digit adds nothing. -/
theorem encodeHex_junk {junk : List UInt8} (h : ∀ byte ∈ junk, hexNibble byte = none) :
    ∀ bytes : List UInt8, encodeHex (bytes ++ junk) = encodeHex bytes
  | [] => by
      cases junk with
      | nil => rfl
      | cons a junk =>
        cases junk with
        | nil => rfl
        | cons b junk =>
          rw [nil_append, encodeHex, h a mem_cons_self]
          rfl
  | [a] => by
      cases junk with
      | nil => rfl
      | cons b junk =>
        rw [singleton_append, encodeHex, h b mem_cons_self]
        split
        · next hb => cases hb
        · rfl
  | a :: b :: bytes => by
      rw [cons_append, cons_append, encodeHex, encodeHex, encodeHex_junk h bytes]

theorem hexNibble_high {byte : UInt8} (h : 128 ≤ byte.toNat) : hexNibble byte = none := by
  have hall : ∀ i : Fin 256, 128 ≤ i.val → hexNibble (UInt8.ofNat i) = none := by decide +kernel
  have hbyte := hall ⟨byte.toNat, byte.toNat_lt⟩ h
  simp only [UInt8.ofNat_toNat] at hbyte
  exact hbyte

theorem hex_cut (text : List Char) (n : Nat) :
    ∃ m, encodeHex (utf8 (text.take m)) = (encodeHex (utf8 text)).take n := by
  have happend (text text' : List Char) : utf8 (text ++ text') = utf8 text ++ utf8 text' :=
    flatMap_append
  refine Cut.exists_cut (F := fun text => encodeHex (utf8 text)) rfl ?_ ?_ text n
  · intro text text'
    rw [happend]
    exact encodeHex_append ..
  · intro text c
    rw [happend]
    by_cases hc : c.toNat < 128
    · have hbyte : utf8 [c] = [UInt8.ofNat c.toNat] := by
        rw [utf8, flatMap_singleton, utf8_ascii hc]
      rw [hbyte]
      exact length_encodeHex_byte ..
    · have hjunk : ∀ byte ∈ utf8 [c], hexNibble byte = none := by
        intro byte hbyte
        rw [utf8, flatMap_singleton] at hbyte
        exact hexNibble_high (utf8_high (Nat.le_of_not_lt hc) byte hbyte)
      rw [encodeHex_junk hjunk]
      exact Nat.le_succ _

/-! ### All encodings -/

theorem wholeCharacters_iff_cleanCut (string : List UInt16) (room : Nat) (encoding : Encoding) :
    WholeCharacters string encoding ((rawBytes string encoding).take room) ↔
      CleanCut string room encoding := by
  have hascii (string : List UInt16) :
      rawBytes string .ascii = string.flatMap fun unit => [unit.toUInt8] :=
    map_eq_flatMap
  have hlatin1 (string : List UInt16) :
      rawBytes string .latin1 = string.flatMap fun unit => [unit.toUInt8] :=
    map_eq_flatMap
  cases encoding with
  | utf8 =>
    rw [wholeCharacters_text utf8 fun _ => rfl]
    exact Cut.flatMap_cut_iff marked_utf8 _ _
  | utf16le => exact wholeCharacters_units toLeBytes Nat.two_pos (fun _ => rfl) (fun _ => rfl) room
  | ascii => exact wholeCharacters_units _ Nat.one_pos (fun _ => rfl) hascii room
  | latin1 => exact wholeCharacters_units _ Nat.one_pos (fun _ => rfl) hlatin1 room
  | hex =>
    rw [wholeCharacters_text (fun text => encodeHex (utf8 text)) fun _ => rfl]
    exact iff_of_true (hex_cut _ _) trivial
  | base64 | base64url =>
    rw [wholeCharacters_text decodeBase64 fun _ => rfl]
    exact iff_of_true (base64_cut _ _) trivial

/-- The bytes of whole characters are the first of those of the string. -/
theorem WholeCharacters.isPrefix {string : List UInt16} {encoding : Encoding} {bytes : List UInt8}
    (h : WholeCharacters string encoding bytes) : bytes <+: rawBytes string encoding := by
  obtain ⟨front, back, hstring, hscalars, hbytes⟩ := h
  have htext : asStr string = asStr front ++ asStr back := by
    rw [asStr, hscalars, map_append]
    rfl
  have hutf8 : utf8 (asStr string) = utf8 (asStr front) ++ utf8 (asStr back) := by
    rw [htext]
    exact flatMap_append
  have hbase64 : decodeBase64 (asStr front) <+: decodeBase64 (asStr string) := by
    rw [htext]
    exact decodeBase64_append ..
  rw [hbytes]
  cases encoding with
  | utf8 => exact ⟨_, hutf8.symm⟩
  | hex =>
    have happend := encodeHex_append (utf8 (asStr front)) (utf8 (asStr back))
    rwa [← hutf8] at happend
  | ascii | latin1 => exact ⟨back.map UInt16.toUInt8, by rw [hstring]; exact map_append.symm⟩
  | utf16le => exact ⟨back.flatMap toLeBytes, by rw [hstring]; exact flatMap_append.symm⟩
  | base64 => exact hbase64
  | base64url => exact hbase64

/-! ## The bytes of a view -/

namespace BufferBacking

theorem overwrite_eq (old : List UInt8) (bytes : List UInt8) {offset : Nat}
    (h : offset + bytes.length ≤ old.length) :
    (overwrite old offset bytes).length = old.length ∧
      ((overwrite old offset bytes).drop offset).take bytes.length = bytes ∧
      ∀ i, i < offset ∨ offset + bytes.length ≤ i → (overwrite old offset bytes)[i]? = old[i]? := by
  have hfront : (old.take offset).length = offset := by
    rw [length_take]
    omega
  refine ⟨?_, ?_, fun i hi => ?_⟩
  · rw [overwrite, length_append, length_append, hfront, length_drop]
    omega
  · rw [overwrite, append_assoc, drop_left' hfront, take_left]
  · rw [overwrite, append_assoc]
    rcases hi with hi | hi
    · rw [getElem?_append_left (by omega), getElem?_take_of_lt hi]
    · rw [getElem?_append_right (by omega), getElem?_append_right (by omega),
        getElem?_drop, hfront]
      congr 1
      omega

theorem snapshot_write {backing : BufferBacking} {bytes : List UInt8} {offset : Nat}
    (h : offset + bytes.length ≤ backing.len) : (backing.write offset bytes).2.snapshot =
      if backing.isImmutable then backing.snapshot
      else overwrite backing.snapshot offset bytes := by
  unfold write
  by_cases himmutable : backing.isImmutable = true
  · rw [if_pos himmutable, if_pos himmutable]
  · rw [if_neg himmutable, if_neg himmutable, if_neg (Nat.not_lt.2 h)]
    cases backing with
    | shared old => rfl
    | array immutable storage =>
      cases storage with
      | owned old => rfl
      | detached =>
        have hnone : bytes = [] := length_eq_zero_iff.1 (by
          have hlen : offset + bytes.length ≤ 0 := h
          omega)
        rw [hnone]
        simp only [snapshot, BufferStorage.asSlice, overwrite, take_nil, drop_nil, append_nil]

end BufferBacking

/-- A view in its bounds covers bytes that are there. -/
theorem TypedArrayData.effective_le {view : TypedArrayData} (hkind : view.kind = .uint8) :
    view.effectiveByteOffset + view.effectiveLength ≤ view.buffer.len := by
  rw [effectiveByteOffset, effectiveLength]
  cases hout : view.isOutOfBounds with
  | true => exact Nat.zero_le _
  | false =>
    rw [isOutOfBounds, hkind] at hout
    simp only [Bool.false_eq_true, if_false, hkind, TypedKind.size, Nat.div_one]
    split at hout
    · cases hout
    · split at hout
      · next htracking =>
          rw [if_pos htracking]
          have hle := Nat.le_of_not_lt (of_decide_eq_false hout)
          omega
      · next htracking =>
          rw [if_neg htracking]
          have hle := Nat.le_of_not_lt (of_decide_eq_false hout)
          simp only [TypedKind.size, Nat.mul_one] at hle
          exact hle

/-! ## Writes -/

theorem index_le (value : Arg) (length : Nat) : index value length ≤ length := by
  simp only [index]
  repeat' split
  · exact Nat.zero_le _
  · exact Nat.zero_le _
  · exact Nat.sub_le ..
  · exact Nat.le_refl _
  · exact Nat.min_le_right ..

section Write

variable {view : TypedArrayData} {args : List Arg} {string : List UInt16} {units number : UInt64}
  {offset length : Nat} {encoding : Encoding} {result : Nat × BufferBacking}

theorem writeOperands_offset (h : writeOperands view args = .ok (offset, length, encoding)) :
    offset ≤ view.effectiveLength := by
  unfold writeOperands at h
  split at h
  · split at h
    · cases h
    · obtain ⟨_, -, hoperands⟩ := ok_of_bind h
      cases hoperands
      exact Nat.zero_le _
  · obtain ⟨_, -, hoperands⟩ := ok_of_bind h
    cases hoperands
    cases args[1]? with
    | none => exact Nat.zero_le _
    | some value => exact index_le _ _

/-- What there is to say of a count and of the bytes afterwards. -/
structure Writes (view : TypedArrayData) (string : List UInt16) (offset length : Nat)
    (encoding : Encoding) (result : Nat × BufferBacking) : Prop where
  len : result.2.len = view.buffer.len
  frame : ∀ i, i < view.effectiveByteOffset + offset ∨
    view.effectiveByteOffset + offset + result.1 ≤ i →
      result.2.snapshot[i]? = view.buffer.snapshot[i]?
  count : result.1 ≤ length ∧ result.1 ≤ view.effectiveLength - offset
  whole : WholeCharacters string encoding
    ((result.2.snapshot.drop (view.effectiveByteOffset + offset)).take result.1)

/-- The count, and what stands behind it. -/
theorem bufferWrite_ok (hkind : view.kind = .uint8)
    (hstring : args[0]? = some (.string string units))
    (hoperands : writeOperands view args = .ok (offset, length, encoding))
    (hwrite : bufferWrite (.typedArray view number) args = .ok result) :
    result = (min (rawBytes string encoding).length (view.room offset length),
      (view.buffer.write (view.effectiveByteOffset + offset)
        ((rawBytes string encoding).take (view.room offset length))).2) := by
  obtain ⟨view', hview, hwrite⟩ := ok_of_bind hwrite
  rw [bufferView, if_pos hkind] at hview
  cases hview
  rw [hstring] at hwrite
  obtain ⟨operands, hoperands', hwrite⟩ := ok_of_bind hwrite
  rw [hoperands] at hoperands'
  cases hoperands'
  obtain ⟨bytes, hencode, hwrite⟩ := ok_of_bind hwrite
  have hbytes : rawBytes string encoding = bytes := by
    rw [encode] at hencode
    split at hencode
    · cases hencode
    · cases hencode
      rfl
  have hresult : (min (min bytes.length length) (view.effectiveLength - offset),
      (view.buffer.write (view.effectiveByteOffset + offset) (bytes.take
        (min (min bytes.length length) (view.effectiveLength - offset)))).2) = result :=
    Except.ok.inj hwrite
  have htake : bytes.take (min bytes.length (view.room offset length)) =
      bytes.take (view.room offset length) := by
    rw [Nat.min_comm, ← take_eq_take_min]
  rw [← hresult, hbytes, ← htake, TypedArrayData.room, ← Nat.min_assoc]

theorem write_characters_iff (hkind : view.kind = .uint8)
    (hstring : args[0]? = some (.string string units))
    (hoperands : writeOperands view args = .ok (offset, length, encoding))
    (hwrite : bufferWrite (.typedArray view number) args = .ok result) :
    Writes view string offset length encoding result ↔
      (view.buffer.isImmutable = false ∨
        (rawBytes string encoding).take (view.room offset length) <+:
          view.buffer.snapshot.drop (view.effectiveByteOffset + offset)) ∧
      CleanCut string (view.room offset length) encoding := by
  have hoffset := writeOperands_offset hoperands
  have hview := TypedArrayData.effective_le hkind
  rw [bufferWrite_ok hkind hstring hoperands hwrite, ← wholeCharacters_iff_cleanCut]
  have hroom : view.room offset length ≤ view.effectiveLength - offset := Nat.min_le_right ..
  have hlength : view.room offset length ≤ length := Nat.min_le_left ..
  generalize view.room offset length = room at hroom hlength ⊢
  generalize hraw : rawBytes string encoding = raw
  have hcount : (raw.take room).length = min raw.length room := by
    rw [List.length_take, Nat.min_comm]
  have hin : view.effectiveByteOffset + offset + (raw.take room).length ≤ view.buffer.len := by
    omega
  have hsnapshot := BufferBacking.snapshot_write hin
  obtain ⟨hlen, hwritten, hframe⟩ := BufferBacking.overwrite_eq view.buffer.snapshot _ hin
  rw [← hcount]
  cases himmutable : view.buffer.isImmutable with
  | true =>
    rw [himmutable, if_pos rfl] at hsnapshot
    constructor
    · intro h
      have hwhole := h.whole
      rw [hsnapshot] at hwhole
      have hsame : (view.buffer.snapshot.drop (view.effectiveByteOffset + offset)).take
          (raw.take room).length = raw.take room := by
        have hfront := hwhole.isPrefix
        rw [hraw] at hfront
        have hthere : ((view.buffer.snapshot.drop (view.effectiveByteOffset + offset)).take
            (raw.take room).length).length = (raw.take room).length := by
          rw [List.length_take, List.length_drop]
          exact Nat.min_eq_left (Nat.le_sub_of_add_le (by rw [Nat.add_comm]; exact hin))
        have hraws := List.take_prefix room raw
        exact (List.prefix_of_prefix_length_le hfront hraws (Nat.le_of_eq hthere)).eq_of_length
          hthere
      rw [hsame] at hwhole
      exact ⟨.inr (hsame ▸ List.take_prefix ..), hwhole⟩
    · rintro ⟨hthere, hwhole⟩
      have hthere := hthere.resolve_left Bool.noConfusion
      refine ⟨congrArg List.length hsnapshot, fun i _ => by rw [hsnapshot],
        ⟨by omega, by omega⟩, ?_⟩
      rw [hsnapshot, ← List.prefix_iff_eq_take.1 hthere]
      exact hwhole
  | false =>
    rw [himmutable, if_neg Bool.false_ne_true] at hsnapshot
    constructor
    · intro h
      have hwhole := h.whole
      rw [hsnapshot, hwritten] at hwhole
      exact ⟨.inl rfl, hwhole⟩
    · rintro ⟨-, hwhole⟩
      refine ⟨(congrArg List.length hsnapshot).trans hlen, fun i hi => ?_,
        ⟨by omega, by omega⟩, ?_⟩
      · rw [hsnapshot]
        exact hframe i hi
      · rw [hsnapshot, hwritten]
        exact hwhole

end Write

/-! ### A euro sign in two bytes -/

/-- A view of two bytes. -/
def twoBytes : TypedArrayData :=
  ⟨.uint8, .array false (.owned [0, 0]), 0, 2, false⟩

theorem write_characters_iff_whole :
    Writes twoBytes [0xE9] 0 2 .utf8 (2, .array false (.owned [0xC3, 0xA9])) := by
  have hwrite : bufferWrite (.typedArray twoBytes 0) [.string [0xE9] 0] =
      .ok (2, .array false (.owned [0xC3, 0xA9])) := rfl
  exact (write_characters_iff rfl rfl rfl hwrite).2 ⟨.inl rfl, fun _ h => by cases h⟩

/-- Two of the three bytes of U+20AC are written. -/
theorem euro_in_two_bytes :
    bufferWrite (.typedArray twoBytes 0) [.string [0x20AC] 0] =
      .ok (2, .array false (.owned [0xE2, 0x82])) ∧
    writeOperands twoBytes [.string [0x20AC] 0] = .ok (0, 2, .utf8) ∧
    ¬ Writes twoBytes [0x20AC] 0 2 .utf8 (2, .array false (.owned [0xE2, 0x82])) := by
  refine ⟨rfl, rfl, fun h => ?_⟩
  obtain ⟨front, back, hstring, -, hbytes⟩ := h.whole
  cases front with
  | nil => cases hbytes
  | cons unit front =>
    obtain ⟨rfl, htail⟩ := List.cons.inj hstring
    obtain ⟨rfl, -⟩ := List.append_eq_nil_iff.1 htail.symm
    revert hbytes
    decide

end NapiVm.BufferCodec
