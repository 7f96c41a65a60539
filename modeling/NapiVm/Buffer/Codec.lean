import NapiVm.Text.JsString
import NapiVm.Text.Str

/-!
# The text codecs of buffers

* `encode` — the bytes of a string in an encoding, if they are not too many.
* `decode` — the string of bytes in an encoding.
* `decodeBase64`, `encodeBase64` — base64, with its two alphabets.
-/

namespace NapiVm.BufferCodec

open JsString

/-! ## Encodings -/

/-- What `normalize_encoding` gives. -/
inductive Encoding where
  | utf8
  | hex
  | ascii
  | latin1
  | base64
  | base64url
  | utf16le
  deriving DecidableEq

/-- `normalize_encoding`. -/
def normalizeEncoding (name : List Char) : Option Encoding :=
  let name := String.ofList (name.map Char.toLower)
  if name = "utf8" ∨ name = "utf-8" then some .utf8
  else if name = "hex" then some .hex
  else if name = "ascii" then some .ascii
  else if name = "latin1" ∨ name = "binary" then some .latin1
  else if name = "base64" then some .base64
  else if name = "base64url" then some .base64url
  else if name = "ucs2" ∨ name = "ucs-2" ∨ name = "utf16le" ∨ name = "utf-16le" then some .utf16le
  else none

/-- `MAX_BUFFER_LENGTH`. -/
def maxBufferLength : Nat := 64 * 1024 * 1024

/-- `range_error`. -/
def rangeError (message : String) : String := "RangeError: " ++ message

/-- `JsString::as_str`. -/
def asStr (units : List UInt16) : List Char :=
  (decodeUtf16 units).map fun scalar =>
    match scalar with
    | .ok c => c
    | .error _ => '\uFFFD'

/-- `as_bytes`, of a text. -/
def utf8 (text : List Char) : List UInt8 := text.flatMap String.utf8EncodeChar

/-! ## From strings -/

/-- `hex_nibble`. -/
def hexNibble (byte : UInt8) : Option UInt8 :=
  if 48 ≤ byte ∧ byte ≤ 57 then some (byte - 48)
  else if 97 ≤ byte ∧ byte ≤ 102 then some (byte - 97 + 10)
  else if 65 ≤ byte ∧ byte ≤ 70 then some (byte - 65 + 10)
  else none

/-- The pairs of nibbles before the first that is none. -/
def encodeHex : List UInt8 → List UInt8
  | a :: b :: rest =>
    match hexNibble a, hexNibble b with
    | some high, some low => ((high <<< 4) ||| low) :: encodeHex rest
    | _, _ => []
  | _ => []

/-- What a byte of a base64 text stands for; `=` ends the text. -/
def sextet (byte : UInt8) : Option UInt8 :=
  if 65 ≤ byte ∧ byte ≤ 90 then some (byte - 65)
  else if 97 ≤ byte ∧ byte ≤ 122 then some (byte - 97 + 26)
  else if 48 ≤ byte ∧ byte ≤ 57 then some (byte - 48 + 52)
  else if byte = 43 ∨ byte = 45 then some 62
  else if byte = 47 ∨ byte = 95 then some 63
  else none

/-- The loop of `decode_base64`.  The accumulator keeps the bits that are given out. -/
def decodeBytes : List UInt8 → UInt32 → UInt8 → List UInt8
  | [], _, _ => []
  | byte :: rest, accumulator, bits =>
    if byte = 61 then []
    else
      match sextet byte with
      | none => decodeBytes rest accumulator bits
      | some value =>
        let accumulator := (accumulator <<< 6) ||| value.toUInt32
        let bits := bits + 6
        if 8 ≤ bits then
          (accumulator >>> (bits - 8).toUInt32).toUInt8 ::
            decodeBytes rest accumulator (bits - 8)
        else decodeBytes rest accumulator bits

/-- `decode_base64`. -/
def decodeBase64 (input : List Char) : List UInt8 := decodeBytes (utf8 input) 0 0

/-- `u16::to_le_bytes`. -/
def toLeBytes (unit : UInt16) : List UInt8 := [unit.toUInt8, (unit >>> 8).toUInt8]

/-- The bytes of a string, before their number is checked. -/
def rawBytes (string : List UInt16) : Encoding → List UInt8
  | .utf8 => utf8 (asStr string)
  | .hex => encodeHex (utf8 (asStr string))
  | .ascii | .latin1 => string.map UInt16.toUInt8
  | .utf16le => string.flatMap toLeBytes
  | .base64 | .base64url => decodeBase64 (asStr string)

/-- `encode`. -/
def encode (string : List UInt16) (encoding : Encoding) : Except String (List UInt8) :=
  let bytes := rawBytes string encoding
  if maxBufferLength < bytes.length then
    .error (rangeError "The value of \"size\" is out of range")
  else .ok bytes

/-! ## To strings -/

/-- `{byte:02x}`. -/
def hexByte (byte : UInt8) : List Char :=
  [Nat.digitChar (byte.toNat / 16), Nat.digitChar (byte.toNat % 16)]

def standard : List Char :=
  "ABCDEFGHIJKLMNOPQRSTUVWXYZabcdefghijklmnopqrstuvwxyz0123456789+/".toList

def urlSafe : List Char :=
  "ABCDEFGHIJKLMNOPQRSTUVWXYZabcdefghijklmnopqrstuvwxyz0123456789-_".toList

/-- The letter for six bits. -/
def letter (url : Bool) (value : UInt8) : Char :=
  (if url then urlSafe else standard).getD value.toNat 'A'

/-- The letters of a chunk of three bytes at most. -/
def encodeChunk (url : Bool) (first : UInt8) (second third : Option UInt8) : List Char :=
  letter url (first >>> 2) ::
    letter url (((first &&& 0x03) <<< 4) ||| (second.getD 0 >>> 4)) ::
      (match second with
        | some second => [letter url (((second &&& 0x0F) <<< 2) ||| (third.getD 0 >>> 6))]
        | none => if url then [] else ['=']) ++
        (match third with
          | some third => [letter url (third &&& 0x3F)]
          | none => if url then [] else ['='])

/-- `encode_base64`. -/
def encodeBase64 (url : Bool) : List UInt8 → List Char
  | [] => []
  | [a] => encodeChunk url a none none
  | [a, b] => encodeChunk url a (some b) none
  | a :: b :: c :: rest => encodeChunk url a (some b) (some c) ++ encodeBase64 url rest

/-- `u16::from_le_bytes`, of the pairs; a last byte without another is left out. -/
def fromLeBytes : List UInt8 → List UInt16
  | low :: high :: rest => (low.toUInt16 ||| (high.toUInt16 <<< 8)) :: fromLeBytes rest
  | _ => []

/-- The text of bytes, in an encoding that makes texts. -/
def decodeText (bytes : List UInt8) : Encoding → List Char
  | .utf8 => Str.fromUtf8Lossy bytes
  | .hex => bytes.flatMap hexByte
  | .ascii => bytes.map fun byte => Char.ofNat (byte &&& 0x7F).toNat
  | .latin1 => bytes.map fun byte => Char.ofNat byte.toNat
  | .base64 => encodeBase64 false bytes
  | .base64url => encodeBase64 true bytes
  | .utf16le => []

/-- `decode`. -/
def decode (bytes : List UInt8) (encoding : Encoding) : List UInt16 :=
  if encoding = .utf16le then fromLeBytes bytes
  else (decodeText bytes encoding).flatMap encodeUtf16

end NapiVm.BufferCodec
