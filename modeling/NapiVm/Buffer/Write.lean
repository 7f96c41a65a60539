import NapiVm.Lib.Binary64
import NapiVm.Buffer.Codec

/-!
# Writing strings into buffers

* `BufferBacking` — the bytes under a view, and when they can be written.
* `TypedArrayData` — a window onto them.
* `bufferWrite` — `Buffer.prototype.write`: the count, and the bytes afterwards.
-/

namespace NapiVm.BufferCodec

/-! ## Bytes -/

/-- `BufferStorage`; bytes of an addon are bytes like others. -/
inductive BufferStorage where
  | owned (bytes : List UInt8)
  | detached
  deriving DecidableEq

/-- `as_slice`. -/
def BufferStorage.asSlice : BufferStorage → List UInt8
  | .owned bytes => bytes
  | .detached => []

/-- `BufferBacking`. -/
inductive BufferBacking where
  | array (immutable : Bool) (storage : BufferStorage)
  | shared (bytes : List UInt8)
  deriving DecidableEq

namespace BufferBacking

/-- `snapshot`. -/
def snapshot : BufferBacking → List UInt8
  | .array _ storage => storage.asSlice
  | .shared bytes => bytes

/-- `len`. -/
def len (backing : BufferBacking) : Nat := backing.snapshot.length

/-- `is_detached`. -/
def isDetached : BufferBacking → Bool
  | .array _ storage => decide (storage = .detached)
  | .shared _ => false

/-- `is_immutable`. -/
def isImmutable : BufferBacking → Bool
  | .array immutable _ => immutable
  | .shared _ => false

/-- `copy_from_slice`, at an offset. -/
def overwrite (old : List UInt8) (offset : Nat) (bytes : List UInt8) : List UInt8 :=
  old.take offset ++ bytes ++ old.drop (offset + bytes.length)

/-- `write`: whether the bytes were written, and what is there afterwards. -/
def write (backing : BufferBacking) (offset : Nat) (bytes : List UInt8) : Bool × BufferBacking :=
  if backing.isImmutable then (false, backing)
  else if backing.len < offset + bytes.length then (false, backing)
  else
    match backing with
    | .array immutable (.owned old) =>
      (true, .array immutable (.owned (overwrite old offset bytes)))
    | .array immutable .detached => (true, .array immutable .detached)
    | .shared old => (true, .shared (overwrite old offset bytes))

end BufferBacking

/-! ## Views -/

/-- `TypedKind`. -/
inductive TypedKind where
  | int8
  | uint8
  | uint8Clamped
  | int16
  | uint16
  | int32
  | uint32
  | float16
  | float32
  | float64
  | bigInt64
  | bigUint64
  deriving DecidableEq

/-- `TypedKind::size`. -/
def TypedKind.size : TypedKind → Nat
  | .int8 | .uint8 | .uint8Clamped => 1
  | .int16 | .uint16 | .float16 => 2
  | .int32 | .uint32 | .float32 => 4
  | .float64 | .bigInt64 | .bigUint64 => 8

/-- `TypedArrayData`. -/
structure TypedArrayData where
  kind : TypedKind
  buffer : BufferBacking
  byteOffset : Nat
  length : Nat
  lengthTracking : Bool

namespace TypedArrayData

/-- `is_out_of_bounds`.  A sum that overflows is beyond the end too. -/
def isOutOfBounds (view : TypedArrayData) : Bool :=
  if view.buffer.isDetached then true
  else if view.lengthTracking then decide (view.buffer.len < view.byteOffset)
  else decide (view.buffer.len < view.byteOffset + view.length * view.kind.size)

/-- `effective_length`. -/
def effectiveLength (view : TypedArrayData) : Nat :=
  if view.isOutOfBounds then 0
  else if view.lengthTracking then (view.buffer.len - view.byteOffset) / view.kind.size
  else view.length

/-- `effective_byte_offset`. -/
def effectiveByteOffset (view : TypedArrayData) : Nat :=
  if view.isOutOfBounds then 0 else view.byteOffset

end TypedArrayData

/-! ## Arguments -/

/-- A value, with the number that `to_number` makes of it. -/
inductive Arg where
  | undefined
  | string (units : List UInt16) (number : UInt64)
  | typedArray (view : TypedArrayData) (number : UInt64)
  | other (number : UInt64)

/-- `to_number`. -/
def Arg.toNumber : Arg → UInt64
  | .undefined => Binary64.nan
  | .string _ number | .typedArray _ number | .other number => number

/-- `index`.  The sum with a length is exact, for a length is less than `2 ^ 53`. -/
def index (value : Arg) (length : Nat) : Nat :=
  let number := value.toNumber
  if Binary64.isNan number then 0
  else if Binary64.sign number ∨ Binary64.isZero number then
    if Binary64.isZero number then 0 else length - Binary64.trunc number
  else if ¬ Binary64.isFinite number then length
  else min (Binary64.trunc number) length

def typeError (message : String) : String := "TypeError: " ++ message

/-- `buffer_view`. -/
def bufferView : Arg → Except String TypedArrayData
  | .typedArray view _ =>
    if view.kind = .uint8 then .ok view
    else .error (typeError "The \"this\" value must be a Uint8Array or Buffer")
  | _ => .error (typeError "The \"this\" value must be a Uint8Array or Buffer")

/-- `encoding_arg`. -/
def encodingArg : Option Arg → Except String Encoding
  | none | some .undefined => .ok .utf8
  | some (.string name _) =>
    match normalizeEncoding (asStr name) with
    | some encoding => .ok encoding
    | none => .error (typeError "Unknown encoding")
  | some _ => .error (typeError "The encoding argument must be a string")

/-! ## Writing -/

/-- The offset, the length and the encoding that the arguments ask for. -/
def writeOperands (view : TypedArrayData) (args : List Arg) :
    Except String (Nat × Nat × Encoding) :=
  match (args[1]? : Option Arg) with
  | some (.string name number) =>
    if 2 < args.length then
      .error (typeError "The \"offset\" argument must be of type number")
    else do
      let encoding ← encodingArg (some (.string name number))
      .ok (0, view.effectiveLength, encoding)
  | given => do
      let offset := (given.map fun value => index value view.effectiveLength).getD 0
      let length := (args[2]?.map fun value => index value view.effectiveLength).getD
        (view.effectiveLength - offset)
      let encoding ← encodingArg args[3]?
      .ok (offset, length, encoding)

/-- `buffer_write`: the count, and the backing store afterwards. -/
def bufferWrite (this : Arg) (args : List Arg) : Except String (Nat × BufferBacking) := do
  let view ← bufferView this
  match (args[0]? : Option Arg) with
  | some (.string string _) =>
    let (offset, length, encoding) ← writeOperands view args
    let bytes ← encode string encoding
    let count := min (min bytes.length length) (view.effectiveLength - offset)
    -- what `write` answers is not looked at
    let (_, after) := view.buffer.write (view.effectiveByteOffset + offset) (bytes.take count)
    .ok (count, after)
  | _ => .error (typeError "The first argument must be a string")

end NapiVm.BufferCodec
