import NapiVm.Host.Convert
import NapiVm.Rpc.Peer

/-!
# Limits and frames

The bounds a peer works under, and the encoding of one frame: a JSON value whose
numbers are brought into normal form, behind its length.  The serialization of a
value is the JSON library's, and a parameter.

* `Limits.validate`, `Limits.stricter` — what a peer accepts, and what two peers agree on.
* `encodeFrame` — `encode_frame`.
-/

namespace NapiVm.Rpc

open Host

/-! ## Limits -/

/-- `Limits`. -/
structure Limits where
  maxFrameBytes : Nat
  maxDepth : Nat
  maxPendingCalls : Nat
  maxQueuedBytes : Nat
  maxCallChainLength : Nat
  callTimeoutMs : Nat
  shutdownTimeoutMs : Nat
  startupTimeoutMs : Nat
  maxLogBytes : Nat
  maxEventQueue : Nat
  deriving DecidableEq, Repr

/-- `INVALID_ARGUMENT`, for limits. -/
def limitsErr : RpcError := ⟨"INVALID_ARGUMENT", "invalid transport limits"⟩

namespace Limits

/-- `Limits::default`. -/
def default : Limits where
  maxFrameBytes := 8 * 1024 * 1024
  maxDepth := 64
  maxPendingCalls := 256
  maxQueuedBytes := 16 * 1024 * 1024
  maxCallChainLength := 16
  callTimeoutMs := 30000
  shutdownTimeoutMs := 5000
  startupTimeoutMs := 10000
  maxLogBytes := 1024 * 1024
  maxEventQueue := 256

/-- The bounds that `validate` checks. -/
structure Valid (l : Limits) : Prop where
  frame : 0 < l.maxFrameBytes ∧ l.maxFrameBytes ≤ 64 * 1024 * 1024
  depth : 0 < l.maxDepth ∧ l.maxDepth ≤ 64
  pending : 0 < l.maxPendingCalls ∧ l.maxPendingCalls ≤ 65536
  queued : l.maxFrameBytes ≤ l.maxQueuedBytes ∧ l.maxQueuedBytes ≤ 256 * 1024 * 1024
  chain : 0 < l.maxCallChainLength ∧ l.maxCallChainLength ≤ 64
  call : 0 < l.callTimeoutMs ∧ l.callTimeoutMs ≤ 86400000
  shutdown : 0 < l.shutdownTimeoutMs
  startup : 0 < l.startupTimeoutMs
  log : l.maxLogBytes ≤ 64 * 1024 * 1024
  events : 0 < l.maxEventQueue ∧ l.maxEventQueue ≤ 65536

/-- `Limits::validate`. -/
def validate (l : Limits) : Except RpcError Unit :=
  if l.maxFrameBytes = 0 ∨ 64 * 1024 * 1024 < l.maxFrameBytes ∨
      l.maxDepth = 0 ∨ 64 < l.maxDepth ∨
      l.maxPendingCalls = 0 ∨ 65536 < l.maxPendingCalls ∨
      l.maxQueuedBytes < l.maxFrameBytes ∨ 256 * 1024 * 1024 < l.maxQueuedBytes ∨
      l.maxCallChainLength = 0 ∨ 64 < l.maxCallChainLength ∨
      l.callTimeoutMs = 0 ∨ 86400000 < l.callTimeoutMs ∨
      l.shutdownTimeoutMs = 0 ∨ l.startupTimeoutMs = 0 ∨
      64 * 1024 * 1024 < l.maxLogBytes ∨
      l.maxEventQueue = 0 ∨ 65536 < l.maxEventQueue then
    .error limitsErr
  else .ok ()

/-- `Limits::stricter`. -/
def stricter (a b : Limits) : Limits where
  maxFrameBytes := min a.maxFrameBytes b.maxFrameBytes
  maxDepth := min a.maxDepth b.maxDepth
  maxPendingCalls := min a.maxPendingCalls b.maxPendingCalls
  maxQueuedBytes := min a.maxQueuedBytes b.maxQueuedBytes
  maxCallChainLength := min a.maxCallChainLength b.maxCallChainLength
  callTimeoutMs := min a.callTimeoutMs b.callTimeoutMs
  shutdownTimeoutMs := min a.shutdownTimeoutMs b.shutdownTimeoutMs
  startupTimeoutMs := min a.startupTimeoutMs b.startupTimeoutMs
  maxLogBytes := min a.maxLogBytes b.maxLogBytes
  maxEventQueue := min a.maxEventQueue b.maxEventQueue

theorem validate_ok {l : Limits} : l.validate = .ok () ↔ l.Valid := by
  unfold validate
  constructor
  · intro h
    split at h
    · cases h
    · rename_i hnot
      simp only [not_or] at hnot
      obtain ⟨h₁, h₂, h₃, h₄, h₅, h₆, h₇, h₈, h₉, h₁₀, h₁₁, h₁₂, h₁₃, h₁₄, h₁₅, h₁₆, h₁₇⟩ := hnot
      constructor <;> omega
  · rintro ⟨h₁, h₂, h₃, h₄, h₅, h₆, h₇, h₈, h₉, h₁₀⟩
    rw [if_neg]
    simp only [not_or]
    refine ⟨?_, ?_, ?_, ?_, ?_, ?_, ?_, ?_, ?_, ?_, ?_, ?_, ?_, ?_, ?_, ?_, ?_⟩ <;> omega

theorem valid_default : default.Valid := by
  apply validate_ok.1
  rfl

end Limits

/-! ## Normal form -/

/-- `INVALID_ARGUMENT`, for a number. -/
def finiteErr : RpcError := ⟨"INVALID_ARGUMENT", "non-finite number"⟩

/-- `INVALID_ARGUMENT`, for nesting. -/
def nestingErr : RpcError := ⟨"INVALID_ARGUMENT", "JSON nesting limit exceeded"⟩

/-- `OVERLOADED`, for a frame. -/
def frameErr : RpcError := ⟨"OVERLOADED", "frame size limit exceeded"⟩

/-- A safe integer is stored as one, whatever it was written as. -/
def normalizeNumber (n : JsonNumber) : Except RpcError JsonNumber :=
  if Binary64.isFinite n.asF64 = false then .error finiteErr
  else
    match Binary64.toInt? n.asF64 with
    | some i => if i.natAbs ≤ 9007199254740991 then .ok (.int i) else .ok (.float n.asF64)
    | none => .ok (.float n.asF64)

mutual

/-- `normalize_value`. -/
def normalizeValue (limit : Nat) : Nat → Json → Except RpcError Json
  | depth, .number n =>
    if limit < depth then .error nestingErr else (normalizeNumber n).map .number
  | depth, .array items =>
    if limit < depth then .error nestingErr
    else (normalizeItems limit (depth + 1) items).map .array
  | depth, .object fields =>
    if limit < depth then .error nestingErr
    else (normalizeFields limit (depth + 1) fields).map .object
  | depth, value => if limit < depth then .error nestingErr else .ok value

/-- The items of an array, in order. -/
def normalizeItems (limit : Nat) : Nat → List Json → Except RpcError (List Json)
  | _, [] => .ok []
  | depth, item :: rest => do
      let item ← normalizeValue limit depth item
      let rest ← normalizeItems limit depth rest
      pure (item :: rest)

/-- The values of an object, in order. -/
def normalizeFields (limit : Nat) :
    Nat → List (String × Json) → Except RpcError (List (String × Json))
  | _, [] => .ok []
  | depth, (key, value) :: rest => do
      let value ← normalizeValue limit depth value
      let rest ← normalizeFields limit depth rest
      pure ((key, value) :: rest)

end

/-! ## Frames -/

/-- `serde_json::to_vec`. -/
abbrev Serializer := Json → Except RpcError (List UInt8)

/-- `serde_json` in a string. -/
def escapeChar (c : Char) : List UInt8 :=
  match c.toNat with
  | 0x22 => [92, 34]
  | 0x5C => [92, 92]
  | 0x08 => [92, 98]
  | 0x09 => [92, 116]
  | 0x0A => [92, 110]
  | 0x0C => [92, 102]
  | 0x0D => [92, 114]
  | n =>
    if n < 0x20 then [92, 117, 48, 48, UInt8.ofNat (48 + n / 16), hexDigit (n % 16)]
    else String.utf8EncodeChar c
where
  hexDigit (n : Nat) : UInt8 := UInt8.ofNat (if n < 10 then 48 + n else 87 + n)

def quotedText (s : String) : List UInt8 := [34] ++ s.toList.flatMap escapeChar ++ [34]

mutual

/-- The text of a value without fractions; how those are printed is left to the library. -/
def compactValue : Json → Except RpcError (List UInt8)
  | .null => .ok [110, 117, 108, 108]
  | .bool true => .ok [116, 114, 117, 101]
  | .bool false => .ok [102, 97, 108, 115, 101]
  | .number (.int n) => .ok ((toString n).toList.flatMap String.utf8EncodeChar)
  | .number (.float _) => .error finiteErr
  | .string s => .ok (quotedText s)
  | .array items => (compactItems items).map fun body => [91] ++ body ++ [93]
  | .object fields => (compactFields fields).map fun body => [123] ++ body ++ [125]

def compactItems : List Json → Except RpcError (List UInt8)
  | [] => .ok []
  | [item] => compactValue item
  | item :: rest => do
      let first ← compactValue item
      let rest ← compactItems rest
      pure (first ++ [44] ++ rest)

def compactFields : List (String × Json) → Except RpcError (List UInt8)
  | [] => .ok []
  | [(key, value)] => (compactValue value).map fun text => quotedText key ++ [58] ++ text
  | (key, value) :: rest => do
      let text ← compactValue value
      let rest ← compactFields rest
      pure (quotedText key ++ [58] ++ text ++ [44] ++ rest)

end

/-- `u32::to_be_bytes`. -/
def bigEndian (n : Nat) : List UInt8 :=
  [UInt8.ofNat (n / 2 ^ 24), UInt8.ofNat (n / 2 ^ 16), UInt8.ofNat (n / 2 ^ 8), UInt8.ofNat n]

/-- The bytes of a value in normal form. -/
def encodeValue (serialize : Serializer) (value : Json) (depth : Nat) :
    Except RpcError (List UInt8) := do
  let value ← normalizeValue depth 0 value
  serialize value

/-- `encode_frame`. -/
def encodeFrame (serialize : Serializer) (value : Json) (max depth : Nat) :
    Except RpcError (List UInt8) := do
  let data ← encodeValue serialize value depth
  if data = [] ∨ max < data.length ∨ 2 ^ 32 - 1 < data.length then .error frameErr
  else .ok (bigEndian data.length ++ data)

variable {serialize : Serializer} {value : Json} {max depth : Nat} {frame : List UInt8}

/-- A frame is a value that is not too long, behind four bytes of header. -/
theorem encodeFrame_ok :
    encodeFrame serialize value max depth = .ok frame ↔
      ∃ data, encodeValue serialize value depth = .ok data ∧ data ≠ [] ∧ data.length ≤ max ∧
        data.length < 2 ^ 32 ∧ frame = bigEndian data.length ++ data := by
  unfold encodeFrame
  cases encodeValue serialize value depth with
  | error e => simp [bind, Except.bind]
  | ok data =>
    simp only [bind, Except.bind, Except.ok.injEq]
    constructor
    · intro h
      split at h
      · cases h
      · rename_i hnot
        simp only [not_or, not_lt] at hnot
        cases h
        exact ⟨data, rfl, hnot.1, hnot.2.1, by omega, rfl⟩
    · rintro ⟨data', rfl, hne, hmax, hlt, rfl⟩
      rw [if_neg]
      simp only [not_or, not_lt]
      exact ⟨hne, hmax, by omega⟩

theorem length_frame {data : List UInt8} (h : encodeFrame serialize value max depth = .ok frame)
    (hdata : encodeValue serialize value depth = .ok data) : frame.length = data.length + 4 := by
  obtain ⟨data', hdata', -, -, -, rfl⟩ := encodeFrame_ok.1 h
  cases hdata.symm.trans hdata'
  simp only [bigEndian, List.length_append, List.length_cons, List.length_nil]
  omega

end NapiVm.Rpc
