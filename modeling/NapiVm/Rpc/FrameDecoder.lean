import NapiVm.Rpc.Frame
import NapiVm.Rpc.WireValue

/-!
# Frames on the script side

`encodeFrame` and `FrameDecoder`: a frame is a JSON text behind its length, and the bytes arrive
in chunks that are cut anywhere.

* `FrameDecoder.push` — takes one chunk, and delivers the values of the frames that are complete.
* `Admitted` — no chunk completes more than a decoder takes at once.
* `pushes_stream` — what a cut stream of frames delivers.
-/

namespace NapiVm.Rpc.Codec

open JsonText List

/-! ## The codec -/

/-- `Buffer.from(text, 'utf8')`. -/
def utf8Encode (text : List Char) : List UInt8 := text.flatMap String.utf8EncodeChar

/-- `TextDecoder('utf-8', { fatal: true, ignoreBOM: true })`. -/
def utf8Decode (bytes : List UInt8) : Option (List Char) :=
  (ByteArray.utf8Decode? bytes.toByteArray).map Array.toList

def frameTooLong (maxBytes : Nat) : RpcError :=
  ⟨"OVERLOADED", "Frame exceeds " ++ toString maxBytes ++ " bytes"⟩

/-- `writeUInt32BE` takes no longer length; the error is none of the protocol. -/
def lengthOutOfRange : RpcError :=
  ⟨"ERR_OUT_OF_RANGE", "The value of \"value\" is out of range."⟩

/-- `encodeFrame`. -/
def encodeFrame {Ref : Type} [DecidableEq Ref] (view : Ref → Obj Ref) (v : Val Ref)
    (maxBytes maxDepth : Nat) : Except RpcError (List UInt8) := do
  let value ← wireValue view v maxDepth
  let payload := utf8Encode (stringify value)
  if payload.length = 0 ∨ maxBytes < payload.length then .error (frameTooLong maxBytes)
  else if 2 ^ 32 ≤ payload.length then .error lengthOutOfRange
  else .ok (bigEndian payload.length ++ payload)

/-- `readUInt32BE`. -/
def readUInt32BE (header : List UInt8) : Nat :=
  header.foldl (fun n b => n * 256 + b.toNat) 0

/-- What a decoder has of the next frame: a part of its header, or its size and a part of it. -/
inductive Reading where
  | header (bytes : List UInt8) (short : bytes.length < 4)
  | payload (size : Nat) (bytes : List UInt8) (short : bytes.length < size)

/-- No byte has been read. -/
def Reading.empty : Reading := .header [] (by decide)

/-- What a decoder accepts. -/
structure Bounds where
  maxBytes : Nat
  maxDepth : Nat

structure FrameDecoder where
  reading : Reading
  bounds : Bounds

/-- `onFrame` says whether to go on; it may have changed the bounds, and it may throw. -/
abbrev OnFrame := JsonValue → Bounds → Except RpcError (Bool × Bounds)

def invalidLength (size : Nat) : RpcError :=
  ⟨"INVALID_REQUEST", "Invalid frame length " ++ toString size⟩

def admissionErr : RpcError := ⟨"OVERLOADED", "Coalesced frame admission limit exceeded"⟩

def parseErr : RpcError := ⟨"PARSE_ERROR", "Invalid UTF-8 or JSON"⟩

def truncatedErr : RpcError := ⟨"INVALID_REQUEST", "Truncated frame"⟩

/-- The value of a complete payload. -/
def decodePayload (payload : List UInt8) (maxDepth : Nat) : Except RpcError JsonValue :=
  match (utf8Decode payload).bind parse with
  | some parsed => wireValue (parsedView parsed) (valueAt [] parsed) maxDepth
  | none => .error parseErr

/-- What is left of a chunk, and the payload that has been completed, if one has. -/
structure Taken where
  reading : Reading
  payload : Option (List UInt8)
  rest : List UInt8

/-- Bytes go into a payload. -/
def takePayload (size : Nat) (bytes chunk : List UInt8) : Taken :=
  let count := min (size - bytes.length) chunk.length
  let taken := bytes ++ chunk.take count
  if hshort : taken.length < size then ⟨.payload size taken hshort, none, chunk.drop count⟩
  else ⟨.empty, some taken, chunk.drop count⟩

/-- Bytes go into a header, and behind it into its payload. -/
def takeHeader (maxBytes : Nat) (bytes chunk : List UInt8) : Except RpcError Taken :=
  let count := min (4 - bytes.length) chunk.length
  let header := bytes ++ chunk.take count
  if hshort : header.length < 4 then .ok ⟨.header header hshort, none, chunk.drop count⟩
  else
    let size := readUInt32BE header
    if size = 0 ∨ maxBytes < size then .error (invalidLength size)
    else .ok (takePayload size [] (chunk.drop count))

/-- One pass of the loop. -/
def Reading.take (maxBytes : Nat) (chunk : List UInt8) : Reading → Except RpcError Taken
  | .header bytes _ => takeHeader maxBytes bytes chunk
  | .payload size bytes _ => .ok (takePayload size bytes chunk)

/-- What one call of `push` has decoded so far. -/
structure Decoded where
  frames : Nat
  bytes : Nat

def Decoded.add (d : Decoded) (payload : List UInt8) : Decoded :=
  ⟨d.frames + 1, d.bytes + payload.length⟩

/-- As much as one call decodes. -/
def Decoded.Within (d : Decoded) : Prop := d.frames ≤ 256 ∧ d.bytes ≤ 16 * 1024 * 1024

instance (d : Decoded) : Decidable d.Within := inferInstanceAs (Decidable (_ ∧ _))

/-- What has come of a call: the values it has delivered, and the error that has ended it. -/
structure Pushed where
  decoder : FrameDecoder
  values : List JsonValue
  error : Option RpcError

theorem take_min {α : Type} (n : Nat) (l : List α) : l.take (min n l.length) = l.take n := by
  rw [take_eq_take_iff]
  omega

theorem drop_min {α : Type} (n : Nat) (l : List α) : l.drop (min n l.length) = l.drop n := by
  rcases Nat.le_total n l.length with h | h
  · rw [min_eq_left h]
  · rw [min_eq_right h, drop_length, drop_eq_nil_of_le h]

theorem rest_takePayload (size : Nat) (bytes chunk : List UInt8) :
    (takePayload size bytes chunk).rest = chunk.drop (size - bytes.length) := by
  unfold takePayload
  dsimp only
  split <;> exact drop_min _ _

/-- Every pass takes something. -/
theorem Reading.rest_take {maxBytes : Nat} {chunk : List UInt8} {reading : Reading} {t : Taken}
    (hchunk : chunk ≠ []) (h : reading.take maxBytes chunk = .ok t) :
    t.rest.length < chunk.length := by
  have hpos := length_pos_iff.2 hchunk
  cases reading with
  | payload size bytes short =>
    cases h
    rw [rest_takePayload, length_drop]
    omega
  | header bytes short =>
    simp only [Reading.take, takeHeader, drop_min] at h
    split at h
    · cases h
      rw [length_drop]
      omega
    split at h
    · cases h
    · cases h
      rw [rest_takePayload, length_drop, length_drop]
      omega

/-- What `onFrame` answers; without it the loop goes on. -/
def OnFrame.answer (onFrame : Option OnFrame) (value : JsonValue) (bounds : Bounds) :
    Except RpcError (Bool × Bounds) :=
  match onFrame with
  | some f => f value bounds
  | none => .ok (true, bounds)

namespace FrameDecoder

/-- The loop of `push`, with what is left of the chunk. -/
def pushLoop (onFrame : Option OnFrame) (d : FrameDecoder) (decoded : Decoded)
    (values : List JsonValue) (chunk : List UInt8) : Pushed :=
  if _ : chunk = [] then ⟨d, values, none⟩
  else
    match _ : d.reading.take d.bounds.maxBytes chunk with
    | .error e => ⟨{ d with reading := .empty }, values, some e⟩
    | .ok taken =>
      let d := { d with reading := taken.reading }
      match taken.payload with
      | none => pushLoop onFrame d decoded values taken.rest
      | some payload =>
        let decoded := decoded.add payload
        if ¬ decoded.Within then ⟨d, values, some admissionErr⟩
        else
          match decodePayload payload d.bounds.maxDepth with
          | .error e => ⟨d, values, some e⟩
          | .ok value =>
            let values := values ++ [value]
            match OnFrame.answer onFrame value d.bounds with
            | .error e => ⟨d, values, some e⟩
            | .ok (false, bounds) => ⟨{ d with bounds := bounds }, values, none⟩
            | .ok (true, bounds) =>
              pushLoop onFrame { d with bounds := bounds } decoded values taken.rest
termination_by chunk.length
decreasing_by all_goals exact Reading.rest_take ‹_› ‹_›

/-- `push`; a call that throws returns nothing. -/
def push (onFrame : Option OnFrame) (d : FrameDecoder) (chunk : List UInt8) : Pushed :=
  let p := d.pushLoop onFrame ⟨0, 0⟩ [] chunk
  if p.error.isSome && onFrame.isNone then { p with values := [] } else p

/-- `finish`. -/
def finish (d : FrameDecoder) : Except RpcError Unit :=
  match d.reading with
  | .header [] _ => .ok ()
  | _ => .error truncatedErr

/-- One chunk after the other, until a call throws. -/
def pushes (onFrame : Option OnFrame) : FrameDecoder → List (List UInt8) → Pushed
  | d, [] => ⟨d, [], none⟩
  | d, chunk :: chunks =>
    let p := d.push onFrame chunk
    if p.error.isSome then p
    else
      let rest := pushes onFrame p.decoder chunks
      { rest with values := p.values ++ rest.values }

end FrameDecoder

/-! ## Streams of frames -/

theorem readUInt32BE_bigEndian {n : Nat} (h : n < 2 ^ 32) : readUInt32BE (bigEndian n) = n := by
  simp only [readUInt32BE, bigEndian, foldl_cons, foldl_nil, UInt8.toNat_ofNat']
  omega

/-- A frame that a decoder accepts, and its value. -/
structure Frame (b : Bounds) where
  payload : List UInt8
  value : JsonValue
  nonempty : 0 < payload.length
  bounded : payload.length ≤ b.maxBytes
  short : payload.length < 2 ^ 32
  decoded : decodePayload payload b.maxDepth = .ok value

namespace Frame

variable {b : Bounds}

def bytes (f : Frame b) : List UInt8 := bigEndian f.payload.length ++ f.payload

theorem length_bytes (f : Frame b) : f.bytes.length = f.payload.length + 4 := by
  rw [bytes, length_append, Nat.add_comm]
  rfl

/-- What has been read of a frame after so many of its bytes. -/
def readingAt (f : Frame b) (n : Nat) : Reading :=
  if h : n < 4 then .header (f.bytes.take n) ((List.length_take_le _ _).trans_lt h)
  else if h : n < f.bytes.length then
    .payload f.payload.length (f.payload.take (n - 4))
      ((List.length_take_le _ _).trans_lt (by rw [length_bytes] at h; omega))
  else .empty

end Frame

/-! ## One pass -/

theorem takePayload_split {size n : Nat} {t : List UInt8} (hsize : n < size) (ht : n ≤ t.length) :
    takePayload size (t.take n) (t.drop n) =
      if h : t.length < size then ⟨.payload size t h, none, []⟩
      else ⟨.empty, some (t.take size), t.drop size⟩ := by
  have hlength : (t.take n).length = n := length_take_of_le ht
  have htaken : t.take n ++ (t.drop n).take (size - n) = t.take size := by
    rw [← take_add, Nat.add_sub_cancel' hsize.le]
  have hrest : (t.drop n).drop (size - n) = t.drop size := by
    rw [drop_drop, Nat.add_sub_cancel' hsize.le]
  simp only [takePayload, take_min, drop_min, hlength, htaken, hrest]
  by_cases h : t.length < size
  · have hshort : (t.take size).length < size := by rwa [take_of_length_le h.le]
    rw [dif_pos hshort, dif_pos h]
    simp only [take_of_length_le h.le, drop_eq_nil_of_le h.le]
  · have hfull : ¬ (t.take size).length < size := by
      rw [length_take_of_le (not_lt.1 h)]
      exact lt_irrefl _
    rw [dif_neg hfull, dif_neg h]

theorem takeHeader_split {maxBytes n : Nat} {t : List UInt8} (hn : n < 4) (ht : n ≤ t.length) :
    takeHeader maxBytes (t.take n) (t.drop n) = if h : t.length < 4 then .ok ⟨.header t h, none, []⟩
      else if readUInt32BE (t.take 4) = 0 ∨ maxBytes < readUInt32BE (t.take 4) then
        .error (invalidLength (readUInt32BE (t.take 4)))
      else .ok (takePayload (readUInt32BE (t.take 4)) [] (t.drop 4)) := by
  have hlength : (t.take n).length = n := length_take_of_le ht
  have htaken : t.take n ++ (t.drop n).take (4 - n) = t.take 4 := by
    rw [← take_add, Nat.add_sub_cancel' hn.le]
  have hrest : (t.drop n).drop (4 - n) = t.drop 4 := by
    rw [drop_drop, Nat.add_sub_cancel' hn.le]
  simp only [takeHeader, take_min, drop_min, hlength, htaken, hrest]
  by_cases h : t.length < 4
  · have hshort : (t.take 4).length < 4 := by rwa [take_of_length_le h.le]
    rw [dif_pos hshort, dif_pos h]
    simp only [take_of_length_le h.le, drop_eq_nil_of_le h.le]
  · have hfull : ¬ (t.take 4).length < 4 := by
      rw [length_take_of_le (not_lt.1 h)]
      exact lt_irrefl _
    rw [dif_neg hfull, dif_neg h]

namespace Frame

variable {b : Bounds} (f : Frame b)

/-- The header of a frame is taken for what it is. -/
theorem takeHeader_frame {n : Nat} {t : List UInt8} (hn : n < 4) (ht : 4 ≤ t.length)
    (hheader : t.take 4 = f.bytes.take 4) :
    takeHeader b.maxBytes (t.take n) (t.drop n) =
      .ok (takePayload f.payload.length [] (t.drop 4)) := by
  have hsize : readUInt32BE (t.take 4) = f.payload.length := by
    rw [hheader]
    exact readUInt32BE_bigEndian f.short
  have hnonempty := f.nonempty
  have hbounded := f.bounded
  rw [takeHeader_split hn (by omega), dif_neg (by omega), hsize, if_neg (by omega)]

theorem drop_bytes (n : Nat) : f.bytes.drop (4 + n) = f.payload.drop n := by
  rw [← drop_drop]
  rfl

/-- A chunk that ends within a frame. -/
theorem take_part {n m : Nat} (hn : n ≤ m) (hm : m < f.bytes.length) :
    (f.readingAt n).take b.maxBytes ((f.bytes.take m).drop n) = .ok ⟨f.readingAt m, none, []⟩ := by
  have hlength : (f.bytes.take m).length = m := length_take_of_le hm.le
  have hpayload : m - 4 < f.payload.length := by
    have := f.nonempty
    rw [length_bytes] at hm
    omega
  have htake : (f.payload.take (m - 4)).length = m - 4 := length_take_of_le hpayload.le
  by_cases hheader : n < 4
  · have hread : f.bytes.take n = (f.bytes.take m).take n := by
      rw [take_take, min_eq_left hn]
    rw [readingAt, dif_pos hheader, Reading.take, hread]
    by_cases hm4 : m < 4
    · rw [takeHeader_split hheader (by omega), dif_pos (by omega), readingAt, dif_pos hm4]
    · have hrest : (f.bytes.take m).drop 4 = f.payload.take (m - 4) := by
        rw [drop_take]
        rfl
      have hsplit := takePayload_split f.nonempty (Nat.zero_le (f.payload.take (m - 4)).length)
      rw [f.takeHeader_frame hheader (by omega) (by rw [take_take, min_eq_left (by omega)]),
        hrest, readingAt, dif_neg hm4, dif_pos hm]
      rw [take_zero, drop_zero, dif_pos (by omega)] at hsplit
      rw [hsplit]
  · have hrest : (f.bytes.take m).drop n = (f.payload.take (m - 4)).drop (n - 4) := by
      have hdrop := f.drop_bytes (n - 4)
      rw [Nat.add_sub_cancel' (not_lt.1 hheader)] at hdrop
      rw [drop_take, drop_take, hdrop, show m - 4 - (n - 4) = m - n by omega]
    have hread : f.payload.take (n - 4) = (f.payload.take (m - 4)).take (n - 4) := by
      rw [take_take, min_eq_left (by omega)]
    rw [readingAt, dif_neg hheader, dif_pos (by omega), Reading.take, hrest, hread,
      takePayload_split (by omega) (by omega), dif_pos (by omega), readingAt,
      dif_neg (by omega), dif_pos hm]

/-- A chunk that completes a frame. -/
theorem take_whole {n : Nat} (hn : n < f.bytes.length) (rest : List UInt8) :
    (f.readingAt n).take b.maxBytes (f.bytes.drop n ++ rest) =
      .ok ⟨.empty, some f.payload, rest⟩ := by
  have hlength := f.length_bytes
  have hdrop : f.bytes.drop n ++ rest = (f.bytes ++ rest).drop n :=
    (drop_append_of_le_length hn.le).symm
  have hwhole : ∀ m, m < f.payload.length →
      takePayload f.payload.length (f.payload.take m) (f.payload.drop m ++ rest) =
        ⟨.empty, some f.payload, rest⟩ := by
    intro m hm
    have hsplit := takePayload_split hm (t := f.payload ++ rest) (by
      rw [length_append]
      omega)
    rw [take_append_of_le_length hm.le, drop_append_of_le_length hm.le,
      dif_neg (by rw [length_append]; omega), take_left, drop_left] at hsplit
    exact hsplit
  by_cases hheader : n < 4
  · have hread : f.bytes.take n = (f.bytes ++ rest).take n :=
      (take_append_of_le_length hn.le).symm
    rw [readingAt, dif_pos hheader, Reading.take, hread, hdrop,
      f.takeHeader_frame hheader (by rw [length_append]; omega)
        (take_append_of_le_length (by omega))]
    exact congrArg Except.ok (hwhole 0 f.nonempty)
  · rw [readingAt, dif_neg hheader, dif_pos hn, Reading.take,
      show f.bytes.drop n = f.payload.drop (n - 4) by
        rw [← drop_bytes, show 4 + (n - 4) = n by omega], hwhole _ (by omega)]

end Frame

/-! ## Chunks -/

/-- The bytes of frames. -/
def stream {b : Bounds} (frames : List (Frame b)) : List UInt8 := frames.flatMap Frame.bytes

/-- The frames that so many bytes of a stream complete. -/
def completed {b : Bounds} : Nat → List (Frame b) → List (Frame b)
  | _, [] => []
  | n, f :: frames =>
    if f.bytes.length ≤ n then f :: completed (n - f.bytes.length) frames else []

def Decoded.of {b : Bounds} (frames : List (Frame b)) : Decoded :=
  ⟨frames.length, (frames.map fun f => f.payload.length).sum⟩

/-- No chunk completes more frames than one call decodes, where `n` bytes of the first frame have
come before. -/
def Admitted {b : Bounds} (n : Nat) (frames : List (Frame b)) : List (List UInt8) → Prop
  | [] => True
  | chunk :: chunks =>
    let now := completed (n + chunk.length) frames
    (Decoded.of now).Within ∧
      Admitted (n + chunk.length - (stream now).length) (frames.drop now.length) chunks

/-- The values of a stream are delivered, and nothing is left of it. -/
structure Delivers (b : Bounds) (onFrame : Option OnFrame) (chunks : List (List UInt8))
    (values : List JsonValue) : Prop where
  values : (FrameDecoder.pushes onFrame ⟨.empty, b⟩ chunks).values = values
  noError : (FrameDecoder.pushes onFrame ⟨.empty, b⟩ chunks).error = none
  finish : (FrameDecoder.pushes onFrame ⟨.empty, b⟩ chunks).decoder.finish = .ok ()

/-- `onFrame` leaves the bounds as they are, and goes on. -/
def Passive (onFrame : Option OnFrame) : Prop :=
  ∀ value bounds, OnFrame.answer onFrame value bounds = .ok (true, bounds)

/-! ## One chunk -/

section Push

variable {b : Bounds}

@[simp] theorem stream_nil : stream ([] : List (Frame b)) = [] := rfl

@[simp] theorem stream_cons (f : Frame b) (frames : List (Frame b)) :
    stream (f :: frames) = f.bytes ++ stream frames := rfl

theorem completed_cons (n : Nat) (f : Frame b) (frames : List (Frame b)) :
    completed n (f :: frames) =
      if f.bytes.length ≤ n then f :: completed (n - f.bytes.length) frames else [] := rfl

theorem completed_zero (frames : List (Frame b)) : completed 0 frames = [] := by
  cases frames with
  | nil => rfl
  | cons f frames =>
    rw [completed_cons, if_neg]
    rw [f.length_bytes]
    exact Nat.not_succ_le_zero _

/-- What has been read of the first frame. -/
def readingOf (n : Nat) : List (Frame b) → Reading
  | [] => .empty
  | f :: _ => f.readingAt n

theorem readingOf_zero (frames : List (Frame b)) : readingOf 0 frames = .empty := by
  cases frames <;> rfl

/-- What has been decoded, with more frames. -/
def Decoded.plus (d : Decoded) (frames : List (Frame b)) : Decoded :=
  ⟨d.frames + (Decoded.of frames).frames, d.bytes + (Decoded.of frames).bytes⟩

theorem Decoded.plus_cons (d : Decoded) (f : Frame b) (frames : List (Frame b)) :
    d.plus (f :: frames) = (d.add f.payload).plus frames := by
  simp only [Decoded.plus, Decoded.of, Decoded.add, length_cons, map_cons, sum_cons,
    Decoded.mk.injEq]
  omega

variable {frames : List (Frame b)} {onFrame : Option OnFrame} {decoder : FrameDecoder}
  {chunk rest : List UInt8} {n : Nat} {chunks : List (List UInt8)}

variable {d : Decoded} {values : List JsonValue} {reading : Reading}

theorem Decoded.within_of_plus (h : (d.plus frames).Within) : d.Within :=
  ⟨(Nat.le_add_right _ _).trans h.1, (Nat.le_add_right _ _).trans h.2⟩

theorem pushLoop_nil (onFrame : Option OnFrame) (decoder : FrameDecoder) (d : Decoded)
    (values : List JsonValue) :
    decoder.pushLoop onFrame d values [] = ⟨decoder, values, none⟩ := by
  rw [FrameDecoder.pushLoop, dif_pos rfl]

/-- A pass that completes nothing. -/
theorem pushLoop_part (hchunk : chunk ≠ [])
    (htake : decoder.reading.take decoder.bounds.maxBytes chunk = .ok ⟨reading, none, rest⟩) :
    decoder.pushLoop onFrame d values chunk =
      FrameDecoder.pushLoop onFrame { decoder with reading := reading } d values rest := by
  rw [FrameDecoder.pushLoop, dif_neg hchunk]
  split
  next e h =>
    rw [htake] at h
    cases h
  next taken h =>
    rw [htake] at h
    cases h
    rfl

/-- A pass that completes a frame. -/
theorem pushLoop_whole (hpassive : Passive onFrame) {f : Frame b} (hchunk : chunk ≠ [])
    (htake : reading.take b.maxBytes chunk = .ok ⟨.empty, some f.payload, rest⟩) (d : Decoded)
    (values : List JsonValue) :
    FrameDecoder.pushLoop onFrame ⟨reading, b⟩ d values chunk =
      if (d.add f.payload).Within then
        FrameDecoder.pushLoop onFrame ⟨.empty, b⟩ (d.add f.payload) (values ++ [f.value]) rest
      else ⟨⟨.empty, b⟩, values, some admissionErr⟩ := by
  rw [FrameDecoder.pushLoop, dif_neg hchunk]
  split
  next e h =>
    rw [htake] at h
    cases h
  next taken h =>
    rw [htake] at h
    cases h
    have hanswer := hpassive f.value b
    by_cases hwithin : (d.add f.payload).Within
    · simp only [hwithin, not_true_eq_false, if_false, if_true, f.decoded, hanswer]
    · simp only [hwithin, not_false_eq_true, if_false, if_true]

/-- The values of the frames that a chunk completes are delivered, when they are not too many. -/
theorem pushLoop_frames (hpassive : Passive onFrame) (hn : completed n frames = [])
    (hchunk : (stream frames).drop n = chunk ++ rest) (d : Decoded) (values : List JsonValue) :
    ((d.plus (completed (n + chunk.length) frames)).Within →
      FrameDecoder.pushLoop onFrame ⟨readingOf n frames, b⟩ d values chunk =
        ⟨⟨readingOf (n + chunk.length - (stream (completed (n + chunk.length) frames)).length)
            (frames.drop (completed (n + chunk.length) frames).length), b⟩,
          values ++ (completed (n + chunk.length) frames).map Frame.value, none⟩) ∧
    (d.Within → ¬ (d.plus (completed (n + chunk.length) frames)).Within →
      (FrameDecoder.pushLoop onFrame ⟨readingOf n frames, b⟩ d values chunk).error =
        some admissionErr) := by
  induction frames generalizing n chunk d values with
  | nil =>
    have hnil : chunk = [] := by
      rw [stream_nil, drop_nil] at hchunk
      exact (append_eq_nil_iff.1 hchunk.symm).1
    rw [hnil, pushLoop_nil]
    exact ⟨fun _ => by simp [completed, readingOf], fun h hnot => absurd h hnot⟩
  | cons f frames ih =>
    have hlt : n < f.bytes.length := by
      rw [completed_cons] at hn
      exact not_le.1 fun h => cons_ne_nil _ _ ((if_pos h).symm.trans hn)
    rw [stream_cons, drop_append_of_le_length hlt.le] at hchunk
    by_cases hpart : n + chunk.length < f.bytes.length
    · -- the frame goes on in the next chunk
      have hnow : completed (n + chunk.length) (f :: frames) = [] := if_neg (not_le.2 hpart)
      rw [hnow]
      refine ⟨fun _ => ?_, fun h hnot => absurd h hnot⟩
      have htake : (f.bytes.take (n + chunk.length)).drop n = chunk := by
        have h := congrArg (take chunk.length) hchunk
        rwa [take_left, take_append_of_le_length (by rw [length_drop]; omega),
          ← Nat.add_sub_cancel_left n chunk.length, ← drop_take] at h
      by_cases hempty : chunk = []
      · simp [hempty, pushLoop_nil]
      · have hpass := f.take_part (Nat.le_add_right n chunk.length) hpart
        rw [htake] at hpass
        rw [pushLoop_part hempty hpass, pushLoop_nil]
        simp [readingOf]
    · -- the frame ends here, and the rest of the chunk goes to the others
      obtain ⟨chunk', rfl⟩ : f.bytes.drop n <+: chunk :=
        prefix_of_prefix_length_le ⟨_, hchunk⟩ (prefix_append chunk rest)
          (by rw [length_drop]; omega)
      rw [append_assoc, append_cancel_left_eq] at hchunk
      have hlength : n + (f.bytes.drop n ++ chunk').length = f.bytes.length + chunk'.length := by
        rw [length_append, length_drop]
        omega
      have hnow : completed (f.bytes.length + chunk'.length) (f :: frames) =
          f :: completed (0 + chunk'.length) frames := by
        rw [completed_cons, if_pos (Nat.le_add_right _ _), Nat.add_sub_cancel_left, Nat.zero_add]
      have hleft : f.bytes.length + chunk'.length -
          (stream (f :: completed (0 + chunk'.length) frames)).length =
            0 + chunk'.length - (stream (completed (0 + chunk'.length) frames)).length := by
        rw [stream_cons, length_append]
        omega
      have hne : f.bytes.drop n ++ chunk' ≠ [] := by
        rw [← length_pos_iff, length_append, length_drop]
        omega
      have hstep := pushLoop_whole hpassive hne (f.take_whole hlt chunk') d values
      obtain ⟨hok, herr⟩ := ih (completed_zero frames) hchunk (d.add f.payload)
        (values ++ [f.value])
      rw [readingOf_zero] at hok herr
      rw [hlength, hnow, hleft, Decoded.plus_cons]
      rw [readingOf, hstep]
      refine ⟨fun hwithin => ?_, fun _ hnot => ?_⟩
      · rw [if_pos (Decoded.within_of_plus hwithin), hok hwithin, map_cons,
          append_assoc, singleton_append]
        rfl
      · split
        next hwithin => exact herr hwithin hnot
        next => rfl

/-! ## Chunk after chunk -/

theorem completed_append_drop (m : Nat) (frames : List (Frame b)) :
    completed m frames ++ frames.drop (completed m frames).length = frames := by
  induction frames generalizing m with
  | nil => rfl
  | cons f frames ih =>
    rw [completed_cons]
    split
    · rw [length_cons, drop_succ_cons, cons_append, ih]
    · rfl

/-- The rest of the stream, after the frames that are complete. -/
structure Rest (m : Nat) (frames : List (Frame b)) : Prop where
  before : (stream (completed m frames)).length ≤ m
  within : m - (stream (completed m frames)).length ≤
    (stream (frames.drop (completed m frames).length)).length
  none : completed (m - (stream (completed m frames)).length)
    (frames.drop (completed m frames).length) = []
  drop : (stream (frames.drop (completed m frames).length)).drop
    (m - (stream (completed m frames)).length) = (stream frames).drop m

theorem rest_of_stream {m : Nat} (h : m ≤ (stream frames).length) : Rest m frames := by
  induction frames generalizing m with
  | nil => exact ⟨Nat.zero_le _, h, rfl, by simp [completed]⟩
  | cons f frames ih =>
    by_cases hle : f.bytes.length ≤ m
    · rw [stream_cons, length_append] at h
      have hrest := ih (m := m - f.bytes.length) (by omega)
      have hnow : completed m (f :: frames) = f :: completed (m - f.bytes.length) frames :=
        if_pos hle
      have hleft : m - (stream (f :: completed (m - f.bytes.length) frames)).length =
          m - f.bytes.length - (stream (completed (m - f.bytes.length) frames)).length := by
        rw [stream_cons, length_append]
        omega
      have hdrop : (stream (f :: frames)).drop m = (stream frames).drop (m - f.bytes.length) := by
        rw [stream_cons, drop_append, drop_eq_nil_of_le hle, nil_append]
      constructor
      · rw [hnow, stream_cons, length_append]
        have := hrest.before
        omega
      · rw [hnow, hleft]
        exact hrest.within
      · rw [hnow, hleft]
        exact hrest.none
      · rw [hnow, hleft, hdrop]
        exact hrest.drop
    · have hnow : completed m (f :: frames) = [] := if_neg hle
      constructor <;> rw [hnow]
      · exact Nat.zero_le _
      · exact h
      · exact hnow
      · rfl

theorem Decoded.zero_plus (frames : List (Frame b)) :
    (⟨0, 0⟩ : Decoded).plus frames = Decoded.of frames := by
  simp only [Decoded.plus, Nat.zero_add]

theorem pushes_cons_ok {next : FrameDecoder}
    (h : decoder.pushLoop onFrame ⟨0, 0⟩ [] chunk = ⟨next, values, none⟩)
    (chunks : List (List UInt8)) :
    decoder.pushes onFrame (chunk :: chunks) =
      { next.pushes onFrame chunks with values := values ++ (next.pushes onFrame chunks).values } := by
  rw [FrameDecoder.pushes, FrameDecoder.push, h]
  rfl

theorem pushes_cons_error {e : RpcError}
    (h : (decoder.pushLoop onFrame ⟨0, 0⟩ [] chunk).error = some e) :
    (decoder.pushes onFrame (chunk :: chunks)).error = some e := by
  have hpush : (decoder.push onFrame chunk).error = some e := by
    rw [FrameDecoder.push]
    split <;> exact h
  rw [FrameDecoder.pushes, hpush]
  exact hpush

/-- What chunks deliver that are admitted, and that they throw when they are not. -/
theorem pushes_frames (hpassive : Passive onFrame) (hn : completed n frames = [])
    (hle : n ≤ (stream frames).length) (hchunks : (stream frames).drop n = chunks.flatten) :
    (Admitted n frames chunks →
      FrameDecoder.pushes onFrame ⟨readingOf n frames, b⟩ chunks =
        ⟨⟨.empty, b⟩, frames.map Frame.value, none⟩) ∧
    (¬ Admitted n frames chunks →
      (FrameDecoder.pushes onFrame ⟨readingOf n frames, b⟩ chunks).error = some admissionErr) := by
  induction chunks generalizing frames n with
  | nil =>
    refine ⟨fun _ => ?_, fun h => absurd trivial h⟩
    cases frames with
    | nil => rfl
    | cons f frames =>
      have hlength : (stream (f :: frames)).length ≤ n := drop_eq_nil_iff.1 hchunks
      rw [stream_cons, length_append] at hlength
      rw [completed_cons, if_pos (by omega)] at hn
      exact absurd hn (cons_ne_nil _ _)
  | cons chunk chunks ih =>
    rw [flatten_cons] at hchunks
    have hm : n + chunk.length ≤ (stream frames).length := by
      have h := congrArg length hchunks
      rw [length_drop, length_append] at h
      omega
    have hrest := rest_of_stream hm
    have hnext : (stream frames).drop (n + chunk.length) = chunks.flatten := by
      rw [← drop_drop, hchunks, drop_left]
    obtain ⟨hok, herr⟩ := ih hrest.none hrest.within (hrest.drop.trans hnext)
    obtain ⟨hpush, hthrow⟩ := pushLoop_frames hpassive hn hchunks ⟨0, 0⟩ []
    rw [Decoded.zero_plus] at hpush hthrow
    by_cases hwithin : (Decoded.of (completed (n + chunk.length) frames)).Within
    · rw [pushes_cons_ok (hpush hwithin)]
      refine ⟨fun h => ?_, fun h => herr fun hrest => h ⟨hwithin, hrest⟩⟩
      rw [hok h.2, nil_append, ← map_append, completed_append_drop]
    · have hthrows := hthrow ⟨Nat.zero_le _, Nat.zero_le _⟩ hwithin
      exact ⟨fun h => absurd h.1 hwithin, fun _ => pushes_cons_error hthrows⟩

/-! ## Frames that have been encoded -/

theorem utf8Decode_utf8Encode (text : List Char) : utf8Decode (utf8Encode text) = some text := by
  have hbytes : (utf8Encode text).toByteArray = text.utf8Encode := rfl
  rw [utf8Decode, hbytes, utf8Decode?_utf8Encode]
  rfl

/-- The payload of a value is decoded to it. -/
theorem decodePayload_stringify {v : JsonValue} {maxDepth : Nat} (h : Data Valid (maxDepth + 1) v) :
    decodePayload (utf8Encode (stringify v)) maxDepth = .ok v := by
  have hparse : (utf8Decode (utf8Encode (stringify v))).bind parse = some v := by
    rw [utf8Decode_utf8Encode]
    exact parse_stringify h
  rw [decodePayload, hparse]
  exact wireValue_parsed h

/-- What `encodeFrame` returns is the frame of the wire value. -/
theorem frame_of_encodeFrame {Ref : Type} [DecidableEq Ref] (objects : Objects Ref) {v : Val Ref}
    {bytes : List UInt8} (h : encodeFrame objects.view v b.maxBytes b.maxDepth = .ok bytes) :
    ∃ f : Frame b, f.bytes = bytes ∧ wireValue objects.view v b.maxDepth = .ok f.value := by
  obtain ⟨value, hvalue, h⟩ := ok_of_bind h
  dsimp only at h
  split at h
  · cases h
  split at h
  · cases h
  next hlength hshort =>
    cases h
    exact ⟨⟨utf8Encode (stringify value), value, by omega, by omega, by omega,
      decodePayload_stringify (data_of_copy objects.ordered hvalue)⟩, rfl, hvalue⟩

theorem within_of_append {more : List (Frame b)} (h : (Decoded.of (frames ++ more)).Within) :
    (Decoded.of frames).Within ∧ (Decoded.of more).Within := by
  simp only [Decoded.Within, Decoded.of, length_append, map_append, sum_append] at h ⊢
  omega

/-- What one call takes is admitted in any chunks. -/
theorem admitted_of_within (h : (Decoded.of frames).Within) : Admitted n frames chunks := by
  induction chunks generalizing frames n with
  | nil => trivial
  | cons chunk chunks ih =>
    rw [← completed_append_drop (n + chunk.length) frames] at h
    exact ⟨(within_of_append h).1, ih (within_of_append h).2⟩

theorem completed_stream (frames : List (Frame b)) :
    completed (stream frames).length frames = frames := by
  induction frames with
  | nil => rfl
  | cons f frames ih =>
    rw [stream_cons, length_append, completed_cons, if_pos (Nat.le_add_right _ _),
      Nat.add_sub_cancel_left, ih]

/-- A whole stream in one chunk. -/
theorem admitted_stream (frames : List (Frame b)) :
    Admitted 0 frames [stream frames] ↔ (Decoded.of frames).Within := by
  refine ⟨fun h => ?_, admitted_of_within⟩
  have hwithin := h.1
  rwa [Nat.zero_add, completed_stream] at hwithin

/-- Frame after frame. -/
theorem admitted_bytes (h : ∀ f ∈ frames, f.payload.length ≤ 16 * 1024 * 1024) :
    Admitted 0 frames (frames.map Frame.bytes) := by
  induction frames with
  | nil => trivial
  | cons f frames ih =>
    obtain ⟨hf, hframes⟩ := forall_mem_cons.1 h
    have hnow : completed (0 + f.bytes.length) (f :: frames) = [f] := by
      rw [Nat.zero_add, completed_cons, if_pos le_rfl, Nat.sub_self, completed_zero]
    have hleft : 0 + f.bytes.length - (stream [f]).length = 0 := by
      rw [stream_cons, stream_nil, append_nil, Nat.zero_add, Nat.sub_self]
    rw [map_cons, Admitted, hnow, hleft]
    exact ⟨⟨(by decide : 1 ≤ 256), hf⟩, ih hframes⟩

/-- What a stream of frames delivers. -/
theorem pushes_stream (hpassive : Passive onFrame) (h : chunks.flatten = stream frames) :
    (Admitted 0 frames chunks → Delivers b onFrame chunks (frames.map Frame.value)) ∧
    (¬ Admitted 0 frames chunks →
      (FrameDecoder.pushes onFrame ⟨.empty, b⟩ chunks).error = some admissionErr) := by
  obtain ⟨hok, herr⟩ := pushes_frames hpassive (completed_zero frames) (Nat.zero_le _) h.symm
  rw [readingOf_zero] at hok herr
  refine ⟨fun hadmitted => ?_, herr⟩
  have hpushes := hok hadmitted
  constructor <;> rw [hpushes]
  rfl

end Push

/-- The bounds of `DEFAULT_LIMITS`. -/
def defaultBounds : Bounds := ⟨8 * 1024 * 1024, 64⟩

/-- The frame of `null`. -/
def nullFrame : Frame defaultBounds where
  payload := utf8Encode (stringify .null)
  value := .null
  nonempty := by decide
  bounded := by decide
  short := by decide
  decoded := decodePayload_stringify trivial

theorem passive_none : Passive none := fun _ _ => rfl

/-- Frames are decoded to their values whatever the chunks are, unless a chunk completes more
frames than one call decodes; and what has been encoded is decoded to its wire value. -/
theorem decode_frames {b : Bounds} {onFrame : Option OnFrame} (hpassive : Passive onFrame) :
    (∀ (frames : List (Frame b)) (chunks : List (List UInt8)), chunks.flatten = stream frames →
      (Admitted 0 frames chunks → Delivers b onFrame chunks (frames.map Frame.value)) ∧
      (¬ Admitted 0 frames chunks →
        (FrameDecoder.pushes onFrame ⟨.empty, b⟩ chunks).error = some admissionErr)) ∧
    ∀ (Ref : Type) [DecidableEq Ref] (objects : Objects Ref) (v : Val Ref) (bytes : List UInt8),
      encodeFrame objects.view v b.maxBytes b.maxDepth = .ok bytes →
      ∃ f : Frame b, f.bytes = bytes ∧ wireValue objects.view v b.maxDepth = .ok f.value ∧
        (f.payload.length ≤ 16 * 1024 * 1024 → ∀ chunks : List (List UInt8),
          chunks.flatten = bytes → Delivers b onFrame chunks [f.value]) := by
  refine ⟨fun frames chunks h => pushes_stream hpassive h, ?_⟩
  intro Ref _ objects v bytes hbytes
  obtain ⟨f, rfl, hvalue⟩ := frame_of_encodeFrame objects hbytes
  refine ⟨f, rfl, hvalue, fun hlength chunks hchunks => ?_⟩
  have hstream : chunks.flatten = stream [f] := by
    rw [hchunks, stream_cons, stream_nil, List.append_nil]
  have hwithin : (Decoded.of [f]).Within := ⟨(by decide : 1 ≤ 256), hlength⟩
  exact (pushes_stream hpassive hstream).1 (admitted_of_within hwithin)

/-- A frame whose header is cut. -/
theorem decode_frames_null :
    Delivers defaultBounds none [[0, 0, 0], [4, 110], [117, 108, 108]] [.null] :=
  ((decode_frames passive_none).1 [nullFrame] _ (by decide)).1 (admitted_of_within (by decide))

/-- Frames that are decoded one by one are too many for one call. -/
theorem decode_frames_coalesced :
    (FrameDecoder.pushes none ⟨.empty, defaultBounds⟩
      [stream (List.replicate 257 nullFrame)]).error = some admissionErr ∧
    Delivers defaultBounds none ((List.replicate 257 nullFrame).map Frame.bytes)
      ((List.replicate 257 nullFrame).map Frame.value) := by
  constructor
  · refine (pushes_stream passive_none (List.append_nil _)).2 fun h => ?_
    have hframes := ((admitted_stream _).1 h).1
    rw [Decoded.of, List.length_replicate] at hframes
    exact absurd hframes (by decide)
  · refine (pushes_stream passive_none List.flatMap_def.symm).1 (admitted_bytes fun f hf => ?_)
    rw [List.eq_of_mem_replicate hf]
    decide

end NapiVm.Rpc.Codec
