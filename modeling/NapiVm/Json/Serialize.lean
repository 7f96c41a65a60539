import NapiVm.Text.JsonText

/-!
# The serializer

`JSON.stringify` of values that are data only.  The walk keeps its frames in a list, so that a deep
value does not need a deep stack.

* `serialize` — the walk, with its limits.
* `serialize_eq_ok` — it writes the text without white space of the values that are neither too
  deep nor too long for it.
-/

namespace NapiVm.JsonStringify

open JsString JsonText NumberText List

/-- `MAX_STRING_LEN`. -/
def maxStringLen : Nat := 64 * 1024 * 1024

/-- `MAX_JSON_DEPTH`. -/
def maxJsonDepth : Nat := 512

/-- Errors of the writer and of the parser. -/
inductive JsonError where
  | stringLimit
  | jsonDepth
  | elementLimit
  | propertyLimit
  | invalidJson
  deriving DecidableEq

/-- The message of an error. -/
def JsonError.message : JsonError → String
  | .stringLimit => "Maximum string length exceeded"
  | .jsonDepth => "RangeError: Maximum JSON depth exceeded"
  | .elementLimit => "Maximum JSON array elements exceeded"
  | .propertyLimit => "Maximum object property count exceeded"
  | .invalidJson => "SyntaxError: Invalid JSON"

/-- The units of a text. -/
def encode (text : List Char) : List UInt16 := text.flatMap encodeUtf16

/-! ## The walk -/

/-- `append_json_str` and `append_json_char`. -/
def append (text : List Char) (out : List UInt16) : Except JsonError (List UInt16) :=
  if maxStringLen < out.length + (encode text).length then .error .stringLimit
  else .ok (out ++ encode text)

/-- `escape_json`. -/
def escapeJson (units : List UInt16) (out : List UInt16) : Except JsonError (List UInt16) :=
  (decodeUtf16 units).foldlM (fun out decoded => append (quoteChar decoded) out) out

/-- What is left of a container: of an array with the index of its next item, of an object with
whether a property of it has been written. -/
inductive SerializationFrame where
  | array (items : List JsonValue) (index : Nat)
  | object (fields : List (List UInt16 × JsonValue)) (first : Bool)

namespace SerializationFrame

/-- The text that a frame has still to write. -/
def rest : SerializationFrame → List Char
  | array [] _ => [']']
  | array items index => (if index ≠ 0 then [','] else []) ++ (stringifyItems items ++ [']'])
  | object [] _ => ['}']
  | object fields first => (if first then [] else [',']) ++ (stringifyFields fields ++ ['}'])

theorem rest_item (item : JsonValue) (items : List JsonValue) (index : Nat) :
    rest (array (item :: items) index) =
      (if index ≠ 0 then [','] else []) ++ (stringify item ++ rest (array items (index + 1))) := by
  cases items with
  | nil => rfl
  | cons b items =>
    rw [rest, stringifyItems_cons, rest, if_pos (Nat.succ_ne_zero index)]
    simp
    all_goals nofun

theorem rest_field (key : List UInt16) (value : JsonValue)
    (fields : List (List UInt16 × JsonValue)) (first : Bool) :
    rest (object ((key, value) :: fields) first) =
      (if first then [] else [',']) ++ (quote key ++ ':' :: (stringify value ++
        rest (object fields false))) := by
  cases fields with
  | nil => simp [rest, stringifyFields]
  | cons b fields => simp [rest, stringifyFields_cons]

theorem stringify_array (items : List JsonValue) :
    stringify (.array items) = '[' :: rest (array items 0) := by
  cases items <;> rfl

theorem stringify_object (fields : List (List UInt16 × JsonValue)) :
    stringify (.object fields) = '{' :: rest (object fields true) := by
  cases fields <;> rfl

end SerializationFrame

/-- The text that frames have still to write, the innermost first. -/
def restAll (frames : List SerializationFrame) : List Char :=
  frames.flatMap SerializationFrame.rest

/-- `Serialization::property`, and `Serialization::open` of a container. -/
def property (value : JsonValue) (out : List UInt16) (depth : Nat) :
    Except JsonError (List UInt16) :=
  if maxJsonDepth < depth then .error .jsonDepth
  else
    match value with
    | .null => append ['n', 'u', 'l', 'l'] out
    | .bool true => append ['t', 'r', 'u', 'e'] out
    | .bool false => append ['f', 'a', 'l', 's', 'e'] out
    | .number bits =>
      if Binary64.isFinite bits then append (numberText bits) out
      else append ['n', 'u', 'l', 'l'] out
    | .string units => append ['"'] out >>= escapeJson units >>= append ['"']
    | .array _ => append ['['] out
    | .object _ => append ['{'] out

/-- The frame that `Serialization::open` gives for a container. -/
def framesOf : JsonValue → List SerializationFrame
  | .array items => [.array items 0]
  | .object fields => [.object fields true]
  | _ => []

/-! ## What a property writes -/

/-- A part of the walk writes a text, under a condition and unless the output gets too long. -/
def Writes (P : Prop) (part : List UInt16 → Except JsonError (List UInt16)) (text : List Char) :
    Prop :=
  ∀ out r, out.length ≤ maxStringLen →
    (part out = .ok r ↔ P ∧ r = out ++ encode text ∧ r.length ≤ maxStringLen)

theorem encode_append (a b : List Char) : encode (a ++ b) = encode a ++ encode b :=
  flatMap_append

theorem encode_nil : encode [] = [] := rfl

theorem encode_cons (c : Char) (text : List Char) :
    encode (c :: text) = encodeUtf16 c ++ encode text := rfl

/-- A character below the surrogates is one unit. -/
theorem encode_unit {c : Char} (hc : c.toNat < 0xD800) (text : List Char) :
    encode (c :: text) = unit c :: encode text := by
  rw [encode_cons, encodeUtf16, if_pos (by omega)]
  rfl

section

variable {P Q : Prop} {f g : List UInt16 → Except JsonError (List UInt16)} {a b : List Char}

theorem writes_append (text : List Char) : Writes True (append text) text := by
  intro out r _
  rw [append, true_and]
  split
  · next hlong =>
      constructor
      · nofun
      · rintro ⟨rfl, hr⟩
        rw [length_append] at hr
        omega
  · next hshort =>
      constructor
      · intro h
        cases h
        exact ⟨rfl, by rw [length_append]; omega⟩
      · rintro ⟨rfl, -⟩
        rfl

theorem writes_ok : Writes True .ok [] := by
  intro out r hout
  constructor
  · intro h
    cases h
    exact ⟨trivial, (append_nil out).symm, hout⟩
  · rintro ⟨-, rfl, -⟩
    rw [encode, flatMap_nil, append_nil]

theorem Writes.bind (hf : Writes P f a) (hg : Writes Q g b) :
    Writes (P ∧ Q) (fun out => f out >>= g) (a ++ b) := by
  intro out r hout
  rw [encode_append, ← append_assoc]
  constructor
  · intro (h : f out >>= g = .ok r)
    cases hmid : f out with
    | error e =>
      rw [hmid] at h
      cases h
    | ok mid =>
      rw [hmid] at h
      obtain ⟨hP, rfl, hlength⟩ := (hf out mid hout).1 hmid
      obtain ⟨hQ, hr⟩ := (hg _ r hlength).1 h
      exact ⟨⟨hP, hQ⟩, hr⟩
  · rintro ⟨⟨hP, hQ⟩, rfl, hr⟩
    have hmid : (out ++ encode a).length ≤ maxStringLen := by
      rw [length_append] at hr
      omega
    have hok : f out = .ok (out ++ encode a) := (hf out _ hout).2 ⟨hP, rfl, hmid⟩
    show (f out >>= g) = _
    rw [hok]
    exact (hg _ _ hmid).2 ⟨hQ, rfl, hr⟩

theorem Writes.congr (hf : Writes P f a) (hP : P ↔ Q) (ha : a = b) : Writes Q f b := by
  intro out r hout
  rw [hf out r hout, hP, ha]

end

theorem writes_escapeJson (units : List UInt16) :
    Writes True (escapeJson units) ((decodeUtf16 units).flatMap quoteChar) := by
  have hfold : ∀ items : List (Except UInt16 Char),
      Writes True (fun out => items.foldlM (fun out decoded => append (quoteChar decoded) out) out)
        (items.flatMap quoteChar) := by
    intro items
    induction items with
    | nil => exact writes_ok
    | cons item items ih =>
      rw [flatMap_cons]
      exact ((writes_append _).bind ih).congr (by simp only [and_self]) rfl
  exact hfold _

theorem writes_quote (units : List UInt16) :
    Writes True (fun out => append ['"'] out >>= escapeJson units >>= append ['"'])
      (quote units) := by
  have h := ((writes_append ['"']).bind (writes_escapeJson units)).bind (writes_append ['"'])
  exact h.congr (by simp only [and_self]) (append_assoc _ _ _)

/-- What is written of a property at once. -/
def lead : JsonValue → List Char
  | .array _ => ['[']
  | .object _ => ['{']
  | v => stringify v

theorem lead_append (v : JsonValue) : lead v ++ restAll (framesOf v) = stringify v := by
  cases v with
  | array items =>
    rw [SerializationFrame.stringify_array, framesOf, restAll, flatMap_cons,
      flatMap_nil, append_nil]
    rfl
  | object fields =>
    rw [SerializationFrame.stringify_object, framesOf, restAll, flatMap_cons,
      flatMap_nil, append_nil]
    rfl
  | _ => exact append_nil _

theorem lead_length_pos (v : JsonValue) : 0 < (lead v).length := by
  cases v with
  | array items => exact Nat.zero_lt_one
  | object fields => exact Nat.zero_lt_one
  | _ => exact stringify_length_pos _

theorem writes_property (value : JsonValue) (depth : Nat) :
    Writes (depth ≤ maxJsonDepth) (fun out => property value out depth) (lead value) := by
  intro out r hout
  dsimp only
  by_cases hdepth : maxJsonDepth < depth
  · rw [property.eq_def, if_pos hdepth]
    constructor
    · nofun
    · rintro ⟨h, -⟩
      omega
  · have hwritten : ∀ {part : List UInt16 → Except JsonError (List UInt16)},
        Writes True part (lead value) → (part out = .ok r ↔ depth ≤ maxJsonDepth ∧
          r = out ++ encode (lead value) ∧ r.length ≤ maxStringLen) := fun hpart =>
      (hpart.congr (iff_of_true trivial (Nat.le_of_not_lt hdepth)) rfl) out r hout
    rw [property.eq_def, if_neg hdepth]
    cases value with
    | null | array items | object fields => exact hwritten (writes_append _)
    | bool b => cases b <;> exact hwritten (writes_append _)
    | number bits =>
      by_cases hfinite : Binary64.isFinite bits = true
      · simp only [lead, stringify, if_pos hfinite] at hwritten ⊢
        exact hwritten (writes_append _)
      · simp only [lead, stringify, if_neg hfinite] at hwritten ⊢
        exact hwritten (writes_append _)
    | string units => exact hwritten (writes_quote units)

/-! ## The loop -/

theorem restAll_item (item : JsonValue) (items : List JsonValue) (index : Nat)
    (frames : List SerializationFrame) :
    restAll (.array (item :: items) index :: frames) =
      (if index ≠ 0 then [','] else []) ++ (lead item ++
        restAll (framesOf item ++ .array items (index + 1) :: frames)) := by
  simp only [restAll, flatMap_cons, flatMap_append, SerializationFrame.rest_item,
    ← lead_append item, append_assoc]

theorem restAll_field (key : List UInt16) (value : JsonValue)
    (fields : List (List UInt16 × JsonValue)) (first : Bool) (frames : List SerializationFrame) :
    restAll (.object ((key, value) :: fields) first :: frames) =
      (if first then [] else [',']) ++ (quote key ++ ([':'] ++ (lead value ++
        restAll (framesOf value ++ .object fields false :: frames)))) := by
  simp only [restAll, flatMap_cons, flatMap_append, SerializationFrame.rest_field,
    ← lead_append value, append_assoc, cons_append, nil_append]

/-- The loop of `Serialization::serialize`, the innermost frame first. -/
def serializeFrames : List SerializationFrame → List UInt16 → Except JsonError (List UInt16)
  | [], out => .ok out
  | .array [] _ :: frames, out => append [']'] out >>= serializeFrames frames
  | .array (item :: items) index :: frames, out => do
      let out ← if index ≠ 0 then append [','] out else .ok out
      let out ← property item out (frames.length + 1)
      serializeFrames (framesOf item ++ .array items (index + 1) :: frames) out
  | .object [] _ :: frames, out => append ['}'] out >>= serializeFrames frames
  | .object ((key, value) :: fields) first :: frames, out => do
      let out ← if first then .ok out else append [','] out
      let out ← append ['"'] out
      let out ← escapeJson key out
      let out ← append ['"', ':'] out
      let out ← property value out (frames.length + 1)
      serializeFrames (framesOf value ++ .object fields false :: frames) out
termination_by frames => (restAll frames).length
decreasing_by
  · simp [restAll, SerializationFrame.rest]
  · rw [restAll_item, List.length_append, List.length_append]
    have := lead_length_pos item
    omega
  · simp [restAll, SerializationFrame.rest]
  · rw [restAll_field]
    simp only [List.length_append]
    have := lead_length_pos value
    omega

/-- `Serialization::serialize`. -/
def serialize (value : JsonValue) : Except JsonError (List UInt16) := do
  let out ← property value [] 0
  serializeFrames (framesOf value) out

/-! ## How deep a value is -/

mutual

/-- The containers around the innermost value. -/
def height : JsonValue → Nat
  | .array items => heightItems items
  | .object fields => heightFields fields
  | _ => 0

def heightItems : List JsonValue → Nat
  | [] => 0
  | item :: items => max (height item + 1) (heightItems items)

def heightFields : List (List UInt16 × JsonValue) → Nat
  | [] => 0
  | (_, value) :: fields => max (height value + 1) (heightFields fields)

end

theorem heightItems_le {items : List JsonValue} {n : Nat} :
    heightItems items ≤ n ↔ ∀ item ∈ items, height item + 1 ≤ n := by
  induction items with
  | nil => simp [heightItems]
  | cons item items ih => rw [heightItems, Nat.max_le, ih, forall_mem_cons]

theorem heightFields_le {fields : List (List UInt16 × JsonValue)} {n : Nat} :
    heightFields fields ≤ n ↔ ∀ field ∈ fields, height field.2 + 1 ≤ n := by
  induction fields with
  | nil => simp [heightFields]
  | cons field fields ih =>
    obtain ⟨key, value⟩ := field
    rw [heightFields, Nat.max_le, ih, forall_mem_cons]

/-- Nothing that is left is too deep. -/
def Shallow : List SerializationFrame → Prop
  | [] => True
  | .array items _ :: frames =>
    (∀ item ∈ items, height item + 1 + frames.length ≤ maxJsonDepth) ∧ Shallow frames
  | .object fields _ :: frames =>
    (∀ field ∈ fields, height field.2 + 1 + frames.length ≤ maxJsonDepth) ∧ Shallow frames

/-- The value that comes next, and those that are left with its frame. -/
theorem shallow_framesOf (value : JsonValue) (frames : List SerializationFrame) :
    (height value + frames.length ≤ maxJsonDepth ∧ Shallow frames) ↔
      frames.length ≤ maxJsonDepth ∧ Shallow (framesOf value ++ frames) := by
  have hinner : ∀ {n : Nat}, n + frames.length ≤ maxJsonDepth ↔
      frames.length ≤ maxJsonDepth ∧ n ≤ maxJsonDepth - frames.length := by
    intro n
    omega
  cases value with
  | array items =>
    show _ ↔ _ ∧ (∀ item ∈ items, height item + 1 + frames.length ≤ maxJsonDepth) ∧ Shallow frames
    rw [height, hinner, heightItems_le, and_assoc]
    refine and_congr_right fun h => and_congr_left fun _ => forall₂_congr fun item _ => ?_
    omega
  | object fields =>
    show _ ↔ _ ∧ (∀ field ∈ fields, height field.2 + 1 + frames.length ≤ maxJsonDepth) ∧
      Shallow frames
    rw [height, hinner, heightFields_le, and_assoc]
    refine and_congr_right fun h => and_congr_left fun _ => forall₂_congr fun field _ => ?_
    omega
  | _ => simp only [height, framesOf, Nat.zero_add, nil_append]

theorem writes_comma {c : Prop} [Decidable c] :
    Writes True (fun out => if c then append [','] out else .ok out) (if c then [','] else []) := by
  split
  · exact writes_append _
  · exact writes_ok

theorem writes_frames (frames : List SerializationFrame) :
    Writes (Shallow frames) (serializeFrames frames) (restAll frames) := by
  induction hn : (restAll frames).length using Nat.strong_induction_on generalizing frames with
  | h n ih =>
    match frames with
    | [] =>
      have heq : serializeFrames [] = .ok := funext fun out => by rw [serializeFrames]
      rw [heq]
      exact writes_ok
    | .array [] index :: frames =>
      have hrest := ih _ (by rw [← hn]; simp [restAll, SerializationFrame.rest]) frames rfl
      have heq : serializeFrames (.array [] index :: frames) =
          fun out => append [']'] out >>= serializeFrames frames :=
        funext fun out => by rw [serializeFrames]
      rw [heq]
      exact ((writes_append _).bind hrest).congr (by simp [Shallow]) rfl
    | .object [] first :: frames =>
      have hrest := ih _ (by rw [← hn]; simp [restAll, SerializationFrame.rest]) frames rfl
      have heq : serializeFrames (.object [] first :: frames) =
          fun out => append ['}'] out >>= serializeFrames frames :=
        funext fun out => by rw [serializeFrames]
      rw [heq]
      exact ((writes_append _).bind hrest).congr (by simp [Shallow]) rfl
    | .array (item :: items) index :: frames =>
      have hlead := lead_length_pos item
      rw [restAll_item] at hn ⊢
      simp only [length_append] at hn
      have hrest := ih _ (by omega) (framesOf item ++ .array items (index + 1) :: frames) rfl
      have heq : serializeFrames (.array (item :: items) index :: frames) = fun out =>
          (if index ≠ 0 then append [','] out else .ok out) >>= fun out =>
            property item out (frames.length + 1) >>=
              serializeFrames (framesOf item ++ .array items (index + 1) :: frames) :=
        funext fun out => by rw [serializeFrames]; split <;> rfl
      rw [heq]
      refine (writes_comma.bind ((writes_property item (frames.length + 1)).bind hrest)).congr
        ?_ rfl
      have hnext := shallow_framesOf item (.array items (index + 1) :: frames)
      rw [length_cons] at hnext
      rw [true_and, ← hnext, Shallow, Shallow, forall_mem_cons, and_assoc]
      refine and_congr_left fun _ => ?_
      omega
    | .object ((key, value) :: fields) first :: frames =>
      have hlead := lead_length_pos value
      rw [restAll_field] at hn ⊢
      simp only [length_append] at hn
      have hrest := ih _ (by omega) (framesOf value ++ .object fields false :: frames) rfl
      have heq : serializeFrames (.object ((key, value) :: fields) first :: frames) =
          fun out => (if first then .ok out else append [','] out) >>= fun out =>
            append ['"'] out >>= fun out => escapeJson key out >>= fun out =>
              append ['"', ':'] out >>= fun out => property value out (frames.length + 1) >>=
                serializeFrames (framesOf value ++ .object fields false :: frames) :=
        funext fun out => by rw [serializeFrames]; split <;> rfl
      have hcomma : Writes True (fun out => if first then .ok out else append [','] out)
          (if first then [] else [',']) := by
        cases first
        · exact writes_append _
        · exact writes_ok
      have hkey := ((writes_property value (frames.length + 1)).bind hrest)
      rw [heq]
      refine (hcomma.bind ((writes_append _).bind ((writes_escapeJson key).bind
        ((writes_append _).bind hkey)))).congr ?_ (by simp [quote, quoteRest])
      have hnext := shallow_framesOf value (.object fields false :: frames)
      rw [length_cons] at hnext
      simp only [true_and]
      rw [← hnext, Shallow, Shallow, forall_mem_cons, and_assoc]
      refine and_congr_left fun _ => ?_
      dsimp only
      omega

/-- `Serialization::serialize`, exactly. -/
theorem serialize_eq_ok {value : JsonValue} {out : List UInt16} :
    serialize value = .ok out ↔ height value ≤ maxJsonDepth ∧ out = encode (stringify value) ∧
      out.length ≤ maxStringLen := by
  have hwrites := (writes_property value 0).bind (writes_frames (framesOf value))
  have hshallow := shallow_framesOf value []
  rw [append_nil] at hshallow
  rw [← lead_append value]
  refine (hwrites [] out (Nat.zero_le _)).trans (and_congr_left fun _ => ?_)
  exact hshallow.symm.trans (and_iff_left trivial)

end NapiVm.JsonStringify
