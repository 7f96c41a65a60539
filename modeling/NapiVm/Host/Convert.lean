import NapiVm.Lib.Binary64
import NapiVm.Object.SlotNames

/-!
# JSON data across the host boundary

`value_from_json` builds guest values from host JSON with a stack machine: work
still to do, values built and keys read, each on a stack of its own.
`value_to_json` walks a guest value recursively, drops internal slots, turns slot
names back into strings and keeps the set of containers it is inside of.

Guest code can run during the way back, through `toJSON`, getters and exotic
objects; what it does is a parameter (`Guest`).
-/

namespace NapiVm.Host

/-- `serde_json::Number`. -/
inductive JsonNumber where
  | int (n : Int)
  | float (bits : UInt64)
  deriving DecidableEq, Repr

/-- `serde_json::Value`; the fields of an object stand in their own order. -/
inductive Json where
  | null
  | bool (b : Bool)
  | number (n : JsonNumber)
  | string (text : String)
  | array (items : List Json)
  | object (fields : List (String × Json))
  deriving Repr

/-- `MAX_JSON_DEPTH`. -/
def maxJsonDepth : Nat := 512

/-- `MAX_STRING_LEN`. -/
def maxStringLen : Nat := 64 * 1024 * 1024

/-- A container on the guest heap. -/
inductive GuestCell where
  | array (elements : List Value)
  | object (slots : Slots String Value)
  deriving Repr

/-- The containers allocated so far, by address. -/
abbrev GuestHeap := List GuestCell

/-! ## From the host -/

/-- `Number::as_f64`. -/
def JsonNumber.asF64 : JsonNumber → UInt64
  | int n => Binary64.ofInt n
  | float bits => bits

/-- An entry of the work stack. -/
inductive Step where
  | visit (value : Json) (depth : Nat)
  | key (name : String)
  | array (length : Nat)
  | object (length : Nat)

/-- The three stacks, with their tops first, and the heap. -/
structure Decoder where
  work : List Step
  values : List Value
  keys : List String
  heap : GuestHeap

/-- `Maximum JSON depth exceeded`. -/
def depthErr : VmErr := .msg "RangeError: Maximum JSON depth exceeded"

/-- Visit one value; the step itself is already off the stack. -/
def visit (d : Decoder) (value : Json) (depth : Nat) : Except VmErr Decoder :=
  if maxJsonDepth < depth then .error depthErr
  else
    match value with
    | .null => .ok { d with values := .null :: d.values }
    | .bool b => .ok { d with values := .bool b :: d.values }
    | .number n => .ok { d with values := .number n.asF64 :: d.values }
    | .string text =>
      if maxStringLen < (JsString.ofString text).length then
        .error (limitErr "Maximum string length exceeded")
      else .ok { d with values := .string (JsString.ofString text) :: d.values }
    | .array items =>
      if maxArrayLen < items.length then .error (limitErr "Maximum array length exceeded")
      else
        .ok { d with
          work := items.map (fun item => .visit item (depth + 1)) ++
            .array items.length :: d.work }
    | .object fields =>
      if maxObjectProps < fields.length then
        .error (limitErr "Maximum object property count exceeded")
      else
        .ok { d with
          work := fields.flatMap (fun f => [.key f.1, .visit f.2 (depth + 1)]) ++
            .object fields.length :: d.work }

/-- One turn of the loop. -/
def step (d : Decoder) : Step → Except VmErr Decoder
  | .visit value depth => visit d value depth
  | .key name =>
    if maxStringLen < name.utf8ByteSize then
      .error (limitErr "Maximum string length exceeded")
    else .ok { d with keys := JsString.toKey (JsString.ofString name) :: d.keys }
  | .array length =>
    .ok { d with
      values := .ref .array d.heap.length :: d.values.drop length
      heap := d.heap ++ [.array (d.values.take length).reverse] }
  | .object length =>
    .ok { d with
      values := .ref .object d.heap.length :: d.values.drop length
      keys := d.keys.drop length
      heap := d.heap ++
        [.object ((d.keys.take length).reverse.zip (d.values.take length).reverse)] }

/-- What is left to do. -/
noncomputable def weight : List Step → Nat
  | [] => 0
  | .visit value _ :: rest => sizeOf value + weight rest
  | _ :: rest => 1 + weight rest

theorem weight_append (a b : List Step) : weight (a ++ b) = weight a + weight b := by
  induction a with
  | nil => simp [weight]
  | cons s a ih => cases s <;> simp only [List.cons_append, weight, ih] <;> omega

theorem weight_visits (items : List Json) (depth : Nat) :
    weight (items.map fun item => .visit item depth) + 1 ≤ sizeOf items := by
  induction items with
  | nil => simp [weight]
  | cons j items ih =>
    simp only [List.map_cons, weight, List.cons.sizeOf_spec]
    omega

theorem weight_entries (fields : List (String × Json)) (depth : Nat) :
    weight (fields.flatMap fun f => [.key f.1, .visit f.2 depth]) + 1 ≤ sizeOf fields := by
  induction fields with
  | nil => simp [weight]
  | cons f fields ih =>
    obtain ⟨name, value⟩ := f
    simp only [List.flatMap_cons, List.cons_append, List.nil_append, weight,
      List.cons.sizeOf_spec, Prod.mk.sizeOf_spec]
    omega

/-- Every turn leaves less to do. -/
theorem weight_step {d d' : Decoder} {s : Step} (h : step d s = .ok d') :
    weight d'.work < weight (s :: d.work) := by
  cases s with
  | visit value depth =>
    have hpos : 0 < sizeOf value := by cases value <;> simp
    simp only [step, visit] at h
    split at h
    · exact absurd h (by simp)
    · cases value with
      | null => obtain rfl := Except.ok.inj h; simp only [weight]; omega
      | bool b => obtain rfl := Except.ok.inj h; simp only [weight]; omega
      | number n => obtain rfl := Except.ok.inj h; simp only [weight]; omega
      | string text =>
        dsimp only at h
        split at h
        · exact absurd h (by simp)
        · obtain rfl := Except.ok.inj h
          simp only [weight]
          omega
      | array items =>
        dsimp only at h
        split at h
        · exact absurd h (by simp)
        · obtain rfl := Except.ok.inj h
          have hw := weight_visits items (depth + 1)
          simp only [weight_append, weight, Json.array.sizeOf_spec]
          omega
      | object fields =>
        dsimp only at h
        split at h
        · exact absurd h (by simp)
        · obtain rfl := Except.ok.inj h
          have hw := weight_entries fields (depth + 1)
          simp only [weight_append, weight, Json.object.sizeOf_spec]
          omega
  | key name =>
    simp only [step] at h
    split at h
    · exact absurd h (by simp)
    · obtain rfl := Except.ok.inj h
      simp only [weight]
      omega
  | array length | object length =>
    obtain rfl := Except.ok.inj h
    simp only [weight]
    omega

/-- The loop of `value_from_json`. -/
def decode (d : Decoder) : Except VmErr (Value × GuestHeap) :=
  match d with
  | ⟨[], values, _, heap⟩ =>
    match values with
    | v :: _ => .ok (v, heap)
    | [] => .error (.msg "JSON traversal produces one root value")
  | ⟨s :: work, values, keys, heap⟩ =>
    match _h : step ⟨work, values, keys, heap⟩ s with
    | .error e => .error e
    | .ok d => decode d
  termination_by weight d.work
  decreasing_by exact weight_step _h

/-- `value_from_json`, on a heap. -/
def valueFromJson (heap : GuestHeap) (value : Json) : Except VmErr (Value × GuestHeap) :=
  decode ⟨[.visit value 0], [], [], heap⟩

/-! ## To the host -/

/-- Guest code that the way back may run, and the guest kinds it hands over to. -/
structure Guest where
  /-- What the default prototypes answer to `toJSON`. -/
  inheritedToJson : Value
  /-- Call a `toJSON` method on a value. -/
  call : Value → Value → Except VmErr Value
  /-- Read a getter of an object. -/
  member : Nat → String → Except VmErr Value
  /-- The value behind a live binding. -/
  binding : Nat → Value
  proxyCallable : Nat → Bool
  /-- Dates, proxies, typed arrays and buffers. -/
  exotic : RefKind → Nat → Except VmErr Json

/-- `CALL_SLOT`. -/
def callSlot : String := "__symbol_call__"

/-- A function of one of the three kinds. -/
def isFunction : Value → Bool
  | .function _ _ => true
  | .nativeFunction _ _ => true
  | .hostFunction _ _ => true
  | _ => false

/-- `is_callable_value`. -/
def isCallable (guest : Guest) (heap : GuestHeap) : Value → Bool
  | .ref .classObject _ => true
  | .ref .proxy a => guest.proxyCallable a
  | .ref .object a =>
    match heap[a]? with
    | some (.object slots) => (Slots.get slots callSlot).any isFunction
    | _ => false
  | v => isFunction v

/-- `number_to_json`. -/
def numberToJson (bits : UInt64) : Json :=
  if !Binary64.isFinite bits then .null
  else
    match Binary64.toInt? bits with
    | some n => if n.natAbs < 10 ^ 15 then .number (.int n) else .number (.float bits)
    | none => .number (.float bits)

/-- `Map::insert`. -/
def insertField (fields : List (String × Json)) (key : String) (value : Json) :
    List (String × Json) := Slots.upsert fields key value

/-- `TypeError: Converting circular structure to JSON`. -/
def circularErr : VmErr := typeErr "Converting circular structure to JSON"

/-- Is the slot the getter of its own key? -/
def isGetterFor (key : String) : Value → Bool
  | .function _ (some name) => name == "get " ++ key
  | _ => false

/-- The value of one entry of an object. -/
def entryValue (guest : Guest) (addr : Nat) (entry : String × Value) : Except VmErr Value :=
  if isGetterFor entry.1 entry.2 then guest.member addr entry.1
  else
    match entry.2 with
    | .binding c => .ok (guest.binding c)
    | v => .ok v

/-- The loop of `object_to_json`; `convert` is the conversion one level down. -/
def entriesToJson (guest : Guest) (addr : Nat) (convert : Value → Except VmErr Json) :
    Slots String Value → List (String × Json) → Except VmErr (List (String × Json))
  | [], out => .ok out
  | entry :: rest, out => do
      let property ← entryValue guest addr entry
      if property = .undefined then entriesToJson guest addr convert rest out
      else
        match JsString.toUtf8 (JsString.fromKey entry.1) with
        | none => .error (typeErr
            "host JSON cannot represent a property key with an unpaired surrogate")
        | some key =>
          let value ← convert property
          entriesToJson guest addr convert rest (insertField out key value)

/-- The elements of an array, in order. -/
def itemsToJson (convert : Value → Except VmErr Json) : List Value → Except VmErr (List Json)
  | [] => .ok []
  | v :: rest => do
      let item ← convert v
      let items ← itemsToJson convert rest
      .ok (item :: items)

/-- `value_to_json_depth`.  The first argument is how many levels are left, so `0` is
past the limit; `visited` holds the containers around the value, and each call
leaves it as it found it. -/
def valueToJsonDepth (guest : Guest) (heap : GuestHeap) :
    Nat → List Nat → Value → Except VmErr Json
  | 0, _, _ => .error depthErr
  | levels + 1, visited, value =>
    match value with
    | .null => .ok .null
    | .undefined => .ok .null
    | .bool b => .ok (.bool b)
    | .number bits => .ok (numberToJson bits)
    | .string units =>
      match JsString.toUtf8 units with
      | some text => .ok (.string text)
      | none => .error (typeErr "host JSON cannot represent an unpaired surrogate")
    | .ref .array a =>
      match heap[a]? with
      | some (.array elements) =>
        if a ∈ visited then .error circularErr
        else (itemsToJson (valueToJsonDepth guest heap levels (a :: visited)) elements).map
          .array
      | _ => .ok .null
    | .ref .object a =>
      match heap[a]? with
      | some (.object slots) =>
        let toJson := (Slots.get slots "toJSON").getD guest.inheritedToJson
        if isCallable guest heap toJson then do
          let converted ← guest.call toJson value
          valueToJsonDepth guest heap levels visited converted
        else if a ∈ visited then .error circularErr
        else
          (entriesToJson guest a (valueToJsonDepth guest heap levels (a :: visited))
            (slots.filter fun p => !isInternalKey p.1) []).map .object
      | _ => .ok .null
    | .ref kind a => guest.exotic kind a
    | _ => .ok .null

/-- `value_to_json`. -/
def valueToJson (guest : Guest) (heap : GuestHeap) (value : Value) : Except VmErr Json :=
  valueToJsonDepth guest heap (maxJsonDepth + 1) [] value

end NapiVm.Host
