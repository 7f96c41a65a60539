import NapiVm.Lib.Replace
import NapiVm.Rpc.Frame

/-!
# Reading JSON values

What the schema checker and the validator ask of a JSON value, and JSON pointers into one.

* `JsonNumber.rank` — the order of the numbers, as binary64 numbers.
* `pointer`, `resolve` — the value a reference leads to.
-/

namespace NapiVm.Schema

open Host Rpc

/-! ## Numbers -/

/-- The place of a binary64 number in their order; both zeros have the same. -/
def rank (bits : UInt64) : Int :=
  let m : Int := (bits.toNat % 2 ^ 63 : Nat)
  if Binary64.sign bits then -m else m

/-- `as_u64`. -/
def asU64 : Json → Option Nat
  | .number (.int n) => if 0 ≤ n ∧ n < 2 ^ 64 then some n.toNat else none
  | _ => none

/-- `as_i64`. -/
def asI64 : Json → Option Int
  | .number (.int n) => if -2 ^ 63 ≤ n ∧ n < 2 ^ 63 then some n else none
  | _ => none

/-- `as_f64`. -/
def asF64 : Json → Option UInt64
  | .number n => some n.asF64
  | _ => none

/-- Two numbers, as they are stored. -/
def numberEq : JsonNumber → JsonNumber → Bool
  | .int m, .int n => m = n
  | .float a, .float b => rank a = rank b
  | _, _ => false

/-! ## Values -/

def isNull : Json → Bool
  | .null => true
  | _ => false

def isBool : Json → Bool
  | .bool _ => true
  | _ => false

def isNumber : Json → Bool
  | .number _ => true
  | _ => false

def isString : Json → Bool
  | .string _ => true
  | _ => false

def isArray : Json → Bool
  | .array _ => true
  | _ => false

def isObject : Json → Bool
  | .object _ => true
  | _ => false

def asStr : Json → Option String
  | .string s => some s
  | _ => none

def asArray : Json → Option (List Json)
  | .array items => some items
  | _ => none

def asObject : Json → Option (List (String × Json))
  | .object fields => some fields
  | _ => none

/-- `Value::get`, with a key. -/
def get? (value : Json) (key : String) : Option Json :=
  (asObject value).bind fun fields => fields.lookup key

/-- `value[key]`. -/
def get (value : Json) (key : String) : Json := (get? value key).getD .null

/-- `contains_key`. -/
def hasKey (fields : List (String × Json)) (key : String) : Bool := (fields.lookup key).isSome

mutual

/-- The equality of values: objects are equal as maps. -/
def valueEq : Json → Json → Bool
  | .null, .null => true
  | .bool a, .bool b => a = b
  | .number a, .number b => numberEq a b
  | .string a, .string b => a = b
  | .array a, .array b => itemsEq a b
  | .object a, .object b => a.length = b.length && fieldsEq a b
  | _, _ => false

def itemsEq : List Json → List Json → Bool
  | [], [] => true
  | a :: as, b :: bs => valueEq a b && itemsEq as bs
  | _, _ => false

def fieldsEq : List (String × Json) → List (String × Json) → Bool
  | [], _ => true
  | (key, a) :: as, bs =>
    (match bs.lookup key with
      | some b => valueEq a b
      | none => false) && fieldsEq as bs

end

/-- `value[key] = new`. -/
def setKey (fields : List (String × Json)) (key : String) (new : Json) : List (String × Json) :=
  insertField fields key new

/-- `Map::remove`. -/
def removeKey (fields : List (String × Json)) (key : String) : List (String × Json) :=
  fields.filter fun field => field.1 ≠ key

/-! ## Pointers -/

/-- `split`. -/
def splitWhere (p : Char → Bool) : List Char → List (List Char)
  | [] => [[]]
  | c :: rest =>
    if p c then [] :: splitWhere p rest
    else
      match splitWhere p rest with
      | [] => [[c]]
      | first :: others => (c :: first) :: others

/-- `split_once`. -/
def splitOnce (c : Char) : List Char → Option (List Char × List Char)
  | [] => none
  | d :: rest =>
    if d = c then some ([], rest)
    else (splitOnce c rest).map fun parts => (d :: parts.1, parts.2)

/-- `replace("~1", "/").replace("~0", "~")`. -/
def unescape (token : List Char) : String :=
  String.ofList (replaceAll ['~'] ['~', '0'] (replaceAll ['/'] ['~', '1'] token))

/-- The number that digits stand for. -/
def digitsValue (digits : List Char) : Nat :=
  digits.foldl (fun n c => 10 * n + (c.toNat - 48)) 0

/-- `parse_index`. -/
def parseIndex (token : String) : Option Nat :=
  let digits := token.toList
  if digits.head? = some '0' ∧ digits.length ≠ 1 then none
  else if digits ≠ [] ∧ digits.all Char.isDigit ∧ digitsValue digits < 2 ^ 64 then
    some (digitsValue digits)
  else none

/-- The value under one token of a pointer. -/
def child (value : Json) (token : String) : Option Json :=
  match value with
  | .object fields => fields.lookup token
  | .array items => (parseIndex token).bind fun i => items[i]?
  | _ => none

/-- `Value::pointer`, by its tokens. -/
def follow : Json → List String → Option Json
  | value, [] => some value
  | value, token :: rest => (child value token).bind fun value => follow value rest

/-- The tokens of a pointer, without the empty one before its first slash. -/
def tokens (pointer : List Char) : List String := (splitWhere (· = '/') pointer).tail.map unescape

/-- `invalid`. -/
def invalid (message : String) : RpcError :=
  ⟨"INVALID_ARGUMENT", String.ofList (message.toList.take 2048)⟩

/-- `#/$defs/`. -/
def defsStart : List Char := ['#', '/', '$', 'd', 'e', 'f', 's', '/']

/-- `resolve`. -/
def resolve (root : Json) (reference : String) : Except RpcError Json :=
  if defsStart.isPrefixOf reference.toList = false then
    .error (invalid "only bundled local #/$defs/... references are supported")
  else
    match follow root (tokens (reference.toList.drop 1)) with
    | some value => .ok value
    | none => .error (invalid ("unresolved schema reference " ++ reference))

/-! ## Checks -/

/-- An error unless the condition holds. -/
def demand (condition : Bool) (message : String) : Except RpcError Unit :=
  if condition then .ok () else .error (invalid message)

@[simp] theorem demand_ok {condition : Bool} {message : String} :
    demand condition message = .ok () ↔ condition = true := by
  unfold demand
  cases condition <;> simp

variable {α : Type} {value : Json} {fields : List (String × Json)}

/-- One check after another. -/
@[simp] theorem bind_ok {x : Except RpcError Unit} {y : Unit → Except RpcError α} {a : α} :
    (x >>= y) = .ok a ↔ x = .ok () ∧ y () = .ok a := by
  cases x with
  | error e => simp [Bind.bind, Except.bind]
  | ok u => simp [Bind.bind, Except.bind]

/-- The same check of every element. -/
def checkAll {α : Type} (check : α → Except RpcError Unit) : List α → Except RpcError Unit
  | [] => .ok ()
  | a :: rest => do
      check a
      checkAll check rest

@[simp] theorem checkAll_ok {check : α → Except RpcError Unit} {l : List α} :
    checkAll check l = .ok () ↔ ∀ a ∈ l, check a = .ok () := by
  induction l with
  | nil => simp [checkAll]
  | cons a rest ih => simp [checkAll, ih]

/-! ## Lemmas -/

theorem asObject_eq_some (h : asObject value = some fields) : value = .object fields := by
  cases value with
  | object fields' =>
    cases h
    rfl
  | _ => cases h

theorem asArray_eq_some {items : List Json} (h : asArray value = some items) :
    value = .array items := by
  cases value with
  | array items' =>
    cases h
    rfl
  | _ => cases h

theorem asStr_eq_some {s : String} (h : asStr value = some s) : value = .string s := by
  cases value with
  | string t =>
    cases h
    rfl
  | _ => cases h

@[simp] theorem get?_object (fields : List (String × Json)) (key : String) :
    get? (.object fields) key = fields.lookup key := rfl

theorem mem_of_lookup {key : String} (h : fields.lookup key = some value) :
    (key, value) ∈ fields := by
  induction fields with
  | nil => cases h
  | cons field rest ih =>
    obtain ⟨k, v⟩ := field
    rw [List.lookup_cons] at h
    by_cases hk : key = k
    · subst hk
      rw [beq_self_eq_true] at h
      cases h
      exact List.mem_cons_self
    · rw [beq_eq_false_iff_ne.2 hk] at h
      exact List.mem_cons_of_mem _ (ih h)

theorem lookup_eq_get (fields : List (String × Json)) (key : String) :
    fields.lookup key = Slots.get fields key := by
  induction fields with
  | nil => rfl
  | cons field rest ih =>
    obtain ⟨k, v⟩ := field
    rw [List.lookup_cons]
    by_cases hk : key = k
    · subst hk
      simp [Slots.get]
    · rw [beq_eq_false_iff_ne.2 hk]
      simp only [ih, Slots.get, List.find?_cons, decide_eq_false (Ne.symm hk)]

theorem lookup_setKey (fields : List (String × Json)) (key : String) (new : Json) (key' : String) :
    (setKey fields key new).lookup key' = if key' = key then some new else fields.lookup key' := by
  rw [setKey, insertField, lookup_eq_get, Slots.get_upsert, lookup_eq_get]

end NapiVm.Schema
