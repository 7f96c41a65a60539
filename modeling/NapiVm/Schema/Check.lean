import NapiVm.Schema.Wire

/-!
# Schemas

`validate_at` validates a value against a schema, and `check_schema` checks a schema before it
is used.  Both are called again one level down, with one level less.

* `validateAt` — the validator.
* `checkSchema` — the checker.
-/

namespace NapiVm.Schema

open Host Rpc

/-! ## The validator -/

/-- The text of a value in a message; that of a number with a fraction is the library's. -/
def display (value : Json) : String :=
  match compactValue value with
  | .ok bytes => (String.fromUTF8? ⟨bytes.toArray⟩).getD ""
  | .error _ => ""

/-- `fail`. -/
def failure (path message : String) : RpcError := invalid (path ++ ": " ++ message)

/-- An error with a path, unless the condition holds. -/
def expect (condition : Bool) (path message : String) : Except RpcError Unit :=
  if condition then .ok () else .error (failure path message)

/-- A key in a path. -/
def escapeKey (key : String) : String :=
  String.ofList (replaceAll ['~', '1'] ['/'] (replaceAll ['~', '0'] ['~'] key.toList))

/-- `length_bounds`. -/
def lengthBounds (s : Json) (n : Nat) (lo hi : String) : Bool :=
  !((asU64 (get s lo)).any (fun m => n < m) || (asU64 (get s hi)).any fun m => m < n)

/-- `nonnull`. -/
def withType (s other : Json) : Json :=
  match s with
  | .object o => .object (setKey o "type" other)
  | s => s

/-- Equal, or equal as numbers. -/
def literalEq (c v : Json) : Bool :=
  valueEq c v ||
    match asF64 c, asF64 v with
    | some a, some b => rank a = rank b
    | _, _ => false

section Validate

variable (root : Json) (validate : String → Json → Json → Except RpcError Unit)

def validateObject (path : String) (s v : Json) : Except RpcError Unit :=
  match asObject v with
  | none => .error (failure path "expected object")
  | some o =>
    match asObject (get s "properties") with
    | none => .error (failure path "invalid object schema")
    | some p => do
        checkAll (fun k => expect (hasKey o ((asStr k).getD "")) path
          ("missing required " ++ display k)) ((asArray (get s "required")).getD [])
        checkAll (fun field =>
          match p.lookup field.1 with
          | none => .error (failure path ("unknown property " ++ field.1))
          | some schema => validate (path ++ "/" ++ escapeKey field.1) schema field.2) o

def validateArray (path : String) (s v : Json) : Except RpcError Unit :=
  match asArray v with
  | none => .error (failure path "expected array")
  | some a => do
      expect (lengthBounds s a.length "minItems" "maxItems") path "length bound exceeded"
      checkAll (fun item => validate (path ++ "/" ++ toString item.2) (get s "items") item.1)
        a.zipIdx

/-- What a wire type asks of a string. -/
def wireOk (w x : String) : Bool :=
  if w = "i64-decimal" then canonicalDecimal x.toList true && (parseI64 x.toList).isSome
  else if w = "u64-decimal" then canonicalDecimal x.toList false && (parseU64 x.toList).isSome
  else if w = "bytes-base64" then canonicalBase64 (asBytes x)
  else if w = "utc-datetime" then utcDatetime (asBytes x)
  else false

def validateString (path : String) (s v : Json) : Except RpcError Unit :=
  match asStr v with
  | none => .error (failure path "expected string")
  | some x => do
      expect (lengthBounds s x.toList.length "minLength" "maxLength") path "length bound exceeded"
      match asStr (get s "x-wire-type") with
      | some w => expect (wireOk w x) path ("invalid " ++ w)
      | none => .ok ()

def validateNumber (path : String) (s v : Json) : Except RpcError Unit :=
  match (asF64 v).filter Binary64.isFinite with
  | none => .error (failure path "expected finite number")
  | some n => do
      expect (asStr (get s "type") ≠ some "integer" ||
        (Binary64.toInt? n).any fun i => i.natAbs ≤ 9007199254740991) path
        "integer outside safe range"
      expect (!((asF64 (get s "minimum")).any (fun m => rank n < rank m) ||
        (asF64 (get s "maximum")).any fun m => rank m < rank n)) path "numeric bound exceeded"

/-- The part of `validate_at` for a schema with at most one type. -/
def validatePlain (path : String) (s v : Json) : Except RpcError Unit := do
  expect ((get? s "const").all fun c => literalEq c v) path "const mismatch"
  expect ((asArray (get s "enum")).all fun e => e.any fun x => valueEq x v) path "enum mismatch"
  match asStr (get s "type") with
  | none => .ok ()
  | some t =>
    if t = "object" then validateObject validate path s v
    else if t = "array" then validateArray validate path s v
    else if t = "string" then validateString path s v
    else if t = "integer" ∨ t = "number" then validateNumber path s v
    else if t = "boolean" then expect (isBool v) path "expected boolean"
    else if t = "null" then expect (isNull v) path "expected null"
    else .error (failure path "unsupported schema type")

/-- The body of `validate_at`. -/
def validateNode (path : String) (s v : Json) : Except RpcError Unit :=
  match asStr (get s "$ref") with
  | some r =>
    match resolve root r with
    | .ok target => validate path target v
    | .error e => .error e
  | none =>
    match asArray (get s "oneOf") with
    | some a =>
      expect ((a.filter fun s => (validate path s v).isOk).length = 1) path
        "union variant mismatch"
    | none =>
      match asArray (get s "type") with
      | some types =>
        if isNull v then .ok ()
        else
          match types.find? fun t => asStr t ≠ some "null" with
          | none => .error (failure path "invalid nullable type")
          | some other => validate path (withType s other) v
      | none => validatePlain validate path s v

end Validate

/-- `validate_at`, with the number of levels that are left. -/
def validateAt (root : Json) : Nat → String → Json → Json → Except RpcError Unit
  | 0, path, _, _ => .error (failure path "maximum nesting exceeded")
  | levels + 1, path, s, v => validateNode root (validateAt root levels) path s v

/-- The levels of a schema, and of a value. -/
def maxLevels : Nat := 65

/-! ## The checker -/

/-- `KEYS`. -/
def keywords : List String :=
  ["$schema", "$defs", "$ref", "type", "properties", "required", "additionalProperties", "items",
    "minItems", "maxItems", "minLength", "maxLength", "minimum", "maximum", "enum", "const",
    "oneOf", "title", "description", "x-wire-type"]

def draft : String := "https://json-schema.org/draft/2020-12/schema"

/-- The metadata and the keywords of a schema. -/
def checkMetadata (o : List (String × Json)) : Except RpcError Unit := do
  demand ((o.lookup "$schema").all fun v => asStr v = some draft) "schema draft must be 2020-12"
  demand ((o.lookup "title").all isString) "schema metadata must be strings"
  demand ((o.lookup "description").all isString) "schema metadata must be strings"
  checkAll (fun field => demand (keywords.contains field.1)
    ("unsupported schema keyword " ++ field.1)) o

/-- No field but these and the metadata. -/
def onlyKeys (o : List (String × Json)) (key : String) : Bool :=
  o.all fun field => [key, "title", "description"].contains field.1

/-- The bounds of a schema. -/
def checkBounds (o : List (String × Json)) : Except RpcError Unit := do
  checkAll (fun key => demand ((o.lookup key).all fun v =>
    (asU64 v).any fun n => n ≤ 9007199254740991) "length bounds must be nonnegative integers")
    ["minItems", "maxItems", "minLength", "maxLength"]
  checkAll (fun key => demand ((o.lookup key).all fun v => (asF64 v).any Binary64.isFinite)
    "numeric bounds must be finite numbers") ["minimum", "maximum"]
  checkAll (fun keys => demand (conflictFree (o.lookup keys.1) (o.lookup keys.2))
    "conflicting schema bounds")
    [("minItems", "maxItems"), ("minLength", "maxLength"), ("minimum", "maximum")]
where
  conflictFree : Option Json → Option Json → Bool
    | some a, some b =>
      match asF64 a, asF64 b with
      | some x, some y => rank x ≤ rank y
      | _, _ => false
    | _, _ => true

/-- `required`: strings that are properties, and no string twice. -/
def checkRequired (p : List (String × Json)) : List String → List Json → Except RpcError Unit
  | _, [] => .ok ()
  | seen, k :: rest =>
    match asStr k with
    | none => .error (invalid "required item must be string")
    | some k => do
        demand (hasKey p k && !seen.contains k) "invalid or duplicate required property"
        checkRequired p (k :: seen) rest

/-- `enum`: strings, and no string twice. -/
def distinctStrings : List String → List Json → Bool
  | _, [] => true
  | seen, v :: rest =>
    match asStr v with
    | none => false
    | some x => !seen.contains x && distinctStrings (x :: seen) rest

/-- Every variant requires the key, and its constant strings for it differ. -/
def discriminates (k : String) : List String → List Json → Bool
  | _, [] => true
  | seen, s :: rest =>
    (asArray (get s "required")).any (fun a => a.any fun v => asStr v = some k) &&
      match asStr (get (get (get s "properties") k) "const") with
      | none => false
      | some tag => !seen.contains tag && discriminates k (tag :: seen) rest

def wireTypes : List String := ["i64-decimal", "u64-decimal", "bytes-base64", "utc-datetime"]

section Check

variable (root : Json) (check : List String → Json → Except RpcError Unit)
  (stack : List String) (o : List (String × Json))

/-- `$ref`. -/
def checkReference (r : Json) : Except RpcError Unit :=
  match asStr r with
  | none => .error (invalid "$ref must be string")
  | some r => do
      demand (onlyKeys o "$ref") "$ref cannot have semantic siblings"
      demand (stack.length < 32) "schema reference chain exceeds 32"
      demand (!stack.contains r) ("recursive schema reference " ++ r)
      match resolve root r with
      | .ok target => check (r :: stack) target
      | .error e => .error e

/-- A type with null. -/
def checkNullable (types : List Json) : Except RpcError Unit := do
  demand (!(hasKey o "enum" || hasKey o "const"))
    "nullable type arrays cannot combine enum/const"
  demand (types.length = 2 && (types.filter fun t => asStr t = some "null").length = 1 &&
    types.all isString) "nullable type array requires exactly one type and null"
  match types.find? fun t => asStr t ≠ some "null" with
  | some other => check stack (.object (setKey o "type" other))
  | none => .ok ()

/-- `$defs`. -/
def checkDefs : Except RpcError Unit :=
  match o.lookup "$defs" with
  | none => .ok ()
  | some defs =>
    match asObject defs with
    | none => .error (invalid "$defs must be object")
    | some defs => checkAll (fun field => check stack field.2) defs

/-- A variant of `oneOf`. -/
def checkVariant (s : Json) : Except RpcError Unit := do
  demand (get? s "$ref").isNone "oneOf variants must be inline tagged objects"
  check stack s
  demand (asStr (get s "type") = some "object") "oneOf requires tagged object variants"

/-- `oneOf`. -/
def checkUnion (v : Json) : Except RpcError Unit := do
  demand (onlyKeys o "oneOf") "oneOf cannot have semantic siblings"
  match asArray v with
  | none => .error (invalid "oneOf must be array")
  | some a => do
      demand (2 ≤ a.length && a.length ≤ 32) "tagged union must contain 2..32 variants"
      checkAll (checkVariant check stack) a
      match asObject (get (a.headD .null) "properties") with
      | none => .error (invalid "tagged union properties missing")
      | some props =>
        demand (props.any fun field => discriminates field.1 [] a)
          "oneOf needs a shared required string-const discriminator with unique tags"

/-- A schema of objects. -/
def checkObject : Except RpcError Unit := do
  demand (match o.lookup "additionalProperties" with
    | some (.bool false) => true
    | _ => false) "objects require additionalProperties:false"
  match (o.lookup "properties").bind asObject with
  | none => .error (invalid "objects require properties")
  | some p => do
      checkAll (fun field => check stack field.2) p
      match o.lookup "required" with
      | none => .error (invalid "objects require explicit required array")
      | some r =>
        match asArray r with
        | none => .error (invalid "required must be array")
        | some r => checkRequired p [] r

/-- The keywords that go with some types only. -/
def typeKeywords (t : String) : List (String × Bool) :=
  [("properties", t = "object"), ("required", t = "object"),
    ("additionalProperties", t = "object"), ("items", t = "array"), ("minItems", t = "array"),
    ("maxItems", t = "array"), ("minLength", t = "string"), ("maxLength", t = "string"),
    ("minimum", t = "integer" || t = "number"), ("maximum", t = "integer" || t = "number")]

/-- `type`. -/
def checkType : Except RpcError Unit :=
  match o.lookup "type" with
  | none => demand (hasKey o "$defs" || hasKey o "const" || hasKey o "enum")
      "schema requires explicit type"
  | some t =>
    match asStr t with
    | none => .error (invalid "nullable syntax is type:[nonNullType, null]")
    | some t => do
        demand (["object", "array", "string", "integer", "number", "boolean", "null"].contains t)
          "unsupported type"
        (if t = "object" then checkObject check stack o else .ok ())
        (if t = "array" then check stack ((o.lookup "items").getD .null) else .ok ())
        checkAll (fun key => demand (!hasKey o key.1 || key.2)
          (key.1 ++ " conflicts with type " ++ t)) (typeKeywords t)

/-- `enum`. -/
def checkEnum : Except RpcError Unit :=
  match o.lookup "enum" with
  | none => .ok ()
  | some e =>
    match asArray e with
    | none => .error (invalid "enum must be array")
    | some a =>
      demand (a ≠ [] && distinctStrings [] a) "only unique nonempty string enums supported"

/-- `const`. -/
def checkConst : Except RpcError Unit :=
  match o.lookup "const" with
  | none => .ok ()
  | some c => do
      demand (!(isObject c || isArray c)) "only primitive literal constants are supported"
      validateAt root maxLevels "const" (.object (removeKey o "const")) c

/-- `enum`, `x-wire-type` and `const`. -/
def checkLiterals : Except RpcError Unit := do
  demand (!hasKey o "enum" || (o.lookup "type").bind asStr = some "string")
    "enum is supported only for strings"
  checkEnum o
  demand ((o.lookup "x-wire-type").all fun w => (o.lookup "type").bind asStr = some "string" &&
    wireTypes.contains ((asStr w).getD "")) "unknown or non-string x-wire-type"
  checkConst root o
  checkAll (fun e => validateAt root maxLevels "enum" (.object (removeKey o "enum")) e)
    (((o.lookup "enum").bind asArray).getD [])

/-- The body of `check_schema`. -/
def checkNode (s : Json) : Except RpcError Unit :=
  match asObject s with
  | none => .error (invalid "schema must be an object")
  | some o => do
      checkMetadata o
      match o.lookup "$ref" with
      | some r => checkReference root check stack o r
      | none =>
        match (o.lookup "type").bind asArray with
        | some types => checkNullable check stack o types
        | none => do
            checkBounds o
            checkDefs check stack o
            match o.lookup "oneOf" with
            | some v => checkUnion check stack o v
            | none => do
                checkType check stack o
                checkLiterals root o

end Check

/-- `check_schema`, with the number of levels that are left. -/
def checkSchema (root : Json) : Nat → List String → Json → Except RpcError Unit
  | 0, _, _ => .error (invalid "schema reference/depth limit exceeded")
  | levels + 1, stack, s => checkNode root (checkSchema root levels) stack s

end NapiVm.Schema
