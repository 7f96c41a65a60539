import NapiVm.Schema.Check

/-!
# Contracts

A contract is a descriptor with schemas and a digest.  The canonical text of a value and the hash
are the libraries', and parameters.

* `Contract.fromValue` — `Contract::from_value`.
* `Contract.refs` — the references of the descriptor.
* `Contract.validateRef` — `Contract::validate_ref`.
-/

namespace NapiVm.Schema

open Host Rpc

/-! ## Names -/

/-- `identifier`. -/
def identifier (s : String) : Bool :=
  let word (p : List Char) : Bool := p ≠ [] && p.all fun c => c.isLower || c.isDigit
  if s = "" || 128 < s.utf8ByteSize then false
  else
    match splitWhere (fun c => c = '.' || c = '-') s.toList with
    | [] => false
    | first :: others => (first.head?.any Char.isLower) && word first && others.all word

/-- `member_name`. -/
def memberName (s : String) : Bool := s ≠ "" && s.toList.length ≤ 200

/-- `version`. -/
def version (s : String) : Bool :=
  let split (c : Char) (text : List Char) : List Char × Option (List Char) :=
    match splitOnce c text with
    | some parts => (parts.1, some parts.2)
    | none => (text, none)
  let word (x : List Char) : Bool := x ≠ [] && x.all fun c => c.isAlphanum || c = '-'
  let leadingZero (x : List Char) : Bool := 1 < x.length && x.head? = some '0'
  if s = "" || 128 < s.utf8ByteSize then false
  else
    let base := split '+' s.toList
    if base.2.any fun b => (splitWhere (· = '.') b).any fun x => !word x then false
    else
      let core := split '-' base.1
      let parts := splitWhere (· = '.') core.1
      if parts.length ≠ 3 || parts.any fun x => x = [] || !x.all Char.isDigit || leadingZero x then
        false
      else
        !core.2.any fun p => (splitWhere (· = '.') p).any fun x =>
          !word x || leadingZero x && x.all Char.isDigit

/-! ## Contracts -/

structure Contract where
  descriptor : Json
  schemas : Json
  digest : String

namespace Contract

/-- An error of the deserializer, whose message is the library's. -/
def decodeErr : RpcError := invalid ""

/-- `serde_json::from_value`, for a struct without other fields: from an object, or from an array
of the fields. -/
def decode : Json → Except RpcError Contract
  | .object fields =>
    if fields.all fun field => ["descriptor", "schemas", "digest"].contains field.1 then
      match fields.lookup "descriptor", fields.lookup "schemas", fields.lookup "digest" with
      | some descriptor, some schemas, some (.string digest) =>
        .ok ⟨descriptor, schemas, digest⟩
      | _, _, _ => .error decodeErr
    else .error decodeErr
  | .array [descriptor, schemas, .string digest] => .ok ⟨descriptor, schemas, digest⟩
  | _ => .error decodeErr

/-- `CONTRACT_MISMATCH`, unless the condition holds. -/
def agree (condition : Bool) (message : String) : Except RpcError Unit :=
  if condition then .ok () else .error ⟨"CONTRACT_MISMATCH", message⟩

variable (c : Contract)

/-- `id`. -/
def id : String := (asStr (get c.descriptor "id")).getD ""

/-- `schema`, for a reference in a field. -/
def checkRef (reference : Json) (message : String) : Except RpcError Unit :=
  match asStr reference with
  | none => .error (invalid message)
  | some reference => (resolve c.schemas reference).map fun _ => ()

/-- The identity of a contract. -/
def checkIdentity : Except RpcError Unit :=
  agree (asI64 (get c.descriptor "descriptorVersion") = some 1 && identifier c.id &&
    version ((asStr (get c.descriptor "version")).getD "") && c.digest.utf8ByteSize = 64 &&
    c.digest.toList.all fun b => b.isDigit || ('a' ≤ b && b ≤ 'f'))
    "invalid contract identity or descriptor version"

def descriptorKeys : List String :=
  ["descriptorVersion", "id", "version", "types", "methods", "errors", "events", "state",
    "description", "title"]

/-- An error or an event of the descriptor; `key` is that of its reference. -/
def checkMember (key : String) (member : String × Json) : Except RpcError Unit := do
  demand (memberName member.1) "invalid descriptor member name"
  match asObject member.2 with
  | none => .error (invalid "descriptor member must be object")
  | some o =>
    demand ((o.all fun field => [key, "description"].contains field.1) &&
      (o.lookup "description").all isString) "invalid descriptor member fields"

/-- The errors, or the events. -/
def checkMembers (category key : String) : Except RpcError Unit :=
  match asObject (get c.descriptor category) with
  | none => .error (invalid "errors/events must be objects")
  | some entries => checkAll (checkMember key) entries

/-- A method of the descriptor. -/
def checkMethod (method : String × Json) : Except RpcError Unit := do
  demand (memberName method.1) "invalid method name"
  match asObject method.2 with
  | none => .error (invalid "method descriptor must be object")
  | some o => do
      checkAll (fun field =>
        demand (["input", "output", "errors", "idempotent", "description"].contains field.1)
          ("unknown method keyword " ++ field.1)) o
      demand ((o.lookup "idempotent").all isBool && (o.lookup "description").all isString)
        "invalid method metadata"
      match (o.lookup "errors").bind asArray with
      | none => .error (invalid "method requires errors array")
      | some errors => do
          demand (distinctStrings [] errors) "invalid or duplicate method errors"
          checkAll (fun k => c.checkRef (get method.2 k) "method input/output must be schema refs")
            ["input", "output"]
          checkAll (fun e => demand
            (get? (get c.descriptor "errors") ((asStr e).getD "")).isSome
            "undeclared method error") errors

/-- The references of the errors, or of the events. -/
def checkRefs (category key message : String) : Except RpcError Unit :=
  checkAll (fun member => c.checkRef (get member.2 key) message)
    ((asObject (get c.descriptor category)).getD [])

/-- `state`. -/
def checkState : Except RpcError Unit :=
  match get? c.descriptor "state" with
  | none => .ok ()
  | some s => do
      demand ((asObject s).any fun o => o.length = 3 &&
        o.all fun field => ["contract", "version", "schema"].contains field.1)
        "invalid state descriptor fields"
      demand (identifier ((asStr (get s "contract")).getD "") &&
        (asU64 (get s "version")).any fun n => n ≠ 0 && n ≤ 9007199254740991)
        "invalid state identity"
      c.checkRef (get s "schema") "state schema must be ref"

/-- The schemas. -/
def checkSchemas : Except RpcError Unit :=
  match asObject c.schemas with
  | none => .error (invalid "schemas root must be an object")
  | some root => do
      demand ((root.all fun field =>
        ["$defs", "$schema", "title", "description"].contains field.1) &&
        (asObject (get c.schemas "$defs")).any fun d => d.length ≤ 1024)
        "schemas requires bounded $defs and document metadata only"
      checkSchema c.schemas maxLevels [] c.schemas

/-- The checks of `from_value`, after that of the digest. -/
def check : Except RpcError Unit := do
  c.checkIdentity
  match asObject c.descriptor with
  | none => .error (invalid "descriptor must be object")
  | some d => do
      checkAll (fun field => demand (descriptorKeys.contains field.1)
        ("unknown descriptor keyword " ++ field.1)) d
      match asObject (get c.descriptor "methods") with
      | none => .error (invalid "methods must be object")
      | some methods => do
          c.checkMembers "errors" "data"
          c.checkMembers "events" "payload"
          checkAll c.checkMethod methods
          c.checkRefs "errors" "data" "error data must be schema ref"
          c.checkRefs "events" "payload" "event payload must be schema ref"
          c.checkState
          c.checkSchemas

section FromValue

variable (canonicalize : Json → Except String (List UInt8)) (sha256 : List UInt8 → String)

/-- The digest of a descriptor with its schemas. -/
def digestOf : Except RpcError String :=
  match normalizeValue 64 0 (.object [("descriptor", c.descriptor), ("schemas", c.schemas)]) with
  | .error e => .error e
  | .ok body =>
    match canonicalize body with
    | .error e => .error (invalid ("contract canonicalization failed: " ++ e))
    | .ok canonical => .ok (sha256 (canonical ++ [10]))

/-- `from_value`. -/
def fromValue (value : Json) : Except RpcError Contract := do
  let c ← decode value
  let actual ← c.digestOf canonicalize sha256
  agree (actual = c.digest) "generated contract digest does not match its descriptor/schema bytes"
  c.check
  pure c

end FromValue

/-! ## References -/

/-- The references in one field of the methods, the errors or the events. -/
def memberRefs (category key : String) : List String :=
  ((asObject (get c.descriptor category)).getD []).filterMap fun member =>
    asStr (get member.2 key)

/-- Every reference that a validation can start from. -/
def refs : List String :=
  c.memberRefs "methods" "input" ++ c.memberRefs "methods" "output" ++
    c.memberRefs "errors" "data" ++ c.memberRefs "events" "payload" ++
    ((get? c.descriptor "state").bind fun s => asStr (get s "schema")).toList

/-- `validate_ref`. -/
def validateRef (reference : String) (value : Json) : Except RpcError Unit :=
  match resolve c.schemas reference with
  | .ok s => validateAt c.schemas maxLevels "" s value
  | .error e => .error e

end Contract

end NapiVm.Schema
