import NapiVm.Object.Protected
import NapiVm.Lib.Nondet

/-!
# Internal methods through a stack of proxies

Level `0` is an ordinary object; level `n + 1` is a proxy whose target is level
`n`.  Each internal method is written level by level as `proxy.rs`, `object.rs`,
`resolve.rs` and `call.rs` have it: ask the handler for its trap, fall through to
the target if there is none, otherwise run the trap and check what it answered
against the target.

Handlers, traps, getters, setters and every other object are guest code, and
guest code can do anything: call any internal method of any level, any number of
times, and then return any value or throw.  `guest` stands for one such
excursion.  Code that walks on into objects outside the stack (the prototype
chain, a foreign receiver) is `guest` as well.  The nesting of excursions is
bounded by the depth argument of `guestAt`; every run that ends has some depth.

`permit` restricts the definitions that reach the object itself, so that a
condition on the steps of a run can be stated; a run without one has `permit`
true everywhere.
-/

namespace NapiVm

open NapiVm.Nondet

/-- Code on the object at the bottom of the stack. -/
abbrev Run (α : Type) : Type := Nondet ObjectStore VmErr α

/-- `is_ecmascript_object`. -/
def Value.isObject : Value → Bool
  | .function .. | .nativeFunction .. | .hostFunction .. | .ref .. => true
  | _ => false

/-- The receiver of an assignment: a level of the stack, or any other value. -/
inductive Receiver where
  | level (n : Nat)
  | foreign
  deriving DecidableEq, Repr

/-- What the walk over a requested prototype's own chain finds. -/
inductive ChainWalk where
  | clear | cycle | tooDeep
  deriving DecidableEq, Repr

/-- `MAX_PROTOTYPE_DEPTH`. -/
def maxPrototypeDepth : Nat := 4096

namespace Proxy

section

variable (realm : Realm) (permit : ObjectStore → PropKey → Descriptor → Prop) (guest : Run Value)

/-- `ProxyData::snapshot`: any proxy may have been revoked. -/
def snapshot : Run Unit := do
  let revoked ← choose
  refuse revoked (typeErr "Cannot perform operation on a revoked Proxy")

/-- `proxy_trap`, with the message for a handler member that cannot be called. -/
def proxyTrap (message : String) : Run (Option Value) := do
  let method ← guest
  (if method = .undefined ∨ method = .null then pure none
    else if realm.callable method then pure (some method)
    else throw (typeErr message))

/-- The handler's trap for an operation, after the target and handler were read. -/
def enter (message : String) : Run (Option Value) := do
  snapshot
  proxyTrap realm guest message

/-- The message of `get_method`. -/
def notCallable : String := "Property method must be callable"

/-- Run guest code and coerce its answer. -/
def guestTruthy : Run Bool := do
  let _ ← guest
  choose

/-- One field of `to_property_descriptor`. -/
def descriptorField : Run (Option Value) := do
  let present ← guestTruthy guest
  (if present then do
      let value ← guest
      pure (some value)
    else pure none)

/-- A flag field of `to_property_descriptor`. -/
def descriptorFlag : Run (Option Bool) := do
  let field ← descriptorField guest
  (match field with
    | some _ => do
        let flag ← choose
        pure (some flag)
    | none => pure none)

/-- An accessor field of `to_property_descriptor`. -/
def descriptorAccessor : Run (Option Value) := do
  let field ← descriptorField guest
  refuse (!ObjectStore.callableField realm field)
    (typeErr "Property descriptor accessor must be callable")
  pure field

/-- `to_property_descriptor`: every field of the record is guest code. -/
def toPropertyDescriptor : Run Descriptor := do
  let enumerable ← descriptorFlag guest
  let configurable ← descriptorFlag guest
  let value ← descriptorField guest
  let writable ← descriptorFlag guest
  let get ← descriptorAccessor realm guest
  let set ← descriptorAccessor realm guest
  refuse ((get.isSome || set.isSome) && (value.isSome || writable.isSome))
    (typeErr "Invalid property descriptor")
  pure { value, writable, get, set, enumerable, configurable }

/-- `is_extensible`. -/
def isExtensible : Nat → Run Bool
  | 0 => read fun s => !s.metadata.nonExtensible
  | n + 1 => do
      let trap ← enter realm guest notCallable
      (match trap with
        | none => isExtensible n
        | some _ => do
            let result ← guestTruthy guest
            let actual ← isExtensible n
            refuse (result != actual)
              (typeErr "Proxy isExtensible result differs from its target")
            pure result)

/-- The checks of `descriptor_for_key_in` on what a trap reported. -/
def validateReport (previous : Option Descriptor) (extensible : Bool) (d : Descriptor) :
    Run (Option Descriptor) := do
  refuse (previous.isNone && !extensible)
    (typeErr "Proxy cannot add a property to a non-extensible target")
  refuse (!compatibleDescriptor previous d)
    (typeErr "Proxy descriptor is incompatible with the target")
  refuse (!d.isConfigurable && (previous.isNone || previous.any Descriptor.isConfigurable))
    (typeErr "Proxy cannot invent a non-configurable property")
  refuse (!d.isConfigurable && previous.any Descriptor.isWritable && d.writable == some false)
    (typeErr "Proxy cannot report a writable property as frozen")
  pure (some d)

/-- `descriptor_for_key_in`: [[GetOwnProperty]]. -/
def getOwn : Nat → PropKey → Run (Option Descriptor)
  | 0, key => read fun s => s.descriptorFor key.slot
  | n + 1, key => do
      let trap ← enter realm guest "Proxy getOwnPropertyDescriptor trap must be callable"
      (match trap with
        | none => getOwn n key
        | some _ => do
            let result ← guest
            refuse (result != .undefined && !result.isObject)
              (typeErr "Proxy descriptor trap must return an object or undefined")
            let previous ← getOwn n key
            let extensible ← isExtensible realm guest n
            (if result = .undefined then do
                refuse (previous.any fun d => !d.isConfigurable || !extensible)
                  (typeErr "Proxy cannot hide a protected target property")
                pure none
              else do
                let d ← toPropertyDescriptor realm guest
                validateReport previous extensible d.complete))

/-- The checks of `define_own_property` once a trap accepted. -/
def validateDefine (current : Option Descriptor) (extensible : Bool) (d : Descriptor) :
    Run Bool := do
  let settingNonConfigurable := d.configurable == some false
  refuse (current.isNone && (!extensible || settingNonConfigurable))
    (typeErr "Proxy cannot invent a protected property")
  refuse (!compatibleDescriptor current d)
    (typeErr "Proxy defineProperty is incompatible with its target")
  refuse (settingNonConfigurable && current.any Descriptor.isConfigurable)
    (typeErr "Proxy cannot make a configurable target property non-configurable")
  refuse (current.any (fun c => !c.isConfigurable && c.isWritable) && d.writable == some false)
    (typeErr "Proxy cannot report a writable target property as frozen")
  pure true

/-- `define_own_property`: [[DefineOwnProperty]]. -/
def define : Nat → PropKey → Descriptor → Run Bool
  | 0, key, d => when (fun s => permit s key d) (perform fun s => s.defineOwn realm key d)
  | n + 1, key, d => do
      let trap ← enter realm guest notCallable
      (match trap with
        | none => define n key d
        | some _ => do
            let accepted ← guestTruthy guest
            (if !accepted then pure false
              else do
                let current ← getOwn realm guest n key
                let extensible ← isExtensible realm guest n
                validateDefine current extensible d))

/-- `prevent_extensions`. -/
def preventExtensions : Nat → Run Bool
  | 0 => perform fun s => (.ok true, s.preventExtensions)
  | n + 1 => do
      let trap ← enter realm guest notCallable
      (match trap with
        | none => preventExtensions n
        | some _ => do
            let accepted ← guestTruthy guest
            (if !accepted then pure false
              else do
                let extensible ← isExtensible realm guest n
                refuse extensible (typeErr "Proxy preventExtensions target is still extensible")
                pure true))

/-- `get_prototype_of`. -/
def getPrototypeOf : Nat → Run Value
  | 0 => read fun s => (s.prototypeOf realm).getD .null
  | n + 1 => do
      let trap ← enter realm guest notCallable
      (match trap with
        | none => getPrototypeOf n
        | some _ => do
            let result ← guest
            refuse (result != .null && !result.isObject)
              (typeErr "Proxy getPrototypeOf trap must return an object or null")
            let extensible ← isExtensible realm guest n
            (if extensible then pure result
              else do
                let actual ← getPrototypeOf n
                refuse (!result.strictEquals actual)
                  (typeErr ("Proxy getPrototypeOf trap must return the target's actual prototype " ++
                    "when the target is non-extensible"))
                pure result))

/-- The base case of `set_prototype_of`; `walk` is what the chain of the requested
prototype, made of other objects, turns out to be. -/
def setPrototypeOfBase (requested : Value) (walk : ChainWalk) (s : ObjectStore) :
    Except VmErr Bool × ObjectStore :=
  if ((s.prototypeOf realm).getD .null).strictEquals requested then (.ok true, s)
  else if s.metadata.immutablePrototype || s.metadata.nonExtensible then (.ok false, s)
  else
    match walk with
    | .cycle => (.ok false, s)
    | .tooDeep => (.error (limitErr "Maximum prototype depth exceeded"), s)
    | .clear => (.ok true, s.setProto (if requested = .null then none else some requested))

/-- `set_prototype_of`. -/
def setPrototypeOf : Nat → Value → Run Bool
  | 0, requested => do
      let walk ← choose
      perform (setPrototypeOfBase realm requested walk)
  | n + 1, requested => do
      let trap ← enter realm guest notCallable
      (match trap with
        | none => setPrototypeOf n requested
        | some _ => do
            let accepted ← guestTruthy guest
            (if !accepted then pure false
              else do
                let extensible ← isExtensible realm guest n
                (if extensible then pure true
                  else do
                    let actual ← getPrototypeOf realm guest n
                    refuse (!requested.strictEquals actual)
                      (typeErr "Proxy setPrototypeOf violates the target prototype")
                    pure true)))

/-- `has_property`, with the rounds its loop has left. -/
def has : Nat → Nat → PropKey → Run Bool
  | _, 0, _ => throw (limitErr "Maximum prototype depth exceeded")
  | 0, _ + 1, key => do
      let own ← read fun s => (s.ownSlot key.slot).isSome
      let prototype ← read fun s => s.prototypeOf realm
      (if own then pure true
        else if prototype.isNone then pure false
        else guestTruthy guest)
  | n + 1, rounds + 1, key => do
      let trap ← enter realm guest notCallable
      (match trap with
        | none => has n rounds key
        | some _ => do
            let accepted ← guestTruthy guest
            (if accepted then pure true
              else do
                let descriptor ← getOwn realm guest n key
                (match descriptor with
                  | none => pure false
                  | some d => do
                      refuse (!d.isConfigurable)
                        (typeErr "Proxy has trap cannot hide a protected property")
                      let extensible ← isExtensible realm guest n
                      refuse (!extensible)
                        (typeErr "Proxy has trap cannot hide a protected property")
                      pure false)))

/-- `validate_proxy_get`. -/
def validateGet (descriptor : Option Descriptor) (result : Value) : Run Value := do
  (match descriptor with
    | none => pure result
    | some d =>
      if d.isConfigurable then pure result
      else
        match d.value with
        | some value => do
            refuse (!d.isWritable && !value.sameValue result)
              (typeErr "Proxy get cannot change a frozen target value")
            pure result
        | none => do
            refuse (d.get == some .undefined && result != .undefined)
              (typeErr ("Proxy get must return undefined for a protected accessor " ++
                "without a getter"))
            pure result)

/-- A binding that is still in its dead zone cannot be read by name. -/
def initialized (key : PropKey) (v : Value) : Run Value :=
  match key with
  | .name text =>
    if v = .uninitialized then
      throw (.msg ("ReferenceError: Cannot access '" ++ text ++ "' before initialization"))
    else pure v
  | .symbol .. => pure v

/-- `with_property_get`: reads nest only so deep. -/
def propertyDepth : Run Unit := do
  let deep ← choose
  refuse deep (limitErr "Maximum property operation depth exceeded")

/-- [[Get]]; the receiver only reaches getters, which are guest code. -/
def get : Nat → PropKey → Run Value
  | 0, key => do
      propertyDepth
      let own ← read fun s => s.readOwn key
      let prototype ← read fun s => s.prototypeOf realm
      let result ← (match own with
        | .data v => pure v
        | .getter _ => guest
        | .noGetter => pure .undefined
        | .absent => if prototype.isNone then pure .undefined else guest)
      initialized key result
  | n + 1, key => do
      propertyDepth
      let trap ← enter realm guest notCallable
      let result ← (match trap with
        | none => get n key
        | some _ => do
            let result ← guest
            let descriptor ← getOwn realm guest n key
            validateGet descriptor result)
      initialized key result

/-- The last part of `set_member_with_receiver`: store into the receiver. -/
def setReceiver (key : PropKey) (value : Value) : Receiver → Run Bool
  | .foreign => guestTruthy guest
  | .level n => do
      let existing ← getOwn realm guest n key
      (match existing with
        | none => define realm permit guest n key
            { value := some value, writable := some true, enumerable := some true
              configurable := some true }
        | some d =>
          if d.isAccessor || !d.isWritable then pure false
          else define realm permit guest n key { value := some value })

/-- The check on a `set` trap that accepted. -/
def validateSet (descriptor : Option Descriptor) (value : Value) : Run Bool :=
  match descriptor with
  | none => pure true
  | some d =>
    if d.isConfigurable then pure true
    else
      match d.value with
      | some previous => do
          refuse (!d.isWritable && !previous.sameValue value)
            (typeErr "Proxy set cannot change a frozen target property")
          pure true
      | none => do
          refuse (d.set == some .undefined)
            (typeErr "Proxy set cannot write a protected accessor without a setter")
          pure true

/-- The loop of `set_member_with_receiver`, with the rounds it has left. -/
def setLoop : Nat → Nat → PropKey → Value → Receiver → Run Bool
  | _, 0, _, _, _ => throw (limitErr "Maximum prototype depth exceeded")
  | 0, _ + 1, key, value, receiver => do
      let descriptor ← read fun s => s.descriptorFor key.slot
      let prototype ← read fun s => s.prototypeOf realm
      (match descriptor with
        | none =>
          if prototype.isNone then setReceiver realm permit guest key value receiver
          else guestTruthy guest
        | some d =>
          if d.isAccessor then
            (if d.set.getD .undefined = .undefined then pure false
              else do
                let _ ← guest
                pure true)
          else if !d.isWritable then pure false
          else setReceiver realm permit guest key value receiver)
  | n + 1, rounds + 1, key, value, receiver => do
      let trap ← enter realm guest notCallable
      (match trap with
        | none => setLoop n rounds key value receiver
        | some _ => do
            let accepted ← guestTruthy guest
            (if !accepted then pure false
              else do
                let descriptor ← getOwn realm guest n key
                validateSet descriptor value))

/-- The direct path of an assignment to the object itself. -/
def setDirect (key : PropKey) (value : Value) (clear : Bool) : Run (Option Bool) :=
  perform fun s =>
    match s.setIndexed key.slot value clear with
    | some (r, t) => (r.map some, t)
    | none => (.ok none, s)

/-- `set_member_with_receiver`: [[Set]]. -/
def set : Nat → PropKey → Value → Receiver → Run Bool
  | 0, key, value, .level 0 => do
      let clear ← choose
      let direct ← setDirect key value clear
      (match direct with
        | some accepted => pure accepted
        | none => setLoop realm permit guest 0 maxPrototypeDepth key value (.level 0))
  | n, key, value, receiver => setLoop realm permit guest n maxPrototypeDepth key value receiver

/-- `delete_member_key`, with the depth it may still descend. -/
def delete : Nat → Nat → PropKey → Run Bool
  | _, 0, _ => throw (limitErr "Maximum Proxy traversal depth exceeded")
  | 0, _ + 1, key => perform fun s => ((.ok (s.deleteOwn key.slot).1), (s.deleteOwn key.slot).2)
  | n + 1, depth + 1, key => do
      let trap ← enter realm guest notCallable
      (match trap with
        | none => delete n depth key
        | some _ => do
            let accepted ← guestTruthy guest
            (if !accepted then pure false
              else do
                let descriptor ← getOwn realm guest n key
                (match descriptor with
                  | none => pure true
                  | some d => do
                      refuse (!d.isConfigurable)
                        (typeErr ("Proxy deleteProperty cannot hide a non-configurable " ++
                          "property"))
                      let extensible ← isExtensible realm guest n
                      refuse (!extensible)
                        (typeErr ("Proxy deleteProperty cannot hide a property of a " ++
                          "non-extensible target"))
                      pure true)))

/-! ## Runs -/

/-- One internal method, on one level of the stack. -/
inductive Call where
  | getOwn (n : Nat) (key : PropKey)
  | define (n : Nat) (key : PropKey) (d : Descriptor)
  | has (n : Nat) (key : PropKey)
  | get (n : Nat) (key : PropKey)
  | set (n : Nat) (key : PropKey) (value : Value) (receiver : Receiver)
  | delete (n : Nat) (key : PropKey)
  | isExtensible (n : Nat)
  | preventExtensions (n : Nat)
  | getPrototypeOf (n : Nat)
  | setPrototypeOf (n : Nat) (prototype : Value)
  /-- Any other guest code: a call or construction, a key listing, a script. -/
  | other
  deriving DecidableEq, Repr

/-- What an internal method answers. -/
inductive Reply where
  | descriptor (d : Option Descriptor)
  | accepted (b : Bool)
  | value (v : Value)
  deriving DecidableEq, Repr

/-- Return the answer of an internal method. -/
def replying {α : Type} (answer : α → Reply) (m : Run α) : Run Reply := do
  let a ← m
  pure (answer a)

/-- Perform an internal method. -/
def Call.run : Call → Run Reply
  | .getOwn n key => replying .descriptor (Proxy.getOwn realm guest n key)
  | .define n key d => replying .accepted (Proxy.define realm permit guest n key d)
  | .has n key => replying .accepted (Proxy.has realm guest n maxPrototypeDepth key)
  | .get n key => replying .value (Proxy.get realm guest n key)
  | .set n key value receiver =>
    replying .accepted (Proxy.set realm permit guest n key value receiver)
  | .delete n key => replying .accepted (Proxy.delete realm guest n maxPrototypeDepth key)
  | .isExtensible n => replying .accepted (Proxy.isExtensible realm guest n)
  | .preventExtensions n => replying .accepted (Proxy.preventExtensions realm guest n)
  | .getPrototypeOf n => replying .value (Proxy.getPrototypeOf realm guest n)
  | .setPrototypeOf n prototype =>
    replying .accepted (Proxy.setPrototypeOf realm guest n prototype)
  | .other => replying .value guest

end

variable (realm : Realm) (permit : ObjectStore → PropKey → Descriptor → Prop)

/-- Guest code whose own internal methods nest at most `depth` excursions deep: any calls,
then any value or error. -/
def guestAt : Nat → Run Value
  | 0 => fun s _ t => t = s
  | depth + 1 => fun s _ t =>
    Relation.ReflTransGen
      (fun s t => ∃ (call : Call) (r : Except VmErr Reply),
        call.run realm permit (guestAt depth) s r t) s t

/-- An internal method of a run with the answer it got. -/
structure Event where
  call : Call
  reply : Except VmErr Reply

/-- A run: calls made one after another, each with guest code of some depth. -/
inductive Trace : ObjectStore → List Event → ObjectStore → Prop
  | nil (s : ObjectStore) : Trace s [] s
  | cons {s t u : ObjectStore} {call : Call} {r : Except VmErr Reply} {events : List Event}
      (depth : Nat) (h : call.run realm permit (guestAt realm permit depth) s r t)
      (rest : Trace t events u) : Trace s (⟨call, r⟩ :: events) u

end Proxy

end NapiVm
