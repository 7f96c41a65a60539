import NapiVm.Bytecode.Frame

/-!
# Execution

`execute_instruction`, `land_handler` and `run_loop` of `vm.rs`, with the builders
an instruction delegates to.
-/

namespace NapiVm

open VM

variable {W : Type}

/-! ## Slots -/

/-- The dead-zone error. -/
def deadZone (name : String) : VmErr :=
  .msg ("ReferenceError: Cannot access '" ++ name ++ "' before initialization")

/-- `check_slot_writable`. -/
def checkSlotWritable (f : BytecodeFunction) (s : LocalSlot) : VM W Unit := do
  let current ← slot s
  let info ← slotInfo f s
  if current.kind = .const ∧ current.initialized = true then
    Action.throw (.msg ("TypeError: Assignment to constant variable '" ++ info.name ++ "'"))
  else if current.initialized = false then Action.throw (deadZone info.name)
  else pure ()

/-- Read a slot that must have left its dead zone. -/
def liveSlot (f : BytecodeFunction) (s : LocalSlot) : VM W Value := do
  let current ← slot s
  if current.initialized = false then
    let info ← slotInfo f s
    Action.throw (deadZone info.name)
  else pure current.value

/-- Store into a slot and mark it initialized. -/
def initSlot (s : LocalSlot) (value : Value) : VM W Unit := do
  let current ← slot s
  setSlot s { current with value := value, initialized := true }

/-- `compound_slot`. -/
def compoundSlot (host : Host W) (f : BytecodeFunction) (s : LocalSlot) (op : AssignOp)
    (rhs : Reg) : VM W Value := do
  match op.binOp with
  | none => internal "plain `=` in compound slot"
  | some bin =>
    let current ← slot s
    (if current.initialized = false then checkSlotWritable f s else pure ())
    let rhs ← reg rhs
    let combined ← helper host (.applyBinary bin current.value rhs)
    checkSlotWritable f s
    initSlot s combined
    pure combined

/-! ## Calls -/

/-- `returns_call_result`: does the call result flow through moves and joins into a return? -/
def flowsToReturn (code : List Instr) : Nat → Nat → Reg → Bool
  | 0, _, _ => false
  | fuel + 1, ip, result =>
    match code[ip]? with
    | some (.return src) => src == result
    | some (.mov dst src) =>
      if src = result then flowsToReturn code fuel (ip + 1) dst
      else if dst = result then false
      else flowsToReturn code fuel (ip + 1) result
    | some (.jump target) => flowsToReturn code fuel target result
    | _ => false

def returnsCallResult (f : BytecodeFunction) (fr : CallFrame) (result : Reg) : Bool :=
  fr.handlers.isEmpty && flowsToReturn f.code f.code.length fr.ip result

/-- A call, handed to the caller's trampoline when its result is only returned. -/
def callOrTail (host : Host W) (f : BytecodeFunction) (dst : Reg) (callee this : Value)
    (args : List Value) : VM W Unit := do
  let tail ← helper host .tailCallContext
  let fr ← frame
  if tail = true ∧ returnsCallResult f fr dst = true then
    helper host (.requestTailCall callee this args)
  else
    let value ← helper host (.callThis callee this args)
    setReg dst value

/-- A call that may be a direct `eval`. -/
def evalOrCall (host : Host W) (f : BytecodeFunction) (dst : Reg) (callee this : Value)
    (args : List Value) : VM W Unit := do
  if ← helper host (.isIntrinsicEval callee) then
    let value ← helper host (.evalDirect args)
    setReg dst value
  else callOrTail host f dst callee this args

/-- An optional receiver register. -/
def receiverReg : Option Reg → VM W Value
  | some r => reg r
  | none => pure .undefined

/-! ## Templates -/

/-- `spread_template`. -/
def spreadTemplate (f : BytecodeFunction) (tmpl : Nat) : VM W (List SpreadEntry) := do
  match ← constant? f tmpl with
  | some (.spreadTemplate entries) => pure entries
  | _ => internal "bad spread template"

/-- The items of a spread snapshot. -/
def snapshotItems (host : Host W) (value : Value) : VM W (List Value) :=
  match value with
  | .ref .array _ => helper host (.arrayItems value)
  | _ => internal "spread snapshot is not an array"

/-- `push_call_arg` and `append_iterable`: grow a list up to the limit. -/
def pushAll (items more : List Value) (limit : String) : VM W (List Value) :=
  if maxArrayLen < items.length + more.length then Action.throw (limitErr limit)
  else pure (items ++ more)

/-- `spread_argv`. -/
def spreadArgv (host : Host W) (template : List SpreadEntry) : VM W (List Value) :=
  template.foldlM (fun argv entry => do
    let value ← reg entry.reg
    if entry.prepared then
      let items ← snapshotItems host value
      pushAll argv items "Maximum argument count exceeded"
    else if entry.spread then
      let items ← helper host (.drainIterable value)
      pushAll argv items "Maximum argument count exceeded"
    else pushAll argv [value] "Maximum argument count exceeded") []

/-- `spread_array`. -/
def spreadArray (host : Host W) (template : List SpreadEntry) : VM W Value := do
  let (items, present) ← template.foldlM (fun (acc : List Value × List Bool) entry => do
    let (items, present) := acc
    let value ← reg entry.reg
    if entry.elision then
      let items ← pushAll items [.undefined] "Maximum array length exceeded"
      pure (items, present ++ [false])
    else
      let more ← (if entry.prepared then snapshotItems host value
        else if entry.spread then helper host (.drainIterable value)
        else pure [value])
      let items ← pushAll items more "Maximum array length exceeded"
      pure (items, resize present items.length true)) ([], [])
  helper host (.checkedArrayWithPresence items present)

/-- The key of one object template entry. -/
def entryKey (host : Host W) (f : BytecodeFunction) : Option KeySrc → VM W String
  | none => internal "spread-shaped data entry"
  | some (.const index) => constString f index
  | some (.reg r) => do
      match ← reg r with
      | .string units => helper host (.objectKey (.string units))
      | .number bits => helper host (.objectKey (.number bits))
      | .symbol id => helper host (.objectKey (.symbol id))
      | _ => internal "object template key was not normalized"

/-- The entries an object literal collects, and its literal prototype. -/
structure LiteralParts where
  entries : List (String × Value × Option AccessorKind) := []
  prototype : Option Value := none

/-- How many different keys there are. -/
def LiteralParts.keyCount (parts : LiteralParts) : Nat :=
  (parts.entries.map Prod.fst).eraseDups.length

/-- The value of a method or accessor entry is rebound to the literal's home. -/
def entryValue (host : Host W) (home : Env) (kind : PropKind) (value : Value) : VM W Value :=
  match kind with
  | .method | .getter | .setter => helper host (.objectMethodWithHome value home)
  | .data | .prototype | .spread => pure value

/-- The accessor half an entry defines. -/
def PropKind.accessor : PropKind → Option AccessorKind
  | .getter => some .get
  | .setter => some .set
  | .data | .method | .prototype | .spread => none

/-- What one entry of an object literal adds. -/
def entryParts (host : Host W) (f : BytecodeFunction) (home : Env) (parts : LiteralParts)
    (entry : PropEntry) : VM W LiteralParts :=
  match entry.kind with
  | .prototype => do
      let value ← reg entry.val
      pure { parts with prototype := some value }
  | .spread => do
      let source ← reg entry.val
      let pairs ← helper host (.forEachSpreadEntry source)
      let entries ← pairs.foldlM (fun entries (pair : Value × Value) => do
        let key ← helper host (.objectKey pair.1)
        pure (entries ++ [(key, pair.2, none)])) parts.entries
      pure { parts with entries := entries }
  | kind => do
      let key ← entryKey host f entry.key
      let value ← reg entry.val
      let value ← entryValue host home kind value
      pure { parts with entries := parts.entries ++ [(key, value, kind.accessor)] }

/-- One entry of `build_object`. -/
def buildEntry (host : Host W) (f : BytecodeFunction) (home : Env) (parts : LiteralParts)
    (entry : PropEntry) : VM W LiteralParts := do
  let parts ← entryParts host f home parts entry
  if maxObjectProps < parts.keyCount then
    Action.throw (limitErr "Maximum object property count exceeded")
  else pure parts

/-- `build_object`. -/
def buildObject (host : Host W) (f : BytecodeFunction) (template : List PropEntry) :
    VM W Value := do
  let scope ← currentScope host
  let home ← helper host (.memberClosureEnv scope)
  let parts ← template.foldlM (buildEntry host f home) {}
  helper host (.finishObject parts.entries parts.prototype home)

/-! ## Functions and classes -/

/-- `make_function`: parameter names come from the leading slots of the code. -/
def makeFunction (host : Host W) (code : BytecodeFunction) (scope : Env)
    (name : Option String) : VM W Value := do
  note (.range 0 code.parameterCount code.slots.length)
  if code.parameterCount ≤ code.slots.length then
    helper host
      (.makeFunction code ((code.slots.take code.parameterCount).map SlotInfo.name) scope name)
  else Action.abort

/-- `class_function`. -/
def classFunction (host : Host W) (f : BytecodeFunction) (index : Nat) (closure : Env)
    (name : Option String) : VM W Value := do
  let closure ← helper host (.childScope closure)
  match ← constant? f index with
  | some (.function code) => makeFunction host code closure name
  | some (.astFunction ast) => helper host (.makeAstFunction ast closure name)
  | _ => internal "bad class function constant"

/-- The values of a decorator list. -/
def decoratorValues (decorators : List (Reg × Option Reg)) : VM W (List (Value × Value)) :=
  decorators.foldlM (fun values (decorator : Reg × Option Reg) => do
    let value ← reg decorator.1
    let receiver ← receiverReg decorator.2
    pure (values ++ [(value, receiver)])) []

/-- The value of a class member name. -/
def nameValue (host : Host W) : ClassNameTemplate → VM W Value
  | .static name => helper host (.fromKey name)
  | .priv name => helper host (.fromKey name)
  | .computed r => reg r

/-- Is the member private? -/
def ClassNameTemplate.isPrivate : ClassNameTemplate → Bool
  | .priv _ => true
  | _ => false

/-- The display name of a member whose name is computed. -/
def ClassNameTemplate.display (pre text : String) : ClassNameTemplate → Option String
  | .computed _ => some (pre ++ text)
  | _ => none

/-- The word a member kind puts before its function's name, and its missing-function error. -/
def ClassMemberKind.words : ClassMemberKind → String × String
  | .method => ("", "method without function")
  | .getter => ("get ", "accessor without function")
  | .setter => ("set ", "accessor without function")

/-- The backing storage of an auto-accessor is bound to the member's name. -/
def declareStorage (host : Host W) (scope : Env) (storage : Option String) (property : Value) :
    VM W Unit :=
  match storage with
  | some storage => helper host (.declareStorage scope storage property)
  | none => pure ()

/-- One member of `build_class_from_template`. -/
def buildMember (host : Host W) (f : BytecodeFunction) (template : ClassTemplate)
    (memberScope memberClosure staticClosure : Env) (methods : List ClassMethodDefinition)
    (member : ClassMemberTemplate) : VM W (List ClassMethodDefinition) := do
  let property ← nameValue host member.name
  declareStorage host memberScope member.autoAccessorStorage property
  (if member.isStatic = true ∧ member.name.isPrivate = false then
    helper host (.checkStaticMethodKey property)
  else pure ())
  let _ ← helper host (.propertyKey property)
  let text ← helper host (.propertyFunctionName property)
  match member.func with
  | none => internal member.kind.words.2
  | some func =>
    let closure := if member.isStatic then staticClosure else memberClosure
    let value ← classFunction host f func closure
      (member.name.display member.kind.words.1 text)
    let decorators ←
      (if template.hasMethodDecorators then decoratorValues member.decorators else pure [])
    let definition : ClassMethodDefinition := ⟨member, property, value, decorators⟩
    (if member.name.isPrivate then
      helper host (.defineClassPrivateElement memberScope definition)
    else pure ())
    pure (methods ++ [definition])

/-- One static element of `build_class_from_template`. -/
def buildStatic (host : Host W) (f : BytecodeFunction) (elements : List ClassStaticElement) :
    ClassStaticTemplate → VM W (List ClassStaticElement)
  | .block index => do
      match ← constant? f index with
      | some (.astFunction ast) => pure (elements ++ [.block ast.body])
      | _ => internal "bad class static block"
  | .field name init => do
      let key ← nameValue host name
      pure (elements ++ [.field key name.isPrivate init])

/-- One decorated field of `build_class_from_template`. -/
def buildField (host : Host W) (fields : List ClassFieldDefinition)
    (field : ClassFieldDecoratorTemplate) : VM W (List ClassFieldDefinition) := do
  let key ← nameValue host field.name
  let decorators ← decoratorValues field.decorators
  pure (fields ++ [⟨field, key, decorators⟩])

/-- An optional register. -/
def optReg : Option Reg → VM W (Option Value)
  | some r => do
      let v ← reg r
      pure (some v)
  | none => pure none

/-- Bind the computed instance-field keys into the constructor's scope, in field order. -/
def bindClassKeys (host : Host W) (scope : Env) : Nat → List Reg → VM W Unit
  | _, [] => pure ()
  | index, r :: rest => do
      let key ← reg r
      helper host (.setClassKey scope index key)
      bindClassKeys host scope (index + 1) rest

/-- `build_class_from_template`. -/
def buildClass (host : Host W) (f : BytecodeFunction) (template : ClassTemplate) :
    VM W Value := do
  let memberScope ← currentScope host
  let superCls ← optReg template.superclass
  let superProto ← optReg template.superProto
  let memberClosure ← helper host (.memberClosureEnv memberScope)
  let staticClosure ← helper host (.memberClosureEnv memberScope)
  let methods ← template.members.foldlM
    (buildMember host f template memberScope memberClosure staticClosure) []
  let ctorClosure ← helper host (.childScope memberClosure)
  bindClassKeys host ctorClosure 0 template.ctorComputedKeys
  let constructor ← classFunction host f template.ctorFunc ctorClosure none
  let staticElements ← template.blocks.foldlM (buildStatic host f) []
  let fields ← template.fieldDecorators.foldlM (buildField host) []
  let decorators ← decoratorValues template.decorators
  helper host (.assembleClass
    { template := template
      superCls := superCls
      superProto := superProto.filter fun v => v != .undefined
      constructor := constructor
      methods := methods
      staticElements := staticElements
      fields := fields
      decorators := decorators
      memberScope := memberScope })

/-! ## Property sites -/

/-- `get_prop_cached`: only some receivers reach the site's cache. -/
def getPropCached (host : Host W) (f : BytecodeFunction) (site : Nat) (obj key : Value) :
    VM W Value := do
  if ← helper host (.isCacheable obj key) then
    cache f site
    helper host (.getThroughCache site obj key)
  else helper host (.getPropValue obj key)

/-- `set_prop_cached`. -/
def setPropCached (host : Host W) (f : BytecodeFunction) (site : Nat) (obj key value : Value)
    (strict : Bool) : VM W Unit := do
  if ← helper host (.isCacheable obj key) then
    cache f site
    helper host (.setThroughCache site obj key value strict)
  else helper host (.assignPropertyWithReceiver obj key value obj strict)

/-- The old and the updated value of `++` and `--` on a slot; numbers take a fast path. -/
def slotUpdate (host : Host W) (value : Value) (increment : Bool) : VM W (Value × Value) :=
  match value with
  | .number bits => do
      let updated ← helper host (.numberStep bits increment)
      pure (.number bits, updated)
  | value => helper host (.numericUpdate value increment)

/-- The name of a class scope; an anonymous class has the empty one. -/
def scopeName (f : BytecodeFunction) : Option Nat → VM W String
  | some name => constString f name
  | none => pure ""

/-- The strictness of the running scope. -/
def scopeStrict (host : Host W) : VM W Bool := do
  let scope ← currentScope host
  helper host (.scopeStrict scope)

/-! ## Literals and patterns -/

/-- A fresh runtime value for a scalar constant. -/
def loadConstant (host : Host W) : Constant → VM W Value
  | .number bits => pure (.number bits)
  | .string units => pure (.string units)
  | .name text => helper host (.fromKey text)
  | .bool b => pure (.bool b)
  | .null => pure .null
  | .undefined => pure .undefined
  | .bigInt n => pure (.bigInt n)
  | .regex pattern flags => helper host (.compileRegex pattern flags)
  | _ => internal "invalid load_const"

/-- `to_destruct_array`. -/
def toDestructArray (host : Host W) (value : Value) : VM W Value := do
  match value with
  | .ref .array _ =>
    let items ← helper host (.arrayItems value)
    helper host (.newArray items)
  | .string _ =>
    let items ← helper host (.codePoints value)
    if maxArrayLen < items.length then
      Action.throw (limitErr "Maximum array length exceeded")
    else helper host (.newArray items)
  | _ => helper host (.newArray [])

/-- `check_destruct_object`. -/
def checkDestructObject (value : Value) : VM W Value :=
  match value with
  | .null => Action.throw (.msg "TypeError: Cannot destructure properties of null")
  | .undefined => Action.throw (.msg "TypeError: Cannot destructure properties of undefined")
  | _ => pure value

/-- `rest_object`. -/
def restObject (host : Host W) (source taken : Value) : VM W Value := do
  match taken with
  | .ref .array _ =>
    let taken ← helper host (.arrayItems taken)
    helper host (.copyDataProperties source taken)
  | _ => internal "rest key list of non-array"

end NapiVm
