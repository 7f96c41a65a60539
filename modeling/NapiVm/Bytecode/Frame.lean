import NapiVm.Bytecode.Function
import NapiVm.Lib.Action

/-!
# Call frames and the interpreter interface

`CallFrame`, its setup and recycling, and the primitive accesses of the dispatch
loop.

The interpreter helpers that an instruction calls are an interface: a `Host`
answers every call with any value or error, and may change its own world.  The
machine also carries a trace that no instruction reads.  It records every table
access with the size the table had, every jump and landing, and every internal
error raised.
-/

namespace NapiVm

/-- The address of a scope environment. -/
abbrev Env := Nat

/-! ## Frames -/

/-- One local slot at run time. -/
structure RunSlot where
  value : Value
  initialized : Bool
  kind : SlotKind
  deriving DecidableEq, Repr

/-- One pushed exception handler. -/
structure HandlerEntry where
  target : Target
  dst : Reg
  catchReturns : Bool
  scopeDepth : Nat
  pendingDepth : Nat
  enumeratorDepth : Nat
  deriving DecidableEq, Repr

/-- One activation of a bytecode function.  The stacks keep their top at the end. -/
structure CallFrame where
  ip : Nat
  registers : List Value
  slots : List RunSlot
  thisValue : Value
  handlers : List HandlerEntry
  pending : List VmErr
  enumerators : List (Reg × Nat)
  scopes : List Env
  deriving DecidableEq, Repr

/-- Reusable storage detached from a completed call frame. -/
structure ActivationBuffers where
  registers : List Value := []
  slots : List RunSlot := []
  handlers : List HandlerEntry := []
  pending : List VmErr := []
  enumerators : List (Reg × Nat) := []
  scopes : List Env := []
  deriving DecidableEq, Repr

namespace CallFrame

/-- The slot a declaration starts with. -/
def initialSlot (f : BytecodeFunction) (args : List Value) (index : Nat) (info : SlotInfo) :
    RunSlot :=
  if info.captured then ⟨.undefined, false, info.kind⟩
  else if index < f.parameterCount ∧ info.kind = .var then
    ⟨args[index]?.getD .undefined, true, info.kind⟩
  else if info.kind = .var then ⟨.undefined, true, info.kind⟩
  else ⟨.undefined, false, info.kind⟩

/-- `CallFrame::setup`. -/
def setup (f : BytecodeFunction) (buffers : ActivationBuffers) (thisValue : Value)
    (args : List Value) : CallFrame where
  ip := 0
  registers := resize buffers.registers f.registerCount .undefined
  slots := buffers.slots ++ f.slots.mapIdx (initialSlot f args)
  thisValue := thisValue
  handlers := buffers.handlers
  pending := buffers.pending
  enumerators := buffers.enumerators
  scopes := buffers.scopes

/-- `recycle_activation`: what a finished frame leaves for the pool. -/
def recycle (frame : CallFrame) : ActivationBuffers where
  registers := frame.registers.map fun _ => .undefined

end CallFrame

/-- The buffers a call may start from: fresh ones, or those a finished frame left. -/
inductive Recycled : ActivationBuffers → Prop where
  | fresh : Recycled {}
  | pooled (frame : CallFrame) : Recycled frame.recycle

/-! ## The interpreter interface -/

/-- The result of a name lookup. -/
inductive Lookup where
  | value (v : Value)
  | uninitialized
  | missing
  deriving DecidableEq, Repr, Inhabited

/-- The values of one class member, collected for the class builder. -/
structure ClassMethodDefinition where
  template : ClassMemberTemplate
  key : Value
  value : Value
  decorators : List (Value × Value)

/-- One static field or block, in source order. -/
inductive ClassStaticElement where
  | field (name : Value) (isPrivate : Bool) (init : AstRef)
  | block (body : AstRef)

/-- The values of one field definition. -/
structure ClassFieldDefinition where
  template : ClassFieldDecoratorTemplate
  key : Value
  decorators : List (Value × Value)

/-- What `assemble_class` receives. -/
structure ClassAssembly where
  template : ClassTemplate
  superCls : Option Value
  superProto : Option Value
  constructor : Value
  methods : List ClassMethodDefinition
  staticElements : List ClassStaticElement
  fields : List ClassFieldDefinition
  decorators : List (Value × Value)
  memberScope : Env

/-- The calls an instruction makes into the interpreter. -/
inductive Helper where
  | consumeFuel (cost : Nat)
  | consumeLoop
  | noteLoopIter
  | globalScope
  | childScope (parent : Env)
  | classEnvironment (parent : Env) (name : String)
  | scopeStrict (scope : Env)
  | compileRegex (pattern : List UInt16) (flags : String)
  | fromKey (text : String)
  | checkStaticMethodKey (key : Value)
  | readCallBinding (scope : Env) (name : String)
  | resolveAssignmentBinding (scope : Env) (name : String)
  | readAssignmentBinding (scope : Env) (name : String)
  | writeAssignmentBinding (base : Value) (isProperty : Bool) (name : String) (value : Value)
  | propertyKey (key : Value)
  | propertyFunctionName (key : Value)
  | ecmascriptToPropertyKey (key : Value)
  | getPrivateMember (scope : Env) (obj : Value) (name : String)
  | setPrivateMember (scope : Env) (obj : Value) (name : String) (value : Value)
  | hasPrivateMember (scope : Env) (obj : Value) (name : String)
  | getPropValue (obj key : Value)
  | getPropValueWithReceiver (base key receiver : Value)
  | assignPropertyWithReceiver (obj key value receiver : Value) (strict : Bool)
  | isCacheable (obj key : Value)
  | getThroughCache (site : Nat) (obj key : Value)
  | setThroughCache (site : Nat) (obj key value : Value) (strict : Bool)
  | lookupBinding (scope : Env) (name : String)
  | softLookup (scope : Env) (name : String)
  | assignOrSetBinding (scope : Env) (name : String) (value : Value)
  | declareBinding (scope : Env) (name : String) (value : Value) (kind : SlotKind)
      (initialized : Bool)
  | declareFunctionBinding (scope : Env) (name : String) (value : Value)
  | setBinding (scope : Env) (name : String) (value : Value)
  | initCompiledAnnex (scope : Env) (name : String)
  | updateCompiledAnnex (scope : Env) (name : String) (value : Value)
  | hoistVarBinding (scope : Env) (name : String)
  | deleteBinding (scope : Env) (name : String)
  | compoundAssignGlobal (scope : Env) (name : String) (op : AssignOp) (rhs : Value)
  | compoundAssignProp (obj key : Value) (op : BinOp) (rhs : Value)
  | incGlobalBinding (scope : Env) (name : String) (increment prefixed : Bool)
  | incPropValue (obj key : Value) (increment prefixed strict : Bool)
  | deleteMember (obj key : Value) (strict : Bool)
  | resolveThis (scope : Env)
  | unOp (op : UnOp) (value : Value)
  | concatStrings (lhs rhs : Value)
  | numberBinary (op : BinOp) (lhs rhs : UInt64)
  | applyBinary (op : BinOp) (lhs rhs : Value)
  | numberStep (bits : UInt64) (increment : Bool)
  | numericUpdate (value : Value) (increment : Bool)
  | truthy (value : Value)
  | prepareReturnValue (value : Value)
  | isIntrinsicEval (callee : Value)
  | evalDirect (args : List Value)
  | tailCallContext
  | requestTailCall (callee this : Value) (args : List Value)
  | callThis (callee this : Value) (args : List Value)
  | construct (callee : Value) (args : List Value)
  | invokeConstructor (callee this : Value) (args : List Value)
  | drainIterable (source : Value)
  | newArray (items : List Value)
  | checkedArray (items : List Value)
  | checkedArrayWithPresence (items : List Value) (present : List Bool)
  | arrayItems (array : Value)
  | codePoints (text : Value)
  | renderTemplate (quasis : List (List UInt16)) (values : List Value)
  | cachedTemplateObject (site : Nat)
  | cacheTemplateObject (site : Nat) (cooked raw : Value)
  | normalKey (value : Value)
  | copyDataProperties (source : Value) (taken : List Value)
  | memberClosureEnv (scope : Env)
  | forEachSpreadEntry (source : Value)
  | objectKey (key : Value)
  | objectMethodWithHome (value : Value) (home : Env)
  | finishObject (entries : List (String × Value × Option AccessorKind)) (prototype : Option Value)
      (home : Env)
  | makeFunction (code : BytecodeFunction) (params : List String) (scope : Env)
      (name : Option String)
  | makeAstFunction (ast : AstFunction) (scope : Env) (name : Option String)
  | newEnumerator (source : Value)
  | nextKey (enumerator : Nat)
  | iteratorFor (source : Value)
  | member (value : Value) (name : String)
  | iteratorResultFields (result : Value)
  | closeGuestIterator (iterator : Value)
  | closeGuestIteratorForAbrupt (iterator : Value) (completion : VmErr)
  | superReference (scope : Env) (key : Value)
  | superConstructor (scope : Env)
  | applyInferredName (value key : Value)
  | declarePrivateDeclarations (scope : Env) (names : List (List UInt16))
  | superProtoFor (superclass : Value)
  | declareStorage (scope : Env) (name : String) (value : Value)
  | defineClassPrivateElement (scope : Env) (definition : ClassMethodDefinition)
  | setClassKey (scope : Env) (index : Nat) (key : Value)
  | assembleClass (assembly : ClassAssembly)
  | stmtImport (template : ImportTemplate)
  | stmtExportDefault (value : Value)
  | stmtExportNamed (template : ExportNamedTemplate)
  | stmtExportAll (template : ExportAllTemplate)
  | evalDynamicImport (specifier : Value)
  | performAwait (value : Value)
  | newTarget
  | evalImportMeta
  | errorValue (error : VmErr)

/-- What a call returns when it succeeds. -/
@[reducible] def Helper.Reply : Helper → Type
  | .consumeFuel .. | .consumeLoop | .noteLoopIter | .checkStaticMethodKey ..
  | .writeAssignmentBinding .. | .setPrivateMember .. | .assignPropertyWithReceiver ..
  | .setThroughCache .. | .assignOrSetBinding .. | .declareBinding ..
  | .declareFunctionBinding .. | .setBinding .. | .initCompiledAnnex .. | .hoistVarBinding ..
  | .requestTailCall .. | .closeGuestIterator .. | .closeGuestIteratorForAbrupt ..
  | .declarePrivateDeclarations .. | .declareStorage .. | .defineClassPrivateElement ..
  | .setClassKey .. | .stmtImport .. | .stmtExportDefault .. | .stmtExportNamed ..
  | .stmtExportAll .. => Unit
  | .globalScope | .childScope .. | .classEnvironment .. | .memberClosureEnv .. => Env
  | .scopeStrict .. | .isCacheable .. | .updateCompiledAnnex .. | .truthy ..
  | .isIntrinsicEval .. | .tailCallContext => Bool
  | .propertyKey .. | .propertyFunctionName .. | .objectKey .. => String
  | .lookupBinding .. => Lookup
  | .softLookup .. | .numberBinary .. | .cachedTemplateObject .. | .superProtoFor .. =>
    Option Value
  | .readCallBinding .. | .numericUpdate .. => Value × Value
  | .resolveAssignmentBinding .. => Value × Bool
  | .readAssignmentBinding .. => Value × Bool × Value
  | .superReference .. => Value × Value × Value
  | .iteratorResultFields .. => Bool × Value
  | .drainIterable .. | .arrayItems .. | .codePoints .. => List Value
  | .forEachSpreadEntry .. => List (Value × Value)
  | .newEnumerator .. => Nat
  | .nextKey .. => Option String
  | _ => Value

/-- The interpreter around the machine: each call changes the world and returns
a reply or an error. -/
def Host (W : Type) : Type := (h : Helper) → W → Except VmErr h.Reply × W

/-! ## The machine -/

/-- The tables an index refers to. -/
inductive Table where
  | register | slot | slotInfo | constant | cache
  deriving DecidableEq, Repr

/-- What the trace records. -/
inductive Event where
  | use (table : Table) (index size : Nat)
  | range (start stop size : Nat)
  | land (target size : Nat)
  | internal (what : String)
  deriving DecidableEq, Repr

/-- A frame, the interpreter around it, and the trace. -/
structure Machine (W : Type) where
  frame : CallFrame
  world : W
  trace : List Event := []

/-- Code of the dispatch loop. -/
abbrev VM (W α : Type) := Action (Machine W) VmErr α

namespace VM

variable {W : Type}

def note (e : Event) : VM W Unit := Action.modify fun m => { m with trace := e :: m.trace }

def frame : VM W CallFrame := do
  let m ← Action.get
  pure m.frame

def modifyFrame (g : CallFrame → CallFrame) : VM W Unit :=
  Action.modify fun m => { m with frame := g m.frame }

/-- A call into the interpreter. -/
def helper (host : Host W) (h : Helper) : VM W h.Reply := fun m =>
  match host h m.world with
  | (.ok reply, w) => (.ok reply, { m with world := w })
  | (.error e, w) => (.err e, { m with world := w })

/-- `internal(..)` as an error. -/
def internal {α : Type} (what : String) : VM W α := do
  note (.internal what)
  Action.throw (.msg ("internal error: " ++ what))

/-- Index a table: record the use, and panic outside it. -/
def index {α : Type} (table : Table) (l : List α) (i : Nat) : VM W α := do
  note (.use table i l.length)
  match l[i]? with
  | some a => pure a
  | none => Action.abort

/-- `frame.registers[r]`, read. -/
def reg (r : Reg) : VM W Value := do
  let fr ← frame
  index .register fr.registers r

/-- `frame.registers[r] = v`. -/
def setReg (r : Reg) (v : Value) : VM W Unit := do
  let fr ← frame
  let _ ← index .register fr.registers r
  modifyFrame fun fr => { fr with registers := fr.registers.set r v }

/-- `frame.slots[s]`, read. -/
def slot (s : LocalSlot) : VM W RunSlot := do
  let fr ← frame
  index .slot fr.slots s

/-- `frame.slots[s] = ..`. -/
def setSlot (s : LocalSlot) (v : RunSlot) : VM W Unit := do
  let fr ← frame
  let _ ← index .slot fr.slots s
  modifyFrame fun fr => { fr with slots := fr.slots.set s v }

/-- `frame.function.slots[s]`. -/
def slotInfo (f : BytecodeFunction) (s : LocalSlot) : VM W SlotInfo := index .slotInfo f.slots s

/-- `frame.function.constants[i]`. -/
def constant (f : BytecodeFunction) (i : Nat) : VM W Constant := index .constant f.constants i

/-- `frame.function.constants.get(i)`. -/
def constant? (f : BytecodeFunction) (i : Nat) : VM W (Option Constant) := do
  note (.use .constant i f.constants.length)
  pure f.constants[i]?

/-- `function.caches[site]`. -/
def cache (f : BytecodeFunction) (site : Nat) : VM W Unit := do
  note (.use .cache site f.caches)
  if site < f.caches then pure () else Action.abort

/-- Set the instruction pointer to a jump target. -/
def jumpTo (f : BytecodeFunction) (target : Target) : VM W Unit := do
  note (.land target f.code.length)
  modifyFrame fun fr => { fr with ip := target }

/-- `frame.registers.get(start..start + count)`. -/
def registerRange (start : Reg) (count : Nat) (what : String) : VM W (List Value) := do
  let fr ← frame
  note (.range start (start + count) fr.registers.length)
  if start + count ≤ fr.registers.length then pure ((fr.registers.drop start).take count)
  else internal what

/-- `borrow_range`. -/
def borrowRange (start : Reg) (count : Nat) : VM W (List Value) :=
  registerRange start count "bad argument range"

/-- `take_range`. -/
def takeRange (start : Reg) (count : Nat) : VM W (List Value) :=
  registerRange start count "operand range out of bounds"

/-- `const_string`. -/
def constString (f : BytecodeFunction) (i : Nat) : VM W String := do
  match ← constant? f i with
  | some (.name text) => pure text
  | _ => internal "bad string constant"

/-- `current_scope`. -/
def currentScope (host : Host W) : VM W Env := do
  let fr ← frame
  match fr.scopes.getLast? with
  | some scope => pure scope
  | none => helper host .globalScope

end VM

end NapiVm
