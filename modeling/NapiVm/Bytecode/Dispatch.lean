import NapiVm.Bytecode.Exec
import NapiVm.Lib.Run

/-!
# The dispatch loop

`execute_instruction`, `land_handler` and `run_loop`.  A run is a sequence of
`LoopStep`s; each fetches one instruction, executes it, and routes an error to
the innermost handler that takes it.
-/

namespace NapiVm

open VM

variable {W : Type}

/-- What one instruction does once its fuel is paid and the pointer has advanced. -/
def execBody (host : Host W) (f : BytecodeFunction) : Instr → VM W Unit
  | .loadConst dst cst => do
      let value ← loadConstant host (← constant f cst)
      setReg dst value
  | .mov dst src => do
      setReg dst (← reg src)
  | .loadLocal dst s => do
      setReg dst (← liveSlot f s)
  | .storeLocal s src => do
      checkSlotWritable f s
      initSlot s (← reg src)
  | .declareLocal s kind initialized => setSlot s ⟨.undefined, initialized, kind⟩
  | .initLocal s src => do
      initSlot s (← reg src)
  | .checkClassStaticKey key => do
      helper host (.checkStaticMethodKey (← reg key))
  | .loadCallBinding dst receiver name => do
      let name ← constString f name
      let (value, this) ← helper host (.readCallBinding (← currentScope host) name)
      setReg dst value
      setReg receiver this
  | .resolveAssignmentBinding base property name => do
      let name ← constString f name
      let (target, isProperty) ←
        helper host (.resolveAssignmentBinding (← currentScope host) name)
      setReg base target
      setReg property (.bool isProperty)
  | .readAssignmentBinding dst base property name => do
      let name ← constString f name
      let (target, isProperty, value) ←
        helper host (.readAssignmentBinding (← currentScope host) name)
      setReg base target
      setReg property (.bool isProperty)
      setReg dst value
  | .writeAssignmentBinding base property name src => do
      let base ← reg base
      let isProperty ← helper host (.truthy (← reg property))
      let name ← constString f name
      helper host (.writeAssignmentBinding base isProperty name (← reg src))
  | .writeAssignmentProperty obj key src isPrivate => do
      if isPrivate then
        let name ← helper host (.propertyKey (← reg key))
        helper host (.setPrivateMember (← currentScope host) (← reg obj) name (← reg src))
      else
        let strict ← scopeStrict host
        let obj ← reg obj
        helper host (.assignPropertyWithReceiver obj (← reg key) (← reg src) obj strict)
  | .loadGlobal dst name => do
      let name ← constString f name
      match ← helper host (.lookupBinding (← currentScope host) name) with
      | .value v => setReg dst v
      | .uninitialized => Action.throw (deadZone name)
      | .missing =>
        if name = "undefined" then setReg dst .undefined
        else Action.throw (.msg ("ReferenceError: " ++ name ++ " is not defined"))
  | .storeGlobal name src => do
      let name ← constString f name
      let value ← reg src
      helper host (.assignOrSetBinding (← currentScope host) name value)
  | .defineGlobal name src kind initialized => do
      let name ← constString f name
      let value ← reg src
      helper host (.declareBinding (← currentScope host) name value kind initialized)
  | .initGlobal name src function => do
      let name ← constString f name
      let value ← reg src
      let scope ← currentScope host
      if function then helper host (.declareFunctionBinding scope name value)
      else helper host (.setBinding scope name value)
  | .annexBInit name => do
      let name ← constString f name
      helper host (.initCompiledAnnex (← currentScope host) name)
  | .annexBUpdate name src s => do
      let name ← constString f name
      let scope ← currentScope host
      let value ← reg src
      let update ← helper host (.updateCompiledAnnex scope name value)
      match s with
      | some s => if update then initSlot s value else pure ()
      | none => pure ()
  | .hoistVarGlobal name => do
      let name ← constString f name
      helper host (.hoistVarBinding (← currentScope host) name)
  | .bareVarLocal s => do
      let _ ← liveSlot f s
  | .bareVarGlobal name => do
      let name ← constString f name
      let scope ← helper host .globalScope
      match ← helper host (.softLookup scope name) with
      | some _ => pure ()
      | none => helper host (.assignOrSetBinding scope name .undefined)
  | .loadThis dst => do
      let fr ← frame
      setReg dst fr.thisValue
  | .loadGlobalThis dst => do
      let value ← helper host (.resolveThis (← currentScope host))
      setReg dst value
  | .typeofGlobal dst name => do
      let name ← constString f name
      match ← helper host (.lookupBinding (← currentScope host) name) with
      | .value v => setReg dst (← helper host (.unOp .typeof v))
      | .missing => setReg dst (← helper host (.unOp .typeof .undefined))
      | .uninitialized => Action.throw (deadZone name)
  | .typeofLocal dst s => do
      let value ← liveSlot f s
      setReg dst (← helper host (.unOp .typeof value))
  | .binary dst op lhs rhs => do
      let l ← reg lhs
      let r ← reg rhs
      match op, l, r with
      | .add, .string a, .string b =>
        setReg dst (← helper host (.concatStrings (.string a) (.string b)))
      | op, .number a, .number b =>
        match ← helper host (.numberBinary op a b) with
        | some value => setReg dst value
        | none => setReg dst (← helper host (.applyBinary op (.number a) (.number b)))
      | op, l, r => setReg dst (← helper host (.applyBinary op l r))
  | .unary dst op src => do
      let v ← reg src
      setReg dst (← helper host (.unOp op v))
  | .compoundLocal dst s op rhs => do
      setReg dst (← compoundSlot host f s op rhs)
  | .compoundGlobal dst name op rhs => do
      let name ← constString f name
      let rhs ← reg rhs
      setReg dst (← helper host (.compoundAssignGlobal (← currentScope host) name op rhs))
  | .compoundProp dst obj key op rhs => do
      match op.binOp with
      | none => internal "plain `=` in compound prop"
      | some bin =>
        let obj ← reg obj
        let key ← reg key
        let rhs ← reg rhs
        setReg dst (← helper host (.compoundAssignProp obj key bin rhs))
  | .incLocal dst s delta prefixed => do
      checkSlotWritable f s
      let current ← slot s
      let (old, updated) ← slotUpdate host current.value (0 < delta)
      initSlot s updated
      setReg dst (if prefixed then updated else old)
  | .incGlobal dst name delta prefixed => do
      let name ← constString f name
      let scope ← currentScope host
      setReg dst (← helper host (.incGlobalBinding scope name (0 < delta) prefixed))
  | .incProp dst obj key delta prefixed => do
      let strict ← scopeStrict host
      let obj ← reg obj
      let key ← reg key
      setReg dst (← helper host (.incPropValue obj key (0 < delta) prefixed strict))
  | .delProp dst obj key => do
      let obj ← reg obj
      let key ← reg key
      let strict ← scopeStrict host
      setReg dst (← helper host (.deleteMember obj key strict))
  | .delGlobal dst name => do
      let name ← constString f name
      setReg dst (← helper host (.deleteBinding (← currentScope host) name))
  | .jump target => jumpTo f target
  | .jumpIfTrue src target => do
      if ← helper host (.truthy (← reg src)) then jumpTo f target else pure ()
  | .jumpIfFalse src target => do
      if ← helper host (.truthy (← reg src)) then pure () else jumpTo f target
  | .jumpIfNullish src target => do
      match ← reg src with
      | .null => jumpTo f target
      | .undefined => jumpTo f target
      | _ => pure ()
  | .jumpIfNotNullish src target => do
      match ← reg src with
      | .null => pure ()
      | .undefined => pure ()
      | _ => jumpTo f target
  | .loopHead => do
      helper host .consumeLoop
      helper host .noteLoopIter
  | .return src => do
      let value ← helper host (.prepareReturnValue (← reg src))
      Action.throw (.ret value)
  | .returnUndefined => Action.throw (.ret .undefined)
  | .throw src => do
      let value ← reg src
      Action.throw (.throw value)
  | .getProp isPrivate site dst obj key => do
      if isPrivate then
        let name ← helper host (.propertyKey (← reg key))
        let scope ← currentScope host
        setReg dst (← helper host (.getPrivateMember scope (← reg obj) name))
      else
        let obj ← reg obj
        let key ← reg key
        setReg dst (← getPropCached host f site obj key)
  | .setProp site obj key val => do
      let val ← reg val
      let strict ← scopeStrict host
      let obj ← reg obj
      setPropCached host f site obj (← reg key) val strict
  | .directEval dst callee this args argc => do
      let argv ← takeRange args argc
      let callee ← reg callee
      evalOrCall host f dst callee (← receiverReg this) argv
  | .directEvalSpread dst callee this tmpl => do
      let argv ← spreadArgv host (← spreadTemplate f tmpl)
      let callee ← reg callee
      evalOrCall host f dst callee (← receiverReg this) argv
  | .call dst callee args argc => do
      let argv ← borrowRange args argc
      callOrTail host f dst (← reg callee) .undefined argv
  | .callMethod dst callee this args argc => do
      let argv ← borrowRange args argc
      let this ← reg this
      callOrTail host f dst (← reg callee) this argv
  | .construct dst callee args argc => do
      let argv ← takeRange args argc
      let callee ← reg callee
      setReg dst (← helper host (.construct callee argv))
  | .expandSpread dst src => do
      let values ← helper host (.drainIterable (← reg src))
      setReg dst (← helper host (.checkedArray values))
  | .constructSpread dst callee tmpl => do
      let argv ← spreadArgv host (← spreadTemplate f tmpl)
      let callee ← reg callee
      setReg dst (← helper host (.construct callee argv))
  | .callSpread dst callee tmpl => do
      let argv ← spreadArgv host (← spreadTemplate f tmpl)
      callOrTail host f dst (← reg callee) .undefined argv
  | .methodSpread dst callee this tmpl => do
      let argv ← spreadArgv host (← spreadTemplate f tmpl)
      let callee ← reg callee
      callOrTail host f dst callee (← reg this) argv
  | .buildArray dst tmpl => do
      setReg dst (← spreadArray host (← spreadTemplate f tmpl))
  | .toDestructArray dst src => do
      setReg dst (← toDestructArray host (← reg src))
  | .restArray dst src start => do
      match ← reg src with
      | .ref .array addr =>
        let items ← helper host (.arrayItems (.ref .array addr))
        setReg dst (← helper host (.newArray (items.drop start)))
      | _ => internal "rest of non-array"
  | .checkDestructObject dst src => do
      setReg dst (← checkDestructObject (← reg src))
  | .restObject dst src taken => do
      let source ← reg src
      let taken ← reg taken
      setReg dst (← restObject host source taken)
  | .newObject _ | .setOwnProp _ _ _ => internal "incremental object construction is retired"
  | .normalKey dst src => do
      let value ← reg src
      setReg dst (← helper host (.normalKey value))
  | .loadGlobalSoft dst name => do
      let name ← constString f name
      let value ← helper host (.softLookup (← currentScope host) name)
      setReg dst (value.getD .undefined)
  | .loadLocalSoft dst s => do
      let current ← slot s
      setReg dst (if current.initialized then current.value else .undefined)
  | .buildObject dst tmpl => do
      match ← constant f tmpl with
      | .objectTemplate entries => setReg dst (← buildObject host f entries)
      | _ => internal "bad object template"
  | .loadTemplate dst site => do
      let value ← helper host (.cachedTemplateObject site)
      setReg dst (value.getD .undefined)
  | .freezeTemplate site cooked raw => do
      let raw ← reg raw
      match ← reg cooked with
      | .ref .array addr =>
        setReg cooked (← helper host (.cacheTemplateObject site (.ref .array addr) raw))
      | _ => internal "template object is not an array"
  | .newArray dst args argc => do
      let items ← takeRange args argc
      setReg dst (← helper host (.checkedArray items))
  | .makeFunction dst func => do
      match ← constant f func with
      | .function code => setReg dst (← makeFunction host code (← currentScope host) none)
      | _ => internal "bad function constant"
  | .makeAstFunction dst ast => do
      match ← constant f ast with
      | .astFunction ast =>
        setReg dst (← helper host (.makeAstFunction ast (← currentScope host) none))
      | _ => internal "bad ast-function constant"
  | .template dst quasis args argc => do
      match ← constant f quasis with
      | .stringList chunks =>
        let values ← takeRange args argc
        setReg dst (← helper host (.renderTemplate chunks values))
      | _ => internal "bad template constant"
  | .enumKeys dst src => do
      let source ← reg src
      let enumerator ← helper host (.newEnumerator source)
      modifyFrame fun fr => { fr with enumerators := fr.enumerators ++ [(dst, enumerator)] }
  | .enumNext state dst done => do
      let fr ← frame
      match fr.enumerators.getLast? with
      | none => internal "missing for-in enumerator"
      | some (register, enumerator) =>
        if register ≠ state then internal "for-in enumerator mismatch"
        else
          match ← helper host (.nextKey enumerator) with
          | none =>
            setReg done (.bool true)
            setReg dst .undefined
          | some key =>
            setReg done (.bool false)
            setReg dst (← helper host (.fromKey key))
  | .enumEnd state => do
      let fr ← frame
      match fr.enumerators.getLast? with
      | none => internal "missing for-in enumerator"
      | some (register, _) =>
        modifyFrame fun fr => { fr with enumerators := fr.enumerators.dropLast }
        if register ≠ state then internal "for-in enumerator mismatch" else pure ()
  | .forOfInit iter next src => do
      let iterator ← helper host (.iteratorFor (← reg src))
      let nextFn ← helper host (.member iterator "next")
      if nextFn = .undefined then
        Action.throw (.msg "TypeError: iterator has no next() method")
      else
        setReg iter iterator
        setReg next nextFn
  | .iterNext done value iter next => do
      let iterator ← reg iter
      let nextFn ← reg next
      let result ← helper host (.callThis nextFn iterator [])
      let (finished, produced) ← helper host (.iteratorResultFields result)
      setReg done (.bool finished)
      setReg value produced
  | .closeIterator src unwind => do
      let iterator ← reg src
      if unwind then
        let fr ← frame
        match fr.pending.getLast? with
        | none => internal "iterator unwind without a pending completion"
        | some completion => helper host (.closeGuestIteratorForAbrupt iterator completion)
      else helper host (.closeGuestIterator iterator)
  | .pushCatch target dst =>
    modifyFrame fun fr =>
      { fr with
        handlers := fr.handlers ++ [⟨target, dst, false, fr.scopes.length, fr.pending.length,
          fr.enumerators.length⟩] }
  | .pushFinally target dst =>
    modifyFrame fun fr =>
      { fr with
        handlers := fr.handlers ++ [⟨target, dst, true, fr.scopes.length, fr.pending.length,
          fr.enumerators.length⟩] }
  | .pushScope => do
      let scope ← helper host (.childScope (← currentScope host))
      modifyFrame fun fr => { fr with scopes := fr.scopes ++ [scope] }
  | .popScope => do
      let fr ← frame
      if fr.scopes = [] then internal "scope stack underflow"
      else modifyFrame fun fr => { fr with scopes := fr.scopes.dropLast }
  | .popHandler => do
      let fr ← frame
      if fr.handlers = [] then internal "handler stack underflow"
      else modifyFrame fun fr => { fr with handlers := fr.handlers.dropLast }
  | .popPending => do
      let fr ← frame
      if fr.pending = [] then internal "pending completion stack underflow"
      else modifyFrame fun fr => { fr with pending := fr.pending.dropLast }
  | .rethrow => do
      let fr ← frame
      match fr.pending.getLast? with
      | some error =>
        modifyFrame fun fr => { fr with pending := fr.pending.dropLast }
        Action.throw error
      | none => internal "rethrow without a pending error"
  | .superMember dst key => do
      let scope ← currentScope host
      let (base, receiver, key) ← helper host (.superReference scope (← reg key))
      setReg dst (← helper host (.getPropValueWithReceiver base key receiver))
  | .superReference base receiver key src => do
      let source ← reg src
      let reference ← helper host (.superReference (← currentScope host) source)
      setReg base reference.1
      setReg receiver reference.2.1
      setReg key reference.2.2
  | .getPropertyWithReceiver dst base receiver key => do
      let base ← reg base
      let key ← reg key
      let receiver ← reg receiver
      setReg dst (← helper host (.getPropValueWithReceiver base key receiver))
  | .setPropertyWithReceiver base receiver key value => do
      let base ← reg base
      let key ← reg key
      let value ← reg value
      let receiver ← reg receiver
      let strict ← scopeStrict host
      helper host (.assignPropertyWithReceiver base key value receiver strict)
  | .numericUpdate previous updated src increment => do
      let result ← helper host (.numericUpdate (← reg src) increment)
      setReg previous result.1
      setReg updated result.2
  | .superConstructor dst => do
      setReg dst (← helper host (.superConstructor (← currentScope host)))
  | .superCall dst callee args argc => do
      let target ← reg callee
      let argv ← takeRange args argc
      setReg dst (← helper host (.invokeConstructor target .undefined argv))
  | .superCallSpread dst callee tmpl => do
      let target ← reg callee
      let argv ← spreadArgv host (← spreadTemplate f tmpl)
      setReg dst (← helper host (.invokeConstructor target .undefined argv))
  | .raise msg => do
      let message ← constString f msg
      Action.throw (.msg message)
  | .buildClass dst tmpl => do
      match ← constant f tmpl with
      | .classTemplate template => setReg dst (← buildClass host f template)
      | _ => internal "bad class template"
  | .propertyKey dst src => do
      let key ← reg src
      setReg dst (← helper host (.ecmascriptToPropertyKey key))
  | .inferName dst key => do
      let key ← reg key
      let value ← reg dst
      setReg dst (← helper host (.applyInferredName value key))
  | .classScope name => do
      let name ← scopeName f name
      let scope ← helper host (.classEnvironment (← currentScope host) name)
      modifyFrame fun fr => { fr with scopes := fr.scopes ++ [scope] }
  | .classPrivateEnvironment names => do
      match ← constant f names with
      | .stringList names => helper host (.declarePrivateDeclarations (← currentScope host) names)
      | _ => internal "bad private declaration list"
  | .classHeritage dst superclass => do
      let superclass ← reg superclass
      let proto ← helper host (.superProtoFor superclass)
      setReg dst (proto.getD .undefined)
  | .privateIn dst obj name => do
      let name ← constString f name
      let scope ← currentScope host
      setReg dst (← helper host (.hasPrivateMember scope (← reg obj) name))
  | .import tmpl => do
      match ← constant f tmpl with
      | .importTemplate template => helper host (.stmtImport template)
      | _ => internal "bad import template"
  | .exportDefault src => do
      helper host (.stmtExportDefault (← reg src))
  | .exportNamed tmpl => do
      match ← constant f tmpl with
      | .exportNamedTemplate template => helper host (.stmtExportNamed template)
      | _ => internal "bad export template"
  | .exportAll tmpl => do
      match ← constant f tmpl with
      | .exportAllTemplate template => helper host (.stmtExportAll template)
      | _ => internal "bad export template"
  | .dynamicImport dst src => do
      let specifier ← reg src
      setReg dst (← helper host (.evalDynamicImport specifier))
  | .await dst src => do
      let value ← reg src
      setReg dst (← helper host (.performAwait value))
  | .newTarget dst => do
      setReg dst (← helper host .newTarget)
  | .importMeta dst => do
      setReg dst (← helper host .evalImportMeta)

/-- `execute_instruction`. -/
def executeInstruction (host : Host W) (f : BytecodeFunction) (instr : Instr) : VM W Unit := do
  helper host (.consumeFuel instr.cost)
  modifyFrame fun fr => { fr with ip := fr.ip + 1 }
  execBody host f instr

/-! ## Handlers -/

/-- The errors a handler may take. -/
def VmErr.catchable : VmErr → Bool
  | .throw _ | .msg _ | .runtimeError _ | .ret _ => true
  | _ => false

/-- Is the error an unwinding `return`? -/
def VmErr.isRet : VmErr → Bool
  | .ret _ => true
  | _ => false

/-- Pop handlers up to the innermost that takes the error: a `return` passes
over the catch handlers.  The list has its top first. -/
def popTo (isRet : Bool) : List HandlerEntry → Option (HandlerEntry × List HandlerEntry)
  | [] => none
  | entry :: rest => if isRet && !entry.catchReturns then popTo isRet rest else some (entry, rest)

/-- The value a handler receives. -/
def landingValue (host : Host W) (error : VmErr) : VM W Value :=
  match error with
  | .throw value => pure value
  | .ret _ => pure .undefined
  | error => helper host (.errorValue error)

/-- `land_handler`. -/
def landHandler (host : Host W) (f : BytecodeFunction) (error : VmErr) : VM W Unit := do
  if error.catchable then
    let fr ← frame
    match popTo error.isRet fr.handlers.reverse with
    | none =>
      modifyFrame fun fr => { fr with handlers := [] }
      Action.throw error
    | some (entry, rest) =>
      modifyFrame fun fr => { fr with handlers := rest.reverse }
      let value ← landingValue host error
      setReg entry.dst value
      modifyFrame fun fr =>
        { fr with
          pending := fr.pending.take entry.pendingDepth ++
            if entry.catchReturns then [error] else []
          enumerators := fr.enumerators.take entry.enumeratorDepth
          scopes := fr.scopes.take entry.scopeDepth }
      jumpTo f entry.target
  else Action.throw error

/-! ## Runs -/

/-- What the loop does next. -/
inductive Status where
  | running
  | returned (value : Value)
  | raised (error : VmErr)
  | panicked
  deriving DecidableEq, Repr

/-- A state of the loop. -/
structure LoopState (W : Type) where
  machine : Machine W
  status : Status

/-- The loop goes on after a landing, and leaves with an error no handler took. -/
def afterLanding : Outcome VmErr Unit × Machine W → LoopState W
  | (.ok (), m) => ⟨m, .running⟩
  | (.err e, m) => ⟨m, .raised e⟩
  | (.panic, m) => ⟨m, .panicked⟩

/-- The loop goes on after an instruction that returned, and hands its error to the handlers. -/
def afterInstruction (host : Host W) (f : BytecodeFunction) :
    Outcome VmErr Unit × Machine W → LoopState W
  | (.ok (), m) => ⟨m, .running⟩
  | (.err e, m) => afterLanding (landHandler host f e m)
  | (.panic, m) => ⟨m, .panicked⟩

/-- One round of `run_loop`. -/
def loopRound (host : Host W) (f : BytecodeFunction) (topLevel : Bool) (m : Machine W) :
    LoopState W :=
  match f.code[m.frame.ip]? with
  | some instr => afterInstruction host f (executeInstruction host f instr m)
  | none =>
    if m.frame.ip = f.code.length then
      ⟨m, .returned (if topLevel then m.frame.registers.head?.getD .undefined else .undefined)⟩
    else afterLanding (internal "instruction pointer out of bounds" m)

/-- The loop takes rounds while it runs. -/
inductive LoopStep (host : Host W) (f : BytecodeFunction) (topLevel : Bool) :
    LoopState W → LoopState W → Prop where
  | round (m : Machine W) : LoopStep host f topLevel ⟨m, .running⟩ (loopRound host f topLevel m)

/-- `run_loop`, for at most `fuel` rounds. -/
def runLoop (host : Host W) (f : BytecodeFunction) (topLevel : Bool) :
    Nat → LoopState W → LoopState W
  | 0, s => s
  | fuel + 1, ⟨m, .running⟩ => runLoop host f topLevel fuel (loopRound host f topLevel m)
  | _ + 1, s => s

/-- A call starts from a frame set up over recycled buffers, with any world. -/
inductive CallStart (f : BytecodeFunction) : LoopState W → Prop where
  | call (buffers : ActivationBuffers) (h : Recycled buffers) (thisValue : Value)
      (args : List Value) (world : W) :
      CallStart f ⟨{ frame := CallFrame.setup f buffers thisValue args, world := world }, .running⟩

/-- The states of the runs of a function. -/
def RunOf (host : Host W) (f : BytecodeFunction) (topLevel : Bool) : LoopState W → Prop :=
  Reachable (CallStart f) (LoopStep host f topLevel)

theorem RunOf.runLoop {host : Host W} {f : BytecodeFunction} {topLevel : Bool} {s : LoopState W}
    (h : RunOf host f topLevel s) (fuel : Nat) :
    RunOf host f topLevel (runLoop host f topLevel fuel s) := by
  induction fuel generalizing s with
  | zero => exact h
  | succ fuel ih =>
    obtain ⟨m, status⟩ := s
    cases status with
    | running => exact ih (Reachable.next h (.round m))
    | returned v => exact h
    | raised e => exact h
    | panicked => exact h

end NapiVm
