import NapiVm.Bytecode.Function

/-!
# The bytecode verifier

`verify.rs`: every compiled function passes `verifyFunction` before it can run.
The checks of one instruction are made in source order and stop at the first
defect.
-/

namespace NapiVm

/-- What a constant-pool operand has to be. -/
inductive ConstantClass where
  | scalar | string | stringList | function | astFunction | objectTemplate | spreadTemplate
  | classTemplate | importTemplate | exportNamedTemplate | exportAllTemplate
  deriving DecidableEq, Repr

/-- The text the verifier names a class by. -/
def ConstantClass.text : ConstantClass → String
  | .scalar => "scalar"
  | .string => "string"
  | .stringList => "string-list"
  | .function => "function"
  | .astFunction => "ast-function"
  | .objectTemplate => "object-template"
  | .spreadTemplate => "spread-template"
  | .classTemplate => "class-template"
  | .importTemplate => "import-template"
  | .exportNamedTemplate => "export-named-template"
  | .exportAllTemplate => "export-all-template"

/-- One structural defect found in a compiled function. -/
inductive VerifyError where
  | badCache (address index : Nat)
  | cacheTableMismatch
  | slotTableMismatch (slots localCount : Nat)
  | parametersExceedLocals (parameters locals : Nat)
  | upvaluesUnsupported (count : Nat)
  | badRegister (address : Nat) (register : Reg)
  | badSlot (address : Nat) (slot : LocalSlot)
  | badConstant (address index : Nat)
  | constantTypeMismatch (address : Nat) (expected : String)
  | badJumpTarget (address : Nat) (target : Target)
  | badOperandRange (address : Nat) (start : Reg) (count : Nat)
  | shortCircuitInBinary (address : Nat) (op : BinOp)
  | targetedUnary (address : Nat) (op : UnOp)
  | plainAssignInCompound (address : Nat)
  | badIncDelta (address : Nat) (delta : Int)
  | templateArityMismatch (address quasis argc : Nat)
  | nestedFunction (index : Nat) (error : VerifyError)
  deriving DecidableEq, Repr

/-- The result of a check. -/
abbrev Check := Except VerifyError Unit

namespace Checker

/-- Pass, or report the defect. -/
def require (p : Prop) [Decidable p] (error : VerifyError) : Check :=
  if p then .ok () else .error error

variable (f : BytecodeFunction) (address : Nat)

def checkReg (reg : Reg) : Check :=
  require (reg < f.registerCount) (.badRegister address reg)

def checkSlot (slot : LocalSlot) : Check :=
  require (slot < f.localCount) (.badSlot address slot)

def checkConst (index : Nat) : Check :=
  require (index < f.constants.length) (.badConstant address index)

/-- The classes a constant belongs to.  Strings load as values and name globals. -/
def classes : Constant → List ConstantClass
  | .number _ | .bool _ | .null | .undefined | .bigInt _ | .regex _ _ => [.scalar]
  | .string _ | .name _ => [.string, .scalar]
  | .stringList _ => [.stringList]
  | .function _ => [.function]
  | .astFunction _ => [.astFunction]
  | .objectTemplate _ => [.objectTemplate]
  | .spreadTemplate _ => [.spreadTemplate]
  | .classTemplate _ => [.classTemplate]
  | .importTemplate _ => [.importTemplate]
  | .exportNamedTemplate _ => [.exportNamedTemplate]
  | .exportAllTemplate _ => [.exportAllTemplate]

def checkConstIs (index : Nat) (expected : ConstantClass) : Check := do
  checkConst f address index
  match f.constants[index]? with
  | some constant =>
    require (expected ∈ classes constant) (.constantTypeMismatch address expected.text)
  | none => .ok ()

def checkTarget (target : Target) : Check :=
  require (target ≤ f.code.length) (.badJumpTarget address target)

def checkRange (start : Reg) (count : Nat) : Check :=
  require (start + count ≤ f.registerCount) (.badOperandRange address start count)

def checkKey : KeySrc → Check
  | .const index => checkConstIs f address index .string
  | .reg reg => checkReg f address reg

def checkCompoundOp (op : AssignOp) : Check :=
  require (op ≠ .assign) (.plainAssignInCompound address)

def checkDelta (delta : Int) : Check :=
  require (delta = 1 ∨ delta = -1) (.badIncDelta address delta)

def checkCache (cache : Nat) : Check :=
  require (cache < f.caches) (.badCache address cache)

/-- Several registers, in order. -/
def checkRegs (regs : List Reg) : Check := regs.forM (checkReg f address)

def checkOptReg : Option Reg → Check
  | some reg => checkReg f address reg
  | none => .ok ()

/-- The decorators of a class, a field or a member: a value and maybe its receiver. -/
def checkDecorators (decorators : List (Reg × Option Reg)) : Check :=
  decorators.forM fun (value, receiver) => do
    checkReg f address value
    checkOptReg f address receiver

def checkName : ClassNameTemplate → Check
  | .computed reg => checkReg f address reg
  | .static _ | .priv _ => .ok ()

/-- `check_spread_template`. -/
def checkSpreadTemplate (tmpl : Nat) (allowElision : Bool) : Check := do
  checkConstIs f address tmpl .spreadTemplate
  match f.constants[tmpl]? with
  | some (.spreadTemplate entries) =>
    entries.forM fun entry => do
      require (¬(entry.elision = true ∧
          (allowElision = false ∨ entry.spread = true ∨ entry.prepared = true)))
        (.constantTypeMismatch address "array elision without spread flags")
      checkReg f address entry.reg
  | _ => .ok ()

/-- `check_func_const`: compiled bytecode, or the syntax tree of a declined member. -/
def checkFuncConst (index : Nat) : Check := do
  checkConst f address index
  match f.constants[index]? with
  | some (.function _) | some (.astFunction _) => .ok ()
  | _ => .error (.constantTypeMismatch address "function")

/-- The getter of a decorated auto-accessor: the setter follows it. -/
def validAutoPair (template : ClassTemplate) (index fieldIndex : Nat)
    (member : ClassMemberTemplate) : Bool :=
  template.hasMethodDecorators && member.kind == .getter && member.autoAccessorStorage.isSome &&
    (template.fieldDecorators[fieldIndex]?.any fun field => field.isStatic == member.isStatic) &&
    (template.members[index + 1]?.any fun setter =>
      setter.kind == .setter && setter.isStatic == member.isStatic &&
        setter.autoDecoratorField.isNone)

/-- The checks of one class member. -/
def checkMember (template : ClassTemplate) (index : Nat) (member : ClassMemberTemplate) :
    Check := do
  match member.autoDecoratorField with
  | some fieldIndex =>
    require (validAutoPair template index fieldIndex member = true)
      (.constantTypeMismatch address "valid auto-accessor decorator pair")
  | none => .ok ()
  checkDecorators f address member.decorators
  checkName f address member.name
  match member.func with
  | some func => checkFuncConst f address func
  | none => .ok ()

/-- The checks of the members from `index` on. -/
def checkMembers (template : ClassTemplate) : Nat → List ClassMemberTemplate → Check
  | _, [] => .ok ()
  | index, member :: rest => do
      checkMember f address template index member
      checkMembers template (index + 1) rest

/-- `check_class_template`. -/
def checkClassTemplate (tmpl : Nat) : Check := do
  checkConstIs f address tmpl .classTemplate
  match f.constants[tmpl]? with
  | some (.classTemplate template) =>
    checkDecorators f address template.decorators
    checkOptReg f address template.superclass
    checkOptReg f address template.superProto
    checkRegs f address template.ctorComputedKeys
    checkFuncConst f address template.ctorFunc
    template.fieldDecorators.forM fun field => do
      checkName f address field.name
      checkDecorators f address field.decorators
    checkMembers f address template 0 template.members
    template.blocks.forM fun
      | .block index => checkConstIs f address index .astFunction
      | .field name _ => checkName f address name
  | _ => .ok ()

/-- `check_instr`. -/
def checkInstr : Instr → Check
  | .loadConst dst cst => do
      checkReg f address dst
      checkConstIs f address cst .scalar
  | .mov dst src | .expandSpread dst src | .normalKey dst src | .toDestructArray dst src
  | .checkDestructObject dst src | .restArray dst src _ | .enumKeys dst src
  | .superMember dst src | .propertyKey dst src | .inferName dst src | .classHeritage dst src
  | .dynamicImport dst src | .await dst src => checkRegs f address [dst, src]
  | .loadLocal dst slot | .typeofLocal dst slot | .loadLocalSoft dst slot => do
      checkReg f address dst
      checkSlot f address slot
  | .storeLocal slot src | .initLocal slot src => do
      checkSlot f address slot
      checkReg f address src
  | .declareLocal slot _ _ | .bareVarLocal slot => checkSlot f address slot
  | .annexBUpdate name src slot => do
      checkConstIs f address name .string
      checkReg f address src
      match slot with
      | some slot => checkSlot f address slot
      | none => .ok ()
  | .initGlobal name src _ | .storeGlobal name src | .defineGlobal name src _ _ => do
      checkConstIs f address name .string
      checkReg f address src
  | .annexBInit name | .hoistVarGlobal name | .bareVarGlobal name | .raise name =>
    checkConstIs f address name .string
  | .loadGlobal dst name | .typeofGlobal dst name | .delGlobal dst name
  | .loadGlobalSoft dst name => do
      checkReg f address dst
      checkConstIs f address name .string
  | .checkClassStaticKey reg | .loadThis reg | .loadGlobalThis reg | .return reg | .throw reg
  | .loadTemplate reg _ | .newObject reg | .enumEnd reg | .closeIterator reg _
  | .superConstructor reg | .exportDefault reg | .newTarget reg | .importMeta reg =>
    checkReg f address reg
  | .loadCallBinding dst receiver name => do
      checkRegs f address [dst, receiver]
      checkConstIs f address name .string
  | .resolveAssignmentBinding base property name => do
      checkRegs f address [base, property]
      checkConstIs f address name .string
  | .readAssignmentBinding dst base property name => do
      checkRegs f address [dst, base, property]
      checkConstIs f address name .string
  | .writeAssignmentBinding base property name src => do
      checkRegs f address [base, property, src]
      checkConstIs f address name .string
  | .writeAssignmentProperty obj key src _ => checkRegs f address [obj, key, src]
  | .binary dst op lhs rhs => do
      checkRegs f address [dst, lhs, rhs]
      require (op ∉ [.and, .or, .nullish, .comma]) (.shortCircuitInBinary address op)
  | .unary dst op src => do
      checkRegs f address [dst, src]
      require (op ≠ .delete) (.targetedUnary address op)
  | .compoundLocal dst slot op rhs => do
      checkReg f address dst
      checkSlot f address slot
      checkReg f address rhs
      checkCompoundOp address op
  | .compoundGlobal dst name op rhs => do
      checkReg f address dst
      checkConstIs f address name .string
      checkReg f address rhs
      checkCompoundOp address op
  | .compoundProp dst obj key op rhs => do
      checkRegs f address [dst, obj, key, rhs]
      checkCompoundOp address op
  | .incLocal dst slot delta _ => do
      checkReg f address dst
      checkSlot f address slot
      checkDelta address delta
  | .incGlobal dst name delta _ => do
      checkReg f address dst
      checkConstIs f address name .string
      checkDelta address delta
  | .incProp dst obj key delta _ => do
      checkRegs f address [dst, obj, key]
      checkDelta address delta
  | .delProp dst obj key | .restObject dst obj key | .enumNext dst obj key
  | .forOfInit dst obj key => checkRegs f address [dst, obj, key]
  | .jump target => checkTarget f address target
  | .jumpIfTrue src target | .jumpIfFalse src target | .jumpIfNullish src target
  | .jumpIfNotNullish src target => do
      checkReg f address src
      checkTarget f address target
  | .loopHead | .returnUndefined | .popHandler | .popPending | .rethrow | .pushScope | .popScope =>
    .ok ()
  | .getProp _ cache dst obj key => do
      checkCache f address cache
      checkRegs f address [dst, obj, key]
  | .freezeTemplate _ cooked raw => checkRegs f address [cooked, raw]
  | .setProp cache obj key val => do
      checkCache f address cache
      checkRegs f address [obj, key, val]
  | .directEval dst callee this args argc => do
      checkRegs f address [dst, callee]
      checkOptReg f address this
      checkRange f address args argc
  | .call dst callee args argc | .construct dst callee args argc => do
      checkRegs f address [dst, callee]
      checkRange f address args argc
  | .callMethod dst callee this args argc => do
      checkRegs f address [dst, callee, this]
      checkRange f address args argc
  | .template dst quasis args argc => do
      checkReg f address dst
      checkConstIs f address quasis .stringList
      checkRange f address args argc
      match f.constants[quasis]? with
      | some (.stringList chunks) =>
        require (chunks.length = argc + 1) (.templateArityMismatch address chunks.length argc)
      | _ => .ok ()
  | .setOwnProp obj key val => do
      checkReg f address obj
      checkKey f address key
      checkReg f address val
  | .newArray dst args argc => do
      checkReg f address dst
      checkRange f address args argc
  | .makeFunction dst func => do
      checkReg f address dst
      checkConstIs f address func .function
  | .makeAstFunction dst ast => do
      checkReg f address dst
      checkConstIs f address ast .astFunction
  | .buildObject dst tmpl => do
      checkReg f address dst
      checkConstIs f address tmpl .objectTemplate
      match f.constants[tmpl]? with
      | some (.objectTemplate entries) =>
        entries.forM fun entry => do
          match entry.key with
          | some key => checkKey f address key
          | none => .ok ()
          checkReg f address entry.val
      | _ => .ok ()
  | .directEvalSpread dst callee this tmpl => do
      checkRegs f address [dst, callee]
      checkOptReg f address this
      checkSpreadTemplate f address tmpl false
  | .constructSpread dst callee tmpl | .callSpread dst callee tmpl => do
      checkRegs f address [dst, callee]
      checkSpreadTemplate f address tmpl false
  | .methodSpread dst callee this tmpl => do
      checkRegs f address [dst, callee, this]
      checkSpreadTemplate f address tmpl false
  | .buildArray dst tmpl => do
      checkReg f address dst
      checkSpreadTemplate f address tmpl true
  | .iterNext done value iter next => checkRegs f address [done, value, iter, next]
  | .pushCatch target dst | .pushFinally target dst => do
      checkTarget f address target
      checkReg f address dst
  | .superReference base receiver key src => checkRegs f address [base, receiver, key, src]
  | .getPropertyWithReceiver dst base receiver key =>
    checkRegs f address [dst, base, receiver, key]
  | .setPropertyWithReceiver base receiver key value =>
    checkRegs f address [base, receiver, key, value]
  | .numericUpdate previous updated src _ => checkRegs f address [previous, updated, src]
  | .superCall dst callee args argc => do
      checkRegs f address [callee, dst]
      checkRange f address args argc
  | .superCallSpread dst callee tmpl => do
      checkRegs f address [callee, dst]
      checkSpreadTemplate f address tmpl false
  | .buildClass dst tmpl => do
      checkReg f address dst
      checkClassTemplate f address tmpl
  | .classScope name =>
    match name with
    | some name => checkConstIs f address name .string
    | none => .ok ()
  | .classPrivateEnvironment names => checkConstIs f address names .stringList
  | .privateIn dst obj name => do
      checkRegs f address [dst, obj]
      checkConstIs f address name .string
  | .import tmpl => checkConstIs f address tmpl .importTemplate
  | .exportNamed tmpl => checkConstIs f address tmpl .exportNamedTemplate
  | .exportAll tmpl => checkConstIs f address tmpl .exportAllTemplate

/-- The instruction stream from `address` on. -/
def checkCode : Nat → List Instr → Check
  | _, [] => .ok ()
  | address, instr :: rest => do
      checkInstr f address instr
      checkCode (address + 1) rest

/-- The table sizes and the instruction stream of one function. -/
def checkFunction : Check := do
  require (f.code.countP Instr.isPropSite = f.caches) .cacheTableMismatch
  require (f.slots.length = f.localCount) (.slotTableMismatch f.slots.length f.localCount)
  require (f.parameterCount ≤ f.localCount)
    (.parametersExceedLocals f.parameterCount f.localCount)
  require (f.upvalueCount = 0) (.upvaluesUnsupported f.upvalueCount)
  checkCode f 0 f.code

end Checker

mutual

/-- `verify_function`: one function and, recursively, its nested functions. -/
def verifyFunction : BytecodeFunction → Check
  | .mk code constants registerCount localCount parameterCount upvalueCount slots caches => do
      Checker.checkFunction
        (.mk code constants registerCount localCount parameterCount upvalueCount slots caches)
      verifyConstants 0 constants

/-- The constants from `index` on. -/
def verifyConstants : Nat → List Constant → Check
  | _, [] => .ok ()
  | index, constant :: rest => do
      verifyConstant index constant
      verifyConstants (index + 1) rest

/-- A constant is checked when it is a nested function. -/
def verifyConstant : Nat → Constant → Check
  | index, .function nested =>
    match verifyFunction nested with
    | .ok () => .ok ()
    | .error error => .error (.nestedFunction (index % 65536) error)
  | _, _ => .ok ()

end

end NapiVm
