import NapiVm.Bytecode.Opcode

/-!
# Compiled functions

`constants.rs` and `function.rs`: the constant pool with its templates, and the
static representation of one compiled function.  Functions nest through their
constants.  Syntax trees that a function keeps for the evaluator are shared
references; only their address is recorded.
-/

namespace NapiVm

/-- The address of a shared syntax tree. -/
abbrev AstRef := Nat

/-- `ClassNameTemplate`: a member name as written or evaluated into a register. -/
inductive ClassNameTemplate where
  | static (name : String)
  | priv (name : String)
  | computed (reg : Reg)
  deriving DecidableEq, Repr

/-- `ClassMemberKind`. -/
inductive ClassMemberKind where
  | method | getter | setter
  deriving DecidableEq, Repr

/-- `ClassMemberTemplate`. -/
structure ClassMemberTemplate where
  autoDecoratorField : Option Nat
  decorators : List (Reg × Option Reg)
  autoAccessorStorage : Option String
  kind : ClassMemberKind
  isStatic : Bool
  name : ClassNameTemplate
  func : Option Nat
  deriving DecidableEq, Repr

/-- `ClassStaticTemplate`: a static field or a static block, in source order. -/
inductive ClassStaticTemplate where
  | field (name : ClassNameTemplate) (init : AstRef)
  | block (index : Nat)
  deriving DecidableEq, Repr

/-- `ClassFieldDecoratorTemplate`. -/
structure ClassFieldDecoratorTemplate where
  name : ClassNameTemplate
  isStatic : Bool
  index : Nat
  decorators : List (Reg × Option Reg)
  deriving DecidableEq, Repr

/-- `ClassTemplate`. -/
structure ClassTemplate where
  fieldDecorators : List ClassFieldDecoratorTemplate
  hasMethodDecorators : Bool
  decorators : List (Reg × Option Reg)
  name : String
  superclass : Option Reg
  superProto : Option Reg
  ctorFunc : Nat
  ctorLength : Nat
  ctorComputedKeys : List Reg
  members : List ClassMemberTemplate
  blocks : List ClassStaticTemplate
  deriving DecidableEq, Repr

/-- `ImportPhase`. -/
inductive ImportPhase where
  | evaluation | source | deferred
  deriving DecidableEq, Repr

/-- `ImportTemplate`. -/
structure ImportTemplate where
  module : List UInt16
  phase : ImportPhase
  default : Option String
  named : List (String × String)
  «namespace» : Option String
  deriving DecidableEq, Repr

/-- `ExportNamedTemplate`. -/
structure ExportNamedTemplate where
  specifiers : List (String × String)
  source : Option (List UInt16)
  deriving DecidableEq, Repr

/-- `ExportAllTemplate`. -/
structure ExportAllTemplate where
  source : List UInt16
  «alias» : Option String
  deriving DecidableEq, Repr

/-- `SpreadEntry`: one element of an argument or element list. -/
structure SpreadEntry where
  elision : Bool
  spread : Bool
  prepared : Bool
  reg : Reg
  deriving DecidableEq, Repr

/-- `PropKind`: how one entry of an object template inserts. -/
inductive PropKind where
  | data | prototype | method | getter | setter | spread
  deriving DecidableEq, Repr

/-- `PropEntry`: one property of an object template. -/
structure PropEntry where
  key : Option KeySrc
  val : Reg
  kind : PropKind
  deriving DecidableEq, Repr

/-- `AstFunction`: a function kept as a syntax tree inside a compiled unit. -/
structure AstFunction where
  namedExpression : Bool
  name : Option String
  params : List String
  body : AstRef
  isArrow : Bool
  isConstructor : Bool
  isAsync : Bool
  isGenerator : Bool
  usesArguments : Bool
  deriving DecidableEq, Repr

/-- `SlotInfo`: the source name and declaration kind of one local slot. -/
structure SlotInfo where
  name : String
  kind : SlotKind
  captured : Bool
  deriving DecidableEq, Repr

mutual

/-- One entry of a constant pool. -/
inductive Constant where
  | number (bits : UInt64)
  | string (units : List UInt16)
  | name (text : String)
  | bool (b : Bool)
  | null
  | undefined
  | stringList (chunks : List (List UInt16))
  | bigInt (n : Int)
  | regex (pattern : List UInt16) (flags : String)
  | function (code : BytecodeFunction)
  | astFunction (ast : AstFunction)
  | objectTemplate (entries : List PropEntry)
  | spreadTemplate (entries : List SpreadEntry)
  | classTemplate (template : ClassTemplate)
  | importTemplate (template : ImportTemplate)
  | exportNamedTemplate (template : ExportNamedTemplate)
  | exportAllTemplate (template : ExportAllTemplate)

/-- One compiled function, or a top-level program. -/
inductive BytecodeFunction where
  | mk (code : List Instr) (constants : List Constant) (registerCount localCount parameterCount
      upvalueCount : Nat) (slots : List SlotInfo) (caches : Nat)

end

namespace BytecodeFunction

/-- The instruction stream. -/
def code : BytecodeFunction → List Instr
  | mk code _ _ _ _ _ _ _ => code

/-- The constant pool. -/
def constants : BytecodeFunction → List Constant
  | mk _ constants _ _ _ _ _ _ => constants

/-- Expression temporaries per frame. -/
def registerCount : BytecodeFunction → Nat
  | mk _ _ registerCount _ _ _ _ _ => registerCount

/-- Local slots per frame. -/
def localCount : BytecodeFunction → Nat
  | mk _ _ _ localCount _ _ _ _ => localCount

/-- Leading slots that hold parameters. -/
def parameterCount : BytecodeFunction → Nat
  | mk _ _ _ _ parameterCount _ _ _ => parameterCount

/-- Captured-variable slots; always zero. -/
def upvalueCount : BytecodeFunction → Nat
  | mk _ _ _ _ _ upvalueCount _ _ => upvalueCount

/-- Per-slot metadata. -/
def slots : BytecodeFunction → List SlotInfo
  | mk _ _ _ _ _ _ slots _ => slots

/-- How many property caches there are; the caches' own state lives in the world. -/
def caches : BytecodeFunction → Nat
  | mk _ _ _ _ _ _ _ caches => caches

end BytecodeFunction

end NapiVm
