import NapiVm.Value.Basic

/-!
# The instruction set of the register machine

`opcode.rs`.  Operands are typed: registers, local slots, constant-pool indices,
cache sites and jump targets.  The source keeps them in `u16` and `u32` fields;
they only ever widen on use, so numbers stand for them here.
-/

namespace NapiVm

/-- An expression-temporary register within one frame. -/
abbrev Reg := Nat

/-- A named-binding slot within one frame. -/
abbrev LocalSlot := Nat

/-- A jump destination: an index into the function's instruction stream. -/
abbrev Target := Nat

/-- Binary operators. -/
inductive BinOp where
  | add | sub | mul | div | mod | pow | bitAnd | bitOr | bitXor | shl | shr | ushr
  | eq | neq | seq | sneq | lt | gt | le | ge | and | or | nullish | comma | instanceof | «in»
  deriving DecidableEq, Repr

/-- Unary operators. -/
inductive UnOp where
  | not | neg | pos | bitNot | typeof | void | delete | inc | dec
  deriving DecidableEq, Repr

/-- Assignment operators; `assign` is plain `=`. -/
inductive AssignOp where
  | assign | add | sub | mul | div | mod | pow | bitAnd | bitOr | bitXor | shl | shr | ushr
  deriving DecidableEq, Repr

/-- `AssignOp::bin_op`. -/
def AssignOp.binOp : AssignOp → Option BinOp
  | .assign => none
  | .add => some .add
  | .sub => some .sub
  | .mul => some .mul
  | .div => some .div
  | .mod => some .mod
  | .pow => some .pow
  | .bitAnd => some .bitAnd
  | .bitOr => some .bitOr
  | .bitXor => some .bitXor
  | .shl => some .shl
  | .shr => some .shr
  | .ushr => some .ushr

/-- Declaration kind of one local slot. -/
inductive SlotKind where
  | var | «catch» | «let» | const
  deriving DecidableEq, Repr

/-- A property key: a pooled string or a computed register. -/
inductive KeySrc where
  | const (index : Nat)
  | reg (reg : Reg)
  deriving DecidableEq, Repr

/-- One executable instruction. -/
inductive Instr where
  -- data movement
  | loadConst (dst : Reg) (cst : Nat)
  | mov (dst src : Reg)
  | loadLocal (dst : Reg) (slot : LocalSlot)
  | storeLocal (slot : LocalSlot) (src : Reg)
  | declareLocal (slot : LocalSlot) (kind : SlotKind) (initialized : Bool)
  | initLocal (slot : LocalSlot) (src : Reg)
  | initGlobal (name : Nat) (src : Reg) (function : Bool)
  | hoistVarGlobal (name : Nat)
  | annexBInit (name : Nat)
  | annexBUpdate (name : Nat) (src : Reg) (slot : Option LocalSlot)
  | bareVarLocal (slot : LocalSlot)
  | bareVarGlobal (name : Nat)
  | loadGlobal (dst : Reg) (name : Nat)
  | checkClassStaticKey (key : Reg)
  | loadCallBinding (dst receiver : Reg) (name : Nat)
  | resolveAssignmentBinding (base property : Reg) (name : Nat)
  | readAssignmentBinding (dst base property : Reg) (name : Nat)
  | writeAssignmentBinding (base property : Reg) (name : Nat) (src : Reg)
  | writeAssignmentProperty (obj key src : Reg) (isPrivate : Bool)
  | storeGlobal (name : Nat) (src : Reg)
  | defineGlobal (name : Nat) (src : Reg) (kind : SlotKind) (initialized : Bool)
  | loadThis (dst : Reg)
  | loadGlobalThis (dst : Reg)
  | typeofGlobal (dst : Reg) (name : Nat)
  | typeofLocal (dst : Reg) (slot : LocalSlot)
  -- operators
  | binary (dst : Reg) (op : BinOp) (lhs rhs : Reg)
  | unary (dst : Reg) (op : UnOp) (src : Reg)
  | compoundLocal (dst : Reg) (slot : LocalSlot) (op : AssignOp) (rhs : Reg)
  | compoundGlobal (dst : Reg) (name : Nat) (op : AssignOp) (rhs : Reg)
  | compoundProp (dst obj key : Reg) (op : AssignOp) (rhs : Reg)
  | incLocal (dst : Reg) (slot : LocalSlot) (delta : Int) (prefixed : Bool)
  | incGlobal (dst : Reg) (name : Nat) (delta : Int) (prefixed : Bool)
  | incProp (dst obj key : Reg) (delta : Int) (prefixed : Bool)
  | delProp (dst obj key : Reg)
  | delGlobal (dst : Reg) (name : Nat)
  -- control flow
  | jump (target : Target)
  | jumpIfTrue (src : Reg) (target : Target)
  | jumpIfFalse (src : Reg) (target : Target)
  | jumpIfNullish (src : Reg) (target : Target)
  | jumpIfNotNullish (src : Reg) (target : Target)
  | loopHead
  | «return» (src : Reg)
  | returnUndefined
  | throw (src : Reg)
  -- properties, calls, allocation
  | getProp (isPrivate : Bool) (cache : Nat) (dst obj key : Reg)
  | loadTemplate (dst : Reg) (site : Nat)
  | freezeTemplate (site : Nat) (cooked raw : Reg)
  | setProp (cache : Nat) (obj key val : Reg)
  | directEval (dst callee : Reg) (this : Option Reg) (args : Reg) (argc : Nat)
  | directEvalSpread (dst callee : Reg) (this : Option Reg) (tmpl : Nat)
  | call (dst callee args : Reg) (argc : Nat)
  | callMethod (dst callee this args : Reg) (argc : Nat)
  | template (dst : Reg) (quasis : Nat) (args : Reg) (argc : Nat)
  | construct (dst callee args : Reg) (argc : Nat)
  | constructSpread (dst callee : Reg) (tmpl : Nat)
  | expandSpread (dst src : Reg)
  | newObject (dst : Reg)
  | setOwnProp (obj : Reg) (key : KeySrc) (val : Reg)
  | newArray (dst args : Reg) (argc : Nat)
  | makeFunction (dst : Reg) (func : Nat)
  | makeAstFunction (dst : Reg) (ast : Nat)
  | normalKey (dst src : Reg)
  | buildObject (dst : Reg) (tmpl : Nat)
  | loadGlobalSoft (dst : Reg) (name : Nat)
  | loadLocalSoft (dst : Reg) (slot : LocalSlot)
  | callSpread (dst callee : Reg) (tmpl : Nat)
  | methodSpread (dst callee this : Reg) (tmpl : Nat)
  | buildArray (dst : Reg) (tmpl : Nat)
  | toDestructArray (dst src : Reg)
  | restArray (dst src : Reg) (start : Nat)
  | checkDestructObject (dst src : Reg)
  | restObject (dst src taken : Reg)
  | enumKeys (dst src : Reg)
  | enumNext (state dst done : Reg)
  | enumEnd (state : Reg)
  | forOfInit (iter next src : Reg)
  | iterNext (done value iter next : Reg)
  | closeIterator (src : Reg) (unwind : Bool)
  | pushCatch (target : Target) (dst : Reg)
  | pushFinally (target : Target) (dst : Reg)
  | popHandler
  | popPending
  | rethrow
  | superMember (dst key : Reg)
  | superReference (base receiver key src : Reg)
  | getPropertyWithReceiver (dst base receiver key : Reg)
  | setPropertyWithReceiver (base receiver key value : Reg)
  | numericUpdate (previous updated src : Reg) (increment : Bool)
  | superConstructor (dst : Reg)
  | superCall (dst callee args : Reg) (argc : Nat)
  | superCallSpread (dst callee : Reg) (tmpl : Nat)
  | raise (msg : Nat)
  | buildClass (dst : Reg) (tmpl : Nat)
  | propertyKey (dst src : Reg)
  | inferName (dst key : Reg)
  | classScope (name : Option Nat)
  | classPrivateEnvironment (names : Nat)
  | classHeritage (dst superclass : Reg)
  | privateIn (dst obj : Reg) (name : Nat)
  | «import» (tmpl : Nat)
  | exportDefault (src : Reg)
  | exportNamed (tmpl : Nat)
  | exportAll (tmpl : Nat)
  | dynamicImport (dst src : Reg)
  | await (dst src : Reg)
  | newTarget (dst : Reg)
  | importMeta (dst : Reg)
  | pushScope
  | popScope
  deriving Repr

/-- `Instr::cost`: the fuel one execution consumes. -/
def Instr.cost : Instr → Nat
  | .directEval .. | .directEvalSpread .. | .call .. | .callMethod .. | .callSpread ..
  | .methodSpread .. => 5
  | .construct .. | .constructSpread .. => 8
  | .newObject .. | .newArray .. | .buildObject .. | .buildArray .. => 10
  | .getProp .. | .setProp .. | .setOwnProp .. => 2
  | .mov .. | .jump .. | .jumpIfTrue .. | .jumpIfFalse .. | .jumpIfNullish ..
  | .jumpIfNotNullish .. | .loopHead => 0
  | _ => 1

/-- Does the instruction own a property cache site? -/
def Instr.isPropSite : Instr → Bool
  | .getProp .. | .setProp .. => true
  | _ => false

end NapiVm
