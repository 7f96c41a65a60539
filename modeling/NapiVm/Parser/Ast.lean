/-!
# The syntax tree

Expressions, statements and patterns of a parsed program, with the names and the subtrees that an
analysis of identifiers looks at.
-/

namespace NapiVm.Parser

mutual

/-- `Expr`. -/
inductive Expr where
  | legacyLiteral (inner : Expr)
  | parenthesized (inner : Expr)
  | number
  | bigIntLiteral
  | string
  | escapedString
  | regex
  | bool
  | null
  | undefined
  | elision
  | identifier (name : String)
  | array (items : List Expr)
  | object (props : List ObjectProp)
  | binary (left right : Expr)
  | unary (operand : Expr)
  | call (callee : Expr) (args : List Expr)
  | member (object property : Expr)
  | taggedTemplate (tag : Expr) (exprs : List Expr)
  | assignment (target value : Expr)
  | logicalAssignment (target value : Expr)
  | conditional (test consequent alternate : Expr)
  | arrowFn (body : ExprOrBlock)
  | classExpr (decorators : List Expr) (superclass : Option Expr) (body : List ClassMember)
  | fnExpr (body : List Statement)
  | new (callee : Expr) (args : List Expr)
  | spread (operand : Expr)
  | thisExpr
  | super
  | importMeta
  | newTarget
  | dynamicImport (specifier : Expr) (options : Option Expr)
  | template (exprs : List Expr)
  | optionalChain (object property : Expr)
  | await (operand : Expr)
  | yield (operand : Option Expr)
  | yieldFrom (operand : Expr)

/-- `ObjectProp`. -/
inductive ObjectProp where
  | coverInitializedName (name : String) (initializer : Expr)
  | shorthand (name : String)
  | keyValue (key : String) (value : Expr)
  | computed (key value : Expr)
  | computedMethod (key : Expr) (body : List Statement)
  | method (name : String) (body : List Statement)
  | getter (name : String) (body : List Statement)
  | setter (name : String) (body : List Statement)
  | spread (operand : Expr)

/-- `ExprOrBlock`. -/
inductive ExprOrBlock where
  | expr (body : Expr)
  | block (body : List Statement)

/-- `Statement`. -/
inductive Statement where
  | resourceForOf (name : String) (iter : Expr) (body : List Statement)
  | resourceDeclaration (declarations : List Statement)
  | expr (expr : Expr)
  | varDecl (name : String) (init : Option Expr) (destructuring : Option Pattern)
  | fnDecl (name : String) (body : List Statement)
  | classDecl (decorators : List Expr) (name : String) (superclass : Option Expr)
      (body : List ClassMember)
  | returnStmt (value : Option Expr)
  | ifStmt (test : Expr) (consequent : List Statement) (alternate : Option (List Statement))
  | withStmt (object : Expr) (body : List Statement)
  | whileStmt (test : Expr) (body : List Statement)
  | doWhile (test : Expr) (body : List Statement)
  | forStmt (init : Option ForInit) (test update : Option Expr) (body : List Statement)
  | forIn (binding : ForBinding) (obj : Expr) (body : List Statement)
  | forOf (binding : ForBinding) (iter : Expr) (body : List Statement)
  | block (body : List Statement)
  | declarations (body : List Statement)
  | classInitialization (fields : List Statement)
  | parameterInitialization (initializers fields : List Statement)
  | labeled (label : String) (body : Statement)
  | breakStmt
  | continueStmt
  | labeledBreak (label : String)
  | labeledContinue (label : String)
  | throwStmt (value : Expr)
  | tryStmt (body : List Statement) (handler : Option CatchClause)
      (finalizer : Option (List Statement))
  | switchStmt (disc : Expr) (cases : List SwitchCase)
  | exportDefault (value : Expr)
  | exportNamed
  | exportAll
  | importStmt
  | empty

/-- The handler of a `try`. -/
inductive CatchClause where
  | mk (param : Option Pattern) (body : List Statement)

/-- `ForBinding`. -/
inductive ForBinding where
  | declaration (pattern : Pattern) (initializer : Option Expr)
  | assignment (target : Expr)

/-- `ForInit`. -/
inductive ForInit where
  | var (decls : List Declarator)
  | pattern (pattern : Pattern) (init : Expr) (trailing : List Declarator)
  | expr (expr : Expr)

/-- A name with its initializer. -/
inductive Declarator where
  | mk (name : String) (init : Option Expr)

/-- `SwitchCase`. -/
inductive SwitchCase where
  | mk (test : Option Expr) (body : List Statement)

/-- `MemberName`. -/
inductive MemberName where
  | static (name : String)
  | privateName (name : String)
  | computed (key : Expr)

/-- `ClassMember`. -/
inductive ClassMember where
  | method (decorators : List Expr) (name : MemberName) (body : List Statement)
  | field (decorators : List Expr) (name : MemberName) (init : Option Expr)
  | staticBlock (body : List Statement)
  | getter (decorators : List Expr) (name : MemberName) (body : List Statement)
  | setter (decorators : List Expr) (name : MemberName) (body : List Statement)

/-- `PatternKey`. -/
inductive PatternKey where
  | name (name : String)
  | computed (key : Expr)

/-- `Pattern`. -/
inductive Pattern where
  | elision
  | ident (name : String)
  | array (items : List Pattern)
  | object (props : List PatternProp)
  | rest (inner : Pattern)
  | default (inner : Pattern) (value : Expr)
  | member (object property : Expr)

/-- A key of an object pattern with its target. -/
inductive PatternProp where
  | mk (key : PatternKey) (target : Option Pattern)

end

end NapiVm.Parser
