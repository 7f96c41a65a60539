import NapiVm.Parser.Ast

/-!
# Identifier references

The analysis that decides which variables a callable captures.

* `stmtsReference` — `stmts_reference`.
* `statementsCaptureIdentifier` — `statements_capture_identifier`.
-/

namespace NapiVm.Parser

section References

variable (name : String)

mutual

/-- `expr_references`. -/
def exprReferences : Expr → Bool
  | .legacyLiteral inner => exprReferences inner
  | .parenthesized inner => exprReferences inner
  | .identifier n => n = name
  | .array items => exprsReference items
  | .object props => propsReference props
  | .binary left right => exprReferences left || exprReferences right
  | .unary operand => exprReferences operand
  | .classExpr decorators superclass body =>
    exprsReference decorators || optExprReferences superclass || membersReference body
  | .logicalAssignment target value => exprReferences target || exprReferences value
  | .taggedTemplate tag exprs => exprReferences tag || exprsReference exprs
  | .call callee args => exprReferences callee || exprsReference args
  | .member object property => exprReferences object || exprReferences property
  | .optionalChain object property => exprReferences object || exprReferences property
  | .assignment target value => exprReferences target || exprReferences value
  | .conditional test consequent alternate =>
    exprReferences test || exprReferences consequent || exprReferences alternate
  | .arrowFn body => arrowBodyReferences body
  | .fnExpr body => stmtsReference body
  | .new callee args => exprReferences callee || exprsReference args
  | .spread operand => exprReferences operand
  | .template exprs => exprsReference exprs
  | .await operand => exprReferences operand
  | .yieldFrom operand => exprReferences operand
  | .yield operand => optExprReferences operand
  | .dynamicImport specifier options => exprReferences specifier || optExprReferences options
  | .number | .bigIntLiteral | .string | .escapedString | .regex | .bool | .null | .undefined
  | .elision | .thisExpr | .super | .importMeta | .newTarget => false

/-- Some of the expressions. -/
def exprsReference : List Expr → Bool
  | [] => false
  | e :: rest => exprReferences e || exprsReference rest

def optExprReferences : Option Expr → Bool
  | none => false
  | some e => exprReferences e

/-- A property of an object literal. -/
def propReferences : ObjectProp → Bool
  | .shorthand n => n = name
  | .coverInitializedName _ initializer => exprReferences initializer
  | .keyValue _ value => exprReferences value
  | .computed key value => exprReferences key || exprReferences value
  | .computedMethod key body => exprReferences key || stmtsReference body
  | .method _ body => stmtsReference body
  | .getter _ body => stmtsReference body
  | .setter _ body => stmtsReference body
  | .spread operand => exprReferences operand

def propsReference : List ObjectProp → Bool
  | [] => false
  | p :: rest => propReferences p || propsReference rest

/-- `arrow_body_references`. -/
def arrowBodyReferences : ExprOrBlock → Bool
  | .expr body => exprReferences body
  | .block body => stmtsReference body

/-- The computed key of a member. -/
def memberKeyReferences : MemberName → Bool
  | .computed key => exprReferences key
  | .static _ | .privateName _ => false

/-- A class member; `member_name_references` with its body. -/
def memberReferences : ClassMember → Bool
  | .method decorators key body =>
    exprsReference decorators || memberKeyReferences key || stmtsReference body
  | .field decorators key init =>
    exprsReference decorators || memberKeyReferences key || optExprReferences init
  | .getter decorators key body =>
    exprsReference decorators || memberKeyReferences key || stmtsReference body
  | .setter decorators key body =>
    exprsReference decorators || memberKeyReferences key || stmtsReference body
  | .staticBlock body => stmtsReference body

def membersReference : List ClassMember → Bool
  | [] => false
  | m :: rest => memberReferences m || membersReference rest

/-- `pattern_references`. -/
def patternReferences : Pattern → Bool
  | .elision | .ident _ | .rest _ => false
  | .member object property => exprReferences object || exprReferences property
  | .array items => patternsReference items
  | .object props => patternPropsReference props
  | .default inner value => patternReferences inner || exprReferences value

def patternsReference : List Pattern → Bool
  | [] => false
  | p :: rest => patternReferences p || patternsReference rest

def optPatternReferences : Option Pattern → Bool
  | none => false
  | some p => patternReferences p

def patternKeyReferences : PatternKey → Bool
  | .computed key => exprReferences key
  | .name _ => false

def patternPropReferences : PatternProp → Bool
  | .mk key target => patternKeyReferences key || optPatternReferences target

def patternPropsReference : List PatternProp → Bool
  | [] => false
  | p :: rest => patternPropReferences p || patternPropsReference rest

/-- The initializer of a declared name. -/
def declReferences : Declarator → Bool
  | .mk _ init => optExprReferences init

def declsReference : List Declarator → Bool
  | [] => false
  | d :: rest => declReferences d || declsReference rest

/-- The head of a `for` loop. -/
def forInitReferences : ForInit → Bool
  | .var decls => declsReference decls
  | .pattern pattern init trailing =>
    patternReferences pattern || exprReferences init || declsReference trailing
  | .expr e => exprReferences e

def optForInitReferences : Option ForInit → Bool
  | none => false
  | some init => forInitReferences init

/-- `for_binding_references`. -/
def forBindingReferences : ForBinding → Bool
  | .assignment target => exprReferences target
  | .declaration pattern initializer =>
    patternReferences pattern || optExprReferences initializer

def caseReferences : SwitchCase → Bool
  | .mk test body => optExprReferences test || stmtsReference body

def casesReference : List SwitchCase → Bool
  | [] => false
  | c :: rest => caseReferences c || casesReference rest

def catchReferences : CatchClause → Bool
  | .mk param body => optPatternReferences param || stmtsReference body

def optCatchReferences : Option CatchClause → Bool
  | none => false
  | some c => catchReferences c

/-- `stmt_references`. -/
def stmtReferences : Statement → Bool
  | .expr e => exprReferences e
  | .varDecl _ init destructuring => optExprReferences init || optPatternReferences destructuring
  | .fnDecl _ body => stmtsReference body
  | .classDecl decorators _ superclass body =>
    exprsReference decorators || optExprReferences superclass || membersReference body
  | .returnStmt value => optExprReferences value
  | .ifStmt test consequent alternate =>
    exprReferences test || stmtsReference consequent || optStmtsReference alternate
  | .withStmt object body => exprReferences object || stmtsReference body
  | .whileStmt test body => exprReferences test || stmtsReference body
  | .doWhile test body => exprReferences test || stmtsReference body
  | .forStmt init test update body =>
    optForInitReferences init || optExprReferences test || optExprReferences update ||
      stmtsReference body
  | .forIn binding obj body =>
    forBindingReferences binding || exprReferences obj || stmtsReference body
  | .forOf binding iter body =>
    forBindingReferences binding || exprReferences iter || stmtsReference body
  | .resourceForOf _ iter body => exprReferences iter || stmtsReference body
  | .classInitialization fields => stmtsReference fields
  | .parameterInitialization initializers fields =>
    stmtsReference initializers || stmtsReference fields
  | .block body => stmtsReference body
  | .declarations body => stmtsReference body
  | .resourceDeclaration body => stmtsReference body
  | .labeled _ body => stmtReferences body
  | .throwStmt value => exprReferences value
  | .tryStmt body handler finalizer =>
    stmtsReference body || optCatchReferences handler || optStmtsReference finalizer
  | .switchStmt disc cases => exprReferences disc || casesReference cases
  | .exportDefault value => exprReferences value
  | .breakStmt | .continueStmt | .labeledBreak _ | .labeledContinue _ | .exportNamed
  | .exportAll | .importStmt | .empty => false

/-- `stmts_reference`. -/
def stmtsReference : List Statement → Bool
  | [] => false
  | s :: rest => stmtReferences s || stmtsReference rest

def optStmtsReference : Option (List Statement) → Bool
  | none => false
  | some body => stmtsReference body

end

mutual

/-- `expr_captures_identifier`. -/
def exprCapturesIdentifier : Expr → Bool
  | .legacyLiteral inner => exprCapturesIdentifier inner
  | .parenthesized inner => exprCapturesIdentifier inner
  | .arrowFn body => arrowBodyReferences name body
  | .fnExpr body => stmtsReference name body
  | .classExpr decorators superclass body =>
    exprsCapture decorators || optExprCaptures superclass || classMembersCapture body
  | .array items => exprsCapture items
  | .object props => propsCapture props
  | .binary left right => exprCapturesIdentifier left || exprCapturesIdentifier right
  | .unary operand => exprCapturesIdentifier operand
  | .spread operand => exprCapturesIdentifier operand
  | .await operand => exprCapturesIdentifier operand
  | .call callee args => exprCapturesIdentifier callee || exprsCapture args
  | .new callee args => exprCapturesIdentifier callee || exprsCapture args
  | .member object property => exprCapturesIdentifier object || exprCapturesIdentifier property
  | .optionalChain object property =>
    exprCapturesIdentifier object || exprCapturesIdentifier property
  | .taggedTemplate tag exprs => exprCapturesIdentifier tag || exprsCapture exprs
  | .assignment target value => exprCapturesIdentifier target || exprCapturesIdentifier value
  | .logicalAssignment target value =>
    exprCapturesIdentifier target || exprCapturesIdentifier value
  | .conditional test consequent alternate =>
    exprCapturesIdentifier test || exprCapturesIdentifier consequent ||
      exprCapturesIdentifier alternate
  | .dynamicImport specifier options =>
    exprCapturesIdentifier specifier || optExprCaptures options
  | .yieldFrom operand => exprCapturesIdentifier operand
  | .template exprs => exprsCapture exprs
  | .yield operand => optExprCaptures operand
  | .number | .bigIntLiteral | .string | .escapedString | .regex | .bool | .null | .undefined
  | .elision | .identifier _ | .thisExpr | .super | .importMeta | .newTarget => false

def exprsCapture : List Expr → Bool
  | [] => false
  | e :: rest => exprCapturesIdentifier e || exprsCapture rest

def optExprCaptures : Option Expr → Bool
  | none => false
  | some e => exprCapturesIdentifier e

/-- A property of an object literal. -/
def propCaptures : ObjectProp → Bool
  | .shorthand _ => false
  | .coverInitializedName _ initializer => exprCapturesIdentifier initializer
  | .keyValue _ value => exprCapturesIdentifier value
  | .spread operand => exprCapturesIdentifier operand
  | .computed key value => exprCapturesIdentifier key || exprCapturesIdentifier value
  | .computedMethod key body => exprCapturesIdentifier key || stmtsReference name body
  | .method _ body => stmtsReference name body
  | .getter _ body => stmtsReference name body
  | .setter _ body => stmtsReference name body

def propsCapture : List ObjectProp → Bool
  | [] => false
  | p :: rest => propCaptures p || propsCapture rest

def memberKeyCaptures : MemberName → Bool
  | .computed key => exprCapturesIdentifier key
  | .static _ | .privateName _ => false

/-- A class member. -/
def classMemberCaptures : ClassMember → Bool
  | .method decorators key body =>
    exprsCapture decorators || memberKeyCaptures key || stmtsReference name body
  | .getter decorators key body =>
    exprsCapture decorators || memberKeyCaptures key || stmtsReference name body
  | .setter decorators key body =>
    exprsCapture decorators || memberKeyCaptures key || stmtsReference name body
  -- Initializers run in a scope below that of the class.
  | .field decorators key init =>
    exprsCapture decorators || memberKeyCaptures key || optExprReferences name init
  | .staticBlock body => stmtsReference name body

/-- `class_members_capture_identifier`. -/
def classMembersCapture : List ClassMember → Bool
  | [] => false
  | m :: rest => classMemberCaptures m || classMembersCapture rest

/-- `pattern_captures_identifier`. -/
def patternCapturesIdentifier : Pattern → Bool
  | .elision | .ident _ => false
  | .array items => patternsCapture items
  | .object props => patternPropsCapture props
  | .rest inner => patternCapturesIdentifier inner
  | .default inner value => patternCapturesIdentifier inner || exprCapturesIdentifier value
  | .member object property => exprCapturesIdentifier object || exprCapturesIdentifier property

def patternsCapture : List Pattern → Bool
  | [] => false
  | p :: rest => patternCapturesIdentifier p || patternsCapture rest

def optPatternCaptures : Option Pattern → Bool
  | none => false
  | some p => patternCapturesIdentifier p

def patternKeyCaptures : PatternKey → Bool
  | .computed key => exprCapturesIdentifier key
  | .name _ => false

def patternPropCaptures : PatternProp → Bool
  | .mk key target => patternKeyCaptures key || optPatternCaptures target

def patternPropsCapture : List PatternProp → Bool
  | [] => false
  | p :: rest => patternPropCaptures p || patternPropsCapture rest

def declCaptures : Declarator → Bool
  | .mk _ init => optExprCaptures init

def declsCapture : List Declarator → Bool
  | [] => false
  | d :: rest => declCaptures d || declsCapture rest

/-- `for_init_captures`. -/
def forInitCaptures : ForInit → Bool
  | .var decls => declsCapture decls
  | .pattern pattern init trailing =>
    patternCapturesIdentifier pattern || exprCapturesIdentifier init || declsCapture trailing
  | .expr e => exprCapturesIdentifier e

def optForInitCaptures : Option ForInit → Bool
  | none => false
  | some init => forInitCaptures init

/-- `for_binding_captures`. -/
def forBindingCaptures : ForBinding → Bool
  | .assignment target => exprCapturesIdentifier target
  | .declaration pattern initializer =>
    patternCapturesIdentifier pattern || optExprCaptures initializer

def caseCaptures : SwitchCase → Bool
  | .mk test body => optExprCaptures test || statementsCaptureIdentifier body

def casesCapture : List SwitchCase → Bool
  | [] => false
  | c :: rest => caseCaptures c || casesCapture rest

def catchCaptures : CatchClause → Bool
  | .mk param body => optPatternCaptures param || statementsCaptureIdentifier body

def optCatchCaptures : Option CatchClause → Bool
  | none => false
  | some c => catchCaptures c

/-- A statement. -/
def statementCaptures : Statement → Bool
  | .expr e => exprCapturesIdentifier e
  | .varDecl _ init destructuring => optExprCaptures init || optPatternCaptures destructuring
  | .fnDecl _ body => stmtsReference name body
  | .classDecl decorators _ superclass body =>
    exprsCapture decorators || optExprCaptures superclass || classMembersCapture body
  | .returnStmt value => optExprCaptures value
  | .ifStmt test consequent alternate =>
    exprCapturesIdentifier test || statementsCaptureIdentifier consequent ||
      optStatementsCapture alternate
  | .withStmt object body => exprCapturesIdentifier object || statementsCaptureIdentifier body
  | .whileStmt test body => exprCapturesIdentifier test || statementsCaptureIdentifier body
  | .doWhile test body => exprCapturesIdentifier test || statementsCaptureIdentifier body
  | .forStmt init test update body =>
    optForInitCaptures init || optExprCaptures test || optExprCaptures update ||
      statementsCaptureIdentifier body
  | .forIn binding obj body =>
    forBindingCaptures binding || exprCapturesIdentifier obj || statementsCaptureIdentifier body
  | .forOf binding iter body =>
    forBindingCaptures binding || exprCapturesIdentifier iter ||
      statementsCaptureIdentifier body
  | .resourceForOf _ iter body => exprCapturesIdentifier iter || statementsCaptureIdentifier body
  | .classInitialization fields => statementsCaptureIdentifier fields
  | .parameterInitialization initializers fields =>
    statementsCaptureIdentifier initializers || statementsCaptureIdentifier fields
  | .block body => statementsCaptureIdentifier body
  | .declarations body => statementsCaptureIdentifier body
  | .resourceDeclaration body => statementsCaptureIdentifier body
  | .labeled _ body => statementCaptures body
  | .throwStmt value => exprCapturesIdentifier value
  | .exportDefault value => exprCapturesIdentifier value
  | .tryStmt body handler finalizer =>
    statementsCaptureIdentifier body || optCatchCaptures handler ||
      optStatementsCapture finalizer
  | .switchStmt disc cases => exprCapturesIdentifier disc || casesCapture cases
  | .breakStmt | .continueStmt | .labeledBreak _ | .labeledContinue _ | .exportNamed
  | .exportAll | .importStmt | .empty => false

/-- `statements_capture_identifier`. -/
def statementsCaptureIdentifier : List Statement → Bool
  | [] => false
  | s :: rest => statementCaptures s || statementsCaptureIdentifier rest

def optStatementsCapture : Option (List Statement) → Bool
  | none => false
  | some body => statementsCaptureIdentifier body

end

end References

end NapiVm.Parser
