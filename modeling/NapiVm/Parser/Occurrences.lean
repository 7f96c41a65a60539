import NapiVm.Lib.Occurrence
import NapiVm.Parser.References

/-!
# Where identifiers occur

The nodes of the syntax tree with all their children, apart from the analysis.

* `Occurs`, `InCallable` — a name occurs below a node, and does so in a nested callable.
* `references_iff_seen`, `captures_iff_seen` — what the two walks find.
* `analysis_complete_iff` — when the analysis misses no occurrence.
-/

namespace NapiVm.Parser

/-- A node of the tree. -/
inductive Node where
  | expr (e : Expr)
  | prop (p : ObjectProp)
  | body (b : ExprOrBlock)
  | stmt (s : Statement)
  | handler (c : CatchClause)
  | binding (b : ForBinding)
  | forInit (i : ForInit)
  | decl (d : Declarator)
  | case (c : SwitchCase)
  | member (m : ClassMember)
  | pattern (p : Pattern)
  | patternProp (p : PatternProp)

/-- What is passed on the way to a child: the code of a callable or of a class member, a rest
element of a pattern, or nothing of the kind. -/
inductive Edge where
  | plain
  | callable
  | rest
  deriving DecidableEq

namespace Node

def exprs (e : Edge) (l : List Expr) : List (Edge × Node) := l.map fun x => (e, expr x)

def stmts (e : Edge) (l : List Statement) : List (Edge × Node) := l.map fun x => (e, stmt x)

def members (l : List ClassMember) : List (Edge × Node) := l.map fun x => (.plain, member x)

def patterns (e : Edge) (l : List Pattern) : List (Edge × Node) := l.map fun x => (e, pattern x)

def decls (l : List Declarator) : List (Edge × Node) := l.map fun x => (.plain, decl x)

/-- A computed key. -/
def memberKey : MemberName → List Expr
  | .computed key => [key]
  | .static _ | .privateName _ => []

def patternKey : PatternKey → List Expr
  | .computed key => [key]
  | .name _ => []

def exprChildren : Expr → List (Edge × Node)
  | .legacyLiteral inner => exprs .plain [inner]
  | .parenthesized inner => exprs .plain [inner]
  | .array items => exprs .plain items
  | .object props => props.map fun p => (.plain, prop p)
  | .binary left right => exprs .plain [left, right]
  | .unary operand => exprs .plain [operand]
  | .call callee args => exprs .plain (callee :: args)
  | .member object property => exprs .plain [object, property]
  | .taggedTemplate tag es => exprs .plain (tag :: es)
  | .assignment target value => exprs .plain [target, value]
  | .logicalAssignment target value => exprs .plain [target, value]
  | .conditional test consequent alternate => exprs .plain [test, consequent, alternate]
  | .arrowFn b => [(.callable, body b)]
  | .classExpr decorators superclass ms =>
    exprs .plain decorators ++ exprs .plain superclass.toList ++ members ms
  | .fnExpr b => stmts .callable b
  | .new callee args => exprs .plain (callee :: args)
  | .spread operand => exprs .plain [operand]
  | .dynamicImport specifier options => exprs .plain (specifier :: options.toList)
  | .template es => exprs .plain es
  | .optionalChain object property => exprs .plain [object, property]
  | .await operand => exprs .plain [operand]
  | .yield operand => exprs .plain operand.toList
  | .yieldFrom operand => exprs .plain [operand]
  | .number | .bigIntLiteral | .string | .escapedString | .regex | .bool | .null | .undefined
  | .elision | .identifier _ | .thisExpr | .super | .importMeta | .newTarget => []

def propChildren : ObjectProp → List (Edge × Node)
  | .coverInitializedName _ initializer => exprs .plain [initializer]
  | .shorthand _ => []
  | .keyValue _ value => exprs .plain [value]
  | .computed key value => exprs .plain [key, value]
  | .computedMethod key b => exprs .plain [key] ++ stmts .callable b
  | .method _ b => stmts .callable b
  | .getter _ b => stmts .callable b
  | .setter _ b => stmts .callable b
  | .spread operand => exprs .plain [operand]

def stmtChildren : Statement → List (Edge × Node)
  | .resourceForOf _ iter b => exprs .plain [iter] ++ stmts .plain b
  | .resourceDeclaration b => stmts .plain b
  | .expr e => exprs .plain [e]
  | .varDecl _ init destructuring =>
    exprs .plain init.toList ++ patterns .plain destructuring.toList
  | .fnDecl _ b => stmts .callable b
  | .classDecl decorators _ superclass ms =>
    exprs .plain decorators ++ exprs .plain superclass.toList ++ members ms
  | .returnStmt value => exprs .plain value.toList
  | .ifStmt test consequent alternate =>
    exprs .plain [test] ++ stmts .plain consequent ++ stmts .plain (alternate.getD [])
  | .withStmt object b => exprs .plain [object] ++ stmts .plain b
  | .whileStmt test b => exprs .plain [test] ++ stmts .plain b
  | .doWhile test b => exprs .plain [test] ++ stmts .plain b
  | .forStmt head test update b =>
    (head.toList.map fun i => (.plain, forInit i)) ++ exprs .plain test.toList ++
      exprs .plain update.toList ++ stmts .plain b
  | .forIn b obj s => (.plain, binding b) :: exprs .plain [obj] ++ stmts .plain s
  | .forOf b iter s => (.plain, binding b) :: exprs .plain [iter] ++ stmts .plain s
  | .block b => stmts .plain b
  | .declarations b => stmts .plain b
  | .classInitialization fields => stmts .plain fields
  | .parameterInitialization initializers fields =>
    stmts .plain initializers ++ stmts .plain fields
  | .labeled _ b => stmts .plain [b]
  | .throwStmt value => exprs .plain [value]
  | .tryStmt b catchClause finalizer =>
    stmts .plain b ++ (catchClause.toList.map fun c => (.plain, handler c)) ++
      stmts .plain (finalizer.getD [])
  | .switchStmt disc cases => exprs .plain [disc] ++ cases.map fun c => (.plain, case c)
  | .exportDefault value => exprs .plain [value]
  | .breakStmt | .continueStmt | .labeledBreak _ | .labeledContinue _ | .exportNamed
  | .exportAll | .importStmt | .empty => []

def memberChildren : ClassMember → List (Edge × Node)
  | .method decorators key b =>
    exprs .plain decorators ++ exprs .plain (memberKey key) ++ stmts .callable b
  | .field decorators key init =>
    exprs .plain decorators ++ exprs .plain (memberKey key) ++ exprs .callable init.toList
  | .staticBlock b => stmts .callable b
  | .getter decorators key b =>
    exprs .plain decorators ++ exprs .plain (memberKey key) ++ stmts .callable b
  | .setter decorators key b =>
    exprs .plain decorators ++ exprs .plain (memberKey key) ++ stmts .callable b

def patternChildren : Pattern → List (Edge × Node)
  | .elision | .ident _ => []
  | .array items => patterns .plain items
  | .object props => props.map fun p => (.plain, patternProp p)
  | .rest inner => patterns .rest [inner]
  | .default inner value => patterns .plain [inner] ++ exprs .plain [value]
  | .member object property => exprs .plain [object, property]

/-- The children of a node. -/
def children : Node → List (Edge × Node)
  | expr e => exprChildren e
  | prop p => propChildren p
  | body (.expr e) => exprs .plain [e]
  | body (.block b) => stmts .plain b
  | stmt s => stmtChildren s
  | handler (.mk param b) => patterns .plain param.toList ++ stmts .plain b
  | binding (.declaration p initializer) =>
    patterns .plain [p] ++ exprs .plain initializer.toList
  | binding (.assignment target) => exprs .plain [target]
  | forInit (.var ds) => decls ds
  | forInit (.pattern p i trailing) => patterns .plain [p] ++ exprs .plain [i] ++ decls trailing
  | forInit (.expr e) => exprs .plain [e]
  | decl (.mk _ i) => exprs .plain i.toList
  | case (.mk test b) => exprs .plain test.toList ++ stmts .plain b
  | member m => memberChildren m
  | pattern p => patternChildren p
  | patternProp (.mk key target) => exprs .plain (patternKey key) ++ patterns .plain target.toList

/-- An identifier, a shorthand property, or a shorthand target with a default. -/
def Named (name : String) : Node → Prop
  | expr (.identifier n) => n = name
  | prop (.shorthand n) => n = name
  | prop (.coverInitializedName n _) => n = name
  | _ => False

/-- An identifier or a shorthand property. -/
def PlainlyNamed (name : String) : Node → Prop
  | expr (.identifier n) => n = name
  | prop (.shorthand n) => n = name
  | _ => False

/-- The size of a node. -/
noncomputable def size : Node → Nat
  | expr e => sizeOf e
  | prop p => sizeOf p
  | body b => sizeOf b
  | stmt s => sizeOf s
  | handler c => sizeOf c
  | binding b => sizeOf b
  | forInit i => sizeOf i
  | decl d => sizeOf d
  | case c => sizeOf c
  | member m => sizeOf m
  | pattern p => sizeOf p
  | patternProp p => sizeOf p

section Size

variable {k : Nat}

theorem sizeOf_lt_of_mem_option {α : Type} [SizeOf α] {o : Option α} {a : α} (h : a ∈ o) :
    sizeOf a < sizeOf o := by
  cases h
  simp

theorem sizeOf_getD_le {α : Type} [SizeOf α] (o : Option (List α)) :
    sizeOf (o.getD []) ≤ sizeOf o := by
  cases o
  · simp
  · simp

/-- The children of a list are smaller than what holds the list. -/
def Below (l : List (Edge × Node)) (k : Nat) : Prop := ∀ c ∈ l, c.2.size < k

@[simp] theorem below_nil : Below [] k := nofun

@[simp] theorem below_cons {c : Edge × Node} {l : List (Edge × Node)} :
    Below (c :: l) k ↔ c.2.size < k ∧ Below l k := List.forall_mem_cons

@[simp] theorem below_append {l l' : List (Edge × Node)} :
    Below (l ++ l') k ↔ Below l k ∧ Below l' k := List.forall_mem_append

@[simp] theorem below_map {α : Type} {f : α → Edge × Node} {l : List α} :
    Below (l.map f) k ↔ ∀ x ∈ l, (f x).2.size < k := List.forall_mem_map

end Size

theorem below_exprChildren (e : Expr) : Below (exprChildren e) (sizeOf e) := by
  cases e
  all_goals simp [exprChildren, exprs, stmts, members, size]
  all_goals grind [→ List.sizeOf_lt_of_mem, → sizeOf_lt_of_mem_option]

theorem below_propChildren (p : ObjectProp) : Below (propChildren p) (sizeOf p) := by
  cases p
  all_goals simp [propChildren, exprs, stmts, size]
  all_goals grind [→ List.sizeOf_lt_of_mem]

theorem below_stmtChildren (s : Statement) : Below (stmtChildren s) (sizeOf s) := by
  cases s
  all_goals simp [stmtChildren, exprs, stmts, members, patterns, size]
  all_goals grind [→ List.sizeOf_lt_of_mem, → sizeOf_lt_of_mem_option, sizeOf_getD_le]

theorem below_memberChildren (m : ClassMember) : Below (memberChildren m) (sizeOf m) := by
  have hkey : ∀ key : MemberName, ∀ x ∈ memberKey key, sizeOf x < sizeOf key := by
    intro key x hx
    cases key with
    | computed k =>
      cases List.mem_singleton.1 hx
      simp
    | _ => cases hx
  cases m
  all_goals simp [memberChildren, exprs, stmts, size]
  all_goals grind [→ List.sizeOf_lt_of_mem, → sizeOf_lt_of_mem_option]

theorem below_patternChildren (p : Pattern) : Below (patternChildren p) (sizeOf p) := by
  cases p
  all_goals simp [patternChildren, exprs, patterns, size]
  all_goals grind [→ List.sizeOf_lt_of_mem]

theorem size_children (n : Node) : Below n.children n.size := by
  cases n with
  | expr e => exact below_exprChildren e
  | prop p => exact below_propChildren p
  | stmt s => exact below_stmtChildren s
  | member m => exact below_memberChildren m
  | pattern p => exact below_patternChildren p
  | body b =>
    cases b
    all_goals simp [children, exprs, stmts, size]
    all_goals grind [→ List.sizeOf_lt_of_mem]
  | handler c =>
    cases c
    simp [children, patterns, stmts, size]
    grind [→ List.sizeOf_lt_of_mem, → sizeOf_lt_of_mem_option]
  | binding b =>
    cases b
    all_goals simp [children, exprs, patterns, size]
    all_goals grind [→ sizeOf_lt_of_mem_option]
  | forInit i =>
    cases i
    all_goals simp [children, exprs, patterns, decls, size]
    all_goals grind [→ List.sizeOf_lt_of_mem]
  | decl d =>
    cases d
    simp [children, exprs, size]
    grind [→ sizeOf_lt_of_mem_option]
  | case c =>
    cases c
    simp [children, exprs, stmts, size]
    grind [→ List.sizeOf_lt_of_mem, → sizeOf_lt_of_mem_option]
  | patternProp p =>
    cases p with
    | mk key target =>
      cases key
      all_goals simp [children, patternKey, exprs, patterns, size]
      all_goals grind [→ sizeOf_lt_of_mem_option]

/-! ## The analysis, node by node -/

variable (name : String)

/-- The analysis of references. -/
def references : Node → Bool
  | expr e => exprReferences name e
  | prop p => propReferences name p
  | body b => arrowBodyReferences name b
  | stmt s => stmtReferences name s
  | handler c => catchReferences name c
  | binding b => forBindingReferences name b
  | forInit i => forInitReferences name i
  | decl d => declReferences name d
  | case c => caseReferences name c
  | member m => memberReferences name m
  | pattern p => patternReferences name p
  | patternProp p => patternPropReferences name p

/-- The analysis of captures. -/
def captures : Node → Bool
  | expr e => exprCapturesIdentifier name e
  | prop p => propCaptures name p
  | body (.expr e) => exprCapturesIdentifier name e
  | body (.block b) => statementsCaptureIdentifier name b
  | stmt s => statementCaptures name s
  | handler c => catchCaptures name c
  | binding b => forBindingCaptures name b
  | forInit i => forInitCaptures name i
  | decl d => declCaptures name d
  | case c => caseCaptures name c
  | member m => classMemberCaptures name m
  | pattern p => patternCapturesIdentifier name p
  | patternProp p => patternPropCaptures name p

variable {name}

/-- A walk of a list finds what the walk of its elements finds. -/
theorem any_iff {α : Type} {walk : α → Bool} {walks : List α → Bool} (hnil : walks [] = false)
    (hcons : ∀ a l, walks (a :: l) = (walk a || walks l)) (l : List α) :
    walks l = true ↔ ∃ a ∈ l, walk a = true := by
  induction l with
  | nil => simp [hnil]
  | cons a l ih => simp [hcons, ih]

@[simp] theorem exprsReference_iff (l : List Expr) :
    exprsReference name l = true ↔ ∃ a ∈ l, exprReferences name a = true :=
  any_iff rfl (fun _ _ => rfl) l

@[simp] theorem propsReference_iff (l : List ObjectProp) :
    propsReference name l = true ↔ ∃ a ∈ l, propReferences name a = true :=
  any_iff rfl (fun _ _ => rfl) l

@[simp] theorem membersReference_iff (l : List ClassMember) :
    membersReference name l = true ↔ ∃ a ∈ l, memberReferences name a = true :=
  any_iff rfl (fun _ _ => rfl) l

@[simp] theorem patternsReference_iff (l : List Pattern) :
    patternsReference name l = true ↔ ∃ a ∈ l, patternReferences name a = true :=
  any_iff rfl (fun _ _ => rfl) l

@[simp] theorem patternPropsReference_iff (l : List PatternProp) :
    patternPropsReference name l = true ↔ ∃ a ∈ l, patternPropReferences name a = true :=
  any_iff rfl (fun _ _ => rfl) l

@[simp] theorem declsReference_iff (l : List Declarator) :
    declsReference name l = true ↔ ∃ a ∈ l, declReferences name a = true :=
  any_iff rfl (fun _ _ => rfl) l

@[simp] theorem casesReference_iff (l : List SwitchCase) :
    casesReference name l = true ↔ ∃ a ∈ l, caseReferences name a = true :=
  any_iff rfl (fun _ _ => rfl) l

@[simp] theorem stmtsReference_iff (l : List Statement) :
    stmtsReference name l = true ↔ ∃ a ∈ l, stmtReferences name a = true :=
  any_iff rfl (fun _ _ => rfl) l

@[simp] theorem optExprReferences_iff (o : Option Expr) :
    optExprReferences name o = true ↔ ∃ a, o = some a ∧ exprReferences name a = true := by
  cases o <;> simp [optExprReferences]

@[simp] theorem optPatternReferences_iff (o : Option Pattern) :
    optPatternReferences name o = true ↔ ∃ a, o = some a ∧ patternReferences name a = true := by
  cases o <;> simp [optPatternReferences]

@[simp] theorem optForInitReferences_iff (o : Option ForInit) :
    optForInitReferences name o = true ↔ ∃ a, o = some a ∧ forInitReferences name a = true := by
  cases o <;> simp [optForInitReferences]

@[simp] theorem optCatchReferences_iff (o : Option CatchClause) :
    optCatchReferences name o = true ↔ ∃ a, o = some a ∧ catchReferences name a = true := by
  cases o <;> simp [optCatchReferences]

@[simp] theorem optStmtsReference_eq (o : Option (List Statement)) :
    optStmtsReference name o = stmtsReference name (o.getD []) := by
  cases o <;> rfl

@[simp] theorem memberKeyReferences_iff (key : MemberName) :
    memberKeyReferences name key = true ↔ ∃ a ∈ memberKey key, exprReferences name a = true := by
  cases key <;> simp [memberKeyReferences, memberKey]

@[simp] theorem patternKeyReferences_iff (key : PatternKey) :
    patternKeyReferences name key = true ↔ ∃ a ∈ patternKey key, exprReferences name a = true := by
  cases key <;> simp [patternKeyReferences, patternKey]

@[simp] theorem exprsCapture_iff (l : List Expr) :
    exprsCapture name l = true ↔ ∃ a ∈ l, exprCapturesIdentifier name a = true :=
  any_iff rfl (fun _ _ => rfl) l

@[simp] theorem propsCapture_iff (l : List ObjectProp) :
    propsCapture name l = true ↔ ∃ a ∈ l, propCaptures name a = true :=
  any_iff rfl (fun _ _ => rfl) l

@[simp] theorem classMembersCapture_iff (l : List ClassMember) :
    classMembersCapture name l = true ↔ ∃ a ∈ l, classMemberCaptures name a = true :=
  any_iff rfl (fun _ _ => rfl) l

@[simp] theorem patternsCapture_iff (l : List Pattern) :
    patternsCapture name l = true ↔ ∃ a ∈ l, patternCapturesIdentifier name a = true :=
  any_iff rfl (fun _ _ => rfl) l

@[simp] theorem patternPropsCapture_iff (l : List PatternProp) :
    patternPropsCapture name l = true ↔ ∃ a ∈ l, patternPropCaptures name a = true :=
  any_iff rfl (fun _ _ => rfl) l

@[simp] theorem declsCapture_iff (l : List Declarator) :
    declsCapture name l = true ↔ ∃ a ∈ l, declCaptures name a = true :=
  any_iff rfl (fun _ _ => rfl) l

@[simp] theorem casesCapture_iff (l : List SwitchCase) :
    casesCapture name l = true ↔ ∃ a ∈ l, caseCaptures name a = true :=
  any_iff rfl (fun _ _ => rfl) l

@[simp] theorem statementsCaptureIdentifier_iff (l : List Statement) :
    statementsCaptureIdentifier name l = true ↔ ∃ a ∈ l, statementCaptures name a = true :=
  any_iff rfl (fun _ _ => rfl) l

@[simp] theorem optExprCaptures_iff (o : Option Expr) :
    optExprCaptures name o = true ↔ ∃ a, o = some a ∧ exprCapturesIdentifier name a = true := by
  cases o <;> simp [optExprCaptures]

@[simp] theorem optPatternCaptures_iff (o : Option Pattern) :
    optPatternCaptures name o = true ↔
      ∃ a, o = some a ∧ patternCapturesIdentifier name a = true := by
  cases o <;> simp [optPatternCaptures]

@[simp] theorem optForInitCaptures_iff (o : Option ForInit) :
    optForInitCaptures name o = true ↔ ∃ a, o = some a ∧ forInitCaptures name a = true := by
  cases o <;> simp [optForInitCaptures]

@[simp] theorem optCatchCaptures_iff (o : Option CatchClause) :
    optCatchCaptures name o = true ↔ ∃ a, o = some a ∧ catchCaptures name a = true := by
  cases o <;> simp [optCatchCaptures]

@[simp] theorem optStatementsCapture_eq (o : Option (List Statement)) :
    optStatementsCapture name o = statementsCaptureIdentifier name (o.getD []) := by
  cases o <;> rfl

@[simp] theorem memberKeyCaptures_iff (key : MemberName) :
    memberKeyCaptures name key = true ↔
      ∃ a ∈ memberKey key, exprCapturesIdentifier name a = true := by
  cases key <;> simp [memberKeyCaptures, memberKey]

@[simp] theorem patternKeyCaptures_iff (key : PatternKey) :
    patternKeyCaptures name key = true ↔
      ∃ a ∈ patternKey key, exprCapturesIdentifier name a = true := by
  cases key <;> simp [patternKeyCaptures, patternKey]

/-- The walk finds a child along an edge that it follows. -/
def Through (follow : Edge → Prop) (walk : Node → Bool) (l : List (Edge × Node)) : Prop :=
  ∃ c ∈ l, follow c.1 ∧ walk c.2 = true

section Through

variable {follow : Edge → Prop} {walk : Node → Bool}

@[simp] theorem through_nil : ¬ Through follow walk [] := by simp [Through]

@[simp] theorem through_cons {c : Edge × Node} {l : List (Edge × Node)} :
    Through follow walk (c :: l) ↔ follow c.1 ∧ walk c.2 = true ∨ Through follow walk l := by
  simp [Through]

@[simp] theorem through_append {l l' : List (Edge × Node)} :
    Through follow walk (l ++ l') ↔ Through follow walk l ∨ Through follow walk l' := by
  simp [Through, or_and_right, exists_or]

@[simp] theorem through_map {α : Type} {f : α → Edge × Node} {l : List α} :
    Through follow walk (l.map f) ↔ ∃ a ∈ l, follow (f a).1 ∧ walk (f a).2 = true := by
  constructor
  · rintro ⟨c, hc, h⟩
    obtain ⟨a, ha, rfl⟩ := List.mem_map.1 hc
    exact ⟨a, ha, h⟩
  · rintro ⟨a, ha, h⟩
    exact ⟨f a, List.mem_map_of_mem ha, h⟩

end Through

theorem references_iff (n : Node) : references name n = true ↔
    PlainlyNamed name n ∨ Through (· ≠ .rest) (references name) n.children := by
  cases n with
  | expr e =>
    cases e
    all_goals
      simp [references, exprReferences, PlainlyNamed, children, exprChildren, exprs, stmts,
        members, or_assoc]
  | prop p =>
    cases p
    all_goals
      simp [references, propReferences, PlainlyNamed, children, propChildren, exprs, stmts]
  | body b =>
    cases b
    all_goals simp [references, arrowBodyReferences, PlainlyNamed, children, exprs, stmts]
  | stmt s =>
    cases s
    all_goals
      simp [references, stmtReferences, PlainlyNamed, children, stmtChildren, exprs, stmts,
        members, patterns, or_assoc]
  | handler c =>
    cases c
    simp [references, catchReferences, PlainlyNamed, children, patterns, stmts]
  | binding b =>
    cases b
    all_goals simp [references, forBindingReferences, PlainlyNamed, children, patterns, exprs]
  | forInit i =>
    cases i
    all_goals
      simp [references, forInitReferences, PlainlyNamed, children, patterns, exprs, decls, or_assoc]
  | decl d =>
    cases d
    simp [references, declReferences, PlainlyNamed, children, exprs]
  | case c =>
    cases c
    simp [references, caseReferences, PlainlyNamed, children, exprs, stmts]
  | member m =>
    cases m
    all_goals
      simp [references, memberReferences, PlainlyNamed, children, memberChildren, exprs, stmts,
        or_assoc]
  | pattern p =>
    cases p
    all_goals
      simp [references, patternReferences, PlainlyNamed, children, patternChildren, exprs, patterns]
  | patternProp p =>
    cases p
    simp [references, patternPropReferences, PlainlyNamed, children, exprs, patterns]

theorem captures_iff (n : Node) : captures name n = true ↔
    Through (· = .callable) (references name) n.children ∨
      Through (· ≠ .callable) (captures name) n.children := by
  cases n with
  | expr e =>
    cases e
    all_goals
      simp [captures, exprCapturesIdentifier, references, children, exprChildren, exprs, stmts,
        members, or_assoc]
  | prop p =>
    cases p
    all_goals
      simp [captures, propCaptures, references, children, propChildren, exprs, stmts, or_comm]
  | body b =>
    cases b
    all_goals simp [captures, children, exprs, stmts]
  | stmt s =>
    cases s
    all_goals
      simp [captures, statementCaptures, references, children, stmtChildren, exprs, stmts,
        members, patterns, or_assoc]
  | handler c =>
    cases c
    simp [captures, catchCaptures, children, patterns, stmts]
  | binding b =>
    cases b
    all_goals simp [captures, forBindingCaptures, children, patterns, exprs]
  | forInit i =>
    cases i
    all_goals simp [captures, forInitCaptures, children, patterns, exprs, decls, or_assoc]
  | decl d =>
    cases d
    simp [captures, declCaptures, children, exprs]
  | case c =>
    cases c
    simp [captures, caseCaptures, children, exprs, stmts]
  | member m =>
    cases m
    all_goals
      simp [captures, classMemberCaptures, references, children, memberChildren, exprs, stmts,
        or_comm, or_left_comm]
  | pattern p =>
    cases p
    all_goals simp [captures, patternCapturesIdentifier, children, patternChildren, exprs, patterns]
  | patternProp p =>
    cases p
    simp [captures, patternPropCaptures, children, exprs, patterns]

end Node

/-! ## Completeness -/

open NapiVm.Parser.Node

/-- A name occurs below a node. -/
def Occurs (name : String) : Node → Prop :=
  Occurrence.Occurs children (fun _ => True) (Named name)

/-- A name occurs below a node at a place that the analysis of references looks at: not as a
shorthand target with a default, and not under a rest element. -/
def Seen (name : String) : Node → Prop :=
  Occurrence.Occurs children (· ≠ .rest) (PlainlyNamed name)

/-- Something holds of the code of an outermost callable or class member below a node. -/
def InCallable (holds : Node → Prop) : Node → Prop :=
  Occurrence.Occurs children (· ≠ .callable)
    fun n => ∃ c ∈ n.children, c.1 = .callable ∧ holds c.2

variable {name : String} {n : Node}

/-- The analysis of references finds what is seen. -/
theorem references_iff_seen : references name n = true ↔ Seen name n :=
  Occurrence.walk_iff (references name · = true) size size_children references_iff

/-- The analysis of captures finds what is seen in a callable. -/
theorem captures_iff_seen : captures name n = true ↔ InCallable (Seen name) n := by
  refine Occurrence.walk_iff (captures name · = true) size size_children fun n => ?_
  rw [captures_iff]
  simp only [Through, references_iff_seen]

/-- The analysis misses no occurrence of a name in statements. -/
def AnalysisComplete (name : String) (stmts : List Statement) : Prop :=
  (Occurs name (.body (.block stmts)) → stmtsReference name stmts = true) ∧
    (InCallable (Occurs name) (.body (.block stmts)) →
      statementsCaptureIdentifier name stmts = true)

/-- **When the analysis is complete**: a name that occurs is also seen, and one that occurs in a
callable is seen in one. -/
theorem analysis_complete_iff (name : String) (stmts : List Statement) :
    AnalysisComplete name stmts ↔
      (Occurs name (.body (.block stmts)) → Seen name (.body (.block stmts))) ∧
        (InCallable (Occurs name) (.body (.block stmts)) →
          InCallable (Seen name) (.body (.block stmts))) := by
  have href : stmtsReference name stmts = true ↔ Seen name (.body (.block stmts)) :=
    references_iff_seen (n := .body (.block stmts))
  have hcap : statementsCaptureIdentifier name stmts = true ↔
      InCallable (Seen name) (.body (.block stmts)) :=
    captures_iff_seen (n := .body (.block stmts))
  rw [AnalysisComplete, href, hcap]

/-- The target of `({x = 1} = o)` is missed. -/
theorem shorthand_default_missed : ¬ ∀ name stmts, AnalysisComplete name stmts := by
  intro h
  have hmissed : stmtsReference "x" [.expr (.assignment
      (.object [.coverInitializedName "x" .number]) (.identifier "o"))] = false := by decide
  refine absurd ((h "x" _).1 ?_) (hmissed ▸ Bool.false_ne_true)
  exact .child (List.mem_singleton.2 rfl) trivial <| .child (List.mem_singleton.2 rfl) trivial <|
    .child List.mem_cons_self trivial <| .child (List.mem_singleton.2 rfl) trivial <| .here rfl

end NapiVm.Parser
