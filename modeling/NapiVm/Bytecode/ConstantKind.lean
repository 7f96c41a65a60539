import NapiVm.Bytecode.VerifyRun

/-!
# The constants an instruction finds

The virtual machine reads a constant by matching on its variant, and fails with an internal error
on another one.

* `handlerReads` — the constants an instruction reads, with the variants its handler matches on.
* `execBody_quiet` — an instruction that finds them raises none of the constant errors.
* `finds_iff` — an accepted instruction finds them when its names are names.
* `verified_constants` — so it is for accepted functions and their runs.
-/

namespace NapiVm

open VM NapiVm.Action Checker List

variable {W : Type} {f : BytecodeFunction}

/-! ## What is read -/

/-- What a handler matches a constant on. -/
inductive ConstantKind where
  | loadable | name | stringList | function | astFunction | anyFunction | objectTemplate
  | spreadTemplate | classTemplate | importTemplate | exportNamedTemplate | exportAllTemplate
  deriving DecidableEq, Repr

/-- The variants of a kind. -/
def ConstantKind.has : ConstantKind → Constant → Bool
  | .loadable, .number _ | .loadable, .string _ | .loadable, .name _ | .loadable, .bool _
  | .loadable, .null | .loadable, .undefined | .loadable, .bigInt _ | .loadable, .regex _ _
  | .name, .name _
  | .stringList, .stringList _
  | .function, .function _ | .anyFunction, .function _
  | .astFunction, .astFunction _ | .anyFunction, .astFunction _
  | .objectTemplate, .objectTemplate _
  | .spreadTemplate, .spreadTemplate _
  | .classTemplate, .classTemplate _
  | .importTemplate, .importTemplate _
  | .exportNamedTemplate, .exportNamedTemplate _
  | .exportAllTemplate, .exportAllTemplate _ => true
  | _, _ => false

/-- The key an entry of an object literal names by a constant. -/
def PropEntry.nameKey (entry : PropEntry) : Option Nat :=
  match entry.kind, entry.key with
  | .prototype, _ | .spread, _ => none
  | _, some (.const index) => some index
  | _, _ => none

/-- The names an object literal reads. -/
def templateNames (f : BytecodeFunction) (tmpl : Nat) : List Nat :=
  match f.constants[tmpl]? with
  | some (.objectTemplate entries) => entries.filterMap PropEntry.nameKey
  | _ => []

/-- The syntax tree of a static block. -/
def ClassStaticTemplate.code : ClassStaticTemplate → Option Nat
  | .block index => some index
  | .field _ _ => none

/-- The constants the assembly of a class reads. -/
def classReads (f : BytecodeFunction) (tmpl : Nat) : List (Nat × ConstantKind) :=
  match f.constants[tmpl]? with
  | some (.classTemplate template) =>
    (template.ctorFunc, .anyFunction) ::
      ((template.members.filterMap ClassMemberTemplate.func).map fun i => (i, .anyFunction)) ++
      (template.blocks.filterMap ClassStaticTemplate.code).map fun i => (i, .astFunction)
  | _ => []

/-- The names an instruction reads. -/
def nameReads (f : BytecodeFunction) : Instr → List Nat
  | .annexBUpdate name _ _ | .initGlobal name _ _ | .storeGlobal name _
  | .defineGlobal name _ _ _ | .annexBInit name | .hoistVarGlobal name | .bareVarGlobal name
  | .raise name | .loadGlobal _ name | .typeofGlobal _ name | .delGlobal _ name
  | .loadGlobalSoft _ name | .loadCallBinding _ _ name | .resolveAssignmentBinding _ _ name
  | .readAssignmentBinding _ _ _ name | .writeAssignmentBinding _ _ name _
  | .compoundGlobal _ name _ _ | .incGlobal _ name _ _ | .privateIn _ _ name => [name]
  | .classScope name => name.toList
  | .buildObject _ tmpl => templateNames f tmpl
  | _ => []

/-- The other constants an instruction reads. -/
def otherReads (f : BytecodeFunction) : Instr → List (Nat × ConstantKind)
  | .loadConst _ cst => [(cst, .loadable)]
  | .template _ quasis _ _ => [(quasis, .stringList)]
  | .classPrivateEnvironment names => [(names, .stringList)]
  | .makeFunction _ func => [(func, .function)]
  | .makeAstFunction _ ast => [(ast, .astFunction)]
  | .buildObject _ tmpl => [(tmpl, .objectTemplate)]
  | .directEvalSpread _ _ _ tmpl | .constructSpread _ _ tmpl | .callSpread _ _ tmpl
  | .methodSpread _ _ _ tmpl | .buildArray _ tmpl | .superCallSpread _ _ tmpl =>
    [(tmpl, .spreadTemplate)]
  | .buildClass _ tmpl => (tmpl, .classTemplate) :: classReads f tmpl
  | .import tmpl => [(tmpl, .importTemplate)]
  | .exportNamed tmpl => [(tmpl, .exportNamedTemplate)]
  | .exportAll tmpl => [(tmpl, .exportAllTemplate)]
  | _ => []

/-- The constants an instruction reads, with what its handler matches them on. -/
def handlerReads (f : BytecodeFunction) (instr : Instr) : List (Nat × ConstantKind) :=
  (nameReads f instr).map (fun i => (i, .name)) ++ otherReads f instr

/-- The pool has a constant of the kind at the index. -/
def HasKind (f : BytecodeFunction) (i : Nat) (kind : ConstantKind) : Prop :=
  ∃ c, f.constants[i]? = some c ∧ kind.has c = true

/-- The instruction finds what it reads. -/
def Finds (f : BytecodeFunction) (instr : Instr) : Prop :=
  ∀ read ∈ handlerReads f instr, HasKind f read.1 read.2

/-- The names the instruction reads are names. -/
def NamesOk (f : BytecodeFunction) (instr : Instr) : Prop :=
  ∀ i ∈ nameReads f instr, HasKind f i .name

/-! ## Quiet code -/

/-- The internal errors about a constant of another kind. -/
def constantErrors : List String :=
  ["bad string constant", "invalid load_const", "bad object template", "bad function constant",
    "bad ast-function constant", "bad template constant", "bad class template",
    "bad private declaration list", "bad import template", "bad export template",
    "bad class function constant", "bad class static block", "bad spread template"]

/-- An event other than a constant error. -/
def Event.Plain : Event → Prop
  | .internal what => what ∉ constantErrors
  | .use _ _ _ | .range _ _ _ | .land _ _ => True

/-- No constant error on the trace. -/
def QuietTrace (m : Machine W) : Prop := ∀ e ∈ m.trace, e.Plain

/-- `m` adds no constant error to the trace. -/
def Quiet {α : Type} (m : VM W α) : Prop := Preserves QuietTrace m fun _ => True

section Primitives

variable {α β : Type}

@[grind ←] theorem Quiet.ret (a : α) : Quiet (pure a : VM W α) := Preserves.ret trivial

@[grind ←] theorem Quiet.throw (e : VmErr) : Quiet (Action.throw e : VM W α) :=
  Preserves.of_throw e

@[grind ←] theorem Quiet.seq {m : VM W α} {k : α → VM W β} (hm : Quiet m) (hk : ∀ a, Quiet (k a)) :
    Quiet (m >>= k) := Preserves.bind hm fun a _ => hk a

@[grind ←] theorem Quiet.foldlM {l : List β} {g : α → β → VM W α}
    (h : ∀ a, ∀ x ∈ l, Quiet (g a x)) (a : α) : Quiet (l.foldlM g a) := Preserves.foldlM h a

theorem note_quiet {e : Event} (h : e.Plain) : Quiet (note e : VM W Unit) := by
  refine Preserves.of_modify fun m hm e' he' => ?_
  rcases mem_cons.1 he' with rfl | he'
  · exact h
  · exact hm e' he'

@[grind ←] theorem frame_quiet : Quiet (frame : VM W CallFrame) :=
  Preserves.of_get.bind fun _ _ => Preserves.ret trivial

@[grind ←] theorem modifyFrame_quiet (g : CallFrame → CallFrame) :
    Quiet (modifyFrame g : VM W Unit) :=
  Preserves.of_modify fun _ hm => hm

@[grind ←] theorem helper_quiet (host : Host W) (h : Helper) : Quiet (helper host h) := by
  intro m hm
  unfold helper
  rcases host h m.world with ⟨_ | r, w⟩
  · exact ⟨hm, trivial⟩
  · exact ⟨hm, trivial⟩

theorem internal_quiet {what : String} (h : what ∉ constantErrors) :
    Quiet (internal what : VM W α) :=
  (note_quiet (e := .internal what) h).seq fun _ => Quiet.throw _

theorem index_preserves (t : Table) (l : List α) (i : Nat) :
    Preserves QuietTrace (index t l i : VM W α) fun a => l[i]? = some a := by
  refine Preserves.bind (note_quiet (e := .use t i l.length) trivial) fun _ _ => ?_
  cases l[i]? with
  | none => exact Preserves.of_abort
  | some a => exact Preserves.ret rfl

@[grind ←] theorem index_quiet (t : Table) (l : List α) (i : Nat) : Quiet (index t l i : VM W α) :=
  (index_preserves t l i).weaken fun _ _ => trivial

@[grind ←] theorem range_quiet (start stop size : Nat) :
    Quiet (note (.range start stop size) : VM W Unit) := note_quiet trivial

@[grind ←] theorem land_quiet (target size : Nat) :
    Quiet (note (.land target size) : VM W Unit) := note_quiet trivial

@[grind ←] theorem use_quiet (t : Table) (i size : Nat) :
    Quiet (note (.use t i size) : VM W Unit) := note_quiet trivial

@[grind ←] theorem abort_quiet : Quiet (Action.abort : VM W α) := Preserves.of_abort

theorem constant_preserves (f : BytecodeFunction) (i : Nat) :
    Preserves QuietTrace (constant f i : VM W Constant) fun c => f.constants[i]? = some c :=
  index_preserves _ _ _

theorem constant?_preserves (f : BytecodeFunction) (i : Nat) :
    Preserves QuietTrace (constant? f i : VM W (Option Constant)) fun c => f.constants[i]? = c :=
  Preserves.bind (use_quiet _ _ _) fun _ _ => Preserves.ret rfl

/-- What reads a constant of a kind is quiet when it is for the constants of the kind. -/
theorem constant_seq {i : Nat} {kind : ConstantKind} {k : Constant → VM W β}
    (h : HasKind f i kind) (hk : ∀ c, f.constants[i]? = some c → kind.has c = true → Quiet (k c)) :
    Quiet (constant f i >>= k) := by
  refine Preserves.bind (constant_preserves f i) fun c hc => ?_
  obtain ⟨c', hc', hhas⟩ := h
  cases hc.symm.trans hc'
  exact hk c hc hhas

theorem constant?_seq {i : Nat} {kind : ConstantKind} {k : Option Constant → VM W β}
    (h : HasKind f i kind)
    (hk : ∀ c, f.constants[i]? = some c → kind.has c = true → Quiet (k (some c))) :
    Quiet (constant? f i >>= k) := by
  refine Preserves.bind (constant?_preserves f i) fun o ho => ?_
  obtain ⟨c, hc, hhas⟩ := h
  cases ho.symm.trans hc
  exact hk c hc hhas

@[grind ←] theorem reg_quiet (r : Reg) : Quiet (reg r : VM W Value) := by
  unfold reg
  grind

@[grind ←] theorem setReg_quiet (r : Reg) (v : Value) : Quiet (setReg r v : VM W Unit) := by
  unfold setReg
  grind

@[grind ←] theorem slot_quiet (s : LocalSlot) : Quiet (slot s : VM W RunSlot) := by
  unfold slot
  grind

@[grind ←] theorem setSlot_quiet (s : LocalSlot) (v : RunSlot) :
    Quiet (setSlot s v : VM W Unit) := by
  unfold setSlot
  grind

@[grind ←] theorem slotInfo_quiet (s : LocalSlot) : Quiet (slotInfo f s : VM W SlotInfo) :=
  index_quiet _ _ _

@[grind ←] theorem cache_quiet (site : Nat) : Quiet (cache f site : VM W Unit) := by
  unfold cache
  grind

@[grind ←] theorem jumpTo_quiet (target : Target) : Quiet (jumpTo f target : VM W Unit) := by
  unfold jumpTo
  grind

@[grind ←] theorem registerRange_quiet (start : Reg) (count : Nat) (what : String)
    (h : what ∉ constantErrors) : Quiet (registerRange start count what : VM W _) := by
  have hout : Quiet (internal what : VM W (List Value)) := internal_quiet h
  unfold registerRange
  grind

@[grind ←] theorem borrowRange_quiet (start : Reg) (count : Nat) :
    Quiet (borrowRange start count : VM W _) := registerRange_quiet _ _ _ (by decide)

@[grind ←] theorem takeRange_quiet (start : Reg) (count : Nat) :
    Quiet (takeRange start count : VM W _) := registerRange_quiet _ _ _ (by decide)

@[grind ←] theorem constString_quiet {i : Nat} (h : HasKind f i .name) :
    Quiet (constString f i : VM W String) := by
  refine constant?_seq h fun c _ hc => ?_
  cases c with
  | name text => exact Quiet.ret _
  | _ => cases hc

@[grind ←] theorem currentScope_quiet (host : Host W) : Quiet (currentScope host) := by
  unfold currentScope
  grind

@[grind ←] theorem scopeStrict_quiet (host : Host W) : Quiet (scopeStrict host) := by
  unfold scopeStrict
  grind

end Primitives

/-! ## The parts of an instruction -/

section Parts

variable (host : Host W)

@[grind ←] theorem checkSlotWritable_quiet (s : LocalSlot) :
    Quiet (checkSlotWritable f s : VM W Unit) := by
  unfold checkSlotWritable
  grind

@[grind ←] theorem liveSlot_quiet (s : LocalSlot) : Quiet (liveSlot f s : VM W Value) := by
  unfold liveSlot
  grind

@[grind ←] theorem initSlot_quiet (s : LocalSlot) (v : Value) :
    Quiet (initSlot s v : VM W Unit) := by
  unfold initSlot
  grind

@[grind ←] theorem compoundSlot_quiet (s : LocalSlot) (op : AssignOp) (rhs : Reg) :
    Quiet (compoundSlot host f s op rhs) := by
  unfold compoundSlot
  cases op.binOp with
  | none => exact internal_quiet (by decide)
  | some bin => grind

@[grind ←] theorem callOrTail_quiet (dst : Reg) (callee this : Value) (args : List Value) :
    Quiet (callOrTail host f dst callee this args) := by
  unfold callOrTail
  grind

@[grind ←] theorem evalOrCall_quiet (dst : Reg) (callee this : Value) (args : List Value) :
    Quiet (evalOrCall host f dst callee this args) := by
  unfold evalOrCall
  grind

@[grind ←] theorem receiverReg_quiet (r : Option Reg) : Quiet (receiverReg r : VM W Value) := by
  unfold receiverReg
  grind

@[grind ←] theorem optReg_quiet (r : Option Reg) : Quiet (optReg r : VM W (Option Value)) := by
  unfold optReg
  grind

@[grind ←] theorem spreadTemplate_quiet {tmpl : Nat} (h : HasKind f tmpl .spreadTemplate) :
    Quiet (spreadTemplate f tmpl : VM W _) := by
  refine constant?_seq h fun c _ hc => ?_
  cases c with
  | spreadTemplate entries => exact Quiet.ret _
  | _ => cases hc

@[grind ←] theorem snapshotItems_quiet (value : Value) : Quiet (snapshotItems host value) := by
  unfold snapshotItems
  split
  · exact helper_quiet host _
  · exact internal_quiet (by decide)

@[grind ←] theorem pushAll_quiet (items more : List Value) (limit : String) :
    Quiet (pushAll items more limit : VM W _) := by
  unfold pushAll
  grind

@[grind ←] theorem spreadArgv_quiet (template : List SpreadEntry) :
    Quiet (spreadArgv host template) := by
  unfold spreadArgv
  grind

@[grind ←] theorem spreadArray_quiet (template : List SpreadEntry) :
    Quiet (spreadArray host template) := by
  unfold spreadArray
  grind

theorem entryKey_quiet {key : Option KeySrc}
    (h : ∀ i, key = some (.const i) → HasKind f i .name) : Quiet (entryKey host f key) := by
  unfold entryKey
  split
  · exact internal_quiet (by decide)
  · exact constString_quiet (h _ rfl)
  · refine (reg_quiet _).seq fun v => ?_
    split
    · exact helper_quiet host _
    · exact helper_quiet host _
    · exact helper_quiet host _
    · exact internal_quiet (by decide)

@[grind ←] theorem entryValue_quiet (home : Env) (kind : PropKind) (value : Value) :
    Quiet (entryValue host home kind value) := by
  unfold entryValue
  grind

theorem entryParts_quiet {entry : PropEntry} (h : ∀ i ∈ entry.nameKey, HasKind f i .name)
    (home : Env) (parts : LiteralParts) : Quiet (entryParts host f home parts entry) := by
  unfold entryParts
  split
  · grind
  · grind
  · next hproto hspread =>
      have hkey : Quiet (entryKey host f entry.key) := entryKey_quiet host fun i hi => h i (by
        rw [PropEntry.nameKey, hi]
        cases hk : entry.kind with
        | prototype => exact absurd hk hproto
        | spread => exact absurd hk hspread
        | _ => rfl)
      grind

theorem buildObject_quiet {entries : List PropEntry}
    (h : ∀ i ∈ entries.filterMap PropEntry.nameKey, HasKind f i .name) :
    Quiet (buildObject host f entries) := by
  have hentry : ∀ home parts, ∀ entry ∈ entries, Quiet (buildEntry host f home parts entry) := by
    intro home parts entry he
    have hparts : Quiet (entryParts host f home parts entry) := entryParts_quiet host
      (fun i hi => h i (mem_filterMap.2 ⟨entry, he, hi⟩)) home parts
    unfold buildEntry
    grind
  unfold buildObject
  grind

@[grind ←] theorem makeFunction_quiet (code : BytecodeFunction) (scope : Env)
    (name : Option String) : Quiet (makeFunction host code scope name) := by
  unfold makeFunction
  grind

theorem classFunction_quiet {index : Nat} (h : HasKind f index .anyFunction) (closure : Env)
    (name : Option String) : Quiet (classFunction host f index closure name) := by
  refine (helper_quiet host _).seq fun scope => constant?_seq h fun c _ hc => ?_
  cases c with
  | function code => exact makeFunction_quiet host _ _ _
  | astFunction ast => exact helper_quiet host _
  | _ => cases hc

@[grind ←] theorem decoratorValues_quiet (decorators : List (Reg × Option Reg)) :
    Quiet (decoratorValues decorators : VM W _) := by
  unfold decoratorValues
  grind

@[grind ←] theorem nameValue_quiet (name : ClassNameTemplate) : Quiet (nameValue host name) := by
  unfold nameValue
  grind

@[grind ←] theorem declareStorage_quiet (scope : Env) (storage : Option String)
    (property : Value) : Quiet (declareStorage host scope storage property) := by
  unfold declareStorage
  grind

theorem buildMember_quiet {member : ClassMemberTemplate}
    (h : ∀ i ∈ member.func, HasKind f i .anyFunction) (template : ClassTemplate)
    (memberScope memberClosure staticClosure : Env) (methods : List ClassMethodDefinition) :
    Quiet (buildMember host f template memberScope memberClosure staticClosure methods member) := by
  unfold buildMember
  cases hfunc : member.func with
  | none =>
    have hmissing : member.kind.words.2 ∉ constantErrors := by
      cases member.kind
      all_goals decide
    have hinternal : Quiet (internal member.kind.words.2 : VM W (List ClassMethodDefinition)) :=
      internal_quiet hmissing
    grind
  | some func =>
    have hclass := fun closure name => classFunction_quiet host (h func hfunc) closure name
    refine (nameValue_quiet host _).seq fun _ => (declareStorage_quiet host _ _ _).seq fun _ => ?_
    refine Quiet.seq (by grind) fun _ => (helper_quiet host _).seq fun _ =>
      (helper_quiet host _).seq fun _ => (hclass _ _).seq fun _ => ?_
    grind

theorem buildStatic_quiet {block : ClassStaticTemplate}
    (h : ∀ i ∈ block.code, HasKind f i .astFunction) (elements : List ClassStaticElement) :
    Quiet (buildStatic host f elements block) := by
  cases block with
  | field name init =>
    unfold buildStatic
    grind
  | block index =>
    refine constant?_seq (h index rfl) fun c _ hc => ?_
    cases c with
    | astFunction ast => exact Quiet.ret _
    | _ => cases hc

@[grind ←] theorem buildField_quiet (fields : List ClassFieldDefinition)
    (field : ClassFieldDecoratorTemplate) : Quiet (buildField host fields field) := by
  unfold buildField
  grind

@[grind ←] theorem bindClassKeys_quiet (scope : Env) (index : Nat) (regs : List Reg) :
    Quiet (bindClassKeys host scope index regs) := by
  induction regs generalizing index with
  | nil => exact Quiet.ret _
  | cons r rest ih =>
    unfold bindClassKeys
    grind

theorem buildClass_quiet {tmpl : Nat} {template : ClassTemplate}
    (ht : f.constants[tmpl]? = some (.classTemplate template))
    (h : ∀ read ∈ classReads f tmpl, HasKind f read.1 read.2) :
    Quiet (buildClass host f template) := by
  simp only [classReads, ht, mem_append, mem_cons, or_imp, forall_and, forall_eq,
    forall_mem_map] at h
  obtain ⟨⟨hctor, hmembers⟩, hblocks⟩ := h
  have hmember : ∀ memberScope memberClosure staticClosure methods, ∀ member ∈ template.members,
      Quiet (buildMember host f template memberScope memberClosure staticClosure methods
        member) := fun _ _ _ _ member hm =>
    buildMember_quiet host
      (fun i hi => hmembers i (mem_filterMap.2 ⟨member, hm, hi⟩)) _ _ _ _ _
  have hstatic : ∀ elements, ∀ block ∈ template.blocks,
      Quiet (buildStatic host f elements block) := fun _ block hb =>
    buildStatic_quiet host (fun i hi => hblocks i (mem_filterMap.2 ⟨block, hb, hi⟩)) _
  refine (currentScope_quiet host).seq fun _ => (optReg_quiet _).seq fun _ =>
    (optReg_quiet _).seq fun _ => (helper_quiet host _).seq fun _ =>
    (helper_quiet host _).seq fun _ => (Quiet.foldlM (hmember _ _ _) _).seq fun _ =>
    (helper_quiet host _).seq fun _ => (bindClassKeys_quiet host _ _ _).seq fun _ =>
    (classFunction_quiet host hctor _ _).seq fun _ => (Quiet.foldlM hstatic _).seq fun _ => ?_
  grind

@[grind ←] theorem getPropCached_quiet (site : Nat) (obj key : Value) :
    Quiet (getPropCached host f site obj key) := by
  unfold getPropCached
  grind

@[grind ←] theorem setPropCached_quiet (site : Nat) (obj key value : Value) (strict : Bool) :
    Quiet (setPropCached host f site obj key value strict) := by
  unfold setPropCached
  grind

@[grind ←] theorem slotUpdate_quiet (value : Value) (increment : Bool) :
    Quiet (slotUpdate host value increment) := by
  unfold slotUpdate
  grind

theorem loadConstant_quiet {c : Constant} (h : ConstantKind.loadable.has c = true) :
    Quiet (loadConstant host c) := by
  cases c with
  | name text => exact helper_quiet host _
  | regex pattern flags => exact helper_quiet host _
  | number | string | bool | null | undefined | bigInt => exact Quiet.ret _
  | _ => cases h

@[grind ←] theorem toDestructArray_quiet (value : Value) : Quiet (toDestructArray host value) := by
  unfold toDestructArray
  grind

@[grind ←] theorem checkDestructObject_quiet (value : Value) :
    Quiet (checkDestructObject value : VM W _) := by
  unfold checkDestructObject
  grind

@[grind ←] theorem restObject_quiet (source taken : Value) :
    Quiet (restObject host source taken) := by
  unfold restObject
  split
  · grind
  · exact internal_quiet (by decide)

end Parts

/-! ## Instructions -/

variable {instr : Instr} {address : Nat}

/-- **An instruction that finds its constants raises no constant error.** -/
theorem execBody_quiet (host : Host W) (h : Finds f instr) : Quiet (execBody host f instr) := by
  have hname : ∀ i ∈ nameReads f instr, HasKind f i .name := fun i hi =>
    h (i, .name) (mem_append_left _ (mem_map_of_mem hi))
  have hother : ∀ read ∈ otherReads f instr, HasKind f read.1 read.2 := fun read hr =>
    h read (mem_append_right _ hr)
  cases instr
  case loadConst dst cst =>
    exact constant_seq (hother _ mem_cons_self) fun c _ hc =>
      (loadConstant_quiet host hc).seq fun _ => setReg_quiet _ _
  case makeFunction dst func =>
    refine constant_seq (hother _ mem_cons_self) fun c _ hc => ?_
    cases c with
    | function code => grind
    | _ => cases hc
  case makeAstFunction dst ast =>
    refine constant_seq (hother _ mem_cons_self) fun c _ hc => ?_
    cases c with
    | astFunction ast => grind
    | _ => cases hc
  case template dst quasis args argc =>
    refine constant_seq (hother _ mem_cons_self) fun c _ hc => ?_
    cases c with
    | stringList chunks => grind
    | _ => cases hc
  case classPrivateEnvironment names =>
    refine constant_seq (hother _ mem_cons_self) fun c _ hc => ?_
    cases c with
    | stringList names => grind
    | _ => cases hc
  case «import» tmpl =>
    refine constant_seq (hother _ mem_cons_self) fun c _ hc => ?_
    cases c with
    | importTemplate template => exact helper_quiet host _
    | _ => cases hc
  case exportNamed tmpl =>
    refine constant_seq (hother _ mem_cons_self) fun c _ hc => ?_
    cases c with
    | exportNamedTemplate template => exact helper_quiet host _
    | _ => cases hc
  case exportAll tmpl =>
    refine constant_seq (hother _ mem_cons_self) fun c _ hc => ?_
    cases c with
    | exportAllTemplate template => exact helper_quiet host _
    | _ => cases hc
  case buildObject dst tmpl =>
    refine constant_seq (hother _ mem_cons_self) fun c htmpl hc => ?_
    cases c with
    | objectTemplate entries =>
      have hbuild : Quiet (buildObject host f entries) :=
        buildObject_quiet host fun i hi => hname i (by rwa [nameReads, templateNames, htmpl])
      grind
    | _ => cases hc
  case buildClass dst tmpl =>
    refine constant_seq (hother _ mem_cons_self) fun c htmpl hc => ?_
    cases c with
    | classTemplate template =>
      have hbuild : Quiet (buildClass host f template) :=
        buildClass_quiet host htmpl fun read hr => hother read (mem_cons_of_mem _ hr)
      grind
    | _ => cases hc
  case classScope name =>
    have hscope : Quiet (scopeName f name : VM W String) := by
      cases name with
      | none => exact Quiet.ret _
      | some name => exact constString_quiet (hname name mem_cons_self)
    simp only [execBody]
    grind
  case compoundProp dst obj key op rhs =>
    simp only [execBody]
    cases op.binOp with
    | none => exact internal_quiet (by decide)
    | some bin => grind
  case restArray dst src start =>
    refine (reg_quiet _).seq fun _ => ?_
    split
    · grind
    · exact internal_quiet (by decide)
  case newObject dst => exact internal_quiet (by decide)
  case setOwnProp obj key val => exact internal_quiet (by decide)
  case freezeTemplate site cooked raw =>
    refine (reg_quiet _).seq fun _ => (reg_quiet _).seq fun _ => ?_
    split
    · grind
    · exact internal_quiet (by decide)
  case enumNext state dst done =>
    refine frame_quiet.seq fun fr => ?_
    split
    · exact internal_quiet (by decide)
    · split
      · exact internal_quiet (by decide)
      · grind
  case enumEnd state =>
    refine frame_quiet.seq fun fr => ?_
    split
    · exact internal_quiet (by decide)
    · refine (modifyFrame_quiet _).seq fun _ => ?_
      split
      · exact internal_quiet (by decide)
      · exact Quiet.ret _
  case closeIterator src unwind =>
    refine (reg_quiet _).seq fun _ => ?_
    split
    · refine frame_quiet.seq fun _ => ?_
      split
      · exact internal_quiet (by decide)
      · exact helper_quiet host _
    · exact helper_quiet host _
  case popScope =>
    refine frame_quiet.seq fun _ => ?_
    split
    · exact internal_quiet (by decide)
    · exact modifyFrame_quiet _
  case popHandler =>
    refine frame_quiet.seq fun _ => ?_
    split
    · exact internal_quiet (by decide)
    · exact modifyFrame_quiet _
  case popPending =>
    refine frame_quiet.seq fun _ => ?_
    split
    · exact internal_quiet (by decide)
    · exact modifyFrame_quiet _
  case rethrow =>
    refine frame_quiet.seq fun _ => ?_
    split
    · grind
    · exact internal_quiet (by decide)
  -- What is left reads names and spread templates only.
  all_goals
    simp only [nameReads, otherReads, mem_singleton, forall_eq] at hname hother
    simp only [execBody]
    grind

/-! ## Accepted instructions -/

/-- The variants the verifier's class stands for. -/
def ConstantClass.kind : ConstantClass → ConstantKind
  | .scalar => .loadable
  | .string => .name
  | .stringList => .stringList
  | .function => .function
  | .astFunction => .astFunction
  | .objectTemplate => .objectTemplate
  | .spreadTemplate => .spreadTemplate
  | .classTemplate => .classTemplate
  | .importTemplate => .importTemplate
  | .exportNamedTemplate => .exportNamedTemplate
  | .exportAllTemplate => .exportAllTemplate

variable {expected : ConstantClass} {index tmpl : Nat} {m : Machine W} {host : Host W}
  {topLevel : Bool} {s : LoopState W}

/-- Only the class of strings has constants that the handlers do not match on. -/
theorem ConstantClass.kind_has {c : Constant} (hstring : expected ≠ .string)
    (h : expected ∈ classes c) : expected.kind.has c = true := by
  cases c
  all_goals
    simp only [classes, mem_cons, not_mem_nil, or_false] at h
    grind [ConstantClass.kind, ConstantKind.has]

theorem hasKind_of_checkConstIs (h : checkConstIs f address index expected = .ok ())
    (hstring : expected ≠ .string) : HasKind f index expected.kind := by
  obtain ⟨c, hc, hclass⟩ := checkConstIs_ok.1 h
  exact ⟨c, hc, ConstantClass.kind_has hstring hclass⟩

theorem hasKind_of_checkFuncConst (h : checkFuncConst f address index = .ok ()) :
    HasKind f index .anyFunction := by
  rw [checkFuncConst, seq_ok] at h
  cases hc : f.constants[index]? with
  | none => simp [hc] at h
  | some c =>
    refine ⟨c, hc, ?_⟩
    cases c with
    | function code => rfl
    | astFunction ast => rfl
    | _ => simp [hc] at h

/-- An accepted class finds what its assembly reads. -/
theorem classReads_ok (h : checkClassTemplate f address tmpl = .ok ()) :
    ∀ read ∈ (tmpl, ConstantKind.classTemplate) :: classReads f tmpl,
      HasKind f read.1 read.2 := by
  rw [checkClassTemplate, seq_ok] at h
  have htmpl := hasKind_of_checkConstIs h.1 (by decide)
  refine forall_mem_cons.2 ⟨htmpl, ?_⟩
  obtain ⟨c, hc, hhas⟩ := htmpl
  cases c with
  | classTemplate template =>
    simp only [hc, seq_ok, forM_eq_forM, forM_ok] at h
    obtain ⟨-, -, -, -, -, hctor, -, hmembers, hblocks⟩ := h
    simp only [classReads, hc, mem_append, mem_cons, or_imp, forall_and, forall_eq, forall_mem_map]
    refine ⟨⟨hasKind_of_checkFuncConst hctor, fun i hi => ?_⟩, fun i hi => ?_⟩
    · obtain ⟨member, hm, hfunc⟩ := mem_filterMap.1 hi
      exact hasKind_of_checkFuncConst ((checkMembers_ok hmembers hm).2.2 i hfunc)
    · obtain ⟨block, hb, hcode⟩ := mem_filterMap.1 hi
      have hcheck := hblocks block hb
      cases block with
      | block index =>
        cases hcode
        exact hasKind_of_checkConstIs hcheck (by decide)
      | field name init => cases hcode
  | _ => cases hhas

theorem spread_ok {elision : Bool} (h : checkSpreadTemplate f address tmpl elision = .ok ()) :
    HasKind f tmpl .spreadTemplate := by
  rw [checkSpreadTemplate, seq_ok] at h
  exact hasKind_of_checkConstIs h.1 (by decide)

/-- An accepted instruction finds what it reads besides names. -/
theorem otherReads_ok (h : checkInstr f address instr = .ok ()) :
    ∀ read ∈ otherReads f instr, HasKind f read.1 read.2 := by
  cases instr
  case buildClass dst tmpl =>
    rw [checkInstr, seq_ok] at h
    exact classReads_ok h.2
  case directEvalSpread dst callee this tmpl =>
    simp only [checkInstr, seq_ok] at h
    exact forall_mem_singleton.2 (spread_ok h.2.2)
  case constructSpread dst callee tmpl =>
    rw [checkInstr, seq_ok] at h
    exact forall_mem_singleton.2 (spread_ok h.2)
  case callSpread dst callee tmpl =>
    rw [checkInstr, seq_ok] at h
    exact forall_mem_singleton.2 (spread_ok h.2)
  case methodSpread dst callee this tmpl =>
    rw [checkInstr, seq_ok] at h
    exact forall_mem_singleton.2 (spread_ok h.2)
  case buildArray dst tmpl =>
    rw [checkInstr, seq_ok] at h
    exact forall_mem_singleton.2 (spread_ok h.2)
  case superCallSpread dst callee tmpl =>
    rw [checkInstr, seq_ok] at h
    exact forall_mem_singleton.2 (spread_ok h.2)
  case loadConst dst cst =>
    rw [checkInstr, seq_ok] at h
    exact forall_mem_singleton.2 (hasKind_of_checkConstIs h.2 (by decide))
  case template dst quasis args argc =>
    simp only [checkInstr, seq_ok] at h
    exact forall_mem_singleton.2 (hasKind_of_checkConstIs h.2.1 (by decide))
  case classPrivateEnvironment names =>
    exact forall_mem_singleton.2 (hasKind_of_checkConstIs h (by decide))
  case makeFunction dst func =>
    rw [checkInstr, seq_ok] at h
    exact forall_mem_singleton.2 (hasKind_of_checkConstIs h.2 (by decide))
  case makeAstFunction dst ast =>
    rw [checkInstr, seq_ok] at h
    exact forall_mem_singleton.2 (hasKind_of_checkConstIs h.2 (by decide))
  case buildObject dst tmpl =>
    simp only [checkInstr, seq_ok] at h
    exact forall_mem_singleton.2 (hasKind_of_checkConstIs h.2.1 (by decide))
  case «import» tmpl =>
    exact forall_mem_singleton.2 (hasKind_of_checkConstIs h (by decide))
  case exportNamed tmpl =>
    exact forall_mem_singleton.2 (hasKind_of_checkConstIs h (by decide))
  case exportAll tmpl =>
    exact forall_mem_singleton.2 (hasKind_of_checkConstIs h (by decide))
  -- No other instruction reads more than names.
  all_goals exact fun read hr => absurd hr not_mem_nil

/-- An accepted instruction finds what it reads when its names are names. -/
theorem finds_iff (h : checkInstr f address instr = .ok ()) : Finds f instr ↔ NamesOk f instr := by
  constructor
  · exact fun hf i hi => hf (i, .name) (mem_append_left _ (mem_map_of_mem hi))
  · intro hn read hr
    rcases mem_append.1 hr with hr | hr
    · obtain ⟨i, hi, rfl⟩ := mem_map.1 hr
      exact hn i hi
    · exact otherReads_ok h read hr

/-! ## Runs -/

theorem executeInstruction_quiet (host : Host W) (h : Finds f instr) :
    Quiet (executeInstruction host f instr) :=
  (helper_quiet host _).seq fun _ => (modifyFrame_quiet _).seq fun _ => execBody_quiet host h

theorem landHandler_quiet (host : Host W) (error : VmErr) : Quiet (landHandler host f error) := by
  unfold landHandler landingValue
  grind

theorem afterLanding_quiet (host : Host W) (error : VmErr) (hm : QuietTrace m) :
    QuietTrace (afterLanding (landHandler host f error m)).machine := by
  have h := (landHandler_quiet (f := f) host error m hm).1
  rcases hl : landHandler host f error m with ⟨o, m'⟩
  rw [hl] at h
  cases o
  all_goals exact h

/-- A round is quiet when the instruction it fetches finds its constants. -/
theorem loopRound_quiet (host : Host W) (topLevel : Bool) (hm : QuietTrace m)
    (h : ∀ instr, f.code[m.frame.ip]? = some instr → Finds f instr) :
    QuietTrace (loopRound host f topLevel m).machine := by
  unfold loopRound
  cases hi : f.code[m.frame.ip]? with
  | some instr =>
    have hexec := (executeInstruction_quiet host (h instr hi) m hm).1
    rcases he : executeInstruction host f instr m with ⟨o, m'⟩
    simp only [he]
    rw [he] at hexec
    cases o with
    | ok u => exact hexec
    | err e => exact afterLanding_quiet host e hexec
    | panic => exact hexec
  | none =>
    dsimp only
    split
    · exact hm
    · have hinternal : QuietTrace (internal "instruction pointer out of bounds" m :
          Outcome VmErr Unit × Machine W).2 := (internal_quiet (by decide) m hm).1
      exact hinternal

/-- Runs in which each executed instruction reads names where it needs names. -/
def NamedRunOf (host : Host W) (f : BytecodeFunction) (topLevel : Bool) : LoopState W → Prop :=
  Reachable (CallStart f) fun s t => LoopStep host f topLevel s t ∧
    ∀ instr, f.code[s.machine.frame.ip]? = some instr → NamesOk f instr

theorem NamedRunOf.quiet (hv : Verified f) (h : NamedRunOf host f topLevel s) :
    QuietTrace s.machine := by
  refine Reachable.invariant (I := fun s => QuietTrace s.machine) (fun s hs => ?_)
    (fun s t hs hst => ?_) h
  · cases hs
    exact fun e he => absurd he not_mem_nil
  · obtain ⟨hstep, hnames⟩ := hst
    cases hstep with
    | round m =>
      exact loopRound_quiet host topLevel hs fun instr hi =>
        (finds_iff (hv.instr hi)).2 (hnames instr hi)

/-- Every run of a function whose names are names is such a run. -/
theorem RunOf.named (hnames : ∀ instr ∈ f.code, NamesOk f instr) (h : RunOf host f topLevel s) :
    NamedRunOf host f topLevel s := by
  refine Reachable.invariant (fun s hs => Reachable.start hs) (fun s t hs hst => ?_) h
  exact Reachable.next hs ⟨hst, fun instr hi => hnames instr (mem_of_getElem? hi)⟩

/-- Every instruction of the function and of those nested in it finds constants of the variants its
handler matches on, and no run raises a constant error. -/
def ConstantsFit (f : BytecodeFunction) : Prop :=
  ∀ g, Within g f → (∀ instr ∈ g.code, Finds g instr) ∧
    ∀ (W : Type) (host : Host W) (topLevel : Bool) (s : LoopState W),
      RunOf host g topLevel s → QuietTrace s.machine

/-- **When the constants have the kind that is needed**: what an accepted function reads as a name
is a name.  A run that executes only instructions of which this is true is free of constant errors
in any case. -/
theorem verified_constants (f : BytecodeFunction) (h : verifyFunction f = .ok ()) :
    (ConstantsFit f ↔ ∀ g, Within g f → ∀ instr ∈ g.code, NamesOk g instr) ∧
      ∀ g, Within g f → ∀ (W : Type) (host : Host W) (topLevel : Bool) (s : LoopState W),
        NamedRunOf host g topLevel s → QuietTrace s.machine := by
  have hv : ∀ g, Within g f → Verified g := fun g hg =>
    Verified.of_verifyFunction (hg.verifyFunction h)
  have hfinds : ∀ g, Within g f → ∀ instr ∈ g.code, (Finds g instr ↔ NamesOk g instr) := by
    intro g hg instr hmem
    obtain ⟨i, hi⟩ := List.mem_iff_getElem?.1 hmem
    exact finds_iff ((hv g hg).instr hi)
  refine ⟨⟨fun hfit g hg instr hmem => ?_, fun hnames g hg => ⟨fun instr hmem => ?_, ?_⟩⟩, ?_⟩
  · exact (hfinds g hg instr hmem).1 ((hfit g hg).1 instr hmem)
  · exact (hfinds g hg instr hmem).2 (hnames g hg instr hmem)
  · exact fun W host topLevel s hs => (hs.named (hnames g hg)).quiet (hv g hg)
  · exact fun g hg W host topLevel s hs => hs.quiet (hv g hg)

/-- `x` as the name of a global. -/
def namedFunction : BytecodeFunction := .mk [.loadGlobal 0 0] [.name "x"] 1 0 0 0 [] 0

theorem verified_constants_named : ConstantsFit namedFunction := by
  refine (verified_constants namedFunction rfl).1.2 fun g hg instr hmem => ?_
  cases hg with
  | self =>
    rcases List.mem_singleton.1 hmem with rfl
    exact List.forall_mem_singleton.2 ⟨.name "x", rfl, rfl⟩
  | nested hnested => exact absurd (List.mem_singleton.1 hnested) nofun

/-- `x` as a string value where the name of a global is read. -/
def stringFunction : BytecodeFunction := .mk [.loadGlobal 0 0] [.string [120]] 1 0 0 0 [] 0

/-- The verifier takes a string value for a name, and the run fails. -/
theorem string_taken_for_name : ¬ ∀ f, verifyFunction f = .ok () → ConstantsFit f := by
  intro h
  have hrun := (h stringFunction rfl _ .self).2 Unit quietHost false _
    (RunOf.runLoop (Reachable.start (.call {} .fresh .undefined [] ())) 1)
  exact hrun (.internal "bad string constant") List.mem_cons_self (by decide)

end NapiVm
