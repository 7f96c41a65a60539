import NapiVm.Bytecode.Dispatch
import NapiVm.Bytecode.Verify

/-!
# The verifier is sound

What `verifyFunction` accepts runs without leaving its tables.

* `Verified` — what acceptance says about a function, instruction by instruction.
* `FrameOk` — the invariant of the running frame: its registers and slots have the
  sizes the function declares, the pointer and every pushed handler stay inside
  the function, and everything on the trace is sound.
* `execBody_safe`, `landHandler_safe` — an accepted instruction and a landing keep
  the invariant and do not panic, whatever the interpreter answers.
* `verified_run_sound` — so it holds in every state of every run.
-/

namespace NapiVm

open VM NapiVm.Action

variable {W : Type}

/-! ## What acceptance means -/

namespace Checker

@[simp] theorem require_ok {p : Prop} [Decidable p] {e : VerifyError} :
    require p e = .ok () ↔ p := by
  unfold require
  split <;> simp_all

@[simp] theorem seq_ok {x : Check} {k : Unit → Check} :
    (x >>= k) = .ok () ↔ x = .ok () ∧ k () = .ok () := by
  cases x with
  | ok u => simp [bind, Except.bind]
  | error e => simp [bind, Except.bind]

@[simp] theorem forM_ok {α : Type} {l : List α} {g : α → Check} :
    forM l g = .ok () ↔ ∀ x ∈ l, g x = .ok () := by
  induction l with
  | nil => simp [pure, Except.pure]
  | cons x rest ih => simp [ih]

variable {f : BytecodeFunction} {address : Nat}

@[simp] theorem checkReg_ok {reg : Reg} :
    checkReg f address reg = .ok () ↔ reg < f.registerCount := require_ok

@[simp] theorem checkSlot_ok {slot : LocalSlot} :
    checkSlot f address slot = .ok () ↔ slot < f.localCount := require_ok

@[simp] theorem checkTarget_ok {target : Target} :
    checkTarget f address target = .ok () ↔ target ≤ f.code.length := require_ok

@[simp] theorem checkRange_ok {start : Reg} {count : Nat} :
    checkRange f address start count = .ok () ↔ start + count ≤ f.registerCount := require_ok

@[simp] theorem checkCache_ok {site : Nat} :
    checkCache f address site = .ok () ↔ site < f.caches := require_ok

@[simp] theorem checkRegs_ok {regs : List Reg} :
    checkRegs f address regs = .ok () ↔ ∀ r ∈ regs, r < f.registerCount := by
  simp [checkRegs]

variable {index : Nat} {expected : ConstantClass}

/-- An accepted constant operand is in the pool and has the class asked for. -/
theorem checkConstIs_ok :
    checkConstIs f address index expected = .ok () ↔
      ∃ c, f.constants[index]? = some c ∧ expected ∈ classes c := by
  simp only [checkConstIs, checkConst, seq_ok, require_ok]
  cases h : f.constants[index]? with
  | none =>
    have := List.getElem?_eq_none_iff.1 h
    simp
    omega
  | some c => simp [(List.getElem?_eq_some_iff.1 h).1]

@[simp] theorem checkConstIs_lt (h : checkConstIs f address index expected = .ok ()) :
    index < f.constants.length := by
  obtain ⟨c, hc, -⟩ := checkConstIs_ok.1 h
  exact (List.getElem?_eq_some_iff.1 hc).1

theorem checkFuncConst_lt (h : checkFuncConst f address index = .ok ()) :
    index < f.constants.length := by
  simp only [checkFuncConst, checkConst, seq_ok, require_ok] at h
  exact h.1

/-- The stream is accepted when each of its instructions is. -/
theorem checkCode_ok {start : Nat} {code : List Instr} (h : checkCode f start code = .ok ())
    {i : Nat} {instr : Instr} (hi : code[i]? = some instr) :
    checkInstr f (start + i) instr = .ok () := by
  induction code generalizing start i with
  | nil => simp at hi
  | cons first rest ih =>
    simp only [checkCode, seq_ok] at h
    cases i with
    | zero =>
      simp only [List.getElem?_cons_zero, Option.some.injEq] at hi
      rw [← hi]
      exact h.1
    | succ i =>
      rw [List.getElem?_cons_succ] at hi
      have := ih h.2 hi
      rwa [Nat.add_right_comm] at this

end Checker

/-- What acceptance says about a function itself. -/
structure Verified (f : BytecodeFunction) : Prop where
  slots : f.slots.length = f.localCount
  parameters : f.parameterCount ≤ f.slots.length
  instr : ∀ {i : Nat} {instr : Instr}, f.code[i]? = some instr →
    Checker.checkInstr f i instr = .ok ()
  nested : ∀ {g : BytecodeFunction}, .function g ∈ f.constants → g.parameterCount ≤ g.slots.length

theorem Verified.of_checkFunction {f : BytecodeFunction} (h : Checker.checkFunction f = .ok ())
    (hn : ∀ {g : BytecodeFunction}, .function g ∈ f.constants →
      g.parameterCount ≤ g.slots.length) : Verified f := by
  simp only [Checker.checkFunction, Checker.seq_ok, Checker.require_ok] at h
  obtain ⟨-, hs, hp, -, hc⟩ := h
  refine ⟨hs, by omega, fun hi => ?_, hn⟩
  simpa using Checker.checkCode_ok hc hi

theorem parameterCount_le_of_verifyFunction {f : BytecodeFunction}
    (h : verifyFunction f = .ok ()) : f.parameterCount ≤ f.slots.length := by
  cases f with
  | mk code constants registerCount localCount parameterCount upvalueCount slots caches =>
    simp only [verifyFunction, Checker.checkFunction, Checker.seq_ok, Checker.require_ok] at h
    obtain ⟨⟨-, hs, hp, -, -⟩, -⟩ := h
    omega

/-- Every nested function of an accepted pool is accepted. -/
theorem verifyConstants_ok {constants : List Constant} {index : Nat}
    (h : verifyConstants index constants = .ok ()) {g : BytecodeFunction}
    (hg : .function g ∈ constants) : verifyFunction g = .ok () := by
  induction constants generalizing index with
  | nil => simp at hg
  | cons c rest ih =>
    simp only [verifyConstants, Checker.seq_ok] at h
    rcases List.mem_cons.1 hg with rfl | hg
    · have hc := h.1
      rw [verifyConstant] at hc
      cases hnested : verifyFunction g with
      | ok u => rfl
      | error e =>
        rw [hnested] at hc
        cases hc
    · exact ih h.2 hg

/-- Acceptance, with the nested functions. -/
theorem Verified.of_verifyFunction {f : BytecodeFunction} (h : verifyFunction f = .ok ()) :
    Verified f := by
  cases f with
  | mk code constants registerCount localCount parameterCount upvalueCount slots caches =>
    rw [verifyFunction, Checker.seq_ok] at h
    exact Verified.of_checkFunction h.1 fun hg =>
      parameterCount_le_of_verifyFunction (verifyConstants_ok h.2 hg)

/-! ## The invariant -/

/-- The internal errors that say an index left its table. -/
def boundsErrors : List String :=
  ["instruction pointer out of bounds", "bad argument range", "operand range out of bounds"]

/-- An event that stays inside its table. -/
def Event.Sound : Event → Prop
  | .use _ index size => index < size
  | .range _ stop size => stop ≤ size
  | .land target size => target ≤ size
  | .internal what => what ∉ boundsErrors

instance (e : Event) : Decidable e.Sound := by
  cases e <;> unfold Event.Sound <;> infer_instance

/-- A handler that lands inside the function. -/
def HandlerEntry.Ok (f : BytecodeFunction) (h : HandlerEntry) : Prop :=
  h.target ≤ f.code.length ∧ h.dst < f.registerCount

/-- The invariant of a running frame. -/
structure FrameOk (f : BytecodeFunction) (m : Machine W) : Prop where
  ip : m.frame.ip ≤ f.code.length
  registers : m.frame.registers.length = f.registerCount
  slots : m.frame.slots.length = f.slots.length
  handlers : ∀ h ∈ m.frame.handlers, h.Ok f
  trace : ∀ e ∈ m.trace, e.Sound

/-- `m` keeps the invariant of `f` and does not panic. -/
def Keeps (W : Type) (f : BytecodeFunction) {α : Type} (m : VM W α) : Prop :=
  Safe (FrameOk f) m fun _ => True

/-! ## The primitives -/

section Primitives

variable {f : BytecodeFunction} {α β : Type}

theorem Keeps.pure (a : α) : Keeps W f (pure a) := Safe.ret trivial

theorem Keeps.throw (e : VmErr) : Keeps W f (Action.throw e : VM W α) := Safe.of_throw e

theorem Keeps.seq {m : VM W α} {k : α → VM W β} (hm : Keeps W f m) (hk : ∀ a, Keeps W f (k a)) :
    Keeps W f (m >>= k) := Safe.seq hm hk

theorem Keeps.ite {p : Prop} [Decidable p] {m n : VM W α} (hm : Keeps W f m)
    (hn : Keeps W f n) : Keeps W f (if p then m else n) := Safe.ite hm hn

theorem note_safe {e : Event} (h : e.Sound) : Keeps W f (note e) := by
  refine Safe.of_modify fun m hm => { hm with trace := fun e' he' => ?_ }
  rcases List.mem_cons.1 he' with rfl | he'
  · exact h
  · exact hm.trace e' he'

theorem frame_safe : Safe (FrameOk f) (frame : VM W CallFrame) fun fr =>
    fr.registers.length = f.registerCount ∧ fr.slots.length = f.slots.length ∧
      ∀ h ∈ fr.handlers, h.Ok f :=
  Safe.of_get.bind fun _ hm => Safe.ret ⟨hm.registers, hm.slots, hm.handlers⟩

/-- A frame update that leaves the sizes and the pointer alone. -/
theorem modifyFrame_safe {g : CallFrame → CallFrame}
    (h : ∀ fr : CallFrame, (g fr).ip = fr.ip ∧ (g fr).registers.length = fr.registers.length ∧
      (g fr).slots.length = fr.slots.length ∧
      ((∀ h ∈ fr.handlers, h.Ok f) → ∀ h ∈ (g fr).handlers, h.Ok f)) :
    Keeps W f (modifyFrame g) := by
  refine Safe.of_modify fun m hm => ?_
  obtain ⟨hip, hr, hs, hh⟩ := h m.frame
  exact ⟨hip ▸ hm.ip, hr.trans hm.registers, hs.trans hm.slots, hh hm.handlers, hm.trace⟩

theorem helper_safe {host : Host W} {h : Helper} : Keeps W f (helper host h) := by
  intro m hm
  unfold helper
  rcases host h m.world with ⟨_ | r, w⟩
  · exact ⟨{ hm with }, trivial⟩
  · exact ⟨{ hm with }, trivial⟩

variable {what : String} {i : Nat}

/-- An internal error returns nothing. -/
theorem internal_safe' {Q : α → Prop} (h : what ∉ boundsErrors := by decide) :
    Safe (FrameOk f) (internal what : VM W α) Q :=
  (note_safe (e := .internal what) h).seq fun _ => Safe.of_throw _

theorem internal_safe (h : what ∉ boundsErrors := by decide) :
    Keeps W f (internal what : VM W α) := internal_safe' h

theorem index_safe {t : Table} {l : List α} (h : i < l.length) :
    Safe (FrameOk f) (index t l i : VM W α) fun a => l[i]? = some a := by
  refine (note_safe (e := .use t i l.length) h).bind fun _ _ => ?_
  rw [List.getElem?_eq_getElem h]
  exact Safe.ret rfl

theorem reg_safe {r : Reg} (h : r < f.registerCount) : Keeps W f (reg r) :=
  frame_safe.bind fun _ hfr => (index_safe (hfr.1 ▸ h)).weaken fun _ _ => trivial

theorem setReg_safe {r : Reg} (h : r < f.registerCount) (v : Value) : Keeps W f (setReg r v) :=
  frame_safe.bind fun _ hfr => (index_safe (hfr.1 ▸ h)).seq fun _ =>
    modifyFrame_safe fun _ => ⟨rfl, List.length_set, rfl, id⟩

theorem jumpTo_safe {target : Target} (h : target ≤ f.code.length) : Keeps W f (jumpTo f target) :=
  (note_safe (e := .land target f.code.length) h).seq fun _ =>
    Safe.of_modify fun _ hm => { hm with ip := h }

theorem cache_safe {site : Nat} (h : site < f.caches) : Keeps W f (cache f site) := by
  refine (note_safe (e := .use .cache site f.caches) h).seq fun _ => ?_
  rw [if_pos h]
  exact Keeps.pure ()

theorem constant_safe (h : i < f.constants.length) :
    Safe (FrameOk f) (constant f i : VM W Constant) fun c => f.constants[i]? = some c :=
  index_safe h

theorem constant?_safe (h : i < f.constants.length) :
    Safe (FrameOk f) (constant? f i : VM W (Option Constant)) fun c => f.constants[i]? = c :=
  (note_safe (e := .use .constant i f.constants.length) h).bind fun _ _ => Safe.ret rfl

theorem registerRange_safe {start : Reg} {count : Nat} (h : start + count ≤ f.registerCount) :
    Keeps W f (registerRange start count what) := by
  refine frame_safe.bind fun fr hfr => ?_
  have hle : start + count ≤ fr.registers.length := hfr.1 ▸ h
  refine (note_safe (e := .range start (start + count) fr.registers.length) hle).seq fun _ => ?_
  rw [if_pos hle]
  exact Keeps.pure _

theorem constString_safe {address : Nat} {expected : ConstantClass}
    (h : Checker.checkConstIs f address i expected = .ok ()) :
    Keeps W f (constString f i) := by
  refine (constant?_safe (Checker.checkConstIs_lt h)).bind fun c _ => ?_
  cases c with
  | none => exact internal_safe (by decide)
  | some c => cases c <;> first | exact Keeps.pure _ | exact internal_safe (by decide)

theorem currentScope_safe {host : Host W} : Keeps W f (currentScope host) := by
  refine frame_safe.bind fun fr _ => ?_
  cases fr.scopes.getLast? with
  | some scope => exact Keeps.pure _
  | none => exact helper_safe

theorem scopeStrict_safe {host : Host W} : Keeps W f (scopeStrict host) :=
  currentScope_safe.seq fun _ => helper_safe

theorem receiverReg_safe {this : Option Reg} (h : ∀ r ∈ this, r < f.registerCount) :
    Keeps W f (receiverReg this) := by
  cases this with
  | none => exact Keeps.pure _
  | some r => exact reg_safe (h r rfl)

theorem optReg_safe {r : Option Reg} (h : ∀ r' ∈ r, r' < f.registerCount) :
    Keeps W f (optReg r) := by
  cases r with
  | none => exact Keeps.pure _
  | some r => exact (reg_safe (h r rfl)).seq fun _ => Keeps.pure _

end Primitives

/-! ## Slots, calls and templates -/

section Parts

variable {f : BytecodeFunction} (hv : Verified f) {host : Host W}
include hv

variable {s : LocalSlot}

section

variable (h : s < f.localCount)

include h

theorem slot_safe : Keeps W f (slot s) :=
  frame_safe.bind fun _ hfr =>
    (index_safe (by rw [hfr.2.1, hv.slots]; exact h)).weaken fun _ _ => trivial

theorem setSlot_safe (v : RunSlot) : Keeps W f (setSlot s v) :=
  frame_safe.bind fun _ hfr => (index_safe (by rw [hfr.2.1, hv.slots]; exact h)).seq fun _ =>
    modifyFrame_safe fun _ => ⟨rfl, rfl, List.length_set, id⟩

theorem slotInfo_safe : Keeps W f (slotInfo f s) :=
  (index_safe (hv.slots ▸ h)).weaken fun _ _ => trivial

theorem checkSlotWritable_safe : Keeps W f (checkSlotWritable f s) :=
  (slot_safe hv h).seq fun _ => (slotInfo_safe hv h).seq fun _ =>
    (Keeps.throw _).ite ((Keeps.throw _).ite (Keeps.pure _))

theorem liveSlot_safe : Keeps W f (liveSlot f s) :=
  (slot_safe hv h).seq fun _ =>
    ((slotInfo_safe hv h).seq fun _ => Keeps.throw _).ite (Keeps.pure _)

theorem initSlot_safe (v : Value) : Keeps W f (initSlot s v) :=
  (slot_safe hv h).seq fun _ => setSlot_safe hv h _

theorem compoundSlot_safe {op : AssignOp} {rhs : Reg} (hr : rhs < f.registerCount) :
    Keeps W f (compoundSlot host f s op rhs) := by
  unfold compoundSlot
  cases op.binOp with
  | none => exact internal_safe
  | some bin =>
    exact (slot_safe hv h).seq fun _ => ((checkSlotWritable_safe hv h).ite (Keeps.pure _)).seq
      fun _ => (reg_safe hr).seq fun _ => helper_safe.seq fun _ =>
      (checkSlotWritable_safe hv h).seq fun _ => (initSlot_safe hv h _).seq fun _ =>
      Keeps.pure _

end

/-- A nested function is instantiated with the parameter names its slots carry. -/
theorem makeFunction_safe {code : BytecodeFunction} (h : .function code ∈ f.constants)
    (scope : Env) (name : Option String) : Keeps W f (makeFunction host code scope name) := by
  have hle := hv.nested h
  refine (note_safe (e := .range 0 code.parameterCount code.slots.length) hle).seq fun _ => ?_
  rw [if_pos hle]
  exact helper_safe

theorem classFunction_safe {index : Nat} (h : index < f.constants.length) (closure : Env)
    (name : Option String) : Keeps W f (classFunction host f index closure name) := by
  refine helper_safe.seq fun _ => (constant?_safe h).bind fun c hc => ?_
  cases c with
  | none => exact internal_safe (by decide)
  | some c =>
    cases c with
    | function code => exact makeFunction_safe hv (List.mem_of_getElem? hc) _ _
    | astFunction ast => exact helper_safe
    | _ => exact internal_safe (by decide)

end Parts

section Parts

variable {f : BytecodeFunction} {host : Host W}

variable {dst : Reg} {site : Nat} {template : List SpreadEntry}

theorem callOrTail_safe (h : dst < f.registerCount) (callee this : Value) (args : List Value) :
    Keeps W f (callOrTail host f dst callee this args) :=
  helper_safe.seq fun _ => frame_safe.seq fun _ =>
    helper_safe.ite (helper_safe.seq fun _ => setReg_safe h _)

theorem evalOrCall_safe (h : dst < f.registerCount) (callee this : Value) (args : List Value) :
    Keeps W f (evalOrCall host f dst callee this args) :=
  helper_safe.seq fun _ =>
    (helper_safe.seq fun _ => setReg_safe h _).ite (callOrTail_safe h _ _ _)

theorem getPropCached_safe (h : site < f.caches) (obj key : Value) :
    Keeps W f (getPropCached host f site obj key) :=
  helper_safe.seq fun _ =>
    ((cache_safe h).seq fun _ => helper_safe).ite helper_safe

theorem setPropCached_safe (h : site < f.caches) (obj key value : Value) (strict : Bool) :
    Keeps W f (setPropCached host f site obj key value strict) :=
  helper_safe.seq fun _ =>
    ((cache_safe h).seq fun _ => helper_safe).ite helper_safe

/-- The registers of a spread template are in bounds. -/
def SpreadOk (f : BytecodeFunction) (template : List SpreadEntry) : Prop :=
  ∀ entry ∈ template, entry.reg < f.registerCount

theorem spreadTemplate_safe {address tmpl : Nat} {elision : Bool}
    (h : Checker.checkSpreadTemplate f address tmpl elision = .ok ()) :
    Safe (FrameOk f) (spreadTemplate f tmpl : VM W _) (SpreadOk f) := by
  simp only [Checker.checkSpreadTemplate, Checker.seq_ok] at h
  refine (constant?_safe (Checker.checkConstIs_lt h.1)).bind fun c hc => ?_
  cases c with
  | none => exact internal_safe' (by decide)
  | some c =>
    cases c with
    | spreadTemplate entries =>
      simp only [hc, List.forM_eq_forM, Checker.forM_ok, Checker.seq_ok, Checker.checkReg_ok] at h
      exact Safe.ret fun entry he => (h.2 entry he).2
    | _ => exact internal_safe' (by decide)

theorem snapshotItems_safe (value : Value) : Keeps W f (snapshotItems host value) := by
  cases value with
  | ref kind id =>
    cases kind <;> first | exact helper_safe | exact internal_safe (by decide)
  | _ => exact internal_safe (by decide)

theorem pushAll_safe (items more : List Value) (limit : String) :
    Keeps W f (pushAll items more limit : VM W _) := (Keeps.throw _).ite (Keeps.pure _)

theorem spreadArgv_safe (h : SpreadOk f template) : Keeps W f (spreadArgv host template) := by
  refine Safe.foldlM (fun argv entry he => ?_) []
  exact (reg_safe (h entry he)).seq fun _ =>
    ((snapshotItems_safe _).seq fun _ => pushAll_safe _ _ _).ite
      ((helper_safe.seq fun _ => pushAll_safe _ _ _).ite (pushAll_safe _ _ _))

theorem spreadArray_safe (h : SpreadOk f template) : Keeps W f (spreadArray host template) := by
  refine Safe.seq (Safe.foldlM (fun acc entry he => ?_) _) fun _ => helper_safe
  exact (reg_safe (h entry he)).seq fun _ =>
    ((pushAll_safe _ _ _).seq fun _ => Keeps.pure _).ite
      (((snapshotItems_safe _).ite (helper_safe.ite (Keeps.pure _))).seq fun _ =>
        (pushAll_safe _ _ _).seq fun _ => Keeps.pure _)

end Parts

/-! ## Object and class literals -/

section Literals

variable {f : BytecodeFunction} {host : Host W} {address : Nat}

theorem entryKey_safe {key : Option KeySrc} (h : ∀ k ∈ key, Checker.checkKey f address k = .ok ()) :
    Keeps W f (entryKey host f key) := by
  match key with
  | none => exact internal_safe
  | some (.const index) => exact constString_safe (h _ rfl)
  | some (.reg r) =>
    refine (reg_safe (Checker.checkReg_ok.1 (h _ rfl))).seq fun v => ?_
    cases v <;> first | exact helper_safe | exact internal_safe (by decide)

theorem entryValue_safe (home : Env) (kind : PropKind) (value : Value) :
    Keeps W f (entryValue host home kind value) := by
  cases kind <;> first | exact Keeps.pure _ | exact helper_safe

theorem buildEntry_safe {entry : PropEntry} (hval : entry.val < f.registerCount)
    (hkey : ∀ k ∈ entry.key, Checker.checkKey f address k = .ok ()) (home : Env)
    (parts : LiteralParts) : Keeps W f (buildEntry host f home parts entry) := by
  refine Keeps.seq ?_ fun _ => (Keeps.throw _).ite (Keeps.pure _)
  unfold entryParts
  cases entry.kind with
  | prototype => exact (reg_safe hval).seq fun _ => Keeps.pure _
  | spread =>
    exact (reg_safe hval).seq fun _ => helper_safe.seq fun _ =>
      Safe.seq (Safe.foldlM (fun _ _ _ => helper_safe.seq fun _ => Keeps.pure _) _)
        fun _ => Keeps.pure _
  | _ =>
    exact (entryKey_safe hkey).seq fun _ => (reg_safe hval).seq fun _ =>
      (entryValue_safe _ _ _).seq fun _ => Keeps.pure _

theorem buildObject_safe {entries : List PropEntry}
    (h : ∀ entry ∈ entries, entry.val < f.registerCount ∧
      ∀ k ∈ entry.key, Checker.checkKey f address k = .ok ()) :
    Keeps W f (buildObject host f entries) :=
  currentScope_safe.seq fun _ => helper_safe.seq fun home =>
    Safe.seq (Safe.foldlM (fun parts entry he =>
      buildEntry_safe (h entry he).1 (h entry he).2 home parts) _) fun _ =>
    helper_safe

theorem nameValue_safe {name : ClassNameTemplate}
    (h : Checker.checkName f address name = .ok ()) : Keeps W f (nameValue host name) := by
  cases name with
  | «static» _ => exact helper_safe
  | priv _ => exact helper_safe
  | computed r => exact reg_safe (Checker.checkReg_ok.1 h)

theorem checkOptReg_ok {r : Option Reg} (h : Checker.checkOptReg f address r = .ok ()) :
    ∀ r' ∈ r, r' < f.registerCount := by
  rintro r' rfl
  exact Checker.checkReg_ok.1 h

theorem decoratorValues_safe {decorators : List (Reg × Option Reg)}
    (h : Checker.checkDecorators f address decorators = .ok ()) :
    Keeps W f (decoratorValues decorators) := by
  simp only [Checker.checkDecorators, List.forM_eq_forM, Checker.forM_ok, Checker.seq_ok,
    Checker.checkReg_ok] at h
  exact Safe.foldlM (fun _ d hd => (reg_safe (h d hd).1).seq fun _ =>
    (receiverReg_safe (checkOptReg_ok (h d hd).2)).seq fun _ => Keeps.pure _) _

theorem declareStorage_safe (scope : Env) (storage : Option String) (property : Value) :
    Keeps W f (declareStorage host scope storage property) := by
  cases storage with
  | none => exact Keeps.pure _
  | some _ => exact helper_safe

variable {template : ClassTemplate} {member : ClassMemberTemplate}

/-- Every accepted member passed its own checks. -/
theorem checkMembers_ok {start : Nat} {members : List ClassMemberTemplate}
    (h : Checker.checkMembers f address template start members = .ok ()) (hm : member ∈ members) :
    Checker.checkDecorators f address member.decorators = .ok () ∧
      Checker.checkName f address member.name = .ok () ∧
      ∀ func ∈ member.func, Checker.checkFuncConst f address func = .ok () := by
  induction members generalizing start with
  | nil => simp at hm
  | cons first rest ih =>
    simp only [Checker.checkMembers, Checker.seq_ok] at h
    rcases List.mem_cons.1 hm with rfl | hm
    · have hf := h.1
      simp only [Checker.checkMember] at hf
      split at hf <;> simp only [Checker.seq_ok] at hf
      · refine ⟨hf.2.1, hf.2.2.1, ?_⟩
        rintro func hfunc
        simpa [Option.mem_def.1 hfunc] using hf.2.2.2
      · refine ⟨hf.2.1, hf.2.2.1, ?_⟩
        rintro func hfunc
        simpa [Option.mem_def.1 hfunc] using hf.2.2.2
    · exact ih h.2 hm

theorem bindClassKeys_safe {regs : List Reg} (h : ∀ r ∈ regs, r < f.registerCount)
    (scope : Env) (index : Nat) : Keeps W f (bindClassKeys host scope index regs) := by
  induction regs generalizing index with
  | nil => exact Keeps.pure _
  | cons r rest ih =>
    exact (reg_safe (h r List.mem_cons_self)).seq fun _ => helper_safe.seq fun _ =>
      ih (fun r' hr' => h r' (List.mem_cons_of_mem _ hr')) _

variable (hv : Verified f)
include hv

theorem buildMember_safe (hd : Checker.checkDecorators f address member.decorators = .ok ())
    (hn : Checker.checkName f address member.name = .ok ())
    (hf : ∀ func ∈ member.func, Checker.checkFuncConst f address func = .ok ())
    (template : ClassTemplate) (memberScope memberClosure staticClosure : Env)
    (methods : List ClassMethodDefinition) :
    Keeps W f (buildMember host f template memberScope memberClosure staticClosure methods
      member) := by
  refine (nameValue_safe hn).seq fun _ => (declareStorage_safe _ _ _).seq fun _ =>
    (helper_safe.ite (Keeps.pure _)).seq fun _ => helper_safe.seq fun _ =>
    helper_safe.seq fun _ => ?_
  cases hfunc : member.func with
  | none => cases member.kind <;> exact internal_safe (by decide)
  | some func =>
    exact (classFunction_safe hv (Checker.checkFuncConst_lt (hf func hfunc)) _ _).seq
      fun _ => ((decoratorValues_safe hd).ite (Keeps.pure _)).seq fun _ =>
      (helper_safe.ite (Keeps.pure _)).seq fun _ => Keeps.pure _

theorem buildClass_safe {tmpl : Nat} (h : Checker.checkClassTemplate f address tmpl = .ok ())
    (ht : f.constants[tmpl]? = some (.classTemplate template)) :
    Keeps W f (buildClass host f template) := by
  simp only [Checker.checkClassTemplate, Checker.seq_ok, ht, List.forM_eq_forM, Checker.forM_ok,
    Checker.checkRegs_ok] at h
  obtain ⟨-, hdec, hsup, hproto, hkeys, hctor, hfields, hmembers, hblocks⟩ := h
  refine currentScope_safe.seq fun _ => (optReg_safe (checkOptReg_ok hsup)).seq fun _ =>
    (optReg_safe (checkOptReg_ok hproto)).seq fun _ => helper_safe.seq fun _ =>
    helper_safe.seq fun _ => Safe.seq (Safe.foldlM (fun _ m hm => ?_) _) fun _ =>
    helper_safe.seq fun _ => (bindClassKeys_safe hkeys _ _).seq fun _ =>
    (classFunction_safe hv (Checker.checkFuncConst_lt hctor) _ _).seq fun _ =>
    Safe.seq (Safe.foldlM (fun _ b hb => ?_) _) fun _ =>
    Safe.seq (Safe.foldlM (fun _ fd hfd => ?_) _) fun _ =>
    (decoratorValues_safe hdec).seq fun _ => helper_safe
  · obtain ⟨hd, hn, hf⟩ := checkMembers_ok hmembers hm
    exact buildMember_safe hv hd hn hf _ _ _ _ _
  · have hb' := hblocks b hb
    cases b with
    | field name init => exact (nameValue_safe hb').seq fun _ => Keeps.pure _
    | block index =>
      refine (constant?_safe (Checker.checkConstIs_lt hb')).seq fun c => ?_
      cases c with
      | none => exact internal_safe (by decide)
      | some c => cases c <;> first | exact Keeps.pure _ | exact internal_safe (by decide)
  · exact (nameValue_safe (hfields fd hfd).1).seq fun _ =>
      (decoratorValues_safe (hfields fd hfd).2).seq fun _ => Keeps.pure _

end Literals

end NapiVm
