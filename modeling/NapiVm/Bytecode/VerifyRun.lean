import NapiVm.Bytecode.VerifySound

/-!
# Runs of verified functions

One case for each instruction form: an accepted instruction keeps the frame
invariant.  The invariant then holds along every run, and with it every index a
run uses is in bounds.
-/

namespace NapiVm

open VM NapiVm.Action Checker

variable {W : Type} {f : BytecodeFunction}

/-! ## The remaining parts -/

variable {address tmpl : Nat}

theorem checkRegs_nil : checkRegs f address [] = .ok () ↔ True := by
  simp

theorem checkRegs_cons {r : Reg} {regs : List Reg} :
    checkRegs f address (r :: regs) = .ok () ↔
      r < f.registerCount ∧ checkRegs f address regs = .ok () := by
  simp

theorem checkClassTemplate_lt (h : checkClassTemplate f address tmpl = .ok ()) :
    tmpl < f.constants.length := by
  rw [checkClassTemplate, seq_ok] at h
  exact checkConstIs_lt h.1

/-- The registers and keys of an accepted object template. -/
theorem objectTemplate_ok {entries : List PropEntry}
    (hc : f.constants[tmpl]? = some (.objectTemplate entries))
    (h : (match f.constants[tmpl]? with
      | some (.objectTemplate entries) =>
        forM entries fun entry => do
          match entry.key with
          | some key => checkKey f address key
          | none => .ok ()
          checkReg f address entry.val
      | _ => .ok ()) = Except.ok ()) :
    ∀ entry ∈ entries, entry.val < f.registerCount ∧
      ∀ k ∈ entry.key, checkKey f address k = .ok () := by
  simp only [hc, forM_ok] at h
  intro entry he
  have hentry := h entry he
  cases hk : entry.key with
  | none =>
    simp only [hk, seq_ok, checkReg_ok] at hentry
    exact ⟨hentry.2, by simp⟩
  | some key =>
    simp only [hk, seq_ok, checkReg_ok] at hentry
    exact ⟨hentry.2, by simpa using hentry.1⟩

section Parts

variable {host : Host W}

theorem loadConstant_safe (c : Constant) : Keeps W f (loadConstant host c) := by
  cases c <;>
    first | exact Keeps.pure _ | exact helper_safe | exact internal_safe (by decide)

theorem slotUpdate_safe (value : Value) (increment : Bool) :
    Keeps W f (slotUpdate host value increment) := by
  cases value with
  | number bits => exact helper_safe.seq fun _ => Keeps.pure _
  | _ => exact helper_safe

theorem toDestructArray_safe (value : Value) : Keeps W f (toDestructArray host value) := by
  cases value with
  | ref kind id =>
    cases kind with
    | array => exact helper_safe.seq fun _ => helper_safe
    | _ => exact helper_safe
  | string units =>
    exact helper_safe.seq fun _ => (Keeps.throw _).ite helper_safe
  | _ => exact helper_safe

theorem checkDestructObject_safe (value : Value) : Keeps W f (checkDestructObject value) := by
  cases value <;> first | exact Keeps.throw _ | exact Keeps.pure _

theorem restObject_safe (source taken : Value) : Keeps W f (restObject host source taken) := by
  cases taken with
  | ref kind id =>
    cases kind with
    | array => exact helper_safe.seq fun _ => helper_safe
    | _ => exact internal_safe (by decide)
  | _ => exact internal_safe (by decide)

end Parts

variable {address : Nat} {instr : Instr} {m : Machine W}

theorem scopeName_safe {name : Option Nat}
    (h : (match name with
      | some name => checkConstIs f address name .string
      | none => .ok ()) = Except.ok ()) : Keeps W f (scopeName f name) := by
  cases name with
  | none => exact Keeps.pure _
  | some name => exact constString_safe h

/-- A pushed handler lands inside the function. -/
theorem pushHandler_safe {target : Target} {dst : Reg} {catchReturns : Bool}
    (ht : target ≤ f.code.length) (hd : dst < f.registerCount) :
    Keeps W f (modifyFrame fun fr =>
      { fr with
        handlers := fr.handlers ++ [⟨target, dst, catchReturns, fr.scopes.length,
          fr.pending.length, fr.enumerators.length⟩] }) := by
  refine modifyFrame_safe fun fr => ⟨rfl, rfl, rfl, fun hh h hin => ?_⟩
  rcases List.mem_append.1 hin with hin | hin
  · exact hh h hin
  · rw [List.mem_singleton.1 hin]
    exact ⟨ht, hd⟩

/-- What the interpreter answers goes to a register. -/
theorem answer_safe {host : Host W} {dst : Reg} (hd : dst < f.registerCount) {h : Helper}
    (value : h.Reply → Value) : Keeps W f (helper host h >>= fun r => setReg dst (value r)) :=
  helper_safe.seq fun _ => setReg_safe hd _

/-! ## Instructions -/

/-- **An accepted instruction keeps the invariant.** -/
theorem execBody_safe (hv : Verified f) (host : Host W) (h : checkInstr f address instr = .ok ()) :
    Keeps W f (execBody host f instr) := by
  cases instr <;>
    simp only [checkInstr, seq_ok, checkRegs_cons, checkRegs_nil, and_true, checkReg_ok,
      checkSlot_ok, checkTarget_ok, checkRange_ok, checkCache_ok, List.forM_eq_forM] at h
  case loadConst dst cst =>
    obtain ⟨hd, hc⟩ := h
    exact (constant_safe (checkConstIs_lt hc)).seq fun c => (loadConstant_safe c).seq fun _ =>
      setReg_safe hd _
  case mov dst src =>
    obtain ⟨hd, hs⟩ := h
    exact (reg_safe hs).seq fun _ => setReg_safe hd _
  case loadLocal dst s =>
    obtain ⟨hd, hs⟩ := h
    exact (liveSlot_safe hv hs).seq fun _ => setReg_safe hd _
  case storeLocal s src =>
    obtain ⟨hs, hr⟩ := h
    exact (checkSlotWritable_safe hv hs).seq fun _ => (reg_safe hr).seq fun _ =>
      initSlot_safe hv hs _
  case declareLocal s kind initialized =>
    exact setSlot_safe hv h _
  case initLocal s src =>
    obtain ⟨hs, hr⟩ := h
    exact (reg_safe hr).seq fun _ => initSlot_safe hv hs _
  case initGlobal name src function =>
    obtain ⟨hn, hs⟩ := h
    exact (constString_safe hn).seq fun _ => (reg_safe hs).seq fun _ =>
      currentScope_safe.seq fun _ => helper_safe.ite helper_safe
  case hoistVarGlobal name | annexBInit name =>
    exact (constString_safe h).seq fun _ => currentScope_safe.seq fun _ => helper_safe
  case annexBUpdate name src s =>
    obtain ⟨hn, hr, hs⟩ := h
    refine (constString_safe hn).seq fun _ => currentScope_safe.seq fun _ =>
      (reg_safe hr).seq fun _ => helper_safe.seq fun _ => ?_
    cases s with
    | none => exact Keeps.pure _
    | some s => exact (initSlot_safe hv (checkSlot_ok.1 hs) _).ite (Keeps.pure _)
  case bareVarLocal s =>
    exact (liveSlot_safe hv h).seq fun _ => Keeps.pure _
  case bareVarGlobal name =>
    refine (constString_safe h).seq fun _ => helper_safe.seq fun _ =>
      helper_safe.seq fun found => ?_
    cases found with
    | none => exact helper_safe
    | some _ => exact Keeps.pure _
  case loadGlobal dst name =>
    obtain ⟨hd, hn⟩ := h
    refine (constString_safe hn).seq fun _ => currentScope_safe.seq fun _ =>
      helper_safe.seq fun found => ?_
    cases found with
    | value v => exact setReg_safe hd _
    | uninitialized => exact Keeps.throw _
    | missing => exact (setReg_safe hd _).ite (Keeps.throw _)
  case checkClassStaticKey key | exportDefault src =>
    exact (reg_safe h).seq fun _ => helper_safe
  case loadCallBinding dst receiver name =>
    obtain ⟨⟨hd, hr⟩, hn⟩ := h
    exact (constString_safe hn).seq fun _ => currentScope_safe.seq fun _ => helper_safe.seq fun _ =>
      (setReg_safe hd _).seq fun _ => setReg_safe hr _
  case resolveAssignmentBinding base property name =>
    obtain ⟨⟨hb, hp⟩, hn⟩ := h
    exact (constString_safe hn).seq fun _ => currentScope_safe.seq fun _ => helper_safe.seq fun _ =>
      (setReg_safe hb _).seq fun _ => setReg_safe hp _
  case readAssignmentBinding dst base property name =>
    obtain ⟨⟨hd, hb, hp⟩, hn⟩ := h
    exact (constString_safe hn).seq fun _ => currentScope_safe.seq fun _ => helper_safe.seq fun _ =>
      (setReg_safe hb _).seq fun _ => (setReg_safe hp _).seq fun _ => setReg_safe hd _
  case writeAssignmentBinding base property name src =>
    obtain ⟨⟨hb, hp, hs⟩, hn⟩ := h
    exact (reg_safe hb).seq fun _ => (reg_safe hp).seq fun _ => helper_safe.seq fun _ =>
      (constString_safe hn).seq fun _ => (reg_safe hs).seq fun _ => helper_safe
  case writeAssignmentProperty obj key src isPrivate =>
    obtain ⟨ho, hk, hs⟩ := h
    refine Keeps.ite ?_ ?_
    · exact (reg_safe hk).seq fun _ => helper_safe.seq fun _ => currentScope_safe.seq fun _ =>
        (reg_safe ho).seq fun _ => (reg_safe hs).seq fun _ => helper_safe
    · exact scopeStrict_safe.seq fun _ => (reg_safe ho).seq fun _ => (reg_safe hk).seq fun _ =>
        (reg_safe hs).seq fun _ => helper_safe
  case storeGlobal name src | defineGlobal name src kind initialized =>
    obtain ⟨hn, hs⟩ := h
    exact (constString_safe hn).seq fun _ => (reg_safe hs).seq fun _ =>
      currentScope_safe.seq fun _ => helper_safe
  case loadThis dst =>
    exact frame_safe.seq fun _ => setReg_safe h _
  case loadGlobalThis dst | superConstructor dst =>
    exact currentScope_safe.seq fun _ => answer_safe h _
  case typeofGlobal dst name =>
    obtain ⟨hd, hn⟩ := h
    refine (constString_safe hn).seq fun _ => currentScope_safe.seq fun _ =>
      helper_safe.seq fun found => ?_
    cases found with
    | value v => exact answer_safe hd _
    | missing => exact answer_safe hd _
    | uninitialized => exact Keeps.throw _
  case typeofLocal dst s =>
    obtain ⟨hd, hs⟩ := h
    exact (liveSlot_safe hv hs).seq fun _ => answer_safe hd _
  case binary dst op lhs rhs =>
    obtain ⟨⟨hd, hl, hr⟩, -⟩ := h
    refine (reg_safe hl).seq fun l => (reg_safe hr).seq fun r => ?_
    split
    · exact answer_safe hd _
    · refine helper_safe.seq fun fast => ?_
      cases fast with
      | none => exact answer_safe hd _
      | some v => exact setReg_safe hd _
    · exact answer_safe hd _
  case unary dst op src =>
    obtain ⟨⟨hd, hs⟩, -⟩ := h
    exact (reg_safe hs).seq fun _ => answer_safe hd _
  case compoundLocal dst s op rhs =>
    obtain ⟨hd, hs, hr, -⟩ := h
    exact (compoundSlot_safe hv hs hr).seq fun _ => setReg_safe hd _
  case compoundGlobal dst name op rhs =>
    obtain ⟨hd, hn, hr, -⟩ := h
    exact (constString_safe hn).seq fun _ => (reg_safe hr).seq fun _ =>
      currentScope_safe.seq fun _ => answer_safe hd _
  case compoundProp dst obj key op rhs =>
    obtain ⟨⟨hd, ho, hk, hr⟩, -⟩ := h
    simp only [execBody]
    split
    · exact internal_safe
    · exact (reg_safe ho).seq fun _ => (reg_safe hk).seq fun _ => (reg_safe hr).seq fun _ =>
        answer_safe hd _
  case incLocal dst s delta prefixed =>
    obtain ⟨hd, hs, -⟩ := h
    exact (checkSlotWritable_safe hv hs).seq fun _ => (slot_safe hv hs).seq fun _ =>
      (slotUpdate_safe _ _).seq fun _ => (initSlot_safe hv hs _).seq fun _ => setReg_safe hd _
  case incGlobal dst name delta prefixed =>
    obtain ⟨hd, hn, -⟩ := h
    exact (constString_safe hn).seq fun _ => currentScope_safe.seq fun _ => answer_safe hd _
  case incProp dst obj key delta prefixed =>
    obtain ⟨⟨hd, ho, hk⟩, -⟩ := h
    exact scopeStrict_safe.seq fun _ => (reg_safe ho).seq fun _ => (reg_safe hk).seq fun _ =>
      answer_safe hd _
  case delProp dst obj key =>
    obtain ⟨hd, ho, hk⟩ := h
    exact (reg_safe ho).seq fun _ => (reg_safe hk).seq fun _ => scopeStrict_safe.seq fun _ =>
      answer_safe hd _
  case delGlobal dst name | loadGlobalSoft dst name =>
    obtain ⟨hd, hn⟩ := h
    exact (constString_safe hn).seq fun _ => currentScope_safe.seq fun _ => answer_safe hd _
  case jump target =>
    exact jumpTo_safe h
  case jumpIfTrue src target =>
    obtain ⟨hs, ht⟩ := h
    exact (reg_safe hs).seq fun _ => helper_safe.seq fun _ => (jumpTo_safe ht).ite (Keeps.pure _)
  case jumpIfFalse src target =>
    obtain ⟨hs, ht⟩ := h
    exact (reg_safe hs).seq fun _ => helper_safe.seq fun _ => (Keeps.pure _).ite (jumpTo_safe ht)
  case jumpIfNullish src target =>
    obtain ⟨hs, ht⟩ := h
    refine (reg_safe hs).seq fun v => ?_
    split
    · exact jumpTo_safe ht
    · exact jumpTo_safe ht
    · exact Keeps.pure _
  case jumpIfNotNullish src target =>
    obtain ⟨hs, ht⟩ := h
    refine (reg_safe hs).seq fun v => ?_
    split
    · exact Keeps.pure _
    · exact Keeps.pure _
    · exact jumpTo_safe ht
  case loopHead =>
    exact helper_safe.seq fun _ => helper_safe
  case «return» src =>
    exact (reg_safe h).seq fun _ => helper_safe.seq fun _ => Keeps.throw _
  case returnUndefined =>
    exact Keeps.throw _
  case throw src =>
    exact (reg_safe h).seq fun _ => Keeps.throw _
  case getProp isPrivate site dst obj key =>
    obtain ⟨hc, hd, ho, hk⟩ := h
    refine Keeps.ite ?_ ?_
    · exact (reg_safe hk).seq fun _ => helper_safe.seq fun _ => currentScope_safe.seq fun _ =>
        (reg_safe ho).seq fun _ => answer_safe hd _
    · exact (reg_safe ho).seq fun _ => (reg_safe hk).seq fun _ =>
        (getPropCached_safe hc _ _).seq fun _ => setReg_safe hd _
  case loadTemplate dst site | newTarget dst | importMeta dst =>
    exact answer_safe h _
  case freezeTemplate site cooked raw =>
    obtain ⟨hc, hr⟩ := h
    refine (reg_safe hr).seq fun _ => (reg_safe hc).seq fun _ => ?_
    split
    · exact answer_safe hc _
    · exact internal_safe
  case setProp site obj key val =>
    obtain ⟨hc, ho, hk, hval⟩ := h
    exact (reg_safe hval).seq fun _ => scopeStrict_safe.seq fun _ => (reg_safe ho).seq fun _ =>
      (reg_safe hk).seq fun _ => setPropCached_safe hc _ _ _ _
  case directEval dst callee this args argc =>
    obtain ⟨⟨hd, hc⟩, ht, hr⟩ := h
    exact (registerRange_safe hr).seq fun _ => (reg_safe hc).seq fun _ =>
      (receiverReg_safe (checkOptReg_ok ht)).seq fun _ => evalOrCall_safe hd _ _ _
  case directEvalSpread dst callee this tmpl =>
    obtain ⟨⟨hd, hc⟩, ht, hs⟩ := h
    exact (spreadTemplate_safe hs).bind fun _ hok => (spreadArgv_safe hok).seq fun _ =>
      (reg_safe hc).seq fun _ => (receiverReg_safe (checkOptReg_ok ht)).seq fun _ =>
      evalOrCall_safe hd _ _ _
  case call dst callee args argc =>
    obtain ⟨⟨hd, hc⟩, hr⟩ := h
    exact (registerRange_safe hr).seq fun _ => (reg_safe hc).seq fun _ => callOrTail_safe hd _ _ _
  case callMethod dst callee this args argc =>
    obtain ⟨⟨hd, hc, ht⟩, hr⟩ := h
    exact (registerRange_safe hr).seq fun _ => (reg_safe ht).seq fun _ => (reg_safe hc).seq fun _ =>
      callOrTail_safe hd _ _ _
  case template dst quasis args argc =>
    obtain ⟨hd, hq, hr, -⟩ := h
    refine (constant_safe (checkConstIs_lt hq)).seq fun _ => ?_
    split
    · exact (registerRange_safe hr).seq fun _ => answer_safe hd _
    · exact internal_safe
  case construct dst callee args argc =>
    obtain ⟨⟨hd, hc⟩, hr⟩ := h
    exact (registerRange_safe hr).seq fun _ => (reg_safe hc).seq fun _ => answer_safe hd _
  case constructSpread dst callee tmpl =>
    obtain ⟨⟨hd, hc⟩, hs⟩ := h
    exact (spreadTemplate_safe hs).bind fun _ hok => (spreadArgv_safe hok).seq fun _ =>
      (reg_safe hc).seq fun _ => answer_safe hd _
  case expandSpread dst src =>
    obtain ⟨hd, hs⟩ := h
    exact (reg_safe hs).seq fun _ => helper_safe.seq fun _ => answer_safe hd _
  case newObject dst | setOwnProp obj key val =>
    exact internal_safe
  case newArray dst args argc =>
    obtain ⟨hd, hr⟩ := h
    exact (registerRange_safe hr).seq fun _ => answer_safe hd _
  case makeFunction dst func =>
    obtain ⟨hd, hf⟩ := h
    refine (constant_safe (checkConstIs_lt hf)).bind fun c hc => ?_
    split
    · exact currentScope_safe.seq fun _ =>
        (makeFunction_safe hv (List.mem_of_getElem? hc) _ _).seq fun _ => setReg_safe hd _
    · exact internal_safe
  case makeAstFunction dst ast =>
    obtain ⟨hd, hf⟩ := h
    refine (constant_safe (checkConstIs_lt hf)).seq fun _ => ?_
    split
    · exact currentScope_safe.seq fun _ => answer_safe hd _
    · exact internal_safe
  case normalKey dst src | propertyKey dst src | classHeritage dst superclass
    | dynamicImport dst src | await dst src =>
    obtain ⟨hd, hs⟩ := h
    exact (reg_safe hs).seq fun _ => answer_safe hd _
  case buildObject dst tmpl =>
    obtain ⟨hd, ht, he⟩ := h
    refine (constant_safe (checkConstIs_lt ht)).bind fun c hc => ?_
    split
    · exact (buildObject_safe (objectTemplate_ok hc he)).seq fun _ => setReg_safe hd _
    · exact internal_safe
  case loadLocalSoft dst s =>
    obtain ⟨hd, hs⟩ := h
    exact (slot_safe hv hs).seq fun _ => setReg_safe hd _
  case callSpread dst callee tmpl =>
    obtain ⟨⟨hd, hc⟩, hs⟩ := h
    exact (spreadTemplate_safe hs).bind fun _ hok => (spreadArgv_safe hok).seq fun _ =>
      (reg_safe hc).seq fun _ => callOrTail_safe hd _ _ _
  case methodSpread dst callee this tmpl =>
    obtain ⟨⟨hd, hc, ht⟩, hs⟩ := h
    exact (spreadTemplate_safe hs).bind fun _ hok => (spreadArgv_safe hok).seq fun _ =>
      (reg_safe hc).seq fun _ => (reg_safe ht).seq fun _ => callOrTail_safe hd _ _ _
  case buildArray dst tmpl =>
    obtain ⟨hd, hs⟩ := h
    exact (spreadTemplate_safe hs).bind fun _ hok => (spreadArray_safe hok).seq fun _ =>
      setReg_safe hd _
  case toDestructArray dst src =>
    obtain ⟨hd, hs⟩ := h
    exact (reg_safe hs).seq fun _ => (toDestructArray_safe _).seq fun _ => setReg_safe hd _
  case restArray dst src start =>
    obtain ⟨hd, hs⟩ := h
    refine (reg_safe hs).seq fun _ => ?_
    split
    · exact helper_safe.seq fun _ => answer_safe hd _
    · exact internal_safe
  case checkDestructObject dst src =>
    obtain ⟨hd, hs⟩ := h
    exact (reg_safe hs).seq fun _ => (checkDestructObject_safe _).seq fun _ => setReg_safe hd _
  case restObject dst src taken =>
    obtain ⟨hd, hs, ht⟩ := h
    exact (reg_safe hs).seq fun _ => (reg_safe ht).seq fun _ => (restObject_safe _ _).seq fun _ =>
      setReg_safe hd _
  case enumKeys dst src =>
    obtain ⟨-, hs⟩ := h
    exact (reg_safe hs).seq fun _ => helper_safe.seq fun _ => modifyFrame_safe fun _ =>
      ⟨rfl, rfl, rfl, id⟩
  case enumNext state dst done =>
    obtain ⟨-, hd, hn⟩ := h
    refine frame_safe.seq fun fr => ?_
    split
    · exact internal_safe
    · refine Keeps.ite internal_safe (helper_safe.seq fun key => ?_)
      cases key with
      | none => exact (setReg_safe hn _).seq fun _ => setReg_safe hd _
      | some key =>
        exact (setReg_safe hn _).seq fun _ => answer_safe hd _
  case enumEnd state =>
    refine frame_safe.seq fun fr => ?_
    split
    · exact internal_safe
    · exact Keeps.seq (modifyFrame_safe fun _ => ⟨rfl, rfl, rfl, id⟩) fun _ =>
        Keeps.ite internal_safe (Keeps.pure _)
  case forOfInit iter next src =>
    obtain ⟨hi, hn, hs⟩ := h
    exact (reg_safe hs).seq fun _ => helper_safe.seq fun _ => helper_safe.seq fun _ =>
      (Keeps.throw _).ite ((setReg_safe hi _).seq fun _ => setReg_safe hn _)
  case iterNext done value iter next =>
    obtain ⟨hd, hval, hi, hn⟩ := h
    exact (reg_safe hi).seq fun _ => (reg_safe hn).seq fun _ => helper_safe.seq fun _ =>
      helper_safe.seq fun _ => (setReg_safe hd _).seq fun _ => setReg_safe hval _
  case closeIterator src unwind =>
    refine (reg_safe h).seq fun _ => Keeps.ite (frame_safe.seq fun fr => ?_) helper_safe
    split
    · exact internal_safe
    · exact helper_safe
  case pushCatch target dst | pushFinally target dst =>
    obtain ⟨ht, hd⟩ := h
    exact pushHandler_safe ht hd
  case popHandler =>
    exact frame_safe.seq fun _ => Keeps.ite internal_safe (modifyFrame_safe fun _ =>
      ⟨rfl, rfl, rfl, fun h e he => h e (List.dropLast_subset _ he)⟩)
  case popPending | popScope =>
    exact frame_safe.seq fun _ => Keeps.ite internal_safe (modifyFrame_safe fun _ =>
      ⟨rfl, rfl, rfl, id⟩)
  case rethrow =>
    refine frame_safe.seq fun fr => ?_
    split
    · exact Keeps.seq (modifyFrame_safe fun _ => ⟨rfl, rfl, rfl, id⟩) fun _ => Keeps.throw _
    · exact internal_safe
  case superMember dst key =>
    obtain ⟨hd, hk⟩ := h
    exact currentScope_safe.seq fun _ => (reg_safe hk).seq fun _ => helper_safe.seq fun _ =>
      answer_safe hd _
  case superReference base receiver key src =>
    obtain ⟨hb, hr, hk, hs⟩ := h
    exact (reg_safe hs).seq fun _ => currentScope_safe.seq fun _ => helper_safe.seq fun _ =>
      (setReg_safe hb _).seq fun _ => (setReg_safe hr _).seq fun _ => setReg_safe hk _
  case getPropertyWithReceiver dst base receiver key =>
    obtain ⟨hd, hb, hr, hk⟩ := h
    exact (reg_safe hb).seq fun _ => (reg_safe hk).seq fun _ => (reg_safe hr).seq fun _ =>
      answer_safe hd _
  case setPropertyWithReceiver base receiver key value =>
    obtain ⟨hb, hr, hk, hval⟩ := h
    exact (reg_safe hb).seq fun _ => (reg_safe hk).seq fun _ => (reg_safe hval).seq fun _ =>
      (reg_safe hr).seq fun _ => scopeStrict_safe.seq fun _ => helper_safe
  case numericUpdate previous updated src increment =>
    obtain ⟨hp, hu, hs⟩ := h
    exact (reg_safe hs).seq fun _ => helper_safe.seq fun _ => (setReg_safe hp _).seq fun _ =>
      setReg_safe hu _
  case superCall dst callee args argc =>
    obtain ⟨⟨hc, hd⟩, hr⟩ := h
    exact (reg_safe hc).seq fun _ => (registerRange_safe hr).seq fun _ => answer_safe hd _
  case superCallSpread dst callee tmpl =>
    obtain ⟨⟨hc, hd⟩, hs⟩ := h
    exact (reg_safe hc).seq fun _ =>
      (spreadTemplate_safe hs).bind fun _ hok => (spreadArgv_safe hok).seq fun _ => answer_safe hd _
  case raise msg =>
    exact (constString_safe h).seq fun _ => Keeps.throw _
  case buildClass dst tmpl =>
    obtain ⟨hd, ht⟩ := h
    refine (constant_safe (checkClassTemplate_lt ht)).bind fun c hc => ?_
    split
    · exact (buildClass_safe hv ht hc).seq fun _ => setReg_safe hd _
    · exact internal_safe
  case inferName dst key =>
    obtain ⟨hd, hk⟩ := h
    exact (reg_safe hk).seq fun _ => (reg_safe hd).seq fun _ => answer_safe hd _
  case classScope name =>
    exact (scopeName_safe h).seq fun _ => currentScope_safe.seq fun _ => helper_safe.seq fun _ =>
      modifyFrame_safe fun _ => ⟨rfl, rfl, rfl, id⟩
  case classPrivateEnvironment names =>
    refine (constant_safe (checkConstIs_lt h)).seq fun _ => ?_
    split
    · exact currentScope_safe.seq fun _ => helper_safe
    · exact internal_safe
  case privateIn dst obj name =>
    obtain ⟨⟨hd, ho⟩, hn⟩ := h
    exact (constString_safe hn).seq fun _ => currentScope_safe.seq fun _ =>
      (reg_safe ho).seq fun _ => answer_safe hd _
  case «import» tmpl | exportNamed tmpl | exportAll tmpl =>
    refine (constant_safe (checkConstIs_lt h)).seq fun _ => ?_
    split
    · exact helper_safe
    · exact internal_safe
  case pushScope =>
    exact currentScope_safe.seq fun _ => helper_safe.seq fun _ => modifyFrame_safe fun _ =>
      ⟨rfl, rfl, rfl, id⟩

/-! ## Rounds -/

/-- The fuel is paid before the pointer moves, and a fetched instruction leaves room for it. -/
theorem executeInstruction_safe (hv : Verified f) (host : Host W) (hm : FrameOk f m)
    (hi : f.code[m.frame.ip]? = some instr) :
    FrameOk f (executeInstruction host f instr m).2 ∧
      (executeInstruction host f instr m).1 ≠ .panic := by
  have hlt : m.frame.ip < f.code.length := (List.getElem?_eq_some_iff.1 hi).1
  -- Paying the fuel does not touch the frame, so the pointer is still inside the code.
  have hfuel : Safe (fun m' : Machine W => FrameOk f m' ∧ m'.frame.ip = m.frame.ip)
      (helper host (.consumeFuel instr.cost)) fun _ => True := by
    intro m' hm'
    unfold helper
    rcases host (.consumeFuel instr.cost) m'.world with ⟨_ | r, w⟩
    · exact ⟨⟨{ hm'.1 with }, hm'.2⟩, trivial⟩
    · exact ⟨⟨{ hm'.1 with }, hm'.2⟩, trivial⟩
  have hrun := hfuel m ⟨hm, rfl⟩
  have hb : executeInstruction host f instr m = andThen (helper host (.consumeFuel instr.cost))
      (fun _ => andThen (modifyFrame fun fr => { fr with ip := fr.ip + 1 })
        fun _ => execBody host f instr) m := rfl
  rw [hb, andThen]
  rcases hh : helper host (.consumeFuel instr.cost) m with ⟨o, m'⟩
  rw [hh] at hrun
  cases o with
  | err e => exact ⟨hrun.1.1, by simp⟩
  | panic => exact hrun.2.elim
  | ok u =>
    have hip : m'.frame.ip = m.frame.ip := hrun.1.2
    have hnext : m'.frame.ip + 1 ≤ f.code.length := by omega
    have hadv : FrameOk f { m' with frame := { m'.frame with ip := m'.frame.ip + 1 } } :=
      { hrun.1.1 with ip := hnext }
    have hbody := execBody_safe hv host (hv.instr hi) _ hadv
    refine ⟨hbody.1, fun hp => ?_⟩
    have hmeets := hbody.2
    rw [show (execBody host f instr _).1 = Outcome.panic from hp] at hmeets
    exact hmeets

theorem popTo_mem {isRet : Bool} {l : List HandlerEntry} {entry : HandlerEntry}
    {rest : List HandlerEntry} (h : popTo isRet l = some (entry, rest)) :
    entry ∈ l ∧ ∀ e ∈ rest, e ∈ l := by
  induction l with
  | nil => simp [popTo] at h
  | cons first others ih =>
    simp only [popTo] at h
    split at h
    · obtain ⟨he, hr⟩ := ih h
      exact ⟨List.mem_cons_of_mem _ he, fun e hin => List.mem_cons_of_mem _ (hr e hin)⟩
    · simp only [Option.some.injEq, Prod.mk.injEq] at h
      obtain ⟨rfl, rfl⟩ := h
      exact ⟨List.mem_cons_self, fun e hin => List.mem_cons_of_mem _ hin⟩

/-- **A landing keeps the invariant**: the handler was checked when it was pushed. -/
theorem landHandler_safe (host : Host W) (error : VmErr) :
    Keeps W f (landHandler host f error) := by
  refine Keeps.ite (frame_safe.bind fun fr hfr => ?_) (Keeps.throw _)
  split
  · exact Keeps.seq (modifyFrame_safe fun _ => ⟨rfl, rfl, rfl, fun _ => by simp⟩) fun _ =>
      Keeps.throw _
  · next entry rest hpop =>
      obtain ⟨hentry, hrest⟩ := popTo_mem hpop
      have hok : entry.Ok f := hfr.2.2 entry (List.mem_reverse.1 hentry)
      have hrest' : ∀ e ∈ rest.reverse, e.Ok f := fun e he =>
        hfr.2.2 e (List.mem_reverse.1 (hrest e (List.mem_reverse.1 he)))
      refine Keeps.seq (modifyFrame_safe fun _ => ⟨rfl, rfl, rfl, fun _ => hrest'⟩) fun _ =>
        Keeps.seq ?_ fun v => (setReg_safe hok.2 v).seq fun _ =>
        Keeps.seq (modifyFrame_safe fun _ => ⟨rfl, rfl, rfl, id⟩) fun _ => jumpTo_safe hok.1
      unfold landingValue
      split
      · exact Keeps.pure _
      · exact Keeps.pure _
      · exact helper_safe

/-- The invariant of the loop: the frame is fine, and nothing panicked. -/
def LoopOk (f : BytecodeFunction) (s : LoopState W) : Prop :=
  FrameOk f s.machine ∧ s.status ≠ .panicked

theorem afterLanding_ok (host : Host W) (error : VmErr) (hm : FrameOk f m) :
    LoopOk f (afterLanding (landHandler host f error m)) := by
  have h := landHandler_safe host error m hm
  rcases hl : landHandler host f error m with ⟨o, m'⟩
  rw [hl] at h
  cases o with
  | ok u => exact ⟨h.1, nofun⟩
  | err e => exact ⟨h.1, nofun⟩
  | panic => exact h.2.elim

theorem loopRound_ok (hv : Verified f) (host : Host W) (topLevel : Bool) (hm : FrameOk f m) :
    LoopOk f (loopRound host f topLevel m) := by
  unfold loopRound
  cases hi : f.code[m.frame.ip]? with
  | some instr =>
    have h := executeInstruction_safe hv host hm hi
    rcases he : executeInstruction host f instr m with ⟨o, m'⟩
    simp only [he]
    rw [he] at h
    cases o with
    | ok u => exact ⟨h.1, nofun⟩
    | err e => exact afterLanding_ok host e h.1
    | panic => exact absurd rfl h.2
  | none =>
    have hge : f.code.length ≤ m.frame.ip := List.getElem?_eq_none_iff.1 hi
    have heq : m.frame.ip = f.code.length := Nat.le_antisymm hm.ip hge
    simp only [if_pos heq]
    exact ⟨hm, nofun⟩

/-! ## Runs -/

theorem setup_ok {buffers : ActivationBuffers} (hb : Recycled buffers)
    (thisValue : Value) (args : List Value) (world : W) :
    FrameOk f { frame := CallFrame.setup f buffers thisValue args, world := world } := by
  -- Recycling empties every buffer but the registers, and those are resized.
  have hslots : buffers.slots = [] := by cases hb <;> rfl
  have hhandlers : buffers.handlers = [] := by cases hb <;> rfl
  exact
    { ip := Nat.zero_le _
      registers := by simp [CallFrame.setup]
      slots := by simp [CallFrame.setup, hslots]
      handlers := by simp [CallFrame.setup, hhandlers]
      trace := by simp }

theorem runOf_ok (hv : Verified f) {host : Host W} {topLevel : Bool} {s : LoopState W}
    (h : RunOf host f topLevel s) : LoopOk f s := by
  refine Reachable.invariant (fun s hs => ?_) (fun s t hs hst => ?_) h
  · cases hs with
    | call buffers hb thisValue args world => exact ⟨setup_ok hb thisValue args world, nofun⟩
  · cases hst with
    | round m => exact loopRound_ok hv host topLevel hs.1

/-- `g` is `f` or nested in it at some depth. -/
inductive Within (g : BytecodeFunction) : BytecodeFunction → Prop where
  | self : Within g g
  | nested {h f : BytecodeFunction} : .function h ∈ f.constants → Within g h → Within g f

theorem Within.verifyFunction {g : BytecodeFunction} (hg : Within g f)
    (h : verifyFunction f = .ok ()) : verifyFunction g = .ok () := by
  induction hg with
  | self => exact h
  | @nested k f hmem _ ih =>
    refine ih ?_
    cases f with
    | mk code constants registerCount localCount parameterCount upvalueCount slots caches =>
      rw [NapiVm.verifyFunction, seq_ok] at h
      exact verifyConstants_ok h.2 hmem

/-- **The verifier is sound.**  In every state of every run of an accepted function
or of a function nested in it, whatever the interpreter answered: nothing has
panicked, the pointer is at most the code length, and everything on the trace is
sound: each register, slot, constant and cache index was inside its table, each
operand range and each landing inside its own, and none of the bounds errors was
raised. -/
theorem verified_run_sound (host : Host W) (f : BytecodeFunction)
    (h : verifyFunction f = .ok ()) (g : BytecodeFunction) (hg : Within g f) (topLevel : Bool)
    (s : LoopState W) (hr : RunOf host g topLevel s) :
    s.status ≠ .panicked ∧ s.machine.frame.ip ≤ g.code.length ∧
      ∀ e ∈ s.machine.trace, e.Sound := by
  obtain ⟨hok, hstatus⟩ := runOf_ok (Verified.of_verifyFunction (hg.verifyFunction h)) hr
  exact ⟨hstatus, hok.ip, hok.trace⟩

/-- A host that answers every call with an empty reply. -/
def quietHost : Host Unit := fun h w => (.ok (by cases h <;> exact default), w)

/-- `try { throw true } catch {}` beside a nested empty function. -/
def catchingFunction : BytecodeFunction :=
  .mk [.pushCatch 4 0, .loadConst 1 0, .throw 1, .loopHead]
    [.bool true, .function (.mk [] [] 0 1 1 0 [⟨"x", .var, false⟩] 0)] 2 0 0 0 [] 0

/-- The run of `catchingFunction` that throws and lands behind its code. -/
def caughtRun : LoopState Unit :=
  runLoop quietHost catchingFunction false 3
    ⟨{ frame := CallFrame.setup catchingFunction {} .undefined [], world := () }, .running⟩

theorem verified_run_sound_caught :
    verifyFunction catchingFunction = .ok () ∧ caughtRun.machine.frame.ip = 4 ∧
      caughtRun.machine.trace.length = 5 ∧
      (caughtRun.status ≠ .panicked ∧
        caughtRun.machine.frame.ip ≤ catchingFunction.code.length ∧
        ∀ e ∈ caughtRun.machine.trace, e.Sound) :=
  have hok : verifyFunction catchingFunction = .ok () := by rfl
  ⟨hok, rfl, rfl,
    verified_run_sound quietHost catchingFunction hok catchingFunction .self false caughtRun
      (RunOf.runLoop (Reachable.start (.call {} .fresh .undefined [] ())) 3)⟩

end NapiVm
