import NapiVm.NodeApi.Coherent

/-!
# Handles live as long as their scopes

* `Trace` — a process, and what has happened in it: with which value and in which scope every
  handle was made, which scopes had something escape, and which slots are not used again.
* `Trace.Step` — what one operation does.
* `handles_refine_scopes` — what holds in every run.
-/

namespace NapiVm.NodeApi

variable {α : Type}

/-! ## Runs -/

/-- What an addon can ask for; and a token that goes to another part of the process. -/
inductive Operation (α : Type) where
  | create (value : α)
  | createInScope (value : α) (scopeIndex : Nat)
  | get (pointer : Nat)
  | openScope
  | openEscapableScope
  | createScopeHandle (id : Nat) (escapable : Bool)
  | closeScope (id : Nat)
  | closeScopeHandle (pointer : Nat)
  | closeEscapableScopeHandle (pointer : Nat)
  | escapeHandle (scopePointer escapee : Nat)
  | elsewhere

/-- Is it an escape? -/
def Operation.escapes : Operation α → Bool
  | .escapeHandle _ _ => true
  | _ => false

/-- What an operation returns. -/
inductive Answer (α : Type) where
  | handle (pointer : Nat)
  | value (value : α)
  | scope (id : Nat)
  | token (pointer : Nat)
  | done

/-- Another name for what is returned. -/
def answered {β : Type} (answer : β → Answer α) (action : Action (Process α) Status β) :
    Action (Process α) Status (Answer α) :=
  action.andThen fun result process => (.ok (answer result), process)

/-- One operation. -/
def perform : Operation α → Action (Process α) Status (Answer α)
  | .create value => answered .handle (create value)
  | .createInScope value scopeIndex => answered .handle (createInScope value scopeIndex)
  | .get pointer => answered .value fun process => (process.arena.get pointer, process)
  | .openScope => answered .scope openScope
  | .openEscapableScope => answered .scope openEscapableScope
  | .createScopeHandle id escapable => answered .token (createScopeHandle id escapable)
  | .closeScope id => answered (fun _ => .done) (closeScope id)
  | .closeScopeHandle pointer => answered (fun _ => .done) (closeScopeHandle pointer)
  | .closeEscapableScopeHandle pointer =>
    answered (fun _ => .done) (closeEscapableScopeHandle pointer)
  | .escapeHandle scopePointer escapee => answered .handle (escapeHandle scopePointer escapee)
  | .elsewhere => answered .token newOpaqueHandle

structure Trace (α : Type) where
  process : Process α
  made : List (Made α)
  escaped : List Nat
  retired : List Nat

namespace Trace

abbrev arena (trace : Trace α) : NapiHandleArena α := trace.process.arena

/-- The open scopes, the outermost one first. -/
def ids (trace : Trace α) : List Nat := trace.arena.scopes.map HandleScope.id

/-- The scope in which an operation makes a handle, and the value of it. -/
def making (trace : Trace α) : Operation α → Option (Nat × α)
  | .create value => trace.ids.getLast?.map fun scope => (scope, value)
  | .createInScope value scopeIndex => trace.ids[scopeIndex]?.map fun scope => (scope, value)
  | .escapeHandle _ escapee =>
    match trace.ids.dropLast.getLast?, trace.arena.get escapee with
    | some scope, .ok value => some (scope, value)
    | _, _ => none
  | _ => none

/-- The scope that an operation is to close. -/
def closing (trace : Trace α) : Operation α → Option Nat
  | .closeScope id => some id
  | .closeScopeHandle pointer => (trace.arena.scopeHandles.get pointer).map Prod.fst
  | .closeEscapableScopeHandle pointer => (trace.arena.scopeHandles.get pointer).map Prod.fst
  | _ => none

/-- The slots that a closing scope does not give back: their generations are used up. -/
def retiring (trace : Trace α) : List Nat :=
  match trace.arena.scopes.getLast? with
  | some scope => trace.arena.usedUp scope.slots
  | none => []

def outcome (trace : Trace α) (operation : Operation α) : Outcome Status (Answer α) :=
  (perform operation trace.process).1

/-- What an answer says about what was made. -/
def newlyMade (trace : Trace α) (operation : Operation α) : Answer α → List (Made α)
  | .handle token => (trace.making operation).toList.map fun p => ⟨token, p.1, p.2⟩
  | _ => []

/-- What is known after an operation. -/
def record (trace : Trace α) (operation : Operation α) :
    Outcome Status (Answer α) × Process α → Trace α
  | (.ok answer, process) =>
    { process
      made := trace.newlyMade operation answer ++ trace.made
      escaped := (if operation.escapes then trace.ids.getLast?.toList else []) ++ trace.escaped
      retired :=
        (if (trace.closing operation).isSome then trace.retiring else []) ++ trace.retired }
  | (_, process) => { trace with process }

/-- The trace goes on. -/
def after (trace : Trace α) (operation : Operation α) : Trace α :=
  trace.record operation (perform operation trace.process)

def run (trace : Trace α) (operations : List (Operation α)) : Trace α :=
  operations.foldl after trace

/-- A new arena. -/
def initial (α : Type) (nextOpaqueHandleId : Nat) : Trace α where
  process := Process.initial α nextOpaqueHandleId
  made := []
  escaped := []
  retired := []

/-- What a token stands for: the value it was made with, while its scope is open. -/
def resolve (trace : Trace α) (pointer : Nat) : Outcome Status α :=
  match trace.made.find? fun m => decide (m.token = pointer) with
  | some m => if m.scope ∈ trace.ids then .ok m.value else .err .invalidArg
  | none => .err .invalidArg

end Trace

/-! ## Steps -/

variable {β : Type} {answer : β → Answer α} {action : Action (Process α) Status β}
  {process process' : Process α}

theorem answered_ok {result : β} (h : action process = (.ok result, process')) :
    answered answer action process = (.ok (answer result), process') :=
  Action.andThen_ok h

theorem answered_err {status : Status} (h : action process = (.err status, process')) :
    answered answer action process = (.err status, process') :=
  Action.andThen_err h

namespace Trace

/-- The arena of a trace has to do with what has happened. -/
def Sound (trace : Trace α) : Prop :=
  Coherent trace.arena trace.process.nextOpaqueHandleId trace.made trace.escaped trace.retired

/-- What an operation does to a trace. -/
structure Step (trace : Trace α) (operation : Operation α) : Prop where
  total : trace.outcome operation ≠ .panic
  unchanged : ∀ status, trace.outcome operation = .err status →
    (trace.after operation).arena = trace.arena
  closes : ∀ answer id, trace.outcome operation = .ok answer →
    trace.closing operation = some id → trace.ids = (trace.after operation).ids ++ [id]
  opens : ∀ answer, trace.outcome operation = .ok answer → trace.closing operation = none →
    ∃ new, (trace.after operation).ids = trace.ids ++ new ∧
      ∀ id ∈ new, trace.arena.nextScopeId ≤ id
  sound : (trace.after operation).Sound

section Steps

variable {trace : Trace α} {operation : Operation α} (hsound : trace.Sound)

/-- An operation that succeeds. -/
theorem Step.of_ok {answer : Answer α} {process : Process α}
    (h : perform operation trace.process = (.ok answer, process))
    (hcloses : ∀ id, trace.closing operation = some id →
      trace.ids = process.arena.scopes.map HandleScope.id ++ [id])
    (hopens : trace.closing operation = none →
      ∃ new, process.arena.scopes.map HandleScope.id = trace.ids ++ new ∧
        ∀ id ∈ new, trace.arena.nextScopeId ≤ id)
    (hafter : Coherent process.arena process.nextOpaqueHandleId
      (trace.newlyMade operation answer ++ trace.made)
      ((if operation.escapes then trace.ids.getLast?.toList else []) ++ trace.escaped)
      ((if (trace.closing operation).isSome then trace.retiring else []) ++ trace.retired)) :
    trace.Step operation := by
  refine ⟨?_, ?_, ?_, ?_, ?_⟩
  · rw [outcome, h]
    exact nofun
  · rw [outcome, h]
    exact nofun
  · rw [after, h]
    exact fun _ id _ hid => hcloses id hid
  · rw [after, h]
    exact fun _ _ hclosing => hopens hclosing
  · rw [after, h]
    exact hafter

/-- Making a handle, in some scope. -/
theorem Step.of_made {token : Nat} {scope : HandleScope} {value : α} {arena : NapiHandleArena α}
    {escaped : List Nat}
    (h : perform operation trace.process = (.ok (.handle token), ⟨arena, token + 1⟩))
    (hids : arena.scopes.map HandleScope.id = trace.ids)
    (hclosing : trace.closing operation = none)
    (hmaking : trace.making operation = some (scope.id, value))
    (hescaped : (if operation.escapes then trace.ids.getLast?.toList else []) ++ trace.escaped =
      escaped)
    (hcoherent : Coherent arena (token + 1) (⟨token, scope.id, value⟩ :: trace.made) escaped
      trace.retired) : trace.Step operation := by
  refine Step.of_ok h ?_ ?_ ?_
  · rw [hclosing]
    exact nofun
  · intro _
    refine ⟨[], ?_, fun _ h => absurd h List.not_mem_nil⟩
    rw [List.append_nil]
    exact hids
  · rw [newlyMade, hmaking, hclosing, hescaped]
    exact hcoherent

/-- Closing the innermost scope. -/
theorem Step.of_closed {outer : List HandleScope} {scope : HandleScope}
    {arena : NapiHandleArena α} (hscopes : trace.arena.scopes = outer ++ [scope])
    (hclosing : trace.closing operation = some scope.id) (hescapes : operation.escapes = false)
    (h : perform operation trace.process = (.ok .done, { trace.process with arena }))
    (houter : arena.scopes = outer)
    (hcoherent : Coherent arena trace.process.nextOpaqueHandleId trace.made trace.escaped
      (trace.arena.usedUp scope.slots ++ trace.retired)) : trace.Step operation := by
  have hids : trace.ids = arena.scopes.map HandleScope.id ++ [scope.id] := by
    rw [ids, hscopes, houter, List.map_append]
    rfl
  have hretiring : trace.retiring = trace.arena.usedUp scope.slots := by
    rw [retiring, hscopes, List.getLast?_concat]
  refine Step.of_ok h ?_ ?_ ?_
  · rw [hclosing]
    exact fun id hid => Option.some.inj hid ▸ hids
  · rw [hclosing]
    exact nofun
  · rw [hclosing, hescapes, hretiring]
    exact hcoherent

include hsound

/-- A failing operation changes nothing. -/
theorem Step.of_err {status : Status}
    (h : perform operation trace.process = (.err status, trace.process)) :
    trace.Step operation := by
  refine ⟨?_, ?_, ?_, ?_, ?_⟩
  · rw [outcome, h]
    exact nofun
  · rw [after, h]
    exact fun _ _ => rfl
  · rw [outcome, h]
    exact nofun
  · rw [outcome, h]
    exact nofun
  · rw [after, h]
    exact hsound

/-- An operation on other things. -/
theorem Step.of_idle {answer : Answer α} {next : Nat} {scopeHandles : HashTable Nat (Nat × Bool)}
    (h : perform operation trace.process = (.ok answer, ⟨{ trace.arena with scopeHandles }, next⟩))
    (hnext : trace.process.nextOpaqueHandleId ≤ next) (hclosing : trace.closing operation = none)
    (hmade : trace.newlyMade operation answer = []) (hescapes : operation.escapes = false) :
    trace.Step operation := by
  refine Step.of_ok h ?_ ?_ ?_
  · rw [hclosing]
    exact nofun
  · exact fun _ => ⟨[], (List.append_nil _).symm, fun _ h => absurd h List.not_mem_nil⟩
  · rw [hmade, hescapes, hclosing]
    exact (hsound.later hnext).withScopeHandles _

theorem step_createInScope (value : α) (scopeIndex : Nat) :
    trace.Step (.createInScope value scopeIndex) := by
  rcases hsound.createInScope_cases value scopeIndex with
    ⟨status, hfail⟩ | ⟨scope, arena, hscope, hmade, ⟨index, hchanged⟩, hcoherent⟩
  · exact Step.of_err hsound (answered_err hfail)
  · have hids := (congrArg (List.map HandleScope.id) hchanged).trans (ids_modify fun _ => rfl)
    refine Step.of_made (answered_ok hmade) hids rfl ?_ rfl hcoherent
    rw [making, ids, List.getElem?_map, hscope]
    rfl

theorem step_create (value : α) : trace.Step (.create value) := by
  rcases hsound.createInScope_cases value (trace.arena.scopes.length - 1) with
    ⟨status, hfail⟩ | ⟨scope, arena, hscope, hmade, ⟨index, hchanged⟩, hcoherent⟩
  · exact Step.of_err hsound (answered_err hfail)
  · have hids := (congrArg (List.map HandleScope.id) hchanged).trans (ids_modify fun _ => rfl)
    refine Step.of_made (answered_ok hmade) hids rfl ?_ rfl hcoherent
    rw [← List.getLast?_eq_getElem?] at hscope
    rw [making, ids, List.getLast?_map, hscope]
    rfl

theorem step_escapeHandle (scopePointer escapee : Nat) :
    trace.Step (.escapeHandle scopePointer escapee) := by
  rcases hsound.escapeHandle_cases scopePointer escapee with ⟨status, hfail⟩ |
    ⟨outer, scope, parent, value, arena, hscopes, hparent, hget, hmade, hids, hcoherent⟩
  · exact Step.of_err hsound (answered_err hfail)
  · have houter : trace.ids = outer.map HandleScope.id ++ [scope.id] := by
      rw [ids, hscopes, List.map_append]
      rfl
    refine Step.of_made (answered_ok hmade) hids rfl ?_ ?_ hcoherent
    · rw [making, houter, List.dropLast_concat, List.getLast?_map, hparent, hget]
      rfl
    · rw [houter, List.getLast?_concat]
      rfl

theorem step_get (pointer : Nat) : trace.Step (.get pointer) := by
  cases hget : trace.arena.get pointer with
  | ok value =>
    have h : (fun process : Process α => (process.arena.get pointer, process)) trace.process =
        (.ok value, trace.process) := congrArg (·, trace.process) hget
    exact Step.of_idle hsound (answered_ok h) (Nat.le_refl _) rfl rfl rfl
  | err status =>
    have h : (fun process : Process α => (process.arena.get pointer, process)) trace.process =
        (.err status, trace.process) := congrArg (·, trace.process) hget
    exact Step.of_err hsound (answered_err h)
  | panic => exact absurd hget (trace.arena.get_ne_panic pointer)

theorem step_elsewhere : trace.Step .elsewhere := by
  rcases newOpaqueHandle_cases trace.process with ⟨status, hfail⟩ | htoken
  · exact Step.of_err hsound (answered_err hfail)
  · exact Step.of_idle hsound (answered_ok htoken) (Nat.le_succ _) rfl rfl rfl

theorem step_createScopeHandle (id : Nat) (escapable : Bool) :
    trace.Step (.createScopeHandle id escapable) := by
  by_cases hfull : maxLocalHandles ≤ trace.arena.scopeHandles.len
  · have h : createScopeHandle id escapable trace.process =
        (.err .genericFailure, trace.process) := if_pos hfull
    exact Step.of_err hsound (answered_err h)
  · rcases newOpaqueHandle_cases trace.process with ⟨status, hfail⟩ | htoken
    · have h : createScopeHandle id escapable trace.process = (.err status, trace.process) :=
        (if_neg hfull).trans (Action.andThen_err hfail)
      exact Step.of_err hsound (answered_err h)
    · have h : createScopeHandle id escapable trace.process =
          (.ok trace.process.nextOpaqueHandleId, ⟨{ trace.arena with
                scopeHandles :=
                  trace.arena.scopeHandles.insert trace.process.nextOpaqueHandleId (id, escapable) },
              trace.process.nextOpaqueHandleId + 1⟩) :=
        (if_neg hfull).trans (Action.andThen_ok htoken)
      exact Step.of_idle hsound (answered_ok h) (Nat.le_succ _) rfl rfl rfl

/-- Opening a scope of either kind. -/
theorem Step.of_opened {escapable : Bool}
    (h : perform operation trace.process = (.ok (.scope trace.arena.nextScopeId),
      { trace.process with
        arena := { trace.arena with
          nextScopeId := trace.arena.nextScopeId + 1
          scopes := trace.arena.scopes ++ [⟨trace.arena.nextScopeId, [], escapable, false⟩] } }))
    (hclosing : trace.closing operation = none) (hescapes : operation.escapes = false) :
    trace.Step operation := by
  refine Step.of_ok h ?_ ?_ ?_
  · rw [hclosing]
    exact nofun
  · intro _
    refine ⟨[trace.arena.nextScopeId], List.map_append, fun id hid => ?_⟩
    rw [List.mem_singleton.1 hid]
  · rw [hclosing, hescapes]
    exact hsound.push escapable

theorem step_openScope : trace.Step .openScope := by
  rcases openScope_cases trace.process with ⟨status, hfail⟩ | hopen
  · exact Step.of_err hsound (answered_err hfail)
  · exact Step.of_opened hsound (answered_ok hopen) rfl rfl

theorem step_openEscapableScope : trace.Step .openEscapableScope := by
  rcases openScope_cases trace.process with ⟨status, hfail⟩ | hopen
  · exact Step.of_err hsound (answered_err (Action.andThen_err hfail))
  · have h : openEscapableScope trace.process = (.ok trace.arena.nextScopeId,
        { trace.process with
          arena := { trace.arena with
            nextScopeId := trace.arena.nextScopeId + 1
            scopes := trace.arena.scopes ++ [⟨trace.arena.nextScopeId, [], true, false⟩] } }) := by
      refine (Action.andThen_ok hopen).trans ?_
      dsimp only
      rw [modifyTop_eq rfl]
    exact Step.of_opened hsound (answered_ok h) rfl rfl

theorem step_closeScope (id : Nat) : trace.Step (.closeScope id) := by
  rcases hsound.closeScope_cases id with
    ⟨status, hfail⟩ | ⟨outer, scope, arena, hscopes, hid, hclose, houter, -, hcoherent⟩
  · exact Step.of_err hsound (answered_err hfail)
  · exact Step.of_closed hscopes (congrArg some hid.symm) rfl (answered_ok hclose) houter hcoherent

theorem step_closeScopeHandle (pointer : Nat) : trace.Step (.closeScopeHandle pointer) := by
  rcases hsound.closeScopeHandleWithKind_cases pointer false with
    ⟨status, hfail⟩ | ⟨outer, scope, arena, hscopes, hid, hclose, houter, hcoherent⟩
  · exact Step.of_err hsound (answered_err hfail)
  · exact Step.of_closed hscopes hid rfl (answered_ok hclose) houter hcoherent

theorem step_closeEscapableScopeHandle (pointer : Nat) :
    trace.Step (.closeEscapableScopeHandle pointer) := by
  rcases hsound.closeScopeHandleWithKind_cases pointer true with
    ⟨status, hfail⟩ | ⟨outer, scope, arena, hscopes, hid, hclose, houter, hcoherent⟩
  · exact Step.of_err hsound (answered_err hfail)
  · exact Step.of_closed hscopes hid rfl (answered_ok hclose) houter hcoherent

/-- One step of any run. -/
theorem step (operation : Operation α) : trace.Step operation := by
  cases operation with
  | create value => exact step_create hsound value
  | createInScope value scopeIndex => exact step_createInScope hsound value scopeIndex
  | get pointer => exact step_get hsound pointer
  | openScope => exact step_openScope hsound
  | openEscapableScope => exact step_openEscapableScope hsound
  | createScopeHandle id escapable => exact step_createScopeHandle hsound id escapable
  | closeScope id => exact step_closeScope hsound id
  | closeScopeHandle pointer => exact step_closeScopeHandle hsound pointer
  | closeEscapableScopeHandle pointer => exact step_closeEscapableScopeHandle hsound pointer
  | escapeHandle scopePointer escapee => exact step_escapeHandle hsound scopePointer escapee
  | elsewhere => exact step_elsewhere hsound

end Steps

/-! ## Every run -/

theorem sound_initial (next : Nat) : (initial α next).Sound := by
  refine ⟨List.cons_ne_nil _ _, List.nodup_singleton _, ?_, .refl _, List.nodup_nil,
    fun _ h => absurd h List.not_mem_nil, fun _ h => absurd h List.not_mem_nil,
    nofun, fun _ h => absurd h List.not_mem_nil, List.nodup_nil,
    fun _ h => absurd h List.not_mem_nil, fun _ _ h => absurd h List.not_mem_nil⟩
  intro scope hscope
  rw [List.mem_singleton.1 hscope]
  exact Nat.one_pos

variable {trace : Trace α}

theorem sound_run (h : trace.Sound) (operations : List (Operation α)) :
    (trace.run operations).Sound := by
  induction operations generalizing trace with
  | nil => exact h
  | cons operation operations ih => exact ih (step h operation).sound

theorem mem_made_after {m : Made α} (hm : m ∈ trace.made) (operation : Operation α) :
    m ∈ (trace.after operation).made := by
  rw [after]
  rcases perform operation trace.process with ⟨outcome, process⟩
  cases outcome with
  | ok answer => exact List.mem_append_right _ hm
  | err status => exact hm
  | panic => exact hm

/-- A scope that is closed stays closed. -/
theorem not_mem_ids_after (h : trace.Sound) {id : Nat} (hid : id < trace.arena.nextScopeId)
    (hclosed : id ∉ trace.ids) (operation : Operation α) : id ∉ (trace.after operation).ids := by
  have hstep := step h operation
  cases houtcome : trace.outcome operation with
  | panic => exact absurd houtcome hstep.total
  | err status =>
    rw [ids, hstep.unchanged status houtcome]
    exact hclosed
  | ok answer =>
    cases hclosing : trace.closing operation with
    | some other =>
      intro hmem
      refine hclosed ?_
      rw [hstep.closes answer other houtcome hclosing]
      exact List.mem_append_left _ hmem
    | none =>
      obtain ⟨new, hnew, hlt⟩ := hstep.opens answer houtcome hclosing
      rw [hnew]
      intro hmem
      exact (List.mem_append.1 hmem).elim hclosed fun hmem =>
        Nat.not_lt.2 (hlt id hmem) hid

/-- What was made stays in the trace, and its scope stays closed. -/
theorem made_run (h : trace.Sound) {m : Made α} (hm : m ∈ trace.made)
    (operations : List (Operation α)) : m ∈ (trace.run operations).made ∧
      (m.scope ∉ trace.ids → m.scope ∉ (trace.run operations).ids) := by
  induction operations generalizing trace with
  | nil => exact ⟨hm, id⟩
  | cons operation operations ih =>
    obtain ⟨hmem, hstays⟩ := ih (step h operation).sound (mem_made_after hm operation)
    exact ⟨hmem, fun hclosed =>
      hstays (not_mem_ids_after h (h.scopes_lt m hm) hclosed operation)⟩

end Trace

/-- An arena behaves as a stack of scopes. -/
structure Refines (trace : Trace α) : Prop where
  /-- A token stands for the value it was made with while its scope is open, and for nothing after
  that. -/
  get_eq : ∀ pointer, trace.arena.get pointer = trace.resolve pointer
  tokens_nodup : (trace.made.map Made.token).Nodup
  stays : ∀ m ∈ trace.made, ∀ more : List (Operation α), m ∈ (trace.run more).made ∧
    (m.scope ∉ trace.ids → m.scope ∉ (trace.run more).ids)
  /-- Every slot is free, in one open scope or retired. -/
  slots_perm : (trace.arena.freeSlots ++
    (trace.arena.scopes.flatMap HandleScope.slots ++ trace.retired)).Perm
      (List.range trace.arena.slots.length)
  /-- Nothing escapes twice from a scope. -/
  escaped_nodup : trace.escaped.Nodup
  /-- Scopes close in the reverse order, and a failing operation changes nothing. -/
  step : ∀ operation : Operation α, trace.Step operation

/-- In every run, whichever tokens other parts of the process have taken or take. -/
theorem handles_refine_scopes (next : Nat) (operations : List (Operation α)) :
    Refines ((Trace.initial α next).run operations) := by
  have hsound := Trace.sound_run (Trace.sound_initial (α := α) next) operations
  exact ⟨hsound.get_eq, hsound.tokens_nodup, fun m hm => Trace.made_run hsound hm,
    hsound.slots_perm, hsound.escaped_nodup, Trace.step hsound⟩

end NapiVm.NodeApi
