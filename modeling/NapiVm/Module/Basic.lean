import NapiVm.Module.Graph
import NapiVm.Promise.Steady

/-!
# The two module evaluators

`evaluate_linked_module` of `module_link.rs` runs the bodies of a graph one after the
other; `start_async_module` of `asynchronous.rs` runs what can run at once and leaves the
rest to promises and jobs.  Both work on the records of `Module.Graph` and on the event
loop of `Promise.Basic`, and both may be called again while they are under way: a body is
guest code, it may ask for other modules, and a job drained at an `await` may too.

So each call is an `Activation` that goes on step by step, and a `Move` is a step of any
of them, a new call, the end of a body, or a job.  The code's own order, in which a nested
call returns before its caller goes on, is one of the orders of these moves.
-/

namespace NapiVm.Modules

open Promises

/-! ## The state -/

/-- What a guard does when its dependencies are done. -/
inductive GuardAction where
  /-- Queue the evaluation of the module. -/
  | evaluate (id : Nat)
  /-- Resolve the target with the namespace. -/
  | resolve (namespaceObject : Value)
  deriving DecidableEq, Repr

/-- The guard of a module that waits for its dependencies, or of
`namespace_after_dependencies`. -/
structure Guard where
  target : Nat
  action : GuardAction
  remaining : Int
  deriving DecidableEq, Repr

/-- What a reaction of the evaluator does; the pair of functions is one handler. -/
inductive Handler where
  /-- `dependency_fulfilled` and `dependency_rejected`, or the same for a namespace. -/
  | dependency (g : Nat)
  /-- `body_fulfilled`, `dependency_rejected`. -/
  | body (id target : Nat)
  deriving DecidableEq, Repr

/-- What a promise of the evaluator is for. -/
inductive Role where
  | evaluation (id : Nat)
  /-- The end of a body. -/
  | completion (id : Nat)
  /-- The result of `namespace_after_dependencies`, with the guard. -/
  | namespaceResult (g : Nat)
  deriving DecidableEq, Repr

/-- A frame of `evaluate_linked_module`, with the requests it has not come to. -/
structure SyncFrame where
  id : Nat
  rest : List ModuleRequest
  deriving DecidableEq, Repr

/-- Where an activation of `evaluate_linked_module` stands. -/
inductive SyncControl where
  | enter (id : Nat) (curMod : Option Nat)
  | loop
  /-- The body of the innermost frame runs. -/
  | body
  /-- `perform_await`, on an evaluation promise. -/
  | awaits (promise : Nat)
  | returns (result : Except Value Unit)
  deriving DecidableEq

/-- A frame of `start_async_module` in its loop over the requests. -/
structure AsyncFrame where
  id : Nat
  promise : Nat
  rest : List ModuleRequest
  scheduled : List Nat
  dependencies : List Nat
  deriving DecidableEq, Repr

/-- Where an activation of `start_async_module` stands. -/
inductive AsyncControl where
  | enter (id : Nat)
  | loop
  /-- The body of a module runs, up to its end or its first `await`. -/
  | body (id target completion : Nat)
  | returns (result : Except Value Nat)
  deriving DecidableEq

/-- `start_deferred_module`, with the modules it has still to start. -/
structure Deferred where
  id : Nat
  rest : List Nat
  dependencies : List Nat
  deriving DecidableEq, Repr

/-- Who gets the promise of an asynchronous activation. -/
inductive Caller where
  | host
  | importCall (target : Nat)
  deriving DecidableEq, Repr

/-- A call under way. -/
inductive Activation where
  | sync (frames : List SyncFrame) (control : SyncControl)
  | async (frames : List AsyncFrame) (outer : Option Deferred) (control : AsyncControl)
      (caller : Caller)
  deriving DecidableEq

/-- The engine, as far as module evaluation is concerned. -/
structure Vm where
  loop : EventLoop
  /-- How many records there are. -/
  size : Nat
  records : Records
  /-- The addresses of the namespace objects, and of the deferred ones. -/
  namespaces : Nat → Nat
  deferredNamespaces : Nat → Nat
  evaluating : List Nat
  guards : List Guard
  /-- The handlers, by the promise their reaction derives. -/
  handlers : PMap Nat Handler
  /-- The promises of the evaluator; no guest has their resolvers. -/
  owned : PMap Nat Role
  /-- The completion promises of the bodies that wait at an `await`. -/
  suspended : List Nat
  activations : List Activation

namespace Vm

/-! ## Promises and records -/

def namespaceObject (vm : Vm) (id : Nat) : Value := .ref .object (vm.namespaces id)

def deferredNamespaceObject (vm : Vm) (id : Nat) : Value := .ref .object (vm.deferredNamespaces id)

/-- `Value::pending_promise`, for the evaluator. -/
def pendingPromise (vm : Vm) (role : Role) : Nat × Vm :=
  (vm.loop.next,
    { vm with
      loop := { vm.loop with
        promises := vm.loop.promises.insert vm.loop.next (Promises.pendingPromise false false)
        next := vm.loop.next + 1 }
      owned := vm.owned.insert vm.loop.next role })

/-- `Value::settled_promise`. -/
def settledPromise (vm : Vm) (state : PromiseState) (value : Value) : Nat × Vm :=
  (vm.loop.next,
    { vm with
      loop := { vm.loop with
        promises := vm.loop.promises.insert vm.loop.next (Promises.settledPromise state value)
        next := vm.loop.next + 1 } })

/-- `resolve_promise` with a namespace, whose `then` is read without guest code. -/
def resolveNamespace (loop : EventLoop) (p : Nat) (value : Value) (read : ThenRead) : EventLoop :=
  match loop.lock p with
  | some loop' => loop'.finishRead p value read
  | none => loop

def isPending (vm : Vm) (p : Nat) : Bool :=
  (vm.loop.promises p).any fun inner => decide (inner.state = .pending)

/-- Note that a promise waits for the host. -/
def markExternal (loop : EventLoop) (p : Nat) (external : Bool) : EventLoop :=
  match loop.promises p with
  | some inner =>
    let inner := { inner with externalPending := inner.externalPending || external }
    { loop with promises := loop.promises.insert p inner }
  | none => loop

/-- A promise waits for the host if the other one does. -/
def inheritExternal (loop : EventLoop) (p q : Nat) : EventLoop :=
  markExternal loop p ((loop.promises q).any PromiseInner.externalPending)

/-- `register`, with a pair of handlers of the evaluator. -/
def react (vm : Vm) (p : Nat) (handler : Handler) : Vm :=
  let onFulfilled := Value.ref .object vm.loop.next
  let onRejected := Value.ref .object (vm.loop.next + 1)
  let loop := { vm.loop with next := vm.loop.next + 2 }
  { vm with
    loop := loop.register p onFulfilled onRejected none
    handlers := vm.handlers.insert loop.next handler }

/-- Change the record of a module. -/
def modify (vm : Vm) (id : Nat) (f : LinkedModule → LinkedModule) : Vm :=
  { vm with records := vm.records.modify id f }

/-- An error made by the engine, at a new address. -/
def makeError (vm : Vm) : Value × Vm :=
  (.ref .error vm.loop.next, { vm with loop := { vm.loop with next := vm.loop.next + 1 } })

/-- `namespace_after_dependencies`. -/
def namespaceAfterDependencies (vm : Vm) (value : Value) (dependencies : List Nat)
    (read : ThenRead) : Nat × Vm :=
  let (target, vm) := vm.pendingPromise (.namespaceResult vm.guards.length)
  match dependencies with
  | [] => (target, { vm with loop := resolveNamespace vm.loop target value read })
  | _ =>
    let g := vm.guards.length
    let vm := { vm with guards := vm.guards ++ [⟨target, .resolve value, dependencies.length⟩] }
    (target, dependencies.foldl
      (fun vm dependency =>
        { vm with loop := inheritExternal vm.loop target dependency }.react dependency
          (.dependency g))
      vm)

/-- `finish_async_module`. -/
def finishAsyncModule (vm : Vm) (id target : Nat) (result : Except Value Unit)
    (read : ThenRead) : Vm :=
  if vm.isPending target then
    if vm.records.evaluation id = some target then
      let vm := { vm with evaluating := vm.evaluating.filter (· ≠ id) }
      match result with
      | .ok () =>
        let vm := vm.modify id fun record => { record with state := .evaluated }
        { vm with loop := resolveNamespace vm.loop target (vm.namespaceObject id) read }
      | .error value =>
        let vm := vm.modify id fun record => { record with state := .failed value }
        { vm with loop := vm.loop.rejectPromise target value }
    else
      let (error, vm) := vm.makeError
      { vm with loop := vm.loop.rejectPromise target error }
  else vm

/-! ## `start_async_module` -/

/-- `MAX_CALL_DEPTH`. -/
def maxCallDepth : Nat := 256

/-- The path of an activation, from the module it was started on. -/
def ancestors (frames : List AsyncFrame) : List Nat := (frames.map AsyncFrame.id).reverse

/-- The promise a module of a cycle is imported through, when its root is elsewhere. -/
def rootPromise (vm : Vm) (frames : List AsyncFrame) (id : Nat) (record : LinkedModule) :
    Option Nat :=
  (record.cycleRoot.filter fun root => root != id && !(ancestors frames).contains root).bind
    vm.records.evaluation

/-- `start_async_module`, up to its loop. -/
def enterAsync (vm : Vm) (frames : List AsyncFrame) (id : Nat) (read : ThenRead) :
    Vm × List AsyncFrame × AsyncControl :=
  match vm.records id with
  | none =>
    let (p, vm) := vm.settledPromise .fulfilled (vm.namespaceObject id)
    (vm, frames, .returns (.ok p))
  | some record =>
    match record.evaluation with
    | some promise =>
      match vm.rootPromise frames id record with
      | some root =>
        let (p, vm) := vm.namespaceAfterDependencies (vm.namespaceObject id) [root] read
        (vm, frames, .returns (.ok p))
      | none => (vm, frames, .returns (.ok promise))
    | none =>
      match record.state with
      | .evaluated =>
        let (p, vm) := vm.settledPromise .fulfilled (vm.namespaceObject id)
        (vm, frames, .returns (.ok p))
      | .failed value =>
        let (p, vm) := vm.settledPromise .rejected value
        (vm, frames, .returns (.ok p))
      | _ =>
        if maxCallDepth ≤ frames.length then
          let (error, vm) := vm.makeError
          (vm, frames, .returns (.error error))
        else
          let (promise, vm) := vm.pendingPromise (.evaluation id)
          let vm := vm.modify id fun record =>
            { record with evaluation := some promise, state := .evaluating }
          (vm, ⟨id, promise, record.requests, [], []⟩ :: frames, .loop)

/-- What the promises of the dependencies come to, in their order: the first rejection, or
whether one is pending.  Until then the promise inherits their waits for the host. -/
def scanDependencies (promise : Nat) : List Nat → EventLoop → EventLoop × Except Value Bool
  | [], loop => (loop, .ok false)
  | dependency :: rest, loop =>
    let loop := inheritExternal loop promise dependency
    match loop.promises dependency with
    | none => scanDependencies promise rest loop
    | some inner =>
      match inner.state with
      | .rejected => (loop, .error inner.value)
      | .fulfilled => scanDependencies promise rest loop
      | .pending =>
        let (loop, result) := scanDependencies promise rest loop
        (loop, result.map fun _ => true)

/-- `run_module_evaluation_job`, up to the body; the answer is its completion promise. -/
def startBody (vm : Vm) (id target : Nat) : Option Nat × Vm :=
  if vm.isPending target then
    if vm.records.evaluation id = some target then
      let vm := { vm with evaluating := id :: vm.evaluating.filter (· ≠ id) }
      let vm := vm.modify id fun record => { record with started := record.started + 1 }
      let (completion, vm) := vm.pendingPromise (.completion id)
      (some completion, vm)
    else
      let (error, vm) := vm.makeError
      (none, { vm with loop := vm.loop.rejectPromise target error })
  else (none, vm)

/-- `start_async_module`, from the end of its loop on. -/
def leaveLoop (vm : Vm) (frame : AsyncFrame) (read : ThenRead) : Vm × AsyncControl :=
  match scanDependencies frame.promise frame.dependencies vm.loop with
  | (loop, .error value) =>
    (finishAsyncModule { vm with loop := loop } frame.id frame.promise (.error value) read,
      .returns (.ok frame.promise))
  | (loop, .ok false) =>
    match startBody { vm with loop := loop } frame.id frame.promise with
    | (some completion, vm) => (vm, .body frame.id frame.promise completion)
    | (none, vm) => (vm, .returns (.ok frame.promise))
  | (loop, .ok true) =>
    let g := vm.guards.length
    let vm := { vm with
      loop := loop
      guards := vm.guards ++
        [⟨frame.promise, .evaluate frame.id, frame.dependencies.length⟩] }
    (frame.dependencies.foldl (fun vm dependency => vm.react dependency (.dependency g)) vm,
      .returns (.ok frame.promise))

/-- A step of the loop of `start_async_module`. -/
def loopAsync (vm : Vm) (frame : AsyncFrame) (frames : List AsyncFrame) (read : ThenRead) :
    Vm × List AsyncFrame × AsyncControl :=
  match frame.rest with
  | [] =>
    let (vm, control) := vm.leaveLoop frame read
    (vm, frames, control)
  | (_, .source) :: rest => (vm, { frame with rest := rest } :: frames, .loop)
  | (dependency, .deferred) :: rest =>
    let found := (vm.records.gatherAsyncDependencies (vm.size + 1) dependency ([], [])).2
    (vm, { frame with rest := found.map (·, .evaluation) ++ rest } :: frames, .loop)
  | (dependency, .evaluation) :: rest =>
    if dependency ∈ ancestors (frame :: frames) then
      ({ vm with
          records := vm.records.recordAsyncCycle (ancestors (frame :: frames)) dependency },
        { frame with rest := rest } :: frames, .loop)
    else if dependency ∈ frame.scheduled then (vm, { frame with rest := rest } :: frames, .loop)
    else
      (vm, { frame with rest := rest, scheduled := dependency :: frame.scheduled } :: frames,
        .enter dependency)

/-- A call of `start_async_module` returns to the loop of its caller. -/
def returnAsync (vm : Vm) (frame : AsyncFrame) (frames : List AsyncFrame)
    (result : Except Value Nat) (read : ThenRead) : Vm × List AsyncFrame × AsyncControl :=
  match result with
  | .ok p =>
    (vm, { frame with dependencies := frame.dependencies ++ [p] } :: frames, .loop)
  | .error value =>
    (vm.finishAsyncModule frame.id frame.promise (.error value) read, frames,
      .returns (.ok frame.promise))

/-- The outermost call returns to `start_deferred_module`. -/
def returnDeferred (vm : Vm) (outer : Deferred) (result : Except Value Nat) (read : ThenRead) :
    Vm × Option Deferred × AsyncControl :=
  match result with
  | .error value => (vm, none, .returns (.error value))
  | .ok p =>
    match outer.rest with
    | next :: rest =>
      (vm, some ⟨outer.id, rest, outer.dependencies ++ [p]⟩, .enter next)
    | [] =>
      let (target, vm) := vm.namespaceAfterDependencies (vm.deferredNamespaceObject outer.id)
        (outer.dependencies ++ [p]) read
      (vm, none, .returns (.ok target))

/-- The caller of an asynchronous activation gets its result. -/
def answer (vm : Vm) (caller : Caller) (result : Except Value Nat) : Vm :=
  match caller, result with
  | .host, _ => vm
  | .importCall target, .ok p =>
    { vm with loop := (vm.loop.perform (.adopt p target)).getD vm.loop }
  | .importCall target, .error value => { vm with loop := vm.loop.rejectPromise target value }

/-- An asynchronous activation goes on; `none` when it is over, or guest code runs. -/
def stepAsync (vm : Vm) (frames : List AsyncFrame) (outer : Option Deferred)
    (control : AsyncControl) (caller : Caller) (read : ThenRead) :
    Option (Vm × Option Activation) :=
  match control with
  | .enter id =>
    let (vm, frames, control) := vm.enterAsync frames id read
    some (vm, some (.async frames outer control caller))
  | .loop =>
    match frames with
    | frame :: frames =>
      let (vm, frames, control) := vm.loopAsync frame frames read
      some (vm, some (.async frames outer control caller))
    | [] => none
  | .body _ _ _ => none
  | .returns result =>
    match frames, outer with
    | frame :: frames, _ =>
      let (vm, frames, control) := vm.returnAsync frame frames result read
      some (vm, some (.async frames outer control caller))
    | [], some deferred =>
      let (vm, outer, control) := vm.returnDeferred deferred result read
      some (vm, some (.async [] outer control caller))
    | [], none => some (vm.answer caller result, none)

/-! ## `evaluate_linked_module` -/

/-- `evaluate_linked_module`, up to its loop. -/
def enterSync (vm : Vm) (frames : List SyncFrame) (id : Nat) (curMod : Option Nat) :
    Vm × List SyncFrame × SyncControl :=
  match vm.records id with
  | none => (vm, frames, .returns (.ok ()))
  | some record =>
    match record.state with
    | .evaluated => (vm, frames, .returns (.ok ()))
    | .evaluating =>
      let inBody := curMod.any fun id => vm.evaluating.contains id
      match inBody, record.evaluation with
      | false, some promise => (vm, frames, .awaits promise)
      | _, _ => (vm, frames, .returns (.ok ()))
    | .failed value => (vm, frames, .returns (.error value))
    | .linked =>
      let vm := vm.modify id fun record => { record with state := .evaluating }
      ({ vm with evaluating := id :: vm.evaluating.filter (· ≠ id) },
        ⟨id, record.requests⟩ :: frames, .loop)

/-- The end of `evaluate_linked_module` for the innermost frame. -/
def finishSync (vm : Vm) (frame : SyncFrame) (result : Except Value Unit) : Vm :=
  let vm := { vm with evaluating := vm.evaluating.filter (· ≠ frame.id) }
  vm.modify frame.id fun record =>
    { record with state := match result with
      | .ok () => .evaluated
      | .error value => .failed value }

/-- A step of the loop of `evaluate_linked_module`. -/
def loopSync (vm : Vm) (frame : SyncFrame) (frames : List SyncFrame) :
    Vm × List SyncFrame × SyncControl :=
  match frame.rest with
  | [] =>
    (vm.modify frame.id fun record => { record with started := record.started + 1 },
      frame :: frames, .body)
  | (dependency, .evaluation) :: rest =>
    (vm, { frame with rest := rest } :: frames, .enter dependency (some frame.id))
  | (_, _) :: rest => (vm, { frame with rest := rest } :: frames, .loop)

/-- A synchronous activation goes on; `none` when it is over, or guest code runs. -/
def stepSync (vm : Vm) (frames : List SyncFrame) (control : SyncControl) :
    Option (Vm × Option Activation) :=
  match control with
  | .enter id curMod =>
    let (vm, frames, control) := vm.enterSync frames id curMod
    some (vm, some (.sync frames control))
  | .loop =>
    match frames with
    | frame :: frames =>
      let (vm, frames, control) := vm.loopSync frame frames
      some (vm, some (.sync frames control))
    | [] => none
  | .body => none
  | .awaits _ => none
  | .returns result =>
    match frames, result with
    | [], _ => some (vm, none)
    | frame :: frames, .ok () => some (vm, some (.sync (frame :: frames) .loop))
    | frame :: frames, .error value =>
      some (vm.finishSync frame (.error value), some (.sync frames (.returns (.error value))))

/-! ## Reactions and jobs -/

/-- The last dependency of a guard is done. -/
def release (vm : Vm) (guard : Guard) (read : ThenRead) : Vm :=
  match guard.action with
  | .evaluate id =>
    { vm with loop := vm.loop.pushMicrotask (.moduleEvaluation id guard.target) }
  | .resolve value => { vm with loop := resolveNamespace vm.loop guard.target value read }

/-- `dependency_fulfilled`, `namespace_dependency_fulfilled`. -/
def dependencyFulfilled (vm : Vm) (g : Nat) (read : ThenRead) : Vm :=
  match vm.guards[g]? with
  | some guard =>
    if vm.isPending guard.target then
      let remaining := guard.remaining - 1
      let vm := { vm with guards := vm.guards.set g { guard with remaining := remaining } }
      if remaining = 0 then vm.release guard read else vm
    else vm
  | none => vm

/-- `dependency_rejected`, `namespace_dependency_rejected`. -/
def dependencyRejected (vm : Vm) (g : Nat) (value : Value) (read : ThenRead) : Vm :=
  match vm.guards[g]? with
  | some guard =>
    match guard.action with
    | .evaluate id => vm.finishAsyncModule id guard.target (.error value) read
    | .resolve _ => { vm with loop := vm.loop.rejectPromise guard.target value }
  | none => vm

/-- A reaction of the evaluator runs. -/
def handle (vm : Vm) (handler : Handler) (state : PromiseState) (value : Value)
    (read : ThenRead) : Vm :=
  match handler, state with
  | .dependency g, .fulfilled => vm.dependencyFulfilled g read
  | .dependency g, _ => vm.dependencyRejected g value read
  | .body id target, .fulfilled => vm.finishAsyncModule id target (.ok ()) read
  | .body id target, _ => vm.finishAsyncModule id target (.error value) read

/-- A new call. -/
def spawn (vm : Vm) (activation : Activation) : Vm :=
  { vm with activations := activation :: vm.activations }

/-- `start_deferred_module`, up to the first module it starts. -/
def startDeferred (vm : Vm) (id : Nat) (caller : Caller) (read : ThenRead) : Vm :=
  match (vm.records.gatherAsyncDependencies (vm.size + 1) id ([], [])).2 with
  | next :: rest => vm.spawn (.async [] (some ⟨id, rest, []⟩) (.enter next) caller)
  | [] =>
    let (target, vm) := vm.namespaceAfterDependencies (vm.deferredNamespaceObject id) [] read
    vm.answer caller (.ok target)

/-- The part of `dispatch_job` that is the evaluator's. -/
def runJob (vm : Vm) (job : Job) (read : ThenRead) : Vm :=
  match job with
  | .moduleEvaluation id target =>
    match vm.startBody id target with
    | (some completion, vm) => vm.spawn (.async [] none (.body id target completion) .host)
    | (none, vm) => vm
  | .dynamicImport target id false => vm.spawn (.async [] none (.enter id) (.importCall target))
  | .dynamicImport target id true => vm.startDeferred id (.importCall target) read
  | .reaction _ state value r =>
    match vm.handlers r.derived with
    | some handler => vm.handle handler state value read
    | none => vm
  | _ => vm

end Vm

/-- What a run of a body comes to. -/
inductive BodyOutcome where
  | completed
  | threw (value : Value)
  /-- It waits at an `await`, maybe for the host. -/
  | suspended (external : Bool)
  deriving DecidableEq, Repr

namespace Vm

/-- The body of a synchronous activation ends. -/
def endSyncBody (vm : Vm) (frame : SyncFrame) (frames : List SyncFrame)
    (result : Except Value Unit) : Vm × Activation :=
  (vm.finishSync frame result, .sync frames (.returns result))

/-- `run_module_evaluation_job`, from the end of the body, or its first `await`, on. -/
def endAsyncBody (vm : Vm) (id target completion : Nat) (outcome : BodyOutcome)
    (read : ThenRead) : Vm :=
  match outcome with
  | .completed =>
    finishAsyncModule { vm with loop := vm.loop.resolvePromise completion .undefined } id target
      (.ok ()) read
  | .threw value =>
    finishAsyncModule { vm with loop := vm.loop.rejectPromise completion value } id target
      (.error value) read
  | .suspended external =>
    let loop := markExternal vm.loop completion external
    let vm := { vm with
      loop := inheritExternal loop target completion
      suspended := completion :: vm.suspended }
    vm.react completion (.body id target)

end Vm

/-- What may happen next.  Whoever finishes a module or resolves a namespace says what the
read of `then` comes to. -/
inductive Move where
  /-- `evaluate_linked_module` is called, by code of this module. -/
  | evaluate (id : Nat) (curMod : Option Nat)
  /-- `start_async_module` is called, by `import_module`. -/
  | start (id : Nat)
  | startDeferred (id : Nat) (read : ThenRead)
  /-- A call that is under way goes on. -/
  | step (i : Nat) (read : ThenRead)
  /-- The body it runs ends, or waits. -/
  | body (i : Nat) (outcome : BodyOutcome) (read : ThenRead)
  /-- The `await` it is at ends. -/
  | awaited (i : Nat) (result : Except Value Unit)
  /-- A body that waited comes to its end. -/
  | completes (completion : Nat) (thrown : Option Value)
  /-- The next job runs. -/
  | dispatch (read : ThenRead)
  /-- Anything else that happens to promises and jobs. -/
  | other (a : Act)

namespace Vm

/-- Guests call no resolver of the evaluator's promises, and queue none of its jobs. -/
def foreign (vm : Vm) : Act → Bool
  | .dispatch => false
  | .enqueue (.moduleEvaluation _ _) => false
  | .resolve p _ => !vm.owned.contains p
  | .reject p _ => !vm.owned.contains p
  | _ => true

/-- Put an activation back after a step, or drop it. -/
def replace (vm : Vm) (i : Nat) : Option Activation → Vm
  | some activation => { vm with activations := vm.activations.set i activation }
  | none => { vm with activations := vm.activations.eraseIdx i }

/-- What a move does, or `none` when it is not possible. -/
def perform (vm : Vm) : Move → Option Vm
  | .evaluate id curMod => some (vm.spawn (.sync [] (.enter id curMod)))
  | .start id => some (vm.spawn (.async [] none (.enter id) .host))
  | .startDeferred id read => some (vm.startDeferred id .host read)
  | .step i read =>
    match vm.activations[i]? with
    | some (.sync frames control) =>
      (vm.stepSync frames control).map fun (vm, activation) => vm.replace i activation
    | some (.async frames outer control caller) =>
      (vm.stepAsync frames outer control caller read).map fun (vm, activation) =>
        vm.replace i activation
    | none => none
  | .body i outcome read =>
    match vm.activations[i]?, outcome with
    | some (.sync (frame :: frames) .body), .completed =>
      let (vm, activation) := vm.endSyncBody frame frames (.ok ())
      some (vm.replace i (some activation))
    | some (.sync (frame :: frames) .body), .threw value =>
      let (vm, activation) := vm.endSyncBody frame frames (.error value)
      some (vm.replace i (some activation))
    | some (.async frames outer (.body id target completion) caller), _ =>
      some ((vm.endAsyncBody id target completion outcome read).replace i
        (some (.async frames outer (.returns (.ok target)) caller)))
    | _, _ => none
  | .awaited i result =>
    match vm.activations[i]? with
    | some (.sync frames (.awaits _)) => some (vm.replace i (some (.sync frames (.returns result))))
    | _ => none
  | .completes completion thrown =>
    if completion ∈ vm.suspended then
      let vm := { vm with suspended := vm.suspended.filter (· ≠ completion) }
      match thrown with
      | none => some { vm with loop := vm.loop.resolvePromise completion .undefined }
      | some value => some { vm with loop := vm.loop.rejectPromise completion value }
    else none
  | .dispatch read =>
    match vm.loop.microtasks with
    | job :: _ => (vm.loop.perform .dispatch).map fun loop =>
      { vm with loop := loop }.runJob job read
    | [] => none
  | .other a =>
    if vm.foreign a then (vm.loop.perform a).map fun loop => { vm with loop := loop } else none

/-- A graph that was linked and of which nothing was evaluated, at some point of an event
loop's run. -/
structure Initial (vm : Vm) : Prop where
  loop : vm.loop.Runs
  quiet : ∀ id target, .moduleEvaluation id target ∉ vm.loop.microtasks
  linked : ∀ id record, vm.records id = some record →
    record = freshModule record.requests record.hasTla
  handlers : vm.handlers = PMap.empty
  evaluating : vm.evaluating = []
  guards : vm.guards = []
  owned : vm.owned = PMap.empty
  suspended : vm.suspended = []
  activations : vm.activations = []

/-- The states of the runs of the evaluators. -/
def Runs (vm : Vm) : Prop :=
  Reachable Initial (fun vm vm' => ∃ m, vm.perform m = some vm') vm

end Vm

end NapiVm.Modules
