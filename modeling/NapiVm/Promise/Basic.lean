import NapiVm.Lib.Run
import NapiVm.Value.Basic

/-!
# Promises and the microtask queue

The promise operations of `promise.rs` and `settle` of `jobs.rs`, over the promises,
the queue and what is under way.  Two things are under way between one operation and
the next: a resolution that reads the `then` of its value, because the getter is guest
code; and a thenable job, whose resolving pair the guest keeps after the job has run.
Both are a `Token`.

An `Act` is what guest or host code may do next, in any order: it calls a resolver,
registers a reaction, lets a getter return or throw, or runs the next job.  Resolvers
of a promise made by `new Promise`, by a derived `then` or by the engine go through
the same two functions, `resolve_promise` and `reject_promise`, so any of them may be
called on any promise at any time.  Promises of `import()` and of `Atomics.waitAsync`
have no resolvers: these are `internal`.
-/

namespace NapiVm.Promises

/-- `PromiseState`. -/
inductive PromiseState where
  | pending
  | fulfilled
  | rejected
  deriving DecidableEq, Repr

/-- `Reaction`. -/
structure Reaction where
  onFulfilled : Value
  onRejected : Value
  derived : Nat
  /-- The settlement is passed on to `derived` as it is. -/
  adopted : Bool
  capability : Option (Value × Value)
  deriving DecidableEq, Repr

/-- `PromiseInner`. -/
structure PromiseInner where
  state : PromiseState
  resolutionLocked : Bool
  externalPending : Bool
  value : Value
  reactions : List Reaction
  handled : Bool
  /-- Every registration so far. -/
  registered : List Reaction
  /-- Made by `import()` or `Atomics.waitAsync`. -/
  internal : Bool
  deriving DecidableEq, Repr

/-- `Job`, as far as promises are concerned. -/
inductive Job where
  /-- A reaction that was registered on `source`. -/
  | reaction (source : Nat) (state : PromiseState) (value : Value) (reaction : Reaction)
  | resolveThenable (target : Nat) (thenable method : Value) (resolutionGuard : Nat)
  /-- Evaluate a module whose dependencies are done, for its evaluation promise. -/
  | moduleEvaluation (id target : Nat)
  /-- `import()`, or `import.defer()`, of a module that was found. -/
  | dynamicImport (target id : Nat) (deferred : Bool)
  /-- Any other job. -/
  | other
  deriving DecidableEq, Repr

/-- A job that promises do not queue by themselves. -/
def Job.plain : Job → Bool
  | .reaction _ _ _ _ => false
  | .resolveThenable _ _ _ _ => false
  | _ => true

/-- Where a thenable job is. -/
inductive JobPhase where
  | queued
  | running
  | done
  deriving DecidableEq, Repr

/-- What is under way. -/
inductive Token where
  /-- A resolution of `target` that reads the `then` of `value`. -/
  | reading (target : Nat) (value : Value)
  /-- The guard of a thenable job for `target`. -/
  | resolutionGuard (target : Nat) (resolved : Bool) (phase : JobPhase)
  deriving DecidableEq, Repr

namespace Token

/-- The promise whose outcome the token decides. -/
def holds : Token → Option Nat
  | .reading target _ => some target
  | .resolutionGuard target false _ => some target
  | .resolutionGuard _ true _ => none

end Token

/-- What reading `then` comes to. -/
inductive ThenRead where
  | threw (reason : Value)
  | found (method : Value) (callable : Bool)
  deriving DecidableEq, Repr

/-- The promises, the queue and what is under way. -/
structure EventLoop where
  /-- The next address. -/
  next : Nat
  promises : PMap Nat PromiseInner
  tokens : PMap Nat Token
  microtasks : List Job
  /-- The jobs taken from the queue so far. -/
  dispatched : List Job

/-- `Value::as_promise`. -/
def asPromise : Value → Option Nat
  | .ref .promise addr => some addr
  | _ => none

/-- `is_js_object`. -/
def isJsObject : Value → Bool
  | .undefined | .null | .bool _ | .number _ | .string _ | .bigInt _ | .symbol _ | .binding _ =>
    false
  | _ => true

/-- `Value::pending_promise`. -/
def pendingPromise (internal external : Bool) : PromiseInner where
  state := .pending
  resolutionLocked := false
  externalPending := external
  value := .undefined
  reactions := []
  handled := false
  registered := []
  internal := internal

/-- `Value::settled_promise`. -/
def settledPromise (state : PromiseState) (value : Value) : PromiseInner where
  state := state
  resolutionLocked := true
  externalPending := false
  value := value
  reactions := []
  handled := state != .rejected
  registered := []
  internal := false

namespace EventLoop

/-- Nothing has happened. -/
def initial : EventLoop where
  next := 0
  promises := PMap.empty
  tokens := PMap.empty
  microtasks := []
  dispatched := []

/-- `push_microtask`. -/
def pushMicrotask (w : EventLoop) (job : Job) : EventLoop :=
  { w with microtasks := w.microtasks ++ [job] }

/-- `settle`. -/
def settle (w : EventLoop) (p : Nat) (state : PromiseState) (value : Value) : EventLoop :=
  match w.promises p with
  | some inner =>
    if inner.state = .pending then
      { w with
        promises := w.promises.insert p
          { inner with
            state := state, resolutionLocked := true, externalPending := false, value := value,
            reactions := [] }
        microtasks := w.microtasks ++ inner.reactions.map (.reaction p state value) }
    else w
  | none => w

/-- Start to read the `then` of a value, or make the guard of a thenable job. -/
def grant (w : EventLoop) (t : Token) : EventLoop :=
  { w with tokens := w.tokens.insert w.next t, next := w.next + 1 }

/-- The `TypeError` of a promise resolved with itself. -/
def chainingCycle (w : EventLoop) : Value := .ref .error w.next

/-- `resolve_promise_inner`, up to the read of `then`. -/
def resolvePromiseInner (w : EventLoop) (p : Nat) (value : Value) : EventLoop :=
  if asPromise value = some p then
    settle { w with next := w.next + 1 } p .rejected w.chainingCycle
  else if isJsObject value then w.grant (.reading p value)
  else w.settle p .fulfilled value

/-- `resolve_promise_inner`, from the read of `then` on. -/
def finishRead (w : EventLoop) (p : Nat) (value : Value) : ThenRead → EventLoop
  | .threw reason => w.settle p .rejected reason
  | .found method callable =>
    if callable then
      (w.grant (.resolutionGuard p false .queued)).pushMicrotask
        (.resolveThenable p value method w.next)
    else w.settle p .fulfilled value

/-- Take the promise's one public resolution, if it is still there. -/
def lock (w : EventLoop) (p : Nat) : Option EventLoop :=
  match w.promises p with
  | some inner =>
    if inner.resolutionLocked || inner.state != .pending then none
    else some { w with promises := w.promises.insert p { inner with resolutionLocked := true } }
  | none => none

/-- `resolve_promise`. -/
def resolvePromise (w : EventLoop) (p : Nat) (value : Value) : EventLoop :=
  match w.lock p with
  | some w' => w'.resolvePromiseInner p value
  | none => w

/-- `reject_promise`. -/
def rejectPromise (w : EventLoop) (p : Nat) (reason : Value) : EventLoop :=
  match w.lock p with
  | some w' => w'.settle p .rejected reason
  | none => w

/-- `claim_resolution`: the first caller marks the guard. -/
def claimResolution (w : EventLoop) (g : Nat) : Option (Nat × EventLoop) :=
  match w.tokens g with
  | some (.resolutionGuard target false phase) =>
    some (target, { w with tokens := w.tokens.insert g (.resolutionGuard target true phase) })
  | _ => none

/-- Has the guard's job started, so that its resolving pair exists? -/
def hasPair (w : EventLoop) (g : Nat) : Bool :=
  match w.tokens g with
  | some (.resolutionGuard _ _ .running) => true
  | some (.resolutionGuard _ _ .done) => true
  | _ => false

/-- `thenable_resolve`. -/
def thenableResolve (w : EventLoop) (g : Nat) (value : Value) : EventLoop :=
  match w.claimResolution g with
  | some (target, w') => w'.resolvePromiseInner target value
  | none => w

/-- `thenable_reject`. -/
def thenableReject (w : EventLoop) (g : Nat) (reason : Value) : EventLoop :=
  match w.claimResolution g with
  | some (target, w') => w'.settle target .rejected reason
  | none => w

/-- `register_internal`, on a promise and with the derived promise made. -/
def registerOn (w : EventLoop) (p : Nat) (r : Reaction) : EventLoop :=
  match w.promises p with
  | some inner =>
    let noted := { inner with handled := true, registered := inner.registered ++ [r] }
    if inner.state = .pending then
      { w with
        promises := w.promises.insert p { noted with reactions := inner.reactions ++ [r] } }
    else
      pushMicrotask { w with promises := w.promises.insert p noted }
        (.reaction p inner.state inner.value r)
  | none => w

/-- Does the settlement of `p` wait for the host? -/
def waitsForHost (w : EventLoop) (p : Nat) : Bool :=
  match w.promises p with
  | some inner => inner.state == .pending && inner.externalPending
  | none => false

/-- `register`: `then` with a new derived promise. -/
def register (w : EventLoop) (p : Nat) (onFulfilled onRejected : Value)
    (capability : Option (Value × Value)) : EventLoop :=
  registerOn
    { w with
      promises := w.promises.insert w.next (pendingPromise false (w.waitsForHost p))
      next := w.next + 1 }
    p ⟨onFulfilled, onRejected, w.next, false, capability⟩

/-- `register` with the promise of an `import()` as the derived one. -/
def adopt (w : EventLoop) (p target : Nat) (inner : PromiseInner) : EventLoop :=
  registerOn
    { w with
      promises := w.promises.insert target
        { inner with externalPending := inner.externalPending || w.waitsForHost p } }
    p ⟨.undefined, .undefined, target, true, none⟩

/-- What running a job does by itself; its handlers are guest code and act on their own. -/
def dispatchJob (w : EventLoop) : Job → EventLoop
  | .reaction _ state value r => if r.adopted then w.settle r.derived state value else w
  | .resolveThenable _ _ _ g =>
    match w.tokens g with
    | some (.resolutionGuard target resolved .queued) =>
      { w with tokens := w.tokens.insert g (.resolutionGuard target resolved .running) }
    | _ => w
  | _ => w

end EventLoop

/-- What may happen next. -/
inductive Act where
  /-- A promise is made. -/
  | create (internal external : Bool)
  | createSettled (fulfilled : Bool) (value : Value)
  /-- A resolver is called, or the engine resolves or rejects. -/
  | resolve (p : Nat) (value : Value)
  | reject (p : Nat) (reason : Value)
  /-- A waiter of `Atomics.waitAsync` is notified or times out. -/
  | notify (p : Nat) (value : Value)
  /-- The read of `then` ends. -/
  | readThen (token : Nat) (outcome : ThenRead)
  /-- The resolving pair of a thenable job is used. -/
  | thenableResolve (g : Nat) (value : Value)
  | thenableReject (g : Nat) (reason : Value)
  /-- The call of `then` in a thenable job ends, with what it threw. -/
  | thenableEnds (g : Nat) (thrown : Option Value)
  | register (p : Nat) (onFulfilled onRejected : Value) (capability : Option (Value × Value))
  /-- The promise of an `import()` adopts another one. -/
  | adopt (p target : Nat)
  /-- Any other job is queued. -/
  | enqueue (job : Job)
  /-- The next job runs. -/
  | dispatch
  deriving DecidableEq, Repr

namespace EventLoop

/-- What an act does, or `none` when it is not possible. -/
def perform (w : EventLoop) : Act → Option EventLoop
  | .create internal external =>
    some { w with
      promises := w.promises.insert w.next (pendingPromise internal external)
      next := w.next + 1 }
  | .createSettled fulfilled value =>
    some { w with
      promises := w.promises.insert w.next
        (settledPromise (if fulfilled then .fulfilled else .rejected) value)
      next := w.next + 1 }
  | .resolve p value =>
    match w.promises p with
    | some inner => if inner.internal then none else some (w.resolvePromise p value)
    | none => none
  | .reject p reason => some (w.rejectPromise p reason)
  | .notify p value =>
    match w.promises p with
    | some inner => if inner.internal then some (w.settle p .fulfilled value) else none
    | none => none
  | .readThen token outcome =>
    match w.tokens token with
    | some (.reading p value) =>
      some (finishRead { w with tokens := w.tokens.erase token } p value outcome)
    | _ => none
  | .thenableResolve g value => if w.hasPair g then some (w.thenableResolve g value) else none
  | .thenableReject g reason => if w.hasPair g then some (w.thenableReject g reason) else none
  | .thenableEnds g thrown =>
    match w.tokens g with
    | some (.resolutionGuard target resolved .running) =>
      let w' := { w with tokens := w.tokens.insert g (.resolutionGuard target resolved .done) }
      match thrown with
      | some reason => some (w'.thenableReject g reason)
      | none => some w'
    | _ => none
  | .register p onFulfilled onRejected capability =>
    match w.promises p with
    | some _ => some (w.register p onFulfilled onRejected capability)
    | none => none
  | .adopt p target =>
    match w.promises p, w.promises target with
    | some _, some inner => if inner.internal then some (w.adopt p target inner) else none
    | _, _ => none
  | .enqueue job => if job.plain then some (w.pushMicrotask job) else none
  | .dispatch =>
    match w.microtasks with
    | job :: rest =>
      some (dispatchJob { w with microtasks := rest, dispatched := w.dispatched ++ [job] } job)
    | [] => none

/-- The states of the runs of an event loop. -/
def Runs (w : EventLoop) : Prop :=
  Reachable (fun w => w = initial) (fun w w' => ∃ a, w.perform a = some w') w

end EventLoop

end NapiVm.Promises
