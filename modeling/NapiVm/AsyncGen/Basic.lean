import NapiVm.Promise.Steady

/-!
# Async generators

The request queue of `async_generator.rs` and the generator drivers of `call.rs`, on
a target with coroutines, over the promises and jobs of `Promise.Basic`.

All of it runs on one thread, but guest code runs in four places: the body, the read
of `then` when a request's promise is resolved, the read of `constructor` when the
value of a `return` is wrapped, and the jobs.  Between them the driver works alone.
So the generator is, between two acts, in one of the modes of `Mode`, and everything
guest code may do meanwhile, calls on this same generator included, is an act of its
own.  What the body does is free: it may yield, await, return or throw.
-/

namespace NapiVm.AsyncGen

open Promises

/-- `GenResume`, as far as guests can ask for it. -/
inductive GenResume where
  | next (value : Option Value)
  | throw (value : Value)
  | ret (value : Value)
  deriving DecidableEq, Repr

/-- What a request's promise is settled with: a result object, or a reason. -/
abbrev Result := Except Value (Value × Bool)

/-- `Request`, with the number of its call. -/
structure Request where
  number : Nat
  completion : GenResume
  promise : Nat
  deriving DecidableEq, Repr

/-- Where the generator is. -/
inductive Mode where
  /-- Nothing is under way. -/
  | idle
  /-- The body runs. -/
  | running
  /-- The promise of a request is being resolved; this token reads `then`. -/
  | settling (token : Nat)
  /-- The value of a `return` is being wrapped. -/
  | wrapping (value : Value)
  /-- A reaction is registered on the promise, with this derived promise. -/
  | awaiting (derived promise : Nat) (finish : Option Bool)
  deriving DecidableEq, Repr

/-- What a run of the body comes to. -/
inductive BodyOutcome where
  | yielded (value : Value)
  /-- It awaits a promise, after `PromiseResolve`. -/
  | awaits (promise : Nat)
  | returned (value : Value)
  | threw (reason : Value)
  deriving DecidableEq, Repr

/-- What happened so far. -/
inductive Event where
  /-- The body was resumed, or started, for a request. -/
  | resumed (number : Nat) (completion : GenResume)
  /-- The body, resumed for a request, came to this. -/
  | ended (number : Nat) (outcome : BodyOutcome)
  /-- An await was registered on the promise. -/
  | awaited (number derived promise : Nat)
  /-- Its reaction ran. -/
  | woken (number derived promise : Nat) (state : PromiseState) (value : Value)
  /-- A request was answered without the body. -/
  | answered (number : Nat) (completion : GenResume) (result : Result)
  /-- A `return` without a body starts to wrap its value. -/
  | closing (number : Nat) (value : Value)
  /-- Wrapping it threw. -/
  | unwrapped (number : Nat) (reason : Value)
  /-- The promise of a request was resolved or rejected. -/
  | settled (number promise : Nat) (result : Result)
  deriving DecidableEq

/-- One async generator: `GeneratorInner` and `AsyncGeneratorState`. -/
structure Generator where
  requests : List Request
  busy : Bool
  started : Bool
  done : Bool
  mode : Mode
  /-- How many requests were made. -/
  calls : Nat
  history : List Event

/-- The generator and the event loop. -/
structure Vm where
  loop : EventLoop
  gen : Generator

namespace Vm

/-- A new generator. -/
def initial (loop : EventLoop) : Vm where
  loop := loop
  gen := { requests := [], busy := false, started := false, done := false, mode := .idle,
           calls := 0, history := [] }

/-- Note what happens. -/
def note (vm : Vm) (e : Event) : Vm :=
  { vm with gen := { vm.gen with history := vm.gen.history ++ [e] } }

/-- The generator gives way to guest code. -/
def enter (vm : Vm) (mode : Mode) : Vm := { vm with gen := { vm.gen with mode := mode } }

/-- A result object `{ value, done }`, at a new address. -/
def iterResult (vm : Vm) : Value × Vm :=
  (.ref .object vm.loop.next, { vm with loop := { vm.loop with next := vm.loop.next + 1 } })

/-- `settle`, up to the read of `then`; the answer says whether the driver goes on. -/
def settle (vm : Vm) (request : Request) (rest : List Request) (result : Result) : Bool × Vm :=
  let vm := note { vm with gen := { vm.gen with requests := rest } }
    (.settled request.number request.promise result)
  match result with
  | .ok _ =>
    let (object, vm) := vm.iterResult
    let loop := vm.loop.resolvePromise request.promise object
    if (vm.loop.lock request.promise).isSome then
      (false, { vm with loop := loop }.enter (.settling vm.loop.next))
    else
      (true, { loop := loop, gen := { vm.gen with busy := false, mode := .idle } })
  | .error reason =>
    (true, { loop := vm.loop.rejectPromise request.promise reason
             gen := { vm.gen with busy := false, mode := .idle } })

/-- `drive`, for the request at the front. -/
def serve (vm : Vm) (request : Request) (rest : List Request) : Bool × Vm :=
  let closeBeforeBody := (match request.completion with
    | .ret _ => !vm.gen.started
    | _ => false)
  let wasComplete := vm.gen.done || closeBeforeBody
  let vm := { vm with gen := { vm.gen with busy := true, done := wasComplete } }
  match request.completion with
  | .ret value =>
    if wasComplete then
      (false, (vm.note (.closing request.number value)).enter (.wrapping value))
    else
      (false, (vm.note (.resumed request.number request.completion)).enter .running)
  | .next _ =>
    if wasComplete then
      let result := .ok (.undefined, true)
      (vm.note (.answered request.number request.completion result)).settle request rest result
    else
      (false, note { vm with gen := { vm.gen with started := true, mode := .running } }
        (.resumed request.number request.completion))
  | .throw value =>
    if vm.gen.done || !vm.gen.started then
      let vm := { vm with gen := { vm.gen with done := true } }
      let result := .error value
      (vm.note (.answered request.number request.completion result)).settle request rest result
    else
      (false, (vm.note (.resumed request.number request.completion)).enter .running)

/-- The loop of `drive`, over the requests. -/
def driveFrom : List Request → Vm → Vm
  | [], vm => vm
  | request :: rest, vm =>
    match vm.serve request rest with
    | (true, vm) => driveFrom rest vm
    | (false, vm) => vm

/-- `drive`. -/
def drive (vm : Vm) : Vm := if vm.gen.busy then vm else driveFrom vm.gen.requests vm

/-- Settle the request at the front and drive on. -/
def settleFront (vm : Vm) (result : Result) : Vm :=
  match vm.gen.requests with
  | [] => vm
  | request :: rest =>
    match vm.settle request rest result with
    | (true, vm) => vm.drive
    | (false, vm) => vm

/-- `enqueue`, up to `drive`: a request with a new promise joins the queue. -/
def push (vm : Vm) (completion : GenResume) : Vm where
  loop := { vm.loop with
    promises := vm.loop.promises.insert vm.loop.next (pendingPromise false false)
    next := vm.loop.next + 1 }
  gen := { vm.gen with
    requests := vm.gen.requests ++ [⟨vm.gen.calls, completion, vm.loop.next⟩]
    calls := vm.gen.calls + 1 }

/-- `enqueue`: a call of `next`, `return` or `throw`. -/
def enqueue (vm : Vm) (completion : GenResume) : Vm := (vm.push completion).drive

/-- The promise of the front request waits for the host as the awaited one does. -/
def passExternal (loop : EventLoop) (request awaited : Nat) : EventLoop :=
  match loop.promises request, loop.promises awaited with
  | some inner, some source =>
    { loop with
      promises := loop.promises.insert request
        { inner with externalPending := source.externalPending } }
  | _, _ => loop

/-- `await_value`, on a promise. -/
def awaitValue (vm : Vm) (request : Request) (p : Nat) (finish : Option Bool) : Vm :=
  let loop := passExternal vm.loop request.promise p
  let onFulfilled := Value.ref .object loop.next
  let onRejected := Value.ref .object (loop.next + 1)
  let loop := { loop with next := loop.next + 2 }
  let derived := loop.next
  note
    { loop := loop.register p onFulfilled onRejected none
      gen := { vm.gen with mode := .awaiting derived p finish } }
    (.awaited request.number derived p)

/-- The rest of `drive` once the body has given way. -/
def bodyEnds (vm : Vm) (request : Request) (outcome : BodyOutcome) : Vm :=
  let vm := vm.note (.ended request.number outcome)
  match outcome with
  | .awaits p => vm.awaitValue request p none
  | .yielded value => vm.settleFront (.ok (value, false))
  | .returned value =>
    settleFront { vm with gen := { vm.gen with done := true } } (.ok (value, true))
  | .threw reason =>
    settleFront { vm with gen := { vm.gen with done := true } } (.error reason)

/-- `resume`: the reaction of an await. -/
def resume (vm : Vm) (request : Request) (rest : List Request) (finish : Option Bool)
    (state : PromiseState) (value : Value) : Vm :=
  match finish with
  | some done =>
    vm.settleFront (if state = .fulfilled then .ok (value, done) else .error value)
  | none =>
    let completion := if state = .fulfilled then .next (some value) else .throw value
    drive { vm with gen := { vm.gen with
      requests := { request with completion := completion } :: rest
      busy := false
      mode := .idle } }

end Vm

/-- What may happen next. -/
inductive Move where
  /-- `next`, `return` or `throw` is called on the generator. -/
  | call (completion : GenResume)
  /-- Anything else that happens to promises and jobs. -/
  | other (a : Act)
  /-- The body gives way. -/
  | body (outcome : BodyOutcome)
  /-- The value of a `return` is wrapped in this promise, or reading it threw. -/
  | wrapped (outcome : Except Value Nat)

namespace Vm

/-- Request promises have no resolvers that guests could call. -/
def foreign (vm : Vm) (a : Act) : Bool :=
  match a.target with
  | some p => vm.gen.requests.all fun r => r.promise != p
  | none => true

/-- The await whose reaction the next job runs. -/
def nextReaction (vm : Vm) : Option (PromiseState × Value × Nat) :=
  match vm.loop.microtasks with
  | .reaction _ state value r :: _ => some (state, value, r.derived)
  | _ => none

/-- What follows an act of the event loop. -/
def after (vm : Vm) (a : Act) (loop : EventLoop) : Vm :=
  let vm' := { vm with loop := loop }
  match vm.gen.mode, a with
  | .settling token, .readThen token' _ =>
    -- the rest of `settle`, and the loop of `drive`
    if token = token' then
      drive { vm' with gen := { vm.gen with busy := false, mode := .idle } }
    else vm'
  | .awaiting derived p finish, .dispatch =>
    match vm.nextReaction, vm.gen.requests with
    | some (state, value, d), request :: rest =>
      if d = derived then
        (vm'.note (.woken request.number derived p state value)).resume request rest finish
          state value
      else vm'
    | _, _ => vm'
  | _, _ => vm'

/-- What a move does, or `none` when it is not possible. -/
def perform (vm : Vm) : Move → Option Vm
  | .call completion => some (vm.enqueue completion)
  | .other a => if vm.foreign a then (vm.loop.perform a).map (vm.after a) else none
  | .body outcome =>
    match vm.gen.mode, vm.gen.requests with
    | .running, request :: _ =>
      match outcome with
      | .awaits p =>
        if (vm.loop.promises p).isSome then some (vm.bodyEnds request outcome) else none
      | _ => some (vm.bodyEnds request outcome)
    | _, _ => none
  | .wrapped outcome =>
    match vm.gen.mode, vm.gen.requests with
    | .wrapping _, request :: _ =>
      match outcome with
      | .ok p =>
        if (vm.loop.promises p).isSome then some (vm.awaitValue request p (some true))
        else none
      | .error reason =>
        some ((vm.note (.unwrapped request.number reason)).settleFront (.error reason))
    | _, _ => none

/-- The states of the runs of a generator, made at some point of an event loop's run. -/
def Runs (vm : Vm) : Prop :=
  Reachable (fun vm => ∃ loop : EventLoop, loop.Runs ∧ vm = initial loop)
    (fun vm vm' => ∃ m, vm.perform m = some vm') vm

end Vm

end NapiVm.AsyncGen
