import Mathlib.Data.List.Sort
import NapiVm.Lib.PMap
import NapiVm.Lib.Run

/-!
# The plugin host

A host loads plugins, reloads and unloads them, and is shut down.  Loads and reloads go through
the startup gate; an operation on an instance holds its lease; and a supervisor task waits for
each child process.  The tasks are interleaved where they await.

Files, child processes, the listener and the answers of a plugin are outside: an await ends as
it likes.

* `Work` — an operation on an instance, by what it awaits.
* `Stage` — a call to the host.
* `PluginHost.perform` — one section, from one await to the next.
-/

namespace NapiVm.Plugin

inductive Status where
  | discovered
  | starting
  | ready
  | draining
  | stopping
  | stopped
  | failed
  deriving DecidableEq, Repr

/-- The task of `supervise`, by what it awaits; and whether it was told to stop. -/
inductive Supervisor where
  | running
  /-- The child, after it was told to exit or was killed. -/
  | reaping (stopped : Bool)
  /-- What the child has written. -/
  | draining (stopped : Bool)
  | ended
  deriving DecidableEq, Repr

/-- `Session`. -/
structure Session where
  owner : Nat
  /-- `peer.is_closed`. -/
  closed : Bool
  /-- `process.stop` has been called. -/
  stopping : Bool
  supervisor : Supervisor

/-- `Instance`, with its `Record`. -/
structure Instance where
  status : Status
  history : List Status
  sessionId : Option Nat
  session : Option Nat
  /-- `lifecycle_busy`. -/
  busy : Bool

/-- `transition`. -/
def Instance.transition (x : Instance) (status : Status) : Instance :=
  let history := x.history ++ [status]
  { x with status, history := if history.length > 256 then history.tail else history }

/-- What `unload` awaits. -/
inductive Unloading where
  | quiesce (s : Nat)
  | shutdown (s : Nat)
  | stop (s : Nat)
  | services
  deriving DecidableEq, Repr

/-- What `start` awaits. -/
inductive Starting where
  | bind
  | connect
  | initializing
  | stop
  deriving DecidableEq, Repr

/-- An operation on an instance, by what it awaits. -/
inductive Work where
  | services
  | start (reload : Bool) (s : Nat) (starting : Starting)
  /-- `shutdown_services`, when a load has failed. -/
  | cleanup
  | prepare (old : Option Nat) (status : Status) (force : Bool)
  | quiesce (s : Nat)
  | snapshot (s : Nat)
  | oldShutdown (s : Nat)
  | oldStop (s : Nat)
  | unload (unloading : Unloading) (error : Bool)
  deriving DecidableEq, Repr

/-- How an await ends: with an error, or with something that is not what is needed. -/
inductive Answer where
  | ok
  | error
  | unfit
  deriving DecidableEq, Repr

/-- What a section of an operation leaves: the instance, the sessions, and what is awaited next or
the result. -/
structure Section where
  state : Instance
  sessions : PMap Nat Session
  next : Work ⊕ Bool
  /-- A process has been started. -/
  spawns : Bool

namespace Sessions

variable (sessions : PMap Nat Session)

def closed (s : Nat) : Bool := (sessions s).any Session.closed

/-- The supervisor has ended, so that `process.stop` returns. -/
def ended (s : Nat) : Bool := (sessions s).any fun x => x.supervisor = .ended

def modify (s : Nat) (f : Session → Session) : PMap Nat Session :=
  fun t => if t = s then (sessions t).map f else sessions t

/-- `peer.close`. -/
def close (s : Nat) : PMap Nat Session := modify sessions s fun x => { x with closed := true }

/-- `process.stop`, up to its await. -/
def ask (s : Nat) : PMap Nat Session := modify sessions s fun x => { x with stopping := true }

end Sessions

namespace Work

section Step

variable (i fresh : Nat) (x : Instance) (sessions : PMap Nat Session)

/-- `start`, up to its first await. -/
def begin (reload : Bool) : Section where
  state := { x.transition .starting with sessionId := some fresh }
  sessions := sessions
  next := .inl (.start reload fresh .bind)
  spawns := false

/-- An error of `start`. -/
def fail (reload : Bool) : Section where
  state := x.transition .failed
  sessions := sessions
  next := if reload then .inr false else .inl .cleanup
  spawns := false

/-- The old session of a reload is shut down, if there is one. -/
def replace : Option Nat → Section
  | some s => ⟨x.transition .stopping, sessions, .inl (.oldShutdown s), false⟩
  | none => begin fresh (x.transition .stopped) sessions true

/-- `start`, from one await to the next. -/
def stepStart (reload : Bool) (s : Nat) : Starting → Answer → Option Section
  | .bind, .ok => some ⟨x, sessions, .inl (.start reload s .connect), true⟩
  | .bind, _ => some (fail x sessions reload)
  | .connect, .error => some (fail x sessions reload)
  | .connect, .ok => some
      { state := { x with session := some s, sessionId := some s }
        sessions := sessions.insert s ⟨i, false, false, .running⟩
        next := .inl (.start reload s .initializing)
        spawns := false }
  | .connect, .unfit => some
      { state := { x with session := some s, sessionId := some s }
        sessions := sessions.insert s ⟨i, true, true, .running⟩
        next := .inl (.start reload s .stop)
        spawns := false }
  | .initializing, .ok => some
      (if x.status = .ready ∧ x.sessionId = some s ∧ Sessions.closed sessions s = false then
        ⟨x, sessions, .inr true, false⟩
      else ⟨x, Sessions.ask sessions s, .inl (.start reload s .stop), false⟩)
  | .initializing, _ => some
      ⟨x, Sessions.ask (Sessions.close sessions s) s, .inl (.start reload s .stop), false⟩
  | .stop, _ => if Sessions.ended sessions s then some (fail x sessions reload) else none

/-- `unload`, from one await to the next. -/
def stepUnload (error : Bool) : Unloading → Answer → Option Section
  | .quiesce s, a => some
      ⟨x.transition .stopping, sessions, .inl (.unload (.shutdown s) (error || a ≠ .ok)), false⟩
  | .shutdown s, a => some
      ⟨x, Sessions.ask sessions s, .inl (.unload (.stop s) (error || a ≠ .ok)), false⟩
  | .stop s, a =>
    if Sessions.ended sessions s then some
      { state := { x with session := none }
        sessions := Sessions.close sessions s
        next := .inl (.unload .services (error || a ≠ .ok))
        spawns := false }
    else none
  | .services, _ => some ⟨x.transition .stopped, sessions, .inr (!error), false⟩

/-- An operation, from one await to the next. -/
def step : Work → Answer → Option Section
  | .services, .ok => some (begin fresh x sessions false)
  | .services, _ => some (fail x sessions false)
  | .start reload s starting, a => stepStart i x sessions reload s starting a
  | .cleanup, _ => some ⟨x, sessions, .inr false, false⟩
  | .prepare old status force, .ok =>
    match old with
    | some s => some
        (if force = false ∧ (status = .ready ∨ status = .draining) then
          ⟨x.transition .draining, sessions, .inl (.quiesce s), false⟩
        else replace fresh x sessions (some s))
    | none => some (replace fresh x sessions none)
  | .prepare _ _ _, _ => some ⟨x, sessions, .inr false, false⟩
  | .quiesce s, .ok => some ⟨x, sessions, .inl (.snapshot s), false⟩
  | .quiesce _, _ => some ⟨x, sessions, .inr false, false⟩
  | .snapshot s, .ok => some (replace fresh x sessions (some s))
  | .snapshot _, _ => some ⟨x, sessions, .inr false, false⟩
  | .oldShutdown s, _ => some ⟨x, Sessions.ask sessions s, .inl (.oldStop s), false⟩
  | .oldStop s, a =>
    if Sessions.ended sessions s then
      if a = .ok then some
        (begin fresh ({ x with session := none }.transition .stopped)
          (Sessions.close sessions s) true)
      else some ⟨x, sessions, .inr false, false⟩
    else none
  | .unload unloading error, a => stepUnload x sessions error unloading a

end Step

end Work

/-- For what an operation works: a load or a reload, which has entered the gate; a call of
`unload`; or a shutdown, with the instances it has still to unload and whether there was an
error. -/
inductive Mode where
  | admitted
  | alone
  | shutdown (rest : List Nat) (first : Bool)
  deriving DecidableEq, Repr

/-- A call to the host, by what it awaits. -/
inductive Stage where
  | loadGate
  | loadPrepare
  | reloadGate (i : Nat) (force : Bool)
  | unloadCall (i : Nat)
  | shutdownGate
  | working (i : Nat) (work : Work) (mode : Mode)
  /-- A shutdown, between two instances. -/
  | unloads (rest : List Nat) (first : Bool)
  /-- The registry and the resources, at the end of a shutdown. -/
  | closing (first : Bool)
  | returned (ok : Bool)
  /-- A shutdown has returned. -/
  | shutDown (ok : Bool)
  /-- The future was dropped. -/
  | dropped
  deriving DecidableEq, Repr

/-- `HostInner`, with the tasks. -/
structure PluginHost where
  shuttingDown : Bool
  /-- The guards of `startup_gate`. -/
  readers : List Nat
  writer : Option Nat
  /-- The keys of `instances`, in order. -/
  registry : List Nat
  instances : PMap Nat Instance
  sessions : PMap Nat Session
  calls : PMap Nat Stage
  /-- The calls that have started a process. -/
  started : List Nat
  /-- The number of the next session. -/
  fresh : Nat

/-- What runs next: a call, a supervisor, or a connection. -/
inductive PluginHost.Move where
  | load (k : Nat)
  | reload (k i : Nat) (force : Bool)
  | unload (k i : Nat)
  | shutdown (k : Nat)
  /-- The await of a call ends; `i` is a new random id. -/
  | run (k i : Nat) (answer : Answer)
  | drop (k : Nat)
  /-- The answer to `system.initialize` is read. -/
  | respond (s : Nat)
  | close (s : Nat)
  /-- A supervisor receives from `stop`. -/
  | command (s : Nat)
  | exit (s : Nat)
  /-- A supervisor sees that the connection is closed. -/
  | lost (s : Nat)
  | reap (s : Nat)
  | finish (s : Nat)
  deriving DecidableEq, Repr

namespace PluginHost

def new : PluginHost where
  shuttingDown := false
  readers := []
  writer := none
  registry := []
  instances := PMap.empty
  sessions := PMap.empty
  calls := PMap.empty
  started := []
  fresh := 0

def setStage (w : PluginHost) (k : Nat) (stage : Stage) : PluginHost :=
  { w with calls := w.calls.insert k stage }

def setInstance (w : PluginHost) (i : Nat) (x : Instance) : PluginHost :=
  { w with instances := w.instances.insert i x }

def setSession (w : PluginHost) (s : Nat) (x : Session) : PluginHost :=
  { w with sessions := w.sessions.insert s x }

/-- A guard of the gate is dropped. -/
def leave (w : PluginHost) (k : Nat) : PluginHost :=
  { w with
    readers := w.readers.filter (· ≠ k)
    writer := if w.writer = some k then none else w.writer }

/-- An operation is over, and its lease has been dropped. -/
def conclude (w : PluginHost) (k : Nat) (ok : Bool) : Mode → PluginHost
  | .admitted => (w.leave k).setStage k (.returned ok)
  | .alone => w.setStage k (.returned ok)
  | .shutdown rest first => w.setStage k (.unloads rest (first || !ok))

/-- The await of a load for the gate ends. -/
def enterLoad (w : PluginHost) (k : Nat) : PluginHost :=
  if w.shuttingDown then w.setStage k (.returned false)
  else { w with readers := k :: w.readers }.setStage k .loadPrepare

/-- A new instance, with its lease. -/
def insert (w : PluginHost) (k i : Nat) : PluginHost :=
  ({ w with registry := w.registry.orderedInsert (· ≤ ·) i }.setInstance i
    ⟨.discovered, [.discovered], none, none, true⟩).setStage k (.working i .services .admitted)

/-- The await of a reload for the gate ends. -/
def enterReload (w : PluginHost) (k i : Nat) (force : Bool) : PluginHost :=
  if w.shuttingDown then w.setStage k (.returned false)
  else
    match w.instances i with
    | none => w.setStage k (.returned false)
    | some x =>
      if x.busy ∨ ¬ (x.status = .ready ∨ x.status = .draining ∨ x.status = .failed ∨
          x.status = .stopped) then
        w.setStage k (.returned false)
      else
        ({ w with readers := k :: w.readers }.setInstance i { x with busy := true }).setStage k
          (.working i (.prepare x.session x.status force) .admitted)

/-- `unload`, up to its first await. -/
def beginUnload (w : PluginHost) (k i : Nat) (mode : Mode) : PluginHost :=
  match w.instances i with
  | none => w.conclude k true mode
  | some x =>
    if x.busy then w.conclude k false mode
    else
      match x.session with
      | none =>
        (w.setInstance i { x with busy := true }).setStage k
          (.working i (.unload .services false) mode)
      | some s =>
        if Sessions.closed w.sessions s then
          ({ w with sessions := Sessions.ask w.sessions s }.setInstance i
            { x with busy := true }).setStage k (.working i (.unload (.stop s) false) mode)
        else
          (w.setInstance i { x.transition .draining with busy := true }).setStage k
            (.working i (.unload (.quiesce s) false) mode)

/-- An operation goes on to its next await. -/
def work (w : PluginHost) (k i : Nat) (work : Work) (mode : Mode) (answer : Answer) :
    Option PluginHost :=
  match w.instances i with
  | none => none
  | some x =>
    match work.step i w.fresh x w.sessions answer with
    | none => none
    | some r =>
      let w := { w with
        sessions := r.sessions
        fresh := w.fresh + 1
        started := if r.spawns then k :: w.started else w.started }
      match r.next with
      | .inl work => some ((w.setInstance i r.state).setStage k (.working i work mode))
      | .inr ok => some ((w.setInstance i { r.state with busy := false }).conclude k ok mode)

/-- A call goes on to its next await. -/
def run (w : PluginHost) (k i : Nat) (answer : Answer) : Option PluginHost :=
  match w.calls k with
  | some .loadGate => if w.writer = none then some (w.enterLoad k) else none
  | some .loadPrepare =>
    if answer = .ok then
      if w.instances i = none then some (w.insert k i) else none
    else some ((w.leave k).setStage k (.returned false))
  | some (.reloadGate i force) => if w.writer = none then some (w.enterReload k i force) else none
  | some (.unloadCall i) => some (w.beginUnload k i .alone)
  | some .shutdownGate =>
    if w.writer = none ∧ w.readers = [] then
      some ({ w with writer := some k }.setStage k (.unloads w.registry false))
    else none
  | some (.working i work mode) => w.work k i work mode answer
  | some (.unloads (i :: rest) first) => some (w.beginUnload k i (.shutdown rest first))
  | some (.unloads [] first) => some (w.setStage k (.closing first))
  | some (.closing first) =>
    some ((w.leave k).setStage k (.shutDown (!first && answer = .ok)))
  | _ => none

/-- A future is dropped where it awaits, with its lease and its guard. -/
def drop (w : PluginHost) (k : Nat) : Option PluginHost :=
  match w.calls k with
  | none | some (.returned _) | some (.shutDown _) | some .dropped => none
  | some (.working i _ _) =>
    match w.instances i with
    | none => none
    | some x => some (((w.setInstance i { x with busy := false }).leave k).setStage k .dropped)
  | some _ => some ((w.leave k).setStage k .dropped)

/-- `admit_ready`. -/
def respond (w : PluginHost) (s : Nat) : Option PluginHost :=
  match w.sessions s with
  | none => none
  | some session =>
    match w.instances session.owner with
    | none => none
    | some x =>
      if session.closed ∨ x.status ≠ .starting ∨ x.sessionId ≠ some s then none
      else some (w.setInstance session.owner
        { x with status := .ready, history := x.history ++ [.ready] })

/-- The last section of a supervisor. -/
def finish (w : PluginHost) (s : Nat) (session : Session) (stopped : Bool) : Option PluginHost :=
  match w.instances session.owner with
  | none => none
  | some x =>
    let current := x.sessionId = some s ∧ x.status ≠ .stopping ∧ x.status ≠ .stopped
    let w := w.setSession s { session with supervisor := .ended }
    some (if current ∧ stopped = false then w.setInstance session.owner (x.transition .failed)
      else w)

/-- A supervisor goes on. -/
def supervise (w : PluginHost) (s : Nat) (session : Session) : Move → Option PluginHost
  | .command _ =>
    if session.supervisor = .running ∧ session.stopping then
      some (w.setSession s { session with supervisor := .reaping true })
    else none
  | .exit _ =>
    if session.supervisor = .running then
      some (w.setSession s { session with supervisor := .draining false, closed := true })
    else none
  | .lost _ =>
    if session.supervisor = .running ∧ session.closed then
      some (w.setSession s { session with supervisor := .reaping false })
    else none
  | .reap _ =>
    match session.supervisor with
    | .reaping stopped =>
      some (w.setSession s { session with supervisor := .draining stopped, closed := true })
    | _ => none
  | .finish _ =>
    match session.supervisor with
    | .draining stopped => w.finish s session stopped
    | _ => none
  | _ => none

/-- A call is made. -/
def call (w : PluginHost) (k : Nat) (stage : Stage) : Option PluginHost :=
  if w.calls k = none then some (w.setStage k stage) else none

/-- One section. -/
def perform (w : PluginHost) (m : Move) : Option PluginHost :=
  match m with
  | .load k => w.call k .loadGate
  | .reload k i force => w.call k (.reloadGate i force)
  | .unload k i => w.call k (.unloadCall i)
  | .shutdown k => { w with shuttingDown := true }.call k .shutdownGate
  | .run k i answer => w.run k i answer
  | .drop k => w.drop k
  | .respond s => w.respond s
  | .close s =>
    (w.sessions s).map fun session => w.setSession s { session with closed := true }
  | .command s | .exit s | .lost s | .reap s | .finish s =>
    (w.sessions s).bind fun session => w.supervise s session m

def Step (w w' : PluginHost) : Prop := ∃ m, w.perform m = some w'

/-- Several sections in a row. -/
def performAll (w : PluginHost) : List Move → Option PluginHost
  | [] => some w
  | m :: rest => (w.perform m).bind fun w => w.performAll rest

end PluginHost

end NapiVm.Plugin
