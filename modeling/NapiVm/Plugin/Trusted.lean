import NapiVm.Plugin.Host

/-!
# The trusted plugin host

`TrustedPluginHost` loads, unloads and reloads plugins and is shut down.  It runs on one thread:
between two awaits nothing else runs, and at an await anything else may.

What a plugin answers, what the listener and the timers do and when a process exits is outside.

* `Stage` — an operation on an instance, by what it awaits.
* `Stage.step` — one section of an operation, from one await to the next.
* `Host.perform` — one section of any call, or an event of a process or of a connection.
-/

namespace NapiVm.Plugin.Trusted

/-- `PluginHandle`, with whether its instance is in `operations`.  Sessions and processes are
numbered; `child` is the process that `handle.child` is, `exitPromise` the one whose exit the
promise is about. -/
structure Handle where
  status : Status
  sessionId : Nat
  /-- `handle.peer` is defined. -/
  peer : Bool
  child : Option Nat
  exitPromise : Option Nat
  operation : Bool
  deriving DecidableEq

/-- What `terminate` awaits, with the child that it found. -/
inductive Terminating where
  /-- The exit, after SIGTERM. -/
  | grace (child : Nat) (exit : Option Nat)
  /-- The exit, after SIGKILL. -/
  | killed (child : Nat) (exit : Option Nat)
  | last (child : Option Nat) (exit : Nat)
  /-- The end of the output. -/
  | drain (child : Nat)
  /-- `terminate` has returned, and its caller goes on next. -/
  | done
  deriving DecidableEq

/-- Where `terminate` is awaited: in `stop`, in the handler of `start`, in the handler of `load`
or `reload`, after the deadline of a shutdown, under an operation that a shutdown did not wait
for, or when a connection was lost. -/
inductive Context where
  | stop
  | start
  | fail
  | late
  | forced
  | auto
  deriving DecidableEq

/-- What an operation awaits. -/
inductive Stage where
  | preflight
  | quiesce
  | snapshot
  /-- The answer to `system.shutdown`. -/
  | shutdown
  | terminate (context : Context) (t : Terminating)
  /-- `stop` has returned. -/
  | stopped
  | listen (session : Nat)
  | handshake (session : Nat) (accepted initialized : Bool)
  /-- `start` has thrown. -/
  | rejected
  /-- `start` has returned. -/
  | started
  /-- A shutdown, for `operationDone`. -/
  | waiting
  | notified
  | returned (ok : Bool)
  deriving DecidableEq

/-- The operation that is awaited: a call of the host, what a shutdown does to one instance, or the
`terminate` when a connection is lost. -/
inductive Op where
  | load
  | reload (force : Bool)
  | unload
  | part
  | auto
  deriving DecidableEq

/-- How an await ends, and whether the connection is open then. -/
structure Answer where
  ok : Bool
  live : Bool
  deriving DecidableEq

/-- What a section leaves. -/
structure Outcome where
  handle : Handle
  stage : Stage
  /-- A process is spawned. -/
  spawns : Bool
  /-- `operationDone` is emitted. -/
  done : Bool

namespace Handle

section

variable (running : Nat → Bool) (h : Handle)

/-- `terminate`, from its last await of `exitPromise` on. -/
def reap (child : Option Nat) : Handle × Terminating :=
  match h.exitPromise, child with
  | some p, _ => (h, .last child p)
  | none, some c => (h, .drain c)
  | none, none => ({ h with child := none }, .done)

/-- `terminate`, up to its first await. -/
def terminate : Handle × Terminating :=
  match h.child with
  | some c =>
    if running c then ({ h with peer := false }, .grace c h.exitPromise)
    else { h with peer := false }.reap (some c)
  | none => { h with peer := false }.reap none

/-- `terminate` is called where it is awaited. -/
def terminateIn (context : Context) : Handle × Stage :=
  ((h.terminate running).1, .terminate context (h.terminate running).2)

/-- `stop`, up to its first await. -/
def beginStop (live : Bool) : Handle × Stage :=
  if h.peer && live then ({ h with status := .stopping }, .shutdown)
  else { h with status := .stopping }.terminateIn running .stop

/-- `unload` of an instance that is free, up to its first await. -/
def beginUnload : Handle × Stage := ({ h with operation := true, status := .draining }, .quiesce)

/-- `start`, up to its first await. -/
def beginStart (closing : Bool) (fresh : Nat) : Handle × Stage :=
  if closing then (h, .rejected)
  else ({ h with sessionId := fresh, status := .starting }, .listen fresh)

/-- What a shutdown does to an instance after it has waited. -/
def proceed : Handle × Stage :=
  if h.operation then h.terminateIn running .forced
  else if h.status = .stopped then (h, .returned true)
  else h.beginUnload

/-- What a shutdown first does to an instance. -/
def beginPart : Handle × Stage :=
  if h.operation then (h, .waiting)
  else if h.status = .stopped then (h, .returned true)
  else h.beginUnload

end

end Handle

/-- `terminate`, from one await to the next. -/
def Terminating.step (running : Nat → Bool) (h : Handle) (a : Answer) :
    Terminating → Option (Handle × Terminating)
  | .grace c exit =>
    if a.ok then
      if exit.any running then none else some (h.reap (some c))
    else some (h, .killed c h.exitPromise)
  | .killed c exit => if exit.any running then none else some (h.reap (some c))
  | .last none p => if running p then none else some ({ h with child := none }, .done)
  | .last (some c) p =>
    if running p then none
    -- The output may have ended already.
    else if a.ok then some ({ h with child := none }, .done)
    else some (h, .drain c)
  | .drain _ => some ({ h with child := none }, .done)
  | .done => none

namespace Stage

/-- A section that goes on to another await. -/
def next (r : Handle × Stage) : Outcome := ⟨r.1, r.2, false, false⟩

/-- The `finally` of an operation, which gives its instance free. -/
def release (h : Handle) (ok : Bool) : Outcome :=
  ⟨{ h with operation := false }, .returned ok, false, true⟩

section

variable (closing : Bool) (running : Nat → Bool) (fresh : Nat) (h : Handle) (op : Op)

/-- What follows `terminate`. -/
def afterTerminate : Context → Outcome
  | .stop => next ({ h with status := .stopped }, .stopped)
  | .start => next (h, .rejected)
  | .fail =>
    match op with
    | .reload _ => release h false
    | _ => next (h, .returned false)
  | .late => next (h.proceed running)
  | .forced => next ({ h with status := .stopped }, .returned true)
  | .auto => next (h, .returned true)

/-- One section of an operation. -/
def step (a : Answer) : Stage → Option Outcome
  | .preflight =>
    match op with
    | .reload force =>
      if a.ok = false then some (release h false)
      else if h.status = .failed ∨ h.status = .stopped then
        some (next (h.beginStart closing fresh))
      else if force then
        some (next ({ h with status := .draining }.beginStop running a.live))
      else if h.peer then some (next ({ h with status := .draining }, .quiesce))
      else some (release { h with status := .draining } false)
    | _ => none
  | .quiesce =>
    match op with
    | .reload _ => some (if a.ok then next (h, .snapshot) else release h false)
    | _ => some (next (h.beginStop running a.live))
  | .snapshot => some (if a.ok then next (h.beginStop running a.live) else release h false)
  | .shutdown => some (next (h.terminateIn running .stop))
  | .terminate context .done => some (afterTerminate running h op context)
  | .terminate context t =>
    (t.step running h a).map fun r => next (r.1, .terminate context r.2)
  | .stopped =>
    match op with
    -- The snapshot may not fit the replacement.
    | .reload _ => some (if a.ok then next (h.beginStart closing fresh) else release h false)
    | _ => some (release h true)
  | .listen session =>
    if a.ok then
      some ⟨{ h with child := some fresh, exitPromise := some fresh },
        .handshake session false false, true, false⟩
    else some (next (h.terminateIn running .start))
  | .handshake session _ initialized =>
    if a.ok then
      if initialized then
        if h.sessionId = session ∧ h.status = .ready ∧ h.peer = true ∧ a.live = true then
          some (next (h, .started))
        else some (next (h.terminateIn running .start))
      else none
    else some (next (h.terminateIn running .start))
  | .rejected => some (next ({ h with status := .failed }.terminateIn running .fail))
  | .started =>
    match op with
    | .reload _ => some (release h true)
    | _ => some (next (h, .returned true))
  -- The deadline of the shutdown.
  | .waiting => some (next (h.terminateIn running .late))
  | .notified => some (next (h.proceed running))
  | .returned _ => none

end

end Stage

/-- A call of the host: a load in its `preflight`, work on an instance, or a shutdown, whose work
on the instances is apart. -/
inductive Call where
  | load (i : Nat)
  | work (i : Nat) (op : Op) (stage : Stage)
  | shutdown
  deriving DecidableEq

/-- A call is known by its number, and what a shutdown does to an instance by the instance too. -/
abbrev Key := Nat × Option Nat

/-- `TrustedPluginHost`, with the processes that run, the calls and the next number. -/
structure Host where
  closing : Bool
  handles : PMap Nat Handle
  /-- The processes that run, with their instances. -/
  processes : PMap Nat Nat
  calls : PMap Key Call
  fresh : Nat

/-- What runs next. -/
inductive Move where
  | load (i : Nat)
  /-- The `preflight` of a load ends. -/
  | enter (k : Nat) (ok : Bool)
  | reload (i : Nat) (force : Bool)
  | unload (i : Nat)
  | shutdown
  | run (key : Key) (answer : Answer)
  /-- A hello is accepted. -/
  | hello (key : Key)
  /-- The answer to `system.initialize` arrives. -/
  | initialized (key : Key)
  /-- A process exits, or could not be spawned. -/
  | exit (p : Nat) (spawned : Bool)
  /-- A connection is lost. -/
  | lost (i : Nat)
  deriving DecidableEq

namespace Host

def new : Host := ⟨false, PMap.empty, PMap.empty, PMap.empty, 0⟩

section

variable (w : Host)

def running (p : Nat) : Bool := (w.processes p).isSome

def setHandle (i : Nat) (h : Handle) : Host := { w with handles := w.handles.insert i h }

def setCall (key : Key) (call : Call) : Host := { w with calls := w.calls.insert key call }

/-- A number is used up. -/
def tick : Host := { w with fresh := w.fresh + 1 }

/-- A call that is new. -/
def addCall (call : Call) : Host := (w.setCall (w.fresh, none) call).tick

/-- `operationDone` is heard by the shutdowns that wait for the instance. -/
def notify (i : Nat) : Host :=
  { w with
    calls := fun key =>
      if w.calls key = some (.work i .part .waiting) then some (.work i .part .notified)
      else w.calls key }

/-- A section of an operation is over. -/
def apply (key : Key) (i : Nat) (op : Op) (o : Outcome) : Host :=
  let w' := (w.setHandle i o.handle).setCall key (.work i op o.stage)
  let w' := if o.spawns then { w' with processes := w'.processes.insert w.fresh i } else w'
  (if o.done then w'.notify i else w').tick

/-- The end of the `preflight` of a load. -/
def enter (k i : Nat) (ok : Bool) : Host :=
  if ok = false ∨ w.closing = true ∨ (w.handles i).isSome then
    w.setCall (k, none) (.work i .load (.returned false))
  else
    ((w.setHandle i ⟨.starting, w.fresh, false, none, none, false⟩).setCall (k, none)
      (.work i .load (.listen w.fresh))).tick

def reload (i : Nat) (force : Bool) : Host :=
  match w.handles i with
  | none => w.addCall (.work i (.reload force) (.returned false))
  | some h =>
    if h.operation then w.addCall (.work i (.reload force) (.returned false))
    else (w.setHandle i { h with operation := true }).addCall (.work i (.reload force) .preflight)

def unload (i : Nat) : Host :=
  match w.handles i with
  | none => w.addCall (.work i .unload (.returned true))
  | some h =>
    if h.status = .stopped then w.addCall (.work i .unload (.returned true))
    else if h.operation then w.addCall (.work i .unload (.returned false))
    else (w.setHandle i h.beginUnload.1).addCall (.work i .unload h.beginUnload.2)

/-- `shutdown`, with the first section for every instance. -/
def shutdown : Host where
  closing := true
  handles := fun i => (w.handles i).map fun h => h.beginPart.1
  processes := w.processes
  calls := fun key =>
    if key.1 = w.fresh then
      match key.2 with
      | none => some .shutdown
      | some i => (w.handles i).map fun h => .work i .part h.beginPart.2
    else w.calls key
  fresh := w.fresh + 1

/-- The statuses in which the end of a process or of a connection changes nothing. -/
def settled (status : Status) : Bool :=
  status = .stopping || status = .stopped || status = .failed

def perform : Move → Option Host
  | .load i =>
    some (w.addCall (if w.closing then .work i .load (.returned false) else .load i))
  | .enter k ok =>
    match w.calls (k, none) with
    | some (.load i) => some (w.enter k i ok)
    | _ => none
  | .reload i force => some (w.reload i force)
  | .unload i => some (w.unload i)
  | .shutdown => some w.shutdown
  | .run key a =>
    match w.calls key with
    | some (.work i op stage) =>
      match w.handles i with
      | some h =>
        (stage.step w.closing w.running w.fresh h op a).map fun o => w.apply key i op o
      | none => none
    | _ => none
  | .hello key =>
    match w.calls key with
    | some (.work i op (.handshake session false initialized)) =>
      match w.handles i with
      | some h =>
        some ((w.setHandle i { h with peer := true }).setCall key
          (.work i op (.handshake session true initialized)))
      | none => none
    | _ => none
  | .initialized key =>
    match w.calls key with
    | some (.work i op (.handshake session true false)) =>
      match w.handles i with
      | some h =>
        if h.peer = true ∧ h.sessionId = session ∧ h.status = .starting then
          some ((w.setHandle i { h with status := .ready }).setCall key
            (.work i op (.handshake session true true)))
        else none
      | none => none
    | _ => none
  | .exit p spawned =>
    match w.processes p with
    | some i =>
      match w.handles i with
      | some h =>
        some
          { w.setHandle i
              (if spawned = true ∧ settled h.status = false then { h with status := .failed }
              else h) with
            processes := w.processes.erase p }
      | none => none
    | none => none
  | .lost i =>
    match w.handles i with
    | some h =>
      if h.peer = true ∧ settled h.status = false then
        let r := { h with status := .failed }.terminateIn w.running .auto
        some ((w.setHandle i r.1).addCall (.work i .auto r.2))
      else none
    | none => none

end

/-- A process is spawned by the call, for the instance. -/
def Spawns (w : Host) (move : Move) (k i : Nat) : Prop :=
  ∃ key a op session, move = .run key a ∧ key.1 = k ∧
    w.calls key = some (.work i op (.listen session)) ∧ a.ok = true

/-- A shutdown has resolved. -/
def ShutDown (w : Host) (k : Nat) : Prop :=
  w.calls (k, none) = some .shutdown ∧
    ∀ i call, w.calls (k, some i) = some call → ∃ ok, call = .work i .part (.returned ok)

end Host

end NapiVm.Plugin.Trusted
