import NapiVm.Plugin.EventHub
import NapiVm.Plugin.Host
import NapiVm.Rpc.RpcPeer

/-!
# A served plugin and its host

`serve` runs a plugin on a connection to its `TrustedPluginHost`, from the time its instance is
ready.  Both ends have an `RpcPeer`, and a chunk of the stream is decoded frame by frame.

Handlers run after the chunk that their requests came in, and what they do besides is outside.

* `Served.receiveEvent` — what the plugin does with an event of the host.
* `Instance.emitEvent`, `unload`, `reload` — what the host does to the instance.
* `Session.perform` — one section of either end.
-/

namespace NapiVm.Plugin.Serve

open Host Rpc

/-- `PluginError`, and its form on the wire, whose text does not matter here. -/
abbrev Thrown := RpcError

def toWire : Json := .null

/-! ## The plugin -/

/-- The state of a plugin. -/
inductive State where
  | starting
  | ready
  | draining
  | stopping
  | stopped
  deriving DecidableEq, Repr

/-- `quiescence`, with whether it has resolved. -/
inductive Quiescence where
  | none
  | pending
  | drained
  deriving DecidableEq, Repr

/-- An element of `subscriptions`. -/
structure Subscription where
  interface : String
  event : String
  queue : List Json
  bytes : Nat
  running : Bool
  stopped : Bool

/-- What `serve` keeps. -/
structure Served where
  peer : RpcPeer
  /-- `peer.occupied`. -/
  occupied : Bool
  state : State
  quiescence : Quiescence
  /-- `tasks.draining`. -/
  draining : Bool
  lastHostSequence : Nat
  subscriptions : List Subscription
  /-- The requests whose handlers have begun, and whether they go on. -/
  begun : List (Nat × Bool)

def envelopeErr : Thrown := ⟨"INVALID_ARGUMENT", "value: unknown or missing field"⟩
def readyErr : Thrown := ⟨"NOT_READY", "Host events require READY"⟩
def sequenceErr : Thrown := ⟨"INVALID_REQUEST", "Invalid host event session/sequence"⟩
def undeclaredErr : Thrown := ⟨"CONTRACT_MISMATCH", "Undeclared event"⟩
def quiescingErr : Thrown := ⟨"NOT_READY", "Background work is quiescing"⟩
def duplicateErr : Thrown := ⟨"INVALID_REQUEST", "Duplicate active request ID"⟩
def objectErr : Thrown := ⟨"INVALID_ARGUMENT", "value must be an object"⟩
def invocationErr : Thrown := ⟨"INVALID_REQUEST", "Business invocation requires an ID"⟩
def lengthErr : Thrown := ⟨"INVALID_REQUEST", "Invalid frame length"⟩
def coalescedErr : Thrown := ⟨"OVERLOADED", "Coalesced frame admission limit exceeded"⟩

/-- `/^[1-9][0-9]{0,30}$/`. -/
def sequenceText (s : String) : Bool :=
  match s.toList with
  | c :: digits =>
    c.isDigit && decide (c ≠ '0') && digits.all Char.isDigit && decide (digits.length ≤ 30)
  | [] => false

/-- `validate`, with the check of the schema. -/
def validate (check : Json → Except Thrown Unit) (value : Json) : Except Thrown Json := do
  let data ← wireValue 64 0 value
  check data
  pure data

/-- The keys that an event must have. -/
def requiredKeys : List String :=
  ["interface", "version", "event", "sessionId", "sequence", "payload"]

/-- `exactKeys`, of an event. -/
def checkKeys : Json → Except Thrown Unit
  | .object fields =>
    if fields.all (fun f => eventKeys.contains f.1) &&
        requiredKeys.all fun key => (fields.lookup key).isSome
    then .ok ()
    else .error envelopeErr
  | _ => .error objectErr

/-- What an event says, once it has passed. -/
structure HostEvent where
  interface : String
  event : String
  sequence : Nat
  payload : Json

/-- What the plugin checks of an event. -/
def readHostEvent (session : String) (requiresHost : List Contract) (last : Nat) (value : Json) :
    Except Thrown HostEvent := do
  checkKeys value
  match asString (field value "sessionId"), asString (field value "sequence") with
  | some s, some sequence =>
    if s ≠ session ∨ sequenceText sequence = false ∨ decimalValue sequence ≤ last then
      throw sequenceErr
    let interface := (asString (field value "interface")).getD ""
    let version := (asString (field value "version")).getD ""
    match requiresHost.find? (fun c => c.id = interface ∧ c.version = version),
        asString (field value "event") with
    | some c, some event =>
      if c.events.contains event then
        let payload ← validate (c.event event) (field value "payload")
        pure ⟨interface, event, decimalValue sequence, payload⟩
      else throw undeclaredErr
    | _, _ => throw undeclaredErr
  | _, _ => throw sequenceErr

/-- A contract with its digest, which stands for it. -/
structure Service where
  contract : Contract
  digest : String

/-- What does not change in a session. -/
structure Terms where
  stringify : Json → List UInt8
  session : String
  /-- The services of the host that the plugin requires. -/
  services : String → Option Service
  /-- `options.metadata.requiresHost`. -/
  requiresHost : List Contract
  /-- The versions and digests were compared when the plugin said hello. -/
  agreed : ∀ id s, services id = some s → s.contract.id = id ∧
    requiresHost.find? (fun c => c.id = id ∧ c.version = s.contract.version) = some s.contract

namespace Served

variable (terms : Terms)

/-- `stop`, but for its cleanup. -/
def stop (p : Served) : Served :=
  if p.state = .stopping ∨ p.state = .stopped then p
  else { p with state := .stopping, draining := true, subscriptions := [] }

/-- The peer changes, and may have been closed in that. -/
def setPeer (p : Served) (peer : RpcPeer) : Served :=
  if peer.closed && !p.peer.closed then stop { p with peer := peer } else { p with peer := peer }

/-- `peer.close`. -/
def close (p : Served) : Served := p.setPeer p.peer.close

/-- An event goes to a subscription that listens. -/
def pushEvent (limits : Limits) (draining : Bool) (e : HostEvent) (size : Nat)
    (sub : Subscription) : Except Thrown (Option Subscription) :=
  if sub.stopped = true ∨ sub.interface ≠ e.interface ∨ sub.event ≠ e.event then .ok (some sub)
  else if limits.maxEventQueue ≤ sub.queue.length ∨ limits.maxQueuedBytes < sub.bytes + size then
    .ok none
  else if sub.running = false ∧ draining = true then .error quiescingErr
  else
    .ok (some { sub with
      queue := sub.queue ++ [e.payload], bytes := sub.bytes + size, running := true })

/-- The handler of host events. -/
def receiveEvent (p : Served) (value : Json) : Except Thrown Served :=
  if p.state ≠ .ready then .error readyErr
  else do
    let e ← readHostEvent terms.session terms.requiresHost p.lastHostSequence value
    let size := (terms.stringify e.payload).length
    let subs ← p.subscriptions.mapM (pushEvent p.peer.limits p.draining e size)
    pure { p with lastHostSequence := e.sequence, subscriptions := subs.filterMap id }

/-- The methods that have handlers. -/
def methods : List String :=
  ["system.initialize", "system.invoke", "system.quiesce", "system.snapshot", "system.shutdown",
    "system.ping"]

/-- A reply to a request that is not given to a handler. -/
def refuse (p : Served) (id : Nat) (method : String) : Except Thrown Served :=
  .ok (p.setPeer (p.peer.reply terms.stringify id method false toWire))

/-- The call chain of an invocation; its context may be invalid. -/
def callChain (limits : Limits) (params : Json) : Except Thrown (Option (List String)) :=
  let context := field params "context"
  match params, context with
  | .object _, .object _ =>
    match field context "callChain", field context "timeoutMs" with
    | .array chain, .number (.int timeout) =>
      let names := chain.filterMap asString
      if names.length = chain.length ∧ names.all (fun s => s.length ≤ 160) ∧
          chain.length < limits.maxCallChainLength ∧ 0 < timeout ∧
          timeout ≤ 9007199254740991 then
        .ok (some names)
      else .ok none
    | _, _ => .ok none
  | _, _ => .error objectErr

/-- A request is given to its handler, if there is room for it. -/
def dispatch (p : Served) (id : Nat) (method : String) : Except Thrown Served :=
  if p.peer.limits.maxPendingCalls + 16 ≤ p.peer.active.length then refuse terms p id method
  else
    match p.peer.perform terms.stringify (.register id method) with
    | some peer => .ok { p.setPeer peer with occupied := p.occupied || method = "system.invoke" }
    | none => .ok p

/-- `receive`, of a frame that is decoded. -/
def receive (p : Served) : Message → Except Thrown Served
  | .notification method params =>
    if method = "system.invoke" then .error invocationErr
    else if method = "system.event" then p.receiveEvent terms params
    else .ok p
  | .cancel _ => .ok p
  | .response id _ _ _ =>
    .ok { p with peer := { p.peer with pending := Slots.removeKey p.peer.pending id } }
  | .request id method params =>
    if id ∈ p.peer.active.map Prod.fst then .error duplicateErr
    else if method ∉ methods then refuse terms p id method
    else if method = "system.invoke" then do
      match ← callChain p.peer.limits params with
      | none => refuse terms p id method
      | some chain =>
        if chain.contains ("p:" ++ terms.session) ∨ p.occupied = true then
          refuse terms p id method
        else dispatch terms p id method
    else dispatch terms p id method

/-- The payload of a frame. -/
def payload (m : Message) : List UInt8 := terms.stringify (m.value 'h' terms.session)

/-- What the decoder and `receive` make of one frame of a chunk, after `count` others with
`bytes` bytes. -/
def decode (p : Served) (count bytes : Nat) (m : Message) : Except Thrown Served :=
  let size := (payload terms m).length
  if size = 0 ∨ p.peer.maxBytes < size then .error lengthErr
  else if 256 < count + 1 ∨ 16 * 1024 * 1024 < bytes + size then .error coalescedErr
  else do
    let _ ← wireValue p.peer.limits.maxDepth 0 (m.value 'h' terms.session)
    p.receive terms m

/-- What comes of a chunk, and the frame whose error has closed the connection. -/
def push (p : Served) (count bytes : Nat) : List Message → Served × Option Message
  | [] => (p, none)
  | m :: rest =>
    match p.decode terms count bytes m with
    | .error _ => (p.close, some m)
    | .ok p =>
      if p.peer.closed then (p, none)
      else p.push (count + 1) (bytes + (payload terms m).length) rest

/-- Does the handler go on in this state? -/
def goes (p : Served) (method : String) : Bool :=
  if method = "system.initialize" then false
  else if method = "system.invoke" then decide (p.state = .ready)
  else if method = "system.quiesce" then decide (p.state = .ready ∨ p.state = .draining)
  else if method = "system.snapshot" then
    decide (p.state = .draining ∧ p.quiescence ≠ .none ∧ p.occupied = false)
  else true

/-- A handler begins.  Its parameters may be refused. -/
def begin (p : Served) (id : Nat) (method : String) (valid : Bool) : Served :=
  let goes := valid && p.goes method
  let p := { p with begun := p.begun ++ [(id, goes)] }
  if goes = false then p
  else if method = "system.quiesce" then
    { p with
      state := .draining
      quiescence := if p.quiescence = .none then .pending else p.quiescence }
  else if method = "system.shutdown" then p.stop
  else p

/-- A handler is done. -/
def finish (p : Served) (k : Nat) (ok : Bool) (body : Json) : Option Served :=
  match p.peer.active[k]? with
  | none => none
  | some (id, method) =>
    if (id, true) ∉ p.begun ∧ (ok = true ∨ (id, false) ∉ p.begun) then none
    else if ok = true ∧ method = "system.quiesce" ∧ p.quiescence ≠ .drained then none
    else
      (p.peer.perform terms.stringify (.reply k ok body)).map fun peer =>
        { p.setPeer peer with
          begun := p.begun.filter fun b => decide (b.1 ≠ id)
          occupied := p.occupied && decide (method ≠ "system.invoke") }

end Served

/-! ## The host -/

/-- An operation on the instance. -/
inductive Operation where
  | unload
  | reload
  deriving DecidableEq, Repr

/-- What the operation awaits, with the ids of its requests. -/
inductive Wait where
  | idle
  | preflight (force : Bool)
  | quiesce (operation : Operation) (id : Nat)
  | snapshot (id : Nat)
  | shutdown (id : Nat)
  deriving DecidableEq, Repr

/-- A `PluginHandle`, with its operation. -/
structure Instance where
  peer : RpcPeer
  status : Status
  outgoingEvent : Nat
  wait : Wait

def notReadyErr : Thrown := ⟨"NOT_READY", "Host event requires READY session"⟩
def negotiatedErr : Thrown :=
  ⟨"CONTRACT_MISMATCH", "Host event interface was not negotiated"⟩
def undeclaredHostErr : Thrown := ⟨"INVALID_ARGUMENT", "Undeclared host event"⟩

/-- The parameters of an event. -/
def eventParams (session : String) (c : Contract) (event : String) (sequence : Nat)
    (payload : Json) (related : Option String) : Json :=
  .object ([("interface", .string c.id), ("version", .string c.version),
    ("event", .string event), ("sessionId", .string session),
    ("sequence", .string (toString sequence)), ("payload", payload)] ++
      related.toList.map fun id => ("relatedRequestId", .string id))

namespace Instance

variable (terms : Terms)

/-- `emitEvent`, and what it throws. -/
def emitEvent (h : Instance) (id digest event : String) (payload : Json)
    (related : Option String) : Instance × Option Thrown :=
  if h.status ≠ .ready then (h, some notReadyErr)
  else
    match terms.services id with
    | none => (h, some negotiatedErr)
    | some s =>
      if s.digest ≠ digest then (h, some negotiatedErr)
      else if s.contract.events.contains event = false then (h, some undeclaredHostErr)
      else
        let h := { h with outgoingEvent := h.outgoingEvent + 1 }
        match validate (s.contract.event event) payload with
        | .error e => (h, some e)
        | .ok payload =>
          let params :=
            eventParams terms.session s.contract event h.outgoingEvent payload related
          match wireValue 64 0 params with
          | .error e => (h, some e)
          | .ok params =>
            match RpcPeer.send terms.stringify h.peer
                (.notification "system.event" params) false with
            | .error e => (h, some e)
            | .ok peer => ({ h with peer := peer }, none)

/-- `request`, of the host itself. -/
def ask (h : Instance) (method : String) (params : Json) : Instance × Bool :=
  let r := RpcPeer.request terms.stringify h.peer method params ⟨false, false, true⟩
  ({ h with peer := r.1 }, r.2.isNone)

/-- `terminate`, and what follows it in `stop`. -/
def terminate (h : Instance) : Instance :=
  { h with peer := h.peer.close, status := .stopped, wait := .idle }

def stop (h : Instance) : Instance :=
  let h := { h with status := .stopping }
  if h.peer.closed then h.terminate
  else
    let r := h.ask terms "system.shutdown" (.object [])
    if r.2 then { r.1 with wait := .shutdown r.1.peer.counter } else r.1.terminate

/-- The request to quiesce. -/
def quiesce (h : Instance) (operation : Operation) : Instance :=
  let r := h.ask terms "system.quiesce"
    (.object [("timeoutMs", .number (.int h.peer.limits.shutdownTimeoutMs))])
  if r.2 then { r.1 with wait := .quiesce operation r.1.peer.counter }
  else
    match operation with
    | .unload => r.1.stop terms
    | .reload => { r.1 with wait := .idle }

/-- `unload`, up to its first await. -/
def unload (h : Instance) : Instance :=
  if h.status = .stopped ∨ h.wait ≠ .idle then h
  else { h with status := .draining }.quiesce terms .unload

/-- `reload`, up to its first await. -/
def reload (h : Instance) (force : Bool) : Instance :=
  if h.wait ≠ .idle then h else { h with wait := .preflight force }

/-- `reload`, after the preflight.  What it does to an instance that has failed or stopped is the
next session's. -/
def enter (h : Instance) (force ok : Bool) : Instance :=
  if ok = false ∨ h.status = .failed ∨ h.status = .stopped then { h with wait := .idle }
  else
    let h := { h with status := .draining }
    if force then h.stop terms else h.quiesce terms .reload

/-- The request that is awaited is answered, or rejected. -/
def resume (h : Instance) (ok : Bool) : Instance :=
  match h.wait with
  | .quiesce .unload _ => h.stop terms
  | .quiesce .reload _ =>
    if ok then
      let r := h.ask terms "system.snapshot" (.object [])
      if r.2 then { r.1 with wait := .snapshot r.1.peer.counter } else { r.1 with wait := .idle }
    else { h with wait := .idle }
  -- The snapshot may not be valid.
  | .snapshot _ => if ok then h.stop terms else { h with wait := .idle }
  | .shutdown _ => h.terminate
  | _ => h

/-- The id of the request that is awaited. -/
def awaited (h : Instance) : Option Nat :=
  match h.wait with
  | .quiesce _ id | .snapshot id | .shutdown id => some id
  | _ => none

/-- The peer changes, and may have been closed in that. -/
def setPeer (h : Instance) (peer : RpcPeer) : Instance :=
  if peer.closed && !h.peer.closed &&
      !(h.status = .stopping || h.status = .stopped || h.status = .failed) then
    { h with peer := peer, status := .failed }
  else { h with peer := peer }

end Instance

/-! ## The session -/

/-- The two ends, and what has come through. -/
structure Session where
  host : Instance
  plugin : Served
  /-- How many frames of the host have been decoded, and how many of the plugin. -/
  received : Nat
  heard : Nat
  /-- The frame whose error has closed the plugin's connection. -/
  blamed : Option Message

/-- What runs next. -/
inductive Move where
  | emit (id digest event : String) (payload : Json) (related : Option String)
  | unload
  | reload (force : Bool)
  /-- The preflight of a reload ends. -/
  | enter (ok : Bool)
  /-- The host decodes the next frame of the plugin. -/
  | hear (valid : Bool)
  /-- The request that is awaited is aborted, or its time is up. -/
  | lapse
  /-- Any other call of the host's peer. -/
  | host (move : PeerMove)
  /-- A chunk comes in that completes so many frames. -/
  | deliver (n : Nat)
  | begin (k : Nat) (valid : Bool)
  | finish (k : Nat) (ok : Bool) (body : Json)
  /-- Within the quiescence: background work is asked to end. -/
  | drain
  /-- The quiescence ends. -/
  | quiesced (ok : Bool)
  | subscribe (interface event : String)
  /-- A subscriber takes the next event. -/
  | take (i : Nat)
  /-- Any other call of the plugin's peer. -/
  | plugin (move : PeerMove)

/-- Calls of the host's peer besides events and the operations. -/
def hostCall : PeerMove → Bool
  | .request method _ _ => decide (method = "system.invoke")
  | .notify _ _ _ | .hold _ | .negotiate _ => false
  | _ => true

/-- Calls of the plugin's peer besides those of its handlers. -/
def pluginCall : PeerMove → Bool
  | .request method _ _ => decide (method = "system.invoke")
  | .notify method _ priority => decide (method = "system.event") && !priority
  | .settle _ | .response _ | .wrote _ | .close => true
  | _ => false

namespace Session

variable (terms : Terms)

/-- The frames that a chunk completes. -/
def chunk (s : Session) (n : Nat) : List Message := (s.host.peer.written.drop s.received).take n

def perform (s : Session) : Move → Option Session
  | .emit id digest event payload related =>
    some { s with host := (s.host.emitEvent terms id digest event payload related).1 }
  | .unload => some { s with host := s.host.unload terms }
  | .reload force => some { s with host := s.host.reload force }
  | .enter ok =>
    match s.host.wait with
    | .preflight force => some { s with host := s.host.enter terms force ok }
    | _ => none
  | .hear valid =>
    match s.plugin.peer.written[s.heard]? with
    | none => none
    | some (.response id _ ok _) =>
      let host := { s.host with
        peer := { s.host.peer with pending := Slots.removeKey s.host.peer.pending id } }
      some { s with
        host := if s.host.awaited = some id then host.resume terms (ok && valid) else host
        heard := s.heard + 1 }
    | some _ => some { s with heard := s.heard + 1 }
  | .lapse =>
    match s.host.awaited with
    | none => none
    | some id =>
      let host := { s.host with peer := RpcPeer.settle terms.stringify s.host.peer id }
      some { s with host := host.resume terms false }
  | .host move =>
    if hostCall move then
      (s.host.peer.perform terms.stringify move).map fun peer =>
        { s with host := s.host.setPeer peer }
    else none
  | .deliver n =>
    if s.plugin.peer.closed = true ∨ (s.chunk n).length < n then none
    else
      let r := s.plugin.push terms 0 0 (s.chunk n)
      some { s with plugin := r.1, received := s.received + n, blamed := r.2 }
  | .begin k valid =>
    match s.plugin.peer.active[k]? with
    | none => none
    | some (id, method) =>
      if id ∈ s.plugin.begun.map Prod.fst then none
      else some { s with plugin := s.plugin.begin id method valid }
  | .finish k ok body => (s.plugin.finish terms k ok body).map fun p => { s with plugin := p }
  | .drain =>
    if s.plugin.quiescence = .pending then
      some { s with plugin := { s.plugin with draining := true } }
    else none
  | .quiesced ok =>
    if s.plugin.quiescence = .pending ∧ (ok = true → s.plugin.draining = true) then
      some { s with
        plugin := { s.plugin with quiescence := if ok then .drained else .none } }
    else none
  | .subscribe interface event =>
    some { s with
      plugin := { s.plugin with
        subscriptions := s.plugin.subscriptions ++ [⟨interface, event, [], 0, false, false⟩] } }
  | .take i =>
    match s.plugin.subscriptions[i]? with
    | none => none
    | some sub =>
      let sub :=
        match sub.queue with
        | [] => { sub with running := false }
        | item :: rest =>
          { sub with queue := rest, bytes := sub.bytes - (terms.stringify item).length }
      some { s with
        plugin := { s.plugin with subscriptions := s.plugin.subscriptions.set i sub } }
  | .plugin move =>
    if pluginCall move then
      (s.plugin.peer.perform terms.stringify move).map fun peer =>
        { s with plugin := s.plugin.setPeer peer }
    else none

end Session

end NapiVm.Plugin.Serve
