import NapiVm.Rpc.Frame

/-!
# The outbound side of a peer

Everything a peer writes: request calls with their cancellations, notifications and
replies put frames into three bounded queues, and one writer task takes them out.
Control frames go first; business frames and events are taken in either order, events
only while the fence is down.

Threads and tasks interleave at every lock, every atomic operation and every channel
operation, and the writer also between the polls of its `select!`.  Such a section is one
`Move`, and `perform` says what it does, or that it is not enabled.  How a wait
ends (a response, a cancellation, a deadline) is left open, and so is when a handler replies.

* `Outbound.perform` — one section of one thread.
* `Outbound.enqueue` — a whole call of `enqueue`, with nothing in between.
-/

namespace NapiVm.Rpc

open Host

/-- `OVERLOADED`, for the byte budget. -/
def budgetErr : RpcError := ⟨"OVERLOADED", "outbound queued byte limit exceeded"⟩

/-- `OVERLOADED`, for a queue whose receiver is gone. -/
def goneErr : RpcError := ⟨"OVERLOADED", "outbound queue rejected frame: closed"⟩

/-! ## Messages -/

/-- What a frame says.  Requests, cancellations and replies carry the number of their call. -/
inductive Message where
  | request (id : Nat) (method : String) (params : Json)
  | cancel (id : Nat)
  | notification (method : String) (params : Json)
  /-- The reply to an inbound request with this method. -/
  | response (id : Nat) (method : String) (ok : Bool) (body : Json)

/-- `prefix:session:counter`. -/
def callId (side : Char) (session : String) (n : Nat) : String :=
  String.ofList [side] ++ ":" ++ session ++ ":" ++ toString n

/-- The side of the other endpoint. -/
def otherSide (side : Char) : Char := if side = 'h' then 'p' else 'h'

namespace Message

/-- The JSON envelope. -/
def value (side : Char) (session : String) : Message → Json
  | request id method params =>
    .object [("jsonrpc", .string "2.0"), ("id", .string (callId side session id)),
      ("method", .string method), ("params", params)]
  | cancel id =>
    .object [("jsonrpc", .string "2.0"), ("method", .string "system.cancel"),
      ("params", .object [("id", .string (callId side session id))])]
  | notification method params =>
    .object [("jsonrpc", .string "2.0"), ("method", .string method), ("params", params)]
  | response id _ ok body =>
    .object [("jsonrpc", .string "2.0"),
      ("id", .string (callId (otherSide side) session id)),
      (if ok then "result" else "error", body)]

/-- The argument `priority` of `enqueue`. -/
def priority : Message → Bool
  | request _ method _ => decide (method ≠ "system.invoke")
  | notification method _ => decide (method ≠ "system.event")
  | _ => true

/-- The id in a request's envelope. -/
def requestId : Message → Option Nat
  | request id _ _ => some id
  | _ => none

/-- A `system.event`. -/
def isEvent : Message → Bool
  | notification method _ => decide (method = "system.event")
  | _ => false

/-- The successful reply to a request with this method. -/
def accepts (method : String) : Message → Bool
  | response _ m ok _ => ok && decide (m = method)
  | _ => false

end Message

/-- `QueuedFrame`; a flush has no message and no bytes. -/
structure QueuedFrame where
  message : Option Message
  data : List UInt8

/-- The three channels. -/
inductive Queue where
  | control | business | events
  deriving DecidableEq, Repr

/-- The channel of a message. -/
def Message.queue (m : Message) : Queue :=
  if m.priority then .control else if m.isEvent then .events else .business

/-! ## Threads -/

/-- How far a call of `enqueue` is. -/
inductive SendStage where
  | entered
  /-- The peer was open. -/
  | passed
  /-- The frame is encoded under the limits of that time; `max` is its budget. -/
  | encoded (data : List UInt8) (max : Nat)
  /-- Its bytes are counted. -/
  | reserved (data : List UInt8)
  /-- The channel refused it, and it is about to be dropped. -/
  | refused (data : List UInt8) (e : RpcError)

/-- A call of `enqueue` under way. -/
structure Send where
  message : Message
  stage : SendStage

/-- Where a request call is. -/
inductive CallPhase where
  /-- It has an id, and knows how many calls of its class there may be. -/
  | allocated (method : String) (params : Json) (room : Nat)
  /-- It is in the pending map, and its frame is being enqueued. -/
  | enqueuing
  /-- `enqueue` refused, and the entry is about to be removed. -/
  | refused
  /-- In the `select!`. -/
  | waiting
  /-- The `select!` is over, and the entry is about to be removed. -/
  | decided
  /-- About to drop its `PendingGuard`. -/
  | guarded
  | finished

/-- Where the writer task is.  `events` is what it read off the fence. -/
inductive Writer where
  /-- At the top of the loop. -/
  | sampling
  /-- About to look at `closed` and `event_fence_changed`. -/
  | polling (events : Bool)
  /-- Neither was ready. -/
  | armed (events : Bool)
  /-- The control queue was empty. -/
  | idle (events : Bool)
  /-- A frame was received. -/
  | checking (f : QueuedFrame)
  /-- It was not cancelled. -/
  | writing (f : QueuedFrame)
  /-- The frame is about to be dropped; the loop may be over. -/
  | spent (f : QueuedFrame) (ends : Bool)
  /-- The loop is over. -/
  | stopping
  /-- The receivers are dropped. -/
  | gone

/-- The frame that the writer holds. -/
def Writer.held : Writer → Option QueuedFrame
  | checking f => some f
  | writing f => some f
  | spent f _ => some f
  | _ => none

/-- The shared state and its threads. -/
structure Outbound where
  session : String
  side : Char
  limits : Limits
  /-- The capacities of the channels, from the limits of the beginning. -/
  businessRoom : Nat
  eventRoom : Nat
  control : List QueuedFrame
  business : List QueuedFrame
  events : List QueuedFrame
  /-- `control_bytes` and `business_bytes`, which are one counter. -/
  bytes : Nat
  fence : Option String
  /-- A permit of `event_fence_changed`. -/
  fenceChanged : Bool
  /-- Calls of `hold_events_until_reply` that have not notified yet. -/
  holding : Nat
  /-- The next id. -/
  counter : Nat
  /-- The pending map; is it a business call? -/
  pending : Slots Nat Bool
  calls : PMap Nat CallPhase
  closed : Bool
  /-- The inbound requests whose handlers run, with their methods. -/
  active : List (Nat × String)
  sends : List Send
  /-- The methods of successful replies just queued, for `release_event_fence`. -/
  releases : List String
  writer : Writer
  /-- What was written, in order. -/
  written : List Message

/-- One section of one thread. -/
inductive Move where
  /-- A request call takes the next id. -/
  | allocate (method : String) (params : Json)
  /-- It enters the pending map, or is refused. -/
  | insert (id : Nat)
  /-- Its frame was refused, and it removes its entry. -/
  | abort (id : Nat)
  /-- Its wait is over. -/
  | decide (id : Nat)
  /-- Its future is dropped. -/
  | dropFuture (id : Nat)
  /-- It removes its entry, and tells the other side if it was there. -/
  | remove (id : Nat)
  /-- It drops its guard, with the same effect. -/
  | dropGuard (id : Nat)
  /-- Somebody sends a notification. -/
  | notify (method : String) (params : Json)
  /-- A call of `enqueue` goes on. -/
  | advance (k : Nat)
  /-- Somebody flushes. -/
  | flush
  /-- The reader takes the entry of a response out of the pending map. -/
  | settle (id : Nat)
  /-- The reader registers an inbound request. -/
  | register (id : Nat) (method : String)
  /-- The reader refuses an inbound request. -/
  | overload (id : Nat) (method : String) (body : Json)
  /-- A handler is done, and its reply is about to be queued. -/
  | reply (k : Nat) (ok : Bool) (body : Json)
  /-- `release_event_fence`, after a successful reply was queued. -/
  | release (k : Nat)
  /-- `hold_events_until_reply` sets the fence. -/
  | hold (method : String)
  /-- It notifies, and returns. -/
  | notifyHold
  | negotiate (limits : Limits)
  | close
  /-- `close` drains the pending map. -/
  | drain
  | sample
  | poll
  | pollControl
  | takeBusiness
  | takeEvent
  /-- The channels polled last were empty as well. -/
  | park
  /-- The writer looks its frame up in the pending map. -/
  | check
  /-- The frame is written. -/
  | wrote
  /-- The peer was closed meanwhile. -/
  | interrupt
  /-- Writing fails. -/
  | writeFailure
  | dropFrame
  | dropReceivers
  /-- A frame left in a channel is dropped with it. -/
  | discard (q : Queue)

namespace Outbound

/-- A new peer. -/
def new (session : String) (side : Char) (limits : Limits) : Outbound where
  session := session
  side := side
  limits := limits
  businessRoom := limits.maxPendingCalls
  eventRoom := limits.maxEventQueue
  control := []
  business := []
  events := []
  bytes := 0
  fence := none
  fenceChanged := false
  holding := 0
  counter := 1
  pending := []
  calls := PMap.empty
  closed := false
  active := []
  sends := []
  releases := []
  writer := .sampling
  written := []

/-! ## Parts of a section -/

/-- Move a request call on. -/
def setPhase (w : Outbound) (id : Nat) (phase : CallPhase) : Outbound :=
  { w with calls := w.calls.insert id phase }

/-- A call of `enqueue` begins. -/
def send (w : Outbound) (m : Message) : Outbound := { w with sends := ⟨m, .entered⟩ :: w.sends }

/-- Remove an entry, and cancel the request if it was there. -/
def removeEntry (w : Outbound) (id : Nat) : Outbound :=
  let w' := { w with pending := Slots.removeKey w.pending id }
  if (Slots.get w.pending id).isSome then w'.send (.cancel id) else w'

/-- How many pending calls of one class there may be. -/
def pendingLimit (w : Outbound) (business : Bool) : Nat :=
  if business then w.limits.maxPendingCalls else 32

/-- A call of `enqueue` goes on and is put back. -/
def proceed (w : Outbound) (k : Nat) (s : Send) : Outbound :=
  { w with sends := s :: w.sends.eraseIdx k }

/-- A call of `enqueue` returns an error. -/
def sendFailed (w : Outbound) (k : Nat) (m : Message) : Outbound :=
  let w := { w with sends := w.sends.eraseIdx k }
  match m with
  | .request id _ _ => w.setPhase id .refused
  -- `peer.close(e)`
  | .response .. => { w with closed := true }
  | _ => w

/-- A call of `enqueue` returns. -/
def sendDone (w : Outbound) (k : Nat) (m : Message) : Outbound :=
  let w := { w with sends := w.sends.eraseIdx k }
  match m with
  | .request id _ _ => w.setPhase id .waiting
  | .response _ method ok _ => if ok then { w with releases := method :: w.releases } else w
  | _ => w

/-- The frames of a channel. -/
def queued (w : Outbound) : Queue → List QueuedFrame
  | .control => w.control
  | .business => w.business
  | .events => w.events

/-- Replace the frames of a channel. -/
def setQueue (w : Outbound) (q : Queue) (frames : List QueuedFrame) : Outbound :=
  match q with
  | .control => { w with control := frames }
  | .business => { w with business := frames }
  | .events => { w with events := frames }

/-- The capacity of a channel. -/
def room (w : Outbound) : Queue → Nat
  | .control => 64
  | .business => w.businessRoom
  | .events => w.eventRoom

/-- The limit that the frame of a message must respect. -/
def budget (limits : Limits) (m : Message) : Nat :=
  if m.priority then limits.maxQueuedBytes + 1024 * 1024 else limits.maxQueuedBytes

/-- `try_send`: the error of a channel that is closed or full. -/
def refusal (w : Outbound) (q : Queue) : Option RpcError :=
  match w.writer with
  | .gone => some goneErr
  | _ => if (w.queued q).length < w.room q then none else some queueErr

variable (serialize : Serializer)

/-- `encode_frame`, under the limits of now. -/
def encode (w : Outbound) (m : Message) : Except RpcError (List UInt8) :=
  encodeFrame serialize (m.value w.side w.session) w.limits.maxFrameBytes w.limits.maxDepth

/-- The next section of a call of `enqueue`. -/
def advance (w : Outbound) (k : Nat) (s : Send) : Outbound :=
  match s.stage with
  | .entered => if w.closed then w.sendFailed k s.message else w.proceed k ⟨s.message, .passed⟩
  | .passed =>
    match w.encode serialize s.message with
    | .ok data => w.proceed k ⟨s.message, .encoded data (budget w.limits s.message)⟩
    | .error _ => w.sendFailed k s.message
  | .encoded data max =>
    if w.bytes + data.length ≤ max then
      { w.proceed k ⟨s.message, .reserved data⟩ with bytes := w.bytes + data.length }
    else w.sendFailed k s.message
  | .reserved data =>
    match w.refusal s.message.queue with
    | none =>
      (w.setQueue s.message.queue
        (w.queued s.message.queue ++ [⟨some s.message, data⟩])).sendDone k s.message
    | some e => w.proceed k ⟨s.message, .refused data e⟩
  | .refused data _ =>
    { w.sendFailed k s.message with bytes := w.bytes - data.length }

/-! ## The sections -/

/-- The sections of request calls. -/
def performCall (w : Outbound) : Move → Option Outbound
  | .allocate method params =>
    if w.counter < 18446744073709551615 then
      some { w.setPhase w.counter
          (.allocated method params (w.pendingLimit (decide (method = "system.invoke")))) with
        counter := w.counter + 1 }
    else none
  | .insert id =>
    match w.calls id with
    | some (.allocated method params room) =>
      let business := decide (method = "system.invoke")
      if room ≤ (w.pending.filter fun p => p.2 == business).length then
        some (w.setPhase id .finished)
      else
        some (({ w.setPhase id .enqueuing with
          pending := w.pending ++ [(id, business)] }).send (.request id method params))
    | _ => none
  | .abort id =>
    match w.calls id with
    | some .refused =>
      some { w.setPhase id .guarded with pending := Slots.removeKey w.pending id }
    | _ => none
  | .decide id =>
    match w.calls id with
    | some .waiting => some (w.setPhase id .decided)
    | _ => none
  | .dropFuture id =>
    match w.calls id with
    | some .waiting => some (w.setPhase id .guarded)
    | _ => none
  | .remove id =>
    match w.calls id with
    | some .decided => some ((w.setPhase id .guarded).removeEntry id)
    | _ => none
  | .dropGuard id =>
    match w.calls id with
    | some .guarded => some ((w.setPhase id .finished).removeEntry id)
    | _ => none
  | _ => none

/-- The sections of `enqueue`, of the reader, of handlers, and what anybody may call. -/
def performShared (w : Outbound) : Move → Option Outbound
  | .notify method params =>
    -- nobody but a request call sends `system.cancel`
    if method = "system.cancel" then none else some (w.send (.notification method params))
  | .advance k =>
    match w.sends[k]? with
    | some s => some (w.advance serialize k s)
    | none => none
  | .flush =>
    if (w.refusal .control).isSome then none
    else some { w with control := w.control ++ [⟨none, []⟩] }
  | .settle id => some { w with pending := Slots.removeKey w.pending id }
  | .register id method =>
    -- a duplicate closes the peer
    if id ∈ w.active.map Prod.fst then some { w with closed := true }
    else some { w with active := w.active ++ [(id, method)] }
  | .overload id method body => some (w.send (.response id method false body))
  | .reply k ok body =>
    match w.active[k]? with
    | some (id, method) =>
      some ({ w with active := w.active.eraseIdx k }.send (.response id method ok body))
    | none => none
  | .release k =>
    match w.releases[k]? with
    | some method =>
      let w := { w with releases := w.releases.eraseIdx k }
      some (if w.fence = some method then { w with fence := none, fenceChanged := true } else w)
    | none => none
  | .hold method => some { w with fence := some method, holding := w.holding + 1 }
  | .notifyHold =>
    match w.holding with
    | 0 => none
    | n + 1 => some { w with holding := n, fenceChanged := true }
  | .negotiate limits =>
    match limits.validate with
    | .ok () => some { w with limits := w.limits.stricter limits }
    | .error _ => none
  | .close => some { w with closed := true }
  | .drain => if w.closed then some { w with pending := [] } else none
  | _ => none

/-- The sections of the writer task. -/
def performWriter (w : Outbound) : Move → Option Outbound
  | .sample =>
    match w.writer with
    | .sampling => some { w with writer := .polling w.fence.isNone }
    | _ => none
  | .poll =>
    match w.writer with
    | .polling events =>
      if w.closed then some { w with writer := .stopping }
      else if w.fenceChanged then some { w with fenceChanged := false, writer := .sampling }
      else some { w with writer := .armed events }
    | _ => none
  | .pollControl =>
    match w.writer, w.control with
    | .armed events, [] => some { w with writer := .idle events }
    | .armed _, f :: rest => some { w with control := rest, writer := .checking f }
    | _, _ => none
  | .takeBusiness =>
    match w.writer, w.business with
    | .idle _, f :: rest => some { w with business := rest, writer := .checking f }
    | _, _ => none
  | .takeEvent =>
    match w.writer, w.events with
    | .idle true, f :: rest => some { w with events := rest, writer := .checking f }
    | _, _ => none
  | .park =>
    -- a channel may fill after it was polled
    match w.writer with
    | .idle events => some { w with writer := .polling events }
    | _ => none
  | .check =>
    match w.writer with
    | .checking f =>
      if (f.message.bind Message.requestId).all (· ∈ Slots.keys w.pending) then
        some { w with writer := .writing f }
      else some { w with writer := .spent f false }
    | _ => none
  | .wrote =>
    match w.writer with
    | .writing f =>
      some { w with writer := .spent f false, written := w.written ++ f.message.toList }
    | _ => none
  | .interrupt =>
    match w.writer with
    | .writing f => if w.closed then some { w with writer := .spent f true } else none
    | _ => none
  | .writeFailure =>
    match w.writer with
    | .writing f => some { w with writer := .spent f true, closed := true }
    | _ => none
  | .dropFrame =>
    match w.writer with
    | .spent f ends =>
      some { w with
        writer := if ends then .stopping else .sampling
        bytes := w.bytes - f.data.length }
    | _ => none
  | .dropReceivers =>
    match w.writer with
    | .stopping => some { w with writer := .gone }
    | _ => none
  | .discard q =>
    match w.writer, w.queued q with
    | .gone, f :: rest =>
      some { w.setQueue q rest with bytes := w.bytes - f.data.length }
    | _, _ => none
  | _ => none

/-- One section of one thread. -/
def perform (w : Outbound) (m : Move) : Option Outbound :=
  ((w.performCall m).or (w.performShared serialize m)).or (w.performWriter m)

/-- Several sections in a row. -/
def performAll (w : Outbound) : List Move → Option Outbound
  | [] => some w
  | m :: rest => (w.perform serialize m).bind fun w => w.performAll rest

/-- The runs of a peer. -/
def Runs (w : Outbound) : Prop :=
  Reachable (fun w => ∃ session side limits, limits.Valid ∧ w = new session side limits)
    (fun w w' => ∃ m, w.perform serialize m = some w') w

/-! ## What the sections can do -/

section Inversion

variable {serialize} {w w' : Outbound}

theorem perform_cases {m : Move} (h : w.perform serialize m = some w') :
    w.performCall m = some w' ∨ w.performShared serialize m = some w' ∨
      w.performWriter m = some w' := by
  unfold perform at h
  rcases Option.or_eq_some_iff.1 h with h | ⟨-, h⟩
  · rcases Option.or_eq_some_iff.1 h with h | ⟨-, h⟩
    · exact .inl h
    · exact .inr (.inl h)
  · exact .inr (.inr h)

theorem runs_performAll {moves : List Move} (h : w.Runs serialize)
    (hall : w.performAll serialize moves = some w') : w'.Runs serialize :=
  h.steps (steps_of_all hall (fun _ => rfl) (fun _ _ _ => rfl) fun m _ _ _ h => ⟨m, h⟩)

/-- The sections of the writer, one by one. -/
inductive WriterStep (w : Outbound) : Outbound → Prop where
  | sample (hw : w.writer = .sampling) : WriterStep w { w with writer := .polling w.fence.isNone }
  | leave (events : Bool) (hw : w.writer = .polling events) :
      WriterStep w { w with writer := .stopping }
  | again (events : Bool) (hw : w.writer = .polling events) (hchanged : w.fenceChanged = true) :
      WriterStep w { w with fenceChanged := false, writer := .sampling }
  | arm (events : Bool) (hw : w.writer = .polling events) (hchanged : w.fenceChanged = false) :
      WriterStep w { w with writer := .armed events }
  | controlEmpty (events : Bool) (hw : w.writer = .armed events) (hc : w.control = []) :
      WriterStep w { w with writer := .idle events }
  | takeControl (events : Bool) (f : QueuedFrame) (rest : List QueuedFrame)
      (hw : w.writer = .armed events) (hc : w.control = f :: rest) :
      WriterStep w { w with control := rest, writer := .checking f }
  | takeBusiness (events : Bool) (f : QueuedFrame) (rest : List QueuedFrame)
      (hw : w.writer = .idle events) (hc : w.business = f :: rest) :
      WriterStep w { w with business := rest, writer := .checking f }
  | takeEvent (f : QueuedFrame) (rest : List QueuedFrame) (hw : w.writer = .idle true)
      (hc : w.events = f :: rest) :
      WriterStep w { w with events := rest, writer := .checking f }
  | park (events : Bool) (hw : w.writer = .idle events) :
      WriterStep w { w with writer := .polling events }
  | pass (f : QueuedFrame) (hw : w.writer = .checking f)
      (hpending : ∀ id method params, f.message = some (.request id method params) →
        id ∈ Slots.keys w.pending) :
      WriterStep w { w with writer := .writing f }
  | skip (f : QueuedFrame) (hw : w.writer = .checking f)
      (hrequest : ∃ id method params, f.message = some (.request id method params)) :
      WriterStep w { w with writer := .spent f false }
  | wrote (f : QueuedFrame) (hw : w.writer = .writing f) :
      WriterStep w { w with
        writer := .spent f false, written := w.written ++ f.message.toList }
  | interrupt (f : QueuedFrame) (hw : w.writer = .writing f) :
      WriterStep w { w with writer := .spent f true }
  | fail (f : QueuedFrame) (hw : w.writer = .writing f) :
      WriterStep w { w with writer := .spent f true, closed := true }
  | drop (f : QueuedFrame) (ends : Bool) (hw : w.writer = .spent f ends) :
      WriterStep w { w with
        writer := if ends then .stopping else .sampling
        bytes := w.bytes - f.data.length }
  | hangUp (hw : w.writer = .stopping) : WriterStep w { w with writer := .gone }
  | discard (q : Queue) (f : QueuedFrame) (rest : List QueuedFrame) (hw : w.writer = .gone)
      (hq : w.queued q = f :: rest) :
      WriterStep w { w.setQueue q rest with bytes := w.bytes - f.data.length }

theorem writerStep_performWriter {m : Move} (h : w.performWriter m = some w') :
    WriterStep w w' := by
  unfold performWriter at h
  split at h
  · split at h
    · rename_i hw
      cases h
      exact .sample hw
    · cases h
  · split at h
    · rename_i events hw
      split at h
      · cases h
        exact .leave events hw
      · split at h
        · rename_i hchanged
          cases h
          exact .again events hw hchanged
        · rename_i hchanged
          cases h
          exact .arm events hw (Bool.eq_false_iff.2 hchanged)
    · cases h
  · split at h
    · rename_i events hw hc
      cases h
      exact .controlEmpty events hw hc
    · rename_i events f rest hw hc
      cases h
      exact .takeControl events f rest hw hc
    · cases h
  · split at h
    · rename_i events f rest hw hc
      cases h
      exact .takeBusiness events f rest hw hc
    · cases h
  · split at h
    · rename_i f rest hw hc
      cases h
      exact .takeEvent f rest hw hc
    · cases h
  · split at h
    · rename_i events hw
      cases h
      exact .park events hw
    · cases h
  · -- check
    split at h
    · rename_i f hw
      obtain ⟨message, data⟩ := f
      split at h
      · rename_i hall
        cases h
        refine .pass _ hw fun id method params hm => ?_
        cases hm
        simpa only [Option.bind_some, Message.requestId, Option.all_some,
          decide_eq_true_eq] using hall
      · rename_i hall
        cases h
        refine .skip _ hw ?_
        cases message with
        | none => exact absurd rfl hall
        | some message =>
          cases message with
          | request id method params => exact ⟨id, method, params, rfl⟩
          | _ => exact absurd rfl hall
    · cases h
  · split at h
    · rename_i f hw
      cases h
      exact .wrote f hw
    · cases h
  · split at h
    · rename_i f hw
      split at h
      · cases h
        exact .interrupt f hw
      · cases h
    · cases h
  · split at h
    · rename_i f hw
      cases h
      exact .fail f hw
    · cases h
  · split at h
    · rename_i f ends hw
      cases h
      exact .drop f ends hw
    · cases h
  · split at h
    · rename_i hw
      cases h
      exact .hangUp hw
    · cases h
  · split at h
    · rename_i f rest hw hq
      cases h
      exact .discard _ f rest hw hq
    · cases h
  · cases h

end Inversion

/-- A whole call of `enqueue`. -/
def enqueue (w : Outbound) (m : Message) : Except RpcError Unit × Outbound :=
  if w.closed then (.error closedErr, w)
  else
    match w.encode serialize m with
    | .error e => (.error e, w)
    | .ok data =>
      if w.bytes + data.length ≤ budget w.limits m then
        let w := { w with bytes := w.bytes + data.length }
        match w.refusal m.queue with
        | none => (.ok (), w.setQueue m.queue (w.queued m.queue ++ [⟨some m, data⟩]))
        | some e => (.error e, { w with bytes := w.bytes - data.length })
      else (.error budgetErr, w)

end Outbound

end NapiVm.Rpc
