import Mathlib.Algebra.GroupWithZero.Nat
import NapiVm.Lib.Run
import NapiVm.Lib.Slots

/-!
# The RPC peer

The shared state of `peer.rs` and the threads that work on it: request calls, the
reader task, the tasks of inbound handlers and whoever calls `close`.  A thread
holds a lock for one short section at a time, so a section is one `Action`, and
`perform` says what it does, or that it is not enabled.

A call goes through `Phase`.  Its waiter is one end of a one-shot channel; the
other end sits in the pending map until the response, the close or a removal
takes it out.  The frame bytes, their queues and the writer task are left out:
they decide only whether `enqueue` succeeds, which is free here.
-/

namespace NapiVm.Rpc

/-- `RpcError`. -/
structure RpcError where
  code : String
  message : String
  deriving DecidableEq, Repr

/-- What a request call returns. -/
abbrev Outcome (α : Type) := Except RpcError α

/-- `OVERLOADED`, for the pending map. -/
def pendingErr : RpcError := ⟨"OVERLOADED", "outbound pending call limit exceeded"⟩

/-- `OVERLOADED`, for the outbound queue. -/
def queueErr : RpcError := ⟨"OVERLOADED", "outbound queue rejected frame: full"⟩

/-- `CONNECTION_CLOSED`, from `enqueue`. -/
def closedErr : RpcError := ⟨"CONNECTION_CLOSED", "peer is closed"⟩

/-- `CONNECTION_CLOSED`, from a channel whose other end is gone. -/
def channelErr : RpcError := ⟨"CONNECTION_CLOSED", "response channel closed"⟩

/-- `CANCELLED`. -/
def cancelledErr : RpcError :=
  ⟨"CANCELLED", "local call cancelled; remote effects may have occurred"⟩

/-- `DEADLINE_EXCEEDED`. -/
def deadlineErr : RpcError :=
  ⟨"DEADLINE_EXCEEDED", "local deadline exceeded; remote effects may have occurred"⟩

/-- Where a request call is. -/
inductive Phase (α : Type) where
  /-- It has an id. -/
  | allocated (business handler : Bool)
  /-- It is in the pending map and about to enqueue its frame. -/
  | inserted
  /-- `enqueue` refused, and the entry is about to be removed. -/
  | failing (e : RpcError)
  /-- In the `select!`. -/
  | waiting
  /-- The `select!` is over, and the entry is about to be removed. -/
  | decided (o : Outcome α)
  /-- About to drop its `PendingGuard`; `none` when the future itself is dropped. -/
  | guarded (o : Option (Outcome α))
  | finished (o : Option (Outcome α))

/-- A request call and its end of the channel. -/
structure Call (α : Type) where
  phase : Phase α
  /-- The receiver is dropped. -/
  closed : Bool
  /-- What was sent to it. -/
  received : Option (Outcome α)

/-- `Pending`: an entry of the pending map. -/
structure Pending where
  business : Bool
  /-- Is there an `accept_result`? -/
  handler : Bool
  deriving DecidableEq, Repr

/-- An entry of the active map: the token, the size and the class of an inbound request. -/
structure Active where
  cancelled : Bool
  size : Nat
  business : Bool
  deriving DecidableEq, Repr

/-- Where the reader task is. -/
inductive Reader (α : Type) where
  | idle
  /-- A response frame is read. -/
  | response (id : Nat) (result : Outcome α)
  /-- Its entry is taken out of the pending map. -/
  | holding (id : Nat) (handler : Bool) (result : Outcome α)
  /-- The waiter was found open. -/
  | checked (id : Nat) (handler : Bool) (result : Outcome α)
  | sending (id : Nat) (result : Outcome α)
  /-- A request frame is read. -/
  | request (id size : Nat) (business : Bool)
  /-- A `system.cancel` frame is read. -/
  | cancel (id : Nat)
  /-- The reader met an error, and left its loop to close the peer. -/
  | stopped

/-- How far `close` is.  Only the first call goes past the reason. -/
inductive Closing where
  | none
  | reason (e : RpcError)
  | flagged (e : RpcError)
  /-- The pending map is drained; these ids are still to be told. -/
  | draining (e : RpcError) (ids : List Nat)
  | walked
  deriving DecidableEq

/-- What happened so far. -/
inductive Event (α : Type) where
  /-- The id entered the pending map. -/
  | entered (id : Nat)
  /-- The id left the pending map. -/
  | left (id : Nat)
  /-- Its response was received, with the waiter open or not. -/
  | received (id : Nat) (waiting : Bool)
  /-- Its `accept_result` ran. -/
  | accepted (id : Nat)
  /-- The call returned. -/
  | returned (id : Nat) (o : Outcome α)

/-- The peer. -/
structure Peer (α : Type) where
  maxPendingCalls : Nat
  maxQueuedBytes : Nat
  /-- The next id. -/
  counter : Nat
  calls : PMap Nat (Call α)
  pending : Slots Nat Pending
  active : Slots Nat Active
  closed : Bool
  closing : Closing
  reader : Reader α
  history : List (Event α)

/-- One section of one thread. -/
inductive Action (α : Type) where
  /-- A call takes the next id. -/
  | allocate (business handler : Bool)
  /-- A call enters the pending map, or is refused. -/
  | insert (id : Nat)
  /-- A call enqueues its frame; `room` says whether the queue has room. -/
  | enqueue (id : Nat) (room : Bool)
  /-- A call whose frame was refused removes its entry. -/
  | abort (id : Nat)
  /-- The waiter finds a value in its channel. -/
  | take (id : Nat)
  /-- The waiter finds its channel closed. -/
  | hangUp (id : Nat)
  /-- The waiter is cancelled, or its deadline passes. -/
  | giveUp (id : Nat) (deadline : Bool)
  /-- The future of the call is dropped. -/
  | dropFuture (id : Nat)
  /-- A call whose wait is over removes its entry. -/
  | remove (id : Nat)
  /-- A call drops its guard and returns. -/
  | release (id : Nat)
  /-- The reader reads a frame. -/
  | readResponse (id : Nat) (result : Outcome α)
  | readRequest (id size : Nat) (business : Bool)
  | readCancel (id : Nat)
  /-- The reader reads no frame, or one that `receive` refuses. -/
  | readFailure
  /-- The reader takes the entry of the response out of the pending map. -/
  | takeEntry
  /-- The reader looks whether the waiter is open. -/
  | checkWaiter
  /-- The reader runs the result handler, with this verdict. -/
  | acceptResult (verdict : Except RpcError Unit)
  /-- The reader sends the result to the waiter. -/
  | sendResult
  /-- The reader registers the inbound request. -/
  | register
  /-- The reader cancels an inbound request. -/
  | cancelActive
  /-- The task of an inbound request is over. -/
  | finishActive (id : Nat)
  | closeReason (e : RpcError)
  | closeFlag
  | closeDrain
  | closeSend
  | closeWalk

namespace Peer

variable {α : Type}

/-- A new peer. -/
def new (maxPendingCalls maxQueuedBytes : Nat) : Peer α where
  maxPendingCalls := maxPendingCalls
  maxQueuedBytes := maxQueuedBytes
  counter := 1
  calls := PMap.empty
  pending := []
  active := []
  closed := false
  closing := .none
  reader := .idle
  history := []

/-- Move a call on. -/
def setPhase (s : Peer α) (id : Nat) (c : Call α) (phase : Phase α) : Peer α :=
  { s with calls := s.calls.insert id { c with phase := phase } }

/-- Move a call on and drop its receiver. -/
def setPhaseClosed (s : Peer α) (id : Nat) (c : Call α) (phase : Phase α) : Peer α :=
  { s with calls := s.calls.insert id { c with phase := phase, closed := true } }

/-- Remove an entry of the pending map, noting whether it was there. -/
def removePending (s : Peer α) (id : Nat) : Peer α :=
  { s with
    pending := Slots.removeKey s.pending id
    history := if (Slots.get s.pending id).isSome then s.history ++ [.left id] else s.history }

/-- `Sender::send`: a closed receiver loses the value. -/
def send (s : Peer α) (id : Nat) (o : Outcome α) : Peer α :=
  match s.calls id with
  | some c =>
    if c.closed then s else { s with calls := s.calls.insert id { c with received := some o } }
  | none => s

/-- Is the other end of the channel of `id` still held somewhere? -/
def senderHeld (s : Peer α) (id : Nat) : Bool :=
  (Slots.get s.pending id).isSome ||
    (match s.reader with
      | .holding i _ _ => i == id
      | .checked i _ _ => i == id
      | .sending i _ => i == id
      | _ => false) ||
    (match s.closing with
      | .draining _ ids => decide (id ∈ ids)
      | _ => false)

/-- How many pending calls of one class there may be. -/
def pendingLimit (s : Peer α) (business : Bool) : Nat := if business then s.maxPendingCalls else 32

/-- How many pending calls of one class there are. -/
def pendingCount (s : Peer α) (business : Bool) : Nat :=
  (s.pending.filter fun p => p.2.business == business).length

/-- The bounds on inbound requests of one class. -/
def activeFull (s : Peer α) (size : Nat) (business : Bool) : Bool :=
  let entries := s.active.filter fun p => p.2.business == business
  decide (s.pendingLimit business ≤ entries.length) ||
    decide (s.maxQueuedBytes < (entries.map fun p => p.2.size).sum + size)

/-- The handler's verdict on a successful result. -/
def judge (handler : Bool) (verdict : Except RpcError Unit) (result : Outcome α) : Outcome α :=
  if handler then
    match result, verdict with
    | .ok _, .error e => .error e
    | r, _ => r
  else result

/-- Does the handler run on this result? -/
def judged (handler : Bool) (result : Outcome α) : Bool :=
  handler && (match result with
    | .ok _ => true
    | .error _ => false)

/-- The counter stops below `2 ^ 64 - 1`. -/
def counterLimit : Nat := 18446744073709551615

/-- The sections of request calls. -/
def performCall (s : Peer α) : Action α → Option (Peer α)
  | .allocate business handler =>
    if s.counter < counterLimit then
      some { s with
        counter := s.counter + 1
        calls := s.calls.insert s.counter ⟨.allocated business handler, false, none⟩ }
    else none
  | .insert id =>
    match s.calls id with
    | some c =>
      match c.phase with
      | .allocated business handler =>
        if s.pendingLimit business ≤ s.pendingCount business then
          some { s.setPhaseClosed id c (.finished (some (.error pendingErr))) with
            history := s.history ++ [.returned id (.error pendingErr)] }
        else
          some { s.setPhase id c .inserted with
            pending := s.pending ++ [(id, ⟨business, handler⟩)]
            history := s.history ++ [.entered id] }
      | _ => none
    | none => none
  | .enqueue id room =>
    match s.calls id with
    | some c =>
      match c.phase with
      | .inserted =>
        some (s.setPhase id c
          (if s.closed then .failing closedErr
          else if room then .waiting else .failing queueErr))
      | _ => none
    | none => none
  | .abort id =>
    match s.calls id with
    | some c =>
      match c.phase with
      | .failing e =>
        -- the receiver lives until the call returns
        some ((s.setPhase id c (.guarded (some (.error e)))).removePending id)
      | _ => none
    | none => none
  | .take id =>
    match s.calls id with
    | some c =>
      match c.phase, c.received with
      | .waiting, some o => some (s.setPhaseClosed id c (.decided o))
      | _, _ => none
    | none => none
  | .hangUp id =>
    match s.calls id with
    | some c =>
      match c.phase, c.received with
      | .waiting, none =>
        if s.senderHeld id then none
        else some (s.setPhaseClosed id c (.decided (.error channelErr)))
      | _, _ => none
    | none => none
  | .giveUp id deadline =>
    match s.calls id with
    | some c =>
      match c.phase with
      | .waiting =>
        some (s.setPhaseClosed id c
          (.decided (.error (if deadline then deadlineErr else cancelledErr))))
      | _ => none
    | none => none
  | .dropFuture id =>
    match s.calls id with
    | some c =>
      match c.phase with
      | .waiting => some (s.setPhaseClosed id c (.guarded none))
      | _ => none
    | none => none
  | .remove id =>
    match s.calls id with
    | some c =>
      match c.phase with
      | .decided o => some ((s.setPhase id c (.guarded (some o))).removePending id)
      | _ => none
    | none => none
  | .release id =>
    match s.calls id with
    | some c =>
      match c.phase with
      | .guarded o =>
        let t := (s.setPhaseClosed id c (.finished o)).removePending id
        some (match o with
          | some o => { t with history := t.history ++ [.returned id o] }
          | none => t)
      | _ => none
    | none => none
  | _ => none

/-- The sections of the reader task and of inbound handlers. -/
def performReader (s : Peer α) : Action α → Option (Peer α)
  | .readResponse id result =>
    match s.reader with
    | .idle => if s.closed then none else some { s with reader := .response id result }
    | _ => none
  | .readRequest id size business =>
    match s.reader with
    | .idle => if s.closed then none else some { s with reader := .request id size business }
    | _ => none
  | .readCancel id =>
    match s.reader with
    | .idle => if s.closed then none else some { s with reader := .cancel id }
    | _ => none
  | .readFailure =>
    match s.reader with
    | .idle => if s.closed then none else some { s with reader := .stopped }
    | _ => none
  | .takeEntry =>
    match s.reader with
    | .response id result =>
      match Slots.get s.pending id, s.calls id with
      | some p, some c =>
        some { s.removePending id with
          reader := .holding id p.handler result
          history := s.history ++ [.left id, .received id !c.closed] }
      | _, _ => some { s with reader := .idle }
    | _ => none
  | .checkWaiter =>
    match s.reader with
    | .holding id handler result =>
      match s.calls id with
      | some c =>
        some { s with reader := if c.closed then .idle else .checked id handler result }
      | none => none
    | _ => none
  | .acceptResult verdict =>
    match s.reader with
    | .checked id handler result =>
      some { s with
        reader := .sending id (judge handler verdict result)
        history :=
          if judged handler result then s.history ++ [.accepted id] else s.history }
    | _ => none
  | .sendResult =>
    match s.reader with
    | .sending id result => some { s.send id result with reader := .idle }
    | _ => none
  | .register =>
    match s.reader with
    | .request id size business =>
      if (Slots.get s.active id).isSome then some { s with reader := .stopped }
      else if s.activeFull size business then some { s with reader := .idle }
      else
        some { s with
          reader := .idle
          active := s.active ++ [(id, ⟨false, size, business⟩)] }
    | _ => none
  | .cancelActive =>
    match s.reader with
    | .cancel id =>
      some { s with
        reader := .idle
        active := Slots.update s.active id fun e => { e with cancelled := true } }
    | _ => none
  | .finishActive id =>
    if (Slots.get s.active id).isSome then
      some { s with active := Slots.removeKey s.active id }
    else none
  | _ => none

/-- The sections of `close`. -/
def performClose (s : Peer α) : Action α → Option (Peer α)
  | .closeReason e =>
    match s.closing with
    | .none => some { s with closing := .reason e }
    -- every later call returns here
    | _ => some s
  | .closeFlag =>
    match s.closing with
    | .reason e => some { s with closing := .flagged e, closed := true }
    | _ => none
  | .closeDrain =>
    match s.closing with
    | .flagged e =>
      some { s with
        closing := .draining e (Slots.keys s.pending)
        pending := []
        history := s.history ++ (Slots.keys s.pending).map .left }
    | _ => none
  | .closeSend =>
    match s.closing with
    | .draining e (id :: ids) =>
      some { s.send id (.error e) with closing := .draining e ids }
    | _ => none
  | .closeWalk =>
    match s.closing with
    | .draining _ [] =>
      some { s with
        closing := .walked
        active := s.active.map fun p => (p.1, { p.2 with cancelled := true }) }
    | _ => none
  | _ => none

/-- One section of one thread. -/
def perform (s : Peer α) (a : Action α) : Option (Peer α) :=
  ((s.performCall a).or (s.performReader a)).or (s.performClose a)

/-- The runs of a peer. -/
def Runs (s : Peer α) : Prop :=
  Reachable (fun s => ∃ calls bytes, s = new calls bytes) (fun s t => ∃ a, s.perform a = some t) s

end Peer

end NapiVm.Rpc
