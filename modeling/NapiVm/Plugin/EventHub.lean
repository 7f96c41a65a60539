import NapiVm.Rpc.Frame

/-!
# The event hub

Events come in from sessions and go to the queues of the subscriptions that ask for them.
A session is activated when it replaces another, and what is queued then is dropped.

Threads interleave where they take a lock: a `Move` is what one of them does from one
lock to just before its next.  The table of subscribers stays locked while it is walked,
and the queues are locked one by one in such a walk.  The calls of `accept` of one session
come one after the other, from the task that reads its connection.

* `Hub.perform` — one section of one thread.
* `readEvent` — what `accept` finds in an event, or why it refuses it.
-/

namespace NapiVm.Plugin

open Host Rpc List

/-! ## Events -/

/-- `value[key]`. -/
def field (value : Json) (key : String) : Json :=
  match value with
  | .object fields => (fields.lookup key).getD .null
  | _ => .null

/-- `as_str`. -/
def asString : Json → Option String
  | .string s => some s
  | _ => none

/-- What a hub needs of a `Contract`. -/
structure Contract where
  id : String
  version : String
  /-- The names in its descriptor. -/
  events : List String
  /-- Does the payload of an event have its type? -/
  event : String → Json → Except RpcError Unit

/-- What `accept` reads in an event. -/
structure Event where
  session : String
  interface : String
  name : String
  sequence : Nat
  value : Json

def objectErr : RpcError := ⟨"INVALID_ARGUMENT", "event must be object"⟩
def envelopeErr : RpcError := ⟨"INVALID_ARGUMENT", "invalid event envelope"⟩
def staleErr : RpcError := ⟨"INVALID_REQUEST", "stale event session"⟩
def interfaceErr : RpcError := ⟨"CONTRACT_MISMATCH", "event interface not negotiated"⟩
def versionErr : RpcError := ⟨"CONTRACT_MISMATCH", "event version mismatch"⟩
def numberErr : RpcError :=
  ⟨"INVALID_ARGUMENT", "event sequence must be positive canonical u64 string"⟩
def orderErr : RpcError := ⟨"INVALID_REQUEST", "event sequence did not increase"⟩
def replacedErr : RpcError := ⟨"INVALID_REQUEST", "event belongs to replaced session"⟩
def subscriptionErr : RpcError := ⟨"INVALID_ARGUMENT", "invalid event subscription"⟩
def tableErr : RpcError := ⟨"OVERLOADED", "event subscription limit exceeded"⟩
def overflowErr : RpcError :=
  ⟨"OVERLOADED", "event subscriber overflowed and was terminated"⟩

/-- The keys of an event. -/
def eventKeys : List String :=
  ["interface", "version", "event", "sessionId", "sequence", "payload", "relatedRequestId"]

/-- `canonical_decimal(s, false)`. -/
def canonicalDecimal (s : String) : Bool :=
  let digits := s.toList
  !digits.isEmpty && digits.all Char.isDigit &&
    (decide (digits.length = 1) || decide (digits.head? ≠ some '0'))

/-- `parse::<u64>`, of digits. -/
def decimalValue (s : String) : Nat :=
  s.toList.foldl (fun n c => 10 * n + (c.toNat - 48)) 0

/-- The sequence number of an event. -/
def readSequence (value : Json) : Option Nat :=
  match value with
  | .string s =>
    if s ≠ "0" ∧ canonicalDecimal s = true ∧ decimalValue s < 2 ^ 64 then some (decimalValue s)
    else none
  | _ => none

/-- The shape of an event. -/
def checkEnvelope : Json → Except RpcError Unit
  | .object fields =>
    if fields.any (fun f => !eventKeys.contains f.1) || !(fields.any fun f => f.1 == "payload")
    then .error envelopeErr
    else .ok ()
  | _ => .error objectErr

/-- The rest of what `accept` checks before it looks at the last number. -/
def readEvent (session : String) (contracts : String → Option Contract) (value : Json) :
    Except RpcError Event :=
  let interface := (asString (field value "interface")).getD ""
  let name := (asString (field value "event")).getD ""
  match contracts interface with
  | none => .error interfaceErr
  | some c =>
    if asString (field value "version") ≠ some c.version then .error versionErr
    else
      match c.event name (field value "payload") with
      | .error e => .error e
      | .ok () =>
        match readSequence (field value "sequence") with
        | none => .error numberErr
        | some sequence => .ok ⟨session, interface, name, sequence, value⟩

/-! ## The hub -/

/-- What the owner of a subscription is doing. -/
inductive Reader where
  | idle
  /-- In `recv`, which found `overflow` set, or not. -/
  | overflowed
  | popping
  /-- The queue was empty. -/
  | looking
  /-- Unsubscribed, with the queue still to be cleared. -/
  | removing
  deriving DecidableEq, Repr

/-- A `Subscription` with its `SubscriptionState`. -/
structure Subscription where
  interface : String
  event : String
  capacity : Nat
  queue : List (Event × Nat)
  bytes : Nat
  overflow : Bool
  closed : Bool
  reader : Reader
  /-- History: what was put into the queue since it was made or purged, what `recv` has
  returned of that, and how many events the hub had accepted before. -/
  given : List Event
  taken : List Event
  since : Nat

/-- Is this event for the subscription? -/
def Subscription.wants (s : Subscription) (e : Event) : Bool :=
  decide (s.interface = e.interface) && decide (s.event = e.name)

/-- Where a call of `accept` is. -/
inductive AcceptStage where
  | entered (contracts : String → Option Contract) (value : Json)
  /-- Everything but the number has been checked. -/
  | numbered (e : Event)
  /-- Its number is the last of its session. -/
  | recorded (e : Event) (size : Nat)
  /-- It has locked the table. -/
  | walking

/-- Where a call of `activate_session` is. -/
inductive ActivationStage where
  | written
  /-- The last numbers are forgotten. -/
  | cleared
  /-- It has locked the table. -/
  | walking
  | returned
  deriving DecidableEq

structure Activation where
  session : String
  stage : ActivationStage
  deriving DecidableEq

/-- Who has locked the table for more than one section, and how far it is. -/
inductive Holder where
  | nobody
  /-- A call of `accept`, about to read `active_session` again. -/
  | locked (session : String) (e : Event) (size : Nat)
  /-- It is in `retain`, with these subscribers to come. -/
  | delivering (session : String) (e : Event) (size : Nat) (remaining : List Nat)
  /-- A call of `activate_session`. -/
  | purging (k : Nat) (remaining : List Nat)
  /-- A call of `close`, with what it has taken out of the table. -/
  | closing (remaining : List Nat)

/-- An `EventHub` with the calls under way. -/
structure Hub where
  /-- The ids in the table, in order. -/
  table : List Nat
  subs : PMap Nat Subscription
  next : Nat
  last : PMap String Nat
  active : Option String
  maxEvents : Nat
  maxBytes : Nat
  holder : Holder
  accepts : PMap String AcceptStage
  activations : PMap Nat Activation
  /-- Calls of `close` that are about to forget the last numbers. -/
  clearing : Nat
  /-- History: the number of activations, the latest of them, the events accepted, what
  calls of `accept` answered, and what calls of `recv` returned. -/
  activated : Nat
  current : Option Nat
  accepted : List Event
  answers : List (String × Except RpcError Unit)
  returns : List (Nat × Except RpcError (Option Event))

/-- One section of one thread. -/
inductive Move where
  /-- A session's reader calls `accept`. -/
  | accept (session : String) (contracts : String → Option Contract) (value : Json)
  /-- It reads `active_session`. -/
  | validate (session : String)
  /-- It locks `last_sequence`. -/
  | record (session : String)
  /-- It locks the table. -/
  | lock (session : String)
  /-- It reads `active_session` again. -/
  | recheck
  /-- It locks the next queue, or is at the end of the table. -/
  | deliver
  /-- `activate_session` begins, and writes `active_session`. -/
  | activate (session : String)
  /-- It locks `last_sequence`. -/
  | clear (k : Nat)
  /-- It locks the table. -/
  | startPurge (k : Nat)
  /-- It locks the next queue, or is at the end of the table. -/
  | purge
  /-- `subscribe`, when it does not refuse. -/
  | subscribe (contract : Contract) (event : String) (capacity : Nat)
  /-- `recv` reads `overflow`. -/
  | recv (x : Nat)
  /-- It clears the queue of a subscription that has overflowed. -/
  | terminate (x : Nat)
  /-- It locks the queue and looks for an event. -/
  | pop (x : Nat)
  /-- It reads `closed`; if that is not set it waits, to be woken or dropped. -/
  | look (x : Nat)
  /-- `unsubscribe` locks the table. -/
  | unsubscribe (x : Nat)
  /-- It locks the queue. -/
  | drain (x : Nat)
  /-- `close` locks the table and takes everything out. -/
  | close
  /-- It locks the next queue, or is at the end. -/
  | closeNext
  /-- It locks `last_sequence`. -/
  | closeClear
  | tighten (limits : Limits)

namespace Hub

/-- `EventHub::with_limits`. -/
def new (maxEvents maxBytes : Nat) : Hub where
  table := []
  subs := PMap.empty
  next := 1
  last := PMap.empty
  active := none
  maxEvents := max maxEvents 1
  maxBytes := max maxBytes 1
  holder := .nobody
  accepts := PMap.empty
  activations := PMap.empty
  clearing := 0
  activated := 0
  current := none
  accepted := []
  answers := []
  returns := []

variable (serialize : Serializer)

/-! ## Parts of a section -/

def setSub (w : Hub) (x : Nat) (s : Subscription) : Hub := { w with subs := w.subs.insert x s }

def setAccept (w : Hub) (session : String) (stage : AcceptStage) : Hub :=
  { w with accepts := w.accepts.insert session stage }

def setActivation (w : Hub) (k : Nat) (a : Activation) : Hub :=
  { w with activations := w.activations.insert k a }

/-- A call of `accept` returns. -/
def answer (w : Hub) (session : String) (r : Except RpcError Unit) : Hub :=
  { w with accepts := w.accepts.erase session, answers := w.answers ++ [(session, r)] }

/-- A call of `recv` returns. -/
def respond (w : Hub) (x : Nat) (r : Except RpcError (Option Event)) : Hub :=
  { w with returns := w.returns ++ [(x, r)] }

/-- Another session is active. -/
def replaced (w : Hub) (session : String) : Bool := w.active.any fun s => decide (s ≠ session)

/-- An event does not fit into a queue. -/
def full (w : Hub) (s : Subscription) (size : Nat) : Bool :=
  decide (min s.capacity w.maxEvents ≤ s.queue.length) || decide (w.maxBytes < s.bytes + size)

/-- The queue is cleared when a session is activated. -/
def purged (w : Hub) (s : Subscription) : Subscription :=
  { s with queue := [], bytes := 0, given := [], taken := [], since := w.accepted.length }

/-- A walk of `retain` comes to a subscription. -/
def offer (w : Hub) (x : Nat) (s : Subscription) (e : Event) (size : Nat) : Hub :=
  if s.wants e = false then w
  else if w.full s size then
    { w.setSub x { s with overflow := true, closed := true, queue := [], bytes := 0 } with
      table := w.table.erase x }
  else
    w.setSub x { s with
      bytes := s.bytes + size, queue := s.queue ++ [(e, size)], given := s.given ++ [e] }

/-! ## The sections -/

/-- The sections of `accept`. -/
def performAccept (w : Hub) : Move → Option Hub
  | .accept session contracts value =>
    match w.accepts session with
    | some _ => none
    | none =>
      match checkEnvelope value with
      | .error e => some (w.answer session (.error e))
      | .ok () =>
        if asString (field value "sessionId") ≠ some session then
          some (w.answer session (.error staleErr))
        else some (w.setAccept session (.entered contracts value))
  | .validate session =>
    match w.accepts session with
    | some (.entered contracts value) =>
      if w.replaced session then some (w.answer session (.error staleErr))
      else
        match readEvent session contracts value with
        | .error e => some (w.answer session (.error e))
        | .ok e => some (w.setAccept session (.numbered e))
    | _ => none
  | .record session =>
    match w.accepts session with
    | some (.numbered e) =>
      if (w.last session).any fun n => decide (e.sequence ≤ n) then
        some (w.answer session (.error orderErr))
      else
        let w := { w with last := w.last.insert session e.sequence }
        match serialize e.value with
        | .error err => some (w.answer session (.error err))
        | .ok data => some (w.setAccept session (.recorded e data.length))
    | _ => none
  | .lock session =>
    match w.accepts session, w.holder with
    | some (.recorded e size), .nobody =>
      some { w.setAccept session .walking with holder := .locked session e size }
    | _, _ => none
  | .recheck =>
    match w.holder with
    | .locked session e size =>
      if w.replaced session then
        some { w.answer session (.error replacedErr) with holder := .nobody }
      else
        some { w with
          holder := .delivering session e size w.table, accepted := w.accepted ++ [e] }
    | _ => none
  | .deliver =>
    match w.holder with
    | .delivering session e size (x :: rest) =>
      match w.subs x with
      | some s => some { w.offer x s e size with holder := .delivering session e size rest }
      | none => none
    | .delivering session _ _ [] =>
      some { w.answer session (.ok ()) with holder := .nobody }
    | _ => none
  | _ => none

/-- The sections of `activate_session`. -/
def performActivate (w : Hub) : Move → Option Hub
  | .activate session =>
    some { w.setActivation w.activated ⟨session, .written⟩ with
      active := some session, activated := w.activated + 1, current := some w.activated }
  | .clear k =>
    match w.activations k with
    | some ⟨session, .written⟩ =>
      some { w.setActivation k ⟨session, .cleared⟩ with last := PMap.empty }
    | _ => none
  | .startPurge k =>
    match w.activations k, w.holder with
    | some ⟨session, .cleared⟩, .nobody =>
      some { w.setActivation k ⟨session, .walking⟩ with holder := .purging k w.table }
    | _, _ => none
  | .purge =>
    match w.holder with
    | .purging k (x :: rest) =>
      match w.subs x with
      | some s => some { w.setSub x (w.purged s) with holder := .purging k rest }
      | none => none
    | .purging k [] =>
      match w.activations k with
      | some a =>
        some { w.setActivation k { a with stage := .returned } with holder := .nobody }
      | none => none
    | _ => none
  | _ => none

/-- Why `subscribe` refuses. -/
def subscribeError (w : Hub) (contract : Contract) (event : String) (capacity : Nat) :
    Option RpcError :=
  if event ∉ contract.events ∨ capacity = 0 ∨ 65536 < capacity then some subscriptionErr
  else if 256 ≤ w.table.length then some tableErr
  else none

/-- The sections of one subscription's owner. -/
def performSub (w : Hub) : Move → Option Hub
  | .subscribe contract event capacity =>
    match w.holder, w.subscribeError contract event capacity with
    | .nobody, none =>
      some { w.setSub w.next ⟨contract.id, event, min capacity w.maxEvents, [], 0, false,
          false, .idle, [], [], w.accepted.length⟩ with
        table := w.table ++ [w.next], next := w.next + 1 }
    | _, _ => none
  | .recv x =>
    match w.subs x with
    | some s =>
      if s.reader = .idle then
        some (w.setSub x { s with reader := if s.overflow then .overflowed else .popping })
      else none
    | none => none
  | .terminate x =>
    match w.subs x with
    | some s =>
      if s.reader = .overflowed then
        some ((w.setSub x { s with reader := .idle, queue := [], bytes := 0 }).respond x
          (.error overflowErr))
      else none
    | none => none
  | .pop x =>
    match w.subs x with
    | some s =>
      if s.reader = .popping then
        match s.queue with
        | [] => some (w.setSub x { s with reader := .looking })
        | (e, size) :: rest =>
          some ((w.setSub x { s with
              reader := .idle, queue := rest, bytes := s.bytes - size,
              taken := s.taken ++ [e] }).respond x (.ok (some e)))
      else none
    | none => none
  | .look x =>
    match w.subs x with
    | some s =>
      if s.reader = .looking then
        if s.closed then some ((w.setSub x { s with reader := .idle }).respond x (.ok none))
        else some (w.setSub x { s with reader := .idle })
      else none
    | none => none
  | .unsubscribe x =>
    match w.subs x, w.holder with
    | some s, .nobody =>
      if s.reader = .idle then
        some { w.setSub x { s with reader := .removing, closed := true } with
          table := w.table.erase x }
      else none
    | _, _ => none
  | .drain x =>
    match w.subs x with
    | some s =>
      if s.reader = .removing then
        some (w.setSub x { s with reader := .idle, queue := [], bytes := 0 })
      else none
    | none => none
  | _ => none

/-- The sections of `close` and of `tighten_limits`. -/
def performClose (w : Hub) : Move → Option Hub
  | .close =>
    match w.holder with
    | .nobody => some { w with table := [], holder := .closing w.table }
    | _ => none
  | .closeNext =>
    match w.holder with
    | .closing (x :: rest) =>
      match w.subs x with
      | some s =>
        some { w.setSub x { s with closed := true, queue := [], bytes := 0 } with
          holder := .closing rest }
      | none => none
    | .closing [] => some { w with holder := .nobody, clearing := w.clearing + 1 }
    | _ => none
  | .closeClear =>
    match w.clearing with
    | 0 => none
    | n + 1 => some { w with last := PMap.empty, clearing := n }
  | .tighten limits =>
    some { w with
      maxEvents := min w.maxEvents limits.maxEventQueue
      maxBytes := min w.maxBytes limits.maxQueuedBytes }
  | _ => none

/-- One section of one thread. -/
def perform (w : Hub) (m : Move) : Option Hub :=
  (((w.performAccept serialize m).or (w.performActivate m)).or (w.performSub m)).or
    (w.performClose m)

/-! ## What the sections can do -/

section Inversion

variable {serialize} {w w' : Hub}

/-- The sections of `accept`. -/
inductive AcceptStep (serialize : Serializer) (w : Hub) : Hub → Prop where
  | refuse (session : String) (e : RpcError) (hfree : w.accepts session = none) :
      AcceptStep serialize w (w.answer session (.error e))
  | enter (session : String) (contracts : String → Option Contract) (value : Json)
      (hfree : w.accepts session = none) :
      AcceptStep serialize w (w.setAccept session (.entered contracts value))
  | invalid (session : String) (contracts : String → Option Contract) (value : Json)
      (e : RpcError) (hcall : w.accepts session = some (.entered contracts value)) :
      AcceptStep serialize w (w.answer session (.error e))
  | number (session : String) (contracts : String → Option Contract) (value : Json) (e : Event)
      (hcall : w.accepts session = some (.entered contracts value))
      (hread : readEvent session contracts value = .ok e) :
      AcceptStep serialize w (w.setAccept session (.numbered e))
  | disorder (session : String) (e : Event) (hcall : w.accepts session = some (.numbered e))
      (hlast : (w.last session).any (fun n => decide (e.sequence ≤ n)) = true) :
      AcceptStep serialize w (w.answer session (.error orderErr))
  | unsized (session : String) (e : Event) (err : RpcError)
      (hcall : w.accepts session = some (.numbered e))
      (hlast : (w.last session).any (fun n => decide (e.sequence ≤ n)) = false) :
      AcceptStep serialize w
        ({ w with last := w.last.insert session e.sequence }.answer session (.error err))
  | record (session : String) (e : Event) (data : List UInt8)
      (hcall : w.accepts session = some (.numbered e))
      (hlast : (w.last session).any (fun n => decide (e.sequence ≤ n)) = false)
      (hsize : serialize e.value = .ok data) :
      AcceptStep serialize w
        ({ w with last := w.last.insert session e.sequence }.setAccept session
          (.recorded e data.length))
  | lock (session : String) (e : Event) (size : Nat)
      (hcall : w.accepts session = some (.recorded e size)) (hholder : w.holder = .nobody) :
      AcceptStep serialize w
        { w.setAccept session .walking with holder := .locked session e size }
  | stale (session : String) (e : Event) (size : Nat) (hholder : w.holder = .locked session e size)
      (hactive : w.replaced session = true) :
      AcceptStep serialize w { w.answer session (.error replacedErr) with holder := .nobody }
  | recheck (session : String) (e : Event) (size : Nat)
      (hholder : w.holder = .locked session e size) (hactive : w.replaced session = false) :
      AcceptStep serialize w { w with
        holder := .delivering session e size w.table, accepted := w.accepted ++ [e] }
  | deliver (session : String) (e : Event) (size x : Nat) (rest : List Nat) (s : Subscription)
      (hholder : w.holder = .delivering session e size (x :: rest)) (hsub : w.subs x = some s) :
      AcceptStep serialize w { w.offer x s e size with holder := .delivering session e size rest }
  | finish (session : String) (e : Event) (size : Nat)
      (hholder : w.holder = .delivering session e size []) :
      AcceptStep serialize w { w.answer session (.ok ()) with holder := .nobody }

theorem acceptStep_performAccept {m : Move} (h : w.performAccept serialize m = some w') :
    AcceptStep serialize w w' := by
  unfold performAccept at h
  split at h
  · split at h
    · cases h
    · rename_i hfree
      split at h
      · cases h
        exact .refuse _ _ hfree
      · split at h <;> cases h
        · exact .refuse _ _ hfree
        · exact .enter _ _ _ hfree
  · split at h
    · rename_i hcall
      split at h
      · cases h
        exact .invalid _ _ _ _ hcall
      · split at h
        · cases h
          exact .invalid _ _ _ _ hcall
        · rename_i hread
          cases h
          exact .number _ _ _ _ hcall hread
    · cases h
  · split at h
    · rename_i hcall
      split at h
      · rename_i hlast
        cases h
        exact .disorder _ _ hcall hlast
      · rename_i hlast
        dsimp only at h
        split at h
        · cases h
          exact .unsized _ _ _ hcall (Bool.eq_false_iff.2 hlast)
        · rename_i hsize
          cases h
          exact .record _ _ _ hcall (Bool.eq_false_iff.2 hlast) hsize
    · cases h
  · split at h
    · rename_i hcall hholder
      cases h
      exact .lock _ _ _ hcall hholder
    · cases h
  · split at h
    · rename_i hholder
      split at h
      · rename_i hactive
        cases h
        exact .stale _ _ _ hholder hactive
      · rename_i hactive
        cases h
        exact .recheck _ _ _ hholder (Bool.eq_false_iff.2 hactive)
    · cases h
  · split at h
    · rename_i hholder
      split at h
      · rename_i hsub
        cases h
        exact .deliver _ _ _ _ _ _ hholder hsub
      · cases h
    · rename_i hholder
      cases h
      exact .finish _ _ _ hholder
    · cases h
  · cases h

/-- The sections of `activate_session`. -/
inductive ActivateStep (w : Hub) : Move → Hub → Prop where
  | write (session : String) : ActivateStep w (.activate session)
      { w.setActivation w.activated ⟨session, .written⟩ with
        active := some session, activated := w.activated + 1, current := some w.activated }
  | clear (k : Nat) (session : String) (hcall : w.activations k = some ⟨session, .written⟩) :
      ActivateStep w (.clear k)
        { w.setActivation k ⟨session, .cleared⟩ with last := PMap.empty }
  | lock (k : Nat) (session : String) (hcall : w.activations k = some ⟨session, .cleared⟩)
      (hholder : w.holder = .nobody) : ActivateStep w (.startPurge k)
        { w.setActivation k ⟨session, .walking⟩ with holder := .purging k w.table }
  | purge (k x : Nat) (rest : List Nat) (s : Subscription)
      (hholder : w.holder = .purging k (x :: rest)) (hsub : w.subs x = some s) :
      ActivateStep w .purge { w.setSub x (w.purged s) with holder := .purging k rest }
  | finish (k : Nat) (a : Activation) (hholder : w.holder = .purging k [])
      (hcall : w.activations k = some a) : ActivateStep w .purge
        { w.setActivation k { a with stage := .returned } with holder := .nobody }

theorem activateStep_performActivate {m : Move} (h : w.performActivate m = some w') :
    ActivateStep w m w' := by
  unfold performActivate at h
  split at h
  · cases h
    exact .write _
  · split at h
    · rename_i hcall
      cases h
      exact .clear _ _ hcall
    · cases h
  · split at h
    · rename_i hcall hholder
      cases h
      exact .lock _ _ hcall hholder
    · cases h
  · split at h
    · rename_i hholder
      split at h
      · rename_i hsub
        cases h
        exact .purge _ _ _ _ hholder hsub
      · cases h
    · rename_i hholder
      split at h
      · rename_i hcall
        cases h
        exact .finish _ _ hholder hcall
      · cases h
    · cases h
  · cases h

/-- What the owner of a subscription does to it; only the fields that `recv` and
`unsubscribe` change. -/
inductive OwnerStep (s : Subscription) : Subscription → Option (Except RpcError (Option Event)) →
    Prop where
  | recv (hidle : s.reader = .idle) :
      OwnerStep s { s with reader := if s.overflow then .overflowed else .popping } none
  | terminate (hreader : s.reader = .overflowed) :
      OwnerStep s { s with reader := .idle, queue := [], bytes := 0 } (some (.error overflowErr))
  | nothing (hreader : s.reader = .popping) (hqueue : s.queue = []) :
      OwnerStep s { s with reader := .looking } none
  | pop (e : Event) (size : Nat) (rest : List (Event × Nat)) (hreader : s.reader = .popping)
      (hqueue : s.queue = (e, size) :: rest) :
      OwnerStep s { s with
        reader := .idle, queue := rest, bytes := s.bytes - size, taken := s.taken ++ [e] }
        (some (.ok (some e)))
  | ended (hreader : s.reader = .looking) (hclosed : s.closed = true) :
      OwnerStep s { s with reader := .idle } (some (.ok none))
  | wait (hreader : s.reader = .looking) : OwnerStep s { s with reader := .idle } none
  | drain (hreader : s.reader = .removing) :
      OwnerStep s { s with reader := .idle, queue := [], bytes := 0 } none

/-- The sections of a subscription's owner. -/
inductive SubStep (w : Hub) : Hub → Prop where
  | subscribe (s : Subscription) (hholder : w.holder = .nobody)
      (hfresh : s.queue = [] ∧ s.bytes = 0 ∧ s.overflow = false ∧ s.reader = .idle ∧
        s.given = [] ∧ s.taken = [] ∧ s.since = w.accepted.length) :
      SubStep w { w.setSub w.next s with table := w.table ++ [w.next], next := w.next + 1 }
  | own (x : Nat) (s s' : Subscription) (r : Option (Except RpcError (Option Event)))
      (hsub : w.subs x = some s) (hstep : OwnerStep s s' r) :
      SubStep w { w.setSub x s' with returns := w.returns ++ r.toList.map (x, ·) }
  | unsubscribe (x : Nat) (s : Subscription) (hsub : w.subs x = some s)
      (hholder : w.holder = .nobody) (hidle : s.reader = .idle) :
      SubStep w { w.setSub x { s with reader := .removing, closed := true } with
        table := w.table.erase x }

theorem SubStep.silent {x : Nat} {s s' : Subscription} (hsub : w.subs x = some s)
    (hstep : OwnerStep s s' none) : SubStep w (w.setSub x s') := by
  have hsame : ({ w.setSub x s' with returns := w.returns ++ [] } : Hub) = w.setSub x s' := by
    rw [append_nil]
    rfl
  exact hsame ▸ SubStep.own x s s' none hsub hstep

theorem subStep_performSub {m : Move} (h : w.performSub m = some w') : SubStep w w' := by
  unfold performSub at h
  split at h
  · split at h
    · rename_i hholder _
      cases h
      exact .subscribe _ hholder ⟨rfl, rfl, rfl, rfl, rfl, rfl, rfl⟩
    · cases h
  · split at h
    · rename_i hsub
      split at h
      · rename_i hreader
        cases h
        exact .silent hsub (.recv hreader)
      · cases h
    · cases h
  · split at h
    · rename_i hsub
      split at h
      · rename_i hreader
        cases h
        exact .own _ _ _ _ hsub (.terminate hreader)
      · cases h
    · cases h
  · split at h
    · rename_i hsub
      split at h
      · rename_i hreader
        split at h <;> rename_i hqueue <;> cases h
        · exact .silent hsub (.nothing hreader hqueue)
        · exact .own _ _ _ _ hsub (.pop _ _ _ hreader hqueue)
      · cases h
    · cases h
  · split at h
    · rename_i hsub
      split at h
      · rename_i hreader
        split at h
        · rename_i hclosed
          cases h
          exact .own _ _ _ _ hsub (.ended hreader hclosed)
        · cases h
          exact .silent hsub (.wait hreader)
      · cases h
    · cases h
  · split at h
    · rename_i hsub hholder
      split at h
      · rename_i hreader
        cases h
        exact .unsubscribe _ _ hsub hholder hreader
      · cases h
    · cases h
  · split at h
    · rename_i hsub
      split at h
      · rename_i hreader
        cases h
        exact .silent hsub (.drain hreader)
      · cases h
    · cases h
  · cases h

/-- The sections of `close` and of `tighten_limits`. -/
inductive CloseStep (w : Hub) : Move → Hub → Prop where
  | take (hholder : w.holder = .nobody) :
      CloseStep w .close { w with table := [], holder := .closing w.table }
  | next (x : Nat) (rest : List Nat) (s : Subscription) (hholder : w.holder = .closing (x :: rest))
      (hsub : w.subs x = some s) :
      CloseStep w .closeNext { w.setSub x { s with closed := true, queue := [], bytes := 0 } with
        holder := .closing rest }
  | finish (hholder : w.holder = .closing []) :
      CloseStep w .closeNext { w with holder := .nobody, clearing := w.clearing + 1 }
  | clear (n : Nat) (hclearing : w.clearing = n + 1) :
      CloseStep w .closeClear { w with last := PMap.empty, clearing := n }
  | tighten (limits : Limits) : CloseStep w (.tighten limits) { w with
      maxEvents := min w.maxEvents limits.maxEventQueue
      maxBytes := min w.maxBytes limits.maxQueuedBytes }

theorem closeStep_performClose {m : Move} (h : w.performClose m = some w') :
    CloseStep w m w' := by
  unfold performClose at h
  split at h
  · split at h
    · rename_i hholder
      cases h
      exact .take hholder
    · cases h
  · split at h
    · rename_i hholder
      split at h
      · rename_i hsub
        cases h
        exact .next _ _ _ hholder hsub
      · cases h
    · rename_i hholder
      cases h
      exact .finish hholder
    · cases h
  · split at h
    · cases h
    · rename_i n hclearing
      cases h
      exact .clear n hclearing
  · cases h
    exact .tighten _
  · cases h

theorem perform_cases {m : Move} (h : w.perform serialize m = some w') :
    AcceptStep serialize w w' ∨ ActivateStep w m w' ∨ SubStep w w' ∨ CloseStep w m w' := by
  unfold perform at h
  rcases Option.or_eq_some_iff.1 h with h | ⟨-, h⟩
  · rcases Option.or_eq_some_iff.1 h with h | ⟨-, h⟩
    · rcases Option.or_eq_some_iff.1 h with h | ⟨-, h⟩
      · exact .inl (acceptStep_performAccept h)
      · exact .inr (.inl (activateStep_performActivate h))
    · exact .inr (.inr (.inl (subStep_performSub h)))
  · exact .inr (.inr (.inr (closeStep_performClose h)))

end Inversion

/-- Several sections in a row. -/
def performAll (w : Hub) : List Move → Option Hub
  | [] => some w
  | m :: rest => (w.perform serialize m).bind fun w => w.performAll rest

end Hub

end NapiVm.Plugin
