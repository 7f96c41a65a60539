import NapiVm.Rpc.Traffic
import Mathlib.Data.List.TakeWhile

/-!
# The script peer

`RpcPeer`, the peer of the script side.  It has one list of frames to be written, with those
of priority in front; while the event fence is up the events in it are passed over.  One frame
is with the socket at a time.

Every call runs to its end before the next begins, so a `PeerMove` is a call from outside: a
request, the end of a wait, a reply, or the socket's answer to a write.

* `RpcPeer.perform` — one call.
* `RpcPeer.written_in_order` — cancellations and their requests on the wire, over all runs.
-/

namespace NapiVm.Rpc

open Host List

/-! ## Wire values -/

def wireDepthErr : RpcError := ⟨"INVALID_ARGUMENT", "Maximum JSON nesting exceeded"⟩
def wireNumberErr : RpcError := ⟨"INVALID_ARGUMENT", "Non-finite number"⟩

/-- A number is finite, and zero has no sign. -/
def wireNumber (n : JsonNumber) : Except RpcError JsonNumber :=
  if Binary64.isFinite n.asF64 = false then .error wireNumberErr
  else if n.asF64 = Binary64.pack true 0 0 then .ok (.int 0)
  else .ok n

mutual

/-- `wireValue`, of plain data without unpaired surrogates. -/
def wireValue (maxDepth : Nat) : Nat → Json → Except RpcError Json
  | depth, .number n => if maxDepth < depth then .error wireDepthErr else (wireNumber n).map .number
  | depth, .array items =>
    if maxDepth < depth then .error wireDepthErr
    else (wireItems maxDepth (depth + 1) items).map .array
  | depth, .object fields =>
    if maxDepth < depth then .error wireDepthErr
    else (wireFields maxDepth (depth + 1) fields).map .object
  | depth, value => if maxDepth < depth then .error wireDepthErr else .ok value

/-- The items of an array, in order. -/
def wireItems (maxDepth : Nat) : Nat → List Json → Except RpcError (List Json)
  | _, [] => .ok []
  | depth, item :: rest => do
      let item ← wireValue maxDepth depth item
      let rest ← wireItems maxDepth depth rest
      pure (item :: rest)

/-- The values of an object, in order. -/
def wireFields (maxDepth : Nat) :
    Nat → List (String × Json) → Except RpcError (List (String × Json))
  | _, [] => .ok []
  | depth, (key, value) :: rest => do
      let value ← wireValue maxDepth depth value
      let rest ← wireFields maxDepth depth rest
      pure ((key, value) :: rest)

end

/-! ## The peer -/

def peerClosedErr : RpcError := ⟨"CONNECTION_CLOSED", "Peer is closed"⟩
def capacityErr : RpcError := ⟨"OVERLOADED", "Pending request capacity reached"⟩
def abortedErr : RpcError := ⟨"CANCELLED", "Call cancelled before sending"⟩
def parentErr : RpcError := ⟨"DEADLINE_EXCEEDED", "Parent deadline has already expired"⟩
def timeoutErr : RpcError := ⟨"INVALID_ARGUMENT", "timeoutMs must be positive"⟩
def byteQueueErr : RpcError := ⟨"OVERLOADED", "Outbound byte queue is full"⟩

/-- What `request` finds in its options. -/
structure RequestOptions where
  aborted : Bool
  expired : Bool
  timeoutValid : Bool

/-- An element of `writes`. -/
structure Write where
  message : Message
  frame : List UInt8
  priority : Bool
  event : Bool

/-- `message.method === 'system.event'`. -/
def Message.namesEvent : Message → Bool
  | .request _ method _ => decide (method = "system.event")
  | .notification method _ => decide (method = "system.event")
  | _ => false

/-- What the outbound side of an `RpcPeer` consists of. -/
structure RpcPeer where
  session : String
  side : Char
  limits : Limits
  /-- `decoder.maxBytes`. -/
  maxBytes : Nat
  counter : Nat
  /-- The pending map; is it a business call? -/
  pending : Slots Nat Bool
  closed : Bool
  queuedBytes : Nat
  writes : List Write
  /-- The frame that the socket has. -/
  writing : Option Write
  eventFence : Option String
  /-- The inbound requests whose handlers run, with their methods. -/
  active : List (Nat × String)
  /-- History: what was given to the socket, in order. -/
  written : List Message

/-- One call. -/
inductive PeerMove where
  | request (method : String) (params : Json) (options : RequestOptions)
  /-- A request is aborted, or its time is up. -/
  | settle (id : Nat)
  | notify (method : String) (params : Json) (priority : Bool)
  /-- An inbound request is given to its handler. -/
  | register (id : Nat) (method : String)
  /-- An inbound request is refused. -/
  | refuse (id : Nat) (method : String) (body : Json)
  /-- A handler is done. -/
  | reply (k : Nat) (ok : Bool) (body : Json)
  /-- The reply to a request comes in. -/
  | response (id : Nat)
  /-- The socket has written its frame, or failed to. -/
  | wrote (failed : Bool)
  | hold (method : String)
  | negotiate (limits : Limits)
  | close

namespace RpcPeer

/-- A new peer. -/
def new (session : String) (side : Char) (limits : Limits) (bootstrap : Bool) : RpcPeer where
  session := session
  side := side
  limits := limits
  maxBytes := if bootstrap then 65536 else limits.maxFrameBytes
  counter := 0
  pending := []
  closed := false
  queuedBytes := 0
  writes := []
  writing := none
  eventFence := none
  active := []
  written := []

variable (stringify : Json → List UInt8)

/-- `encodeFrame`. -/
def encodeFrame (value : Json) (maxBytes maxDepth : Nat) : Except RpcError (List UInt8) := do
  let value ← wireValue maxDepth 0 value
  let payload := stringify value
  if payload = [] ∨ maxBytes < payload.length then .error frameErr
  else .ok (bigEndian payload.length ++ payload)

/-- The next frame is given to the socket. -/
def flush (w : RpcPeer) : RpcPeer :=
  if w.writing.isSome || w.closed then w
  else
    match w.writes.findIdx? fun f => !f.event || w.eventFence.isNone with
    | none => w
    | some i =>
      match w.writes[i]? with
      | none => w
      | some next =>
        { w with
          writes := w.writes.eraseIdx i
          writing := some next
          written := w.written ++ [next.message] }

/-- A frame goes behind the others of its class. -/
def insertWrite (writes : List Write) (f : Write) : List Write :=
  if f.priority then
    writes.takeWhile (·.priority) ++ f :: writes.dropWhile (·.priority)
  else writes ++ [f]

/-- `cap`, in `send`. -/
def cap (w : RpcPeer) (priority : Bool) : Nat :=
  if priority then w.limits.maxQueuedBytes + 1024 * 1024 else w.limits.maxQueuedBytes

/-- How many pending requests there may be before another. -/
def room (w : RpcPeer) (business : Bool) : Nat :=
  if business then w.limits.maxPendingCalls else w.limits.maxPendingCalls + 16

/-- `send`. -/
def send (w : RpcPeer) (m : Message) (priority : Bool) : Except RpcError RpcPeer :=
  if w.closed then .error peerClosedErr
  else
    match encodeFrame stringify (m.value w.side w.session) w.maxBytes w.limits.maxDepth with
    | .error e => .error e
    | .ok frame =>
      if w.cap priority < w.queuedBytes + frame.length then .error byteQueueErr
      else
        .ok (flush { w with
          queuedBytes := w.queuedBytes + frame.length
          writes := insertWrite w.writes ⟨m, frame, priority, m.namesEvent⟩ })

/-- `close`. -/
def close (w : RpcPeer) : RpcPeer :=
  if w.closed then w
  else
    { w with
      closed := true
      pending := []
      queuedBytes := w.queuedBytes - (w.writes.map (·.frame.length)).sum
      writes := [] }

/-- `request`, and the error it rejects with at once. -/
def request (w : RpcPeer) (method : String) (params : Json) (options : RequestOptions) :
    RpcPeer × Option RpcError :=
  let business := decide (method = "system.invoke")
  if w.closed then (w, some peerClosedErr)
  else if w.room business ≤ w.pending.length then (w, some capacityErr)
  else if options.aborted then (w, some abortedErr)
  else if options.expired then (w, some parentErr)
  else if options.timeoutValid = false then (w, some timeoutErr)
  else
    let id := w.counter + 1
    let w := { w with counter := id }
    -- the entry is removed again when nothing is sent
    match wireValue 64 0 params with
    | .error e => (w, some e)
    | .ok params =>
      match send stringify { w with pending := w.pending ++ [(id, business)] }
        (.request id method params) (!business) with
      | .error e => (w, some e)
      | .ok w => (w, none)

/-- `settle`: the entry is removed, and the other side told if that can be queued. -/
def settle (w : RpcPeer) (id : Nat) : RpcPeer :=
  if (Slots.get w.pending id).isSome then
    let w := { w with pending := Slots.removeKey w.pending id }
    match send stringify w (.cancel id) true with
    | .error _ => w
    | .ok w => w
  else w

/-- `reply`. -/
def reply (w : RpcPeer) (id : Nat) (method : String) (ok : Bool) (body : Json) : RpcPeer :=
  match send stringify w (.response id method ok body) true with
  | .error _ => w.close
  | .ok w =>
    if ok = true ∧ w.eventFence = some method then flush { w with eventFence := none } else w

/-- One call. -/
def perform (w : RpcPeer) : PeerMove → Option RpcPeer
  | .request method params options => some (request stringify w method params options).1
  | .settle id => some (settle stringify w id)
  | .notify method params priority =>
    -- nobody but `settle` sends `system.cancel`
    if method = "system.cancel" then none
    else
      match wireValue 64 0 params with
      | .error _ => some w
      | .ok params =>
        match send stringify w (.notification method params) priority with
        | .error _ => some w
        | .ok w => some w
  | .register id method =>
    -- a duplicate closes the peer
    if id ∈ w.active.map Prod.fst then some w.close
    else some { w with active := w.active ++ [(id, method)] }
  | .refuse id method body => some (reply stringify w id method false body)
  | .reply k ok body =>
    match w.active[k]? with
    | none => none
    | some (id, method) =>
      some { reply stringify w id method ok body with active := w.active.eraseIdx k }
  | .response id => some { w with pending := Slots.removeKey w.pending id }
  | .wrote failed =>
    match w.writing with
    | none => none
    | some next =>
      let w := { w with queuedBytes := w.queuedBytes - next.frame.length, writing := none }
      some (if failed then w.close else w.flush)
  | .hold method => some { w with eventFence := some method }
  | .negotiate limits =>
    let limits := w.limits.stricter limits
    some { w with limits := limits, maxBytes := limits.maxFrameBytes }
  | .close => some w.close

/-- Several calls in a row. -/
def performAll (w : RpcPeer) : List PeerMove → Option RpcPeer
  | [] => some w
  | m :: rest => (w.perform stringify m).bind fun w => w.performAll rest

/-- No request is aborted or times out while its frame waits behind those of priority, or for the
fence. -/
def Prompt (w : RpcPeer) : PeerMove → Prop
  | .settle id => ∀ f ∈ w.writes, f.priority = false ∨ f.event = true →
      f.message.isRequest id = false
  | _ => True

/-- The runs of a peer, whose calls are all of one kind. -/
def Runs (Allowed : RpcPeer → PeerMove → Prop) (w : RpcPeer) : Prop :=
  Reachable (fun w => ∃ session side limits bootstrap, w = new session side limits bootstrap)
    (fun w w' => ∃ m, Allowed w m ∧ w.perform stringify m = some w') w

/-! ## The order of the frames -/

section Order

open Outbound

variable {stringify : Json → List UInt8} {w w' : RpcPeer}

/-- What is written and what is to be, in that order. -/
def line (w : RpcPeer) : List Message := w.written ++ w.writes.map Write.message

/-- What holds of requests and cancellations at any time. -/
structure Straight (w : RpcPeer) : Prop where
  order : InOrder w.line
  used : ∀ id, ∀ m ∈ w.line, m.isRequest id = true ∨ m.isCancel id = true → id ≤ w.counter
  pending : ∀ id ∈ Slots.keys w.pending, id ≤ w.counter
  /-- A request that waits for the fence is not cancelled. -/
  fenced : ∀ f ∈ w.writes, f.event = true → ∀ id, f.message.isRequest id = true →
    ∀ m ∈ w.line, m.isCancel id = false
  front : w.writes.Pairwise fun f g => g.priority = true → f.priority = true

theorem straight_new (session : String) (side : Char) (limits : Limits) (bootstrap : Bool) :
    (new session side limits bootstrap).Straight where
  order := .nil
  used _ _ hm := nomatch hm
  pending _ hid := nomatch hid
  fenced _ hf := nomatch hf
  front := .nil

section

variable (h : w.Straight)

include h

/-- Only the frames that wait change, and they become fewer. -/
theorem Straight.fewer (hwritten : w'.written = w.written) (hcounter : w'.counter = w.counter)
    (hwrites : w'.writes.Sublist w.writes)
    (hpending : ∀ id ∈ Slots.keys w'.pending, id ∈ Slots.keys w.pending) : w'.Straight := by
  have hline : w'.line.Sublist w.line := by
    rw [line, line, hwritten]
    exact (List.Sublist.refl _).append (hwrites.map _)
  refine ⟨h.order.sublist hline, fun id m hm hid => ?_, fun id hid => ?_,
    fun f hf hevent id hid m hm => h.fenced f (hwrites.subset hf) hevent id hid m (hline.subset hm),
    h.front.sublist hwrites⟩
  · rw [hcounter]
    exact h.used id m (hline.subset hm) hid
  · rw [hcounter]
    exact h.pending id (hpending id hid)

theorem straight_close : w.close.Straight := by
  unfold close
  split
  · exact h
  · exact h.fewer rfl rfl (nil_sublist _) fun id hid => nomatch hid

omit h in
theorem findIdx?_split {p : Write → Bool} {l : List Write} {i : Nat} {next : Write}
    (h : l.findIdx? p = some i) (hnext : l[i]? = some next) :
    ∃ a b, l = a ++ next :: b ∧ l.eraseIdx i = a ++ b ∧ ∀ f ∈ a, p f = false := by
  obtain ⟨hlt, hp, hbefore⟩ := findIdx?_eq_some_iff_getElem.1 h
  obtain ⟨_, heq⟩ := List.getElem?_eq_some_iff.1 hnext
  refine ⟨l.take i, l.drop (i + 1), ?_, eraseIdx_eq_take_drop_succ l i, fun f hf => ?_⟩
  · rw [← heq, getElem_cons_drop, take_append_drop]
  · obtain ⟨j, hj, rfl⟩ := mem_iff_getElem.1 hf
    rw [length_take] at hj
    rw [getElem_take]
    exact Bool.eq_false_iff.2 (hbefore j (by omega))

/-- A frame is given to the socket; the events before it wait for the fence. -/
theorem straight_flush : w.flush.Straight := by
  unfold flush
  split
  · exact h
  · split
    · exact h
    · rename_i i hindex
      split
      · exact h
      · rename_i next hnext
        obtain ⟨a, b, hwrites, herase, hskipped⟩ := findIdx?_split hindex hnext
        have hperm : (w.written ++ [next.message] ++ (a ++ b).map Write.message).Perm w.line := by
          rw [line, hwrites, append_assoc]
          refine List.Perm.append_left _ ?_
          simp only [map_append, map_cons, singleton_append]
          exact perm_middle.symm
        have hsub : (a ++ b).Sublist w.writes := by
          rw [hwrites]
          exact (List.Sublist.refl _).append (sublist_cons_self _ _)
        have horder := h.order
        simp only [line, hwrites, map_append, map_cons, InOrder,
          pairwise_append, pairwise_cons, mem_append, mem_cons] at horder
        obtain ⟨hw, ⟨ha, ⟨hnextb, hb⟩, hab⟩, hcross⟩ := horder
        refine ⟨?_, fun id m hm => ?_, h.pending, fun f hf hevent id hid m hm => ?_, ?_⟩
        · simp only [line, herase, map_append, InOrder, pairwise_append,
            mem_append, mem_singleton]
          refine ⟨⟨hw, pairwise_singleton _ _, ?_⟩, ⟨ha, hb, ?_⟩, ?_⟩
          · rintro m hm _ rfl
            exact hcross m hm next.message (.inr (.inl rfl))
          · exact fun m hm m' hm' => hab m hm m' (.inr hm')
          · rintro m (hm | rfl) m' (hm' | hm')
            · exact hcross m hm m' (.inl hm')
            · exact hcross m hm m' (.inr (.inr hm'))
            · -- a request before it would wait for the fence
              intro id hcancel
              obtain ⟨f, hf, rfl⟩ := mem_map.1 hm'
              refine Bool.eq_false_iff.2 fun hrequest => ?_
              have hevent : f.event = true := by
                have hno := hskipped f hf
                simp only [Bool.or_eq_false_iff, Bool.not_eq_false'] at hno
                exact hno.1
              have hclear := h.fenced f (by rw [hwrites]; exact mem_append_left _ hf) hevent
                id hrequest next.message (by
                  rw [line, hwrites]
                  simp)
              exact nomatch hclear.symm.trans hcancel
            · exact hnextb m' hm'
        · simp only [line, herase] at hm
          exact h.used id m (hperm.mem_iff.1 hm)
        · simp only [line, herase] at hf hm
          exact h.fenced f (hsub.subset hf) hevent id hid m (hperm.mem_iff.1 hm)
        · simp only [herase]
          exact h.front.sublist hsub

omit h in
/-- Where a new frame goes. -/
theorem insertWrite_split (hfront : w.writes.Pairwise fun f g => g.priority = true →
    f.priority = true) (f : Write) :
    ∃ a b, w.writes = a ++ b ∧ insertWrite w.writes f = a ++ f :: b ∧
      (∀ g ∈ b, f.priority = true ∧ g.priority = false) ∧
      (f.priority = true → ∀ g ∈ a, g.priority = true) := by
  unfold insertWrite
  split
  · rename_i hpriority
    refine ⟨_, _, takeWhile_append_dropWhile.symm, rfl, fun g hg => ⟨hpriority, ?_⟩,
      fun _ g hg => mem_takeWhile_imp hg⟩
    cases hrest : w.writes.dropWhile (·.priority) with
    | nil => exact nomatch hrest ▸ hg
    | cons first rest =>
      have hsub : (first :: rest).Sublist w.writes := hrest ▸ dropWhile_sublist _
      have hfirst : first.priority = false := by
        have hnot := head_dropWhile_not (p := Write.priority) (l := w.writes)
          (by rw [hrest]; exact cons_ne_nil _ _)
        simpa only [hrest, head_cons] using hnot
      have hpairs := pairwise_cons.1 (hfront.sublist hsub)
      rcases mem_cons.1 (hrest ▸ hg) with rfl | hg
      · exact hfirst
      · refine Bool.eq_false_iff.2 fun htrue => ?_
        exact nomatch hfirst.symm.trans (hpairs.1 g hg htrue)
  · rename_i hpriority
    exact ⟨w.writes, [], (append_nil _).symm, rfl, (fun g hg => nomatch hg),
      fun h => absurd h hpriority⟩

/-- A frame is queued. -/
theorem straight_insert {f : Write} {bytes : Nat}
    (hrequest : ∀ id, f.message.isRequest id = true →
      id ≤ w.counter ∧ ∀ m ∈ w.line, m.isCancel id = false)
    (hcancel : ∀ id, f.message.isCancel id = true → id ≤ w.counter ∧
      ∀ g ∈ w.writes, g.priority = false ∨ g.event = true → g.message.isRequest id = false) :
    Straight { w with queuedBytes := bytes, writes := insertWrite w.writes f } := by
  obtain ⟨a, b, hwrites, hinsert, hbehind, hahead⟩ := insertWrite_split h.front f
  have hline : (w.written ++ (a ++ f :: b).map Write.message).Perm (f.message :: w.line) := by
    rw [line, hwrites]
    simp only [map_append, map_cons]
    rw [← append_assoc, ← append_assoc]
    exact perm_middle
  have horder := h.order
  simp only [line, hwrites, map_append, InOrder, pairwise_append, mem_append] at horder
  obtain ⟨hw, ⟨ha, hb, hab⟩, hcross⟩ := horder
  have hnotBoth : ∀ id, f.message.isCancel id = true → ∀ n, f.message.isRequest n = false := by
    intro id hid n
    cases hm : f.message <;> simp_all [Message.isCancel, Message.isRequest]
  have hbefore : ∀ m ∈ w.line, ∀ id, m.isCancel id = true → f.message.isRequest id = false := by
    intro m hm id hid
    refine Bool.eq_false_iff.2 fun hreq => ?_
    cases ((hrequest id hreq).2 m hm).symm.trans hid
  have hmem : ∀ m, m ∈ w.written ∨ m ∈ a.map Write.message → m ∈ w.line := by
    intro m hm
    rw [line, hwrites, map_append, mem_append, mem_append]
    rcases hm with hm | hm
    · exact .inl hm
    · exact .inr (.inl hm)
  refine ⟨?_, fun id m hm hid => ?_, h.pending, fun g hg hevent id hid m hm => ?_, ?_⟩
  · simp only [line, hinsert, map_append, map_cons, InOrder, pairwise_append,
      pairwise_cons, mem_cons, mem_append]
    refine ⟨hw, ⟨ha, ⟨?_, hb⟩, ?_⟩, ?_⟩
    · intro m hm id hid
      obtain ⟨g, hg, rfl⟩ := mem_map.1 hm
      exact (hcancel id hid).2 g (by rw [hwrites]; exact mem_append_right _ hg)
        (.inl (hbehind g hg).2)
    · rintro m hm m' (rfl | hm')
      · exact hbefore m (hmem m (.inr hm))
      · exact hab m hm m' hm'
    · rintro m hm m' (hm' | rfl | hm')
      · exact hcross m hm m' (.inl hm')
      · exact hbefore m (hmem m (.inl hm))
      · exact hcross m hm m' (.inr hm')
  · simp only [line, hinsert] at hm
    rcases mem_cons.1 (hline.mem_iff.1 hm) with rfl | hm
    · exact hid.elim (fun hid => (hrequest id hid).1) fun hid => (hcancel id hid).1
    · exact h.used id m hm hid
  · simp only [line, hinsert] at hg hm
    have hg : g = f ∨ g ∈ w.writes := by
      rw [hwrites]
      rcases mem_append.1 hg with hg | hg
      · exact .inr (mem_append_left _ hg)
      · exact (mem_cons.1 hg).imp_right (mem_append_right _)
    rcases mem_cons.1 (hline.mem_iff.1 hm) with rfl | hm'
    · -- the new frame is the cancellation
      refine Bool.eq_false_iff.2 fun hnew => ?_
      rcases hg with rfl | hg
      · cases (hnotBoth id hnew id).symm.trans hid
      · cases ((hcancel id hnew).2 g hg (.inr hevent)).symm.trans hid
    · rcases hg with rfl | hg
      · exact (hrequest id hid).2 m hm'
      · exact h.fenced g hg hevent id hid m hm'
  · have hfront := h.front
    simp only [hwrites, pairwise_append] at hfront
    simp only [hinsert, pairwise_append, pairwise_cons, mem_cons]
    refine ⟨hfront.1, ⟨fun g hg hpriority => (hbehind g hg).1, hfront.2.1⟩, ?_⟩
    rintro g hg g' (rfl | hg')
    · exact fun hpriority => hahead hpriority g hg
    · exact hfront.2.2 g hg g' hg'

theorem straight_send {m : Message} {priority : Bool}
    (hrequest : ∀ id, m.isRequest id = true →
      id ≤ w.counter ∧ ∀ m' ∈ w.line, m'.isCancel id = false)
    (hcancel : ∀ id, m.isCancel id = true → id ≤ w.counter ∧
      ∀ g ∈ w.writes, g.priority = false ∨ g.event = true → g.message.isRequest id = false)
    (hsend : send stringify w m priority = .ok w') : w'.Straight := by
  unfold send at hsend
  split at hsend
  · cases hsend
  · split at hsend
    · cases hsend
    · split at hsend
      · cases hsend
      · cases hsend
        exact straight_flush (straight_insert h hrequest hcancel)

/-- A frame that is neither a request nor a cancellation is queued. -/
theorem straight_send_other {m : Message} {priority : Bool}
    (hrequest : ∀ id, m.isRequest id = false) (hcancel : ∀ id, m.isCancel id = false)
    (hsend : send stringify w m priority = .ok w') : w'.Straight :=
  straight_send h (fun id hid => nomatch (hrequest id).symm.trans hid)
    (fun id hid => nomatch (hcancel id).symm.trans hid) hsend

theorem straight_request (method : String) (params : Json) (options : RequestOptions) :
    (request stringify w method params options).1.Straight := by
  have hcounted : Straight { w with counter := w.counter + 1 } :=
    ⟨h.order, fun id m hm hid => Nat.le_succ_of_le (h.used id m hm hid),
      fun id hid => Nat.le_succ_of_le (h.pending id hid), h.fenced, h.front⟩
  unfold request
  dsimp only
  split
  · exact h
  · split
    · exact h
    · split
      · exact h
      · split
        · exact h
        · split
          · exact h
          · split
            · exact hcounted
            · split
              · exact hcounted
              · rename_i params hparams _ hsend
                refine straight_send (w := { w with
                  counter := w.counter + 1
                  pending := w.pending ++ [(w.counter + 1, decide (method = "system.invoke"))] })
                  ⟨hcounted.order, hcounted.used, fun id hid => ?_, hcounted.fenced,
                    hcounted.front⟩ (fun id hid => ?_) (fun id hid => (by cases hid)) hsend
                · rw [Slots.keys_append, mem_append] at hid
                  rcases hid with hid | hid
                  · exact hcounted.pending id hid
                  · exact Nat.le_of_eq (mem_singleton.1 hid)
                · -- no id that has been used is new
                  obtain rfl : w.counter + 1 = id := of_decide_eq_true hid
                  refine ⟨Nat.le_refl _, fun m hm => Bool.eq_false_iff.2 fun hcancel => ?_⟩
                  have hused := h.used _ m hm (.inr hcancel)
                  omega

theorem straight_settle {id : Nat} (hprompt : Prompt w (.settle id)) :
    (settle stringify w id).Straight := by
  unfold settle
  split
  · rename_i hentry
    dsimp only
    have hremoved : Straight { w with pending := Slots.removeKey w.pending id } :=
      h.fewer rfl rfl (List.Sublist.refl _) fun n hn => (mem_keys_removeKey hn).1
    split
    · exact hremoved
    · rename_i hsend
      refine straight_send hremoved (fun n hn => (by cases hn)) (fun n hn => ?_) hsend
      obtain rfl : id = n := of_decide_eq_true hn
      exact ⟨h.pending id (mem_keys_of_get hentry), hprompt⟩
  · exact h

theorem straight_reply (id : Nat) (method : String) (ok : Bool) (body : Json) :
    (reply stringify w id method ok body).Straight := by
  unfold reply
  split
  · exact straight_close h
  · rename_i hsend
    have hsent := straight_send_other h (fun _ => rfl) (fun _ => rfl) hsend
    split
    · exact straight_flush (hsent.fewer rfl rfl (List.Sublist.refl _) fun _ hid => hid)
    · exact hsent

theorem Straight.next {m : PeerMove} (hprompt : Prompt w m) (hm : w.perform stringify m = some w') :
    w'.Straight := by
  cases m with
  | request method params options =>
    cases hm
    exact straight_request h method params options
  | settle id =>
    cases hm
    exact straight_settle h hprompt
  | notify method params priority =>
    simp only [perform] at hm
    split at hm
    · cases hm
    · split at hm
      · cases hm
        exact h
      · split at hm <;> cases hm
        · exact h
        · rename_i hsend
          exact straight_send_other h (fun _ => rfl) (fun _ => rfl) hsend
  | register id method =>
    simp only [perform] at hm
    split at hm <;> cases hm
    · exact straight_close h
    · exact h.fewer rfl rfl (List.Sublist.refl _) fun _ hid => hid
  | refuse id method body =>
    cases hm
    exact straight_reply h id method false body
  | reply k ok body =>
    simp only [perform] at hm
    split at hm <;> cases hm
    rename_i id method hactive
    exact (straight_reply h id method ok body).fewer rfl rfl (List.Sublist.refl _) fun _ hid => hid
  | response id =>
    cases hm
    exact h.fewer rfl rfl (List.Sublist.refl _) fun n hn =>
      (mem_keys_removeKey hn).1
  | wrote failed =>
    simp only [perform] at hm
    split at hm <;> cases hm
    rename_i next hwriting
    have hfree : Straight { w with
        queuedBytes := w.queuedBytes - next.frame.length, writing := none } :=
      h.fewer rfl rfl (List.Sublist.refl _) fun _ hid => hid
    cases failed with
    | true => exact straight_close hfree
    | false => exact straight_flush hfree
  | hold method | negotiate limits =>
    cases hm
    exact h.fewer rfl rfl (List.Sublist.refl _) fun _ hid => hid
  | close =>
    cases hm
    exact straight_close h

end

/-- A request is not written after its cancellation.

This is so when no request is aborted or times out while its frame waits behind those of
priority or for the fence. -/
theorem written_in_order (h : w.Runs stringify Prompt) : InOrder w.written := by
  have hstraight : w.Straight := by
    refine Reachable.invariant (I := Straight) (fun w hw => ?_) (fun w w' hw hstep => ?_) h
    · obtain ⟨session, side, limits, bootstrap, rfl⟩ := hw
      exact straight_new session side limits bootstrap
    · obtain ⟨m, hprompt, hm⟩ := hstep
      exact hw.next hprompt hm
  exact (List.pairwise_append.1 hstraight.order).1

/-! ## Two runs -/

theorem runs_performAll {Allowed : RpcPeer → PeerMove → Prop} {moves : List PeerMove}
    (h : w.Runs stringify Allowed) (hallowed : ∀ m ∈ moves, ∀ v, Allowed v m)
    (hall : w.performAll stringify moves = some w') : w'.Runs stringify Allowed :=
  h.steps (steps_of_all hall (fun _ => rfl) (fun _ _ _ => rfl)
    fun m hm _ _ h => ⟨m, hallowed m hm _, h⟩)

/-- `JSON.stringify`, of what has no fractions. -/
def compactText (value : Json) : List UInt8 := (compactValue value).toOption.getD []

/-- A new peer of a plugin. -/
def fresh : RpcPeer := new "s" 'p' Limits.default false

/-- A call, when nothing stands against it. -/
def invoked : PeerMove := .request "system.invoke" .null ⟨false, false, true⟩

/-- The second call is aborted while the socket has the frame of the first. -/
def backlog : List PeerMove := [invoked, invoked, .settle 2, .wrote false, .wrote false]

/-- Is the request with id 2 written after its cancellation? -/
def late (w : RpcPeer) : Bool :=
  match w.written with
  | [_, before, after] => before.isCancel 2 && after.isRequest 2
  | _ => false

/-- A cancellation overtakes its request. -/
theorem request_written_late : ¬ ∀ (stringify : Json → List UInt8) (w : RpcPeer),
    w.Runs stringify (fun _ _ => True) → InOrder w.written := by
  intro h
  have hrun : (fresh.performAll compactText backlog).any late = true := by decide +kernel
  obtain ⟨w, hw, hlate⟩ := (Option.any_eq_true _ _).1 hrun
  have horder := h compactText w
    (runs_performAll (.start ⟨"s", 'p', Limits.default, false, rfl⟩) (fun _ _ _ => trivial) hw)
  unfold late at hlate
  split at hlate
  · rename_i first before after hwritten
    rw [Bool.and_eq_true] at hlate
    rw [InOrder, hwritten] at horder
    have hpair := (List.pairwise_cons.1 (List.pairwise_cons.1 horder).2).1 after
      List.mem_cons_self 2 hlate.1
    exact nomatch hpair.symm.trans hlate.2
  · cases hlate

/-- The call is aborted when the socket has its frame. -/
theorem written_in_order_aborted : ∃ w : RpcPeer,
    w.written.map (·.isCancel 1) = [false, true] ∧ InOrder w.written := by
  obtain ⟨v, hv, hwrites⟩ : ∃ v, fresh.perform compactText invoked = some v ∧ v.writes = [] :=
    ⟨_, rfl, by decide +kernel⟩
  have hruns : v.Runs compactText Prompt :=
    Reachable.next (.start ⟨"s", 'p', Limits.default, false, rfl⟩) ⟨invoked, trivial, hv⟩
  have hrun : (fresh.performAll compactText [invoked, .settle 1, .wrote false]).any (fun w =>
      w.written.map (·.isCancel 1) == [false, true]) = true := by decide +kernel
  obtain ⟨w, hw, hfound⟩ := (Option.any_eq_true _ _).1 hrun
  rw [performAll, hv, Option.bind_some] at hw
  obtain ⟨u, hu, hrest⟩ := Option.bind_eq_some_iff.1 hw
  have hprompt : Prompt v (.settle 1) := fun f hf => by
    rw [hwrites] at hf
    cases hf
  have hsettled : u.Runs compactText Prompt := hruns.next ⟨.settle 1, hprompt, hu⟩
  have hall : w.Runs compactText Prompt :=
    runs_performAll hsettled (fun m hm _ => by
      rw [List.mem_singleton.1 hm]
      trivial) hrest
  exact ⟨w, beq_iff_eq.1 hfound, written_in_order hall⟩

end Order

end RpcPeer

end NapiVm.Rpc
