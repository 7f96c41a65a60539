import NapiVm.Rpc.Budget
import NapiVm.Plugin.EventOrder
import Mathlib.Data.List.Perm.Subperm

/-!
# Emitting events

`emit` makes a future: it takes a sequence number at once, and the event is sent when the
future is first polled.  The frames go through the event queue of the peer, and the reader
of the other endpoint gives them one by one to `accept`.

The futures of a session may be polled in any order, so a number that was taken later may be
sent earlier; the event with the lower number is then refused, and the reader stops.

* `Link.perform` — one section of the sender, its peer or the receiving hub.
* `Link.events_accepted` — the order on the wire, and what `accept` answers.
-/

namespace NapiVm.Plugin

open Host Rpc List

/-! ## Sequence numbers -/

/-- What is in a `system.event`. -/
def eventParams : Message → Option Json
  | .notification method params => if method = "system.event" then some params else none
  | _ => none

/-- The sequence number of an event, 0 if it has none. -/
def number (m : Message) : Option Nat := (eventParams m).map fun v =>
  (readSequence (field v "sequence")).getD 0

theorem isEvent_of_eventParams {m : Message} {v : Json} (h : eventParams m = some v) :
    m.isEvent = true ∧ m = .notification "system.event" v := by
  cases m with
  | notification method params =>
    simp only [eventParams] at h
    split at h
    · rename_i hmethod
      cases h
      subst hmethod
      exact ⟨rfl, rfl⟩
    · cases h
  | _ => cases h

theorem number_of_not_event {m : Message} (h : m.isEvent = false) : number m = none := by
  cases hv : eventParams m with
  | none => rw [number, hv, Option.map_none]
  | some v => exact nomatch h.symm.trans (isEvent_of_eventParams hv).1

/-- A number is read as it was written. -/
theorem readSequence_toString {n : Nat} (hpos : 0 < n) (hlt : n < 2 ^ 64) :
    readSequence (.string (toString n)) = some n := by
  have hdigits : (toString n).toList = Nat.toDigits 10 n := Nat.toList_repr
  have hvalue : decimalValue (toString n) = n := by
    rw [decimalValue, hdigits]
    exact Nat.ofDigitChars_ten_toDigits
  have hne : toString n ≠ "0" := by
    intro heq
    rw [heq] at hvalue
    have hzero : decimalValue "0" = 0 := by decide
    omega
  have hcanonical : canonicalDecimal (toString n) = true := by
    simp only [canonicalDecimal, hdigits, Bool.and_eq_true, Bool.or_eq_true, Bool.not_eq_true',
      isEmpty_eq_false_iff, decide_eq_true_eq, all_eq_true]
    exact ⟨⟨Nat.toDigits_ne_nil, fun c hc =>
      Nat.isDigit_of_mem_toDigits (b := 10) (by decide) (by decide) hc⟩,
      .inr (head_toDigits hpos)⟩
  simp only [readSequence, hvalue]
  rw [if_pos ⟨hne, hcanonical, hlt⟩]

/-! ## Futures -/

def notReadyErr : RpcError := ⟨"NOT_READY", "business events require READY"⟩
def unregisteredErr : RpcError := ⟨"CONTRACT_MISMATCH", "event contract not registered"⟩
def exhaustedErr : RpcError := ⟨"OVERLOADED", "event sequence exhausted"⟩

/-- A future that `emit` has made, with what it has read and the number it has taken. -/
structure Emission where
  ready : Bool
  registered : Bool
  number : Option Nat
  interface : String
  version : String
  event : String
  payload : Json
  related : Option String

/-- What its first poll sends, or why it fails. -/
def Emission.params (f : Emission) (session : String) : Except RpcError Json :=
  if f.ready = false then .error notReadyErr
  else if f.registered = false then .error unregisteredErr
  else
    match f.number with
    | none => .error exhaustedErr
    | some n =>
      .ok (.object ([("interface", .string f.interface), ("version", .string f.version),
        ("event", .string f.event), ("sessionId", .string session),
        ("sequence", .string (toString n)), ("payload", f.payload)] ++
          f.related.toList.map fun id => ("relatedRequestId", .string id)))

/-- The event of a future has its number. -/
theorem params_ok {f : Emission} {session : String} {v : Json} (h : f.params session = .ok v) :
    ∃ n, f.number = some n ∧ field v "sequence" = .string (toString n) := by
  unfold Emission.params at h
  split at h
  · cases h
  · split at h
    · cases h
    · split at h
      · cases h
      · rename_i n hnumber
        cases h
        exact ⟨n, hnumber, rfl⟩

/-! ## The events of a peer -/

/-- The numbers in some frames. -/
def frameNumbers (frames : List QueuedFrame) : List Nat :=
  frames.filterMap fun f => f.message.bind number

/-- The numbers on the wire, with the writer and in the event queue. -/
def eventNumbers (w : Outbound) : List Nat :=
  w.written.filterMap number ++ frameNumbers w.writer.carried.toList ++ frameNumbers w.events

/-- The numbers of the events inside `notify`. -/
def sendNumbers (w : Outbound) : List Nat := w.sends.filterMap fun s => number s.message

/-! ## Two endpoints -/

/-- The emitting endpoint, and the hub of the other. -/
structure Link where
  session : String
  out : Outbound
  /-- The next sequence number. -/
  sequence : Nat
  /-- The futures that have not been polled. -/
  waiting : List Emission
  hub : Hub
  /-- How many messages the other endpoint has read. -/
  read : Nat
  /-- History: the numbers of the events that were put into the event queue. -/
  emitted : List Nat

/-- One section of one thread of either endpoint. -/
inductive LinkMove where
  /-- Somebody calls `emit`. -/
  | create (ready registered : Bool) (interface version event : String) (payload : Json)
      (related : Option String)
  /-- A future is polled for the first time. -/
  | poll (k : Nat)
  /-- It is dropped before. -/
  | drop (k : Nat)
  /-- A section of the emitting peer. -/
  | out (m : Rpc.Move)
  /-- The other endpoint reads a message; numbers arrive in normal form. -/
  | receive (contracts : String → Option Contract) (limit : Nat)
  /-- A section of the hub. -/
  | hub (m : Plugin.Move)

namespace Link

/-- Two fresh endpoints. -/
def new (session : String) (side : Char) (limits : Limits) (maxEvents maxBytes : Nat) : Link where
  session := session
  out := Outbound.new session side limits
  sequence := 1
  waiting := []
  hub := Hub.new maxEvents maxBytes
  read := 0
  emitted := []

variable (serialize : Serializer)

/-- The number that a section of the peer puts into the event queue. -/
def queues (w : Link) : Rpc.Move → Option Nat
  | .advance k =>
    match w.out.sends[k]? with
    | some ⟨m, .reserved _⟩ => if w.out.refusal m.queue = none then number m else none
    | _ => none
  | _ => none

/-- An event was refused, and nothing more is read. -/
def stopped (w : Link) : Bool :=
  w.hub.answers.any fun p => decide (p.1 = w.session) && !p.2.isOk

/-- Does it send a `system.event`?  Only `emit` does. -/
def emits : Rpc.Move → Bool
  | .notify method _ => decide (method = "system.event")
  | _ => false

/-- Is it a call of `accept` for this session?  Only its reader makes them. -/
def calls (session : String) : Plugin.Move → Bool
  | .accept other .. => decide (other = session)
  | _ => false

/-- One section of one thread. -/
def perform (w : Link) : LinkMove → Option Link
  | .create ready registered interface version event payload related =>
    let taken := if w.sequence < 2 ^ 64 - 1 then some w.sequence else none
    some { w with
      sequence := if w.sequence < 2 ^ 64 - 1 then w.sequence + 1 else w.sequence
      waiting := w.waiting ++
        [⟨ready, registered, taken, interface, version, event, payload, related⟩] }
  | .poll k =>
    match w.waiting[k]? with
    | none => none
    | some f =>
      let w := { w with waiting := w.waiting.eraseIdx k }
      match f.params w.session with
      | .error _ => some w
      | .ok v => (w.out.perform serialize (.notify "system.event" v)).map fun out =>
        { w with out := out }
  | .drop k => some { w with waiting := w.waiting.eraseIdx k }
  | .out m =>
    if emits m then none
    else (w.out.perform serialize m).map fun out =>
      { w with out := out, emitted := w.emitted ++ (w.queues m).toList }
  | .receive contracts limit =>
    if w.stopped || (w.hub.accepts w.session).isSome then none
    else
      match w.out.written[w.read]? with
      | none => none
      | some m =>
        match eventParams m with
        | none => some { w with read := w.read + 1 }
        | some params =>
          match normalizeValue limit 1 params with
          | .error _ => none
          | .ok v => (w.hub.perform serialize (.accept w.session contracts v)).map fun hub =>
            { w with hub := hub, read := w.read + 1 }
  | .hub m =>
    if calls w.session m then none
    else (w.hub.perform serialize m).map fun hub => { w with hub := hub }

/-- Several sections in a row. -/
def performAll (w : Link) : List LinkMove → Option Link
  | [] => some w
  | m :: rest => (w.perform serialize m).bind fun w => w.performAll rest

/-- A future that sends is first polled while no higher number is queued, and an event is put
into the queue while no `emit` with a lower number is inside `notify`. -/
def Orderly (w : Link) : LinkMove → Prop
  | .poll k => ∀ f v n, w.waiting[k]? = some f → f.params w.session = .ok v →
      f.number = some n → ∀ m ∈ w.emitted, m < n
  | .out m => ∀ n, w.queues m = some n → ∀ k ∈ sendNumbers w.out, n ≤ k
  | _ => True

/-- The runs of a link, whose sections are all of one kind. -/
def Runs (Allowed : Link → LinkMove → Prop) (w : Link) : Prop :=
  Reachable (fun w => ∃ session side limits maxEvents maxBytes, limits.Valid ∧
      w = new session side limits maxEvents maxBytes)
    (fun w w' => ∃ m, Allowed w m ∧ w.perform serialize m = some w') w

end Link

/-! ## What a section does to the events -/

/-- What a section does to the events, when it puts `queued` into the event queue. -/
structure Advances (w w' : Outbound) (queued : Option Nat) : Prop where
  sublist : (eventNumbers w').Sublist (eventNumbers w ++ queued.toList)
  kept : w'.writer.ended = true ∨ eventNumbers w' = eventNumbers w ++ queued.toList
  sends : (queued.toList ++ sendNumbers w').Subperm (sendNumbers w)

section Advances

variable {serialize : Serializer} {w w' : Outbound}

@[simp] theorem frameNumbers_nil : frameNumbers [] = [] := rfl

theorem frameNumbers_append (l l' : List QueuedFrame) :
    frameNumbers (l ++ l') = frameNumbers l ++ frameNumbers l' :=
  filterMap_append

theorem frameNumbers_cons (f : QueuedFrame) (l : List QueuedFrame) :
    frameNumbers (f :: l) = frameNumbers [f] ++ frameNumbers l :=
  frameNumbers_append [f] l

theorem frameNumbers_some (m : Message) (data : List UInt8) :
    frameNumbers [⟨some m, data⟩] = (number m).toList := by
  cases h : number m <;> simp [frameNumbers, h]

theorem frameNumbers_one (f : QueuedFrame) :
    frameNumbers [f] = f.message.toList.filterMap number := by
  obtain ⟨message, data⟩ := f
  cases message <;> rfl

/-- Frames of the first two queues have no number. -/
theorem frameNumbers_of_sorted {frames : List QueuedFrame}
    (h : Outbound.countQueue Message.isEvent frames = 0) : frameNumbers frames = [] := by
  rw [frameNumbers, filterMap_eq_nil_iff]
  intro f hf
  cases hm : f.message with
  | none => rfl
  | some m =>
    refine number_of_not_event (Bool.eq_false_iff.2 fun hevent => ?_)
    rw [Outbound.countQueue, countP_eq_zero] at h
    exact h m (mem_filterMap.2 ⟨f, hf, hm⟩) hevent

theorem advances_line (hwritten : w'.written = w.written) (hwriter : w'.writer = w.writer)
    (hevents : w'.events = w.events) : eventNumbers w' = eventNumbers w := by
  simp only [eventNumbers, hwritten, hwriter, hevents]

/-- Nothing is put into the queue or taken out of it. -/
theorem Advances.of_line (hline : eventNumbers w' = eventNumbers w)
    (hsends : (sendNumbers w').Subperm (sendNumbers w)) :
    Advances w w' none where
  sublist := by
    rw [hline, Option.toList_none, append_nil]
  kept := .inr (by rw [hline, Option.toList_none, append_nil])
  sends := hsends

variable {m : Message} {k : Nat}

theorem queue_of_number {n : Nat} (h : number m = some n) : m.queue = .events := by
  obtain ⟨v, hv, -⟩ := Option.map_eq_some_iff.1 h
  obtain ⟨-, rfl⟩ := isEvent_of_eventParams hv
  rfl

theorem advances_spares {move : Rpc.Move} (h : Outbound.Spares move w w')
    (hmove : Link.emits move = false) : Advances w w' none := by
  refine .of_line (advances_line h.written h.writer (h.queued .events)) ?_
  rcases h.sends with hsends | ⟨m, hsends, hevent⟩
  · rw [sendNumbers, hsends]
    exact List.Subperm.refl _
  · have hnone : number m = none := by
      refine number_of_not_event (Bool.eq_false_iff.2 fun hm => ?_)
      obtain ⟨method, params, rfl, rfl⟩ := hevent hm
      exact nomatch hmove.symm.trans hm
    have hskip : sendNumbers w' = sendNumbers w := by
      rw [sendNumbers, hsends]
      exact filterMap_cons_none hnone
    rw [hskip]

/-- A call of `enqueue` is one of those under way. -/
theorem sendNumbers_perm {s : Send} (hs : w.sends[k]? = some s) :
    ((number s.message).toList ++ (w.sends.eraseIdx k).filterMap fun s => number s.message).Perm
      (sendNumbers w) := by
  obtain ⟨hlt, heq⟩ := List.getElem?_eq_some_iff.1 hs
  have hperm := (getElem_cons_eraseIdx_perm hlt).filterMap fun s => number s.message
  rw [heq] at hperm
  have hcons : (s :: w.sends.eraseIdx k).filterMap (fun s => number s.message) =
      (number s.message).toList ++ (w.sends.eraseIdx k).filterMap fun s => number s.message := by
    cases hnumber : number s.message with
    | none => exact filterMap_cons_none hnumber
    | some n => exact filterMap_cons_some hnumber
  rw [hcons] at hperm
  exact hperm

theorem sendNumbers_cons (s : Send) (l : List Send) (h : w.sends = s :: l) :
    sendNumbers w = (number s.message).toList ++ l.filterMap fun s => number s.message := by
  rw [sendNumbers, h]
  cases hnumber : number s.message with
  | none => exact filterMap_cons_none hnumber
  | some n => exact filterMap_cons_some hnumber

theorem advances_proceed {stage next : SendStage} (hs : w.sends[k]? = some ⟨m, stage⟩) :
    Advances w (w.proceed k ⟨m, next⟩) none := by
  refine .of_line rfl ?_
  rw [sendNumbers_cons ⟨m, next⟩ (w.sends.eraseIdx k) rfl]
  exact (sendNumbers_perm hs).subperm

theorem sendNumbers_eraseIdx {v : Outbound} (h : v.sends = w.sends.eraseIdx k) :
    (sendNumbers v).Subperm (sendNumbers w) := by
  rw [sendNumbers, h]
  exact ((eraseIdx_sublist ..).filterMap _).subperm

theorem advances_ends (h : Outbound.Ends k w w') : Advances w w' none :=
  .of_line (advances_line h.written h.writer (h.queued .events)) (sendNumbers_eraseIdx h.sends)

/-- A frame goes into its queue. -/
theorem advances_push {data : List UInt8} (hs : w.sends[k]? = some ⟨m, .reserved data⟩) :
    Advances w ((w.setQueue m.queue (w.queued m.queue ++ [⟨some m, data⟩])).sendDone k m)
      (number m) := by
  have hends := Outbound.ends_sendDone k m
    (w := w.setQueue m.queue (w.queued m.queue ++ [⟨some m, data⟩]))
  have hline : eventNumbers ((w.setQueue m.queue
      (w.queued m.queue ++ [⟨some m, data⟩])).sendDone k m) =
        eventNumbers w ++ (number m).toList := by
    rw [advances_line hends.written hends.writer (hends.queued .events)]
    cases hnumber : number m with
    | none =>
      rw [Option.toList_none, append_nil]
      cases hqueue : m.queue with
      | events =>
        simp only [eventNumbers, Outbound.setQueue, Outbound.queued, frameNumbers_append,
          frameNumbers_some, hnumber, Option.toList_none, append_nil]
      | _ => rfl
    | some n =>
      rw [queue_of_number hnumber]
      simp only [eventNumbers, Outbound.setQueue, Outbound.queued, frameNumbers_append,
        frameNumbers_some, hnumber, append_assoc]
  have hsends : sendNumbers ((w.setQueue m.queue
      (w.queued m.queue ++ [⟨some m, data⟩])).sendDone k m) =
        (w.sends.eraseIdx k).filterMap fun s => number s.message := by
    rw [sendNumbers, hends.sends, Outbound.sends_setQueue]
  refine ⟨by rw [hline], .inr hline, ?_⟩
  rw [hsends]
  exact (sendNumbers_perm hs).subperm

/-- A section of `enqueue`. -/
theorem advances_advance {v : Link} (hv : v.out = w) {s : Send} (hs : w.sends[k]? = some s) :
    Advances w (w.advance serialize k s) (v.queues (.advance k)) := by
  subst hv
  obtain ⟨m, stage⟩ := s
  cases stage with
  | entered =>
    simp only [Link.queues, hs]
    cases hclosed : v.out.closed with
    | true =>
      simp only [Outbound.advance, hclosed, if_true]
      exact advances_ends (Outbound.ends_sendFailed k m)
    | false =>
      simp only [Outbound.advance, hclosed, Bool.false_eq_true, if_false]
      exact advances_proceed hs
  | passed =>
    simp only [Link.queues, hs]
    cases hencode : v.out.encode serialize m with
    | error e =>
      simp only [Outbound.advance, hencode]
      exact advances_ends (Outbound.ends_sendFailed k m)
    | ok data =>
      simp only [Outbound.advance, hencode]
      exact advances_proceed hs
  | encoded data max =>
    simp only [Link.queues, hs]
    by_cases hfits : v.out.bytes + data.length ≤ max
    · simp only [Outbound.advance, hfits, if_true]
      exact .of_line rfl (advances_proceed hs).sends
    · simp only [Outbound.advance, hfits, if_false]
      exact advances_ends (Outbound.ends_sendFailed k m)
  | reserved data =>
    cases hrefusal : v.out.refusal m.queue with
    | some e =>
      simp only [Link.queues, hs, hrefusal, Outbound.advance, reduceCtorEq, if_false]
      exact advances_proceed hs
    | none =>
      simp only [Link.queues, hs, hrefusal, Outbound.advance, if_true]
      exact advances_push hs
  | refused data e =>
    simp only [Link.queues, hs, Outbound.advance]
    have hends := Outbound.ends_sendFailed (w := v.out) k m
    exact .of_line (advances_line hends.written hends.writer (hends.queued .events))
      (sendNumbers_eraseIdx hends.sends)

theorem advances_writer (hsorted : w.Sorted) (h : Outbound.WriterStep w w') :
    Advances w w' none := by
  have hnothing (hsends : w'.sends = w.sends) (hsub : (eventNumbers w').Sublist (eventNumbers w))
      (hkept : w'.writer.ended = true ∨ eventNumbers w' = eventNumbers w) :
      Advances w w' none := by
    refine ⟨?_, ?_, ?_⟩
    · rw [Option.toList_none, append_nil]
      exact hsub
    · rw [Option.toList_none, append_nil]
      exact hkept
    · rw [sendNumbers, hsends]
      exact List.Subperm.refl _
  have hsame (hsends : w'.sends = w.sends) (heq : eventNumbers w' = eventNumbers w) :
      Advances w w' none :=
    hnothing hsends (by rw [heq]) (.inr heq)
  cases h with
  | sample hw | leave events hw | again events hw hchanged | arm events hw hchanged
  | controlEmpty events hw hc | park events hw | hangUp hw | pass f hw hpending =>
    exact hsame rfl (by simp only [eventNumbers, hw, Writer.carried])
  | takeControl events f rest hw hc =>
    refine hsame rfl ?_
    have hnone : frameNumbers [f] = [] := by
      have hzero := hsorted.1
      rw [hc, Outbound.countQueue_cons] at hzero
      exact frameNumbers_of_sorted (by omega)
    simp only [eventNumbers, hw, Writer.carried, Option.toList_some, Option.toList_none, hnone,
      frameNumbers_nil]
  | takeBusiness events f rest hw hc =>
    refine hsame rfl ?_
    have hnone : frameNumbers [f] = [] := by
      have hzero := hsorted.2
      rw [hc, Outbound.countQueue_cons] at hzero
      exact frameNumbers_of_sorted (by omega)
    simp only [eventNumbers, hw, Writer.carried, Option.toList_some, Option.toList_none, hnone,
      frameNumbers_nil]
  | takeEvent f rest hw hc =>
    refine hsame rfl ?_
    simp only [eventNumbers, hw, hc, Writer.carried, Option.toList_some, Option.toList_none,
      frameNumbers_nil, append_nil, append_assoc]
    rw [← frameNumbers_cons]
  | skip f hw hrequest =>
    obtain ⟨id, method, params, hmessage⟩ := hrequest
    refine hsame rfl ?_
    have hnone : frameNumbers [f] = [] := by
      rw [frameNumbers_one, hmessage]
      rfl
    simp only [eventNumbers, hw, Writer.carried, Option.toList_some, Option.toList_none, hnone,
      frameNumbers_nil]
  | wrote f hw =>
    refine hsame rfl ?_
    simp only [eventNumbers, hw, Writer.carried, Option.toList_some, Option.toList_none,
      frameNumbers_one, frameNumbers_nil, append_nil, filterMap_append]
  | interrupt f hw | fail f hw =>
    refine hnothing rfl ?_ (.inl rfl)
    simp only [eventNumbers, hw, Writer.carried, Option.toList_some, Option.toList_none,
      frameNumbers_nil, append_nil]
    exact (sublist_append_left _ _).append (List.Sublist.refl _)
  | drop f ends hw =>
    refine hsame rfl ?_
    cases ends <;> simp [eventNumbers, hw, Writer.carried]
  | discard q f rest hw hq =>
    refine hnothing (Outbound.sends_setQueue q rest) ?_ (.inl ?_)
    · cases q with
      | events =>
        have hevents : w.events = f :: rest := hq
        simp only [eventNumbers, Outbound.setQueue, hevents]
        refine (List.Sublist.refl _).append ?_
        rw [frameNumbers_cons f rest]
        exact sublist_append_right _ _
      | _ => exact List.Sublist.refl _
    · cases q <;>
      · simp only [Outbound.setQueue, hw]
        rfl

end Advances

section Perform

variable {serialize : Serializer} {w : Link} {out : Outbound} {m : Rpc.Move}

theorem queues_eq_none (h : ∀ k, m ≠ .advance k) : w.queues m = none := by
  cases m with
  | advance k => exact absurd rfl (h k)
  | _ => rfl

/-- A section that sends no event. -/
theorem advances_perform (hsorted : w.out.Sorted) (hemits : Link.emits m = false)
    (h : w.out.perform serialize m = some out) : Advances w.out out (w.queues m) := by
  by_cases hadvance : ∃ k, m = .advance k
  · obtain ⟨k, rfl⟩ := hadvance
    cases hs : w.out.sends[k]? with
    | none =>
      simp only [Outbound.perform, Outbound.performCall, Outbound.performShared,
        Outbound.performWriter, hs, Option.or_none, reduceCtorEq] at h
    | some s =>
      rw [Outbound.perform_advance hs] at h
      cases h
      exact advances_advance rfl hs
  · rw [not_exists] at hadvance
    rw [queues_eq_none hadvance]
    rcases Outbound.perform_cases h with h | h | h
    · exact advances_spares (Outbound.spares_performCall h) hemits
    · rcases Outbound.spares_performShared h with hspares | ⟨k, s, heq, -⟩ | rfl
      · exact advances_spares hspares hemits
      · exact absurd heq (hadvance k)
      · exact .of_line rfl (List.Subperm.refl _)
    · exact advances_writer hsorted (Outbound.writerStep_performWriter h)

theorem ended_perform {w w' : Outbound} (hended : w.writer.ended = true)
    (h : w.perform serialize m = some w') : w'.writer.ended = true := by
  rcases Outbound.perform_cases h with h | h | h
  · rw [(Outbound.still_performCall h).1]
    exact hended
  · rw [(Outbound.still_performShared h).1]
    exact hended
  · exact Outbound.ended_performWriter hended h

theorem perform_notify {w : Outbound} (v : Json) :
    w.perform serialize (.notify "system.event" v) =
      some (w.send (.notification "system.event" v)) := by
  simp [Outbound.perform, Outbound.performCall, Outbound.performShared]

theorem number_event (v : Json) :
    number (.notification "system.event" v) = some ((readSequence (field v "sequence")).getD 0) :=
  rfl

end Perform

/-! ## The order of the events -/

/-- The numbers that have been taken, and not sent. -/
def takenNumbers (waiting : List Emission) : List Nat := waiting.filterMap Emission.number

/-- Events are queued in the order of their numbers. -/
structure InLine (serialize : Serializer) (w : Link) : Prop where
  runs : w.out.Runs serialize
  sequence : 0 < w.sequence ∧ w.sequence < 2 ^ 64
  unique : (takenNumbers w.waiting ++ sendNumbers w.out).Nodup
  taken : ∀ n ∈ takenNumbers w.waiting ++ sendNumbers w.out, 0 < n ∧ n < w.sequence
  order : (eventNumbers w.out).Pairwise (· < ·)
  queued : ∀ n ∈ eventNumbers w.out, n ∈ w.emitted
  /-- What is inside `notify` comes after what is queued. -/
  ahead : ∀ m ∈ w.emitted, ∀ n ∈ sendNumbers w.out, m < n
  positive : ∀ n ∈ w.emitted, 0 < n
  kept : ∀ n ∈ w.emitted, n ∈ eventNumbers w.out ∨ w.out.writer.ended = true

section InLine

variable {serialize : Serializer} {w w' : Link}

theorem nodup_subperm {l l' : List Nat} (h : l.Subperm l') (hnodup : l'.Nodup) : l.Nodup := by
  obtain ⟨l₁, hperm, hsub⟩ := h
  exact hperm.nodup_iff.1 (hnodup.sublist hsub)

theorem takenNumbers_append (l l' : List Emission) :
    takenNumbers (l ++ l') = takenNumbers l ++ takenNumbers l' :=
  filterMap_append

theorem takenNumbers_eraseIdx (l : List Emission) (k : Nat) :
    (takenNumbers (l.eraseIdx k)).Sublist (takenNumbers l) :=
  (eraseIdx_sublist ..).filterMap _

section

variable (h : InLine serialize w)

include h

/-- Only the numbers that wait and those inside `notify` change. -/
theorem InLine.resume (hout : w'.out = w.out) (hemitted : w'.emitted = w.emitted)
    (hsequence : w'.sequence = w.sequence)
    (hwaiting : (takenNumbers w'.waiting).Sublist (takenNumbers w.waiting)) :
    InLine serialize w' := by
  have hsub : (takenNumbers w'.waiting ++ sendNumbers w'.out).Sublist
      (takenNumbers w.waiting ++ sendNumbers w.out) := by
    rw [hout]
    exact hwaiting.append (List.Sublist.refl _)
  refine ⟨hout ▸ h.runs, hsequence ▸ h.sequence, h.unique.sublist hsub, fun n hn => ?_, ?_, ?_,
    ?_, ?_, ?_⟩
  · rw [hsequence]
    exact h.taken n (hsub.subset hn)
  · rw [hout]
    exact h.order
  · rw [hout, hemitted]
    exact h.queued
  · rw [hout, hemitted]
    exact h.ahead
  · rw [hemitted]
    exact h.positive
  · rw [hout, hemitted]
    exact h.kept

omit h in
theorem inLine_new (session : String) (side : Char) {limits : Limits} (hvalid : limits.Valid)
    (maxEvents maxBytes : Nat) :
    InLine serialize (Link.new session side limits maxEvents maxBytes) where
  runs := .start ⟨session, side, limits, hvalid, rfl⟩
  sequence := ⟨Nat.one_pos, by simp only [Link.new]; decide⟩
  unique := .nil
  taken n hn := nomatch hn
  order := .nil
  queued n hn := nomatch hn
  ahead m hm := nomatch hm
  positive n hn := nomatch hn
  kept n hn := nomatch hn

theorem InLine.create {ready registered : Bool} {interface version event : String} {payload : Json}
    {related : Option String}
    (hm : w.perform serialize
      (.create ready registered interface version event payload related) = some w') :
    InLine serialize w' := by
  cases hm
  by_cases hroom : w.sequence < 2 ^ 64 - 1
  · have htaken : takenNumbers (w.waiting ++ [⟨ready, registered, some w.sequence, interface,
        version, event, payload, related⟩]) = takenNumbers w.waiting ++ [w.sequence] :=
      takenNumbers_append _ _
    simp only [hroom, if_true]
    refine ⟨h.runs, ⟨Nat.succ_pos _, by dsimp only; omega⟩, ?_, fun n hn => ?_, h.order, h.queued,
      h.ahead, h.positive, h.kept⟩
    · rw [htaken, append_assoc, singleton_append]
      refine (perm_middle.nodup_iff).2 (nodup_cons.2 ⟨fun hmem => ?_, h.unique⟩)
      exact absurd (h.taken _ hmem).2 (Nat.lt_irrefl _)
    · dsimp only at hn ⊢
      rw [htaken, append_assoc, singleton_append] at hn
      rcases mem_cons.1 (perm_middle.mem_iff.1 hn) with rfl | hn
      · exact ⟨h.sequence.1, Nat.lt_succ_self _⟩
      · exact ⟨(h.taken n hn).1, Nat.lt_succ_of_lt (h.taken n hn).2⟩
  · simp only [hroom, if_false]
    refine h.resume rfl rfl rfl ?_
    rw [takenNumbers_append]
    exact (append_nil (takenNumbers w.waiting)).symm ▸ List.Sublist.refl _

/-- A future is polled. -/
theorem InLine.poll {k : Nat} (horderly : Link.Orderly w (.poll k))
    (hm : w.perform serialize (.poll k) = some w') : InLine serialize w' := by
  simp only [Link.perform] at hm
  cases hf : w.waiting[k]? with
  | none => simp only [hf, reduceCtorEq] at hm
  | some f =>
    simp only [hf] at hm
    have herased := takenNumbers_eraseIdx w.waiting k
    cases hparams : f.params w.session with
    | error e =>
      simp only [hparams] at hm
      cases hm
      exact h.resume rfl rfl rfl herased
    | ok v =>
      simp only [hparams, perform_notify, Option.map_some] at hm
      cases hm
      obtain ⟨n, hnumber, hfield⟩ := params_ok hparams
      obtain ⟨hlt, heq⟩ := List.getElem?_eq_some_iff.1 hf
      -- its number has left the futures, and is inside `notify`
      have htaken : (n :: takenNumbers (w.waiting.eraseIdx k)).Perm (takenNumbers w.waiting) := by
        have hperm := (getElem_cons_eraseIdx_perm hlt).filterMap Emission.number
        rw [heq, filterMap_cons_some hnumber] at hperm
        exact hperm
      obtain ⟨hpos, hbound⟩ := h.taken n
        (mem_append_left _ (htaken.mem_iff.1 mem_cons_self))
      have hsends : sendNumbers (w.out.send (.notification "system.event" v)) =
          n :: sendNumbers w.out := by
        rw [sendNumbers_cons _ _ rfl, number_event, hfield,
          readSequence_toString hpos (Nat.lt_trans hbound h.sequence.2)]
        rfl
      have hall : (takenNumbers (w.waiting.eraseIdx k) ++
          sendNumbers (w.out.send (.notification "system.event" v))).Perm
            (takenNumbers w.waiting ++ sendNumbers w.out) := by
        rw [hsends]
        exact perm_middle.trans (htaken.append_right _)
      refine ⟨h.runs.next ⟨_, perform_notify v⟩, h.sequence, hall.nodup_iff.2 h.unique,
        fun k hk => h.taken k (hall.mem_iff.1 hk), h.order, h.queued, fun m hm k hk => ?_,
        h.positive, h.kept⟩
      dsimp only at hk
      rw [hsends] at hk
      rcases mem_cons.1 hk with rfl | hk
      · exact horderly f v k hf hparams hnumber m hm
      · exact h.ahead m hm k hk

/-- A section of the peer. -/
theorem InLine.out {m : Rpc.Move} (horderly : Link.Orderly w (.out m))
    (hm : w.perform serialize (.out m) = some w') : InLine serialize w' := by
  simp only [Link.perform] at hm
  cases hemits : Link.emits m with
  | true => simp only [hemits, if_true, reduceCtorEq] at hm
  | false =>
    simp only [hemits, Bool.false_eq_true, if_false] at hm
    obtain ⟨out, hout, rfl⟩ := Option.map_eq_some_iff.1 hm
    obtain ⟨hsublist, hkept, hsends⟩ := advances_perform h.runs.sorted.1 hemits hout
    have hqueued : ∀ n ∈ (w.queues m).toList, n ∈ sendNumbers w.out := fun n hn =>
      hsends.subset (mem_append_left _ hn)
    have hstill : (sendNumbers out).Subperm (sendNumbers w.out) :=
      (sublist_append_right _ _).subperm.trans hsends
    have hall : (takenNumbers w.waiting ++ sendNumbers out).Subperm
        (takenNumbers w.waiting ++ sendNumbers w.out) :=
      List.Subperm.append (List.Subperm.refl _) hstill
    refine ⟨h.runs.next ⟨m, hout⟩, h.sequence, nodup_subperm hall h.unique,
      fun n hn => h.taken n (hall.subset hn), ?_, fun n hn => ?_, fun n hn k hk => ?_,
      fun n hn => ?_, fun n hn => ?_⟩
    · refine List.Pairwise.sublist hsublist (pairwise_append.2 ⟨h.order, ?_, ?_⟩)
      · cases w.queues m with
        | none => exact .nil
        | some n => exact pairwise_singleton _ _
      · exact fun n hn k hk => h.ahead n (h.queued n hn) k (hqueued k hk)
    · rcases mem_append.1 (hsublist.subset hn) with hn | hn
      · exact mem_append_left _ (h.queued n hn)
      · exact mem_append_right _ hn
    · rcases mem_append.1 hn with hn | hn
      · exact h.ahead n hn k (hstill.subset hk)
      · -- the one that is queued was the lowest, and is not there twice
        have heq : w.queues m = some n := Option.mem_toList.1 hn
        have hle : n ≤ k := horderly n heq k (hstill.subset hk)
        have hnodup : ((w.queues m).toList ++ sendNumbers out).Nodup :=
          nodup_subperm hsends (h.unique.sublist (sublist_append_right _ _))
        exact Nat.lt_of_le_of_ne hle ((nodup_append.1 hnodup).2.2 n hn k hk)
    · rcases mem_append.1 hn with hn | hn
      · exact h.positive n hn
      · exact (h.taken n (mem_append_right _ (hqueued n hn))).1
    · rcases hkept with hended | hline
      · exact .inr hended
      · dsimp only at hn ⊢
        rw [hline]
        rcases mem_append.1 hn with hn | hn
        · exact (h.kept n hn).imp (mem_append_left _) fun hended =>
            ended_perform hended hout
        · exact .inl (mem_append_right _ hn)

theorem InLine.next {m : LinkMove} (horderly : Link.Orderly w m)
    (hm : w.perform serialize m = some w') : InLine serialize w' := by
  cases m with
  | create => exact h.create hm
  | poll k => exact h.poll horderly hm
  | drop k =>
    cases hm
    exact h.resume rfl rfl rfl (takenNumbers_eraseIdx w.waiting k)
  | out m => exact h.out horderly hm
  | receive contracts limit =>
    simp only [Link.perform] at hm
    split at hm
    · cases hm
    · split at hm
      · cases hm
      · split at hm
        · cases hm
          exact h.resume rfl rfl rfl (List.Sublist.refl _)
        · split at hm
          · cases hm
          · obtain ⟨hub, -, rfl⟩ := Option.map_eq_some_iff.1 hm
            exact h.resume rfl rfl rfl (List.Sublist.refl _)
  | hub m =>
    simp only [Link.perform] at hm
    split at hm
    · cases hm
    · obtain ⟨hub, -, rfl⟩ := Option.map_eq_some_iff.1 hm
      exact h.resume rfl rfl rfl (List.Sublist.refl _)

end

end InLine

/-! ## What the receiver has read -/

/-- The number that a call of `accept` will look at. -/
def AcceptStage.number : AcceptStage → Option Nat
  | entered _ value => some ((readSequence (field value "sequence")).getD 0)
  | numbered e => some e.sequence
  | _ => none

namespace Hub

/-- The number of the event that a session's reader is about to check. -/
def pending (w : Hub) (session : String) : Option Nat :=
  (w.accepts session).bind AcceptStage.number

/-- What a section does to the numbers of one session, other than a new call of `accept`. -/
structure Keeps (session : String) (w w' : Hub) : Prop where
  last : w'.last session = w.last session ∨ w'.last session = none ∨
    w'.last session = w.pending session
  pending : w'.pending session = none ∨ (w'.pending session = w.pending session ∧
    (w'.last session = w.last session ∨ w'.last session = none))

variable {serialize : Serializer} {session : String} {w w' : Hub}

theorem Keeps.same (hlast : w'.last = w.last) (haccepts : w'.accepts = w.accepts) :
    Keeps session w w' := by
  have hpending : w'.pending session = w.pending session := by
    rw [Hub.pending, haccepts]
    rfl
  exact ⟨.inl (by rw [hlast]), .inr ⟨hpending, .inl (by rw [hlast])⟩⟩

theorem Keeps.forget (hlast : w'.last = PMap.empty) (haccepts : w'.accepts = w.accepts) :
    Keeps session w w' := by
  have hpending : w'.pending session = w.pending session := by
    rw [Hub.pending, haccepts]
    rfl
  exact ⟨.inr (.inl (by rw [hlast]; rfl)), .inr ⟨hpending, .inr (by rw [hlast]; rfl)⟩⟩

theorem Keeps.trans_same {v : Hub} (h : Keeps session w v) (hlast : w'.last = v.last)
    (haccepts : w'.accepts = v.accepts) : Keeps session w w' := by
  have hpending : w'.pending session = v.pending session := by
    rw [Hub.pending, haccepts]
    rfl
  refine ⟨?_, ?_⟩
  · rw [hlast]
    exact h.last
  · rw [hlast, hpending]
    exact h.pending

/-- One call of `accept` moves on, to where it has no number or the same one. -/
theorem Keeps.move (other : String) (hlast : w'.last session = w.last session)
    (helse : ∀ s, s ≠ other → w'.accepts s = w.accepts s)
    (hnumber : w'.pending other = none ∨ w'.pending other = w.pending other) :
    Keeps session w w' := by
  refine ⟨.inl hlast, ?_⟩
  by_cases h : session = other
  · subst h
    exact hnumber.imp_right fun hnumber => ⟨hnumber, .inl hlast⟩
  · exact .inr ⟨by rw [Hub.pending, helse session h]; rfl, .inl hlast⟩

theorem keeps_answer (w : Hub) (other : String) (r : Except RpcError Unit) :
    Keeps session w (w.answer other r) :=
  .move other rfl (fun _ h => PMap.erase_of_ne h)
    (.inl (by simp only [Hub.pending, answer, PMap.erase_self, Option.bind_none]))

theorem keeps_setAccept (other : String) (stage : AcceptStage)
    (hstage : stage.number = none ∨ stage.number = w.pending other) :
    Keeps session w (w.setAccept other stage) :=
  .move other rfl (fun _ h => PMap.insert_of_ne h)
    (by
      have hpending : (w.setAccept other stage).pending other = stage.number := by
        simp only [Hub.pending, setAccept, PMap.insert_self, Option.bind_some]
      rw [hpending]
      exact hstage)

/-- The number of an event is recorded, and its call goes on without one. -/
theorem keeps_record (other : String) (e : Event) (hcall : w.accepts other = some (.numbered e))
    (hlast : w'.last = w.last.insert other e.sequence)
    (helse : ∀ s, s ≠ other → w'.accepts s = w.accepts s) (hnumber : w'.pending other = none) :
    Keeps session w w' := by
  by_cases h : session = other
  · subst h
    refine ⟨.inr (.inr ?_), .inl hnumber⟩
    rw [hlast, PMap.insert_self, Hub.pending, hcall]
    rfl
  · have hsame : w'.last session = w.last session := by
      rw [hlast, PMap.insert_of_ne h]
    exact ⟨.inl hsame, .inr ⟨by rw [Hub.pending, helse session h]; rfl, .inl hsame⟩⟩

theorem last_offer (x : Nat) (s : Subscription) (e : Event) (size : Nat) :
    (w.offer x s e size).last = w.last := by
  unfold offer
  split
  · rfl
  · split <;> rfl

theorem accepts_offer (x : Nat) (s : Subscription) (e : Event) (size : Nat) :
    (w.offer x s e size).accepts = w.accepts := by
  unfold offer
  split
  · rfl
  · split <;> rfl

/-- An event that `accept` has read has the number it came with. -/
theorem sequence_readEvent {contracts : String → Option Contract} {value : Json} {e : Event}
    (h : readEvent session contracts value = .ok e) :
    e.sequence = (readSequence (field value "sequence")).getD 0 := by
  unfold readEvent at h
  dsimp only at h
  split at h
  · cases h
  · split at h
    · cases h
    · split at h
      · cases h
      · split at h
        · cases h
        · rename_i n hread
          cases h
          rw [hread]
          rfl

theorem keeps_performAccept {m : Move} (hcalls : Link.calls session m = false)
    (h : w.performAccept serialize m = some w') : Keeps session w w' := by
  cases m with
  | accept other contracts value =>
    have hne : session ≠ other := fun heq =>
      nomatch hcalls.symm.trans (decide_eq_true heq.symm)
    have hother {w' : Hub} (hlast : w'.last = w.last)
        (helse : ∀ s, s ≠ other → w'.accepts s = w.accepts s) : Keeps session w w' :=
      ⟨.inl (by rw [hlast]), .inr ⟨by rw [Hub.pending, helse session hne]; rfl,
        .inl (by rw [hlast])⟩⟩
    simp only [performAccept] at h
    split at h
    · cases h
    · split at h
      · cases h
        exact keeps_answer w other _
      · split at h <;> cases h
        · exact keeps_answer w other _
        · exact hother rfl fun _ h => PMap.insert_of_ne h
  | validate other =>
    simp only [performAccept] at h
    split at h
    · rename_i contracts value hcall
      split at h
      · cases h
        exact keeps_answer w other _
      · split at h
        · cases h
          exact keeps_answer w other _
        · rename_i e hread
          cases h
          refine keeps_setAccept other _ (.inr ?_)
          rw [Hub.pending, hcall]
          exact congrArg some (sequence_readEvent hread)
    · cases h
  | record other =>
    simp only [performAccept] at h
    split at h
    · rename_i e hcall
      split at h
      · cases h
        exact keeps_answer w other _
      · split at h <;> cases h
        · refine keeps_record other e hcall rfl (fun _ h => PMap.erase_of_ne h) ?_
          simp only [Hub.pending, answer, PMap.erase_self, Option.bind_none]
        · refine keeps_record other e hcall rfl (fun _ h => PMap.insert_of_ne h) ?_
          simp only [Hub.pending, setAccept, PMap.insert_self, Option.bind_some, AcceptStage.number]
    · cases h
  | lock other =>
    simp only [performAccept] at h
    split at h
    · cases h
      refine .move other rfl (fun _ h => PMap.insert_of_ne h) (.inl ?_)
      simp only [Hub.pending, setAccept, PMap.insert_self, Option.bind_some, AcceptStage.number]
    · cases h
  | recheck =>
    simp only [performAccept] at h
    split at h
    · rename_i other e size hholder
      split at h <;> cases h
      · exact .trans_same (keeps_answer w other (.error replacedErr)) rfl rfl
      · exact .same rfl rfl
    · cases h
  | deliver =>
    simp only [performAccept] at h
    split at h
    · rename_i other e size x rest hholder
      split at h <;> cases h
      exact .same (last_offer ..) (accepts_offer ..)
    · rename_i other e size hholder
      cases h
      exact .trans_same (keeps_answer w other (.ok ())) rfl rfl
    · cases h
  | _ => cases h

/-- A section that is no new call of `accept` for the session. -/
theorem keeps_perform {m : Move} (hcalls : Link.calls session m = false)
    (h : w.perform serialize m = some w') : Keeps session w w' := by
  unfold perform at h
  rcases Option.or_eq_some_iff.1 h with h | ⟨-, h⟩
  · rcases Option.or_eq_some_iff.1 h with h | ⟨-, h⟩
    · rcases Option.or_eq_some_iff.1 h with h | ⟨-, h⟩
      · exact keeps_performAccept hcalls h
      · cases activateStep_performActivate h with
        | clear k other hcall => exact .forget rfl rfl
        | _ => exact .same rfl rfl
    · cases subStep_performSub h with
      | _ => exact .same rfl rfl
  · cases closeStep_performClose h with
    | clear n hclearing => exact .forget rfl rfl
    | _ => exact .same rfl rfl

end Hub

/-! ## Numbers in normal form -/

theorem ok_of_map {α β : Type} {f : α → β} {x : Except RpcError α} {b : β}
    (h : x.map f = .ok b) : ∃ a, x = .ok a ∧ f a = b := by
  cases x with
  | error e => cases h
  | ok a =>
    cases h
    exact ⟨a, rfl, rfl⟩

variable {limit depth : Nat} {v v' : Json}

/-- Only numbers are changed, and what is in arrays and objects. -/
theorem normalizeValue_cases (h : normalizeValue limit depth v = .ok v') :
    v' = v ∨ (∃ n n', v = .number n ∧ v' = .number n') ∨
      (∃ items items', v = .array items ∧ v' = .array items') ∨
      ∃ fields fields', v = .object fields ∧ v' = .object fields' ∧
        normalizeFields limit (depth + 1) fields = .ok fields' := by
  cases v with
  | number n =>
    simp only [normalizeValue] at h
    split at h
    · cases h
    · obtain ⟨n', -, rfl⟩ := ok_of_map h
      exact .inr (.inl ⟨n, n', rfl, rfl⟩)
  | array items =>
    simp only [normalizeValue] at h
    split at h
    · cases h
    · obtain ⟨items', -, rfl⟩ := ok_of_map h
      exact .inr (.inr (.inl ⟨items, items', rfl, rfl⟩))
  | object fields =>
    simp only [normalizeValue] at h
    split at h
    · cases h
    · obtain ⟨fields', hfields, rfl⟩ := ok_of_map h
      exact .inr (.inr (.inr ⟨fields, fields', rfl, rfl, hfields⟩))
  | _ =>
    simp only [normalizeValue] at h
    split at h <;> cases h
    exact .inl rfl

theorem readSequence_normalizeValue (h : normalizeValue limit depth v = .ok v') :
    readSequence v' = readSequence v := by
  rcases normalizeValue_cases h with rfl | ⟨n, n', rfl, rfl⟩ | ⟨items, items', rfl, rfl⟩ |
    ⟨fields, fields', rfl, rfl, -⟩ <;> rfl

theorem readSequence_normalizeFields (key : String) {fields fields' : List (String × Json)}
    (h : normalizeFields limit depth fields = .ok fields') :
    readSequence (field (.object fields') key) = readSequence (field (.object fields) key) := by
  induction fields generalizing fields' with
  | nil =>
    cases h
    rfl
  | cons first rest ih =>
    obtain ⟨k, v⟩ := first
    simp only [normalizeFields] at h
    cases hv : normalizeValue limit depth v with
    | error e =>
      rw [hv] at h
      cases h
    | ok v' =>
      cases hrest : normalizeFields limit depth rest with
      | error e =>
        rw [hv, hrest] at h
        cases h
      | ok rest' =>
        rw [hv, hrest] at h
        cases h
        simp only [field, lookup_cons] at ih ⊢
        cases key == k with
        | true => exact readSequence_normalizeValue hv
        | false => exact ih hrest

/-- The sequence number of an event survives the normal form. -/
theorem readSequence_field (key : String) (h : normalizeValue limit depth v = .ok v') :
    readSequence (field v' key) = readSequence (field v key) := by
  rcases normalizeValue_cases h with rfl | ⟨n, n', rfl, rfl⟩ | ⟨items, items', rfl, rfl⟩ |
    ⟨fields, fields', rfl, rfl, hfields⟩
  · rfl
  · rfl
  · rfl
  · exact readSequence_normalizeFields key hfields

/-! ## In order at the receiver -/

/-- The numbers of the events that the other endpoint has read. -/
def readNumbers (w : Link) : List Nat := (w.out.written.take w.read).filterMap number

/-- What the hub has recorded, and what it is about to, was read in order. -/
structure Received (w : Link) : Prop where
  bounded : w.read ≤ w.out.written.length
  last : ∀ n, w.hub.last w.session = some n → n ∈ readNumbers w
  pending : ∀ k, w.hub.pending w.session = some k → k ∈ readNumbers w ∧
    ∀ n, w.hub.last w.session = some n → n < k

section Received

variable {serialize : Serializer} {w w' : Link}

theorem received_new (session : String) (side : Char) (limits : Limits)
    (maxEvents maxBytes : Nat) : Received (Link.new session side limits maxEvents maxBytes) where
  bounded := Nat.le_refl 0
  last n h := by cases h
  pending k h := by cases h

/-- Nothing has happened to the hub, and what has been read stays read. -/
theorem Received.resume (h : Received w) (hsession : w'.session = w.session)
    (hhub : w'.hub = w.hub) (hread : w.read ≤ w'.read)
    (hwritten : ∃ more, w'.out.written = w.out.written ++ more)
    (hbounded : w'.read ≤ w'.out.written.length) : Received w' := by
  obtain ⟨more, hmore⟩ := hwritten
  have hkept : ∀ n ∈ readNumbers w, n ∈ readNumbers w' := by
    intro n hn
    obtain ⟨m, hm, hnumber⟩ := mem_filterMap.1 hn
    refine mem_filterMap.2 ⟨m, ?_, hnumber⟩
    have htake : w.out.written.take w.read = w'.out.written.take w.read := by
      rw [hmore, take_append_of_le_length h.bounded]
    rw [htake] at hm
    exact take_subset_take_left _ hread hm
  refine ⟨hbounded, fun n hn => ?_, fun k hk => ?_⟩
  · rw [hsession, hhub] at hn
    exact hkept n (h.last n hn)
  · rw [hsession, hhub] at hk
    obtain ⟨hmem, hlt⟩ := h.pending k hk
    refine ⟨hkept k hmem, fun n hn => ?_⟩
    rw [hsession, hhub] at hn
    exact hlt n hn

variable {hub : Hub} {contracts : String → Option Contract} {v : Json} {m : Message}

/-- A section of the hub. -/
theorem Received.keeps (h : Received w) (hkeeps : Hub.Keeps w.session w.hub hub) :
    Received { w with hub := hub } := by
  refine ⟨h.bounded, fun n hn => ?_, fun k hk => ?_⟩
  · rcases hkeeps.last with hlast | hlast | hlast
    · exact h.last n (hlast ▸ hn)
    · exact nomatch hlast.symm.trans hn
    · exact (h.pending n (hlast ▸ hn)).1
  · rcases hkeeps.pending with hnone | ⟨hsame, hlast⟩
    · exact nomatch hnone.symm.trans hk
    · obtain ⟨hmem, hlt⟩ := h.pending k (hsame ▸ hk)
      refine ⟨hmem, fun n hn => ?_⟩
      rcases hlast with hlast | hlast
      · exact hlt n (hlast ▸ hn)
      · exact nomatch hlast.symm.trans hn

/-- What a call of `accept` looks at. -/
theorem pending_accept {hub' : Hub} {session : String}
    (h : hub.perform serialize (.accept session contracts v) = some hub') :
    hub'.last = hub.last ∧ (hub'.pending session = none ∨
      hub'.pending session = some ((readSequence (field v "sequence")).getD 0)) := by
  have h : hub.performAccept serialize (.accept session contracts v) = some hub' := by
    simpa only [Hub.perform, Hub.performActivate, Hub.performSub, Hub.performClose,
      Option.or_none] using h
  simp only [Hub.performAccept] at h
  split at h
  · cases h
  · split at h
    · cases h
      exact ⟨rfl, .inl (by simp only [Hub.pending, Hub.answer, PMap.erase_self, Option.bind_none])⟩
    · split at h <;> cases h
      · exact ⟨rfl,
          .inl (by simp only [Hub.pending, Hub.answer, PMap.erase_self, Option.bind_none])⟩
      · exact ⟨rfl, .inr (by
          simp only [Hub.pending, Hub.setAccept, PMap.insert_self, Option.bind_some,
            AcceptStage.number])⟩

theorem readNumbers_succ (h : w.out.written[w.read]? = some m) :
    (w.out.written.take (w.read + 1)).filterMap number = readNumbers w ++ (number m).toList := by
  rw [take_add_one, h, filterMap_append]
  rfl

/-- An event is read. -/
theorem Received.accept (h : Received w) (hline : InLine serialize w) {params : Json}
    {limit : Nat} (hm : w.out.written[w.read]? = some m) (hparams : eventParams m = some params)
    (hv : normalizeValue limit 1 params = .ok v)
    (hhub : w.hub.perform serialize (.accept w.session contracts v) = some hub) :
    Received { w with hub := hub, read := w.read + 1 } := by
  obtain ⟨hlast, hpending⟩ := pending_accept hhub
  have hnumber : number m = some ((readSequence (field v "sequence")).getD 0) := by
    rw [number, hparams, readSequence_field "sequence" hv]
    rfl
  have hread := readNumbers_succ hm
  rw [hnumber, Option.toList_some] at hread
  refine ⟨(List.getElem?_eq_some_iff.1 hm).1, fun n hn => ?_, fun k hk => ?_⟩
  · rw [readNumbers, hread]
    exact mem_append_left _ (h.last n (hlast ▸ hn))
  · rcases hpending with hnone | hsome
    · exact nomatch hnone.symm.trans hk
    · have heq : (readSequence (field v "sequence")).getD 0 = k :=
        Option.some.inj (hsome.symm.trans hk)
      rw [heq] at hread
      refine ⟨?_, fun n hn => ?_⟩
      · rw [readNumbers, hread]
        exact mem_append_right _ mem_cons_self
      · -- it was written after everything that was read before
        have hsorted : (w.out.written.filterMap number).Pairwise (· < ·) := by
          have horder := hline.order
          rw [eventNumbers, append_assoc] at horder
          exact (pairwise_append.1 horder).1
        have hsub : ((w.out.written.take (w.read + 1)).filterMap number).Pairwise (· < ·) :=
          hsorted.sublist ((take_sublist _ _).filterMap _)
        rw [hread] at hsub
        exact (pairwise_append.1 hsub).2.2 n (h.last n (hlast ▸ hn)) k mem_cons_self

theorem written_perform {v v' : Outbound} {m : Rpc.Move} (h : v.perform serialize m = some v') :
    ∃ more, v'.written = v.written ++ more := by
  cases Outbound.writes_perform h with
  | same hwritten | moved hwritten => exact ⟨[], by rw [hwritten, append_nil]⟩
  | wrote f hw hwritten hw' => exact ⟨f.message.toList, hwritten⟩

theorem Received.next (h : Received w) (hline : InLine serialize w) {m : LinkMove}
    (hm : w.perform serialize m = some w') : Received w' := by
  have hfrozen : ∃ more, w.out.written = w.out.written ++ more := ⟨[], (append_nil _).symm⟩
  cases m with
  | create | drop k =>
    cases hm
    exact h.resume rfl rfl (Nat.le_refl _) hfrozen h.bounded
  | poll k =>
    simp only [Link.perform] at hm
    cases hf : w.waiting[k]? with
    | none => simp only [hf, reduceCtorEq] at hm
    | some f =>
      simp only [hf] at hm
      cases hparams : f.params w.session with
      | error e =>
        simp only [hparams] at hm
        cases hm
        exact h.resume rfl rfl (Nat.le_refl _) hfrozen h.bounded
      | ok v =>
        simp only [hparams, perform_notify, Option.map_some] at hm
        cases hm
        exact h.resume rfl rfl (Nat.le_refl _) hfrozen h.bounded
  | out m =>
    simp only [Link.perform] at hm
    split at hm
    · cases hm
    · obtain ⟨out, hout, rfl⟩ := Option.map_eq_some_iff.1 hm
      obtain ⟨more, hmore⟩ := written_perform hout
      refine h.resume rfl rfl (Nat.le_refl _) ⟨more, hmore⟩ ?_
      dsimp only
      rw [hmore, length_append]
      exact Nat.le_trans h.bounded (Nat.le_add_right _ _)
  | receive contracts limit =>
    simp only [Link.perform] at hm
    split at hm
    · cases hm
    · split at hm
      · cases hm
      · rename_i m hwritten
        split at hm
        · cases hm
          exact h.resume rfl rfl (Nat.le_succ _) hfrozen (List.getElem?_eq_some_iff.1 hwritten).1
        · rename_i params hparams
          split at hm
          · cases hm
          · rename_i v hv
            obtain ⟨hub, hhub, rfl⟩ := Option.map_eq_some_iff.1 hm
            exact h.accept hline hwritten hparams hv hhub
  | hub m =>
    simp only [Link.perform] at hm
    split at hm
    · cases hm
    · rename_i hcalls
      obtain ⟨hub, hhub, rfl⟩ := Option.map_eq_some_iff.1 hm
      exact h.keeps (Hub.keeps_perform (Bool.eq_false_iff.2 hcalls) hhub)

end Received

namespace Link

variable {serialize : Serializer} {w : Link}

variable {m : Rpc.Move} {w' : Link} {moves : List LinkMove}

theorem queues_mem {n : Nat} (h : w.queues m = some n) : n ∈ sendNumbers w.out := by
  cases m with
  | advance k =>
    simp only [queues] at h
    split at h
    · rename_i hs
      split at h
      · exact mem_filterMap.2 ⟨_, mem_of_getElem? hs, h⟩
      · cases h
    · cases h
  | _ => cases h

/-- An event that is inside `notify` alone may be queued. -/
theorem orderly_alone (hone : (sendNumbers w.out).length ≤ 1) : Orderly w (.out m) := by
  intro n hn k hk
  have hmem := queues_mem hn
  cases hnumbers : sendNumbers w.out with
  | nil => exact absurd (hnumbers ▸ hk) not_mem_nil
  | cons other rest =>
    rw [hnumbers, length_cons] at hone
    have hrest : rest = [] := eq_nil_of_length_eq_zero (by omega)
    rw [hnumbers, hrest, mem_singleton] at hk hmem
    omega

/-- No more events get inside `notify` unless a future is polled. -/
theorem alone_perform {m : LinkMove} (hsorted : w.out.Sorted)
    (hone : (sendNumbers w.out).length ≤ 1) (hpoll : ∀ k, m ≠ .poll k)
    (h : w.perform serialize m = some w') : (sendNumbers w'.out).length ≤ 1 := by
  cases m with
  | create | drop k =>
    cases h
    exact hone
  | poll k => exact absurd rfl (hpoll k)
  | out m =>
    simp only [perform] at h
    split at h
    · cases h
    · rename_i hemits
      obtain ⟨out, hout, rfl⟩ := Option.map_eq_some_iff.1 h
      have hsends := (advances_perform hsorted (Bool.eq_false_iff.2 hemits) hout).sends.length_le
      rw [length_append] at hsends
      dsimp only
      omega
  | receive contracts limit =>
    simp only [perform] at h
    split at h
    · cases h
    · split at h
      · cases h
      · split at h
        · cases h
          exact hone
        · split at h
          · cases h
          · obtain ⟨hub, -, rfl⟩ := Option.map_eq_some_iff.1 h
            exact hone
  | hub m =>
    simp only [perform] at h
    split at h
    · cases h
    · obtain ⟨hub, -, rfl⟩ := Option.map_eq_some_iff.1 h
      exact hone

/-- One `emit` after the other is in order. -/
theorem runs_alone (hruns : w.Runs serialize Orderly) (hline : InLine serialize w)
    (hone : (sendNumbers w.out).length ≤ 1) (hpoll : ∀ m ∈ moves, ∀ k, m ≠ .poll k)
    (h : w.performAll serialize moves = some w') : w'.Runs serialize Orderly := by
  induction moves generalizing w with
  | nil =>
    cases h
    exact hruns
  | cons m rest ih =>
    obtain ⟨next, hm, hrest⟩ := Option.bind_eq_some_iff.1 h
    have horderly : Orderly w m := by
      cases m with
      | poll k => exact absurd rfl (hpoll _ mem_cons_self k)
      | out m => exact orderly_alone hone
      | _ => trivial
    exact ih (hruns.next ⟨m, horderly, hm⟩) (hline.next horderly hm)
      (alone_perform hline.runs.sorted.1 hone (hpoll m mem_cons_self) hm)
      (fun m' hm' => hpoll m' (mem_cons_of_mem _ hm')) hrest

theorem runs_anyhow (hruns : w.Runs serialize fun _ _ => True)
    (h : w.performAll serialize moves = some w') : w'.Runs serialize fun _ _ => True := by
  induction moves generalizing w with
  | nil =>
    cases h
    exact hruns
  | cons m rest ih =>
    obtain ⟨next, hm, hrest⟩ := Option.bind_eq_some_iff.1 h
    exact ih (hruns.next ⟨m, trivial, hm⟩) hrest

/-- A call of `emit`. -/
def created : LinkMove :=
  .create true true "example.counter" "1.0.0" "changed" (.object [("count", .string "1")]) none

/-- A whole call of `enqueue`, and what the writer does with its frame. -/
def queuing : List LinkMove := List.replicate 4 (.out (.advance 0))
def writing : List LinkMove :=
  [.sample, .poll, .pollControl, .takeEvent, .check, .wrote, .dropFrame].map LinkMove.out

/-- An event is read, and its number is about to be checked. -/
def reading : List LinkMove := [.receive Hub.counters 64, .hub (.validate "s")]

/-- The event is recorded, and `accept` returns. -/
def accepting : List LinkMove :=
  [.record "s", .lock "s", .recheck, .deliver].map LinkMove.hub

/-- Two fresh endpoints. -/
def fresh : Link := new "s" 'p' Limits.default 256 16777216

/-- The later of two futures is polled first. -/
def crossed : List LinkMove :=
  [created, created, .poll 1] ++ queuing ++ [.poll 0] ++ queuing ++ writing ++ writing ++
    reading ++ accepting ++ reading

/-- Is a number about to be checked that is not greater than the last? -/
def refuses (w : Link) : Bool :=
  match w.hub.accepts w.session with
  | some (.numbered e) => (w.hub.last w.session).any fun n => decide (e.sequence ≤ n)
  | _ => false

/-- One event after the other. -/
def straight : List LinkMove :=
  queuing ++ writing ++ reading

end Link

end NapiVm.Plugin
