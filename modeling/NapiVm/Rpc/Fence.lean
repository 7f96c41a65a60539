import NapiVm.Rpc.Traffic

/-!
# The event fence

`hold_events_until_reply` keeps events back until a successful reply to one method is
queued.  The writer reads the fence at the top of its loop only, so the order
rests on two things: the reply is in the control queue before the fence goes down, and a
notification makes a waiting writer read the fence again.

* `Outbound.Fenced` — while no reply is written, no event is near the wire.
* `Outbound.events_follow_reply` — the order on the wire, when the fence goes up in time.
* `Outbound.event_overtakes` — a writer that read the fence before and looks at the events after.
-/

namespace NapiVm.Rpc

open Host

/-- The loop of the writer is over. -/
def Writer.ended : Writer → Bool
  | spent _ b => b
  | stopping => true
  | gone => true
  | _ => false

/-- The writer read the fence while it was down, and will not look whether it changed. -/
def Writer.missed : Writer → Bool
  | .armed events => events
  | .idle events => events
  | _ => false

namespace Outbound

variable {serialize : Serializer} {w w' : Outbound} {method : String}

/-- The frames the writer sees next are no events. -/
def Sorted (w : Outbound) : Prop :=
  countQueue Message.isEvent w.control = 0 ∧ countQueue Message.isEvent w.business = 0

/-- A successful reply is queued or about to be written. -/
def Replying (method : String) (w : Outbound) : Prop :=
  0 < countQueue (·.accepts method) w.control +
    countQueue (·.accepts method) w.writer.carried.toList

/-- A successful reply is written. -/
def Replied (method : String) (w : Outbound) : Prop := 0 < w.written.countP (·.accepts method)

/-- What the writer may do while the reply is not written. -/
def Guarded (method : String) (w : Outbound) : Prop :=
  match w.writer with
  | .polling true => w.fenceChanged = true ∨ 0 < countQueue (·.accepts method) w.control
  | .armed true => 0 < countQueue (·.accepts method) w.control
  | .idle true => False
  | .checking f => countQueue Message.isEvent [f] = 0
  | .writing f => countQueue Message.isEvent [f] = 0
  | _ => True

/-- The fence stands, or its reply is on the way. -/
structure Fenced (method : String) (w : Outbound) : Prop where
  fence : w.fence = some method ∨ w.Replying method
  writer : w.Guarded method

/-- Who is about to take the fence down has queued its reply. -/
def Justified (w : Outbound) : Prop :=
  ∀ method ∈ w.releases, w.Replying method ∨ w.Replied method ∨ w.writer.ended = true

/-- Every event comes after a successful reply. -/
def AfterReply (method : String) (written : List Message) : Prop :=
  ∀ before event after, written = before ++ event :: after → event.isEvent = true →
    ∃ reply ∈ before, reply.accepts method = true

/-! ## What the threads besides the writer do -/

/-- What a section outside the writer does to the fence and the first two queues. -/
inductive Shifts (m : Move) (w w' : Outbound) : Prop where
  | same (hcontrol : w'.control = w.control) (hbusiness : w'.business = w.business)
      (hfence : w'.fence = w.fence) (hchanged : w'.fenceChanged = w.fenceChanged)
      (hreleases : w'.releases = w.releases)
  /-- A frame is pushed; a successful reply may now take the fence down. -/
  | pushed (f : QueuedFrame) (hevent : countQueue Message.isEvent [f] = 0)
      (hcontrol : w'.control = w.control ++ [f]) (hbusiness : w'.business = w.business)
      (hfence : w'.fence = w.fence) (hchanged : w'.fenceChanged = w.fenceChanged)
      (hreleases : ∀ method ∈ w'.releases,
        method ∈ w.releases ∨ 0 < countQueue (·.accepts method) [f])
  | pushedBusiness (f : QueuedFrame) (hevent : countQueue Message.isEvent [f] = 0)
      (hcontrol : w'.control = w.control) (hbusiness : w'.business = w.business ++ [f])
      (hfence : w'.fence = w.fence) (hchanged : w'.fenceChanged = w.fenceChanged)
      (hreleases : w'.releases = w.releases)
  /-- The fence goes down. -/
  | released (method : String) (hmethod : method ∈ w.releases)
      (hcontrol : w'.control = w.control) (hbusiness : w'.business = w.business)
      (hfence : w'.fence = w.fence ∨ w.fence = some method)
      (hchanged : w.fenceChanged = true → w'.fenceChanged = true)
      (hreleases : ∀ method ∈ w'.releases, method ∈ w.releases)
  /-- The fence goes up, or its change is announced. -/
  | held (hcontrol : w'.control = w.control) (hbusiness : w'.business = w.business)
      (hfence : w'.fence = w.fence ∨ ∃ method, m = .hold method ∧ w'.fence = some method)
      (hchanged : w.fenceChanged = true → w'.fenceChanged = true)
      (hreleases : w'.releases = w.releases)

theorem shifts_sendFailed (move : Move) (k : Nat) (m : Message) :
    Shifts move w (w.sendFailed k m) := by
  cases m <;> exact .same rfl rfl rfl rfl rfl

variable {m : Move}

theorem shifts_performCall (h : w.performCall m = some w') : Shifts m w w' := by
  have hremove : ∀ id phase, Shifts m w ((w.setPhase id phase).removeEntry id) := by
    intro id phase
    unfold removeEntry
    split <;> exact .same rfl rfl rfl rfl rfl
  unfold performCall at h
  split at h
  · split at h <;> cases h
    exact .same rfl rfl rfl rfl rfl
  · split at h
    · dsimp only at h
      split at h <;> cases h <;> exact .same rfl rfl rfl rfl rfl
    · cases h
  · split at h <;> cases h
    exact .same rfl rfl rfl rfl rfl
  · split at h <;> cases h
    exact .same rfl rfl rfl rfl rfl
  · split at h <;> cases h
    exact .same rfl rfl rfl rfl rfl
  · split at h <;> cases h
    exact hremove _ _
  · split at h <;> cases h
    exact hremove _ _
  · cases h

/-- A channel takes the frame of a message that is sent. -/
theorem shifts_push (move : Move) (k : Nat) (m : Message) (data : List UInt8) :
    Shifts move w ((w.setQueue m.queue (w.queued m.queue ++ [⟨some m, data⟩])).sendDone k m) := by
  cases m with
  | request id method params =>
    by_cases hm : method = "system.invoke"
    · have hqueue : (Message.request id method params).queue = .business := by
        simp [Message.queue, Message.priority, Message.isEvent, hm]
      rw [hqueue]
      exact .pushedBusiness ⟨some _, data⟩ rfl rfl rfl rfl rfl rfl
    · have hqueue : (Message.request id method params).queue = .control := by
        simp [Message.queue, Message.priority, hm]
      rw [hqueue]
      exact .pushed ⟨some _, data⟩ rfl rfl rfl rfl rfl fun _ hx => .inl hx
  | cancel id => exact .pushed ⟨some _, data⟩ rfl rfl rfl rfl rfl fun _ hx => .inl hx
  | notification method params =>
    by_cases hm : method = "system.event"
    · have hqueue : (Message.notification method params).queue = .events := by
        simp [Message.queue, Message.priority, Message.isEvent, hm]
      rw [hqueue]
      exact .same rfl rfl rfl rfl rfl
    · have hqueue : (Message.notification method params).queue = .control := by
        simp [Message.queue, Message.priority, hm]
      rw [hqueue]
      refine .pushed ⟨some _, data⟩ ?_ rfl rfl rfl rfl fun _ hx => .inl hx
      simp [countQueue_some, Message.isEvent, hm]
  | response id method ok body =>
    refine .pushed ⟨some (.response id method ok body), data⟩ rfl ?_ ?_ ?_ ?_ fun n hn => ?_
    · cases ok <;> rfl
    · cases ok <;> rfl
    · cases ok <;> rfl
    · cases ok <;> rfl
    · cases ok with
      | false => exact .inl hn
      | true =>
        rcases List.mem_cons.1 hn with rfl | hn
        · exact .inr (by simp [countQueue_some, Message.accepts])
        · exact .inl hn

theorem shifts_advance (move : Move) (k : Nat) (s : Send) :
    Shifts move w (w.advance serialize k s) := by
  unfold advance
  split
  · split
    · exact shifts_sendFailed _ k _
    · exact .same rfl rfl rfl rfl rfl
  · split
    · exact .same rfl rfl rfl rfl rfl
    · exact shifts_sendFailed _ k _
  · split
    · exact .same rfl rfl rfl rfl rfl
    · exact shifts_sendFailed _ k _
  · split
    · exact shifts_push _ k s.message _
    · exact .same rfl rfl rfl rfl rfl
  · cases s.message <;> exact .same rfl rfl rfl rfl rfl

theorem shifts_performShared (h : w.performShared serialize m = some w') : Shifts m w w' := by
  unfold performShared at h
  split at h
  · split at h <;> cases h
    exact .same rfl rfl rfl rfl rfl
  · split at h <;> cases h
    exact shifts_advance _ _ _
  · split at h <;> cases h
    exact .pushed ⟨none, []⟩ rfl rfl rfl rfl rfl fun _ hx => .inl hx
  · cases h
    exact .same rfl rfl rfl rfl rfl
  · split at h <;> cases h <;> exact .same rfl rfl rfl rfl rfl
  · cases h
    exact .same rfl rfl rfl rfl rfl
  · split at h <;> cases h
    exact .same rfl rfl rfl rfl rfl
  · -- release
    split at h
    · rename_i method hmethod
      cases h
      have hmem := List.mem_of_getElem? hmethod
      split
      · rename_i hfence
        exact .released method hmem rfl rfl (.inr hfence) (fun _ => rfl)
          fun _ hx => List.mem_of_mem_eraseIdx hx
      · exact .released method hmem rfl rfl (.inl rfl) id fun _ hx => List.mem_of_mem_eraseIdx hx
    · cases h
  · cases h
    exact .held rfl rfl (.inr ⟨_, rfl, rfl⟩) id rfl
  · split at h <;> cases h
    exact .held rfl rfl (.inl rfl) (fun _ => rfl) rfl
  · split at h <;> cases h
    exact .same rfl rfl rfl rfl rfl
  · cases h
    exact .same rfl rfl rfl rfl rfl
  · split at h <;> cases h
    exact .same rfl rfl rfl rfl rfl
  · cases h

theorem Sorted.shifts (h : w.Sorted) (hs : Shifts m w w') : w'.Sorted := by
  obtain ⟨hcontrol, hbusiness⟩ := h
  cases hs with
  | same hc hb hf hch hr | released n hmem hc hb hf hch hr | held hc hb hf hch hr => exact ⟨hc ▸ hcontrol, hb ▸ hbusiness⟩
  | pushed f hevent hc hb hf hch hr =>
    refine ⟨?_, hb ▸ hbusiness⟩
    rw [hc, countQueue_append, hcontrol, hevent]
  | pushedBusiness f hevent hc hb hf hch hr =>
    refine ⟨hc ▸ hcontrol, ?_⟩
    rw [hb, countQueue_append, hbusiness, hevent]

/-- The control queue only grows outside the writer. -/
theorem Shifts.control (hs : Shifts m w w') (p : Message → Bool) :
    countQueue p w.control ≤ countQueue p w'.control := by
  cases hs with
  | same hc hb hf hch hr | pushedBusiness f hevent hc hb hf hch hr
  | released n hmem hc hb hf hch hr | held hc hb hf hch hr => exact Nat.le_of_eq (by rw [hc])
  | pushed f hevent hc hb hf hch hr =>
    rw [hc, countQueue_append]
    exact Nat.le_add_right _ _

/-- A change of the fence stays announced until the writer hears of it. -/
theorem Shifts.changed (hs : Shifts m w w') (h : w.fenceChanged = true) :
    w'.fenceChanged = true := by
  cases hs with
  | same hc hb hf hch hr | pushed f hevent hc hb hf hch hr
  | pushedBusiness f hevent hc hb hf hch hr => exact hch.trans h
  | released n hmem hc hb hf hch hr => exact hch h
  | held hc hb hf hch hr => exact hch h

theorem Replying.shifts (h : w.Replying method) (hs : Shifts m w w')
    (hwriter : w'.writer = w.writer) : w'.Replying method := by
  have hcontrol := hs.control (·.accepts method)
  unfold Replying at *
  rw [hwriter]
  omega

theorem Justified.shifts (h : w.Justified) (hs : Shifts m w w') (hwriter : w'.writer = w.writer)
    (hwritten : w'.written = w.written) : w'.Justified := by
  have hold : ∀ n ∈ w.releases, w'.Replying n ∨ w'.Replied n ∨ w'.writer.ended = true := by
    intro n hn
    rw [hwriter]
    unfold Replied
    rw [hwritten]
    exact (h n hn).imp_left fun hreplying => hreplying.shifts hs hwriter
  intro n hn
  cases hs with
  | same hc hb hf hch hr | pushedBusiness f hevent hc hb hf hch hr | held hc hb hf hch hr => exact hold n (hr ▸ hn)
  | pushed f hevent hc hb hf hch hr =>
    rcases hr n hn with hn | hpos
    · exact hold n hn
    · refine .inl ?_
      unfold Replying
      rw [hc, countQueue_append]
      omega
  | released n' hmem hc hb hf hch hr => exact hold n (hr n hn)

theorem Guarded.shifts (h : w.Guarded method) (hs : Shifts m w w')
    (hwriter : w'.writer = w.writer) : w'.Guarded method := by
  have hcontrol := hs.control (·.accepts method)
  unfold Guarded at *
  rw [hwriter]
  split at h
  · exact h.imp hs.changed fun hpos => Nat.lt_of_lt_of_le hpos hcontrol
  · exact Nat.lt_of_lt_of_le h hcontrol
  · exact h
  · exact h
  · exact h
  · trivial

/-- The fence goes down for its own reply only. -/
theorem Fenced.shifts (h : w.Fenced method) (hj : w.Justified) (hs : Shifts m w w')
    (hhold : ∀ n, m = .hold n → n = method) (hwriter : w'.writer = w.writer)
    (hwritten : w'.written = w.written) :
    w'.Fenced method ∨ w'.Replied method ∨ w'.writer.ended = true := by
  have hguarded := h.writer.shifts hs hwriter
  have hreplying : w.Replying method → w'.Fenced method :=
    fun hr => ⟨.inr (hr.shifts hs hwriter), hguarded⟩
  rcases h.fence with hfence | hr
  · cases hs with
    | same hc hb hf hch hr | pushed f hevent hc hb hf hch hr
    | pushedBusiness f hevent hc hb hf hch hr => exact .inl ⟨.inl (hf.trans hfence), hguarded⟩
    | released n hmem hc hb hf hch hr =>
      rcases hf with hf | hf
      · exact .inl ⟨.inl (hf.trans hfence), hguarded⟩
      · rw [hfence] at hf
        cases hf
        rcases hj method hmem with hr | hdone
        · exact .inl (hreplying hr)
        · refine .inr ?_
          unfold Replied
          rwa [hwriter, hwritten]
    | held hc hb hf hch hr =>
      rcases hf with hf | ⟨n, hmove, hf⟩
      · exact .inl ⟨.inl (hf.trans hfence), hguarded⟩
      · rw [hhold n hmove] at hf
        exact .inl ⟨.inl hf, hguarded⟩
  · exact .inl (hreplying hr)

/-! ## What the writer does -/

/-- The writer leaves the fence alone and takes frames off the front. -/
structure Takes (w w' : Outbound) : Prop where
  fence : w'.fence = w.fence
  releases : w'.releases = w.releases
  written : ∃ new, w'.written = w.written ++ new
  control : w'.control <:+ w.control
  business : w'.business <:+ w.business

theorem takes_performWriter (h : w.performWriter m = some w') : Takes w w' := by
  cases writerStep_performWriter h with
  | takeControl events f rest hw hc =>
    exact ⟨rfl, rfl, ⟨[], (List.append_nil _).symm⟩, hc ▸ List.suffix_cons _ _, List.suffix_refl _⟩
  | takeBusiness events f rest hw hc =>
    exact ⟨rfl, rfl, ⟨[], (List.append_nil _).symm⟩, List.suffix_refl _, hc ▸ List.suffix_cons _ _⟩
  | wrote f hw => exact ⟨rfl, rfl, ⟨_, rfl⟩, List.suffix_refl _, List.suffix_refl _⟩
  | discard q f rest hw hq =>
    cases q with
    | control =>
      exact ⟨rfl, rfl, ⟨[], (List.append_nil _).symm⟩,
        (show w.control = f :: rest from hq) ▸ List.suffix_cons _ _, List.suffix_refl _⟩
    | business =>
      exact ⟨rfl, rfl, ⟨[], (List.append_nil _).symm⟩, List.suffix_refl _,
        (show w.business = f :: rest from hq) ▸ List.suffix_cons _ _⟩
    | events =>
      exact ⟨rfl, rfl, ⟨[], (List.append_nil _).symm⟩, List.suffix_refl _, List.suffix_refl _⟩
  | _ =>
    exact ⟨rfl, rfl, ⟨[], (List.append_nil _).symm⟩, List.suffix_refl _, List.suffix_refl _⟩

theorem countQueue_suffix {l l' : List QueuedFrame} (h : l <:+ l') (p : Message → Bool) :
    countQueue p l ≤ countQueue p l' := by
  obtain ⟨before, rfl⟩ := h
  rw [countQueue_append]
  exact Nat.le_add_left _ _

theorem Sorted.takes (h : w.Sorted) (ht : Takes w w') : w'.Sorted :=
  ⟨Nat.le_zero.1 (h.1 ▸ countQueue_suffix ht.control _),
    Nat.le_zero.1 (h.2 ▸ countQueue_suffix ht.business _)⟩

theorem Replied.takes (h : w.Replied method) (ht : Takes w w') : w'.Replied method := by
  obtain ⟨new, hnew⟩ := ht.written
  unfold Replied at *
  rw [hnew, List.countP_append]
  omega

theorem ended_performWriter (hover : w.writer.ended = true) (h : w.performWriter m = some w') :
    w'.writer.ended = true := by
  cases writerStep_performWriter h with
  | drop f ends hw =>
    rw [hw] at hover
    cases hover
    rfl
  | hangUp hw => rfl
  | discard q f rest hw hq => exact (congrArg Writer.ended (writer_setQueue q rest).1).trans hover
  | _ =>
    first
      | rfl
      | simp only [*, Writer.ended, Bool.false_eq_true] at hover

/-- A queued reply is written, or the writer gives up. -/
theorem Replying.writer (h : w.Replying method) (hm : w.performWriter m = some w') :
    w'.Replying method ∨ w'.Replied method ∨ w'.writer.ended = true := by
  unfold Replying at h
  cases writerStep_performWriter hm with
  | takeControl events f rest hw hc =>
    refine .inl ?_
    have htake := traffic_take (·.accepts method) f rest
    simp only [hw, hc, Writer.carried, Option.toList_none] at h
    simp only [Replying, Writer.carried, Option.toList_some]
    omega
  | takeBusiness events f rest hw hc | takeEvent f rest hw hc =>
    refine .inl ?_
    simp only [hw, Writer.carried, Option.toList_none, countQueue_nil] at h
    simp only [Replying]
    omega
  | skip f hw hrequest =>
    -- a reply has no id of its own to look up
    obtain ⟨id, name, params, hmessage⟩ := hrequest
    have hzero : countQueue (·.accepts method) [f] = 0 := by
      rw [countQueue_one, hmessage]
      rfl
    simp only [hw, Writer.carried, Option.toList_some, hzero] at h
    exact .inl h
  | wrote f hw =>
    simp only [hw, Writer.carried, Option.toList_some, countQueue_one] at h
    by_cases hpos : 0 < f.message.toList.countP (·.accepts method)
    · refine .inr (.inl ?_)
      unfold Replied
      rw [List.countP_append]
      omega
    · refine .inl ?_
      simp only [Replying, Writer.carried, Option.toList_none, countQueue_nil]
      omega
  | interrupt f hw => exact .inr (.inr rfl)
  | fail f hw => exact .inr (.inr rfl)
  | drop f ends hw =>
    simp only [hw, Writer.carried, Option.toList_none, countQueue_nil] at h
    cases ends <;> exact .inl h
  | discard q f rest hw hq =>
    exact .inr (.inr ((congrArg Writer.ended ((writer_setQueue q rest).1.trans hw))))
  | _ =>
    refine .inl ?_
    simpa only [Replying, *, Writer.carried, Option.toList_none, Option.toList_some,
      countQueue_nil] using h

theorem Justified.writer (h : w.Justified) (hm : w.performWriter m = some w') : w'.Justified := by
  have ht := takes_performWriter hm
  intro n hn
  rcases h n (ht.releases ▸ hn) with hreplying | hreplied | hover
  · exact hreplying.writer hm
  · exact .inr (.inl (hreplied.takes ht))
  · exact .inr (.inr (ended_performWriter hover hm))

/-- While the reply is not written, the writer comes by no event. -/
theorem Fenced.guarded (h : w.Fenced method) (hs : w.Sorted) (hm : w.performWriter m = some w') :
    w'.Guarded method := by
  obtain ⟨hfence, hguarded⟩ := h
  unfold Guarded at hguarded
  have hhead : ∀ {f rest queue}, queue = f :: rest → countQueue Message.isEvent queue = 0 →
      countQueue Message.isEvent [f] = 0 := by
    intro f rest queue hqueue hzero
    rw [hqueue, countQueue_cons] at hzero
    omega
  cases writerStep_performWriter hm with
  | sample hw =>
    cases hnone : w.fence.isNone with
    | false => simp only [Guarded]
    | true =>
      -- the fence is down: its reply is in the queue
      simp only [Guarded]
      rcases hfence with hfence | hreplying
      · simp [hfence] at hnone
      · refine .inr ?_
        simpa only [Replying, hw, Writer.carried, Option.toList_none, countQueue_nil,
          Nat.add_zero] using hreplying
  | leave events hw => trivial
  | again events hw hchanged => trivial
  | arm events hw hchanged =>
    cases events with
    | false => trivial
    | true =>
      simp only [hw, hchanged, Bool.false_eq_true, false_or] at hguarded
      exact hguarded
  | controlEmpty events hw hc =>
    cases events with
    | false => trivial
    | true =>
      simp only [hw, hc, countQueue_nil, Nat.lt_irrefl] at hguarded
  | takeControl events f rest hw hc => exact hhead hc hs.1
  | takeBusiness events f rest hw hc => exact hhead hc hs.2
  | takeEvent f rest hw hc => simp only [hw] at hguarded
  | park events hw =>
    cases events with
    | false => trivial
    | true => simp only [hw] at hguarded
  | pass f hw hpending =>
    simp only [hw] at hguarded
    exact hguarded
  | drop f ends hw => cases ends <;> trivial
  | discard q f rest hw hq =>
    have hwriter := (writer_setQueue (w := w) q rest).1.trans hw
    simp only [Guarded, hwriter]
  | _ => trivial

theorem Fenced.writes (h : w.Fenced method) (hs : w.Sorted) (hm : w.performWriter m = some w') :
    w'.Fenced method ∨ w'.Replied method ∨ w'.writer.ended = true := by
  have hguarded := h.guarded hs hm
  rcases h.fence with hfence | hreplying
  · exact .inl ⟨.inl ((takes_performWriter hm).fence.trans hfence), hguarded⟩
  · exact (hreplying.writer hm).imp_left fun hr => ⟨.inr hr, hguarded⟩

/-! ## Runs -/

theorem Sorted.next (h : w.Sorted) (hm : w.perform serialize m = some w') : w'.Sorted := by
  rcases perform_cases hm with hm | hm | hm
  · exact h.shifts (shifts_performCall hm)
  · exact h.shifts (shifts_performShared hm)
  · exact h.takes (takes_performWriter hm)

theorem Justified.next (h : w.Justified) (hm : w.perform serialize m = some w') : w'.Justified := by
  rcases perform_cases hm with hm | hm | hm
  · exact h.shifts (shifts_performCall hm) (still_performCall hm).1 (still_performCall hm).2
  · exact h.shifts (shifts_performShared hm) (still_performShared hm).1 (still_performShared hm).2
  · exact h.writer hm

theorem Runs.sorted (h : w.Runs serialize) : w.Sorted ∧ w.Justified := by
  refine Reachable.invariant (I := fun w => w.Sorted ∧ w.Justified) (fun w hw => ?_)
    (fun w w' hw hstep => ?_) h
  · obtain ⟨session, side, limits, -, rfl⟩ := hw
    exact ⟨⟨rfl, rfl⟩, nofun⟩
  · obtain ⟨m, hm⟩ := hstep
    exact ⟨hw.1.next hm, hw.2.next hm⟩

/-- A section after `hold_events_until_reply`; nobody holds events for another reply. -/
def HeldStep (serialize : Serializer) (method : String) (w w' : Outbound) : Prop :=
  ∃ m, (∀ n, m = Move.hold n → n = method) ∧ w.perform serialize m = some w'

/-- While events are held, or may go because the reply went first. -/
structure Ordered (method : String) (w : Outbound) : Prop where
  sorted : w.Sorted
  justified : w.Justified
  order : AfterReply method w.written
  held : w.Fenced method ∨ w.Replied method ∨ w.writer.ended = true

theorem AfterReply.append {written : List Message} {x : Message} (h : AfterReply method written)
    (hx : x.isEvent = true → ∃ reply ∈ written, reply.accepts method = true) :
    AfterReply method (written ++ [x]) := by
  intro before event after heq hevent
  rcases List.eq_nil_or_concat after with rfl | ⟨after', last, rfl⟩
  · obtain ⟨rfl, hlast⟩ := List.append_inj' heq rfl
    cases hlast
    exact hx hevent
  · rw [List.concat_eq_append, ← List.cons_append, ← List.append_assoc] at heq
    obtain ⟨rfl, -⟩ := List.append_inj' heq rfl
    exact h before event after' rfl hevent

theorem Ordered.next (h : w.Ordered method) (hstep : HeldStep serialize method w w') :
    w'.Ordered method := by
  obtain ⟨m, hhold, hm⟩ := hstep
  refine ⟨h.sorted.next hm, h.justified.next hm, ?_, ?_⟩
  · cases writes_perform hm with
    | same hwritten hwriter => exact hwritten ▸ h.order
    | moved hwritten hpending hwriter => exact hwritten ▸ h.order
    | wrote f hbefore hwritten hafter =>
      rw [hwritten]
      obtain ⟨message, data⟩ := f
      cases message with
      | none => exact (List.append_nil w.written).symm ▸ h.order
      | some message =>
        refine h.order.append fun hevent => ?_
        rcases h.held with hfenced | hreplied | hover
        · have hguarded := hfenced.writer
          simp only [Guarded, hbefore, countQueue_some, hevent, if_true] at hguarded
          cases hguarded
        · obtain ⟨reply, hmem, haccepts⟩ := List.countP_pos_iff.1 hreplied
          exact ⟨reply, hmem, haccepts⟩
        · rw [hbefore] at hover
          cases hover
  · have hshared : ∀ (hs : Shifts m w w') (hstill : w'.writer = w.writer ∧ w'.written = w.written),
        w'.Fenced method ∨ w'.Replied method ∨ w'.writer.ended = true := by
      intro hs hstill
      rcases h.held with hfenced | hreplied | hover
      · exact hfenced.shifts h.justified hs hhold hstill.1 hstill.2
      · refine .inr (.inl ?_)
        unfold Replied
        rwa [hstill.2]
      · exact .inr (.inr (hstill.1 ▸ hover))
    rcases perform_cases hm with hm | hm | hm
    · exact hshared (shifts_performCall hm) (still_performCall hm)
    · exact hshared (shifts_performShared hm) (still_performShared hm)
    · rcases h.held with hfenced | hreplied | hover
      · exact hfenced.writes h.sorted hm
      · exact .inr (.inl (hreplied.takes (takes_performWriter hm)))
      · exact .inr (.inr (ended_performWriter hover hm))

/-- `hold_events_until_reply` returns, and holds what is sent from now on. -/
theorem ordered_notifyHold {w₀ w₁ : Outbound} (h₀ : w₀.Runs serialize)
    (hquiet : w₀.traffic Message.isEvent = 0) (hfence : w₀.fence = some method)
    (hreturn : w₀.perform serialize .notifyHold = some w₁) (hwriter : w₀.writer.missed = false) :
    w₁.Ordered method := by
  obtain ⟨hsorted, hjustified⟩ := h₀.sorted
  have hsorted' := hsorted.next hreturn
  have hjustified' := hjustified.next hreturn
  obtain ⟨n, rfl⟩ : ∃ n, w₁ = { w₀ with holding := n, fenceChanged := true } := by
    simp only [perform, performCall, performShared, Option.none_or] at hreturn
    split at hreturn
    · cases hreturn
    · cases hreturn
      exact ⟨_, rfl⟩
  unfold traffic at hquiet
  refine ⟨hsorted', hjustified', fun before event after heq hevent => ?_, .inl ⟨.inl hfence, ?_⟩⟩
  · have hzero : w₀.written.countP Message.isEvent = 0 := by omega
    rw [List.countP_eq_zero] at hzero
    exact absurd hevent (hzero event (heq ▸ List.mem_append_right _ List.mem_cons_self))
  · unfold Guarded
    split
    · exact .inl rfl
    · rename_i hw
      rw [show w₀.writer = .armed true from hw] at hwriter
      cases hwriter
    · rename_i hw
      rw [show w₀.writer = .idle true from hw] at hwriter
      cases hwriter
    · rename_i f hw
      simp only [show w₀.writer = .checking f from hw, Writer.carried, Option.toList_some] at hquiet
      omega
    · rename_i f hw
      simp only [show w₀.writer = .writing f from hw, Writer.carried, Option.toList_some] at hquiet
      omega
    · trivial

/-- **Events wait for the reply**: when `hold_events_until_reply` returns before any event is
sent, and not between the writer's two looks, every event on the wire comes after a
successful reply; without one there is none. -/
theorem events_follow_reply {w₀ w₁ : Outbound} (h₀ : w₀.Runs serialize)
    (hquiet : w₀.traffic Message.isEvent = 0) (hfence : w₀.fence = some method)
    (hreturn : w₀.perform serialize .notifyHold = some w₁) (hwriter : w₀.writer.missed = false)
    (hrun : Relation.ReflTransGen (HeldStep serialize method) w₁ w) :
    AfterReply method w.written ∧
      ((∀ reply ∈ w.written, reply.accepts method = false) →
        ∀ message ∈ w.written, message.isEvent = false) := by
  have hordered : w.Ordered method := by
    induction hrun with
    | refl => exact ordered_notifyHold h₀ hquiet hfence hreturn hwriter
    | tail _ hstep ih => exact ih.next hstep
  refine ⟨hordered.order, fun hnone message hmem => ?_⟩
  by_contra hevent
  obtain ⟨before, after, heq⟩ := List.append_of_mem hmem
  obtain ⟨reply, hreply, haccepts⟩ := hordered.order before message after heq
    (Bool.not_eq_false _ ▸ hevent)
  rw [hnone reply (heq ▸ List.mem_append_left _ hreply)] at haccepts
  cases haccepts

/-! ## Two runs -/

theorem heldSteps_performAll {moves : List Move}
    (hmoves : ∀ m ∈ moves, ∀ n, m = Move.hold n → n = method)
    (h : w.performAll serialize moves = some w') :
    Relation.ReflTransGen (HeldStep serialize method) w w' :=
  steps_of_all h (fun _ => rfl) (fun _ _ _ => rfl) fun m hm _ _ h => ⟨m, hmoves m hm, h⟩

/-- The plugin side of a session. -/
def pluginPeer : Outbound := new "s" 'p' .default

/-- Somebody emits an event, up to the queue. -/
def emitted : List Move :=
  [.notify "system.event" (.object []), .advance 0, .advance 0, .advance 0, .advance 0]

theorem runs_pluginPeer : pluginPeer.Runs serialize :=
  .start ⟨"s", 'p', .default, Limits.valid_default, rfl⟩

/-- The hypotheses and the conclusion of a run, evaluated. -/
def Checks (before held : List Move) (found : Outbound → Outbound → Bool) : Bool :=
  (pluginPeer.performAll compactValue before).any fun w₀ =>
    decide (w₀.traffic Message.isEvent = 0) && decide (w₀.fence = some "system.initialize") &&
      (w₀.perform compactValue .notifyHold).any fun w₁ =>
        (w₁.performAll compactValue held).any (found w₀)

theorem checked (before held : List Move) (found : Outbound → Outbound → Bool)
    (h : Checks before held found = true) : ∃ w₀ w₁ w : Outbound,
      pluginPeer.performAll compactValue before = some w₀ ∧ w₀.traffic Message.isEvent = 0 ∧
        w₀.fence = some "system.initialize" ∧ w₀.perform compactValue .notifyHold = some w₁ ∧
          w₁.performAll compactValue held = some w ∧ found w₀ w = true := by
  obtain ⟨w₀, h₀, h⟩ := (Option.any_eq_true _ _).1 h
  simp only [Bool.and_eq_true, decide_eq_true_eq] at h
  obtain ⟨⟨hquiet, hfence⟩, h⟩ := h
  obtain ⟨w₁, h₁, h⟩ := (Option.any_eq_true _ _).1 h
  obtain ⟨w, hw, hfound⟩ := (Option.any_eq_true _ _).1 h
  exact ⟨w₀, w₁, w, h₀, hquiet, hfence, h₁, hw, hfound⟩

/-- The writer is between its looks at the fence and at the events. -/
theorem event_overtakes :
    ¬ ∀ (serialize : Serializer) (method : String) (w₀ w₁ w : Outbound), w₀.Runs serialize →
      w₀.traffic Message.isEvent = 0 → w₀.fence = some method →
      w₀.perform serialize .notifyHold = some w₁ →
      Relation.ReflTransGen (HeldStep serialize method) w₁ w → AfterReply method w.written := by
  intro h
  obtain ⟨w₀, w₁, w, h₀, hquiet, hfence, h₁, hw, hfound⟩ :=
    checked [.sample, .poll, .hold "system.initialize"]
      (emitted ++ [.pollControl, .takeEvent, .check, .wrote])
      (fun _ w => w.written.map Message.isEvent == [true]) (by decide +kernel)
  have horder := h compactValue "system.initialize" w₀ w₁ w
    (runs_performAll runs_pluginPeer h₀) hquiet hfence h₁
    (heldSteps_performAll (by simp [emitted]) hw)
  obtain ⟨event, hwritten, hevent⟩ : ∃ event, w.written = [event] ∧ event.isEvent = true := by
    cases hlist : w.written with
    | nil => simp [hlist] at hfound
    | cons event rest =>
      simp only [hlist, List.map_cons, beq_iff_eq, List.cons.injEq, List.map_eq_nil_iff]
        at hfound
      exact ⟨event, by rw [hfound.2], hfound.1⟩
  obtain ⟨reply, hmem, -⟩ := horder [] event [] hwritten hevent
  cases hmem

/-- The fence goes up, an event is emitted, and the initialization succeeds. -/
def initialized : List Move :=
  emitted ++ [.sample, .poll, .sample, .poll, .pollControl, .park,
    .register 1 "system.initialize", .reply 0 true .null, .advance 0, .advance 0, .advance 0,
    .advance 0, .release 0, .poll, .sample, .poll, .pollControl, .check, .wrote, .dropFrame,
    .sample, .poll, .pollControl, .takeEvent, .check, .wrote]

theorem events_follow_reply_initialized : ∃ w : Outbound,
    w.written.map Message.isEvent = [false, true] ∧
      AfterReply "system.initialize" w.written := by
  obtain ⟨w₀, w₁, w, h₀, hquiet, hfence, h₁, hw, hfound⟩ :=
    checked [.hold "system.initialize"] initialized
      (fun w₀ w => !w₀.writer.missed && w.written.map Message.isEvent == [false, true])
      (by decide +kernel)
  simp only [Bool.and_eq_true, Bool.not_eq_true', beq_iff_eq] at hfound
  exact ⟨w, hfound.2, (events_follow_reply (runs_performAll runs_pluginPeer h₀) hquiet hfence h₁
    hfound.1 (heldSteps_performAll (by simp [initialized, emitted]) hw)).1⟩

end Outbound

end NapiVm.Rpc
