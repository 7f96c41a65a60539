import NapiVm.Rpc.Outbound
import Mathlib.Data.List.Perm.Basic

/-!
# Requests and their cancellations on the wire

A cancellation travels on the control queue and may overtake the request it cancels, so the
writer looks every request up in the pending map before it writes it.  The entry is removed
before the cancellation is sent and never comes back, hence what was cancelled first is
not written afterwards.

* `Outbound.traffic_step` — what one section adds to the messages under way or written.
* `Outbound.Tracked` — what holds of every request at any time.
* `Outbound.cancel_never_overtaken` — the order on the wire, over all runs.
-/

namespace NapiVm.Rpc

open Host List

/-! ## Messages of one call -/

namespace Message

/-- The request with this id. -/
def isRequest (id : Nat) : Message → Bool
  | request n _ _ => decide (n = id)
  | _ => false

/-- The cancellation of the request with this id. -/
def isCancel (id : Nat) : Message → Bool
  | cancel n => decide (n = id)
  | _ => false

end Message

/-- The frame that the writer has not written yet. -/
def Writer.carried : Writer → Option QueuedFrame
  | checking f => some f
  | writing f => some f
  | _ => none

/-- A call in this phase is past the pending map's door. -/
def CallPhase.entered : CallPhase → Bool
  | allocated .. => false
  | _ => true

namespace Outbound

variable {serialize : Serializer} {w w' : Outbound}

/-- How many messages with a property are in a channel. -/
def countQueue (p : Message → Bool) (frames : List QueuedFrame) : Nat :=
  (frames.filterMap (·.message)).countP p

/-- How many messages with a property are under way or written. -/
def traffic (w : Outbound) (p : Message → Bool) : Nat :=
  w.sends.countP (fun s => p s.message) + countQueue p w.control + countQueue p w.business +
    countQueue p w.events + countQueue p w.writer.carried.toList + w.written.countP p

/-- The request call entered the pending map, or was refused by it. -/
def Entered (w : Outbound) (id : Nat) : Prop :=
  ∃ phase, w.calls id = some phase ∧ phase.entered = true

section Counts

variable (p : Message → Bool)

@[simp] theorem countQueue_nil : countQueue p [] = 0 := rfl

@[simp] theorem countQueue_append (l l' : List QueuedFrame) :
    countQueue p (l ++ l') = countQueue p l + countQueue p l' := by
  simp [countQueue, countP_append]

theorem countQueue_cons (f : QueuedFrame) (l : List QueuedFrame) :
    countQueue p (f :: l) = countQueue p [f] + countQueue p l :=
  countQueue_append p [f] l

theorem countQueue_some (m : Message) (data : List UInt8) :
    countQueue p [⟨some m, data⟩] = if p m then 1 else 0 := by
  simp [countQueue, countP_cons]

theorem countQueue_one (f : QueuedFrame) : countQueue p [f] = f.message.toList.countP p := by
  obtain ⟨message, data⟩ := f
  cases message <;> rfl

/-- A call of `enqueue` taken out of the list. -/
theorem countP_eraseIdx {k : Nat} {s : Send} (h : w.sends[k]? = some s) :
    w.sends.countP (fun s => p s.message) =
      (if p s.message then 1 else 0) + (w.sends.eraseIdx k).countP (fun s => p s.message) := by
  obtain ⟨hlt, rfl⟩ := List.getElem?_eq_some_iff.1 h
  rw [← (getElem_cons_eraseIdx_perm hlt).countP_eq _, countP_cons]
  exact Nat.add_comm _ _

theorem traffic_send (m : Message) :
    (w.send m).traffic p = (if p m then 1 else 0) + w.traffic p := by
  simp only [traffic, send, countP_cons]
  omega

end Counts

/-! ## One section -/

/-- What a section adds to the traffic. -/
inductive Creates (w w' : Outbound) : Option Message → Prop where
  | nothing : Creates w w' none
  | request (id : Nat) (method : String) (params : Json) (room : Nat)
      (hcall : w.calls id = some (.allocated method params room)) (hafter : w'.Entered id) :
      Creates w w' (some (.request id method params))
  | cancel (id : Nat) (hpending : id ∈ Slots.keys w.pending)
      (hafter : id ∉ Slots.keys w'.pending) :
      Creates w w' (some (.cancel id))
  | other (m : Message) (hrequest : ∀ id, m.isRequest id = false)
      (hcancel : ∀ id, m.isCancel id = false) : Creates w w' (some m)

/-- What a section does to requests and cancellations. -/
structure Evolves (w w' : Outbound) (created : Option Message) : Prop where
  traffic : ∀ p, w'.traffic p ≤ w.traffic p + created.toList.countP p
  creates : Creates w w' created
  entered : ∀ id, w.Entered id → w'.Entered id
  calls : ∀ id, w'.calls id ≠ none →
    w.calls id ≠ none ∨ (id = w.counter ∧ w.counter < w'.counter) ∨ 0 < w.traffic (·.isRequest id)
  counter : w.counter ≤ w'.counter
  pending : ∀ id ∈ Slots.keys w'.pending,
    id ∈ Slots.keys w.pending ∨ ∃ method params, created = some (.request id method params)

/-- A section that leaves the calls alone. -/
theorem Evolves.of_same (htraffic : ∀ p, w'.traffic p ≤ w.traffic p) (hcalls : w'.calls = w.calls)
    (hcounter : w'.counter = w.counter)
    (hpending : ∀ id ∈ Slots.keys w'.pending, id ∈ Slots.keys w.pending) : Evolves w w' none where
  traffic := htraffic
  creates := .nothing
  entered id h := by simpa only [Entered, hcalls] using h
  calls id h := .inl (by rwa [← hcalls])
  counter := Nat.le_of_eq hcounter.symm
  pending id h := .inl (hpending id h)

/-- A section that sends one message and leaves the calls alone. -/
theorem Evolves.of_send {m : Message} (hrequest : ∀ id, m.isRequest id = false)
    (hcancel : ∀ id, m.isCancel id = false) : Evolves w (w.send m) (some m) where
  traffic p := by
    simp only [traffic_send, Option.toList_some, countP_cons, countP_nil]
    omega
  creates := .other m hrequest hcancel
  entered id h := h
  calls id h := .inl h
  counter := Nat.le_refl _
  pending id h := .inl h

variable {id n k : Nat} {phase : CallPhase} {m : Move} {s : Send}

/-- Setting a phase that is not the first. -/
theorem entered_setPhase (hphase : phase.entered = true) (h : w.Entered n) :
    (w.setPhase id phase).Entered n := by
  by_cases hn : n = id
  · subst hn
    exact ⟨phase, PMap.insert_self, hphase⟩
  · obtain ⟨old, hold, hne⟩ := h
    exact ⟨old, (PMap.insert_of_ne hn).trans hold, hne⟩

theorem calls_setPhase (h : (w.setPhase id phase).calls n ≠ none) : n = id ∨ w.calls n ≠ none := by
  by_cases hn : n = id
  · exact .inl hn
  · exact .inr fun hx => h ((PMap.insert_of_ne hn).trans hx)

/-- A call that is there moves on. -/
theorem Evolves.of_phase (hcall : w.calls id ≠ none ∨ 0 < w.traffic (·.isRequest id))
    (hphase : phase.entered = true) (htraffic : ∀ p, w'.traffic p ≤ w.traffic p)
    (hcalls : w'.calls = w.calls.insert id phase) (hcounter : w'.counter = w.counter)
    (hpending : ∀ n ∈ Slots.keys w'.pending, n ∈ Slots.keys w.pending) : Evolves w w' none where
  traffic := htraffic
  creates := .nothing
  entered n h := by
    have hset : (w.setPhase id phase).Entered n := entered_setPhase hphase h
    simpa only [Entered, setPhase, ← hcalls] using hset
  calls n h := by
    rw [hcalls] at h
    rcases calls_setPhase (w := w) h with rfl | h
    · exact hcall.imp_right .inr
    · exact .inl h
  counter := Nat.le_of_eq hcounter.symm
  pending n h := .inl (hpending n h)

/-- The bytes are none of the calls' business. -/
theorem Evolves.setBytes {created : Option Message} (h : Evolves w w' created) (bytes : Nat) :
    Evolves w { w' with bytes := bytes } created where
  traffic := h.traffic
  creates := by
    cases h.creates with
    | nothing => exact .nothing
    | request id method params room hcall hafter =>
      exact .request id method params room hcall hafter
    | cancel id hpending hafter => exact .cancel id hpending hafter
    | other m hrequest hcancel => exact .other m hrequest hcancel
  entered := h.entered
  calls := h.calls
  counter := h.counter
  pending := h.pending

theorem mem_keys_removeKey {pending : Slots Nat Bool}
    (h : n ∈ Slots.keys (Slots.removeKey pending id)) : n ∈ Slots.keys pending ∧ n ≠ id := by
  simp only [Slots.keys, Slots.removeKey, mem_map, mem_filter, decide_eq_true_eq] at h
  obtain ⟨pair, ⟨hmem, hne⟩, rfl⟩ := h
  exact ⟨mem_map_of_mem hmem, hne⟩

theorem mem_keys_of_get {pending : Slots Nat Bool} (h : (Slots.get pending id).isSome) :
    id ∈ Slots.keys pending := by
  obtain ⟨business, hget⟩ := Option.isSome_iff_exists.1 h
  exact mem_map_of_mem (Slots.mem_of_get hget)

/-- A call that is there moves on and removes its entry. -/
theorem evolves_removeEntry {old : CallPhase} (hcall : w.calls id = some old)
    (hphase : phase.entered = true) :
    ∃ created, Evolves w ((w.setPhase id phase).removeEntry id) created := by
  have hsame : Evolves w { w.setPhase id phase with
      pending := Slots.removeKey w.pending id } none :=
    .of_phase (.inl (by rw [hcall]; nofun)) hphase (fun _ => Nat.le_refl _) rfl rfl
      fun n hn => (mem_keys_removeKey hn).1
  unfold removeEntry
  by_cases hget : (Slots.get w.pending id).isSome
  · refine ⟨some (.cancel id), ?_⟩
    rw [if_pos (show (Slots.get (w.setPhase id phase).pending id).isSome from hget)]
    refine ⟨fun p => ?_, .cancel id (mem_keys_of_get hget) fun hx => (mem_keys_removeKey hx).2 rfl,
      hsame.entered, hsame.calls, hsame.counter, fun n hn => .inl (mem_keys_removeKey hn).1⟩
    refine Nat.le_of_eq ((traffic_send p _).trans ?_)
    simp only [Option.toList_some, countP_cons, countP_nil, Nat.zero_add]
    exact Nat.add_comm _ _
  · refine ⟨none, ?_⟩
    rw [if_neg (show ¬ (Slots.get (w.setPhase id phase).pending id).isSome from hget)]
    exact hsame

theorem evolves_performCall (hfresh : ∀ id, w.calls id ≠ none → id < w.counter)
    (h : w.performCall m = some w') : ∃ created, Evolves w w' created := by
  unfold performCall at h
  split at h
  · -- allocate
    split at h
    · cases h
      have hne : ∀ id, w.calls id ≠ none → id ≠ w.counter := fun id hid => (hfresh id hid).ne
      refine ⟨none, fun _ => Nat.le_refl _, .nothing, fun id hid => ?_, fun id hid => ?_,
        Nat.le_succ _, fun _ hn => .inl hn⟩
      · obtain ⟨old, hold, hphase⟩ := hid
        exact ⟨old, (PMap.insert_of_ne (hne id (by rw [hold]; nofun))).trans hold, hphase⟩
      · exact (calls_setPhase (w := w) hid).symm.imp_right fun heq => .inl ⟨heq, Nat.lt_succ_self _⟩
    · cases h
  · -- insert
    rename_i id
    split at h
    · rename_i method params room hcall
      dsimp only at h
      split at h
      · cases h
        exact ⟨none, .of_phase (.inl (by rw [hcall]; nofun)) rfl (fun _ => Nat.le_refl _) rfl rfl
          fun _ hn => hn⟩
      · cases h
        refine ⟨some (.request id method params), fun p => ?_, .request id method params room hcall
          ⟨.enqueuing, PMap.insert_self, rfl⟩, fun n hn => entered_setPhase rfl hn,
          fun n hn => ?_, Nat.le_refl _, fun n hn => ?_⟩
        · refine Nat.le_of_eq ((traffic_send p _).trans ?_)
          simp only [Option.toList_some, countP_cons, countP_nil, Nat.zero_add]
          exact Nat.add_comm _ _
        · rcases calls_setPhase (w := w) hn with rfl | hn
          · exact .inl (by rw [hcall]; nofun)
          · exact .inl hn
        · simp only [send, Slots.keys_append, Slots.keys_cons, Slots.keys_nil, mem_append,
            mem_singleton] at hn
          exact hn.imp_right fun heq => ⟨method, params, by rw [heq]⟩
    · cases h
  · -- abort
    split at h
    · rename_i hcall
      cases h
      exact ⟨none, .of_phase (.inl (by rw [hcall]; nofun)) rfl (fun _ => Nat.le_refl _) rfl rfl
        fun _ hn => (mem_keys_removeKey hn).1⟩
    · cases h
  · -- decide
    split at h
    · rename_i hcall
      cases h
      exact ⟨none, .of_phase (.inl (by rw [hcall]; nofun)) rfl (fun _ => Nat.le_refl _) rfl rfl
        fun _ hn => hn⟩
    · cases h
  · -- dropFuture
    split at h
    · rename_i hcall
      cases h
      exact ⟨none, .of_phase (.inl (by rw [hcall]; nofun)) rfl (fun _ => Nat.le_refl _) rfl rfl
        fun _ hn => hn⟩
    · cases h
  · -- remove
    split at h
    · rename_i hcall
      cases h
      exact evolves_removeEntry hcall rfl
    · cases h
  · -- dropGuard
    split at h
    · rename_i hcall
      cases h
      exact evolves_removeEntry hcall rfl
    · cases h
  · cases h

/-- A call of `enqueue` returns, with or without an error. -/
theorem evolves_return {v : Outbound} {m : Message}
    (htraffic : ∀ p, traffic { v with sends := v.sends.eraseIdx k } p ≤ w.traffic p)
    (hcalls : v.calls = w.calls) (hcounter : v.counter = w.counter)
    (hpending : v.pending = w.pending) (hm : ∀ p, p m = true → 0 < w.traffic p) :
    Evolves w (v.sendFailed k m) none ∧ Evolves w (v.sendDone k m) none := by
  have hkeys : ∀ n ∈ Slots.keys v.pending, n ∈ Slots.keys w.pending := fun n hn => hpending ▸ hn
  cases m with
  | request id method params =>
    have hid := hm (·.isRequest id) (decide_eq_true rfl)
    have hinsert : ∀ phase, v.calls.insert id phase = w.calls.insert id phase :=
      fun phase => by rw [hcalls]
    exact ⟨.of_phase (.inr hid) rfl htraffic (hinsert _) hcounter hkeys,
      .of_phase (.inr hid) rfl htraffic (hinsert _) hcounter hkeys⟩
  | response id method ok body =>
    refine ⟨.of_same htraffic hcalls hcounter hkeys, ?_⟩
    cases ok with
    | true => exact .of_same htraffic hcalls hcounter hkeys
    | false => exact .of_same htraffic hcalls hcounter hkeys
  | _ =>
    exact ⟨.of_same htraffic hcalls hcounter hkeys, .of_same htraffic hcalls hcounter hkeys⟩

theorem evolves_sendFailed (hk : w.sends[k]? = some s) :
    Evolves w (w.sendFailed k s.message) none := by
  refine (evolves_return (fun p => ?_) rfl rfl rfl fun p hp => ?_).1
  · simp only [traffic, countP_eraseIdx p hk]
    omega
  · simp only [traffic, countP_eraseIdx p hk, hp, if_true]
    omega

theorem evolves_proceed (hk : w.sends[k]? = some s) (stage : SendStage) :
    Evolves w (w.proceed k ⟨s.message, stage⟩) none := by
  refine .of_same (fun p => Nat.le_of_eq ?_) rfl rfl fun _ hn => hn
  simp only [traffic, proceed, countP_eraseIdx p hk, countP_cons]
  omega

theorem evolves_advance (hk : w.sends[k]? = some s) : Evolves w (w.advance serialize k s) none := by
  unfold advance
  split
  · split
    · exact evolves_sendFailed hk
    · exact evolves_proceed hk _
  · split
    · exact evolves_proceed hk _
    · exact evolves_sendFailed hk
  · split
    · exact (evolves_proceed hk _).setBytes _
    · exact evolves_sendFailed hk
  · rename_i data hstage
    split
    · refine (evolves_return (fun p => ?_) ?_ ?_ ?_ fun p hp => ?_).2
      · have hcount := countP_eraseIdx p hk
        cases s.message.queue <;>
          simp only [setQueue, queued, traffic, countQueue_append, countQueue_some] <;> omega
      · cases s.message.queue <;> rfl
      · cases s.message.queue <;> rfl
      · cases s.message.queue <;> rfl
      · simp only [traffic, countP_eraseIdx p hk, hp, if_true]
        omega
    · exact evolves_proceed hk _
  · exact (evolves_sendFailed hk).setBytes _

theorem evolves_performShared (h : w.performShared serialize m = some w') :
    ∃ created, Evolves w w' created := by
  cases m with
  | notify method params =>
    simp only [performShared] at h
    split at h
    · cases h
    · cases h
      exact ⟨_, .of_send (fun _ => rfl) fun _ => rfl⟩
  | advance k =>
    simp only [performShared] at h
    split at h
    · rename_i s hk
      cases h
      exact ⟨none, evolves_advance hk⟩
    · cases h
  | flush =>
    simp only [performShared] at h
    split at h
    · cases h
    · cases h
      refine ⟨none, .of_same (fun p => Nat.le_of_eq ?_) rfl rfl fun _ hn => hn⟩
      simp only [traffic, countQueue_append, countQueue_one, Option.toList_none, countP_nil]
      omega
  | settle id =>
    cases h
    exact ⟨none, .of_same (fun _ => Nat.le_refl _) rfl rfl fun _ hn => (mem_keys_removeKey hn).1⟩
  | register id method =>
    simp only [performShared] at h
    split at h <;> cases h <;>
      exact ⟨none, .of_same (fun _ => Nat.le_refl _) rfl rfl fun _ hn => hn⟩
  | overload id method body =>
    cases h
    exact ⟨_, .of_send (fun _ => rfl) fun _ => rfl⟩
  | reply k ok body =>
    simp only [performShared] at h
    split at h
    · rename_i id method _
      cases h
      have hsend := Evolves.of_send (w := w) (m := .response id method ok body)
        (fun _ => rfl) fun _ => rfl
      exact ⟨_, hsend.traffic, .other _ (fun _ => rfl) fun _ => rfl, hsend.entered, hsend.calls,
        hsend.counter, hsend.pending⟩
    · cases h
  | release k =>
    simp only [performShared] at h
    split at h
    · cases h
      split <;> exact ⟨none, .of_same (fun _ => Nat.le_refl _) rfl rfl fun _ hn => hn⟩
    · cases h
  | hold method | close =>
    cases h
    exact ⟨none, .of_same (fun _ => Nat.le_refl _) rfl rfl fun _ hn => hn⟩
  | notifyHold =>
    simp only [performShared] at h
    split at h
    · cases h
    · cases h
      exact ⟨none, .of_same (fun _ => Nat.le_refl _) rfl rfl fun _ hn => hn⟩
  | negotiate limits =>
    simp only [performShared] at h
    split at h
    · cases h
      exact ⟨none, .of_same (fun _ => Nat.le_refl _) rfl rfl fun _ hn => hn⟩
    · cases h
  | drain =>
    simp only [performShared] at h
    split at h
    · cases h
      exact ⟨none, .of_same (fun _ => Nat.le_refl _) rfl rfl nofun⟩
    · cases h
  | _ => cases h

/-- A frame that the writer takes off a channel is carried on. -/
theorem traffic_take (p : Message → Bool) (f : QueuedFrame) (rest : List QueuedFrame) :
    countQueue p (f :: rest) + countQueue p ([] : List QueuedFrame) =
      countQueue p rest + countQueue p [f] := by
  rw [countQueue_cons, countQueue_nil]
  omega

/-- A section of the writer moves a frame on, or drops it. -/
theorem evolves_performWriter (h : w.performWriter m = some w') : Evolves w w' none := by
  suffices hsuffices : (∀ p, w'.traffic p ≤ w.traffic p) ∧ w'.calls = w.calls ∧
      w'.counter = w.counter ∧ w'.pending = w.pending by
    obtain ⟨htraffic, hcalls, hcounter, hpending⟩ := hsuffices
    exact .of_same htraffic hcalls hcounter fun _ hx => hpending ▸ hx
  cases writerStep_performWriter h with
  | takeControl events f rest hw hc | takeBusiness events f rest hw hc | takeEvent f rest hw hc =>
    refine ⟨fun p => ?_, rfl, rfl, rfl⟩
    have htake := traffic_take p f rest
    simp only [traffic, hw, hc, Writer.carried, Option.toList_none, Option.toList_some]
    omega
  | wrote f hw =>
    refine ⟨fun p => ?_, rfl, rfl, rfl⟩
    simp only [traffic, hw, Writer.carried, Option.toList_none, Option.toList_some,
      countQueue_nil, countQueue_one, countP_append]
    omega
  | drop f ends hw =>
    refine ⟨fun p => ?_, rfl, rfl, rfl⟩
    cases ends <;> simp [traffic, hw, Writer.carried]
  | discard q f rest hw hq =>
    have htake := fun p => countQueue_cons p f rest
    cases q with
    | control =>
      refine ⟨fun p => ?_, rfl, rfl, rfl⟩
      simp only [traffic, setQueue, show w.control = f :: rest from hq, htake p]
      omega
    | business =>
      refine ⟨fun p => ?_, rfl, rfl, rfl⟩
      simp only [traffic, setQueue, show w.business = f :: rest from hq, htake p]
      omega
    | events =>
      refine ⟨fun p => ?_, rfl, rfl, rfl⟩
      simp only [traffic, setQueue, show w.events = f :: rest from hq, htake p]
      omega
  | _ =>
    refine ⟨fun p => ?_, rfl, rfl, rfl⟩
    simp only [traffic, *, Writer.carried, Option.toList_none, Option.toList_some, countQueue_nil]
    omega

/-! ## The writer -/

/-- What a section does to the wire: nothing, or the writer ends its frame. -/
inductive Writes (w w' : Outbound) : Prop where
  | same (hwritten : w'.written = w.written) (hwriter : w'.writer = w.writer)
  /-- The writer goes on, and a request it is about to write is still pending. -/
  | moved (hwritten : w'.written = w.written) (hpending : w'.pending = w.pending)
      (hwriter : ∀ f, w'.writer = .writing f →
        ∀ id method params, f.message = some (.request id method params) →
          id ∈ Slots.keys w.pending)
  | wrote (f : QueuedFrame) (hbefore : w.writer = .writing f)
      (hwritten : w'.written = w.written ++ f.message.toList)
      (hafter : w'.writer = .spent f false)

theorem writer_setQueue (q : Queue) (frames : List QueuedFrame) :
    (w.setQueue q frames).writer = w.writer ∧ (w.setQueue q frames).written = w.written := by
  cases q <;> exact ⟨rfl, rfl⟩

theorem writer_sendFailed (k : Nat) (m : Message) :
    (w.sendFailed k m).writer = w.writer ∧ (w.sendFailed k m).written = w.written := by
  cases m <;> exact ⟨rfl, rfl⟩

theorem writer_sendDone (k : Nat) (m : Message) :
    (w.sendDone k m).writer = w.writer ∧ (w.sendDone k m).written = w.written := by
  cases m with
  | response id method ok body => cases ok <;> exact ⟨rfl, rfl⟩
  | _ => exact ⟨rfl, rfl⟩

theorem writer_removeEntry (id : Nat) :
    (w.removeEntry id).writer = w.writer ∧ (w.removeEntry id).written = w.written := by
  unfold removeEntry
  split <;> exact ⟨rfl, rfl⟩

theorem writer_advance (k : Nat) (s : Send) :
    (w.advance serialize k s).writer = w.writer ∧
      (w.advance serialize k s).written = w.written := by
  unfold advance
  split
  · split
    · exact writer_sendFailed k _
    · exact ⟨rfl, rfl⟩
  · split
    · exact ⟨rfl, rfl⟩
    · exact writer_sendFailed k _
  · split
    · exact ⟨rfl, rfl⟩
    · exact writer_sendFailed k _
  · split
    · obtain ⟨hwriter, hwritten⟩ := writer_setQueue (w := w) s.message.queue
        (w.queued s.message.queue ++ [⟨some s.message, _⟩])
      exact ⟨(writer_sendDone k _).1.trans hwriter, (writer_sendDone k _).2.trans hwritten⟩
    · exact ⟨rfl, rfl⟩
  · exact writer_sendFailed k _

theorem still_performCall (h : w.performCall m = some w') :
    w'.writer = w.writer ∧ w'.written = w.written := by
  unfold performCall at h
  split at h
  · split at h <;> cases h
    exact ⟨rfl, rfl⟩
  · split at h
    · dsimp only at h
      split at h <;> cases h <;> exact ⟨rfl, rfl⟩
    · cases h
  · split at h <;> cases h
    exact ⟨rfl, rfl⟩
  · split at h <;> cases h
    exact ⟨rfl, rfl⟩
  · split at h <;> cases h
    exact ⟨rfl, rfl⟩
  · split at h <;> cases h
    exact writer_removeEntry _
  · split at h <;> cases h
    exact writer_removeEntry _
  · cases h

theorem still_performShared (h : w.performShared serialize m = some w') :
    w'.writer = w.writer ∧ w'.written = w.written := by
  unfold performShared at h
  split at h
  · split at h <;> cases h
    exact ⟨rfl, rfl⟩
  · split at h <;> cases h
    exact writer_advance _ _
  · split at h <;> cases h
    exact ⟨rfl, rfl⟩
  · cases h
    exact ⟨rfl, rfl⟩
  · split at h <;> cases h <;> exact ⟨rfl, rfl⟩
  · cases h
    exact ⟨rfl, rfl⟩
  · split at h <;> cases h
    exact ⟨rfl, rfl⟩
  · split at h
    · cases h
      split <;> exact ⟨rfl, rfl⟩
    · cases h
  · cases h
    exact ⟨rfl, rfl⟩
  · split at h <;> cases h
    exact ⟨rfl, rfl⟩
  · split at h <;> cases h
    exact ⟨rfl, rfl⟩
  · cases h
    exact ⟨rfl, rfl⟩
  · split at h <;> cases h
    exact ⟨rfl, rfl⟩
  · cases h

theorem writes_performWriter (h : w.performWriter m = some w') : Writes w w' := by
  cases writerStep_performWriter h with
  | pass f hw hpending =>
    refine .moved rfl rfl fun f' heq => ?_
    cases heq
    exact hpending
  | wrote f hw => exact .wrote f hw rfl rfl
  | drop f ends hw => cases ends <;> exact .moved rfl rfl nofun
  | discard q f rest hw hq => exact .same (writer_setQueue q rest).2 (writer_setQueue q rest).1
  | _ => exact .moved rfl rfl nofun

/-! ## Every request, at any time -/

/-- A frame on the wire never follows the cancellation of its own call. -/
def InOrder (written : List Message) : Prop :=
  written.Pairwise fun before after => ∀ id, before.isCancel id = true → after.isRequest id = false

/-- What holds of requests and cancellations at any time. -/
structure Tracked (w : Outbound) : Prop where
  fresh : ∀ id, w.calls id ≠ none → id < w.counter
  once : ∀ id, w.traffic (·.isRequest id) ≤ 1
  sent : ∀ id, 0 < w.traffic (·.isRequest id) → w.Entered id
  listed : ∀ id ∈ Slots.keys w.pending, w.Entered id
  /-- What is cancelled has left the pending map, for good. -/
  cancelled : ∀ id, 0 < w.traffic (·.isCancel id) → id ∉ Slots.keys w.pending ∧ w.Entered id
  order : InOrder w.written
  /-- The request being written was not cancelled before. -/
  writing : ∀ f, w.writer = .writing f → ∀ id method params,
    f.message = some (.request id method params) → w.written.countP (·.isCancel id) = 0

theorem tracked_new (session : String) (side : Char) (limits : Limits) :
    (new session side limits).Tracked where
  fresh id h := absurd rfl h
  once id := Nat.zero_le _
  sent id h := absurd h (Nat.lt_irrefl 0)
  listed id h := by cases h
  cancelled id h := absurd h (Nat.lt_irrefl 0)
  order := .nil
  writing f h := by cases h

theorem evolves_perform (hfresh : ∀ id, w.calls id ≠ none → id < w.counter)
    (h : w.perform serialize m = some w') : ∃ created, Evolves w w' created := by
  rcases perform_cases h with h | h | h
  · exact evolves_performCall hfresh h
  · exact evolves_performShared h
  · exact ⟨none, evolves_performWriter h⟩

theorem writes_perform (h : w.perform serialize m = some w') : Writes w w' := by
  rcases perform_cases h with h | h | h
  · exact .same (still_performCall h).2 (still_performCall h).1
  · exact .same (still_performShared h).2 (still_performShared h).1
  · exact writes_performWriter h

theorem countP_written_le (p : Message → Bool) : w.written.countP p ≤ w.traffic p :=
  Nat.le_add_left _ _

theorem Tracked.next (h : w.Tracked) (hm : w.perform serialize m = some w') : w'.Tracked := by
  obtain ⟨created, hevolves⟩ := evolves_perform h.fresh hm
  have hwrites := writes_perform hm
  -- how often a call's request and its cancellation may be counted afterwards
  have hrequest : ∀ id, w'.traffic (·.isRequest id) ≤ w.traffic (·.isRequest id) ∨
      (w.traffic (·.isRequest id) = 0 ∧ w'.traffic (·.isRequest id) ≤ 1 ∧ w'.Entered id) := by
    intro id
    have hle := hevolves.traffic (·.isRequest id)
    cases hevolves.creates with
    | nothing => exact .inl hle
    | request n method params room hcall hafter =>
      by_cases hn : n = id
      · subst hn
        have hzero : w.traffic (·.isRequest n) = 0 := by
          by_contra hne
          obtain ⟨phase, hphase, hentered⟩ := h.sent n (Nat.pos_of_ne_zero hne)
          cases hcall.symm.trans hphase
          cases hentered
        rw [hzero, Nat.zero_add] at hle
        exact .inr ⟨hzero, Nat.le_trans hle countP_le_length, hafter⟩
      · exact .inl (by simpa [Message.isRequest, hn] using hle)
    | cancel n hpending hafter => exact .inl hle
    | other message hnot hcancel => exact .inl (by simpa [hnot id] using hle)
  have hcancel : ∀ id, w'.traffic (·.isCancel id) ≤ w.traffic (·.isCancel id) ∨
      (id ∈ Slots.keys w.pending ∧ id ∉ Slots.keys w'.pending) := by
    intro id
    have hle := hevolves.traffic (·.isCancel id)
    cases hevolves.creates with
    | nothing => exact .inl hle
    | request n method params room hcall hafter => exact .inl hle
    | cancel n hpending hafter =>
      by_cases hn : n = id
      · subst hn
        exact .inr ⟨hpending, hafter⟩
      · exact .inl (by simpa [Message.isCancel, hn] using hle)
    | other message hnot hnotCancel => exact .inl (by simpa [hnotCancel id] using hle)
  have hwriting : ∀ f, w.writer = .writing f → ∀ id method params,
      f.message = some (.request id method params) → w.written.countP (·.isCancel id) = 0 :=
    h.writing
  refine ⟨fun id hid => ?_, fun id => ?_, fun id hid => ?_, fun id hid => ?_, fun id hid => ?_,
    ?_, fun f hf id method params hmessage => ?_⟩
  · rcases hevolves.calls id hid with hold | ⟨rfl, hlt⟩ | hpos
    · exact Nat.lt_of_lt_of_le (h.fresh id hold) hevolves.counter
    · exact hlt
    · obtain ⟨phase, hphase, -⟩ := h.sent id hpos
      exact Nat.lt_of_lt_of_le (h.fresh id (by rw [hphase]; nofun)) hevolves.counter
  · rcases hrequest id with hle | ⟨-, hle, -⟩
    · exact Nat.le_trans hle (h.once id)
    · exact hle
  · rcases hrequest id with hle | ⟨-, -, hentered⟩
    · exact hevolves.entered id (h.sent id (Nat.lt_of_lt_of_le hid hle))
    · exact hentered
  · rcases hevolves.pending id hid with hold | ⟨method, params, rfl⟩
    · exact hevolves.entered id (h.listed id hold)
    · cases hevolves.creates with
      | request _ _ _ _ _ hafter => exact hafter
      | other _ hnot _ => exact absurd (hnot id) (by simp [Message.isRequest])
  · rcases hcancel id with hle | ⟨hin, hout⟩
    · obtain ⟨hout, hentered⟩ := h.cancelled id (Nat.lt_of_lt_of_le hid hle)
      refine ⟨fun hin => ?_, hevolves.entered id hentered⟩
      rcases hevolves.pending id hin with hold | ⟨method, params, rfl⟩
      · exact hout hold
      · cases hevolves.creates with
        | request _ _ _ _ hcall _ =>
          obtain ⟨phase, hphase, hpast⟩ := hentered
          cases hcall.symm.trans hphase
          cases hpast
        | other _ hnot _ => exact absurd (hnot id) (by simp [Message.isRequest])
    · exact ⟨hout, hevolves.entered id (h.listed id hin)⟩
  · cases hwrites with
    | same hwritten hwriter => exact hwritten ▸ h.order
    | moved hwritten hpending hwriter => exact hwritten ▸ h.order
    | wrote f hbefore hwritten hafter =>
      rw [hwritten]
      refine pairwise_append.2 ⟨h.order, ?_, fun a ha b hb id hcancelled => ?_⟩
      · cases f.message <;> simp
      · rw [Option.mem_toList] at hb
        cases b with
        | request n method params =>
          by_contra hne
          have heq : n = id := by simpa [Message.isRequest] using hne
          subst heq
          have hzero := h.writing f hbefore n method params hb
          rw [countP_eq_zero] at hzero
          exact hzero a ha hcancelled
        | _ => rfl
  · cases hwrites with
    | same hwritten hwriter =>
      rw [hwritten]
      exact h.writing f (hwriter ▸ hf) id method params hmessage
    | moved hwritten hpending hwriter =>
      have hin := hwriter f hf id method params hmessage
      rw [hwritten]
      by_contra hne
      have hpos := Nat.lt_of_lt_of_le (Nat.pos_of_ne_zero hne)
        (countP_written_le (w := w) (·.isCancel id))
      exact (h.cancelled id hpos).1 hin
    | wrote f' hbefore hwritten hafter =>
      rw [hafter] at hf
      cases hf

theorem Runs.tracked (h : w.Runs serialize) : w.Tracked := by
  refine Reachable.invariant (fun w hw => ?_) (fun w w' hw hstep => ?_) h
  · obtain ⟨session, side, limits, -, rfl⟩ := hw
    exact tracked_new session side limits
  · obtain ⟨m, hm⟩ := hstep
    exact hw.next hm

/-- **A cancellation never overtakes its request for good**: in every run, a request that is
written was not cancelled on the wire before, and it is written at most once. -/
theorem cancel_never_overtaken (h : w.Runs serialize) :
    InOrder w.written ∧ ∀ id, w.written.countP (·.isRequest id) ≤ 1 :=
  ⟨h.tracked.order, fun id => Nat.le_trans (countP_written_le _) (h.tracked.once id)⟩

/-- A business call gives up before the writer comes to its request. -/
def givenUp : List Move :=
  [.allocate "system.invoke" (.object []), .insert 1, .advance 0, .advance 0, .advance 0,
    .advance 0, .decide 1, .remove 1, .advance 0, .advance 0, .advance 0, .advance 0,
    .sample, .poll, .pollControl, .check, .wrote, .dropFrame, .sample, .poll, .pollControl,
    .takeBusiness, .check]

theorem cancel_never_overtaken_givenUp : ∃ w : Outbound,
    w.written.map (·.isCancel 1) = [true] ∧ w.business.length = 0 ∧ InOrder w.written := by
  have hrun : ((new "s" 'h' .default).performAll compactValue givenUp).any (fun w =>
      w.written.map (·.isCancel 1) == [true] && w.business.length == 0) = true := by
    decide +kernel
  obtain ⟨w, hw, hfound⟩ := (Option.any_eq_true _ _).1 hrun
  simp only [Bool.and_eq_true, beq_iff_eq] at hfound
  have h₀ : (new "s" 'h' .default).Runs compactValue :=
    .start ⟨"s", 'h', .default, Limits.valid_default, rfl⟩
  exact ⟨w, hfound.1, hfound.2, (cancel_never_overtaken (runs_performAll h₀ hw)).1⟩

end Outbound

end NapiVm.Rpc
