import NapiVm.Rpc.Track

/-!
# A request settles once

Every section of every thread is, for each request id, one step of `Track`.  So the
invariant of a single request holds in every state of every run, and with it what
the peer promises to its callers.

* `Peer.track_perform` — the projection: a section is a step of each request.
* `Peer.sound_of_runs` — the invariant over whole runs.
* `Peer.settles_once` — each request leaves the pending map once, returns one
  outcome, has its result accepted at most once and then with an open waiter;
  nothing is left when all calls are over.
-/

namespace NapiVm.Rpc

open List

variable {α : Type}

namespace Event

/-- Did `id` enter the pending map here? -/
@[simp] def isEntered (id : Nat) : Event α → Bool
  | .entered i => i == id
  | _ => false

/-- Did `id` leave the pending map here? -/
@[simp] def isLeft (id : Nat) : Event α → Bool
  | .left i => i == id
  | _ => false

/-- Did the result handler of `id` run here? -/
@[simp] def isAccepted (id : Nat) : Event α → Bool
  | .accepted i => i == id
  | _ => false

/-- The reception of a response to `id`, and whether its waiter was open. -/
@[simp] def reception (id : Nat) : Event α → Option Bool
  | .received i w => if i = id then some w else none
  | _ => none

/-- What `id` returned here. -/
@[simp] def outcome (id : Nat) : Event α → Option (Outcome α)
  | .returned i o => if i = id then some o else none
  | _ => none

end Event

/-- How far the reader is with the response of `id`. -/
def Reader.stage (id : Nat) : Reader α → Stage
  | .holding i _ _ => if i = id then .holding else .none
  | .checked i _ _ => if i = id then .checked else .none
  | .sending i _ => if i = id then .sending else .none
  | _ => .none

/-- Has `close` raised the flag? -/
def Closing.raised : Closing → Bool
  | .none => false
  | .reason _ => false
  | _ => true

/-- Has `close` drained the pending map? -/
def Closing.drained : Closing → Bool
  | .draining _ _ => true
  | .walked => true
  | _ => false

theorem Closing.raised_of_drained {c : Closing} (h : c.drained = true) : c.raised = true := by
  cases c with
  | draining e ids => rfl
  | walked => rfl
  | _ => cases h

/-- The drained requests `close` still has to tell. -/
def Closing.owed : Closing → List Nat
  | .draining _ ids => ids
  | _ => []

namespace Peer

/-- One request of the peer. -/
def track (s : Peer α) (id : Nat) : Track α where
  call := s.calls id
  pending := (Slots.keys s.pending).contains id
  stage := s.reader.stage id
  owed := s.closing.owed.contains id
  drained := s.closing.drained
  entered := s.history.countP (Event.isEntered id)
  left := s.history.countP (Event.isLeft id)
  receptions := s.history.filterMap (Event.reception id)
  accepted := s.history.countP (Event.isAccepted id)
  outcomes := s.history.filterMap (Event.outcome id)

/-- **The invariant of the peer.** -/
structure Sound (s : Peer α) : Prop where
  /-- Ids are not reused. -/
  fresh : ∀ id, s.counter ≤ id → s.calls id = none
  nodup : (Slots.keys s.pending).Nodup
  owed : s.closing.owed.Nodup
  closed : s.closing.raised = true → s.closed = true
  tracks : ∀ id, (s.track id).Sound

/-! ## The sections as steps of each request -/

theorem track_insert (s : Peer α) (id j : Nat) (c : Call α) :
    track { s with calls := s.calls.insert id c } j =
      if j = id then { s.track id with call := some c } else s.track j := by
  by_cases h : j = id
  · subst h
    simp [track]
  · simp [track, PMap.insert_of_ne h, h]

theorem isSome_get_pending (s : Peer α) (id : Nat) :
    (Slots.get s.pending id).isSome = decide (id ∈ Slots.keys s.pending) := by
  rw [Bool.eq_iff_iff, Option.isSome_iff_ne_none]
  simp [Slots.get_eq_none]

theorem mem_keys_removeKey (s : Peer α) (id j : Nat) :
    j ∈ Slots.keys (Slots.removeKey s.pending id) ↔ j ∈ Slots.keys s.pending ∧ j ≠ id := by
  simp only [Slots.keys, Slots.removeKey, mem_map, mem_filter]
  constructor
  · rintro ⟨p, ⟨hp, hne⟩, rfl⟩
    exact ⟨⟨p, hp, rfl⟩, by simpa using hne⟩
  · rintro ⟨⟨p, hp, rfl⟩, hne⟩
    exact ⟨p, ⟨hp, by simpa using hne⟩, rfl⟩

theorem track_removePending (s : Peer α) (id j : Nat) :
    (s.removePending id).track j =
      if j = id then
        { s.track id with
          pending := false
          left := (s.track id).left + (s.track id).pending.toNat }
      else s.track j := by
  by_cases h : j = id
  · subst h
    by_cases hp : j ∈ Slots.keys s.pending <;>
      simp [track, removePending, isSome_get_pending, mem_keys_removeKey, hp, filterMap_cons]
  · have hne : id ≠ j := fun hh => h hh.symm
    by_cases hp : id ∈ Slots.keys s.pending <;>
      simp [track, removePending, isSome_get_pending, mem_keys_removeKey, hp,
        filterMap_cons, h, hne]

theorem track_send (s : Peer α) (id j : Nat) (o : Outcome α) :
    (s.send id o).track j =
      if j = id then { s.track id with call := (s.track id).call.map (·.sent o) }
      else s.track j := by
  unfold send
  cases hc : s.calls id with
  | none =>
    by_cases h : j = id
    · subst h
      simp [track, hc]
    · simp [h]
  | some c =>
    by_cases h : j = id
    · subst h
      cases hcl : c.closed <;> simp [track, hc, Call.sent, hcl]
    · cases hcl : c.closed <;>
        simp [track, PMap.insert_of_ne h, h, hcl]

variable {s t : Peer α} {id : Nat} {c : Call α} {a : Action α} {result : Outcome α}

/-- A section that moves one call on by itself. -/
theorem step_insert (h : (s.track id).Step { s.track id with call := some c }) (j : Nat) :
    (s.track j).Step (track { s with calls := s.calls.insert id c } j) := by
  rw [track_insert]
  split
  · subst_vars
    exact h
  · exact .stay

/-- A section that moves one call on and removes its entry. -/
theorem step_removePending
    (h : (s.track id).Step { s.track id with
      call := some c
      pending := false
      left := (s.track id).left + (s.track id).pending.toNat }) (j : Nat) :
    (s.track j).Step (track (removePending { s with calls := s.calls.insert id c } id) j) := by
  rw [track_removePending, track_insert]
  split
  · subst_vars
    simpa [track_insert] using h
  · rename_i hne
    simp only [track_insert, if_neg hne]
    exact .stay

/-- A call that is refused returns at once. -/
theorem step_refuse (hc : s.calls id = some c) (hu : c.phase.unborn = true) (o : Outcome α)
    (j : Nat) :
    (s.track j).Step (track { s with
      calls := s.calls.insert id { c with phase := .finished (some o), closed := true }
      history := s.history ++ [.returned id o] } j) := by
  by_cases hj : j = id
  · subst hj
    have := Track.Step.refuse (t := s.track j) c o hc hu
    simpa [track, filterMap_cons] using this
  · have hne : id ≠ j := fun hh => hj hh.symm
    have := Track.Step.stay (t := s.track j)
    simpa [track, filterMap_cons, PMap.insert_of_ne hj, hne] using this

/-- A call enters the pending map. -/
theorem step_enter (hc : s.calls id = some c) (hu : c.phase.unborn = true)
    (hopen : c.closed = false) (p : Pending) (j : Nat) :
    (s.track j).Step (track { s with
      calls := s.calls.insert id { c with phase := .inserted }
      pending := s.pending ++ [(id, p)]
      history := s.history ++ [.entered id] } j) := by
  by_cases hj : j = id
  · subst hj
    have := Track.Step.enter (t := s.track j) c hc hu hopen
    simpa [track, filterMap_cons] using this
  · have hne : id ≠ j := fun hh => hj hh.symm
    have := Track.Step.stay (t := s.track j)
    simpa [track, filterMap_cons, PMap.insert_of_ne hj, hne, hj] using this

/-- A call drops its guard. -/
theorem step_release (hc : s.calls id = some c) {o : Option (Outcome α)}
    (hp : c.phase = .guarded o) (j : Nat) :
    let t := (s.setPhaseClosed id c (.finished o)).removePending id
    (s.track j).Step
      (track { t with history := t.history ++ (o.toList.map (.returned id)) } j) := by
  intro t
  have ht : ∀ j, (track { t with history := t.history ++ (o.toList.map (.returned id)) } j) =
      { t.track j with
        outcomes := (t.track j).outcomes ++ (if j = id then o.toList else []) } := by
    intro j
    cases o with
    | none => simp [track]
    | some o =>
      by_cases hj : j = id
      · subst hj
        simp [track, filterMap_cons]
      · have hne : id ≠ j := fun hh => hj hh.symm
        simp [track, filterMap_cons, hj, hne]
  rw [ht]
  by_cases hj : j = id
  · subst hj
    have := Track.Step.release (t := s.track j) c o hc hp
    simpa [t, track_removePending, setPhaseClosed, track_insert] using this
  · have := Track.Step.stay (t := s.track j)
    simpa [t, track_removePending, setPhaseClosed, track_insert, hj] using this

/-- The sections of request calls. -/
theorem track_performCall (hs : s.Sound) (h : s.performCall a = some t) (j : Nat) :
    (s.track j).Step (t.track j) := by
  cases a with
  | allocate business handler =>
    simp only [performCall] at h
    split at h
    · cases h
      exact step_insert (.allocate business handler (hs.fresh _ (Nat.le_refl _))) j
    · cases h
  | insert id =>
    simp only [performCall] at h
    split at h
    · rename_i c hc
      split at h
      · rename_i business handler hp
        have hu : c.phase.unborn = true := by rw [hp]; rfl
        split at h
        · cases h
          exact step_refuse hc hu _ j
        · cases h
          exact step_enter hc hu ((hs.tracks id).before hc hu).2.2.1 _ j
      · cases h
    · cases h
  | enqueue id room =>
    simp only [performCall] at h
    split at h
    · rename_i c hc
      split at h
      · rename_i hp
        cases h
        refine step_insert (.move c _ hc ?_) j
        obtain ⟨ph, cl, r⟩ := c
        cases hp
        split
        · exact .fail cl r closedErr
        · rename_i hopen
          split
          · refine .wait cl r ?_
            -- an open peer has not been drained
            cases hd : s.closing.drained with
            | false => exact hd
            | true => exact absurd (hs.closed (Closing.raised_of_drained hd)) hopen
          · exact .fail cl r queueErr
      · cases h
    · cases h
  | abort id =>
    simp only [performCall] at h
    split at h
    · rename_i c hc
      split at h
      · rename_i e hp
        cases h
        refine step_removePending (.remove c _ hc ?_) j
        obtain ⟨ph, cl, r⟩ := c
        cases hp
        exact .failing cl r e
      · cases h
    · cases h
  | take id =>
    simp only [performCall] at h
    split at h
    · rename_i c hc
      split at h
      · rename_i o hp _
        cases h
        refine step_insert (.move c _ hc ?_) j
        obtain ⟨ph, cl, r⟩ := c
        cases hp
        exact .decide cl r o
      · cases h
    · cases h
  | hangUp id =>
    simp only [performCall] at h
    split at h
    · rename_i c hc
      split at h
      · rename_i hp _
        split at h
        · cases h
        · cases h
          refine step_insert (.move c _ hc ?_) j
          obtain ⟨ph, cl, r⟩ := c
          cases hp
          exact .decide cl r _
      · cases h
    · cases h
  | giveUp id deadline =>
    simp only [performCall] at h
    split at h
    · rename_i c hc
      split at h
      · rename_i hp
        cases h
        refine step_insert (.move c _ hc ?_) j
        obtain ⟨ph, cl, r⟩ := c
        cases hp
        exact .decide cl r _
      · cases h
    · cases h
  | dropFuture id =>
    simp only [performCall] at h
    split at h
    · rename_i c hc
      split at h
      · rename_i hp
        cases h
        refine step_insert (.move c _ hc ?_) j
        obtain ⟨ph, cl, r⟩ := c
        cases hp
        exact .drop cl r
      · cases h
    · cases h
  | remove id =>
    simp only [performCall] at h
    split at h
    · rename_i c hc
      split at h
      · rename_i o hp
        cases h
        refine step_removePending (.remove c _ hc ?_) j
        obtain ⟨ph, cl, r⟩ := c
        cases hp
        exact .decided cl r o
      · cases h
    · cases h
  | release id =>
    simp only [performCall] at h
    split at h
    · rename_i c hc
      split at h
      · rename_i o hp
        have hr := step_release hc hp j
        cases o with
        | none =>
          cases h
          simpa using hr
        | some o =>
          cases h
          simpa using hr
      · cases h
    · cases h
  | _ => cases h

/-- A section that reads a frame or gives one up. -/
theorem step_reader {r : Reader α} (h : ∀ j, s.reader.stage j = .none)
    (hr : ∀ j, r.stage j = .none) (active : Slots Nat Active) (j : Nat) :
    (s.track j).Step (track { s with reader := r, active := active } j) := by
  have := Track.Step.stay (t := s.track j)
  simpa [track, h, hr] using this

/-- The reader takes the entry of a response. -/
theorem step_takeEntry {p : Pending} (hr : s.reader = .response id result)
    (hp : Slots.get s.pending id = some p) (hc : s.calls id = some c) (j : Nat) :
    (s.track j).Step (track { s.removePending id with
      reader := .holding id p.handler result
      history := s.history ++ [.left id, .received id !c.closed] } j) := by
  have hmem : id ∈ Slots.keys s.pending := by
    rw [← decide_eq_true_iff (p := id ∈ Slots.keys s.pending), ← isSome_get_pending, hp]
    rfl
  by_cases hj : j = id
  · subst hj
    have := Track.Step.takeEntry (t := s.track j) c hc (by simpa [track] using hmem)
      (by simp [track, hr, Reader.stage])
    simpa [track, removePending, mem_keys_removeKey, hr, Reader.stage, filterMap_cons] using
      this
  · have hne : id ≠ j := fun hh => hj hh.symm
    have := Track.Step.stay (t := s.track j)
    simpa [track, removePending, mem_keys_removeKey, hr, Reader.stage, filterMap_cons, hne, hj]
      using this

/-- The reader looks whether the waiter is open. -/
theorem step_checkWaiter {handler : Bool} (hr : s.reader = .holding id handler result)
    (hc : s.calls id = some c) (j : Nat) :
    (s.track j).Step (track { s with
      reader := if c.closed then .idle else .checked id handler result } j) := by
  by_cases hj : j = id
  · subst hj
    have := Track.Step.checkWaiter (t := s.track j) c hc (by simp [track, hr, Reader.stage])
    cases hcl : c.closed <;> simpa [track, hr, Reader.stage, hcl] using this
  · have hne : id ≠ j := fun hh => hj hh.symm
    have := Track.Step.stay (t := s.track j)
    cases hcl : c.closed <;> simpa [track, hr, Reader.stage, hne] using this

/-- The reader runs the result handler. -/
theorem step_acceptResult {handler : Bool} (hr : s.reader = .checked id handler result)
    (verdict : Except RpcError Unit) (j : Nat) :
    (s.track j).Step (track { s with
      reader := .sending id (judge handler verdict result)
      history :=
        if judged handler result then s.history ++ [.accepted id] else s.history } j) := by
  by_cases hj : j = id
  · subst hj
    have := Track.Step.acceptResult (t := s.track j) (judged handler result)
      (by simp [track, hr, Reader.stage])
    cases hk : judged handler result <;>
      simpa [track, hr, Reader.stage, filterMap_cons, hk] using this
  · have hne : id ≠ j := fun hh => hj hh.symm
    have := Track.Step.stay (t := s.track j)
    cases hk : judged handler result <;>
      simpa [track, hr, Reader.stage, filterMap_cons, hne] using this

/-- The reader sends the result. -/
theorem step_sendResult (hr : s.reader = .sending id result) (j : Nat) :
    (s.track j).Step (track { s.send id result with reader := .idle } j) := by
  have ht : track { s.send id result with reader := .idle } j =
      { (s.send id result).track j with stage := .none } := rfl
  rw [ht, track_send]
  by_cases hj : j = id
  · subst hj
    have := Track.Step.sendResult (t := s.track j) result (by simp [track, hr, Reader.stage])
    simpa using this
  · have hne : id ≠ j := fun hh => hj hh.symm
    have := Track.Step.stay (t := s.track j)
    simpa [track, hr, Reader.stage, hne, hj] using this

/-- The sections of the reader task and of inbound handlers. -/
theorem track_performReader (h : s.performReader a = some t) (j : Nat) :
    (s.track j).Step (t.track j) := by
  cases a with
  | readResponse id result | readRequest id size business | readCancel id | readFailure =>
    simp only [performReader] at h
    split at h
    · rename_i hr
      split at h
      · cases h
      · cases h
        exact step_reader (fun _ => by rw [hr]; rfl) (fun _ => rfl) _ j
    · cases h
  | takeEntry =>
    simp only [performReader] at h
    split at h
    · rename_i id result hr
      split at h
      · rename_i p c hp hc
        cases h
        exact step_takeEntry hr hp hc j
      · cases h
        exact step_reader (fun _ => by rw [hr]; rfl) (fun _ => rfl) _ j
    · cases h
  | checkWaiter =>
    simp only [performReader] at h
    split at h
    · rename_i id handler result hr
      split at h
      · rename_i c hc
        cases h
        exact step_checkWaiter hr hc j
      · cases h
    · cases h
  | acceptResult verdict =>
    simp only [performReader] at h
    split at h
    · rename_i id handler result hr
      cases h
      exact step_acceptResult hr verdict j
    · cases h
  | sendResult =>
    simp only [performReader] at h
    split at h
    · rename_i id result hr
      cases h
      exact step_sendResult hr j
    · cases h
  | register =>
    simp only [performReader] at h
    split at h
    · rename_i id size business hr
      split at h
      · cases h
        exact step_reader (fun _ => by rw [hr]; rfl) (fun _ => rfl) _ j
      · split at h
        · cases h
          exact step_reader (fun _ => by rw [hr]; rfl) (fun _ => rfl) _ j
        · cases h
          exact step_reader (fun _ => by rw [hr]; rfl) (fun _ => rfl) _ j
    · cases h
  | cancelActive =>
    simp only [performReader] at h
    split at h
    · rename_i id hr
      cases h
      exact step_reader (fun _ => by rw [hr]; rfl) (fun _ => rfl) _ j
    · cases h
  | finishActive id =>
    simp only [performReader] at h
    split at h
    · cases h
      exact .stay
    · cases h
  | _ => cases h

theorem count_beq {ids : List Nat} (hn : ids.Nodup) (j : Nat) :
    ids.countP (fun i => i == j) = (decide (j ∈ ids)).toNat := by
  rw [← count_eq_countP, hn.count]
  by_cases h : j ∈ ids <;> simp [h]

/-- `close` drains the pending map. -/
theorem step_closeDrain (hs : s.Sound) {e : RpcError} (hc : s.closing = .flagged e) (j : Nat) :
    (s.track j).Step (track { s with
      closing := .draining e (Slots.keys s.pending)
      pending := []
      history := s.history ++ (Slots.keys s.pending).map .left } j) := by
  have := Track.Step.drain (t := s.track j) (by simp [track, hc, Closing.owed])
  simpa [track, hc, Closing.owed, Closing.drained, countP_map, Function.comp_def,
    filterMap_map, count_beq hs.nodup] using this

/-- `close` tells a drained request. -/
theorem step_closeSend (hs : s.Sound) {e : RpcError} {ids : List Nat}
    (hc : s.closing = .draining e (id :: ids)) (j : Nat) :
    (s.track j).Step (track { s.send id (.error e) with closing := .draining e ids } j) := by
  have ht : track { s.send id (.error e) with closing := .draining e ids } j =
      { (s.send id (.error e)).track j with owed := ids.contains j, drained := true } := rfl
  have hnodup : (id :: ids).Nodup := by
    have := hs.owed
    rwa [hc] at this
  rw [ht, track_send]
  by_cases hj : j = id
  · subst hj
    have := Track.Step.tell (t := s.track j) (.error e) (by simp [track, hc, Closing.owed])
    have hnot : j ∉ ids := (nodup_cons.1 hnodup).1
    simpa [track, hc, Closing.owed, Closing.drained, hnot] using this
  · have := Track.Step.stay (t := s.track j)
    simpa [track, hc, Closing.owed, Closing.drained, hj] using this

/-- The sections of `close`. -/
theorem track_performClose (hs : s.Sound) (h : s.performClose a = some t) (j : Nat) :
    (s.track j).Step (t.track j) := by
  cases a with
  | closeReason e =>
    simp only [performClose] at h
    split at h
    · rename_i hc
      cases h
      have := Track.Step.stay (t := s.track j)
      simpa [track, hc, Closing.owed, Closing.drained] using this
    · cases h
      exact .stay
  | closeFlag | closeWalk =>
    simp only [performClose] at h
    split at h
    · rename_i hc
      cases h
      have := Track.Step.stay (t := s.track j)
      simpa [track, hc, Closing.owed, Closing.drained] using this
    · cases h
  | closeDrain =>
    simp only [performClose] at h
    split at h
    · rename_i hc
      cases h
      exact step_closeDrain hs hc j
    · cases h
  | closeSend =>
    simp only [performClose] at h
    split at h
    · rename_i hc
      cases h
      exact step_closeSend hs hc j
    · cases h
  | _ => cases h

/-- Whose section is it? -/
theorem perform_cases (h : s.perform a = some t) :
    s.performCall a = some t ∨ s.performReader a = some t ∨ s.performClose a = some t := by
  unfold perform at h
  simp only [Option.or_eq_some_iff, Option.or_eq_none_iff] at h
  grind

/-- **A section is a step of each request.** -/
theorem track_perform (hs : s.Sound) (h : s.perform a = some t) (j : Nat) :
    (s.track j).Step (t.track j) := by
  rcases perform_cases h with h | h | h
  · exact track_performCall hs h j
  · exact track_performReader h j
  · exact track_performClose hs h j
theorem fresh_insert (h : ∀ i, s.counter ≤ i → s.calls i = none) (hc : s.calls id = some c)
    (d : Call α) (i : Nat) (hi : s.counter ≤ i) : s.calls.insert id d i = none := by
  have hne : i ≠ id := by
    rintro rfl
    rw [h i hi] at hc
    cases hc
  rw [PMap.insert_of_ne hne, h i hi]

/-- How a section of a call changes the pending map. -/
inductive Enters (s : Peer α) : Slots Nat Pending → Prop where
  | same : Enters s s.pending
  | remove (id : Nat) : Enters s (Slots.removeKey s.pending id)
  | push (id : Nat) (p : Pending) (c : Call α) (hc : s.calls id = some c)
      (hu : c.phase.unborn = true) : Enters s (s.pending ++ [(id, p)])

theorem performCall_rest (h : s.performCall a = some t) :
    t.closing = s.closing ∧ t.closed = s.closed ∧ s.Enters t.pending := by
  unfold performCall at h
  split at h
  all_goals
    repeat' split at h
  all_goals
    cases h
  all_goals
    refine ⟨?_, ?_, ?_⟩
  all_goals
    first
    | rfl
    | exact .same
    | exact .remove _
    | exact .push _ _ _ ‹_› (by simp [*, Phase.unborn])

section

variable (hs : ∀ i, s.counter ≤ i → s.calls i = none)

include hs

theorem performCall_fresh (h : s.performCall a = some t) :
    ∀ i, t.counter ≤ i → t.calls i = none := by
  unfold performCall at h
  split at h
  all_goals
    repeat' split at h
  all_goals
    cases h
  all_goals
    first
    | exact fresh_insert hs ‹_› _
    | skip
  · intro i hi
    have hi' : s.counter + 1 ≤ i := hi
    show s.calls.insert s.counter _ i = none
    rw [PMap.insert_of_ne (by omega)]
    exact hs i (by omega)

omit hs in
/-- The reader and the inbound handlers leave the book-keeping of calls alone. -/
theorem performReader_rest (h : s.performReader a = some t) :
    t.closing = s.closing ∧ t.closed = s.closed ∧ s.Enters t.pending := by
  unfold performReader at h
  split at h
  all_goals
    repeat' split at h
  all_goals
    cases h
  all_goals
    refine ⟨?_, ?_, ?_⟩
  all_goals
    first
    | rfl
    | exact .same
    | exact .remove _
    | (unfold send; split <;> [split; skip] <;> first | rfl | exact .same)

theorem send_fresh {o : Outcome α} :
    ∀ i, (s.send id o).counter ≤ i → (s.send id o).calls i = none := by
  unfold send
  split
  · rename_i c hc
    split
    · exact hs
    · exact fresh_insert hs hc _
  · exact hs

theorem performReader_fresh (h : s.performReader a = some t) :
    ∀ i, t.counter ≤ i → t.calls i = none := by
  unfold performReader at h
  split at h
  all_goals
    repeat' split at h
  all_goals
    cases h
  all_goals
    first
    | exact hs
    | exact send_fresh hs

theorem performClose_fresh (h : s.performClose a = some t) :
    ∀ i, t.counter ≤ i → t.calls i = none := by
  unfold performClose at h
  split at h
  all_goals
    repeat' split at h
  all_goals
    cases h
  all_goals
    first
    | exact hs
    | exact send_fresh hs

end

theorem send_rest (s : Peer α) (id : Nat) (o : Outcome α) :
    (s.send id o).pending = s.pending ∧ (s.send id o).closed = s.closed := by
  unfold send
  split
  · split <;> exact ⟨rfl, rfl⟩
  · exact ⟨rfl, rfl⟩

/-- What `close` does to its own progress, the flag and the pending map. -/
theorem performClose_rest (hs : s.Sound) (h : s.performClose a = some t) :
    (Slots.keys t.pending).Nodup ∧ t.closing.owed.Nodup ∧
      (t.closing.raised = true → t.closed = true) := by
  have hn := hs.nodup
  have ho := hs.owed
  have hd := hs.closed
  cases a with
  | closeReason e =>
    simp only [performClose] at h
    split at h
    · cases h
      exact ⟨hn, nodup_nil, nofun⟩
    · cases h
      exact ⟨hn, ho, hd⟩
  | closeFlag =>
    simp only [performClose] at h
    split at h
    · cases h
      exact ⟨hn, nodup_nil, fun _ => rfl⟩
    · cases h
  | closeDrain =>
    simp only [performClose] at h
    split at h
    · rename_i e hc
      cases h
      rw [hc] at hd
      exact ⟨nodup_nil, hn, fun _ => hd rfl⟩
    · cases h
  | closeSend =>
    simp only [performClose] at h
    split at h
    · rename_i e id ids hc
      cases h
      obtain ⟨hp, hcl⟩ := send_rest s id (.error e)
      rw [hc] at ho hd
      refine ⟨?_, (nodup_cons.1 ho).2, fun _ => ?_⟩
      · show (Slots.keys (s.send id (.error e)).pending).Nodup
        rw [hp]
        exact hn
      · show (s.send id (.error e)).closed = true
        rw [hcl]
        exact hd rfl
    · cases h
  | closeWalk =>
    simp only [performClose] at h
    split at h
    · rename_i e hc
      cases h
      rw [hc] at hd
      exact ⟨hn, nodup_nil, fun _ => hd rfl⟩
    · cases h
  | _ => cases h

/-- An id enters the pending map only while it is not there. -/
theorem Sound.nodup_enters (hs : s.Sound) {slots : Slots Nat Pending} (h : s.Enters slots) :
    (Slots.keys slots).Nodup := by
  cases h with
  | same => exact hs.nodup
  | remove id => exact Slots.nodup_filter hs.nodup _
  | push id p c hc hu =>
    have hp := ((hs.tracks id).before hc hu).1
    refine Slots.nodup_push p hs.nodup ?_
    simpa [track] using hp

/-- **Each section keeps the invariant.** -/
theorem Sound.perform (hs : s.Sound) (h : s.perform a = some t) : t.Sound := by
  have htracks : ∀ j, (t.track j).Sound := fun j => (track_perform hs h j).sound (hs.tracks j)
  rcases perform_cases h with h | h | h
  · obtain ⟨hc, hcl, hp⟩ := performCall_rest h
    refine ⟨performCall_fresh hs.fresh h, hs.nodup_enters hp, ?_, ?_, htracks⟩
    · rw [hc]
      exact hs.owed
    · rw [hc, hcl]
      exact hs.closed
  · obtain ⟨hc, hcl, hp⟩ := performReader_rest h
    refine ⟨performReader_fresh hs.fresh h, hs.nodup_enters hp, ?_, ?_, htracks⟩
    · rw [hc]
      exact hs.owed
    · rw [hc, hcl]
      exact hs.closed
  · obtain ⟨hn, ho, hcl⟩ := performClose_rest hs h
    exact ⟨performClose_fresh hs.fresh h, hn, ho, hcl, htracks⟩

theorem sound_new (calls bytes : Nat) : (new calls bytes : Peer α).Sound where
  fresh _ _ := rfl
  nodup := nodup_nil
  owed := nodup_nil
  closed h := by cases h
  tracks _ := Track.fresh_sound false

/-- **The invariant holds in every state of every run.** -/
theorem sound_of_runs (h : s.Runs) : s.Sound := by
  apply Reachable.invariant _ _ h
  · rintro s ⟨calls, bytes, rfl⟩
    exact sound_new calls bytes
  · rintro s t hs ⟨a, ha⟩
    exact hs.perform ha

/-- The call of `id` is over. -/
def Finished (s : Peer α) (id : Nat) : Prop :=
  ∀ c, s.calls id = some c → c.phase.isFinished = true

theorem Sound.pending_nil (hs : s.Sound) (h : ∀ id, s.Finished id) : s.pending = [] := by
  cases hp : s.pending with
  | nil => rfl
  | cons p rest =>
    exfalso
    have ht := hs.tracks p.1
    have hpe : (s.track p.1).pending = true := by simp [track, hp]
    cases hc : s.calls p.1 with
    | none =>
      have := (ht.unborn fun c hcc => by
        rw [show s.calls p.1 = some c from hcc] at hc
        cases hc).1
      rw [hpe] at this
      cases this
    | some c =>
      have := ht.ended c hc (h _ c hc)
      rw [hpe] at this
      cases this

/-- How many sections of its own a call has left at most. -/
def rank : Phase α → Nat
  | .allocated _ _ => 5
  | .inserted => 4
  | .failing _ => 3
  | .waiting => 3
  | .decided _ => 2
  | .guarded _ => 1
  | .finished _ => 0

/-- A call that is not over can go on by itself, whatever the other threads do. -/
theorem call_progress (hc : s.calls id = some c) (hf : c.phase.isFinished = false) :
    ∃ a t d, s.perform a = some t ∧ t.calls id = some d ∧ rank d.phase < rank c.phase := by
  obtain ⟨phase, closed, received⟩ := c
  cases phase with
  | allocated business handler =>
    by_cases hfull : s.pendingLimit business ≤ s.pendingCount business
    · refine ⟨.insert id, _, _, by simp only [perform, performCall, hc, hfull]; rfl,
        PMap.insert_self, by simp [rank]⟩
    · refine ⟨.insert id, _, _, by simp only [perform, performCall, hc, hfull]; rfl,
        PMap.insert_self, by simp [rank]⟩
  | inserted =>
    refine ⟨.enqueue id true, _, _, by simp only [perform, performCall, hc]; rfl,
      PMap.insert_self, ?_⟩
    cases hcl : s.closed <;> simp [rank]
  | failing e =>
    exact ⟨.abort id, _, _, by simp only [perform, performCall, hc]; rfl,
      PMap.insert_self, by simp [rank]⟩
  | waiting =>
    exact ⟨.giveUp id true, _, _, by simp only [perform, performCall, hc]; rfl,
      PMap.insert_self, by simp [rank]⟩
  | decided o =>
    exact ⟨.remove id, _, _, by simp only [perform, performCall, hc]; rfl,
      PMap.insert_self, by simp [rank]⟩
  | guarded o =>
    cases o with
    | none =>
      exact ⟨.release id, _, _, by simp only [perform, performCall, hc]; rfl,
        PMap.insert_self, by simp [rank]⟩
    | some o =>
      exact ⟨.release id, _, _, by simp only [perform, performCall, hc]; rfl,
        PMap.insert_self, by simp [rank]⟩
  | finished o => cases hf

/-- **A request settles once and nothing is left behind.**  In every state of every
run, for each id: it has left the pending map as often as it entered it, less once
if it is there, and it entered at most once; a call that is over has no entry left;
what it returned is the one outcome it ended with; its result handler ran at most
once, and only when its one response came with the waiter open; after the drain no
waiting call is left without an answer or the reader about to answer it; a call that
is not over can go on by itself.  And once all calls are over the pending map is
empty. -/
theorem settles_once {s : Peer α} (h : s.Runs) :
    (∀ id, s.history.countP (Event.isEntered id) ≤ 1 ∧
      s.history.countP (Event.isLeft id) + (if id ∈ Slots.keys s.pending then 1 else 0) =
        s.history.countP (Event.isEntered id)) ∧
    (∀ id c, s.calls id = some c →
      s.history.filterMap (Event.outcome id) = c.phase.results ∧
      (c.phase.isFinished = true →
        id ∉ Slots.keys s.pending ∧
        s.history.countP (Event.isLeft id) = s.history.countP (Event.isEntered id)) ∧
      (c.phase = .waiting → s.closing = .walked →
        id ∉ Slots.keys s.pending ∧ (c.received = none → s.reader.stage id ≠ .none)) ∧
      (c.phase.isFinished = false →
        ∃ a t d, s.perform a = some t ∧ t.calls id = some d ∧ rank d.phase < rank c.phase)) ∧
    (∀ id, s.history.countP (Event.isAccepted id) = 0 ∨
      s.history.countP (Event.isAccepted id) = 1 ∧
        s.history.filterMap (Event.reception id) = [true]) ∧
    ((∀ id, s.Finished id) → s.pending = []) := by
  have hs := sound_of_runs h
  refine ⟨fun id => ?_, fun id c hc => ⟨?_, fun hf => ?_, fun hw hcl => ?_, call_progress hc⟩,
    fun id => ?_, ?_⟩
  · have ht := hs.tracks id
    refine ⟨ht.once, ?_⟩
    have hb := ht.balance
    by_cases hp : id ∈ Slots.keys s.pending <;> simpa [track, hp] using hb
  · have ho := (hs.tracks id).outcomes
    simpa [track, hc] using ho
  · have ht := hs.tracks id
    have hp := ht.ended c hc hf
    exact ⟨by simpa [track] using hp, ht.left_once.2 c hc hf⟩
  · have ht := hs.tracks id
    have hnot : id ∉ Slots.keys s.pending := by
      intro hp
      obtain ⟨d, hd, he⟩ := ht.drained (by simp [track, hcl, Closing.drained]) (by simp [track, hp])
      have hdc : d = c := by simpa [track, hc] using hd.symm
      rw [hdc, hw] at he
      cases he
    refine ⟨hnot, fun hn => ?_⟩
    have hheld := (ht.expects c hc (by rw [hw]; rfl)).2 hn
    simpa [track, hnot, hcl, Closing.owed] using hheld
  · exact (hs.tracks id).accepted
  · exact hs.pending_nil
/-- The state after some sections. -/
def performAll (s : Peer α) : List (Action α) → Option (Peer α)
  | [] => some s
  | a :: rest => (s.perform a).bind (performAll · rest)

theorem runs_performAll (hs : s.Runs) {a : List (Action α)} (h : s.performAll a = some t) :
    t.Runs :=
  hs.steps (steps_of_all h (fun _ => rfl) (fun _ _ _ => rfl) fun a _ _ _ h => ⟨a, h⟩)

/-- A call that gets its response while `close` runs. -/
def answeredRun : List (Action Nat) :=
  [.allocate true true, .insert 1, .enqueue 1 true, .readResponse 1 (.ok 7), .closeReason closedErr,
    .takeEntry, .closeFlag, .closeDrain, .checkWaiter, .acceptResult (.ok ()), .closeWalk,
    .sendResult, .take 1, .remove 1, .release 1]

theorem settles_once_answered : ∃ s : Peer Nat, (new 1 100).performAll answeredRun = some s ∧
    s.history.filterMap (Event.outcome 1) = [.ok 7] ∧ s.pending = [] := by
  refine ⟨_, rfl, ?_, ?_⟩
  · have hr : Runs _ := runs_performAll (.start ⟨1, 100, rfl⟩) (rfl : (new 1 100).performAll
      answeredRun = some _)
    exact ((settles_once hr).2.1 1 _ rfl).1
  · rfl

end Peer

end NapiVm.Rpc
