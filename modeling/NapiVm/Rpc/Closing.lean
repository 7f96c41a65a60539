import NapiVm.Rpc.Settlement

/-!
# Closing and inbound requests

`close` raises the flag, drains the pending map and then cancels what the active
map holds, in three sections.  `receive` puts a request into the active map without
looking at the flag, so a request frame that was read before the flag may be
registered after the walk, with a token nobody will fire.

* `Peer.cancelled_of_guardedRuns` — without such a registration, closing has
  cancelled every inbound request.
* `Peer.register_after_walk` — with one, it has not.
-/

namespace NapiVm.Rpc.Peer

variable {α : Type}

/-- Once `close` has returned, every inbound request is cancelled. -/
def Cancelled (s : Peer α) : Prop :=
  s.closing = .walked → ∀ p ∈ s.active, p.2.cancelled = true

/-- Does `receive` refuse the request it holds? -/
def refuses (s : Peer α) : Bool :=
  match s.reader with
  | .request id size business => (Slots.get s.active id).isSome || s.activeFull size business
  | _ => true

/-- No request is put into the active map once `close` has walked it. -/
def Guarded (s : Peer α) (a : Action α) : Prop :=
  a = .register → s.closing = .walked → s.refuses = true

/-- The runs in which every section is guarded. -/
def GuardedRuns (s : Peer α) : Prop :=
  Reachable (fun s => ∃ calls bytes, s = new calls bytes)
    (fun s t => ∃ a, s.perform a = some t ∧ s.Guarded a) s

variable {s t : Peer α} {a : Action α}

theorem performCall_active (h : s.performCall a = some t) :
    t.closing = s.closing ∧ t.active = s.active := by
  unfold performCall at h
  split at h
  all_goals
    repeat' split at h
  all_goals
    cases h
  all_goals
    exact ⟨rfl, rfl⟩

theorem send_active (s : Peer α) (id : Nat) (o : Outcome α) :
    (s.send id o).closing = s.closing ∧ (s.send id o).active = s.active := by
  unfold send
  split
  · split <;> exact ⟨rfl, rfl⟩
  · exact ⟨rfl, rfl⟩

/-- Cancelling one more request leaves the others cancelled. -/
theorem cancelled_update {active : Slots Nat Active} {id : Nat}
    (h : ∀ p ∈ active, p.2.cancelled = true) :
    ∀ p ∈ Slots.update active id (fun e => { e with cancelled := true }), p.2.cancelled = true := by
  intro p hp
  obtain ⟨q, hq, rfl⟩ := List.mem_map.1 hp
  split
  · rfl
  · exact h q hq

/-- The reader and the handlers keep the active map cancelled, guarded. -/
theorem Cancelled.performReader (hs : s.Cancelled) (hg : s.Guarded a)
    (h : s.performReader a = some t) : t.Cancelled := by
  cases a with
  | register =>
    simp only [Peer.performReader] at h
    split at h
    · rename_i id size business hr
      split at h
      · cases h
        exact hs
      · rename_i hnew
        split at h
        · cases h
          exact hs
        · rename_i hroom
          cases h
          intro hw
          have href := hg rfl hw
          simp only [refuses, hr, Bool.or_eq_true] at href
          rcases href with hx | hx
          · exact absurd hx hnew
          · exact absurd hx hroom
    · cases h
  | cancelActive =>
    simp only [Peer.performReader] at h
    split at h
    · cases h
      intro hw
      exact cancelled_update (hs hw)
    · cases h
  | finishActive id =>
    simp only [Peer.performReader] at h
    split at h
    · cases h
      intro hw p hp
      exact hs hw p (List.mem_of_mem_filter hp)
    · cases h
  | sendResult =>
    simp only [Peer.performReader] at h
    split at h
    · rename_i id result hr
      cases h
      obtain ⟨hc, ha⟩ := send_active s id result
      intro hw
      show ∀ p ∈ (s.send id result).active, _
      rw [ha]
      exact hs (hc.symm.trans hw)
    · cases h
  | _ =>
    -- the other sections do not touch the active map
    simp only [Peer.performReader] at h
    repeat' split at h
    all_goals
      cases h
    all_goals
      exact hs

/-- `close` cancels what it walks over. -/
theorem Cancelled.performClose (hs : s.Cancelled) (h : s.performClose a = some t) :
    t.Cancelled := by
  cases a with
  | closeReason e =>
    simp only [Peer.performClose] at h
    split at h
    · cases h
      rintro ⟨⟩
    · cases h
      exact hs
  | closeWalk =>
    simp only [Peer.performClose] at h
    split at h
    · cases h
      intro _ p hp
      obtain ⟨q, -, rfl⟩ := List.mem_map.1 hp
      rfl
    · cases h
  | _ =>
    simp only [Peer.performClose] at h
    repeat' split at h
    all_goals
      cases h
    all_goals
      rintro ⟨⟩

/-- **Each guarded section keeps inbound requests cancelled.** -/
theorem Cancelled.perform (hs : s.Cancelled) (hg : s.Guarded a) (h : s.perform a = some t) :
    t.Cancelled := by
  rcases perform_cases h with h | h | h
  · obtain ⟨hc, ha⟩ := performCall_active h
    intro hw
    rw [ha]
    exact hs (hc.symm.trans hw)
  · exact hs.performReader hg h
  · exact hs.performClose h

/-- **Closing cancels every inbound request**, in every run that registers none after
`close` has walked the active map. -/
theorem cancelled_of_guardedRuns {s : Peer α} (h : s.GuardedRuns) : s.Cancelled := by
  apply Reachable.invariant _ _ h
  · rintro s ⟨calls, bytes, rfl⟩ hw
    cases hw
  · rintro s t hs ⟨a, ha, hg⟩
    exact hs.perform hg ha

/-- A request registered before the flag is raised. -/
def earlyRequest : List (Action Nat) :=
  [.readRequest 1 10 true, .register, .closeReason closedErr, .closeFlag, .closeDrain, .closeWalk]

theorem cancelled_earlyRequest : ∃ s : Peer Nat,
    (new 1 100).performAll earlyRequest = some s ∧ s.active ≠ [] ∧ s.Cancelled := by
  refine ⟨_, rfl, by simp, cancelled_of_guardedRuns ?_⟩
  refine .next (.next (.next (.next (.next (.next (.start ⟨1, 100, rfl⟩)
    ⟨.readRequest 1 10 true, rfl, ?_⟩) ⟨.register, rfl, ?_⟩) ⟨.closeReason closedErr, rfl, ?_⟩)
    ⟨.closeFlag, rfl, ?_⟩) ⟨.closeDrain, rfl, ?_⟩) ⟨.closeWalk, rfl, ?_⟩
  all_goals
    intro _ hw
    cases hw

/-- A request frame read before `close` and registered after it. -/
def lateRequest : List (Action Nat) :=
  [.readRequest 1 10 true, .closeReason closedErr, .closeFlag, .closeDrain, .closeWalk, .register]

theorem lateRequest_not_cancelled : ∃ s : Peer Nat,
    (new 1 100).performAll lateRequest = some s ∧ s.Runs ∧ s.closing = .walked ∧
      s.reader = .idle ∧ ¬ s.Cancelled := by
  refine ⟨_, rfl, runs_performAll (.start ⟨1, 100, rfl⟩) (a := lateRequest) rfl, rfl, rfl, ?_⟩
  intro hc
  have := hc rfl (1, ⟨false, 10, true⟩) (by simp)
  cases this

end NapiVm.Rpc.Peer
