import NapiVm.Plugin.Emission
import NapiVm.Plugin.Serve

/-!
# Events to a served plugin

A request to quiesce or to shut down goes in front of the events that wait in the queue of the
host, and the plugin takes no events once it has begun to drain.  Where no event waits at that
time the connection is never closed because of one.

* `RpcPeer.Adds` — how the frames of a peer change.
* `Before` — the order in which frames of the host may come.
* `events_never_close` — then no event closes the connection, and requests are answered.
-/

namespace NapiVm

namespace Rpc

open Host List

/-! ## Wire values -/

section Wire

variable {limit depth : Nat} {q : Json}

theorem wireValue_number {n : JsonNumber} : wireValue limit depth (.number n) = .ok q ↔
    depth ≤ limit ∧ ∃ k, wireNumber n = .ok k ∧ q = .number k := by
  unfold wireValue
  split
  next h => simp [Nat.not_le.2 h]
  next h => cases wireNumber n <;> simp [Except.map, Nat.not_lt.1 h, eq_comm]

theorem wireValue_array {items : List Json} : wireValue limit depth (.array items) = .ok q ↔
    depth ≤ limit ∧ ∃ k, wireItems limit (depth + 1) items = .ok k ∧ q = .array k := by
  unfold wireValue
  split
  next h => simp [Nat.not_le.2 h]
  next h => cases wireItems limit (depth + 1) items <;> simp [Except.map, Nat.not_lt.1 h, eq_comm]

theorem wireValue_object {fields : List (String × Json)} :
    wireValue limit depth (.object fields) = .ok q ↔
      depth ≤ limit ∧ ∃ k, wireFields limit (depth + 1) fields = .ok k ∧ q = .object k := by
  unfold wireValue
  split
  next h => simp [Nat.not_le.2 h]
  next h =>
    cases wireFields limit (depth + 1) fields <;> simp [Except.map, Nat.not_lt.1 h, eq_comm]

theorem wireItems_cons {item : Json} {rest q : List Json} :
    wireItems limit depth (item :: rest) = .ok q ↔ ∃ item' rest',
      wireValue limit depth item = .ok item' ∧ wireItems limit depth rest = .ok rest' ∧
        q = item' :: rest' := by
  rw [wireItems]
  cases wireValue limit depth item <;> cases wireItems limit depth rest <;>
    simp [bind, Except.bind, pure, Except.pure, eq_comm]

theorem wireFields_cons {key : String} {value : Json} {rest q : List (String × Json)} :
    wireFields limit depth ((key, value) :: rest) = .ok q ↔ ∃ value' rest',
      wireValue limit depth value = .ok value' ∧ wireFields limit depth rest = .ok rest' ∧
        q = (key, value') :: rest' := by
  rw [wireFields]
  cases wireValue limit depth value <;> cases wireFields limit depth rest <;>
    simp [bind, Except.bind, pure, Except.pure, eq_comm]

end Wire

/-- A number is finite, and zero has no sign. -/
theorem wireNumber_again {n k : JsonNumber} (h : wireNumber n = .ok k) : wireNumber k = .ok k := by
  unfold wireNumber at h
  split at h
  · cases h
  next hfinite =>
    split at h
    · cases h
      decide
    next hzero =>
      cases h
      rw [wireNumber, if_neg hfinite, if_neg hzero]

mutual

/-- What has passed passes again, and always as it is. -/
theorem wireValue_again {limit : Nat} : ∀ {depth : Nat} {v q : Json},
    wireValue limit depth v = .ok q → wireValue limit depth q = .ok q ∧
      ∀ limit' depth' r, wireValue limit' depth' q = .ok r → r = q
  | depth, .number n, q, h => by
      obtain ⟨hdepth, k, hn, rfl⟩ := wireValue_number.1 h
      have hk := wireNumber_again hn
      refine ⟨wireValue_number.2 ⟨hdepth, k, hk, rfl⟩, fun limit' depth' r hr => ?_⟩
      obtain ⟨-, k', hk', rfl⟩ := wireValue_number.1 hr
      cases hk.symm.trans hk'
      rfl
  | depth, .array items, q, h => by
      obtain ⟨hdepth, k, hn, rfl⟩ := wireValue_array.1 h
      obtain ⟨hk, hsame⟩ := wireItems_again hn
      refine ⟨wireValue_array.2 ⟨hdepth, k, hk, rfl⟩, fun limit' depth' r hr => ?_⟩
      obtain ⟨-, k', hk', rfl⟩ := wireValue_array.1 hr
      rw [hsame _ _ _ hk']
  | depth, .object fields, q, h => by
      obtain ⟨hdepth, k, hn, rfl⟩ := wireValue_object.1 h
      obtain ⟨hk, hsame⟩ := wireFields_again hn
      refine ⟨wireValue_object.2 ⟨hdepth, k, hk, rfl⟩, fun limit' depth' r hr => ?_⟩
      obtain ⟨-, k', hk', rfl⟩ := wireValue_object.1 hr
      rw [hsame _ _ _ hk']
  | depth, .null, q, h | depth, .bool _, q, h | depth, .string _, q, h => by
      unfold wireValue at h
      split at h
      · cases h
      next hdepth =>
        cases h
        refine ⟨?_, fun limit' depth' r hr => ?_⟩
        · rw [wireValue, if_neg hdepth] <;> nofun
        · unfold wireValue at hr
          split at hr
          · cases hr
          · cases hr
            rfl

theorem wireItems_again {limit : Nat} : ∀ {depth : Nat} {v q : List Json},
    wireItems limit depth v = .ok q → wireItems limit depth q = .ok q ∧
      ∀ limit' depth' r, wireItems limit' depth' q = .ok r → r = q
  | depth, [], q, h => by
      cases h
      exact ⟨rfl, fun _ _ r hr => by cases hr; rfl⟩
  | depth, item :: rest, q, h => by
      obtain ⟨item', rest', hitem, hrest, rfl⟩ := wireItems_cons.1 h
      obtain ⟨hitem', hsame⟩ := wireValue_again hitem
      obtain ⟨hrest', hsames⟩ := wireItems_again hrest
      refine ⟨wireItems_cons.2 ⟨_, _, hitem', hrest', rfl⟩, fun limit' depth' r hr => ?_⟩
      obtain ⟨i, r', hi, hr', rfl⟩ := wireItems_cons.1 hr
      rw [hsame _ _ _ hi, hsames _ _ _ hr']

theorem wireFields_again {limit : Nat} : ∀ {depth : Nat} {v q : List (String × Json)},
    wireFields limit depth v = .ok q → wireFields limit depth q = .ok q ∧
      ∀ limit' depth' r, wireFields limit' depth' q = .ok r → r = q
  | depth, [], q, h => by
      cases h
      exact ⟨rfl, fun _ _ r hr => by cases hr; rfl⟩
  | depth, (key, value) :: rest, q, h => by
      obtain ⟨value', rest', hvalue, hrest, rfl⟩ := wireFields_cons.1 h
      obtain ⟨hvalue', hsame⟩ := wireValue_again hvalue
      obtain ⟨hrest', hsames⟩ := wireFields_again hrest
      refine ⟨wireFields_cons.2 ⟨_, _, hvalue', hrest', rfl⟩, fun limit' depth' r hr => ?_⟩
      obtain ⟨i, r', hi, hr', rfl⟩ := wireFields_cons.1 hr
      rw [hsame _ _ _ hi, hsames _ _ _ hr']

end

namespace RpcPeer

/-! ## The frames of a peer -/

/-- New frames are put somewhere among those that wait. -/
structure Adds (w w' : RpcPeer) (new : List Message) : Prop where
  line : ∃ a b, w.line = a ++ b ∧ w'.line.Sublist (a ++ new ++ b) ∧
    ∀ m ∈ b, ∃ f ∈ w.writes, f.message = m
  written : w.written <+: w'.written
  writes : ∀ f ∈ w'.writes, (∃ g ∈ w.writes, g.message = f.message) ∨ f.message ∈ new
  fence : w'.eventFence = w.eventFence
  keeps : w'.closed = false → w.closed = false ∧ ∀ m, m ∈ w.line ∨ m ∈ new → m ∈ w'.line

/-- What a call may send. -/
def Makes : PeerMove → Message → Prop
  | .request method _ _, m => ∃ id params, m = .request id method params
  | .settle id, m => m = .cancel id
  | .notify method _ _, m => ∃ params, m = .notification method params
  | .refuse id method body, m => m = .response id method false body
  | .reply _ _ _, m => ∃ id method ok body, m = .response id method ok body
  | _, _ => False

section Adds

variable {stringify : Json → List UInt8} {w w' : RpcPeer}

/-- Without a fence the first frame is next. -/
theorem flush_line (hfence : w.eventFence = none) :
    w.flush.line = w.line ∧ w.written <+: w.flush.written ∧ w.flush.writes ⊆ w.writes := by
  unfold flush
  split
  · exact ⟨rfl, prefix_rfl, List.Subset.refl _⟩
  · cases hwrites : w.writes with
    | nil => exact ⟨rfl, prefix_rfl, by simp [hwrites]⟩
    | cons f rest =>
      simp only [findIdx?_cons, hfence, Option.isNone_none, Bool.or_true, if_true,
        getElem?_cons_zero, eraseIdx_zero, tail_cons]
      refine ⟨?_, prefix_append _ _, subset_cons_self _ _⟩
      simp [line, hwrites]

@[simp] theorem flush_fence : w.flush.eventFence = w.eventFence := by
  unfold flush
  split
  · rfl
  · split
    · rfl
    · split <;> rfl

@[simp] theorem flush_closed : w.flush.closed = w.closed := by
  unfold flush
  split
  · rfl
  · split
    · rfl
    · split <;> rfl

theorem Adds.same (hwritten : w'.written = w.written) (hwrites : w'.writes = w.writes)
    (hfence : w'.eventFence = w.eventFence) (hclosed : w'.closed = w.closed) : Adds w w' [] where
  line := ⟨w.line, [], (append_nil _).symm, (by simp [RpcPeer.line, hwritten, hwrites]), nofun⟩
  written := hwritten ▸ prefix_rfl
  writes f hf := .inl ⟨f, hwrites ▸ hf, rfl⟩
  fence := hfence
  keeps h := ⟨hclosed ▸ h, fun m hm => by
    rcases hm with hm | hm
    · rwa [RpcPeer.line, hwritten, hwrites]
    · cases hm⟩

theorem adds_close : Adds w w.close [] := by
  unfold close
  split
  · exact .same rfl rfl rfl rfl
  · exact
      { line := ⟨w.line, [], (append_nil _).symm, (by simp [RpcPeer.line]), nofun⟩
        written := prefix_rfl
        writes := nofun
        fence := rfl
        keeps := fun h => by cases h }

theorem Adds.flush {new : List Message} (h : Adds w w' new) (hfence : w.eventFence = none) :
    Adds w w'.flush new := by
  obtain ⟨hline, hwritten, hwrites⟩ := flush_line (h.fence.trans hfence)
  obtain ⟨a, b, hab, hsub, hb⟩ := h.line
  refine ⟨⟨a, b, hab, hline ▸ hsub, hb⟩, h.written.trans hwritten,
    fun f hf => h.writes f (hwrites hf), by simp [h.fence], fun hclosed => ?_⟩
  obtain ⟨hopen, hmem⟩ := h.keeps (by simpa using hclosed)
  exact ⟨hopen, fun m hm => hline ▸ hmem m hm⟩

variable {m : Message} {priority : Bool}

/-- A frame is sent. -/
theorem send_adds (hfence : w.eventFence = none) (h : send stringify w m priority = .ok w') :
    Adds w w' [m] := by
  unfold send at h
  split at h
  · cases h
  next hopen =>
    split at h
    · cases h
    next frame hframe =>
      split at h
      · cases h
      · cases h
        refine Adds.flush ?_ hfence
        have hsplit : ∃ a b, w.writes = a ++ b ∧
            insertWrite w.writes ⟨m, frame, priority, m.namesEvent⟩ =
              a ++ ⟨m, frame, priority, m.namesEvent⟩ :: b := by
          unfold insertWrite
          split
          · exact ⟨_, _, takeWhile_append_dropWhile.symm, rfl⟩
          · exact ⟨w.writes, [], (append_nil _).symm, rfl⟩
        obtain ⟨a, b, hwrites, hinsert⟩ := hsplit
        refine ⟨⟨w.written ++ a.map Write.message, b.map Write.message, ?_, ?_, ?_⟩,
          prefix_rfl, fun f hf => ?_, rfl, fun h => ⟨h, fun m' hm' => ?_⟩⟩
        · simp [line, hwrites]
        · simp [line, hinsert]
        · intro m' hm'
          obtain ⟨f, hf, rfl⟩ := mem_map.1 hm'
          exact ⟨f, hwrites ▸ mem_append_right _ hf, rfl⟩
        · simp only [hinsert, mem_append, mem_cons] at hf
          rw [hwrites]
          rcases hf with hf | rfl | hf
          · exact .inl ⟨f, mem_append_left _ hf, rfl⟩
          · exact .inr (mem_singleton.2 rfl)
          · exact .inl ⟨f, mem_append_right _ hf, rfl⟩
        · rw [line, hwrites, mem_singleton] at hm'
          rw [line, hinsert]
          simp only [map_append, map_cons, mem_append, mem_cons] at hm' ⊢
          tauto

/-- A frame without priority goes to the end. -/
theorem send_line (hfence : w.eventFence = none) (h : send stringify w m false = .ok w') :
    w'.line = w.line ++ [m] := by
  unfold send at h
  split at h
  · cases h
  · split at h
    · cases h
    next frame hframe =>
      split at h
      · cases h
      · cases h
        refine (flush_line ?_).1.trans ?_
        · exact hfence
        · simp [line, insertWrite]

/-- What is sent has a text. -/
theorem encode_of_send (h : send stringify w m priority = .ok w') :
    ∃ value, wireValue w.limits.maxDepth 0 (m.value w.side w.session) = .ok value ∧
      stringify value ≠ [] := by
  unfold send at h
  split at h
  · cases h
  · split at h
    · cases h
    next frame hframe =>
      unfold encodeFrame at hframe
      cases hvalue : wireValue w.limits.maxDepth 0 (m.value w.side w.session) with
      | error e =>
        rw [hvalue] at hframe
        cases hframe
      | ok value =>
        rw [hvalue] at hframe
        refine ⟨value, rfl, fun hempty => ?_⟩
        simp [bind, Except.bind, hempty] at hframe

/-- The frames and the fence are the same. -/
structure Alike (w w' : RpcPeer) : Prop where
  written : w'.written = w.written
  writes : w'.writes = w.writes
  fence : w'.eventFence = w.eventFence
  closed : w'.closed = w.closed

theorem Alike.line (h : Alike w w') : w'.line = w.line := by
  rw [RpcPeer.line, h.written, h.writes, RpcPeer.line]

theorem Adds.congr {v v' : RpcPeer} {new : List Message} (h : Adds v v' new) (hw : Alike w v)
    (hw' : Alike v' w') : Adds w w' new := by
  obtain ⟨a, b, hab, hsub, hb⟩ := h.line
  refine ⟨⟨a, b, hw.line.symm.trans hab, hw'.line ▸ hsub, fun m hm => hw.writes ▸ hb m hm⟩, ?_,
    fun f hf => hw.writes ▸ h.writes f (hw'.writes ▸ hf),
    hw'.fence.trans (h.fence.trans hw.fence), fun hclosed => ?_⟩
  · rw [hw'.written, ← hw.written]
    exact h.written
  · obtain ⟨hopen, hmem⟩ := h.keeps (hw'.closed ▸ hclosed)
    refine ⟨hw.closed ▸ hopen, fun m hm => ?_⟩
    rw [hw'.line]
    exact hmem m (hw.line ▸ hm)

variable (stringify) in
theorem adds_request (hfence : w.eventFence = none) (method : String) (params : Json)
    (options : RequestOptions) :
    ∃ new, Adds w (request stringify w method params options).1 new ∧
      ∀ m ∈ new, ∃ id params, m = .request id method params := by
  have hnone : ∀ {v : RpcPeer}, Alike w v → ∃ new, Adds w v new ∧
      ∀ m ∈ new, ∃ id params, m = .request id method params := fun hv =>
    ⟨[], .same hv.written hv.writes hv.fence hv.closed, forall_mem_nil _⟩
  unfold request
  dsimp only
  split
  · exact hnone ⟨rfl, rfl, rfl, rfl⟩
  split
  · exact hnone ⟨rfl, rfl, rfl, rfl⟩
  split
  · exact hnone ⟨rfl, rfl, rfl, rfl⟩
  split
  · exact hnone ⟨rfl, rfl, rfl, rfl⟩
  split
  · exact hnone ⟨rfl, rfl, rfl, rfl⟩
  split
  · exact hnone ⟨rfl, rfl, rfl, rfl⟩
  · split
    · exact hnone ⟨rfl, rfl, rfl, rfl⟩
    next hsend =>
      exact ⟨_, (send_adds (by exact hfence) hsend).congr ⟨rfl, rfl, rfl, rfl⟩ ⟨rfl, rfl, rfl, rfl⟩,
        fun m hm => ⟨_, _, mem_singleton.1 hm⟩⟩

variable (stringify) in
theorem adds_settle (hfence : w.eventFence = none) (id : Nat) :
    ∃ new, Adds w (settle stringify w id) new ∧ ∀ m ∈ new, m = .cancel id := by
  unfold settle
  split
  · dsimp only
    split
    · exact ⟨[], .same rfl rfl rfl rfl, forall_mem_nil _⟩
    next hsend =>
      exact ⟨_, (send_adds (by exact hfence) hsend).congr ⟨rfl, rfl, rfl, rfl⟩ ⟨rfl, rfl, rfl, rfl⟩,
        fun m hm => mem_singleton.1 hm⟩
  · exact ⟨[], .same rfl rfl rfl rfl, forall_mem_nil _⟩

variable (stringify) in
/-- A reply goes out, or the connection is closed. -/
theorem adds_reply (hfence : w.eventFence = none) (id : Nat) (method : String) (ok : Bool)
    (body : Json) :
    ∃ new, Adds w (reply stringify w id method ok body) new ∧
      (∀ m ∈ new, m = .response id method ok body) ∧
      ((reply stringify w id method ok body).closed = false →
        .response id method ok body ∈ new) := by
  unfold reply
  split
  · refine ⟨[], adds_close, forall_mem_nil _, fun h => ?_⟩
    unfold close at h
    split at h
    next hclosed => cases hclosed.symm.trans h
    next => cases h
  next w₁ hsend =>
    have hadds := send_adds hfence hsend
    rw [if_neg]
    · exact ⟨_, hadds, fun m hm => mem_singleton.1 hm, fun _ => mem_singleton.2 rfl⟩
    · rintro ⟨-, h⟩
      cases (hadds.fence.trans hfence).symm.trans h

/-- What a frame that is sent leaves as it was. -/
structure Kept (w w' : RpcPeer) : Prop where
  active : w'.active = w.active
  limits : w'.limits = w.limits
  maxBytes : w'.maxBytes = w.maxBytes

theorem Kept.after {v : RpcPeer} (h : Kept v w') (h' : Kept w v) : Kept w w' :=
  ⟨h.active.trans h'.active, h.limits.trans h'.limits, h.maxBytes.trans h'.maxBytes⟩

theorem kept_flush : Kept w w.flush := by
  unfold flush
  split
  · exact ⟨rfl, rfl, rfl⟩
  split
  · exact ⟨rfl, rfl, rfl⟩
  split <;> exact ⟨rfl, rfl, rfl⟩

theorem kept_send (h : send stringify w m priority = .ok w') : Kept w w' := by
  unfold send at h
  split at h
  · cases h
  split at h
  · cases h
  split at h
  · cases h
  · cases h
    exact kept_flush.after ⟨rfl, rfl, rfl⟩

theorem close_closed : w.close.closed = true := by
  unfold close
  split
  · assumption
  · rfl

theorem kept_close : Kept w w.close := by
  unfold close
  split <;> exact ⟨rfl, rfl, rfl⟩

theorem kept_reply (id : Nat) (method : String) (ok : Bool) (body : Json) :
    Kept w (reply stringify w id method ok body) := by
  unfold reply
  split
  · exact kept_close
  next w₁ hsend =>
    have hfree : Kept w₁ { w₁ with eventFence := none } := ⟨rfl, rfl, rfl⟩
    split
    · exact (kept_flush.after hfree).after (kept_send hsend)
    · exact kept_send hsend

theorem kept_request (method : String) (params : Json) (options : RequestOptions) :
    Kept w (request stringify w method params options).1 := by
  unfold request
  dsimp only
  split
  · exact ⟨rfl, rfl, rfl⟩
  split
  · exact ⟨rfl, rfl, rfl⟩
  split
  · exact ⟨rfl, rfl, rfl⟩
  split
  · exact ⟨rfl, rfl, rfl⟩
  split
  · exact ⟨rfl, rfl, rfl⟩
  split
  · exact ⟨rfl, rfl, rfl⟩
  split
  · exact ⟨rfl, rfl, rfl⟩
  next hsend => exact (kept_send hsend).after ⟨rfl, rfl, rfl⟩

theorem kept_settle (id : Nat) : Kept w (settle stringify w id) := by
  unfold settle
  split
  · dsimp only
    split
    · exact ⟨rfl, rfl, rfl⟩
    next hsend => exact (kept_send hsend).after ⟨rfl, rfl, rfl⟩
  · exact ⟨rfl, rfl, rfl⟩

/-- **What one call does to the frames.** -/
theorem adds_perform (hfence : w.eventFence = none) {move : PeerMove}
    (hhold : ∀ method, move ≠ .hold method) (h : w.perform stringify move = some w') :
    ∃ new, Adds w w' new ∧ ∀ m ∈ new, Makes move m := by
  cases move with
  | request method params options =>
    cases h
    exact adds_request stringify hfence method params options
  | settle id =>
    cases h
    exact adds_settle stringify hfence id
  | notify method params priority =>
    simp only [perform] at h
    split at h
    · cases h
    split at h
    · cases h
      exact ⟨[], .same rfl rfl rfl rfl, forall_mem_nil _⟩
    split at h <;> cases h
    · exact ⟨[], .same rfl rfl rfl rfl, forall_mem_nil _⟩
    next hsend =>
      exact ⟨_, send_adds hfence hsend, fun m hm => ⟨_, mem_singleton.1 hm⟩⟩
  | register id method =>
    simp only [perform] at h
    split at h <;> cases h
    · exact ⟨[], adds_close, forall_mem_nil _⟩
    · exact ⟨[], .same rfl rfl rfl rfl, forall_mem_nil _⟩
  | refuse id method body =>
    cases h
    obtain ⟨new, hadds, hnew, -⟩ := adds_reply stringify hfence id method false body
    exact ⟨new, hadds, hnew⟩
  | reply k ok body =>
    simp only [perform] at h
    split at h <;> cases h
    next id method hactive =>
      obtain ⟨new, hadds, hnew, -⟩ := adds_reply stringify hfence id method ok body
      exact ⟨new, hadds.congr ⟨rfl, rfl, rfl, rfl⟩ ⟨rfl, rfl, rfl, rfl⟩,
        fun m hm => ⟨id, method, ok, body, hnew m hm⟩⟩
  | response id | negotiate limits =>
    cases h
    exact ⟨[], .same rfl rfl rfl rfl, forall_mem_nil _⟩
  | wrote failed =>
    simp only [perform] at h
    split at h <;> cases h
    next next hwriting =>
      have hfree : Alike w { w with
          queuedBytes := w.queuedBytes - next.frame.length, writing := none } :=
        ⟨rfl, rfl, rfl, rfl⟩
      cases failed with
      | true => exact ⟨[], adds_close.congr hfree ⟨rfl, rfl, rfl, rfl⟩, forall_mem_nil _⟩
      | false =>
        have hadds : Adds w { w with
            queuedBytes := w.queuedBytes - next.frame.length, writing := none } [] :=
          .same hfree.written hfree.writes hfree.fence hfree.closed
        exact ⟨[], hadds.flush hfence, forall_mem_nil _⟩
  | hold method => exact absurd rfl (hhold method)
  | close =>
    cases h
    exact ⟨[], adds_close, forall_mem_nil _⟩

theorem send_closed (hclosed : w.closed = true) :
    send stringify w m priority = .error peerClosedErr := by
  unfold send
  rw [if_pos hclosed]

/-- A peer that is closed stays so. -/
theorem perform_closed (hclosed : w.closed = true) {move : PeerMove}
    (h : w.perform stringify move = some w') : w'.closed = true := by
  have hreply : ∀ id method ok body, (reply stringify w id method ok body).closed = true := by
    intro id method ok body
    unfold reply
    rw [send_closed hclosed]
    exact close_closed
  cases move with
  | request method params options =>
    cases h
    unfold request
    dsimp only
    rw [if_pos hclosed]
    exact hclosed
  | settle id =>
    cases h
    unfold settle
    split
    · dsimp only
      rw [send_closed (by exact hclosed)]
      exact hclosed
    · exact hclosed
  | notify method params priority =>
    simp only [perform, send_closed hclosed] at h
    split at h
    · cases h
    · split at h <;> cases h <;> exact hclosed
  | register id method =>
    simp only [perform] at h
    split at h <;> cases h
    · exact close_closed
    · exact hclosed
  | refuse id method body =>
    cases h
    exact hreply id method false body
  | reply k ok body =>
    simp only [perform] at h
    split at h <;> cases h
    exact hreply _ _ ok body
  | wrote failed =>
    simp only [perform] at h
    split at h <;> cases h
    cases failed with
    | true => exact close_closed
    | false => exact flush_closed.trans hclosed
  | response id | hold method | negotiate limits =>
    cases h
    exact hclosed
  | close =>
    cases h
    exact close_closed

end Adds

end RpcPeer

end Rpc

namespace Plugin

namespace Serve

open Host Rpc RpcPeer List

/-! ## What the host sends -/

/-- After such a request the plugin takes no events. -/
def ends : Message → Bool
  | .request _ method _ =>
    decide (method = "system.quiesce") || decide (method = "system.shutdown")
  | _ => false

/-- The sequence number of an event. -/
def number : Message → Nat
  | .notification _ params => decimalValue ((asString (field params "sequence")).getD "")
  | _ => 0

/-- In what order two frames may be. -/
structure Before (m m' : Message) : Prop where
  ends : ends m = true → m'.namesEvent = false
  number : m.namesEvent = true → m'.namesEvent = true → number m < number m'

/-- An event that `emitEvent` has sent. -/
inductive Sent (terms : Terms) : Message → Prop where
  | mk {id event : String} {s : Service} {n : Nat} {payload : Json} {related : Option String}
      (hservice : terms.services id = some s) (hevent : s.contract.events.contains event = true)
      (hpayload : validate (s.contract.event event) payload = .ok payload)
      (hpos : 0 < n) (hlt : n < 10 ^ 31)
      (htext : Served.payload terms (.notification "system.event"
        (eventParams terms.session s.contract event n payload related)) ≠ []) :
      Sent terms (.notification "system.event"
        (eventParams terms.session s.contract event n payload related))

section Order

variable {w w' : RpcPeer} {new : List Message}

/-- Frames that are no events may be put in where no event comes after a request that ends them. -/
theorem before_adds (h : w.line.Pairwise Before) (hadds : Adds w w' new)
    (hnew : ∀ m ∈ new, m.namesEvent = false)
    (hends : ∀ m ∈ new, ends m = true → ∀ f ∈ w.writes, f.message.namesEvent = false) :
    w'.line.Pairwise Before := by
  obtain ⟨a, b, hline, hsub, hb⟩ := hadds.line
  refine List.Pairwise.sublist hsub ?_
  have hto : ∀ m m', m'.namesEvent = false → Before m m' := fun m m' h =>
    ⟨fun _ => h, fun _ h' => by cases h.symm.trans h'⟩
  rw [hline, pairwise_append] at h
  obtain ⟨ha, hb', hab⟩ := h
  rw [append_assoc, pairwise_append, pairwise_append]
  refine ⟨ha, ⟨?_, hb', fun m hm m' hm' => ?_⟩, fun m hm m' hm' => ?_⟩
  · exact pairwise_of_forall_mem_list fun m _ m' hm' => hto m m' (hnew m' hm')
  · obtain ⟨f, hf, rfl⟩ := hb m' hm'
    exact ⟨fun he => hends m hm he f hf, fun he => by cases (hnew m hm).symm.trans he⟩
  · rcases mem_append.1 hm' with hm' | hm'
    · exact hto m m' (hnew m' hm')
    · exact hab m hm m' hm'

theorem mem_of_adds (hadds : Adds w w' new) {m : Message} (hm : m ∈ w'.line) :
    m ∈ w.line ∨ m ∈ new := by
  obtain ⟨a, b, hline, hsub, -⟩ := hadds.line
  have := hsub.subset hm
  simp only [mem_append] at this
  rw [hline, mem_append]
  tauto

end Order

/-! ## Events at the plugin -/

theorem toList_toString (n : Nat) : (toString n).toList = Nat.toDigits 10 n := Nat.toList_repr

theorem decimalValue_toString (n : Nat) : decimalValue (toString n) = n := by
  rw [decimalValue, toList_toString]
  exact Nat.ofDigitChars_ten_toDigits

theorem sequenceText_toString {n : Nat} (hpos : 0 < n) (hlt : n < 10 ^ 31) :
    sequenceText (toString n) = true := by
  have hall : ∀ c ∈ Nat.toDigits 10 n, c.isDigit = true := fun c hc =>
    Nat.isDigit_of_mem_toDigits (b := 10) (by decide) (by decide) hc
  have hlength : (Nat.toDigits 10 n).length ≤ 31 :=
    (Nat.length_toDigits_le_iff (by decide) (by decide)).2 hlt
  have hhead := head_toDigits hpos
  unfold sequenceText
  rw [toList_toString]
  cases hdigits : Nat.toDigits 10 n with
  | nil => exact absurd hdigits Nat.toDigits_ne_nil
  | cons c digits =>
    rw [hdigits] at hall hlength hhead
    simp only [Bool.and_eq_true, decide_eq_true_eq, all_eq_true]
    refine ⟨⟨⟨hall c mem_cons_self, fun h => hhead (by rw [h]; rfl)⟩,
      fun d hd => hall d (mem_cons_of_mem _ hd)⟩, Nat.le_of_succ_le_succ hlength⟩

section Receive

variable {terms : Terms} {c : Contract} {event : String} {n : Nat} {payload : Json}
  {related : Option String}

theorem number_sent : number (.notification "system.event"
    (eventParams terms.session c event n payload related)) = n := by
  have hsequence : field (eventParams terms.session c event n payload related) "sequence" =
      .string (toString n) := rfl
  rw [number, hsequence]
  exact decimalValue_toString n

/-- The plugin finds what the host has put in. -/
theorem readHostEvent_sent {id : String} {s : Service} (hservice : terms.services id = some s)
    (hevent : s.contract.events.contains event = true)
    (hpayload : validate (s.contract.event event) payload = .ok payload) (hpos : 0 < n)
    (hlt : n < 10 ^ 31) {last : Nat} (hlast : last < n) :
    readHostEvent terms.session terms.requiresHost last
      (eventParams terms.session s.contract event n payload related) =
        .ok ⟨s.contract.id, event, n, payload⟩ := by
  obtain ⟨hid, hfind⟩ := terms.agreed id s hservice
  have hkeys : checkKeys (eventParams terms.session s.contract event n payload related) =
      .ok () := by
    cases related <;> rfl
  let v := eventParams terms.session s.contract event n payload related
  have hsession : asString (field v "sessionId") = some terms.session := rfl
  have hsequence : asString (field v "sequence") = some (toString n) := rfl
  have hinterface : asString (field v "interface") = some s.contract.id := rfl
  have hversion : asString (field v "version") = some s.contract.version := rfl
  have hname : asString (field v "event") = some event := rfl
  have hdata : field v "payload" = payload := rfl
  have hgood : ¬ (terms.session ≠ terms.session ∨ sequenceText (toString n) = false ∨
      n ≤ last) := by
    rintro (h | h | h)
    · exact h rfl
    · cases (sequenceText_toString hpos hlt).symm.trans h
    · exact Nat.not_le.2 hlast h
  subst hid
  simp only [readHostEvent, hkeys, hsession, hsequence, hinterface, hversion, hname, hdata, v,
    Option.getD_some, hfind, if_neg hgood, if_pos hevent, hpayload, decimalValue_toString, bind,
    Except.bind, pure, Except.pure]

/-- What can pass as it is only. -/
def Fixed (v : Json) : Prop := ∀ limit depth r, wireValue limit depth v = .ok r → r = v

theorem fixed_string (text : String) : Fixed (.string text) := by
  intro limit depth r h
  unfold wireValue at h
  split at h
  · cases h
  · cases h
    rfl

theorem fixed_object {fields : List (String × Json)} (h : ∀ f ∈ fields, Fixed f.2) :
    Fixed (.object fields) := by
  intro limit depth r hr
  obtain ⟨-, k, hk, rfl⟩ := wireValue_object.1 hr
  have hsame : ∀ {l k : List (String × Json)} {depth}, (∀ f ∈ l, Fixed f.2) →
      wireFields limit depth l = .ok k → k = l := by
    intro l
    induction l with
    | nil =>
      intro k depth _ hk
      cases hk
      rfl
    | cons f rest ih =>
      intro k depth hl hk
      obtain ⟨value, rest', hvalue, hrest, rfl⟩ := wireFields_cons.1 hk
      rw [hl f mem_cons_self _ _ _ hvalue, ih (fun g hg => hl g (mem_cons_of_mem _ hg)) hrest]
  rw [hsame h hk]

theorem fixed_eventParams (hpayload : Fixed payload) :
    Fixed (eventParams terms.session c event n payload related) := by
  refine fixed_object fun f hf => ?_
  cases related with
  | none =>
    simp only [Option.toList_none, map_nil, append_nil, mem_cons, not_mem_nil, or_false] at hf
    rcases hf with rfl | rfl | rfl | rfl | rfl | rfl
    all_goals first | exact fixed_string _ | exact hpayload
  | some id =>
    simp only [Option.toList_some, map_cons, map_nil, cons_append,
      nil_append, mem_cons, not_mem_nil, or_false] at hf
    rcases hf with rfl | rfl | rfl | rfl | rfl | rfl | rfl
    all_goals first | exact fixed_string _ | exact hpayload

theorem fixed_event {params : Json} (h : Fixed params) (side : Char) (session : String) :
    Fixed (Message.value side session (.notification "system.event" params)) := by
  refine fixed_object fun f hf => ?_
  simp only [mem_cons, not_mem_nil, or_false] at hf
  rcases hf with rfl | rfl | rfl
  · exact fixed_string _
  · exact fixed_string _
  · exact h

/-- What `validate` has passed it passes again. -/
theorem validate_again {check : Json → Except Thrown Unit} {data : Json}
    (h : validate check payload = .ok data) : validate check data = .ok data ∧ Fixed data := by
  unfold validate at h ⊢
  cases hwire : wireValue 64 0 payload with
  | error e =>
    rw [hwire] at h
    cases h
  | ok data' =>
    rw [hwire] at h
    simp only [bind, Except.bind] at h
    split at h
    · cases h
    next hcheck =>
      cases h
      obtain ⟨hagain, hsame⟩ := wireValue_again hwire
      refine ⟨?_, hsame⟩
      rw [hagain]
      simp only [bind, Except.bind, hcheck]
      rfl

end Receive

namespace Served

variable {terms : Terms} {p p' : Served}

/-- A subscription may be dropped, but with background work allowed nothing is thrown. -/
theorem pushEvent_ok (limits : Limits) (e : HostEvent) (size : Nat) (subs : List Subscription) :
    ∃ subs', subs.mapM (pushEvent limits false e size) = .ok subs' := by
  induction subs with
  | nil => exact ⟨[], rfl⟩
  | cons sub rest ih =>
    obtain ⟨rest', hrest⟩ := ih
    have hsub : ∃ sub', pushEvent limits false e size sub = .ok sub' := by
      unfold pushEvent
      split
      · exact ⟨_, rfl⟩
      split
      · exact ⟨_, rfl⟩
      · rw [if_neg (by simp)]
        exact ⟨_, rfl⟩
    obtain ⟨sub', hsub⟩ := hsub
    refine ⟨sub' :: rest', ?_⟩
    rw [mapM_cons, hsub, hrest]
    rfl

/-- An event that the host has sent is taken by a plugin that is ready. -/
theorem receiveEvent_sent {event : String} {n : Nat} {payload : Json}
    (related : Option String) {id : String} {s : Service} (hservice : terms.services id = some s)
    (hevent : s.contract.events.contains event = true)
    (hpayload : validate (s.contract.event event) payload = .ok payload) (hpos : 0 < n)
    (hlt : n < 10 ^ 31) (hready : p.state = .ready) (hdraining : p.draining = false)
    (hlast : p.lastHostSequence < n) : ∃ subs, p.receiveEvent terms
      (eventParams terms.session s.contract event n payload related) =
        .ok { p with lastHostSequence := n, subscriptions := subs } := by
  obtain ⟨subs, hsubs⟩ := pushEvent_ok p.peer.limits ⟨s.contract.id, event, n, payload⟩
    (terms.stringify payload).length p.subscriptions
  unfold receiveEvent
  rw [if_neg (not_not.2 hready), readHostEvent_sent hservice hevent hpayload hpos hlt hlast,
    hdraining]
  simp only [bind, Except.bind, hsubs]
  exact ⟨_, rfl⟩

end Served

/-! ## What has been received -/

/-- What the plugin knows after the frames `before`, while its connection is open. -/
structure Heard (before : List Message) (p : Served) : Prop where
  fence : p.peer.eventFence = none
  state : p.state ≠ .ready → ∃ m ∈ before, ends m = true
  draining : p.draining = true ∨ p.quiescence ≠ .none → p.state ≠ .ready
  active : ∀ e ∈ p.peer.active, ∃ params, .request e.1 e.2 params ∈ before
  last : p.lastHostSequence = 0 ∨
    ∃ m ∈ before, m.namesEvent = true ∧ number m = p.lastHostSequence
  answered : ∀ id method params, .request id method params ∈ before →
    id ∈ p.peer.active.map Prod.fst ∨
      ∃ method ok body, .response id method ok body ∈ p.peer.line

section Heard

variable {terms : Terms} {before : List Message} {p : Served} {peer : RpcPeer}
  {new : List Message} {m : Message}

@[simp] theorem stop_peer : p.stop.peer = p.peer := by
  unfold Served.stop
  split <;> rfl

@[simp] theorem setPeer_peer : (p.setPeer peer).peer = peer := by
  unfold Served.setPeer
  split <;> simp

theorem setPeer_open (hopen : peer.closed = false) : p.setPeer peer = { p with peer := peer } := by
  unfold Served.setPeer
  rw [hopen]
  rfl

/-- A frame is received that is no request, or one that is dealt with. -/
theorem Heard.append (h : Heard before p) (hm : ∀ id method params, m = .request id method params →
    id ∈ p.peer.active.map Prod.fst ∨
      ∃ method ok body, .response id method ok body ∈ p.peer.line) : Heard (before ++ [m]) p where
  fence := h.fence
  state hs := by
    obtain ⟨m', hm', he⟩ := h.state hs
    exact ⟨m', mem_append_left _ hm', he⟩
  draining := h.draining
  active e he := by
    obtain ⟨params, hreq⟩ := h.active e he
    exact ⟨params, mem_append_left _ hreq⟩
  last := by
    rcases h.last with h | ⟨m', hm', hn⟩
    · exact .inl h
    · exact .inr ⟨m', mem_append_left _ hm', hn⟩
  answered id method params hreq := by
    rcases mem_append.1 hreq with hreq | hreq
    · exact h.answered id method params hreq
    · exact hm id method params (mem_singleton.1 hreq).symm

/-- The peer changes: what is no longer at work has been answered. -/
theorem Heard.setPeer (h : Heard before p) (hadds : Adds p.peer peer new)
    (hactive : ∀ e ∈ peer.active, e ∈ p.peer.active)
    (hanswered : ∀ e ∈ p.peer.active, e ∉ peer.active →
      ∃ method ok body, .response e.1 method ok body ∈ peer.line)
    (hopen : peer.closed = false) : Heard before (p.setPeer peer) := by
  rw [setPeer_open hopen]
  exact
    { fence := hadds.fence.trans h.fence
      state := h.state
      draining := h.draining
      active := fun e he => h.active e (hactive e he)
      last := h.last
      answered := fun id method params hreq => by
        rcases h.answered id method params hreq with hid | ⟨method', ok, body, hresponse⟩
        · obtain ⟨e, he, rfl⟩ := mem_map.1 hid
          by_cases hstill : e ∈ peer.active
          · exact .inl (mem_map_of_mem hstill)
          · exact .inr (hanswered e he hstill)
        · exact .inr ⟨method', ok, body, (hadds.keeps hopen).2 _ (.inl hresponse)⟩ }

theorem Heard.setPeer_same (h : Heard before p) (hadds : Adds p.peer peer new)
    (hactive : peer.active = p.peer.active) (hopen : peer.closed = false) :
    Heard before (p.setPeer peer) :=
  h.setPeer hadds (fun _ he => hactive ▸ he) (fun _ he hnot => absurd (hactive ▸ he) hnot) hopen

variable {id : Nat} {method : String} {params : Json} {p' : Served}

/-- A request is refused. -/
theorem Heard.refuse (h : Heard before p) (hrefuse : p.refuse terms id method = .ok p')
    (hopen : p'.peer.closed = false) : Heard (before ++ [.request id method params]) p' := by
  cases hrefuse
  rw [setPeer_peer] at hopen
  obtain ⟨new, hadds, -, hsent⟩ := adds_reply terms.stringify h.fence id method false toWire
  refine (h.setPeer_same hadds (kept_reply _ _ _ _).active hopen).append
    fun id' method' params' heq => ?_
  cases heq
  rw [setPeer_peer]
  exact .inr ⟨_, _, _, (hadds.keeps hopen).2 _ (.inr (hsent hopen))⟩

theorem Heard.dispatch (h : Heard before p) (hdispatch : p.dispatch terms id method = .ok p')
    (hopen : p'.peer.closed = false) : Heard (before ++ [.request id method params]) p' := by
  unfold Served.dispatch at hdispatch
  split at hdispatch
  · exact h.refuse hdispatch hopen
  simp only [RpcPeer.perform] at hdispatch
  by_cases hdup : id ∈ p.peer.active.map Prod.fst
  · rw [if_pos hdup] at hdispatch
    cases hdispatch
    rw [setPeer_peer, close_closed] at hopen
    cases hopen
  · rw [if_neg hdup] at hdispatch
    cases hdispatch
    rw [setPeer_peer] at hopen
    rw [setPeer_open hopen]
    exact
      { fence := h.fence
        state := fun hs => by
          obtain ⟨m, hm, he⟩ := h.state hs
          exact ⟨m, mem_append_left _ hm, he⟩
        draining := h.draining
        active := fun e he => by
          rcases mem_append.1 he with he | he
          · obtain ⟨params, hreq⟩ := h.active e he
            exact ⟨params, mem_append_left _ hreq⟩
          · cases mem_singleton.1 he
            exact ⟨params, mem_append_right _ (mem_singleton.2 rfl)⟩
        last := by
          rcases h.last with h | ⟨m, hm, hn⟩
          · exact .inl h
          · exact .inr ⟨m, mem_append_left _ hm, hn⟩
        answered := fun id' method' params' hreq => by
          rcases mem_append.1 hreq with hreq | hreq
          · refine (h.answered id' method' params' hreq).imp_left fun hid => ?_
            rw [map_append]
            exact mem_append_left _ hid
          · cases mem_singleton.1 hreq
            left
            rw [map_append]
            exact mem_append_right _ (mem_singleton.2 rfl) }

/-- What comes of a frame that is no event. -/
theorem receive_cases (hevent : m.namesEvent = false) (h : p.receive terms m = .ok p') :
    (∃ pending, p' = { p with peer := { p.peer with pending := pending } } ∧
        ∀ id method params, m ≠ .request id method params) ∨
      ∃ id method params, m = .request id method params ∧
        (p.refuse terms id method = .ok p' ∨ p.dispatch terms id method = .ok p') := by
  cases m with
  | notification method params =>
    simp only [Served.receive] at h
    split at h
    · cases h
    split at h
    next hmethod =>
      subst hmethod
      cases hevent
    · cases h
      exact .inl ⟨_, rfl, nofun⟩
  | cancel id | response id method ok body =>
    cases h
    exact .inl ⟨_, rfl, nofun⟩
  | request id method params =>
    refine .inr ⟨id, method, params, rfl, ?_⟩
    simp only [Served.receive] at h
    split at h
    · cases h
    split at h
    · exact .inl h
    split at h
    · cases hchain : Served.callChain p.peer.limits params with
      | error e =>
        rw [hchain] at h
        cases h
      | ok chain =>
        rw [hchain] at h
        cases chain with
        | none => exact .inl h
        | some chain =>
          simp only [bind, Except.bind] at h
          split at h
          · exact .inl h
          · exact .inr h
    · exact .inr h

theorem Heard.receive (h : Heard before p) (hevent : m.namesEvent = false)
    (hreceive : p.receive terms m = .ok p') (hopen : p'.peer.closed = false) :
    Heard (before ++ [m]) p' := by
  rcases receive_cases hevent hreceive with ⟨pending, rfl, hne⟩ | ⟨id, method, params, rfl, h' | h'⟩
  · exact Heard.append ⟨h.fence, h.state, h.draining, h.active, h.last, h.answered⟩
      fun id method params heq => absurd heq (hne id method params)
  · exact h.refuse h' hopen
  · exact h.dispatch h' hopen

end Heard

/-! ## A chunk -/

/-- The decoder takes the events of a chunk that goes on after `count` frames with `bytes` bytes. -/
def Fits (terms : Terms) (limits : Limits) (maxBytes : Nat) : Nat → Nat → List Message → Prop
  | _, _, [] => True
  | count, bytes, m :: rest =>
    let size := (Served.payload terms m).length
    (m.namesEvent = true → size ≤ maxBytes ∧ count < 256 ∧ bytes + size ≤ 16 * 1024 * 1024 ∧
      (wireValue limits.maxDepth 0 (m.value 'h' terms.session)).isOk = true) ∧
    Fits terms limits maxBytes (count + 1) (bytes + size) rest

section Chunk

variable {terms : Terms} {before : List Message} {p p' : Served} {m : Message} {count bytes : Nat}

theorem kept_refuse {id : Nat} {method : String} (h : p.refuse terms id method = .ok p') :
    p'.peer.limits = p.peer.limits ∧ p'.peer.maxBytes = p.peer.maxBytes := by
  cases h
  have hkept : Kept p.peer (p.peer.reply terms.stringify id method false toWire) :=
    kept_reply id method false toWire
  rw [setPeer_peer]
  exact ⟨hkept.limits, hkept.maxBytes⟩

theorem kept_receive (hevent : m.namesEvent = false) (h : p.receive terms m = .ok p') :
    p'.peer.limits = p.peer.limits ∧ p'.peer.maxBytes = p.peer.maxBytes := by
  rcases receive_cases hevent h with ⟨pending, rfl, -⟩ | ⟨id, method, params, rfl, h' | h'⟩
  · exact ⟨rfl, rfl⟩
  · exact kept_refuse h'
  · unfold Served.dispatch at h'
    split at h'
    · exact kept_refuse h'
    simp only [RpcPeer.perform] at h'
    by_cases hdup : id ∈ p.peer.active.map Prod.fst
    · rw [if_pos hdup] at h'
      cases h'
      rw [setPeer_peer]
      exact ⟨kept_close.limits, kept_close.maxBytes⟩
    · rw [if_neg hdup] at h'
      cases h'
      rw [setPeer_peer]
      exact ⟨rfl, rfl⟩

/-- What a frame must be for the plugin to take it, where it is an event. -/
structure Welcome (terms : Terms) (before : List Message) (m : Message) : Prop where
  sent : m.namesEvent = true → Sent terms m
  order : ∀ m' ∈ before, Before m' m

/-- The plugin takes an event that fits. -/
theorem Heard.event (h : Heard before p) (hevent : m.namesEvent = true)
    (hm : Welcome terms before m)
    (hfits : Fits terms p.peer.limits p.peer.maxBytes count bytes [m]) :
    ∃ p', p.decode terms count bytes m = .ok p' ∧ p'.peer = p.peer ∧ Heard (before ++ [m]) p' := by
  have hready : p.state = .ready := by
    by_contra hs
    obtain ⟨m', hm', he⟩ := h.state hs
    cases ((hm.order m' hm').ends he).symm.trans hevent
  have hdraining : p.draining = false := by
    by_contra hd
    exact h.draining (.inl (by simpa using hd)) hready
  obtain ⟨⟨hsize, hcount, hbytes, hvalue⟩, -⟩ := And.imp_left (fun f => f hevent) hfits
  have hsent := hm.sent hevent
  have hnumber : p.lastHostSequence < number m := by
    rcases h.last with h | ⟨m', hm', he, hn⟩
    · rw [h]
      cases hsent
      rw [number_sent]
      assumption
    · rw [← hn]
      exact (hm.order m' hm').number he hevent
  cases hsent with
  | @mk id event s n payload related hservice hcontains hpayload hpos hlt htext =>
    rw [number_sent] at hnumber
    obtain ⟨subs, hreceive⟩ := Served.receiveEvent_sent related hservice
      hcontains hpayload hpos hlt hready hdraining hnumber
    refine ⟨{ p with lastHostSequence := n, subscriptions := subs }, ?_, rfl, ?_⟩
    · have hgood : ¬ ((Served.payload terms _).length = 0 ∨
          p.peer.maxBytes < (Served.payload terms _).length) :=
        not_or.2 ⟨fun h => htext (length_eq_zero_iff.1 h), Nat.not_lt.2 hsize⟩
      have hroom : ¬ (256 < count + 1 ∨
          16 * 1024 * 1024 < bytes + (Served.payload terms _).length) :=
        not_or.2 ⟨by omega, Nat.not_lt.2 hbytes⟩
      unfold Served.decode
      dsimp only
      rw [if_neg hgood, if_neg hroom]
      cases hv : wireValue p.peer.limits.maxDepth 0 (Message.value 'h' terms.session
          (.notification "system.event"
            (eventParams terms.session s.contract event n payload related))) with
      | error e =>
        rw [hv] at hvalue
        cases hvalue
      | ok value => exact hreceive
    · exact
        { fence := h.fence
          state := fun hs => absurd hready hs
          draining := h.draining
          active := fun e he => by
            obtain ⟨params, hreq⟩ := h.active e he
            exact ⟨params, mem_append_left _ hreq⟩
          last := .inr ⟨_, mem_append_right _ (mem_singleton.2 rfl), rfl, number_sent⟩
          answered := fun id method params hreq => by
            rcases mem_append.1 hreq with hreq | hreq
            · exact h.answered id method params hreq
            · cases mem_singleton.1 hreq }

/-- **What the plugin makes of a chunk.** -/
theorem heard_push {frames : List Message} (h : p.peer.closed = false → Heard before p)
    (hopen : p.peer.closed = false)
    (hwelcome : (before ++ frames).Pairwise Before)
    (hsent : ∀ m ∈ frames, m.namesEvent = true → Sent terms m)
    (hfits : Fits terms p.peer.limits p.peer.maxBytes count bytes frames) :
    ((p.push terms count bytes frames).1.peer.closed = false →
      Heard (before ++ frames) (p.push terms count bytes frames).1) ∧
      ∀ m, (p.push terms count bytes frames).2 = some m → m.namesEvent = false := by
  induction frames generalizing before p count bytes with
  | nil =>
    rw [append_nil]
    exact ⟨h, nofun⟩
  | cons m rest ih =>
    have hheard := h hopen
    have hm : Welcome terms before m :=
      ⟨hsent m mem_cons_self, fun m' hm' =>
        (pairwise_append.1 hwelcome).2.2 m' hm' m mem_cons_self⟩
    obtain ⟨hfit, hrest⟩ := hfits
    have happend : before ++ m :: rest = before ++ [m] ++ rest := by simp
    rw [happend] at hwelcome ⊢
    unfold Served.push
    cases hevent : m.namesEvent with
    | true =>
      obtain ⟨p', hdecode, hpeer, hheard'⟩ := hheard.event hevent hm ⟨hfit, trivial⟩
      rw [hdecode]
      dsimp only
      rw [hpeer, hopen, if_neg Bool.false_ne_true]
      exact ih (fun _ => hheard') (hpeer ▸ hopen) hwelcome
        (fun m' hm' => hsent m' (mem_cons_of_mem _ hm')) (hpeer ▸ hrest)
    | false =>
      cases hdecode : p.decode terms count bytes m with
      | error e =>
        refine ⟨fun hc => ?_, fun m' hm' => ?_⟩
        · dsimp only [Served.close] at hc
          rw [setPeer_peer, close_closed] at hc
          cases hc
        · cases hm'
          exact hevent
      | ok p' =>
        dsimp only
        have hreceive : p.receive terms m = .ok p' := by
          unfold Served.decode at hdecode
          dsimp only at hdecode
          split at hdecode
          · cases hdecode
          split at hdecode
          · cases hdecode
          cases hv : wireValue p.peer.limits.maxDepth 0 (m.value 'h' terms.session) with
          | error e =>
            rw [hv] at hdecode
            cases hdecode
          | ok value =>
            rw [hv] at hdecode
            exact hdecode
        obtain ⟨hlimits, hmax⟩ := kept_receive hevent hreceive
        split
        next hclosed =>
          refine ⟨fun hc => ?_, nofun⟩
          cases hclosed.symm.trans hc
        next hstill =>
          have hopen' : p'.peer.closed = false := by simpa using hstill
          refine ih (fun _ => hheard.receive hevent hreceive hopen') hopen' hwelcome
            (fun m' hm' => hsent m' (mem_cons_of_mem _ hm')) ?_
          rw [hlimits, hmax]
          exact hrest

end Chunk

/-! ## The handlers -/

section Handlers

variable {terms : Terms} {before : List Message} {p p' : Served}

/-- The plugin drains, or goes on as it did. -/
theorem Heard.of_peer (h : Heard before p) (hpeer : p'.peer = p.peer)
    (hlast : p'.lastHostSequence = p.lastHostSequence)
    (hstate : p'.state ≠ .ready → p.state ≠ .ready ∨ ∃ m ∈ before, ends m = true)
    (hdraining : p'.draining = true ∨ p'.quiescence ≠ .none → p'.state ≠ .ready) :
    Heard before p' where
  fence := hpeer ▸ h.fence
  state hs := (hstate hs).elim h.state id
  draining := hdraining
  active := hpeer ▸ h.active
  last := hlast ▸ h.last
  answered := hpeer ▸ h.answered

theorem Heard.of_begun (h : Heard before p) (begun : List (Nat × Bool)) (occupied : Bool) :
    Heard before { p with begun := begun, occupied := occupied } :=
  h.of_peer rfl rfl .inl h.draining

theorem Heard.begin (h : Heard before p) {id : Nat} {method : String} (valid : Bool)
    (hactive : (id, method) ∈ p.peer.active) : Heard before (p.begin id method valid) := by
  obtain ⟨params, hreq⟩ := h.active _ hactive
  unfold Served.begin
  dsimp only
  split
  · exact h.of_begun _ _
  split
  next hmethod =>
    subst hmethod
    exact h.of_peer rfl rfl (fun _ => .inr ⟨_, hreq, rfl⟩) (by rintro - ⟨⟩)
  split
  next hmethod =>
    subst hmethod
    unfold Served.stop
    split
    · exact h.of_begun _ _
    · exact h.of_peer rfl rfl (fun _ => .inr ⟨_, hreq, rfl⟩) (by rintro - ⟨⟩)
  · exact h.of_begun _ _

theorem begin_peer (id : Nat) (method : String) (valid : Bool) :
    (p.begin id method valid).peer = p.peer := by
  unfold Served.begin
  dsimp only
  split
  · rfl
  split
  · rfl
  split
  · rw [stop_peer]
  · rfl

theorem open_of_perform {peer : RpcPeer} {move : PeerMove}
    (h : p.peer.perform terms.stringify move = some peer) (hopen : peer.closed = false) :
    p.peer.closed = false := by
  by_contra hclosed
  cases (perform_closed (by simpa using hclosed) h).symm.trans hopen

/-- A handler's reply goes out, or the connection is closed. -/
theorem Heard.finish (hheard : p.peer.closed = false → Heard before p) {k : Nat} {ok : Bool}
    {body : Json} (hfinish : p.finish terms k ok body = some p')
    (hopen : p'.peer.closed = false) : Heard before p' := by
  unfold Served.finish at hfinish
  split at hfinish
  · cases hfinish
  next id method hk =>
    split at hfinish
    · cases hfinish
    split at hfinish
    · cases hfinish
    obtain ⟨peer, hmove, rfl⟩ := Option.map_eq_some_iff.1 hfinish
    rw [setPeer_peer] at hopen
    have h := hheard (open_of_perform hmove hopen)
    simp only [RpcPeer.perform, hk] at hmove
    cases hmove
    obtain ⟨new, hadds, -, hsent⟩ := adds_reply terms.stringify h.fence id method ok body
    have hresponse := (hadds.keeps hopen).2 _ (.inr (hsent hopen))
    have herased : Adds p.peer { reply terms.stringify p.peer id method ok body with
        active := p.peer.active.eraseIdx k } new :=
      hadds.congr ⟨rfl, rfl, rfl, rfl⟩ ⟨rfl, rfl, rfl, rfl⟩
    refine Heard.of_begun (h.setPeer herased (fun e he => mem_of_mem_eraseIdx he)
      (fun e he hnot => ?_) hopen) _ _
    -- Only one of them is no longer at work.
    obtain ⟨j, hj⟩ := mem_iff_getElem?.1 he
    by_cases hjk : j = k
    · subst hjk
      cases hk.symm.trans hj
      exact ⟨method, ok, body, hresponse⟩
    · exact absurd (mem_eraseIdx_iff_getElem?.2 ⟨j, hjk, hj⟩) hnot

/-- Any other call of the peer: nothing that is at work is answered. -/
theorem Heard.call (hheard : p.peer.closed = false → Heard before p) {peer : RpcPeer}
    {move : PeerMove} (hcall : pluginCall move = true)
    (hmove : p.peer.perform terms.stringify move = some peer)
    (hopen : (p.setPeer peer).peer.closed = false) : Heard before (p.setPeer peer) := by
  rw [setPeer_peer] at hopen
  have h := hheard (open_of_perform hmove hopen)
  obtain ⟨new, hadds, -⟩ := adds_perform h.fence (by rintro method rfl; cases hcall) hmove
  refine h.setPeer_same hadds ?_ hopen
  cases move with
  | request method params options =>
    cases hmove
    exact (kept_request method params options).active
  | settle id =>
    cases hmove
    exact (kept_settle id).active
  | notify method params priority =>
    simp only [RpcPeer.perform] at hmove
    split at hmove
    · cases hmove
    split at hmove
    · cases hmove
      rfl
    split at hmove <;> cases hmove
    · rfl
    next hsend => exact (kept_send hsend).active
  | response id =>
    cases hmove
    rfl
  | wrote failed =>
    simp only [RpcPeer.perform] at hmove
    split at hmove <;> cases hmove
    cases failed with
    | true => exact kept_close.active
    | false => exact kept_flush.active
  | close =>
    cases hmove
    exact kept_close.active
  | register | refuse | reply | hold | negotiate => cases hcall

end Handlers

/-! ## The host -/

/-- No event waits to be written. -/
def Clear (w : RpcPeer) : Prop := ∀ f ∈ w.writes, f.message.namesEvent = false

/-- What holds of the host. -/
structure Hosted (terms : Terms) (h : Instance) : Prop where
  fence : h.peer.eventFence = none
  order : h.peer.line.Pairwise Before
  sent : ∀ m ∈ h.peer.line, m.namesEvent = true → Sent terms m ∧ number m ≤ h.outgoingEvent
  ready : h.status = .ready → h.awaited = none ∧ ∀ m ∈ h.peer.line, ends m = false
  clear : h.awaited ≠ none → Clear h.peer

/-- What holds of a host that leads its instance to its end. -/
structure Leaving (terms : Terms) (written : List Message) (h : Instance) : Prop where
  fence : h.peer.eventFence = none
  order : h.peer.line.Pairwise Before
  sent : ∀ m ∈ h.peer.line, m.namesEvent = true → Sent terms m ∧ number m ≤ h.outgoingEvent
  status : h.status ≠ .ready
  clear : Clear h.peer
  written : written <+: h.peer.written

section Host

variable {terms : Terms} {written : List Message} {h h' : Instance} {peer : RpcPeer}
  {new : List Message}

theorem clear_adds (hclear : Clear h.peer) (hadds : Adds h.peer peer new)
    (hnew : ∀ m ∈ new, m.namesEvent = false) : Clear peer := by
  intro f hf
  rcases hadds.writes f hf with ⟨g, hg, hgf⟩ | hf
  · exact hgf ▸ hclear g hg
  · exact hnew _ hf

theorem sent_adds (hsent : ∀ m ∈ h.peer.line, m.namesEvent = true →
      Sent terms m ∧ number m ≤ h.outgoingEvent) (hadds : Adds h.peer peer new)
    (hnew : ∀ m ∈ new, m.namesEvent = false) :
    ∀ m ∈ peer.line, m.namesEvent = true → Sent terms m ∧ number m ≤ h.outgoingEvent := by
  intro m hm he
  rcases mem_of_adds hadds hm with hm | hm
  · exact hsent m hm he
  · cases (hnew m hm).symm.trans he

namespace Leaving

theorem hosted (hl : Leaving terms written h) : Hosted terms h :=
  ⟨hl.fence, hl.order, hl.sent, fun hs => absurd hs hl.status, fun _ => hl.clear⟩

theorem of_hosted (hh : Hosted terms h) (hclear : Clear h.peer) {status : Status} {wait : Wait}
    (hstatus : status ≠ .ready) :
    Leaving terms h.peer.written { h with status := status, wait := wait } :=
  ⟨hh.fence, hh.order, hh.sent, hstatus, hclear, prefix_rfl⟩

section

variable (hl : Leaving terms written h)

include hl

theorem setWait (wait : Wait) : Leaving terms written { h with wait := wait } :=
  ⟨hl.fence, hl.order, hl.sent, hl.status, hl.clear, hl.written⟩

theorem adds (hadds : Adds h.peer peer new) (hnew : ∀ m ∈ new, m.namesEvent = false) :
    Leaving terms written { h with peer := peer } :=
  ⟨hadds.fence.trans hl.fence, before_adds hl.order hadds hnew fun _ _ _ => hl.clear,
    sent_adds (h := h) hl.sent hadds hnew, hl.status, clear_adds hl.clear hadds hnew,
    hl.written.trans hadds.written⟩

theorem ask (method : String) (params : Json) (hmethod : method ≠ "system.event") :
    Leaving terms written (h.ask terms method params).1 := by
  obtain ⟨new, hadds, hnew⟩ := adds_request terms.stringify hl.fence method params
    ⟨false, false, true⟩
  refine hl.adds hadds fun m hm => ?_
  obtain ⟨id, params, rfl⟩ := hnew m hm
  exact decide_eq_false hmethod

theorem terminate : Leaving terms written h.terminate := by
  have hclosed := hl.adds adds_close nofun
  exact ⟨hclosed.fence, hclosed.order, hclosed.sent, nofun, hclosed.clear, hclosed.written⟩

theorem stop : Leaving terms written (h.stop terms) := by
  have hstopping : Leaving terms written { h with status := .stopping } :=
    ⟨hl.fence, hl.order, hl.sent, nofun, hl.clear, hl.written⟩
  unfold Instance.stop
  dsimp only
  split
  · exact hstopping.terminate
  split
  · exact (hstopping.ask _ _ (by decide)).setWait _
  · exact (hstopping.ask _ _ (by decide)).terminate

theorem quiesce (operation : Operation) : Leaving terms written (h.quiesce terms operation) := by
  have hasked := hl.ask "system.quiesce"
    (.object [("timeoutMs", .number (.int h.peer.limits.shutdownTimeoutMs))]) (by decide)
  unfold Instance.quiesce
  dsimp only
  split
  · exact hasked.setWait _
  · cases operation with
    | unload => exact hasked.stop
    | reload => exact hasked.setWait _

theorem resume (ok : Bool) : Leaving terms written (h.resume terms ok) := by
  unfold Instance.resume
  split
  · exact hl.stop
  · split
    · dsimp only
      split
      · exact (hl.ask _ _ (by decide)).setWait _
      · exact (hl.ask _ _ (by decide)).setWait _
    · exact hl.setWait _
  · split
    · exact hl.stop
    · exact hl.setWait _
  · exact hl.terminate
  · exact hl

end

end Leaving

namespace Hosted

section

variable (hh : Hosted terms h)

include hh

/-- The condition under which an operation goes on with an instance. -/
theorem unload (hclear : h.status ≠ .stopped → h.wait = .idle → Clear h.peer) :
    Hosted terms (h.unload terms) ∧ h.peer.written <+: (h.unload terms).peer.written := by
  unfold Instance.unload
  split
  · exact ⟨hh, prefix_rfl⟩
  next hgoes =>
    rw [not_or, not_not] at hgoes
    have hl : Leaving terms h.peer.written { h with status := .draining } :=
      Leaving.of_hosted hh (hclear hgoes.1 hgoes.2) nofun
    exact ⟨(hl.quiesce .unload).hosted, (hl.quiesce .unload).written⟩

theorem reload (force : Bool) : Hosted terms (h.reload force) := by
  unfold Instance.reload
  split
  · exact hh
  · exact ⟨hh.fence, hh.order, hh.sent, fun hs => ⟨rfl, (hh.ready hs).2⟩, fun h => absurd rfl h⟩

theorem enter {force ok : Bool}
    (hclear : ok = true → h.status ≠ .failed → h.status ≠ .stopped → Clear h.peer) :
    Hosted terms (h.enter terms force ok) ∧
      h.peer.written <+: (h.enter terms force ok).peer.written := by
  unfold Instance.enter
  split
  · exact ⟨⟨hh.fence, hh.order, hh.sent, fun hs => ⟨rfl, (hh.ready hs).2⟩, fun h => absurd rfl h⟩,
      prefix_rfl⟩
  next hgoes =>
    simp only [not_or] at hgoes
    have hl : Leaving terms h.peer.written { h with status := .draining } :=
      Leaving.of_hosted hh (hclear (by simpa using hgoes.1) hgoes.2.1 hgoes.2.2) nofun
    dsimp only
    split
    · exact ⟨hl.stop.hosted, hl.stop.written⟩
    · exact ⟨(hl.quiesce .reload).hosted, (hl.quiesce .reload).written⟩

theorem resume (hawaited : h.awaited ≠ none) (ok : Bool) :
    Hosted terms (h.resume terms ok) ∧ h.peer.written <+: (h.resume terms ok).peer.written := by
  have hl : Leaving terms h.peer.written h :=
    ⟨hh.fence, hh.order, hh.sent, fun hs => hawaited (hh.ready hs).1, hh.clear hawaited, prefix_rfl⟩
  exact ⟨(hl.resume ok).hosted, (hl.resume ok).written⟩

/-- A call of the peer that sends neither events nor requests of the operations. -/
theorem adds (hadds : Adds h.peer peer new) (hnew : ∀ m ∈ new, m.namesEvent = false)
    (hends : ∀ m ∈ new, ends m = false) {status : Status}
    (hstatus : status = .ready → h.status = .ready) :
    Hosted terms { h with peer := peer, status := status } :=
  ⟨hadds.fence.trans hh.fence,
    before_adds hh.order hadds hnew fun m hm he => (by cases (hends m hm).symm.trans he),
    sent_adds (h := h) hh.sent hadds hnew,
    fun hs => ⟨(hh.ready (hstatus hs)).1, fun m hm => by
      rcases mem_of_adds hadds hm with hm | hm
      · exact (hh.ready (hstatus hs)).2 m hm
      · exact hends m hm⟩,
    fun hawaited => clear_adds (hh.clear hawaited) hadds hnew⟩

theorem setPeer (hadds : Adds h.peer peer new) (hnew : ∀ m ∈ new, m.namesEvent = false)
    (hends : ∀ m ∈ new, ends m = false) : Hosted terms (h.setPeer peer) := by
  unfold Instance.setPeer
  split
  · exact hh.adds hadds hnew hends nofun
  · exact hh.adds hadds hnew hends id

omit hh in
/-- A frame that a call of the host's peer sends. -/
theorem quiet_of_makes {move : PeerMove} (hcall : hostCall move = true) {m : Message}
    (hm : Makes move m) : m.namesEvent = false ∧ ends m = false := by
  cases move with
  | request method params options =>
    obtain ⟨id, params, rfl⟩ := hm
    cases of_decide_eq_true hcall
    exact ⟨rfl, rfl⟩
  | settle id | refuse id method body =>
    cases hm
    exact ⟨rfl, rfl⟩
  | reply k ok body =>
    obtain ⟨id, method, ok, body, rfl⟩ := hm
    exact ⟨rfl, rfl⟩
  | notify method params priority => cases hcall
  | _ => cases hm

theorem call {move : PeerMove} (hcall : hostCall move = true)
    (hmove : h.peer.perform terms.stringify move = some peer) :
    Hosted terms (h.setPeer peer) ∧ h.peer.written <+: (h.setPeer peer).peer.written := by
  obtain ⟨new, hadds, hnew⟩ := adds_perform hh.fence (by rintro method rfl; cases hcall) hmove
  refine ⟨hh.setPeer hadds (fun m hm => (quiet_of_makes hcall (hnew m hm)).1)
    fun m hm => (quiet_of_makes hcall (hnew m hm)).2, ?_⟩
  unfold Instance.setPeer
  split <;> exact hadds.written

/-- An event goes to the end of the queue. -/
theorem emitEvent (hlt : h.outgoingEvent + 1 < 10 ^ 31) (id digest event : String) (payload : Json)
    (related : Option String) : Hosted terms (h.emitEvent terms id digest event payload related).1 ∧
      h.peer.written <+: (h.emitEvent terms id digest event payload related).1.peer.written := by
  have hnext : Hosted terms { h with outgoingEvent := h.outgoingEvent + 1 } :=
    ⟨hh.fence, hh.order,
      fun m hm he => ⟨(hh.sent m hm he).1, Nat.le_succ_of_le (hh.sent m hm he).2⟩,
      hh.ready, hh.clear⟩
  unfold Instance.emitEvent
  split
  · exact ⟨hh, prefix_rfl⟩
  next hready =>
    split
    · exact ⟨hh, prefix_rfl⟩
    next s hservice =>
      split
      · exact ⟨hh, prefix_rfl⟩
      split
      · exact ⟨hh, prefix_rfl⟩
      next hcontains =>
        dsimp only
        split
        · exact ⟨hnext, prefix_rfl⟩
        next data hdata =>
          split
          · exact ⟨hnext, prefix_rfl⟩
          next params hparams =>
            split
            · exact ⟨hnext, prefix_rfl⟩
            next peer hsend =>
              have hstatus : h.status = .ready := not_not.1 hready
              obtain ⟨hvalid, hfixed⟩ := validate_again hdata
              cases fixed_eventParams hfixed _ _ _ hparams
              obtain ⟨value, hvalue, htext⟩ := encode_of_send hsend
              cases fixed_event (fixed_eventParams hfixed) _ _ _ _ _ hvalue
              have hsent : Sent terms (.notification "system.event" (eventParams terms.session
                  s.contract event (h.outgoingEvent + 1) data related)) :=
                .mk hservice (by simpa using hcontains) hvalid (Nat.succ_pos _) hlt htext
              have hline := send_line (by exact hh.fence) hsend
              have hadds := send_adds (by exact hh.fence) hsend
              exact
                ⟨{ fence := hadds.fence.trans hh.fence
                   order := by
                     rw [hline, pairwise_append]
                     refine ⟨hh.order, pairwise_singleton _ _, fun m hm m' hm' => ?_⟩
                     cases mem_singleton.1 hm'
                     refine ⟨fun he => ?_, fun he _ => ?_⟩
                     · cases ((hh.ready hstatus).2 m hm).symm.trans he
                     · rw [number_sent]
                       exact Nat.lt_succ_of_le (hh.sent m hm he).2
                   sent := fun m hm he => by
                     rw [hline] at hm
                     rcases mem_append.1 hm with hm | hm
                     · exact hnext.sent m hm he
                     · cases mem_singleton.1 hm
                       exact ⟨hsent, Nat.le_of_eq number_sent⟩
                   ready := fun _ => ⟨(hh.ready hstatus).1, fun m hm => by
                     rw [hline] at hm
                     rcases mem_append.1 hm with hm | hm
                     · exact (hh.ready hstatus).2 m hm
                     · cases mem_singleton.1 hm
                       rfl⟩
                   clear := fun hawaited => absurd (hh.ready hstatus).1 hawaited },
                  hadds.written⟩

end

end Hosted

end Host

/-! ## The session -/

/-- The instance has become ready, and no event has been sent. -/
structure Starts (s : Session) : Prop where
  status : s.host.status = .ready
  awaited : s.host.awaited = none
  fence : s.host.peer.eventFence = none
  line : ∀ m ∈ s.host.peer.line, m.namesEvent = false ∧ ends m = false
  received : s.received ≤ s.host.peer.written.length
  plugin : Heard (s.host.peer.written.take s.received) s.plugin
  blamed : s.blamed = none

/-- What holds of a session. -/
structure Sound (terms : Terms) (s : Session) : Prop where
  host : Hosted terms s.host
  received : s.received ≤ s.host.peer.written.length
  plugin : s.plugin.peer.closed = false → Heard (s.host.peer.written.take s.received) s.plugin
  blamed : ∀ m, s.blamed = some m → m.namesEvent = false

/-- No event is overtaken, and none is too large where it is decoded. -/
def Allowed (terms : Terms) (s : Session) : Move → Prop
  | .emit _ _ _ _ _ => s.host.outgoingEvent + 1 < 10 ^ 31
  | .unload => s.host.status ≠ .stopped → s.host.wait = .idle → Clear s.host.peer
  | .enter ok =>
    ok = true → s.host.status ≠ .failed → s.host.status ≠ .stopped → Clear s.host.peer
  | .deliver n => Fits terms s.plugin.peer.limits s.plugin.peer.maxBytes 0 0 (s.chunk n)
  | _ => True

section Session

variable {terms : Terms} {s s' : Session} {m : Move}

theorem sound_start (h : Starts s) : Sound terms s where
  host :=
    { fence := h.fence
      order := pairwise_of_forall_mem_list fun m hm m' hm' =>
        ⟨fun _ => (h.line m' hm').1, fun he _ => by cases (h.line m hm).1.symm.trans he⟩
      sent := fun m hm he => by cases (h.line m hm).1.symm.trans he
      ready := fun _ => ⟨h.awaited, fun m hm => (h.line m hm).2⟩
      clear := fun hawaited => absurd h.awaited hawaited }
  received := h.received
  plugin _ := h.plugin
  blamed m hm := by cases h.blamed.symm.trans hm

namespace Sound

section

variable (h : Sound terms s)

include h

/-- The host does something, and what is written stays. -/
theorem setHost {host : Instance} (hhost : Hosted terms host)
    (hwritten : s.host.peer.written <+: host.peer.written) (heard : Nat) :
    Sound terms { s with host := host, heard := heard } where
  host := hhost
  received := h.received.trans hwritten.length_le
  plugin hopen := by
    obtain ⟨rest, hrest⟩ := hwritten
    dsimp only
    rw [← hrest, take_append_of_le_length h.received]
    exact h.plugin hopen
  blamed := h.blamed

theorem setPlugin {p : Served}
    (hp : p.peer.closed = false → Heard (s.host.peer.written.take s.received) p) :
    Sound terms { s with plugin := p } :=
  ⟨h.host, h.received, hp, h.blamed⟩

/-- The background work, or the subscriptions, of the plugin change. -/
theorem setWork {p : Served} (hpeer : p.peer = s.plugin.peer)
    (hlast : p.lastHostSequence = s.plugin.lastHostSequence) (hstate : p.state = s.plugin.state)
    (hdraining : p.draining = true ∨ p.quiescence ≠ .none →
      s.plugin.draining = true ∨ s.plugin.quiescence ≠ .none) :
    Sound terms { s with plugin := p } :=
  h.setPlugin fun hopen => by
    have hheard := h.plugin (hpeer ▸ hopen)
    exact hheard.of_peer hpeer hlast (fun hs => .inl (hstate ▸ hs)) fun hd =>
      hstate ▸ hheard.draining (hdraining hd)

/-- A chunk comes in. -/
theorem deliver {n : Nat} (hopen : s.plugin.peer.closed = false) (hlength : n ≤ (s.chunk n).length)
    (hfits : Fits terms s.plugin.peer.limits s.plugin.peer.maxBytes 0 0 (s.chunk n)) :
    Sound terms { s with
      plugin := (s.plugin.push terms 0 0 (s.chunk n)).1
      received := s.received + n
      blamed := (s.plugin.push terms 0 0 (s.chunk n)).2 } := by
  have htake : s.host.peer.written.take (s.received + n) =
      s.host.peer.written.take s.received ++ s.chunk n := take_add
  have hsub : (s.host.peer.written.take (s.received + n)).Sublist s.host.peer.line :=
    (take_sublist _ _).trans (sublist_append_left _ _)
  have hmem : ∀ m ∈ s.chunk n, m ∈ s.host.peer.line := fun m hm =>
    hsub.subset (htake ▸ mem_append_right _ hm)
  obtain ⟨hheard, hblamed⟩ := heard_push (h.plugin) hopen (htake ▸ h.host.order.sublist hsub)
    (fun m hm he => (h.host.sent m (hmem m hm) he).1) hfits
  refine ⟨h.host, ?_, fun hopen => ?_, hblamed⟩
  · simp only [Session.chunk, length_take, length_drop] at hlength
    have := h.received
    dsimp only
    omega
  · dsimp only
    rw [htake]
    exact hheard hopen

/-- **What one move does.** -/
theorem next (hallowed : Allowed terms s m) (hm : s.perform terms m = some s') :
    Sound terms s' := by
  cases m with
  | emit id digest event payload related =>
    cases hm
    obtain ⟨hhost, hwritten⟩ := h.host.emitEvent hallowed id digest event payload related
    exact h.setHost hhost hwritten _
  | unload =>
    cases hm
    obtain ⟨hhost, hwritten⟩ := h.host.unload hallowed
    exact h.setHost hhost hwritten _
  | reload force =>
    cases hm
    refine h.setHost (h.host.reload force) ?_ _
    unfold Instance.reload
    split <;> exact prefix_rfl
  | enter ok =>
    simp only [Session.perform] at hm
    split at hm <;> cases hm
    obtain ⟨hhost, hwritten⟩ := h.host.enter hallowed
    exact h.setHost hhost hwritten _
  | hear valid =>
    simp only [Session.perform] at hm
    split at hm
    · cases hm
    next id method ok body _ =>
      cases hm
      have hhost : Hosted terms { s.host with
          peer := { s.host.peer with pending := Slots.removeKey s.host.peer.pending id } } :=
        ⟨h.host.fence, h.host.order, h.host.sent, h.host.ready, h.host.clear⟩
      split
      next hawaited =>
        have hsome : s.host.awaited ≠ none := by
          rw [hawaited]
          exact Option.some_ne_none id
        obtain ⟨hhost', hwritten⟩ := hhost.resume hsome (ok && valid)
        exact h.setHost hhost' hwritten _
      · exact h.setHost hhost prefix_rfl _
    · cases hm
      exact h.setHost h.host prefix_rfl _
  | lapse =>
    simp only [Session.perform] at hm
    split at hm <;> cases hm
    next id hawaited =>
      obtain ⟨new, hadds, hnew⟩ := adds_settle terms.stringify h.host.fence id
      have hhost : Hosted terms { s.host with
          peer := RpcPeer.settle terms.stringify s.host.peer id } :=
        h.host.adds hadds (fun m hm => (by cases hnew m hm; rfl))
          (fun m hm => (by cases hnew m hm; rfl)) fun hs => hs
      have hsome : s.host.awaited ≠ none := by
        rw [hawaited]
        exact Option.some_ne_none id
      obtain ⟨hhost', hwritten⟩ := hhost.resume hsome false
      exact h.setHost hhost' (hadds.written.trans hwritten) _
  | host move =>
    simp only [Session.perform] at hm
    split at hm
    next hcall =>
      obtain ⟨peer, hmove, rfl⟩ := Option.map_eq_some_iff.1 hm
      obtain ⟨hhost, hwritten⟩ := h.host.call hcall hmove
      exact h.setHost hhost hwritten _
    · cases hm
  | deliver n =>
    simp only [Session.perform] at hm
    split at hm <;> cases hm
    next hgoes =>
      rw [not_or, Bool.not_eq_true, Nat.not_lt] at hgoes
      exact h.deliver hgoes.1 hgoes.2 hallowed
  | begin k valid =>
    simp only [Session.perform] at hm
    split at hm
    · cases hm
    next id method hactive =>
      split at hm <;> cases hm
      refine h.setPlugin fun hopen => ?_
      rw [begin_peer] at hopen
      exact (h.plugin hopen).begin valid (mem_of_getElem? hactive)
  | finish k ok body =>
    obtain ⟨p, hfinish, rfl⟩ := Option.map_eq_some_iff.1 hm
    exact h.setPlugin fun hopen => Heard.finish h.plugin hfinish hopen
  | drain =>
    simp only [Session.perform] at hm
    split at hm <;> cases hm
    next hpending =>
      refine h.setWork rfl rfl rfl fun _ => .inr ?_
      rw [hpending]
      exact Quiescence.noConfusion
  | quiesced ok =>
    simp only [Session.perform] at hm
    split at hm <;> cases hm
    next hpending =>
      refine h.setWork rfl rfl rfl fun _ => .inr ?_
      rw [hpending.1]
      exact Quiescence.noConfusion
  | subscribe interface event =>
    cases hm
    exact h.setWork rfl rfl rfl fun hd => hd
  | take i =>
    simp only [Session.perform] at hm
    split at hm <;> cases hm
    exact h.setWork rfl rfl rfl fun hd => hd
  | plugin move =>
    simp only [Session.perform] at hm
    split at hm
    next hcall =>
      obtain ⟨peer, hmove, rfl⟩ := Option.map_eq_some_iff.1 hm
      exact h.setPlugin fun hopen => Heard.call h.plugin hcall hmove hopen
    · cases hm

end

end Sound

/-- The runs of a session, whose moves are all of one kind. -/
def Session.Runs (terms : Terms) (Allowed : Session → Move → Prop) (s : Session) : Prop :=
  Reachable Starts (fun s s' => ∃ m, Allowed s m ∧ s.perform terms m = some s') s

/-- No event has closed the connection of the plugin, and while it is open each request that came
in is at work, or has its reply. -/
structure Answers (s : Session) : Prop where
  blamed : ∀ m, s.blamed = some m → m.namesEvent = false
  answered : s.plugin.peer.closed = false →
    ∀ id method params, .request id method params ∈ s.host.peer.written.take s.received →
      id ∈ s.plugin.peer.active.map Prod.fst ∨
        ∃ method ok body, .response id method ok body ∈ s.plugin.peer.line

/-- **An event does not cost a plugin its session.**

This is so when no event waits in the queue of the host at the time when the instance begins to
drain, and where the decoder has room for the events of a chunk. -/
theorem events_never_close (h : s.Runs terms (Allowed terms)) : Answers s := by
  have hsound : Sound terms s :=
    Reachable.invariant (I := Sound terms) (fun _ hs => sound_start hs)
      (fun _ _ hs ⟨_, hallowed, hm⟩ => hs.next hallowed hm) h
  exact ⟨hsound.blamed, fun hopen => (hsound.plugin hopen).answered⟩

/-! ## Two runs -/

instance decidableFits (limits : Limits) (maxBytes : Nat) :
    ∀ (count bytes : Nat) (frames : List Message),
      Decidable (Fits terms limits maxBytes count bytes frames)
  | _, _, [] => inferInstanceAs (Decidable True)
  | count, bytes, m :: rest =>
    have := decidableFits limits maxBytes (count + 1)
      (bytes + (Served.payload terms m).length) rest
    inferInstanceAs (Decidable (_ ∧ _))

instance decidableAllowed : ∀ {m : Move}, Decidable (Allowed terms s m)
  | .emit _ _ _ _ _ => inferInstanceAs (Decidable (_ < _))
  | .unload => inferInstanceAs (Decidable (_ → _ → ∀ f ∈ s.host.peer.writes, _ = _))
  | .enter _ => inferInstanceAs (Decidable (_ → _ → _ → ∀ f ∈ s.host.peer.writes, _ = _))
  | .deliver _ => decidableFits _ _ _ _ _
  | .reload _ | .hear _ | .lapse | .host _ | .begin _ _ | .finish _ _ _ | .drain | .quiesced _
  | .subscribe _ _ | .take _ | .plugin _ => inferInstanceAs (Decidable True)

/-- Several moves in a row, each of which is allowed. -/
def Session.performAll (terms : Terms) (Allowed : Session → Move → Prop)
    [∀ s m, Decidable (Allowed s m)] (s : Session) : List Move → Option Session
  | [] => some s
  | m :: rest =>
    if Allowed s m then
      (s.perform terms m).bind fun s => s.performAll terms Allowed rest
    else none

theorem runs_performAll {Allowed : Session → Move → Prop} [∀ s m, Decidable (Allowed s m)]
    {moves : List Move} (h : s.Runs terms Allowed)
    (hall : s.performAll terms Allowed moves = some s') : s'.Runs terms Allowed := by
  induction moves generalizing s with
  | nil =>
    cases hall
    exact h
  | cons m rest ih =>
    rw [Session.performAll] at hall
    split at hall
    next hallowed =>
      obtain ⟨next, hm, hrest⟩ := Option.bind_eq_some_iff.1 hall
      exact ih (h.next ⟨m, hallowed, hm⟩) hrest
    · cases hall

/-- A contract with one event, whose payload may be anything. -/
def clock : Service := ⟨⟨"clock", "1", ["tick"], fun _ _ => .ok ()⟩, "d"⟩

/-- The plugin requires it. -/
def clockTerms : Terms where
  stringify := RpcPeer.compactText
  session := "s"
  services id := if id = "clock" then some clock else none
  requiresHost := [clock.contract]
  agreed id s h := by
    split at h
    next hid =>
      subst hid
      cases h
      exact ⟨rfl, by simp [clock]⟩
    · cases h

/-- A session in which nothing has been sent. -/
def opened : Session where
  host := ⟨.new "s" 'h' Limits.default false, .ready, 0, .idle⟩
  plugin := ⟨.new "s" 'p' Limits.default false, false, .ready, .none, false, 0, [], []⟩
  received := 0
  heard := 0
  blamed := none

theorem starts_opened : Starts opened where
  status := rfl
  awaited := rfl
  fence := rfl
  line := nofun
  received := Nat.le_refl 0
  plugin :=
    { fence := rfl
      state := fun h => absurd rfl h
      draining := by decide
      active := nofun
      last := .inl rfl
      answered := nofun }
  blamed := rfl

/-- An event of the clock. -/
def tick : Move := .emit "clock" "d" "tick" .null none

/-- The request to quiesce goes in front of an event. -/
def overtaken : List Move :=
  [tick, tick, .unload, .host (.wrote false), .deliver 2, .begin 0 true, .host (.wrote false),
    .deliver 1]

/-- An event closes the connection of a plugin that drains. -/
theorem event_closes : ¬ ∀ (terms : Terms) (s : Session),
    s.Runs terms (fun _ _ => True) → Answers s := by
  intro h
  have hrun : (opened.performAll clockTerms (fun _ _ => True) overtaken).any (fun s =>
      s.blamed.any (·.namesEvent)) = true := by decide +kernel
  obtain ⟨s, hs, hblamed⟩ := (Option.any_eq_true _ _).1 hrun
  obtain ⟨m, hm, hevent⟩ := (Option.any_eq_true _ _).1 hblamed
  have hruns : s.Runs clockTerms (fun _ _ => True) :=
    runs_performAll (.start starts_opened) hs
  cases ((h clockTerms s hruns).blamed m hm).symm.trans hevent

/-- The instance drains when both events have been written. -/
def inTurn : List Move :=
  [tick, tick, .host (.wrote false), .unload, .host (.wrote false), .deliver 3, .begin 0 true,
    .drain, .quiesced true, .finish 0 true .null]

/-- The plugin takes both events, and answers the request to quiesce. -/
theorem quiesce_answered : ∃ s : Session, s.plugin.lastHostSequence = 2 ∧
    s.plugin.peer.closed = false ∧ s.plugin.peer.written.length = 1 ∧ Answers s := by
  have hrun : (opened.performAll clockTerms (Allowed clockTerms) inTurn).any (fun s =>
      decide (s.plugin.lastHostSequence = 2 ∧ s.plugin.peer.closed = false ∧
        s.plugin.peer.written.length = 1)) = true := by decide +kernel
  obtain ⟨s, hs, hfound⟩ := (Option.any_eq_true _ _).1 hrun
  obtain ⟨hlast, hopen, hwritten⟩ := of_decide_eq_true hfound
  exact ⟨s, hlast, hopen, hwritten,
    events_never_close (runs_performAll (.start starts_opened) hs)⟩

end Session

end Serve

end Plugin

end NapiVm
