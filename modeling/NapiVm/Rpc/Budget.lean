import NapiVm.Rpc.Fence

/-!
# The byte budget

Frames of all three queues share one counter.  A call of `enqueue` counts the bytes of its
frame before it offers the frame to a channel, and the frame takes them back when it is
dropped, wherever that happens.  So the counter is the bytes of the frames that are queued
or held by the writer, and of those that a running call has counted already.

The budget of a frame is on its length with the header, and what `validate` compares is
without, so that a frame may be refused that is not too long.

* `counter_accounted` — the counter, in every run.
* `fits_iff` — when a frame fits that is not too long.
-/

namespace NapiVm.Rpc

open Host

/-- The bytes of some frames. -/
def size (frames : List QueuedFrame) : Nat := (frames.map fun f => f.data.length).sum

@[simp] theorem size_nil : size [] = 0 := rfl

@[simp] theorem size_cons (f : QueuedFrame) (frames : List QueuedFrame) :
    size (f :: frames) = f.data.length + size frames := rfl

@[simp] theorem size_append (l l' : List QueuedFrame) : size (l ++ l') = size l + size l' := by
  simp [size]

/-- The bytes that a call of `enqueue` has counted for a frame in no channel. -/
def SendStage.reservedBytes : SendStage → Nat
  | reserved data => data.length
  | refused data _ => data.length
  | _ => 0

namespace Outbound

variable {serialize : Serializer} {w w' : Outbound}

/-- The bytes in the three channels. -/
def queuedBytes (w : Outbound) : Nat := size w.control + size w.business + size w.events

/-- The bytes of the frame that the writer holds. -/
def heldBytes (w : Outbound) : Nat := size w.writer.held.toList

/-- The bytes that running calls of `enqueue` have counted. -/
def reservedBytes (w : Outbound) : Nat := (w.sends.map fun s => s.stage.reservedBytes).sum

/-- All bytes that are to be counted. -/
def totalBytes (w : Outbound) : Nat := w.queuedBytes + w.heldBytes + w.reservedBytes

/-- Most bytes that there may be with a frame of this class. -/
def ceiling (reach : Nat) (m : Message) : Nat :=
  if m.priority then reach + 1024 * 1024 else reach

/-- The counter is right, and within the limits of the beginning. -/
structure Accounted (reach : Nat) (w : Outbound) : Prop where
  exact : w.bytes = w.totalBytes
  bound : w.bytes ≤ reach + 1024 * 1024
  shrunk : w.limits.maxQueuedBytes ≤ reach
  /-- A running call works with the limits of now, or older ones. -/
  budgets : ∀ s ∈ w.sends, ∀ data max, s.stage = .encoded data max →
    budget w.limits s.message ≤ max ∧ max ≤ ceiling reach s.message

/-! ## Sections that count nothing -/

/-- No frame is counted, written or dropped; a call of `enqueue` may begin. -/
structure Spares (move : Move) (w w' : Outbound) : Prop where
  bytes : w'.bytes = w.bytes
  queued : ∀ q, w'.queued q = w.queued q
  writer : w'.writer = w.writer
  limits : w'.limits.maxQueuedBytes ≤ w.limits.maxQueuedBytes
  written : w'.written = w.written
  sends : w'.sends = w.sends ∨ ∃ m, w'.sends = ⟨m, .entered⟩ :: w.sends ∧
    (m.isEvent = true → ∃ method params, move = .notify method params ∧
      m = .notification method params)

theorem queuedBytes_congr (h : ∀ q, w'.queued q = w.queued q) : w'.queuedBytes = w.queuedBytes := by
  have hcontrol : w'.control = w.control := h .control
  have hbusiness : w'.business = w.business := h .business
  have hevents : w'.events = w.events := h .events
  simp only [queuedBytes, hcontrol, hbusiness, hevents]

theorem budget_mono {a b : Limits} (h : a.maxQueuedBytes ≤ b.maxQueuedBytes) (m : Message) :
    budget a m ≤ budget b m := by
  unfold budget
  split
  · omega
  · exact h

variable {reach k : Nat} {m : Message} {s : Send} {data : List UInt8}

theorem budget_le_ceiling {a : Limits} (h : a.maxQueuedBytes ≤ reach) (m : Message) :
    budget a m ≤ ceiling reach m := by
  unfold budget ceiling
  split
  · omega
  · exact h

theorem Accounted.spares {move : Move} (h : w.Accounted reach) (hspares : Spares move w w') :
    w'.Accounted reach := by
  obtain ⟨hbytes, hqueued, hwriter, hlimits, -, hsends⟩ := hspares
  have hreserved : w'.reservedBytes = w.reservedBytes := by
    rcases hsends with hsends | ⟨m, hsends, -⟩
    · simp only [reservedBytes, hsends]
    · simp [reservedBytes, hsends, SendStage.reservedBytes]
  refine ⟨?_, hbytes ▸ h.bound, Nat.le_trans hlimits h.shrunk, fun s hs data max hstage => ?_⟩
  · simp only [totalBytes, queuedBytes_congr hqueued, heldBytes, hwriter, hreserved, hbytes]
    exact h.exact
  · have hold : s ∈ w.sends := by
      rcases hsends with hsends | ⟨m, hsends, -⟩
      · exact hsends ▸ hs
      · rcases List.mem_cons.1 (hsends ▸ hs) with rfl | hs
        · cases hstage
        · exact hs
    obtain ⟨hle, hmax⟩ := h.budgets s hold data max hstage
    exact ⟨Nat.le_trans (budget_mono hlimits s.message) hle, hmax⟩

variable {move : Move}

/-- Nothing is sent. -/
theorem Spares.quiet (hbytes : w'.bytes = w.bytes) (hqueued : ∀ q, w'.queued q = w.queued q)
    (hwriter : w'.writer = w.writer)
    (hlimits : w'.limits.maxQueuedBytes ≤ w.limits.maxQueuedBytes)
    (hwritten : w'.written = w.written) (hsends : w'.sends = w.sends) : Spares move w w' :=
  ⟨hbytes, hqueued, hwriter, hlimits, hwritten, .inl hsends⟩

/-- Something is sent that is no event. -/
theorem Spares.send (hevent : m.isEvent = false) : Spares move w (w.send m) :=
  ⟨rfl, fun q => by cases q <;> rfl, rfl, Nat.le_refl _, rfl,
    .inr ⟨m, rfl, fun h => nomatch hevent.symm.trans h⟩⟩

theorem Spares.setPhase (id : Nat) (phase : CallPhase) : Spares move w (w.setPhase id phase) :=
  .quiet rfl (fun q => by cases q <;> rfl) rfl (Nat.le_refl _) rfl rfl

theorem spares_removeEntry (id : Nat) (phase : CallPhase) :
    Spares move w ((w.setPhase id phase).removeEntry id) := by
  unfold removeEntry
  dsimp only
  cases (Slots.get (w.setPhase id phase).pending id).isSome with
  | false => exact .quiet rfl (fun q => by cases q <;> rfl) rfl (Nat.le_refl _) rfl rfl
  | true =>
    exact ⟨rfl, fun q => by cases q <;> rfl, rfl, Nat.le_refl _, rfl, .inr ⟨_, rfl, nofun⟩⟩

theorem spares_performCall (h : w.performCall move = some w') : Spares move w w' := by
  unfold performCall at h
  split at h
  · split at h
    · cases h
      exact .quiet rfl (fun q => by cases q <;> rfl) rfl (Nat.le_refl _) rfl rfl
    · cases h
  · split at h
    · dsimp only at h
      split at h
      · cases h
        exact .setPhase _ _
      · cases h
        exact ⟨rfl, fun q => by cases q <;> rfl, rfl, Nat.le_refl _, rfl, .inr ⟨_, rfl, nofun⟩⟩
    · cases h
  · split at h
    · cases h
      exact .quiet rfl (fun q => by cases q <;> rfl) rfl (Nat.le_refl _) rfl rfl
    · cases h
  · split at h
    · cases h
      exact .setPhase _ _
    · cases h
  · split at h
    · cases h
      exact .setPhase _ _
    · cases h
  · split at h
    · cases h
      exact spares_removeEntry _ _
    · cases h
  · split at h
    · cases h
      exact spares_removeEntry _ _
    · cases h
  · cases h

/-! ## The other sections of calls and handlers -/

theorem spares_performShared (h : w.performShared serialize move = some w') :
    Spares move w w' ∨ (∃ k s, move = .advance k ∧ w.sends[k]? = some s ∧
      w' = w.advance serialize k s) ∨ w' = { w with control := w.control ++ [⟨none, []⟩] } := by
  unfold performShared at h
  split at h
  · split at h
    · cases h
    · cases h
      exact .inl ⟨rfl, fun q => by cases q <;> rfl, rfl, Nat.le_refl _, rfl,
        .inr ⟨_, rfl, fun _ => ⟨_, _, rfl, rfl⟩⟩⟩
  · split at h
    · rename_i s hs
      cases h
      exact .inr (.inl ⟨_, s, rfl, hs, rfl⟩)
    · cases h
  · split at h
    · cases h
    · cases h
      exact .inr (.inr rfl)
  · cases h
    exact .inl (.quiet rfl (fun q => by cases q <;> rfl) rfl (Nat.le_refl _) rfl rfl)
  · split at h <;> cases h <;>
      exact .inl (.quiet rfl (fun q => by cases q <;> rfl) rfl (Nat.le_refl _) rfl rfl)
  · cases h
    exact .inl (.send rfl)
  · split at h
    · cases h
      exact .inl ⟨rfl, fun q => by cases q <;> rfl, rfl, Nat.le_refl _, rfl, .inr ⟨_, rfl, nofun⟩⟩
    · cases h
  · split at h
    · cases h
      left
      dsimp only
      split <;> exact .quiet rfl (fun q => by cases q <;> rfl) rfl (Nat.le_refl _) rfl rfl
    · cases h
  · cases h
    exact .inl (.quiet rfl (fun q => by cases q <;> rfl) rfl (Nat.le_refl _) rfl rfl)
  · split at h
    · cases h
    · cases h
      exact .inl (.quiet rfl (fun q => by cases q <;> rfl) rfl (Nat.le_refl _) rfl rfl)
  · split at h
    · cases h
      exact .inl (.quiet rfl (fun q => by cases q <;> rfl) rfl (Nat.min_le_left _ _) rfl rfl)
    · cases h
  · cases h
    exact .inl (.quiet rfl (fun q => by cases q <;> rfl) rfl (Nat.le_refl _) rfl rfl)
  · split at h
    · cases h
      exact .inl (.quiet rfl (fun q => by cases q <;> rfl) rfl (Nat.le_refl _) rfl rfl)
    · cases h
  · cases h

/-- A call of `enqueue` is over, and has counted nothing. -/
structure Ends (k : Nat) (w w' : Outbound) : Prop where
  bytes : w'.bytes = w.bytes
  queued : ∀ q, w'.queued q = w.queued q
  writer : w'.writer = w.writer
  limits : w'.limits = w.limits
  written : w'.written = w.written
  sends : w'.sends = w.sends.eraseIdx k

theorem ends_sendFailed (k : Nat) (m : Message) : Ends k w (w.sendFailed k m) := by
  cases m <;> exact ⟨rfl, fun q => by cases q <;> rfl, rfl, rfl, rfl, rfl⟩

theorem ends_sendDone (k : Nat) (m : Message) : Ends k w (w.sendDone k m) := by
  cases m with
  | response id method ok body =>
    cases ok <;> exact ⟨rfl, fun q => by cases q <;> rfl, rfl, rfl, rfl, rfl⟩
  | _ => exact ⟨rfl, fun q => by cases q <;> rfl, rfl, rfl, rfl, rfl⟩

/-- The bytes that the other calls have counted. -/
def otherBytes (w : Outbound) (k : Nat) : Nat :=
  ((w.sends.eraseIdx k).map fun s => s.stage.reservedBytes).sum

theorem reservedBytes_eraseIdx (h : w.sends[k]? = some s) :
    w.reservedBytes = s.stage.reservedBytes + w.otherBytes k := by
  obtain ⟨hlt, rfl⟩ := List.getElem?_eq_some_iff.1 h
  have hperm := (List.getElem_cons_eraseIdx_perm hlt).map fun s : Send => s.stage.reservedBytes
  exact hperm.sum_nat.symm

theorem Ends.reservedBytes (h : Ends k w w') : w'.reservedBytes = w.otherBytes k := by
  simp only [Outbound.reservedBytes, otherBytes, h.sends]

theorem Ends.totalBytes (h : Ends k w w') :
    w'.totalBytes = w.queuedBytes + w.heldBytes + w.otherBytes k := by
  simp only [Outbound.totalBytes, queuedBytes_congr h.queued, heldBytes, h.writer, h.reservedBytes]

theorem totalBytes_proceed (k : Nat) (s : Send) : (w.proceed k s).totalBytes =
    w.queuedBytes + w.heldBytes + (s.stage.reservedBytes + w.otherBytes k) := by
  rfl

theorem queuedBytes_setQueue (q : Queue) (f : QueuedFrame) :
    (w.setQueue q (w.queued q ++ [f])).queuedBytes = w.queuedBytes + f.data.length := by
  cases q <;> simp only [setQueue, queued, queuedBytes, size_append, size_cons, size_nil] <;> omega

section

variable (q : Queue) (frames : List QueuedFrame)

include q frames

theorem otherBytes_setQueue (k : Nat) : (w.setQueue q frames).otherBytes k = w.otherBytes k := by
  cases q <;> rfl

theorem heldBytes_setQueue : (w.setQueue q frames).heldBytes = w.heldBytes := by
  cases q <;> rfl

theorem bytes_setQueue : (w.setQueue q frames).bytes = w.bytes := by
  cases q <;> rfl

theorem limits_setQueue : (w.setQueue q frames).limits = w.limits := by
  cases q <;> rfl

theorem sends_setQueue : (w.setQueue q frames).sends = w.sends := by
  cases q <;> rfl

end

section

variable (h : w.Accounted reach)

include h

/-- Old calls keep their budgets. -/
theorem Accounted.budgets_of_sends (hlimits : w'.limits = w.limits)
    (hsends : ∀ s ∈ w'.sends, s ∈ w.sends ∨
      ∀ data max, s.stage = .encoded data max →
        budget w.limits s.message ≤ max ∧ max ≤ ceiling reach s.message) :
    ∀ s ∈ w'.sends, ∀ data max, s.stage = .encoded data max →
      budget w'.limits s.message ≤ max ∧ max ≤ ceiling reach s.message := by
  intro s hs data max hstage
  rw [hlimits]
  rcases hsends s hs with hold | hnew
  · exact h.budgets s hold data max hstage
  · exact hnew data max hstage

theorem Accounted.ends (hends : Ends k w w') (hs : w.sends[k]? = some s)
    (hcounted : s.stage.reservedBytes = 0) : w'.Accounted reach where
  exact := by
    have hexact := h.exact
    rw [Outbound.totalBytes, reservedBytes_eraseIdx hs] at hexact
    rw [hends.totalBytes, hends.bytes]
    omega
  bound := hends.bytes ▸ h.bound
  shrunk := hends.limits ▸ h.shrunk
  budgets := h.budgets_of_sends hends.limits fun s' hs' =>
    .inl (List.mem_of_mem_eraseIdx (hends.sends ▸ hs'))

theorem Accounted.proceed {next : Send} (hs : w.sends[k]? = some s)
    (hcounted : next.stage.reservedBytes = s.stage.reservedBytes)
    (hbudget : ∀ data max, next.stage = .encoded data max →
      budget w.limits next.message ≤ max ∧ max ≤ ceiling reach next.message) :
    (w.proceed k next).Accounted reach where
  exact := by
    have hexact := h.exact
    rw [Outbound.totalBytes, reservedBytes_eraseIdx hs] at hexact
    rw [totalBytes_proceed, hcounted]
    exact hexact
  bound := h.bound
  shrunk := h.shrunk
  budgets := h.budgets_of_sends rfl fun s' hs' => by
    rcases List.mem_cons.1 hs' with rfl | hs'
    · exact .inr hbudget
    · exact .inl (List.mem_of_mem_eraseIdx hs')

/-- One section of `enqueue`. -/
theorem Accounted.advance (hs : w.sends[k]? = some s) :
    (w.advance serialize k s).Accounted reach := by
  have hexact := h.exact
  rw [Outbound.totalBytes, reservedBytes_eraseIdx hs] at hexact
  obtain ⟨m, stage⟩ := s
  cases stage with
  | entered =>
    cases hclosed : w.closed with
    | true =>
      simp only [Outbound.advance, hclosed, if_true]
      exact h.ends (ends_sendFailed k m) hs rfl
    | false =>
      simp only [Outbound.advance, hclosed, Bool.false_eq_true, if_false]
      exact h.proceed hs rfl nofun
  | passed =>
    cases hencode : w.encode serialize m with
    | error e =>
      simp only [Outbound.advance, hencode]
      exact h.ends (ends_sendFailed k m) hs rfl
    | ok data =>
      simp only [Outbound.advance, hencode]
      refine h.proceed hs rfl fun data' max heq => ?_
      cases heq
      exact ⟨Nat.le_refl _, budget_le_ceiling h.shrunk m⟩
  | encoded data max =>
    by_cases hfits : w.bytes + data.length ≤ max
    · simp only [Outbound.advance, hfits, if_true]
      have hmax := (h.budgets _ (List.mem_of_getElem? hs) data max rfl).2
      have hceiling : max ≤ reach + 1024 * 1024 := by
        unfold ceiling at hmax
        split at hmax <;> omega
      refine ⟨?_, Nat.le_trans hfits hceiling, h.shrunk, h.budgets_of_sends rfl fun s' hs' => ?_⟩
      · have htotal := totalBytes_proceed (w := w) k ⟨m, .reserved data⟩
        have hzero : (SendStage.encoded data max).reservedBytes = 0 := rfl
        simp only [SendStage.reservedBytes] at htotal hexact
        refine Eq.trans ?_ htotal.symm
        dsimp only
        omega
      · rcases List.mem_cons.1 hs' with rfl | hs'
        · exact .inr nofun
        · exact .inl (List.mem_of_mem_eraseIdx hs')
    · simp only [Outbound.advance, hfits, if_false]
      exact h.ends (ends_sendFailed k m) hs rfl
  | reserved data =>
    cases hrefusal : w.refusal m.queue with
    | some e =>
      simp only [Outbound.advance, hrefusal]
      exact h.proceed hs rfl nofun
    | none =>
      simp only [Outbound.advance, hrefusal]
      have hends := ends_sendDone k m
        (w := w.setQueue m.queue (w.queued m.queue ++ [⟨some m, data⟩]))
      refine ⟨?_, ?_, ?_, h.budgets_of_sends ?_ fun s' hs' => .inl ?_⟩
      · rw [hends.totalBytes, hends.bytes, queuedBytes_setQueue, otherBytes_setQueue,
          heldBytes_setQueue, bytes_setQueue]
        simp only [SendStage.reservedBytes] at hexact
        dsimp only
        omega
      · rw [hends.bytes, bytes_setQueue]
        exact h.bound
      · rw [hends.limits, limits_setQueue]
        exact h.shrunk
      · rw [hends.limits, limits_setQueue]
      · rw [hends.sends, sends_setQueue] at hs'
        exact List.mem_of_mem_eraseIdx hs'
  | refused data e =>
    have hends := ends_sendFailed (w := w) k m
    simp only [SendStage.reservedBytes] at hexact
    refine ⟨?_, ?_, hends.limits ▸ h.shrunk, h.budgets_of_sends hends.limits fun s' hs' => .inl ?_⟩
    · have htotal := hends.totalBytes
      refine Eq.trans ?_ htotal.symm
      show w.bytes - data.length = _
      omega
    · exact Nat.le_trans (Nat.sub_le _ _) h.bound
    · exact List.mem_of_mem_eraseIdx (hends.sends ▸ hs')

end

/-! ## The writer -/

theorem Accounted.of_writer (h : w.Accounted reach)
    (hbytes : w'.bytes + w.queuedBytes + w.heldBytes = w.bytes + w'.queuedBytes + w'.heldBytes)
    (hle : w'.bytes ≤ w.bytes) (hlimits : w'.limits = w.limits) (hsends : w'.sends = w.sends) :
    w'.Accounted reach where
  exact := by
    have hexact := h.exact
    simp only [totalBytes, reservedBytes] at hexact ⊢
    rw [hsends]
    omega
  bound := Nat.le_trans hle h.bound
  shrunk := hlimits ▸ h.shrunk
  budgets := h.budgets_of_sends hlimits fun s hs => .inl (hsends ▸ hs)

variable {q : Queue} {f : QueuedFrame} {session : String} {side : Char} {limits : Limits}
  {e : RpcError} {max : Nat}

theorem queuedBytes_of_queued {rest : List QueuedFrame} (h : w.queued q = f :: rest) :
    w.queuedBytes = f.data.length + (w.setQueue q rest).queuedBytes := by
  cases q <;>
    simp only [queued] at h <;>
    simp only [queuedBytes, setQueue, h, size_cons] <;>
    omega

/-- What a frame takes back was counted. -/
theorem Accounted.length_le (h : w.Accounted reach)
    (hf : w.writer.held = some f ∨ ∃ q rest, w.queued q = f :: rest) : f.data.length ≤ w.bytes := by
  rw [h.exact, totalBytes]
  rcases hf with hf | ⟨q, rest, hq⟩
  · have : w.heldBytes = f.data.length := by simp [heldBytes, hf]
    omega
  · have := queuedBytes_of_queued hq
    omega

theorem Accounted.writerStep (h : w.Accounted reach) (hstep : WriterStep w w') :
    w'.Accounted reach := by
  cases hstep with
  | sample hw | leave events hw | again events hw hchanged | arm events hw hchanged
  | controlEmpty events hw hc | park events hw | hangUp hw | pass f hw hpending
  | skip f hw hrequest | wrote f hw | interrupt f hw | fail f hw =>
    exact h.of_writer (by simp [heldBytes, queuedBytes, hw, Writer.held]) (Nat.le_refl _) rfl rfl
  | takeControl events f rest hw hc | takeBusiness events f rest hw hc | takeEvent f rest hw hc =>
    refine h.of_writer ?_ (Nat.le_refl _) rfl rfl
    simp only [heldBytes, queuedBytes, hw, hc, Writer.held, Option.toList_none,
      Option.toList_some, size_cons, size_nil]
    omega
  | drop f ends hw =>
    have hle := h.length_le (.inl (by rw [hw]; rfl) : w.writer.held = some f ∨ _)
    refine h.of_writer ?_ (Nat.sub_le _ _) rfl rfl
    cases ends <;>
      simp only [heldBytes, queuedBytes, hw, Writer.held, Option.toList_none,
        Option.toList_some, size_cons, size_nil, if_true, Bool.false_eq_true, if_false] <;>
      omega
  | discard q f rest hw hq =>
    have hle := h.length_le (.inr ⟨q, rest, hq⟩)
    refine h.of_writer ?_ (Nat.sub_le _ _) (limits_setQueue q rest) (sends_setQueue q rest)
    have hqueued := queuedBytes_of_queued hq
    have hheld := heldBytes_setQueue (w := w) q rest
    show w.bytes - f.data.length + w.queuedBytes + w.heldBytes =
      w.bytes + (w.setQueue q rest).queuedBytes + (w.setQueue q rest).heldBytes
    omega

/-! ## Runs -/

theorem Accounted.next (h : w.Accounted reach) {m : Move} (hm : w.perform serialize m = some w') :
    w'.Accounted reach := by
  rcases perform_cases hm with hm | hm | hm
  · exact h.spares (spares_performCall hm)
  · rcases spares_performShared hm with hspares | ⟨k, s, -, hs, rfl⟩ | rfl
    · exact h.spares hspares
    · exact h.advance hs
    · exact h.of_writer (by simp [queuedBytes, heldBytes]) (Nat.le_refl _) rfl rfl
  · exact h.writerStep (writerStep_performWriter hm)

theorem accounted_new : (new session side limits).Accounted limits.maxQueuedBytes where
  exact := rfl
  bound := Nat.zero_le _
  shrunk := Nat.le_refl _
  budgets _ hs := nomatch hs

theorem Accounted.run
    (h : Relation.ReflTransGen (fun w w' => ∃ m, w.perform serialize m = some w')
      (new session side limits) w) : w.Accounted limits.maxQueuedBytes := by
  induction h with
  | refl => exact accounted_new
  | tail _ hstep ih =>
    obtain ⟨m, hm⟩ := hstep
    exact ih.next hm

theorem Runs.accounted (h : w.Runs serialize) : ∃ reach, w.Accounted reach := by
  obtain ⟨w₀, ⟨session, side, limits, -, rfl⟩, hrun⟩ := h
  exact ⟨_, .run hrun⟩

theorem performAll_steps {moves : List Move} (h : w.performAll serialize moves = some w') :
    Relation.ReflTransGen (fun w w' => ∃ m, w.perform serialize m = some w') w w' :=
  steps_of_all h (fun _ => rfl) (fun _ _ _ => rfl) fun m _ _ _ h => ⟨m, h⟩

/-! ## A whole call -/

theorem refusal_ne_budgetErr : w.refusal q ≠ some budgetErr := by
  unfold refusal
  cases w.writer with
  | gone => simp [goneErr, budgetErr]
  | _ =>
    dsimp only
    split <;> simp [queueErr, budgetErr]

/-- How a whole call of `enqueue` ends. -/
inductive Enqueued (serialize : Serializer) (w : Outbound) (m : Message) :
    Except RpcError Unit × Outbound → Prop where
  | closed (hclosed : w.closed = true) : Enqueued serialize w m (.error closedErr, w)
  | rejected (e : RpcError) (hopen : w.closed = false) (hencode : w.encode serialize m = .error e) :
      Enqueued serialize w m (.error e, w)
  | overBudget (data : List UInt8) (hopen : w.closed = false)
      (hencode : w.encode serialize m = .ok data)
      (hover : budget w.limits m < w.bytes + data.length) :
      Enqueued serialize w m (.error budgetErr, w)
  | refused (data : List UInt8) (e : RpcError) (hopen : w.closed = false)
      (hencode : w.encode serialize m = .ok data)
      (hfits : w.bytes + data.length ≤ budget w.limits m) (hrefusal : w.refusal m.queue = some e) :
      Enqueued serialize w m (.error e, w)
  | accepted (data : List UInt8) (hopen : w.closed = false)
      (hencode : w.encode serialize m = .ok data)
      (hfits : w.bytes + data.length ≤ budget w.limits m) (hrefusal : w.refusal m.queue = none) :
      Enqueued serialize w m (.ok (),
        ({ w with bytes := w.bytes + data.length } : Outbound).setQueue m.queue
          (w.queued m.queue ++ [⟨some m, data⟩]))

theorem enqueued_enqueue (m : Message) : Enqueued serialize w m (w.enqueue serialize m) := by
  unfold enqueue
  by_cases hclosed : w.closed = true
  · rw [if_pos hclosed]
    exact .closed hclosed
  have hopen := Bool.eq_false_iff.2 hclosed
  rw [if_neg hclosed]
  cases hencode : w.encode serialize m with
  | error e => exact .rejected e hopen hencode
  | ok data =>
    dsimp only
    by_cases hfits : w.bytes + data.length ≤ budget w.limits m
    · rw [if_pos hfits]
      have hsame : ({ w with bytes := w.bytes + data.length } : Outbound).refusal m.queue =
          w.refusal m.queue := rfl
      rw [hsame]
      cases hrefusal : w.refusal m.queue with
      | none => exact .accepted data hopen hencode hfits hrefusal
      | some e =>
        rw [Nat.add_sub_cancel]
        exact .refused data e hopen hencode hfits hrefusal
    · rw [if_neg hfits]
      exact .overBudget data hopen hencode (Nat.lt_of_not_le hfits)

theorem enqueue_error (h : (w.enqueue serialize m).1 = .error e) :
    (w.enqueue serialize m).2 = w := by
  have hends : Enqueued serialize w m (w.enqueue serialize m) := enqueued_enqueue m
  generalize w.enqueue serialize m = result at h hends
  cases hends with
  | accepted data hopen hencode hfits hrefusal => cases h
  | _ => rfl

theorem enqueue_ok (h : (w.enqueue serialize m).1 = .ok ()) :
    (w.enqueue serialize m).2.bytes ≤ budget w.limits m := by
  have hends : Enqueued serialize w m (w.enqueue serialize m) := enqueued_enqueue m
  generalize w.enqueue serialize m = result at h hends
  cases hends with
  | accepted data hopen hencode hfits hrefusal =>
    dsimp only
    rw [bytes_setQueue]
    exact hfits
  | _ => cases h

theorem perform_advance (h : w.sends[k]? = some s) :
    w.perform serialize (.advance k) = some (w.advance serialize k s) := by
  simp only [perform, performCall, performShared, performWriter, h, Option.none_or, Option.or_none]

/-- A peer with one more call of `enqueue` under way. -/
def withSend (w : Outbound) (s : Send) : Outbound := { w with sends := s :: w.sends }

/-- Sections of that call, while nothing else happens. -/
def alone (serialize : Serializer) (w : Outbound) (s : Send) (n : Nat) : Option Outbound :=
  (w.withSend s).performAll serialize (List.replicate n (.advance 0))

theorem alone_succ (s : Send) (n : Nat) : alone serialize w s (n + 1) =
    ((w.withSend s).advance serialize 0 s).performAll serialize
      (List.replicate n (.advance 0)) := by
  rw [alone, List.replicate_succ, performAll, perform_advance (s := s) rfl, Option.bind_some]

theorem alone_entered (hopen : w.closed = false) (n : Nat) :
    alone serialize w ⟨m, .entered⟩ (n + 1) = alone serialize w ⟨m, .passed⟩ n := by
  have hsame : (w.withSend ⟨m, .entered⟩).closed = false := hopen
  simp only [alone_succ, Outbound.advance, hsame, Bool.false_eq_true, if_false]
  rfl

theorem alone_passed (hencode : w.encode serialize m = .ok data) (n : Nat) :
    alone serialize w ⟨m, .passed⟩ (n + 1) =
      alone serialize w ⟨m, .encoded data (budget w.limits m)⟩ n := by
  have hsame : (w.withSend ⟨m, .passed⟩).encode serialize m = .ok data := hencode
  simp only [alone_succ, Outbound.advance, hsame]
  rfl

theorem alone_encoded (hfits : w.bytes + data.length ≤ max) (n : Nat) :
    alone serialize w ⟨m, .encoded data max⟩ (n + 1) =
      alone serialize { w with bytes := w.bytes + data.length } ⟨m, .reserved data⟩ n := by
  have hsame : (w.withSend ⟨m, .encoded data max⟩).bytes + data.length ≤ max := hfits
  simp only [alone_succ, Outbound.advance, hsame, if_true]
  rfl

theorem alone_reserved (hrefusal : w.refusal m.queue = some e) (n : Nat) :
    alone serialize w ⟨m, .reserved data⟩ (n + 1) = alone serialize w ⟨m, .refused data e⟩ n := by
  have hsame : (w.withSend ⟨m, .reserved data⟩).refusal m.queue = some e := hrefusal
  simp only [alone_succ, Outbound.advance, hsame]
  rfl

/-- **The counter is the bytes that are there**: those of the frames in the channels, of the
frame that the writer holds, and those that running calls have counted.  It never gives back
more than it has, stays within the first limits, and a call counts a frame only within the
budget it read; one that fails leaves the counter as it was. -/
theorem counter_accounted {session : String} {side : Char} {limits : Limits}
    (h : Relation.ReflTransGen (fun w w' => ∃ m, w.perform serialize m = some w')
      (new session side limits) w) :
    w.bytes = w.queuedBytes + w.heldBytes + w.reservedBytes ∧
      w.bytes ≤ limits.maxQueuedBytes + 1024 * 1024 ∧
      (∀ f, (w.writer.held = some f ∨ ∃ q rest, w.queued q = f :: rest) →
        f.data.length ≤ w.bytes) ∧
      (∀ s ∈ w.sends, s.stage.reservedBytes ≤ w.bytes) ∧
      (∀ k m data max, w.sends[k]? = some ⟨m, .encoded data max⟩ → m.priority = false →
        w.limits.maxQueuedBytes ≤ max ∧ max ≤ limits.maxQueuedBytes ∧
          ((w.advance serialize k ⟨m, .encoded data max⟩).bytes = w.bytes ∨
            (w.advance serialize k ⟨m, .encoded data max⟩).bytes ≤ max)) ∧
      (∀ m, m.priority = false → (w.enqueue serialize m).1 = .ok () →
        (w.enqueue serialize m).2.bytes ≤ w.limits.maxQueuedBytes) ∧
      (∀ m e, (w.enqueue serialize m).1 = .error e →
        (w.enqueue serialize m).2.bytes = w.bytes) := by
  have haccounted : w.Accounted limits.maxQueuedBytes := .run h
  refine ⟨haccounted.exact, haccounted.bound, fun f hf => haccounted.length_le hf,
    fun s hs => ?_, fun k m data max hs hclass => ?_, fun m hclass hok => ?_, fun m e herror => ?_⟩
  · obtain ⟨k, hk⟩ := List.mem_iff_getElem?.1 hs
    have hexact := haccounted.exact
    rw [totalBytes, reservedBytes_eraseIdx hk] at hexact
    omega
  · obtain ⟨hle, hmax⟩ := haccounted.budgets _ (List.mem_of_getElem? hs) data max rfl
    simp only [budget, ceiling, hclass, Bool.false_eq_true, if_false] at hle hmax
    refine ⟨hle, hmax, ?_⟩
    by_cases hfits : w.bytes + data.length ≤ max
    · right
      simp only [Outbound.advance, hfits, if_true]
    · left
      simp only [Outbound.advance, hfits, if_false]
      exact (ends_sendFailed k m).bytes
  · have hle := enqueue_ok hok
    simpa only [budget, hclass, Bool.false_eq_true, if_false] using hle
  · rw [enqueue_error herror]

/-- Somebody has emitted an event, up to the queue but not into it. -/
def reserving : List Move :=
  [.notify "system.event" (.object []), .advance 0, .advance 0, .advance 0]

/-- A frame is counted before it is in a channel. -/
theorem counted_before_queued : ¬ ∀ (serialize : Serializer) (w : Outbound), w.Runs serialize →
    w.bytes = w.queuedBytes + w.heldBytes := by
  intro h
  have hrun : (pluginPeer.performAll compactValue reserving).any (fun w =>
      w.bytes != w.queuedBytes + w.heldBytes) = true := by
    decide +kernel
  obtain ⟨w, hw, hfound⟩ := (Option.any_eq_true _ _).1 hrun
  rw [h compactValue w (runs_performAll runs_pluginPeer hw)] at hfound
  simp at hfound

theorem counter_accounted_emitted : ∃ w : Outbound,
    pluginPeer.performAll compactValue emitted = some w ∧ w.bytes ≤ 17 * 1024 * 1024 ∧
      w.bytes = w.queuedBytes + w.heldBytes + w.reservedBytes := by
  have hrun : (pluginPeer.performAll compactValue emitted).isSome = true := by decide +kernel
  obtain ⟨w, hw⟩ := Option.isSome_iff_exists.1 hrun
  obtain ⟨hexact, hbound, -⟩ := counter_accounted (performAll_steps hw)
  exact ⟨w, hw, hbound, hexact⟩

/-- **When a frame fits**: on an open peer with empty channels, a business call or an event is
turned away for the byte budget exactly when the frame with its header does not fit beside
what the writer holds and running calls have counted. -/
theorem fits_iff (h : w.Runs serialize) (hopen : w.closed = false)
    (hempty : w.control = [] ∧ w.business = [] ∧ w.events = []) {m : Message}
    (hclass : m.priority = false) {data frame : List UInt8}
    (hdata : encodeValue serialize (m.value w.side w.session) w.limits.maxDepth = .ok data)
    (hframe : encodeFrame serialize (m.value w.side w.session) w.limits.maxFrameBytes
      w.limits.maxDepth = .ok frame) :
    (w.enqueue serialize m).1 ≠ .error budgetErr ↔
      w.heldBytes + w.reservedBytes + (data.length + 4) ≤ w.limits.maxQueuedBytes := by
  obtain ⟨reach, haccounted⟩ := h.accounted
  have hlength := length_frame hframe hdata
  have hbytes : w.bytes = w.heldBytes + w.reservedBytes := by
    rw [haccounted.exact, totalBytes, queuedBytes, hempty.1, hempty.2.1, hempty.2.2]
    simp only [size_nil, Nat.zero_add]
  have hbudget : budget w.limits m = w.limits.maxQueuedBytes := by
    simp only [budget, hclass, Bool.false_eq_true, if_false]
  have hends : Enqueued serialize w m (w.enqueue serialize m) := enqueued_enqueue m
  generalize w.enqueue serialize m = result at hends ⊢
  rw [← hlength, ← hbytes, ← hbudget]
  cases hends with
  | closed hclosed => exact absurd (hopen.symm.trans hclosed) nofun
  | rejected e _ hencode => exact absurd (hframe.symm.trans hencode) nofun
  | overBudget data' _ hencode hover =>
    cases hframe.symm.trans hencode
    exact ⟨fun hne => absurd rfl hne, fun hle => absurd hle (Nat.not_le.2 hover)⟩
  | refused data' e _ hencode hfits hrefusal =>
    cases hframe.symm.trans hencode
    refine ⟨fun _ => hfits, fun _ heq => ?_⟩
    cases heq
    exact refusal_ne_budgetErr hrefusal
  | accepted data' _ hencode hfits hrefusal =>
    cases hframe.symm.trans hencode
    exact ⟨fun _ => hfits, fun _ => nofun⟩

/-- Limits that `validate` accepts, for events without content. -/
def tightLimits : Limits :=
  { Limits.default with maxFrameBytes := 53, maxQueuedBytes := 53 }

/-- An event without content. -/
def emptyEvent : Message := .notification "system.event" (.object [])

theorem encodeValue_emptyEvent : ∃ data,
    encodeValue compactValue (emptyEvent.value 'p' "s") 64 = .ok data ∧ data.length = 53 := by
  have hdata : (encodeValue compactValue (emptyEvent.value 'p' "s") 64).toOption.any
      (fun data => data.length == 53) = true := by decide +kernel
  obtain ⟨data, hok, hlength⟩ := (Option.any_eq_true _ _).1 hdata
  refine ⟨data, ?_, beq_iff_eq.1 hlength⟩
  cases hencode : encodeValue compactValue (emptyEvent.value 'p' "s") 64 with
  | error e =>
    rw [hencode] at hok
    cases hok
  | ok data' =>
    rw [hencode] at hok
    exact congrArg Except.ok (Option.some.inj hok)

theorem encodeFrame_emptyEvent
    (h : encodeValue compactValue (emptyEvent.value 'p' "s") 64 = .ok data)
    (hlength : data.length = 53) (hmax : 53 ≤ max) :
    encodeFrame compactValue (emptyEvent.value 'p' "s") max 64 =
      .ok (bigEndian data.length ++ data) := by
  refine encodeFrame_ok.2 ⟨data, h, fun hnil => ?_, by omega, by omega, rfl⟩
  rw [hnil] at hlength
  cases hlength

/-- The header does not fit. -/
theorem longest_frame_refused : ¬ ∀ (serialize : Serializer) (w : Outbound), w.Runs serialize →
    w.closed = false → w.control = [] → w.business = [] → w.events = [] →
      ∀ (m : Message) (frame : List UInt8), m.priority = false →
        encodeFrame serialize (m.value w.side w.session) w.limits.maxFrameBytes
          w.limits.maxDepth = .ok frame → (w.enqueue serialize m).1 ≠ .error budgetErr := by
  intro h
  have hvalid : tightLimits.Valid := Limits.validate_ok.1 rfl
  obtain ⟨data, hdata, hlength⟩ := encodeValue_emptyEvent
  refine h compactValue (new "s" 'p' tightLimits) (.start ⟨"s", 'p', tightLimits, hvalid, rfl⟩)
    rfl rfl rfl rfl emptyEvent _ rfl (encodeFrame_emptyEvent hdata hlength (Nat.le_refl 53)) ?_
  decide +kernel

theorem fits_iff_emptyEvent :
    (pluginPeer.enqueue compactValue emptyEvent).1 ≠ .error budgetErr := by
  obtain ⟨data, hdata, hlength⟩ := encodeValue_emptyEvent
  refine (fits_iff runs_pluginPeer rfl ⟨rfl, rfl, rfl⟩ (m := emptyEvent) rfl hdata
    (encodeFrame_emptyEvent hdata hlength (by decide))).2 ?_
  rw [hlength]
  decide

end Outbound

end NapiVm.Rpc
