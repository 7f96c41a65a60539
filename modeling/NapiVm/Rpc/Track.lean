import NapiVm.Rpc.Peer

/-!
# The life of one request

What the peer's sections do to one request id, seen on its own: an automaton whose
state is a `Track` and whose steps are `Track.Step`.  Everything the peer promises
about a request is an invariant of this automaton, `Track.Sound`.

* `Track.Step.sound` — each step keeps the invariant.
* `Track.Sound.left_once` — a request leaves the pending map at most once, and
  exactly once when it entered and its call is over.
-/

namespace NapiVm.Rpc

variable {α : Type}

/-- Has the call an entry of its own, or may it still get one? -/
def Phase.unborn : Phase α → Bool
  | .allocated _ _ => true
  | _ => false

/-- Is the call over? -/
def Phase.isFinished : Phase α → Bool
  | .finished _ => true
  | _ => false

/-- Has the call not been told yet how it ends? -/
def Phase.expects : Phase α → Bool
  | .inserted => true
  | .waiting => true
  | _ => false

/-- Is the entry there because `enqueue` has not looked at the flag, or has refused? -/
def Phase.early : Phase α → Bool
  | .inserted => true
  | .failing _ => true
  | _ => false

theorem Phase.eq_allocated {p : Phase α} (h : p.unborn = true) : ∃ b k, p = .allocated b k := by
  cases p with
  | allocated b k => exact ⟨b, k, rfl⟩
  | _ => cases h

/-- What the call has returned. -/
def Phase.results : Phase α → List (Outcome α)
  | .finished (some o) => [o]
  | _ => []

/-- How far the reader is with the response of one request. -/
inductive Stage where
  | none
  | holding
  | checked
  | sending
  deriving DecidableEq

/-- One request. -/
structure Track (α : Type) where
  call : Option (Call α)
  pending : Bool
  stage : Stage
  /-- Drained by `close`, and not told yet. -/
  owed : Bool
  /-- Has `close` drained the pending map? -/
  drained : Bool
  entered : Nat
  left : Nat
  /-- For each response received, whether the waiter was open. -/
  receptions : List Bool
  accepted : Nat
  outcomes : List (Outcome α)

/-- What a call does to itself without touching the pending map. -/
inductive Moves (drained : Bool) : Call α → Call α → Prop where
  | wait (closed : Bool) (r : Option (Outcome α)) (h : drained = false) :
      Moves drained ⟨.inserted, closed, r⟩ ⟨.waiting, closed, r⟩
  | fail (closed : Bool) (r : Option (Outcome α)) (e : RpcError) :
      Moves drained ⟨.inserted, closed, r⟩ ⟨.failing e, closed, r⟩
  | decide (closed : Bool) (r : Option (Outcome α)) (o : Outcome α) :
      Moves drained ⟨.waiting, closed, r⟩ ⟨.decided o, true, r⟩
  | drop (closed : Bool) (r : Option (Outcome α)) :
      Moves drained ⟨.waiting, closed, r⟩ ⟨.guarded none, true, r⟩

/-- The end of a call that removes its entry. -/
inductive Removes : Call α → Call α → Prop where
  | failing (closed : Bool) (r : Option (Outcome α)) (e : RpcError) :
      Removes ⟨.failing e, closed, r⟩ ⟨.guarded (some (.error e)), closed, r⟩
  | decided (closed : Bool) (r : Option (Outcome α)) (o : Outcome α) :
      Removes ⟨.decided o, closed, r⟩ ⟨.guarded (some o), closed, r⟩

/-- What `Sender::send` does to the other end. -/
def Call.sent (c : Call α) (o : Outcome α) : Call α :=
  if c.closed then c else { c with received := some o }

@[simp] theorem Call.sent_phase (c : Call α) (o : Outcome α) : (c.sent o).phase = c.phase := by
  unfold Call.sent
  split <;> rfl

@[simp] theorem Call.sent_closed (c : Call α) (o : Outcome α) : (c.sent o).closed = c.closed := by
  unfold Call.sent
  split <;> rfl

theorem Call.sent_received (c : Call α) (o : Outcome α) (h : c.closed = false) :
    (c.sent o).received = some o := by
  simp [Call.sent, h]

namespace Track

/-- The track of an id nobody has. -/
def fresh (drained : Bool) : Track α where
  call := none
  pending := false
  stage := .none
  owed := false
  drained := drained
  entered := 0
  left := 0
  receptions := []
  accepted := 0
  outcomes := []

/-- The steps of one request. -/
inductive Step (t : Track α) : Track α → Prop where
  | stay : Step t t
  | allocate (business handler : Bool) (h : t.call = none) :
      Step t { t with call := some ⟨.allocated business handler, false, none⟩ }
  | refuse (c : Call α) (o : Outcome α) (h : t.call = some c) (hc : c.phase.unborn = true) :
      Step t { t with
        call := some { c with phase := .finished (some o), closed := true }
        outcomes := t.outcomes ++ [o] }
  | enter (c : Call α) (h : t.call = some c) (hc : c.phase.unborn = true)
      (hopen : c.closed = false) :
      Step t { t with
        call := some { c with phase := .inserted }
        pending := true
        entered := t.entered + 1 }
  | move (c c' : Call α) (h : t.call = some c) (hm : Moves t.drained c c') :
      Step t { t with call := some c' }
  | remove (c c' : Call α) (h : t.call = some c) (hr : Removes c c') :
      Step t { t with
        call := some c'
        pending := false
        left := t.left + t.pending.toNat }
  | release (c : Call α) (o : Option (Outcome α)) (h : t.call = some c)
      (hc : c.phase = .guarded o) :
      Step t { t with
        call := some { c with phase := .finished o, closed := true }
        pending := false
        left := t.left + t.pending.toNat
        outcomes := t.outcomes ++ o.toList }
  | takeEntry (c : Call α) (h : t.call = some c) (hp : t.pending = true) (hs : t.stage = .none) :
      Step t { t with
        pending := false
        stage := .holding
        left := t.left + 1
        receptions := t.receptions ++ [!c.closed] }
  | checkWaiter (c : Call α) (h : t.call = some c) (hs : t.stage = .holding) :
      Step t { t with stage := if c.closed then .none else .checked }
  | acceptResult (judged : Bool) (hs : t.stage = .checked) :
      Step t { t with stage := .sending, accepted := t.accepted + judged.toNat }
  | sendResult (o : Outcome α) (hs : t.stage = .sending) :
      Step t { t with stage := .none, call := t.call.map (·.sent o) }
  | drain (h : t.owed = false) :
      Step t { t with
        pending := false
        owed := t.pending
        drained := true
        left := t.left + t.pending.toNat }
  | tell (o : Outcome α) (h : t.owed = true) :
      Step t { t with owed := false, call := t.call.map (·.sent o) }

/-- **The invariant of a request.** -/
structure Sound (t : Track α) : Prop where
  /-- Nothing has happened to an id before its call enters the pending map. -/
  unborn : (∀ c, t.call = some c → c.phase.unborn = true) →
    t.pending = false ∧ t.entered = 0 ∧ (∀ c, t.call = some c → c.closed = false)
  /-- What entered is either there or has left. -/
  balance : t.left + t.pending.toNat = t.entered
  once : t.entered ≤ 1
  /-- A call that is over is not pending. -/
  ended : ∀ c, t.call = some c → c.phase.isFinished = true → t.pending = false
  /-- The outcomes seen are those the call returned. -/
  outcomes : t.outcomes = (t.call.map fun c => c.phase.results).getD []
  /-- Each reception took the entry out. -/
  receptions : t.receptions.length ≤ t.left
  /-- A response is accepted once, and only with the waiter open at its reception. -/
  accepted : t.accepted = 0 ∨ t.accepted = 1 ∧ t.receptions = [true]
  holding : t.stage = .holding → t.accepted = 0 ∧
    ∃ w, t.receptions = [w] ∧ ∀ c, t.call = some c → c.closed = false → w = true
  checked : t.stage = .checked → t.accepted = 0 ∧ t.receptions = [true]
  /-- The waiter is open while its call expects something, and somebody will tell it. -/
  expects : ∀ c, t.call = some c → c.phase.expects = true →
    c.closed = false ∧
      (c.received = none → t.pending = true ∨ t.stage ≠ .none ∨ t.owed = true)
  /-- After the drain only calls that never wait are pending. -/
  drained : t.drained = true → t.pending = true → ∃ c, t.call = some c ∧ c.phase.early = true

theorem fresh_sound (drained : Bool) : (fresh drained : Track α).Sound where
  unborn _ := ⟨rfl, rfl, nofun⟩
  balance := rfl
  once := Nat.zero_le 1
  ended _ h := by cases h
  outcomes := rfl
  receptions := Nat.le_refl 0
  accepted := .inl rfl
  holding h := by cases h
  checked h := by cases h
  expects _ h := by cases h
  drained _ h := by cases h

/-- What a request needs of a call that takes the place of another. -/
structure Follows (t : Track α) (c c' : Call α) : Prop where
  unborn : c'.phase.unborn = true → c.phase.unborn = true ∧ c'.closed = c.closed
  ended : c'.phase.isFinished = true → t.pending = false
  closed : c'.closed = false → c.closed = false
  expects : c'.phase.expects = true →
    c.phase.expects = true ∧ c'.closed = c.closed ∧ (c'.received = none → c.received = none)
  early : t.drained = true → t.pending = true → c.phase.early = true → c'.phase.early = true

namespace Sound

variable {t : Track α} {c c' : Call α}

section

variable (ht : t.Sound)

include ht

/-- Before its call enters, a request has no entry, an open waiter and no outcome. -/
theorem before (h : t.call = some c) (hc : c.phase.unborn = true) :
    t.pending = false ∧ t.entered = 0 ∧ c.closed = false ∧ t.outcomes = [] := by
  obtain ⟨hp, he, ho⟩ := ht.unborn (fun d hd => by rw [h] at hd; cases hd; exact hc)
  obtain ⟨b, k, hk⟩ := Phase.eq_allocated hc
  refine ⟨hp, he, ho c h, ?_⟩
  rw [ht.outcomes, h]
  simp [hk, Phase.results]

/-- A request that has not left the pending map has had no response. -/
theorem unanswered (hl : t.left = 0) : t.receptions = [] ∧ t.accepted = 0 := by
  have hr : t.receptions = [] := by
    have := ht.receptions
    exact List.length_eq_zero_iff.1 (by omega)
  refine ⟨hr, ?_⟩
  obtain h | ⟨-, h⟩ := ht.accepted
  · exact h
  · rw [hr] at h
    cases h

theorem left_of_pending (hp : t.pending = true) : t.left = 0 := by
  have hb := ht.balance
  have ho := ht.once
  simp only [hp, Bool.toNat_true] at hb
  omega

/-- A call takes the place of another. -/
theorem supersede (h : t.call = some c) (hf : t.Follows c c') :
    Sound { t with call := some c', outcomes := c'.phase.results } where
  unborn hc := by
    obtain ⟨hu, hcl⟩ := hf.unborn (hc c' rfl)
    obtain ⟨hp, he, ho, -⟩ := ht.before h hu
    refine ⟨hp, he, fun d hd => ?_⟩
    cases hd
    rw [hcl, ho]
  balance := ht.balance
  once := ht.once
  ended d hd hfin := by
    cases hd
    exact hf.ended hfin
  outcomes := rfl
  receptions := ht.receptions
  accepted := ht.accepted
  holding hs := by
    obtain ⟨ha, w, hw, ho⟩ := ht.holding hs
    refine ⟨ha, w, hw, fun d hd hcl => ?_⟩
    cases hd
    exact ho c h (hf.closed hcl)
  checked := ht.checked
  expects d hd he := by
    cases hd
    obtain ⟨hce, hcl, hr⟩ := hf.expects he
    obtain ⟨ho, hheld⟩ := ht.expects c h hce
    exact ⟨hcl.trans ho, fun hn => hheld (hr hn)⟩
  drained hd hp := by
    obtain ⟨d, hdc, he⟩ := ht.drained hd hp
    rw [h] at hdc
    cases hdc
    exact ⟨c', rfl, hf.early hd hp he⟩

/-- A call that has returned nothing takes the place of another. -/
theorem supersede_silent (h : t.call = some c) (hf : t.Follows c c')
    (hr : c'.phase.results = c.phase.results) : Sound { t with call := some c' } := by
  have ho : t.outcomes = c'.phase.results := by rw [ht.outcomes, h, hr]; rfl
  have := ht.supersede h hf
  rwa [← ho] at this

/-- The entry goes, and nobody counts on it. -/
theorem dequeue (h : t.call = some c) (he : c.phase.expects = false) :
    Sound { t with pending := false, left := t.left + t.pending.toNat } where
  unborn hc := ⟨rfl, (ht.unborn hc).2⟩
  balance := by simpa using ht.balance
  once := ht.once
  ended _ _ _ := rfl
  outcomes := ht.outcomes
  receptions := Nat.le_trans ht.receptions (Nat.le_add_right _ _)
  accepted := ht.accepted
  holding := ht.holding
  checked := ht.checked
  expects d hd hde := by
    simp only [h, Option.some.injEq] at hd
    subst hd
    rw [he] at hde
    cases hde
  drained _ hp := by cases hp

section

variable (h : ∀ c, t.call = some c → c.phase.expects = true → c.received ≠ none)

include h

/-- The call has what it expects, so the reader may let go of it. -/
theorem clearStage : Sound { t with stage := .none } :=
  { ht with
    holding := nofun
    checked := nofun
    expects := fun c hc he => ⟨(ht.expects c hc he).1, fun hn => absurd hn (h c hc he)⟩ }

/-- The call has what it expects, so `close` owes it nothing. -/
theorem clearOwed : Sound { t with owed := false } :=
  { ht with
    expects := fun c hc he => ⟨(ht.expects c hc he).1, fun hn => absurd hn (h c hc he)⟩ }

end

/-- A value is sent to the call. -/
theorem send (o : Outcome α) : Sound { t with call := t.call.map (·.sent o) } := by
  cases h : t.call with
  | none =>
    have : { t with call := none } = t := by rw [← h]
    simpa [this] using ht
  | some c =>
    refine ht.supersede_silent h ⟨?_, ?_, ?_, ?_, ?_⟩ (by simp)
    · intro hu
      simpa using hu
    · intro hf
      exact ht.ended c h (by simpa using hf)
    · intro hcl
      simpa using hcl
    · intro he
      simp only [Call.sent_phase] at he
      refine ⟨he, by simp, fun hn => ?_⟩
      rw [Call.sent_received c o (ht.expects c h he).1] at hn
      cases hn
    · intro _ _ he
      simpa using he

/-- What was sent has arrived. -/
theorem sent_arrived (o : Outcome α) :
    ∀ c, t.call.map (·.sent o) = some c → c.phase.expects = true → c.received ≠ none := by
  intro c hc he
  cases h : t.call with
  | none =>
    rw [h] at hc
    cases hc
  | some d =>
    rw [h] at hc
    cases hc
    rw [Call.sent_phase] at he
    rw [Call.sent_received d o (ht.expects d h he).1]
    exact Option.some_ne_none o

end

end Sound

theorem follows_of_moves {t : Track α} {c c' : Call α} (hm : Moves t.drained c c') :
    t.Follows c c' ∧ c'.phase.results = c.phase.results := by
  cases hm with
  | wait closed r hd =>
    refine ⟨⟨?_, ?_, id, ?_, ?_⟩, rfl⟩
    · nofun
    · nofun
    · intro _
      exact ⟨rfl, rfl, id⟩
    · intro hdd
      rw [hd] at hdd
      cases hdd
  | fail closed r e =>
    refine ⟨⟨?_, ?_, id, ?_, fun _ _ _ => rfl⟩, rfl⟩
    all_goals
      nofun
  | decide closed r o | drop closed r =>
    refine ⟨⟨?_, ?_, ?_, ?_, nofun⟩, rfl⟩
    all_goals
      nofun

theorem follows_of_removes {t : Track α} {c c' : Call α} (hp : t.pending = false)
    (hr : Removes c c') : t.Follows c c' ∧ c'.phase.results = c.phase.results := by
  cases hr with
  | failing closed r e | decided closed r o =>
    refine ⟨⟨?_, fun _ => hp, id, ?_, fun _ h => by rw [hp] at h; cases h⟩, rfl⟩
    all_goals
      nofun

/-- **Each step of a request keeps the invariant.** -/
theorem Step.sound {t u : Track α} (h : t.Step u) (ht : t.Sound) : u.Sound := by
  cases h with
  | stay => exact ht
  | allocate business handler h =>
    obtain ⟨hp, he, -⟩ := ht.unborn (fun c hc => by rw [h] at hc; cases hc)
    have hl : t.left = 0 := by
      have := ht.balance
      omega
    obtain ⟨hr, ha⟩ := ht.unanswered hl
    refine { ht with
      unborn := ?_
      ended := ?_
      outcomes := ?_
      holding := ?_
      expects := ?_
      drained := ?_ }
    · intro _
      refine ⟨hp, he, fun c hc => ?_⟩
      cases hc
      rfl
    · intro _ _ _
      exact hp
    · show t.outcomes = []
      rw [ht.outcomes, h]
      rfl
    · intro hs
      obtain ⟨-, w, hw, -⟩ := ht.holding hs
      rw [hr] at hw
      cases hw
    · intro c hc hx
      cases hc
      cases hx
    · intro _ hpe
      rw [hp] at hpe
      cases hpe
  | refuse c o h hc =>
    obtain ⟨hp, -, -, ho⟩ := ht.before h hc
    have hf : t.Follows c { c with phase := .finished (some o), closed := true } := by
      refine ⟨?_, fun _ => hp, ?_, ?_, fun _ hpe => by rw [hp] at hpe; cases hpe⟩
      all_goals
        nofun
    rw [ho]
    exact ht.supersede h hf
  | enter c h hc hopen =>
    obtain ⟨hp, he, -, ho⟩ := ht.before h hc
    have hl : t.left = 0 := by
      have := ht.balance
      omega
    obtain ⟨hr, ha⟩ := ht.unanswered hl
    refine { ht with
      unborn := ?_
      balance := ?_
      once := ?_
      ended := ?_
      outcomes := ho
      holding := ?_
      expects := ?_
      drained := ?_ }
    · intro hu
      cases hu _ rfl
    · simp [hl, he]
    · simp [he]
    · intro d hd hf
      cases hd
      cases hf
    · intro hs
      obtain ⟨-, w, hw, -⟩ := ht.holding hs
      rw [hr] at hw
      cases hw
    · intro d hd _
      cases hd
      exact ⟨hopen, fun _ => .inl rfl⟩
    · intro _ _
      exact ⟨_, rfl, rfl⟩
  | move c c' h hm =>
    obtain ⟨hf, hr⟩ := follows_of_moves hm
    exact ht.supersede_silent h hf hr
  | remove c c' h hr =>
    have hx : c.phase.expects = false := by cases hr <;> rfl
    obtain ⟨hf, hs⟩ := follows_of_removes
      (t := { t with pending := false, left := t.left + t.pending.toNat }) rfl hr
    exact (ht.dequeue h hx).supersede_silent h hf hs
  | release c o h hc =>
    have hx : c.phase.expects = false := by rw [hc]; rfl
    have ho : t.outcomes = [] := by
      rw [ht.outcomes, h]
      simp [hc, Phase.results]
    have hf : Follows { t with pending := false, left := t.left + t.pending.toNat } c
        { c with phase := .finished o, closed := true } := by
      refine ⟨?_, fun _ => rfl, ?_, ?_, nofun⟩
      all_goals
        nofun
    have hd := (ht.dequeue h hx).supersede h hf
    have hres : t.outcomes ++ o.toList = (Phase.finished o).results := by
      rw [ho]
      cases o <;> rfl
    rw [hres]
    exact hd
  | takeEntry c h hp hs =>
    have hl := ht.left_of_pending hp
    obtain ⟨hr, ha⟩ := ht.unanswered hl
    have hb := ht.balance
    rw [hp, hl] at hb
    refine { ht with
      unborn := ?_
      balance := ?_
      ended := fun _ _ _ => rfl
      receptions := ?_
      accepted := .inl ha
      holding := ?_
      checked := ?_
      expects := ?_
      drained := ?_ }
    · intro hu
      have hpu := (ht.unborn hu).1
      rw [hp] at hpu
      cases hpu
    · simpa [hl] using hb
    · simp [hr]
    · intro _
      refine ⟨ha, !c.closed, by simp [hr], fun d hd hcl => ?_⟩
      rw [show d = c by simpa [h] using hd.symm] at hcl
      simp [hcl]
    · nofun
    · intro d hd he
      exact ⟨(ht.expects d hd he).1, fun _ => .inr (.inl (by simp))⟩
    · nofun
  | checkWaiter c h hs =>
    obtain ⟨ha, w, hw, ho⟩ := ht.holding hs
    cases hcl : c.closed with
    | true =>
      refine ht.clearStage (fun d hd he => ?_)
      have := (ht.expects d hd he).1
      rw [h] at hd
      cases hd
      rw [hcl] at this
      cases this
    | false =>
      refine { ht with
        holding := ?_
        checked := ?_
        expects := ?_ }
      · nofun
      · intro _
        rw [hw, ho c h hcl]
        exact ⟨ha, rfl⟩
      · intro d hd he
        exact ⟨(ht.expects d hd he).1, fun _ => .inr (.inl (by simp))⟩
  | acceptResult judged hs =>
    obtain ⟨ha, hr⟩ := ht.checked hs
    refine { ht with
      accepted := ?_
      holding := ?_
      checked := ?_
      expects := ?_ }
    · cases judged with
      | true => exact .inr ⟨by simp [ha], hr⟩
      | false => exact .inl (by simp [ha])
    · nofun
    · nofun
    · intro d hd he
      exact ⟨(ht.expects d hd he).1, fun _ => .inr (.inl (by simp))⟩
  | sendResult o hs => exact (ht.send o).clearStage (ht.sent_arrived o)
  | drain ho =>
    refine { ht with
      unborn := ?_
      balance := ?_
      ended := fun _ _ _ => rfl
      receptions := ?_
      expects := ?_
      drained := ?_ }
    · intro hu
      exact ⟨rfl, (ht.unborn hu).2⟩
    · simpa using ht.balance
    · exact Nat.le_trans ht.receptions (Nat.le_add_right _ _)
    · intro d hd he
      obtain ⟨hcl, hheld⟩ := ht.expects d hd he
      refine ⟨hcl, fun hn => ?_⟩
      rcases hheld hn with hp | hst | how
      · exact .inr (.inr hp)
      · exact .inr (.inl hst)
      · rw [ho] at how
        cases how
    · nofun
  | tell o h => exact (ht.send o).clearOwed (ht.sent_arrived o)

/-- **A request leaves the pending map once**, if it entered and its call is over. -/
theorem Sound.left_once {t : Track α} (ht : t.Sound) :
    t.left ≤ 1 ∧ (∀ c, t.call = some c → c.phase.isFinished = true → t.left = t.entered) := by
  have hb := ht.balance
  have ho := ht.once
  refine ⟨by omega, fun c hc hf => ?_⟩
  rw [ht.ended c hc hf] at hb
  simpa using hb

end Track

end NapiVm.Rpc
