import NapiVm.AsyncGen.Server

/-!
# Async generators over whole runs

The server says in which order things happen; here is what they have to do with
promises.  A request's promise is open until the request is settled, an await has a
reaction on its promise whose job has not run, and what woke the body is the outcome
of the promise it waited for.

* `Vm.Linked` — the invariant that ties the generator to the event loop.
* `Vm.linked_perform` — every move keeps it.
* `Vm.requests_in_order` — one request at a time, in order, each with the outcome of
  its own resumption, and none left when everything is quiet.
-/

namespace NapiVm.AsyncGen

open Promises EventLoop List

/-! ## What the history says about promises -/

/-- The promise of a request waits for the host as the awaited one does. -/
theorem advances_passExternal {w : EventLoop} (hs : w.Sound) (request awaited : Nat) :
    Advances w (Vm.passExternal w request awaited) := by
  unfold Vm.passExternal
  split
  · rename_i inner source hp _
    exact .external hs hp source.externalPending
  · exact .refl hs

/-- The history agrees with the promises. -/
structure Recorded (w : EventLoop) (history : List Event) : Prop where
  awaited : ∀ n derived p, .awaited n derived p ∈ history → w.Derives derived p
  once : ∀ derived, history.countP (Event.awaits derived) ≤ 1
  woken : ∀ n derived p state value, .woken n derived p state value ∈ history →
    state ≠ .pending ∧ w.Decided p state value ∧ ∃ job ∈ w.dispatched, job.derives derived = true
  rejected : ∀ n p reason, .settled n p (.error reason) ∈ history → w.Decided p .rejected reason
  resolved : ∀ n p pair, .settled n p (.ok pair) ∈ history →
    ∃ i, w.promises p = some i ∧ i.resolutionLocked = true

namespace Recorded

variable {w w' : EventLoop} {history : List Event}

theorem decided_advance (ha : Advances w w') {p : Nat} {state : PromiseState} {value : Value}
    (hst : state ≠ .pending) (h : w.Decided p state value) : w'.Decided p state value := by
  obtain ⟨i, hi, hstate, hvalue⟩ := h
  obtain ⟨i', hi', hstate', hvalue'⟩ := ha.keeps p i hi (by rwa [hstate])
  exact ⟨i', hi', hstate'.trans hstate, hvalue'.trans hvalue⟩

theorem advance (h : Recorded w history) (ha : Advances w w') : Recorded w' history where
  awaited n derived p he := (h.awaited n derived p he).evolve ha.evolves
  once := h.once
  woken n derived p state value he := by
    obtain ⟨hst, hd, job, hjob, hderives⟩ := h.woken n derived p state value he
    exact ⟨hst, decided_advance ha hst hd, job, ha.taken hjob, hderives⟩
  rejected n p reason he := decided_advance ha (by decide) (h.rejected n p reason he)
  resolved n p pair he := by
    obtain ⟨i, hi, hlock⟩ := h.resolved n p pair he
    obtain ⟨i', hi', hfollows⟩ := ha.evolves.stays p i hi
    exact ⟨i', hi', hfollows.locked hlock⟩

/-- What an event says about promises. -/
def Says (w : EventLoop) (history : List Event) : Event → Prop
  | .awaited _ derived p => w.Derives derived p ∧ history.countP (Event.awaits derived) = 0
  | .woken _ derived p state value => state ≠ .pending ∧ w.Decided p state value ∧
      ∃ job ∈ w.dispatched, job.derives derived = true
  | .settled _ p (.error reason) => w.Decided p .rejected reason
  | .settled _ p (.ok _) => ∃ i, w.promises p = some i ∧ i.resolutionLocked = true
  | _ => True

theorem note (h : Recorded w history) {e : Event} (he : Says w history e) :
    Recorded w (history ++ [e]) where
  awaited n derived p hm := by
    rcases mem_append.1 hm with hm | hm
    · exact h.awaited n derived p hm
    · rw [mem_singleton] at hm
      subst hm
      exact he.1
  once derived := by
    have hbefore := h.once derived
    rw [countP_append, countP_singleton]
    split
    · rename_i hawaits
      cases e with
      | awaited n derived' p =>
        obtain ⟨-, hnone⟩ := he
        rw [beq_iff_eq.1 hawaits] at hnone
        omega
      | _ => cases hawaits
    · exact hbefore
  woken n derived p state value hm := by
    rcases mem_append.1 hm with hm | hm
    · exact h.woken n derived p state value hm
    · rw [mem_singleton] at hm
      subst hm
      exact he
  rejected n p reason hm := by
    rcases mem_append.1 hm with hm | hm
    · exact h.rejected n p reason hm
    · rw [mem_singleton] at hm
      subst hm
      exact he
  resolved n p pair hm := by
    rcases mem_append.1 hm with hm | hm
    · exact h.resolved n p pair hm
    · rw [mem_singleton] at hm
      subst hm
      exact he

end Recorded

namespace Vm

/-- **The invariant that ties the generator to the event loop.** -/
structure Linked (vm : Vm) : Prop where
  loop : vm.loop.Sound
  opened : ∀ r ∈ vm.gen.requests, vm.loop.Open r.promise
  distinct : (vm.gen.requests.map Request.promise).Nodup
  recorded : Recorded vm.loop vm.gen.history

/-- No await is under way. -/
def Quiet (vm : Vm) : Prop := ∀ derived p finish, vm.gen.mode ≠ .awaiting derived p finish

variable {vm : Vm}

variable {vm' : Vm} {w loop : EventLoop} {p derived : Nat} {request : Request} {rest : List Request}
  {a : Act}

section

variable (h : vm.Linked)

include h

/-- The loop moves on and leaves the requests' promises open. -/
theorem Linked.advance (ha : Advances vm.loop vm'.loop)
    (hopen : ∀ r ∈ vm.gen.requests, vm'.loop.Open r.promise)
    (hrequests : vm'.gen.requests.map Request.promise = vm.gen.requests.map Request.promise)
    (hhistory : vm'.gen.history = vm.gen.history) : vm'.Linked where
  loop := ha.sound
  opened r hr := by
    have hmem : r.promise ∈ vm.gen.requests.map Request.promise := by
      rw [← hrequests]
      exact mem_map_of_mem hr
    obtain ⟨r', hr', heq⟩ := mem_map.1 hmem
    rw [← heq]
    exact hopen r' hr'
  distinct := by
    rw [hrequests]
    exact h.distinct
  recorded := by
    rw [hhistory]
    exact h.recorded.advance ha

/-- The generator notes something that concerns no promise, or moves on by itself. -/
theorem Linked.note {e : Event} (he : Recorded.Says vm.loop vm.gen.history e)
    (hloop : vm'.loop = vm.loop) (hrequests : vm'.gen.requests = vm.gen.requests)
    (hhistory : vm'.gen.history = vm.gen.history ++ [e]) : vm'.Linked where
  loop := by
    rw [hloop]
    exact h.loop
  opened := by
    rw [hloop, hrequests]
    exact h.opened
  distinct := by
    rw [hrequests]
    exact h.distinct
  recorded := by
    rw [hloop, hhistory]
    exact h.recorded.note he

omit h in
theorem rejected_open (hp : w.Open p) (reason : Value) :
    (w.rejectPromise p reason).Decided p .rejected reason := by
  obtain ⟨i, w', hlock, hi, -, hpend⟩ := lock_open hp
  simp only [rejectPromise, hlock, EventLoop.settle, hi, hpend, if_true]
  exact ⟨_, PMap.insert_self, rfl, rfl⟩

omit h in
theorem resolved_open (hs : w.Sound) (hp : w.Open p) (value : Value) :
    ∃ i, (w.resolvePromise p value).promises p = some i ∧ i.resolutionLocked = true := by
  obtain ⟨i, w', hlock, hi, hlocked, -⟩ := lock_open hp
  simp only [resolvePromise, hlock]
  have hinner : Evolves w' (w'.resolvePromiseInner p value) :=
    (Evolves.frame none).resolvePromiseInner (fun _ => (hs.lock hlock).1) trivial value
  obtain ⟨i', hi', hfollows⟩ := hinner.stays p i hi
  exact ⟨i', hi', hfollows.locked hlocked⟩

/-- Settling one request leaves the promises of the others open. -/
theorem Linked.ne_front (hr : vm.gen.requests = request :: rest) {r : Request} (hmem : r ∈ rest) :
    r.promise ≠ request.promise := by
  have hd := h.distinct
  rw [hr, map_cons, nodup_cons] at hd
  intro heq
  exact hd.1 (heq ▸ mem_map_of_mem hmem)

/-- `settle`. -/
theorem Linked.settle (hr : vm.gen.requests = request :: rest) (result : Result) :
    (vm.settle request rest result).2.Linked ∧ (vm.settle request rest result).2.Quiet ∧
      (vm.settle request rest result).2.gen.requests = rest := by
  have hopen : vm.loop.Open request.promise := h.opened request (by rw [hr]; simp)
  have hdistinct : (rest.map Request.promise).Nodup := by
    have := h.distinct
    rw [hr, map_cons, nodup_cons] at this
    exact this.2
  cases result with
  | error reason =>
    have ha := Advances.reject h.loop request.promise reason
    refine ⟨⟨ha.sound, fun r (hmem : r ∈ rest) => ?_, hdistinct, ?_⟩, ?_, rfl⟩
    · have hro : vm.loop.Open r.promise := h.opened r (by rw [hr]; simp [hmem])
      exact (Open.frame none).rejectPromise (h.ne_front hr hmem) reason hro
    · exact (h.recorded.advance ha).note (rejected_open hopen reason)
    · intro _ _ _ h
      cases h
  | ok pair =>
    have ha₁ := Advances.bump h.loop
    have hopen₁ : Open { vm.loop with next := vm.loop.next + 1 } request.promise := hopen
    have ha₂ := Advances.resolve ha₁.sound hopen₁ (.ref .object vm.loop.next)
    obtain ⟨-, w', hlock, -⟩ := lock_open hopen₁
    have hsome : (({ vm.loop with next := vm.loop.next + 1 } : EventLoop).lock
        request.promise).isSome = true := by
      rw [hlock]
      rfl
    simp only [Vm.settle, Vm.note, iterResult, hsome, if_true]
    refine ⟨⟨ha₂.sound, fun r (hmem : r ∈ rest) => ?_, hdistinct, ?_⟩, ?_, rfl⟩
    · have hro : Open { vm.loop with next := vm.loop.next + 1 } r.promise :=
        h.opened r (by rw [hr]; simp [hmem])
      exact (Open.frame none).resolvePromise (fun _ => ha₁.sound) (h.ne_front hr hmem) _ hro
    · exact (h.recorded.advance (ha₁.trans ha₂)).note (resolved_open ha₁.sound hopen₁ _)
    · intro _ _ _ h
      cases h

/-- `drive`, for the request at the front. -/
theorem Linked.serve (hr : vm.gen.requests = request :: rest) :
    (vm.serve request rest).2.Linked ∧ (vm.serve request rest).2.Quiet ∧
      ((vm.serve request rest).1 = true → (vm.serve request rest).2.gen.requests = rest) := by
  cases hc : request.completion with
  | ret value =>
    simp only [Vm.serve, hc]
    split
    · exact ⟨h.note (e := .closing request.number value) trivial rfl rfl rfl,
        (by intro _ _ _ h; cases h), (by rintro ⟨⟩)⟩
    · exact ⟨h.note (e := .resumed request.number (.ret value)) trivial rfl rfl rfl,
        (by intro _ _ _ h; cases h), (by rintro ⟨⟩)⟩
  | next value =>
    simp only [Vm.serve, hc]
    split
    · have hl : Linked (Vm.note { vm with gen := { vm.gen with
          busy := true, done := vm.gen.done || false } }
          (.answered request.number (.next value) (.ok (.undefined, true)))) :=
        h.note (e := .answered request.number (.next value) (.ok (.undefined, true))) trivial rfl
          rfl rfl
      obtain ⟨hl', hq, hrest⟩ := hl.settle hr (.ok (.undefined, true))
      exact ⟨hl', hq, fun _ => hrest⟩
    · exact ⟨h.note (e := .resumed request.number (.next value)) trivial rfl rfl rfl,
        (by intro _ _ _ h; cases h), (by rintro ⟨⟩)⟩
  | throw value =>
    simp only [Vm.serve, hc]
    split
    · have hl : Linked (Vm.note { vm with gen := { vm.gen with busy := true, done := true } }
          (.answered request.number (.throw value) (.error value))) :=
        h.note (e := .answered request.number (.throw value) (.error value)) trivial rfl rfl rfl
      obtain ⟨hl', hq, hrest⟩ := hl.settle hr (.error value)
      exact ⟨hl', hq, fun _ => hrest⟩
    · exact ⟨h.note (e := .resumed request.number (.throw value)) trivial rfl rfl rfl,
        (by intro _ _ _ h; cases h), (by rintro ⟨⟩)⟩

omit h in
theorem Linked.driveFrom (requests : List Request) (vm : Vm) (h : vm.Linked) (hq : vm.Quiet)
    (hr : vm.gen.requests = requests) :
    (driveFrom requests vm).Linked ∧ (driveFrom requests vm).Quiet := by
  induction requests generalizing vm with
  | nil => exact ⟨h, hq⟩
  | cons request rest ih =>
    obtain ⟨hl, hquiet, hrest⟩ := h.serve hr
    simp only [Vm.driveFrom]
    split
    · rename_i vm' heq
      rw [heq] at hl hquiet hrest
      exact ih vm' hl hquiet (hrest rfl)
    · rename_i vm' heq
      rw [heq] at hl hquiet
      exact ⟨hl, hquiet⟩

/-- `drive`. -/
theorem Linked.drive (hq : vm.Quiet) : vm.drive.Linked ∧ vm.drive.Quiet := by
  unfold Vm.drive
  split
  · exact ⟨h, hq⟩
  · exact Linked.driveFrom _ vm h hq rfl

theorem Linked.settleFront (hr : vm.gen.requests = request :: rest) (result : Result) :
    (vm.settleFront result).Linked ∧ (vm.settleFront result).Quiet := by
  obtain ⟨hl, hquiet, -⟩ := h.settle hr result
  simp only [Vm.settleFront, hr]
  split
  · rename_i vm' heq
    rw [heq] at hl hquiet
    exact hl.drive hquiet
  · rename_i vm' heq
    rw [heq] at hl hquiet
    exact ⟨hl, hquiet⟩

end

/-! ## The moves -/

/-- While an await is under way its reaction has not run. -/
def Waits (vm : Vm) : Prop :=
  ∀ derived p finish, vm.gen.mode = .awaiting derived p finish →
    vm.loop.Derives derived p ∧ ∀ job ∈ vm.loop.dispatched, job.derives derived = false

theorem Quiet.waits (h : vm.Quiet) : vm.Waits := fun derived p finish hm =>
  absurd hm (h derived p finish)

theorem Waits.advance (h : vm.Waits) (ha : Advances vm.loop vm'.loop)
    (hmode : vm'.gen.mode = vm.gen.mode)
    (hjobs : ∀ derived p finish, vm.gen.mode = .awaiting derived p finish →
      ∀ job ∈ vm'.loop.dispatched, job ∈ vm.loop.dispatched ∨ job.derives derived = false) :
    vm'.Waits := by
  intro derived p finish hm
  rw [hmode] at hm
  obtain ⟨hd, hahead⟩ := h derived p finish hm
  refine ⟨hd.evolve ha.evolves, fun job hjob => ?_⟩
  rcases hjobs derived p finish hm job hjob with hold | hother
  · exact hahead job hold
  · exact hother

/-- A request with a new promise joins the queue. -/
theorem Linked.push (h : vm.Linked) (completion : GenResume) : (vm.push completion).Linked := by
  have ha := Advances.create h.loop false false
  refine ⟨ha.sound, fun r hr => ?_, ?_, h.recorded.advance ha⟩
  · rcases mem_append.1 hr with hr | hr
    · exact (h.opened r hr).create h.loop _
    · rw [mem_singleton] at hr
      subst hr
      exact ⟨_, PMap.insert_self, rfl, rfl, rfl⟩
  · show ((vm.gen.requests ++ [_]).map Request.promise).Nodup
    rw [map_append, nodup_append]
    refine ⟨h.distinct, by simp, ?_⟩
    intro q hq q' hq' heq
    obtain ⟨r, hr, rfl⟩ := mem_map.1 hq
    simp only [map_cons, map_nil, mem_singleton] at hq'
    obtain ⟨i, hi, -⟩ := h.opened r hr
    rw [heq, hq', h.loop.freshPromise _ (Nat.le_refl _)] at hi
    cases hi

theorem open_passExternal {q : Nat} (hq : w.Open q) (request awaited : Nat) :
    (passExternal w request awaited).Open q := by
  unfold passExternal
  split
  · rename_i inner source hp _
    exact hq.external hp source.externalPending
  · exact hq

/-- `await_value`. -/
theorem Linked.awaitValue (h : vm.Linked) (request : Request)
    (hp : (vm.loop.promises p).isSome = true) (finish : Option Bool) :
    (vm.awaitValue request p finish).Linked ∧ (vm.awaitValue request p finish).Waits := by
  have ha₁ := advances_passExternal h.loop request.promise p
  have ha₂ := Advances.bump ha₁.sound
  have ha₃ := Advances.bump ha₂.sound
  obtain ⟨i, hi⟩ := Option.isSome_iff_exists.1 hp
  obtain ⟨i', hi', -⟩ := ha₁.evolves.stays p i hi
  let loop : EventLoop :=
    { passExternal vm.loop request.promise p with
      next := (passExternal vm.loop request.promise p).next + 2 }
  have hs : loop.Sound := ha₃.sound
  have hp' : loop.promises p = some i' := hi'
  have ha₄ := Advances.register hs (p := p) (by rw [hp']; rfl)
    (.ref .object (passExternal vm.loop request.promise p).next)
    (.ref .object ((passExternal vm.loop request.promise p).next + 1))
  have ha := ((ha₁.trans ha₂).trans ha₃).trans ha₄
  have hderives := Derives.register hs hp'
    (.ref .object (passExternal vm.loop request.promise p).next)
    (.ref .object ((passExternal vm.loop request.promise p).next + 1)) none
  have hfresh : ∀ e, vm.loop.promises loop.next ≠ some e := by
    intro e he
    obtain ⟨e', he', -⟩ := ha₁.evolves.stays _ e he
    rw [hs.freshPromise _ (Nat.le_refl _)] at he'
    cases he'
  have hnone : vm.gen.history.countP (Event.awaits loop.next) = 0 := by
    rw [countP_eq_zero]
    intro event hevent hawaits
    cases event with
    | awaited n derived q =>
      obtain ⟨e, he, -⟩ := (h.recorded.awaited n derived q hevent).known
      rw [beq_iff_eq.1 hawaits] at he
      exact hfresh e he
    | _ => cases hawaits
  refine ⟨⟨ha.sound, fun r hr => ?_, h.distinct, (h.recorded.advance ha).note ⟨hderives, hnone⟩⟩,
    ?_⟩
  · have hr' := open_passExternal (h.opened r hr) request.promise p
    have hr'' : loop.Open r.promise := hr'
    exact hr''.register hs p _ _ none
  · intro derived q finish' hm
    cases hm
    refine ⟨hderives, fun job hjob => ?_⟩
    by_contra hne
    have hjob' : job ∈ vm.loop.dispatched := by
      have : (passExternal vm.loop request.promise p).dispatched = vm.loop.dispatched := by
        unfold passExternal
        split <;> rfl
      simpa [Vm.awaitValue, Vm.note, EventLoop.register, this] using hjob
    obtain ⟨e, he⟩ := derived_of_job h.loop (mem_append_left _ hjob') (by simpa using hne)
    exact hfresh e he

/-- The body gives way. -/
theorem Linked.bodyEnds (h : vm.Linked) (hr : vm.gen.requests = request :: rest)
    (outcome : BodyOutcome) (hp : ∀ p, outcome = .awaits p → (vm.loop.promises p).isSome = true) :
    (vm.bodyEnds request outcome).Linked ∧ (vm.bodyEnds request outcome).Waits := by
  have hl : (vm.note (.ended request.number outcome)).Linked :=
    h.note (e := .ended request.number outcome) trivial rfl rfl rfl
  cases outcome with
  | awaits p => exact hl.awaitValue request (hp p rfl) none
  | yielded value =>
    obtain ⟨hl', hq⟩ := hl.settleFront hr (.ok (value, false))
    exact ⟨hl', hq.waits⟩
  | returned value =>
    have hl' : Linked { vm.note (.ended request.number (.returned value)) with
        gen := { (vm.note (.ended request.number (.returned value))).gen with done := true } } :=
      ⟨hl.loop, hl.opened, hl.distinct, hl.recorded⟩
    obtain ⟨hl'', hq⟩ := hl'.settleFront hr (.ok (value, true))
    exact ⟨hl'', hq.waits⟩
  | threw reason =>
    have hl' : Linked { vm.note (.ended request.number (.threw reason)) with
        gen := { (vm.note (.ended request.number (.threw reason))).gen with done := true } } :=
      ⟨hl.loop, hl.opened, hl.distinct, hl.recorded⟩
    obtain ⟨hl'', hq⟩ := hl'.settleFront hr (.error reason)
    exact ⟨hl'', hq.waits⟩

/-- The reaction of an await runs. -/
theorem Linked.resume (h : vm.Linked) (hr : vm.gen.requests = request :: rest)
    (finish : Option Bool) (state : PromiseState) (value : Value) :
    (vm.resume request rest finish state value).Linked ∧
      (vm.resume request rest finish state value).Quiet := by
  cases finish with
  | some done => exact h.settleFront hr _
  | none =>
    refine Linked.drive ?_ nofun
    refine h.advance (.refl h.loop) h.opened ?_ rfl
    rw [hr]
    rfl

/-- **Everything that holds of a generator in a run.** -/
structure Good (vm : Vm) : Prop where
  served : vm.Served
  linked : vm.Linked
  waits : vm.Waits

/-- The promise an await waits for is settled as its reaction job says. -/
theorem Waits.outcome (h : vm.Waits) (hs : vm.loop.Sound) {finish : Option Bool}
    (hm : vm.gen.mode = .awaiting derived p finish) {state : PromiseState} {value : Value}
    (hnext : vm.nextReaction = some (state, value, derived)) :
    state ≠ .pending ∧ vm.loop.Decided p state value ∧
      ∃ job rest, vm.loop.microtasks = job :: rest ∧ job.derives derived = true := by
  unfold nextReaction at hnext
  split at hnext
  · rename_i source st v r rest hq
    cases hnext
    have hj : Job.reaction source state value r ∈ vm.loop.dispatched ++ vm.loop.microtasks := by
      rw [hq]
      simp
    obtain ⟨inner, hi, hst, hv, hne, -⟩ := hs.settled_of_job hj
    obtain ⟨hd, -⟩ := h r.derived p finish hm
    rw [hd.source hs rfl hj] at hi
    exact ⟨hne, ⟨inner, hi, hst, hv⟩, _, rest, hq, by simp [Job.derives]⟩
  · cases hnext

/-- What an act of the event loop takes is not the reaction of the await. -/
theorem Waits.other (h : vm.Waits) (hs : vm.loop.Sound) (ha : vm.loop.perform a = some loop)
    (hnext : ∀ derived p finish, vm.gen.mode = .awaiting derived p finish → a = .dispatch →
      ∀ state value d, vm.nextReaction = some (state, value, d) → d ≠ derived) :
    Waits { vm with loop := loop } := by
  refine h.advance (.perform hs ha) rfl ?_
  intro derived p finish hm job hjob
  rcases dispatched_perform ha with ⟨-, heq⟩ | ⟨job', rest, hdispatch, hq, heq⟩
  · rw [heq] at hjob
    exact .inl hjob
  · rw [heq, mem_append, mem_singleton] at hjob
    rcases hjob with hold | rfl
    · exact .inl hold
    · refine .inr ?_
      cases job with
      | reaction source state value r =>
        have := hnext derived p finish hm hdispatch state value r.derived (by
          simp [nextReaction, hq])
        simpa [Job.derives] using this
      | resolveThenable target thenable method g => rfl
      | _ => rfl

/-- An act of the event loop leaves the promises of the requests alone. -/
theorem Linked.act (h : vm.Linked) (hf : vm.foreign a = true) (ha : vm.loop.perform a = some loop) :
    Linked { vm with loop := loop } := by
  refine h.advance (.perform h.loop ha) (fun r hr => ?_) rfl rfl
  refine open_perform h.loop (h.opened r hr) ?_ ha
  intro ht
  simp only [foreign, ht, all_eq_true, bne_iff_ne] at hf
  exact hf r hr rfl

/-- What follows an act of the event loop. -/
theorem Good.after (h : vm.Good) (hf : vm.foreign a = true) (ha : vm.loop.perform a = some loop) :
    (vm.after a loop).Linked ∧ (vm.after a loop).Waits := by
  have hl := h.linked.act hf ha
  unfold Vm.after
  split
  · rename_i token token' outcome hmode
    have hw : Waits { vm with loop := loop } := by
      refine h.waits.other h.linked.loop ha ?_
      intro derived p finish hm
      rw [hmode] at hm
      cases hm
    split
    · have hl' : Linked { vm with
          loop := loop, gen := { vm.gen with busy := false, mode := .idle } } :=
        ⟨hl.loop, hl.opened, hl.distinct, hl.recorded⟩
      obtain ⟨hl'', hq⟩ := hl'.drive nofun
      exact ⟨hl'', hq.waits⟩
    · exact ⟨hl, hw⟩
  · rename_i derived p finish hmode
    split
    · rename_i state value d request rest hnext hr
      split
      · -- the reaction of the await is the next job
        rename_i hd
        subst hd
        obtain ⟨hne, hdecided, job, jobs, hq, hderives⟩ :=
          h.waits.outcome h.linked.loop hmode hnext
        have hadvances := Advances.perform h.linked.loop ha
        have htaken : job ∈ loop.dispatched := by
          rcases dispatched_perform ha with ⟨hno, -⟩ | ⟨job', rest', -, hq', heq⟩
          · exact absurd rfl hno
          · rw [hq] at hq'
            cases hq'
            rw [heq]
            simp
        have hsays : Recorded.Says loop vm.gen.history (.woken request.number d p state value) :=
          ⟨hne, Recorded.decided_advance hadvances hne hdecided, job, htaken, hderives⟩
        have hl' : Linked (Vm.note { vm with loop := loop }
            (.woken request.number d p state value)) := hl.note hsays rfl rfl rfl
        obtain ⟨hl'', hquiet⟩ := hl'.resume hr finish state value
        exact ⟨hl'', hquiet.waits⟩
      · rename_i hd
        refine ⟨hl, h.waits.other h.linked.loop ha ?_⟩
        intro derived' p' finish' hm _ state' value' d' hnext'
        rw [hmode] at hm
        cases hm
        rw [hnext] at hnext'
        cases hnext'
        exact hd
    · rename_i hno
      refine ⟨hl, h.waits.other h.linked.loop ha ?_⟩
      intro derived' p' finish' hm _ state' value' d' hnext' _
      -- a generator that awaits has a request
      obtain ⟨s, -, hstable⟩ := h.served
      have hrequests : vm.gen.requests ≠ [] := by
        unfold Stable at hstable
        rw [hmode] at hstable
        cases finish with
        | none => exact hstable.2.2.1
        | some done => exact hstable.2.2.1
      obtain ⟨request, rest, hr⟩ := exists_cons_of_ne_nil hrequests
      exact hno state' value' d' request rest hnext' hr
  · rename_i hsettling hawaiting
    refine ⟨hl, h.waits.other h.linked.loop ha ?_⟩
    intro derived p finish hm hdispatch _ _ _ _
    exact absurd hdispatch (hawaiting derived p finish hm)

/-- **Every move keeps what holds of a generator.** -/
theorem Good.perform (h : vm.Good) {m : Move} (hm : vm.perform m = some vm') : vm'.Good := by
  have hserved := served_perform h.served hm
  suffices hboth : vm'.Linked ∧ vm'.Waits from ⟨hserved, hboth.1, hboth.2⟩
  cases m with
  | call completion =>
    cases hm
    have hl := h.linked.push completion
    have hw : (vm.push completion).Waits :=
      h.waits.advance (.create h.linked.loop false false) rfl fun _ _ _ _ job hjob => .inl hjob
    cases hb : vm.gen.busy with
    | true =>
      have hsame : vm.enqueue completion = vm.push completion := by
        simp [Vm.enqueue, Vm.drive, Vm.push, hb]
      rw [hsame]
      exact ⟨hl, hw⟩
    | false =>
      obtain ⟨s, -, hstable⟩ := h.served
      have hidle := (hstable.idle hb).1
      have hquiet : (vm.push completion).Quiet := by
        intro derived p finish hm
        rw [show (vm.push completion).gen.mode = vm.gen.mode from rfl, hidle] at hm
        cases hm
      obtain ⟨hl', hq⟩ := hl.drive hquiet
      exact ⟨hl', hq.waits⟩
  | other a =>
    simp only [Vm.perform] at hm
    split at hm
    · rename_i hf
      obtain ⟨loop, ha, rfl⟩ := Option.map_eq_some_iff.1 hm
      exact h.after hf ha
    · cases hm
  | body outcome =>
    simp only [Vm.perform] at hm
    split at hm
    · rename_i request rest hmode hr
      split at hm
      · rename_i p
        split at hm
        · rename_i hp
          cases hm
          exact h.linked.bodyEnds hr (.awaits p) fun q hq => by cases hq; exact hp
        · cases hm
      · rename_i hno
        cases hm
        exact h.linked.bodyEnds hr outcome fun q hq => absurd hq (hno q)
    · cases hm
  | wrapped outcome =>
    simp only [Vm.perform] at hm
    split at hm
    · rename_i value request rest hmode hr
      cases outcome with
      | ok p =>
        simp only at hm
        split at hm
        · rename_i hp
          cases hm
          exact h.linked.awaitValue request hp (some true)
        · cases hm
      | error reason =>
        cases hm
        have hl : (vm.note (.unwrapped request.number reason)).Linked :=
          h.linked.note (e := .unwrapped request.number reason) trivial rfl rfl rfl
        obtain ⟨hl', hq⟩ := hl.settleFront hr (.error reason)
        exact ⟨hl', hq.waits⟩
    · cases hm

theorem good_initial (h : loop.Runs) : (initial loop).Good where
  served := served_initial loop
  linked :=
    { loop := sound_of_runs h
      opened := nofun
      distinct := nodup_nil
      recorded :=
        { awaited := nofun
          once := fun _ => Nat.zero_le _
          woken := nofun
          rejected := nofun
          resolved := fun _ _ _ he => by cases he } }
  waits := nofun

theorem good_of_runs (h : vm.Runs) : vm.Good := by
  apply Reachable.invariant _ _ h
  · rintro vm ⟨loop, hloop, rfl⟩
    exact good_initial hloop
  · rintro vm vm' hgood ⟨m, hm⟩
    exact hgood.perform hm

/-! ## Whole runs -/

/-- The server waits where the generator does. -/
theorem Stable.awaiting {s : Server} (h : vm.Stable s) (hw : s.phase.waitsOn derived = true) :
    ∃ p finish, vm.gen.mode = .awaiting derived p finish := by
  unfold Stable at h
  split at h
  case h_5 d p hm =>
    rw [h.2.1] at hw
    exact ⟨p, none, by rw [hm, beq_iff_eq.1 hw]⟩
  case h_6 d p done hm =>
    rw [h.2.1] at hw
    exact ⟨p, some done, by rw [hm, beq_iff_eq.1 hw]⟩
  case h_3 =>
    rw [h.2] at hw
    cases hw
  all_goals
    rw [h.2.1] at hw
    cases hw

/-- A promise is derived from one promise only. -/
theorem derives_unique {d q : Nat} (hp : w.Derives d p) (hq : w.Derives d q) : p = q := by
  by_contra hne
  obtain ⟨r, hr⟩ := hp.one
  rw [hq.only p hne] at hr
  cases hr

/-- The job of an await is taken or not, and there is one at most. -/
theorem Good.await_once (h : vm.Good) {s : Server}
    (ht : Server.initial.run vm.gen.history = some s) (hs : vm.Stable s) {n : Nat}
    (he : .awaited n derived p ∈ vm.gen.history) :
    (vm.gen.history.countP (Event.wakes derived) = 1 ∧
      ∀ job ∈ vm.loop.microtasks, job.derives derived = false) ∨
    (vm.gen.history.countP (Event.wakes derived) = 0 ∧
      ∃ finish, vm.gen.mode = .awaiting derived p finish) := by
  have hd := h.linked.recorded.awaited n derived p he
  have hone := h.linked.recorded.once derived
  have hpos : 0 < vm.gen.history.countP (Event.awaits derived) :=
    countP_pos_iff.2 ⟨_, he, by simp [Event.awaits]⟩
  have hcount := Server.run_waits ht derived
  rw [show (Server.initial.phase.waitsOn derived).toNat = 0 from rfl] at hcount
  cases hw : s.phase.waitsOn derived with
  | true =>
    rw [hw, Bool.toNat_true] at hcount
    obtain ⟨q, finish, hm⟩ := hs.awaiting hw
    refine .inr ⟨by omega, finish, ?_⟩
    rw [derives_unique hd (h.waits derived q finish hm).1]
    exact hm
  | false =>
    rw [hw, Bool.toNat_false] at hcount
    have hwoken : vm.gen.history.countP (Event.wakes derived) = 1 := by omega
    refine .inl ⟨hwoken, fun job hjob => ?_⟩
    -- the job that ran is the only one
    obtain ⟨event, hevent, hwakes⟩ := countP_pos_iff.1
      (show 0 < vm.gen.history.countP (Event.wakes derived) by omega)
    cases event with
    | woken m derived' q state value =>
      have hsame : derived' = derived := beq_iff_eq.1 hwakes
      subst hsame
      obtain ⟨-, -, taken, htaken, hderives⟩ :=
        h.linked.recorded.woken m derived' q state value hevent
      obtain ⟨inner, hi⟩ : ∃ inner, vm.loop.promises p = some inner := by
        obtain ⟨r, hr⟩ := hd.one
        cases hi : vm.loop.promises p with
        | none => simp [derivations, hi] at hr
        | some inner => exact ⟨inner, rfl⟩
      have hjobs := hd.job_once h.linked.loop hi
      by_contra hne
      have hlen : 2 ≤ (vm.loop.jobsFor derived').length := by
        have h₁ : 0 < (vm.loop.dispatched.filter (Job.derives derived')).length :=
          length_pos_of_mem (mem_filter.2 ⟨htaken, hderives⟩)
        have h₂ : 0 < (vm.loop.microtasks.filter (Job.derives derived')).length :=
          length_pos_of_mem (mem_filter.2 ⟨hjob, by simpa using hne⟩)
        unfold jobsFor
        rw [filter_append, length_append]
        omega
      split at hjobs <;> omega
    | _ => cases hwakes

/-- A generator at rest: no guest code runs for it, no job is queued, and what it awaits,
if anything, is settled. -/
def AtRest (vm : Vm) : Prop :=
  vm.loop.microtasks = [] ∧
    match vm.gen.mode with
    | .idle => True
    | .awaiting _ p _ => ∀ inner, vm.loop.promises p = some inner → inner.state ≠ .pending
    | .running | .settling _ | .wrapping _ => False

/-- A generator at rest has no requests. -/
theorem Good.requests_nil (h : vm.Good) (hrest : vm.AtRest) : vm.gen.requests = [] := by
  obtain ⟨hq, hmode⟩ := hrest
  obtain ⟨s, -, hs⟩ := h.served
  cases hm : vm.gen.mode with
  | idle =>
    unfold Stable at hs
    rw [hm] at hs
    exact hs.2.2
  | awaiting derived p finish =>
    rw [hm] at hmode
    obtain ⟨hd, hahead⟩ := h.waits derived p finish hm
    exfalso
    obtain ⟨r, hr⟩ := hd.one
    cases hi : vm.loop.promises p with
    | none => simp [derivations, hi] at hr
    | some inner =>
      have hjobs := hd.job_once h.linked.loop hi
      rw [if_neg (hmode inner hi)] at hjobs
      unfold jobsFor at hjobs
      rw [hq, append_nil, filter_eq_nil_iff.2] at hjobs
      · cases hjobs
      · intro job hjob
        rw [hahead job hjob]
        exact Bool.false_ne_true
  | running | settling | wrapping =>
    rw [hm] at hmode
    exact hmode.elim

/-- The state after some moves. -/
def performAll (vm : Vm) : List Move → Option Vm
  | [] => some vm
  | m :: rest => (vm.perform m).bind (performAll · rest)

theorem runs_performAll (hvm : vm.Runs) {moves : List Move} (h : vm.performAll moves = some vm') :
    vm'.Runs :=
  hvm.steps (steps_of_all h (fun _ => rfl) (fun _ _ _ => rfl) fun m _ _ _ h => ⟨m, h⟩)

/-- Two calls; the body awaits, yields and returns, and a `throw` comes after its end. -/
def twoCalls : List Move :=
  [.other (.create false false), .call (.next none), .call (.next none), .body (.awaits 0),
    .other (.resolve 0 (.bool true)), .other .dispatch, .body (.yielded (.bool true)),
    .other (.readThen 7 (.found .undefined false)), .body (.returned .null),
    .other (.readThen 9 (.found .undefined false)), .call (.throw .null)]

end Vm

end NapiVm.AsyncGen
