import NapiVm.Module.Progress

/-!
# When nothing is left to do

Every regular move keeps the calls going, and when no call is under way, no job is queued
and no body waits, everything that was asked for is evaluated: of the guards that still
wait, the first would wait for nothing.

* `Vm.Regular` — moves that meet no namespace with a `then`, no loop of another call, no
  failure and no limit.
* `Vm.going_perform` — the invariant along such moves.
* `Vm.evaluation_completes` — quiescence means that everything reachable is evaluated.
* `Vm.evaluation_stuck` — a module that exports a `then` is waited for in vain.
-/

namespace NapiVm.Modules

open Promises EventLoop List

namespace Vm

variable {vm vm' : Vm} {l : List Activation}

/-! ## What one permit excludes -/

variable {a : Activation} {id : Nat} {frames : List AsyncFrame} {rest : List Job}

theorem permits_of_walks (h : a.walks id) : 0 < a.permits id := by
  cases a with
  | sync frames control => exact h.elim
  | async frames outer control caller =>
    obtain ⟨frame, hframe, hid⟩ := h
    exact countP_pos_iff.2 ⟨frame, hframe, by simp [hid]⟩

theorem not_walks_of_permits (h : (l.map (Activation.permits id)).sum = 0) :
    ¬ (callsOf l).walks id := by
  rintro ⟨a, ha, hwalks⟩
  have hpos := permits_of_walks hwalks
  have hzero := List.sum_eq_zero_iff_forall_eq_nat.1 h _ (mem_map_of_mem ha)
  omega

/-- The permits, with those of one call apart. -/
theorem Once.apart (h : vm.Once) (hr : ∃ record, vm.records id = some record)
    (hp : vm.activations.Perm (a :: l)) :
    vm.claims id + (a.permits id + (l.map (Activation.permits id)).sum) ≤ 1 := by
  obtain ⟨record, hr⟩ := hr
  have hone := (h id record hr).1
  rw [permits, (hp.map (Activation.permits id)).sum_eq, map_cons, sum_cons] at hone
  exact hone

theorem found_of_owns {p : Nat} (h : vm.Owns id p) : ∃ record, vm.records id = some record := by
  obtain ⟨record, hr, -⟩ := Option.map_eq_some_iff.1 h
  exact ⟨record, hr⟩

/-- A module is in one loop at most. -/
theorem Once.loop_alone (h : vm.Once) {frame : AsyncFrame} {outer : Option Deferred}
    {control : AsyncControl} {caller : Caller} (hr : ∃ record, vm.records frame.id = some record)
    (hp : vm.activations.Perm (.async (frame :: frames) outer control caller :: l)) :
    ¬ (callsOf (.async frames outer .loop caller :: l)).walks frame.id := by
  have hone := h.apart hr hp
  have hhead : Activation.permits frame.id (.async (frame :: frames) outer control caller) =
      Activation.permits frame.id (.async frames outer .loop caller) + 1 := by
    simp [Activation.permits]
  refine not_walks_of_permits ?_
  rw [map_cons, sum_cons]
  omega

/-- A body that was started is not about to start again. -/
theorem Once.quiet (h : vm.Once) (hs : 0 < vm.started id) :
    ¬ (callsOf vm.activations).walks id ∧
      (∀ (g : Nat) (guard : Guard), vm.guards[g]? = some guard →
        guard.action = .evaluate id → ¬ 0 < guard.remaining) ∧
      (∀ q, (id, q) ∉ vm.loop.evaluationJobs) ∧
      (vm.activations.map (Activation.permits id)).sum = 0 := by
  have hfound : ∃ record, vm.records id = some record := by
    unfold started at hs
    cases hr : vm.records id with
    | none => simp [hr] at hs
    | some record => exact ⟨record, rfl⟩
  obtain ⟨record, hr⟩ := hfound
  have hone := (h id record hr).1
  unfold permits claims at hone
  have hnone : (vm.activations.map (Activation.permits id)).sum = 0 := by omega
  refine ⟨not_walks_of_permits hnone, fun g guard hg ha hpos => ?_, fun q hq => ?_, hnone⟩
  · have : 0 < vm.guards.countP (Guard.waits id) :=
      countP_pos_iff.2 ⟨guard, mem_of_getElem? hg, by simp [Guard.waits, ha, hpos]⟩
    omega
  · have : 0 < vm.loop.evaluations id := countP_pos_iff.2 ⟨(id, q), hq, by simp⟩
    omega

/-- A synchronous call runs the body of a module in no other call. -/
theorem Once.body_alone (h : vm.Once) (hg : vm.Going vm.activations) {frame : SyncFrame}
    {frames : List SyncFrame} {control : SyncControl} (hc : control ≠ .body)
    (hp : vm.activations.Perm (.sync (frame :: frames) control :: l)) :
    .inl frame.id ∉ l.filterMap Activation.running := by
  intro hmem
  obtain ⟨b, hb, hrunning⟩ := mem_filterMap.1 hmem
  have hstarted : 0 < vm.started frame.id := by
    have horderly := hg.orderly b (hp.mem_iff.2 (mem_cons_of_mem _ hb))
    unfold Activation.running at hrunning
    split at hrunning
    · rename_i other rest
      obtain ⟨first, rest', hframes, -, hstarted⟩ := horderly.2 rfl
      cases hframes
      rw [← Sum.inl.inj (Option.some.inj hrunning)]
      exact hstarted
    · cases hrunning
    · cases hrunning
  have hnone := (h.quiet hstarted).2.2.2
  rw [(hp.map (Activation.permits frame.id)).sum_eq, map_cons, sum_cons,
    permits_sync hc, syncPermits_cons] at hnone
  unfold single at hnone
  rw [if_pos rfl] at hnone
  omega

/-- The module whose body ends is in no other synchronous call. -/
theorem Once.end_alone (h : vm.Once) (hg : vm.Going vm.activations) {frame : SyncFrame}
    {frames : List SyncFrame} (hp : vm.activations.Perm (.sync (frame :: frames) .body :: l)) :
    ¬ (callsOf (.sync frames (.returns (.ok ())) :: l)).syncs frame.id := by
  have hgoing := hg.perm hp
  obtain ⟨other, rest, hframes, -, hstarted⟩ := (hgoing.orderly _ mem_cons_self).2 rfl
  cases hframes
  have hnone := (h.quiet hstarted).2.2.2
  rw [(hp.map (Activation.permits frame.id)).sum_eq, map_cons, sum_cons] at hnone
  rintro ⟨b, hb, hsyncs⟩
  rcases mem_cons.1 hb with rfl | hb
  · obtain ⟨other, hother, hid⟩ := hsyncs
    have : 0 < frames.countP (·.id == frame.id) :=
      countP_pos_iff.2 ⟨other, hother, by simp [hid]⟩
    simp only [Activation.permits, tail_cons] at hnone
    omega
  · cases b with
    | async frames' outer control caller => exact hsyncs
    | sync frames' control =>
      obtain ⟨other, hother, hid⟩ := hsyncs
      have hzero : Activation.permits frame.id (.sync frames' control) = 0 :=
        List.sum_eq_zero_iff_forall_eq_nat.1 (show (l.map (Activation.permits frame.id)).sum = 0
          by omega) _ (mem_map_of_mem hb)
      by_cases hc : control = .body
      · subst hc
        cases frames' with
        | nil => cases hother
        | cons first rest' =>
          rcases mem_cons.1 hother with rfl | hother
          · have hdistinct := (nodup_cons.1 hgoing.distinct).1
            refine hdistinct (mem_filterMap.2 ⟨_, hb, ?_⟩)
            simp [Activation.running, hid]
          · have : 0 < rest'.countP (·.id == frame.id) :=
              countP_pos_iff.2 ⟨other, hother, by simp [hid]⟩
            simp only [Activation.permits, tail_cons] at hzero
            omega
      · rw [permits_sync hc] at hzero
        have : 0 < syncPermits frames' frame.id :=
          countP_pos_iff.2 ⟨other, hother, by simp [hid]⟩
        omega

/-! ## Bodies -/

/-- The body of a call ends or waits, and the call returns its module's promise. -/
theorem Going.endAsync {outer : Option Deferred} {target c : Nat} {caller : Caller}
    (h : vm.Going (.async frames outer (.body id target c) caller :: l)) (honce : vm.Once)
    (hp : vm.activations.Perm (.async frames outer (.body id target c) caller :: l))
    {outcome : BodyOutcome} (houtcome : ∀ value, outcome ≠ .threw value) (method : Value) :
    (vm.endAsyncBody id target c outcome (.found method false)).Going
      ([.async frames outer (.returns (.ok target)) caller] ++ l) := by
  let before : Activation := .async frames outer (.body id target c) caller
  let call : Activation := .async frames outer (.returns (.ok target)) caller
  have hbody := h.lively.body id target c ⟨before, mem_cons_self, rfl, rfl, rfl⟩
  obtain ⟨hleft, hwaits, hjobs, -⟩ := honce.quiet hbody.started
  rw [callsOf_perm hp] at hleft
  have hwalks : (callsOf (call :: l)).walks = (callsOf (before :: l)).walks := by
    simp only [callsOf_cons]
    rfl
  have hsyncs : (callsOf (call :: l)).syncs = (callsOf (before :: l)).syncs := by
    simp only [callsOf_cons]
    rfl
  have hbodies : ∀ id' p' c', (callsOf (call :: l)).bodies id' p' c' →
      (callsOf (before :: l)).bodies id' p' c' ∧ c' ≠ c := by
    rintro id' p' c' ⟨b, hb, hruns⟩
    rcases mem_cons.1 hb with rfl | hb
    · exact hruns.elim
    · refine ⟨⟨b, mem_cons_of_mem _ hb, hruns⟩, ?_⟩
      rintro rfl
      exact (nodup_cons.1 h.distinct).1
        (mem_filterMap.2 ⟨b, hb, Activation.running_of_runs hruns⟩)
  have hgoes : ∀ n, (callsOf (before :: l)).goes n → n ≠ id → (callsOf (call :: l)).goes n := by
    rintro n (hn | ⟨b, hb, p', c', hruns⟩) hne
    · exact .inl (by
        have hn' : (callsOf (before :: l)).walks n := hn
        rwa [← hwalks] at hn')
    · rcases mem_cons.1 hb with rfl | hb
      · exact absurd hruns.1.symm hne
      · exact .inr ⟨b, mem_cons_of_mem _ hb, p', c', hruns⟩
  have hkept : Kept vm (callsOf (before :: l)).walks
      (vm.endAsyncBody id target c outcome (.found method false)) (callsOf (call :: l))
      fun _ => 0 := by
    cases outcome with
    | threw value => exact absurd rfl (houtcome value)
    | completed =>
      have hdrop : Kept vm (callsOf (before :: l)).walks vm { callsOf (before :: l) with
          bodies := (callsOf (call :: l)).bodies } fun _ => 0 :=
        .leave h.lively (fun _ hn => hn) (fun _ => Iff.rfl)
          (fun id' p' c' hb => h.lively.body id' p' c' (hbodies id' p' c' hb).1)
          fun _ _ _ hd => by
            cases hd with
            | active call => exact .active call
            | waiting g guard hg ha hpos => exact .waiting g guard hg ha hpos
            | queued job => exact .queued job
            | suspended d c hd hderives huntaken hc hw =>
              exact .suspended d c hd hderives huntaken hc hw
      refine hdrop.bind fun h₁ => ?_
      have hcomplete := Kept.complete vm.suspended h₁ hbody.owned hbody.waits
        (fun id' p' c' hb => (hbodies id' p' c' hb).2) fun c' =>
          ⟨fun hc => ⟨hc, fun heq => hbody.runs (heq ▸ hc)⟩, And.left⟩
      refine hcomplete.bind fun h₂ => ?_
      refine Kept.finishBody (callsOf (call :: l)) h₂ hleft hwaits ?_ hwalks hsyncs
        (fun _ _ _ hb => hb) hgoes hbody.evaluation method
      intro q hq
      rw [show (vm.loop.fulfil c .undefined).evaluationJobs = vm.loop.evaluationJobs from
        (Steady.fulfil h.lively.sound hbody.waits .undefined).queue] at hq
      exact hjobs q hq
    | suspended external =>
      have hmark : Kept vm (callsOf (before :: l)).walks
          { vm with loop := markExternal vm.loop c external } (callsOf (before :: l))
          fun _ => 0 := .steady h.lively (Kept.steady_markExternal h.lively.sound c external)
      refine hmark.bind fun h₁ => (Kept.inheritExternal h₁ target c).bind fun h₂ => ?_
      exact Kept.suspend h₂ ⟨before, mem_cons_self, rfl, rfl, rfl⟩ hwalks hsyncs hbodies hgoes
  have howned : vm.owned target = some (.evaluation id) := by
    obtain ⟨state, hstate⟩ := evaluation_iff.1 hbody.evaluation
    cases h.lively.record id _ _ hstate with
    | evaluating _ howned hopen hdriven => exact howned
    | fulfilled _ howned hdone => exact howned
  obtain ⟨hframes, houter, -, -⟩ := orderly_grow (h.orderly _ mem_cons_self) hkept.grows
    h.lively.owner fun n hn => ⟨call, mem_cons_self, hn⟩
  refine h.kept hkept (fun a' ha' => ?_) (nodup_cons.1 h.distinct).2
    fun n dependency hx => .inr ?_
  · rw [mem_singleton] at ha'
    subst ha'
    refine ⟨fun frame hframe => ?_, houter, nofun, fun result hc => ?_⟩
    · obtain ⟨howns, hdeps, hscheduled⟩ := hframes frame hframe
      exact ⟨howns, hdeps, fun n hn => (hscheduled n hn).imp_right nofun⟩
    · cases hc
      refine ⟨target, rfl, source_left (hkept.grows.owned _ _ howned) ?_⟩
      show ¬ (callsOf (call :: l)).walks id
      rw [hwalks]
      exact hleft
  · obtain ⟨frame, hframe, hid, hx | hx⟩ := hx
    · exact ⟨call, mem_singleton_self _, frame, hframe, hid, .inl hx⟩
    · exact hx.elim

/-! ## Jobs -/

/-- A reaction runs because the promise was fulfilled. -/
theorem fulfilled_of_job (h : vm.Lively (callsOf l) fun _ => 0) {source q : Nat}
    {state : PromiseState} {value : Value} {r : Promises.Reaction}
    (hq : vm.loop.microtasks = .reaction source state value r :: rest)
    (hderives : vm.loop.Derives r.derived q) (hsource : vm.loop.Open q ∨ vm.loop.Fulfilled q) :
    state = .fulfilled := by
  have hmem : Job.reaction source state value r ∈ vm.loop.dispatched ++ vm.loop.microtasks := by
    rw [hq]
    exact mem_append_right _ mem_cons_self
  have hsame := hderives.source h.sound rfl hmem
  obtain ⟨inner, hi, hstate, -, hpending, -⟩ := h.sound.settled_of_job hmem
  rw [hsame] at hi
  rcases hsource with ⟨i, hi', hst, -⟩ | ⟨i, hi', hst⟩
  · rw [hi] at hi'
    cases hi'
    exact absurd (hstate.symm.trans hst) hpending
  · rw [hi] at hi'
    cases hi'
    exact hstate.symm.trans hst

/-- **A dependency of a guard is done.** -/
theorem kept_dependencyFulfilled {g : Nat} {missing : Nat → Nat} {calls : Calls}
    (h : vm.Lively calls missing) (hg : g < vm.guards.length) (hk : missing g = 1)
    (method : Value) :
    Kept vm calls.walks (vm.dependencyFulfilled g (.found method false)) calls
      (Function.update missing g 0) := by
  have hget : vm.guards[g]? = some vm.guards[g] := getElem?_eq_getElem hg
  generalize vm.guards[g] = guard at hget
  obtain ⟨ds, -, -, hlen, -⟩ := h.accounted g guard hget
  have hpos : 0 < guard.remaining := by omega
  have hpending : vm.isPending guard.target = true := by
    have hok := h.guardOk g guard hget
    unfold GuardOk at hok
    split at hok
    · exact Kept.isPending_open (h.waits (hok hpos)).1
    · exact Kept.isPending_open (hok.2.1 hpos)
  simp only [dependencyFulfilled, hget, hpending, if_true]
  split
  · rename_i hzero
    unfold release
    split
    · rename_i id haction
      have hok := h.guardOk g guard hget
      simp only [GuardOk, haction] at hok
      have hqueue := Kept.queue h (hok hpos)
      refine hqueue.bind fun h' => Kept.count h' hget hk (.inr ⟨id, haction, ?_⟩)
      exact countP_pos_iff.2 ⟨(id, guard.target),
        by simp [evaluationJobs, pushMicrotask, Job.evaluation], by simp⟩
    · rename_i value haction
      rw [Kept.resolveNamespace_found]
      exact Kept.resolve h hget hk haction (by omega)
  · rename_i hzero
    exact Kept.count h hget hk (.inl (by omega))

/-- A job is taken that is not the evaluator's. -/
theorem kept_take (h : vm.Lively (callsOf l) fun _ => 0) {job : Job}
    (hq : vm.loop.microtasks = job :: rest) {loop : EventLoop}
    (hd : vm.loop.perform .dispatch = some loop) (hevaluation : job.evaluation = none)
    (hhandler : vm.handlerOf job = none) :
    Kept vm (callsOf l).walks { vm with loop := loop } (callsOf l) fun _ => 0 := by
  have k := Kept.take (callsOf l) h hq hd rfl rfl rfl (fun _ hn => hn)
    (fun n p hx => by rw [hevaluation] at hx; cases hx)
    fun n p hx => by rw [hhandler] at hx; cases hx
  simpa only [hhandler, reduceCtorEq, if_false] using k

/-- The calls are the same when they are put elsewhere. -/
theorem Going.put (h : vm.Going l) (activations : List Activation) :
    ({ vm with activations := activations } : Vm).Going l :=
  h.stay (.records h.lively rfl rfl (fun _ => Nat.le_refl _) rfl rfl rfl rfl rfl)

theorem Going.startDeferred (h : vm.Going vm.activations) (id : Nat) (caller : Caller)
    (method : Value) :
    (vm.startDeferred id caller (.found method false)).Going
      (vm.startDeferred id caller (.found method false)).activations := by
  unfold Vm.startDeferred
  split
  · rename_i next rest _
    refine Going.put (h.spawn ?_ ?_ ?_ rfl ?_) _
    · rintro n ⟨frame, hframe, -⟩
      cases hframe
    · exact fun n hx => hx
    · exact fun n p c hx => hx
    · refine ⟨nofun, fun deferred hx q hq => ?_, nofun, nofun⟩
      cases hx
      cases hq
  · have hnamespace := (namespace_now h.lively (vm.deferredNamespaceObject id) method).1
    have hspends : Spends vm (vm.namespaceAfterDependencies (vm.deferredNamespaceObject id) []
        (.found method false)).2 := .namespaceAfterDependencies _ _ _
    generalize vm.namespaceAfterDependencies (vm.deferredNamespaceObject id) []
      (.found method false) = result at hnamespace hspends
    obtain ⟨target, vm'⟩ := result
    have hanswer := hspends.trans (.answer caller (.ok target))
    rw [hanswer.activations]
    exact h.stay (hnamespace.bind fun h' => kept_answer h' caller target)

/-- **A job runs.** -/
theorem Going.runJob (h : vm.Going vm.activations) (honce : vm.Once) {job : Job}
    (hq : vm.loop.microtasks = job :: rest) {loop : EventLoop}
    (hd : vm.loop.perform .dispatch = some loop) (method : Value) :
    (runJob { vm with loop := loop } job (.found method false)).Going
      (runJob { vm with loop := loop } job (.found method false)).activations := by
  have hplain : job.evaluation = none → vm.handlerOf job = none →
      ({ vm with loop := loop } : Vm).Going vm.activations := fun he hh =>
    h.stay (kept_take h.lively hq hd he hh)
  cases job with
  | moduleEvaluation id target =>
    have htask : (id, target) ∈ vm.loop.evaluationJobs := by
      simp [evaluationJobs, hq, Job.evaluation]
    have howns := h.lively.task id target htask
    have htake := Kept.take { callsOf vm.activations with
        goes := fun n => (callsOf vm.activations).goes n ∨ n = id } h.lively hq hd
      rfl rfl rfl (fun n hn => .inl hn)
      (fun n p hx => by cases hx; exact .inr rfl) (by intro _ _ hx; cases hx)
    simp only [handlerOf, reduceCtorEq, if_false] at htake
    let call : Activation := .async [] none (.body id target loop.next) .host
    have hstart := Kept.start (callsOf (call :: vm.activations)) htake.lively howns
      (fun n hn => by
        obtain ⟨a, ha, hx⟩ := hn
        rcases mem_cons.1 ha with rfl | ha
        · obtain ⟨frame, hframe, -⟩ := hx
          cases hframe
        · exact ⟨a, ha, hx⟩)
      (fun n => by
        simp only [callsOf_cons]
        exact ⟨fun hx => hx.elim False.elim fun hx => hx, .inr⟩)
      (fun id' p' c' hb => by
        obtain ⟨a, ha, hx⟩ := hb
        rcases mem_cons.1 ha with rfl | ha
        · exact .inr ⟨hx.1.symm, hx.2.1.symm, hx.2.2.symm⟩
        · exact .inl ⟨a, ha, hx⟩)
      (fun n hn => by
        rcases hn with (⟨a, ha, hx⟩ | ⟨a, ha, p, c, hx⟩) | rfl
        · exact .inl ⟨a, mem_cons_of_mem _ ha, hx⟩
        · exact .inr ⟨a, mem_cons_of_mem _ ha, p, c, hx⟩
        · exact .inr ⟨call, mem_cons_self, target, loop.next, rfl, rfl, rfl⟩)
    obtain ⟨hcompletion, kstart, -⟩ := hstart
    have k := htake.bind fun _ => kstart
    have hactivations := (uses_startBody { vm with loop := loop } id target).activations
    simp only [Vm.runJob]
    split
    · rename_i completion vm' heq
      have hc : completion = loop.next :=
        Option.some.inj ((congrArg Prod.fst heq).symm.trans hcompletion)
      subst hc
      rw [show vm' = (startBody { vm with loop := loop } id target).2 from
        (congrArg Prod.snd heq).symm]
      refine Going.put (l := call :: _) ?_ _
      rw [hactivations]
      refine ⟨k.lively, fun a ha => ?_, ?_, fun n requests hr hv dependency hx => ?_⟩
      · rcases mem_cons.1 ha with rfl | ha
        · exact ⟨(by simp), (by simp), (by simp), (by simp)⟩
        · exact orderly_grow (h.orderly a ha) k.grows h.lively.owner
            fun n hn => ⟨a, mem_cons_of_mem _ ha, hn⟩
      · exact nodup_cons.2 ⟨running_fresh htake.lively (fun _ _ _ hb => hb) (Nat.le_refl _),
          h.distinct⟩
      · rw [k.grows.plan] at hr
        rcases h.covered n requests hr (k.taken n hv) dependency hx with hvisited | ⟨a, ha, hx⟩
        · exact .inl (k.grows.visits dependency hvisited)
        · exact .inr ⟨a, mem_cons_of_mem _ ha, hx⟩
    · rename_i vm' heq
      have hfirst := congrArg Prod.fst heq
      rw [show (startBody { vm with loop := loop } id target).1 = some loop.next from
        hcompletion] at hfirst
      cases hfirst
  | dynamicImport target id deferred =>
    have hgoing := hplain rfl rfl
    cases deferred with
    | true => exact @Going.startDeferred { vm with loop := loop } hgoing id _ method
    | false =>
      refine Going.put (hgoing.spawn ?_ ?_ ?_ rfl ?_) _
      · rintro n ⟨frame, hframe, -⟩
        cases hframe
      · exact fun n hx => hx
      · exact fun n p c hx => hx
      · exact ⟨(by simp), (by simp), (by simp), (by simp)⟩
  | reaction source state value r =>
    cases hr : vm.handlers r.derived with
    | none =>
      simp only [Vm.runJob, hr]
      exact hplain rfl hr
    | some handler =>
      have hmem : Job.reaction source state value r ∈ vm.loop.microtasks := by
        rw [hq]
        exact mem_cons_self
      have hactivations := (spends_handle { vm with loop := loop } handler state value
        (.found method false)).activations
      simp only [Vm.runJob, hr]
      rw [hactivations]
      cases handler with
      | dependency g =>
        -- the reaction is one of those the guard counts
        have hlt := (h.lively.handler _ _ hr).1
        obtain ⟨q', hderives'⟩ := Kept.derives_of_handler h.lively hr
        have huntaken := Kept.untaken_of_queued h.lively.sound hderives' hmem
          (by simp [Job.derives])
        obtain ⟨ds, -, hds, -, hsources⟩ := h.lively.accounted g _ (getElem?_eq_getElem hlt)
        obtain ⟨q, hderives, hsource⟩ := hsources r.derived ((hds _).2 ⟨hr, huntaken⟩)
        have hstate := fulfilled_of_job h.lively hq hderives (h.lively.source hsource)
        subst hstate
        have htake := Kept.take (callsOf vm.activations) h.lively hq hd rfl rfl rfl
          (fun _ hn => hn) (by intro _ _ hx; cases hx) fun n p hx => by
            rw [handlerOf, hr] at hx
            cases hx
        refine h.stay (htake.bind fun h' => ?_)
        have k := kept_dependencyFulfilled h' hlt (by simp [handlerOf, hr]) method
        have hnone : Function.update (fun g' => if vm.handlerOf
            (.reaction source .fulfilled value r) = some (.dependency g') then 0 + 1 else 0)
            g 0 = fun _ => (0 : Nat) := by
          funext g'
          by_cases hg' : g' = g
          · subst hg'
            rw [Function.update_self]
          · rw [Function.update_of_ne hg', if_neg]
            rw [handlerOf, hr]
            exact fun hx => hg' (Handler.dependency.inj (Option.some.inj hx)).symm
        rwa [hnone] at k
      | body id p =>
        obtain ⟨he, hstarted, c, hderives, howned⟩ := h.lively.handler _ _ hr
        have hstate := fulfilled_of_job h.lively hq hderives (h.lively.owned c _ howned)
        subst hstate
        obtain ⟨hleft, hwaits, hjobs, -⟩ := honce.quiet hstarted
        have htake := Kept.take { callsOf vm.activations with
            goes := fun n => (callsOf vm.activations).goes n ∨ n = id } h.lively hq hd
          rfl rfl rfl (fun n hn => .inl hn) (by intro _ _ hx; cases hx) fun n p' hx => by
            rw [handlerOf, hr] at hx
            cases hx
            exact .inr rfl
        simp only [handlerOf, hr, Option.some.injEq, reduceCtorEq, if_false] at htake
        refine h.stay (htake.bind fun h' => ?_)
        refine Kept.finishBody (callsOf vm.activations) h' hleft hwaits (fun q hx => hjobs q ?_) rfl rfl
          (fun _ _ _ hb => hb) (fun n hn hne => ?_) he method
        · rw [← evaluationJobs_dispatch hq hd]
          exact mem_append_right _ hx
        · exact hn.resolve_right hne
  | resolveThenable target thenable method' g => exact hplain rfl rfl
  | other => exact hplain rfl rfl

/-! ## Moves -/

/-- The move finds no namespace whose `then` is callable or cannot be read, no module whose
loop another call is in, no failure and no path that is too long. -/
def Regular (vm : Vm) : Move → Prop
  | .step i read => vm.Guarded (.step i read) ∧ (∃ method, read = .found method false) ∧
      ∀ frames outer id caller,
        vm.activations[i]? = some (.async frames outer (.enter id) caller) →
        (∀ record, vm.records id = some record → record.state = .linked →
          frames.length < maxCallDepth) ∧
        ∀ a ∈ vm.activations.eraseIdx i, ¬ a.walks id ∧
          ∀ root, vm.records.cycleRoot id = some root → ¬ a.walks root
  | .startDeferred _ read => ∃ method, read = .found method false
  | .body _ outcome read =>
    (∃ method, read = .found method false) ∧ ∀ value, outcome ≠ .threw value
  | .awaited _ result => result = .ok ()
  | .completes _ thrown => thrown = none
  | .dispatch read => ∃ method, read = .found method false
  | _ => True

theorem guarded_of_regular {m : Move} (h : vm.Regular m) : vm.Guarded m := by
  cases m with
  | step i read => exact h.1
  | _ => trivial

/-- The calls, with one of them first. -/
theorem perm_of_get {i : Nat} (hi : vm.activations[i]? = some a) :
    vm.activations.Perm (a :: vm.activations.eraseIdx i) := by
  obtain ⟨hlt, rfl⟩ := List.getElem?_eq_some_iff.1 hi
  exact (getElem_cons_eraseIdx_perm hlt).symm

/-- A call goes on and is put back. -/
theorem Going.replace {i : Nat} {before : Activation} {after : Option Activation}
    (hi : vm.activations[i]? = some before) (hactivations : vm'.activations = vm.activations)
    (h : vm'.Going (after.toList ++ vm.activations.eraseIdx i)) :
    (vm'.replace i after).Going (vm'.replace i after).activations := by
  have hlt := (List.getElem?_eq_some_iff.1 hi).1
  cases after with
  | none =>
    simp only [Vm.replace, hactivations]
    exact h.put _
  | some a =>
    simp only [Vm.replace, hactivations]
    exact (h.put _).perm (set_perm_cons_eraseIdx hlt a).symm

/-- **Every regular move keeps the calls going.** -/
theorem going_perform {m : Move} (hm : vm.Regular m) (h : vm.Going vm.activations)
    (honce : vm.Once) (hperform : vm.perform m = some vm') : vm'.Going vm'.activations := by
  cases m with
  | evaluate id curMod =>
    cases hperform
    refine Going.put (h.spawn (a := .sync [] (.enter id curMod)) ?_ ?_ ?_ rfl ?_) _
    · exact fun n hx => hx
    · rintro n ⟨frame, hframe, -⟩
      cases hframe
    · exact fun n p c hx => hx
    · exact ⟨(by simp), (by simp)⟩
  | start id =>
    cases hperform
    refine Going.put (h.spawn (a := .async [] none (.enter id) .host) ?_ ?_ ?_ rfl ?_) _
    · rintro n ⟨frame, hframe, -⟩
      cases hframe
    · exact fun n hx => hx
    · exact fun n p c hx => hx
    · exact ⟨(by simp), (by simp), (by simp), (by simp)⟩
  | startDeferred id read =>
    obtain ⟨method, rfl⟩ := hm
    cases hperform
    exact h.startDeferred id .host method
  | step i read =>
    obtain ⟨hguarded, ⟨method, rfl⟩, henter⟩ := hm
    simp only [perform] at hperform
    split at hperform
    · rename_i frames control hi
      obtain ⟨⟨vm₁, after⟩, hstep, rfl⟩ := Option.map_eq_some_iff.1 hperform
      have hp := perm_of_get hi
      obtain ⟨new, hsteps⟩ := steps_stepSync hstep
      refine Going.replace hi hsteps.activations ((h.perm hp).stepSync ?_ hstep)
      rintro frame rest rfl
      by_cases hc : control = .body
      · subst hc
        cases hstep
      · exact honce.body_alone h hc hp
    · rename_i frames outer control caller hi
      obtain ⟨⟨vm₁, after⟩, hstep, rfl⟩ := Option.map_eq_some_iff.1 hperform
      have hp := perm_of_get hi
      have hstart : ∀ id, control = .enter id → vm.Startable id := fun id hid =>
        hguarded frames outer id caller (by rw [hi, hid])
      obtain ⟨new, hsteps⟩ := steps_stepAsync hstart hstep
      refine Going.replace hi hsteps.activations ((h.perm hp).stepAsync ?_ ?_ hstep)
      · rintro frame rest rfl
        refine honce.loop_alone ?_ hp
        exact found_of_owns (((h.perm hp).orderly _ mem_cons_self).1 frame
          mem_cons_self).1
      · exact fun id hid => ⟨hstart id hid, henter frames outer id caller (by rw [hi, hid])⟩
    · cases hperform
  | body i outcome read =>
    obtain ⟨⟨method, rfl⟩, houtcome⟩ := hm
    simp only [perform] at hperform
    split at hperform
    · rename_i frame frames hi
      cases hperform
      have hp := perm_of_get hi
      exact Going.replace hi rfl ((h.perm hp).endSync (honce.end_alone h hp))
    · rename_i frame frames value hi
      exact absurd rfl (houtcome value)
    · rename_i frames outer id target completion caller hi
      cases hperform
      have hp := perm_of_get hi
      exact Going.replace hi (spends_endAsyncBody vm id target completion _ _).activations
        ((h.perm hp).endAsync honce hp houtcome method)
    · cases hperform
  | awaited i result =>
    subst hm
    simp only [perform] at hperform
    split at hperform
    · rename_i frames p hi
      cases hperform
      have hgoing := h.perm (perm_of_get hi)
      refine Going.replace hi rfl (hgoing.resync (.refl hgoing.lively) (fun _ => Iff.rfl)
        (fun result hc => ?_) (by simp) (by simp)
        fun n dependency hx => .inr ?_)
      · cases hc
        rfl
      · obtain ⟨frame, hframe, hid, hx | hx⟩ := hx
        · exact ⟨frame, hframe, hid, .inl hx⟩
        · exact hx.elim
    · cases hperform
  | completes c thrown =>
    subst hm
    simp only [perform] at hperform
    split at hperform
    · rename_i hc
      cases hperform
      obtain ⟨hopen, id, howned⟩ := h.lively.suspended c hc
      refine h.stay (Kept.complete (vm.suspended.filter (· ≠ c)) h.lively howned hopen ?_ ?_)
      · rintro id' p' c' hb rfl
        exact (h.lively.body id' p' c' hb).runs hc
      · intro c'
        simp
    · cases hperform
  | dispatch read =>
    obtain ⟨method, rfl⟩ := hm
    simp only [perform] at hperform
    split at hperform
    · rename_i job rest hq
      obtain ⟨loop, hd, rfl⟩ := Option.map_eq_some_iff.1 hperform
      exact h.runJob honce hq hd method
    · cases hperform
  | other a =>
    simp only [perform] at hperform
    split at hperform
    · rename_i hforeign
      obtain ⟨loop, ha, rfl⟩ := Option.map_eq_some_iff.1 hperform
      refine h.stay (.act h.lively ha ?_ ?_ fun p role hp htarget => ?_)
      · rintro rfl
        cases hforeign
      · rintro id target rfl
        cases hforeign
      · cases a with
        | resolve q value =>
          cases htarget
          simp [foreign, PMap.contains, hp] at hforeign
        | reject q value =>
          cases htarget
          simp [foreign, PMap.contains, hp] at hforeign
        | _ => cases htarget
    · cases hperform

/-! ## Runs -/

/-- A regular move, from one state to the next. -/
def RegularStep (vm vm' : Vm) : Prop := ∃ m, vm.Regular m ∧ vm.perform m = some vm'

/-- The states of the runs in which every move is regular. -/
def RegularRuns (vm : Vm) : Prop := Reachable Initial RegularStep vm

theorem going_initial (h : vm.Initial) : vm.Going vm.activations := by
  obtain ⟨hloop, hquiet, hlinked, hhandlers, hevaluating, hguards, howned, hsuspended,
    hactivations⟩ := h
  have hprogress : ∀ id state evaluation, vm.progress id = some (state, evaluation) →
      state = .linked ∧ evaluation = none := by
    intro id state evaluation hp
    obtain ⟨record, hr, heq⟩ := Option.map_eq_some_iff.1 hp
    rw [hlinked id record hr] at heq
    cases heq
    exact ⟨rfl, rfl⟩
  have hjobs : vm.loop.evaluationJobs = [] := by
    rw [evaluationJobs, filterMap_eq_nil_iff]
    intro job hjob
    cases job with
    | moduleEvaluation id target => exact absurd hjob (hquiet id target)
    | _ => rfl
  rw [hactivations]
  refine ⟨⟨sound_of_runs hloop, fun p role hp => ?_, fun p id hp => ?_, fun id state e hp => ?_,
    fun g guard hg => ?_, fun g guard hg => ?_, fun id p hp => ?_, fun id p c hb => ?_,
    fun d handler hd => ?_, fun c hc => ?_, fun id hw => ?_, fun id hs => ?_⟩, fun a ha => ?_,
    nodup_nil, fun id requests hr hv => ?_⟩
  · rw [howned] at hp
    cases hp
  · rw [howned] at hp
    cases hp
  · obtain ⟨rfl, rfl⟩ := hprogress id state e hp
    exact .linked
  · simp [hguards] at hg
  · simp [hguards] at hg
  · simp [hjobs] at hp
  · obtain ⟨a, ha, -⟩ := hb
    cases ha
  · rw [hhandlers] at hd
    cases hd
  · simp [hsuspended] at hc
  · obtain ⟨a, ha, -⟩ := hw
    cases ha
  · obtain ⟨a, ha, -⟩ := hs
    cases ha
  · cases ha
  · obtain ⟨record, hrecord, -⟩ := Option.map_eq_some_iff.1 hr
    have hp : vm.progress id = some (record.state, record.evaluation) := by
      simp [progress, hrecord]
    obtain ⟨hstate, -⟩ := hprogress id _ _ hp
    rw [hstate] at hp
    exact absurd hp (hv _)

theorem going_of_regularRuns (h : vm.RegularRuns) : vm.Going vm.activations ∧ vm.Once := by
  apply Reachable.invariant _ _ h
  · exact fun vm hvm => ⟨going_initial hvm, once_initial hvm⟩
  · rintro vm vm' ⟨hgoing, honce⟩ ⟨m, hm, hperform⟩
    exact ⟨going_perform hm hgoing honce hperform,
      honce.of_permitted (permitted_perform (guarded_of_regular hm) hperform)⟩

/-! ## Quiescence -/

/-- No call is under way, no job is queued and no body waits. -/
structure Quiet (vm : Vm) : Prop where
  activations : vm.activations = []
  microtasks : vm.loop.microtasks = []
  suspended : vm.suspended = []

/-- A reaction of the evaluator that has not run, on a promise that is not fulfilled. -/
theorem Quiet.not_fulfilled (hq : vm.Quiet) (hs : vm.loop.Sound) {d q : Nat}
    (hderives : vm.loop.Derives d q) (huntaken : vm.loop.Untaken d) : ¬ vm.loop.Fulfilled q := by
  rintro ⟨i, hi, hst⟩
  have honce := hderives.job_once hs hi
  rw [hst, if_neg (by decide)] at honce
  have hnone : vm.loop.jobsFor d = [] := by
    rw [jobsFor, hq.microtasks, append_nil, filter_eq_nil_iff]
    intro job hjob
    simp [huntaken job hjob]
  rw [hnone] at honce
  cases honce

/-- What is being evaluated then waits for a guard. -/
theorem Quiet.waiting (hq : vm.Quiet) (h : vm.Going vm.activations) {p : Nat} (ho : vm.Owns id p) :
    ∃ (g : Nat) (guard : Guard), vm.guards[g]? = some guard ∧
      guard.action = .evaluate id ∧ 0 < guard.remaining := by
  obtain ⟨-, -, hdriven⟩ := h.lively.waits ho
  cases hdriven with
  | active call =>
    rw [hq.activations] at call
    rcases call with ⟨a, ha, -⟩ | ⟨a, ha, -⟩ <;> cases ha
  | waiting g guard hg ha hpos => exact ⟨g, guard, hg, ha, hpos⟩
  | queued job =>
    rw [evaluations, evaluationJobs, hq.microtasks] at job
    cases job
  | suspended d c hd hderives huntaken hc hw =>
    refine absurd ?_ (hq.not_fulfilled h.lively.sound hderives huntaken)
    refine (h.lively.owned c _ hc).resolve_left fun ho => ?_
    have hmem := hw ho
    rw [hq.suspended] at hmem
    cases hmem

/-- **No guard waits**: the first one would wait for an earlier one. -/
theorem Quiet.no_guard (hq : vm.Quiet) (h : vm.Going vm.activations) (g : Nat) (guard : Guard)
    (hg : vm.guards[g]? = some guard) : guard.remaining ≤ 0 := by
  induction g using Nat.strongRecOn generalizing guard with
  | ind g ih =>
    by_contra hpos
    obtain ⟨ds, -, hds, hlen, hsource⟩ := h.lively.accounted g guard hg
    have hne : ds ≠ [] := by
      rintro rfl
      simp only [length_nil] at hlen
      omega
    obtain ⟨d, hd⟩ := exists_mem_of_ne_nil ds hne
    obtain ⟨q, hderives, hs⟩ := hsource d hd
    have hnot := hq.not_fulfilled h.lively.sound hderives ((hds d).1 hd).2
    cases hs with
    | fulfilled done => exact hnot done
    | evaluation n howned hleft hbefore =>
      have hopen := (h.lively.owned q _ howned).resolve_right hnot
      have howns := h.lively.owns (h.lively.owner q n howned) hopen
      obtain ⟨g', guard', hg', ha, hpos'⟩ := hq.waiting h howns
      have := ih g' (hbefore g' guard' hg' ha) guard' hg'
      omega
    | result g' guard' hlt hg' htarget haction =>
      obtain ⟨value, hvalue⟩ := haction
      have hok := h.lively.guardOk g' guard' hg'
      simp only [GuardOk, hvalue] at hok
      obtain ⟨ds', -, -, hlen', -⟩ := h.lively.accounted g' guard' hg'
      have hle := ih g' hlt guard' hg'
      exact hnot (htarget ▸ hok.2.2 (by omega))

/-- **Nothing is being evaluated then.** -/
theorem Quiet.evaluated (hq : vm.Quiet) (h : vm.Going vm.activations) {record : LinkedModule}
    (hr : vm.records id = some record) (hv : vm.Visited id) :
    record.state = .evaluated ∧ ∀ p, record.evaluation = some p → vm.loop.Fulfilled p := by
  have hprogress : vm.progress id = some (record.state, record.evaluation) := by
    simp [progress, hr]
  have hok := h.lively.record id _ _ hprogress
  generalize record.state = state at hok hprogress
  generalize record.evaluation = evaluation at hok hprogress
  cases hok with
  | linked => exact absurd hprogress (hv none)
  | sync call =>
    obtain ⟨a, ha, -⟩ := call
    rw [hq.activations] at ha
    cases ha
  | evaluating p howned hopen hdriven =>
    obtain ⟨g, guard, hg, -, hpos⟩ := hq.waiting h hprogress
    have := hq.no_guard h g guard hg
    omega
  | evaluated => exact ⟨rfl, (by simp)⟩
  | fulfilled p howned hdone =>
    refine ⟨rfl, fun q hp => ?_⟩
    cases hp
    exact hdone

/-- What a module asks for to be evaluated, and what that asks for, and so on. -/
inductive Reaches (vm : Vm) (root : Nat) : Nat → Prop where
  | root : Reaches vm root root
  | next {id dependency : Nat} {record : LinkedModule} (before : Reaches vm root id)
      (found : vm.records id = some record)
      (asks : (dependency, ImportPhase.evaluation) ∈ record.requests) :
      Reaches vm root dependency

theorem Quiet.visited (hq : vm.Quiet) (h : vm.Going vm.activations) {root : Nat}
    (hroot : vm.Visited root) (hreach : vm.Reaches root id) : vm.Visited id := by
  induction hreach with
  | root => exact hroot
  | next _ hr hasks ih =>
    refine (h.covered _ _ (by simp [plan, hr]) ih _ hasks).resolve_right ?_
    rintro ⟨a, ha, -⟩
    rw [hq.activations] at ha
    cases ha

/-! ## From a start on -/

theorem visited_of_leaves (h : Leaves vm vm') (hv : vm.Visited id) : vm'.Visited id := by
  intro e hp
  obtain ⟨record', hr', heq⟩ := Option.map_eq_some_iff.1 hp
  obtain ⟨record, hr, hl⟩ := h id record' hr'
  simp only [Prod.mk.injEq] at heq
  exact hv record.evaluation (by simp [progress, hr, hl heq.1])

theorem visited_enterAsync (h : vm.Going l) (hstart : vm.Startable id)
    (hdepth : ∀ record, vm.records id = some record → record.state = .linked →
      frames.length < maxCallDepth) (read : ThenRead) :
    (vm.enterAsync frames id read).1.Visited id := by
  by_cases hv : vm.Visited id
  · obtain ⟨new, hsteps⟩ := steps_enterAsync frames hstart read
    exact visited_of_leaves hsteps.leaves hv
  · unfold Visited at hv
    push Not at hv
    obtain ⟨e, hp⟩ := hv
    obtain ⟨record, hr, heq⟩ := Option.map_eq_some_iff.1 hp
    simp only [Prod.mk.injEq] at heq
    have hnone : record.evaluation = none := by
      have hok := h.lively.record id _ _ hp
      rw [heq.2]
      cases hok with
      | linked => rfl
    unfold Vm.enterAsync
    simp only [hr, heq.1, hnone, if_neg (Nat.not_le_of_lt (hdepth record hr heq.1))]
    intro e' hp'
    rw [Kept.progress_modify_self] at hp'
    obtain ⟨record', -, heq'⟩ := Option.map_eq_some_iff.1 hp'
    cases heq'

/-- Bodies complete normally. -/
def Completing : Move → Prop
  | .body _ outcome _ => ∀ value, outcome ≠ .threw value
  | .awaited _ result => result = .ok ()
  | .completes _ thrown => thrown = none
  | _ => True

/-- A move with which no body fails, from one state to the next. -/
def CompletingStep (vm vm' : Vm) : Prop := ∃ m, Completing m ∧ vm.perform m = some vm'

theorem completing_performAll {moves : List Move} (h : vm.performAll moves = some vm')
    (hm : ∀ m ∈ moves, Completing m) : Relation.ReflTransGen CompletingStep vm vm' := by
  induction moves generalizing vm with
  | nil =>
    cases h
    exact .refl
  | cons m rest ih =>
    obtain ⟨u, hu, hrest⟩ := Option.bind_eq_some_iff.1 h
    exact .head ⟨m, hm m mem_cons_self, hu⟩
      (ih hrest fun m' hm' => hm m' (mem_cons_of_mem _ hm'))

/-- Module 1 imports module 0. -/
def importer : Vm where
  loop := .initial
  size := 2
  records := (PMap.empty.insert 0 (freshModule [] false)).insert 1
    (freshModule [(0, .evaluation)] false)
  namespaces := fun id => id
  deferredNamespaces := fun id => id
  evaluating := []
  guards := []
  handlers := PMap.empty
  owned := PMap.empty
  suspended := []
  activations := []

theorem initial_importer : importer.Initial where
  loop := .start rfl
  quiet id target h := by cases h
  linked id record h := by
    simp only [importer, PMap.insert] at h
    split at h
    · cases h
      rfl
    · split at h
      · cases h
        rfl
      · cases h
  handlers := rfl
  evaluating := rfl
  guards := rfl
  owned := rfl
  suspended := rfl
  activations := rfl

/-- The namespace of module 0 has a `then`, which does nothing. -/
def exportedThen : List Move :=
  let plain := ThenRead.found .undefined false
  [.step 0 plain, .step 0 plain, .step 0 plain, .step 0 plain,
    .body 0 .completed (.found (.function 7 none) true), .step 0 plain, .step 0 plain,
    .step 0 plain, .dispatch plain, .other (.thenableEnds 3 none)]

end Vm

end NapiVm.Modules
