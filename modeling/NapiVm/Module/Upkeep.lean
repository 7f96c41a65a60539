import NapiVm.Module.Lively

/-!
# What each part of a step keeps

One lemma for each part of a step of the evaluators: it keeps `Vm.Lively`, for the calls
that are under way then.
-/

namespace NapiVm.Modules

open Promises EventLoop

namespace Vm

variable {vm vm' : Vm} {calls calls' : Calls} {W : Nat → Prop} {missing missing' : Nat → Nat}

/-- The handlers that a job runs. -/
def handlerOf (vm : Vm) : Job → Option Handler
  | .reaction _ _ _ r => vm.handlers r.derived
  | _ => none

namespace Kept

/-! ## Promises -/

/-- `Value::pending_promise`, for the end of a body or the result of a guard. -/
theorem own (h : vm.Lively calls missing) {role : Role} (hrole : ∀ id, role ≠ .evaluation id) :
    Kept vm calls.walks (vm.pendingPromise role).2 calls missing := by
  refine .loop h (.create h.sound rfl rfl) ?_ ?_ rfl rfl rfl rfl
  · intro p role' hp
    have hne : p ≠ vm.loop.next := by
      rintro rfl
      rw [h.ownedFresh (Nat.le_refl _)] at hp
      cases hp
    exact (PMap.insert_of_ne hne).trans hp
  · intro p role' hp
    by_cases hne : p = vm.loop.next
    · subst hne
      simp only [pendingPromise, PMap.insert_self, Option.some.injEq] at hp
      rw [← hp]
      exact .inr ⟨.inl ⟨_, PMap.insert_self, rfl, rfl, rfl⟩, hrole⟩
    · exact .inl ((PMap.insert_of_ne hne).symm.trans hp)

/-- The promise that was made. -/
theorem owned_own (vm : Vm) (role : Role) :
    (vm.pendingPromise role).2.owned (vm.pendingPromise role).1 = some role ∧
      (vm.pendingPromise role).2.loop.Open (vm.pendingPromise role).1 :=
  ⟨PMap.insert_self, _, PMap.insert_self, rfl, rfl, rfl⟩

/-- `Value::settled_promise`. -/
theorem settled (h : vm.Lively calls missing) (value : Value) :
    Kept vm calls.walks (vm.settledPromise .fulfilled value).2 calls missing ∧
      (vm.settledPromise .fulfilled value).2.loop.Fulfilled
        (vm.settledPromise .fulfilled value).1 :=
  ⟨.steady h (.create h.sound rfl rfl), _, PMap.insert_self, rfl⟩

theorem steady_markExternal {w : EventLoop} {keep : Nat → Prop} (hs : w.Sound) (p : Nat)
    (external : Bool) : Steady keep w (markExternal w p external) := by
  unfold markExternal
  split
  · rename_i inner hp
    exact .external hs hp _
  · exact .refl hs

theorem inheritExternal (h : vm.Lively calls missing) (p q : Nat) :
    Kept vm calls.walks { vm with loop := Vm.inheritExternal vm.loop p q } calls missing :=
  .steady h (steady_markExternal h.sound p _)

variable {loop : EventLoop} {g k id p d : Nat} {guard : Guard} {job : Job}

/-- An act of the event loop on promises that are not the evaluator's. -/
theorem act (h : vm.Lively calls missing) {a : Act} (ha : vm.loop.perform a = some loop)
    (hd : a ≠ .dispatch) (he : ∀ id target, a ≠ .enqueue (.moduleEvaluation id target))
    (ht : ∀ p role, vm.owned p = some role → a.target ≠ some p) :
    Kept vm calls.walks { vm with loop := loop } calls missing :=
  .steady h (.perform h.sound ha hd he fun p ⟨role, hp⟩ => ht p role hp)

/-- The records change, but no module moves on. -/
theorem records (h : vm.Lively calls missing) (hprogress : vm'.progress = vm.progress)
    (hplan : vm'.plan = vm.plan) (hstarted : ∀ id, vm.started id ≤ vm'.started id) (hloop : vm'.loop = vm.loop)
    (howned : vm'.owned = vm.owned) (hguards : vm'.guards = vm.guards)
    (hhandlers : vm'.handlers = vm.handlers) (hsuspended : vm'.suspended = vm.suspended) :
    Kept vm calls.walks vm' calls missing := by
  have hgrow : Grows vm calls.walks vm' calls.walks :=
    .of_same (by rw [hloop]; exact .refl h.sound) (fun p role hp => by rw [howned]; exact hp)
      hprogress hplan hstarted hguards fun _ hn => hn
  refine ⟨?_, hgrow, fun _ hn => hn, fun n hn => by rwa [Visited, ← hprogress]⟩
  refine h.next hgrow hprogress ?_ ?_ ?_ ?_ ?_ ?_ ?_ ?_ ?_ ?_ (fun _ hn => hn) fun _ => Iff.rfl
  · exact fun p role _ ho => .inl (by rw [hloop]; exact ho)
  · exact fun p id _ ho => by rw [hloop]; exact ho
  · exact fun p role hp => .inl (by rw [← howned]; exact hp)
  · intro id p _ hd
    refine hd.grow hgrow (fun hg => hg) (fun g guard hg _ => by rw [hguards]; exact hg)
      (by rw [hloop]) (fun d handler hd => by rw [hhandlers]; exact hd) (by rw [hloop]) ?_
    intro c _ hw ho
    rw [hloop] at ho
    rw [hsuspended]
    exact hw ho
  · intro g guard hg
    rw [hguards] at hg
    exact (h.guardOk g guard hg).grow hgrow (fun id p ho => by rwa [Owns, hprogress])
      fun p g _ ho => by rw [hloop]; exact ho
  · intro g guard hg
    rw [hguards] at hg
    refine (h.accounted g guard hg).grow h.owner hgrow rfl fun d => ?_
    rw [hhandlers, hloop]
  · exact fun id p hp => h.task id p (by rw [← hloop]; exact hp)
  · intro id p c hb
    have hok := h.body id p c hb
    exact hok.grow hgrow (by rw [hloop]; exact hok.waits) (by rw [hsuspended]; exact hok.runs)
  · exact fun d handler hd => .inl (by rw [← hhandlers]; exact hd)
  · intro c hc
    rw [hsuspended] at hc
    rw [hloop, howned]
    exact h.suspended c hc

/-! ## Reactions -/

section

variable (h : vm.Lively calls missing)

include h

/-- The promise a new reaction derives, with what is known of it. -/
theorem derives_react {q : Nat} (hq : ∃ i, vm.loop.promises q = some i) (handler : Handler) :
    Steady (fun p => ∃ role, vm.owned p = some role) vm.loop (vm.react q handler).loop ∧
      (vm.react q handler).loop.Derives (vm.loop.next + 2) q ∧
      (vm.react q handler).loop.Untaken (vm.loop.next + 2) := by
  obtain ⟨i, hi⟩ := hq
  have hbump : Steady (fun p => ∃ role, vm.owned p = some role) vm.loop
      { vm.loop with next := vm.loop.next + 2 } := (Steady.bump h.sound).trans (.bump h.sound.bump)
  have hs := hbump.advances.sound
  have hregister : Steady (fun p => ∃ role, vm.owned p = some role)
      { vm.loop with next := vm.loop.next + 2 } (vm.react q handler).loop :=
    .register hs (by simp [hi]) (.ref .object vm.loop.next) (.ref .object (vm.loop.next + 1))
  refine ⟨hbump.trans hregister, .register hs hi _ _ _, ?_⟩
  intro job hjob
  by_contra hderives
  rw [Bool.not_eq_false] at hderives
  rw [show (vm.react q handler).loop.dispatched = vm.loop.dispatched from
    hregister.dispatched] at hjob
  obtain ⟨e, he⟩ := derived_of_job h.sound (List.mem_append_left _ hjob) hderives
  rw [h.sound.freshPromise (vm.loop.next + 2) (by omega)] at he
  cases he

/-- The handlers are there under the promise that is derived. -/
theorem handlers_react (q : Nat) (handler : Handler) :
    (vm.react q handler).handlers (vm.loop.next + 2) = some handler ∧
      (∀ d, d ≠ vm.loop.next + 2 → (vm.react q handler).handlers d = vm.handlers d) ∧
      ∀ d handler', vm.handlers d = some handler' →
        (vm.react q handler).handlers d = some handler' := by
  have hother : ∀ d, d ≠ vm.loop.next + 2 → (vm.react q handler).handlers d = vm.handlers d :=
    fun d hd => PMap.insert_of_ne hd
  refine ⟨PMap.insert_self, hother, fun d handler' hd => ?_⟩
  rw [hother d, hd]
  rintro rfl
  rw [h.handlerFresh (by omega)] at hd
  cases hd

/-- `register`, for a guard that misses the reaction. -/
theorem reactDependency {q : Nat} (hg : g < vm.guards.length) (hk : missing g = k + 1)
    (hq : vm.Source calls.walks g q) :
    Kept vm calls.walks (vm.react q (.dependency g)) calls (Function.update missing g k) := by
  have hfound : ∃ i, vm.loop.promises q = some i := by
    rcases h.source hq with ⟨i, hi, -⟩ | ⟨i, hi, -⟩
    · exact ⟨i, hi⟩
    · exact ⟨i, hi⟩
  obtain ⟨hsteady, hderives, huntaken⟩ := derives_react h hfound (.dependency g)
  have hnone : vm.handlers (vm.loop.next + 2) = none := h.handlerFresh (by omega)
  obtain ⟨hself, hother, hhandlers⟩ := handlers_react h q (.dependency g)
  have hgrow : Grows vm calls.walks (vm.react q (.dependency g)) calls.walks :=
    .of_loop hsteady.advances (fun _ _ hp => hp) rfl rfl
  have hopen := fun p role (hp : vm.owned p = some role) => hsteady.opens p ⟨role, hp⟩
  refine ⟨?_, hgrow, fun _ hn => hn, fun _ hn => hn⟩
  refine h.next hgrow rfl ?_ ?_ (fun _ _ hp => .inl hp) ?_ ?_ ?_ ?_ ?_ ?_ ?_ (fun _ hn => hn)
    fun _ => Iff.rfl
  · exact fun p role hp ho => .inl (hopen p role hp ho)
  · exact fun p id hp ho => hopen p _ hp ho
  · intro id p _ hd
    refine hd.grow hgrow (fun hg => hg) (fun g guard hg _ => hg) (hsteady.queue.evaluations id)
      hhandlers hsteady.dispatched fun c hc hw ho => ?_
    rcases h.owned c _ hc with ho' | hf
    · exact hw ho'
    · exact absurd ho (hf.advance hsteady.advances).not_open
  · intro g' guard hg'
    exact (h.guardOk g' guard hg').grow hgrow (fun _ _ ho => ho) fun p g hp ho => hopen p _ hp ho
  · intro g' guard hg'
    by_cases hgg : g' = g
    · subst hgg
      obtain ⟨ds, hnodup, hmem, hlen, hsource⟩ := h.accounted g' guard hg'
      have hfresh : vm.loop.next + 2 ∉ ds := by
        intro hd
        have hhandler := ((hmem _).1 hd).1
        rw [hnone] at hhandler
        cases hhandler
      refine ⟨(vm.loop.next + 2) :: ds, List.nodup_cons.2 ⟨hfresh, hnodup⟩, fun d => ?_, ?_,
        fun d hd => ?_⟩
      · rw [List.mem_cons, Untaken.congr hsteady.dispatched, hmem d]
        by_cases hd : d = vm.loop.next + 2
        · subst hd
          simp only [true_or, true_iff, hself, true_and]
          exact (Untaken.congr hsteady.dispatched _).1 huntaken
        · rw [hother d hd]
          simp [hd]
      · rw [hk] at hlen
        simp only [Function.update_self, List.length_cons]
        omega
      · rcases List.mem_cons.1 hd with rfl | hd
        · exact ⟨q, hderives, hq.grow h.owner hgrow (Nat.le_refl _)⟩
        · obtain ⟨q', hq', hs⟩ := hsource d hd
          exact ⟨q', hq'.evolve hsteady.advances.evolves, hs.grow h.owner hgrow (Nat.le_refl _)⟩
    · rw [Function.update_of_ne hgg]
      refine (h.accounted g' guard hg').grow h.owner hgrow rfl fun d => ?_
      rw [Untaken.congr hsteady.dispatched]
      by_cases hd : d = vm.loop.next + 2
      · subst hd
        rw [hself, hnone]
        simp [Ne.symm hgg]
      · rw [hother d hd]
  · intro id p hp
    rw [hsteady.queue] at hp
    exact h.task id p hp
  · intro id p c hb
    have hok := h.body id p c hb
    exact hok.grow hgrow (hopen c _ hok.owned hok.waits) hok.runs
  · intro d handler hd
    by_cases hdn : d = vm.loop.next + 2
    · subst hdn
      rw [hself] at hd
      cases hd
      exact .inr ⟨hg, q, hderives⟩
    · rw [hother d hdn] at hd
      exact .inl hd
  · intro c hc
    obtain ⟨ho, id, hid⟩ := h.suspended c hc
    exact ⟨hopen c _ hid ho, id, hid⟩

omit h in
/-- A reaction for each of the dependencies of a guard. -/
theorem reactAll {f : Vm → Nat → Vm}
    (hf : ∀ {vm : Vm} {missing : Nat → Nat} {k q : Nat}, vm.Lively calls missing →
      g < vm.guards.length → missing g = k + 1 → vm.Source calls.walks g q →
      Kept vm calls.walks (f vm q) calls (Function.update missing g k)) (qs : List Nat)
    (h : vm.Lively calls missing) (hg : g < vm.guards.length) (hk : missing g = qs.length)
    (hqs : ∀ q ∈ qs, vm.Source calls.walks g q) :
    Kept vm calls.walks (qs.foldl f vm) calls (Function.update missing g 0) := by
  induction qs generalizing vm missing with
  | nil =>
    rw [show Function.update missing g 0 = missing from
      (Function.update_eq_iff).2 ⟨hk.symm, fun _ _ => rfl⟩]
    exact .refl h
  | cons q rest ih =>
    have k := hf h hg hk (hqs q List.mem_cons_self)
    refine k.bind fun h' => ?_
    have hrest := ih h' (Nat.lt_of_lt_of_le hg k.grows.guardsLength)
      (Function.update_self g rest.length missing) fun q' hq' =>
        (hqs q' (List.mem_cons_of_mem _ hq')).grow h.owner k.grows (Nat.le_refl _)
    rwa [Function.update_idem] at hrest

/-- A body waits at an `await`. -/
theorem suspend {c : Nat} (hbody : calls.bodies id p c) (hwalks : calls'.walks = calls.walks)
    (hsyncs : calls'.syncs = calls.syncs)
    (hbodies : ∀ id' p' c', calls'.bodies id' p' c' → calls.bodies id' p' c' ∧ c' ≠ c)
    (hgoes : ∀ id', calls.goes id' → id' ≠ id → calls'.goes id') : Kept vm calls.walks
      (react { vm with suspended := c :: vm.suspended } c (.body id p)) calls' missing := by
  have hbody := h.body id p c hbody
  obtain ⟨hsteady, hderives, huntaken⟩ := derives_react h (h.ownedFound hbody.owned) (.body id p)
  have hnone : vm.handlers (vm.loop.next + 2) = none := h.handlerFresh (by omega)
  obtain ⟨hself, hother, hhandlers⟩ := handlers_react h c (.body id p)
  let after := react { vm with suspended := c :: vm.suspended } c (.body id p)
  have hgrow : Grows vm calls.walks after calls'.walks :=
    .of_same hsteady.advances (fun _ _ hp => hp) rfl rfl (fun _ => Nat.le_refl _) rfl
      fun n hn => by rwa [← hwalks]
  have hopen := fun p role (hp : vm.owned p = some role) => hsteady.opens p ⟨role, hp⟩
  refine ⟨?_, hgrow, fun n hn => by rwa [← hwalks], fun _ hn => hn⟩
  refine h.next hgrow rfl ?_ ?_ (fun _ _ hp => .inl hp) ?_ ?_ ?_ ?_ ?_ ?_ ?_
    (fun n hn => by rwa [← hwalks]) fun _ => by rw [hsyncs]
  · exact fun p role hp ho => .inl (hopen p role hp ho)
  · exact fun p id hp ho => hopen p _ hp ho
  · intro id' p' ho hd
    by_cases hid : id' = id
    · subst hid
      have hp : p' = p := by
        have he := ho.evaluation
        rw [hbody.evaluation] at he
        exact (Option.some.inj he).symm
      subst hp
      exact .suspended _ c hself hderives huntaken hbody.owned fun _ => List.mem_cons_self
    · refine hd.grow hgrow (fun hg => hgoes id' hg hid) (fun g guard hg _ => hg)
        (hsteady.queue.evaluations id') hhandlers hsteady.dispatched fun c' hc hw ho => ?_
      rcases h.owned c' _ hc with ho' | hf
      · exact List.mem_cons_of_mem _ (hw ho')
      · exact absurd ho (hf.advance hsteady.advances).not_open
  · intro g guard hg
    exact (h.guardOk g guard hg).grow hgrow (fun _ _ ho => ho) fun p g hp ho => hopen p _ hp ho
  · intro g guard hg
    refine (h.accounted g guard hg).grow h.owner hgrow rfl fun d => ?_
    have huntaken' : after.loop.Untaken d ↔ vm.loop.Untaken d := Untaken.congr hsteady.dispatched d
    rw [huntaken']
    by_cases hd : d = vm.loop.next + 2
    · subst hd
      have hhandler : after.handlers (vm.loop.next + 2) = some (.body id p) := hself
      rw [hhandler, hnone]
      simp
    · rw [show after.handlers d = vm.handlers d from hother d hd]
  · intro id p hp
    rw [show after.loop.evaluationJobs = vm.loop.evaluationJobs from hsteady.queue] at hp
    exact h.task id p hp
  · intro id' p' c' hb
    obtain ⟨hb, hne⟩ := hbodies id' p' c' hb
    have hok := h.body id' p' c' hb
    refine hok.grow hgrow (hopen c' _ hok.owned hok.waits) ?_
    exact fun hmem => (List.mem_cons.1 hmem).elim hne hok.runs
  · intro d handler hd
    by_cases hdn : d = vm.loop.next + 2
    · subst hdn
      have hhandler : after.handlers (vm.loop.next + 2) = some (.body id p) := hself
      rw [hhandler] at hd
      cases hd
      exact .inr ⟨hbody.evaluation, hbody.started, c, hderives, hbody.owned⟩
    · rw [show after.handlers d = vm.handlers d from hother d hdn] at hd
      exact .inl hd
  · intro c' hc
    rcases List.mem_cons.1 hc with rfl | hc
    · exact ⟨hopen _ _ hbody.owned hbody.waits, id, hbody.owned⟩
    · obtain ⟨ho, id', hid⟩ := h.suspended c' hc
      exact ⟨hopen c' _ hid ho, id', hid⟩

end

/-- A body comes to its end. -/
theorem complete (suspended : List Nat) (h : vm.Lively calls missing) {c : Nat}
    (howned : vm.owned c = some (.completion id)) (hc : vm.loop.Open c)
    (hbodies : ∀ id' p' c', calls.bodies id' p' c' → c' ≠ c)
    (hsuspended : ∀ c', c' ∈ suspended ↔ c' ∈ vm.suspended ∧ c' ≠ c) :
    Kept vm calls.walks
      { vm with loop := vm.loop.fulfil c .undefined, suspended := suspended } calls missing := by
  have hsteady := Steady.fulfil h.sound hc .undefined
  let after : Vm := { vm with loop := vm.loop.fulfil c .undefined, suspended := suspended }
  have hgrow : Grows vm calls.walks after calls.walks :=
    .of_loop hsteady.advances (fun _ _ hp => hp) rfl rfl
  have hdone : (vm.loop.fulfil c .undefined).Fulfilled c := fulfilled_fulfil hc _
  have hne : ∀ p role, vm.owned p = some role → (∀ id, role ≠ .completion id) → p ≠ c := by
    rintro p role hp hrole rfl
    rw [howned] at hp
    exact hrole id (Option.some.inj hp).symm
  refine ⟨?_, hgrow, fun _ hn => hn, fun _ hn => hn⟩
  refine h.next hgrow rfl ?_ ?_ (fun _ _ hp => .inl hp) ?_ ?_ ?_ ?_ ?_ (fun _ _ hd => .inl hd) ?_
    (fun _ hn => hn) fun _ => Iff.rfl
  · intro p role _ ho
    by_cases hpc : p = c
    · subst hpc
      exact .inr hdone
    · exact .inl (hsteady.opens p hpc ho)
  · exact fun p id' hp ho => hsteady.opens p (hne p _ hp (by simp)) ho
  · intro id' p _ hd
    refine hd.grow hgrow (fun hg => hg) (fun g guard hg _ => hg) (hsteady.queue.evaluations id')
      (fun _ _ hd => hd) hsteady.dispatched fun c' hc' hw ho => ?_
    by_cases hcc : c' = c
    · subst hcc
      exact absurd ho hdone.not_open
    · rcases h.owned c' _ hc' with ho' | hf
      · exact (hsuspended c').2 ⟨hw ho', hcc⟩
      · exact absurd ho (hf.advance hsteady.advances).not_open
  · intro g guard hg
    exact (h.guardOk g guard hg).grow hgrow (fun _ _ ho => ho)
      fun p g hp ho => hsteady.opens p (hne p _ hp (by simp)) ho
  · intro g guard hg
    refine (h.accounted g guard hg).grow h.owner hgrow rfl fun d => ?_
    rw [show after.loop.Untaken d ↔ vm.loop.Untaken d from Untaken.congr hsteady.dispatched d]
  · intro id p hp
    rw [show after.loop.evaluationJobs = vm.loop.evaluationJobs from hsteady.queue] at hp
    exact h.task id p hp
  · intro id' p' c' hb
    have hok := h.body id' p' c' hb
    refine hok.grow hgrow (hsteady.opens c' (hbodies id' p' c' hb) hok.waits) ?_
    exact fun hmem => hok.runs ((hsuspended c').1 hmem).1
  · intro c' hc'
    obtain ⟨hmem, hcc⟩ := (hsuspended c').1 hc'
    obtain ⟨ho, id', hid⟩ := h.suspended c' hmem
    exact ⟨hsteady.opens c' hcc ho, id', hid⟩

/-! ## Guards -/

/-- A guard is made, of which every reaction is missing. -/
theorem pushGuard (h : vm.Lively calls missing) {n : Nat} (hn : guard.remaining = n)
    (hok : vm.GuardOk vm.guards.length guard)
    (hwalk : ∀ id, guard.action = .evaluate id → calls.walks id) :
    Kept vm calls.walks { vm with guards := vm.guards ++ [guard] } calls
      (Function.update missing vm.guards.length n) := by
  have hold : ∀ (g : Nat) (guard' : Guard), vm.guards[g]? = some guard' →
      (vm.guards ++ [guard])[g]? = some guard' := by
    intro g guard' hg
    rw [List.getElem?_append_left (List.getElem?_eq_some_iff.1 hg).1]
    exact hg
  have hcases : ∀ (g : Nat) (guard' : Guard), (vm.guards ++ [guard])[g]? = some guard' →
      vm.guards[g]? = some guard' ∧ g ≠ vm.guards.length ∨
        g = vm.guards.length ∧ guard' = guard := by
    intro g guard' hg
    by_cases hlt : g < vm.guards.length
    · rw [List.getElem?_append_left hlt] at hg
      exact .inl ⟨hg, Nat.ne_of_lt hlt⟩
    · rw [List.getElem?_append_right (Nat.le_of_not_lt hlt)] at hg
      obtain ⟨hzero, heq⟩ := List.getElem?_eq_some_iff.1 hg
      have hlast : g - vm.guards.length = 0 := by simpa using hzero
      simp only [hlast, List.getElem_cons_zero] at heq
      exact .inr ⟨by omega, heq.symm⟩
  have hgrow : Grows vm calls.walks { vm with guards := vm.guards ++ [guard] } calls.walks := by
    refine ⟨.refl h.sound, fun _ _ hp => hp, fun _ _ he => he, fun _ => Nat.le_refl _,
      fun _ _ _ ho => ho, fun g guard' hg => ⟨guard', hold g guard' hg, rfl, rfl⟩,
      fun g guard' hg => ?_, fun _ hn => .inl hn, rfl, fun _ hn => hn⟩
    rcases hcases g guard' hg with ⟨hg, -⟩ | ⟨-, rfl⟩
    · exact .inl ⟨guard', hg, rfl⟩
    · exact .inr hwalk
  refine ⟨?_, hgrow, fun _ hn => hn, fun _ hn => hn⟩
  refine h.next hgrow rfl (fun _ _ _ ho => .inl ho) (fun _ _ _ ho => ho) (fun _ _ hp => .inl hp) ?_
    ?_ ?_ h.task ?_ (fun _ _ hd => .inl hd) h.suspended (fun _ hn => hn) fun _ => Iff.rfl
  · exact fun id p _ hd => hd.grow hgrow (fun hg => hg) (fun g guard hg _ => hold g guard hg) rfl
      (fun _ _ hd => hd) rfl fun c _ hw ho => hw ho
  · intro g guard' hg
    rcases hcases g guard' hg with ⟨hg, -⟩ | ⟨rfl, rfl⟩
    · exact h.guardOk g guard' hg
    · exact hok
  · intro g guard' hg
    rcases hcases g guard' hg with ⟨hg, hne⟩ | ⟨rfl, rfl⟩
    · rw [Function.update_of_ne hne]
      exact (h.accounted g guard' hg).grow h.owner hgrow rfl fun d => Iff.rfl
    · rw [Function.update_self]
      refine ⟨[], List.nodup_nil, fun d => ?_, by simp [hn], nofun⟩
      refine iff_of_false (by simp) fun hd => ?_
      exact absurd (h.handler d _ hd.1).1 (Nat.lt_irrefl _)
  · exact fun id p c hb => (h.body id p c hb).grow hgrow (h.body id p c hb).waits
      (h.body id p c hb).runs

/-- The evaluation of a module is queued. -/
theorem queue (h : vm.Lively calls missing) (ho : vm.Owns id p) :
    Kept vm calls.walks
      { vm with loop := vm.loop.pushMicrotask (.moduleEvaluation id p) } calls missing := by
  have hact : vm.loop.perform (.enqueue (.moduleEvaluation id p)) =
      some (vm.loop.pushMicrotask (.moduleEvaluation id p)) := rfl
  have hadvances := Advances.perform h.sound hact
  have hopen : ∀ {q}, vm.loop.Open q → (vm.loop.pushMicrotask (.moduleEvaluation id p)).Open q :=
    fun ho => open_perform h.sound ho (by simp [Act.target]) hact
  have hjobs : (vm.loop.pushMicrotask (.moduleEvaluation id p)).evaluationJobs =
      vm.loop.evaluationJobs ++ [(id, p)] := by
    simp [evaluationJobs, pushMicrotask, Job.evaluation]
  have hgrow : Grows vm calls.walks
      { vm with loop := vm.loop.pushMicrotask (.moduleEvaluation id p) } calls.walks :=
    .of_loop hadvances (fun _ _ hp => hp) rfl rfl
  refine ⟨?_, hgrow, fun _ hn => hn, fun _ hn => hn⟩
  refine h.next hgrow rfl (fun _ _ _ ho => .inl (hopen ho)) (fun _ _ _ ho => hopen ho)
    (fun _ _ hp => .inl hp) ?_ ?_ ?_ ?_ ?_ (fun _ _ hd => .inl hd) ?_ (fun _ hn => hn)
    fun _ => Iff.rfl
  · intro id' p' _ hd
    cases hd with
    | active call => exact .active call
    | waiting g guard hg ha hpos => exact .waiting g guard hg ha hpos
    | queued job =>
      refine .queued ?_
      simp only [evaluations, hjobs, List.countP_append] at job ⊢
      omega
    | suspended d c hd hderives huntaken hc hw =>
      refine .suspended d c hd (hderives.evolve hadvances.evolves) huntaken hc fun ho => ?_
      rcases h.owned c _ hc with ho' | hf
      · exact hw ho'
      · exact absurd ho (hf.advance hadvances).not_open
  · intro g guard hg
    exact (h.guardOk g guard hg).grow hgrow (fun _ _ ho => ho) fun _ _ _ ho => hopen ho
  · exact fun g guard hg => (h.accounted g guard hg).grow h.owner hgrow rfl fun d => Iff.rfl
  · intro id' p' hmem
    rw [show ({ vm with loop := vm.loop.pushMicrotask (.moduleEvaluation id p) } : Vm).loop =
      vm.loop.pushMicrotask (.moduleEvaluation id p) from rfl, hjobs, List.mem_append,
      List.mem_singleton] at hmem
    rcases hmem with hmem | heq
    · exact h.task id' p' hmem
    · cases heq
      exact ho
  · exact fun id p c hb => (h.body id p c hb).grow hgrow (hopen (h.body id p c hb).waits)
      (h.body id p c hb).runs
  · intro c hc
    obtain ⟨ho, id', hid⟩ := h.suspended c hc
    exact ⟨hopen ho, id', hid⟩

/-- The guards, when one of them counts down. -/
theorem getElem?_count (hg : vm.guards[g]? = some guard) :
    (∀ (g' : Nat) (old : Guard), vm.guards[g']? = some old → g' ≠ g →
      (vm.guards.set g { guard with remaining := guard.remaining - 1 })[g']? = some old) ∧
    (vm.guards.set g { guard with remaining := guard.remaining - 1 })[g]? =
      some { guard with remaining := guard.remaining - 1 } ∧
    ∀ (g' : Nat) (guard' : Guard),
      (vm.guards.set g { guard with remaining := guard.remaining - 1 })[g']? = some guard' →
      vm.guards[g']? = some guard' ∧ g' ≠ g ∨
        g' = g ∧ guard' = { guard with remaining := guard.remaining - 1 } := by
  have hlt : g < vm.guards.length := (List.getElem?_eq_some_iff.1 hg).1
  refine ⟨fun g' old hold hne => ?_, by simp [hlt], fun g' guard' hset => ?_⟩
  · rw [List.getElem?_set_ne (Ne.symm hne)]
    exact hold
  · by_cases hne : g' = g
    · subst hne
      simp only [List.getElem?_set_self hlt, Option.some.injEq] at hset
      exact .inr ⟨rfl, hset.symm⟩
    · rw [List.getElem?_set_ne (Ne.symm hne)] at hset
      exact .inl ⟨hset, hne⟩

theorem grows_count (hg : vm.guards[g]? = some guard) (ha : Advances vm.loop loop) :
    Grows vm W { vm with
      loop := loop
      guards := vm.guards.set g { guard with remaining := guard.remaining - 1 } } W := by
  obtain ⟨hother, hself, hcases⟩ := getElem?_count hg
  refine ⟨ha, fun _ _ hp => hp, fun _ _ he => he, fun _ => Nat.le_refl _, fun _ _ _ ho => ho,
    fun g' old hold => ?_, fun g' guard' hset => ?_, fun _ hn => .inl hn, rfl, fun _ hn => hn⟩
  · by_cases hne : g' = g
    · subst hne
      rw [hg] at hold
      cases hold
      exact ⟨_, hself, rfl, rfl⟩
    · exact ⟨old, hother g' old hold hne, rfl, rfl⟩
  · rcases hcases g' guard' hset with ⟨hold, -⟩ | ⟨rfl, rfl⟩
    · exact .inl ⟨guard', hold, rfl⟩
    · exact .inl ⟨guard, hg, rfl⟩

section

variable (h : vm.Lively calls missing) (hg : vm.guards[g]? = some guard) (hk : missing g = k + 1)

include h hg hk

/-- The reactions that are left, when a guard counts one. -/
theorem accounted_count (ha : Advances vm.loop loop)
    (hdispatched : loop.dispatched = vm.loop.dispatched) (g' : Nat) (guard' : Guard)
    (hset : (vm.guards.set g { guard with remaining := guard.remaining - 1 })[g']? = some guard') :
    Accounted { vm with
      loop := loop
      guards := vm.guards.set g { guard with remaining := guard.remaining - 1 } }
      calls.walks g' guard' (Function.update missing g k g') := by
  have hgrow : Grows vm calls.walks _ calls.walks := grows_count hg ha
  rcases (getElem?_count hg).2.2 g' guard' hset with ⟨hold, hne⟩ | ⟨rfl, rfl⟩
  · rw [Function.update_of_ne hne]
    refine (h.accounted g' guard' hold).grow h.owner hgrow rfl fun d => ?_
    rw [Untaken.congr hdispatched]
  · rw [Function.update_self]
    refine (h.accounted g' guard hg).grow h.owner hgrow ?_ fun d => ?_
    · rw [hk]
      show guard.remaining - 1 - (k : Int) = guard.remaining - ((k + 1 : Nat) : Int)
      omega
    · rw [Untaken.congr hdispatched]

/-- A guard counts a dependency, and it is not the last, or its job is queued. -/
theorem count

    (hleft : 0 < guard.remaining - 1 ∨
      ∃ id, guard.action = .evaluate id ∧ 0 < vm.loop.evaluations id) :
    Kept vm calls.walks { vm with
      guards := vm.guards.set g { guard with remaining := guard.remaining - 1 } } calls
      (Function.update missing g k) := by
  obtain ⟨hother, hself, hcases⟩ := getElem?_count hg
  have hgrow : Grows vm calls.walks { vm with
      guards := vm.guards.set g { guard with remaining := guard.remaining - 1 } } calls.walks :=
    grows_count hg (.refl h.sound)
  refine ⟨?_, hgrow, fun _ hn => hn, fun _ hn => hn⟩
  refine h.next hgrow rfl (fun _ _ _ ho => .inl ho) (fun _ _ _ ho => ho) (fun _ _ hp => .inl hp) ?_
    ?_ (accounted_count h hg hk (.refl h.sound) rfl) h.task ?_ (fun _ _ hd => .inl hd) h.suspended
    (fun _ hn => hn) fun _ => Iff.rfl
  · intro id p ho hd
    cases hd with
    | active call => exact .active call
    | waiting g' guard' hg' ha hpos =>
      by_cases hne : g' = g
      · subst hne
        rw [hg] at hg'
        cases hg'
        rcases hleft with hpos' | ⟨id', ha', hjob⟩
        · exact .waiting g' _ hself ha hpos'
        · rw [ha] at ha'
          cases ha'
          exact .queued hjob
      · exact .waiting g' guard' (hother g' guard' hg' hne) ha hpos
    | queued job => exact .queued job
    | suspended d c hd hderives huntaken hc hw => exact .suspended d c hd hderives huntaken hc hw
  · intro g' guard' hset
    rcases hcases g' guard' hset with ⟨hold, -⟩ | ⟨rfl, rfl⟩
    · exact h.guardOk g' guard' hold
    · have hok := h.guardOk g' guard hg
      unfold GuardOk at hok ⊢
      cases haction : guard.action with
      | evaluate id =>
        simp only [haction] at hok ⊢
        exact fun hpos => hok (by omega)
      | resolve value =>
        simp only [haction] at hok ⊢
        obtain ⟨hp, ho, hf⟩ := hok
        rcases hleft with hpos | ⟨id, ha, -⟩
        · exact ⟨hp, fun _ => ho (by omega), fun hzero => by omega⟩
        · rw [haction] at ha
          cases ha
  · exact fun id p c hb => (h.body id p c hb).grow hgrow (h.body id p c hb).waits
      (h.body id p c hb).runs

/-- The guard of a namespace counts the last dependency, and its target is fulfilled. -/
theorem resolve {value : Value} (haction : guard.action = .resolve value)
    (hlast : guard.remaining = 1) :
    Kept vm calls.walks { vm with
      loop := vm.loop.fulfil guard.target value
      guards := vm.guards.set g { guard with remaining := guard.remaining - 1 } } calls
      (Function.update missing g k) := by
  obtain ⟨hother, hself, hcases⟩ := getElem?_count hg
  have hok := h.guardOk g guard hg
  simp only [GuardOk, haction] at hok
  obtain ⟨htarget, hopen, -⟩ := hok
  have hopen := hopen (by omega)
  have hsteady := Steady.fulfil h.sound hopen value
  have hdone : (vm.loop.fulfil guard.target value).Fulfilled guard.target :=
    fulfilled_fulfil hopen _
  have hne : ∀ p role, vm.owned p = some role → role ≠ .namespaceResult g → p ≠ guard.target := by
    rintro p role hp hrole rfl
    rw [htarget] at hp
    exact hrole (Option.some.inj hp).symm
  have hgrow : Grows vm calls.walks { vm with
      loop := vm.loop.fulfil guard.target value
      guards := vm.guards.set g { guard with remaining := guard.remaining - 1 } } calls.walks :=
    grows_count hg hsteady.advances
  refine ⟨?_, hgrow, fun _ hn => hn, fun _ hn => hn⟩
  refine h.next hgrow rfl ?_ ?_ (fun _ _ hp => .inl hp) ?_ ?_
    (accounted_count h hg hk hsteady.advances hsteady.dispatched) ?_ ?_ (fun _ _ hd => .inl hd) ?_
    (fun _ hn => hn) fun _ => Iff.rfl
  · intro p role _ ho
    by_cases hp : p = guard.target
    · subst hp
      exact .inr hdone
    · exact .inl (hsteady.opens p hp ho)
  · exact fun p id hp ho => hsteady.opens p (hne p _ hp (by simp)) ho
  · intro id p _ hd
    cases hd with
    | active call => exact .active call
    | waiting g' guard' hg' ha hpos =>
      refine .waiting g' guard' (hother g' guard' hg' ?_) ha hpos
      rintro rfl
      rw [hg] at hg'
      cases hg'
      rw [haction] at ha
      cases ha
    | queued job => exact .queued (by rw [hsteady.queue.evaluations]; exact job)
    | suspended d c hd hderives huntaken hc hw =>
      refine .suspended d c hd (hderives.evolve hsteady.advances.evolves)
        ((Untaken.congr hsteady.dispatched d).2 huntaken) hc fun ho => ?_
      rcases h.owned c _ hc with ho' | hf
      · exact hw ho'
      · exact absurd ho (hf.advance hsteady.advances).not_open
  · intro g' guard' hset
    rcases hcases g' guard' hset with ⟨hold, hgg⟩ | ⟨rfl, rfl⟩
    · have hok := h.guardOk g' guard' hold
      unfold GuardOk at hok ⊢
      split at hok
      · exact hok
      · obtain ⟨hp, ho, hf⟩ := hok
        exact ⟨hp, fun hpos => hsteady.opens _ (hne _ _ hp (by simpa using hgg)) (ho hpos),
          fun hzero => (hf hzero).advance hsteady.advances⟩
    · simp only [GuardOk, haction]
      exact ⟨htarget, fun hpos => absurd hpos (by simp [hlast]), fun _ => hdone⟩
  · intro id p hp
    rw [show (vm.loop.fulfil guard.target value).evaluationJobs = vm.loop.evaluationJobs from
      hsteady.queue] at hp
    exact h.task id p hp
  · intro id p c hb
    have hok := h.body id p c hb
    exact hok.grow hgrow (hsteady.opens c (hne c _ hok.owned (by simp)) hok.waits) hok.runs
  · intro c hc
    obtain ⟨ho, id, hid⟩ := h.suspended c hc
    exact ⟨hsteady.opens c (hne c _ hid (by simp)) ho, id, hid⟩

end

/-! ## Modules -/

/-- The modules whose records do not change. -/
theorem progress_modify_of_ne (vm : Vm) {n : Nat} (f : LinkedModule → LinkedModule) (h : n ≠ id) :
    (vm.modify id f).progress n = vm.progress n := by
  simp only [progress, modify, Records.modify_of_ne _ _ h]

theorem progress_modify_self (vm : Vm) (id : Nat) (f : LinkedModule → LinkedModule) :
    (vm.modify id f).progress id =
      (vm.records id).map fun record => ((f record).state, (f record).evaluation) := by
  simp only [progress, modify, Records.modify_self, Option.map_map]
  rfl

variable {f : LinkedModule → LinkedModule} {handler : Handler}

theorem plan_modify (vm : Vm) (id : Nat) (hf : ∀ record, (f record).requests = record.requests) :
    (vm.modify id f).plan = vm.plan := by
  funext n
  by_cases h : n = id
  · subst h
    simp only [Vm.plan, modify, Records.modify_self, Option.map_map]
    cases vm.records n with
    | none => rfl
    | some record => exact congrArg some (hf record)
  · simp only [Vm.plan, modify, Records.modify_of_ne _ _ h]

theorem started_modify (vm : Vm) (id : Nat) (hf : ∀ record, record.started ≤ (f record).started)
    (n : Nat) : vm.started n ≤ (vm.modify id f).started n := by
  by_cases h : n = id
  · subst h
    simp only [Vm.started, modify, Records.modify_self]
    cases vm.records n with
    | none => exact Nat.le_refl _
    | some record => exact hf record
  · simp only [Vm.started, modify, Records.modify_of_ne _ _ h, Nat.le_refl]

theorem resolveNamespace_found (loop : EventLoop) (p : Nat) (value method : Value) :
    resolveNamespace loop p value (.found method false) = loop.fulfil p value := by
  unfold resolveNamespace fulfil
  cases loop.lock p with
  | none => rfl
  | some loop' => rfl

theorem isPending_open (hp : vm.loop.Open p) : vm.isPending p = true := by
  obtain ⟨i, hi, hpend, -⟩ := hp
  simp [isPending, hi, hpend]

theorem isPending_fulfilled (hp : vm.loop.Fulfilled p) : vm.isPending p = false := by
  obtain ⟨i, hi, hst⟩ := hp
  simp [isPending, hi, hst]

section

variable (calls') (h : vm.Lively calls missing) (hwalk : ¬ calls.walks id)
  (hwaits : ∀ (g : Nat) (guard : Guard), vm.guards[g]? = some guard →
    guard.action = .evaluate id → ¬ 0 < guard.remaining)
  (hjobs : ∀ q, (id, q) ∉ vm.loop.evaluationJobs) (hwalks : calls'.walks = calls.walks)
  (hsyncs : calls'.syncs = calls.syncs)
  (hbodies : ∀ id p c, calls'.bodies id p c → calls.bodies id p c)
  (hgoes : ∀ n, calls.goes n → n ≠ id → calls'.goes n)

include h hwalk hwaits hjobs hwalks hsyncs hbodies hgoes

/-- The evaluator is done with a module, which has nothing else going on with it. -/
theorem finish (ho : vm.Owns id p) (method : Value) :
    Kept vm calls.walks (vm.finishAsyncModule id p (.ok ()) (.found method false)) calls'
      missing := by
  obtain ⟨hopen, howned, -⟩ := h.waits ho
  obtain ⟨record, hr, hprogress⟩ := Option.map_eq_some_iff.1 ho
  simp only [Prod.mk.injEq] at hprogress
  have hsteady := Steady.fulfil h.sound hopen (vm.namespaceObject id)
  have hdone : (vm.loop.fulfil p (vm.namespaceObject id)).Fulfilled p := fulfilled_fulfil hopen _
  let ended : LinkedModule → LinkedModule := fun record => { record with state := .evaluated }
  let after : Vm := { vm.modify id ended with
    evaluating := vm.evaluating.filter (· ≠ id)
    loop := vm.loop.fulfil p (vm.namespaceObject id) }
  have hafter : vm.finishAsyncModule id p (.ok ()) (.found method false) = after := by
    simp only [finishAsyncModule, isPending_open hopen, ho.evaluation, if_true,
      resolveNamespace_found]
    rfl
  rw [hafter]
  have hself : after.progress id = some (.evaluated, some p) := by
    rw [show after.progress id = (vm.modify id ended).progress id from rfl, progress_modify_self, hr]
    simp [ended, hprogress.2]
  have hother : ∀ n, n ≠ id → after.progress n = vm.progress n :=
    fun n hn => progress_modify_of_ne vm ended hn
  have howns : ∀ n q, n ≠ id → vm.Owns n q → after.Owns n q := by
    intro n q hn hq
    rw [Owns, hother n hn]
    exact hq
  have hne : ∀ q role, vm.owned q = some role → role ≠ .evaluation id → q ≠ p := by
    rintro q role hq hrole rfl
    rw [howned] at hq
    exact hrole (Option.some.inj hq).symm
  have hgrow : Grows vm calls.walks after calls'.walks := by
    refine ⟨hsteady.advances, fun _ _ hq => hq, fun n q he => ?_,
      started_modify vm id fun _ => Nat.le_refl _, fun n q hn hq => ?_,
      fun g guard hg => ⟨guard, hg, rfl, rfl⟩, fun g guard hg => .inl ⟨guard, hg, rfl⟩,
      fun n hn => .inl (by rwa [← hwalks]), plan_modify vm id fun _ => rfl, fun n hn => ?_⟩
    · by_cases hn : n = id
      · subst hn
        rw [ho.evaluation] at he
        cases he
        exact evaluation_iff.2 ⟨_, hself⟩
      · rw [evaluation_iff, hother n hn]
        exact evaluation_iff.1 he
    · rw [hwalks] at hn
      exact howns n q (fun heq => hwalk (heq ▸ hn)) hq
    · by_cases hni : n = id
      · subst hni
        simp [Visited, hself]
      · rwa [Visited, hother n hni]
  have htaken : ∀ n, after.Visited n → vm.Visited n := by
    intro n hn
    by_cases hni : n = id
    · subst hni
      simp [Visited, show vm.progress n = some (.evaluating, some p) from ho]
    · rwa [Visited, ← hother n hni]
  refine ⟨?_, hgrow, fun n hn => by rwa [← hwalks], htaken⟩
  refine ⟨hsteady.advances.sound, fun q role hq => ?_, fun q n hq => ?_, fun n state e hn => ?_,
    fun g guard hg => ?_, fun g guard hg => ?_, fun n q hq => ?_, fun n q c hb => ?_,
    fun d handler hd => (h.handler d handler hd).grow hgrow, fun c hc => ?_, fun n hn => ?_,
    fun n hn => ?_⟩
  · by_cases hqp : q = p
    · subst hqp
      exact .inr hdone
    · exact (h.owned q role hq).imp (hsteady.opens q hqp) (·.advance hsteady.advances)
  · exact hgrow.evaluation n q (h.owner q n hq)
  · by_cases hni : n = id
    · subst hni
      rw [hself] at hn
      cases hn
      exact .fulfilled p howned hdone
    · rw [hother n hni] at hn
      cases h.record n state e hn with
      | linked => exact .linked
      | sync call => exact .sync (by rwa [hsyncs])
      | evaluating q hq hqo hd =>
        refine .evaluating q hq (hsteady.opens q (hne q _ hq (by simpa using hni)) hqo) ?_
        refine hd.grow hgrow (fun hg => hgoes n hg hni) (fun _ _ hg _ => hg)
          (hsteady.queue.evaluations n) (fun _ _ hd => hd) hsteady.dispatched
          fun c hc hw hco => ?_
        rcases h.owned c _ hc with ho' | hf
        · exact hw ho'
        · exact absurd hco (hf.advance hsteady.advances).not_open
      | evaluated => exact .evaluated
      | fulfilled q hq hqf => exact .fulfilled q hq (hqf.advance hsteady.advances)
  · have hok := h.guardOk g guard hg
    unfold GuardOk at hok ⊢
    cases haction : guard.action with
    | evaluate n =>
      simp only [haction] at hok ⊢
      refine fun hpos => howns n _ ?_ (hok hpos)
      rintro rfl
      exact hwaits g guard hg haction hpos
    | resolve value =>
      simp only [haction] at hok ⊢
      obtain ⟨hq, hqo, hqf⟩ := hok
      exact ⟨hq, fun hpos => hsteady.opens _ (hne _ _ hq (by simp)) (hqo hpos),
        fun hzero => (hqf hzero).advance hsteady.advances⟩
  · refine (h.accounted g guard hg).grow h.owner hgrow rfl fun d => ?_
    rw [show after.loop.Untaken d ↔ vm.loop.Untaken d from Untaken.congr hsteady.dispatched d]
    exact Iff.rfl
  · rw [show after.loop.evaluationJobs = vm.loop.evaluationJobs from hsteady.queue] at hq
    exact howns n q (fun heq => hjobs q (heq ▸ hq)) (h.task n q hq)
  · have hok := h.body n q c (hbodies n q c hb)
    exact hok.grow hgrow (hsteady.opens c (hne c _ hok.owned (by simp)) hok.waits) hok.runs
  · obtain ⟨hco, n, hn⟩ := h.suspended c hc
    exact ⟨hsteady.opens c (hne c _ hn (by simp)) hco, n, hn⟩
  · rw [hwalks] at hn
    obtain ⟨q, hq⟩ := h.walk n hn
    exact ⟨q, howns n q (fun heq => hwalk (heq ▸ hn)) hq⟩
  · rw [hsyncs] at hn
    have hsync := h.sync n hn
    rw [hother n, hsync]
    rintro rfl
    rw [ho] at hsync
    cases hsync

/-- `finish_async_module`, for a body that was started. -/
theorem finishBody (he : vm.records.evaluation id = some p) (method : Value) :
    Kept vm calls.walks (vm.finishAsyncModule id p (.ok ()) (.found method false)) calls'
      missing := by
  obtain ⟨state, hstate⟩ := evaluation_iff.1 he
  cases h.record id state (some p) hstate with
  | evaluating _ howned hopen hdriven =>
    exact finish _ h hwalk hwaits hjobs hwalks hsyncs hbodies hgoes hstate method
  | fulfilled _ howned hdone =>
    simp only [finishAsyncModule, isPending_fulfilled hdone, Bool.false_eq_true, if_false]
    refine leave h (fun n hn => by rwa [← hwalks]) (fun _ => by rw [hsyncs])
      (fun n q c hb => h.body n q c (hbodies n q c hb)) fun n q ho hd => ?_
    have hne : n ≠ id := by
      rintro rfl
      rw [Owns, hstate] at ho
      cases ho
    cases hd with
    | active call => exact .active (hgoes n call hne)
    | waiting g guard hg ha hpos => exact .waiting g guard hg ha hpos
    | queued job => exact .queued job
    | suspended d c hd hderives huntaken hc hw => exact .suspended d c hd hderives huntaken hc hw

end

/-- `start_async_module` takes in a module, whose evaluation promise is new. -/
theorem enter (h : vm.Lively calls missing) {record : LinkedModule}
    (hr : vm.records id = some record) (hl : record.state = .linked)
    (hwalks : ∀ n, calls'.walks n ↔ calls.walks n ∨ n = id) (hsyncs : calls'.syncs = calls.syncs)
    (hbodies : calls'.bodies = calls.bodies) (hgoes : ∀ n, calls.goes n ∨ n = id → calls'.goes n) :
    let after := (vm.pendingPromise (.evaluation id)).2.modify id fun record =>
      { record with evaluation := some vm.loop.next, state := .evaluating }
    after.Lively calls' missing ∧ Grows vm calls.walks after calls'.walks ∧
      after.Owns id vm.loop.next ∧ ∀ n, after.Visited n → vm.Visited n ∨ n = id := by
  have hnone : record.evaluation = none := by
    have hok := h.record id record.state record.evaluation (by simp [progress, hr])
    rw [hl] at hok
    generalize record.evaluation = evaluation at hok
    cases hok with
    | linked => rfl
  have hprogress : vm.progress id = some (.linked, none) := by simp [progress, hr, hl, hnone]
  let taken : LinkedModule → LinkedModule := fun record =>
    { record with evaluation := some vm.loop.next, state := .evaluating }
  intro after
  have hsteady : Steady (fun p => ∃ role, vm.owned p = some role) vm.loop after.loop :=
    .create h.sound rfl rfl
  have hself : after.Owns id vm.loop.next := by
    rw [Owns, show after.progress id =
      ((vm.pendingPromise (.evaluation id)).2.modify id taken).progress id from rfl,
      progress_modify_self]
    show (vm.records id).map _ = _
    rw [hr]
    rfl
  have hother : ∀ n, n ≠ id → after.progress n = vm.progress n := fun n hn =>
    progress_modify_of_ne (vm.pendingPromise (.evaluation id)).2 taken hn
  have hne : ∀ q role, vm.owned q = some role → q ≠ vm.loop.next := by
    rintro q role hq rfl
    rw [h.ownedFresh (Nat.le_refl _)] at hq
    cases hq
  have howned : ∀ q role, vm.owned q = some role → after.owned q = some role :=
    fun q role hq => (PMap.insert_of_ne (hne q role hq)).trans hq
  have hnew : after.owned vm.loop.next = some (.evaluation id) := PMap.insert_self
  have hopen : after.loop.Open vm.loop.next := ⟨_, PMap.insert_self, rfl, rfl, rfl⟩
  have hopens := fun p role (hp : vm.owned p = some role) => hsteady.opens p ⟨role, hp⟩
  have hnotid : ∀ n q, vm.Owns n q → n ≠ id := by
    rintro n q hq rfl
    rw [Owns, hprogress] at hq
    cases hq
  have howns : ∀ n q, vm.Owns n q → after.Owns n q := by
    intro n q hq
    rw [Owns, hother n (hnotid n q hq)]
    exact hq
  have hgrow : Grows vm calls.walks after calls'.walks := by
    refine ⟨hsteady.advances, howned, fun n q he => ?_,
      started_modify _ id fun _ => Nat.le_refl _, fun n q _ hq => howns n q hq,
      fun g guard hg => ⟨guard, hg, rfl, rfl⟩, fun g guard hg => .inl ⟨guard, hg, rfl⟩,
      fun n hn => ?_, plan_modify (vm.pendingPromise (.evaluation id)).2 id fun _ => rfl,
      fun n hn => ?_⟩
    · have hn : n ≠ id := by
        rintro rfl
        obtain ⟨state, hstate⟩ := evaluation_iff.1 he
        rw [hprogress] at hstate
        cases hstate
      rw [evaluation_iff, hother n hn]
      exact evaluation_iff.1 he
    · rcases (hwalks n).1 hn with hw | rfl
      · exact .inl hw
      · refine .inr ?_
        rw [Records.evaluation, hr]
        exact hnone
    · by_cases hni : n = id
      · subst hni
        simp [Visited, show after.progress n = some (.evaluating, some vm.loop.next) from hself]
      · rwa [Visited, hother n hni]
  refine ⟨⟨hsteady.advances.sound, fun q role hq => ?_, fun q n hq => ?_, fun n state e hn => ?_,
    fun g guard hg => ?_, fun g guard hg => ?_, fun n q hq => ?_, fun n q c hb => ?_,
    fun d handler hd => (h.handler d handler hd).grow hgrow, fun c hc => ?_, fun n hn => ?_,
    fun n hn => ?_⟩, hgrow, hself, fun n hn => ?_⟩
  · by_cases hqn : q = vm.loop.next
    · subst hqn
      exact .inl hopen
    · have hold : vm.owned q = some role := (PMap.insert_of_ne hqn).symm.trans hq
      exact (h.owned q role hold).imp (hopens q role hold) (·.advance hsteady.advances)
  · by_cases hqn : q = vm.loop.next
    · subst hqn
      rw [hnew] at hq
      cases hq
      exact hself.evaluation
    · exact hgrow.evaluation n q (h.owner q n ((PMap.insert_of_ne hqn).symm.trans hq))
  · by_cases hni : n = id
    · subst hni
      rw [show after.progress n = some (.evaluating, some vm.loop.next) from hself] at hn
      cases hn
      exact .evaluating _ hnew hopen (.active (hgoes n (.inr rfl)))
    · rw [hother n hni] at hn
      cases h.record n state e hn with
      | linked => exact .linked
      | sync call => exact .sync (by rwa [hsyncs])
      | evaluating q hq hqo hd =>
        refine .evaluating q (howned q _ hq) (hopens q _ hq hqo) ?_
        refine hd.grow hgrow (fun hg => hgoes n (.inl hg)) (fun _ _ hg _ => hg)
          (hsteady.queue.evaluations n) (fun _ _ hd => hd) hsteady.dispatched
          fun c hc hw hco => ?_
        rcases h.owned c _ hc with ho' | hf
        · exact hw ho'
        · exact absurd hco (hf.advance hsteady.advances).not_open
      | evaluated => exact .evaluated
      | fulfilled q hq hqf =>
        exact .fulfilled q (howned q _ hq) (hqf.advance hsteady.advances)
  · exact (h.guardOk g guard hg).grow hgrow howns fun p g hp ho => hopens p _ hp ho
  · refine (h.accounted g guard hg).grow h.owner hgrow rfl fun d => ?_
    rw [show after.loop.Untaken d ↔ vm.loop.Untaken d from Untaken.congr hsteady.dispatched d]
    exact Iff.rfl
  · exact howns n q (h.task n q hq)
  · rw [hbodies] at hb
    have hok := h.body n q c hb
    exact hok.grow hgrow (hopens c _ hok.owned hok.waits) hok.runs
  · obtain ⟨hco, n, hn⟩ := h.suspended c hc
    exact ⟨hopens c _ hn hco, n, howned c _ hn⟩
  · rcases (hwalks n).1 hn with hw | rfl
    · obtain ⟨q, hq⟩ := h.walk n hw
      exact ⟨q, howns n q hq⟩
    · exact ⟨_, hself⟩
  · rw [hsyncs] at hn
    have hsync := h.sync n hn
    rw [hother n, hsync]
    rintro rfl
    rw [hprogress] at hsync
    cases hsync
  · by_cases hni : n = id
    · exact .inr hni
    · exact .inl (by rwa [Visited, ← hother n hni])

/-- `evaluate_linked_module` takes in a module, or is done with it. -/
theorem sync (calls' : Calls) (state' : ModuleState) (f : LinkedModule → LinkedModule)
    (evaluating : List Nat) (h : vm.Lively calls missing) {state : ModuleState}
    (hid : vm.progress id = some (state, none))
    (hf : ∀ record, (f record).state = state' ∧ (f record).evaluation = record.evaluation ∧
      (f record).started = record.started ∧ (f record).requests = record.requests)
    (hstate : state' = .evaluating ∧ calls'.syncs id ∨ state' = .evaluated ∧ ¬ calls'.syncs id)
    (hwalks : calls'.walks = calls.walks)
    (hsyncs : ∀ n, n ≠ id → (calls'.syncs n ↔ calls.syncs n))
    (hbodies : calls'.bodies = calls.bodies) (hgoes : calls'.goes = calls.goes) :
    let after : Vm := { vm.modify id f with evaluating := evaluating }
    after.Lively calls' missing ∧ Grows vm calls.walks after calls'.walks ∧
      ∀ n, after.Visited n → vm.Visited n ∨ n = id := by
  intro after
  have hself : after.progress id = some (state', none) := by
    rw [show after.progress id = (vm.modify id f).progress id from rfl, progress_modify_self]
    obtain ⟨record, hr, heq⟩ := Option.map_eq_some_iff.1 hid
    simp only [Prod.mk.injEq] at heq
    rw [hr, Option.map_some, (hf record).1, (hf record).2.1, heq.2]
  have hother : ∀ n, n ≠ id → after.progress n = vm.progress n :=
    fun n hn => progress_modify_of_ne vm f hn
  have howns : ∀ n q, vm.Owns n q → after.Owns n q := by
    intro n q hq
    rw [Owns, hother n, hq]
    rintro rfl
    rw [Owns, hid] at hq
    cases hq
  have hgrow : Grows vm calls.walks after calls'.walks := by
    refine ⟨.refl h.sound, fun _ _ hq => hq, fun n q he => ?_,
      started_modify vm id fun record => Nat.le_of_eq (hf record).2.2.1.symm,
      fun n q _ hq => howns n q hq, fun g guard hg => ⟨guard, hg, rfl, rfl⟩,
      fun g guard hg => .inl ⟨guard, hg, rfl⟩, fun n hn => .inl (by rwa [← hwalks]),
      plan_modify vm id fun record => (hf record).2.2.2, fun n hn => ?_⟩
    · obtain ⟨s, hs⟩ := evaluation_iff.1 he
      rw [evaluation_iff, hother n]
      · exact ⟨s, hs⟩
      · rintro rfl
        rw [hid] at hs
        cases hs
    · by_cases hni : n = id
      · subst hni
        rcases hstate with ⟨rfl, -⟩ | ⟨rfl, -⟩
        · simp [Visited, hself]
        · simp [Visited, hself]
      · rwa [Visited, hother n hni]
  refine ⟨?_, hgrow, fun n hn => ?_⟩
  rotate_left
  · by_cases hni : n = id
    · exact .inr hni
    · exact .inl (by rwa [Visited, ← hother n hni])
  refine ⟨h.sound, h.owned, fun q n hq => hgrow.evaluation n q (h.owner q n hq), fun n s e hn => ?_,
    fun g guard hg => (h.guardOk g guard hg).grow hgrow howns fun _ _ _ ho => ho,
    fun g guard hg => (h.accounted g guard hg).grow h.owner hgrow rfl fun _ => Iff.rfl,
    fun n q hq => howns n q (h.task n q hq), fun n q c hb => ?_,
    fun d handler hd => (h.handler d handler hd).grow hgrow, h.suspended, fun n hn => ?_,
    fun n hn => ?_⟩
  · by_cases hni : n = id
    · subst hni
      rw [hself] at hn
      cases hn
      rcases hstate with ⟨rfl, hsync⟩ | ⟨rfl, -⟩
      · exact .sync hsync
      · exact .evaluated
    · rw [hother n hni] at hn
      cases h.record n s e hn with
      | linked => exact .linked
      | sync call => exact .sync ((hsyncs n hni).2 call)
      | evaluating q hq hqo hd =>
        exact .evaluating q hq hqo (hd.grow hgrow (fun hg => by rwa [hgoes]) (fun _ _ hg _ => hg)
          rfl (fun _ _ hd => hd) rfl fun _ _ hw ho => hw ho)
      | evaluated => exact .evaluated
      | fulfilled q hq hqf => exact .fulfilled q hq hqf
  · rw [hbodies] at hb
    exact (h.body n q c hb).grow hgrow (h.body n q c hb).waits (h.body n q c hb).runs
  · rw [hwalks] at hn
    obtain ⟨q, hq⟩ := h.walk n hn
    exact ⟨q, howns n q hq⟩
  · by_cases hni : n = id
    · subst hni
      rcases hstate with ⟨rfl, -⟩ | ⟨rfl, hnot⟩
      · exact hself
      · exact absurd hn hnot
    · rw [hother n hni]
      exact h.sync n ((hsyncs n hni).1 hn)

/-- The body of a module is started. -/
theorem start (calls' : Calls) (h : vm.Lively calls missing) (ho : vm.Owns id p)
    (hwalks : ∀ n, calls'.walks n → calls.walks n)
    (hsyncs : ∀ n, calls'.syncs n ↔ calls.syncs n)
    (hbodies : ∀ id' p' c', calls'.bodies id' p' c' →
      calls.bodies id' p' c' ∨ id' = id ∧ p' = p ∧ c' = vm.loop.next)
    (hgoes : ∀ n, calls.goes n → calls'.goes n) :
    (vm.startBody id p).1 = some vm.loop.next ∧
      Kept vm calls.walks (vm.startBody id p).2 calls' missing ∧
      ∀ id' p' c', calls.bodies id' p' c' → c' ≠ vm.loop.next := by
  obtain ⟨hopen, -, -⟩ := h.waits ho
  obtain ⟨record, hr, -⟩ := Option.map_eq_some_iff.1 ho
  let counted : Vm :=
    { vm.modify id (fun record => { record with started := record.started + 1 }) with
      evaluating := id :: vm.evaluating.filter (· ≠ id) }
  have hstart : vm.startBody id p =
      (some vm.loop.next, (counted.pendingPromise (.completion id)).2) := by
    simp only [startBody, isPending_open hopen, ho.evaluation, if_true]
    rfl
  have hprogress : counted.progress = vm.progress := by
    funext n
    by_cases hn : n = id
    · subst hn
      rw [show counted.progress n = (vm.modify n fun record =>
        { record with started := record.started + 1 }).progress n from rfl, progress_modify_self]
      rfl
    · exact progress_modify_of_ne vm _ hn
  have hstarted : 0 < counted.started id := by
    simp [counted, Vm.started, modify, Records.modify_self, hr]
  have hcounted : Kept vm calls.walks counted calls missing :=
    records h hprogress (plan_modify vm id fun _ => rfl)
      (started_modify vm id fun _ => Nat.le_succ _) rfl rfl rfl rfl rfl
  refine ⟨by rw [hstart], ?_, fun id' p' c' hb => ?_⟩
  · rw [hstart]
    have hown : Kept vm calls.walks (counted.pendingPromise (.completion id)).2 calls missing :=
      hcounted.bind fun h' => own h' (by simp)
    refine hown.bind fun h' => ?_
    refine leave h' hwalks hsyncs (fun id' p' c' hb => ?_) fun n q _ hd => ?_
    · rcases hbodies id' p' c' hb with hb | ⟨rfl, rfl, rfl⟩
      · exact h'.body id' p' c' hb
      · refine ⟨?_, hstarted, PMap.insert_self, ⟨_, PMap.insert_self, rfl, rfl, rfl⟩,
          fun hmem => ?_⟩
        · rw [evaluation_iff, show (counted.pendingPromise (.completion id')).2.progress =
            vm.progress from hprogress]
          exact evaluation_iff.1 ho.evaluation
        · obtain ⟨-, n, hn⟩ := h.suspended _ hmem
          rw [h.ownedFresh (Nat.le_refl _)] at hn
          cases hn
    · cases hd with
      | active call => exact .active (hgoes n call)
      | waiting g guard hg ha hpos => exact .waiting g guard hg ha hpos
      | queued job => exact .queued job
      | suspended d c hd hderives huntaken hc hw =>
        exact .suspended d c hd hderives huntaken hc hw
  · rintro rfl
    have hc := (h.body id' p' _ hb).owned
    rw [h.ownedFresh (Nat.le_refl _)] at hc
    cases hc

/-! ## Jobs -/

theorem derives_of_handlerOf (hjob : vm.handlerOf job = some handler) :
    ∃ d, job.derives d = true ∧ vm.handlers d = some handler := by
  cases job with
  | reaction source state value r => exact ⟨r.derived, by simp [Job.derives], hjob⟩
  | resolveThenable target thenable method g => cases hjob
  | _ => cases hjob

theorem handlerOf_of_derives (hd : job.derives d = true) : vm.handlerOf job = vm.handlers d := by
  cases job with
  | reaction source state value r => rw [handlerOf, beq_iff_eq.1 hd]
  | resolveThenable target thenable method g => cases hd
  | _ => cases hd

/-- A job that is queued was not taken before. -/
theorem untaken_of_queued {w : EventLoop} (hs : w.Sound) (hderives : w.Derives d p)
    (hjob : job ∈ w.microtasks) (hd : job.derives d = true) : w.Untaken d := by
  have hfound : ∃ i, w.promises p = some i := by
    obtain ⟨r, hr⟩ := hderives.one
    cases hp : w.promises p with
    | none => simp [derivations, hp] at hr
    | some i => exact ⟨i, rfl⟩
  obtain ⟨i, hi⟩ := hfound
  have honce := hderives.job_once hs hi
  have hle : (w.jobsFor d).length ≤ 1 := by
    rw [honce]
    split <;> omega
  have hqueued : 0 < (w.microtasks.filter (Job.derives d)).length :=
    List.length_pos_of_mem (List.mem_filter.2 ⟨hjob, hd⟩)
  rw [jobsFor, List.filter_append, List.length_append] at hle
  have hnone : w.dispatched.filter (Job.derives d) = [] := by
    rw [← List.length_eq_zero_iff]
    omega
  intro job' hjob'
  have := List.filter_eq_nil_iff.1 hnone job' hjob'
  simpa using this

theorem derives_of_handler (h : vm.Lively calls missing) (hd : vm.handlers d = some handler) :
    ∃ q, vm.loop.Derives d q := by
  have hok := h.handler d handler hd
  cases handler with
  | dependency g => exact hok.2
  | body id p =>
    obtain ⟨-, -, c, hc, -⟩ := hok
    exact ⟨c, hc⟩

/-- **A job is taken**; what it was for is up to the call that runs it. -/
theorem take (calls' : Calls) (h : vm.Lively calls missing) {rest : List Job}
    (hq : vm.loop.microtasks = job :: rest) (hd : vm.loop.perform .dispatch = some loop)
    (hwalks : calls'.walks = calls.walks) (hsyncs : calls'.syncs = calls.syncs)
    (hbodies : calls'.bodies = calls.bodies) (hgoes : ∀ n, calls.goes n → calls'.goes n)
    (htask : ∀ n p, job.evaluation = some (n, p) → calls'.goes n)
    (hbody : ∀ n p, vm.handlerOf job = some (.body n p) → calls'.goes n) :
    Kept vm calls.walks { vm with loop := loop } calls' fun g =>
      if vm.handlerOf job = some (.dependency g) then missing g + 1 else missing g := by
  have hadvances := Advances.perform h.sound hd
  have hopen : ∀ {q}, vm.loop.Open q → loop.Open q :=
    fun ho => open_perform h.sound ho (by simp [Act.target]) hd
  have hjobs := evaluationJobs_dispatch hq hd
  have hdispatched : loop.dispatched = vm.loop.dispatched ++ [job] := by
    rcases dispatched_perform hd with ⟨hne, -⟩ | ⟨job', rest', -, hq', heq⟩
    · exact absurd rfl hne
    · rw [hq] at hq'
      cases hq'
      exact heq
  have huntaken : ∀ d, loop.Untaken d ↔ vm.loop.Untaken d ∧ job.derives d = false := by
    intro d
    simp only [Untaken, hdispatched, List.mem_append, List.mem_singleton, or_imp, forall_and,
      forall_eq]
  have hgrow : Grows vm calls.walks { vm with loop := loop } calls'.walks := by
    rw [hwalks]
    exact .of_loop hadvances (fun _ _ hp => hp) rfl rfl
  have hwithin : ∀ n, calls'.walks n → calls.walks n := fun n hn => by rwa [← hwalks]
  refine ⟨?_, hgrow, hwithin, fun _ hn => hn⟩
  refine h.next hgrow rfl (fun _ _ _ ho => .inl (hopen ho)) (fun _ _ _ ho => hopen ho)
    (fun _ _ hp => .inl hp) ?_ ?_ ?_ ?_ ?_ (fun _ _ hd => .inl hd) ?_ hwithin
    fun _ => by rw [hsyncs]
  · intro id p _ hdriven
    cases hdriven with
    | active call => exact .active (hgoes id call)
    | waiting g guard hg ha hpos => exact .waiting g guard hg ha hpos
    | queued queued =>
      rw [evaluations, ← hjobs, List.countP_append] at queued
      by_cases hleft : 0 < loop.evaluations id
      · exact .queued hleft
      · have hpos : 0 < job.evaluation.toList.countP (·.1 == id) := by
          unfold evaluations at hleft
          omega
        obtain ⟨pair, hmem, heq⟩ := List.countP_pos_iff.1 hpos
        rw [Option.mem_toList] at hmem
        rw [← beq_iff_eq.1 heq]
        exact .active (htask pair.1 pair.2 hmem)
    | suspended d c hhandler hderives hd hc hw =>
      cases hjob : job.derives d with
      | true => exact .active (hbody id p (by rw [handlerOf_of_derives hjob, hhandler]))
      | false =>
        refine .suspended d c hhandler (hderives.evolve hadvances.evolves)
          ((huntaken d).2 ⟨hd, hjob⟩) hc fun ho => ?_
        rcases h.owned c _ hc with ho' | hf
        · exact hw ho'
        · exact absurd ho (hf.advance hadvances).not_open
  · intro g guard hg
    exact (h.guardOk g guard hg).grow hgrow (fun _ _ ho => ho) fun _ _ _ ho => hopen ho
  · intro g guard hg
    split
    · -- the reaction of the guard that the job runs
      rename_i hhandler
      obtain ⟨d, hjob, hdependency⟩ := derives_of_handlerOf hhandler
      obtain ⟨q, hderives⟩ := derives_of_handler h hdependency
      have huntaken' := untaken_of_queued h.sound hderives (hq ▸ List.mem_cons_self) hjob
      obtain ⟨ds, hnodup, hmem, hlen, hsource⟩ := h.accounted g guard hg
      have hd : d ∈ ds := (hmem d).2 ⟨hdependency, huntaken'⟩
      have hone : ∀ d', job.derives d' = true → d' = d := by
        intro d' hjob'
        cases job with
        | reaction source state value r =>
          exact (beq_iff_eq.1 hjob').symm.trans (beq_iff_eq.1 hjob)
        | resolveThenable target thenable method g => cases hjob
        | _ => cases hjob
      refine ⟨ds.erase d, hnodup.erase d, fun d' => ?_, ?_, fun d' hd' => ?_⟩
      · rw [hnodup.mem_erase_iff, hmem d', huntaken d']
        constructor
        · rintro ⟨hne, hh, hu⟩
          refine ⟨hh, hu, ?_⟩
          by_contra hjob'
          exact hne (hone d' (by simpa using hjob'))
        · rintro ⟨hh, hu, hjob'⟩
          refine ⟨?_, hh, hu⟩
          rintro rfl
          rw [hjob] at hjob'
          cases hjob'
      · have hpos := List.length_pos_of_mem hd
        rw [List.length_erase_of_mem hd]
        omega
      · obtain ⟨q', hq', hs⟩ := hsource d' (List.mem_of_mem_erase hd')
        exact ⟨q', hq'.evolve hadvances.evolves, hs.grow h.owner hgrow (Nat.le_refl _)⟩
    · rename_i hhandler
      refine (h.accounted g guard hg).grow h.owner hgrow rfl fun d => ?_
      rw [huntaken d]
      constructor
      · rintro ⟨hh, hu, -⟩
        exact ⟨hh, hu⟩
      · rintro ⟨hh, hu⟩
        refine ⟨hh, hu, ?_⟩
        by_contra hjob
        exact hhandler (by rw [handlerOf_of_derives (by simpa using hjob)]; exact hh)
  · intro id p hmem
    exact h.task id p (by rw [← hjobs]; exact List.mem_append_right _ hmem)
  · intro id p c hb
    rw [hbodies] at hb
    have hok := h.body id p c hb
    exact hok.grow hgrow (hopen hok.waits) hok.runs
  · intro c hc
    obtain ⟨ho, id, hid⟩ := h.suspended c hc
    exact ⟨hopen ho, id, hid⟩

end Kept

end Vm

end NapiVm.Modules
