import NapiVm.Module.Once

/-!
# What keeps module evaluation going

A module that is being evaluated asynchronously has something that will go on with it: a
call that is under way, a guard with dependencies that are not done, a queued job, or a
body that waits.  And what a guard waits for was there before the guard: a module that
was walked to its end, or an earlier guard's result.  So nothing waits in a circle.

* `Vm.Source` — what may be waited for.
* `Vm.Lively` — the invariant, for given calls under way.
* `Lively.next` — what a part of a step has to give to keep it.
-/

namespace NapiVm.Modules

open Promises EventLoop

/-- What the calls under way are about. -/
structure Calls where
  /-- The modules in whose loop an asynchronous call is. -/
  walks : Nat → Prop
  /-- The modules that a synchronous call evaluates. -/
  syncs : Nat → Prop
  /-- The bodies that run, with the evaluation promise and the completion promise. -/
  bodies : Nat → Nat → Nat → Prop
  /-- The modules a call will go on with. -/
  goes : Nat → Prop

namespace Vm

/-! ## Modules, guards and reactions -/

/-- How far a module is: its state and its evaluation promise. -/
def progress (vm : Vm) (id : Nat) : Option (ModuleState × Option Nat) :=
  (vm.records id).map fun record => (record.state, record.evaluation)

/-- What a module asks for. -/
def plan (vm : Vm) (id : Nat) : Option (List ModuleRequest) :=
  (vm.records id).map LinkedModule.requests

/-- Some call has taken the module in, or there is none. -/
def Visited (vm : Vm) (id : Nat) : Prop := ∀ evaluation, vm.progress id ≠ some (.linked, evaluation)

/-- The module is being evaluated, and this is its evaluation promise. -/
def Owns (vm : Vm) (id p : Nat) : Prop := vm.progress id = some (.evaluating, some p)

/-- What the guard number `k` may wait for, when the modules of `W` are being walked: a
fulfilled promise, a module that was walked before, or the result of an earlier guard. -/
inductive Source (vm : Vm) (W : Nat → Prop) (k q : Nat) : Prop where
  | fulfilled (done : vm.loop.Fulfilled q)
  | evaluation (n : Nat) (owned : vm.owned q = some (.evaluation n)) (left : ¬ W n)
      (before : ∀ g guard, vm.guards[g]? = some guard → guard.action = .evaluate n → g < k)
  | result (g : Nat) (guard : Guard) (lt : g < k) (found : vm.guards[g]? = some guard)
      (target : guard.target = q) (action : ∃ value, guard.action = .resolve value)

/-- What goes on with a module; `G` says for which ones a call that is under way does. -/
inductive Driven (vm : Vm) (G : Nat → Prop) (id p : Nat) : Prop where
  | active (call : G id)
  | waiting (g : Nat) (guard : Guard) (found : vm.guards[g]? = some guard)
      (action : guard.action = .evaluate id) (remaining : 0 < guard.remaining)
  | queued (job : 0 < vm.loop.evaluations id)
  | suspended (d c : Nat) (handler : vm.handlers d = some (.body id p))
      (derives : vm.loop.Derives d c) (untaken : vm.loop.Untaken d)
      (owned : vm.owned c = some (.completion id)) (waits : vm.loop.Open c → c ∈ vm.suspended)

/-- The reactions of a guard that have not run are as many as it counts, but for some. -/
def Accounted (vm : Vm) (W : Nat → Prop) (g : Nat) (guard : Guard) (missing : Nat) : Prop :=
  ∃ ds : List Nat, ds.Nodup ∧
    (∀ d, d ∈ ds ↔ vm.handlers d = some (.dependency g) ∧ vm.loop.Untaken d) ∧
    (ds.length + missing : Int) = guard.remaining ∧
    ∀ d ∈ ds, ∃ q, vm.loop.Derives d q ∧ vm.Source W g q

/-- A guard that waits has its target open. -/
def GuardOk (vm : Vm) (g : Nat) (guard : Guard) : Prop :=
  match guard.action with
  | .evaluate id => 0 < guard.remaining → vm.Owns id guard.target
  | .resolve _ => vm.owned guard.target = some (.namespaceResult g) ∧
      (0 < guard.remaining → vm.loop.Open guard.target) ∧
      (guard.remaining = 0 → vm.loop.Fulfilled guard.target)

/-- How far a module may be, and what there is then. -/
inductive RecordOk (vm : Vm) (calls : Calls) (id : Nat) : ModuleState → Option Nat → Prop where
  | linked : RecordOk vm calls id .linked none
  | sync (call : calls.syncs id) : RecordOk vm calls id .evaluating none
  | evaluating (p : Nat) (owned : vm.owned p = some (.evaluation id)) (waits : vm.loop.Open p)
      (driven : vm.Driven calls.goes id p) : RecordOk vm calls id .evaluating (some p)
  | evaluated : RecordOk vm calls id .evaluated none
  | fulfilled (p : Nat) (owned : vm.owned p = some (.evaluation id))
      (done : vm.loop.Fulfilled p) : RecordOk vm calls id .evaluated (some p)

/-- What a handler is registered for. -/
def HandlerOk (vm : Vm) (d : Nat) : Handler → Prop
  | .dependency g => g < vm.guards.length ∧ ∃ q, vm.loop.Derives d q
  | .body id p => vm.records.evaluation id = some p ∧ 0 < vm.started id ∧
      ∃ c, vm.loop.Derives d c ∧ vm.owned c = some (.completion id)

/-- What there is for a body that runs. -/
structure BodyOk (vm : Vm) (id p c : Nat) : Prop where
  evaluation : vm.records.evaluation id = some p
  started : 0 < vm.started id
  owned : vm.owned c = some (.completion id)
  waits : vm.loop.Open c
  runs : c ∉ vm.suspended

/-- **The invariant**, for the calls under way, when `missing g` of the reactions that the
guard `g` counts were not made yet, or have run. -/
structure Lively (vm : Vm) (calls : Calls) (missing : Nat → Nat) : Prop where
  sound : vm.loop.Sound
  owned : ∀ p role, vm.owned p = some role → vm.loop.Open p ∨ vm.loop.Fulfilled p
  owner : ∀ p id, vm.owned p = some (.evaluation id) → vm.records.evaluation id = some p
  record : ∀ id state evaluation, vm.progress id = some (state, evaluation) →
    vm.RecordOk calls id state evaluation
  guardOk : ∀ g guard, vm.guards[g]? = some guard → vm.GuardOk g guard
  accounted : ∀ g guard, vm.guards[g]? = some guard → vm.Accounted calls.walks g guard (missing g)
  task : ∀ id p, (id, p) ∈ vm.loop.evaluationJobs → vm.Owns id p
  body : ∀ id p c, calls.bodies id p c → vm.BodyOk id p c
  handler : ∀ d handler, vm.handlers d = some handler → vm.HandlerOk d handler
  suspended : ∀ c ∈ vm.suspended, vm.loop.Open c ∧ ∃ id, vm.owned c = some (.completion id)
  walk : ∀ id, calls.walks id → ∃ p, vm.Owns id p
  sync : ∀ id, calls.syncs id → vm.progress id = some (.evaluating, none)

variable {vm vm' : Vm} {calls calls' : Calls} {W W' G G' : Nat → Prop}
  {missing missing' : Nat → Nat}

variable {id p k : Nat}

theorem evaluation_iff :
    vm.records.evaluation id = some p ↔ ∃ state, vm.progress id = some (state, some p) := by
  unfold Records.evaluation progress
  cases vm.records id with
  | none => simp
  | some record => simp

theorem Owns.evaluation (h : vm.Owns id p) : vm.records.evaluation id = some p :=
  evaluation_iff.2 ⟨_, h⟩

section

variable (h : vm.Lively calls missing)

include h

/-- The evaluation promise of a module, while it is open. -/
theorem Lively.owns (he : vm.records.evaluation id = some p) (hp : vm.loop.Open p) :
    vm.Owns id p := by
  obtain ⟨state, hstate⟩ := evaluation_iff.1 he
  cases h.record id state (some p) hstate with
  | evaluating _ howned hopen hdriven => exact hstate
  | fulfilled _ howned hdone => exact absurd hp hdone.not_open

theorem Lively.waits (ho : vm.Owns id p) :
    vm.loop.Open p ∧ vm.owned p = some (.evaluation id) ∧ vm.Driven calls.goes id p := by
  cases h.record id _ _ ho with
  | evaluating _ howned hopen hdriven => exact ⟨hopen, howned, hdriven⟩

/-- A promise of the evaluator is there. -/
theorem Lively.ownedFound {role : Role} (hp : vm.owned p = some role) :
    ∃ i, vm.loop.promises p = some i := by
  rcases h.owned p role hp with ⟨i, hi, -⟩ | ⟨i, hi, -⟩
  · exact ⟨i, hi⟩
  · exact ⟨i, hi⟩

/-- New promises have no role. -/
theorem Lively.ownedFresh (hp : vm.loop.next ≤ p) : vm.owned p = none := by
  cases howned : vm.owned p with
  | none => rfl
  | some role =>
    obtain ⟨i, hi⟩ := h.ownedFound howned
    rw [h.sound.freshPromise p hp] at hi
    cases hi

/-- New promises are derived by no reaction of the evaluator. -/
theorem Lively.handlerFresh {d : Nat} (hd : vm.loop.next ≤ d) : vm.handlers d = none := by
  cases hhandler : vm.handlers d with
  | none => rfl
  | some handler =>
    have hderives : ∃ q, vm.loop.Derives d q := by
      have hok := h.handler d handler hhandler
      cases handler with
      | dependency g => exact hok.2
      | body id p =>
        obtain ⟨-, -, c, hc, -⟩ := hok
        exact ⟨c, hc⟩
    obtain ⟨q, hq⟩ := hderives
    obtain ⟨e, he, -⟩ := hq.known
    rw [h.sound.freshPromise d hd] at he
    cases he

/-- A source is open or fulfilled. -/
theorem Lively.source {q : Nat} (hq : vm.Source W k q) : vm.loop.Open q ∨ vm.loop.Fulfilled q := by
  cases hq with
  | fulfilled done => exact .inr done
  | evaluation n howned hleft hbefore => exact h.owned q _ howned
  | result g guard hlt hg htarget haction =>
    obtain ⟨value, hvalue⟩ := haction
    have hok := h.guardOk g guard hg
    simp only [GuardOk, hvalue] at hok
    rw [← htarget]
    exact h.owned _ _ hok.1

end

/-! ## What stays -/

/-- What a part of a step may add. -/
structure Grows (vm : Vm) (W : Nat → Prop) (vm' : Vm) (W' : Nat → Prop) : Prop where
  advances : Advances vm.loop vm'.loop
  owned : ∀ p role, vm.owned p = some role → vm'.owned p = some role
  evaluation : ∀ id p, vm.records.evaluation id = some p → vm'.records.evaluation id = some p
  started : ∀ id, vm.started id ≤ vm'.started id
  owns : ∀ id p, W' id → vm.Owns id p → vm'.Owns id p
  guards : ∀ (g : Nat) (guard : Guard), vm.guards[g]? = some guard → ∃ guard' : Guard,
    vm'.guards[g]? = some guard' ∧ guard'.target = guard.target ∧ guard'.action = guard.action
  newGuards : ∀ (g : Nat) (guard' : Guard), vm'.guards[g]? = some guard' →
    (∃ guard : Guard, vm.guards[g]? = some guard ∧ guard.action = guard'.action) ∨
      ∀ n, guard'.action = .evaluate n → W n
  walks : ∀ n, W' n → W n ∨ vm.records.evaluation n = none
  plan : vm'.plan = vm.plan
  visits : ∀ n, vm.Visited n → vm'.Visited n

/-- Parts of a step that leave the guards and the modules as they are. -/
theorem Grows.of_same (ha : Advances vm.loop vm'.loop)
    (howned : ∀ p role, vm.owned p = some role → vm'.owned p = some role)
    (hprogress : vm'.progress = vm.progress) (hplan : vm'.plan = vm.plan)
    (hstarted : ∀ id, vm.started id ≤ vm'.started id)
    (hguards : vm'.guards = vm.guards) (hW : ∀ n, W' n → W n) : Grows vm W vm' W' where
  advances := ha
  owned := howned
  evaluation id p he := by
    rw [evaluation_iff, hprogress]
    exact evaluation_iff.1 he
  started := hstarted
  owns id p _ ho := by rwa [Owns, hprogress]
  guards g guard hg := ⟨guard, by rw [hguards]; exact hg, rfl, rfl⟩
  newGuards g guard' hg := .inl ⟨guard', by rw [← hguards]; exact hg, rfl⟩
  walks n hn := .inl (hW n hn)
  plan := hplan
  visits n hn := by rwa [Visited, hprogress]

/-- Only the event loop changes, and the promises of the evaluator. -/
theorem Grows.of_loop (ha : Advances vm.loop vm'.loop)
    (howned : ∀ p role, vm.owned p = some role → vm'.owned p = some role)
    (hrecords : vm'.records = vm.records) (hguards : vm'.guards = vm.guards) :
    Grows vm W vm' W := by
  refine .of_same ha howned ?_ ?_ (fun id => Nat.le_of_eq ?_) hguards fun _ hn => hn
  · unfold progress
    rw [hrecords]
  · unfold Vm.plan
    rw [hrecords]
  · rw [Vm.started, Vm.started, hrecords]

theorem Grows.guardsLength (h : Grows vm W vm' W') : vm.guards.length ≤ vm'.guards.length := by
  by_contra hlt
  have hlast : vm'.guards.length < vm.guards.length := by omega
  obtain ⟨guard', hg, -⟩ := h.guards vm'.guards.length _ (List.getElem?_eq_getElem hlast)
  rw [List.getElem?_eq_none (Nat.le_refl _)] at hg
  cases hg

theorem Grows.trans {vm'' : Vm} {W'' : Nat → Prop} (h : Grows vm W vm' W')
    (h' : Grows vm' W' vm'' W'') (hW : ∀ n, W' n → W n) (hW' : ∀ n, W'' n → W' n) :
    Grows vm W vm'' W'' where
  advances := h.advances.trans h'.advances
  owned p role hp := h'.owned p role (h.owned p role hp)
  evaluation id p he := h'.evaluation id p (h.evaluation id p he)
  started id := Nat.le_trans (h.started id) (h'.started id)
  owns id p hw ho := h'.owns id p hw (h.owns id p (hW' id hw) ho)
  guards g guard hg := by
    obtain ⟨guard', hg', htarget, haction⟩ := h.guards g guard hg
    obtain ⟨guard'', hg'', htarget', haction'⟩ := h'.guards g guard' hg'
    exact ⟨guard'', hg'', htarget'.trans htarget, haction'.trans haction⟩
  newGuards g guard'' hg := by
    rcases h'.newGuards g guard'' hg with ⟨guard', hg', haction'⟩ | hnew
    · rcases h.newGuards g guard' hg' with ⟨guard, hold, haction⟩ | hnew
      · exact .inl ⟨guard, hold, haction.trans haction'⟩
      · exact .inr fun n hn => hnew n (haction'.trans hn)
    · exact .inr fun n hn => hW n (hnew n hn)
  walks n hn := .inl (hW n (hW' n hn))
  plan := h'.plan.trans h.plan
  visits n hn := h'.visits n (h.visits n hn)

section

variable (howner : ∀ p id, vm.owned p = some (.evaluation id) → vm.records.evaluation id = some p)

include howner

theorem Source.grow (hgrow : Grows vm W vm' W') {k' q : Nat} (hk : k ≤ k') (h : vm.Source W k q) :
    vm'.Source W' k' q := by
  cases h with
  | fulfilled done => exact .fulfilled (done.advance hgrow.advances)
  | evaluation n howned hleft hbefore =>
    refine .evaluation n (hgrow.owned q _ howned) (fun hn => ?_) (fun g guard' hg ha => ?_)
    · rcases hgrow.walks n hn with hw | hnone
      · exact hleft hw
      · rw [howner q n howned] at hnone
        cases hnone
    · rcases hgrow.newGuards g guard' hg with ⟨guard, hold, hsame⟩ | hnew
      · exact Nat.lt_of_lt_of_le (hbefore g guard hold (hsame.trans ha)) hk
      · exact absurd (hnew n ha) hleft
  | result g guard hlt hg htarget haction =>
    obtain ⟨guard', hg', htarget', haction'⟩ := hgrow.guards g guard hg
    obtain ⟨value, hvalue⟩ := haction
    exact .result g guard' (Nat.lt_of_lt_of_le hlt hk) hg' (htarget'.trans htarget)
      ⟨value, haction'.trans hvalue⟩

/-- The reactions of a guard stay as they are. -/
theorem Accounted.grow (hgrow : Grows vm W vm' W') {g : Nat} {guard guard' : Guard} {k' : Nat}
    (h : vm.Accounted W g guard k) (hremaining : guard'.remaining - k' = guard.remaining - k)
    (hreactions : ∀ d, (vm'.handlers d = some (.dependency g) ∧ vm'.loop.Untaken d) ↔
      (vm.handlers d = some (.dependency g) ∧ vm.loop.Untaken d)) :
    vm'.Accounted W' g guard' k' := by
  obtain ⟨ds, hnodup, hmem, hlen, hsource⟩ := h
  refine ⟨ds, hnodup, fun d => (hmem d).trans (hreactions d).symm, by omega, fun d hd => ?_⟩
  obtain ⟨q, hderives, hs⟩ := hsource d hd
  exact ⟨q, hderives.evolve hgrow.advances.evolves, hs.grow howner hgrow (Nat.le_refl g)⟩

end

theorem Untaken.congr {w w' : EventLoop} (h : w'.dispatched = w.dispatched) (d : Nat) :
    w'.Untaken d ↔ w.Untaken d := by
  unfold Untaken
  rw [h]

theorem GuardOk.grow {g : Nat} {guard : Guard} (h : vm.GuardOk g guard)
    (hgrow : Grows vm W vm' W') (howns : ∀ id p, vm.Owns id p → vm'.Owns id p)
    (hopen : ∀ p g, vm.owned p = some (.namespaceResult g) → vm.loop.Open p → vm'.loop.Open p) :
    vm'.GuardOk g guard := by
  unfold GuardOk at h ⊢
  split at h
  · exact fun hpos => howns _ _ (h hpos)
  · obtain ⟨hp, ho, hf⟩ := h
    exact ⟨hgrow.owned _ _ hp, fun hpos => hopen _ _ hp (ho hpos),
      fun hzero => (hf hzero).advance hgrow.advances⟩

theorem HandlerOk.grow {d : Nat} {handler : Handler} (h : vm.HandlerOk d handler)
    (hgrow : Grows vm W vm' W') : vm'.HandlerOk d handler := by
  cases handler with
  | dependency g =>
    obtain ⟨hlt, q, hq⟩ := h
    exact ⟨Nat.lt_of_lt_of_le hlt hgrow.guardsLength, q, hq.evolve hgrow.advances.evolves⟩
  | body id p =>
    obtain ⟨he, hs, c, hc, howned⟩ := h
    exact ⟨hgrow.evaluation id p he, Nat.lt_of_lt_of_le hs (hgrow.started id), c,
      hc.evolve hgrow.advances.evolves, hgrow.owned c _ howned⟩

theorem BodyOk.grow {c : Nat} (h : vm.BodyOk id p c) (hgrow : Grows vm W vm' W')
    (hopen : vm'.loop.Open c) (hruns : c ∉ vm'.suspended) : vm'.BodyOk id p c where
  evaluation := hgrow.evaluation id p h.evaluation
  started := Nat.lt_of_lt_of_le h.started (hgrow.started id)
  owned := hgrow.owned c _ h.owned
  waits := hopen
  runs := hruns

/-- The queue and the guards stay, and so do the reactions. -/
theorem Driven.grow (h : vm.Driven G id p) (hgrow : Grows vm W vm' W') (hcall : G id → G' id)
    (hguards : ∀ (g : Nat) (guard : Guard), vm.guards[g]? = some guard → 0 < guard.remaining →
      vm'.guards[g]? = some guard)
    (hqueue : vm'.loop.evaluations id = vm.loop.evaluations id)
    (hhandlers : ∀ d handler, vm.handlers d = some handler → vm'.handlers d = some handler)
    (hdispatched : vm'.loop.dispatched = vm.loop.dispatched)
    (hwaits : ∀ c, vm.owned c = some (.completion id) → (vm.loop.Open c → c ∈ vm.suspended) →
      vm'.loop.Open c → c ∈ vm'.suspended) : vm'.Driven G' id p := by
  cases h with
  | active call => exact .active (hcall call)
  | waiting g guard hg ha hpos => exact .waiting g guard (hguards g guard hg hpos) ha hpos
  | queued job => exact .queued (by rw [hqueue]; exact job)
  | suspended d c hd hderives huntaken hc hw =>
    exact .suspended d c (hhandlers d _ hd) (hderives.evolve hgrow.advances.evolves)
      ((Untaken.congr hdispatched d).2 huntaken) (hgrow.owned c _ hc) (hwaits c hc hw)

/-! ## Parts of a step -/

/-- **Parts of a step that finish no module and take none in** keep the invariant. -/
theorem Lively.next (h : vm.Lively calls missing)
    (hgrow : Grows vm calls.walks vm' calls'.walks) (hprogress : vm'.progress = vm.progress)
    (hsettles : ∀ p role, vm.owned p = some role → vm.loop.Open p →
      vm'.loop.Open p ∨ vm'.loop.Fulfilled p)
    (hkeep : ∀ p id, vm.owned p = some (.evaluation id) → vm.loop.Open p → vm'.loop.Open p)
    (hnew : ∀ p role, vm'.owned p = some role → vm.owned p = some role ∨
      ((vm'.loop.Open p ∨ vm'.loop.Fulfilled p) ∧ ∀ id, role ≠ .evaluation id))
    (hdriven : ∀ id p, vm.Owns id p → vm.Driven calls.goes id p → vm'.Driven calls'.goes id p)
    (hguard : ∀ g guard, vm'.guards[g]? = some guard → vm'.GuardOk g guard)
    (haccounted : ∀ g guard, vm'.guards[g]? = some guard →
      vm'.Accounted calls'.walks g guard (missing' g))
    (htask : ∀ id p, (id, p) ∈ vm'.loop.evaluationJobs → vm.Owns id p)
    (hbody : ∀ id p c, calls'.bodies id p c → vm'.BodyOk id p c)
    (hhandler : ∀ d handler, vm'.handlers d = some handler →
      vm.handlers d = some handler ∨ vm'.HandlerOk d handler)
    (hsuspended : ∀ c ∈ vm'.suspended, vm'.loop.Open c ∧ ∃ id, vm'.owned c = some (.completion id))
    (hwalks : ∀ n, calls'.walks n → calls.walks n)
    (hsyncs : ∀ n, calls'.syncs n ↔ calls.syncs n) : vm'.Lively calls' missing' where
  sound := hgrow.advances.sound
  owned p role hp := by
    rcases hnew p role hp with hold | ⟨ho, -⟩
    · rcases h.owned p role hold with ho | hf
      · exact hsettles p role hold ho
      · exact .inr (hf.advance hgrow.advances)
    · exact ho
  owner p id hp := by
    rcases hnew p _ hp with hold | ⟨-, hrole⟩
    · exact hgrow.evaluation id p (h.owner p id hold)
    · exact absurd rfl (hrole id)
  record id state evaluation hr := by
    rw [hprogress] at hr
    cases h.record id state evaluation hr with
    | linked => exact .linked
    | sync call => exact .sync ((hsyncs id).2 call)
    | evaluating p howned hopen hd =>
      exact .evaluating p (hgrow.owned p _ howned) (hkeep p id howned hopen) (hdriven id p hr hd)
    | evaluated => exact .evaluated
    | fulfilled p howned hdone =>
      exact .fulfilled p (hgrow.owned p _ howned) (hdone.advance hgrow.advances)
  guardOk := hguard
  accounted := haccounted
  task id p hp := by
    rw [Owns, hprogress]
    exact htask id p hp
  body := hbody
  handler d handler hd := (hhandler d handler hd).elim
    (fun hold => (h.handler d handler hold).grow hgrow) fun hok => hok
  suspended := hsuspended
  walk id hw := by
    obtain ⟨p, hp⟩ := h.walk id (hwalks id hw)
    exact ⟨p, by rw [Owns, hprogress]; exact hp⟩
  sync id hs := by
    rw [hprogress]
    exact h.sync id ((hsyncs id).1 hs)

/-- **A part of a step, and what it keeps.** -/
structure Kept (vm : Vm) (W : Nat → Prop) (vm' : Vm) (calls' : Calls) (missing' : Nat → Nat) :
    Prop where
  lively : vm'.Lively calls' missing'
  grows : Grows vm W vm' calls'.walks
  within : ∀ n, calls'.walks n → W n
  taken : ∀ n, vm'.Visited n → vm.Visited n

/-- One part after the other. -/
theorem Kept.bind {vm'' : Vm} {calls'' : Calls} {missing'' : Nat → Nat}
    (k : Kept vm W vm' calls' missing')
    (next : vm'.Lively calls' missing' → Kept vm' calls'.walks vm'' calls'' missing'') :
    Kept vm W vm'' calls'' missing'' := by
  have k' := next k.lively
  exact ⟨k'.lively, k.grows.trans k'.grows k.within k'.within,
    fun n hn => k.within n (k'.within n hn), fun n hn => k.taken n (k'.taken n hn)⟩

section

variable (h : vm.Lively calls missing)

include h

/-- Other calls go on, as long as every module that is being evaluated is driven. -/
theorem Kept.leave (hwalks : ∀ n, calls'.walks n → calls.walks n)
    (hsyncs : ∀ n, calls'.syncs n ↔ calls.syncs n)
    (hbodies : ∀ id p c, calls'.bodies id p c → vm.BodyOk id p c)
    (hgoes : ∀ id p, vm.Owns id p → vm.Driven calls.goes id p → vm.Driven calls'.goes id p) :
    Kept vm calls.walks vm calls' missing := by
  have hgrow : Grows vm calls.walks vm calls'.walks :=
    .of_same (.refl h.sound) (fun _ _ hp => hp) rfl rfl (fun _ => Nat.le_refl _) rfl hwalks
  refine ⟨?_, hgrow, hwalks, fun _ hn => hn⟩
  refine h.next hgrow rfl ?_ ?_ ?_ hgoes h.guardOk ?_ h.task hbodies ?_ h.suspended hwalks hsyncs
  · exact fun p role _ ho => .inl ho
  · exact fun p id _ ho => ho
  · exact fun p role hp => .inl hp
  · exact fun g guard hg => (h.accounted g guard hg).grow h.owner hgrow rfl fun d => Iff.rfl
  · exact fun d handler hd => .inl hd

theorem Kept.refl : Kept vm calls.walks vm calls missing :=
  .leave h (fun _ hn => hn) (fun _ => Iff.rfl) h.body fun _ _ _ hd => hd

/-- The event loop moves on by itself, and may make promises for the evaluator. -/
theorem Kept.loop (hsteady : Steady (fun p => ∃ role, vm.owned p = some role) vm.loop vm'.loop)
    (howned : ∀ p role, vm.owned p = some role → vm'.owned p = some role)
    (hnew : ∀ p role, vm'.owned p = some role → vm.owned p = some role ∨
      ((vm'.loop.Open p ∨ vm'.loop.Fulfilled p) ∧ ∀ id, role ≠ .evaluation id))
    (hrecords : vm'.records = vm.records) (hguards : vm'.guards = vm.guards)
    (hhandlers : vm'.handlers = vm.handlers) (hsuspended : vm'.suspended = vm.suspended) :
    Kept vm calls.walks vm' calls missing := by
  have hopen : ∀ p role, vm.owned p = some role → vm.loop.Open p → vm'.loop.Open p :=
    fun p role hp ho => hsteady.opens p ⟨role, hp⟩ ho
  have hprogress : vm'.progress = vm.progress := by
    unfold progress
    rw [hrecords]
  have hgrow : Grows vm calls.walks vm' calls.walks :=
    .of_loop hsteady.advances howned hrecords hguards
  refine ⟨?_, hgrow, fun _ hn => hn, fun n hn => by rwa [Visited, ← hprogress]⟩
  refine h.next hgrow hprogress ?_ ?_ hnew ?_ ?_ ?_ ?_ ?_ ?_ ?_ (fun _ hn => hn) fun _ => Iff.rfl
  · exact fun p role hp ho => .inl (hopen p role hp ho)
  · exact fun p id hp ho => hopen p _ hp ho
  · intro id p _ hd
    refine hd.grow hgrow (fun hg => hg) (fun g guard hg _ => by rw [hguards]; exact hg)
      (hsteady.queue.evaluations id) (fun d handler hd => by rw [hhandlers]; exact hd)
      hsteady.dispatched fun c hc hw ho => ?_
    rw [hsuspended]
    rcases h.owned c _ hc with ho' | hf
    · exact hw ho'
    · exact absurd ho (hf.advance hsteady.advances).not_open
  · intro g guard hg
    rw [hguards] at hg
    exact (h.guardOk g guard hg).grow hgrow (fun id p ho => by rwa [Owns, hprogress])
      fun p g hp ho => hopen p _ hp ho
  · intro g guard hg
    rw [hguards] at hg
    refine (h.accounted g guard hg).grow h.owner hgrow rfl fun d => ?_
    rw [hhandlers, Untaken.congr hsteady.dispatched]
  · intro id p hp
    rw [hsteady.queue] at hp
    exact h.task id p hp
  · intro id p c hb
    have hok := h.body id p c hb
    exact hok.grow hgrow (hopen c _ hok.owned hok.waits) (by rw [hsuspended]; exact hok.runs)
  · intro d handler hd
    exact .inl (by rw [← hhandlers]; exact hd)
  · intro c hc
    rw [hsuspended] at hc
    obtain ⟨ho, id, hid⟩ := h.suspended c hc
    exact ⟨hopen c _ hid ho, id, howned c _ hid⟩

/-- Nothing of the evaluator changes but the event loop. -/
theorem Kept.steady {loop : EventLoop}
    (hsteady : Steady (fun p => ∃ role, vm.owned p = some role) vm.loop loop) :
    Kept vm calls.walks { vm with loop := loop } calls missing :=
  .loop h hsteady (fun _ _ hp => hp) (fun _ _ hp => .inl hp) rfl rfl rfl rfl

end

end Vm

end NapiVm.Modules
