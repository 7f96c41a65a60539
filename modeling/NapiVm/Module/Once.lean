import NapiVm.Module.Basic
import Mathlib.Algebra.BigOperators.Group.List.Basic
import Mathlib.Algebra.GroupWithZero.Nat

/-!
# How often a module body runs

A permit to run the body of a module is what may still start it: a frame of one of the
evaluators that has not come to the body, a guard that still waits, or a queued job.  No
step makes a permit out of nothing but the two that take a linked module, and a module
leaves `Linked` for good.  So a body starts once, as long as a module that is `Evaluating`
and has no evaluation promise is not started again.

* `Vm.Once` — at most one permit, counting the starts so far, and none while linked.
* `Vm.Guarded` — no asynchronous start finds a module that is being evaluated
  synchronously.
* `Vm.body_runs_once` — in guarded runs each body starts at most once.
-/

namespace NapiVm.Modules

open Promises

/-! ## Permits -/

/-- The frames of an activation that may still start the body. -/
def Activation.permits (id : Nat) : Activation → Nat
  | .sync frames .body => frames.tail.countP (·.id == id)
  | .sync frames _ => frames.countP (·.id == id)
  | .async frames _ _ _ => frames.countP (·.id == id)

/-- A guard that waits for the module. -/
def Guard.waits (id : Nat) (guard : Guard) : Bool :=
  guard.action == .evaluate id && decide (0 < guard.remaining)

namespace Vm

variable {vm vm' : Vm}

/-- How often the body was started. -/
def started (vm : Vm) (id : Nat) : Nat := ((vm.records id).map LinkedModule.started).getD 0

/-- The starts of the body so far and what may still start it, apart from the calls under
way. -/
def claims (vm : Vm) (id : Nat) : Nat :=
  vm.started id + vm.guards.countP (Guard.waits id) + vm.loop.evaluations id

/-- All of them. -/
def permits (vm : Vm) (id : Nat) : Nat :=
  vm.claims id + (vm.activations.map (Activation.permits id)).sum

/-- **The invariant**: one permit at most, and none while the module is linked. -/
def Once (vm : Vm) : Prop :=
  ∀ id record, vm.records id = some record →
    vm.permits id ≤ 1 ∧ (record.state = .linked → vm.permits id = 0)

/-- No record becomes linked again. -/
def Leaves (vm vm' : Vm) : Prop :=
  ∀ id record', vm'.records id = some record' →
    ∃ record, vm.records id = some record ∧ (record'.state = .linked → record.state = .linked)

/-- A part of a step that makes no permits. -/
structure Spends (vm vm' : Vm) : Prop where
  claims : ∀ id, vm'.claims id ≤ vm.claims id
  leaves : Leaves vm vm'
  activations : vm'.activations = vm.activations

namespace Spends

theorem trans {vm'' : Vm} (h : Spends vm vm') (h' : Spends vm' vm'') : Spends vm vm'' where
  claims id := Nat.le_trans (h'.claims id) (h.claims id)
  leaves id record'' hr := by
    obtain ⟨record', hr', hl'⟩ := h'.leaves id record'' hr
    obtain ⟨record, hr, hl⟩ := h.leaves id record' hr'
    exact ⟨record, hr, fun hx => hl (hl' hx)⟩
  activations := h'.activations.trans h.activations

/-- Only the event loop changes, and its evaluations do not. -/
theorem of_loop (hloop : EventLoop.QueuesNone vm.loop vm'.loop)
    (hrecords : vm'.records = vm.records) (hguards : vm'.guards = vm.guards)
    (hactivations : vm'.activations = vm.activations) : Spends vm vm' where
  claims id := by
    simp only [Vm.claims, Vm.started, hrecords, hguards, hloop.evaluations id, Nat.le_refl]
  leaves id record hr := ⟨record, by rw [← hrecords]; exact hr, fun h => h⟩
  activations := hactivations

theorem refl (vm : Vm) : Spends vm vm := of_loop (.of_eq rfl) rfl rfl rfl

/-- A record changes, but not to linked, and its body is not started. -/
theorem modify (id : Nat) {f : LinkedModule → LinkedModule}
    (hf : ∀ record, (f record).started = record.started ∧
      ((f record).state = .linked → record.state = .linked)) : Spends vm (vm.modify id f) := by
  refine ⟨fun id' => ?_, fun id' record' hr => ?_, rfl⟩
  · have hstarted : (vm.modify id f).started id' = vm.started id' := by
      by_cases hid : id' = id
      · subst hid
        simp only [Vm.started, Vm.modify, Records.modify_self]
        cases vm.records id' with
        | none => rfl
        | some record => exact (hf record).1
      · simp only [Vm.started, Vm.modify, Records.modify_of_ne _ _ hid]
    show _ + _ + _ ≤ _ + _ + _
    rw [hstarted]
    exact Nat.le_refl _
  · by_cases hid : id' = id
    · subst hid
      simp only [Vm.modify, Records.modify_self, Option.map_eq_some_iff] at hr
      obtain ⟨record, hrecord, rfl⟩ := hr
      exact ⟨record, hrecord, (hf record).2⟩
    · simp only [Vm.modify, Records.modify_of_ne _ _ hid] at hr
      exact ⟨record', hr, fun h => h⟩

theorem pendingPromise (role : Role) : Spends vm (vm.pendingPromise role).2 :=
  of_loop (.of_eq rfl) rfl rfl rfl

theorem settledPromise (state : PromiseState) (value : Value) :
    Spends vm (vm.settledPromise state value).2 := of_loop (.of_eq rfl) rfl rfl rfl

theorem makeError : Spends vm vm.makeError.2 := of_loop (.of_eq rfl) rfl rfl rfl

theorem react (p : Nat) (handler : Handler) : Spends vm (vm.react p handler) := by
  refine of_loop ?_ rfl rfl rfl
  exact .of_queues ((EventLoop.frame_queues none).register p _ _ none False.elim)

theorem reject (p : Nat) (value : Value) :
    Spends vm { vm with loop := vm.loop.rejectPromise p value } :=
  of_loop (.of_queues ((EventLoop.frame_queues none).rejectPromise trivial value)) rfl rfl rfl

theorem queuesNone_resolveNamespace (loop : EventLoop) (p : Nat) (value : Value)
    (read : ThenRead) : EventLoop.QueuesNone loop (resolveNamespace loop p value read) := by
  unfold resolveNamespace
  split
  · rename_i hlock
    exact .of_queues (.trans (.lock hlock)
      ((EventLoop.frame_queues none).finishRead False.elim trivial value read))
  · exact .of_eq rfl

theorem resolveNamespace (p : Nat) (value : Value) (read : ThenRead) :
    Spends vm { vm with loop := Vm.resolveNamespace vm.loop p value read } :=
  of_loop (queuesNone_resolveNamespace _ p value read) rfl rfl rfl

theorem queuesNone_markExternal (loop : EventLoop) (p : Nat) (external : Bool) :
    EventLoop.QueuesNone loop (markExternal loop p external) := by
  unfold markExternal
  split <;> exact .of_eq rfl

theorem inheritExternal (p q : Nat) :
    Spends vm { vm with loop := Vm.inheritExternal vm.loop p q } :=
  of_loop (queuesNone_markExternal _ p _) rfl rfl rfl

/-- Each round of a loop makes no permits. -/
theorem foldl {α : Type} (l : List α) {f : Vm → α → Vm} (hf : ∀ vm a, Spends vm (f vm a))
    (vm : Vm) : Spends vm (l.foldl f vm) := by
  induction l generalizing vm with
  | nil => exact refl vm
  | cons a rest ih => exact (hf vm a).trans (ih (f vm a))

/-- A guard for a namespace is no permit. -/
theorem pushGuard (target : Nat) (value : Value) (remaining : Int) :
    Spends vm { vm with guards := vm.guards ++ [⟨target, .resolve value, remaining⟩] } := by
  refine ⟨fun id => ?_, fun id record hr => ⟨record, hr, fun h => h⟩, rfl⟩
  have hnone : (Guard.waits id ⟨target, .resolve value, remaining⟩) = false := by
    simp [Guard.waits]
  simp only [Vm.claims, Vm.started, List.countP_append, List.countP_singleton, hnone,
    Bool.false_eq_true, if_false, Nat.add_zero, Nat.le_refl]

theorem namespaceAfterDependencies (value : Value) (dependencies : List Nat) (read : ThenRead) :
    Spends vm (vm.namespaceAfterDependencies value dependencies read).2 := by
  unfold Vm.namespaceAfterDependencies
  cases dependencies with
  | nil => exact (pendingPromise (.namespaceResult vm.guards.length)).trans (resolveNamespace _ _ _)
  | cons first rest =>
    refine (pendingPromise (.namespaceResult vm.guards.length)).trans (Spends.trans (pushGuard _ _ _) (foldl _ ?_ _))
    · intro vm dependency
      exact (inheritExternal _ _).trans (react _ _)

theorem finishAsyncModule (id target : Nat) (result : Except Value Unit) (read : ThenRead) :
    Spends vm (vm.finishAsyncModule id target result read) := by
  unfold Vm.finishAsyncModule
  split
  · split
    · have hfirst : Spends vm { vm with evaluating := vm.evaluating.filter (· ≠ id) } :=
        of_loop (.of_eq rfl) rfl rfl rfl
      cases result with
      | ok =>
        refine hfirst.trans (Spends.trans (modify id ?_) (resolveNamespace _ _ _))
        intro record
        exact ⟨rfl, nofun⟩
      | error value =>
        refine hfirst.trans (Spends.trans (modify id ?_) (reject _ _))
        intro record
        exact ⟨rfl, nofun⟩
    · exact makeError.trans (reject _ _)
  · exact refl vm

theorem answer (caller : Caller) (result : Except Value Nat) :
    Spends vm (vm.answer caller result) := by
  unfold Vm.answer
  split
  · exact refl vm
  · rename_i target p
    refine of_loop ?_ rfl rfl rfl
    cases hadopt : vm.loop.perform (.adopt p target) with
    | none => exact .of_eq rfl
    | some loop =>
      refine EventLoop.queuesNone_perform hadopt ?_ ?_
      · exact nofun
      · exact nofun
  · exact reject _ _

end Spends

/-! ## Steps -/

/-- One for the module, none for the others. -/
def single (id : Nat) (id' : Nat) : Nat := if id' = id then 1 else 0

/-- A part of a step that uses a permit for the module, at most. -/
structure Uses (id : Nat) (vm vm' : Vm) : Prop where
  claims : ∀ id', vm'.claims id' ≤ vm.claims id' + single id id'
  leaves : Leaves vm vm'
  activations : vm'.activations = vm.activations

theorem Spends.uses (h : Spends vm vm') (id : Nat) : Uses id vm vm' :=
  ⟨fun id' => Nat.le_trans (h.claims id') (Nat.le_add_right _ _), h.leaves, h.activations⟩

variable {id i : Nat} {p p' : Nat → Nat} {α : Type} {l : List α} {a : α}

variable {vm'' : Vm} {activation : Option Activation} {frames : List SyncFrame}
  {control : SyncControl}

theorem Uses.trans_spends (h : Uses id vm vm') (h' : Spends vm' vm'') : Uses id vm vm'' where
  claims id' := Nat.le_trans (h'.claims id') (h.claims id')
  leaves id' record'' hr := by
    obtain ⟨record', hr', hl'⟩ := h'.leaves id' record'' hr
    obtain ⟨record, hr, hl⟩ := h.leaves id' record' hr'
    exact ⟨record, hr, fun hx => hl (hl' hx)⟩
  activations := h'.activations.trans h.activations

theorem Spends.trans_uses (h : Spends vm vm') (h' : Uses id vm' vm'') : Uses id vm vm'' where
  claims id' := Nat.le_trans (h'.claims id') (Nat.add_le_add_right (h.claims id') _)
  leaves id' record'' hr := by
    obtain ⟨record', hr', hl'⟩ := h'.leaves id' record'' hr
    obtain ⟨record, hr, hl⟩ := h.leaves id' record' hr'
    exact ⟨record, hr, fun hx => hl (hl' hx)⟩
  activations := h'.activations.trans h.activations

/-- The body of a module is started. -/
theorem uses_start (vm : Vm) (id : Nat) :
    Uses id vm (vm.modify id fun record => { record with started := record.started + 1 }) := by
  refine ⟨fun id' => ?_, fun id' record' hr => ?_, rfl⟩
  · have hstarted : (vm.modify id fun record =>
        { record with started := record.started + 1 }).started id' ≤
        vm.started id' + single id id' := by
      by_cases hid : id' = id
      · subst hid
        simp only [Vm.started, Vm.modify, Records.modify_self, single, if_true]
        cases vm.records id' with
        | none => simp
        | some record => simp
      · simp [Vm.started, Vm.modify, Records.modify_of_ne _ _ hid]
    show _ + vm.guards.countP _ + vm.loop.evaluations id' ≤
      _ + vm.guards.countP _ + vm.loop.evaluations id' + _
    omega
  · by_cases hid : id' = id
    · subst hid
      simp only [Vm.modify, Records.modify_self, Option.map_eq_some_iff] at hr
      obtain ⟨record, hrecord, rfl⟩ := hr
      exact ⟨record, hrecord, fun h => h⟩
    · simp only [Vm.modify, Records.modify_of_ne _ _ hid] at hr
      exact ⟨record', hr, fun h => h⟩

theorem uses_startBody (vm : Vm) (id target : Nat) : Uses id vm (vm.startBody id target).2 := by
  unfold startBody
  split
  · split
    · have hfirst : Spends vm { vm with
          evaluating := id :: vm.evaluating.filter (· ≠ id) } := .of_loop (.of_eq rfl) rfl rfl rfl
      exact (hfirst.trans_uses (uses_start _ id)).trans_spends (.pendingPromise _)
    · exact (Spends.makeError.trans (.reject _ _)).uses id
  · exact (Spends.refl vm).uses id

theorem queuesNone_scanDependencies (promise : Nat) (dependencies : List Nat) (loop : EventLoop) :
    EventLoop.QueuesNone loop (scanDependencies promise dependencies loop).1 := by
  induction dependencies generalizing loop with
  | nil => exact .of_eq rfl
  | cons dependency rest ih =>
    have hfirst : EventLoop.QueuesNone loop (inheritExternal loop promise dependency) :=
      Spends.queuesNone_markExternal _ _ _
    have hrest := hfirst.trans (ih (inheritExternal loop promise dependency))
    simp only [scanDependencies]
    split
    · exact hrest
    · split
      · exact hfirst
      · exact hrest
      · exact hrest

/-- The loop ends: the module fails, its body starts, or a guard waits for it. -/
theorem uses_leaveLoop (vm : Vm) (frame : AsyncFrame) (read : ThenRead) :
    Uses frame.id vm (vm.leaveLoop frame read).1 := by
  have hscan := queuesNone_scanDependencies frame.promise frame.dependencies vm.loop
  unfold leaveLoop
  split
  · rename_i loop value heq
    rw [heq] at hscan
    have hfirst : Spends vm { vm with loop := loop } := .of_loop hscan rfl rfl rfl
    exact (hfirst.trans (.finishAsyncModule frame.id frame.promise (.error value) read)).uses _
  · rename_i loop heq
    rw [heq] at hscan
    have hfirst : Spends vm { vm with loop := loop } := .of_loop hscan rfl rfl rfl
    have hbody := hfirst.trans_uses (uses_startBody _ frame.id frame.promise)
    split
    · rename_i completion vm' hstart
      rw [hstart] at hbody
      exact hbody
    · rename_i vm' hstart
      rw [hstart] at hbody
      exact hbody
  · rename_i loop heq
    rw [heq] at hscan
    refine Uses.trans_spends ?_
      (Spends.foldl frame.dependencies (fun vm dependency => .react dependency _) _)
    refine ⟨fun id' => ?_, fun id' record hr => ⟨record, hr, fun h => h⟩, rfl⟩
    have hqueue : loop.evaluations id' = vm.loop.evaluations id' := hscan.evaluations id'
    have hguard : [(⟨frame.promise, .evaluate frame.id, frame.dependencies.length⟩ :
        Guard)].countP (Guard.waits id') ≤ single frame.id id' := by
      rw [List.countP_singleton]
      unfold single Guard.waits
      by_cases hid : id' = frame.id
      · rw [if_pos hid]
        split <;> omega
      · have : (GuardAction.evaluate frame.id == .evaluate id') = false := by
          rw [beq_eq_false_iff_ne]
          exact fun h => hid (GuardAction.evaluate.inj h).symm
        simp [this]
    simp only [Vm.claims, Vm.started, List.countP_append, hqueue]
    omega

/-- A step from calls that hold `p` permits to calls that hold `p'` of them, which takes in
the module `new`, if it does. -/
structure Steps (vm : Vm) (p : Nat → Nat) (vm' : Vm) (p' : Nat → Nat) (new : Option Nat) :
    Prop where
  permits : ∀ id, vm'.claims id + p' id ≤
    vm.claims id + p id + if new = some id then 1 else 0
  leaves : Leaves vm vm'
  activations : vm'.activations = vm.activations
  enters : ∀ id, new = some id →
    (∃ record, vm.records id = some record ∧ record.state = .linked) ∧
      ∀ record', vm'.records id = some record' → record'.state ≠ .linked

theorem Spends.steps (h : Spends vm vm') (hp : ∀ id, p' id ≤ p id) : Steps vm p vm' p' none where
  permits id := by
    have := h.claims id
    have := hp id
    simp only [reduceCtorEq, if_false]
    omega
  leaves := h.leaves
  activations := h.activations
  enters id hid := by cases hid

theorem Uses.steps (h : Uses id vm vm') (hp : ∀ id', p' id' + single id id' ≤ p id') :
    Steps vm p vm' p' none where
  permits id' := by
    have := h.claims id'
    have := hp id'
    simp only [reduceCtorEq, if_false]
    omega
  leaves := h.leaves
  activations := h.activations
  enters id hid := by cases hid

theorem count_cons (id : Nat) (frame : AsyncFrame) (frames : List AsyncFrame) :
    (frame :: frames).countP (·.id == id) = frames.countP (·.id == id) + single frame.id id := by
  rw [List.countP_cons]
  unfold single
  by_cases h : id = frame.id
  · simp [h]
  · have : (frame.id == id) = false := by
      rw [beq_eq_false_iff_ne]
      exact fun hx => h hx.symm
    simp [this, h]

/-- A module that is taken in becomes `Evaluating`. -/
theorem steps_enter {record : LinkedModule} (hr : vm.records id = some record)
    (hl : record.state = .linked) {f : LinkedModule → LinkedModule}
    (hf : ∀ r, (f r).started = r.started ∧ (f r).state = .evaluating)
    (hp : ∀ id', p' id' ≤ p id' + single id id') (hpre : Spends vm vm')
    (hrecords : vm'.records = vm.records) : Steps vm p (vm'.modify id f) p' (some id) := by
  have hmodify : Spends vm (vm'.modify id f) := hpre.trans (.modify id fun r =>
    ⟨(hf r).1, fun hx => by rw [(hf r).2] at hx; cases hx⟩)
  refine ⟨fun id' => ?_, hmodify.leaves, hmodify.activations, fun id' hid => ?_⟩
  · have := hmodify.claims id'
    have := hp id'
    unfold single at this
    by_cases h : id' = id
    · subst h
      simp only [if_true] at this ⊢
      omega
    · rw [if_neg h] at this
      rw [if_neg (fun hx => h (Option.some.inj hx).symm)]
      omega
  · cases hid
    refine ⟨⟨record, hr, hl⟩, fun record' hr' => ?_⟩
    simp only [Vm.modify, Records.modify_self, hrecords, hr, Option.map_some,
      Option.some.injEq] at hr'
    rw [← hr', (hf record).2]
    exact nofun

/-- The frames of `start_async_module` for each module. -/
def asyncPermits (frames : List AsyncFrame) (id : Nat) : Nat := frames.countP (·.id == id)

/-- A module that is `Evaluating` has an evaluation promise. -/
def Startable (vm : Vm) (id : Nat) : Prop :=
  ∀ record, vm.records id = some record → record.state = .evaluating → record.evaluation ≠ none

theorem steps_enterAsync (frames : List AsyncFrame) (hs : vm.Startable id) (read : ThenRead) :
    ∃ new, Steps vm (asyncPermits frames) (vm.enterAsync frames id read).1
      (asyncPermits (vm.enterAsync frames id read).2.1) new := by
  have hstay : ∀ {vm' : Vm}, Spends vm vm' →
      ∃ new, Steps vm (asyncPermits frames) vm' (asyncPermits frames) new :=
    fun h => ⟨none, h.steps fun _ => Nat.le_refl _⟩
  unfold enterAsync
  cases hr : vm.records id with
  | none => exact hstay (.settledPromise _ _)
  | some record =>
    simp only
    cases he : record.evaluation with
    | some promise =>
      simp only
      split
      · exact hstay (.namespaceAfterDependencies _ _ _)
      · exact hstay (.refl vm)
    | none =>
      simp only
      split
      · exact hstay (.settledPromise _ _)
      · exact hstay (.settledPromise _ _)
      · rename_i hevaluated hfailed
        have hl : record.state = .linked := by
          cases hstate : record.state with
          | linked => rfl
          | evaluating => exact absurd he (hs record hr hstate)
          | evaluated => exact absurd hstate hevaluated
          | failed value => exact absurd hstate (hfailed value)
        split
        · exact hstay .makeError
        · have hpending : Spends vm (vm.pendingPromise (.evaluation id)).2 :=
            .pendingPromise _
          refine ⟨some id, steps_enter hr hl ?_ ?_ hpending rfl⟩
          · intro r
            exact ⟨rfl, rfl⟩
          · intro id'
            exact Nat.le_of_eq (count_cons id' _ frames)

theorem leaves_recordAsyncCycle (vm : Vm) (path : List Nat) (dependency : Nat) :
    Spends vm { vm with records := vm.records.recordAsyncCycle path dependency } := by
  refine ⟨fun id => ?_, fun id record' hr => ?_, rfl⟩
  · have hstarted : ((vm.records.recordAsyncCycle path dependency id).map
        LinkedModule.started).getD 0 = ((vm.records id).map LinkedModule.started).getD 0 := by
      simp only [Records.recordAsyncCycle, Records.joinCycle]
      cases vm.records id with
      | none => rfl
      | some record =>
        simp only [Option.map_some, Option.getD_some]
        split <;> rfl
    simp only [Vm.claims, Vm.started, hstarted, Nat.le_refl]
  · simp only [Records.recordAsyncCycle, Records.joinCycle, Option.map_eq_some_iff] at hr
    obtain ⟨record, hrecord, rfl⟩ := hr
    refine ⟨record, hrecord, ?_⟩
    split <;> exact fun h => h

theorem steps_loopAsync (frame : AsyncFrame) (frames : List AsyncFrame) (read : ThenRead) :
    Steps vm (asyncPermits (frame :: frames)) (vm.loopAsync frame frames read).1
      (asyncPermits (vm.loopAsync frame frames read).2.1) none := by
  have hsame : ∀ {frame' : AsyncFrame}, frame'.id = frame.id → ∀ id,
      asyncPermits (frame' :: frames) id ≤ asyncPermits (frame :: frames) id := by
    intro frame' hid id
    unfold asyncPermits
    exact Nat.le_of_eq (by rw [count_cons, count_cons, hid])
  unfold loopAsync
  split
  · refine (uses_leaveLoop vm frame read).steps fun id => ?_
    exact Nat.le_of_eq (count_cons id frame frames).symm
  · exact (Spends.refl vm).steps (hsame rfl)
  · exact (Spends.refl vm).steps (hsame rfl)
  · split
    · exact (leaves_recordAsyncCycle vm _ _).steps (hsame rfl)
    · split
      · exact (Spends.refl vm).steps (hsame rfl)
      · exact (Spends.refl vm).steps (hsame rfl)

theorem steps_returnAsync (frame : AsyncFrame) (frames : List AsyncFrame)
    (result : Except Value Nat) (read : ThenRead) :
    Steps vm (asyncPermits (frame :: frames)) (vm.returnAsync frame frames result read).1
      (asyncPermits (vm.returnAsync frame frames result read).2.1) none := by
  unfold returnAsync
  cases result with
  | ok p =>
    refine (Spends.refl vm).steps fun id => ?_
    unfold asyncPermits
    exact Nat.le_of_eq (by rw [count_cons, count_cons])
  | error value =>
    refine (Spends.finishAsyncModule frame.id frame.promise (.error value) read).steps fun id => ?_
    unfold asyncPermits
    rw [count_cons]
    exact Nat.le_add_right _ _

theorem spends_returnDeferred (outer : Deferred) (result : Except Value Nat) (read : ThenRead) :
    Spends vm (vm.returnDeferred outer result read).1 := by
  unfold returnDeferred
  cases result with
  | error value => exact .refl vm
  | ok p =>
    simp only
    split
    · exact .refl vm
    · exact .namespaceAfterDependencies _ _ _

/-- The permits of what a step leaves of a call. -/
def optionPermits (activation : Option Activation) (id : Nat) : Nat :=
  (activation.map (Activation.permits id)).getD 0

/-- **A step of `start_async_module`** takes in a linked module at most. -/
theorem steps_stepAsync {frames : List AsyncFrame} {outer : Option Deferred}
    {control : AsyncControl} {caller : Caller} {read : ThenRead}
    (hs : ∀ id, control = .enter id → vm.Startable id)
    (h : vm.stepAsync frames outer control caller read = some (vm', activation)) :
    ∃ new, Steps vm (fun id => Activation.permits id (.async frames outer control caller)) vm'
      (optionPermits activation) new := by
  unfold stepAsync at h
  cases control with
  | enter id =>
    cases h
    exact steps_enterAsync frames (hs id rfl) read
  | loop =>
    cases frames with
    | nil => cases h
    | cons frame frames =>
      cases h
      exact ⟨none, steps_loopAsync frame frames read⟩
  | body id target completion => cases h
  | returns result =>
    cases frames with
    | cons frame frames =>
      cases h
      exact ⟨none, steps_returnAsync frame frames result read⟩
    | nil =>
      cases outer with
      | some deferred =>
        cases h
        exact ⟨none, (spends_returnDeferred deferred result read).steps fun _ => Nat.le_refl _⟩
      | none =>
        cases h
        exact ⟨none, (Spends.answer caller result).steps fun _ => Nat.le_refl _⟩

/-- The frames of `evaluate_linked_module` for each module. -/
def syncPermits (frames : List SyncFrame) (id : Nat) : Nat := frames.countP (·.id == id)

theorem syncPermits_cons (id : Nat) (frame : SyncFrame) (frames : List SyncFrame) :
    syncPermits (frame :: frames) id = syncPermits frames id + single frame.id id := by
  unfold syncPermits
  rw [List.countP_cons]
  unfold single
  by_cases h : id = frame.id
  · simp [h]
  · have : (frame.id == id) = false := by
      rw [beq_eq_false_iff_ne]
      exact fun hx => h hx.symm
    simp [this, h]

theorem spends_finishSync (frame : SyncFrame) (result : Except Value Unit) :
    Spends vm (vm.finishSync frame result) := by
  unfold finishSync
  refine Spends.trans ?_ (.modify frame.id ?_)
  · exact .of_loop (.of_eq rfl) rfl rfl rfl
  · intro record
    refine ⟨rfl, fun hx => ?_⟩
    cases result with
    | ok => cases hx
    | error value => cases hx

/-- The permits of a synchronous call, wherever it stands but in the body. -/
theorem permits_sync (h : control ≠ .body) (id : Nat) :
    Activation.permits id (.sync frames control) = syncPermits frames id := by
  cases control with
  | body => exact absurd rfl h
  | _ => rfl

theorem steps_enterSync (frames : List SyncFrame) (id : Nat) (curMod : Option Nat) :
    ∃ new, Steps vm (syncPermits frames) (vm.enterSync frames id curMod).1
      (syncPermits (vm.enterSync frames id curMod).2.1) new ∧
      (vm.enterSync frames id curMod).2.2 ≠ .body := by
  have hstay : ∃ new, Steps vm (syncPermits frames) vm (syncPermits frames) new :=
    ⟨none, (Spends.refl vm).steps fun _ => Nat.le_refl _⟩
  obtain ⟨new, hstay⟩ := hstay
  unfold enterSync
  cases hr : vm.records id with
  | none => exact ⟨new, hstay, by simp⟩
  | some record =>
    simp only
    split
    · exact ⟨new, hstay, by simp⟩
    · split
      · exact ⟨new, hstay, by simp⟩
      · exact ⟨new, hstay, by simp⟩
    · exact ⟨new, hstay, by simp⟩
    · rename_i hl
      refine ⟨some id, ?_, by simp⟩
      have hsteps : Steps vm (syncPermits frames)
          (vm.modify id fun record => { record with state := .evaluating })
          (syncPermits (⟨id, record.requests⟩ :: frames)) (some id) := by
        refine steps_enter (f := fun record => { record with state := .evaluating }) hr hl
          (fun r => ⟨rfl, rfl⟩) (fun id' => ?_) (.refl vm) rfl
        exact Nat.le_of_eq (syncPermits_cons id' _ frames)
      exact ⟨hsteps.permits, hsteps.leaves, hsteps.activations, hsteps.enters⟩

theorem steps_stepSync (h : vm.stepSync frames control = some (vm', activation)) :
    ∃ new, Steps vm (fun id => Activation.permits id (.sync frames control)) vm'
      (optionPermits activation) new := by
  unfold stepSync at h
  cases control with
  | enter id curMod =>
    cases h
    obtain ⟨new, hsteps, hne⟩ := @steps_enterSync vm frames id curMod
    have hpermits : optionPermits (some (.sync (vm.enterSync frames id curMod).2.1
        (vm.enterSync frames id curMod).2.2)) =
        syncPermits (vm.enterSync frames id curMod).2.1 := by
      funext id'
      exact permits_sync hne id'
    rw [← hpermits] at hsteps
    exact ⟨new, hsteps⟩
  | loop =>
    cases frames with
    | nil => cases h
    | cons frame frames =>
      cases h
      refine ⟨none, ?_⟩
      split
      · refine (uses_start vm frame.id).steps fun id => ?_
        exact Nat.le_of_eq (syncPermits_cons id frame frames).symm
      · refine (Spends.refl vm).steps fun id => ?_
        show syncPermits (_ :: frames) id ≤ syncPermits (frame :: frames) id
        exact Nat.le_of_eq (by rw [syncPermits_cons, syncPermits_cons])
      · refine (Spends.refl vm).steps fun id => ?_
        show syncPermits (_ :: frames) id ≤ syncPermits (frame :: frames) id
        exact Nat.le_of_eq (by rw [syncPermits_cons, syncPermits_cons])
  | body => cases h
  | awaits p => cases h
  | returns result =>
    cases frames with
    | nil =>
      cases h
      exact ⟨none, (Spends.refl vm).steps fun _ => Nat.le_refl _⟩
    | cons frame frames =>
      cases result with
      | ok =>
        cases h
        exact ⟨none, (Spends.refl vm).steps fun _ => Nat.le_refl _⟩
      | error value =>
        cases h
        refine ⟨none, (spends_finishSync frame _).steps fun id => ?_⟩
        show syncPermits frames id ≤ syncPermits (frame :: frames) id
        rw [syncPermits_cons]
        exact Nat.le_add_right _ _

/-! ## Moves -/

/-- What a move may do: make no permits, or take in a linked module. -/
def Permitted (vm vm' : Vm) : Prop :=
  Leaves vm vm' ∧ ∀ id, vm'.permits id ≤ vm.permits id ∨
    (vm'.permits id ≤ vm.permits id + 1 ∧
      (∃ record, vm.records id = some record ∧ record.state = .linked) ∧
      ∀ record', vm'.records id = some record' → record'.state ≠ .linked)

theorem Once.of_permitted (h : vm.Once) (hp : Permitted vm vm') : vm'.Once := by
  intro id record' hr'
  obtain ⟨hleaves, hpermits⟩ := hp
  obtain ⟨record, hr, hl⟩ := hleaves id record' hr'
  obtain ⟨hone, hnone⟩ := h id record hr
  rcases hpermits id with hle | ⟨hle, ⟨first, hfirst, hlinked⟩, hout⟩
  · exact ⟨Nat.le_trans hle hone, fun hx => Nat.le_zero.1 (hnone (hl hx) ▸ hle)⟩
  · rw [hr] at hfirst
    cases hfirst
    rw [hnone hlinked] at hle
    exact ⟨hle, fun hx => absurd hx (hout record' hr')⟩

theorem Spends.permitted (h : Spends vm vm') : Permitted vm vm' := by
  refine ⟨h.leaves, fun id => .inl ?_⟩
  have := h.claims id
  unfold permits
  rw [h.activations]
  omega

/-- A call with no frames makes no permits. -/
theorem permitted_spawn (h : Spends vm vm') (activation : Activation)
    (hnone : ∀ id, activation.permits id = 0) : Permitted vm (vm'.spawn activation) := by
  refine ⟨h.leaves, fun id => .inl ?_⟩
  have := h.claims id
  have hclaims : (vm'.spawn activation).claims id = vm'.claims id := rfl
  unfold permits
  rw [hclaims, spawn, List.map_cons, List.sum_cons, hnone id, h.activations]
  omega

theorem sum_set (f : α → Nat) (h : l[i]? = some a) (b : α) :
    ((l.set i b).map f).sum + f a = (l.map f).sum + f b := by
  induction l generalizing i with
  | nil => cases h
  | cons first rest ih =>
    cases i with
    | zero =>
      cases h
      simp only [List.set_cons_zero, List.map_cons, List.sum_cons]
      omega
    | succ i =>
      have := ih (i := i) h
      simp only [List.set_cons_succ, List.map_cons, List.sum_cons]
      omega

theorem sum_eraseIdx (f : α → Nat) (h : l[i]? = some a) :
    ((l.eraseIdx i).map f).sum + f a = (l.map f).sum := by
  induction l generalizing i with
  | nil => cases h
  | cons first rest ih =>
    cases i with
    | zero =>
      cases h
      simp only [List.eraseIdx_cons_zero, List.map_cons, List.sum_cons]
      omega
    | succ i =>
      have := ih (i := i) h
      simp only [List.eraseIdx_cons_succ, List.map_cons, List.sum_cons]
      omega

/-- A call goes on and is put back. -/
theorem Steps.permitted {before : Activation} (after : Option Activation) {new : Option Nat}
    (h : Steps vm (fun id => before.permits id) vm' (optionPermits after) new)
    (hi : vm.activations[i]? = some before) : Permitted vm (vm'.replace i after) := by
  have hsum : ∀ id, ((vm'.replace i after).activations.map (Activation.permits id)).sum +
      before.permits id =
      (vm.activations.map (Activation.permits id)).sum + optionPermits after id := by
    intro id
    cases after with
    | some after =>
      simp only [replace, h.activations]
      exact sum_set (Activation.permits id) hi after
    | none =>
      simp only [replace, h.activations]
      exact sum_eraseIdx (Activation.permits id) hi
  have hclaims : ∀ id, (vm'.replace i after).claims id = vm'.claims id := by
    intro id
    cases after <;> rfl
  have hrecords : (vm'.replace i after).records = vm'.records := by
    cases after <;> rfl
  have htotal : ∀ id, (vm'.replace i after).permits id ≤
      vm.permits id + if new = some id then 1 else 0 := by
    intro id
    have := h.permits id
    have := hsum id
    unfold Vm.permits
    rw [hclaims id]
    omega
  refine ⟨fun id record' hr => h.leaves id record' (by rw [← hrecords]; exact hr), fun id => ?_⟩
  by_cases hid : new = some id
  · have hle := htotal id
    rw [if_pos hid] at hle
    obtain ⟨hlinked, hout⟩ := h.enters id hid
    exact .inr ⟨hle, hlinked, fun record' hr => hout record' (by rw [← hrecords]; exact hr)⟩
  · have hle := htotal id
    rw [if_neg hid] at hle
    exact .inl hle

theorem countP_set_add (p : α → Bool) (h : l[i]? = some a) (b : α) :
    (l.set i b).countP p + (p a).toNat = l.countP p + (p b).toNat := by
  induction l generalizing i with
  | nil => cases h
  | cons first rest ih =>
    cases i with
    | zero =>
      cases h
      simp only [List.set_cons_zero, List.countP_cons]
      cases p a <;> cases p b <;> simp
    | succ i =>
      have := ih (i := i) h
      simp only [List.set_cons_succ, List.countP_cons]
      omega

theorem spends_dependencyFulfilled (vm : Vm) (g : Nat) (read : ThenRead) :
    Spends vm (vm.dependencyFulfilled g read) := by
  unfold dependencyFulfilled
  split
  · rename_i guard hg
    have hguards := fun id => countP_set_add (Guard.waits id) hg
      { guard with remaining := guard.remaining - 1 }
    have hfewer : ∀ id, (Guard.waits id { guard with remaining := guard.remaining - 1 }).toNat ≤
        (Guard.waits id guard).toNat := by
      intro id
      unfold Guard.waits
      cases guard.action == .evaluate id with
      | false => simp
      | true =>
        simp only [Bool.true_and]
        by_cases h : 0 < guard.remaining - 1
        · exact Nat.le_of_eq (by
            rw [decide_eq_true h, decide_eq_true (show 0 < guard.remaining by omega)])
        · rw [decide_eq_false h]
          exact Nat.zero_le _
    have hset : Spends vm { vm with
        guards := vm.guards.set g { guard with remaining := guard.remaining - 1 } } := by
      refine ⟨fun id => ?_, fun id record hr => ⟨record, hr, fun h => h⟩, rfl⟩
      have := hguards id
      have := hfewer id
      simp only [Vm.claims, Vm.started]
      omega
    split
    · dsimp only
      split
      · rename_i hzero
        unfold release
        split
        · -- the guard that comes to zero gives way to a job
          rename_i id haction
          refine ⟨fun id' => ?_, fun id' record hr => ⟨record, hr, fun h => h⟩, rfl⟩
          have hpos : 0 < guard.remaining := by omega
          have := hguards id'
          simp only [Vm.claims, Vm.started, EventLoop.evaluations, EventLoop.evaluationJobs,
            EventLoop.pushMicrotask, List.filterMap_append, List.filterMap_cons,
            List.filterMap_nil, Job.evaluation, List.countP_append, List.countP_singleton]
          have hafter : Guard.waits id' { guard with remaining := guard.remaining - 1 } = false := by
            simp [Guard.waits, hzero]
          have hbefore : Guard.waits id' guard = decide (id = id') := by
            rw [Guard.waits, haction, decide_eq_true hpos, Bool.and_true, Bool.eq_iff_iff, beq_iff_eq,
              decide_eq_true_eq]
            exact ⟨GuardAction.evaluate.inj, fun h => by rw [h]⟩
          rw [hafter, hbefore] at this
          by_cases hid : id = id'
          · simp only [hid, decide_true, Bool.toNat_true, Bool.toNat_false] at this
            simp only [hid, beq_self_eq_true, if_true]
            omega
          · simp only [hid, decide_false, Bool.toNat_false, Nat.add_zero] at this
            simp only [beq_eq_false_iff_ne.2 hid, Bool.false_eq_true, if_false]
            omega
        · exact hset.trans (.resolveNamespace _ _ _)
      · exact hset
    · exact .refl vm
  · exact .refl vm

theorem spends_handle (vm : Vm) (handler : Handler) (state : PromiseState) (value : Value)
    (read : ThenRead) : Spends vm (vm.handle handler state value read) := by
  have hrejected : ∀ g, Spends vm (vm.dependencyRejected g value read) := by
    intro g
    unfold dependencyRejected
    split
    · split
      · exact .finishAsyncModule _ _ _ _
      · exact .reject _ _
    · exact .refl vm
  unfold handle
  split
  · exact spends_dependencyFulfilled vm _ read
  · exact hrejected _
  · exact .finishAsyncModule _ _ _ _
  · exact .finishAsyncModule _ _ _ _

theorem permitted_startDeferred (h : Spends vm vm') (id : Nat) (caller : Caller)
    (read : ThenRead) : Permitted vm (vm'.startDeferred id caller read) := by
  unfold startDeferred
  split
  · exact permitted_spawn h _ fun _ => rfl
  · have hanswer : Spends vm' ((vm'.namespaceAfterDependencies
        (vm'.deferredNamespaceObject id) [] read).2.answer caller
        (.ok (vm'.namespaceAfterDependencies (vm'.deferredNamespaceObject id) [] read).1)) :=
      (Spends.namespaceAfterDependencies _ _ _).trans (.answer _ _)
    exact (h.trans hanswer).permitted

/-- A job that is taken from the queue gives its permit to the body it starts. -/
theorem permitted_dispatch {job : Job} {rest : List Job} (hq : vm.loop.microtasks = job :: rest)
    {loop : EventLoop} (hd : vm.loop.perform .dispatch = some loop) (read : ThenRead) :
    Permitted vm (runJob { vm with loop := loop } job read) := by
  have hjobs := EventLoop.evaluationJobs_dispatch hq hd
  have hcount : ∀ id, loop.evaluations id + (job.evaluation.toList).countP (·.1 == id) =
      vm.loop.evaluations id := by
    intro id
    rw [EventLoop.evaluations, EventLoop.evaluations, ← hjobs, List.countP_append, Nat.add_comm]
  have hspends : Spends vm { vm with loop := loop } := by
    refine ⟨fun id => ?_, fun id record hr => ⟨record, hr, fun h => h⟩, rfl⟩
    have := hcount id
    simp only [Vm.claims, Vm.started]
    omega
  unfold runJob
  split
  · rename_i id target
    have huses := uses_startBody { vm with loop := loop } id target
    have hbody : Spends vm (startBody { vm with loop := loop } id target).2 := by
      refine ⟨fun id' => ?_, fun id' record hr => huses.leaves id' record hr, huses.activations⟩
      have hclaims := huses.claims id'
      have hjob : single id id' ≤ ((Job.moduleEvaluation id target).evaluation.toList).countP
          (·.1 == id') := by
        unfold single Job.evaluation
        by_cases h : id' = id
        · simp [h]
        · simp [h]
      have := hcount id'
      simp only [Vm.claims, Vm.started] at hclaims ⊢
      omega
    split
    · rename_i completion vm' hstart
      rw [hstart] at hbody
      exact permitted_spawn hbody _ fun _ => rfl
    · rename_i vm' hstart
      rw [hstart] at hbody
      exact hbody.permitted
  · exact permitted_spawn hspends _ fun _ => rfl
  · exact permitted_startDeferred hspends _ _ read
  · split
    · exact (hspends.trans (spends_handle _ _ _ _ read)).permitted
    · exact hspends.permitted
  · exact hspends.permitted

theorem spends_endAsyncBody (vm : Vm) (id target completion : Nat) (outcome : BodyOutcome)
    (read : ThenRead) : Spends vm (vm.endAsyncBody id target completion outcome read) := by
  unfold endAsyncBody
  cases outcome with
  | completed =>
    refine Spends.trans ?_ (.finishAsyncModule _ _ _ _)
    exact .of_loop (.of_queues ((EventLoop.frame_queues none).resolvePromise False.elim trivial _))
      rfl rfl rfl
  | threw value => exact (Spends.reject _ _).trans (.finishAsyncModule _ _ _ _)
  | suspended external =>
    refine Spends.trans ?_ (.react _ _)
    refine .of_loop ?_ rfl rfl rfl
    exact (Spends.queuesNone_markExternal _ _ _).trans (Spends.queuesNone_markExternal _ _ _)

/-! ## Guarded runs -/

/-- No asynchronous start finds a module that is being evaluated synchronously. -/
def Guarded (vm : Vm) : Move → Prop
  | .step i _ => ∀ frames outer id caller,
      vm.activations[i]? = some (.async frames outer (.enter id) caller) → vm.Startable id
  | _ => True

/-- **Every guarded move keeps the invariant.** -/
theorem permitted_perform {m : Move} (hg : vm.Guarded m) (h : vm.perform m = some vm') :
    Permitted vm vm' := by
  cases m with
  | evaluate id curMod | start id =>
    cases h
    exact permitted_spawn (.refl vm) _ fun _ => rfl
  | startDeferred id read =>
    cases h
    exact permitted_startDeferred (.refl vm) id .host read
  | step i read =>
    simp only [perform] at h
    split at h
    · rename_i frames control hi
      obtain ⟨⟨vm₁, activation⟩, hstep, rfl⟩ := Option.map_eq_some_iff.1 h
      obtain ⟨new, hsteps⟩ := steps_stepSync hstep
      exact hsteps.permitted _ hi
    · rename_i frames outer control caller hi
      obtain ⟨⟨vm₁, activation⟩, hstep, rfl⟩ := Option.map_eq_some_iff.1 h
      obtain ⟨new, hsteps⟩ := steps_stepAsync (fun id hid => hg frames outer id caller
        (by rw [hi, hid])) hstep
      exact hsteps.permitted _ hi
    · cases h
  | body i outcome read =>
    simp only [perform] at h
    split at h
    · rename_i frame frames hi
      cases h
      exact ((spends_finishSync frame (.ok ())).steps fun _ => Nat.le_refl _).permitted
        (some (.sync frames (.returns (.ok ())))) hi
    · rename_i frame frames value hi
      cases h
      exact ((spends_finishSync frame (.error value)).steps fun _ => Nat.le_refl _).permitted
        (some (.sync frames (.returns (.error value)))) hi
    · rename_i frames outer id target completion caller hi
      cases h
      exact ((spends_endAsyncBody vm id target completion _ read).steps
        fun _ => Nat.le_refl _).permitted
        (some (.async frames outer (.returns (.ok target)) caller)) hi
    · cases h
  | awaited i result =>
    simp only [perform] at h
    split at h
    · rename_i frames p hi
      cases h
      exact ((Spends.refl vm).steps fun _ => Nat.le_refl _).permitted
        (some (.sync frames (.returns result))) hi
    · cases h
  | completes completion thrown =>
    simp only [perform] at h
    split at h
    · cases thrown with
      | none =>
        cases h
        refine Spends.permitted ?_
        exact .of_loop (.of_queues ((EventLoop.frame_queues none).resolvePromise False.elim trivial _))
          rfl rfl rfl
      | some value =>
        cases h
        refine Spends.permitted ?_
        exact .of_loop (.of_queues ((EventLoop.frame_queues none).rejectPromise trivial _))
          rfl rfl rfl
    · cases h
  | dispatch read =>
    simp only [perform] at h
    split at h
    · rename_i job rest hq
      obtain ⟨loop, hd, rfl⟩ := Option.map_eq_some_iff.1 h
      exact permitted_dispatch hq hd read
    · cases h
  | other a =>
    simp only [perform] at h
    split at h
    · rename_i hforeign
      obtain ⟨loop, ha, rfl⟩ := Option.map_eq_some_iff.1 h
      refine Spends.permitted ?_
      refine .of_loop (EventLoop.queuesNone_perform ha ?_ ?_) rfl rfl rfl
      · rintro rfl
        cases hforeign
      · rintro id target rfl
        cases hforeign
    · cases h

/-- The states of the runs in which every move is guarded. -/
def GuardedRuns (vm : Vm) : Prop :=
  Reachable Initial (fun vm vm' => ∃ m, vm.Guarded m ∧ vm.perform m = some vm') vm

theorem once_initial (h : vm.Initial) : vm.Once := by
  intro id record hr
  have hclaims : vm.permits id = 0 := by
    have hstarted : vm.started id = 0 := by
      rw [started, hr, h.linked id record hr]
      rfl
    have hqueue : vm.loop.evaluations id = 0 := by
      have hnone : vm.loop.evaluationJobs = [] := by
        rw [EventLoop.evaluationJobs, List.filterMap_eq_nil_iff]
        intro job hjob
        cases job with
        | moduleEvaluation id' target => exact absurd hjob (h.quiet id' target)
        | _ => rfl
      rw [EventLoop.evaluations, hnone]
      rfl
    rw [permits, claims, hstarted, hqueue, h.guards, h.activations]
    rfl
  exact ⟨by omega, fun _ => hclaims⟩

theorem once_of_guardedRuns (h : vm.GuardedRuns) : vm.Once := by
  apply Reachable.invariant _ _ h
  · exact fun vm hvm => once_initial hvm
  · rintro vm vm' honce ⟨m, hg, hm⟩
    exact honce.of_permitted (permitted_perform hg hm)

/-- The state after some moves. -/
def performAll (vm : Vm) : List Move → Option Vm
  | [] => some vm
  | m :: rest => (vm.perform m).bind (performAll · rest)

/-- One module, which imports itself dynamically and then awaits. -/
def selfImporter : Vm where
  loop := .initial
  size := 1
  records := PMap.empty.insert 0 (freshModule [] true)
  namespaces := fun id => id
  deferredNamespaces := fun id => id
  evaluating := []
  guards := []
  handlers := PMap.empty
  owned := PMap.empty
  suspended := []
  activations := []

theorem initial_selfImporter : selfImporter.Initial where
  loop := .start rfl
  quiet id target h := by cases h
  linked id record h := by
    simp only [selfImporter, PMap.insert] at h
    split at h
    · cases h
      rfl
    · cases h
  handlers := rfl
  evaluating := rfl
  guards := rfl
  owned := rfl
  suspended := rfl
  activations := rfl

/-- `evaluate_linked_module` runs the body, which calls `import()` on its own module; the
`await` that follows drains the job, and the job starts the body again. -/
def reentry : List Move :=
  [.evaluate 0 none, .step 0 (.found .undefined false), .step 0 (.found .undefined false),
    .other (.create true false), .other (.enqueue (.dynamicImport 0 0 false)),
    .dispatch (.found .undefined false), .step 0 (.found .undefined false),
    .step 0 (.found .undefined false)]

theorem runs_performAll (hvm : vm.Runs) {moves : List Move} (h : vm.performAll moves = some vm') :
    vm'.Runs :=
  hvm.steps (steps_of_all h (fun _ => rfl) (fun _ _ _ => rfl) fun m _ _ _ h => ⟨m, h⟩)

end Vm

end NapiVm.Modules
