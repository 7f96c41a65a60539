import NapiVm.Jobs.Turn
import NapiVm.Lib.Run

/-!
# Hard limits are not refilled during an execution

The interpreters of an agent share one execution, and each has its own guest depth.  The steps
below are what guest code, jobs, the host and the event loop do, nested on one call stack.

* `Agent.step` — one step.
* `Agent.Busy` — guest code is on the stack, a job is being dispatched, a checkpoint is pending, a
  continuation is suspended, or the execution has outstanding work.
* `Agent.Seen` — who begins or retires an execution sees the guest code that runs.
* `Agent.limits_kept` — while the agent is busy no step gives back what was used.
-/

namespace NapiVm.Scheduler

/-- What the program and the host do to the queue. -/
inductive Change (Job : Type) where
  | pushMicrotask (job : Job)
  | pushExternalEvent (job : Job)
  | pushOverflow (job : Job)
  | pushTimer (key : Jobs.TimerKey) (id : Nat) (job : Job)
  | cancelTimer (id : Nat) (retain : Bool)
  | pushWaiter (waiter : Nat)
  | removeWaiter (waiter : Nat)

namespace JobQueue

variable {Job : Type}

def apply (q : JobQueue Job) : Change Job → JobQueue Job
  | .pushMicrotask job => { q with microtasks := q.microtasks ++ [job] }
  | .pushExternalEvent job => { q with externalEvents := q.externalEvents ++ [job] }
  | .pushOverflow job => { q with hostOverflow := q.hostOverflow ++ [job] }
  | .pushTimer key id job => { q with timers := q.timers.insert key id job }
  | .cancelTimer id retain => { q with timers := q.timers.cancel id retain }
  | .pushWaiter waiter => { q with atomicsWaiters := q.atomicsWaiters ++ [waiter] }
  | .removeWaiter waiter => { q with atomicsWaiters := q.atomicsWaiters.filter (· ≠ waiter) }

end JobQueue

/-- What is on the call stack: a guest entry of an interpreter, a call of `poll_queued_jobs`, or a
job that it or a synchronous `await` dispatched. -/
inductive Call where
  | guest (vm : Nat)
  | poll (p : Poll)
  | dispatch

def Call.isPoll : Call → Bool
  | .poll _ => true
  | _ => false

def Call.isDispatch : Call → Bool
  | .dispatch => true
  | _ => false

def Call.isGuest (vm : Nat) : Call → Bool
  | .guest vm' => vm' == vm
  | _ => false

/-- The interpreters of one agent.  `suspended` counts the guest entries of an interpreter that lie
on the stack of a suspended coroutine. -/
structure Agent (Job : Type) where
  shared : Shared Job
  vms : Nat → Interpreter
  suspended : Nat → Nat
  calls : List Call
  returned : Option (Except VmErr TurnOutcome)

inductive Op (Job : Type) where
  | beginExecution (vm : Nat)
  | retireCompletedExecution (vm : Nat)
  | enter (vm : Nat)
  | leave (vm : Nat)
  | suspend (vm : Nat)
  | resume (vm : Nat)
  | spawnAsync
  | finishAsync
  | consumeFuel (now cost : Nat)
  | consumeLoop (now : Nat)
  | change (change : Change Job)
  | cancel
  | setDeadline (deadline : Option Nat)
  | poll (vm : Nat) (budget : TurnBudget) (microtasksOnly : Bool) (clock : Option Nat)
  | turn (env : Surroundings Job)
  | awaitTimer (env : Surroundings Job)
  | dispatched (result : Except VmErr Unit)

namespace Agent

variable {Job : Type}

/-- Something other than the loop of `poll_queued_jobs` runs. -/
def runs : List Call → Bool
  | .poll _ :: _ => false
  | _ => true

/-- An interpreter may act: the loop of `poll_queued_jobs` does not run, and the interpreter is not
that of a suspended body. -/
def Free (a : Agent Job) (vm : Nat) : Prop := runs a.calls = true ∧ a.suspended vm = 0

instance (a : Agent Job) (vm : Nat) : Decidable (a.Free vm) := inferInstanceAs (Decidable (_ ∧ _))

def setDepth (a : Agent Job) (vm depth : Nat) : Nat → Interpreter :=
  Function.update a.vms vm { a.vms vm with guestExecutionDepth := depth }

def setExecution (a : Agent Job) (e : ExecutionState) : Agent Job :=
  { a with shared := { a.shared with execution := e } }

/-- `poll_queued_jobs` up to its loop. -/
def startPoll (a : Agent Job) (vm : Nat) (budget : TurnBudget) (microtasksOnly : Bool)
    (clock : Option Nat) : Agent Job :=
  let s := if a.shared.execution.active = false ∧ a.shared.execution.drainDepth = 0 ∧
        a.shared.queue.isRunnable clock = true then
      a.shared.beginExecution (a.vms vm)
    else a.shared
  { a with
    shared := { s with execution := { s.execution with drainDepth := s.execution.drainDepth + 1 } }
    calls := .poll ⟨vm, budget, microtasksOnly, s.execution.jobs, 0⟩ :: a.calls }

/-- The call returns, and `DrainGuard` is dropped. -/
def finishPoll (a : Agent Job) (s : Shared Job) (calls : List Call)
    (result : Except VmErr TurnOutcome) : Agent Job :=
  { a with
    shared :=
      { execution := { s.execution with drainDepth := s.execution.drainDepth - 1 }
        queue := { s.queue with checkpointPending := s.queue.hasMicrotasks } }
    calls := calls
    returned := some result }

/-- A job is dispatched under `DispatchGuard`. -/
def startDispatch (a : Agent Job) (s : Shared Job) (calls : List Call) : Agent Job :=
  { a with
    shared := { s with queue := { s.queue with dispatchDepth := s.queue.dispatchDepth + 1 } }
    calls := .dispatch :: calls }

/-- `run_await_timer`, up to the job that it dispatches. -/
def awaitTimer (a : Agent Job) (env : Surroundings Job) : Agent Job :=
  let s := a.shared
  match s.execution.check env.now with
  | .error _ => a
  | .ok () =>
    if s.queue.hasDueTimer env.clock = false ∨ s.execution.jobs = 0 then a
    else
      match s.queue.takeTimer env.clock env.retain with
      | (none, q) => { a with shared := { s with queue := q } }
      | (some _, q) =>
        a.startDispatch ⟨{ s.execution with jobs := s.execution.jobs - 1 }, q⟩ a.calls

/-- A dispatched job ends: the call that dispatched it goes on, or returns the error. -/
def finishDispatch (a : Agent Job) (calls : List Call) (result : Except VmErr Unit) : Agent Job :=
  let s : Shared Job :=
    { a.shared with
      queue := { a.shared.queue with dispatchDepth := a.shared.queue.dispatchDepth - 1 } }
  match calls, result with
  | .poll p :: calls, .ok () =>
    { a with
      shared := s
      calls := .poll { p with executed := p.initialRemaining - s.execution.jobs } :: calls }
  | .poll _ :: calls, .error err => a.finishPoll s calls (.error err)
  | calls, _ => { a with shared := s, calls := calls }

/-- One step, where it can be made. -/
def step (a : Agent Job) : Op Job → Option (Agent Job)
  | .beginExecution vm =>
    if a.Free vm then some { a with shared := a.shared.beginExecution (a.vms vm) } else none
  | .retireCompletedExecution vm =>
    if a.Free vm then
      some { a with shared := a.shared.retireCompletedExecution (a.vms vm) }
    else none
  | .enter vm =>
    if a.Free vm then
      some { a with
        vms := a.setDepth vm ((a.vms vm).guestExecutionDepth + 1)
        calls := .guest vm :: a.calls }
    else none
  | .leave vm =>
    match a.calls with
    | .guest vm' :: calls =>
      if vm' = vm then
        some { a with
          vms := a.setDepth vm ((a.vms vm).guestExecutionDepth - 1)
          calls := calls }
      else none
    | _ => none
  | .suspend vm =>
    match a.calls with
    | .guest vm' :: calls =>
      if vm' = vm then
        some { a with
          suspended := Function.update a.suspended vm (a.suspended vm + 1)
          calls := calls }
      else none
    | _ => none
  | .resume vm =>
    if runs a.calls = true ∧ 0 < a.suspended vm then
      some { a with
        suspended := Function.update a.suspended vm (a.suspended vm - 1)
        calls := .guest vm :: a.calls }
    else none
  | .spawnAsync =>
    if runs a.calls then
      some (a.setExecution { a.shared.execution with
        continuations := a.shared.execution.continuations + 1 })
    else none
  | .finishAsync =>
    if runs a.calls then
      some (a.setExecution { a.shared.execution with
        continuations := a.shared.execution.continuations - 1 })
    else none
  | .consumeFuel now cost =>
    if runs a.calls then some (a.setExecution (a.shared.execution.consumeFuel now cost).2)
    else none
  | .consumeLoop now =>
    if runs a.calls then some (a.setExecution (a.shared.execution.consumeLoop now).2) else none
  | .change change =>
    if runs a.calls then
      some { a with shared := { a.shared with queue := a.shared.queue.apply change } }
    else none
  | .cancel => some (a.setExecution { a.shared.execution with cancellation := true })
  | .setDeadline deadline =>
    some (a.setExecution { a.shared.execution with deadline := deadline })
  | .poll vm budget microtasksOnly clock =>
    if a.Free vm then some (a.startPoll vm budget microtasksOnly clock) else none
  | .turn env =>
    match a.calls with
    | .poll p :: calls =>
      match p.turn (a.vms p.vm) env a.shared with
      | (.returns result, s) => some (a.finishPoll s calls result)
      | (.dispatches _ initialRemaining, s) =>
        some (a.startDispatch s (.poll { p with initialRemaining := initialRemaining } :: calls))
    | _ => none
  | .awaitTimer env =>
    match a.calls with
    | .guest _ :: _ => some (a.awaitTimer env)
    | _ => none
  | .dispatched result =>
    match a.calls with
    | .dispatch :: calls => some (a.finishDispatch calls result)
    | _ => none

/-! ## What holds of a run -/

/-- Guest code is on the call stack. -/
def Guest (a : Agent Job) : Prop := ∃ vm, Call.guest vm ∈ a.calls

/-- What keeps the limits of an execution from being filled. -/
def Busy (a : Agent Job) : Prop :=
  a.Guest ∨ Call.dispatch ∈ a.calls ∨ a.shared.queue.checkpointPending = true ∨
    0 < a.shared.execution.continuations ∨
    a.shared.execution.active = true ∧ a.shared.queue.hasOutstandingWork = true

/-- Nothing runs yet. -/
structure Fresh (a : Agent Job) : Prop where
  active : a.shared.execution.active = false
  drainDepth : a.shared.execution.drainDepth = 0
  continuations : a.shared.execution.continuations = 0
  queue : a.shared.queue = .empty
  calls : a.calls = []
  suspended : ∀ vm, a.suspended vm = 0
  depth : ∀ vm, (a.vms vm).guestExecutionDepth = 0

/-- The condition on a step.  Guest code enters a bare stack only in a begun execution.  While guest
code runs, whoever begins or retires an execution has entered it too, unless something else makes
`begin_execution` or `retire_completed_execution` return early. -/
def Seen (a : Agent Job) : Op Job → Prop
  | .enter _ | .resume _ | .spawnAsync => a.calls = [] → a.shared.execution.active = true
  | .beginExecution vm =>
    a.Guest → (a.vms vm).guestExecutionDepth ≠ 0 ∨ a.shared.underway = true
  | .retireCompletedExecution vm =>
    a.Guest → (a.vms vm).guestExecutionDepth ≠ 0 ∨ a.shared.unfinished = true
  | .turn _ => ∀ p calls, a.calls = .poll p :: calls →
      a.Guest → ¬ a.shared.Complete (a.vms p.vm)
  | _ => True

/-- A step that meets the condition. -/
def Next (a a' : Agent Job) : Prop := ∃ op, a.Seen op ∧ a.step op = some a'

/-! ## The call stack -/

/-- A job is dispatched by the loop or by guest code, and the loop calls nothing else. -/
def Nested : List Call → Prop
  | [] => True
  | .dispatch :: calls => (∃ c rest, calls = c :: rest ∧ c ≠ .dispatch) ∧ Nested calls
  | _ :: calls => runs calls = true ∧ Nested calls

theorem Nested.tail {c : Call} {calls : List Call} (h : Nested (c :: calls)) : Nested calls := by
  cases c with
  | dispatch => exact h.2
  | guest vm => exact h.2
  | poll p => exact h.2

/-- Below what runs, each call of the loop dispatches a job. -/
theorem Nested.dispatch_mem {calls : List Call} (h : Nested calls) (hruns : runs calls = true)
    {p : Poll} (hp : Call.poll p ∈ calls) : Call.dispatch ∈ calls := by
  induction calls with
  | nil => cases hp
  | cons c calls ih =>
    cases c with
    | dispatch => exact List.mem_cons_self
    | poll q => cases hruns
    | guest vm =>
      have hp' : Call.poll p ∈ calls := by simpa using hp
      exact List.mem_cons_of_mem _ (ih h.2 h.1 hp')

/-- A job is dispatched by the loop, or guest code waits for it. -/
theorem Nested.of_dispatch {calls : List Call} (h : Nested calls) (hd : Call.dispatch ∈ calls) :
    (∃ vm, Call.guest vm ∈ calls) ∨ ∃ p, Call.poll p ∈ calls := by
  induction calls with
  | nil => cases hd
  | cons c calls ih =>
    cases c with
    | guest vm => exact .inl ⟨vm, List.mem_cons_self⟩
    | poll p => exact .inr ⟨p, List.mem_cons_self⟩
    | dispatch =>
      obtain ⟨⟨c, rest, rfl, hc⟩, -⟩ := h
      cases c with
      | dispatch => exact absurd rfl hc
      | guest vm => exact .inl ⟨vm, List.mem_cons_of_mem _ List.mem_cons_self⟩
      | poll p => exact .inr ⟨p, List.mem_cons_of_mem _ List.mem_cons_self⟩

theorem countP_guest_self (vm : Nat) (calls : List Call) :
    (Call.guest vm :: calls).countP (Call.isGuest vm) = calls.countP (Call.isGuest vm) + 1 :=
  List.countP_cons_of_pos (beq_self_eq_true vm)

theorem countP_guest_of_ne {vm vm' : Nat} (h : vm' ≠ vm) (calls : List Call) :
    (Call.guest vm :: calls).countP (Call.isGuest vm') = calls.countP (Call.isGuest vm') :=
  List.countP_cons_of_neg fun heq => h (beq_iff_eq.1 heq).symm

theorem of_guard {α : Type} {c : Prop} [Decidable c] {x y : α}
    (h : (if c then some x else none) = some y) : c ∧ x = y := by
  obtain ⟨hc, hsome⟩ := Option.ite_none_right_eq_some.1 h
  exact ⟨hc, Option.some.inj hsome⟩

/-- **The invariant.**  What is busy is active, the depths count the calls, and a pending checkpoint
has a microtask or a loop that runs it. -/
structure Sound (a : Agent Job) : Prop where
  active : a.Busy → a.shared.execution.active = true
  drainDepth : a.shared.execution.drainDepth = a.calls.countP Call.isPoll
  dispatchDepth : a.shared.queue.dispatchDepth = a.calls.countP Call.isDispatch
  pending : a.shared.queue.checkpointPending = true →
    a.shared.queue.microtasks ≠ [] ∨ 0 < a.shared.execution.drainDepth
  quiet : runs a.calls = false → a.shared.execution.active = false → a.shared.queue.microtasks = []
  nested : Nested a.calls
  depth : ∀ vm, (a.vms vm).guestExecutionDepth = a.calls.countP (Call.isGuest vm) + a.suspended vm

namespace Sound

variable {a : Agent Job}

theorem fresh (h : a.Fresh) : a.Sound where
  active hbusy := by
    rcases hbusy with ⟨vm, hvm⟩ | hd | hcp | hcont | ⟨hactive, -⟩
    · rw [h.calls] at hvm; cases hvm
    · rw [h.calls] at hd; cases hd
    · rw [h.queue] at hcp; cases hcp
    · rw [h.continuations] at hcont; cases hcont
    · exact hactive
  drainDepth := by rw [h.drainDepth, h.calls]; rfl
  dispatchDepth := by rw [h.queue, h.calls]; rfl
  pending hcp := by rw [h.queue] at hcp; cases hcp
  quiet _ _ := by rw [h.queue]; rfl
  nested := by rw [h.calls]; trivial
  depth vm := by rw [h.depth, h.calls, h.suspended]; rfl

/-- Whoever runs on top of something runs in an execution. -/
theorem active_of_runs (h : a.Sound) (hruns : runs a.calls = true) (hcalls : a.calls ≠ []) :
    a.shared.execution.active = true := by
  cases hc : a.calls with
  | nil => exact absurd hc hcalls
  | cons c calls =>
    cases c with
    | guest vm => exact h.active (.inl ⟨vm, by rw [hc]; exact List.mem_cons_self⟩)
    | dispatch => exact h.active (.inr (.inl (by rw [hc]; exact List.mem_cons_self)))
    | poll p => rw [hc] at hruns; cases hruns

theorem poll_mem (h : a.Sound) : 0 < a.shared.execution.drainDepth ↔ ∃ p, Call.poll p ∈ a.calls := by
  rw [h.drainDepth, List.countP_pos_iff]
  constructor
  · rintro ⟨c, hc, hpoll⟩
    cases c with
    | poll p => exact ⟨p, hc⟩
    | guest vm => cases hpoll
    | dispatch => cases hpoll
  · rintro ⟨p, hp⟩
    exact ⟨_, hp, rfl⟩

theorem dispatch_mem (h : a.Sound) :
    0 < a.shared.queue.dispatchDepth ↔ Call.dispatch ∈ a.calls := by
  rw [h.dispatchDepth, List.countP_pos_iff]
  constructor
  · rintro ⟨c, hc, hd⟩
    cases c with
    | poll p => cases hd
    | guest vm => cases hd
    | dispatch => exact hc
  · intro hd
    exact ⟨_, hd, rfl⟩

/-- Where no job is dispatched, the loop runs itself or not at all. -/
theorem drainDepth_eq_zero (h : a.Sound) (hruns : runs a.calls = true)
    (hd : Call.dispatch ∉ a.calls) : a.shared.execution.drainDepth = 0 := by
  by_contra hpos
  obtain ⟨p, hp⟩ := h.poll_mem.1 (Nat.pos_of_ne_zero hpos)
  exact hd (h.nested.dispatch_mem hruns hp)

/-! ## Steps of the code that runs -/

variable {e : ExecutionState} {vms : Nat → Interpreter} {suspended : Nat → Nat}

/-- A step that leaves the stack, the queue and the depths alone. -/
theorem setExecution (h : a.Sound) (hactive : e.active = a.shared.execution.active)
    (hdrain : e.drainDepth = a.shared.execution.drainDepth)
    (hcont : 0 < e.continuations →
      0 < a.shared.execution.continuations ∨ a.shared.execution.active = true) :
    (a.setExecution e).Sound where
  active hbusy := by
    refine hactive.trans ?_
    rcases hbusy with hg | hd | hcp | hc | ⟨he, -⟩
    · exact h.active (.inl hg)
    · exact h.active (.inr (.inl hd))
    · exact h.active (.inr (.inr (.inl hcp)))
    · rcases hcont hc with hc | ha
      · exact h.active (.inr (.inr (.inr (.inl hc))))
      · exact ha
    · exact hactive.symm.trans he
  drainDepth := hdrain.trans h.drainDepth
  dispatchDepth := h.dispatchDepth
  pending hcp := (h.pending hcp).imp_right fun hpos => by
    show 0 < e.drainDepth
    rw [hdrain]
    exact hpos
  quiet hruns he := h.quiet hruns (hactive.symm.trans he)
  nested := h.nested
  depth := h.depth

theorem uses (h : a.Sound) (hu : ExecutionState.Uses a.shared.execution e) :
    (a.setExecution e).Sound :=
  h.setExecution hu.active hu.drainDepth fun hc => .inl (by rw [← hu.continuations]; exact hc)

theorem beginExecution (h : a.Sound) (vm : Nat) (hruns : runs a.calls = true) :
    Sound { a with shared := a.shared.beginExecution (a.vms vm) } := by
  rcases a.shared.beginExecution_cases (a.vms vm) with ⟨hsame, -⟩ | ⟨-, -, hfilled⟩
  · rw [hsame]
    exact h
  · rw [hfilled]
    exact ⟨fun _ => rfl, h.drainDepth, h.dispatchDepth, h.pending,
      fun hnot => absurd (hruns.symm.trans hnot) (by decide), h.nested, h.depth⟩

variable {vm : Nat} {calls : List Call} {a' : Agent Job}

theorem retire (h : a.Sound) (hruns : runs a.calls = true)
    (hseen : a.Seen (.retireCompletedExecution vm)) :
    Sound { a with shared := a.shared.retireCompletedExecution (a.vms vm) } := by
  rcases a.shared.retire_cases (a.vms vm) with hsame | ⟨hdone, hdepth, hretired⟩
  · rw [hsame]
    exact h
  · obtain ⟨-, hwork, hcont, hzero⟩ := Shared.unfinished_eq_false.1 hdone
    have hnodispatch : Call.dispatch ∉ a.calls := fun hd =>
      absurd (h.dispatch_mem.2 hd) (by rw [hzero]; exact Nat.lt_irrefl 0)
    have hnoguest : ¬ a.Guest := fun hg => by
      rcases hseen hg with hne | hyes
      · exact hne hdepth
      · exact absurd (hdone.symm.trans hyes) (by decide)
    have hnocheck : ¬ a.shared.queue.checkpointPending = true := fun hcp => by
      rcases h.pending hcp with hmicro | hpos
      · exact hmicro (JobQueue.microtasks_of_not_outstanding hwork)
      · rw [h.drainDepth_eq_zero hruns hnodispatch] at hpos
        exact Nat.lt_irrefl 0 hpos
    rw [hretired]
    refine ⟨fun hbusy => ?_, h.drainDepth, h.dispatchDepth, h.pending,
      fun hnot => absurd (hruns.symm.trans hnot) (by decide), h.nested, h.depth⟩
    rcases hbusy with hg | hd | hcp | hc | ⟨he, -⟩
    · exact absurd hg hnoguest
    · exact absurd hd hnodispatch
    · exact absurd hcp hnocheck
    · rw [hcont] at hc
      exact absurd hc (Nat.lt_irrefl 0)
    · exact he

theorem change (h : a.Sound) (hruns : runs a.calls = true) (c : Change Job) :
    Sound { a with shared := { a.shared with queue := a.shared.queue.apply c } } := by
  have hsame : (a.shared.queue.apply c).checkpointPending = a.shared.queue.checkpointPending ∧
      (a.shared.queue.apply c).dispatchDepth = a.shared.queue.dispatchDepth ∧
      (a.shared.queue.microtasks ≠ [] → (a.shared.queue.apply c).microtasks ≠ []) := by
    cases c with
    | pushMicrotask job => exact ⟨rfl, rfl, fun _ => List.append_ne_nil_of_right_ne_nil _ (by simp)⟩
    | _ => exact ⟨rfl, rfl, id⟩
  obtain ⟨hcheck, hdispatch, hmicro⟩ := hsame
  refine ⟨fun hbusy => ?_, h.drainDepth, hdispatch.trans h.dispatchDepth,
    fun hcp => (h.pending (hcheck.symm.trans hcp)).imp_left hmicro,
    fun hnot => absurd (hruns.symm.trans hnot) (by decide), h.nested, h.depth⟩
  rcases hbusy with hg | hd | hcp | hc | ⟨he, -⟩
  · exact h.active (.inl hg)
  · exact h.active (.inr (.inl hd))
  · exact h.active (.inr (.inr (.inl (hcheck.symm.trans hcp))))
  · exact h.active (.inr (.inr (.inr (.inl hc))))
  · exact he

/-- Guest code begins to run on top of the stack. -/
theorem push (h : a.Sound)
    (hruns : runs a.calls = true) (hactive : a.calls = [] → a.shared.execution.active = true)
    (hdepth : ∀ vm', (vms vm').guestExecutionDepth =
      (Call.guest vm :: a.calls).countP (Call.isGuest vm') + suspended vm') :
    Sound { a with vms := vms, suspended := suspended, calls := .guest vm :: a.calls } where
  active _ := by
    by_cases hcalls : a.calls = []
    · exact hactive hcalls
    · exact h.active_of_runs hruns hcalls
  drainDepth := h.drainDepth
  dispatchDepth := h.dispatchDepth
  pending := h.pending
  quiet hnot := by cases hnot
  nested := ⟨hruns, h.nested⟩
  depth := hdepth

/-- Guest code on top of the stack goes. -/
theorem pop (h : a.Sound) (hcalls : a.calls = .guest vm :: calls)
    (hdepth : ∀ vm', (vms vm').guestExecutionDepth =
      calls.countP (Call.isGuest vm') + suspended vm') :
    Sound { a with vms := vms, suspended := suspended, calls := calls } where
  active hbusy := by
    refine h.active ?_
    rcases hbusy with ⟨vm', hvm⟩ | hd | hrest
    · exact .inl ⟨vm', by rw [hcalls]; exact List.mem_cons_of_mem _ hvm⟩
    · exact .inr (.inl (by rw [hcalls]; exact List.mem_cons_of_mem _ hd))
    · exact .inr (.inr hrest)
  drainDepth := by
    have hcount := h.drainDepth
    rw [hcalls] at hcount
    exact hcount
  dispatchDepth := by
    have hcount := h.dispatchDepth
    rw [hcalls] at hcount
    exact hcount
  pending := h.pending
  quiet hnot := by
    have hnested := h.nested
    rw [hcalls] at hnested
    exact absurd (hnested.1.symm.trans hnot) (by decide)
  nested := by
    have hnested := h.nested
    rw [hcalls] at hnested
    exact hnested.2
  depth := hdepth

/-! ## The loop -/

section

variable (h : a.Sound)

include h

/-- A call of the loop is on the stack. -/
theorem pushPoll (p : Poll) (hruns : runs a.calls = true)
    (hquiet : a.shared.execution.active = false → a.shared.queue.microtasks = []) :
    Sound { a with
      shared := { a.shared with execution := { a.shared.execution with
        drainDepth := a.shared.execution.drainDepth + 1 } }
      calls := .poll p :: a.calls } where
  active hbusy := by
    refine h.active ?_
    rcases hbusy with ⟨vm, hvm⟩ | hd | hrest
    · exact .inl ⟨vm, by simpa using hvm⟩
    · exact .inr (.inl (by simpa using hd))
    · exact .inr (.inr hrest)
  drainDepth := by
    show a.shared.execution.drainDepth + 1 = (Call.poll p :: a.calls).countP Call.isPoll
    rw [List.countP_cons_of_pos rfl, h.drainDepth]
  dispatchDepth := h.dispatchDepth
  pending _ := .inr (Nat.succ_pos _)
  quiet _ := hquiet
  nested := ⟨hruns, h.nested⟩
  depth := h.depth

/-- Nothing of an interpreter that is free is on the stack outside an execution. -/
theorem depth_eq_zero (hsuspended : a.suspended vm = 0)
    (hactive : a.shared.execution.active = false) : (a.vms vm).guestExecutionDepth = 0 := by
  rw [h.depth, hsuspended, Nat.add_zero, List.countP_eq_zero]
  intro c hc hguest
  cases c with
  | guest vm' => exact absurd (hactive.symm.trans (h.active (.inl ⟨vm', hc⟩))) (by decide)
  | poll p => cases hguest
  | dispatch => cases hguest

/-- Outside an execution nothing makes `begin_execution` return early. -/
theorem underway_eq_false (hactive : a.shared.execution.active = false)
    (hdrain : a.shared.execution.drainDepth = 0) : a.shared.underway = false := by
  refine Shared.underway_eq_false.2
    ⟨fun ha => absurd (hactive.symm.trans ha) (by decide), hdrain, ?_⟩
  by_contra hcp
  have ha := h.active (.inr (.inr (.inl (Bool.eq_true_of_not_eq_false hcp))))
  exact absurd (hactive.symm.trans ha) (by decide)

theorem startPoll (budget : TurnBudget) (microtasksOnly : Bool) (clock : Option Nat)
    (hfree : a.Free vm) : (a.startPoll vm budget microtasksOnly clock).Sound := by
  obtain ⟨hruns, hsuspended⟩ := hfree
  rw [Agent.startPoll]
  split
  · rename_i hfresh
    obtain ⟨hactive, hdrain, -⟩ := hfresh
    rcases a.shared.beginExecution_cases (a.vms vm) with ⟨-, hearly⟩ | ⟨-, -, hfilled⟩
    · rcases hearly with hyes | hne
      · exact absurd ((h.underway_eq_false hactive hdrain).symm.trans hyes) (by decide)
      · exact absurd (h.depth_eq_zero hsuspended hactive) hne
    · have hsound := h.beginExecution vm hruns
      refine hsound.pushPoll _ hruns fun hnot => ?_
      rw [hfilled] at hnot
      cases hnot
  · rename_i hnotfresh
    refine h.pushPoll _ hruns fun hactive => ?_
    have hdrain : a.shared.execution.drainDepth = 0 := by
      refine h.drainDepth_eq_zero hruns fun hd => ?_
      exact absurd (hactive.symm.trans (h.active (.inr (.inl hd)))) (by decide)
    have hidle : a.shared.queue.isRunnable clock = false := by
      by_contra hrun
      exact hnotfresh ⟨hactive, hdrain, Bool.eq_true_of_not_eq_false hrun⟩
    simp only [JobQueue.isRunnable, Bool.or_eq_false_iff] at hidle
    simpa [JobQueue.hasMicrotasks] using hidle.1.1

variable {s : Shared Job} {p : Poll} {rest : List Call} {op : Op Job}

/-- A call of the loop returns. -/
theorem finishPoll (hcalls : a.calls = .poll p :: calls) (result : Except VmErr TurnOutcome)
    (hdrain : s.execution.drainDepth = a.shared.execution.drainDepth)
    (hdispatch : s.queue.dispatchDepth = a.shared.queue.dispatchDepth)
    (hactive : s.execution.active = false →
      ¬ a.Guest ∧ Call.dispatch ∉ a.calls ∧ s.execution.continuations = 0 ∧
        s.queue.microtasks = []) :
    (a.finishPoll s calls result).Sound where
  active hbusy := by
    by_contra hnot
    obtain ⟨hnoguest, hnodispatch, hcont, hmicro⟩ := hactive (Bool.eq_false_of_not_eq_true hnot)
    rcases hbusy with ⟨vm, hvm⟩ | hd | hcp | hc | ⟨he, -⟩
    · exact hnoguest ⟨vm, by rw [hcalls]; exact List.mem_cons_of_mem _ hvm⟩
    · exact hnodispatch (by rw [hcalls]; exact List.mem_cons_of_mem _ hd)
    · have hsome : s.queue.microtasks ≠ [] := by
        simpa [Agent.finishPoll, JobQueue.hasMicrotasks] using hcp
      exact hsome hmicro
    · have hpos : 0 < s.execution.continuations := hc
      rw [hcont] at hpos
      exact Nat.lt_irrefl 0 hpos
    · exact hnot he
  drainDepth := by
    have hcount := h.drainDepth
    rw [hcalls, List.countP_cons_of_pos rfl] at hcount
    show s.execution.drainDepth - 1 = calls.countP Call.isPoll
    rw [hdrain, hcount, Nat.add_sub_cancel]
  dispatchDepth := by
    have hcount := h.dispatchDepth
    rw [hcalls] at hcount
    exact hdispatch.trans hcount
  pending hcp := .inl (by simpa [Agent.finishPoll, JobQueue.hasMicrotasks] using hcp)
  quiet hnot := by
    have hnested := h.nested
    rw [hcalls] at hnested
    exact absurd (hnested.1.symm.trans hnot) (by decide)
  nested := by
    have hnested := h.nested
    rw [hcalls] at hnested
    exact hnested.2
  depth vm := by
    have hcount := h.depth vm
    rw [hcalls] at hcount
    exact hcount

/-- A job is dispatched in an execution. -/
theorem startDispatch {c : Call}
    (hrest : a.calls = c :: rest) (hc : c ≠ .dispatch) (hactive : s.execution.active = true)
    (hdrain : s.execution.drainDepth = a.shared.execution.drainDepth)
    (hdispatch : s.queue.dispatchDepth = a.shared.queue.dispatchDepth)
    (hcalls : calls = a.calls ∨ ∃ p q, c = .poll p ∧ calls = .poll q :: rest)
    (hpending : s.queue.checkpointPending = true →
      s.queue.microtasks ≠ [] ∨ 0 < s.execution.drainDepth) :
    (a.startDispatch s calls).Sound := by
  obtain ⟨hpoll, hjob, hguest, hnested, htop⟩ :
      calls.countP Call.isPoll = a.calls.countP Call.isPoll ∧
      calls.countP Call.isDispatch = a.calls.countP Call.isDispatch ∧
      (∀ vm, calls.countP (Call.isGuest vm) = a.calls.countP (Call.isGuest vm)) ∧ Nested calls ∧
      ∃ c rest, calls = c :: rest ∧ c ≠ .dispatch := by
    rcases hcalls with rfl | ⟨p, q, rfl, rfl⟩
    · exact ⟨rfl, rfl, fun _ => rfl, h.nested, c, rest, hrest, hc⟩
    · have hnested := h.nested
      rw [hrest] at hnested ⊢
      refine ⟨?_, ?_, fun vm => ?_, hnested, _, rest, rfl, nofun⟩
      · rw [List.countP_cons_of_pos rfl, List.countP_cons_of_pos rfl]
      · rw [List.countP_cons_of_neg Bool.false_ne_true, List.countP_cons_of_neg Bool.false_ne_true]
      · rw [List.countP_cons_of_neg Bool.false_ne_true, List.countP_cons_of_neg Bool.false_ne_true]
  refine ⟨fun _ => hactive, ?_, ?_, hpending, nofun, ⟨htop, hnested⟩, fun vm => ?_⟩
  · show s.execution.drainDepth = (Call.dispatch :: calls).countP Call.isPoll
    rw [List.countP_cons_of_neg Bool.false_ne_true, hpoll, hdrain, h.drainDepth]
  · show s.queue.dispatchDepth + 1 = (Call.dispatch :: calls).countP Call.isDispatch
    rw [List.countP_cons_of_pos rfl, hjob, hdispatch, h.dispatchDepth]
  · show (a.vms vm).guestExecutionDepth =
      (Call.dispatch :: calls).countP (Call.isGuest vm) + a.suspended vm
    rw [List.countP_cons_of_neg Bool.false_ne_true, hguest, h.depth]

/-- A synchronous `await` dispatches a timer, or does nothing. -/
theorem awaitTimer (hcalls : a.calls = .guest vm :: rest) (env : Surroundings Job) :
    (a.awaitTimer env).Sound := by
  have hruns : runs a.calls = true := by rw [hcalls]; rfl
  have hactive : a.shared.execution.active = true :=
    h.active (.inl ⟨vm, by rw [hcalls]; exact List.mem_cons_self⟩)
  rw [Agent.awaitTimer]
  split
  · exact h
  · split
    · exact h
    · have hbeside := JobQueue.beside_takeTimer (q := a.shared.queue) env.clock env.retain
      have hcheck : (a.shared.queue.takeTimer env.clock env.retain).2.checkpointPending =
          a.shared.queue.checkpointPending := by
        rw [JobQueue.takeTimer]
        split
        · rfl
        · rfl
      split
      · rename_i q htake
        rw [htake] at hbeside hcheck
        refine ⟨fun _ => hactive, h.drainDepth, hbeside.dispatchDepth.trans h.dispatchDepth,
          fun hcp => ?_, fun hnot => absurd (hruns.symm.trans hnot) (by decide), h.nested, h.depth⟩
        exact (h.pending (hcheck.symm.trans hcp)).imp_left fun hne => by
          rw [hbeside.microtasks]
          exact hne
      · rename_i job q htake
        rw [htake] at hbeside hcheck
        refine h.startDispatch hcalls (by simp) hactive rfl hbeside.dispatchDepth
          (.inl rfl) fun hcp => ?_
        exact (h.pending (hcheck.symm.trans hcp)).imp_left fun hne => by
          rw [hbeside.microtasks]
          exact hne

/-- A dispatched job is off the stack. -/
theorem popDispatch (hcalls : a.calls = .dispatch :: calls) :
    Sound { a with
      shared := { a.shared with queue := { a.shared.queue with
        dispatchDepth := a.shared.queue.dispatchDepth - 1 } }
      calls := calls } where
  active _ := h.active (.inr (.inl (by rw [hcalls]; exact List.mem_cons_self)))
  drainDepth := by
    have hcount := h.drainDepth
    rw [hcalls] at hcount
    exact hcount
  dispatchDepth := by
    have hcount := h.dispatchDepth
    rw [hcalls, List.countP_cons_of_pos rfl] at hcount
    show a.shared.queue.dispatchDepth - 1 = calls.countP Call.isDispatch
    rw [hcount, Nat.add_sub_cancel]
  pending := h.pending
  quiet _ hnot := by
    have hactive := h.active (.inr (.inl (by rw [hcalls]; exact List.mem_cons_self)))
    exact absurd (hactive.symm.trans hnot) (by decide)
  nested := by
    have hnested := h.nested
    rw [hcalls] at hnested
    exact hnested.tail
  depth vm := by
    have hcount := h.depth vm
    rw [hcalls] at hcount
    exact hcount

theorem finishDispatch (hcalls : a.calls = .dispatch :: calls) (result : Except VmErr Unit) :
    (a.finishDispatch calls result).Sound := by
  have hpopped := h.popDispatch hcalls
  have hactive := h.active (.inr (.inl (by rw [hcalls]; exact List.mem_cons_self)))
  simp only [Agent.finishDispatch]
  split
  · rename_i p rest
    refine ⟨fun _ => hactive, ?_, ?_, hpopped.pending, hpopped.quiet, hpopped.nested, fun vm => ?_⟩
    · have hcount := hpopped.drainDepth
      rw [List.countP_cons_of_pos rfl] at hcount ⊢
      exact hcount
    · exact hpopped.dispatchDepth
    · exact hpopped.depth vm
  · rename_i p rest err
    refine hpopped.finishPoll rfl (.error err) rfl rfl fun hnot => ?_
    exact absurd (hactive.symm.trans hnot) (by decide)
  · exact hpopped

theorem turn (hcalls : a.calls = .poll p :: calls) (env : Surroundings Job)
    (hseen : a.Seen (.turn env)) (hstep : a.step (.turn env) = some a') : a'.Sound := by
  have hspec := Poll.spec_turn p (a.vms p.vm) env a.shared
  have hquiet := h.quiet (by rw [hcalls]; rfl)
  have hpos : 0 < a.shared.execution.drainDepth :=
    h.poll_mem.2 ⟨p, by rw [hcalls]; exact List.mem_cons_self⟩
  simp only [step, hcalls] at hstep
  split at hstep
  · rename_i result s hturn
    obtain rfl := Option.some.inj hstep
    rw [hturn] at hspec
    refine h.finishPoll hcalls result hspec.drainDepth hspec.dispatchDepth fun hnot => ?_
    have hmicro := hspec.quiet hquiet hnot
    by_cases hactive : a.shared.execution.active = true
    · rcases hspec.keeps hactive with hyes | hdone
      · exact absurd (hnot.symm.trans hyes) (by decide)
      · refine ⟨fun hg => hseen p calls hcalls hg hdone, fun hd => ?_,
          hspec.continuations.trans hdone.2.2.1, hmicro⟩
        have hdispatch := h.dispatch_mem.2 hd
        rw [hdone.2.2.2] at hdispatch
        exact Nat.lt_irrefl 0 hdispatch
    · refine ⟨fun hg => hactive (h.active (.inl hg)), fun hd => hactive (h.active (.inr (.inl hd))),
        ?_, hmicro⟩
      by_contra hcont
      refine hactive (h.active (.inr (.inr (.inr (.inl ?_)))))
      rw [← hspec.continuations]
      exact Nat.pos_of_ne_zero hcont
  · rename_i job initialRemaining s hturn
    obtain rfl := Option.some.inj hstep
    rw [hturn] at hspec
    refine h.startDispatch hcalls nofun (hspec.works job initialRemaining rfl)
      hspec.drainDepth hspec.dispatchDepth (.inr ⟨p, _, rfl, rfl⟩) fun _ => .inr ?_
    rw [hspec.drainDepth]
    exact hpos

/-- **A step keeps the invariant.** -/
theorem step (hseen : a.Seen op) (hstep : a.step op = some a') : a'.Sound := by
  cases op with
  | beginExecution vm =>
    obtain ⟨hfree, rfl⟩ := of_guard hstep
    exact h.beginExecution vm hfree.1
  | retireCompletedExecution vm =>
    obtain ⟨hfree, rfl⟩ := of_guard hstep
    exact h.retire hfree.1 hseen
  | enter vm =>
    obtain ⟨hfree, rfl⟩ := of_guard hstep
    refine h.push hfree.1 hseen fun vm' => ?_
    by_cases hvm : vm' = vm
    · subst hvm
      rw [setDepth, Function.update_self, countP_guest_self]
      show (a.vms vm').guestExecutionDepth + 1 = _
      rw [h.depth, Nat.add_right_comm]
    · rw [setDepth, Function.update_of_ne hvm, countP_guest_of_ne hvm, h.depth]
  | leave vm =>
    simp only [Agent.step] at hstep
    split at hstep
    · rename_i vm' calls hcalls
      obtain ⟨rfl, rfl⟩ := of_guard hstep
      refine h.pop hcalls fun vm => ?_
      have hcount := h.depth vm
      rw [hcalls] at hcount
      by_cases hvm : vm = vm'
      · subst hvm
        rw [countP_guest_self] at hcount
        rw [setDepth, Function.update_self]
        show (a.vms vm).guestExecutionDepth - 1 = _
        rw [hcount, Nat.add_right_comm, Nat.add_sub_cancel]
      · rw [setDepth, Function.update_of_ne hvm, hcount, countP_guest_of_ne hvm]
    · cases hstep
  | suspend vm =>
    simp only [Agent.step] at hstep
    split at hstep
    · rename_i vm' calls hcalls
      obtain ⟨rfl, rfl⟩ := of_guard hstep
      refine h.pop hcalls fun vm => ?_
      have hcount := h.depth vm
      rw [hcalls] at hcount
      by_cases hvm : vm = vm'
      · subst hvm
        rw [countP_guest_self] at hcount
        rw [Function.update_self, hcount, Nat.add_assoc, Nat.add_comm 1]
      · rw [Function.update_of_ne hvm, hcount, countP_guest_of_ne hvm]
    · cases hstep
  | resume vm =>
    obtain ⟨⟨hruns, hpos⟩, rfl⟩ := of_guard hstep
    refine h.push hruns hseen fun vm' => ?_
    by_cases hvm : vm' = vm
    · subst hvm
      rw [Function.update_self, countP_guest_self, h.depth, Nat.add_assoc, Nat.add_sub_cancel' hpos]
    · rw [Function.update_of_ne hvm, countP_guest_of_ne hvm, h.depth]
  | spawnAsync =>
    obtain ⟨hruns, rfl⟩ := of_guard hstep
    refine h.setExecution rfl rfl fun _ => .inr ?_
    by_cases hcalls : a.calls = []
    · exact hseen hcalls
    · exact h.active_of_runs hruns hcalls
  | finishAsync =>
    obtain ⟨-, rfl⟩ := of_guard hstep
    exact h.setExecution rfl rfl fun hc => .inl (hc.trans_le (Nat.sub_le _ _))
  | consumeFuel now cost =>
    obtain ⟨-, rfl⟩ := of_guard hstep
    exact h.uses ExecutionState.uses_consumeFuel
  | consumeLoop now =>
    obtain ⟨-, rfl⟩ := of_guard hstep
    exact h.uses ExecutionState.uses_consumeLoop
  | change c =>
    obtain ⟨hruns, rfl⟩ := of_guard hstep
    exact h.change hruns c
  | cancel | setDeadline deadline =>
    obtain rfl := Option.some.inj hstep
    exact h.setExecution rfl rfl .inl
  | poll vm budget microtasksOnly clock =>
    obtain ⟨hfree, rfl⟩ := of_guard hstep
    exact h.startPoll budget microtasksOnly clock hfree
  | turn env =>
    cases hcalls : a.calls with
    | nil => simp [Agent.step, hcalls] at hstep
    | cons c calls =>
      cases c with
      | poll p => exact h.turn hcalls env hseen hstep
      | guest vm => simp [Agent.step, hcalls] at hstep
      | dispatch => simp [Agent.step, hcalls] at hstep
  | awaitTimer env =>
    simp only [Agent.step] at hstep
    split at hstep
    · rename_i hcalls
      obtain rfl := Option.some.inj hstep
      exact h.awaitTimer hcalls env
    · cases hstep
  | dispatched result =>
    simp only [Agent.step] at hstep
    split at hstep
    · rename_i calls hcalls
      obtain rfl := Option.some.inj hstep
      exact h.finishDispatch hcalls result
    · cases hstep

theorem beginExecution_within (hseen : a.Seen (.beginExecution vm)) (hbusy : a.Busy) :
    a.shared.execution.Within (a.shared.beginExecution (a.vms vm)).execution := by
  rcases a.shared.beginExecution_cases (a.vms vm) with ⟨hsame, -⟩ | ⟨hidle, hdepth, -⟩
  · rw [hsame]
    exact .rfl
  · exfalso
    obtain ⟨hwork, hdrain, hcheck⟩ := Shared.underway_eq_false.1 hidle
    obtain ⟨hnowork, hcont⟩ := hwork (h.active hbusy)
    have hnoguest : ¬ a.Guest := fun hg => by
      rcases hseen hg with hne | hyes
      · exact hne hdepth
      · exact absurd (hidle.symm.trans hyes) (by decide)
    rcases hbusy with hg | hd | hcp | hc | ⟨-, hsome⟩
    · exact hnoguest hg
    · rcases h.nested.of_dispatch hd with hg | hp
      · exact hnoguest hg
      · have hpos := h.poll_mem.2 hp
        rw [hdrain] at hpos
        exact Nat.lt_irrefl 0 hpos
    · exact absurd (hcheck.symm.trans hcp) (by decide)
    · rw [hcont] at hc
      exact Nat.lt_irrefl 0 hc
    · exact absurd (hnowork.symm.trans hsome) (by decide)

/-- **While the agent is busy, a step gives nothing back.** -/
theorem within (hseen : a.Seen op) (hbusy : a.Busy) (hstep : a.step op = some a') :
    a.shared.execution.Within a'.shared.execution := by
  have hactive := h.active hbusy
  cases op with
  | beginExecution vm =>
    obtain ⟨-, rfl⟩ := of_guard hstep
    exact h.beginExecution_within hseen hbusy
  | retireCompletedExecution vm =>
    obtain ⟨-, rfl⟩ := of_guard hstep
    rcases a.shared.retire_cases (a.vms vm) with hsame | ⟨-, -, hretired⟩
    · show a.shared.execution.Within (a.shared.retireCompletedExecution (a.vms vm)).execution
      rw [hsame]
      exact .rfl
    · show a.shared.execution.Within (a.shared.retireCompletedExecution (a.vms vm)).execution
      rw [hretired]
      exact ⟨le_rfl, le_rfl, le_rfl⟩
  | leave vm | suspend vm =>
    simp only [Agent.step] at hstep
    split at hstep
    · obtain ⟨-, rfl⟩ := of_guard hstep
      exact .rfl
    · cases hstep
  | consumeFuel now cost =>
    obtain ⟨-, rfl⟩ := of_guard hstep
    exact ExecutionState.uses_consumeFuel.within
  | consumeLoop now =>
    obtain ⟨-, rfl⟩ := of_guard hstep
    exact ExecutionState.uses_consumeLoop.within
  | cancel | setDeadline deadline =>
    obtain rfl := Option.some.inj hstep
    exact ⟨le_rfl, le_rfl, le_rfl⟩
  | poll vm budget microtasksOnly clock =>
    obtain ⟨-, rfl⟩ := of_guard hstep
    rw [Agent.startPoll, if_neg fun hfresh => absurd (hfresh.1.symm.trans hactive) (by decide)]
    exact ⟨le_rfl, le_rfl, le_rfl⟩
  | turn env =>
    simp only [Agent.step] at hstep
    split at hstep
    · rename_i p calls hcalls
      have hspec := Poll.spec_turn p (a.vms p.vm) env a.shared
      split at hstep
      · rename_i result s hturn
        obtain rfl := Option.some.inj hstep
        rw [hturn] at hspec
        exact ⟨(hspec.limits hactive).fuel, (hspec.limits hactive).loops,
          (hspec.limits hactive).jobs⟩
      · rename_i job initialRemaining s hturn
        obtain rfl := Option.some.inj hstep
        rw [hturn] at hspec
        exact hspec.limits hactive
    · cases hstep
  | awaitTimer env =>
    simp only [Agent.step] at hstep
    split at hstep
    · obtain rfl := Option.some.inj hstep
      rw [Agent.awaitTimer]
      split
      · exact .rfl
      · split
        · exact .rfl
        · split
          · exact .rfl
          · exact ⟨le_rfl, le_rfl, Nat.sub_le _ _⟩
    · cases hstep
  | dispatched result =>
    simp only [Agent.step] at hstep
    split at hstep
    · obtain rfl := Option.some.inj hstep
      simp only [Agent.finishDispatch]
      split
      · exact .rfl
      · exact ⟨le_rfl, le_rfl, le_rfl⟩
      · exact .rfl
    · cases hstep
  | _ =>
    obtain ⟨-, rfl⟩ := of_guard hstep
    exact ⟨le_rfl, le_rfl, le_rfl⟩

end

/-! ## One interpreter -/

end Sound

theorem sound_of_reachable {a : Agent Job} (h : Reachable Fresh Next a) : a.Sound :=
  h.invariant (fun _ => Sound.fresh) fun _ _ hsound ⟨_, hseen, hstep⟩ => hsound.step hseen hstep

/-- **Limits are not refilled.**  In every run whose steps meet the condition, no step gives back
fuel, loop iterations or jobs while the agent is busy, and fuel that cannot be used is kept. -/
theorem limits_kept {a a' : Agent Job} (h : Reachable Fresh Next a) (op : Op Job)
    (hseen : a.Seen op) (hstep : a.step op = some a') :
    (a.Busy → a.shared.execution.Within a'.shared.execution) ∧
      ∀ now cost err, (a.shared.execution.consumeFuel now cost).1 = .error err →
        (a.shared.execution.consumeFuel now cost).2.fuel = a.shared.execution.fuel :=
  ⟨fun hbusy => (sound_of_reachable h).within hseen hbusy hstep,
    fun _ _ _ => ExecutionState.fuel_consumeFuel_error⟩

/-- An agent with a fuel budget of seven. -/
def idleAgent : Agent Unit where
  shared := ⟨⟨7, 0, 10, 10, false, none, 0, false, 0⟩, .empty⟩
  vms _ := ⟨0, 10, 7, 10, 1024, .externalFirst⟩
  suspended _ := 0
  calls := []
  returned := none

theorem fresh_idleAgent : idleAgent.Fresh :=
  ⟨rfl, rfl, rfl, rfl, rfl, fun _ => rfl, fun _ => rfl⟩

/-- The state after some operations. -/
def after (a : Agent Job) (ops : List (Op Job)) : Option (Agent Job) := ops.foldlM step a

theorem limits_kept_alone :
    ∃ a a' : Agent Unit, idleAgent.after [.beginExecution 0, .enter 0] = some a ∧ a.Busy ∧
      a.step (.consumeFuel 0 3) = some a' ∧ a.shared.execution.Within a'.shared.execution := by
  refine ⟨_, _, rfl, .inl ⟨0, List.mem_cons_self⟩, rfl, ?_⟩
  have hidle : Reachable Fresh Next idleAgent := .start fresh_idleAgent
  have hbegun := hidle.next ⟨.beginExecution 0, fun ⟨_, hvm⟩ => (by cases hvm), rfl⟩
  have hentered := hbegun.next ⟨.enter 0, fun _ => rfl, rfl⟩
  exact (limits_kept hentered (.consumeFuel 0 3) trivial rfl).1 (.inl ⟨0, List.mem_cons_self⟩)

/-- An interpreter of another realm, with no guest code of its own, begins an execution while guest
code of the first one runs. -/
theorem refilled_by_other :
    ∃ a a' : Agent Unit,
      idleAgent.after [.beginExecution 0, .enter 0, .consumeFuel 0 3] = some a ∧ a.Guest ∧
        a.step (.beginExecution 1) = some a' ∧ a.shared.execution.fuel = 4 ∧
        a'.shared.execution.fuel = 7 :=
  ⟨_, _, rfl, ⟨0, List.mem_cons_self⟩, rfl, rfl, rfl⟩

end Agent

end NapiVm.Scheduler
