import NapiVm.Jobs.TimerQueue

/-!
# Turns of the event loop under hard limits

An execution has fuel, loop iterations and jobs.  `begin_execution` fills them, and a turn of the
event loop fills them when it finds work outside any execution.

* `ExecutionState`, `JobQueue` — what all interpreters of an agent share.
* `Interpreter` — what each of them has of its own: the depth of its guest entries, and its limits.
* `turn` — one round of the loop of `poll_queued_jobs`, up to the job that it dispatches.
-/

namespace NapiVm.Scheduler

open Jobs (TimerQueue)

/-- The text of a `VmErr`. -/
abbrev VmErr : Type := String

/-- `ExecutionState`.  `cancellation` says whether the current token is cancelled. -/
structure ExecutionState where
  fuel : Nat
  pollRemaining : Nat
  loops : Nat
  jobs : Nat
  cancellation : Bool
  deadline : Option Nat
  drainDepth : Nat
  active : Bool
  continuations : Nat

/-- What the queue holds, without the weak targets it keeps alive. -/
structure JobQueue (Job : Type) where
  microtasks : List Job
  externalEvents : List Job
  hostOverflow : List Job
  timers : TimerQueue Job
  atomicsWaiters : List Nat
  checkpointPending : Bool
  dispatchDepth : Nat
  preferTimer : Bool

inductive Fairness where
  | externalFirst
  | alternate
  deriving DecidableEq

/-- What an interpreter has of its own.  The interpreters that run the bodies of generators and of
async functions, and those of other realms, share the execution and the queue. -/
structure Interpreter where
  guestExecutionDepth : Nat
  loopBudget : Nat
  fuelBudget : Nat
  maxJobsPerDrain : Nat
  externalCapacity : Nat
  fairness : Fairness

structure TurnBudget where
  maxJobs : Nat
  maxDuration : Option Nat

inductive YieldReason where
  | idle
  | jobBudget
  | timeBudget
  | backpressure
  deriving DecidableEq

structure TurnOutcome where
  executedJobs : Nat
  runnable : Bool
  yieldReason : YieldReason
  nextDeadline : Option Nat
  checkpointPending : Bool

/-- What a turn sees of the world: the clock of the execution, the time since the turn began, the
clock of the timers (absent for the legacy clock), the waiters whose signal is set with the
reactions of their promises, the events of the host, and whether an emptied timer tree keeps its
index. -/
structure Surroundings (Job : Type) where
  now : Nat
  elapsed : Nat
  clock : Option Nat
  isNotified : Nat → Bool
  reactions : Nat → List Job
  hostEvents : Option (Except VmErr (List Job))
  retain : Bool

/-! ## The execution -/

namespace ExecutionState

/-- `ExecutionState::check`. -/
def check (now : Nat) (e : ExecutionState) : Except VmErr Unit :=
  if e.cancellation then .error "Error: Guest execution cancelled"
  else if e.deadline.any fun d => d ≤ now then
    .error "RangeError: Guest execution deadline exceeded"
  else .ok ()

/-- What a new execution starts with. -/
def refill (vm : Interpreter) (e : ExecutionState) : ExecutionState :=
  { e with active := true, loops := vm.loopBudget, fuel := vm.fuelBudget, jobs := vm.maxJobsPerDrain }

/-- `consume_fuel`. -/
def consumeFuel (now cost : Nat) (e : ExecutionState) : Except VmErr Unit × ExecutionState :=
  let charged := max cost 1
  let polled : Except VmErr ExecutionState :=
    if e.pollRemaining ≤ charged then
      match e.check now with
      | .error err => .error err
      | .ok () => .ok { e with pollRemaining := 64 }
    else .ok { e with pollRemaining := e.pollRemaining - charged }
  match polled with
  | .error err => (.error err, e)
  | .ok e =>
    if cost ≤ e.fuel then (.ok (), { e with fuel := e.fuel - cost })
    else (.error "RangeError: Maximum instruction fuel exceeded", e)

/-- `consume_loop`. -/
def consumeLoop (now : Nat) (e : ExecutionState) : Except VmErr Unit × ExecutionState :=
  match e.check now with
  | .error err => (.error err, e)
  | .ok () =>
    if e.loops = 0 then (.error "RangeError: Maximum loop iterations exceeded", e)
    else (.ok (), { e with loops := e.loops - 1 })

end ExecutionState

/-! ## The queue -/

namespace JobQueue

variable {Job : Type} (q : JobQueue Job)

/-- A queue with nothing in it. -/
def empty : JobQueue Job := ⟨[], [], [], .empty, [], false, 0, false⟩

def hasMicrotasks : Bool := !q.microtasks.isEmpty

def hasExternalEvents : Bool := !q.externalEvents.isEmpty

/-- `next_deadline`: the bits of the least deadline. -/
def nextDeadline : Option Nat := q.timers.firstKey.map fun key => (ofLex key).1

def hasDueTimer (clock : Option Nat) : Bool :=
  q.nextDeadline.any fun deadline => clock.all fun now => deadline ≤ now

def isRunnable (clock : Option Nat) : Bool :=
  q.hasMicrotasks || q.hasExternalEvents || q.hasDueTimer clock

def isEmpty : Bool :=
  q.microtasks.isEmpty && q.externalEvents.isEmpty && q.timers.len == 0 && q.hostOverflow.isEmpty

def hasOutstandingWork : Bool := !q.isEmpty || !q.atomicsWaiters.isEmpty

/-- `settle_notified_atomics_waiters`. -/
def settleNotifiedAtomicsWaiters (env : Surroundings Job) : JobQueue Job :=
  { q with
    atomicsWaiters := q.atomicsWaiters.filter fun w => !env.isNotified w
    microtasks := q.microtasks ++ (q.atomicsWaiters.filter env.isNotified).flatMap env.reactions }

/-- `push_host_events`: what is above the capacity goes to the overflow. -/
def pushHostEvents (capacity : Nat) (q : JobQueue Job) : List Job → JobQueue Job
  | [] => q
  | job :: jobs =>
    pushHostEvents capacity
      (if q.externalEvents.length < capacity then
        { q with externalEvents := q.externalEvents ++ [job] }
      else { q with hostOverflow := q.hostOverflow ++ [job] }) jobs

/-- `enqueue_host_events`: the overflow goes first, and the host is asked only once it is empty. -/
def enqueueHostEvents (capacity : Nat) (hostEvents : Option (Except VmErr (List Job))) :
    Except VmErr Unit × JobQueue Job :=
  let room := capacity - q.externalEvents.length
  let q := { q with
    externalEvents := q.externalEvents ++ q.hostOverflow.take room
    hostOverflow := q.hostOverflow.drop room }
  if capacity - q.externalEvents.length = 0 ∨ q.hostOverflow ≠ [] then (.ok (), q)
  else
    match hostEvents with
    | none => (.ok (), q)
    | some (.error err) => (.error err, q)
    | some (.ok events) => (.ok (), pushHostEvents capacity q events)

/-- `take_timer`. -/
def takeTimer (clock : Option Nat) (retain : Bool) : Option Job × JobQueue Job :=
  if q.hasDueTimer clock then
    let popped := q.timers.pop retain
    (popped.2, { q with timers := popped.1 })
  else (none, q)

/-- The job that a turn takes: a microtask, or else an external event or a timer. -/
def takeJob (microtasksOnly : Bool) (fairness : Fairness) (clock : Option Nat) (retain : Bool) :
    Option Job × JobQueue Job :=
  match q.microtasks with
  | job :: microtasks =>
    (some job, { q with microtasks := microtasks, checkpointPending := true })
  | [] =>
    if microtasksOnly then (none, q)
    else if fairness = .alternate ∧ q.preferTimer ∧ q.hasDueTimer clock then
      takeTimer { q with preferTimer := false } clock retain
    else
      match q.externalEvents with
      | job :: events =>
        (some job, { q with externalEvents := events, preferTimer := true })
      | [] => takeTimer { q with preferTimer := false } clock retain

end JobQueue

/-! ## Beginning and retiring an execution -/

/-- What the interpreters of an agent share. -/
structure Shared (Job : Type) where
  execution : ExecutionState
  queue : JobQueue Job

namespace Shared

variable {Job : Type} (s : Shared Job)

/-- What makes `begin_execution` return early, whoever calls it. -/
def underway : Bool :=
  s.execution.active && (s.queue.hasOutstandingWork || decide (0 < s.execution.continuations)) ||
    decide (s.execution.drainDepth ≠ 0) || s.queue.checkpointPending

/-- `begin_execution`. -/
def beginExecution (vm : Interpreter) : Shared Job :=
  if s.underway || decide (vm.guestExecutionDepth ≠ 0) then s
  else { s with execution := { s.execution.refill vm with pollRemaining := 0 } }

/-- What keeps `retire_completed_execution` from retiring, whoever calls it. -/
def unfinished : Bool :=
  !s.execution.active || s.queue.hasOutstandingWork || decide (s.execution.continuations ≠ 0) ||
    decide (s.queue.dispatchDepth ≠ 0)

/-- `retire_completed_execution`. -/
def retireCompletedExecution (vm : Interpreter) : Shared Job :=
  if s.unfinished || decide (vm.guestExecutionDepth ≠ 0) then s
  else { s with execution := { s.execution with
    active := false, deadline := none, cancellation := false } }

/-- `outcome`. -/
def outcome (vm : Interpreter) (clock : Option Nat) (executedJobs : Nat) (reason : YieldReason) :
    TurnOutcome × Shared Job :=
  let s := { s with queue := { s.queue with checkpointPending := s.queue.hasMicrotasks } }
  let reason := if s.queue.hostOverflow = [] then reason else .backpressure
  let result : TurnOutcome :=
    { executedJobs := executedJobs
      runnable := s.queue.isRunnable clock || !s.queue.hostOverflow.isEmpty
      yieldReason := reason
      nextDeadline := s.queue.nextDeadline
      checkpointPending := s.queue.checkpointPending }
  if reason = .idle ∧ s.execution.drainDepth = 1 then (result, s.retireCompletedExecution vm)
  else (result, s)

end Shared

/-! ## A turn -/

/-- A call of `poll_queued_jobs`: what it was called with, and its local variables. -/
structure Poll where
  vm : Nat
  budget : TurnBudget
  microtasksOnly : Bool
  initialRemaining : Nat
  executed : Nat

/-- How a round of the loop ends. -/
inductive Round (Job : Type) where
  | returns (result : Except VmErr TurnOutcome)
  | dispatches (job : Job) (initialRemaining : Nat)

namespace Poll

variable {Job : Type} (p : Poll)

/-- The queue once the waiters are settled and, at the end of a checkpoint, the host is asked. -/
def gather (vm : Interpreter) (env : Surroundings Job) (q : JobQueue Job) :
    Except VmErr Unit × JobQueue Job :=
  let q := q.settleNotifiedAtomicsWaiters env
  if q.hasMicrotasks then (.ok (), q)
  else
    let q := { q with checkpointPending := false }
    if p.microtasksOnly then (.ok (), q)
    else q.enqueueHostEvents vm.externalCapacity env.hostEvents

def ready (clock : Option Nat) (q : JobQueue Job) : Bool :=
  if p.microtasksOnly then q.hasMicrotasks else q.isRunnable clock

/-- The round after that: the job that is taken, if there is one. -/
def act (vm : Interpreter) (env : Surroundings Job) (initialRemaining : Nat)
    (s : Shared Job) : Round Job × Shared Job :=
  if !p.ready env.clock s.queue then
    (.returns (.ok (s.outcome vm env.clock p.executed .idle).1),
      (s.outcome vm env.clock p.executed .idle).2)
  else if s.execution.jobs = 0 then
    (.returns (.error "RangeError: Maximum job count exceeded"), s)
  else
    match s.queue.takeJob p.microtasksOnly vm.fairness env.clock env.retain with
    | (none, q) =>
      (.returns (.ok ({ s with queue := q }.outcome vm env.clock p.executed .idle).1),
        ({ s with queue := q }.outcome vm env.clock p.executed .idle).2)
    | (some job, q) =>
      (.dispatches job initialRemaining,
        ⟨{ s.execution with jobs := s.execution.jobs - 1 }, q⟩)

/-- The end of a round, once the work is gathered.  External ingress starts a fresh execution. -/
def proceed (vm : Interpreter) (env : Surroundings Job) (s : Shared Job) :
    Round Job × Shared Job :=
  if p.ready env.clock s.queue ∧ s.execution.active = false then
    p.act vm env vm.maxJobsPerDrain { s with execution := s.execution.refill vm }
  else p.act vm env p.initialRemaining s

/-- One round of the loop of `poll_queued_jobs`. -/
def turn (vm : Interpreter) (env : Surroundings Job) (s : Shared Job) : Round Job × Shared Job :=
  match s.execution.check env.now with
  | .error err => (.returns (.error err), s)
  | .ok () =>
    if p.budget.maxJobs ≤ p.executed then
      (.returns (.ok (s.outcome vm env.clock p.executed .jobBudget).1),
        (s.outcome vm env.clock p.executed .jobBudget).2)
    else if p.budget.maxDuration.any fun d => d ≤ env.elapsed then
      (.returns (.ok (s.outcome vm env.clock p.executed .timeBudget).1),
        (s.outcome vm env.clock p.executed .timeBudget).2)
    else
      match p.gather vm env s.queue with
      | (.error err, q) => (.returns (.error err), { s with queue := q })
      | (.ok (), q) => p.proceed vm env { s with queue := q }

end Poll

/-! ## What each operation does -/

namespace ExecutionState

variable {e : ExecutionState} {now cost : Nat}

/-- No more is left than before. -/
structure Within (e e' : ExecutionState) : Prop where
  fuel : e'.fuel ≤ e.fuel
  loops : e'.loops ≤ e.loops
  jobs : e'.jobs ≤ e.jobs

theorem Within.rfl : Within e e := ⟨le_rfl, le_rfl, le_rfl⟩

/-- What using up limits leaves alone. -/
structure Uses (e e' : ExecutionState) : Prop where
  within : Within e e'
  active : e'.active = e.active
  drainDepth : e'.drainDepth = e.drainDepth
  continuations : e'.continuations = e.continuations

theorem Uses.rfl : Uses e e := ⟨.rfl, Eq.refl _, Eq.refl _, Eq.refl _⟩

theorem uses_consumeFuel : Uses e (e.consumeFuel now cost).2 := by
  simp only [consumeFuel]
  split
  · exact .rfl
  · rename_i e' he'
    have hpolled : ∃ n, e' = { e with pollRemaining := n } := by
      split at he'
      · split at he'
        · cases he'
        · exact ⟨_, (Except.ok.inj he').symm⟩
      · exact ⟨_, (Except.ok.inj he').symm⟩
    obtain ⟨n, rfl⟩ := hpolled
    split
    · exact ⟨⟨Nat.sub_le _ _, le_rfl, le_rfl⟩, Eq.refl _, Eq.refl _, Eq.refl _⟩
    · exact ⟨⟨le_rfl, le_rfl, le_rfl⟩, Eq.refl _, Eq.refl _, Eq.refl _⟩

/-- What fails uses no fuel. -/
theorem fuel_consumeFuel_error {err : VmErr} (h : (e.consumeFuel now cost).1 = .error err) :
    (e.consumeFuel now cost).2.fuel = e.fuel := by
  simp only [consumeFuel] at h ⊢
  split at h
  · rfl
  · rename_i e' hpolled
    split at h
    · cases h
    · rename_i hcost
      have hfuel : e'.fuel = e.fuel := by
        split at hpolled
        · split at hpolled
          · cases hpolled
          · rw [← Except.ok.inj hpolled]
        · rw [← Except.ok.inj hpolled]
      rw [if_neg hcost]
      exact hfuel

theorem uses_consumeLoop : Uses e (e.consumeLoop now).2 := by
  simp only [consumeLoop]
  split
  · exact .rfl
  · split
    · exact .rfl
    · exact ⟨⟨le_rfl, Nat.sub_le _ _, le_rfl⟩, Eq.refl _, Eq.refl _, Eq.refl _⟩

end ExecutionState

namespace JobQueue

variable {Job : Type} {q : JobQueue Job}

/-- What adding and taking jobs leaves alone, other than microtasks. -/
structure Beside (q q' : JobQueue Job) : Prop where
  microtasks : q'.microtasks = q.microtasks
  dispatchDepth : q'.dispatchDepth = q.dispatchDepth

theorem beside_pushHostEvents (capacity : Nat) (jobs : List Job) :
    Beside q (pushHostEvents capacity q jobs) := by
  induction jobs generalizing q with
  | nil => exact ⟨rfl, rfl⟩
  | cons job jobs ih =>
    rw [pushHostEvents]
    split
    · exact ⟨ih.microtasks, ih.dispatchDepth⟩
    · exact ⟨ih.microtasks, ih.dispatchDepth⟩

theorem beside_enqueueHostEvents (capacity : Nat) (hostEvents : Option (Except VmErr (List Job))) :
    Beside q (q.enqueueHostEvents capacity hostEvents).2 := by
  simp only [enqueueHostEvents]
  split
  · exact ⟨rfl, rfl⟩
  · split
    · exact ⟨rfl, rfl⟩
    · exact ⟨rfl, rfl⟩
    · have h := beside_pushHostEvents (q := { q with
        externalEvents := q.externalEvents ++
          q.hostOverflow.take (capacity - q.externalEvents.length)
        hostOverflow := q.hostOverflow.drop (capacity - q.externalEvents.length) }) capacity
      exact ⟨(h _).microtasks, (h _).dispatchDepth⟩

theorem beside_takeTimer (clock : Option Nat) (retain : Bool) :
    Beside q (q.takeTimer clock retain).2 := by
  rw [takeTimer]
  split
  · exact ⟨rfl, rfl⟩
  · exact ⟨rfl, rfl⟩

theorem dispatchDepth_takeJob (microtasksOnly : Bool) (fairness : Fairness) (clock : Option Nat)
    (retain : Bool) :
    (q.takeJob microtasksOnly fairness clock retain).2.dispatchDepth = q.dispatchDepth := by
  rw [takeJob]
  split
  · rfl
  · split
    · rfl
    · split
      · exact (beside_takeTimer clock retain).dispatchDepth
      · split
        · rfl
        · exact (beside_takeTimer clock retain).dispatchDepth

/-- Nothing is taken where there is no microtask. -/
theorem microtasks_takeJob_none {microtasksOnly : Bool} {fairness : Fairness} {clock : Option Nat}
    {retain : Bool} (h : (q.takeJob microtasksOnly fairness clock retain).1 = none) :
    (q.takeJob microtasksOnly fairness clock retain).2.microtasks = [] := by
  rw [takeJob] at h ⊢
  split at h
  · cases h
  · rename_i hmicro
    simp only [hmicro]
    split
    · exact hmicro
    · split
      · exact (beside_takeTimer clock retain).microtasks
      · split
        · rfl
        · exact (beside_takeTimer clock retain).microtasks

theorem microtasks_of_not_outstanding (h : q.hasOutstandingWork = false) : q.microtasks = [] := by
  simp only [hasOutstandingWork, isEmpty, Bool.or_eq_false_iff, Bool.not_eq_false', Bool.and_eq_true,
    List.isEmpty_iff] at h
  exact h.1.1.1.1

end JobQueue

namespace Shared

variable {Job : Type} {s : Shared Job} {vm : Interpreter}

theorem underway_eq_false : s.underway = false ↔
    (s.execution.active = true → s.queue.hasOutstandingWork = false ∧ s.execution.continuations = 0) ∧
      s.execution.drainDepth = 0 ∧ s.queue.checkpointPending = false := by
  simp only [underway, Bool.or_eq_false_iff, Bool.and_eq_false_imp, decide_eq_false_iff_not,
    not_lt, Nat.le_zero, not_not, and_assoc]

theorem unfinished_eq_false : s.unfinished = false ↔
    s.execution.active = true ∧ s.queue.hasOutstandingWork = false ∧
      s.execution.continuations = 0 ∧ s.queue.dispatchDepth = 0 := by
  simp only [unfinished, Bool.or_eq_false_iff, Bool.not_eq_false', decide_eq_false_iff_not,
    not_not, and_assoc]

/-- An execution begins, or is left as it is. -/
theorem beginExecution_cases (s : Shared Job) (vm : Interpreter) :
    (s.beginExecution vm = s ∧ (s.underway = true ∨ vm.guestExecutionDepth ≠ 0)) ∨
      (s.underway = false ∧ vm.guestExecutionDepth = 0 ∧
        s.beginExecution vm =
          { s with execution := { s.execution.refill vm with pollRemaining := 0 } }) := by
  rw [beginExecution]
  split
  · rename_i h
    exact .inl ⟨rfl, by simpa using h⟩
  · rename_i h
    simp only [Bool.or_eq_true, not_or, Bool.not_eq_true, decide_eq_true_eq, not_not] at h
    exact .inr ⟨h.1, h.2, rfl⟩

/-- An execution is retired, or is left as it is. -/
theorem retire_cases (s : Shared Job) (vm : Interpreter) :
    s.retireCompletedExecution vm = s ∨
      (s.unfinished = false ∧ vm.guestExecutionDepth = 0 ∧
        s.retireCompletedExecution vm =
          { s with execution := { s.execution with
            active := false, deadline := none, cancellation := false } }) := by
  rw [retireCompletedExecution]
  split
  · exact .inl rfl
  · rename_i h
    simp only [Bool.or_eq_true, not_or, Bool.not_eq_true, decide_eq_true_eq, not_not] at h
    exact .inr ⟨h.1, h.2, rfl⟩

/-- What an execution that is retired at the end of a turn has behind it. -/
def Complete (s : Shared Job) (vm : Interpreter) : Prop :=
  vm.guestExecutionDepth = 0 ∧ s.execution.drainDepth = 1 ∧ s.execution.continuations = 0 ∧
    s.queue.dispatchDepth = 0

theorem outcome_cases (s : Shared Job) (vm : Interpreter) (clock : Option Nat) (executed : Nat)
    (reason : YieldReason) :
    (s.outcome vm clock executed reason).2.queue =
        { s.queue with checkpointPending := s.queue.hasMicrotasks } ∧
      ((s.outcome vm clock executed reason).2.execution = s.execution ∨
        s.Complete vm ∧ s.queue.microtasks = [] ∧ (s.outcome vm clock executed reason).2.execution =
          { s.execution with active := false, deadline := none, cancellation := false }) := by
  simp only [outcome]
  generalize (if s.queue.hostOverflow = [] then reason else YieldReason.backpressure) = reason'
  split
  · rename_i hidle
    rcases retire_cases { s with queue :=
      { s.queue with checkpointPending := s.queue.hasMicrotasks } } vm with h | ⟨hdone, hdepth, h⟩
    · rw [h]
      exact ⟨rfl, .inl rfl⟩
    · obtain ⟨-, hwork, hcont, hdispatch⟩ := unfinished_eq_false.1 hdone
      rw [h]
      exact ⟨rfl, .inr ⟨⟨hdepth, hidle.2, hcont, hdispatch⟩,
        JobQueue.microtasks_of_not_outstanding hwork, rfl⟩⟩
  · exact ⟨rfl, .inl rfl⟩

end Shared

namespace Poll

variable {Job : Type} {p : Poll} {vm : Interpreter} {env : Surroundings Job} {s s' : Shared Job}
variable {round : Round Job}

/-- What a round does to the execution and to the queue. -/
structure Spec (vm : Interpreter) (s : Shared Job) (round : Round Job) (s' : Shared Job) : Prop where
  drainDepth : s'.execution.drainDepth = s.execution.drainDepth
  continuations : s'.execution.continuations = s.execution.continuations
  dispatchDepth : s'.queue.dispatchDepth = s.queue.dispatchDepth
  limits : s.execution.active = true → s.execution.Within s'.execution
  keeps : s.execution.active = true → s'.execution.active = true ∨ s.Complete vm
  works : ∀ job n, round = .dispatches job n → s'.execution.active = true
  quiet : (s.execution.active = false → s.queue.microtasks = []) →
    s'.execution.active = false → s'.queue.microtasks = []

namespace Spec

/-- A round that only changes the queue. -/
theorem of_queue {q : JobQueue Job} {result : Except VmErr TurnOutcome}
    (hdispatch : q.dispatchDepth = s.queue.dispatchDepth)
    (hquiet : (s.execution.active = false → s.queue.microtasks = []) →
      s.execution.active = false → q.microtasks = []) :
    Spec vm s (.returns result) { s with queue := q } where
  drainDepth := rfl
  continuations := rfl
  dispatchDepth := hdispatch
  limits _ := .rfl
  keeps := .inl
  works _ _ h := by cases h
  quiet := hquiet

theorem outcome (vm : Interpreter) (s : Shared Job) (clock : Option Nat) (executed : Nat)
    (reason : YieldReason) (result : Except VmErr TurnOutcome) :
    Spec vm s (.returns result) (s.outcome vm clock executed reason).2 := by
  obtain ⟨hqueue, hsame | ⟨hdone, hmicro, hretired⟩⟩ := s.outcome_cases vm clock executed reason
  · refine ⟨by rw [hsame], by rw [hsame], by rw [hqueue], fun _ => (by rw [hsame]; exact .rfl),
      fun h => .inl (by rw [hsame]; exact h), nofun, fun h ha => ?_⟩
    rw [hqueue]
    exact h (by rw [← hsame]; exact ha)
  · refine ⟨by rw [hretired], by rw [hretired], by rw [hqueue], fun _ => (by rw [hretired]; exact ⟨le_rfl, le_rfl, le_rfl⟩),
      fun _ => .inr hdone, nofun, fun _ _ => ?_⟩
    rw [hqueue]
    exact hmicro

/-- A round that begins with work on the queue. -/
theorem after_queue {q : JobQueue Job} (hdispatch : q.dispatchDepth = s.queue.dispatchDepth)
    (h : Spec vm { s with queue := q } round s')
    (hquiet : s'.execution.active = false → s'.queue.microtasks = []) : Spec vm s round s' where
  drainDepth := h.drainDepth
  continuations := h.continuations
  dispatchDepth := h.dispatchDepth.trans hdispatch
  limits := h.limits
  keeps ha := (h.keeps ha).imp_right fun ⟨hdepth, hdrain, hcont, hzero⟩ =>
    ⟨hdepth, hdrain, hcont, hdispatch.symm.trans hzero⟩
  works := h.works
  quiet _ := hquiet

/-- A round that begins a fresh execution. -/
theorem after_refill (hinactive : s.execution.active = false)
    (h : Spec vm { s with execution := s.execution.refill vm } round s')
    (hquiet : s'.execution.active = false → s'.queue.microtasks = []) : Spec vm s round s' where
  drainDepth := h.drainDepth
  continuations := h.continuations
  dispatchDepth := h.dispatchDepth
  limits ha := absurd (hinactive.symm.trans ha) Bool.false_ne_true
  keeps ha := absurd (hinactive.symm.trans ha) Bool.false_ne_true
  works := h.works
  quiet _ := hquiet

end Spec

theorem microtasks_of_not_ready {clock : Option Nat} {q : JobQueue Job}
    (h : p.ready clock q = false) : q.microtasks = [] := by
  have hmicro : q.hasMicrotasks = false := by
    rw [ready] at h
    split at h
    · exact h
    · simp only [JobQueue.isRunnable, Bool.or_eq_false_iff] at h
      exact h.1.1
  simpa [JobQueue.hasMicrotasks] using hmicro

/-- Work is ready only in an active execution, and then a round keeps to its limits. -/
theorem spec_act (p : Poll) (vm : Interpreter) (env : Surroundings Job) {s : Shared Job}
    (initialRemaining : Nat)
    (h : p.ready env.clock s.queue = true → s.execution.active = true) :
    Spec vm s (p.act vm env initialRemaining s).1 (p.act vm env initialRemaining s).2 ∧
      ((p.act vm env initialRemaining s).2.execution.active = false →
        (p.act vm env initialRemaining s).2.queue.microtasks = []) := by
  rw [act]
  split
  · rename_i hready
    have hmicro := microtasks_of_not_ready (p := p) (by simpa using hready)
    have hspec := Spec.outcome vm s env.clock p.executed .idle
      (.ok (s.outcome vm env.clock p.executed .idle).1)
    exact ⟨hspec, hspec.quiet fun _ => hmicro⟩
  · rename_i hready
    have hactive : s.execution.active = true := h (by simpa using hready)
    split
    · exact ⟨Spec.of_queue rfl fun hq => hq, fun hf => absurd (hactive.symm.trans hf) (by decide)⟩
    · split
      · rename_i q htake
        have hnone := JobQueue.microtasks_takeJob_none (congrArg Prod.fst htake)
        have hdispatch := JobQueue.dispatchDepth_takeJob (q := s.queue) p.microtasksOnly vm.fairness
          env.clock env.retain
        rw [htake] at hnone hdispatch
        have hspec := Spec.outcome vm { s with queue := q } env.clock p.executed .idle
          (.ok (({ s with queue := q } : Shared Job).outcome vm env.clock p.executed .idle).1)
        have hquiet := hspec.quiet fun _ => hnone
        exact ⟨hspec.after_queue hdispatch hquiet, hquiet⟩
      · rename_i job q htake
        have hdispatch := JobQueue.dispatchDepth_takeJob (q := s.queue) p.microtasksOnly vm.fairness
          env.clock env.retain
        rw [htake] at hdispatch
        refine ⟨⟨rfl, rfl, hdispatch, fun _ => ⟨le_rfl, le_rfl, Nat.sub_le _ _⟩, .inl,
          fun _ _ _ => hactive, fun _ hf => absurd (hactive.symm.trans hf) (by decide)⟩,
          fun hf => absurd (hactive.symm.trans hf) (by decide)⟩

theorem spec_proceed (p : Poll) (vm : Interpreter) (env : Surroundings Job) (s : Shared Job) :
    Spec vm s (p.proceed vm env s).1 (p.proceed vm env s).2 ∧
      ((p.proceed vm env s).2.execution.active = false →
        (p.proceed vm env s).2.queue.microtasks = []) := by
  rw [proceed]
  split
  · rename_i hfresh
    obtain ⟨hspec, hquiet⟩ := spec_act p vm env
      (s := { s with execution := s.execution.refill vm }) vm.maxJobsPerDrain fun _ => rfl
    exact ⟨hspec.after_refill hfresh.2 hquiet, hquiet⟩
  · rename_i hfresh
    refine spec_act p vm env p.initialRemaining fun hready => ?_
    by_contra hactive
    exact hfresh ⟨hready, Bool.eq_false_of_not_eq_true hactive⟩

theorem dispatchDepth_gather (p : Poll) (vm : Interpreter) (env : Surroundings Job)
    (q : JobQueue Job) :
    (p.gather vm env q).2.dispatchDepth = q.dispatchDepth := by
  rw [gather]
  split
  · rfl
  · split
    · rfl
    · exact (JobQueue.beside_enqueueHostEvents _ _).dispatchDepth

/-- The host fails only where there is no microtask. -/
theorem microtasks_gather_error {q : JobQueue Job} {err : VmErr}
    (h : (p.gather vm env q).1 = .error err) : (p.gather vm env q).2.microtasks = [] := by
  rw [gather] at h ⊢
  split at h
  · cases h
  · rename_i hmicro
    rw [if_neg hmicro]
    split at h
    · cases h
    · rename_i hall
      rw [if_neg hall, (JobQueue.beside_enqueueHostEvents _ _).microtasks]
      simpa [JobQueue.hasMicrotasks] using hmicro

/-- **A round.**  The limits are filled only outside an execution, and an execution is retired
only when it is complete. -/
theorem spec_turn (p : Poll) (vm : Interpreter) (env : Surroundings Job) (s : Shared Job) :
    Spec vm s (p.turn vm env s).1 (p.turn vm env s).2 := by
  rw [turn]
  split
  · exact Spec.of_queue rfl fun hq => hq
  · split
    · exact Spec.outcome vm s env.clock p.executed .jobBudget _
    · split
      · exact Spec.outcome vm s env.clock p.executed .timeBudget _
      · have hdispatch := dispatchDepth_gather p vm env s.queue
        split
        · rename_i err q hgather
          have hmicro := microtasks_gather_error (congrArg Prod.fst hgather)
          rw [hgather] at hdispatch hmicro
          exact Spec.of_queue hdispatch fun _ _ => hmicro
        · rename_i q hgather
          rw [hgather] at hdispatch
          obtain ⟨hspec, hquiet⟩ := spec_proceed p vm env { s with queue := q }
          exact hspec.after_queue hdispatch hquiet

end Poll

end NapiVm.Scheduler
