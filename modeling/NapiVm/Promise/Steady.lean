import NapiVm.Promise.Evolution

/-!
# Parts that leave most things alone

What the module evaluator needs to know of the event loop between two of its own steps.

* `EventLoop.QueuesNone` — no evaluation of a module is queued.
* `EventLoop.Steady` — the loop moves on, takes no job, and leaves given promises open.
-/

namespace NapiVm.Promises

/-- The module a job evaluates, and its evaluation promise. -/
def Job.evaluation : Job → Option (Nat × Nat)
  | .moduleEvaluation id target => some (id, target)
  | _ => none

namespace EventLoop

variable {w w' : EventLoop}

/-! ## Queued evaluations -/

/-- The evaluations that are queued. -/
def evaluationJobs (w : EventLoop) : List (Nat × Nat) := w.microtasks.filterMap Job.evaluation

/-- How many of them are of the module. -/
def evaluations (w : EventLoop) (id : Nat) : Nat := w.evaluationJobs.countP (·.1 == id)

/-- The queue gets no evaluations. -/
def QueuesNone (w w' : EventLoop) : Prop := w'.evaluationJobs = w.evaluationJobs

theorem QueuesNone.evaluations (h : QueuesNone w w') (id : Nat) :
    w'.evaluations id = w.evaluations id := by
  rw [EventLoop.evaluations, h, EventLoop.evaluations]

namespace QueuesNone

theorem of_eq (h : w'.microtasks = w.microtasks) : QueuesNone w w' := by
  rw [QueuesNone, evaluationJobs, h, evaluationJobs]

theorem trans {w'' : EventLoop} (h : QueuesNone w w') (h' : QueuesNone w' w'') :
    QueuesNone w w'' := Eq.trans h' h

theorem of_append (jobs : List Job) (h : w'.microtasks = w.microtasks ++ jobs)
    (hjobs : ∀ job ∈ jobs, job.evaluation = none) : QueuesNone w w' := by
  have hnone : jobs.filterMap Job.evaluation = [] := List.filterMap_eq_nil_iff.2 hjobs
  rw [QueuesNone, evaluationJobs, h, List.filterMap_append, hnone, List.append_nil, evaluationJobs]

theorem of_queues (h : Queues (fun job => job.evaluation = none) w w') : QueuesNone w w' :=
  h.elim fun _ ⟨jobs, hm, hjobs⟩ => of_append jobs hm hjobs

end QueuesNone

/-- The jobs of promises evaluate no module. -/
theorem evaluation_of_plain (job : Job) (h : job.plain = false) : job.evaluation = none := by
  cases job with
  | moduleEvaluation => cases h
  | _ => rfl

theorem frame_queues (used : Option Nat) :
    Frame False used (fun _ => True) (Queues fun job => job.evaluation = none) :=
  Queues.frame evaluation_of_plain used

/-- **Acts queue no evaluations**, unless one is queued as it is. -/
theorem queuesNone_perform {a : Act} (h : w.perform a = some w') (hd : a ≠ .dispatch)
    (he : ∀ id target, a ≠ .enqueue (.moduleEvaluation id target)) : QueuesNone w w' := by
  refine .of_queues ((frame_queues _).perform_any False.elim h (fun job ha => .push ?_)
    fun _ _ ha => absurd ha hd)
  cases job with
  | moduleEvaluation id target => exact absurd ha (he id target)
  | _ => rfl

/-- **A job that is taken** leaves the other evaluations queued. -/
theorem evaluationJobs_dispatch {job : Job} {rest : List Job} (hq : w.microtasks = job :: rest)
    (h : w.perform .dispatch = some w') :
    job.evaluation.toList ++ w'.evaluationJobs = w.evaluationJobs := by
  simp only [perform, hq, Option.some.injEq] at h
  have hqueue := QueuesNone.of_queues ((frame_queues none).dispatchJob
    (w := { w with microtasks := rest, dispatched := w.dispatched ++ [job] }) job
    fun _ _ _ _ _ _ => trivial)
  rw [h] at hqueue
  rw [hqueue, evaluationJobs, evaluationJobs, hq]
  cases hjob : job.evaluation with
  | none => rw [List.filterMap_cons_none hjob]; rfl
  | some pair => rw [List.filterMap_cons_some hjob]; rfl

/-! ## Steady parts -/

/-- The public resolution of an open promise can be taken. -/
theorem lock_open {p : Nat} (hp : w.Open p) :
    ∃ i w', w.lock p = some w' ∧ w'.promises p = some i ∧ i.resolutionLocked = true ∧
      i.state = .pending := by
  obtain ⟨i, hi, hpend, hlock, -⟩ := hp
  refine ⟨{ i with resolutionLocked := true },
    { w with promises := w.promises.insert p { i with resolutionLocked := true } }, ?_,
    PMap.insert_self, rfl, hpend⟩
  simp [lock, hi, hlock, hpend]

/-- The promise is fulfilled. -/
def Fulfilled (w : EventLoop) (p : Nat) : Prop :=
  ∃ i, w.promises p = some i ∧ i.state = .fulfilled

theorem Fulfilled.advance {p : Nat} (h : w.Fulfilled p) (ha : Advances w w') : w'.Fulfilled p := by
  obtain ⟨i, hi, hst⟩ := h
  obtain ⟨i', hi', hst', -⟩ := ha.keeps p i hi (by rw [hst]; decide)
  exact ⟨i', hi', hst'.trans hst⟩

theorem Fulfilled.not_open {p : Nat} (h : w.Fulfilled p) : ¬ w.Open p := by
  rintro ⟨i, hi, hpend, -⟩
  obtain ⟨i', hi', hst⟩ := h
  rw [hi] at hi'
  cases hi'
  rw [hpend] at hst
  cases hst

/-- No job that derives `d` was taken. -/
def Untaken (w : EventLoop) (d : Nat) : Prop := ∀ job ∈ w.dispatched, job.derives d = false

/-- The loop moves on, takes no job and queues no evaluation, and leaves the promises of
`keep` open. -/
structure Steady (keep : Nat → Prop) (w w' : EventLoop) : Prop where
  advances : Advances w w'
  opens : ∀ p, keep p → w.Open p → w'.Open p
  dispatched : w'.dispatched = w.dispatched
  queue : QueuesNone w w'

namespace Steady

variable {keep : Nat → Prop}

theorem refl (hs : w.Sound) : Steady keep w w := ⟨.refl hs, fun _ _ h => h, rfl, rfl⟩

theorem trans {w'' : EventLoop} (h : Steady keep w w') (h' : Steady keep w' w'') :
    Steady keep w w'' :=
  ⟨h.advances.trans h'.advances, fun p hp ho => h'.opens p hp (h.opens p hp ho),
    h'.dispatched.trans h.dispatched, h.queue.trans h'.queue⟩

theorem mono {keep' : Nat → Prop} (h : Steady keep w w') (hk : ∀ p, keep' p → keep p) :
    Steady keep' w w' := ⟨h.advances, fun p hp => h.opens p (hk p hp), h.dispatched, h.queue⟩

theorem bump (hs : w.Sound) : Steady keep w { w with next := w.next + 1 } :=
  ⟨.bump hs, fun _ _ h => h, rfl, .of_eq rfl⟩

/-- A promise is made. -/
theorem create (hs : w.Sound) {i : PromiseInner} (hreg : i.registered = [])
    (hreact : i.reactions = []) :
    Steady keep w { w with promises := w.promises.insert w.next i, next := w.next + 1 } :=
  ⟨⟨hs.create hreg hreact, .create hs _, .create hs hreg, fun _ h => h⟩,
    fun _ _ h => h.create hs i, rfl, .of_eq rfl⟩

theorem external (hs : w.Sound) {p : Nat} {inner : PromiseInner} (hp : w.promises p = some inner)
    (flag : Bool) :
    Steady keep w { w with
      promises := w.promises.insert p { inner with externalPending := flag } } :=
  ⟨.external hs hp flag, fun _ _ h => h.external hp flag, rfl, .of_eq rfl⟩

theorem register (hs : w.Sound) {p : Nat} (hp : (w.promises p).isSome = true)
    (onFulfilled onRejected : Value) :
    Steady keep w (w.register p onFulfilled onRejected none) :=
  have hqueues := (frame_queues none).register p onFulfilled onRejected none False.elim
  ⟨.register hs hp _ _, fun _ _ h => h.register hs p _ _ _, hqueues.1, .of_queues hqueues⟩

/-- An act of the event loop that concerns none of the promises. -/
theorem perform (hs : w.Sound) {a : Act} (h : w.perform a = some w') (hd : a ≠ .dispatch)
    (he : ∀ id target, a ≠ .enqueue (.moduleEvaluation id target))
    (ht : ∀ p, keep p → a.target ≠ some p) : Steady keep w w' := by
  refine ⟨.perform hs h, fun p hp ho => open_perform hs ho (ht p hp) h, ?_,
    queuesNone_perform h hd he⟩
  rcases dispatched_perform h with ⟨-, heq⟩ | ⟨job, rest, heq, -⟩
  · exact heq
  · exact absurd heq hd

end Steady

/-- The one public resolution of a promise, with a value that is no thenable. -/
def fulfil (w : EventLoop) (p : Nat) (value : Value) : EventLoop :=
  match w.lock p with
  | some w' => w'.settle p .fulfilled value
  | none => w

theorem fulfilled_fulfil {p : Nat} (hp : w.Open p) (value : Value) :
    (w.fulfil p value).Fulfilled p := by
  obtain ⟨i, w', hlock, hi, -, hpend⟩ := lock_open hp
  simp only [fulfil, hlock, settle, hi, hpend, if_true]
  exact ⟨_, PMap.insert_self, rfl⟩

/-- Fulfilling an open promise leaves the others open. -/
theorem Steady.fulfil (hs : w.Sound) {p : Nat} (hp : w.Open p) (value : Value) :
    Steady (· ≠ p) w (w.fulfil p value) := by
  obtain ⟨i, w', hlock, hi, -, hpend⟩ := lock_open hp
  have hfulfil : w.fulfil p value = w'.settle p .fulfilled value := by
    simp only [EventLoop.fulfil, hlock]
  obtain ⟨hs', hfree, -⟩ := hs.lock hlock
  have hqueues := (Queues.lock hlock).trans (.settle evaluation_of_plain p .fulfilled value)
  rw [hfulfil]
  refine ⟨⟨hs'.settle hfree (by decide) value, (Keeps.lock hlock).trans (.settle p _ _),
    (Evolves.lock hlock).trans (.settle p _ _), ?_⟩, fun q hq ho => ?_, hqueues.1,
    .of_queues hqueues⟩
  · rw [hqueues.1]
    exact fun _ h => h
  · exact (ho.of_spares (.lock hq hlock)).of_spares (.settle hq _ _)

end EventLoop

end NapiVm.Promises
