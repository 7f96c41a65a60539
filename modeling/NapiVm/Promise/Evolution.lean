import NapiVm.Promise.Runs

/-!
# What acts leave alone

Two frame conditions of the event loop, for the engine parts built on promises.

* `EventLoop.evolves_perform` — promises stay, and no registration derives a public
  promise that is already there.
* `EventLoop.open_perform` — a promise whose resolvers nobody calls stays open.
-/

namespace NapiVm.Promises

/-- The job runs a reaction that derives `d`. -/
def Job.derives (d : Nat) : Job → Bool
  | .reaction _ _ _ r => r.derived == d
  | _ => false

namespace EventLoop

variable {w w' : EventLoop}

/-! ## Registrations -/

/-- A promise that is not internal. -/
def Public (w : EventLoop) (d : Nat) : Prop := ∃ e, w.promises d = some e ∧ e.internal = false

/-- The registrations on `p` that derive `d`. -/
def derivations (w : EventLoop) (p d : Nat) : List Reaction :=
  (((w.promises p).map PromiseInner.registered).getD []).filter fun r => r.derived == d

/-- One record of a promise follows another. -/
structure Follows (i i' : PromiseInner) : Prop where
  internal : i'.internal = i.internal
  locked : i.resolutionLocked = true → i'.resolutionLocked = true

/-- Promises stay, and no registration derives a public promise that is already there. -/
structure Evolves (w w' : EventLoop) : Prop where
  stays : ∀ q i, w.promises q = some i → ∃ i', w'.promises q = some i' ∧ Follows i i'
  derives : ∀ q d, w.Public d → w'.derivations q d = w.derivations q d

theorem Follows.refl (i : PromiseInner) : Follows i i := ⟨rfl, id⟩

theorem Follows.trans {i j k : PromiseInner} (h : Follows i j) (h' : Follows j k) : Follows i k :=
  ⟨h'.internal.trans h.internal, fun hl => h'.locked (h.locked hl)⟩

theorem derivations_insert_self {p d : Nat} {i : PromiseInner}
    (h : w'.promises = w.promises.insert p i) :
    w'.derivations p d = i.registered.filter fun r => r.derived == d := by
  simp [derivations, h]

theorem derivations_congr {p d : Nat} (h : w'.promises p = w.promises p) :
    w'.derivations p d = w.derivations p d := by
  simp [derivations, h]

namespace Evolves

theorem of_eq (h : w'.promises = w.promises) : Evolves w w' where
  stays q i hq := ⟨i, by rw [h]; exact hq, .refl i⟩
  derives q d _ := derivations_congr (by rw [h])

theorem publicStays (h : Evolves w w') {d : Nat} (hd : w.Public d) : w'.Public d := by
  obtain ⟨e, he, hint⟩ := hd
  obtain ⟨e', he', hfollows⟩ := h.stays d e he
  exact ⟨e', he', hfollows.internal.trans hint⟩

theorem trans {w'' : EventLoop} (h : Evolves w w') (h' : Evolves w' w'') : Evolves w w'' where
  stays q i hq := by
    obtain ⟨i', hi', hfollows⟩ := h.stays q i hq
    obtain ⟨i'', hi'', hfollows'⟩ := h'.stays q i' hi'
    exact ⟨i'', hi'', hfollows.trans hfollows'⟩
  derives q d hd := (h'.derives q d (h.publicStays hd)).trans (h.derives q d hd)

variable {p : Nat} {inner i : PromiseInner}

/-- Only `p` changes, and keeps its registrations but for new ones. -/
theorem then_insert {v : EventLoop} (hv : Evolves v w) (hp : w.promises p = some inner)
    (h : w'.promises = w.promises.insert p i) (hi : Follows inner i) {l : List Reaction}
    (hreg : i.registered = inner.registered ++ l) (hnew : ∀ r ∈ l, ¬ v.Public r.derived) :
    Evolves v w' where
  stays q d hq := by
    obtain ⟨d', hd', hfollows⟩ := hv.stays q d hq
    by_cases hqp : q = p
    · subst hqp
      rw [hp] at hd'
      cases hd'
      exact ⟨i, by rw [h]; exact PMap.insert_self, hfollows.trans hi⟩
    · exact ⟨d', by rw [h, PMap.insert_of_ne hqp]; exact hd', hfollows⟩
  derives q d hd := by
    by_cases hqp : q = p
    · subst hqp
      have hnone : l.filter (fun r => r.derived == d) = [] := by
        rw [List.filter_eq_nil_iff]
        intro r hr heq
        exact hnew r hr (by rwa [beq_iff_eq.1 heq])
      rw [derivations_insert_self h, hreg, List.filter_append, hnone, List.append_nil,
        ← hv.derives q d hd]
      simp [derivations, hp]
    · rw [derivations_congr (w := w) (by rw [h, PMap.insert_of_ne hqp])]
      exact hv.derives q d hd

/-- Only `p` changes, and keeps its registrations. -/
theorem of_same (hp : w.promises p = some inner) (h : w'.promises = w.promises.insert p i)
    (hi : i.internal = inner.internal)
    (hlock : inner.resolutionLocked = true → i.resolutionLocked = true)
    (hreg : i.registered = inner.registered) : Evolves w w' := by
  refine (of_eq rfl).then_insert (l := []) hp h ⟨hi, hlock⟩ ?_ ?_
  · rw [hreg, List.append_nil]
  · intro r hr
    cases hr

theorem settle (p : Nat) (state : PromiseState) (value : Value) :
    Evolves w (w.settle p state value) := by
  unfold EventLoop.settle
  split
  · rename_i inner hp
    split
    · exact of_same hp rfl rfl (fun _ => rfl) rfl
    · exact of_eq rfl
  · exact of_eq rfl

theorem lock (h : w.lock p = some w') : Evolves w w' := by
  obtain ⟨inner, hp, -, -, rfl⟩ := lock_cases h
  exact of_same hp rfl rfl (fun _ => rfl) rfl

/-- A promise is made. -/
theorem create (hs : w.Sound) (hreg : i.registered = []) :
    Evolves w { w with promises := w.promises.insert w.next i, next := w.next + 1 } where
  stays q d hq := by
    have hne : q ≠ w.next := by
      rintro rfl
      rw [hs.freshPromise _ (Nat.le_refl _)] at hq
      cases hq
    exact ⟨d, (PMap.insert_of_ne hne).trans hq, .refl d⟩
  derives q d _ := by
    by_cases hqn : q = w.next
    · subst hqn
      rw [derivations_insert_self (w := w) (i := i) rfl, hreg]
      simp [derivations, hs.freshPromise _ (Nat.le_refl _)]
    · exact derivations_congr (PMap.insert_of_ne hqn)

/-- A reaction that derives a new promise, or an internal one, is registered. -/
theorem then_registerOn {v : EventLoop} (hv : Evolves v w) (p : Nat) {r : Reaction}
    (hr : ¬ v.Public r.derived) : Evolves v (w.registerOn p r) := by
  have hnew : ∀ r' ∈ [r], ¬ v.Public r'.derived := by
    intro r' h
    rw [List.mem_singleton] at h
    rwa [h]
  unfold EventLoop.registerOn
  split
  · rename_i inner hp
    split
    · exact hv.then_insert hp rfl ⟨rfl, id⟩ rfl hnew
    · exact hv.then_insert hp rfl ⟨rfl, id⟩ rfl hnew
  · exact hv

theorem register (hs : w.Sound) (p : Nat) (onFulfilled onRejected : Value)
    (capability : Option (Value × Value)) :
    Evolves w (w.register p onFulfilled onRejected capability) := by
  refine (create hs rfl).then_registerOn p ?_
  rintro ⟨e, he, -⟩
  rw [hs.freshPromise _ (Nat.le_refl _)] at he
  cases he

theorem adopt {target : Nat} (ht : w.promises target = some inner) (hi : inner.internal = true) :
    Evolves w (w.adopt p target inner) := by
  refine then_registerOn ?_ p ?_
  · exact of_same ht rfl rfl id rfl
  · rintro ⟨e, he, hint⟩
    rw [ht] at he
    cases he
    rw [hi] at hint
    cases hint

theorem frame (used : Option Nat) : Frame True used (fun _ => True) Evolves where
  refl _ := of_eq rfl
  trans := trans
  settle state value _ := settle _ state value
  lock _ h := lock h
  retoken _ _ := of_eq rfl
  queue _ _ _ _ := of_eq rfl
  create hs hreg := create (hs trivial) hreg
  register p _ _ _ hs := register (hs trivial) p _ _ _
  adopt _ _ _ ht hi := adopt ht hi

end Evolves

/-- **Promises stay**, through each act, and public ones are derived once. -/
theorem evolves_perform (hs : w.Sound) {a : Act} (h : w.perform a = some w') : Evolves w w' :=
  (Evolves.frame _).perform_any (fun _ => hs) h (fun _ _ => .of_eq rfl) fun _ _ _ _ => .of_eq rfl

/-! ## Open promises -/

/-- The promise is pending and its public resolution is still there. -/
def Open (w : EventLoop) (p : Nat) : Prop :=
  ∃ i, w.promises p = some i ∧ i.state = .pending ∧ i.resolutionLocked = false ∧ i.internal = false

/-- Nothing about `p` changes. -/
def Spares (p : Nat) (w w' : EventLoop) : Prop := w'.promises p = w.promises p

namespace Spares

variable {p q : Nat}

theorem of_insert {i : PromiseInner} (hne : p ≠ q) (h : w'.promises = w.promises.insert q i) :
    Spares p w w' := by
  unfold Spares
  rw [h, PMap.insert_of_ne hne]

theorem settle (hne : p ≠ q) (state : PromiseState) (value : Value) :
    Spares p w (w.settle q state value) := by
  unfold EventLoop.settle
  split
  · split
    · exact of_insert hne rfl
    · rfl
  · rfl

theorem lock (hne : p ≠ q) (h : w.lock q = some w') : Spares p w w' := by
  obtain ⟨inner, -, -, -, rfl⟩ := lock_cases h
  exact of_insert hne rfl

end Spares

namespace Open

variable {p : Nat}

section

variable (hp : w.Open p)

include hp

theorem of_spares (h : Spares p w w') : w'.Open p := by
  obtain ⟨i, hi, hrest⟩ := hp
  exact ⟨i, h.trans hi, hrest⟩

theorem free (hs : w.Sound) : w.Free p := by
  obtain ⟨i, hi, -, hlock, -⟩ := hp
  exact hs.free_of_unlocked hi hlock

/-- It is not one of the internal promises. -/
theorem ne_internal {q : Nat} {i : PromiseInner} (hq : w.promises q = some i)
    (hi : i.internal = true) : p ≠ q := by
  rintro rfl
  obtain ⟨d, hd, -, -, hint⟩ := hp
  rw [hq] at hd
  cases hd
  rw [hi] at hint
  cases hint

theorem create (hs : w.Sound) (i : PromiseInner) :
    Open { w with promises := w.promises.insert w.next i, next := w.next + 1 } p := by
  refine hp.of_spares (.of_insert ?_ rfl)
  rintro rfl
  obtain ⟨d, hd, -⟩ := hp
  rw [hs.freshPromise _ (Nat.le_refl _)] at hd
  cases hd

/-- Registering a reaction leaves every promise open. -/
theorem registerOn (q : Nat) (r : Reaction) : (w.registerOn q r).Open p := by
  unfold EventLoop.registerOn
  split
  · rename_i inner hq
    by_cases hpq : p = q
    · subst hpq
      obtain ⟨i, hi, hpend, hrest⟩ := hp
      rw [hq] at hi
      cases hi
      rw [if_pos hpend]
      exact ⟨_, PMap.insert_self, hpend, hrest⟩
    · split
      · exact hp.of_spares (.of_insert hpq rfl)
      · exact hp.of_spares (.of_insert hpq rfl)
  · exact hp

theorem register (hs : w.Sound) (q : Nat) (onFulfilled onRejected : Value)
    (capability : Option (Value × Value)) :
    (w.register q onFulfilled onRejected capability).Open p :=
  (hp.create hs _).registerOn q _

end

/-- Whoever decides other promises only. -/
theorem frame (used : Option Nat) :
    Frame True used (p ≠ ·) fun w w' => w.Open p → w'.Open p where
  refl _ hp := hp
  trans h h' hp := h' (h hp)
  settle state value hne hp := hp.of_spares (.settle hne state value)
  lock hne h hp := hp.of_spares (.lock hne h)
  retoken _ _ hp := hp
  queue _ _ _ _ hp := hp
  create hs _ hp := hp.create (hs trivial) _
  register q _ _ _ hs hp := hp.register (hs trivial) q _ _ _
  adopt q _ _ ht hi hp := by
    refine Open.registerOn ?_ q _
    exact hp.of_spares (.of_insert (hp.ne_internal ht hi) rfl)

end Open

/-- **A promise stays open** through each act that does not call a resolver of it. -/
theorem open_perform (hs : w.Sound) {p : Nat} (hp : w.Open p) {a : Act} (ht : a.target ≠ some p)
    (h : w.perform a = some w') : w'.Open p := by
  refine (Open.frame _).perform (fun _ => hs) h (fun _ _ hp => hp) (fun _ _ _ _ hp => hp)
    (fun q hq heq => ht (heq ▸ hq)) (fun k q hk heq => hp.free hs k (heq ▸ hk))
    (fun q i hq hi => hp.ne_internal hq hi) (fun source state value r hr ha => ?_) hp
  obtain ⟨-, d, hd, hi⟩ := hs.derived_internal (List.mem_append_right _ hr) ha
  exact hp.ne_internal hd hi

/-! ## The queue -/

/-- No job is taken, and jobs of a `kind` are queued. -/
def Queues (kind : Job → Prop) (w w' : EventLoop) : Prop :=
  w'.dispatched = w.dispatched ∧
    ∃ jobs, w'.microtasks = w.microtasks ++ jobs ∧ ∀ job ∈ jobs, kind job

namespace Queues

variable {kind : Job → Prop}

theorem refl (w : EventLoop) : Queues kind w w := ⟨rfl, [], (List.append_nil _).symm, by simp⟩

theorem trans {w'' : EventLoop} (h : Queues kind w w') (h' : Queues kind w' w'') :
    Queues kind w w'' := by
  obtain ⟨hd, jobs, hm, hjobs⟩ := h
  obtain ⟨hd', jobs', hm', hjobs'⟩ := h'
  refine ⟨hd'.trans hd, jobs ++ jobs', by rw [hm', hm, List.append_assoc], fun job hjob => ?_⟩
  exact (List.mem_append.1 hjob).elim (hjobs job) (hjobs' job)

/-- One job is queued. -/
theorem push {job : Job} (h : kind job) : Queues kind w (w.pushMicrotask job) :=
  ⟨rfl, [job], rfl, List.forall_mem_singleton.2 h⟩

theorem lock {p : Nat} (h : w.lock p = some w') : Queues kind w w' := by
  obtain ⟨inner, -, -, -, rfl⟩ := lock_cases h
  exact refl w

variable (hkind : ∀ job, job.plain = false → kind job)

include hkind

theorem settle (p : Nat) (state : PromiseState) (value : Value) :
    Queues kind w (w.settle p state value) := by
  unfold EventLoop.settle
  split
  · split
    · refine ⟨rfl, _, rfl, fun job hjob => hkind job ?_⟩
      obtain ⟨r, -, rfl⟩ := List.mem_map.1 hjob
      rfl
    · exact refl w
  · exact refl w

theorem registerOn (p : Nat) (r : Reaction) : Queues kind w (w.registerOn p r) := by
  unfold EventLoop.registerOn
  split
  · split
    · exact refl w
    · exact push (hkind _ rfl)
  · exact refl w

theorem frame (used : Option Nat) : Frame False used (fun _ => True) (Queues kind) where
  refl := refl
  trans := trans
  settle state value _ := settle hkind _ state value
  lock _ h := lock h
  retoken _ _ := refl _
  queue _ _ _ _ := push (hkind _ rfl)
  create _ _ := refl _
  register p _ _ _ _ := .trans (by exact refl _) (registerOn hkind p _)
  adopt p _ _ _ _ := .trans (by exact refl _) (registerOn hkind p _)

end Queues

@[simp] theorem dispatched_registerOn (w : EventLoop) (p : Nat) (r : Reaction) :
    (w.registerOn p r).dispatched = w.dispatched :=
  have hqueues : Queues (·.plain = false) w (w.registerOn p r) := .registerOn (fun _ h => h) p r
  hqueues.1

/-- **Only `dispatch` takes a job**, the one at the front. -/
theorem queues_perform {a : Act} (h : w.perform a = some w') :
    (a ≠ .dispatch ∧ Queues (fun _ => True) w w') ∨
      ∃ job rest, a = .dispatch ∧ w.microtasks = job :: rest ∧ Queues (fun _ => True)
        { w with microtasks := rest, dispatched := w.dispatched ++ [job] } w' := by
  by_cases ha : a = .dispatch
  · subst ha
    simp only [perform] at h
    split at h
    next job rest hq =>
      cases h
      refine .inr ⟨job, rest, rfl, hq, ?_⟩
      exact (Queues.frame (fun _ _ => trivial) none).dispatchJob job fun _ _ _ _ _ _ => trivial
    next => cases h
  · exact .inl ⟨ha, (Queues.frame (fun _ _ => trivial) _).perform_any False.elim h
      (fun _ _ => .push trivial) fun _ _ heq => absurd heq ha⟩

theorem dispatched_perform {a : Act} (h : w.perform a = some w') :
    (a ≠ .dispatch ∧ w'.dispatched = w.dispatched) ∨
      ∃ job rest, a = .dispatch ∧ w.microtasks = job :: rest ∧
        w'.dispatched = w.dispatched ++ [job] :=
  (queues_perform h).imp (.imp_right And.left) fun ⟨job, rest, ha, hq, hqueues⟩ =>
    ⟨job, rest, ha, hq, hqueues.1⟩

/-- The jobs in the order in which they were queued: those taken, and those that wait. -/
def jobs (w : EventLoop) : List Job := w.dispatched ++ w.microtasks

theorem Queues.jobs {kind : Job → Prop} (h : Queues kind w w') : w.jobs <+: w'.jobs := by
  obtain ⟨hd, l, hm, -⟩ := h
  exact ⟨l, by rw [EventLoop.jobs, EventLoop.jobs, hd, hm, List.append_assoc]⟩

/-- Whether an act takes a job. -/
def takes : Act → Bool
  | .dispatch => true
  | _ => false

theorem jobs_performAll {acts : List Act} (h : w.performAll acts = some w') :
    w.jobs <+: w'.jobs ∧ w'.dispatched.length = w.dispatched.length + acts.countP takes := by
  induction acts generalizing w with
  | nil =>
    cases h
    exact ⟨List.prefix_rfl, rfl⟩
  | cons a rest ih =>
    obtain ⟨u, hu, hrest⟩ := Option.bind_eq_some_iff.1 h
    obtain ⟨hjobs, hcount⟩ := ih hrest
    rw [hcount, List.countP_cons]
    rcases queues_perform hu with ⟨hne, hqueues⟩ | ⟨job, l, rfl, hq, hqueues⟩
    · have htakes : ¬ takes a = true := by cases a <;> simp_all [takes]
      exact ⟨hqueues.jobs.trans hjobs, by rw [hqueues.1, if_neg htakes, Nat.add_zero]⟩
    · refine ⟨.trans ?_ (hqueues.jobs.trans hjobs), ?_⟩
      · simp [jobs, hq]
      · rw [hqueues.1, List.length_append, List.length_singleton, if_pos (by rfl), Nat.add_assoc,
          Nat.add_comm 1]

/-- The jobs so far whose reaction derives `d`. -/
def jobsFor (w : EventLoop) (d : Nat) : List Job :=
  (w.dispatched ++ w.microtasks).filter (Job.derives d)

/-- One registration derives `d`, and it is on `p`. -/
structure Derives (w : EventLoop) (d p : Nat) : Prop where
  known : w.Public d
  one : ∃ r, w.derivations p d = [r]
  only : ∀ q, q ≠ p → w.derivations q d = []

namespace Derives

variable {d p : Nat}

theorem evolve (h : w.Derives d p) (he : Evolves w w') : w'.Derives d p where
  known := he.publicStays h.known
  one := by
    rw [he.derives p d h.known]
    exact h.one
  only q hq := by
    rw [he.derives q d h.known]
    exact h.only q hq

/-- `then` derives a promise of its own. -/
theorem register (hs : w.Sound) {inner : PromiseInner} (hp : w.promises p = some inner)
    (onFulfilled onRejected : Value) (capability : Option (Value × Value)) :
    (w.register p onFulfilled onRejected capability).Derives w.next p := by
  have hfresh := hs.freshPromise w.next (Nat.le_refl _)
  have hne : p ≠ w.next := by
    rintro rfl
    rw [hfresh] at hp
    cases hp
  have hnone : ∀ q i, w.promises q = some i →
      i.registered.filter (fun r => r.derived == w.next) = [] := by
    intro q i hq
    rw [List.filter_eq_nil_iff]
    intro r hr heq
    obtain ⟨e, he, -⟩ := hs.derived q i r hq hr
    rw [beq_iff_eq.1 heq, hfresh] at he
    cases he
  have hp' : w.promises.insert w.next (pendingPromise false (w.waitsForHost p)) p = some inner :=
    (PMap.insert_of_ne hne).trans hp
  have hone : ∀ r : Reaction, r.derived = w.next →
      (inner.registered ++ [r]).filter (fun r => r.derived == w.next) = [r] := by
    intro r hr
    simp [List.filter_append, hnone p inner hp, hr]
  have hother : ∀ q, q ≠ p → ∀ u : EventLoop, u.promises q =
      w.promises.insert w.next (pendingPromise false (w.waitsForHost p)) q →
      u.derivations q w.next = [] := by
    intro q hq u hu
    unfold derivations
    rw [hu]
    by_cases hqn : q = w.next
    · subst hqn
      simp [pendingPromise]
    · rw [PMap.insert_of_ne hqn]
      cases hd : w.promises q with
      | none => rfl
      | some i => exact hnone q i hd
  let made : EventLoop :=
    { w with promises := w.promises.insert w.next (pendingPromise false (w.waitsForHost p)) }
  simp only [EventLoop.register, EventLoop.registerOn, hp']
  split
  · refine ⟨⟨_, (PMap.insert_of_ne hne.symm).trans PMap.insert_self, rfl⟩,
      ⟨⟨onFulfilled, onRejected, w.next, false, capability⟩, ?_⟩, ?_⟩
    · exact (derivations_insert_self (w := made) rfl).trans (hone _ rfl)
    · exact fun q hq => hother q hq _ (PMap.insert_of_ne hq)
  · refine ⟨⟨_, (PMap.insert_of_ne hne.symm).trans PMap.insert_self, rfl⟩,
      ⟨⟨onFulfilled, onRejected, w.next, false, capability⟩, ?_⟩, ?_⟩
    · exact (derivations_insert_self (w := made) rfl).trans (hone _ rfl)
    · exact fun q hq => hother q hq _ (PMap.insert_of_ne hq)

/-- The reaction that derives `d` is on `p`. -/
theorem source (h : w.Derives d p) (hs : w.Sound) {source : Nat} {state : PromiseState}
    {value : Value} {r : Reaction} (hr : r.derived = d)
    (hj : .reaction source state value r ∈ w.dispatched ++ w.microtasks) : source = p := by
  obtain ⟨inner, hi, -, -, -, hmem⟩ := hs.settled_of_job hj
  by_contra hne
  have hnone := h.only source hne
  simp only [derivations, hi, Option.map_some, Option.getD_some, List.filter_eq_nil_iff] at hnone
  exact hnone r hmem (beq_iff_eq.2 hr)

end Derives

/-- A job derives a promise that is there. -/
theorem derived_of_job (hs : w.Sound) {d : Nat} {job : Job}
    (hj : job ∈ w.dispatched ++ w.microtasks) (hd : job.derives d = true) :
    ∃ e, w.promises d = some e := by
  cases job with
  | reaction source state value r =>
    obtain ⟨inner, hi, -, -, -, hmem⟩ := hs.settled_of_job hj
    obtain ⟨e, he, -⟩ := hs.derived source inner r hi hmem
    rw [beq_iff_eq.1 hd] at he
    exact ⟨e, he⟩
  | resolveThenable target thenable method g => cases hd
  | _ => cases hd

/-- Jobs that derive `d` are jobs of `p`, so they are counted among those. -/
theorem length_filter_derives {d p : Nat} (jobs : List Job)
    (h : ∀ source state value r, .reaction source state value r ∈ jobs → r.derived = d →
      source = p) :
    (jobs.filter (Job.derives d)).length =
      ((jobs.filterMap (Job.ofSource p)).filter fun j => j.2.2.derived == d).length := by
  induction jobs with
  | nil => rfl
  | cons job rest ih =>
    have ih := ih fun source state value r hr => h source state value r (List.mem_cons_of_mem _ hr)
    cases job with
    | reaction source state value r =>
      have hsource := h source state value r List.mem_cons_self
      by_cases hd : r.derived = d
      · simp [Job.derives, Job.ofSource, hd, hsource hd, ih]
      · by_cases hp : source = p
        · simp [Job.derives, Job.ofSource, hd, hp, ih]
        · simp [Job.derives, Job.ofSource, hd, hp, ih]
    | resolveThenable target thenable method g => exact ih
    | _ => exact ih

/-- **One job at most runs the reaction that derives a promise**, and one does when the
promise it was registered on is settled. -/
theorem Derives.job_once {d p : Nat} (h : w.Derives d p) (hs : w.Sound) {inner : PromiseInner}
    (hp : w.promises p = some inner) :
    (w.jobsFor d).length = if inner.state = .pending then 0 else 1 := by
  obtain ⟨r, hr⟩ := h.one
  simp only [derivations, hp, Option.map_some, Option.getD_some] at hr
  have hjobs := hs.jobs p
  unfold reactionJobs at hjobs
  unfold jobsFor
  rw [length_filter_derives (p := p) _ fun source state value r hj hd => h.source hs hd hj, hjobs]
  simp only [owed, hp, Option.map_some, Option.getD_some, PromiseInner.owes]
  split
  · rfl
  · rw [List.filter_map, List.length_map]
    show (inner.registered.filter fun r => r.derived == d).length = 1
    rw [hr]
    rfl

/-! ## Moving on -/

/-- The event loop moves on, and keeps what it has. -/
structure Advances (w w' : EventLoop) : Prop where
  sound : w'.Sound
  keeps : Keeps w w'
  evolves : Evolves w w'
  taken : w.dispatched ⊆ w'.dispatched

namespace Advances

section

variable (hs : w.Sound)

include hs

theorem refl : Advances w w := ⟨hs, .of_eq rfl, .of_eq rfl, fun _ h => h⟩

omit hs in
theorem trans {w'' : EventLoop} (h : Advances w w') (h' : Advances w' w'') : Advances w w'' :=
  ⟨h'.sound, h.keeps.trans h'.keeps, h.evolves.trans h'.evolves, List.Subset.trans h.taken h'.taken⟩

theorem perform {a : Act} (h : w.perform a = some w') : Advances w w' := by
  refine ⟨hs.perform h, keeps_perform hs h, evolves_perform hs h, ?_⟩
  rcases dispatched_perform h with ⟨-, heq⟩ | ⟨job, rest, -, -, heq⟩
  · rw [heq]
    exact fun _ h => h
  · rw [heq]
    exact List.subset_append_left _ _

theorem bump : Advances w { w with next := w.next + 1 } :=
  ⟨hs.bump, .of_eq rfl, .of_eq rfl, fun _ h => h⟩

theorem create (internal external : Bool) : Advances w { w with
      promises := w.promises.insert w.next (pendingPromise internal external)
      next := w.next + 1 } :=
  ⟨hs.create rfl rfl, .create hs _, .create hs rfl, fun _ h => h⟩

theorem reject (p : Nat) (reason : Value) : Advances w (w.rejectPromise p reason) :=
  perform hs (a := .reject p reason) rfl

theorem resolve {p : Nat} (hp : w.Open p) (value : Value) :
    Advances w (w.resolvePromise p value) := by
  obtain ⟨i, hi, -, -, hint⟩ := hp
  exact perform hs (a := .resolve p value) (by simp [EventLoop.perform, hi, hint])

theorem register {p : Nat} (hp : (w.promises p).isSome = true) (onFulfilled onRejected : Value) :
    Advances w (w.register p onFulfilled onRejected none) := by
  obtain ⟨i, hi⟩ := Option.isSome_iff_exists.1 hp
  exact perform hs (a := .register p onFulfilled onRejected none) (by simp [EventLoop.perform, hi])

/-- Only a flag of one promise changes. -/
theorem external {p : Nat} {inner : PromiseInner} (hp : w.promises p = some inner)
    (external : Bool) :
    Advances w { w with
      promises := w.promises.insert p { inner with externalPending := external } } := by
  refine ⟨?_, ?_, .of_same hp rfl rfl id rfl, fun _ h => h⟩
  · have hu := hs.update (i := { inner with externalPending := external }) hp [] rfl ?_
      (hs.reactions p inner hp) (fun r hr => .inl hr) (by simp [PromiseInner.owes])
      (fun _ _ => rfl)
    · rwa [List.append_nil] at hu
    · intro k hk
      obtain ⟨d, hd, hpend, hlock, -⟩ := hs.held k p hk
      rw [hp] at hd
      cases hd
      exact ⟨hpend, hlock⟩
  · refine .of_insert rfl (fun d hd _ => ?_)
    rw [hp] at hd
    cases hd
    exact ⟨rfl, rfl⟩

end

end Advances

/-- A promise stays open when its flag changes. -/
theorem Open.external {p q : Nat} (hp : w.Open p) {inner : PromiseInner}
    (hq : w.promises q = some inner) (external : Bool) :
    Open { w with promises := w.promises.insert q { inner with externalPending := external } } p := by
  by_cases hpq : p = q
  · subst hpq
    obtain ⟨i, hi, hrest⟩ := hp
    rw [hq] at hi
    cases hi
    exact ⟨_, PMap.insert_self, hrest⟩
  · exact hp.of_spares (.of_insert hpq rfl)

end EventLoop

end NapiVm.Promises
