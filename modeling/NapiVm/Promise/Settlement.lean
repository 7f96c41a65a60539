import NapiVm.Promise.Basic

/-!
# The invariant of promises

At most one token decides a pending promise, and then the
promise is locked, so no public resolver reaches it; and the reaction jobs queued for
a promise so far are the registrations it owes a job, in their order.

* `EventLoop.Sound.settle` — settling a promise no token decides keeps it.
* `EventLoop.Sound.perform` — so does each act.
-/

namespace NapiVm.Promises

/-- The reaction job, if it is one of `p`. -/
def Job.ofSource (p : Nat) : Job → Option (PromiseState × Value × Reaction)
  | .reaction source state value r => if source = p then some (state, value, r) else none
  | _ => none

namespace PromiseInner

/-- The jobs a promise owes its registrations. -/
def owes (inner : PromiseInner) : List (PromiseState × Value × Reaction) :=
  if inner.state = .pending then [] else inner.registered.map fun r => (inner.state, inner.value, r)

/-- The registrations that wait for the settlement. -/
def waiting (inner : PromiseInner) : List Reaction :=
  if inner.state = .pending then inner.registered else []

end PromiseInner

namespace EventLoop

/-- The reaction jobs queued for `p` so far, in their order. -/
def reactionJobs (w : EventLoop) (p : Nat) : List (PromiseState × Value × Reaction) :=
  (w.dispatched ++ w.microtasks).filterMap (Job.ofSource p)

/-- The reaction jobs `p` owes. -/
def owed (w : EventLoop) (p : Nat) : List (PromiseState × Value × Reaction) :=
  ((w.promises p).map PromiseInner.owes).getD []

/-- The token `k` decides `p`. -/
def Holds (w : EventLoop) (k p : Nat) : Prop := ∃ t, w.tokens k = some t ∧ t.holds = some p

/-- **The invariant.** -/
structure Sound (w : EventLoop) : Prop where
  freshPromise : ∀ p, w.next ≤ p → w.promises p = none
  freshToken : ∀ k, w.next ≤ k → w.tokens k = none
  /-- A promise some token decides is locked. -/
  held : ∀ k p, w.Holds k p → ∃ inner, w.promises p = some inner ∧ inner.state = .pending ∧
    inner.resolutionLocked = true ∧ inner.internal = false
  /-- One token at most decides a promise. -/
  alone : ∀ k k' p, w.Holds k p → w.Holds k' p → k = k'
  jobs : ∀ p, w.reactionJobs p = w.owed p
  reactions : ∀ p inner, w.promises p = some inner → inner.reactions = inner.waiting
  /-- Derived promises exist, and settlements are passed on as they are to internal ones only. -/
  derived : ∀ p inner r, w.promises p = some inner → r ∈ inner.registered →
    ∃ d, w.promises r.derived = some d ∧ (r.adopted = true → d.internal = true)

theorem sound_initial : Sound initial where
  freshPromise _ _ := rfl
  freshToken _ _ := rfl
  held _ _ h := by
    obtain ⟨t, ht, -⟩ := h
    cases ht
  alone _ _ _ h _ := by
    obtain ⟨t, ht, -⟩ := h
    cases ht
  jobs _ := rfl
  reactions _ _ h := by cases h
  derived _ _ _ h := by cases h

/-! ## The operations keep the invariant -/

/-- No token decides `p`. -/
def Free (w : EventLoop) (p : Nat) : Prop := ∀ k, ¬ w.Holds k p

/-- A promise that may get a token. -/
def Ready (w : EventLoop) (p : Nat) : Prop :=
  w.Free p ∧ ∃ inner, w.promises p = some inner ∧ inner.state = .pending ∧
    inner.resolutionLocked = true ∧ inner.internal = false

/-- `lock` finds a promise that is pending and not locked. -/
theorem lock_cases {w w' : EventLoop} {p : Nat} (h : w.lock p = some w') :
    ∃ inner, w.promises p = some inner ∧ inner.resolutionLocked = false ∧ inner.state = .pending ∧
      w' = { w with
        promises := w.promises.insert p { inner with resolutionLocked := true } } := by
  unfold lock at h
  split at h
  next inner hp =>
    split at h
    next => cases h
    next hopen =>
      simp only [Bool.or_eq_true, bne_iff_ne, ne_eq, not_or, Bool.not_eq_true, not_not] at hopen
      cases h
      exact ⟨inner, hp, hopen.1, hopen.2, rfl⟩
  next => cases h

namespace Sound

variable {w : EventLoop} {p : Nat}

variable {inner : PromiseInner} {state : PromiseState} {w' : EventLoop} {t : Token} {k : Nat}
  {job : Job} {r : Reaction}

section

variable (hs : w.Sound)

include hs

/-- A change of the promises that leaves all but `p` alone, and of `p` what tokens and
adopters count on. -/
theorem update {i : PromiseInner} (hp : w.promises p = some inner) (jobs : List Job)
    (hinternal : i.internal = inner.internal)
    (hheld : ∀ k, w.Holds k p → i.state = .pending ∧ i.resolutionLocked = true)
    (hreactions : i.reactions = i.waiting)
    (hderived : ∀ r ∈ i.registered, r ∈ inner.registered ∨
      ∃ d, w.promises r.derived = some d ∧ (r.adopted = true → d.internal = true))
    (howes : inner.owes ++ jobs.filterMap (Job.ofSource p) = i.owes)
    (hother : ∀ q, q ≠ p → jobs.filterMap (Job.ofSource q) = []) :
    Sound { w with
      promises := w.promises.insert p i
      microtasks := w.microtasks ++ jobs } where
  freshPromise q hq := by
    have hne : q ≠ p := by
      rintro rfl
      rw [hs.freshPromise q hq] at hp
      cases hp
    show w.promises.insert p i q = none
    rw [PMap.insert_of_ne hne]
    exact hs.freshPromise q hq
  freshToken := hs.freshToken
  held k q h := by
    by_cases hq : q = p
    · subst hq
      obtain ⟨d, hd, -, -, hi⟩ := hs.held k q h
      rw [hp] at hd
      cases hd
      obtain ⟨hstate, hlock⟩ := hheld k h
      exact ⟨i, PMap.insert_self, hstate, hlock, hinternal.trans hi⟩
    · obtain ⟨d, hd, hrest⟩ := hs.held k q h
      exact ⟨d, (PMap.insert_of_ne hq).trans hd, hrest⟩
  alone := hs.alone
  jobs q := by
    have hjobs := hs.jobs q
    have hsplit : reactionJobs { w with
        promises := w.promises.insert p i
        microtasks := w.microtasks ++ jobs } q =
        w.reactionJobs q ++ jobs.filterMap (Job.ofSource q) := by
      simp [reactionJobs]
    rw [hsplit, hjobs]
    by_cases hq : q = p
    · subst hq
      simpa [owed, hp] using howes
    · simp [owed, PMap.insert_of_ne hq, hother q hq]
  reactions q d hd := by
    by_cases hq : q = p
    · subst hq
      have : i = d := by simpa using hd
      rw [← this]
      exact hreactions
    · have hd' : w.promises q = some d := by simpa [PMap.insert_of_ne hq] using hd
      exact hs.reactions q d hd'
  derived q d r hd hr := by
    have hold : ∃ e, w.promises r.derived = some e ∧ (r.adopted = true → e.internal = true) := by
      by_cases hq : q = p
      · subst hq
        have : i = d := by simpa using hd
        subst this
        rcases hderived r hr with hmem | he
        · exact hs.derived q inner r hp hmem
        · exact he
      · have hd' : w.promises q = some d := by simpa [PMap.insert_of_ne hq] using hd
        exact hs.derived q d r hd' hr
    obtain ⟨e, he, hi⟩ := hold
    by_cases hq : r.derived = p
    · refine ⟨i, ?_, ?_⟩
      · show w.promises.insert p i r.derived = some i
        rw [hq]
        exact PMap.insert_self
      · rw [hq, hp] at he
        cases he
        exact fun ha => hinternal.trans (hi ha)
    · exact ⟨e, (PMap.insert_of_ne hq).trans he, hi⟩

/-- `settle`, on a promise no token decides. -/
theorem settle (hfree : w.Free p) (hst : state ≠ .pending) (value : Value) :
    (w.settle p state value).Sound := by
  unfold EventLoop.settle
  split
  · rename_i inner hp
    split
    · rename_i hpend
      have hreg : inner.reactions = inner.registered := by
        rw [hs.reactions p inner hp]
        simp [PromiseInner.waiting, hpend]
      refine hs.update hp _ rfl ?_ ?_ ?_ ?_ ?_
      · intro k hk
        exact absurd hk (hfree k)
      · simp [PromiseInner.waiting, hst]
      · intro r hr
        exact .inl hr
      · simp [PromiseInner.owes, hpend, hst, hreg, List.filterMap_map, Function.comp_def,
          Job.ofSource]
      · intro q hq
        have hne : p ≠ q := fun h => hq h.symm
        simp [List.filterMap_map, Function.comp_def, Job.ofSource, hne]
    · exact hs
  · exact hs

/-- A promise that is not locked is decided by no token. -/
theorem free_of_unlocked (hp : w.promises p = some inner) (h : inner.resolutionLocked = false) :
    w.Free p := by
  intro k hk
  obtain ⟨d, hd, -, hlock, -⟩ := hs.held k p hk
  rw [hp] at hd
  cases hd
  rw [h] at hlock
  cases hlock

/-- An internal promise is decided by no token. -/
theorem free_of_internal (hp : w.promises p = some inner) (h : inner.internal = true) :
    w.Free p := by
  intro k hk
  obtain ⟨d, hd, -, -, hi⟩ := hs.held k p hk
  rw [hp] at hd
  cases hd
  rw [h] at hi
  cases hi

/-- `lock` takes the public resolution. -/
theorem lock (h : w.lock p = some w') :
    w'.Sound ∧ w'.Free p ∧
      ((∀ inner, w.promises p = some inner → inner.internal = false) → w'.Ready p) := by
  obtain ⟨inner, hp, hunlocked, hpend, rfl⟩ := lock_cases h
  have hfree : w.Free p := hs.free_of_unlocked hp hunlocked
  have hs' : Sound { w with
      promises := w.promises.insert p { inner with resolutionLocked := true }
      microtasks := w.microtasks ++ [] } := by
    refine hs.update hp [] rfl ?_ (hs.reactions p inner hp) (fun r hr => .inl hr) ?_ ?_
    · intro k hk
      exact absurd hk (hfree k)
    · simp [PromiseInner.owes]
    · intro q _
      rfl
  rw [List.append_nil] at hs'
  refine ⟨hs', hfree, fun hi => ⟨hfree, _, PMap.insert_self, hpend, rfl, ?_⟩⟩
  exact hi inner hp

/-- Addresses may be skipped. -/
theorem bump : Sound { w with next := w.next + 1 } :=
  { hs with
    freshPromise := fun q hq => hs.freshPromise q (Nat.le_of_succ_le hq)
    freshToken := fun k hk => hs.freshToken k (Nat.le_of_succ_le hk) }

/-- A new token for a promise that may get one. -/
theorem grant (hp : w.Ready p) (ht : t.holds = some p) : (w.grant t).Sound := by
  obtain ⟨hfree, inner, hinner, hready⟩ := hp
  have hold : ∀ k q, (w.grant t).Holds k q → k = w.next ∧ q = p ∨ w.Holds k q := by
    rintro k q ⟨u, hu, hq⟩
    by_cases hk : k = w.next
    · subst hk
      have : t = u := by simpa [EventLoop.grant] using hu
      subst this
      exact .inl ⟨rfl, Option.some.inj (hq.symm.trans ht)⟩
    · exact .inr ⟨u, by simpa [EventLoop.grant, PMap.insert_of_ne hk] using hu, hq⟩
  refine { hs with
    freshPromise := ?_
    freshToken := ?_
    held := ?_
    alone := ?_ }
  · intro q hq
    exact hs.freshPromise q (Nat.le_of_succ_le hq)
  · intro k hk
    have hne : k ≠ w.next := by
      have : w.next + 1 ≤ k := hk
      omega
    show w.tokens.insert w.next t k = none
    rw [PMap.insert_of_ne hne]
    exact hs.freshToken k (Nat.le_of_succ_le hk)
  · intro k q h
    rcases hold k q h with ⟨-, rfl⟩ | h
    · exact ⟨inner, hinner, hready⟩
    · exact hs.held k q h
  · intro k k' q h h'
    rcases hold k q h with ⟨rfl, rfl⟩ | h
    · rcases hold k' q h' with ⟨rfl, -⟩ | h'
      · rfl
      · exact absurd h' (hfree k')
    · rcases hold k' q h' with ⟨rfl, rfl⟩ | h'
      · exact absurd h (hfree k)
      · exact hs.alone k k' q h h'

/-- A change of the tokens that gives none of them a promise it did not have. -/
theorem retoken {tokens : PMap Nat Token} (hfresh : ∀ k, w.tokens k = none → tokens k = none)
    (hold : ∀ k p, Holds { w with tokens := tokens } k p → w.Holds k p) :
    Sound { w with tokens := tokens } :=
  { hs with
    freshToken := fun k hk => hfresh k (hs.freshToken k hk)
    held := fun k p h => hs.held k p (hold k p h)
    alone := fun k k' p h h' => hs.alone k k' p (hold k p h) (hold k' p h') }

/-- The token of `p` is given up. -/
theorem release {t' : Token} (ht : w.tokens k = some t) (hp : t.holds = some p)
    (ht' : t'.holds = none) :
    Sound { w with tokens := w.tokens.insert k t' } ∧
      Ready { w with tokens := w.tokens.insert k t' } p := by
  have hold : ∀ j q, Holds { w with tokens := w.tokens.insert k t' } j q → j ≠ k ∧ w.Holds j q := by
    rintro j q ⟨u, hu, hq⟩
    by_cases hj : j = k
    · subst hj
      have : t' = u := by simpa using hu
      subst this
      rw [ht'] at hq
      cases hq
    · exact ⟨hj, u, by simpa [PMap.insert_of_ne hj] using hu, hq⟩
  refine ⟨hs.retoken ?_ (fun j q h => (hold j q h).2), ?_, ?_⟩
  · intro j hj
    have hne : j ≠ k := by
      rintro rfl
      rw [ht] at hj
      cases hj
    rw [PMap.insert_of_ne hne]
    exact hj
  · intro j hj
    obtain ⟨hne, hheld⟩ := hold j p hj
    exact hne (hs.alone j k p hheld ⟨t, ht, hp⟩)
  · exact hs.held k p ⟨t, ht, hp⟩

/-- The token of `p` is dropped. -/
theorem erase (ht : w.tokens k = some t) (hp : t.holds = some p) :
    Sound { w with tokens := w.tokens.erase k } ∧ Ready { w with tokens := w.tokens.erase k } p := by
  have hold : ∀ j q, Holds { w with tokens := w.tokens.erase k } j q → j ≠ k ∧ w.Holds j q := by
    rintro j q ⟨u, hu, hq⟩
    by_cases hj : j = k
    · subst hj
      simp at hu
    · exact ⟨hj, u, by simpa [PMap.erase_of_ne hj] using hu, hq⟩
  refine ⟨hs.retoken ?_ (fun j q h => (hold j q h).2), ?_, ?_⟩
  · intro j hj
    by_cases hjk : j = k
    · subst hjk
      simp
    · rw [PMap.erase_of_ne hjk]
      exact hj
  · intro j hj
    obtain ⟨hne, hheld⟩ := hold j p hj
    exact hne (hs.alone j k p hheld ⟨t, ht, hp⟩)
  · exact hs.held k p ⟨t, ht, hp⟩

/-- A token changes without a change of what it decides. -/
theorem rephase {s : Token} (ht : w.tokens k = some t) (hsame : s.holds = t.holds) :
    Sound { w with tokens := w.tokens.insert k s } := by
  refine hs.retoken ?_ ?_
  · intro j hj
    have hne : j ≠ k := by
      rintro rfl
      rw [ht] at hj
      cases hj
    rw [PMap.insert_of_ne hne]
    exact hj
  · rintro j q ⟨u, hu, hq⟩
    by_cases hj : j = k
    · subst hj
      have : s = u := by simpa using hu
      subst this
      exact ⟨t, ht, hsame.symm.trans hq⟩
    · exact ⟨u, by simpa [PMap.insert_of_ne hj] using hu, hq⟩

/-- A job that is no reaction is queued. -/
theorem pushMicrotask (h : ∀ p, job.ofSource p = none) : (w.pushMicrotask job).Sound :=
  { hs with
    jobs := fun p => by
      rw [show (w.pushMicrotask job).owed p = w.owed p from rfl, ← hs.jobs p]
      simp [reactionJobs, EventLoop.pushMicrotask, h] }

/-- A promise is made. -/
theorem create (hreg : inner.registered = []) (hrea : inner.reactions = []) :
    Sound { w with promises := w.promises.insert w.next inner, next := w.next + 1 } := by
  have hnone : w.promises w.next = none := hs.freshPromise _ (Nat.le_refl _)
  have hother : ∀ q d, w.promises q = some d → q ≠ w.next := by
    rintro q d hd rfl
    rw [hnone] at hd
    cases hd
  refine ⟨?_, ?_, ?_, hs.alone, ?_, ?_, ?_⟩
  · intro q hq
    have hne : q ≠ w.next := by
      have : w.next + 1 ≤ q := hq
      omega
    show w.promises.insert w.next inner q = none
    rw [PMap.insert_of_ne hne]
    exact hs.freshPromise q (Nat.le_of_succ_le hq)
  · intro k hk
    exact hs.freshToken k (Nat.le_of_succ_le hk)
  · intro k q h
    obtain ⟨d, hd, hrest⟩ := hs.held k q h
    exact ⟨d, (PMap.insert_of_ne (hother q d hd)).trans hd, hrest⟩
  · intro q
    have hjobs := hs.jobs q
    by_cases hq : q = w.next
    · subst hq
      have hnil : inner.owes = [] := by simp [PromiseInner.owes, hreg]
      simp only [owed, hnone] at hjobs
      simpa [owed, reactionJobs, hnil] using hjobs
    · simpa [owed, reactionJobs, PMap.insert_of_ne hq] using hjobs
  · intro q d hd
    by_cases hq : q = w.next
    · subst hq
      have : inner = d := by simpa using hd
      subst this
      simp [PromiseInner.waiting, hreg, hrea]
    · exact hs.reactions q d (by simpa [PMap.insert_of_ne hq] using hd)
  · intro q d r hd hr
    by_cases hq : q = w.next
    · subst hq
      have : inner = d := by simpa using hd
      subst this
      rw [hreg] at hr
      cases hr
    · obtain ⟨e, he, hi⟩ := hs.derived q d r (by simpa [PMap.insert_of_ne hq] using hd) hr
      exact ⟨e, (PMap.insert_of_ne (hother _ e he)).trans he, hi⟩

/-- `register_internal`. -/
theorem registerOn
    (hr : ∃ d, w.promises r.derived = some d ∧ (r.adopted = true → d.internal = true)) :
    (w.registerOn p r).Sound := by
  unfold EventLoop.registerOn
  split
  · rename_i inner hp
    have hnew : ∀ r' ∈ inner.registered ++ [r], r' ∈ inner.registered ∨
        ∃ d, w.promises r'.derived = some d ∧ (r'.adopted = true → d.internal = true) := by
      intro r' hmem
      rcases List.mem_append.1 hmem with h | h
      · exact .inl h
      · rw [List.mem_singleton] at h
        subst h
        exact .inr hr
    have hwait := hs.reactions p inner hp
    have hkept : ∀ k, w.Holds k p → inner.state = .pending ∧ inner.resolutionLocked = true := by
      intro k hk
      obtain ⟨d, hd, hpend, hlock, -⟩ := hs.held k p hk
      rw [hp] at hd
      cases hd
      exact ⟨hpend, hlock⟩
    split
    · rename_i hpend
      have hu := hs.update (i := { inner with
          handled := true, registered := inner.registered ++ [r],
          reactions := inner.reactions ++ [r] }) hp [] rfl hkept ?_ hnew ?_ (fun _ _ => rfl)
      · rwa [List.append_nil] at hu
      · simp [PromiseInner.waiting, hpend, hwait]
      · simp [PromiseInner.owes, hpend]
    · rename_i hsettled
      refine hs.update hp [_] rfl hkept ?_ hnew ?_ ?_
      · simpa [PromiseInner.waiting, hsettled] using hwait
      · simp [PromiseInner.owes, hsettled, Job.ofSource]
      · intro q hq
        have hne : p ≠ q := fun h => hq h.symm
        simp [Job.ofSource, hne]
  · exact hs

/-- `resolve_promise_inner`, up to the read of `then`. -/
theorem resolvePromiseInner (hp : w.Ready p) (value : Value) :
    (w.resolvePromiseInner p value).Sound := by
  unfold EventLoop.resolvePromiseInner
  split
  · exact hs.bump.settle hp.1 (by decide) _
  · split
    · exact hs.grant hp rfl
    · exact hs.settle hp.1 (by decide) _

/-- `resolve_promise_inner`, from the read of `then` on. -/
theorem finishRead (hp : w.Ready p) (value : Value) (outcome : ThenRead) :
    (w.finishRead p value outcome).Sound := by
  cases outcome with
  | threw reason => exact hs.settle hp.1 (by decide) _
  | found method callable =>
    simp only [EventLoop.finishRead]
    split
    · exact (hs.grant hp rfl).pushMicrotask (fun _ => rfl)
    · exact hs.settle hp.1 (by decide) _

theorem resolvePromise (hp : w.promises p = some inner) (hi : inner.internal = false)
    (value : Value) : (w.resolvePromise p value).Sound := by
  unfold EventLoop.resolvePromise
  split
  · rename_i w' hlock
    obtain ⟨hs', -, hready⟩ := hs.lock hlock
    refine hs'.resolvePromiseInner (hready fun d hd => ?_) value
    rw [hp] at hd
    cases hd
    exact hi
  · exact hs

theorem rejectPromise (reason : Value) : (w.rejectPromise p reason).Sound := by
  unfold EventLoop.rejectPromise
  split
  · rename_i w' hlock
    obtain ⟨hs', hfree, -⟩ := hs.lock hlock
    exact hs'.settle hfree (by decide) _
  · exact hs

theorem claimResolution {g : Nat} (h : w.claimResolution g = some (p, w')) :
    w'.Sound ∧ w'.Ready p := by
  unfold EventLoop.claimResolution at h
  split at h
  · rename_i target phase ht
    cases h
    exact hs.release ht rfl rfl
  · cases h

theorem thenableResolve (g : Nat) (value : Value) : (w.thenableResolve g value).Sound := by
  unfold EventLoop.thenableResolve
  split
  · rename_i target w' hclaim
    obtain ⟨hs', hready⟩ := hs.claimResolution hclaim
    exact hs'.resolvePromiseInner hready value
  · exact hs

theorem thenableReject (g : Nat) (reason : Value) : (w.thenableReject g reason).Sound := by
  unfold EventLoop.thenableReject
  split
  · rename_i target w' hclaim
    obtain ⟨hs', hready⟩ := hs.claimResolution hclaim
    exact hs'.settle hready.1 (by decide) reason
  · exact hs

theorem register (onFulfilled onRejected : Value) (capability : Option (Value × Value)) :
    (w.register p onFulfilled onRejected capability).Sound := by
  refine (hs.create rfl rfl).registerOn ⟨_, PMap.insert_self, fun h => ?_⟩
  cases h

theorem adopt {target : Nat} (ht : w.promises target = some inner) (hi : inner.internal = true) :
    (w.adopt p target inner).Sound := by
  have hfree : w.Free target := hs.free_of_internal ht hi
  have hu := hs.update (i := { inner with
    externalPending := inner.externalPending || w.waitsForHost p }) ht [] rfl
    (fun k hk => absurd hk (hfree k)) (hs.reactions target inner ht) (fun r hr => .inl hr)
    (by simp [PromiseInner.owes]) (fun _ _ => rfl)
  rw [List.append_nil] at hu
  exact hu.registerOn ⟨_, PMap.insert_self, fun _ => hi⟩

/-- A reaction job carries the settlement of the promise it was registered on. -/
theorem settled_of_job {source : Nat} {value : Value}
    (h : Job.reaction source state value r ∈ w.dispatched ++ w.microtasks) :
    ∃ inner, w.promises source = some inner ∧ inner.state = state ∧ inner.value = value ∧
      state ≠ .pending ∧ r ∈ inner.registered := by
  have hmem : (state, value, r) ∈ w.owed source := by
    rw [← hs.jobs source]
    exact List.mem_filterMap.2 ⟨_, h, by simp [Job.ofSource]⟩
  unfold owed at hmem
  cases hp : w.promises source with
  | none =>
    rw [hp] at hmem
    cases hmem
  | some inner =>
    rw [hp] at hmem
    simp only [Option.map_some, Option.getD_some, PromiseInner.owes] at hmem
    split at hmem
    · cases hmem
    · rename_i hst
      obtain ⟨r', hr', heq⟩ := List.mem_map.1 hmem
      cases heq
      exact ⟨inner, rfl, rfl, rfl, hst, hr'⟩

/-- A queued reaction that passes its settlement on does so to an internal promise. -/
theorem derived_internal {source : Nat} {value : Value}
    (h : Job.reaction source state value r ∈ w.dispatched ++ w.microtasks) (ha : r.adopted = true) :
    state ≠ .pending ∧ ∃ d, w.promises r.derived = some d ∧ d.internal = true := by
  obtain ⟨inner, hp, -, -, hst, hr⟩ := hs.settled_of_job h
  obtain ⟨d, hd, hi⟩ := hs.derived source inner r hp hr
  exact ⟨hst, d, hd, hi ha⟩

/-- The next job is taken from the queue. -/
theorem take {rest : List Job} (h : w.microtasks = job :: rest) :
    Sound { w with microtasks := rest, dispatched := w.dispatched ++ [job] } :=
  { hs with
    jobs := fun p => by
      have hjobs := hs.jobs p
      simpa [reactionJobs, owed, h] using hjobs }

theorem dispatchJob (h : job ∈ w.dispatched ++ w.microtasks) : (w.dispatchJob job).Sound := by
  cases job with
  | reaction source state value r =>
    simp only [EventLoop.dispatchJob]
    split
    · rename_i ha
      obtain ⟨hst, d, hd, hi⟩ := hs.derived_internal h ha
      exact hs.settle (hs.free_of_internal hd hi) hst value
    · exact hs
  | resolveThenable target thenable method g =>
    simp only [EventLoop.dispatchJob]
    split
    · rename_i target resolved ht
      refine hs.rephase ht ?_
      cases resolved <;> rfl
    · exact hs
  | _ => exact hs

/-- **Each act keeps the invariant.** -/
theorem perform {a : Act} (h : w.perform a = some w') : w'.Sound := by
  cases a with
  | create internal external | createSettled fulfilled value =>
    cases h
    exact hs.create rfl rfl
  | resolve p value =>
    simp only [EventLoop.perform] at h
    split at h
    · rename_i inner hp
      split at h
      · cases h
      · rename_i hi
        cases h
        exact hs.resolvePromise hp (by simpa using hi) value
    · cases h
  | reject p reason =>
    cases h
    exact hs.rejectPromise reason
  | notify p value =>
    simp only [EventLoop.perform] at h
    split at h
    · rename_i inner hp
      split at h
      · rename_i hi
        cases h
        exact hs.settle (hs.free_of_internal hp hi) (by decide) value
      · cases h
    · cases h
  | readThen token outcome =>
    simp only [EventLoop.perform] at h
    split at h
    · rename_i p value ht
      cases h
      obtain ⟨hs', hready⟩ := hs.erase ht rfl
      exact hs'.finishRead hready value outcome
    · cases h
  | thenableResolve g value =>
    simp only [EventLoop.perform] at h
    split at h
    · cases h
      exact hs.thenableResolve g value
    · cases h
  | thenableReject g reason =>
    simp only [EventLoop.perform] at h
    split at h
    · cases h
      exact hs.thenableReject g reason
    · cases h
  | thenableEnds g thrown =>
    simp only [EventLoop.perform] at h
    split at h
    · rename_i target resolved ht
      have hs' := hs.rephase (s := .resolutionGuard target resolved .done) ht
        (by cases resolved <;> rfl)
      cases thrown with
      | none =>
        cases h
        exact hs'
      | some reason =>
        cases h
        exact hs'.thenableReject g reason
    · cases h
  | register p onFulfilled onRejected capability =>
    simp only [EventLoop.perform] at h
    split at h
    · cases h
      exact hs.register onFulfilled onRejected capability
    · cases h
  | adopt p target =>
    simp only [EventLoop.perform] at h
    split at h
    · rename_i inner hp ht
      split at h
      · rename_i hi
        cases h
        exact hs.adopt ht hi
      · cases h
    · cases h
  | enqueue job =>
    simp only [EventLoop.perform] at h
    split at h
    · rename_i hplain
      cases h
      exact hs.pushMicrotask (fun p => by cases job <;> first | rfl | cases hplain)
    · cases h
  | dispatch =>
    simp only [EventLoop.perform] at h
    split at h
    · rename_i job rest hq
      cases h
      exact (hs.take hq).dispatchJob (by simp)
    · cases h

end

end Sound

end EventLoop

end NapiVm.Promises
