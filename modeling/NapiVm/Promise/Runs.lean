import NapiVm.Promise.Frame

/-!
# Promises settle once and lose no reaction

What holds along every run, from the invariant and from what each act leaves alone.

* `EventLoop.keeps_perform` — a settled promise keeps its state and value.
* `EventLoop.persists_perform` — a token goes on deciding its promise until it is used.
* `EventLoop.promises_settle_once` — promises settle once, a thenable decides by the first use
  of its resolving pair, and each registration becomes one job.
-/

namespace NapiVm.Promises.EventLoop

variable {w w' : EventLoop}

/-! ## Settled promises -/

/-- What is settled stays as it is. -/
def Keeps (w w' : EventLoop) : Prop :=
  ∀ p inner, w.promises p = some inner → inner.state ≠ .pending →
    ∃ i, w'.promises p = some i ∧ i.state = inner.state ∧ i.value = inner.value

namespace Keeps

theorem of_eq (h : w'.promises = w.promises) : Keeps w w' := by
  intro p inner hp _
  exact ⟨inner, by rw [h]; exact hp, rfl, rfl⟩

theorem trans {w'' : EventLoop} (h : Keeps w w') (h' : Keeps w' w'') : Keeps w w'' := by
  intro p inner hp hst
  obtain ⟨i, hi, hstate, hvalue⟩ := h p inner hp hst
  obtain ⟨j, hj, hstate', hvalue'⟩ := h' p i hi (by rwa [hstate])
  exact ⟨j, hj, hstate'.trans hstate, hvalue'.trans hvalue⟩

/-- Only `p` changes, and only if it is pending or keeps its settlement. -/
theorem of_insert {p : Nat} {i : PromiseInner} (h : w'.promises = w.promises.insert p i)
    (hp : ∀ inner, w.promises p = some inner → inner.state ≠ .pending →
      i.state = inner.state ∧ i.value = inner.value) : Keeps w w' := by
  intro q inner hq hst
  by_cases hqp : q = p
  · subst hqp
    obtain ⟨hs, hv⟩ := hp inner hq hst
    exact ⟨i, by rw [h]; exact PMap.insert_self, hs, hv⟩
  · exact ⟨inner, by rw [h, PMap.insert_of_ne hqp]; exact hq, rfl, rfl⟩

theorem settle (p : Nat) (state : PromiseState) (value : Value) :
    Keeps w (w.settle p state value) := by
  unfold EventLoop.settle
  split
  · rename_i inner hp
    split
    · rename_i hpend
      refine of_insert rfl (fun d hd hst => ?_)
      rw [hp] at hd
      cases hd
      exact absurd hpend hst
    · exact of_eq rfl
  · exact of_eq rfl

theorem lock {p : Nat} (h : w.lock p = some w') : Keeps w w' := by
  obtain ⟨inner, hp, -, -, rfl⟩ := lock_cases h
  refine of_insert rfl (fun d hd _ => ?_)
  rw [hp] at hd
  cases hd
  exact ⟨rfl, rfl⟩

theorem registerOn (p : Nat) (r : Reaction) : Keeps w (w.registerOn p r) := by
  unfold EventLoop.registerOn
  split
  · rename_i inner hp
    split
    · refine of_insert rfl (fun d hd _ => ?_)
      rw [hp] at hd
      cases hd
      exact ⟨rfl, rfl⟩
    · refine of_insert rfl (fun d hd _ => ?_)
      rw [hp] at hd
      cases hd
      exact ⟨rfl, rfl⟩
  · exact of_eq rfl

/-- A new promise takes no other one's place. -/
theorem create (hs : w.Sound) (i : PromiseInner) :
    Keeps w { w with promises := w.promises.insert w.next i, next := w.next + 1 } := by
  refine of_insert rfl (fun d hd _ => ?_)
  rw [hs.freshPromise _ (Nat.le_refl _)] at hd
  cases hd

theorem frame (used : Option Nat) : Frame True used (fun _ => True) Keeps where
  refl _ := of_eq rfl
  trans := trans
  settle state value _ := settle _ state value
  lock _ h := lock h
  retoken _ _ := of_eq rfl
  queue _ _ _ _ := of_eq rfl
  create hs _ := create (hs trivial) _
  register p _ _ _ hs := (create (hs trivial) _).trans (registerOn p _)
  adopt p _ _ ht _ := by
    refine trans (of_insert rfl fun d hd _ => ?_) (registerOn p _)
    rw [ht] at hd
    cases hd
    exact ⟨rfl, rfl⟩

end Keeps

/-- **A settled promise keeps its state and value** through each act. -/
theorem keeps_perform (hs : w.Sound) {a : Act} (h : w.perform a = some w') : Keeps w w' :=
  (Keeps.frame _).perform_any (fun _ => hs) h (fun _ _ => .of_eq rfl) fun _ _ _ _ => .of_eq rfl

/-! ## What decides a promise -/

/-- Tokens that are not used go on deciding their promises. -/
def Persists (used : Option Nat) (w w' : EventLoop) : Prop :=
  ∀ k p, used ≠ some k → w.Holds k p → w'.Holds k p

namespace Persists

variable {used : Option Nat}

theorem of_eq (h : w'.tokens = w.tokens) : Persists used w w' := by
  rintro k p - ⟨t, ht, hp⟩
  exact ⟨t, by rw [h]; exact ht, hp⟩

theorem trans {w'' : EventLoop} (h : Persists used w w') (h' : Persists used w' w'') :
    Persists used w w'' :=
  fun k p hk hp => h' k p hk (h k p hk hp)

theorem settle (p : Nat) (state : PromiseState) (value : Value) :
    Persists used w (w.settle p state value) := by
  unfold EventLoop.settle
  split
  · split <;> exact of_eq rfl
  · exact of_eq rfl

theorem lock {p : Nat} (h : w.lock p = some w') : Persists used w w' := by
  obtain ⟨inner, -, -, -, rfl⟩ := lock_cases h
  exact of_eq rfl

theorem registerOn (p : Nat) (r : Reaction) : Persists used w (w.registerOn p r) := by
  unfold EventLoop.registerOn
  split
  · split <;> exact of_eq rfl
  · exact of_eq rfl

theorem frame : Frame True used (fun _ => True) (Persists used) where
  refl _ := of_eq rfl
  trans := trans
  settle state value _ := settle _ state value
  lock _ h := lock h
  retoken next h := by
    rintro k p hk ⟨t, ht, hp⟩
    obtain ⟨t', ht', hsame⟩ := h trivial k t hk ht
    exact ⟨t', ht', hsame.trans hp⟩
  queue _ _ _ _ := of_eq rfl
  create _ _ := of_eq rfl
  register p _ _ _ _ := by
    refine trans ?_ (registerOn p _)
    exact of_eq rfl
  adopt p _ _ _ _ := by
    refine trans ?_ (registerOn p _)
    exact of_eq rfl

end Persists

/-- **A token goes on deciding its promise until it is used.** -/
theorem persists_perform (hs : w.Sound) {a : Act} (h : w.perform a = some w') :
    Persists a.uses w w' :=
  Persists.frame.perform_any (fun _ => hs) h (fun _ _ => .of_eq rfl) fun _ _ _ _ => .of_eq rfl

/-! ## The use of a token -/

/-- The promise is settled so. -/
def Decided (w : EventLoop) (p : Nat) (state : PromiseState) (value : Value) : Prop :=
  ∃ i, w.promises p = some i ∧ i.state = state ∧ i.value = value

variable {p g : Nat} {phase : JobPhase}

theorem decided_settle (h : w.Ready p) (state : PromiseState) (value : Value) :
    (w.settle p state value).Decided p state value := by
  obtain ⟨-, inner, hp, hpend, -⟩ := h
  simp only [settle, hp, hpend, if_true]
  exact ⟨_, PMap.insert_self, rfl, rfl⟩

/-- How a resolution with `value` goes on: it settles the promise, or reads `then`. -/
def ResolvedWith (w : EventLoop) (p : Nat) (value : Value) : Prop :=
  (asPromise value = some p ∧ ∃ addr, w.Decided p .rejected (.ref .error addr)) ∨
  (isJsObject value = true ∧ ∃ k, w.tokens k = some (.reading p value)) ∨
  (isJsObject value = false ∧ w.Decided p .fulfilled value)

theorem resolvedWith_inner (h : w.Ready p) (value : Value) :
    (w.resolvePromiseInner p value).ResolvedWith p value := by
  unfold resolvePromiseInner
  split
  · rename_i hself
    exact .inl ⟨hself, w.next, decided_settle (w := { w with next := w.next + 1 }) h _ _⟩
  · split
    · rename_i hobj
      exact .inr (.inl ⟨hobj, w.next, PMap.insert_self⟩)
    · rename_i hobj
      exact .inr (.inr ⟨by simpa using hobj, decided_settle h _ _⟩)

theorem claimResolution_eq (ht : w.tokens g = some (.resolutionGuard p false phase)) :
    w.claimResolution g =
      some (p, { w with tokens := w.tokens.insert g (.resolutionGuard p true phase) }) := by
  simp [claimResolution, ht]

/-- The first use of a thenable's resolving pair, or its throw before any use. -/
theorem first_use (hs : w.Sound) (ht : w.tokens g = some (.resolutionGuard p false phase)) :
    (∀ value, w.perform (.thenableResolve g value) = some w' → w'.ResolvedWith p value) ∧
    (∀ reason, w.perform (.thenableReject g reason) = some w' → w'.Decided p .rejected reason) ∧
    (∀ reason, w.perform (.thenableEnds g (some reason)) = some w' →
      w'.Decided p .rejected reason) := by
  have hready := (hs.claimResolution (claimResolution_eq ht)).2
  refine ⟨fun value h => ?_, fun reason h => ?_, fun reason h => ?_⟩
  · simp only [perform] at h
    split at h
    · cases h
      simp only [thenableResolve, claimResolution_eq ht]
      exact resolvedWith_inner hready value
    · cases h
  · simp only [perform] at h
    split at h
    · cases h
      simp only [thenableReject, claimResolution_eq ht]
      exact decided_settle hready _ _
    · cases h
  · simp only [perform] at h
    split at h
    · rename_i target resolved ht'
      rw [ht] at ht'
      cases ht'
      cases h
      have hs' := hs.rephase (s := .resolutionGuard p false .done) ht rfl
      have hclaim : claimResolution { w with
          tokens := w.tokens.insert g (.resolutionGuard p false .done) } g = some _ :=
        claimResolution_eq PMap.insert_self
      simp only [thenableReject, hclaim]
      exact decided_settle (hs'.claimResolution hclaim).2 _ _
    · cases h

/-- How a resolution with `value` goes on after the read of `then`. -/
def ReadAs (w : EventLoop) (p : Nat) (value : Value) : ThenRead → Prop
  | .threw reason => w.Decided p .rejected reason
  | .found _ true => ∃ g, w.tokens g = some (.resolutionGuard p false .queued)
  | .found _ false => w.Decided p .fulfilled value

/-- The end of the read of `then`. -/
theorem read_ends (hs : w.Sound) {k : Nat} {value : Value} {outcome : ThenRead}
    (ht : w.tokens k = some (.reading p value)) (h : w.perform (.readThen k outcome) = some w') :
    w'.ReadAs p value outcome := by
  simp only [perform, ht] at h
  cases h
  have hready := (hs.erase ht rfl).2
  cases outcome with
  | threw reason => exact decided_settle hready _ _
  | found method callable =>
    cases callable with
    | true => exact ⟨w.next, PMap.insert_self⟩
    | false => exact decided_settle hready _ _

/-- Later uses of a resolving pair do nothing. -/
theorem later_use {a : Act} (ht : w.tokens g = some (.resolutionGuard p true phase))
    (ha : a.uses = some g) (h : w.perform a = some w') :
    w'.promises = w.promises ∧ w'.microtasks = w.microtasks := by
  have hclaim : w.claimResolution g = none := by simp [claimResolution, ht]
  cases a with
  | thenableResolve g' value =>
    cases ha
    simp only [perform, thenableResolve, hclaim] at h
    split at h
    · cases h
      exact ⟨rfl, rfl⟩
    · cases h
  | thenableReject g' value =>
    cases ha
    simp only [perform, thenableReject, hclaim] at h
    split at h
    · cases h
      exact ⟨rfl, rfl⟩
    · cases h
  | thenableEnds g' thrown =>
    cases thrown with
    | none => cases ha
    | some reason =>
      cases ha
      simp only [perform, ht] at h
      split at h
      · rename_i heq
        cases heq
        have hnone : claimResolution { w with
            tokens := w.tokens.insert g (.resolutionGuard p true .done) } g = none := by
          simp [claimResolution]
        simp only [thenableReject, hnone, Option.some.injEq] at h
        subst h
        exact ⟨rfl, rfl⟩
      · cases h
  | readThen token outcome =>
    cases ha
    simp [perform, ht] at h
  | _ => cases ha

/-! ## Whole runs -/

/-- The state after some acts. -/
def performAll (w : EventLoop) : List Act → Option EventLoop
  | [] => some w
  | a :: rest => (w.perform a).bind (performAll · rest)

theorem sound_of_runs (h : w.Runs) : w.Sound := by
  apply Reachable.invariant _ _ h
  · rintro w rfl
    exact sound_initial
  · rintro w w' hs ⟨a, ha⟩
    exact hs.perform ha

theorem keeps_performAll (hs : w.Sound) {acts : List Act} (h : w.performAll acts = some w') :
    Keeps w w' := by
  induction acts generalizing w with
  | nil =>
    cases h
    exact .of_eq rfl
  | cons a rest ih =>
    obtain ⟨u, hu, hrest⟩ := Option.bind_eq_some_iff.1 h
    exact (keeps_perform hs hu).trans (ih (hs.perform hu) hrest)

theorem held_performAll (hs : w.Sound) {k : Nat} (hk : w.Holds k p) {acts : List Act}
    (h : w.performAll acts = some w') (hunused : ∀ a ∈ acts, a.uses ≠ some k) :
    w'.Sound ∧ w'.Holds k p := by
  induction acts generalizing w with
  | nil =>
    cases h
    exact ⟨hs, hk⟩
  | cons a rest ih =>
    obtain ⟨u, hu, hrest⟩ := Option.bind_eq_some_iff.1 h
    have hku := persists_perform hs hu k p (hunused a (by simp)) hk
    exact ih (hs.perform hu) hku hrest (fun b hb => hunused b (by simp [hb]))

/-- **Promises settle once and lose no reaction.**  From every state of every run: a
promise that is settled has the same state and value ever after; each promise has its
registrations waiting while it is pending, and one job for each of them, in their order
and with the final state and value, once it is settled; a promise that a thenable
decides stays pending and locked as long as neither the thenable's resolving pair nor
its throw is used, the first use decides, and later ones do nothing.  The same holds
of the read of `then` before it. -/
theorem promises_settle_once (h : w.Runs) :
    (∀ acts w', w.performAll acts = some w' → Keeps w w') ∧
    (∀ p inner, w.promises p = some inner →
      (inner.state = .pending → inner.reactions = inner.registered ∧ w.reactionJobs p = []) ∧
      (inner.state ≠ .pending → inner.reactions = [] ∧
        w.reactionJobs p = inner.registered.map fun r => (inner.state, inner.value, r))) ∧
    (∀ k p, w.Holds k p → ∀ acts w', w.performAll acts = some w' →
      (∀ a ∈ acts, a.uses ≠ some k) →
      w'.Holds k p ∧ ∃ inner, w'.promises p = some inner ∧ inner.state = .pending ∧
        inner.resolutionLocked = true) ∧
    (∀ g p phase w', w.tokens g = some (.resolutionGuard p false phase) →
      (∀ value, w.perform (.thenableResolve g value) = some w' → w'.ResolvedWith p value) ∧
      (∀ reason, w.perform (.thenableReject g reason) = some w' →
        w'.Decided p .rejected reason) ∧
      (∀ reason, w.perform (.thenableEnds g (some reason)) = some w' →
        w'.Decided p .rejected reason)) ∧
    (∀ k p value outcome w', w.tokens k = some (.reading p value) →
      w.perform (.readThen k outcome) = some w' → w'.ReadAs p value outcome) ∧
    (∀ g p phase a w', w.tokens g = some (.resolutionGuard p true phase) → a.uses = some g →
      w.perform a = some w' → w'.promises = w.promises ∧ w'.microtasks = w.microtasks) := by
  have hs := sound_of_runs h
  refine ⟨fun acts w' hw => keeps_performAll hs hw, fun p inner hp => ⟨fun hst => ?_, fun hst => ?_⟩,
    fun k p hk acts w' hw hunused => ?_, fun g p phase w' ht => first_use hs ht,
    fun k p value outcome w' ht hw => read_ends hs ht hw,
    fun g p phase a w' ht ha hw => later_use ht ha hw⟩
  · have hreactions := hs.reactions p inner hp
    have hjobs := hs.jobs p
    simp only [PromiseInner.waiting, hst, if_true] at hreactions
    exact ⟨hreactions, by simpa [owed, hp, PromiseInner.owes, hst] using hjobs⟩
  · have hreactions := hs.reactions p inner hp
    have hjobs := hs.jobs p
    simp only [PromiseInner.waiting, hst, if_false] at hreactions
    exact ⟨hreactions, by simpa [owed, hp, PromiseInner.owes, hst] using hjobs⟩
  · obtain ⟨hs', hheld⟩ := held_performAll hs hk hw hunused
    obtain ⟨inner, hp, hpend, hlock, -⟩ := hs'.held k p hheld
    exact ⟨hheld, inner, hp, hpend, hlock⟩

/-- A promise with one reaction, resolved with a thenable that calls both resolvers. -/
def thenableRun : List Act :=
  [.create false false, .register 0 .undefined .undefined none, .resolve 0 (.ref .object 9),
    .reject 0 .null, .readThen 2 (.found (.function 1 none) true), .dispatch,
    .thenableResolve 3 (.bool true), .thenableReject 3 .null, .thenableEnds 3 (some .null)]

theorem runs_performAll (hw : w.Runs) {a : List Act} (h : w.performAll a = some w') : w'.Runs :=
  hw.steps (steps_of_all h (fun _ => rfl) (fun _ _ _ => rfl) fun a _ _ _ h => ⟨a, h⟩)

theorem promises_settle_once_thenable : ∃ w, initial.performAll thenableRun = some w ∧
    w.Decided 0 .fulfilled (.bool true) ∧
    w.reactionJobs 0 = [(.fulfilled, .bool true, ⟨.undefined, .undefined, 1, false, none⟩)] := by
  refine ⟨_, rfl, ⟨_, rfl, rfl, rfl⟩, ?_⟩
  have hr : Runs _ := runs_performAll (.start rfl) (rfl : initial.performAll thenableRun = some _)
  exact (((promises_settle_once hr).2.1 0 _ rfl).2 (by decide)).2

end NapiVm.Promises.EventLoop
