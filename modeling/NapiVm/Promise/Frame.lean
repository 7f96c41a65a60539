import NapiVm.Promise.Settlement

/-!
# What the parts of an act keep

An act is made of a few parts; a relation that each of them keeps is kept by the act.

* `EventLoop.Frame` — the parts.
* `EventLoop.Frame.perform` — the acts.
-/

namespace NapiVm.Promises

/-- The token an act uses up. -/
def Act.uses : Act → Option Nat
  | .readThen token _ => some token
  | .thenableResolve g _ => some g
  | .thenableReject g _ => some g
  | .thenableEnds g (some _) => some g
  | _ => none

/-- The promise an act resolves or rejects from outside. -/
def Act.target : Act → Option Nat
  | .resolve p _ => some p
  | .reject p _ => some p
  | _ => none

namespace EventLoop

/-- A relation that the parts of an act keep, which uses a token and decides some promises; where
it is `checked`, the parts of sound states. -/
structure Frame (checked : Prop) (used : Option Nat) (decides : Nat → Prop)
    (R : EventLoop → EventLoop → Prop) : Prop where
  refl : ∀ w, R w w
  trans : ∀ {u v w}, R u v → R v w → R u w
  settle : ∀ {w p} state value, decides p → R w (w.settle p state value)
  lock : ∀ {w w' p}, decides p → w.lock p = some w' → R w w'
  /-- Tokens that are not used go on deciding what they did. -/
  retoken : ∀ {w tokens} next, (checked → ∀ k t, used ≠ some k → w.tokens k = some t →
    ∃ t', tokens k = some t' ∧ t'.holds = t.holds) → R w { w with tokens, next }
  queue : ∀ {w} p value method g, R w (w.pushMicrotask (.resolveThenable p value method g))
  create : ∀ {w i}, (checked → w.Sound) → i.registered = [] →
    R w { w with promises := w.promises.insert w.next i, next := w.next + 1 }
  register : ∀ {w} p onFulfilled onRejected capability, (checked → w.Sound) →
    R w (w.register p onFulfilled onRejected capability)
  adopt : ∀ {w} p {target inner}, w.promises target = some inner → inner.internal = true →
    R w (w.adopt p target inner)

namespace Frame

variable {checked : Prop} {used : Option Nat} {decides : Nat → Prop}
  {R : EventLoop → EventLoop → Prop} (F : Frame checked used decides R) {w w' : EventLoop} {p g : Nat}

include F

section

variable (hs : checked → w.Sound)

include hs

/-- A new token takes no other one's place. -/
theorem grant (t : Token) : R w (w.grant t) := by
  refine F.retoken _ fun hc k u _ hk => ⟨u, (PMap.insert_of_ne ?_).trans hk, rfl⟩
  rintro rfl
  rw [(hs hc).freshToken _ (Nat.le_refl _)] at hk
  cases hk

theorem resolvePromiseInner (hp : decides p) (value : Value) :
    R w (w.resolvePromiseInner p value) := by
  unfold EventLoop.resolvePromiseInner
  split
  · have hbump : R w { w with next := w.next + 1 } := F.retoken _ fun _ k t _ hk => ⟨t, hk, rfl⟩
    exact F.trans hbump (F.settle _ _ hp)
  · split
    · exact F.grant hs _
    · exact F.settle _ _ hp

theorem resolvePromise (hp : decides p) (value : Value) : R w (w.resolvePromise p value) := by
  unfold EventLoop.resolvePromise
  split
  next hlock =>
    exact F.trans (F.lock hp hlock)
      (F.resolvePromiseInner (fun hc => ((hs hc).lock hlock).1) hp value)
  next => exact F.refl w

omit hs in
theorem rejectPromise (hp : decides p) (reason : Value) : R w (w.rejectPromise p reason) := by
  unfold EventLoop.rejectPromise
  split
  next hlock => exact F.trans (F.lock hp hlock) (F.settle _ _ hp)
  next => exact F.refl w

theorem finishRead (hp : decides p) (value : Value) (outcome : ThenRead) :
    R w (w.finishRead p value outcome) := by
  cases outcome with
  | threw reason => exact F.settle _ _ hp
  | found method callable =>
    simp only [EventLoop.finishRead]
    split
    · exact F.trans (F.grant hs _) (F.queue _ _ _ _)
    · exact F.settle _ _ hp

end

/-- The phase of the job of a guard. -/
theorem rephase {t s : Token} (ht : w.tokens g = some t) (hsame : s.holds = t.holds) :
    R w { w with tokens := w.tokens.insert g s } := by
  refine F.retoken _ fun _ k u _ hk => ?_
  by_cases hkg : k = g
  · subst hkg
    rw [ht] at hk
    cases hk
    exact ⟨s, PMap.insert_self, hsame⟩
  · exact ⟨u, (PMap.insert_of_ne hkg).trans hk, rfl⟩

theorem dispatchJob (job : Job) (hp : ∀ source state value r, job = .reaction source state value r →
    r.adopted = true → decides r.derived) : R w (w.dispatchJob job) := by
  cases job with
  | reaction source state value r =>
    simp only [EventLoop.dispatchJob]
    split
    next ha => exact F.settle _ _ (hp _ _ _ _ rfl ha)
    next => exact F.refl w
  | resolveThenable target thenable method g =>
    simp only [EventLoop.dispatchJob]
    split
    next resolved ht => exact F.rephase ht (by cases resolved <;> rfl)
    next => exact F.refl w
  | _ => exact F.refl w

variable (hg : used = some g) (hheld : ∀ p, w.Holds g p → decides p)

include hg hheld

/-- The promise of a guard that is claimed. -/
theorem claimResolution (h : w.claimResolution g = some (p, w')) : R w w' ∧ decides p := by
  unfold EventLoop.claimResolution at h
  split at h
  next ht =>
    cases h
    refine ⟨F.retoken _ fun _ k t hk hkt => ⟨t, ?_, rfl⟩, hheld _ ⟨_, ht, rfl⟩⟩
    exact (PMap.insert_of_ne fun heq => hk (by rw [hg, heq])).trans hkt
  next => cases h

theorem thenableReject (reason : Value) : R w (w.thenableReject g reason) := by
  unfold EventLoop.thenableReject
  split
  next hclaim =>
    obtain ⟨hclaimed, hp⟩ := F.claimResolution hg hheld hclaim
    exact F.trans hclaimed (F.settle _ _ hp)
  next => exact F.refl w

theorem thenableResolve (hs : checked → w.Sound) (value : Value) : R w (w.thenableResolve g value) := by
  unfold EventLoop.thenableResolve
  split
  next hclaim =>
    obtain ⟨hclaimed, hp⟩ := F.claimResolution hg hheld hclaim
    exact F.trans hclaimed
      (F.resolvePromiseInner (fun hc => ((hs hc).claimResolution hclaim).1) hp value)
  next => exact F.refl w

end Frame

section

variable {checked : Prop} {a : Act} {R : EventLoop → EventLoop → Prop} {w w' : EventLoop}
  (hs : checked → w.Sound) (h : w.perform a = some w')
  (hqueue : ∀ job, a = .enqueue job → R w (w.pushMicrotask job))
  (htake : ∀ job rest, a = .dispatch → w.microtasks = job :: rest →
    R w { w with microtasks := rest, dispatched := w.dispatched ++ [job] })

include hs h hqueue htake

/-- **Acts keep what their parts keep**: they decide their target, promises of tokens and internal
promises. -/
theorem Frame.perform {decides : Nat → Prop} (F : Frame checked a.uses decides R)
    (htarget : ∀ p, a.target = some p → decides p) (hheld : ∀ k p, w.Holds k p → decides p)
    (hinternal : ∀ p i, w.promises p = some i → i.internal = true → decides p)
    (hderived : ∀ source state value r, .reaction source state value r ∈ w.microtasks →
      r.adopted = true → decides r.derived) : R w w' := by
  cases a with
  | create internal external | createSettled fulfilled value =>
    cases h
    exact F.create hs rfl
  | resolve p value =>
    simp only [EventLoop.perform] at h
    split at h
    · split at h
      · cases h
      · cases h
        exact F.resolvePromise hs (htarget p rfl) value
    · cases h
  | reject p reason =>
    cases h
    exact F.rejectPromise (htarget p rfl) reason
  | notify p value =>
    simp only [EventLoop.perform] at h
    split at h
    next hp =>
      split at h
      next hi =>
        cases h
        exact F.settle _ _ (hinternal _ _ hp hi)
      next => cases h
    next => cases h
  | readThen token outcome =>
    simp only [EventLoop.perform] at h
    split at h
    next p value ht =>
      cases h
      have herase : R w { w with tokens := w.tokens.erase token } := by
        refine F.retoken _ fun _ k t hk hkt => ⟨t, (PMap.erase_of_ne ?_).trans hkt, rfl⟩
        rintro rfl
        exact hk rfl
      exact F.trans herase (F.finishRead (fun hc => ((hs hc).erase ht rfl).1)
        (hheld _ _ ⟨_, ht, rfl⟩) value outcome)
    next => cases h
  | thenableResolve g value =>
    simp only [EventLoop.perform] at h
    split at h
    · cases h
      exact F.thenableResolve rfl (hheld g) hs value
    · cases h
  | thenableReject g reason =>
    simp only [EventLoop.perform] at h
    split at h
    · cases h
      exact F.thenableReject rfl (hheld g) reason
    · cases h
  | thenableEnds g thrown =>
    simp only [EventLoop.perform] at h
    split at h
    next target resolved ht =>
      have hdone : R w
          { w with tokens := w.tokens.insert g (.resolutionGuard target resolved .done) } :=
        F.rephase ht (by cases resolved <;> rfl)
      cases thrown with
      | none =>
        cases h
        exact hdone
      | some reason =>
        cases h
        refine F.trans hdone (F.thenableReject rfl (fun p hp => hheld g p ?_) reason)
        obtain ⟨t, hself, hp⟩ := hp
        cases PMap.insert_self.symm.trans hself
        exact ⟨_, ht, by cases resolved <;> exact hp⟩
    next => cases h
  | register p onFulfilled onRejected capability =>
    simp only [EventLoop.perform] at h
    split at h
    · cases h
      exact F.register _ _ _ _ hs
    · cases h
  | adopt p target =>
    simp only [EventLoop.perform] at h
    split at h
    next hp ht =>
      split at h
      next hi =>
        cases h
        exact F.adopt p ht hi
      next => cases h
    next => cases h
  | enqueue job =>
    simp only [EventLoop.perform] at h
    split at h
    · cases h
      exact hqueue job rfl
    · cases h
  | dispatch =>
    simp only [EventLoop.perform] at h
    split at h
    next job rest hq =>
      cases h
      refine F.trans (htake job rest rfl hq) (F.dispatchJob job ?_)
      rintro source state value r rfl ha
      exact hderived _ _ _ r (hq ▸ List.mem_cons_self) ha
    next => cases h

theorem Frame.perform_any (F : Frame checked a.uses (fun _ => True) R) : R w w' :=
  F.perform hs h hqueue htake (fun _ _ => trivial) (fun _ _ _ => trivial) (fun _ _ _ _ => trivial)
    fun _ _ _ _ _ _ => trivial

end

end EventLoop

end NapiVm.Promises
