import NapiVm.Plugin.Shutdown

/-!
# A session that has failed

The supervisor of a session marks the instance as failed when the process is gone.  A reload
reads the status before it prepares the plugin, and marks the instance as draining afterwards,
whatever has become of it.

* `Effect` — what a section of an operation does to the record of the instance.
* `Orderly` — what holds as long as no reload is late.
* `failed_stays` — when a session that has failed stays so.
-/

namespace NapiVm.Plugin

namespace Sessions

/-- The sessions are the same, but that of the instance may have been closed or told to stop. -/
def Later (own : Option Nat) (sessions sessions' : PMap Nat Session) : Prop :=
  ∀ s, (sessions s = none → sessions' s = none) ∧
    (∀ y, sessions s = some y → ∃ y', sessions' s = some y' ∧ y'.owner = y.owner ∧
      y'.supervisor = y.supervisor ∧ (y.closed = true → y'.closed = true) ∧
      (y.stopping = true → y'.stopping = true)) ∧
    (own ≠ some s → sessions' s = sessions s)

variable {own : Option Nat} {sessions sessions' sessions'' : PMap Nat Session}

theorem Later.refl : Later own sessions sessions :=
  fun _ => ⟨id, fun y hy => ⟨y, hy, rfl, rfl, id, id⟩, fun _ => rfl⟩

theorem Later.trans (h : Later own sessions sessions') (h' : Later own sessions' sessions'') :
    Later own sessions sessions'' := by
  intro s
  refine ⟨fun hnone => (h' s).1 ((h s).1 hnone), fun y hy => ?_,
    fun hne => ((h' s).2.2 hne).trans ((h s).2.2 hne)⟩
  obtain ⟨y', hy', howner, hsup, hclosed, hstopping⟩ := (h s).2.1 y hy
  obtain ⟨y'', hy'', howner', hsup', hclosed', hstopping'⟩ := (h' s).2.1 y' hy'
  exact ⟨y'', hy'', howner'.trans howner, hsup'.trans hsup, hclosed' ∘ hclosed,
    hstopping' ∘ hstopping⟩

/-- What a session was before. -/
theorem Later.before (h : Later own sessions sessions') {s : Nat} {y' : Session}
    (hy' : sessions' s = some y') :
    ∃ y, sessions s = some y ∧ y'.owner = y.owner ∧ y'.supervisor = y.supervisor ∧
      (y.closed = true → y'.closed = true) ∧ (y.stopping = true → y'.stopping = true) := by
  cases hs : sessions s with
  | none => cases hy'.symm.trans ((h s).1 hs)
  | some y =>
    obtain ⟨y'', hy'', hrest⟩ := (h s).2.1 y hs
    cases hy'.symm.trans hy''
    exact ⟨y, rfl, hrest⟩

theorem later_modify {s : Nat} {f : Session → Session} (hs : own = some s)
    (hf : ∀ y, (f y).owner = y.owner ∧ (f y).supervisor = y.supervisor ∧
      (y.closed = true → (f y).closed = true) ∧ (y.stopping = true → (f y).stopping = true)) :
    Later own sessions (modify sessions s f) := by
  intro t
  unfold modify
  split
  next ht =>
    refine ⟨fun hnone => by rw [hnone]; rfl, fun y hy => ⟨f y, by rw [hy]; rfl, hf y⟩, ?_⟩
    rw [hs, ht]
    exact fun h => absurd rfl h
  next => exact ⟨id, fun y hy => ⟨y, hy, rfl, rfl, id, id⟩, fun _ => rfl⟩

theorem later_close {s : Nat} (hs : own = some s) : Later own sessions (close sessions s) :=
  later_modify hs fun _ => ⟨rfl, rfl, fun _ => rfl, id⟩

theorem later_ask {s : Nat} (hs : own = some s) : Later own sessions (ask sessions s) :=
  later_modify hs fun _ => ⟨rfl, rfl, id, fun _ => rfl⟩

end Sessions

namespace Work

/-- The number of the session that is about to begin. -/
def pending : Work → Option Nat
  | .start _ s .bind => some s
  | .start _ s .connect => some s
  | _ => none

/-- The instance may be marked as draining. -/
def drains : Work → Bool
  | .prepare _ _ _ => true
  | .quiesce _ => true
  | .snapshot _ => true
  | .unload _ _ => true
  | _ => false

/-- What a section of an operation does to the record of the instance. -/
inductive Effect (i fresh : Nat) (x : Instance) (sessions : PMap Nat Session) (work : Work)
    (answer : Answer) (r : Section) : Prop where
  /-- The instance is marked as draining. -/
  | drain (s : Nat) (status : Status) (hwork : work = .prepare (some s) status false)
      (hstatus : status = .ready ∨ status = .draining) (hanswer : answer = .ok)
      (hr : r = ⟨x.transition .draining, sessions, .inl (.quiesce s), false⟩)
  /-- A new session begins. -/
  | begin (reload : Bool) (hsessions : Sessions.Later x.session sessions r.sessions)
      (hsession : r.state.session = none) (hid : r.state.sessionId = some fresh)
      (hstatus : r.state.status = .starting) (hnext : r.next = .inl (.start reload fresh .bind))
  /-- The new session is put in place. -/
  | connect (s : Nat) (y : Session) (work' : Work) (hwork : work.pending = some s)
      (hdrains : work.drains = false) (hy : y.supervisor = .running) (howner : y.owner = i)
      (hr : r = ⟨{ x with session := some s, sessionId := some s }, sessions.insert s y,
        .inl work', false⟩)
      (hnext : work'.pending = none)
  /-- The session is left as it was, or there is none any more. -/
  | keep (hsessions : Sessions.Later x.session sessions r.sessions)
      (hid : r.state.sessionId = x.sessionId)
      (hsession : r.state.session = x.session ∨ r.state.session = none)
      (hstatus : r.state.status = x.status ∨ r.state.status = .failed ∨
        r.state.status = .stopping ∨ r.state.status = .stopped)
      (hdrains : work.drains = true → work.isUnload = false → r.state.status = .draining →
        r.state.session = x.session ∧ r.sessions = sessions)
      (hpending : ∀ work', r.next = .inl work' →
        work'.pending = none ∨ work'.pending = work.pending)
      (hnext : ∀ work', r.next = .inl work' → work'.drains = false →
        work.drains = false ∨ r.state.status ≠ .draining)
      (hunload : work.isUnload = true → ∀ work', r.next = .inl work' → work'.isUnload = true)
      (hend : work.isUnload = true → (∃ ok, r.next = .inr ok) → r.state.status ≠ .draining)

variable {i fresh : Nat} {x : Instance} {sessions : PMap Nat Session} {answer : Answer}

variable {work : Work} {r : Section}

/-- A section of an operation that does not find the instance draining. -/
theorem effect_early (hwork : work.drains = false)
    (hunload : work.isUnload = false) (hsessions : Sessions.Later x.session sessions r.sessions)
    (hid : r.state.sessionId = x.sessionId) (hsession : r.state.session = x.session)
    (hstatus : r.state.status = x.status ∨ r.state.status = .failed)
    (hpending : ∀ work', r.next = .inl work' →
      work'.pending = none ∨ work'.pending = work.pending) :
    Effect i fresh x sessions work answer r :=
  .keep hsessions hid (.inl hsession) (hstatus.imp_right .inl)
    (fun h => by cases hwork.symm.trans h) hpending (fun _ _ _ => .inl hwork)
    (fun h => by cases hunload.symm.trans h) (fun h => by cases hunload.symm.trans h)

variable {reload error : Bool} {next : Work ⊕ Bool} {unloading : Unloading}

theorem effect_fail (hwork : work.drains = false) (hunload : work.isUnload = false) :
    Effect i fresh x sessions work answer (fail x sessions reload) := by
  refine effect_early hwork hunload .refl rfl rfl (.inr rfl) fun work' h => ?_
  cases reload with
  | true => cases h
  | false =>
    cases h
    exact .inl rfl

/-- An operation ends, or goes on to `next`, without a change. -/
theorem effect_same (hunload : work.isUnload = false)
    (hnext : ∀ work', next = .inl work' → work'.pending = none ∧
      (work'.drains = false → work.drains = false)) :
    Effect i fresh x sessions work answer ⟨x, sessions, next, false⟩ :=
  .keep .refl rfl (.inl rfl) (.inl rfl) (fun _ _ _ => ⟨rfl, rfl⟩)
    (fun work' h => .inl (hnext work' h).1) (fun work' h hd => .inl ((hnext work' h).2 hd))
    (fun h => by cases hunload.symm.trans h) (fun h => by cases hunload.symm.trans h)

theorem effect_replace {old : Option Nat} (hunload : work.isUnload = false) (hx : x.session = old) :
    Effect i fresh x sessions work answer (replace fresh x sessions old) := by
  cases old with
  | none => exact .begin true .refl hx rfl rfl rfl
  | some s =>
    refine .keep .refl rfl (.inl rfl) (.inr (.inr (.inl rfl))) nofun
      (fun work' h => ?_) (fun _ _ _ => .inr nofun)
      (fun h => by cases hunload.symm.trans h) (fun h => by cases hunload.symm.trans h)
    cases h
    exact .inl rfl

theorem effect_stepStart {s : Nat} {starting : Starting}
    (hx : (Work.start reload s starting).Knows x)
    (hr : stepStart i x sessions reload s starting answer = some r) :
    Effect i fresh x sessions (.start reload s starting) answer r := by
  cases starting with
  | bind =>
    cases answer with
    | ok =>
      cases hr
      refine effect_early rfl rfl .refl rfl rfl (.inl rfl) fun work' h => ?_
      cases h
      exact .inr rfl
    | error =>
      cases hr
      exact effect_fail rfl rfl
    | unfit =>
      cases hr
      exact effect_fail rfl rfl
  | connect =>
    cases answer with
    | ok =>
      cases hr
      exact .connect s _ _ rfl rfl rfl rfl rfl rfl
    | error =>
      cases hr
      exact effect_fail rfl rfl
    | unfit =>
      cases hr
      exact .connect s _ _ rfl rfl rfl rfl rfl rfl
  | initializing =>
    have hsome : x.session = some s := hx (some s) rfl
    have hstop : Effect i fresh x sessions (.start reload s .initializing) answer
        ⟨x, Sessions.ask (Sessions.close sessions s) s, .inl (.start reload s .stop), false⟩ := by
      refine effect_early rfl rfl ((Sessions.later_close hsome).trans (Sessions.later_ask hsome))
        rfl rfl (.inl rfl) fun work' h => ?_
      cases h
      exact .inl rfl
    cases answer with
    | ok =>
      obtain rfl := Option.some.inj hr
      split
      · exact effect_same rfl nofun
      · refine effect_early rfl rfl (Sessions.later_ask hsome) rfl rfl (.inl rfl) fun work' h => ?_
        cases h
        exact .inl rfl
    | error =>
      cases hr
      exact hstop
    | unfit =>
      cases hr
      exact hstop
  | stop =>
    simp only [stepStart] at hr
    split at hr
    · cases hr
      exact effect_fail rfl rfl
    · cases hr

/-- A section of `unload`. -/
theorem effect_unload {x' : Instance} {sessions' : PMap Nat Session}
    (hsessions : Sessions.Later x.session sessions sessions') (hid : x'.sessionId = x.sessionId)
    (hsession : x'.session = x.session ∨ x'.session = none)
    (hstatus : x'.status = x.status ∨ x'.status = .stopping ∨ x'.status = .stopped)
    (hnext : ∀ work', next = .inl work' → ∃ unloading' error', work' = .unload unloading' error')
    (hend : (∃ ok, next = .inr ok) → x'.status = .stopped) :
    Effect i fresh x sessions (.unload unloading error) answer ⟨x', sessions', next, false⟩ := by
  refine .keep hsessions hid hsession (hstatus.imp_right .inr) nofun
    (fun work' h => ?_) (fun work' h hd => ?_) (fun _ work' h => ?_) (fun _ h hd => ?_)
  · obtain ⟨unloading', error', rfl⟩ := hnext work' h
    exact .inl rfl
  · obtain ⟨unloading', error', rfl⟩ := hnext work' h
    cases hd
  · obtain ⟨unloading', error', rfl⟩ := hnext work' h
    rfl
  · cases (hend h).symm.trans hd

theorem effect_stepUnload (hx : (Work.unload unloading error).Knows x)
    (hr : stepUnload x sessions error unloading answer = some r) :
    Effect i fresh x sessions (.unload unloading error) answer r := by
  have hgo : ∀ {unloading' error'} (work' : Work),
      (.inl (.unload unloading' error') : Work ⊕ Bool) = .inl work' →
      ∃ unloading' error', work' = .unload unloading' error' := by
    intro unloading' error' work' h
    cases h
    exact ⟨_, _, rfl⟩
  have hstay : ∀ {work' : Work} {p : Prop}, (∃ ok, (.inl work' : Work ⊕ Bool) = .inr ok) → p := by
    rintro work' p ⟨ok, h⟩
    cases h
  cases unloading with
  | quiesce s =>
    cases hr
    exact effect_unload .refl rfl (.inl rfl) (.inr (.inl rfl)) hgo hstay
  | shutdown s =>
    cases hr
    exact effect_unload (Sessions.later_ask (hx (some s) rfl)) rfl (.inl rfl) (.inl rfl) hgo hstay
  | stop s =>
    simp only [stepUnload] at hr
    split at hr
    · cases hr
      exact effect_unload (Sessions.later_close (hx (some s) rfl)) rfl (.inr rfl) (.inl rfl) hgo
        hstay
    · cases hr
  | services =>
    cases hr
    exact effect_unload .refl rfl (.inl rfl) (.inr (.inr rfl)) (by simp) fun _ => rfl

theorem effect_step (hx : work.Knows x) (hr : work.step i fresh x sessions answer = some r) :
    Effect i fresh x sessions work answer r := by
  have hend : ∀ {work : Work} {ok : Bool}, work.isUnload = false →
      Effect i fresh x sessions work answer ⟨x, sessions, .inr ok, false⟩ :=
    fun hunload => effect_same hunload nofun
  cases work with
  | services =>
    cases answer with
    | ok =>
      cases hr
      exact .begin false .refl (hx none rfl) rfl rfl rfl
    | error =>
      cases hr
      exact effect_fail rfl rfl
    | unfit =>
      cases hr
      exact effect_fail rfl rfl
  | start reload s starting => exact effect_stepStart hx hr
  | cleanup =>
    cases hr
    exact hend rfl
  | prepare old status force =>
    cases answer with
    | ok =>
      cases old with
      | none =>
        cases hr
        exact effect_replace rfl (hx none rfl)
      | some s =>
        obtain rfl := Option.some.inj hr
        split
        next hstatus =>
          obtain ⟨rfl, hstatus⟩ := hstatus
          exact .drain s status rfl hstatus rfl rfl
        next => exact effect_replace rfl (hx (some s) rfl)
    | error =>
      cases hr
      exact hend rfl
    | unfit =>
      cases hr
      exact hend rfl
  | quiesce s =>
    cases answer with
    | ok =>
      cases hr
      refine effect_same rfl fun work' h => ?_
      cases h
      exact ⟨rfl, nofun⟩
    | error =>
      cases hr
      exact hend rfl
    | unfit =>
      cases hr
      exact hend rfl
  | snapshot s =>
    cases answer with
    | ok =>
      cases hr
      exact effect_replace rfl (hx (some s) rfl)
    | error =>
      cases hr
      exact hend rfl
    | unfit =>
      cases hr
      exact hend rfl
  | oldShutdown s =>
    cases hr
    refine effect_early rfl rfl (Sessions.later_ask (hx (some s) rfl)) rfl rfl (.inl rfl)
      fun work' h => ?_
    cases h
    exact .inl rfl
  | oldStop s =>
    simp only [step] at hr
    split at hr
    · split at hr
      · cases hr
        exact .begin true (Sessions.later_close (hx (some s) rfl)) rfl rfl rfl rfl
      · cases hr
        exact hend rfl
    · cases hr
  | unload unloading error => exact effect_stepUnload hx hr

end Work

namespace Stage

/-- The number of the session that is about to begin. -/
def begins : Stage → Option Nat
  | .working _ work _ => work.pending
  | _ => none

theorem begins_of_lease {stage : Stage} (h : stage.lease = none) : stage.begins = none := by
  cases stage with
  | working i work mode => cases h
  | _ => rfl

end Stage

namespace PluginHost

/-- The last section of a supervisor. -/
structure Finishes (w w' : PluginHost) (s : Nat) (y : Session) (x x' : Instance) (stopped : Bool) :
    Prop where
  session : w.sessions s = some y
  draining : y.supervisor = .draining stopped
  owner : w.instances y.owner = some x
  calls : w'.calls = w.calls
  instances : w'.instances = w.instances.insert y.owner x'
  sessions : w'.sessions = w.sessions.insert s { y with supervisor := .ended }
  fresh : w'.fresh = w.fresh
  record : if (x.sessionId = some s ∧ x.status ≠ .stopping ∧ x.status ≠ .stopped) ∧
    stopped = false then x' = x.transition .failed else x' = x

/-- What a section does: to a call, to the instance that a call works on, or to a session. -/
inductive Does (w w' : PluginHost) : Move → Prop where
  | call (m : Move) (k : Nat) (stage : Stage) (hcalls : w'.calls = w.calls.insert k stage)
      (hinstances : w'.instances = w.instances) (hsessions : w'.sessions = w.sessions)
      (hfresh : w'.fresh = w.fresh) (hlease : stage.lease = none)
      (hfree : ∀ stage', w.calls k = some stage' → stage'.lease = none) : Does w w' m
  /-- An instance is put in the registry, or a lease is taken. -/
  | take (m : Move) (k i : Nat) (work : Work) (mode : Mode) (x' : Instance) (own : Option Nat)
      (hown : own = none ∨ ∃ x, w.instances i = some x ∧ x.session = own)
      (hcalls : w'.calls = w.calls.insert k (.working i work mode))
      (hinstances : w'.instances = w.instances.insert i x')
      (hsessions : Sessions.Later own w.sessions w'.sessions) (hfresh : w'.fresh = w.fresh)
      (hfree : ∀ stage', w.calls k = some stage' → stage'.lease = none)
      (hpending : work.pending = none)
      (hnew : w.instances i = none → x'.status = .discovered ∧ x'.session = none ∧
        x'.sessionId = none)
      (hold : ∀ x, w.instances i = some x →
        x'.session = x.session ∧ x'.sessionId = x.sessionId ∧ work.drains = true ∧
        (work.isUnload = false → w'.sessions = w.sessions ∧ x'.status = x.status) ∧
        (x'.status = x.status ∨ ∃ s, x.session = some s ∧ Sessions.closed w.sessions s = false)) :
      Does w w' m
  | work (k j i : Nat) (answer : Answer) (work : Work) (mode : Mode) (x : Instance) (r : Section)
      (busy : Bool) (stage : Stage) (hk : w.calls k = some (.working i work mode))
      (hx : w.instances i = some x)
      (hr : work.step i w.fresh x w.sessions answer = some r)
      (hcalls : w'.calls = w.calls.insert k stage)
      (hinstances : w'.instances = w.instances.insert i { r.state with busy })
      (hsessions : w'.sessions = r.sessions) (hfresh : w'.fresh = w.fresh + 1)
      (hnext : (∃ work', r.next = .inl work' ∧ stage = .working i work' mode) ∨
        ((∃ ok, r.next = .inr ok) ∧ stage.lease = none)) : Does w w' (.run k j answer)
  | drop (k i : Nat) (work : Work) (mode : Mode) (x : Instance)
      (hk : w.calls k = some (.working i work mode)) (hx : w.instances i = some x)
      (hcalls : w'.calls = w.calls.insert k .dropped)
      (hinstances : w'.instances = w.instances.insert i { x with busy := false })
      (hsessions : w'.sessions = w.sessions) (hfresh : w'.fresh = w.fresh) : Does w w' (.drop k)
  | respond (s : Nat) (y : Session) (x x' : Instance) (hy : w.sessions s = some y)
      (hclosed : y.closed = false) (hx : w.instances y.owner = some x)
      (hid : x'.sessionId = x.sessionId) (hsession : x'.session = x.session)
      (hstarting : x.status = .starting) (hx' : x'.status = .ready) (hs : x.sessionId = some s)
      (hcalls : w'.calls = w.calls) (hinstances : w'.instances = w.instances.insert y.owner x')
      (hsessions : w'.sessions = w.sessions) (hfresh : w'.fresh = w.fresh) :
      Does w w' (.respond s)
  | watch (m : Move) (s : Nat) (y y' : Session) (hy : w.sessions s = some y)
      (howner : y'.owner = y.owner) (hstopping : y'.stopping = y.stopping)
      (hclosed : y.closed = true → y'.closed = true)
      (hended : y.supervisor = .ended → y'.supervisor = .ended)
      (halive : y'.supervisor = .ended → y.supervisor = .ended)
      (htold : y'.supervisor = .reaping true ∨ y'.supervisor = .draining true →
        y.stopping = true ∨ y.supervisor = .reaping true ∨ y.supervisor = .draining true)
      (hdraining : ∀ stopped, y'.supervisor = .draining stopped →
        y'.closed = true)
      (hcalls : w'.calls = w.calls) (hinstances : w'.instances = w.instances)
      (hsessions : w'.sessions = w.sessions.insert s y') (hfresh : w'.fresh = w.fresh) :
      Does w w' m
  | finish (s : Nat) (y : Session) (x x' : Instance) (stopped : Bool)
      (h : Finishes w w' s y x x' stopped) : Does w w' (.finish s)

variable {w w' : PluginHost}

variable {m : Move} {k i j s : Nat} {stage : Stage} {mode : Mode} {work : Work} {answer : Answer}
  {y : Session} {x x' : Instance} {own : Option Nat}

/-- A call of which nothing but its stage, its guard and the flag changes. -/
theorem does_stage {stage' : Stage} {readers : List Nat} {writer : Option Nat}
    {shuttingDown : Bool} (hk : w.calls k = some stage) (hfree : stage.lease = none)
    (hlease : stage'.lease = none) :
    Does w ({ w with shuttingDown, readers, writer }.setStage k stage') m :=
  .call m k stage' rfl rfl rfl rfl hlease fun stage'' h => by
    cases hk.symm.trans h
    exact hfree

theorem does_conclude {ok : Bool} (hk : w.calls k = some stage) (hfree : stage.lease = none) :
    Does w (w.conclude k ok mode) m := by
  cases mode with
  | admitted | alone | shutdown rest first => exact does_stage hk hfree rfl

theorem does_enterReload {force : Bool} (hk : w.calls k = some (.reloadGate i force)) :
    Does w (w.enterReload k i force) m := by
  unfold enterReload
  split
  · exact does_stage hk rfl rfl
  · split
    · exact does_stage hk rfl rfl
    next x hx =>
      split
      · exact does_stage hk rfl rfl
      · refine .take m k i (.prepare x.session x.status force) .admitted { x with busy := true }
          none (.inl rfl) rfl rfl .refl rfl (fun stage h => ?_) rfl
          (fun hnone => ?_) fun x' hx' => ?_
        · cases hk.symm.trans h
          rfl
        · cases hx.symm.trans hnone
        · cases hx.symm.trans hx'
          exact ⟨rfl, rfl, rfl, fun _ => ⟨rfl, rfl⟩, .inl rfl⟩

theorem does_beginUnload (hk : w.calls k = some stage) (hfree : stage.lease = none) :
    Does w (w.beginUnload k i mode) m := by
  have htake : ∀ {x x' : Instance} {sessions : PMap Nat Session} {unloading : Unloading},
      w.instances i = some x → Sessions.Later x.session w.sessions sessions →
      x'.session = x.session →
      x'.sessionId = x.sessionId →
      (x'.status = x.status ∨ ∃ s, x.session = some s ∧ Sessions.closed w.sessions s = false) →
      Does w (({ w with sessions }.setInstance i x').setStage k
        (.working i (.unload unloading false) mode)) m := by
    intro x x' sessions unloading hx hsessions hsession hid hstatus
    refine .take m k i (.unload unloading false) mode x' x.session (.inr ⟨x, hx, rfl⟩) rfl rfl
      hsessions rfl (fun stage' h => ?_) rfl (fun hnone => ?_) fun x'' hx'' => ?_
    · cases hk.symm.trans h
      exact hfree
    · cases hx.symm.trans hnone
    · cases hx.symm.trans hx''
      exact ⟨hsession, hid, rfl, nofun, hstatus⟩
  unfold beginUnload
  split
  · exact does_conclude hk hfree
  next x hx =>
    split
    · exact does_conclude hk hfree
    · split
      · exact htake hx .refl rfl rfl (.inl rfl)
      next s hsession =>
        split
        · exact htake hx (Sessions.later_ask hsession) rfl rfl (.inl rfl)
        next hclosed =>
          exact htake hx .refl rfl rfl (.inr ⟨s, hsession, Bool.eq_false_iff.2 hclosed⟩)

theorem does_work (hk : w.calls k = some (.working i work mode))
    (hw : w.work k i work mode answer = some w') : Does w w' (.run k j answer) := by
  unfold PluginHost.work at hw
  split at hw
  · cases hw
  next x hx =>
    split at hw
    · cases hw
    next r hr =>
      simp only at hw
      split at hw
      next work' hnext =>
        cases hw
        exact .work k j i answer work mode x r r.state.busy (.working i work' mode) hk hx hr rfl
          rfl rfl rfl (.inl ⟨work', hnext, rfl⟩)
      next ok hnext =>
        cases hw
        obtain ⟨writer, hc⟩ := conclude_eq (w := { w with
          sessions := r.sessions
          fresh := w.fresh + 1
          started := if r.spawns then k :: w.started else w.started }.setInstance i
            { r.state with busy := false }) k ok mode
        rw [hc]
        refine .work k j i answer work mode x r false (mode.after ok) hk hx hr rfl rfl rfl rfl
          (.inr ⟨⟨ok, hnext⟩, ?_⟩)
        cases mode <;> rfl

theorem does_run (hr : w.run k j answer = some w') : Does w w' (.run k j answer) := by
  unfold run at hr
  split at hr
  next hk =>
    split at hr
    · cases hr
      unfold enterLoad
      split
      · exact does_stage hk rfl rfl
      · exact does_stage hk rfl rfl
    · cases hr
  next hk =>
    split at hr
    · split at hr
      next hi =>
        cases hr
        refine .take _ k j .services .admitted _ none (.inl rfl) rfl rfl .refl rfl
          (fun stage h => ?_) rfl
          (fun _ => ⟨rfl, rfl, rfl⟩) fun x hx => ?_
        · cases hk.symm.trans h
          rfl
        · cases hi.symm.trans hx
      next => cases hr
    · cases hr
      exact does_stage hk rfl rfl
  next hk =>
    split at hr
    · cases hr
      exact does_enterReload hk
    · cases hr
  next hk =>
    cases hr
    exact does_beginUnload hk rfl
  next hk =>
    split at hr
    · cases hr
      exact does_stage hk rfl rfl
    · cases hr
  next hk => exact does_work hk hr
  next hk =>
    cases hr
    exact does_beginUnload hk rfl
  next hk =>
    cases hr
    exact does_stage hk rfl rfl
  next hk =>
    cases hr
    exact does_stage hk rfl rfl
  next => cases hr

theorem does_drop (hd : w.drop k = some w') : Does w w' (.drop k) := by
  unfold drop at hd
  split at hd
  next => cases hd
  next => cases hd
  next => cases hd
  next => cases hd
  next i work mode hk =>
    split at hd
    next => cases hd
    next x hx =>
      cases hd
      exact .drop k i work mode x hk hx rfl rfl rfl rfl
  next stage _ _ _ hworking hk =>
    cases hd
    refine does_stage hk ?_ rfl
    cases stage with
    | working i work mode => exact absurd rfl (hworking i work mode)
    | _ => rfl

theorem does_respond (hr : w.respond s = some w') : Does w w' (.respond s) := by
  unfold respond at hr
  split at hr
  next => cases hr
  next y hy =>
    split at hr
    next => cases hr
    next x hx =>
      split at hr
      next => cases hr
      next hguard =>
        cases hr
        rw [not_or, not_or, not_not, not_not] at hguard
        obtain ⟨hclosed, hstarting, hs⟩ := hguard
        exact .respond s y x { x with status := .ready, history := x.history ++ [.ready] } hy
          (Bool.eq_false_iff.2 hclosed) hx rfl rfl hstarting rfl hs rfl rfl rfl rfl

theorem finishes_of_perform (h : w.perform (.finish s) = some w') :
    ∃ y x x' stopped, Finishes w w' s y x x' stopped := by
  obtain ⟨y, hy, hs⟩ := Option.bind_eq_some_iff.1 h
  simp only [supervise] at hs
  split at hs
  next stopped hsup =>
    unfold PluginHost.finish at hs
    split at hs
    · cases hs
    next x hx =>
      obtain rfl := Option.some.inj hs
      split
      next hcurrent =>
        exact ⟨y, x, x.transition .failed, stopped, hy, hsup, hx, rfl, rfl, rfl, rfl,
          by rw [if_pos hcurrent]⟩
      next hcurrent =>
        exact ⟨y, x, x, stopped, hy, hsup, hx, rfl, (PMap.insert_eq_self hx).symm, rfl, rfl,
          by rw [if_neg hcurrent]⟩
  next => cases hs

theorem does_supervise (hy : w.sessions s = some y)
    (hm : m = .command s ∨ m = .exit s ∨ m = .lost s ∨ m = .reap s)
    (hs : w.supervise s y m = some w') : Does w w' m := by
  have hstill : ∀ {v v' : Supervisor}, y.supervisor = v → v ≠ .ended →
      (y.supervisor = .ended → v' = .ended) := by
    intro v v' hv hne h
    exact absurd (hv.symm.trans h) hne
  rcases hm with rfl | rfl | rfl | rfl
  · simp only [supervise] at hs
    split at hs
    next hrun =>
      cases hs
      exact .watch _ s y { y with supervisor := .reaping true } hy rfl rfl id
        (hstill hrun.1 nofun) nofun (fun _ => .inl hrun.2)
        nofun rfl rfl rfl rfl
    next => cases hs
  · simp only [supervise] at hs
    split at hs
    next hrun =>
      cases hs
      refine .watch _ s y { y with supervisor := .draining false, closed := true } hy rfl rfl
        (fun _ => rfl) (hstill hrun nofun) nofun ?_
        (fun _ _ => rfl) rfl rfl rfl rfl
      rintro (h | h)
      · cases h
      · cases h
    next => cases hs
  · simp only [supervise] at hs
    split at hs
    next hrun =>
      cases hs
      refine .watch _ s y { y with supervisor := .reaping false } hy rfl rfl id
        (hstill hrun.1 nofun) nofun ?_
        nofun rfl rfl rfl rfl
      rintro (h | h)
      · cases h
      · cases h
    next => cases hs
  · simp only [supervise] at hs
    split at hs
    next stopped hsup =>
      cases hs
      refine .watch _ s y { y with supervisor := .draining stopped, closed := true } hy rfl rfl
        (fun _ => rfl) (hstill hsup nofun) nofun ?_
        (fun _ _ => rfl) rfl rfl rfl rfl
      rintro (h | h)
      · cases h
      · cases h
        exact .inr (.inl hsup)
    next => cases hs

/-- What a section does. -/
theorem does_perform (hm : w.perform m = some w') : Does w w' m := by
  have hcall : ∀ {k : Nat} {stage : Stage} {shuttingDown : Bool}, stage.lease = none →
      { w with shuttingDown }.call k stage = some w' → Does w w' m := by
    intro k stage shuttingDown hlease hc
    unfold call at hc
    split at hc
    next hk =>
      cases hc
      exact .call m k stage rfl rfl rfl rfl hlease fun stage' h => by cases hk.symm.trans h
    next => cases hc
  have hsession : ∀ s, (m = .command s ∨ m = .exit s ∨ m = .lost s ∨ m = .reap s) →
      (w.sessions s).bind (fun y => w.supervise s y m) = some w' →
      Does w w' m := by
    intro s hms hs
    obtain ⟨y, hy, hs⟩ := Option.bind_eq_some_iff.1 hs
    exact does_supervise hy hms hs
  cases m with
  | load k | reload k i force | unload k i | shutdown k => exact hcall rfl hm
  | run k i answer => exact does_run hm
  | drop k => exact does_drop hm
  | respond s => exact does_respond hm
  | close s =>
    obtain ⟨y, hy, hw⟩ := Option.map_eq_some_iff.1 hm
    subst hw
    exact .watch _ s y { y with closed := true } hy rfl rfl (fun _ => rfl) id id .inr
      (fun _ _ => rfl) rfl rfl rfl rfl
  | command s => exact hsession s (.inl rfl) hm
  | exit s => exact hsession s (.inr (.inl rfl)) hm
  | lost s => exact hsession s (.inr (.inr (.inl rfl))) hm
  | reap s => exact hsession s (.inr (.inr (.inr rfl))) hm
  | finish s =>
    obtain ⟨y, x, x', stopped, h⟩ := finishes_of_perform hm
    exact .finish s y x x' stopped h

/-! ## In order -/

/-- The process of the instance's session is running, and has not been told to stop. -/
def Alive (w : PluginHost) (x : Instance) : Prop :=
  ∃ s y, x.session = some s ∧ w.sessions s = some y ∧ y.supervisor ≠ .ended ∧ y.stopping = false

/-- The session's process is running, and has not been told to stop. -/
def runs (w : PluginHost) (s : Nat) : Bool :=
  (w.sessions s).any fun y => y.supervisor ≠ .ended && !y.stopping

/-- No reload marks the instance as draining after its process is gone or was told to stop, and
no call is dropped while it works on an instance that is draining without a process. -/
def Timely (w : PluginHost) : Move → Bool
  | .run k _ answer =>
    match w.calls k with
    | some (.working _ (.prepare (some s) status false) _) =>
      answer ≠ .ok || !(status = .ready || status = .draining) || w.runs s
    | _ => true
  | .drop k =>
    match w.calls k with
    | some (.working i _ _) =>
      (w.instances i).all fun x => x.status ≠ .draining || x.session.any w.runs
    | _ => true
  | _ => true

/-- A section of a run in which every section is timely. -/
def StepTimely (w w' : PluginHost) : Prop := ∃ m, w.Timely m = true ∧ w.perform m = some w'

theorem alive_of_runs (hx : x.session = some s) (h : w.runs s = true) : w.Alive x := by
  obtain ⟨y, hy, h⟩ := (Option.any_eq_true _ _).1 h
  obtain ⟨hended, hstop⟩ := Bool.and_eq_true_iff.1 h
  exact ⟨s, y, hx, hy, of_decide_eq_true hended, by simpa using hstop⟩

theorem runs_of_timely {status : Status} (h : w.Timely (.run k j answer) = true)
    (hk : w.calls k = some (.working i (.prepare (some s) status false) mode))
    (hanswer : answer = .ok) (hstatus : status = .ready ∨ status = .draining) :
    w.runs s = true := by
  simp only [Timely, hk] at h
  subst hanswer
  rcases hstatus with rfl | rfl
  · exact h
  · exact h

theorem alive_of_timely (h : w.Timely (.drop k) = true)
    (hk : w.calls k = some (.working i work mode)) (hx : w.instances i = some x)
    (hdraining : x.status = .draining) : w.Alive x := by
  simp only [Timely, hk, hx, Option.all_some, hdraining, ne_eq, not_true_eq_false, decide_false,
    Bool.false_or] at h
  obtain ⟨s, hs, h⟩ := (Option.any_eq_true _ _).1 h
  exact alive_of_runs hs h

/-- What holds as long as every section is timely. -/
structure Orderly (w : PluginHost) : Prop where
  named : ∀ i x s, w.instances i = some x → x.session = some s → x.sessionId = some s
  owned : ∀ i x s, w.instances i = some x → x.session = some s →
    ∃ y, w.sessions s = some y ∧ y.owner = i
  told : ∀ s y, w.sessions s = some y →
    y.supervisor = .reaping true ∨ y.supervisor = .draining true → y.stopping = true
  closed : ∀ s y stopped, w.sessions s = some y → y.supervisor = .draining stopped →
    y.closed = true
  number : ∀ s y, w.sessions s = some y → s < w.fresh
  begun : ∀ k stage s, w.calls k = some stage → stage.begins = some s →
    s < w.fresh ∧ w.sessions s = none
  one : ∀ k k' stage stage' s, w.calls k = some stage → w.calls k' = some stage' →
    stage.begins = some s → stage'.begins = some s → k = k'
  early : ∀ k i work mode x, w.calls k = some (.working i work mode) → w.instances i = some x →
    work.drains = false → x.status ≠ .draining
  draining : ∀ i x, w.instances i = some x → x.status = .draining →
    (∃ k work mode, w.calls k = some (.working i work mode) ∧ work.isUnload = true) ∨ w.Alive x

theorem orderly_new : new.Orderly where
  named i x s h := by cases h
  owned i x s h := by cases h
  told s y h := by cases h
  closed s y stopped h := by cases h
  number s y h := by cases h
  begun k stage s h := by cases h
  one k k' stage stage' s h := by cases h
  early k i work mode x h := by cases h
  draining i x h := by cases h

/-- What a call is at, after one call has changed. -/
theorem calls_of {k' : Nat} {stage' : Stage} (hcalls : w'.calls = w.calls.insert k stage)
    (h : w'.calls k' = some stage') :
    (k' = k ∧ stage' = stage) ∨ (k' ≠ k ∧ w.calls k' = some stage') :=
  PMap.insert_cases (hcalls ▸ h)

/-- Another call is where it was. -/
theorem calls_of_ne {k' : Nat} (hcalls : w'.calls = w.calls.insert k stage) (hk : k' ≠ k) :
    w'.calls k' = w.calls k' := by
  rw [hcalls, PMap.insert_of_ne hk]

theorem instances_of (hinstances : w'.instances = w.instances.insert i x')
    (h : w'.instances j = some x) : (j = i ∧ x = x') ∨ (j ≠ i ∧ w.instances j = some x) :=
  PMap.insert_cases (hinstances ▸ h)

theorem sessions_of {t : Nat} {y' : Session} (hsessions : w'.sessions = w.sessions.insert s y')
    (h : w'.sessions t = some y) : (t = s ∧ y = y') ∨ (t ≠ s ∧ w.sessions t = some y) :=
  PMap.insert_cases (hsessions ▸ h)

theorem Alive.of_eq (h : w.Alive x) (hsessions : w'.sessions = w.sessions)
    (hx : x'.session = x.session) : w'.Alive x' := by
  obtain ⟨s, y, hs, hy, hrest⟩ := h
  exact ⟨s, y, hx.trans hs, hsessions ▸ hy, hrest⟩

theorem Orderly.call (h : w.Orderly) (hcalls : w'.calls = w.calls.insert k stage)
    (hinstances : w'.instances = w.instances) (hsessions : w'.sessions = w.sessions)
    (hfresh : w'.fresh = w.fresh) (hlease : stage.lease = none)
    (hfree : ∀ stage', w.calls k = some stage' → stage'.lease = none) : w'.Orderly where
  named := by
    rw [hinstances]
    exact h.named
  owned := by
    rw [hinstances, hsessions]
    exact h.owned
  told := by
    rw [hsessions]
    exact h.told
  closed := by
    rw [hsessions]
    exact h.closed
  number := by
    rw [hsessions, hfresh]
    exact h.number
  begun k' stage' s hk' hs := by
    rw [hsessions, hfresh]
    rcases calls_of hcalls hk' with ⟨rfl, rfl⟩ | ⟨hne, hold⟩
    · cases (Stage.begins_of_lease hlease).symm.trans hs
    · exact h.begun k' stage' s hold hs
  one k' k'' stage' stage'' s hk' hk'' hs hs' := by
    rcases calls_of hcalls hk' with ⟨rfl, rfl⟩ | ⟨hne, hold⟩
    · cases (Stage.begins_of_lease hlease).symm.trans hs
    · rcases calls_of hcalls hk'' with ⟨rfl, rfl⟩ | ⟨hne', hold'⟩
      · cases (Stage.begins_of_lease hlease).symm.trans hs'
      · exact h.one k' k'' stage' stage'' s hold hold' hs hs'
  early k' i work mode x hk' hx := by
    rw [hinstances] at hx
    rcases calls_of hcalls hk' with ⟨rfl, rfl⟩ | ⟨hne, hold⟩
    · cases hlease
    · exact h.early k' i work mode x hold hx
  draining i x hx hdraining := by
    rw [hinstances] at hx
    rcases h.draining i x hx hdraining with ⟨k', work, mode, hk', hunload⟩ | halive
    · have hne : k' ≠ k := by
        rintro rfl
        cases hfree _ hk'
      exact .inl ⟨k', work, mode, (calls_of_ne hcalls hne).trans hk', hunload⟩
    · exact .inr (halive.of_eq hsessions rfl)

theorem Orderly.owner (h : w.Orderly) (hx : w.instances i = some x) (hs : x.session = some s)
    (hy : w.sessions s = some y) : y.owner = i := by
  obtain ⟨y', hy', howner⟩ := h.owned i x s hx hs
  cases hy.symm.trans hy'
  exact howner

/-- Another instance is as alive as it was. -/
theorem Orderly.alive_of_ne (h : w.Orderly)
    (hown : own = none ∨ ∃ x, w.instances i = some x ∧ x.session = own)
    (hsessions : Sessions.Later own w.sessions w'.sessions) (hne : j ≠ i)
    (hx : w.instances j = some x) (halive : w.Alive x) : w'.Alive x := by
  obtain ⟨s, y, hs, hy, hrest⟩ := halive
  refine ⟨s, y, hs, ((hsessions s).2.2 fun hos => ?_).trans hy, hrest⟩
  rcases hown with hnone | ⟨x', hx', hx's⟩
  · cases hnone.symm.trans hos
  · exact hne ((h.owner hx hs hy).symm.trans (h.owner hx' (hx's.trans hos) hy))

theorem owned_later (hsessions : Sessions.Later own w.sessions w'.sessions)
    (h : ∃ y, w.sessions s = some y ∧ y.owner = i) : ∃ y, w'.sessions s = some y ∧ y.owner = i := by
  obtain ⟨y, hy, howner⟩ := h
  obtain ⟨y', hy', howner', -⟩ := (hsessions s).2.1 y hy
  exact ⟨y', hy', howner'.trans howner⟩

theorem Orderly.take (h : w.Orderly) (hsound : w'.Sound)
    (hown : own = none ∨ ∃ x, w.instances i = some x ∧ x.session = own)
    (hcalls : w'.calls = w.calls.insert k (.working i work mode))
    (hinstances : w'.instances = w.instances.insert i x')
    (hsessions : Sessions.Later own w.sessions w'.sessions) (hfresh : w'.fresh = w.fresh)
    (hfree : ∀ stage', w.calls k = some stage' → stage'.lease = none)
    (hpending : work.pending = none)
    (hnew : w.instances i = none → x'.status = .discovered ∧ x'.session = none ∧
      x'.sessionId = none)
    (hold : ∀ x, w.instances i = some x →
      x'.session = x.session ∧ x'.sessionId = x.sessionId ∧ work.drains = true ∧
      (work.isUnload = false → w'.sessions = w.sessions ∧ x'.status = x.status) ∧
      (x'.status = x.status ∨ ∃ s, x.session = some s ∧ Sessions.closed w.sessions s = false)) :
    w'.Orderly where
  named j x s hx hs := by
    rcases instances_of hinstances hx with ⟨rfl, rfl⟩ | ⟨hne, hx⟩
    · cases hj : w.instances j with
      | none => cases (hnew hj).2.1.symm.trans hs
      | some x' =>
        obtain ⟨hsession, hid, -⟩ := hold x' hj
        exact hid.trans (h.named j x' s hj (hsession.symm.trans hs))
    · exact h.named j x s hx hs
  owned j x s hx hs := by
    refine owned_later hsessions ?_
    rcases instances_of hinstances hx with ⟨rfl, rfl⟩ | ⟨hne, hx⟩
    · cases hj : w.instances j with
      | none => cases (hnew hj).2.1.symm.trans hs
      | some x' => exact h.owned j x' s hj ((hold x' hj).1.symm.trans hs)
    · exact h.owned j x s hx hs
  told s y hy hsup := by
    obtain ⟨y', hy', -, heq, -, hstopping⟩ := hsessions.before hy
    exact hstopping (h.told s y' hy' (heq ▸ hsup))
  closed s y stopped hy hsup := by
    obtain ⟨y', hy', -, heq, hclosed, -⟩ := hsessions.before hy
    exact hclosed (h.closed s y' stopped hy' (heq ▸ hsup))
  number s y hy := by
    obtain ⟨y', hy', -⟩ := hsessions.before hy
    exact hfresh ▸ h.number s y' hy'
  begun k' stage s hk' hs := by
    rcases calls_of hcalls hk' with ⟨rfl, rfl⟩ | ⟨hne, hk'⟩
    · cases hpending.symm.trans hs
    · obtain ⟨hlt, hnone⟩ := h.begun k' stage s hk' hs
      exact ⟨hfresh ▸ hlt, (hsessions s).1 hnone⟩
  one k' k'' stage stage' s hk' hk'' hs hs' := by
    rcases calls_of hcalls hk' with ⟨rfl, rfl⟩ | ⟨hne, hk'⟩
    · cases hpending.symm.trans hs
    · rcases calls_of hcalls hk'' with ⟨rfl, rfl⟩ | ⟨hne', hk''⟩
      · cases hpending.symm.trans hs'
      · exact h.one k' k'' stage stage' s hk' hk'' hs hs'
  early k' j work' mode' x hk' hx hdrains := by
    rcases calls_of hcalls hk' with ⟨rfl, hstage⟩ | ⟨hne, hkold⟩
    · cases hstage
      rcases instances_of hinstances hx with ⟨-, rfl⟩ | ⟨hne, -⟩
      · cases hj : w.instances i with
        | none =>
          rw [(hnew hj).1]
          exact nofun
        | some x' => cases hdrains.symm.trans (hold x' hj).2.2.1
      · exact absurd rfl hne
    · rcases instances_of hinstances hx with ⟨rfl, rfl⟩ | ⟨-, hx⟩
      · have hself : w'.calls k = some (.working j work mode) := by
          rw [hcalls, PMap.insert_self]
        exact absurd (hsound.alone k' k _ _ j hk' hself rfl rfl) hne
      · exact h.early k' j work' mode' x hkold hx hdrains
  draining j x hx hdraining := by
    rcases instances_of hinstances hx with ⟨rfl, rfl⟩ | ⟨hne, hx⟩
    · have hself : w'.calls k = some (.working j work mode) := by
        rw [hcalls, PMap.insert_self]
      cases hunload : work.isUnload with
      | true => exact .inl ⟨k, work, mode, hself, hunload⟩
      | false =>
        cases hj : w.instances j with
        | none => cases (hnew hj).1.symm.trans hdraining
        | some x' =>
          obtain ⟨hsession, -, -, hsame, -⟩ := hold x' hj
          obtain ⟨hsessions, hstatus⟩ := hsame hunload
          rcases h.draining j x' hj (hstatus.symm.trans hdraining) with
            ⟨k', work', mode', hk', hunload'⟩ | halive
          · have hne : k' ≠ k := by
              rintro rfl
              cases hfree _ hk'
            exact .inl ⟨k', work', mode', (calls_of_ne hcalls hne).trans hk', hunload'⟩
          · exact .inr (halive.of_eq hsessions hsession)
    · rcases h.draining j x hx hdraining with ⟨k', work', mode', hk', hunload⟩ | halive
      · have hne : k' ≠ k := by
          rintro rfl
          cases hfree _ hk'
        exact .inl ⟨k', work', mode', (calls_of_ne hcalls hne).trans hk', hunload⟩
      · exact .inr (h.alive_of_ne hown hsessions ‹j ≠ i› hx halive)

/-! ### An operation goes on -/

section Work

variable {i : Nat} {work : Work} {answer : Answer} {x : Instance} {r : Section}

variable {k s : Nat} {mode : Mode}

variable (h : w.Orderly) (hk : w.calls k = some (.working i work mode))
  (hx : w.instances i = some x) (heff : work.Effect i w.fresh x w.sessions answer r)

include heff

/-- The number of the session that is about to begin is new, or that of the last section. -/
theorem Orderly.effect_pending {work' : Work} (hnext : r.next = .inl work')
    (hs : work'.pending = some s) :
    (s = w.fresh ∧ ∀ t, w.sessions t = none → r.sessions t = none) ∨
      (work.pending = some s ∧ ∀ t, w.sessions t = none → r.sessions t = none) := by
  cases heff with
  | drain t status hwork hstatus hanswer hr =>
    subst hr
    cases hnext
    cases hs
  | begin reload hsessions hsession hid hstatus hnext' =>
    cases hnext.symm.trans hnext'
    cases hs
    exact .inl ⟨rfl, fun t => (hsessions t).1⟩
  | connect t y work'' hwork hdrains hy howner hr hnext' =>
    subst hr
    cases hnext
    cases hnext'.symm.trans hs
  | keep hsessions hid hsession hstatus hdrains hpending =>
    rcases hpending work' hnext with hnone | heq
    · cases hnone.symm.trans hs
    · exact .inr ⟨heq.symm.trans hs, fun t => (hsessions t).1⟩

/-- A session that is not there yet stays so, unless it is about to begin. -/
theorem Orderly.effect_none (hs : w.sessions s = none) :
    r.sessions s = none ∨ work.pending = some s := by
  cases heff with
  | drain t status hwork hstatus hanswer hr =>
    subst hr
    exact .inl hs
  | begin reload hsessions => exact .inl ((hsessions s).1 hs)
  | connect t y work' hwork hdrains hy howner hr hnext =>
    subst hr
    by_cases hst : s = t
    · exact .inr (hst ▸ hwork)
    · exact .inl ((PMap.insert_of_ne hst).trans hs)
  | keep hsessions => exact .inl ((hsessions s).1 hs)

include h hk

theorem Orderly.effect_before {y' : Session} (hy' : r.sessions s = some y') :
    (∃ y, w.sessions s = some y ∧ y'.owner = y.owner ∧ y'.supervisor = y.supervisor ∧
      (y.closed = true → y'.closed = true) ∧ (y.stopping = true → y'.stopping = true)) ∨
    (s < w.fresh ∧ y'.supervisor = .running) := by
  cases heff with
  | drain t status hwork hstatus hanswer hr =>
    subst hr
    exact .inl ⟨y', hy', rfl, rfl, id, id⟩
  | begin reload hsessions hsession hid hstatus hnext => exact .inl (hsessions.before hy')
  | connect t y work' hwork hdrains hy howner hr hnext =>
    subst hr
    rcases PMap.insert_cases hy' with ⟨rfl, rfl⟩ | ⟨-, hy'⟩
    · exact .inr ⟨(h.begun k _ s hk hwork).1, hy⟩
    · exact .inl ⟨y', hy', rfl, rfl, id, id⟩
  | keep hsessions => exact .inl (hsessions.before hy')

/-- A session of any instance is still there, with its owner. -/
theorem Orderly.effect_owned {j : Nat} (hs : ∃ y, w.sessions s = some y ∧ y.owner = j) :
    ∃ y, r.sessions s = some y ∧ y.owner = j := by
  obtain ⟨y, hy, howner⟩ := hs
  cases heff with
  | drain t status hwork hstatus hanswer hr =>
    subst hr
    exact ⟨y, hy, howner⟩
  | begin reload hsessions | keep hsessions =>
    obtain ⟨y', hy', howner', -⟩ := (hsessions s).2.1 y hy
    exact ⟨y', hy', howner'.trans howner⟩
  | connect t y' work' hwork hdrains hy' howner' hr hnext =>
    subst hr
    have hne : s ≠ t := by
      rintro rfl
      cases hy.symm.trans (h.begun k _ s hk hwork).2
    exact ⟨y, (PMap.insert_of_ne hne).trans hy, howner⟩

include hx

omit hk in
theorem Orderly.effect_named (hs : r.state.session = some s) :
    r.state.sessionId = some s := by
  cases heff with
  | drain t status hwork hstatus hanswer hr =>
    subst hr
    exact h.named i x s hx hs
  | begin reload hsessions hsession hid hstatus hnext => cases hsession.symm.trans hs
  | connect t y work' hwork hdrains hy howner hr hnext =>
    subst hr
    exact hs
  | keep hsessions hid hsession =>
    rcases hsession with hsession | hsession
    · exact hid.trans (h.named i x s hx (hsession.symm.trans hs))
    · cases hsession.symm.trans hs

theorem Orderly.effect_owned_self (hs : r.state.session = some s) :
    ∃ y, r.sessions s = some y ∧ y.owner = i := by
  have hold : x.session = some s → ∃ y, r.sessions s = some y ∧ y.owner = i :=
    fun hs => h.effect_owned hk heff (h.owned i x s hx hs)
  cases heff with
  | drain t status hwork hstatus hanswer hr =>
    subst hr
    exact hold hs
  | begin reload hsessions hsession => cases hsession.symm.trans hs
  | connect t y work' hwork hdrains hy howner hr hnext =>
    subst hr
    cases hs
    exact ⟨y, PMap.insert_self, howner⟩
  | keep hsessions hid hsession =>
    rcases hsession with hsession | hsession
    · exact hold (hsession.symm.trans hs)
    · cases hsession.symm.trans hs

theorem Orderly.effect_early {work' : Work} (hnext : r.next = .inl work')
    (hdrains : work'.drains = false) : r.state.status ≠ .draining := by
  cases heff with
  | drain t status hwork hstatus hanswer hr =>
    subst hr
    cases hnext
    cases hdrains
  | begin reload hsessions hsession hid hstatus hnext' =>
    rw [hstatus]
    exact nofun
  | connect t y work'' hwork hdrains' hy howner hr hnext' =>
    subst hr
    exact h.early k i work mode x hk hx hdrains'
  | keep hsessions hid hsession hstatus _ hpending hearly =>
    rcases hearly work' hnext hdrains with hwork | hne
    · have hold := h.early k i work mode x hk hx hwork
      intro hdraining
      rcases hstatus with heq | heq | heq | heq
      · exact hold (heq.symm.trans hdraining)
      · cases heq.symm.trans hdraining
      · cases heq.symm.trans hdraining
      · cases heq.symm.trans hdraining
    · exact hne

/-- Another instance is as alive as it was. -/
theorem Orderly.effect_alive_of_ne {j : Nat} {z : Instance}
    (hsessions : w'.sessions = r.sessions) (hne : j ≠ i) (hz : w.instances j = some z) (halive : w.Alive z) : w'.Alive z := by
  cases heff with
  | drain t status hwork hstatus hanswer hr =>
    subst hr
    exact halive.of_eq hsessions rfl
  | begin reload hlater | keep hlater =>
    exact h.alive_of_ne (.inr ⟨x, hx, rfl⟩) (hsessions.symm ▸ hlater) hne hz halive
  | connect t y work' hwork hdrains hy howner hr hnext =>
    subst hr
    obtain ⟨s, y', hs, hy', hrest⟩ := halive
    have hst : s ≠ t := by
      rintro rfl
      cases hy'.symm.trans (h.begun k _ s hk hwork).2
    exact ⟨s, y', hs, hsessions ▸ (PMap.insert_of_ne hst).trans hy', hrest⟩

/-- An instance that is draining after the section is being unloaded, or it is alive. -/
theorem Orderly.effect_draining {x' : Instance} (hsound : w.Sound)
    (htimely : ∀ s status, work = .prepare (some s) status false → answer = .ok →
      status = .ready ∨ status = .draining → w.runs s = true)
    (hsessions : w'.sessions = r.sessions) (hx' : x'.session = r.state.session)
    (hdraining : r.state.status = .draining) :
    (∃ work', r.next = .inl work' ∧ work'.isUnload = true) ∨ w'.Alive x' := by
  have hknows : work.Knows x := by
    obtain ⟨-, x'', hx'', -, hknows⟩ := hsound.holds k i work mode hk
    cases hx.symm.trans hx''
    exact hknows
  cases heff with
  | drain t status hwork hstatus hanswer hr =>
    subst hr
    have hruns := htimely t status hwork hanswer hstatus
    subst hwork
    exact .inr ((alive_of_runs (hknows (some t) rfl) hruns).of_eq hsessions hx')
  | begin reload hlater hsession hid hstatus => cases hstatus.symm.trans hdraining
  | connect t y work' hwork hdrains hy howner hr hnext =>
    subst hr
    exact absurd hdraining (h.early k i work mode x hk hx hdrains)
  | keep hlater hid hsession hstatus hdrains hpending hearly hunload hend =>
    have hold : x.status = .draining := by
      rcases hstatus with heq | heq | heq | heq
      · exact heq.symm.trans hdraining
      · cases heq.symm.trans hdraining
      · cases heq.symm.trans hdraining
      · cases heq.symm.trans hdraining
    cases hwork : work.isUnload with
    | true =>
      cases hnext : r.next with
      | inl work' => exact .inl ⟨work', rfl, hunload hwork work' hnext⟩
      | inr ok => exact absurd hdraining (hend hwork ⟨ok, hnext⟩)
    | false =>
      have hd : work.drains = true := by
        by_contra hne
        exact h.early k i work mode x hk hx (Bool.eq_false_iff.2 hne) hold
      obtain ⟨hsame, hsame'⟩ := hdrains hd hwork hdraining
      rcases h.draining i x hx hold with ⟨k', work', mode', hk', hunload'⟩ | halive
      · obtain rfl := hsound.alone k' k _ _ i hk' hk rfl rfl
        cases hk.symm.trans hk'
        cases hwork.symm.trans hunload'
      · exact .inr (halive.of_eq (hsessions.trans hsame') (hx'.trans hsame))

theorem Orderly.goOn {busy : Bool} {stage : Stage} (hsound : w.Sound)
    (htimely : ∀ s status, work = .prepare (some s) status false → answer = .ok →
      status = .ready ∨ status = .draining → w.runs s = true)
    (hcalls : w'.calls = w.calls.insert k stage)
    (hinstances : w'.instances = w.instances.insert i { r.state with busy })
    (hsessions : w'.sessions = r.sessions) (hfresh : w'.fresh = w.fresh + 1)
    (hnext : (∃ work', r.next = .inl work' ∧ stage = .working i work' mode) ∨
      ((∃ ok, r.next = .inr ok) ∧ stage.lease = none)) : w'.Orderly where
  named j z s hz hs := by
    rcases instances_of hinstances hz with ⟨rfl, rfl⟩ | ⟨hne, hz⟩
    · exact h.effect_named hx heff hs
    · exact h.named j z s hz hs
  owned j z s hz hs := by
    rw [hsessions]
    rcases instances_of hinstances hz with ⟨rfl, rfl⟩ | ⟨hne, hz⟩
    · exact h.effect_owned_self hk hx heff hs
    · exact h.effect_owned hk heff (h.owned j z s hz hs)
  told s y hy hsup := by
    rcases h.effect_before hk heff (hsessions ▸ hy) with ⟨y', hy', -, heq, -, hstop⟩ | ⟨-, hrun⟩
    · exact hstop (h.told s y' hy' (heq ▸ hsup))
    · rcases hsup with hsup | hsup
      · cases hrun.symm.trans hsup
      · cases hrun.symm.trans hsup
  closed s y stopped hy hsup := by
    rcases h.effect_before hk heff (hsessions ▸ hy) with ⟨y', hy', -, heq, hclosed, -⟩ | ⟨-, hrun⟩
    · exact hclosed (h.closed s y' stopped hy' (heq ▸ hsup))
    · cases hrun.symm.trans hsup
  number s y hy := by
    rw [hfresh]
    rcases h.effect_before hk heff (hsessions ▸ hy) with ⟨y', hy', -⟩ | ⟨hlt, -⟩
    · exact Nat.lt_succ_of_lt (h.number s y' hy')
    · exact Nat.lt_succ_of_lt hlt
  begun k' stage' s hk' hs := by
    rw [hfresh, hsessions]
    have hfresh : w.sessions w.fresh = none := by
      by_contra hsome
      obtain ⟨y, hy⟩ := Option.ne_none_iff_exists'.1 hsome
      exact absurd (h.number _ y hy) (lt_irrefl _)
    rcases calls_of hcalls hk' with ⟨rfl, rfl⟩ | ⟨hne, hold⟩
    · rcases hnext with ⟨work', hnext, rfl⟩ | ⟨-, hlease⟩
      · rcases Orderly.effect_pending heff hnext hs with ⟨rfl, hnone⟩ | ⟨hpending, hnone⟩
        · exact ⟨Nat.lt_succ_self _, hnone _ hfresh⟩
        · obtain ⟨hlt, hs'⟩ := h.begun k' _ s hk hpending
          exact ⟨Nat.lt_succ_of_lt hlt, hnone s hs'⟩
      · cases (Stage.begins_of_lease hlease).symm.trans hs
    · obtain ⟨hlt, hs'⟩ := h.begun k' stage' s hold hs
      refine ⟨Nat.lt_succ_of_lt hlt, (Orderly.effect_none heff hs').resolve_right fun hp => ?_⟩
      exact hne (h.one k' k stage' _ s hold hk hs hp)
  one k' k'' stage' stage'' s hk' hk'' hs hs' := by
    -- A number that begins with this section is new, so no other call has it.
    have hother : ∀ k' stage', k' ≠ k → w.calls k' = some stage' → stage'.begins = some s →
        stage.begins ≠ some s := by
      intro k' stage' hne hk' hs hself
      rcases hnext with ⟨work', hnext, rfl⟩ | ⟨-, hlease⟩
      · rcases Orderly.effect_pending heff hnext hself with ⟨rfl, -⟩ | ⟨hpending, -⟩
        · exact absurd (h.begun k' stage' _ hk' hs).1 (lt_irrefl _)
        · exact hne (h.one k' k stage' _ s hk' hk hs hpending)
      · cases (Stage.begins_of_lease hlease).symm.trans hself
    rcases calls_of hcalls hk' with ⟨rfl, rfl⟩ | ⟨hne, hold⟩
    · rcases calls_of hcalls hk'' with ⟨rfl, rfl⟩ | ⟨hne', hold'⟩
      · rfl
      · exact absurd hs (hother k'' stage'' hne' hold' hs')
    · rcases calls_of hcalls hk'' with ⟨rfl, rfl⟩ | ⟨hne', hold'⟩
      · exact absurd hs' (hother k' stage' hne hold hs)
      · exact h.one k' k'' stage' stage'' s hold hold' hs hs'
  early k' j work' mode' z hk' hz hdrains := by
    rcases calls_of hcalls hk' with ⟨rfl, hstage⟩ | ⟨hne, hold⟩
    · rcases hnext with ⟨work'', hnext, rfl⟩ | ⟨-, hlease⟩
      · cases hstage
        rcases instances_of hinstances hz with ⟨-, rfl⟩ | ⟨hne, -⟩
        · exact h.effect_early hk hx heff hnext hdrains
        · exact absurd rfl hne
      · subst hstage
        cases hlease
    · rcases instances_of hinstances hz with ⟨rfl, rfl⟩ | ⟨-, hz⟩
      · exact absurd (hsound.alone k' k _ _ j hold hk rfl rfl) hne
      · exact h.early k' j work' mode' z hold hz hdrains
  draining j z hz hdraining := by
    rcases instances_of hinstances hz with ⟨rfl, rfl⟩ | ⟨hne, hz⟩
    · rcases h.effect_draining hk hx heff hsound htimely hsessions rfl hdraining with
        ⟨work', hwork', hunload⟩ | halive
      · rcases hnext with ⟨work'', hnext, rfl⟩ | ⟨⟨ok, hok⟩, -⟩
        · cases hwork'.symm.trans hnext
          exact .inl ⟨k, work', mode, hcalls ▸ PMap.insert_self, hunload⟩
        · cases hwork'.symm.trans hok
      · exact .inr halive
    · rcases h.draining j z hz hdraining with ⟨k', work', mode', hk', hunload⟩ | halive
      · have hkk : k' ≠ k := by
          rintro rfl
          cases hk.symm.trans hk'
          exact hne rfl
        exact .inl ⟨k', work', mode', (calls_of_ne hcalls hkk).trans hk', hunload⟩
      · exact .inr (h.effect_alive_of_ne hk hx heff hsessions hne hz halive)

end Work

/-! ### The other sections -/

variable {k i s : Nat} {work : Work} {mode : Mode} {x : Instance} {m : Move}

theorem Orderly.drop (h : w.Orderly) (hk : w.calls k = some (.working i work mode))
    (hx : w.instances i = some x) (htimely : x.status = .draining → w.Alive x)
    (hcalls : w'.calls = w.calls.insert k .dropped)
    (hinstances : w'.instances = w.instances.insert i { x with busy := false })
    (hsessions : w'.sessions = w.sessions) (hfresh : w'.fresh = w.fresh) : w'.Orderly where
  named j z s hz hs := by
    rcases instances_of hinstances hz with ⟨rfl, rfl⟩ | ⟨hne, hz⟩
    · exact h.named j x s hx hs
    · exact h.named j z s hz hs
  owned j z s hz hs := by
    rw [hsessions]
    rcases instances_of hinstances hz with ⟨rfl, rfl⟩ | ⟨hne, hz⟩
    · exact h.owned j x s hx hs
    · exact h.owned j z s hz hs
  told := by
    rw [hsessions]
    exact h.told
  closed := by
    rw [hsessions]
    exact h.closed
  number := by
    rw [hsessions, hfresh]
    exact h.number
  begun k' stage' s hk' hs := by
    rw [hsessions, hfresh]
    rcases calls_of hcalls hk' with ⟨rfl, rfl⟩ | ⟨hne, hold⟩
    · cases hs
    · exact h.begun k' stage' s hold hs
  one k' k'' stage' stage'' s hk' hk'' hs hs' := by
    rcases calls_of hcalls hk' with ⟨rfl, rfl⟩ | ⟨hne, hold⟩
    · cases hs
    · rcases calls_of hcalls hk'' with ⟨rfl, rfl⟩ | ⟨hne', hold'⟩
      · cases hs'
      · exact h.one k' k'' stage' stage'' s hold hold' hs hs'
  early k' j work' mode' z hk' hz hdrains := by
    rcases calls_of hcalls hk' with ⟨rfl, hstage⟩ | ⟨hne, hold⟩
    · cases hstage
    · rcases instances_of hinstances hz with ⟨rfl, rfl⟩ | ⟨-, hz⟩
      · exact h.early k' j work' mode' x hold hx hdrains
      · exact h.early k' j work' mode' z hold hz hdrains
  draining j z hz hdraining := by
    rcases instances_of hinstances hz with ⟨rfl, rfl⟩ | ⟨hne, hz⟩
    · exact .inr ((htimely hdraining).of_eq hsessions rfl)
    · rcases h.draining j z hz hdraining with ⟨k', work', mode', hk', hunload⟩ | halive
      · have hkk : k' ≠ k := by
          rintro rfl
          cases hk.symm.trans hk'
          exact hne rfl
        exact .inl ⟨k', work', mode', (calls_of_ne hcalls hkk).trans hk', hunload⟩
      · exact .inr (halive.of_eq hsessions rfl)

/-- The task of a session, or its connection, changes that session and the status of an
instance. -/
theorem Orderly.watch {y y' : Session} (h : w.Orderly) (hy : w.sessions s = some y)
    (howner : y'.owner = y.owner) (hstopping : y'.stopping = y.stopping)
    (htold : y'.supervisor = .reaping true ∨ y'.supervisor = .draining true →
      y.stopping = true ∨ y.supervisor = .reaping true ∨ y.supervisor = .draining true)
    (hclosed : ∀ stopped, y'.supervisor = .draining stopped → y'.closed = true)
    (hbefore : ∀ j z', w'.instances j = some z' → ∃ z, w.instances j = some z ∧
      z'.sessionId = z.sessionId ∧ z'.session = z.session ∧
      (z'.status = .draining → z.status = .draining ∧
        (z.session = some s → y'.supervisor = .ended → y.supervisor = .ended ∨ y.stopping = true)))
    (hcalls : w'.calls = w.calls) (hsessions : w'.sessions = w.sessions.insert s y')
    (hfresh : w'.fresh = w.fresh) : w'.Orderly where
  named j z' t hz' ht := by
    obtain ⟨z, hz, hid, hsession, -⟩ := hbefore j z' hz'
    exact hid.trans (h.named j z t hz (hsession.symm.trans ht))
  owned j z' t hz' ht := by
    obtain ⟨z, hz, hid, hsession, -⟩ := hbefore j z' hz'
    obtain ⟨v, hv, hvj⟩ := h.owned j z t hz (hsession.symm.trans ht)
    by_cases hts : t = s
    · subst hts
      cases hy.symm.trans hv
      exact ⟨y', hsessions ▸ PMap.insert_self, howner.trans hvj⟩
    · exact ⟨v, hsessions ▸ (PMap.insert_of_ne hts).trans hv, hvj⟩
  told t v hv hsup := by
    rcases sessions_of hsessions hv with ⟨rfl, rfl⟩ | ⟨hne, hv⟩
    · rcases htold hsup with hstop | hsup
      · exact hstopping.trans hstop
      · exact hstopping.trans (h.told t y hy hsup)
    · exact h.told t v hv hsup
  closed t v stopped hv hsup := by
    rcases sessions_of hsessions hv with ⟨rfl, rfl⟩ | ⟨hne, hv⟩
    · exact hclosed stopped hsup
    · exact h.closed t v stopped hv hsup
  number t v hv := by
    rw [hfresh]
    rcases sessions_of hsessions hv with ⟨rfl, rfl⟩ | ⟨hne, hv⟩
    · exact h.number t y hy
    · exact h.number t v hv
  begun k stage t hk hs := by
    rw [hfresh]
    obtain ⟨hlt, hnone⟩ := h.begun k stage t (hcalls ▸ hk) hs
    have hne : t ≠ s := by
      rintro rfl
      cases hy.symm.trans hnone
    exact ⟨hlt, hsessions ▸ (PMap.insert_of_ne hne).trans hnone⟩
  one := by
    rw [hcalls]
    exact h.one
  early k j work mode z' hk hz' hdrains hd := by
    rw [hcalls] at hk
    obtain ⟨z, hz, -, -, hold⟩ := hbefore j z' hz'
    exact h.early k j work mode z hk hz hdrains (hold hd).1
  draining j z' hz' hd := by
    rw [hcalls]
    obtain ⟨z, hz, -, hsession, hold⟩ := hbefore j z' hz'
    obtain ⟨hzd, hend⟩ := hold hd
    refine (h.draining j z hz hzd).imp_right ?_
    rintro ⟨t, v, ht, hv, hsup, hstop⟩
    by_cases hts : t = s
    · subst hts
      cases hy.symm.trans hv
      refine ⟨t, y', hsession.trans ht, hsessions ▸ PMap.insert_self, fun hended => ?_,
        hstopping.trans hstop⟩
      rcases hend ht hended with hended | hstopped
      · exact hsup hended
      · cases hstop.symm.trans hstopped
    · exact ⟨t, v, hsession.trans ht, hsessions ▸ (PMap.insert_of_ne hts).trans hv, hsup, hstop⟩

theorem orderly_step (h : w.Orderly) (hsound : w.Sound) (htimely : w.Timely m = true)
    (hm : w.perform m = some w') : w'.Orderly := by
  have hsound' := (advances_step hsound ⟨m, hm⟩).sound
  cases does_perform hm with
  | call _ k stage hcalls hinstances hsessions hfresh hlease hfree =>
    exact h.call hcalls hinstances hsessions hfresh hlease hfree
  | take _ k i work mode x' own hown hcalls hinstances hsessions hfresh hfree hpending hnew hold =>
    exact h.take hsound' hown hcalls hinstances hsessions hfresh hfree hpending hnew hold
  | work k j i answer work mode x r busy stage hk hx hr hcalls hinstances hsessions hfresh hnext =>
    have hknows : work.Knows x := by
      obtain ⟨-, x'', hx'', -, hknows⟩ := hsound.holds k i work mode hk
      cases hx.symm.trans hx''
      exact hknows
    refine h.goOn hk hx (Work.effect_step hknows hr) hsound (fun s status hwork => ?_) hcalls
      hinstances hsessions hfresh hnext
    exact runs_of_timely htimely (hwork ▸ hk)
  | drop k i work mode x hk hx hcalls hinstances hsessions hfresh =>
    exact h.drop hk hx (alive_of_timely htimely hk hx) hcalls hinstances hsessions hfresh
  | respond s y x x' hy hclosed hx hid hsession hstarting hx' hs hcalls hinstances hsessions
      hfresh =>
      refine h.watch hy rfl rfl .inr (h.closed s y · hy) (fun j z' hz' => ?_) hcalls
        (hsessions.trans (PMap.insert_eq_self hy).symm) hfresh
      rcases instances_of hinstances hz' with ⟨rfl, rfl⟩ | ⟨hne, hz'⟩
      · exact ⟨x, hx, hid, hsession, fun hd => by cases hx'.symm.trans hd⟩
      · exact ⟨z', hz', rfl, rfl, fun hd => ⟨hd, fun _ => .inl⟩⟩
  | watch _ s y y' hy howner hstopping hclosed hended halive htold hdraining hcalls hinstances
      hsessions hfresh =>
      refine h.watch hy howner hstopping htold hdraining (fun j z hz => ?_) hcalls hsessions hfresh
      exact ⟨z, hinstances ▸ hz, rfl, rfl, fun hd => ⟨hd, fun _ hend => .inl (halive hend)⟩⟩
  | finish s y x x' stopped hf =>
    refine @Orderly.watch w w' s y { y with supervisor := .ended } h hf.session rfl rfl
      (fun hor => ?_) nofun (fun j z' hz' => ?_) hf.calls hf.sessions
      hf.fresh
    · rcases hor with hor | hor
      · cases hor
      · cases hor
    · have hrecord := hf.record
      rcases instances_of hf.instances hz' with ⟨rfl, rfl⟩ | ⟨hne, hz'⟩
      · split at hrecord
        · subst hrecord
          exact ⟨x, hf.owner, rfl, rfl, nofun⟩
        next hcurrent =>
          subst hrecord
          refine ⟨z', hf.owner, rfl, rfl, fun hd => ⟨hd, fun hs _ => .inr ?_⟩⟩
          -- The supervisor has left the instance alone, so it was told to stop.
          have hstopped : stopped = true := by
            by_contra hne
            refine hcurrent ⟨⟨h.named _ z' s hf.owner hs, ?_, ?_⟩, Bool.eq_false_iff.2 hne⟩
            · exact fun hst => by cases hd.symm.trans hst
            · exact fun hst => by cases hd.symm.trans hst
          exact h.told s y hf.session (.inr (hstopped ▸ hf.draining))
      · refine ⟨z', hz', rfl, rfl, fun hd => ⟨hd, fun hs _ => ?_⟩⟩
        exact absurd (h.owner hz' hs hf.session) (Ne.symm hne)

/-! ## A session that has failed -/

/-- The supervisor of session `s` of instance `i` marks the instance as failed. -/
structure Fails (w w' : PluginHost) (s i : Nat) : Prop where
  finishes : w.perform (.finish s) = some w'
  owner : ∃ y, w.sessions s = some y ∧ y.owner = i
  failed : ∃ x, w'.instances i = some x ∧ x.sessionId = some s ∧ x.status = .failed

/-- The session has ended, and the instance is not in use. -/
structure Failed (w : PluginHost) (s i : Nat) : Prop where
  session : ∃ y, w.sessions s = some y ∧ y.closed = true ∧ y.supervisor = .ended
  status : ∀ x, w.instances i = some x → x.sessionId = some s →
    x.status ≠ .ready ∧ x.status ≠ .draining

theorem failed_of_fails (h : w.Orderly) (hf : Fails w w' s i) : w'.Failed s i := by
  obtain ⟨x₁, hx₁, -, hfailed⟩ := hf.failed
  obtain ⟨y, x, x', stopped, hfin⟩ := finishes_of_perform hf.finishes
  refine ⟨⟨_, hfin.sessions ▸ PMap.insert_self, ?_, rfl⟩, fun x hx _ => ?_⟩
  · exact h.closed s y stopped hfin.session hfin.draining
  · cases hx₁.symm.trans hx
    rw [hfailed]
    exact ⟨nofun, nofun⟩

/-- The session is as it was, whatever the others have become. -/
theorem Failed.session_later {own : Option Nat} (hf : w.Failed s i)
    (hsessions : Sessions.Later own w.sessions w'.sessions) :
    ∃ y, w'.sessions s = some y ∧ y.closed = true ∧ y.supervisor = .ended := by
  obtain ⟨y, hy, hclosed, hended⟩ := hf.session
  obtain ⟨y', hy', -, hsup, hc, -⟩ := (hsessions s).2.1 y hy
  exact ⟨y', hy', hc hclosed, hsup.trans hended⟩

theorem Failed.effect_session {j : Nat} {answer : Answer} {r : Section} (hf : w.Failed s i)
    (h : w.Orderly) (hk : w.calls k = some (.working j work mode))
    (heff : work.Effect j w.fresh x w.sessions answer r) (hsessions : w'.sessions = r.sessions) :
    ∃ y, w'.sessions s = some y ∧ y.closed = true ∧ y.supervisor = .ended := by
  cases heff with
  | drain t status hwork hstatus hanswer hr =>
    subst hr
    exact hsessions ▸ hf.session
  | begin reload hlater | keep hlater => exact hf.session_later (hsessions.symm ▸ hlater)
  | connect t y work' hwork hdrains hy howner hr hnext =>
    subst hr
    obtain ⟨y₀, hy₀, hrest⟩ := hf.session
    have hst : s ≠ t := by
      rintro rfl
      cases hy₀.symm.trans (h.begun k _ s hk hwork).2
    exact ⟨y₀, hsessions ▸ (PMap.insert_of_ne hst).trans hy₀, hrest⟩

theorem Failed.effect_status {answer : Answer}
    {r : Section} (hf : w.Failed s i) (h : w.Orderly) (hknows : work.Knows x)
    (hk : w.calls k = some (.working i work mode)) (hx : w.instances i = some x)
    (htimely : ∀ s status, work = .prepare (some s) status false → answer = .ok →
      status = .ready ∨ status = .draining → w.runs s = true)
    (heff : work.Effect i w.fresh x w.sessions answer r) (hid : r.state.sessionId = some s) :
    r.state.status ≠ .ready ∧ r.state.status ≠ .draining := by
  obtain ⟨y₀, hy₀, -, hended₀⟩ := hf.session
  cases heff with
  | drain t status hwork hstatus hanswer hr =>
    -- The session has ended, so the reload would be late.
    have hruns := htimely t status hwork hanswer hstatus
    subst hr hwork
    have hts : some t = some s := (h.named i x t hx (hknows (some t) rfl)).symm.trans hid
    cases hts
    rw [runs, hy₀, Option.any_some, hended₀] at hruns
    cases hruns
  | begin reload hlater hsession hfresh =>
    have hs : some w.fresh = some s := hfresh.symm.trans hid
    cases hs
    exact absurd (h.number _ y₀ hy₀) (lt_irrefl _)
  | connect t y work' hwork hdrains hy howner hr hnext =>
    subst hr
    cases hid
    cases hy₀.symm.trans (h.begun k _ s hk hwork).2
  | keep hlater hid' hsession hstatus =>
    rcases hstatus with heq | heq | heq | heq
    · rw [heq]
      exact hf.status x hx (hid'.symm.trans hid)
    all_goals
      rw [heq]
      exact ⟨nofun, nofun⟩

theorem failed_step (hf : w.Failed s i) (h : w.Orderly) (hsound : w.Sound)
    (htimely : w.Timely m = true) (hm : w.perform m = some w') : w'.Failed s i := by
  obtain ⟨y₀, hy₀, hclosed₀, hended₀⟩ := hf.session
  cases does_perform hm with
  | call _ k stage hcalls hinstances hsessions =>
    exact ⟨hsessions ▸ hf.session, hinstances ▸ hf.status⟩
  | take _ k j work mode x' own hown hcalls hinstances hsessions hfresh hfree hpending hnew hold =>
    refine ⟨hf.session_later hsessions, fun x hx hid => ?_⟩
    rcases instances_of hinstances hx with ⟨rfl, rfl⟩ | ⟨hne, hx⟩
    · cases hi : w.instances i with
      | none => cases (hnew hi).2.2.symm.trans hid
      | some z =>
        obtain ⟨-, hid', -, -, hstatus⟩ := hold z hi
        have hz := hf.status z hi (hid'.symm.trans hid)
        rcases hstatus with hstatus | ⟨t, ht, hopen⟩
        · rw [hstatus]
          exact hz
        · have hts : some t = some s := (h.named i z t hi ht).symm.trans (hid'.symm.trans hid)
          cases hts
          rw [Sessions.closed, hy₀, Option.any_some, hclosed₀] at hopen
          cases hopen
    · exact hf.status x hx hid
  | work k j i' answer work mode x r busy stage hk hx hr hcalls hinstances hsessions hfresh
      hnext =>
      have hknows : work.Knows x := by
        obtain ⟨-, x'', hx'', -, hknows⟩ := hsound.holds k i' work mode hk
        cases hx.symm.trans hx''
        exact hknows
      have heff := Work.effect_step hknows hr
      refine ⟨?_, fun z hz hid => ?_⟩
      · exact hf.effect_session h hk heff hsessions
      · rcases instances_of hinstances hz with ⟨rfl, rfl⟩ | ⟨hne, hz⟩
        · refine hf.effect_status h hknows hk hx (fun t status hwork => ?_) heff hid
          exact runs_of_timely htimely (hwork ▸ hk)
        · exact hf.status z hz hid
  | drop k j work mode x hk hx hcalls hinstances hsessions hfresh =>
    refine ⟨hsessions ▸ hf.session, fun z hz hid => ?_⟩
    rcases instances_of hinstances hz with ⟨rfl, rfl⟩ | ⟨hne, hz⟩
    · exact hf.status x hx hid
    · exact hf.status z hz hid
  | respond t y x x' hy hclosed hx hid' hsession hstarting hx' hs hcalls hinstances hsessions
      hfresh =>
      refine ⟨hsessions ▸ hf.session, fun z hz hid => ?_⟩
      rcases instances_of hinstances hz with ⟨rfl, rfl⟩ | ⟨hne, hz⟩
      · cases hs.symm.trans (hid'.symm.trans hid)
        cases hy₀.symm.trans hy
        cases hclosed.symm.trans hclosed₀
      · exact hf.status z hz hid
  | watch _ t y y' hy howner hstopping hclosed hended halive htold hdraining hcalls hinstances
      hsessions hfresh =>
      refine ⟨?_, hinstances ▸ hf.status⟩
      by_cases hst : s = t
      · subst hst
        cases hy₀.symm.trans hy
        exact ⟨y', hsessions ▸ PMap.insert_self, hclosed hclosed₀, hended hended₀⟩
      · exact ⟨y₀, hsessions ▸ (PMap.insert_of_ne hst).trans hy₀, hclosed₀, hended₀⟩
  | finish t y x x' stopped hfin =>
    refine ⟨?_, fun z hz hid => ?_⟩
    · by_cases hst : s = t
      · subst hst
        cases hy₀.symm.trans hfin.session
        exact ⟨{ y₀ with supervisor := .ended }, hfin.sessions ▸ PMap.insert_self, hclosed₀, rfl⟩
      · exact ⟨y₀, hfin.sessions ▸ (PMap.insert_of_ne hst).trans hy₀, hclosed₀, hended₀⟩
    · have hrecord := hfin.record
      rcases instances_of hfin.instances hz with ⟨rfl, rfl⟩ | ⟨hne, hz⟩
      · split at hrecord
        · subst hrecord
          exact ⟨nofun, nofun⟩
        · subst hrecord
          exact hf.status z hfin.owner hid
      · exact hf.status z hz hid

/-- A supervisor changes no status but that of its own session. -/
theorem own_status {x' : Instance} (hm : w.perform m = some w')
    (hs : m = .command s ∨ m = .exit s ∨ m = .lost s ∨ m = .reap s ∨ m = .finish s)
    (hx : w.instances i = some x) (hx' : w'.instances i = some x') (hne : x'.status ≠ x.status) :
    x.sessionId = some s ∧ ∃ y, w.sessions s = some y ∧ y.owner = i := by
  have hstill : w'.instances = w.instances → x.sessionId = some s ∧
      ∃ y, w.sessions s = some y ∧ y.owner = i := by
    intro hinstances
    cases hx.symm.trans (hinstances ▸ hx')
    exact absurd rfl hne
  have hwatch : (m = .command s ∨ m = .exit s ∨ m = .lost s ∨ m = .reap s) →
      w'.instances = w.instances := by
    rintro (rfl | rfl | rfl | rfl)
    all_goals
      obtain ⟨y, hy, hs⟩ := Option.bind_eq_some_iff.1 hm
      simp only [supervise] at hs
      split at hs
      · cases hs
        rfl
      · cases hs
  rcases hs with hs | hs | hs | hs | rfl
  · exact hstill (hwatch (.inl hs))
  · exact hstill (hwatch (.inr (.inl hs)))
  · exact hstill (hwatch (.inr (.inr (.inl hs))))
  · exact hstill (hwatch (.inr (.inr (.inr hs))))
  · obtain ⟨y, z, z', stopped, hfin⟩ := finishes_of_perform hm
    have hrecord := hfin.record
    rcases instances_of hfin.instances hx' with ⟨rfl, rfl⟩ | ⟨hne', hold⟩
    · cases hx.symm.trans hfin.owner
      split at hrecord
      next hcurrent => exact ⟨hcurrent.1.1, y, hfin.session, rfl⟩
      next => exact absurd (congrArg Instance.status hrecord) hne
    · cases hx.symm.trans hold
      exact absurd rfl hne

theorem orderly_of_reachable (h : Reachable (· = new) StepTimely w) : w.Sound ∧ w.Orderly := by
  refine h.invariant (I := fun w => w.Sound ∧ w.Orderly) ?_ ?_
  · rintro _ rfl
    exact ⟨sound_new, orderly_new⟩
  · rintro v v' ⟨hsound, h⟩ ⟨m, htimely, hm⟩
    exact ⟨(advances_step hsound ⟨m, hm⟩).sound, orderly_step h hsound htimely hm⟩

/-- An instance is draining, no call works on it, and its process is gone. -/
def Abandoned (w : PluginHost) (i : Nat) : Prop :=
  (∃ x, w.instances i = some x ∧ x.status = .draining ∧
    ∀ s y, x.session = some s → w.sessions s = some y → y.supervisor = .ended) ∧
  ∀ k stage, w.calls k = some stage → stage.lease ≠ some i

/-- As long as every section is timely, a session that has failed stays so until another begins,
a supervisor changes the status of its own session only, and no instance is left draining without
a process. -/
theorem failed_stays (h : Reachable (· = new) StepTimely w) :
    (∀ w' w'' s i x, Fails w w' s i → Relation.ReflTransGen StepTimely w' w'' →
      w''.instances i = some x → x.sessionId = some s →
      x.status ≠ .ready ∧ x.status ≠ .draining) ∧
    (∀ m w' s i x x', w.perform m = some w' →
      (m = .command s ∨ m = .exit s ∨ m = .lost s ∨ m = .reap s ∨ m = .finish s) →
      w.instances i = some x → w'.instances i = some x' → x'.status ≠ x.status →
      x.sessionId = some s) ∧
    ∀ i, ¬ w.Abandoned i := by
  obtain ⟨hsound, hord⟩ := orderly_of_reachable h
  refine ⟨fun w' w'' s i x hf hrun hx hid => ?_,
    fun m w' s i x x' hm hs hx hx' hne => (own_status hm hs hx hx' hne).1, ?_⟩
  · have hfirst : w'.Failed s i ∧ w'.Sound ∧ w'.Orderly :=
      ⟨failed_of_fails hord hf, (advances_step hsound ⟨_, hf.finishes⟩).sound,
        orderly_step hord hsound (m := .finish s) rfl hf.finishes⟩
    have hall : ∀ v, Relation.ReflTransGen StepTimely w' v →
        v.Failed s i ∧ v.Sound ∧ v.Orderly := by
      intro v hrun
      induction hrun with
      | refl => exact hfirst
      | tail _ hstep ih =>
        obtain ⟨hfailed, hsound, hord⟩ := ih
        obtain ⟨m, htimely, hm⟩ := hstep
        exact ⟨failed_step hfailed hord hsound htimely hm, (advances_step hsound ⟨m, hm⟩).sound,
          orderly_step hord hsound htimely hm⟩
    exact (hall w'' hrun).1.status x hx hid
  · rintro i ⟨⟨x, hx, hdraining, hgone⟩, hfree⟩
    rcases hord.draining i x hx hdraining with ⟨k, work, mode, hk, -⟩ | ⟨s, y, hs, hy, hne, -⟩
    · exact hfree k _ hk rfl
    · exact hne (hgone s y hs hy)

/-- A plugin is loaded, as the instance 5. -/
def loadPlugin : List Move :=
  [.load 0, .run 0 0 .ok, .run 0 5 .ok, .run 0 0 .ok, .run 0 0 .ok, .run 0 0 .ok, .respond 0,
    .run 0 0 .ok]

/-- Several sections in a row, all of them timely. -/
def performTimely (w : PluginHost) : List Move → Option PluginHost
  | [] => some w
  | m :: rest =>
    if w.Timely m then (w.perform m).bind fun w => w.performTimely rest else none

theorem reachable_performTimely {moves : List Move} (h : w.performTimely moves = some w')
    (hw : Reachable (· = new) StepTimely w) : Reachable (· = new) StepTimely w' := by
  induction moves generalizing w with
  | nil =>
    cases h
    exact hw
  | cons m rest ih =>
    rw [performTimely] at h
    split at h
    next htimely =>
      obtain ⟨v, hm, hrest⟩ := Option.bind_eq_some_iff.1 h
      exact ih hrest (hw.next ⟨m, htimely, hm⟩)
    next => cases h

/-- The session 0 of the instance 5 has failed in the last section. -/
def hasFailed (w w' : PluginHost) : Bool :=
  ((w.sessions 0).any fun y => y.owner = 5) &&
    (w'.instances 5).any fun x => x.sessionId = some 0 && x.status = .failed

theorem fails_of_hasFailed (h : w.perform (.finish 0) = some w') (hf : hasFailed w w' = true) :
    Fails w w' 0 5 := by
  obtain ⟨hy, hx⟩ := Bool.and_eq_true_iff.1 hf
  obtain ⟨y, hy, howner⟩ := (Option.any_eq_true _ _).1 hy
  obtain ⟨x, hx, hfailed⟩ := (Option.any_eq_true _ _).1 hx
  obtain ⟨hid, hstatus⟩ := Bool.and_eq_true_iff.1 hfailed
  exact ⟨h, ⟨y, hy, of_decide_eq_true howner⟩, x, hx, of_decide_eq_true hid,
    of_decide_eq_true hstatus⟩

theorem loadPlugin_failed : ∃ w w', new.performTimely (loadPlugin ++ [.exit 0]) = some w ∧
    Fails w w' 0 5 ∧
    (∀ w'' x, Relation.ReflTransGen StepTimely w' w'' → w''.instances 5 = some x →
      x.sessionId = some 0 → x.status ≠ .ready ∧ x.status ≠ .draining) ∧ ∀ i, ¬ w.Abandoned i := by
  have hrun : ((new.performTimely (loadPlugin ++ [.exit 0])).any fun w =>
      (w.perform (.finish 0)).any (hasFailed w)) = true := by decide
  obtain ⟨w, hw, hrun⟩ := (Option.any_eq_true _ _).1 hrun
  obtain ⟨w', hw', hfailed⟩ := (Option.any_eq_true _ _).1 hrun
  have hfails := fails_of_hasFailed hw' hfailed
  obtain ⟨hstays, -, hnone⟩ := failed_stays (reachable_performTimely hw (.start rfl))
  exact ⟨w, w', hw, hfails, fun w'' x hrun => hstays w' w'' 0 5 x hfails hrun, hnone⟩

/-- The instance 5 is draining, without a process. -/
def isAbandoned (w : PluginHost) : Bool :=
  (w.instances 5).any fun x => x.sessionId = some 0 && x.status = .draining && !x.busy &&
    x.session = some 0 && (w.sessions 0).any fun y => y.supervisor = .ended

theorem abandoned_of_isAbandoned (hsound : w.Sound) (h : w.isAbandoned = true) :
    w.Abandoned 5 ∧ ∃ x, w.instances 5 = some x ∧ x.sessionId = some 0 ∧ x.status = .draining := by
  obtain ⟨x, hx, h⟩ := (Option.any_eq_true _ _).1 h
  simp only [Bool.and_eq_true, decide_eq_true_eq, Bool.not_eq_true', Option.any_eq_true] at h
  obtain ⟨⟨⟨⟨hid, hdraining⟩, hbusy⟩, hsession⟩, y, hy, hended⟩ := h
  refine ⟨⟨⟨x, hx, hdraining, fun s z hs hz => ?_⟩, fun k stage hk => ?_⟩, x, hx, hid, hdraining⟩
  · cases hsession.symm.trans hs
    cases hy.symm.trans hz
    exact hended
  · exact hsound.free hx (Bool.eq_false_iff.1 hbusy) stage hk

/-- A reload has found the instance ready; the process ends, and the session fails, while the
reload prepares the plugin.  Afterwards the instance is draining, and is left so. -/
theorem late_reload_drains : ∃ w w' w'' x, Reachable (· = new) Step w ∧ Fails w w' 0 5 ∧
    Relation.ReflTransGen Step w' w'' ∧ w''.instances 5 = some x ∧ x.sessionId = some 0 ∧
    x.status = .draining ∧ w''.Abandoned 5 := by
  have hrun : ((new.performAll (loadPlugin ++ [.reload 1 5 false, .run 1 0 .ok, .exit 0])).any
      fun w => (w.perform (.finish 0)).any fun w' => hasFailed w w' &&
        (w'.performAll [.run 1 0 .ok, .run 1 0 .error]).any isAbandoned) = true := by decide
  obtain ⟨w, hw, hrun⟩ := (Option.any_eq_true _ _).1 hrun
  obtain ⟨w', hw', hrun⟩ := (Option.any_eq_true _ _).1 hrun
  obtain ⟨hfailed, hrun⟩ := Bool.and_eq_true_iff.1 hrun
  obtain ⟨w'', hw'', habandoned⟩ := (Option.any_eq_true _ _).1 hrun
  have hreach := reachable_performAll hw
  have hrest := run_performAll hw''
  have hsound : w''.Sound := by
    obtain ⟨w₀, h₀, hrun₀⟩ := hreach.next ⟨_, hw'⟩
    exact sound_of_reachable ⟨w₀, h₀, hrun₀.trans hrest⟩
  obtain ⟨hab, x, hx, hid, hdraining⟩ := abandoned_of_isAbandoned hsound habandoned
  exact ⟨w, w', w'', x, hreach, fails_of_hasFailed hw' hfailed, hrest, hx, hid, hdraining, hab⟩

end PluginHost

end NapiVm.Plugin
