import NapiVm.Plugin.Host

/-!
# Shutting the host down

A shutdown first says so, and then waits for the loads and reloads that have been admitted.
After that nothing is admitted, every instance is unloaded under its lease, and `unload` waits
for the supervisor of the instance's process, so that no one is left to change its status.

* `Sound` — what holds of the host at all times.
* `shutdown_complete` — what holds when a shutdown has returned.
-/

namespace NapiVm.Plugin

/-- What is known of the instance's session while an operation works on it. -/
def Work.knows : Work → Option (Option Nat)
  | .services => some none
  | .start _ _ .bind => some none
  | .start _ _ .connect => some none
  | .start _ s .initializing => some (some s)
  | .start _ s .stop => some (some s)
  | .cleanup => none
  | .prepare old _ _ => some old
  | .quiesce s => some (some s)
  | .snapshot s => some (some s)
  | .oldShutdown s => some (some s)
  | .oldStop s => some (some s)
  | .unload (.quiesce s) _ => some (some s)
  | .unload (.shutdown s) _ => some (some s)
  | .unload (.stop s) _ => some (some s)
  | .unload .services _ => some none

def Work.isUnload : Work → Bool
  | .unload _ _ => true
  | _ => false

namespace Stage

/-- A guard of the gate is held, for a load or a reload. -/
def reads : Stage → Bool
  | .loadPrepare => true
  | .working _ _ .admitted => true
  | _ => false

/-- A shutdown has entered the gate. -/
def entered : Stage → Bool
  | .working _ _ (.shutdown _ _) => true
  | .unloads _ _ => true
  | .closing _ => true
  | .shutDown _ => true
  | _ => false

def finished : Stage → Bool
  | .returned _ => true
  | .shutDown _ => true
  | .dropped => true
  | _ => false

/-- The instance whose lease is held. -/
def lease : Stage → Option Nat
  | .working i _ _ => some i
  | _ => none

/-- The instances that a shutdown has not yet unloaded, if there was no error. -/
def undone : Stage → Option (List Nat)
  | .working i _ (.shutdown rest false) => some (i :: rest)
  | .unloads rest false => some rest
  | .closing false => some []
  | .shutDown true => some []
  | _ => none

theorem entered_of_undone {stage : Stage} {l : List Nat} (h : stage.undone = some l) :
    stage.entered = true := by
  unfold undone at h
  split at h <;> first | rfl | cases h

end Stage

namespace Sessions

/-- The sessions are the same, up to what does not concern their supervisors. -/
def Same (sessions sessions' : PMap Nat Session) : Prop :=
  ∀ s y, sessions' s = some y →
    ∃ y', sessions s = some y' ∧ y'.owner = y.owner ∧ y'.supervisor = y.supervisor

variable {sessions sessions' sessions'' : PMap Nat Session}

theorem Same.refl : Same sessions sessions := fun _ y hy => ⟨y, hy, rfl, rfl⟩

theorem Same.trans (h : Same sessions sessions') (h' : Same sessions' sessions'') :
    Same sessions sessions'' := by
  intro s y hy
  obtain ⟨y', hy', howner, hsup⟩ := h' s y hy
  obtain ⟨y'', hy'', howner', hsup'⟩ := h s y' hy'
  exact ⟨y'', hy'', howner'.trans howner, hsup'.trans hsup⟩

theorem same_modify {s : Nat} {f : Session → Session}
    (hf : ∀ y, (f y).owner = y.owner ∧ (f y).supervisor = y.supervisor) :
    Same sessions (modify sessions s f) := by
  intro t y hy
  unfold modify at hy
  split at hy
  · obtain ⟨y', hy', rfl⟩ := Option.map_eq_some_iff.1 hy
    exact ⟨y', hy', (hf y').1.symm, (hf y').2.symm⟩
  · exact ⟨y, hy, rfl, rfl⟩

theorem same_close (s : Nat) : Same sessions (close sessions s) :=
  same_modify fun _ => ⟨rfl, rfl⟩

theorem same_ask (s : Nat) : Same sessions (ask sessions s) :=
  same_modify fun _ => ⟨rfl, rfl⟩

end Sessions

namespace Work

/-- The supervisor of every other session of the instance has ended. -/
def Live (i : Nat) (x : Instance) (sessions : PMap Nat Session) : Prop :=
  ∀ s y, sessions s = some y → y.supervisor ≠ .ended → y.owner = i → x.session = some s

def Knows (work : Work) (x : Instance) : Prop :=
  ∀ session, work.knows = some session → x.session = session

/-- What a section of an operation keeps. -/
structure Keeps (i : Nat) (x : Instance) (sessions : PMap Nat Session) (work : Work)
    (r : Section) : Prop where
  busy : r.state.busy = x.busy
  knows : ∀ work', r.next = .inl work' → work'.Knows r.state
  unloads : work.isUnload = true → ∀ work', r.next = .inl work' → work'.isUnload = true
  spawns : r.spawns = true → work.isUnload = false ∧ ∃ work', r.next = .inl work'
  live : Live i r.state r.sessions
  others : ∀ s y, r.sessions s = some y → y.owner ≠ i →
    ∃ y', sessions s = some y' ∧ y'.owner = y.owner ∧ y'.supervisor = y.supervisor
  stopped : work.isUnload = true →
    (x.status = .stopped ∧ x.session = none) ∨ (∃ ok, r.next = .inr ok) →
      r.state.status = .stopped ∧ r.state.session = none

variable {i fresh : Nat} {x : Instance} {sessions : PMap Nat Session}

variable {x' : Instance} {sessions' : PMap Nat Session} {s : Nat} {answer : Answer} {r : Section}

theorem Live.same (h : Live i x sessions) (hsession : x'.session = x.session)
    (hs : Sessions.Same sessions sessions') : Live i x' sessions' := by
  intro s y hy hended howner
  obtain ⟨y', hy', howner', hsup⟩ := hs s y hy
  exact hsession.trans (h s y' hy' (hsup ▸ hended) (howner'.trans howner))

/-- The supervisor of the instance's session has ended, so there is none left. -/
theorem Live.ended (h : Live i x sessions) (hx : x.session = some s)
    (hs : Sessions.ended sessions s = true) : Live i x' (Sessions.close sessions s) := by
  intro t y hy hended howner
  obtain ⟨y', hy', howner', hsup⟩ := Sessions.same_close s t y hy
  have ht := h t y' hy' (hsup ▸ hended) (howner'.trans howner)
  obtain rfl : s = t := Option.some.inj (hx.symm.trans ht)
  rw [Sessions.ended, hy'] at hs
  exact absurd (hsup ▸ of_decide_eq_true hs) hended

/-- A section after which the instance has the session it had. -/
theorem keeps_same {work : Work} {next : Work ⊕ Bool} {spawns : Bool} (hlive : Live i x sessions)
    (hload : work.isUnload = false) (hbusy : x'.busy = x.busy) (hsession : x'.session = x.session)
    (hs : Sessions.Same sessions sessions') (hnext : ∀ work', next = .inl work' → work'.Knows x')
    (hspawns : spawns = true → ∃ work', next = .inl work') :
    Keeps i x sessions work ⟨x', sessions', next, spawns⟩ where
  busy := hbusy
  knows := hnext
  unloads h := by cases hload.symm.trans h
  spawns h := ⟨hload, hspawns h⟩
  live := hlive.same hsession hs
  others s y hy _ := hs s y hy
  stopped h := by cases hload.symm.trans h

theorem knows_of_eq {work work' : Work} {session : Option Nat}
    (hnext : (.inl work : Work ⊕ Bool) = .inl work') (hk : work.knows = some session)
    (hx : x'.session = session) : work'.Knows x' := by
  cases hnext
  intro session' h
  exact hx.trans (Option.some.inj (hk.symm.trans h))

section

variable (hlive : Live i x sessions)

include hlive

theorem keeps_begin {work : Work} (hload : work.isUnload = false) (hx : x.session = none)
    (reload : Bool) : Keeps i x sessions work (begin fresh x sessions reload) :=
  keeps_same hlive hload rfl rfl .refl (fun _ h => knows_of_eq h rfl hx) nofun

theorem keeps_fail {work : Work} (hload : work.isUnload = false) (reload : Bool) :
    Keeps i x sessions work (fail x sessions reload) := by
  refine keeps_same hlive hload rfl rfl .refl (fun work' h => ?_) nofun
  cases reload with
  | true => cases h
  | false =>
    cases h
    exact nofun

theorem keeps_replace {work : Work} {old : Option Nat} (hload : work.isUnload = false)
    (hx : x.session = old) : Keeps i x sessions work (replace fresh x sessions old) := by
  cases old with
  | none | some s =>
    exact keeps_same hlive hload rfl rfl .refl (fun _ h => knows_of_eq h rfl hx) nofun

/-- A section that ends the operation. -/
theorem keeps_end {work : Work} {ok : Bool} (hload : work.isUnload = false) :
    Keeps i x sessions work ⟨x, sessions, .inr ok, false⟩ :=
  keeps_same hlive hload rfl rfl .refl (fun _ h => by cases h) fun h => by cases h

/-- A new session is put in place. -/
theorem keeps_connect {work work' : Work} {y : Session} (hload : work.isUnload = false)
    (hx : x.session = none) (hy : y.owner = i) (hk : work'.knows = some (some s)) :
    Keeps i x sessions work ⟨{ x with session := some s, sessionId := some s },
      sessions.insert s y, .inl work', false⟩ where
  busy := rfl
  knows work'' h := knows_of_eq h hk rfl
  unloads h := by cases hload.symm.trans h
  spawns h := by cases h
  live t z hz hended howner := by
    by_cases ht : t = s
    · exact congrArg some ht.symm
    · have hz' : sessions t = some z := (PMap.insert_of_ne ht).symm.trans hz
      cases hx.symm.trans (hlive t z hz' hended howner)
  others t z hz howner := by
    rcases PMap.insert_cases hz with ⟨rfl, rfl⟩ | ⟨-, hz⟩
    · exact absurd hy howner
    · exact ⟨z, hz, rfl, rfl⟩
  stopped h := by cases hload.symm.trans h

theorem keeps_stepStart {reload : Bool} {starting : Starting}
    (hx : (Work.start reload s starting).Knows x)
    (hr : stepStart i x sessions reload s starting answer = some r) :
    Keeps i x sessions (.start reload s starting) r := by
  cases starting with
  | bind =>
    have hnone : x.session = none := hx none rfl
    cases answer with
    | ok =>
      cases hr
      exact keeps_same hlive rfl rfl rfl .refl (fun _ h => knows_of_eq h rfl hnone)
        fun _ => ⟨_, rfl⟩
    | error =>
      cases hr
      exact keeps_fail hlive rfl reload
    | unfit =>
      cases hr
      exact keeps_fail hlive rfl reload
  | connect =>
    have hnone : x.session = none := hx none rfl
    cases answer with
    | ok =>
      cases hr
      exact keeps_connect hlive rfl hnone rfl rfl
    | error =>
      cases hr
      exact keeps_fail hlive rfl reload
    | unfit =>
      cases hr
      exact keeps_connect hlive rfl hnone rfl rfl
  | initializing =>
    have hsome : x.session = some s := hx (some s) rfl
    have hstop : Keeps i x sessions (.start reload s .initializing)
        ⟨x, Sessions.ask (Sessions.close sessions s) s, .inl (.start reload s .stop), false⟩ :=
      keeps_same hlive rfl rfl rfl ((Sessions.same_close s).trans (Sessions.same_ask s))
        (fun _ h => knows_of_eq h rfl hsome) nofun
    cases answer with
    | ok =>
      obtain rfl := Option.some.inj hr
      split
      · exact keeps_end hlive rfl
      · exact keeps_same hlive rfl rfl rfl (Sessions.same_ask s)
          (fun _ h => knows_of_eq h rfl hsome) nofun
    | error =>
      cases hr
      exact hstop
    | unfit =>
      cases hr
      exact hstop
  | stop =>
    simp only [stepStart] at hr
    split at hr
    · cases hr
      exact keeps_fail hlive rfl reload
    · cases hr

/-- A section of `unload` that leaves the session. -/
theorem keeps_unload {unloading unloading' : Unloading} {error error' : Bool}
    (hx : x.session = some s) (hbusy : x'.busy = x.busy) (hsession : x'.session = x.session)
    (hs : Sessions.Same sessions sessions')
    (hk : (Work.unload unloading' error').knows = some (some s)) :
    Keeps i x sessions (.unload unloading error)
      ⟨x', sessions', .inl (.unload unloading' error'), false⟩ where
  busy := hbusy
  knows _ h := knows_of_eq h hk (hsession.trans hx)
  unloads _ work' h := by
    cases h
    rfl
  spawns h := by cases h
  live := hlive.same hsession hs
  others t y hy _ := hs t y hy
  stopped _ h := by
    rcases h with ⟨-, hnone⟩ | ⟨ok, hok⟩
    · cases hx.symm.trans hnone
    · cases hok

theorem keeps_stepUnload {unloading : Unloading} {error : Bool}
    (hx : (Work.unload unloading error).Knows x)
    (hr : stepUnload x sessions error unloading answer = some r) :
    Keeps i x sessions (.unload unloading error) r := by
  cases unloading with
  | quiesce s =>
    cases hr
    exact keeps_unload hlive (hx (some s) rfl) rfl rfl .refl rfl
  | shutdown s =>
    cases hr
    exact keeps_unload hlive (hx (some s) rfl) rfl rfl (Sessions.same_ask s) rfl
  | stop s =>
    have hsome : x.session = some s := hx (some s) rfl
    simp only [stepUnload] at hr
    split at hr
    next hended =>
      cases hr
      exact
        { busy := rfl
          knows := fun _ h => knows_of_eq h rfl rfl
          unloads := by
            rintro - work' h
            cases h
            rfl
          spawns := nofun
          live := hlive.ended hsome hended
          others := fun t y hy _ => Sessions.same_close s t y hy
          stopped := by
            rintro - (⟨-, hnone⟩ | ⟨ok, hok⟩)
            · cases hsome.symm.trans hnone
            · cases hok }
    next => cases hr
  | services =>
    have hnone : x.session = none := hx none rfl
    cases hr
    exact
      { busy := rfl
        knows := nofun
        unloads := nofun
        spawns := nofun
        live := hlive.same rfl .refl
        others := fun t y hy _ => ⟨y, hy, rfl, rfl⟩
        stopped := fun _ _ => ⟨rfl, hnone⟩ }

theorem keeps_step {work : Work} (hx : work.Knows x)
    (hr : work.step i fresh x sessions answer = some r) : Keeps i x sessions work r := by
  cases work with
  | services =>
    cases answer with
    | ok =>
      cases hr
      exact keeps_begin hlive rfl (hx none rfl) false
    | error =>
      cases hr
      exact keeps_fail hlive rfl false
    | unfit =>
      cases hr
      exact keeps_fail hlive rfl false
  | start reload s starting => exact keeps_stepStart hlive hx hr
  | cleanup =>
    cases hr
    exact keeps_end hlive rfl
  | prepare old status force =>
    cases answer with
    | ok =>
      cases old with
      | none =>
        cases hr
        exact keeps_replace hlive rfl (hx none rfl)
      | some s =>
        obtain rfl := Option.some.inj hr
        split
        · exact keeps_same hlive rfl rfl rfl .refl
            (fun _ h => knows_of_eq h rfl (hx (some s) rfl)) nofun
        · exact keeps_replace hlive rfl (hx (some s) rfl)
    | error =>
      cases hr
      exact keeps_end hlive rfl
    | unfit =>
      cases hr
      exact keeps_end hlive rfl
  | quiesce s =>
    cases answer with
    | ok =>
      cases hr
      exact keeps_same hlive rfl rfl rfl .refl
        (fun _ h => knows_of_eq h rfl (hx (some s) rfl)) nofun
    | error =>
      cases hr
      exact keeps_end hlive rfl
    | unfit =>
      cases hr
      exact keeps_end hlive rfl
  | snapshot s =>
    cases answer with
    | ok =>
      cases hr
      exact keeps_replace hlive rfl (hx (some s) rfl)
    | error =>
      cases hr
      exact keeps_end hlive rfl
    | unfit =>
      cases hr
      exact keeps_end hlive rfl
  | oldShutdown s =>
    cases hr
    exact keeps_same hlive rfl rfl rfl (Sessions.same_ask s)
      (fun _ h => knows_of_eq h rfl (hx (some s) rfl)) nofun
  | oldStop s =>
    have hsome : x.session = some s := hx (some s) rfl
    simp only [step] at hr
    split at hr
    next hended =>
      split at hr
      · cases hr
        have hbegin : Keeps i ({ x with session := none }.transition .stopped)
            (Sessions.close sessions s) (.oldStop s) (begin fresh _ _ true) :=
          keeps_begin (hlive.ended hsome hended) rfl rfl true
        exact
          { hbegin with
            others := fun t y hy howner => by
              obtain ⟨y', hy', howner', hsup⟩ := hbegin.others t y hy howner
              obtain ⟨y'', hy'', howner'', hsup'⟩ := Sessions.same_close s t y' hy'
              exact ⟨y'', hy'', howner''.trans howner', hsup'.trans hsup⟩
            stopped := fun h => by cases h }
      · cases hr
        exact keeps_end hlive rfl
    next => cases hr
  | unload unloading error => exact keeps_stepUnload hlive hx hr

end

end Work

/-- A call that is about to unload an instance. -/
inductive Stage.Unloads (i : Nat) : Mode → Stage → Prop where
  | alone : Unloads i .alone (.unloadCall i)
  | shutdown (rest : List Nat) (first : Bool) :
      Unloads i (.shutdown rest first) (.unloads (i :: rest) first)

/-- The stage after an operation. -/
def Mode.after (ok : Bool) : Mode → Stage
  | .admitted => .returned ok
  | .alone => .returned ok
  | .shutdown rest first => .unloads rest (first || !ok)

/-- The instance is stopped, without a session. -/
def PluginHost.Done (w : PluginHost) (i : Nat) : Prop :=
  ∃ x, w.instances i = some x ∧ x.status = .stopped ∧ x.session = none

/-- What holds of the host at all times. -/
structure PluginHost.Sound (w : PluginHost) : Prop where
  reads : ∀ k stage, w.calls k = some stage → stage.reads = true → k ∈ w.readers
  announced : ∀ k, w.calls k = some .shutdownGate → w.shuttingDown = true
  quiet : ∀ k stage, w.calls k = some stage → stage.entered = true →
    w.shuttingDown = true ∧ w.readers = []
  holds : ∀ k i work mode, w.calls k = some (.working i work mode) →
    (mode ≠ .admitted → work.isUnload = true) ∧ ∃ x, w.instances i = some x ∧ x.busy = true ∧
      ∀ session, work.knows = some session → x.session = session
  alone : ∀ k k' stage stage' i, w.calls k = some stage → w.calls k' = some stage' →
    stage.lease = some i → stage'.lease = some i → k = k'
  live : ∀ s y, w.sessions s = some y → y.supervisor ≠ .ended →
    ∃ x, w.instances y.owner = some x ∧ x.session = some s
  registered : ∀ i, i ∈ w.registry ↔ w.instances i ≠ none
  started : ∀ k ∈ w.started, ∃ stage, w.calls k = some stage ∧
    (stage.reads = true ∨ stage.finished = true)
  done : ∀ k stage l, w.calls k = some stage → stage.undone = some l →
    ∀ i ∈ w.registry, i ∉ l → w.Done i

/-- After a section the host is sound; and when nothing is admitted, no process is started and
nothing will be admitted. -/
structure PluginHost.Advances (w w' : PluginHost) : Prop where
  sound : w'.Sound
  flag : w.shuttingDown = true → w'.shuttingDown = true
  quiet : w.shuttingDown = true → w.readers = [] → w'.readers = [] ∧ w'.started = w.started

namespace PluginHost

variable {w w' : PluginHost}

theorem sound_new : new.Sound where
  reads k stage h := by cases h
  announced k h := by cases h
  quiet k stage h := by cases h
  holds k i work mode h := by cases h
  alone k k' stage stage' i h := by cases h
  live s y h := by cases h
  registered i := ⟨nofun, fun h => absurd rfl h⟩
  started k h := by cases h
  done k stage l h := by cases h

/-! ## A call that works on no instance -/

variable {k i j s : Nat} {stage : Stage} {x x' : Instance} {mode : Mode} {ok : Bool} {r : Section}
  {y : Session}

/-- A section of a call that leaves the instances alone. -/
structure Settles (w w' : PluginHost) (k : Nat) (stage : Stage) : Prop where
  calls : w'.calls = w.calls.insert k stage
  instances : w'.instances = w.instances
  sessions : w'.sessions = w.sessions
  registry : w'.registry = w.registry
  started : w'.started = w.started
  flag : w.shuttingDown = true → w'.shuttingDown = true ∧ (w.readers = [] → w'.readers = [])
  others : ∀ k' ∈ w.readers, k' ≠ k → k' ∈ w'.readers
  lease : stage.lease = none
  reads : stage.reads = true → k ∈ w'.readers
  announced : stage = .shutdownGate → w'.shuttingDown = true
  quiet : stage.entered = true → w'.shuttingDown = true ∧ w'.readers = []
  finished : k ∈ w.started → stage.reads = true ∨ stage.finished = true
  done : ∀ l, stage.undone = some l → ∀ i ∈ w.registry, i ∉ l → w.Done i

theorem Settles.sound (h : w.Sound) (hs : Settles w w' k stage) : w'.Sound where
  reads k' stage' hk' hreads := by
    rw [hs.calls] at hk'
    rcases PMap.insert_cases hk' with ⟨rfl, rfl⟩ | ⟨hne, hk'⟩
    · exact hs.reads hreads
    · exact hs.others k' (h.reads k' stage' hk' hreads) hne
  announced k' hk' := by
    rw [hs.calls] at hk'
    rcases PMap.insert_cases hk' with ⟨rfl, hstage⟩ | ⟨hne, hk'⟩
    · exact hs.announced hstage.symm
    · exact (hs.flag (h.announced k' hk')).1
  quiet k' stage' hk' hentered := by
    rw [hs.calls] at hk'
    rcases PMap.insert_cases hk' with ⟨rfl, rfl⟩ | ⟨hne, hk'⟩
    · exact hs.quiet hentered
    · obtain ⟨hshutting, hreaders⟩ := h.quiet k' stage' hk' hentered
      exact ⟨(hs.flag hshutting).1, (hs.flag hshutting).2 hreaders⟩
  holds k' i work mode hk' := by
    rw [hs.calls] at hk'
    rw [hs.instances]
    rcases PMap.insert_cases hk' with ⟨rfl, rfl⟩ | ⟨hne, hk'⟩
    · cases hs.lease
    · exact h.holds k' i work mode hk'
  alone k' k'' stage' stage'' i hk' hk'' hl' hl'' := by
    rw [hs.calls] at hk' hk''
    rcases PMap.insert_cases hk' with ⟨rfl, rfl⟩ | ⟨hne, hk'⟩
    · cases hs.lease.symm.trans hl'
    · rcases PMap.insert_cases hk'' with ⟨rfl, rfl⟩ | ⟨hne', hk''⟩
      · cases hs.lease.symm.trans hl''
      · exact h.alone k' k'' stage' stage'' i hk' hk'' hl' hl''
  live := by
    rw [hs.sessions, hs.instances]
    exact h.live
  registered := by
    rw [hs.registry, hs.instances]
    exact h.registered
  started k' hk' := by
    rw [hs.started] at hk'
    rw [hs.calls]
    by_cases hkk : k' = k
    · subst hkk
      exact ⟨stage, PMap.insert_self, hs.finished hk'⟩
    · obtain ⟨stage', hstage, hrest⟩ := h.started k' hk'
      exact ⟨stage', (PMap.insert_of_ne hkk).trans hstage, hrest⟩
  done k' stage' l hk' hundone i hi hil := by
    rw [hs.calls] at hk'
    rw [hs.registry] at hi
    have hdone : w.Done i := by
      rcases PMap.insert_cases hk' with ⟨rfl, rfl⟩ | ⟨hne, hk'⟩
      · exact hs.done l hundone i hi hil
      · exact h.done k' stage' l hk' hundone i hi hil
    unfold Done at hdone ⊢
    rw [hs.instances]
    exact hdone

theorem Sound.settle (h : w.Sound) (hs : Settles w w' k stage) : w.Advances w' where
  sound := hs.sound h
  flag h := (hs.flag h).1
  quiet h hreaders := ⟨(hs.flag h).2 hreaders, hs.started⟩

/-- No one reads more or less than before. -/
theorem Sound.stay (h : w.Sound) (hlease : stage.lease = none) (hreads : stage.reads = false)
    (hgate : stage ≠ .shutdownGate)
    (hquiet : stage.entered = true → w.shuttingDown = true ∧ w.readers = [])
    (hfinished : k ∈ w.started → stage.reads = true ∨ stage.finished = true)
    (hdone : ∀ l, stage.undone = some l → ∀ i ∈ w.registry, i ∉ l → w.Done i) :
    w.Advances (w.setStage k stage) :=
  h.settle
    { calls := rfl, instances := rfl, sessions := rfl, registry := rfl, started := rfl
      flag := fun hflag => ⟨hflag, id⟩
      others := fun k' hk' _ => hk'
      lease := hlease
      reads := fun h => by cases hreads.symm.trans h
      announced := fun h => absurd h hgate
      quiet := hquiet
      finished := hfinished
      done := hdone }

/-- A call returns before it has done anything. -/
theorem Sound.refuse (h : w.Sound) : w.Advances (w.setStage k (.returned ok)) :=
  h.stay rfl rfl nofun nofun (fun _ => .inr rfl) nofun

/-- A call that reads no longer. -/
theorem Sound.leave (h : w.Sound) (hlease : stage.lease = none)
    (hreads : stage.reads = false) (hgate : stage ≠ .shutdownGate)
    (hquiet : stage.entered = true → w.shuttingDown = true ∧ w.readers = [])
    (hfinished : stage.finished = true)
    (hdone : ∀ l, stage.undone = some l → ∀ i ∈ w.registry, i ∉ l → w.Done i) :
    w.Advances ((w.leave k).setStage k stage) :=
  h.settle
    { calls := rfl, instances := rfl, sessions := rfl, registry := rfl, started := rfl
      flag := fun hflag => ⟨hflag, fun hnone => congrArg (List.filter _) hnone⟩
      others := fun k' hk' hne => List.mem_filter.2 ⟨hk', decide_eq_true hne⟩
      lease := hlease
      reads := fun h => by cases hreads.symm.trans h
      announced := fun h => absurd h hgate
      quiet := fun h => ⟨(hquiet h).1, congrArg (List.filter _) (hquiet h).2⟩
      finished := fun _ => .inr hfinished
      done := hdone }

/-! ## A call that works on an instance -/

/-- A section of a call that has, takes or gives up the lease of an instance. -/
structure Works (w w' : PluginHost) (k i : Nat) (stage : Stage) (x : Instance) : Prop where
  calls : w'.calls = w.calls.insert k stage
  instances : w'.instances = w.instances.insert i x
  flag : w'.shuttingDown = w.shuttingDown
  gate : stage ≠ .shutdownGate
  /-- No one else has the lease. -/
  free : ∀ k' stage', k' ≠ k → w.calls k' = some stage' → stage'.lease ≠ some i
  others : ∀ k' ∈ w.readers, k' ≠ k → k' ∈ w'.readers
  reads : stage.reads = true → k ∈ w'.readers
  still : w.shuttingDown = true → w.readers = [] → w'.readers = []
  quiet : stage.entered = true → w'.shuttingDown = true ∧ w'.readers = []
  lease : ∀ j work mode, stage = .working j work mode →
    j = i ∧ (mode ≠ .admitted → work.isUnload = true) ∧ x.busy = true ∧
      ∀ session, work.knows = some session → x.session = session
  live : ∀ s y, w'.sessions s = some y → y.supervisor ≠ .ended →
    (y.owner = i ∧ x.session = some s) ∨
      (y.owner ≠ i ∧ ∃ y', w.sessions s = some y' ∧ y'.owner = y.owner ∧ y'.supervisor ≠ .ended)
  registry : ∀ j, j ∈ w'.registry ↔ j = i ∨ j ∈ w.registry
  started : ∀ k' ∈ w'.started, (k' ≠ k ∧ k' ∈ w.started) ∨
    (k' = k ∧ (stage.reads = true ∨ stage.finished = true))
  /-- When nothing is admitted, what is done stays so. -/
  kept : w.shuttingDown = true → w.readers = [] →
    (∀ j ∈ w'.registry, j ∈ w.registry) ∧ w'.started = w.started ∧
      (w.Done i → x.status = .stopped ∧ x.session = none)
  done : ∀ l, stage.undone = some l → (∀ j ∈ w.registry, j ≠ i → j ∉ l → w.Done j) ∧
    (i ∉ l → x.status = .stopped ∧ x.session = none)

theorem Works.instance_self (hs : Works w w' k i stage x) : w'.instances i = some x := by
  rw [hs.instances, PMap.insert_self]

theorem Works.instance_of_ne (hs : Works w w' k i stage x) (hj : j ≠ i) :
    w'.instances j = w.instances j := by
  rw [hs.instances, PMap.insert_of_ne hj]

theorem Works.sound (h : w.Sound) (hs : Works w w' k i stage x) : w'.Sound where
  reads k' stage' hk' hreads := by
    rw [hs.calls] at hk'
    rcases PMap.insert_cases hk' with ⟨rfl, rfl⟩ | ⟨hne, hk'⟩
    · exact hs.reads hreads
    · exact hs.others k' (h.reads k' stage' hk' hreads) hne
  announced k' hk' := by
    rw [hs.calls] at hk'
    rcases PMap.insert_cases hk' with ⟨rfl, hstage⟩ | ⟨hne, hk'⟩
    · exact absurd hstage.symm hs.gate
    · exact hs.flag.trans (h.announced k' hk')
  quiet k' stage' hk' hentered := by
    rw [hs.calls] at hk'
    rcases PMap.insert_cases hk' with ⟨rfl, rfl⟩ | ⟨hne, hk'⟩
    · exact hs.quiet hentered
    · obtain ⟨hshutting, hreaders⟩ := h.quiet k' stage' hk' hentered
      exact ⟨hs.flag.trans hshutting, hs.still hshutting hreaders⟩
  holds k' j work mode hk' := by
    rw [hs.calls] at hk'
    rcases PMap.insert_cases hk' with ⟨rfl, hstage⟩ | ⟨hne, hk'⟩
    · obtain ⟨rfl, hunload, hbusy, hknows⟩ := hs.lease j work mode hstage.symm
      exact ⟨hunload, x, hs.instance_self, hbusy, hknows⟩
    · have hj : j ≠ i := fun hj => hs.free k' _ hne hk' (congrArg some hj)
      rw [hs.instance_of_ne hj]
      exact h.holds k' j work mode hk'
  alone k' k'' stage' stage'' j hk' hk'' hl' hl'' := by
    have hown : ∀ j, stage.lease = some j → j = i := by
      intro j hj
      cases stage with
      | working j' work mode =>
        cases hj
        exact (hs.lease j work mode rfl).1
      | _ => cases hj
    rw [hs.calls] at hk' hk''
    rcases PMap.insert_cases hk' with ⟨rfl, rfl⟩ | ⟨hne, hold⟩
    · rcases PMap.insert_cases hk'' with ⟨rfl, rfl⟩ | ⟨hne', hold'⟩
      · rfl
      · exact absurd (hown j hl' ▸ hl'') (hs.free k'' stage'' hne' hold')
    · rcases PMap.insert_cases hk'' with ⟨rfl, rfl⟩ | ⟨hne', hold'⟩
      · exact absurd (hown j hl'' ▸ hl') (hs.free k' stage' hne hold)
      · exact h.alone k' k'' stage' stage'' j hold hold' hl' hl''
  live s y hy hended := by
    rcases hs.live s y hy hended with ⟨howner, hsession⟩ | ⟨howner, y', hy', heq, hended'⟩
    · exact ⟨x, howner ▸ hs.instance_self, hsession⟩
    · rw [hs.instance_of_ne howner, ← heq]
      exact h.live s y' hy' hended'
  registered j := by
    rw [hs.registry]
    by_cases hj : j = i
    · rw [hj, hs.instance_self]
      exact ⟨nofun, fun _ => .inl rfl⟩
    · rw [hs.instance_of_ne hj, ← h.registered]
      exact ⟨fun h => h.resolve_left hj, .inr⟩
  started k' hk' := by
    rw [hs.calls]
    rcases hs.started k' hk' with ⟨hne, hold⟩ | ⟨rfl, hover⟩
    · obtain ⟨stage', hstage, hrest⟩ := h.started k' hold
      exact ⟨stage', (PMap.insert_of_ne hne).trans hstage, hrest⟩
    · exact ⟨stage, PMap.insert_self, hover⟩
  done k' stage' l hk' hundone j hj hjl := by
    have hother : j ≠ i → w.Done j → w'.Done j := by
      intro hne hdone
      unfold Done at hdone ⊢
      rwa [hs.instance_of_ne hne]
    rw [hs.calls] at hk'
    rcases PMap.insert_cases hk' with ⟨rfl, rfl⟩ | ⟨hne, hk'⟩
    · obtain ⟨hrest, hself⟩ := hs.done l hundone
      by_cases hji : j = i
      · subst hji
        exact ⟨x, hs.instance_self, hself hjl⟩
      · exact hother hji (hrest j (((hs.registry j).1 hj).resolve_left hji) hji hjl)
    · obtain ⟨hshutting, hreaders⟩ := h.quiet k' stage' hk' (Stage.entered_of_undone hundone)
      obtain ⟨hold, -, hkept⟩ := hs.kept hshutting hreaders
      have hdone := h.done k' stage' l hk' hundone j (hold j hj) hjl
      by_cases hji : j = i
      · subst hji
        exact ⟨x, hs.instance_self, hkept hdone⟩
      · exact hother hji hdone

theorem Sound.work (h : w.Sound) (hs : Works w w' k i stage x) : w.Advances w' where
  sound := hs.sound h
  flag h := hs.flag.trans h
  quiet h hreaders := ⟨hs.still h hreaders, (hs.kept h hreaders).2.1⟩

/-! ## A supervisor or a connection -/

/-- A section of the task of a session, or of its connection. -/
structure Watches (w w' : PluginHost) (s i : Nat) : Prop where
  calls : w'.calls = w.calls
  flag : w'.shuttingDown = w.shuttingDown
  readers : w'.readers = w.readers
  registry : w'.registry = w.registry
  started : w'.started = w.started
  others : ∀ j, j ≠ i → w'.instances j = w.instances j
  own : ∀ x, w.instances i = some x → ∃ x', w'.instances i = some x' ∧ x'.busy = x.busy ∧
    x'.session = x.session ∧ (x'.status = x.status ∨ x.status = .starting ∨ x.session = some s)
  none_of_none : w.instances i = none → w'.instances i = none
  live : ∀ t y, w'.sessions t = some y → y.supervisor ≠ .ended →
    ∃ y', w.sessions t = some y' ∧ y'.owner = y.owner ∧ y'.supervisor ≠ .ended

theorem Watches.session (hs : Watches w w' s i) (hx : w.instances j = some x) :
    ∃ x', w'.instances j = some x' ∧ x'.busy = x.busy ∧ x'.session = x.session := by
  by_cases hj : j = i
  · subst hj
    obtain ⟨x', hx', hbusy, hsession, -⟩ := hs.own x hx
    exact ⟨x', hx', hbusy, hsession⟩
  · exact ⟨x, (hs.others j hj).trans hx, rfl, rfl⟩

theorem Watches.done (hs : Watches w w' s i) (h : w.Done j) : w'.Done j := by
  obtain ⟨x, hx, hstopped, hnone⟩ := h
  by_cases hj : j = i
  · subst hj
    obtain ⟨x', hx', -, hsession, hstatus⟩ := hs.own x hx
    refine ⟨x', hx', ?_, hsession.trans hnone⟩
    rcases hstatus with hstatus | hstarting | hsome
    · exact hstatus.trans hstopped
    · cases hstopped.symm.trans hstarting
    · cases hnone.symm.trans hsome
  · exact ⟨x, (hs.others j hj).trans hx, hstopped, hnone⟩

theorem Watches.sound (h : w.Sound) (hs : Watches w w' s i) : w'.Sound where
  reads := by
    rw [hs.calls, hs.readers]
    exact h.reads
  announced := by
    rw [hs.calls, hs.flag]
    exact h.announced
  quiet := by
    rw [hs.calls, hs.readers, hs.flag]
    exact h.quiet
  holds k j work mode hk := by
    rw [hs.calls] at hk
    obtain ⟨hunload, x, hx, hbusy, hknows⟩ := h.holds k j work mode hk
    obtain ⟨x', hx', hbusy', hsession⟩ := hs.session hx
    exact ⟨hunload, x', hx', hbusy'.trans hbusy,
      fun session hk => hsession.trans (hknows session hk)⟩
  alone := by
    rw [hs.calls]
    exact h.alone
  live t y hy hended := by
    obtain ⟨y', hy', howner, hended'⟩ := hs.live t y hy hended
    obtain ⟨x, hx, hsession⟩ := h.live t y' hy' hended'
    obtain ⟨x', hx', -, hsession'⟩ := hs.session hx
    exact ⟨x', howner ▸ hx', hsession'.trans hsession⟩
  registered j := by
    rw [hs.registry, h.registered]
    refine not_congr ⟨fun hnone => ?_, fun hnone => ?_⟩
    · by_cases hj : j = i
      · exact hj ▸ hs.none_of_none (hj ▸ hnone)
      · exact (hs.others j hj).trans hnone
    · by_contra hsome
      obtain ⟨x, hx⟩ := Option.ne_none_iff_exists'.1 hsome
      obtain ⟨x', hx', -⟩ := hs.session hx
      cases hnone.symm.trans hx'
  started := by
    rw [hs.started, hs.calls]
    exact h.started
  done k stage l hk hundone j hj hjl := by
    rw [hs.calls] at hk
    rw [hs.registry] at hj
    exact hs.done (h.done k stage l hk hundone j hj hjl)

theorem Sound.watch (h : w.Sound) (hs : Watches w w' s i) : w.Advances w' where
  sound := hs.sound h
  flag h := hs.flag.trans h
  quiet _ hreaders := ⟨hs.readers.trans hreaders, hs.started⟩

/-! ## The lease -/

section

variable (h : w.Sound)

include h

theorem Sound.free (hx : w.instances i = some x) (hbusy : ¬ x.busy = true) (stage : Stage)
    (hk : w.calls k = some stage) : stage.lease ≠ some i := by
  intro hi
  cases stage with
  | working j work mode =>
    cases hi
    obtain ⟨-, x', hx', hbusy', -⟩ := h.holds k i work mode hk
    cases hx.symm.trans hx'
    exact hbusy hbusy'
  | _ => cases hi

theorem Sound.free_of_lease {work : Work} (hk : w.calls k = some (.working i work mode)) (k' : Nat)
    (stage : Stage) (hne : k' ≠ k) (hk' : w.calls k' = some stage) : stage.lease ≠ some i :=
  fun hi => hne (h.alone k' k stage _ i hk' hk hi rfl)

theorem Sound.not_mem_started (hk : w.calls k = some stage) (hreads : stage.reads = false)
    (hover : stage.finished = false) : k ∉ w.started := by
  intro hmem
  obtain ⟨stage', hk', hor⟩ := h.started k hmem
  cases hk.symm.trans hk'
  rcases hor with hor | hor
  · cases hreads.symm.trans hor
  · cases hover.symm.trans hor

theorem Sound.not_called (hk : w.calls k = none) : k ∉ w.started := by
  intro hmem
  obtain ⟨stage', hk', -⟩ := h.started k hmem
  cases hk.symm.trans hk'

theorem Sound.live_own (hx : w.instances i = some x) : Work.Live i x w.sessions := by
  intro s y hy hended howner
  obtain ⟨x', hx', hsession⟩ := h.live s y hy hended
  cases hx.symm.trans (howner ▸ hx')
  exact hsession

/-- The sessions, when the session of the instance is as it was. -/
theorem Sound.live_works {sessions : PMap Nat Session} (hx : w.instances i = some x)
    (hsession : x'.session = x.session) (hs : Sessions.Same w.sessions sessions) (s : Nat)
    (y : Session) (hy : sessions s = some y) (hended : y.supervisor ≠ .ended) :
    (y.owner = i ∧ x'.session = some s) ∨
      (y.owner ≠ i ∧ ∃ y', w.sessions s = some y' ∧ y'.owner = y.owner ∧
        y'.supervisor ≠ .ended) := by
  obtain ⟨y', hy', howner, hsup⟩ := hs s y hy
  by_cases hi : y.owner = i
  · exact .inl ⟨hi, hsession.trans (h.live_own hx s y' hy' (hsup ▸ hended) (howner.trans hi))⟩
  · exact .inr ⟨hi, y', hy', howner, hsup ▸ hended⟩

omit h in
theorem Sound.done_iff (hx : w.instances i = some x) :
    w.Done i ↔ x.status = .stopped ∧ x.session = none := by
  constructor
  · rintro ⟨x', hx', hdone⟩
    cases hx.symm.trans hx'
    exact hdone
  · exact fun hdone => ⟨x, hx, hdone⟩

theorem Sound.mem_registry (hx : w.instances i = some x) (j : Nat) :
    j ∈ w.registry ↔ j = i ∨ j ∈ w.registry := by
  refine ⟨.inr, ?_⟩
  rintro (rfl | hj)
  · rw [h.registered, hx]
    exact nofun
  · exact hj

end

/-! ## The sections of a load and of a reload -/

theorem advances_enterLoad (h : w.Sound) : w.Advances (w.enterLoad k) := by
  unfold enterLoad
  split
  · exact h.refuse
  · next hflag =>
    exact h.settle
      { calls := rfl, instances := rfl, sessions := rfl, registry := rfl, started := rfl
        flag := fun h => absurd h hflag
        others := fun k' hk' _ => List.mem_cons_of_mem _ hk'
        lease := rfl
        reads := fun _ => List.mem_cons_self
        announced := nofun
        quiet := nofun
        finished := fun _ => .inl rfl
        done := fun l h => by cases h }

theorem advances_insert (h : w.Sound) (hk : w.calls k = some .loadPrepare)
    (hi : w.instances i = none) : w.Advances (w.insert k i) := by
  have hreader : k ∈ w.readers := h.reads k _ hk rfl
  refine @Sound.work w _ k i (.working i .services .admitted) _ h
    { calls := rfl, instances := rfl, flag := rfl, gate := nofun
      free := ?_
      others := fun k' hk' _ => hk'
      reads := fun _ => hreader
      still := fun _ h => h
      quiet := nofun
      lease := ?_
      live := ?_
      registry := fun j => (List.perm_orderedInsert _ i w.registry).mem_iff.trans List.mem_cons
      started := ?_
      kept := fun _ hnone => by
        rw [hnone] at hreader
        cases hreader
      done := fun l h => by cases h }
  · intro k' stage' _ hk' hlease
    cases stage' with
    | working j work mode =>
      cases hlease
      obtain ⟨-, x, hx, -⟩ := h.holds k' i work mode hk'
      cases hi.symm.trans hx
    | _ => cases hlease
  · intro j work mode hstage
    cases hstage
    exact ⟨rfl, (fun h => absurd rfl h), rfl, fun session h => Option.some.inj h⟩
  · intro s y hy hended
    refine .inr ⟨fun howner => ?_, y, hy, rfl, hended⟩
    obtain ⟨x, hx, -⟩ := h.live s y hy hended
    cases hi.symm.trans (howner ▸ hx)
  · intro k' hk'
    by_cases hkk : k' = k
    · exact .inr ⟨hkk, .inl rfl⟩
    · exact .inl ⟨hkk, hk'⟩

theorem advances_enterReload {force : Bool} (h : w.Sound) :
    w.Advances (w.enterReload k i force) := by
  unfold enterReload
  split
  · exact h.refuse
  next hflag =>
    split
    · exact h.refuse
    next x hx =>
      split
      · exact h.refuse
      next hbusy =>
        refine @Sound.work w _ k i (.working i (.prepare x.session x.status force) .admitted)
          { x with busy := true } h
          { calls := rfl, instances := rfl, flag := rfl, gate := nofun
            free := fun _ stage _ => h.free hx (fun hb => hbusy (.inl hb)) stage
            others := fun k' hk' _ => List.mem_cons_of_mem _ hk'
            reads := fun _ => List.mem_cons_self
            still := fun h => absurd h hflag
            quiet := nofun
            lease := ?_
            live := h.live_works hx rfl .refl
            registry := h.mem_registry hx
            started := ?_
            kept := fun h => absurd h hflag
            done := fun l h => by cases h }
        · intro j work mode hstage
          cases hstage
          exact ⟨rfl, (fun h => absurd rfl h), rfl, fun session h => Option.some.inj h⟩
        · intro k' hk'
          by_cases hkk : k' = k
          · exact .inr ⟨hkk, .inl rfl⟩
          · exact .inl ⟨hkk, hk'⟩

/-! ## The sections of `unload` -/

section

variable (h : w.Sound) (hk : w.calls k = some stage) (hstage : stage.Unloads i mode)

include h hk hstage

/-- An `unload` that does not come to its first await. -/
theorem Sound.skip (hok : ok = true → i ∉ w.registry) : w.Advances (w.conclude k ok mode) := by
  cases hstage with
  | alone => exact h.refuse
  | shutdown rest first =>
    have hnot := h.not_mem_started hk rfl rfl
    refine h.stay rfl rfl nofun (fun _ => h.quiet k _ hk rfl)
      (fun h => absurd h hnot) fun l hl j hj hjl => ?_
    cases first with
    | true => cases hl
    | false =>
      cases ok with
      | false => cases hl
      | true =>
        cases hl
        refine h.done k _ (i :: rest) hk rfl j hj fun hmem => ?_
        rcases List.mem_cons.1 hmem with rfl | hmem
        · exact hok rfl hj
        · exact hjl hmem

/-- The first section of an `unload` that takes the lease. -/
theorem Sound.take {unloading : Unloading} {sessions : PMap Nat Session}
    (hx : w.instances i = some x) (hbusy : ¬ x.busy = true) (hbusy' : x'.busy = true)
    (hsession : x'.session = x.session) (hs : Sessions.Same w.sessions sessions)
    (hknows : (Work.unload unloading false).knows = some x.session)
    (hkept : x.session = none → x'.status = x.status) :
    w.Advances (({ w with sessions }.setInstance i x').setStage k
      (.working i (.unload unloading false) mode)) := by
  have hquiet : (Stage.working i (.unload unloading false) mode).entered = true →
      w.shuttingDown = true ∧ w.readers = [] := by
    intro hentered
    cases hstage with
    | alone => cases hentered
    | shutdown rest first => exact h.quiet k _ hk rfl
  refine @Sound.work w _ k i (.working i (.unload unloading false) mode) x' h
    { calls := rfl, instances := rfl, flag := rfl, gate := nofun
      free := fun _ stage _ => h.free hx hbusy stage
      others := fun k' hk' _ => hk'
      reads := fun hreads => by
        cases hstage with
        | alone => cases hreads
        | shutdown rest first => cases hreads
      still := fun _ h => h
      quiet := hquiet
      lease := ?_
      live := h.live_works hx hsession hs
      registry := h.mem_registry hx
      started := ?_
      kept := fun _ _ => ⟨fun j hj => hj, rfl, fun hdone => ?_⟩
      done := ?_ }
  · intro j work mode' hstage
    cases hstage
    refine ⟨rfl, fun _ => rfl, hbusy', fun session h => ?_⟩
    exact hsession.trans (Option.some.inj (hknows.symm.trans h))
  · intro k' hk'
    refine .inl ⟨fun hkk => ?_, hk'⟩
    cases hstage with
    | alone | shutdown rest first => exact h.not_mem_started hk rfl rfl (hkk ▸ hk')
  · obtain ⟨hstopped, hnone⟩ := (Sound.done_iff hx).1 hdone
    exact ⟨(hkept hnone).trans hstopped, hsession.trans hnone⟩
  · intro l hl
    cases hstage with
    | alone => cases hl
    | shutdown rest first =>
      cases first with
      | true => cases hl
      | false =>
        cases hl
        refine ⟨fun j hj _ hjl => h.done k _ _ hk rfl j hj hjl, fun hi => ?_⟩
        exact absurd List.mem_cons_self hi

theorem advances_beginUnload : w.Advances (w.beginUnload k i mode) := by
  unfold beginUnload
  split
  next hnone => exact h.skip hk hstage fun _ hi => (h.registered i).1 hi hnone
  next x hx =>
    split
    · exact h.skip hk hstage nofun
    next hbusy =>
      split
      next hsession =>
        exact h.take hk hstage hx hbusy rfl rfl .refl (congrArg some hsession.symm) fun _ => rfl
      next s hsession =>
        have hknows : ∀ session, x.session = session → some (some s) = some session := by
          intro session h
          rw [← h, hsession]
        split
        · exact h.take hk hstage hx hbusy rfl rfl (Sessions.same_ask s) (hknows _ rfl) fun _ => rfl
        · exact h.take hk hstage hx hbusy rfl rfl .refl (hknows _ rfl)
            fun hnone => by cases hsession.symm.trans hnone

end

/-! ## An operation goes on -/

theorem Sound.admitted_of_started {work : Work} (h : w.Sound)
    (hk : w.calls k = some (.working i work mode)) (hmem : k ∈ w.started) : mode = .admitted := by
  obtain ⟨stage, hk', hor⟩ := h.started k hmem
  cases hk.symm.trans hk'
  rcases hor with hor | hor
  · cases mode with
    | admitted => rfl
    | alone => cases hor
    | shutdown rest first => cases hor
  · cases hor

/-- When nothing is admitted, an operation is an `unload`. -/
theorem Sound.unload_of_quiet {work : Work} (h : w.Sound)
    (hk : w.calls k = some (.working i work mode)) (hreaders : w.readers = []) :
    work.isUnload = true := by
  refine (h.holds k i work mode hk).1 fun hmode => ?_
  subst hmode
  have hmem := h.reads k _ hk rfl
  rw [hreaders] at hmem
  cases hmem

theorem live_keeps {work : Work} (hr : Work.Keeps i x w.sessions work r)
    (hx' : x'.session = r.state.session) (s : Nat) (y : Session) (hy : r.sessions s = some y)
    (hended : y.supervisor ≠ .ended) :
    (y.owner = i ∧ x'.session = some s) ∨
      (y.owner ≠ i ∧ ∃ y', w.sessions s = some y' ∧ y'.owner = y.owner ∧
        y'.supervisor ≠ .ended) := by
  by_cases hi : y.owner = i
  · exact .inl ⟨hi, hx'.trans (hr.live s y hy hended hi)⟩
  · obtain ⟨y', hy', howner, hsup⟩ := hr.others s y hy hi
    exact .inr ⟨hi, y', hy', howner, hsup ▸ hended⟩

theorem conclude_eq (k : Nat) (ok : Bool) (mode : Mode) :
    ∃ writer, w.conclude k ok mode =
      { w with
        readers := if mode = .admitted then w.readers.filter (· ≠ k) else w.readers
        writer
        calls := w.calls.insert k (mode.after ok) } := by
  cases mode with
  | admitted | alone | shutdown rest first => exact ⟨_, rfl⟩

variable {fresh : Nat} {answer : Answer} {moves : List Move}

theorem Sound.goOn {work work' : Work} (h : w.Sound)
    (hk : w.calls k = some (.working i work mode)) (hx : w.instances i = some x)
    (hbusy : x.busy = true) (hr : Work.Keeps i x w.sessions work r) (hnext : r.next = .inl work') :
    w.Advances (({ w with
        sessions := r.sessions
        fresh
        started := if r.spawns then k :: w.started else w.started }.setInstance i r.state).setStage
      k (.working i work' mode)) := by
  have hmode := (h.holds k i work mode hk).1
  have hspawns : r.spawns = true → mode = .admitted := by
    intro hs
    by_contra hne
    cases (hr.spawns hs).1.symm.trans (hmode hne)
  refine @Sound.work w _ k i (.working i work' mode) r.state h
    { calls := rfl, instances := rfl, flag := rfl, gate := nofun
      free := h.free_of_lease hk
      others := fun k' hk' _ => hk'
      reads := ?_
      still := fun _ h => h
      quiet := ?_
      lease := ?_
      live := live_keeps hr rfl
      registry := h.mem_registry hx
      started := ?_
      kept := fun _ hreaders => ⟨fun j hj => hj, if_neg fun hs => ?_, fun hdone => ?_⟩
      done := ?_ }
  · intro hreads
    cases mode with
    | admitted => exact h.reads k _ hk rfl
    | alone => cases hreads
    | shutdown rest first => cases hreads
  · intro hentered
    cases mode with
    | admitted => cases hentered
    | alone => cases hentered
    | shutdown rest first => exact h.quiet k _ hk rfl
  · intro j work'' mode' hstage
    cases hstage
    exact ⟨rfl, fun hne => hr.unloads (hmode hne) work' hnext, hr.busy.trans hbusy,
      hr.knows work' hnext⟩
  · intro k' hk'
    by_cases hkk : k' = k
    · subst hkk
      have hadmitted : mode = .admitted := by
        by_cases hs : r.spawns = true
        · exact hspawns hs
        · rw [if_neg hs] at hk'
          exact h.admitted_of_started hk hk'
      subst hadmitted
      exact .inr ⟨rfl, .inl rfl⟩
    · refine .inl ⟨hkk, ?_⟩
      split at hk'
      · exact (List.mem_cons.1 hk').resolve_left hkk
      · exact hk'
  · cases (hr.spawns hs).1.symm.trans (h.unload_of_quiet hk hreaders)
  · exact hr.stopped (h.unload_of_quiet hk hreaders) (.inl ((Sound.done_iff hx).1 hdone))
  · intro l hl
    cases mode with
    | admitted => cases hl
    | alone => cases hl
    | shutdown rest first =>
      cases first with
      | true => cases hl
      | false =>
        cases hl
        exact ⟨fun j hj _ hjl => h.done k _ _ hk rfl j hj hjl,
          fun hi => absurd List.mem_cons_self hi⟩

theorem Sound.finish {work : Work} (h : w.Sound) (hk : w.calls k = some (.working i work mode))
    (hx : w.instances i = some x) (hr : Work.Keeps i x w.sessions work r)
    (hnext : r.next = .inr ok) :
    w.Advances (({ w with
        sessions := r.sessions
        fresh
        started := if r.spawns then k :: w.started else w.started }.setInstance i
          { r.state with busy := false }).conclude k ok mode) := by
  have hspawns : ¬ r.spawns = true := by
    intro hs
    obtain ⟨-, work', hwork⟩ := hr.spawns hs
    cases hnext.symm.trans hwork
  obtain ⟨writer, hc⟩ := conclude_eq (w := { w with
    sessions := r.sessions
    fresh
    started := if r.spawns then k :: w.started else w.started }.setInstance i
      { r.state with busy := false }) k ok mode
  rw [hc]
  refine @Sound.work w _ k i (mode.after ok) { r.state with busy := false } h
    { calls := rfl, instances := rfl, flag := rfl
      gate := ?_
      free := h.free_of_lease hk
      others := ?_
      reads := ?_
      still := ?_
      quiet := ?_
      lease := ?_
      live := live_keeps hr rfl
      registry := h.mem_registry hx
      started := ?_
      kept := fun _ hreaders => ⟨fun j hj => hj, if_neg hspawns, fun hdone => ?_⟩
      done := ?_ }
  · cases mode <;> exact nofun
  · intro k' hk' hne
    show k' ∈ if _ then _ else _
    split
    · exact List.mem_filter.2 ⟨hk', decide_eq_true hne⟩
    · exact hk'
  · intro hreads
    cases mode <;> cases hreads
  · intro _ hreaders
    show (if _ then _ else _) = _
    split
    · exact congrArg (List.filter _) hreaders
    · exact hreaders
  · intro hentered
    cases mode with
    | admitted => cases hentered
    | alone => cases hentered
    | shutdown rest first => exact h.quiet k _ hk rfl
  · intro j work' mode' hstage
    cases mode <;> cases hstage
  · intro k' hk'
    rw [if_neg hspawns] at hk'
    by_cases hkk : k' = k
    · subst hkk
      cases h.admitted_of_started hk hk'
      exact .inr ⟨rfl, .inr rfl⟩
    · exact .inl ⟨hkk, hk'⟩
  · exact hr.stopped (h.unload_of_quiet hk hreaders) (.inl ((Sound.done_iff hx).1 hdone))
  · intro l hl
    cases mode with
    | admitted => cases hl
    | alone => cases hl
    | shutdown rest first =>
      cases first with
      | true => cases hl
      | false =>
        cases ok with
        | false => cases hl
        | true =>
          cases hl
          have hunload := (h.holds k i work _ hk).1 nofun
          refine ⟨fun j hj hji hjl => ?_, fun _ => hr.stopped hunload (.inr ⟨_, hnext⟩)⟩
          refine h.done k _ _ hk rfl j hj fun hmem => ?_
          exact (List.mem_cons.1 hmem).elim hji hjl

theorem advances_work {work : Work} (h : w.Sound) (hk : w.calls k = some (.working i work mode))
    (hw : w.work k i work mode answer = some w') : w.Advances w' := by
  obtain ⟨-, x, hx, hbusy, hknows⟩ := h.holds k i work mode hk
  unfold PluginHost.work at hw
  rw [hx] at hw
  simp only at hw
  split at hw
  next => cases hw
  next r hr =>
    have hkeeps := Work.keeps_step (h.live_own hx) hknows hr
    split at hw
    next work' hnext =>
      cases hw
      exact h.goOn hk hx hbusy hkeeps hnext
    next ok hnext =>
      cases hw
      exact h.finish hk hx hkeeps hnext

/-! ## A call goes on -/

theorem advances_run (h : w.Sound) (hr : w.run k i answer = some w') : w.Advances w' := by
  unfold run at hr
  split at hr
  next hk =>
    split at hr
    · cases hr
      exact advances_enterLoad h
    · cases hr
  next hk =>
    split at hr
    · split at hr
      next hi =>
        cases hr
        exact advances_insert h hk hi
      next => cases hr
    · cases hr
      exact h.leave rfl rfl (fun h => by cases h) (fun h => by cases h) rfl fun l h => by cases h
  next hk =>
    split at hr
    · cases hr
      exact advances_enterReload h
    · cases hr
  next hk =>
    cases hr
    exact advances_beginUnload h hk .alone
  next hk =>
    have hnot := h.not_mem_started hk rfl rfl
    split at hr
    next hgate =>
      cases hr
      exact h.settle
        { calls := rfl, instances := rfl, sessions := rfl, registry := rfl, started := rfl
          flag := fun hflag => ⟨hflag, id⟩
          others := fun k' hk' _ => hk'
          lease := rfl
          reads := nofun
          announced := nofun
          quiet := fun _ => ⟨h.announced k hk, hgate.2⟩
          finished := fun h => absurd h hnot
          done := fun l h j hj hjl => by
            cases h
            exact absurd hj hjl }
    next => cases hr
  next hk => exact advances_work h hk hr
  next hk =>
    cases hr
    exact advances_beginUnload h hk (.shutdown _ _)
  next first hk =>
    have hnot := h.not_mem_started hk rfl rfl
    cases hr
    refine h.stay rfl rfl nofun (fun _ => h.quiet k _ hk rfl)
      (fun h => absurd h hnot) fun l hl => ?_
    cases first with
    | true => cases hl
    | false => exact h.done k _ l hk hl
  next first hk =>
    cases hr
    refine h.leave rfl rfl nofun (fun _ => h.quiet k _ hk rfl) rfl fun l hl => ?_
    cases first with
    | true => cases hl
    | false =>
      cases hok : decide (answer = .ok) with
      | false =>
        rw [hok] at hl
        cases hl
      | true =>
        rw [hok] at hl
        exact h.done k _ l hk hl
  next => cases hr

theorem advances_drop (h : w.Sound) (hd : w.drop k = some w') : w.Advances w' := by
  unfold drop at hd
  split at hd
  next => cases hd
  next => cases hd
  next => cases hd
  next => cases hd
  next i work mode hk =>
    split at hd
    next => cases hd
    next x hx =>
      cases hd
      refine @Sound.work w _ k i .dropped { x with busy := false } h
        { calls := rfl, instances := rfl, flag := rfl, gate := nofun
          free := h.free_of_lease hk
          others := fun k' hk' hne => List.mem_filter.2 ⟨hk', decide_eq_true hne⟩
          reads := nofun
          still := fun _ hnone => congrArg (List.filter _) hnone
          quiet := nofun
          lease := nofun
          live := h.live_works hx rfl .refl
          registry := h.mem_registry hx
          started := fun k' hk' => ?_
          kept := fun _ _ => ⟨fun j hj => hj, rfl, (Sound.done_iff hx).1⟩
          done := fun l h => by cases h }
      by_cases hkk : k' = k
      · exact .inr ⟨hkk, .inr rfl⟩
      · exact .inl ⟨hkk, hk'⟩
  next =>
    cases hd
    exact h.leave rfl rfl (fun h => by cases h) (fun h => by cases h) rfl fun l h => by cases h

/-! ## A supervisor goes on -/

/-- A section that changes a session only, and not its owner. -/
theorem watches_session {y' : Session} (hy : w.sessions s = some y) (howner : y'.owner = y.owner)
    (hended : y'.supervisor ≠ .ended → y.supervisor ≠ .ended) :
    Watches w (w.setSession s y') s y.owner where
  calls := rfl
  flag := rfl
  readers := rfl
  registry := rfl
  started := rfl
  others _ _ := rfl
  own x hx := ⟨x, hx, rfl, rfl, .inl rfl⟩
  none_of_none h := h
  live t z hz hz' := by
    rcases PMap.insert_cases hz with ⟨rfl, rfl⟩ | ⟨-, hz⟩
    · exact ⟨y, hy, howner.symm, hended hz'⟩
    · exact ⟨z, hz, rfl, hz'⟩

theorem advances_finish {stopped : Bool} (h : w.Sound) (hy : w.sessions s = some y)
    (hsup : y.supervisor ≠ .ended) (hf : w.finish s y stopped = some w') : w.Advances w' := by
  have hended : Watches w (w.setSession s { y with supervisor := .ended }) s y.owner :=
    watches_session hy rfl fun h => absurd rfl h
  obtain ⟨x, hx, hsession⟩ := h.live s y hy hsup
  unfold PluginHost.finish at hf
  rw [hx] at hf
  obtain rfl := Option.some.inj hf
  split
  · refine h.watch (s := s) (i := y.owner)
      { hended with
        others := fun j hj => PMap.insert_of_ne hj
        own := ?_
        none_of_none := fun hnone => by cases hx.symm.trans hnone }
    intro x' hx'
    cases hx.symm.trans hx'
    exact ⟨_, PMap.insert_self, rfl, rfl, .inr (.inr hsession)⟩
  · exact h.watch hended

theorem advances_supervise {m : Move} (h : w.Sound) (hy : w.sessions s = some y)
    (hs : w.supervise s y m = some w') : w.Advances w' := by
  have hrunning : y.supervisor = .running → y.supervisor ≠ .ended :=
    fun hrun h => by cases hrun.symm.trans h
  unfold supervise at hs
  split at hs
  · split at hs
    next hrun =>
      cases hs
      exact h.watch (watches_session hy rfl fun _ => hrunning hrun.1)
    next => cases hs
  · split at hs
    next hrun =>
      cases hs
      exact h.watch (watches_session hy rfl fun _ => hrunning hrun)
    next => cases hs
  · split at hs
    next hrun =>
      cases hs
      exact h.watch (watches_session hy rfl fun _ => hrunning hrun.1)
    next => cases hs
  · split at hs
    next hsup =>
      cases hs
      exact h.watch (watches_session hy rfl fun _ h => by cases hsup.symm.trans h)
    next => cases hs
  · split at hs
    next hsup => exact advances_finish h hy (fun h => by cases hsup.symm.trans h) hs
    next => cases hs
  · cases hs

theorem advances_respond (h : w.Sound) (hr : w.respond s = some w') : w.Advances w' := by
  unfold respond at hr
  split at hr
  next => cases hr
  next y hy =>
    split at hr
    next => cases hr
    next x hx =>
      split at hr
      next => cases hr
      next hguard =>
        cases hr
        have hstarting : x.status = .starting := by
          by_contra hne
          exact hguard (.inr (.inl hne))
        refine h.watch (s := s) (i := y.owner)
          { calls := rfl, flag := rfl, readers := rfl, registry := rfl, started := rfl
            others := fun j hj => PMap.insert_of_ne hj
            own := ?_
            none_of_none := fun hnone => by cases hx.symm.trans hnone
            live := fun t z hz hended => ⟨z, hz, rfl, hended⟩ }
        intro x' hx'
        cases hx.symm.trans hx'
        exact ⟨_, PMap.insert_self, rfl, rfl, .inr (.inl hstarting)⟩

/-! ## Any section -/

theorem advances_call {shuttingDown : Bool} (h : w.Sound)
    (hflag : w.shuttingDown = true → shuttingDown = true) (hlease : stage.lease = none)
    (hreads : stage.reads = false) (hentered : stage.entered = false)
    (hannounced : stage = .shutdownGate → shuttingDown = true)
    (hc : { w with shuttingDown }.call k stage = some w') : w.Advances w' := by
  unfold call at hc
  split at hc
  next hk =>
    cases hc
    exact h.settle
      { calls := rfl, instances := rfl, sessions := rfl, registry := rfl, started := rfl
        flag := fun h => ⟨hflag h, id⟩
        others := fun k' hk' _ => hk'
        lease := hlease
        reads := fun h => by cases hreads.symm.trans h
        announced := hannounced
        quiet := fun h => by cases hentered.symm.trans h
        finished := fun hmem => absurd hmem (h.not_called hk)
        done := fun l hl => by cases hentered.symm.trans (Stage.entered_of_undone hl) }
  next => cases hc

theorem advances_step (h : w.Sound) (hstep : w.Step w') : w.Advances w' := by
  obtain ⟨m, hm⟩ := hstep
  have hsession : ∀ s, (w.sessions s).bind (fun y => w.supervise s y m) = some w' →
      w.Advances w' := by
    intro s hs
    obtain ⟨y, hy, hs⟩ := Option.bind_eq_some_iff.1 hs
    exact advances_supervise h hy hs
  cases m with
  | load k | reload k i force | unload k i => exact advances_call h id rfl rfl rfl (fun h => by cases h) hm
  | shutdown k => exact advances_call h (fun _ => rfl) rfl rfl rfl (fun _ => rfl) hm
  | run k i answer => exact advances_run h hm
  | drop k => exact advances_drop h hm
  | respond s => exact advances_respond h hm
  | close s =>
    obtain ⟨y, hy, hw⟩ := Option.map_eq_some_iff.1 hm
    subst hw
    exact h.watch (watches_session hy rfl id)
  | command s | exit s | lost s | reap s | finish s => exact hsession s hm

theorem sound_of_reachable (h : Reachable (· = new) Step w) : w.Sound := by
  refine h.invariant (I := Sound) ?_ fun _ _ h hstep => (advances_step h hstep).sound
  rintro _ rfl
  exact sound_new

/-! ## Shutdown -/

/-- When nothing is admitted, no run starts a process. -/
theorem started_of_run (h : w.Sound) (hflag : w.shuttingDown = true) (hreaders : w.readers = [])
    (hrun : Relation.ReflTransGen Step w w') : w'.started = w.started := by
  suffices hall : w'.Sound ∧ w'.shuttingDown = true ∧ w'.readers = [] ∧ w'.started = w.started from
    hall.2.2.2
  induction hrun with
  | refl => exact ⟨h, hflag, hreaders, rfl⟩
  | tail _ hstep ih =>
    obtain ⟨hsound, hflag, hreaders, hstarted⟩ := ih
    have hnext := advances_step hsound hstep
    obtain ⟨hreaders', hstarted'⟩ := hnext.quiet hflag hreaders
    exact ⟨hnext.sound, hnext.flag hflag, hreaders', hstarted'.trans hstarted⟩

/-- When no instance has a session, every supervisor has ended. -/
theorem Sound.ended (h : w.Sound) (hdone : ∀ i ∈ w.registry, w.Done i)
    (hy : w.sessions s = some y) : y.supervisor = .ended := by
  by_contra hended
  obtain ⟨x, hx, hsession⟩ := h.live s y hy hended
  have hmem : y.owner ∈ w.registry := (h.registered _).2 fun hnone => by cases hx.symm.trans hnone
  cases hsession.symm.trans ((Sound.done_iff hx).1 (hdone _ hmem)).2

/-- Once a shutdown has entered the gate, every call that has started a process is over, and none
is started any more.  When it has returned without an error, every instance is stopped, has no
session, and the supervisors have ended. -/
theorem shutdown_complete (h : Reachable (· = new) Step w) :
    (∀ k stage, w.calls k = some stage → stage.entered = true →
      (∀ k' ∈ w.started, ∃ stage', w.calls k' = some stage' ∧ stage'.finished = true) ∧
      ∀ w', Relation.ReflTransGen Step w w' → w'.started = w.started) ∧
    ∀ k, w.calls k = some (.shutDown true) →
      (∀ i ∈ w.registry, w.Done i) ∧
      ∀ s y, w.sessions s = some y → y.supervisor = .ended := by
  have hsound := sound_of_reachable h
  refine ⟨fun k stage hk hentered => ?_, fun k hk => ?_⟩
  · obtain ⟨hflag, hreaders⟩ := hsound.quiet k stage hk hentered
    refine ⟨fun k' hk' => ?_, fun w' => started_of_run hsound hflag hreaders⟩
    obtain ⟨stage', hstage', hreads | hover⟩ := hsound.started k' hk'
    · have hmem := hsound.reads k' stage' hstage' hreads
      rw [hreaders] at hmem
      cases hmem
    · exact ⟨stage', hstage', hover⟩
  · have hdone : ∀ i ∈ w.registry, w.Done i :=
      fun i hi => hsound.done k _ [] hk rfl i hi List.not_mem_nil
    exact ⟨hdone, fun s y hy => hsound.ended hdone hy⟩

theorem run_performAll (h : w.performAll moves = some w') : Relation.ReflTransGen Step w w' :=
  steps_of_all h (fun _ => rfl) (fun _ _ _ => rfl) fun m _ _ _ h => ⟨m, h⟩

theorem reachable_performAll (h : new.performAll moves = some w) :
    Reachable (· = new) Step w := ⟨new, rfl, run_performAll h⟩

/-- A plugin is loaded, and shut down while a reload waits for the gate. -/
def loadAndShutdown : List Move :=
  [.load 0, .run 0 0 .ok, .run 0 5 .ok, .run 0 0 .ok, .run 0 0 .ok, .run 0 0 .ok, .respond 0,
    .run 0 0 .ok, .reload 2 5 false, .shutdown 1, .run 2 0 .ok, .run 1 0 .ok, .run 1 0 .ok,
    .run 1 0 .ok, .run 1 0 .ok, .command 0, .reap 0, .finish 0, .run 1 0 .ok, .run 1 0 .ok,
    .run 1 0 .ok, .run 1 0 .ok]

theorem loadAndShutdown_complete : ∃ w, new.performAll loadAndShutdown = some w ∧
    w.registry = [5] ∧ w.Done 5 ∧ w.started = [0] ∧
    (∃ stage, w.calls 0 = some stage ∧ stage.finished = true) ∧
    ∀ w', Relation.ReflTransGen Step w w' → w'.started = [0] := by
  have hrun : ((new.performAll loadAndShutdown).any fun w => w.calls 1 = some (.shutDown true) ∧
      w.registry = [5] ∧ w.started = [0]) = true := by decide
  obtain ⟨w, hw, hend⟩ := (Option.any_eq_true _ _).1 hrun
  obtain ⟨hstage, hregistry, hstarted⟩ := of_decide_eq_true hend
  obtain ⟨hentered, hreturned⟩ := shutdown_complete (reachable_performAll hw)
  obtain ⟨hover, hnone⟩ := hentered 1 _ hstage rfl
  refine ⟨w, hw, hregistry, ?_, hstarted, hover 0 ?_, fun w' hrun => ?_⟩
  · exact (hreturned 1 hstage).1 5 (hregistry ▸ List.mem_singleton_self 5)
  · exact hstarted ▸ List.mem_singleton_self 0
  · exact (hnone w' hrun).trans hstarted

end PluginHost

end NapiVm.Plugin
