import NapiVm.Module.Going

/-!
# Module evaluation never gets stuck

Every regular move keeps the invariant of the calls under way, so at a point where no call
is under way, no job is queued and no body waits, everything that was asked for is
evaluated: of the guards that still wait, the first would wait for nothing.

* `Vm.Regular` — moves that meet no namespace with a `then`, no other call's loop, no
  failure and no limit.
* `Vm.going_of_regularRuns` — the invariant along a run.
* `Vm.evaluation_completes` — quiescence means that everything reachable is evaluated.
-/

namespace NapiVm.Modules

open Promises EventLoop List

namespace Vm

variable {vm vm' : Vm} {l : List Activation}

/-! ## Asynchronous calls -/

/-- The cycle roots change, and nothing else. -/
theorem kept_recordAsyncCycle (h : vm.Lively (callsOf l) fun _ => 0) (path : List Nat)
    (dependency : Nat) :
    Kept vm (callsOf l).walks
      { vm with records := vm.records.recordAsyncCycle path dependency } (callsOf l)
      fun _ => 0 := by
  have hmap : ∀ {α : Type} (f : LinkedModule → α), (∀ record root, f { record with
      cycleRoot := root } = f record) → ∀ n,
      (vm.records.recordAsyncCycle path dependency n).map f = (vm.records n).map f := by
    intro α f hf n
    simp only [Records.recordAsyncCycle, Records.joinCycle, Option.map_map]
    congr 1
    funext record
    simp only [Function.comp_apply]
    split
    · exact hf record _
    · rfl
  refine .records h ?_ ?_ (fun n => ?_) rfl rfl rfl rfl rfl
  · funext n
    exact hmap (fun record => (record.state, record.evaluation)) (fun _ _ => rfl) n
  · funext n
    exact hmap LinkedModule.requests (fun _ _ => rfl) n
  · simp only [started, hmap LinkedModule.started (fun _ _ => rfl) n, Nat.le_refl]

variable {outer : Option Deferred} {caller : Caller} {frames : List SyncFrame}
  {control : SyncControl}

theorem Going.loopAsync {frame : AsyncFrame} {frames : List AsyncFrame}
    (h : vm.Going (.async (frame :: frames) outer .loop caller :: l))
    (hleft : ¬ (callsOf (.async frames outer .loop caller :: l)).walks frame.id) (read : ThenRead) :
    (vm.loopAsync frame frames read).1.Going
      ([.async (vm.loopAsync frame frames read).2.1 outer
        (vm.loopAsync frame frames read).2.2 caller] ++ l) := by
  have k := Kept.refl h.lively
  unfold Vm.loopAsync
  split
  · rename_i hrest
    exact h.leaveLoop hrest hleft read
  · rename_i dependency rest hrest
    refine h.reframe k rfl rfl (fun _ hq => .inl hq) (.inl rfl) (.inl rfl) (fun _ hn => .inl hn)
      fun n hn => .inr (.inl ?_)
    rw [hrest] at hn
    simpa using hn
  · rename_i dependency rest hrest
    refine h.reframe k rfl rfl (fun _ hq => .inl hq) (.inl rfl) (.inl rfl) (fun _ hn => .inl hn)
      fun n hn => .inr (.inl ?_)
    rw [hrest] at hn
    exact mem_append_right _ (by simpa using hn)
  · rename_i dependency rest hrest
    have hcases : ∀ n, (n, ImportPhase.evaluation) ∈ frame.rest →
        n = dependency ∨ (n, ImportPhase.evaluation) ∈ rest := by
      intro n hn
      rw [hrest] at hn
      simpa using hn
    obtain ⟨hframes, -, -, -⟩ := h.orderly _ mem_cons_self
    have hancestors : ∀ n, n ∈ ancestors (frame :: frames) ↔
        ∃ other ∈ frame :: frames, other.id = n := by
      intro n
      simp only [ancestors, mem_reverse, mem_map]
    split
    · -- a back edge
      rename_i hback
      refine h.reframe (kept_recordAsyncCycle h.lively _ _) rfl rfl (fun _ hq => .inl hq) (.inl rfl)
        (.inl rfl) (fun _ hn => .inl hn) fun n hn => ?_
      rcases hcases n hn with rfl | hn
      · obtain ⟨other, hother, rfl⟩ := (hancestors _).1 hback
        refine .inl ?_
        exact (kept_recordAsyncCycle h.lively _ _).grows.visits _
          (visited_of_owns (hframes other hother).1)
      · exact .inr (.inl hn)
    · rename_i hback
      split
      · rename_i hscheduled
        refine h.reframe k rfl rfl (fun _ hq => .inl hq) (.inl rfl) (.inl rfl)
          (fun _ hn => .inl hn) fun n hn => ?_
        rcases hcases n hn with rfl | hn
        · rcases (hframes frame mem_cons_self).2.2 n hscheduled with hv | heq
          · exact .inl hv
          · cases heq
        · exact .inr (.inl hn)
      · refine h.reframe k rfl rfl (fun _ hq => .inl hq) (.inl rfl)
          (.inr ⟨dependency, rfl, fun other hother heq => ?_⟩) (fun n hn => ?_) fun n hn => ?_
        · exact hback ((hancestors dependency).2 ⟨other, hother, heq⟩)
        · rcases mem_cons.1 hn with rfl | hn
          · exact .inr rfl
          · exact .inl hn
        · rcases hcases n hn with rfl | hn
          · exact .inr (.inr rfl)
          · exact .inr (.inl hn)

/-- A call with no frames left goes on to another point. -/
theorem Going.outermost {outer' : Option Deferred} {control control' : AsyncControl}
    (h : vm.Going (.async [] outer control caller :: l))
    (hcontrol : ∀ id p c, control ≠ .body id p c) (hcontrol' : ∀ id p c, control' ≠ .body id p c)
    (k : Kept vm (callsOf (.async [] outer control caller :: l)).walks vm'
      (callsOf (.async [] outer control caller :: l)) fun _ => 0)
    (houter : ∀ deferred, outer' = some deferred → ∀ q ∈ deferred.dependencies,
      vm'.Source (callsOf (.async [] outer control caller :: l)).walks vm'.guards.length q)
    (hreturns : ∀ result, control' = .returns result → ∃ q, result = .ok q ∧
      vm'.Source (callsOf (.async [] outer control caller :: l)).walks vm'.guards.length q) :
    vm'.Going ([.async [] outer' control' caller] ++ l) := by
  have hruns : ∀ {outer control}, (∀ id p c, control ≠ AsyncControl.body id p c) → ∀ id p c,
      ¬ Activation.runs id p c (.async [] outer control caller) := by
    intro outer control hc id p c
    cases control with
    | body id' p' c' => exact absurd rfl (hc id' p' c')
    | _ => exact fun hx => hx
  have hrunning : ∀ {outer control}, (∀ id p c, control ≠ AsyncControl.body id p c) →
      Activation.running (.async [] outer control caller) = none := by
    intro outer control hc
    cases control with
    | body id' p' c' => exact absurd rfl (hc id' p' c')
    | _ => rfl
  have hcalls : callsOf ([.async [] outer' control' caller] ++ l) =
      callsOf (.async [] outer control caller :: l) := by
    show callsOf (.async [] outer' control' caller :: l) = _
    refine callsOf_congr (fun n => ?_) (fun n => ?_) (fun n p c => ?_) l
    · exact Iff.rfl
    · exact Iff.rfl
    · exact iff_of_false (hruns hcontrol' n p c) (hruns hcontrol n p c)
  refine h.kept (hcalls ▸ k) (fun a' ha' => ?_) ?_ fun n dependency hx => ?_
  · rw [mem_singleton] at ha'
    subst ha'
    rw [hcalls]
    exact ⟨nofun, houter, nofun, hreturns⟩
  · have hdistinct := h.distinct
    rw [filterMap_cons_none (hrunning hcontrol)] at hdistinct
    rwa [cons_append, nil_append, filterMap_cons_none (hrunning hcontrol')]
  · obtain ⟨frame, hframe, -⟩ := hx
    cases hframe

/-- A call is over, or was about nothing. -/
theorem Going.drop {a : Activation} (h : vm.Going (a :: l)) (hwalks : ∀ id, ¬ a.walks id)
    (hsyncs : ∀ id, ¬ a.syncs id) (hruns : ∀ id p c, ¬ a.runs id p c)
    (howes : ∀ n dependency, ¬ a.owes n dependency)
    (k : Kept vm (callsOf (a :: l)).walks vm' (callsOf (a :: l)) fun _ => 0) : vm'.Going l := by
  have hcalls := callsOf_idle hwalks hsyncs hruns l
  have hdistinct : (l.filterMap Activation.running).Nodup := by
    have hdistinct := h.distinct
    cases hc : a.running with
    | none => rwa [filterMap_cons_none hc] at hdistinct
    | some c =>
      rw [filterMap_cons_some hc] at hdistinct
      exact (nodup_cons.1 hdistinct).2
  have k' : Kept vm (callsOf (a :: l)).walks vm' (callsOf ([] ++ l)) fun _ => 0 := by
    rwa [nil_append, ← hcalls]
  exact h.kept k' nofun hdistinct fun n dependency hx => absurd hx (howes n dependency)

/-- A call starts that is about nothing yet. -/
theorem Going.spawn {a : Activation} (h : vm.Going l) (hwalks : ∀ id, ¬ a.walks id)
    (hsyncs : ∀ id, ¬ a.syncs id) (hruns : ∀ id p c, ¬ a.runs id p c)
    (hrunning : a.running = none) (horderly : a.Orderly vm (callsOf l).walks) :
    vm.Going (a :: l) where
  lively := by
    rw [callsOf_idle hwalks hsyncs hruns l]
    exact h.lively
  orderly a' ha' := by
    rw [callsOf_idle hwalks hsyncs hruns l]
    rcases mem_cons.1 ha' with rfl | ha'
    · exact horderly
    · exact h.orderly a' ha'
  distinct := by
    rw [filterMap_cons_none hrunning]
    exact h.distinct
  covered id requests hr hv dependency hd :=
    (h.covered id requests hr hv dependency hd).imp_right fun ⟨a', ha', hx⟩ =>
      ⟨a', mem_cons_of_mem _ ha', hx⟩

/-- The engine moves on, and no call does. -/
theorem Going.stay (h : vm.Going l) (k : Kept vm (callsOf l).walks vm' (callsOf l) fun _ => 0) :
    vm'.Going l where
  lively := k.lively
  orderly a ha := orderly_grow (h.orderly a ha) k.grows h.lively.owner fun _ hn => ⟨a, ha, hn⟩
  distinct := h.distinct
  covered id requests hr hv dependency hd := by
    rw [k.grows.plan] at hr
    exact (h.covered id requests hr (k.taken id hv) dependency hd).imp_left
      (k.grows.visits dependency)

theorem kept_answer (h : vm.Lively (callsOf l) fun _ => 0) (caller : Caller) (q : Nat) :
    Kept vm (callsOf l).walks (vm.answer caller (.ok q)) (callsOf l) fun _ => 0 := by
  cases caller with
  | host => exact .refl h
  | importCall target =>
    show Kept vm _ { vm with loop := (vm.loop.perform (.adopt q target)).getD vm.loop } _ _
    cases hadopt : vm.loop.perform (.adopt q target) with
    | none => exact .refl h
    | some loop =>
      exact .act h hadopt nofun nofun nofun

/-- **A step of `start_async_module`.** -/
theorem Going.stepAsync {frames : List AsyncFrame}
    {control : AsyncControl} {after : Option Activation}
    (h : vm.Going (.async frames outer control caller :: l))
    (honce : ∀ frame rest, frames = frame :: rest →
      ¬ (callsOf (.async rest outer .loop caller :: l)).walks frame.id)
    (henter : ∀ id, control = .enter id → vm.Startable id ∧
      (∀ record, vm.records id = some record → record.state = .linked →
        frames.length < maxCallDepth) ∧
      ∀ a ∈ l, ¬ a.walks id ∧ ∀ root, vm.records.cycleRoot id = some root → ¬ a.walks root)
    {method : Value}
    (hstep : vm.stepAsync frames outer control caller (.found method false) =
      some (vm', after)) : vm'.Going (after.toList ++ l) := by
  unfold Vm.stepAsync at hstep
  cases control with
  | enter id =>
    cases hstep
    obtain ⟨hstart, hdepth, hapart⟩ := henter id rfl
    exact h.enterAsync hstart hdepth hapart method
  | loop =>
    cases frames with
    | nil => cases hstep
    | cons frame frames =>
      cases hstep
      exact h.loopAsync (honce frame frames rfl) _
  | body id target completion => cases hstep
  | returns result =>
    obtain ⟨q, rfl, hq⟩ := (h.orderly _ mem_cons_self).2.2.2 result rfl
    cases frames with
    | cons frame frames =>
      cases hstep
      refine h.reframe (.refl h.lively) rfl rfl (fun q' hq' => ?_) (.inr ⟨q, rfl⟩) (.inl rfl)
        (fun _ hn => .inl hn) fun _ hn => .inr (.inl hn)
      rcases mem_append.1 hq' with hq' | hq'
      · exact .inl hq'
      · rw [mem_singleton.1 hq']
        exact .inr rfl
    | nil =>
      have hreturns : ∀ id p c, AsyncControl.returns (.ok q) ≠ .body id p c :=
        nofun
      cases outer with
      | some deferred =>
        have houter := (h.orderly _ mem_cons_self).2.1 deferred rfl
        have hdependencies : ∀ q' ∈ deferred.dependencies ++ [q], vm.Source
            (callsOf (.async [] (some deferred) (.returns (.ok q)) caller :: l)).walks
            vm.guards.length q' := by
          intro q' hq'
          rcases mem_append.1 hq' with hq' | hq'
          · exact houter q' hq'
          · rw [mem_singleton.1 hq']
            exact hq
        cases hstep
        dsimp only
        split
        · refine h.outermost hreturns nofun (.refl h.lively) (fun deferred' heq => ?_) nofun
          cases heq
          exact hdependencies
        · obtain ⟨k, hs⟩ := namespace_after h.lively
            (deferred.dependencies ++ [q]) (by simp) hdependencies
            (vm.deferredNamespaceObject deferred.id) (.found method false)
          refine h.outermost hreturns nofun k nofun fun result hx => ?_
          cases hx
          exact ⟨_, rfl, hs⟩
      | none =>
        cases hstep
        refine h.drop ?_ ?_ ?_ ?_ (kept_answer h.lively caller q)
        · rintro id ⟨frame, hframe, -⟩
          cases hframe
        · exact fun id hx => hx
        · exact fun id p c hx => hx
        · rintro n dependency ⟨frame, hframe, -⟩
          cases hframe

/-! ## Synchronous calls -/

theorem running_sync (hc : control ≠ .body) : (Activation.sync frames control).running = none := by
  cases control with
  | body => exact absurd rfl hc
  | _ => cases frames <;> rfl

/-- A synchronous call stands elsewhere, with the same modules. -/
theorem Going.resync {frames' : List SyncFrame} {control' : SyncControl}
    (h : vm.Going (.sync frames control :: l))
    (k : Kept vm (callsOf (.sync frames control :: l)).walks vm'
      (callsOf (.sync frames control :: l)) fun _ => 0)
    (hframes : ∀ n, (∃ frame ∈ frames', frame.id = n) ↔ ∃ frame ∈ frames, frame.id = n)
    (hreturns : ∀ result, control' = .returns result → result = .ok ())
    (hbody : control' = .body → ∃ frame rest, frames' = frame :: rest ∧ frame.rest = [] ∧
      0 < vm'.started frame.id ∧ .inl frame.id ∉ l.filterMap Activation.running)
    (hcontrol : control ≠ .body) (howes : ∀ n dependency, Activation.owes n dependency (.sync frames control) →
      vm'.Visited dependency ∨ Activation.owes n dependency (.sync frames' control')) :
    vm'.Going ([.sync frames' control'] ++ l) := by
  have hcalls : callsOf ([.sync frames' control'] ++ l) = callsOf (.sync frames control :: l) := by
    show callsOf (.sync frames' control' :: l) = _
    refine callsOf_congr (fun n => ?_) (fun n => ?_) (fun n p c => ?_) l
    · exact Iff.rfl
    · exact hframes n
    · exact Iff.rfl
  have hdistinct := h.distinct
  rw [filterMap_cons_none (running_sync hcontrol)] at hdistinct
  refine h.kept (hcalls ▸ k) (fun a' ha' => ?_) ?_ fun n dependency hx => ?_
  · rw [mem_singleton] at ha'
    subst ha'
    refine ⟨hreturns, fun hc => ?_⟩
    obtain ⟨frame, rest, hframes', hrest, hstarted, -⟩ := hbody hc
    exact ⟨frame, rest, hframes', hrest, hstarted⟩
  · by_cases hc : control' = .body
    · obtain ⟨frame, rest, rfl, -, -, hnot⟩ := hbody hc
      subst hc
      exact nodup_cons.2 ⟨hnot, hdistinct⟩
    · rwa [cons_append, nil_append, filterMap_cons_none (running_sync hc)]
  · exact (howes n dependency hx).imp_right fun hx' => ⟨_, mem_singleton_self _, hx'⟩

/-- The module that was asked for needs no evaluation here. -/
theorem Going.passed {id : Nat} {curMod : Option Nat} {control' : SyncControl}
    (h : vm.Going (.sync frames (.enter id curMod) :: l)) (hv : vm.Visited id)
    (hcontrol' : control' = .returns (.ok ()) ∨ ∃ p, control' = .awaits p) :
    vm.Going ([.sync frames control'] ++ l) := by
  refine h.resync (.refl h.lively) (fun _ => Iff.rfl) (fun result hc => ?_) (fun hc => ?_)
    nofun fun n dependency hx => ?_
  · rcases hcontrol' with rfl | ⟨p, rfl⟩
    · cases hc
      rfl
    · cases hc
  · rcases hcontrol' with rfl | ⟨p, rfl⟩ <;> cases hc
  · obtain ⟨frame, hframe, hid, hrest | henters⟩ := hx
    · exact .inr ⟨frame, hframe, hid, .inl hrest⟩
    · cases henters
      exact .inl hv

theorem Going.enterSync {id : Nat} {curMod : Option Nat}
    (h : vm.Going (.sync frames (.enter id curMod) :: l)) :
    (vm.enterSync frames id curMod).1.Going
      ([.sync (vm.enterSync frames id curMod).2.1 (vm.enterSync frames id curMod).2.2] ++ l) := by
  unfold Vm.enterSync
  cases hr : vm.records id with
  | none => exact h.passed (by simp [Visited, progress, hr]) (.inl rfl)
  | some record =>
    have hprogress : vm.progress id = some (record.state, record.evaluation) := by
      simp [progress, hr]
    have hok := h.lively.record id _ _ hprogress
    dsimp only
    split
    · rename_i hstate
      exact h.passed (by simp [Visited, hprogress, hstate]) (.inl rfl)
    · rename_i hstate
      have hv : vm.Visited id := by simp [Visited, hprogress, hstate]
      split
      · exact h.passed hv (.inr ⟨_, rfl⟩)
      · exact h.passed hv (.inl rfl)
    · rename_i value hstate
      rw [hstate] at hok
      cases hok
    · rename_i hstate
      have hnone : record.evaluation = none := by
        rw [hstate] at hok
        generalize record.evaluation = evaluation at hok
        cases hok with
        | linked => rfl
      rw [hstate, hnone] at hprogress
      let frame : SyncFrame := ⟨id, record.requests⟩
      let call : Activation := .sync (frame :: frames) .loop
      obtain ⟨hlively, hgrow, htaken⟩ := Kept.sync (callsOf ([call] ++ l)) .evaluating
        (fun record => { record with state := .evaluating })
        (id :: vm.evaluating.filter (· ≠ id)) h.lively hprogress
        (fun record => ⟨rfl, rfl, rfl, rfl⟩)
        (.inl ⟨rfl, call, mem_cons_self, frame, mem_cons_self, rfl⟩)
        (show (callsOf (call :: l)).walks = (callsOf (_ :: l)).walks by
          simp only [callsOf_cons]; rfl)
        (fun n hn => by
          show (callsOf (call :: l)).syncs n ↔ (callsOf (_ :: l)).syncs n
          simp [callsOf_cons, call, frame, Activation.syncs, Ne.symm hn])
        (show (callsOf (call :: l)).bodies = (callsOf (_ :: l)).bodies by
          simp only [callsOf_cons]; rfl)
        (show (callsOf (call :: l)).goes = (callsOf (_ :: l)).goes by
          simp only [callsOf_cons]; rfl)
      have hdistinct : ((call :: l).filterMap Activation.running).Nodup := by
        have hdistinct := h.distinct
        rw [filterMap_cons_none (running_sync fun hc => by cases hc)] at hdistinct
        rwa [filterMap_cons_none (running_sync fun hc => by cases hc)]
      refine h.step hlively hgrow (fun a' ha' => ?_) hdistinct (fun n hn => ?_)
        fun n dependency hx => ?_
      · rw [mem_singleton] at ha'
        subst ha'
        exact ⟨(by simp), (by simp)⟩
      · rcases htaken n hn with hold | rfl
        · exact .inl hold
        · refine .inr fun requests dependency hrequests hdependency => ?_
          simp only [plan, hr, Option.map_some, Option.some.injEq] at hrequests
          subst hrequests
          exact ⟨call, mem_singleton_self _, frame, mem_cons_self, rfl, .inl hdependency⟩
      · obtain ⟨frame', hframe', hid, hrest | henters⟩ := hx
        · exact .inr ⟨call, mem_singleton_self _, frame',
            mem_cons_of_mem _ hframe', hid, .inl hrest⟩
        · cases henters
          refine .inl fun e heq => ?_
          have hsync := hlively.sync id ⟨call, mem_cons_self, frame, mem_cons_self, rfl⟩
          cases hsync.symm.trans heq

/-- **A step of `evaluate_linked_module`.** -/
theorem Going.stepSync {after : Option Activation} (h : vm.Going (.sync frames control :: l))
    (honce : ∀ frame rest, frames = frame :: rest → .inl frame.id ∉ l.filterMap Activation.running)
    (hstep : vm.stepSync frames control = some (vm', after)) : vm'.Going (after.toList ++ l) := by
  have k := Kept.refl h.lively
  unfold Vm.stepSync at hstep
  cases control with
  | enter id curMod =>
    cases hstep
    exact h.enterSync
  | loop =>
    cases frames with
    | nil => cases hstep
    | cons frame frames =>
      cases hstep
      have hreframe : ∀ {rest : List ModuleRequest} n,
          (∃ other ∈ { frame with rest := rest } :: frames, other.id = n) ↔
            ∃ other ∈ frame :: frames, other.id = n := by
        intro rest n
        simp only [mem_cons, exists_eq_or_imp]
      split
      · -- the body starts
        rename_i hrest
        have hfound : ∃ record, vm.records frame.id = some record := by
          have hsync := h.lively.sync frame.id
            ⟨_, mem_cons_self, frame, mem_cons_self, rfl⟩
          obtain ⟨record, hr, -⟩ := Option.map_eq_some_iff.1 hsync
          exact ⟨record, hr⟩
        obtain ⟨record, hr⟩ := hfound
        refine h.resync (.records h.lively ?_ (Kept.plan_modify vm _ fun _ => rfl)
          (Kept.started_modify vm _ fun _ => Nat.le_succ _) rfl rfl rfl rfl rfl)
          (fun _ => Iff.rfl) (by simp)
          (fun _ => ⟨frame, frames, rfl, hrest, ?_, honce frame frames rfl⟩)
          (by simp) fun n dependency hx => .inr ?_
        · funext n
          by_cases hn : n = frame.id
          · subst hn
            rw [Kept.progress_modify_self]
            rfl
          · exact Kept.progress_modify_of_ne vm _ hn
        · simp [Vm.started, modify, Records.modify_self, hr]
        · obtain ⟨other, hother, hid, hx | hx⟩ := hx
          · exact ⟨other, hother, hid, .inl hx⟩
          · exact hx.elim
      · rename_i dependency rest hrest
        refine h.resync k hreframe (by simp) (by simp) (by simp) fun n m hx => .inr ?_
        obtain ⟨other, hother, hid, hx | hx⟩ := hx
        · rcases mem_cons.1 hother with rfl | hother
          · rw [hrest] at hx
            refine ⟨{ other with rest := rest }, mem_cons_self, hid, ?_⟩
            rcases mem_cons.1 hx with heq | hx
            · cases heq
              exact .inr rfl
            · exact .inl hx
          · exact ⟨other, mem_cons_of_mem _ hother, hid, .inl hx⟩
        · exact hx.elim
      · rename_i dependency phase rest hphase hrest
        refine h.resync k hreframe (by simp) (by simp) (by simp) fun n m hx => .inr ?_
        obtain ⟨other, hother, hid, hx | hx⟩ := hx
        · rcases mem_cons.1 hother with rfl | hother
          · rw [hrest] at hx
            refine ⟨{ other with rest := rest }, mem_cons_self, hid, .inl ?_⟩
            rcases mem_cons.1 hx with heq | hx
            · cases heq
              exact absurd rfl hphase
            · exact hx
          · exact ⟨other, mem_cons_of_mem _ hother, hid, .inl hx⟩
        · exact hx.elim
  | body => cases hstep
  | awaits p => cases hstep
  | returns result =>
    have hok := (h.orderly _ mem_cons_self).1 result rfl
    subst hok
    cases frames with
    | nil =>
      cases hstep
      refine h.drop ?_ ?_ ?_ ?_ k
      · exact fun id hx => hx
      · rintro id ⟨frame, hframe, -⟩
        cases hframe
      · exact fun id p c hx => hx
      · rintro n dependency ⟨frame, hframe, -⟩
        cases hframe
    | cons frame frames =>
      cases hstep
      refine h.resync k (fun _ => Iff.rfl) (by simp) (by simp) (by simp) fun n m hx => .inr ?_
      obtain ⟨other, hother, hid, hx | hx⟩ := hx
      · exact ⟨other, hother, hid, .inl hx⟩
      · exact hx.elim

/-- **A body ends**, of the innermost frame of a synchronous call. -/
theorem Going.endSync {frame : SyncFrame} (h : vm.Going (.sync (frame :: frames) .body :: l))
    (honce : ¬ (callsOf (.sync frames (.returns (.ok ())) :: l)).syncs frame.id) :
    (vm.finishSync frame (.ok ())).Going ([.sync frames (.returns (.ok ()))] ++ l) := by
  have hsync := h.lively.sync frame.id ⟨_, mem_cons_self, frame, mem_cons_self, rfl⟩
  obtain ⟨other, rest, hframes, hrest, -⟩ := (h.orderly _ mem_cons_self).2 rfl
  cases hframes
  let call : Activation := .sync frames (.returns (.ok ()))
  obtain ⟨hlively, hgrow, htaken⟩ := Kept.sync (callsOf ([call] ++ l)) .evaluated
    (fun record => { record with state := .evaluated })
    (vm.evaluating.filter (· ≠ frame.id)) h.lively hsync (fun record => ⟨rfl, rfl, rfl, rfl⟩)
    (.inr ⟨rfl, honce⟩)
    (show (callsOf (call :: l)).walks = (callsOf (_ :: l)).walks by
      simp only [callsOf_cons]; rfl)
    (fun n hn => by
      show (callsOf (call :: l)).syncs n ↔ (callsOf (_ :: l)).syncs n
      simp [callsOf_cons, call, Activation.syncs, Ne.symm hn])
    (show (callsOf (call :: l)).bodies = (callsOf (_ :: l)).bodies by
      simp only [callsOf_cons]; rfl)
    (show (callsOf (call :: l)).goes = (callsOf (_ :: l)).goes by
      simp only [callsOf_cons]; rfl)
  have hdistinct : ((call :: l).filterMap Activation.running).Nodup := by
    rw [filterMap_cons_none (running_sync fun hc => by cases hc)]
    exact (nodup_cons.1 h.distinct).2
  refine h.step hlively hgrow (fun a' ha' => ?_) hdistinct (fun n hn => .inl ?_)
    fun n dependency hx => .inr ?_
  · rw [mem_singleton] at ha'
    subst ha'
    refine ⟨fun result hc => ?_, nofun⟩
    cases hc
    rfl
  · rcases htaken n hn with hold | rfl
    · exact hold
    · intro e heq
      rw [hsync] at heq
      cases heq
  · obtain ⟨other, hother, hid, hx | hx⟩ := hx
    · rcases mem_cons.1 hother with rfl | hother
      · rw [hrest] at hx
        cases hx
      · exact ⟨call, mem_singleton_self _, other, hother, hid, .inl hx⟩
    · exact hx.elim

end Vm

end NapiVm.Modules
