import NapiVm.Module.Upkeep

/-!
# Calls under way

What each call under way keeps to, and that its steps keep the whole of it going.

* `Activation.Orderly` — where a call stands: its frames own their promises, and what they
  depend on may be waited for.
* `Vm.Covered` — every module that a module asks for was taken in, or some call will come
  to it.
* `Vm.Going` — the invariant of all the calls.
-/

namespace NapiVm.Modules

open Promises EventLoop List

/-! ## What a call is about -/

namespace Activation

/-- The modules in whose loop the call is. -/
def walks (id : Nat) : Activation → Prop
  | .sync _ _ => False
  | .async frames _ _ _ => ∃ frame ∈ frames, frame.id = id

/-- The modules it evaluates synchronously. -/
def syncs (id : Nat) : Activation → Prop
  | .sync frames _ => ∃ frame ∈ frames, frame.id = id
  | .async _ _ _ _ => False

/-- The body it runs. -/
def runs (id p c : Nat) : Activation → Prop
  | .async _ _ (.body id' p' c') _ => id' = id ∧ p' = p ∧ c' = c
  | _ => False

/-- What tells the body it runs from others: the module, or the completion promise. -/
def running : Activation → Option (Nat ⊕ Nat)
  | .sync (frame :: _) .body => some (.inl frame.id)
  | .async _ _ (.body _ _ c) _ => some (.inr c)
  | _ => none

/-- It is about to take the module in, or to find that it need not. -/
def enters (id : Nat) : Activation → Prop
  | .sync _ (.enter id' _) => id' = id
  | .async _ _ (.enter id') _ => id' = id
  | _ => False

/-- It will come to a module that `id` asks for. -/
def owes (id dependency : Nat) : Activation → Prop
  | .sync frames control => ∃ frame ∈ frames, frame.id = id ∧
      ((dependency, .evaluation) ∈ frame.rest ∨ Activation.enters dependency (.sync [] control))
  | .async frames outer control caller => ∃ frame ∈ frames, frame.id = id ∧
      ((dependency, .evaluation) ∈ frame.rest ∨
        Activation.enters dependency (.async [] outer control caller))

theorem running_of_runs {id p c : Nat} {a : Activation} (h : a.runs id p c) :
    a.running = some (.inr c) := by
  cases a with
  | sync frames control => exact h.elim
  | async frames outer control caller =>
    cases control with
    | body id' p' c' =>
      obtain ⟨-, -, rfl⟩ := h
      rfl
    | _ => exact h.elim

end Activation

/-- What some calls are about. -/
def callsOf (l : List Activation) : Calls where
  walks id := ∃ a ∈ l, a.walks id
  syncs id := ∃ a ∈ l, a.syncs id
  bodies id p c := ∃ a ∈ l, a.runs id p c
  goes id := (∃ a ∈ l, a.walks id) ∨ ∃ a ∈ l, ∃ p c, a.runs id p c

theorem callsOf_perm {l l' : List Activation} (h : l.Perm l') : callsOf l = callsOf l' := by
  unfold callsOf
  simp only [h.mem_iff]

theorem callsOf_cons (a : Activation) (l : List Activation) :
    callsOf (a :: l) = {
      walks := fun id => a.walks id ∨ (callsOf l).walks id
      syncs := fun id => a.syncs id ∨ (callsOf l).syncs id
      bodies := fun id p c => a.runs id p c ∨ (callsOf l).bodies id p c
      goes := fun id => (a.walks id ∨ ∃ p c, a.runs id p c) ∨ (callsOf l).goes id } := by
  simp only [callsOf, mem_cons, exists_eq_or_imp, Calls.mk.injEq, true_and]
  funext id
  rw [eq_iff_iff]
  constructor
  · rintro ((h | h) | h | h)
    · exact .inl (.inl h)
    · exact .inr (.inl h)
    · exact .inl (.inr h)
    · exact .inr (.inr h)
  · rintro ((h | h) | h | h)
    · exact .inl (.inl h)
    · exact .inr (.inl h)
    · exact .inl (.inr h)
    · exact .inr (.inr h)

/-- A call that goes on with the same modules. -/
theorem callsOf_congr {a a' : Activation} (hwalks : ∀ id, a'.walks id ↔ a.walks id)
    (hsyncs : ∀ id, a'.syncs id ↔ a.syncs id) (hruns : ∀ id p c, a'.runs id p c ↔ a.runs id p c)
    (l : List Activation) : callsOf (a' :: l) = callsOf (a :: l) := by
  simp only [callsOf_cons, hwalks, hsyncs, hruns]

/-- A call that is about nothing. -/
theorem callsOf_idle {a : Activation} (hwalks : ∀ id, ¬ a.walks id) (hsyncs : ∀ id, ¬ a.syncs id)
    (hruns : ∀ id p c, ¬ a.runs id p c) (l : List Activation) : callsOf (a :: l) = callsOf l := by
  simp only [callsOf_cons, hwalks, hsyncs, hruns, false_or, exists_const]

/-- **Where a call stands**, when the modules of `W` are being walked. -/
def Activation.Orderly (vm : Vm) (W : Nat → Prop) : Activation → Prop
  | .sync frames control =>
    (∀ result, control = .returns result → result = .ok ()) ∧
      (control = .body → ∃ frame rest, frames = frame :: rest ∧ frame.rest = [] ∧
        0 < vm.started frame.id)
  | .async frames outer control _ =>
    (∀ frame ∈ frames, vm.Owns frame.id frame.promise ∧
      (∀ q ∈ frame.dependencies, vm.Source W vm.guards.length q) ∧
      ∀ id ∈ frame.scheduled, vm.Visited id ∨ control = .enter id) ∧
    (∀ deferred, outer = some deferred →
      ∀ q ∈ deferred.dependencies, vm.Source W vm.guards.length q) ∧
    (∀ id, control = .enter id → ∀ frame ∈ frames, frame.id ≠ id) ∧
    ∀ result, control = .returns result → ∃ q, result = .ok q ∧ vm.Source W vm.guards.length q

namespace Vm

variable {vm vm' : Vm} {W W' : Nat → Prop} {calls calls' : Calls} {missing : Nat → Nat}

/-- Every module that a module asks for was taken in, or a call will come to it. -/
def Covered (vm : Vm) (l : List Activation) : Prop :=
  ∀ id requests, vm.plan id = some requests → vm.Visited id →
    ∀ dependency, (dependency, ImportPhase.evaluation) ∈ requests →
      vm.Visited dependency ∨ ∃ a ∈ l, a.owes id dependency

/-- **The invariant**, for the calls under way. -/
structure Going (vm : Vm) (l : List Activation) : Prop where
  lively : vm.Lively (callsOf l) fun _ => 0
  orderly : ∀ a ∈ l, a.Orderly vm (callsOf l).walks
  distinct : (l.filterMap Activation.running).Nodup
  covered : vm.Covered l

variable {a : Activation} {l : List Activation} {id : Nat} {frames : List AsyncFrame}
  {outer : Option Deferred} {caller : Caller}

theorem orderly_grow (h : a.Orderly vm W) (hgrow : Grows vm W vm' W')
    (howner : ∀ p id, vm.owned p = some (.evaluation id) → vm.records.evaluation id = some p)
    (hwalks : ∀ id, a.walks id → W' id) : a.Orderly vm' W' := by
  have hsource : ∀ q, vm.Source W vm.guards.length q → vm'.Source W' vm'.guards.length q :=
    fun q hq => hq.grow howner hgrow hgrow.guardsLength
  cases a with
  | sync frames control =>
    obtain ⟨hreturns, hbody⟩ := h
    refine ⟨hreturns, fun hc => ?_⟩
    obtain ⟨frame, rest, hframes, hrest, hstarted⟩ := hbody hc
    exact ⟨frame, rest, hframes, hrest, Nat.lt_of_lt_of_le hstarted (hgrow.started _)⟩
  | async frames outer control caller =>
    obtain ⟨hframes, houter, henter, hreturns⟩ := h
    refine ⟨fun frame hframe => ?_, fun deferred hd q hq => hsource q (houter deferred hd q hq),
      henter, fun result hresult => ?_⟩
    · obtain ⟨howns, hdependencies, hscheduled⟩ := hframes frame hframe
      refine ⟨hgrow.owns _ _ (hwalks _ ⟨frame, hframe, rfl⟩) howns,
        fun q hq => hsource q (hdependencies q hq), fun id hid => ?_⟩
      exact (hscheduled id hid).imp_left (hgrow.visits id)
    · obtain ⟨q, hq, hs⟩ := hreturns result hresult
      exact ⟨q, hq, hsource q hs⟩

theorem Going.perm {l' : List Activation} (h : vm.Going l) (hp : l.Perm l') : vm.Going l' where
  lively := by
    rw [← callsOf_perm hp]
    exact h.lively
  orderly a ha := by
    rw [← callsOf_perm hp]
    exact h.orderly a (hp.mem_iff.2 ha)
  distinct := (hp.filterMap _).nodup_iff.1 h.distinct
  covered id requests hr hv dependency hd :=
    (h.covered id requests hr hv dependency hd).imp_right fun ⟨a, ha, hx⟩ =>
      ⟨a, hp.mem_iff.1 ha, hx⟩

/-- **A step of one call**: it gives what the engine keeps, where the call is then, and that
it comes to all it owed. -/
theorem Going.step {after : List Activation}
    (h : vm.Going (a :: l)) (hlively : vm'.Lively (callsOf (after ++ l)) fun _ => 0)
    (hgrow : Grows vm (callsOf (a :: l)).walks vm' (callsOf (after ++ l)).walks)
    (horderly : ∀ a' ∈ after, a'.Orderly vm' (callsOf (after ++ l)).walks)
    (hdistinct : ((after ++ l).filterMap Activation.running).Nodup)
    (hvisits : ∀ n, vm'.Visited n → vm.Visited n ∨
      ∀ requests dependency, vm.plan n = some requests →
        (dependency, ImportPhase.evaluation) ∈ requests → ∃ a' ∈ after, a'.owes n dependency)
    (howes : ∀ id dependency, a.owes id dependency →
      vm'.Visited dependency ∨ ∃ a' ∈ after, a'.owes id dependency) :
    vm'.Going (after ++ l) where
  lively := hlively
  orderly a' ha' := by
    rcases mem_append.1 ha' with hnew | hold
    · exact horderly a' hnew
    · exact orderly_grow (h.orderly a' (mem_cons_of_mem _ hold)) hgrow h.lively.owner
        fun id hid => ⟨a', ha', hid⟩
  distinct := hdistinct
  covered id requests hr hv dependency hd := by
    rw [hgrow.plan] at hr
    rcases hvisits id hv with hold | hnew
    · rcases h.covered id requests hr hold dependency hd with hvisited | ⟨b, hb, hx⟩
      · exact .inl (hgrow.visits dependency hvisited)
      · rcases mem_cons.1 hb with rfl | hb
        · exact (howes id dependency hx).imp_right fun ⟨a', ha', hx'⟩ =>
            ⟨a', mem_append_left _ ha', hx'⟩
        · exact .inr ⟨b, mem_append_right _ hb, hx⟩
    · obtain ⟨a', ha', hx⟩ := hnew requests dependency hr hd
      exact .inr ⟨a', mem_append_left _ ha', hx⟩

/-! ## Longer parts of a step -/

/-- The dependencies are open or fulfilled, so none of them was rejected. -/
theorem scan_ok (promise : Nat) (qs : List Nat) {w : EventLoop} (hs : w.Sound)
    (hqs : ∀ q ∈ qs, w.Open q ∨ w.Fulfilled q) :
    Steady (fun _ => True) w (scanDependencies promise qs w).1 ∧
      ∃ waits, (scanDependencies promise qs w).2 = .ok waits := by
  induction qs generalizing w with
  | nil => exact ⟨.refl hs, false, rfl⟩
  | cons q rest ih =>
    have hfirst : Steady (fun _ => True) w (inheritExternal w promise q) :=
      Kept.steady_markExternal hs promise _
    have hkeeps : ∀ {q'}, w.Open q' ∨ w.Fulfilled q' →
        (inheritExternal w promise q).Open q' ∨ (inheritExternal w promise q).Fulfilled q' :=
      fun hq => hq.imp (hfirst.opens _ trivial) (·.advance hfirst.advances)
    obtain ⟨hsteady, waits, hwaits⟩ := ih hfirst.advances.sound fun q' hq' =>
      hkeeps (hqs q' (mem_cons_of_mem _ hq'))
    rcases hkeeps (hqs q mem_cons_self) with ⟨i, hi, hst, -⟩ | ⟨i, hi, hst⟩
    · simp only [scanDependencies, hi, hst, hwaits]
      exact ⟨hfirst.trans hsteady, true, rfl⟩
    · simp only [scanDependencies, hi, hst]
      exact ⟨hfirst.trans hsteady, waits, hwaits⟩

/-- A namespace that waits for nothing. -/
theorem namespace_now (h : vm.Lively calls missing) (value method : Value) :
    Kept vm calls.walks
        (vm.namespaceAfterDependencies value [] (.found method false)).2 calls missing ∧
      (vm.namespaceAfterDependencies value [] (.found method false)).2.loop.Fulfilled
        (vm.namespaceAfterDependencies value [] (.found method false)).1 := by
  let role : Role := .namespaceResult vm.guards.length
  have hopen := (Kept.owned_own vm role).2
  have hcreate : Steady (fun p => ∃ role, vm.owned p = some role) vm.loop
      (vm.pendingPromise role).2.loop := .create h.sound rfl rfl
  have hne : ∀ p role', vm.owned p = some role' → p ≠ vm.loop.next := by
    rintro p role' hp rfl
    rw [h.ownedFresh (Nat.le_refl _)] at hp
    cases hp
  have hfulfil := (Steady.fulfil hcreate.advances.sound hopen value).mono
    fun p hp => Exists.elim hp (hne p)
  have hafter : vm.namespaceAfterDependencies value [] (.found method false) =
      (vm.loop.next, { (vm.pendingPromise role).2 with
        loop := (vm.pendingPromise role).2.loop.fulfil vm.loop.next value }) := by
    simp only [namespaceAfterDependencies, Kept.resolveNamespace_found]
    rfl
  have hdone : ((vm.pendingPromise role).2.loop.fulfil vm.loop.next value).Fulfilled
      vm.loop.next := fulfilled_fulfil hopen value
  rw [hafter]
  refine ⟨?_, hdone⟩
  refine .loop h (hcreate.trans hfulfil) (fun p role' hp => ?_) (fun p role' hp => ?_) rfl rfl rfl
    rfl
  · exact (PMap.insert_of_ne (hne p role' hp)).trans hp
  · by_cases hpn : p = vm.loop.next
    · subst hpn
      have hrole : role = role' := Option.some.inj (PMap.insert_self.symm.trans hp)
      refine .inr ⟨.inr hdone, fun id heq => ?_⟩
      have hsame : Role.namespaceResult vm.guards.length = .evaluation id := hrole.trans heq
      cases hsame
    · exact .inl ((PMap.insert_of_ne hpn).symm.trans hp)

/-- A namespace that waits for promises, which its result may be waited for after. -/
theorem namespace_after (h : vm.Lively calls fun _ => 0) (qs : List Nat) (hne : qs ≠ [])
    (hqs : ∀ q ∈ qs, vm.Source calls.walks vm.guards.length q) (value : Value)
    (read : ThenRead) :
    Kept vm calls.walks (vm.namespaceAfterDependencies value qs read).2 calls (fun _ => 0) ∧
      (vm.namespaceAfterDependencies value qs read).2.Source calls.walks
        (vm.namespaceAfterDependencies value qs read).2.guards.length
        (vm.namespaceAfterDependencies value qs read).1 := by
  let g := vm.guards.length
  let target := vm.loop.next
  let owning := (vm.pendingPromise (.namespaceResult g)).2
  let guard : Guard := ⟨target, .resolve value, qs.length⟩
  let pushed : Vm := { owning with guards := vm.guards ++ [guard] }
  let reacts := fun (vm : Vm) dependency =>
    { vm with loop := inheritExternal vm.loop target dependency }.react dependency (.dependency g)
  have hafter : vm.namespaceAfterDependencies value qs read = (target, qs.foldl reacts pushed) := by
    cases qs with
    | nil => exact absurd rfl hne
    | cons q rest => rfl
  have hown : Kept vm calls.walks owning calls fun _ => 0 := .own h nofun
  obtain ⟨howned, hopen⟩ := Kept.owned_own vm (.namespaceResult g)
  have hpush : Kept vm calls.walks pushed calls (Function.update (fun _ => 0) g qs.length) := by
    refine hown.bind fun h' => .pushGuard h' rfl ?_ nofun
    have hpos := length_pos_of_ne_nil hne
    refine ⟨howned, fun _ => hopen, fun hzero => ?_⟩
    have : ((qs.length : Nat) : Int) = 0 := hzero
    omega
  have hreact : Kept pushed calls.walks (qs.foldl reacts pushed) calls fun _ => 0 := by
    have hall := Kept.reactAll (f := reacts) (g := g) (fun {vm' missing' k q} hl hg hk hq =>
      (Kept.inheritExternal hl target q).bind fun hl' => Kept.reactDependency hl' hg hk
        (hq.grow hl.owner (Kept.inheritExternal hl target q).grows (Nat.le_refl _)))
      qs hpush.lively (by simp [pushed, g]) (Function.update_self _ _ _)
      fun q hq => (hqs q hq).grow h.owner hpush.grows (Nat.le_refl _)
    rwa [Function.update_idem, Function.update_eq_self g fun _ => (0 : Nat)] at hall
  rw [hafter]
  refine ⟨hpush.bind fun _ => hreact, ?_⟩
  have hlast : pushed.guards[g]? = some guard := by simp [pushed, g]
  obtain ⟨guard', hg', htarget, haction⟩ := hreact.grows.guards g guard hlast
  exact .result g guard' (List.getElem?_eq_some_iff.1 hg').1 hg' htarget ⟨value, haction⟩

/-! ## Steps of `start_async_module` -/

theorem visited_of_owns {p : Nat} (h : vm.Owns id p) : vm.Visited id := by
  intro evaluation heq
  rw [show vm.progress id = some (.evaluating, some p) from h] at heq
  cases heq

/-- A part of a step after which one call stands elsewhere. -/
theorem Going.kept {after : List Activation} (h : vm.Going (a :: l))
    (k : Kept vm (callsOf (a :: l)).walks vm' (callsOf (after ++ l)) fun _ => 0)
    (horderly : ∀ a' ∈ after, a'.Orderly vm' (callsOf (after ++ l)).walks)
    (hdistinct : ((after ++ l).filterMap Activation.running).Nodup)
    (howes : ∀ id dependency, a.owes id dependency →
      vm'.Visited dependency ∨ ∃ a' ∈ after, a'.owes id dependency) : vm'.Going (after ++ l) :=
  h.step k.lively k.grows horderly hdistinct (fun n hn => .inl (k.taken n hn)) howes

section

variable (h : vm.Going (.async frames outer (.enter id) caller :: l))

include h

/-- The module that was asked for is there, or its promise may be waited for. -/
theorem Going.answered {q : Nat} (hv : vm.Visited id)
    (k : Kept vm (callsOf (.async frames outer (.enter id) caller :: l)).walks vm'
      (callsOf (.async frames outer (.enter id) caller :: l)) fun _ => 0)
    (hq : vm'.Source (callsOf (.async frames outer (.enter id) caller :: l)).walks
      vm'.guards.length q) :
    vm'.Going ([.async frames outer (.returns (.ok q)) caller] ++ l) := by
  have hcalls : callsOf ([.async frames outer (.returns (.ok q)) caller] ++ l) =
      callsOf (.async frames outer (.enter id) caller :: l) := by
    show callsOf (.async frames outer (.returns (.ok q)) caller :: l) = _
    refine callsOf_congr (fun n => ?_) (fun n => ?_) (fun n p c => ?_) l
    all_goals exact Iff.rfl
  have hold := orderly_grow (h.orderly _ mem_cons_self) k.grows h.lively.owner
    fun n hn => ⟨_, mem_cons_self, hn⟩
  obtain ⟨hframes, houter, -, -⟩ := hold
  refine h.kept (hcalls ▸ k) (fun a' ha' => ?_) h.distinct fun n dependency hx => ?_
  · rw [mem_singleton] at ha'
    subst ha'
    rw [hcalls]
    refine ⟨fun frame hframe => ?_, houter, nofun, fun result hresult => ?_⟩
    · obtain ⟨howns, hdependencies, hscheduled⟩ := hframes frame hframe
      refine ⟨howns, hdependencies, fun n hn => .inl ?_⟩
      rcases hscheduled n hn with hvisited | heq
      · exact hvisited
      · cases heq
        exact k.grows.visits _ hv
    · cases hresult
      exact ⟨q, rfl, hq⟩
  · obtain ⟨frame, hframe, hid, hrest | henters⟩ := hx
    · exact .inr ⟨_, mem_singleton_self _, frame, hframe, hid, .inl hrest⟩
    · cases henters
      exact .inl (k.grows.visits _ hv)

/-- **`start_async_module`, up to its loop.** -/
theorem Going.enterAsync (hstart : vm.Startable id)
    (hdepth : ∀ record, vm.records id = some record → record.state = .linked →
      frames.length < maxCallDepth)
    (hapart : ∀ a ∈ l, ¬ a.walks id ∧ ∀ root, vm.records.cycleRoot id = some root → ¬ a.walks root)
    (method : Value) : (vm.enterAsync frames id (.found method false)).1.Going
      ([.async (vm.enterAsync frames id (.found method false)).2.1 outer
        (vm.enterAsync frames id (.found method false)).2.2 caller] ++ l) := by
  let calls := callsOf (.async frames outer (.enter id) caller :: l)
  have hold := h.orderly _ mem_cons_self
  have hleft : ¬ calls.walks id := by
    rintro ⟨a, ha, hwalks⟩
    rcases mem_cons.1 ha with rfl | ha
    · obtain ⟨frame, hframe, hid⟩ := hwalks
      exact hold.2.2.1 id rfl frame hframe hid
    · exact (hapart a ha).1 hwalks
  have hsettled : ∀ value, vm.Visited id →
      (vm.settledPromise .fulfilled value).2.Going ([.async frames outer
        (.returns (.ok (vm.settledPromise .fulfilled value).1)) caller] ++ l) := by
    intro value hv
    obtain ⟨k, hdone⟩ := Kept.settled h.lively value
    exact h.answered hv k (.fulfilled hdone)
  unfold Vm.enterAsync
  cases hr : vm.records id with
  | none => exact hsettled _ (by simp [Visited, progress, hr])
  | some record =>
    have hprogress : vm.progress id = some (record.state, record.evaluation) := by
      simp [progress, hr]
    have hok := h.lively.record id _ _ hprogress
    simp only
    cases he : record.evaluation with
    | some promise =>
      rw [he] at hok hprogress
      have hv : vm.Visited id := by
        intro e heq
        rw [hprogress] at heq
        simp only [Option.some.injEq, Prod.mk.injEq] at heq
        rw [heq.1] at hok
        cases hok
      simp only
      split
      · -- the module's cycle has its root elsewhere
        rename_i root hroot
        obtain ⟨n, hn, hevaluation⟩ := Option.bind_eq_some_iff.1 hroot
        obtain ⟨hcycle, hfilter⟩ := Option.filter_eq_some_iff.1 hn
        simp only [Bool.and_eq_true, bne_iff_ne, ne_eq, Bool.not_eq_true',
          contains_eq_mem, decide_eq_false_iff_not] at hfilter
        have hn : ¬ calls.walks n := by
          rintro ⟨a, ha, hwalks⟩
          rcases mem_cons.1 ha with rfl | ha
          · obtain ⟨frame, hframe, rfl⟩ := hwalks
            exact hfilter.2 (by simpa [ancestors] using ⟨frame, hframe, rfl⟩)
          · exact (hapart a ha).2 n (by simp [Records.cycleRoot, hr, hcycle]) hwalks
        have hsource : vm.Source calls.walks vm.guards.length root := by
          obtain ⟨state, hstate⟩ := evaluation_iff.1 hevaluation
          have hrole : vm.owned root = some (.evaluation n) := by
            cases h.lively.record n _ _ hstate with
            | evaluating _ howned hopen hdriven => exact howned
            | fulfilled _ howned hdone => exact howned
          exact .evaluation n hrole hn fun g guard hg _ => (List.getElem?_eq_some_iff.1 hg).1
        obtain ⟨k, hq⟩ := namespace_after h.lively [root] (by simp)
          (fun q hq => by rw [mem_singleton.1 hq]; exact hsource)
          (vm.namespaceObject id) (.found method false)
        exact h.answered hv k hq
      · refine h.answered hv (.refl h.lively) ?_
        generalize record.state = state at hok
        cases hok with
        | evaluating _ howned hopen hdriven =>
          exact .evaluation id howned hleft fun g guard hg _ =>
            (List.getElem?_eq_some_iff.1 hg).1
        | fulfilled _ howned hdone => exact .fulfilled hdone
    | none =>
      rw [he] at hok hprogress
      simp only
      split
      · rename_i hstate
        exact hsettled _ (by simp [Visited, hprogress, hstate])
      · rename_i value hstate
        rw [hstate] at hok
        cases hok
      · rename_i hevaluated hfailed
        have hl : record.state = .linked := by
          cases hstate : record.state with
          | linked => rfl
          | evaluating => exact absurd he (hstart record hr hstate)
          | evaluated => exact absurd hstate hevaluated
          | failed value => exact absurd hstate (hfailed value)
        rw [if_neg (Nat.not_le_of_lt (hdepth record hr hl))]
        let frame : AsyncFrame := ⟨id, vm.loop.next, record.requests, [], []⟩
        let call : Activation := .async (frame :: frames) outer .loop caller
        have hcalls : ∀ n, (callsOf ([call] ++ l)).walks n ↔ calls.walks n ∨ n = id := by
          intro n
          show (callsOf (call :: l)).walks n ↔ (callsOf (_ :: l)).walks n ∨ n = id
          simp only [callsOf_cons, call, Activation.walks, mem_cons, exists_eq_or_imp,
            frame, eq_comm (a := id)]
          rw [or_assoc, or_comm]
        obtain ⟨hlively, hgrow, howns, htaken⟩ := Kept.enter h.lively hr hl hcalls
          (show (callsOf (call :: l)).syncs = calls.syncs by
            simp only [calls, callsOf_cons]; rfl)
          (show (callsOf (call :: l)).bodies = calls.bodies by
            simp only [calls, callsOf_cons]; rfl)
          (fun n hn => by
            rcases hn with (⟨a, ha, hx⟩ | ⟨a, ha, p, c, hx⟩) | rfl
            · exact .inl ((hcalls n).2 (.inl ⟨a, ha, hx⟩))
            · rcases mem_cons.1 ha with rfl | ha
              · exact hx.elim
              · exact .inr ⟨a, mem_cons_of_mem _ ha, p, c, hx⟩
            · exact .inl ((hcalls n).2 (.inr rfl)))
        have hgrown := orderly_grow hold hgrow h.lively.owner fun n hn =>
          (hcalls n).2 (.inl ⟨_, mem_cons_self, hn⟩)
        obtain ⟨hframes, houter, -, -⟩ := hgrown
        have hvisited := visited_of_owns howns
        refine h.step hlively hgrow (fun a' ha' => ?_) h.distinct (fun n hn => ?_)
          fun n dependency hx => ?_
        · rw [mem_singleton] at ha'
          subst ha'
          refine ⟨fun frame' hframe' => ?_, houter, (by simp), (by simp)⟩
          rcases mem_cons.1 hframe' with rfl | hframe'
          · exact ⟨howns, (by simp), (by simp)⟩
          · obtain ⟨howns', hdependencies, hscheduled⟩ := hframes frame' hframe'
            refine ⟨howns', hdependencies, fun n hn => .inl ?_⟩
            rcases hscheduled n hn with hvisited' | heq
            · exact hvisited'
            · cases heq
              exact hvisited
        · rcases htaken n hn with hold | rfl
          · exact .inl hold
          · refine .inr fun requests dependency hrequests hdependency => ?_
            simp only [plan, hr, Option.map_some, Option.some.injEq] at hrequests
            subst hrequests
            exact ⟨call, mem_singleton_self _, frame, mem_cons_self, rfl, .inl hdependency⟩
        · obtain ⟨frame', hframe', hid, hrest | henters⟩ := hx
          · exact .inr ⟨call, mem_singleton_self _, frame',
              mem_cons_of_mem _ hframe', hid, .inl hrest⟩
          · cases henters
            exact .inl hvisited

end

/-- The innermost frame of a call stands elsewhere. -/
theorem Going.reframe {frame frame' : AsyncFrame} {control control' : AsyncControl}
    (h : vm.Going (.async (frame :: frames) outer control caller :: l))
    (k : Kept vm (callsOf (.async (frame :: frames) outer control caller :: l)).walks vm'
      (callsOf (.async (frame :: frames) outer control caller :: l)) fun _ => 0)
    (hid : frame'.id = frame.id) (hpromise : frame'.promise = frame.promise)
    (hdependencies : ∀ q ∈ frame'.dependencies, q ∈ frame.dependencies ∨ control = .returns (.ok q))
    (hcontrol : control = .loop ∨ ∃ q, control = .returns (.ok q))
    (hcontrol' : control' = .loop ∨ ∃ dependency, control' = .enter dependency ∧
      ∀ frame' ∈ frame :: frames, frame'.id ≠ dependency)
    (hscheduled : ∀ id ∈ frame'.scheduled, id ∈ frame.scheduled ∨ control' = .enter id)
    (howes : ∀ dependency, (dependency, .evaluation) ∈ frame.rest →
      vm'.Visited dependency ∨ (dependency, .evaluation) ∈ frame'.rest ∨
        control' = .enter dependency) :
    vm'.Going ([.async (frame' :: frames) outer control' caller] ++ l) := by
  have hruns : ∀ {frames id p c}, ¬ Activation.runs id p c (.async frames outer control caller) ∧
      ¬ Activation.runs id p c (.async frames outer control' caller) := by
    intro frames id p c
    constructor
    · rcases hcontrol with rfl | ⟨q, rfl⟩ <;> exact fun hx => hx
    · rcases hcontrol' with rfl | ⟨n, rfl, -⟩ <;> exact fun hx => hx
  have hcalls : callsOf ([.async (frame' :: frames) outer control' caller] ++ l) =
      callsOf (.async (frame :: frames) outer control caller :: l) := by
    show callsOf (.async (frame' :: frames) outer control' caller :: l) = _
    refine callsOf_congr (fun n => ?_) (fun n => ?_) (fun n p c => ?_) l
    · simp only [Activation.walks, mem_cons, exists_eq_or_imp, hid]
    · exact Iff.rfl
    · exact iff_of_false hruns.2 hruns.1
  have hrunning : ∀ {frames}, Activation.running (.async frames outer control caller) = none ∧
      Activation.running (.async frames outer control' caller) = none := by
    intro frames
    constructor
    · rcases hcontrol with rfl | ⟨q, rfl⟩ <;> rfl
    · rcases hcontrol' with rfl | ⟨n, rfl, -⟩ <;> rfl
  obtain ⟨hframes, houter, -, hreturns⟩ := orderly_grow (h.orderly _ mem_cons_self) k.grows
    h.lively.owner fun n hn => ⟨_, mem_cons_self, hn⟩
  have hvisited : ∀ other ∈ frame :: frames, ∀ id ∈ other.scheduled, vm'.Visited id := by
    intro other hother id hid
    rcases (hframes other hother).2.2 id hid with hv | rfl
    · exact hv
    · rcases hcontrol with heq | ⟨q, heq⟩ <;> cases heq
  refine h.kept (hcalls ▸ k) (fun a' ha' => ?_) ?_ fun n dependency hx => ?_
  · rw [mem_singleton] at ha'
    subst ha'
    rw [hcalls]
    refine ⟨fun other hother => ?_, houter, fun dependency hc other hother => ?_,
      fun result hresult => ?_⟩
    · rcases mem_cons.1 hother with rfl | hother
      · obtain ⟨howns, hdeps, -⟩ := hframes frame mem_cons_self
        refine ⟨by rw [hid, hpromise]; exact howns, fun q hq => ?_, fun n hn => ?_⟩
        · rcases hdependencies q hq with hq | hq
          · exact hdeps q hq
          · obtain ⟨q', heq, hs⟩ := hreturns _ hq
            cases heq
            exact hs
        · exact (hscheduled n hn).imp_left (hvisited frame mem_cons_self n)
      · obtain ⟨howns, hdeps, -⟩ := hframes other (mem_cons_of_mem _ hother)
        exact ⟨howns, hdeps, fun n hn => .inl (hvisited other (mem_cons_of_mem _ hother) n hn)⟩
    · rcases hcontrol' with heq | ⟨n, heq, hnot⟩
      · rw [heq] at hc
        cases hc
      · rw [heq] at hc
        cases hc
        rcases mem_cons.1 hother with rfl | hother
        · rw [hid]
          exact hnot frame mem_cons_self
        · exact hnot other (mem_cons_of_mem _ hother)
    · rcases hcontrol' with heq | ⟨n, heq, -⟩
      · rw [heq] at hresult
        cases hresult
      · rw [heq] at hresult
        cases hresult
  · have hdistinct := h.distinct
    rw [filterMap_cons_none hrunning.1] at hdistinct
    rwa [cons_append, nil_append, filterMap_cons_none hrunning.2]
  · obtain ⟨other, hother, heq, hrest | henters⟩ := hx
    · rcases mem_cons.1 hother with rfl | hother
      · rcases howes dependency hrest with hv | hrest' | henter
        · exact .inl hv
        · exact .inr ⟨_, mem_singleton_self _, frame', mem_cons_self, hid.trans heq,
            .inl hrest'⟩
        · refine .inr ⟨_, mem_singleton_self _, frame', mem_cons_self, hid.trans heq,
            .inr ?_⟩
          rw [henter]
          rfl
      · exact .inr ⟨_, mem_singleton_self _, other, mem_cons_of_mem _ hother, heq,
          .inl hrest⟩
    · rcases hcontrol with rfl | ⟨q, rfl⟩ <;> exact henters.elim

/-- The promise of a module that was walked may be waited for. -/
theorem source_left {p : Nat} (howned : vm.owned p = some (.evaluation id))
    (hleft : ¬ (callsOf l).walks id) : vm.Source (callsOf l).walks vm.guards.length p :=
  .evaluation id howned hleft fun _ _ hg _ => (List.getElem?_eq_some_iff.1 hg).1

/-- A new promise is not the end of a body that runs. -/
theorem running_fresh (h : vm.Lively calls missing)
    (hbodies : ∀ id p c, (callsOf l).bodies id p c → calls.bodies id p c) {c : Nat}
    (hc : vm.loop.next ≤ c) : .inr c ∉ l.filterMap Activation.running := by
  intro hmem
  obtain ⟨a, ha, hrunning⟩ := mem_filterMap.1 hmem
  unfold Activation.running at hrunning
  split at hrunning
  · cases hrunning
  · rename_i frames outer id p c' caller
    cases hrunning
    have howned := (h.body id p c (hbodies id p c ⟨_, ha, rfl, rfl, rfl⟩)).owned
    rw [h.ownedFresh hc] at howned
    cases howned
  · cases hrunning

/-- **The end of the loop**: the body starts, or a guard waits for the dependencies. -/
theorem Going.leaveLoop {frame : AsyncFrame}
    (h : vm.Going (.async (frame :: frames) outer .loop caller :: l)) (hrest : frame.rest = [])
    (hleft : ¬ (callsOf (.async frames outer .loop caller :: l)).walks frame.id) (read : ThenRead) :
    (vm.leaveLoop frame read).1.Going
      ([.async frames outer (vm.leaveLoop frame read).2 caller] ++ l) := by
  let calls := callsOf (.async (frame :: frames) outer .loop caller :: l)
  obtain ⟨hframes, -, -, -⟩ := h.orderly _ mem_cons_self
  obtain ⟨howns, hdependencies, -⟩ := hframes frame mem_cons_self
  obtain ⟨hopen, howned, -⟩ := h.lively.waits howns
  obtain ⟨hsteady, waits, hwaits⟩ := scan_ok frame.promise frame.dependencies h.lively.sound
    fun q hq => h.lively.source (hdependencies q hq)
  let scanned : Vm :=
    { vm with loop := (scanDependencies frame.promise frame.dependencies vm.loop).1 }
  have kscan : Kept vm calls.walks scanned calls fun _ => 0 :=
    .steady h.lively (hsteady.mono fun _ _ => trivial)
  have hwalks : ∀ n control, (callsOf (.async frames outer control caller :: l)).walks n →
      calls.walks n := by
    intro n control hn
    simp only [calls, callsOf_cons, Activation.walks, mem_cons, exists_eq_or_imp] at hn ⊢
    exact hn.imp_left .inr
  have hleft' : ∀ control,
      ¬ (callsOf ([.async frames outer control caller] ++ l)).walks frame.id := by
    intro control
    simp only [callsOf_cons, Activation.walks, cons_append, nil_append] at hleft ⊢
    exact hleft
  have hsyncs : ∀ n control, (callsOf (.async frames outer control caller :: l)).syncs n ↔
      calls.syncs n := by
    intro n control
    simp only [calls, callsOf_cons]
    exact Iff.rfl
  have hgoes : ∀ n control, calls.goes n → n ≠ frame.id →
      (callsOf (.async frames outer control caller :: l)).goes n := by
    intro n control hn hne
    simp only [calls, callsOf_cons, Activation.walks, mem_cons, exists_eq_or_imp] at hn ⊢
    rcases hn with ((heq | hn) | ⟨p, c, hx⟩) | hn
    · exact absurd heq.symm hne
    · exact .inl (.inl hn)
    · exact hx.elim
    · exact .inr hn
  have hdrop : ∀ n dependency,
      Activation.owes n dependency (.async (frame :: frames) outer .loop caller) →
      ∀ control, ∃ a' ∈ [Activation.async frames outer control caller], a'.owes n dependency := by
    rintro n dependency ⟨other, hother, heq, hx | hx⟩ control
    · rcases mem_cons.1 hother with rfl | hother
      · rw [hrest] at hx
        cases hx
      · exact ⟨_, mem_singleton_self _, other, hother, heq, .inl hx⟩
    · exact hx.elim
  have htail : ∀ {vm'' : Vm} {W'' : Nat → Prop} (control : AsyncControl),
      (∀ id, control ≠ .enter id) → (∀ result, control = .returns result →
        ∃ q, result = .ok q ∧ vm''.Source W'' vm''.guards.length q) →
      Grows vm calls.walks vm'' W'' → (∀ n, (∃ frame ∈ frames, frame.id = n) → W'' n) →
      Activation.Orderly vm'' W'' (.async frames outer control caller) := by
    intro vm'' W'' control henter hreturns hgrow hW
    have hold : Activation.Orderly vm calls.walks (.async frames outer .loop caller) := by
      obtain ⟨hframes, houter, -, -⟩ := h.orderly _ mem_cons_self
      exact ⟨fun other hother => hframes other (mem_cons_of_mem _ hother), houter, nofun, nofun⟩
    obtain ⟨hframes, houter, -, -⟩ := orderly_grow hold hgrow h.lively.owner hW
    refine ⟨fun other hother => ?_, houter, fun id hc => absurd hc (henter id), hreturns⟩
    obtain ⟨howns', hdeps, hscheduled⟩ := hframes other hother
    exact ⟨howns', hdeps, fun n hn => (hscheduled n hn).imp_right nofun⟩
  have hnone : (l.filterMap Activation.running).Nodup := by
    have hdistinct := h.distinct
    rwa [filterMap_cons_none (by rfl)] at hdistinct
  unfold Vm.leaveLoop
  rw [show scanDependencies frame.promise frame.dependencies vm.loop =
    (scanned.loop, .ok waits) from Prod.ext rfl hwaits]
  cases waits with
  | false =>
    let c := scanned.loop.next
    let call : Activation := .async frames outer (.body frame.id frame.promise c) caller
    have hstart := Kept.start (callsOf ([call] ++ l)) kscan.lively howns
      (fun n hn => hwalks n _ hn) (fun n => hsyncs n _)
      (fun id' p' c' hb => by
        obtain ⟨a, ha, hx⟩ := hb
        rcases mem_cons.1 ha with rfl | ha
        · exact .inr ⟨hx.1.symm, hx.2.1.symm, hx.2.2.symm⟩
        · exact .inl ⟨a, mem_cons_of_mem _ ha, hx⟩)
      (fun n hn => by
        by_cases hne : n = frame.id
        · exact .inr ⟨call, mem_cons_self, frame.promise, c, hne.symm, rfl, rfl⟩
        · exact hgoes n _ hn hne)
    obtain ⟨hcompletion, kstart, hfresh⟩ := hstart
    have k := kscan.bind fun _ => kstart
    simp only
    split
    · rename_i completion vm' heq
      have hc : completion = c := by
        have hfirst := congrArg Prod.fst heq
        exact Option.some.inj (hfirst.symm.trans hcompletion)
      subst hc
      rw [show vm' = (scanned.startBody frame.id frame.promise).2 from
        (congrArg Prod.snd heq).symm]
      refine h.kept k (fun a' ha' => ?_) ?_ fun n dependency hx => .inr (hdrop n dependency hx _)
      · rw [mem_singleton] at ha'
        subst ha'
        exact htail _ nofun nofun k.grows fun n hn => ⟨call, mem_cons_self, hn⟩
      · refine nodup_cons.2 ⟨?_, hnone⟩
        have hfresh' := running_fresh kscan.lively (fun _ _ _ hb => hb) (Nat.le_refl _)
        rwa [filterMap_cons_none (by rfl)] at hfresh'
    · rename_i vm' heq
      have hfirst := congrArg Prod.fst heq
      rw [show (scanned.startBody frame.id frame.promise).1 = some c from hcompletion] at hfirst
      cases hfirst
  | true =>
    let g := vm.guards.length
    let guard : Guard := ⟨frame.promise, .evaluate frame.id, frame.dependencies.length⟩
    let pushed : Vm := { scanned with guards := vm.guards ++ [guard] }
    let reacts := fun (vm : Vm) dependency => vm.react dependency (.dependency g)
    let call : Activation := .async frames outer (.returns (.ok frame.promise)) caller
    have hpush : Kept scanned calls.walks pushed calls
        (Function.update (fun _ => 0) g frame.dependencies.length) := by
      refine .pushGuard kscan.lively rfl (fun _ => howns) fun id ha => ?_
      cases ha
      exact ⟨_, mem_cons_self, frame, mem_cons_self, rfl⟩
    have hreact : Kept pushed calls.walks (frame.dependencies.foldl reacts pushed) calls
        fun _ => 0 := by
      have hall := Kept.reactAll (f := reacts) (g := g) (fun {vm' missing' k q} hl hg hk hq =>
        Kept.reactDependency hl hg hk hq) frame.dependencies hpush.lively
        (by simp [pushed, g]) (Function.update_self _ _ _) fun q hq =>
          (hdependencies q hq).grow h.lively.owner (kscan.bind fun _ => hpush).grows (Nat.le_refl _)
      rwa [Function.update_idem, Function.update_eq_self g fun _ => (0 : Nat)] at hall
    have hlast : pushed.guards[g]? = some guard := by simp [pushed, g]
    have hguards : (frame.dependencies.foldl reacts pushed).guards = pushed.guards := by
      generalize frame.dependencies = qs
      generalize pushed = v
      induction qs generalizing v with
      | nil => rfl
      | cons q rest ih => exact ih (reacts v q)
    have kleave : Kept (frame.dependencies.foldl reacts pushed) calls.walks
        (frame.dependencies.foldl reacts pushed) (callsOf ([call] ++ l)) fun _ => 0 := by
      refine .leave hreact.lively (fun n hn => hwalks n _ hn) (fun n => hsyncs n _)
        (fun id p c hb => ?_) fun n q ho hd => ?_
      · obtain ⟨a, ha, hx⟩ := hb
        rcases mem_cons.1 ha with rfl | ha
        · exact hx.elim
        · exact hreact.lively.body id p c ⟨a, mem_cons_of_mem _ ha, hx⟩
      · cases hd with
        | active call =>
          by_cases hne : n = frame.id
          · -- the guard goes on with the module
            subst hne
            have hpos : frame.dependencies ≠ [] := by
              intro hnil
              rw [hnil] at hwaits
              cases hwaits
            have hlength := length_pos_of_ne_nil hpos
            refine .waiting g guard (by rw [hguards]; exact hlast) rfl ?_
            show (0 : Int) < (frame.dependencies.length : Nat)
            omega
          · exact .active (hgoes n _ call hne)
        | waiting g guard hg ha hpos => exact .waiting g guard hg ha hpos
        | queued job => exact .queued job
        | suspended d c hd hderives huntaken hc hw =>
          exact .suspended d c hd hderives huntaken hc hw
    have k := kscan.bind fun _ => hpush.bind fun _ => hreact.bind fun _ => kleave
    refine h.kept k (fun a' ha' => ?_) ?_ fun n dependency hx => .inr (hdrop n dependency hx _)
    · rw [mem_singleton] at ha'
      subst ha'
      refine htail _ nofun (fun result hc => ?_) k.grows fun n hn => ⟨call, mem_cons_self, hn⟩
      cases hc
      exact ⟨_, rfl, source_left (k.grows.owned _ _ howned) (hleft' _)⟩
    · rwa [cons_append, nil_append, filterMap_cons_none (by rfl)]

end Vm

end NapiVm.Modules
