import NapiVm.AsyncGen.Basic

/-!
# Requests are served one at a time

What an async generator is for, as an automaton over its events: a server that takes
requests by number, resumes the body for one of them at a time, waits where the body
waits, and settles the request with what its own resumption came to.  The generator
refines it: whatever calls and jobs come in between, its history is one the server
accepts.

* `Server.step` — what the server allows.
* `Vm.drive_spec` — the driver goes on as the server does, until guest code runs.
* `Vm.served_perform` — so does every move.
-/

namespace NapiVm.AsyncGen

open Promises

namespace GenResume

def isNext : GenResume → Bool
  | .next _ => true
  | _ => false

/-- What a settled promise resumes the body with. -/
def wake (state : PromiseState) (value : Value) : GenResume :=
  if state = .fulfilled then .next (some value) else .throw value

end GenResume

/-- What a settled promise settles a `return` request with. -/
def closeResult (state : PromiseState) (value : Value) : Result :=
  if state = .fulfilled then .ok (value, true) else .error value

/-- Where the server is with its current request. -/
inductive Phase where
  | free
  | running
  | pausing (promise : Nat)
  | waiting (derived promise : Nat)
  | ready (completion : GenResume)
  | wrapping
  | closing (derived promise : Nat)
  | ended (result : Result)
  deriving DecidableEq

/-- The server: the number of the current request, and how the body stands. -/
structure Server where
  current : Nat
  started : Bool
  finished : Bool
  phase : Phase

namespace Server

/-- Before the first request. -/
def initial : Server := ⟨0, false, false, .free⟩

/-- What the end of a run of the body means. -/
def bodyEnded (s : Server) : BodyOutcome → Server
  | .awaits p => { s with phase := .pausing p }
  | .yielded value => { s with phase := .ended (.ok (value, false)) }
  | .returned value => { s with phase := .ended (.ok (value, true)), finished := true }
  | .threw reason => { s with phase := .ended (.error reason), finished := true }

/-- May the request be answered so without the body? -/
def mayAnswer (s : Server) (completion : GenResume) (result : Result) : Bool :=
  match completion with
  | .next _ => s.finished && result == .ok (.undefined, true)
  | .throw value => (s.finished || !s.started) && result == .error value
  | .ret _ => false

/-- Take a step if it is allowed. -/
def guarded (allowed : Bool) (s : Server) : Option Server := if allowed then some s else none

/-- What the server allows. -/
def step (s : Server) (e : Event) : Option Server :=
  match s.phase, e with
  | .free, .resumed n completion =>
    guarded (n == s.current && !s.finished && (s.started || completion.isNext))
      { s with phase := .running, started := true }
  | .ready completion, .resumed n completion' =>
    guarded (n == s.current && !s.finished && completion' == completion)
      { s with phase := .running }
  | .running, .ended n outcome => guarded (n == s.current) (s.bodyEnded outcome)
  | .pausing p, .awaited n derived p' =>
    guarded (n == s.current && p' == p) { s with phase := .waiting derived p }
  | .waiting derived p, .woken n derived' p' state value =>
    guarded (n == s.current && derived' == derived && p' == p)
      { s with phase := .ready (.wake state value) }
  | .free, .answered n completion result =>
    guarded (n == s.current && s.mayAnswer completion result)
      { s with phase := .ended result, finished := true }
  | .free, .closing n _ =>
    guarded (n == s.current && (s.finished || !s.started))
      { s with phase := .wrapping, finished := true }
  | .wrapping, .awaited n derived p =>
    guarded (n == s.current) { s with phase := .closing derived p }
  | .wrapping, .unwrapped n reason =>
    guarded (n == s.current) { s with phase := .ended (.error reason) }
  | .closing derived p, .woken n derived' p' state value =>
    guarded (n == s.current && derived' == derived && p' == p)
      { s with phase := .ended (closeResult state value) }
  | .ended result, .settled n _ result' =>
    guarded (n == s.current && result' == result)
      { s with phase := .free, current := s.current + 1 }
  | _, _ => none

/-- The server after some events. -/
def run (s : Server) : List Event → Option Server
  | [] => some s
  | e :: rest => (s.step e).bind (run · rest)

theorem run_append (s : Server) (l : List Event) (e : Event) :
    s.run (l ++ [e]) = (s.run l).bind (·.step e) := by
  induction l generalizing s with
  | nil =>
    simp only [List.nil_append, run, Option.bind_some]
    cases s.step e <;> rfl
  | cons a rest ih =>
    simp only [List.cons_append, run, Option.bind_assoc]
    congr 1
    funext t
    exact ih t

theorem guarded_eq_some {allowed : Bool} {s t : Server} (h : guarded allowed s = some t) :
    allowed = true ∧ t = s := by
  unfold guarded at h
  split at h
  · rename_i ha
    exact ⟨ha, (Option.some.inj h).symm⟩
  · cases h

/-- The steps of the server, by name. -/
inductive Step (s : Server) : Event → Server → Prop where
  | start {completion : GenResume} (free : s.phase = .free) (unfinished : s.finished = false) :
      Step s (.resumed s.current completion) { s with phase := .running, started := true }
  | goOn {completion : GenResume} (ready : s.phase = .ready completion)
      (unfinished : s.finished = false) :
      Step s (.resumed s.current completion) { s with phase := .running }
  | bodyEnded {outcome : BodyOutcome} (running : s.phase = .running) :
      Step s (.ended s.current outcome) (s.bodyEnded outcome)
  | pause {derived p : Nat} (pausing : s.phase = .pausing p) :
      Step s (.awaited s.current derived p) { s with phase := .waiting derived p }
  | wake {derived p : Nat} {state : PromiseState} {value : Value}
      (waiting : s.phase = .waiting derived p) :
      Step s (.woken s.current derived p state value) { s with phase := .ready (.wake state value) }
  | answer {completion : GenResume} {result : Result} (free : s.phase = .free)
      (may : s.mayAnswer completion result = true) :
      Step s (.answered s.current completion result)
        { s with phase := .ended result, finished := true }
  | close {value : Value} (free : s.phase = .free) (may : (s.finished || !s.started) = true) :
      Step s (.closing s.current value) { s with phase := .wrapping, finished := true }
  | wrap {derived p : Nat} (wrapping : s.phase = .wrapping) :
      Step s (.awaited s.current derived p) { s with phase := .closing derived p }
  | unwrap {reason : Value} (wrapping : s.phase = .wrapping) :
      Step s (.unwrapped s.current reason) { s with phase := .ended (.error reason) }
  | closed {derived p : Nat} {state : PromiseState} {value : Value}
      (closing : s.phase = .closing derived p) :
      Step s (.woken s.current derived p state value)
        { s with phase := .ended (closeResult state value) }
  | settle {promise : Nat} {result : Result} (ended : s.phase = .ended result) :
      Step s (.settled s.current promise result)
        { s with phase := .free, current := s.current + 1 }

attribute [local simp] step in
theorem step_cases {s t : Server} {e : Event} (h : s.step e = some t) : Step s e t := by
  unfold step at h
  split at h
  case h_12 => cases h
  all_goals
    rename_i hp
    obtain ⟨ha, rfl⟩ := guarded_eq_some h
    simp only [Bool.and_eq_true, beq_iff_eq, Bool.not_eq_true'] at ha
  · obtain ⟨⟨rfl, hf⟩, -⟩ := ha
    exact .start hp hf
  · obtain ⟨⟨rfl, hf⟩, rfl⟩ := ha
    exact .goOn hp hf
  · subst ha
    exact .bodyEnded hp
  · obtain ⟨rfl, rfl⟩ := ha
    exact .pause hp
  · obtain ⟨⟨rfl, rfl⟩, rfl⟩ := ha
    exact .wake hp
  · obtain ⟨rfl, hmay⟩ := ha
    exact .answer hp hmay
  · obtain ⟨rfl, hmay⟩ := ha
    exact .close hp hmay
  · subst ha
    exact .wrap hp
  · subst ha
    exact .unwrap hp
  · obtain ⟨⟨rfl, rfl⟩, rfl⟩ := ha
    exact .closed hp
  · obtain ⟨rfl, rfl⟩ := ha
    exact .settle hp

end Server

/-! ## What the server allows, in other words -/

namespace Event

/-- The number of the request that is settled. -/
def settles : Event → Option Nat
  | .settled n _ _ => some n
  | _ => none

/-- The body is resumed. -/
def isResumed : Event → Bool
  | .resumed _ _ => true
  | _ => false

/-- The generator completes. -/
def completes : Event → Bool
  | .ended _ (.returned _) => true
  | .ended _ (.threw _) => true
  | .answered _ _ _ => true
  | .closing _ _ => true
  | _ => false

/-- An await with this derived promise starts. -/
def awaits (d : Nat) : Event → Bool
  | .awaited _ d' _ => d' == d
  | _ => false

/-- The reaction of that await runs. -/
def wakes (d : Nat) : Event → Bool
  | .woken _ d' _ _ _ => d' == d
  | _ => false

end Event

/-- Is the server at the await with this derived promise? -/
def Phase.waitsOn (d : Nat) : Phase → Bool
  | .waiting d' _ => d' == d
  | .closing d' _ => d' == d
  | _ => false

namespace Server

variable {s t : Server} {e : Event}

/-- A step settles the current request, or none. -/
theorem step_settles (h : s.step e = some t) :
    (e.settles = some s.current ∧ t.current = s.current + 1) ∨
      (e.settles = none ∧ t.current = s.current) := by
  cases step_cases h with
  | settle => exact .inl ⟨rfl, rfl⟩
  | bodyEnded =>
    rename_i outcome hp
    cases outcome <;> exact .inr ⟨rfl, rfl⟩
  | _ => exact .inr ⟨rfl, rfl⟩

/-- The body is resumed for the current request, when nothing is under way or its await
is over, and never once the generator has completed. -/
theorem step_resumed {n : Nat} {completion : GenResume}
    (h : s.step (.resumed n completion) = some t) :
    n = s.current ∧ s.finished = false ∧ (s.phase = .free ∨ s.phase = .ready completion) := by
  cases step_cases h with
  | start free hopen => exact ⟨rfl, hopen, .inl free⟩
  | goOn ready hopen => exact ⟨rfl, hopen, .inr ready⟩

/-- A generator that has completed stays so. -/
theorem step_finished (h : s.step e = some t) (hf : s.finished = true ∨ e.completes = true) :
    t.finished = true := by
  cases step_cases h with
  | bodyEnded =>
    rename_i outcome hp
    cases outcome with
    | returned value => rfl
    | threw reason => rfl
    | awaits p => exact hf.resolve_right Bool.false_ne_true
    | yielded value => exact hf.resolve_right Bool.false_ne_true
  | answer => rfl
  | close => rfl
  | _ => exact hf.resolve_right Bool.false_ne_true

/-- An await starts once for each time it ends. -/
theorem step_waits (h : s.step e = some t) (d : Nat) :
    (e.awaits d).toNat + (s.phase.waitsOn d).toNat =
      (e.wakes d).toNat + (t.phase.waitsOn d).toNat := by
  cases step_cases h with
  | bodyEnded hp =>
    rename_i outcome
    rw [hp]
    cases outcome <;> rfl
  | start hp _ | goOn hp _ | pause hp | wake hp | answer hp _ | close hp _ | wrap hp | unwrap hp
  | closed hp | settle hp =>
    rw [hp]
    simp [Event.awaits, Event.wakes, Phase.waitsOn]

theorem run_cons {rest : List Event} :
    s.run (e :: rest) = some t ↔ ∃ u, s.step e = some u ∧ u.run rest = some t :=
  Option.bind_eq_some_iff

/-- The server just before an event. -/
theorem run_split {before after : List Event} (h : s.run (before ++ e :: after) = some t) :
    ∃ u v, s.run before = some u ∧ u.step e = some v ∧ v.run after = some t := by
  induction before generalizing s with
  | nil =>
    obtain ⟨v, hv, hrest⟩ := run_cons.1 h
    exact ⟨s, v, rfl, hv, hrest⟩
  | cons a rest ih =>
    obtain ⟨s', hs', hrest⟩ := run_cons.1 h
    obtain ⟨u, v, hu, hv, hafter⟩ := ih hrest
    exact ⟨u, v, run_cons.2 ⟨s', hs', hu⟩, hv, hafter⟩

/-- **Requests are settled in their order, each of them once.** -/
theorem run_settles {l : List Event} (h : s.run l = some t) :
    s.current ≤ t.current ∧
      l.filterMap Event.settles = List.range' s.current (t.current - s.current) := by
  induction l generalizing s with
  | nil =>
    cases h
    simp
  | cons e rest ih =>
    obtain ⟨u, hu, hrest⟩ := run_cons.1 h
    obtain ⟨hle, hlist⟩ := ih hrest
    rcases step_settles hu with ⟨he, hcurrent⟩ | ⟨he, hcurrent⟩
    · have hlen : t.current - s.current = (t.current - u.current) + 1 := by omega
      refine ⟨by omega, ?_⟩
      rw [List.filterMap_cons_some he, hlist, hlen, List.range'_succ, hcurrent]
    · refine ⟨by omega, ?_⟩
      rw [List.filterMap_cons_none he, hlist, hcurrent]

/-- **No request resumes a body that has completed.** -/
theorem run_finished {l : List Event} (h : s.run l = some t) (hf : s.finished = true) :
    ∀ e ∈ l, e.isResumed = false := by
  induction l generalizing s with
  | nil =>
    intro e he
    cases he
  | cons a rest ih =>
    obtain ⟨u, hu, hrest⟩ := run_cons.1 h
    intro e he
    rcases List.mem_cons.1 he with rfl | he
    · cases step_cases hu with
      | start _ hopen | goOn _ hopen =>
        rw [hf] at hopen
        cases hopen
      | _ => rfl
    · exact ih hrest (step_finished hu (.inl hf)) e he

/-- Awaits that started ended, but for the one that is under way. -/
theorem run_waits {l : List Event} (h : s.run l = some t) (d : Nat) :
    l.countP (Event.awaits d) + (s.phase.waitsOn d).toNat =
      l.countP (Event.wakes d) + (t.phase.waitsOn d).toNat := by
  induction l generalizing s with
  | nil =>
    cases h
    rfl
  | cons e rest ih =>
    obtain ⟨u, hu, hrest⟩ := run_cons.1 h
    have hstep := step_waits hu d
    have hrest := ih hrest
    rw [List.countP_cons, List.countP_cons]
    cases hea : e.awaits d <;> cases hew : e.wakes d <;> simp [hea, hew] at hstep ⊢ <;> omega

end Server

namespace Vm

/-- The server accepts the history, and the generator's book-keeping is its own. -/
structure Tracks (vm : Vm) (s : Server) : Prop where
  trace : Server.initial.run vm.gen.history = some s
  started : s.started = vm.gen.started
  finished : s.finished = vm.gen.done
  numbers : vm.gen.requests.map Request.number =
    List.range' s.current vm.gen.requests.length
  calls : vm.gen.calls = s.current + vm.gen.requests.length

/-- The mode of the generator is the phase of the server. -/
def Stable (vm : Vm) (s : Server) : Prop :=
  match vm.gen.mode with
  | .idle => vm.gen.busy = false ∧ s.phase = .free ∧ vm.gen.requests = []
  | .running => vm.gen.busy = true ∧ s.phase = .running ∧ vm.gen.requests ≠ [] ∧
      vm.gen.started = true ∧ vm.gen.done = false
  | .settling _ => vm.gen.busy = true ∧ s.phase = .free
  | .wrapping _ => vm.gen.busy = true ∧ s.phase = .wrapping ∧ vm.gen.requests ≠ [] ∧
      vm.gen.done = true
  | .awaiting derived p none => vm.gen.busy = true ∧ s.phase = .waiting derived p ∧
      vm.gen.requests ≠ [] ∧ vm.gen.started = true ∧ vm.gen.done = false
  | .awaiting derived p (some done) => vm.gen.busy = true ∧ s.phase = .closing derived p ∧
      vm.gen.requests ≠ [] ∧ vm.gen.done = true ∧ done = true

/-- The driver may take the next request, or go on with the one at the front. -/
def Drivable (vm : Vm) (s : Server) : Prop :=
  vm.gen.busy = false ∧ vm.gen.mode = .idle ∧
    (s.phase = .free ∨ ∃ request rest, vm.gen.requests = request :: rest ∧
      s.phase = .ready request.completion ∧ (∀ value, request.completion ≠ .ret value) ∧
      vm.gen.started = true ∧ vm.gen.done = false)

variable {vm : Vm} {s : Server}

namespace Tracks

theorem number_front (h : vm.Tracks s) {request : Request} {rest : List Request}
    (hr : vm.gen.requests = request :: rest) : request.number = s.current := by
  have := h.numbers
  rw [hr] at this
  simp only [List.map_cons, List.length_cons, List.range'_succ, List.cons.injEq] at this
  exact this.1

/-- The server takes the step the generator notes. -/
theorem next (h : vm.Tracks s) {vm' : Vm} {e : Event} {t : Server} (he : s.step e = some t)
    (hc : t.current = s.current) (hhistory : vm'.gen.history = vm.gen.history ++ [e])
    (hs : t.started = vm'.gen.started) (hf : t.finished = vm'.gen.done)
    (hr : vm'.gen.requests = vm.gen.requests) (hcalls : vm'.gen.calls = vm.gen.calls) :
    vm'.Tracks t where
  trace := by
    rw [hhistory, Server.run_append, h.trace]
    exact he
  started := hs
  finished := hf
  numbers := by
    rw [hr, hc]
    exact h.numbers
  calls := by
    rw [hr, hc, hcalls]
    exact h.calls

end Tracks

/-- The driver is between two requests. -/
def Between (vm : Vm) (s : Server) (rest : List Request) : Prop :=
  vm.gen.busy = false ∧ vm.gen.mode = .idle ∧ s.phase = .free ∧ vm.gen.requests = rest

/-- What a part of the driver does: it goes on with the other requests, or guest code runs. -/
def Goes (rest : List Request) (r : Bool × Vm) : Prop :=
  ∃ s, r.2.Tracks s ∧ (if r.1 then r.2.Between s rest else r.2.Stable s)

variable {request : Request} {rest : List Request} {result : Result} {vm' : Vm}

section

variable (h : vm.Tracks s)

include h

section

variable (hr : vm.gen.requests = request :: rest)

include hr

/-- The request at the front is taken out of the queue. -/
theorem Tracks.settled (hp : s.phase = .ended result) :
    (Vm.note { vm with gen := { vm.gen with requests := rest } }
      (.settled request.number request.promise result)).Tracks
      { s with phase := .free, current := s.current + 1 } := by
  have hn := h.numbers
  have hc := h.calls
  rw [hr] at hn hc
  simp only [List.map_cons, List.length_cons, List.range'_succ, List.cons.injEq] at hn hc
  refine ⟨?_, h.started, h.finished, hn.2, ?_⟩
  · show Server.initial.run (vm.gen.history ++ [_]) = some _
    rw [Server.run_append, h.trace]
    simp [Server.step, hp, Server.guarded, hn.1]
  · show vm.gen.calls = s.current + 1 + rest.length
    omega

theorem settle_spec (hp : s.phase = .ended result) (hb : vm.gen.busy = true) :
    Goes rest (vm.settle request rest result) := by
  have ht := h.settled hr hp
  cases result with
  | error reason =>
    refine ⟨_, ⟨ht.trace, ht.started, ht.finished, ht.numbers, ht.calls⟩, ?_⟩
    exact ⟨rfl, rfl, rfl, rfl⟩
  | ok pair =>
    simp only [settle]
    split
    · refine ⟨_, ⟨ht.trace, ht.started, ht.finished, ht.numbers, ht.calls⟩, ?_⟩
      exact ⟨hb, rfl⟩
    · refine ⟨_, ⟨ht.trace, ht.started, ht.finished, ht.numbers, ht.calls⟩, ?_⟩
      exact ⟨rfl, rfl, rfl, rfl⟩

/-- The body is resumed for the request at the front. -/
theorem goes_resumed {t : Server}
    (he : s.step (.resumed request.number request.completion) = some t) (hc : t.current = s.current)
    (ht : t.started = true) (hp : t.phase = .running)
    (hgen : vm'.gen = { vm.gen with
      busy := true, started := true, done := false, mode := .running,
      history := vm.gen.history ++ [.resumed request.number request.completion] })
    (hf : t.finished = false) (rest' : List Request) : Goes rest' (false, vm') := by
  refine ⟨t, h.next he hc ?_ ?_ ?_ ?_ ?_, ?_⟩
  · rw [hgen]
  · rw [hgen]
    exact ht
  · rw [hgen]
    exact hf
  · rw [hgen]
  · rw [hgen]
  · simp only [Bool.false_eq_true, if_false, Stable, hgen]
    refine ⟨trivial, hp, ?_, trivial, trivial⟩
    rw [hr]
    exact List.cons_ne_nil _ _

end

/-- A request is answered without the body. -/
theorem goes_answered (hfree : s.phase = .free) (hr : vm.gen.requests = request :: rest)
    (hmay : s.mayAnswer request.completion result = true)
    (hgen : vm'.gen = { vm.gen with
      busy := true, done := true,
      history := vm.gen.history ++ [.answered request.number request.completion result] }) :
    Goes rest (vm'.settle request rest result) := by
  have he : s.step (.answered request.number request.completion result) =
      some { s with phase := .ended result, finished := true } := by
    simp [Server.step, hfree, Server.guarded, h.number_front hr, hmay]
  have ht : vm'.Tracks { s with phase := .ended result, finished := true } := by
    refine h.next he rfl ?_ ?_ ?_ ?_ ?_
    · rw [hgen]
    · rw [hgen]
      exact h.started
    · rw [hgen]
    · rw [hgen]
    · rw [hgen]
  refine settle_spec ht ?_ rfl ?_
  · rw [hgen]
    exact hr
  · rw [hgen]

/-- A `return` finds no body to resume. -/
theorem goes_closing (hfree : s.phase = .free) (hr : vm.gen.requests = request :: rest)
    (value : Value) (hmay : (s.finished || !s.started) = true)
    (hgen : vm'.gen = { vm.gen with
      busy := true, done := true, mode := .wrapping value,
      history := vm.gen.history ++ [.closing request.number value] })
    (rest' : List Request) : Goes rest' (false, vm') := by
  have he : s.step (.closing request.number value) =
      some { s with phase := .wrapping, finished := true } := by
    simp only [Server.step, hfree, Server.guarded, h.number_front hr, beq_self_eq_true,
      Bool.true_and, hmay, if_true]
  refine ⟨_, h.next he rfl ?_ ?_ ?_ ?_ ?_, ?_⟩
  · rw [hgen]
  · rw [hgen]
    exact h.started
  · rw [hgen]
  · rw [hgen]
  · rw [hgen]
  · simp only [Bool.false_eq_true, if_false, Stable, hgen]
    refine ⟨trivial, trivial, ?_, trivial⟩
    rw [hr]
    exact List.cons_ne_nil _ _

theorem serve_spec (hd : vm.Drivable s) (hr : vm.gen.requests = request :: rest) :
    Goes rest (vm.serve request rest) := by
  have hn := h.number_front hr
  have hst := h.started
  have hfin := h.finished
  obtain ⟨-, -, hphase⟩ := hd
  rcases hphase with hfree | ⟨request', rest', hr', hready, hret, hstarted, hdone⟩
  · have hresumed : s.finished = false → (s.started || request.completion.isNext) = true →
        s.step (.resumed request.number request.completion) =
          some { s with phase := .running, started := true } := by
      intro hf hx
      simp [Server.step, hfree, Server.guarded, hn, hf, hx]
    have hon : ¬ (vm.gen.done || !vm.gen.started) = true →
        vm.gen.done = false ∧ vm.gen.started = true ∧ s.finished = false ∧ s.started = true := by
      rw [hfin, hst]
      simp +contextual
    cases hc : request.completion with
    | ret value =>
      simp only [serve, hc]
      split
      · rename_i hcomplete
        refine goes_closing h hfree hr value ?_ ?_ rest
        · rw [hfin, hst]
          exact hcomplete
        · simp [enter, Vm.note, hcomplete]
      · rename_i hcomplete
        obtain ⟨hdone, hstarted, hf, hs⟩ := hon hcomplete
        refine goes_resumed h hr (hresumed hf (by simp [hs])) rfl rfl rfl ?_ hf rest
        simp [enter, Vm.note, hdone, hstarted, hc]
    | next value =>
      simp only [serve, hc, Bool.or_false]
      split
      · rename_i hdone
        refine goes_answered h hfree hr ?_ ?_
        · simp [Server.mayAnswer, hc, hfin, hdone]
        · simp [Vm.note, hdone, hc]
      · rename_i hdone
        have hf : s.finished = false := by
          rw [hfin]
          simpa using hdone
        refine goes_resumed h hr (hresumed hf (by simp [hc, GenResume.isNext])) rfl rfl rfl ?_ hf
          rest
        simp only [Bool.not_eq_true] at hdone
        simp [Vm.note, hdone, hc]
    | throw value =>
      simp only [serve, hc, Bool.or_false]
      split
      · rename_i hcomplete
        refine goes_answered h hfree hr ?_ ?_
        · rw [← hfin, ← hst] at hcomplete
          simpa [Server.mayAnswer, hc] using hcomplete
        · simp [Vm.note, hc]
      · rename_i hcomplete
        obtain ⟨hdone, hstarted, hf, hs⟩ := hon hcomplete
        refine goes_resumed h hr (hresumed hf (by simp [hs])) rfl rfl rfl ?_ hf rest
        simp [enter, Vm.note, hdone, hstarted, hc]
  · rw [hr] at hr'
    cases hr'
    have hf : s.finished = false := hfin.trans hdone
    have hs : s.started = true := hst.trans hstarted
    have hresumed : s.step (.resumed request.number request.completion) =
        some { s with phase := .running } := by
      simp [Server.step, hready, Server.guarded, hn, hf]
    cases hc : request.completion with
    | ret value => exact absurd hc (hret value)
    | next value =>
      simp only [serve, hc, hdone, Bool.or_false, Bool.false_eq_true, if_false]
      refine goes_resumed h hr hresumed rfl hs rfl ?_ hf rest
      simp [Vm.note, hc]
    | throw value =>
      simp only [serve, hc, hdone, hstarted, Bool.or_false, Bool.not_true, Bool.false_eq_true,
        if_false]
      refine goes_resumed h hr hresumed rfl hs rfl ?_ hf rest
      simp [enter, Vm.note, hc]

omit h in
theorem driveFrom_spec (requests : List Request) (vm : Vm) (s : Server) (h : vm.Tracks s)
    (hd : vm.Drivable s) (hr : vm.gen.requests = requests) :
    ∃ t, (driveFrom requests vm).Tracks t ∧ (driveFrom requests vm).Stable t := by
  induction requests generalizing vm s with
  | nil =>
    obtain ⟨hbusy, hmode, hphase⟩ := hd
    refine ⟨s, h, ?_⟩
    rcases hphase with hfree | ⟨request, rest, hr', -⟩
    · simp only [driveFrom, Stable, hmode]
      exact ⟨hbusy, hfree, hr⟩
    · rw [hr] at hr'
      cases hr'
  | cons request rest ih =>
    obtain ⟨t, ht, hgoes⟩ := serve_spec h hd hr
    simp only [driveFrom]
    split
    · rename_i vm' heq
      rw [heq] at ht hgoes
      obtain ⟨hbusy, hmode, hfree, hrest⟩ := hgoes
      exact ih vm' t ht ⟨hbusy, hmode, .inl hfree⟩ hrest
    · rename_i vm' heq
      rw [heq] at ht hgoes
      exact ⟨t, ht, hgoes⟩

/-- **The driver goes on as the server does**, until guest code runs. -/
theorem drive_spec (hd : vm.Drivable s) : ∃ t, vm.drive.Tracks t ∧ vm.drive.Stable t := by
  have hb : vm.gen.busy = false := hd.1
  simp only [drive, hb, Bool.false_eq_true, if_false]
  exact driveFrom_spec _ vm s h hd rfl

/-- The request at the front is settled with what was found for it. -/
theorem settleFront_spec (hr : vm.gen.requests = request :: rest) (hp : s.phase = .ended result)
    (hb : vm.gen.busy = true) :
    ∃ t, (vm.settleFront result).Tracks t ∧ (vm.settleFront result).Stable t := by
  obtain ⟨t, ht, hgoes⟩ := settle_spec h hr hp hb
  simp only [settleFront, hr]
  split
  · rename_i vm' heq
    rw [heq] at ht hgoes
    obtain ⟨hbusy, hmode, hfree, -⟩ := hgoes
    exact drive_spec ht ⟨hbusy, hmode, .inl hfree⟩
  · rename_i vm' heq
    rw [heq] at ht hgoes
    exact ⟨t, ht, hgoes⟩

end

/-- The server accepts the history, and the generator is where the server is. -/
def Served (vm : Vm) : Prop := ∃ s, vm.Tracks s ∧ vm.Stable s

theorem Served.of_gen (h : vm.Served) (hgen : vm'.gen = vm.gen) : vm'.Served := by
  obtain ⟨s, ht, hs⟩ := h
  refine ⟨s, ⟨?_, ?_, ?_, ?_, ?_⟩, ?_⟩
  · rw [hgen]
    exact ht.trace
  · rw [hgen]
    exact ht.started
  · rw [hgen]
    exact ht.finished
  · rw [hgen]
    exact ht.numbers
  · rw [hgen]
    exact ht.calls
  · simp only [Stable, hgen]
    exact hs

/-- A generator that is not busy has nothing to do. -/
theorem Stable.idle (h : vm.Stable s) (hb : vm.gen.busy = false) :
    vm.gen.mode = .idle ∧ s.phase = .free := by
  unfold Stable at h
  split at h
  · rename_i hm
    exact ⟨hm, h.2.1⟩
  all_goals
    rw [hb] at h
    exact absurd h.1 Bool.false_ne_true

/-- A request joins the queue. -/
theorem Tracks.push (h : vm.Tracks s) (completion : GenResume) : (vm.push completion).Tracks s := by
  refine ⟨h.trace, h.started, h.finished, ?_, ?_⟩
  · simp only [Vm.push, List.map_append, List.map_cons, List.map_nil, List.length_append,
      List.length_cons, List.length_nil, h.numbers, h.calls, List.range'_concat, Nat.one_mul]
  · simp only [Vm.push, List.length_append, List.length_cons, List.length_nil, h.calls]
    omega

/-- A busy generator stays where it is when a request joins the queue. -/
theorem Stable.push (h : vm.Stable s) (hb : vm.gen.busy = true) (completion : GenResume) :
    (vm.push completion).Stable s := by
  have hne : (vm.push completion).gen.requests ≠ [] := by simp [Vm.push]
  unfold Stable at h ⊢
  have hmode : (vm.push completion).gen.mode = vm.gen.mode := rfl
  rw [hmode]
  split at h
  · rw [hb] at h
    exact absurd h.1 Bool.noConfusion
  · exact ⟨hb, h.2.1, hne, h.2.2.2⟩
  · exact ⟨hb, h.2⟩
  · exact ⟨hb, h.2.1, hne, h.2.2.2⟩
  · exact ⟨hb, h.2.1, hne, h.2.2.2⟩
  · exact ⟨hb, h.2.1, hne, h.2.2.2⟩

theorem served_enqueue (h : vm.Served) (completion : GenResume) :
    (vm.enqueue completion).Served := by
  obtain ⟨s, ht, hs⟩ := h
  cases hb : vm.gen.busy with
  | false =>
    obtain ⟨hmode, hfree⟩ := hs.idle hb
    exact drive_spec (ht.push completion) ⟨hb, hmode, .inl hfree⟩
  | true =>
    -- the driver that is under way will come to the request
    have hsame : vm.enqueue completion = vm.push completion := by
      simp [enqueue, drive, Vm.push, hb]
    rw [hsame]
    exact ⟨s, ht.push completion, hs.push hb completion⟩

/-- The body awaits, or the value of a `return` is awaited. -/
theorem served_awaitValue (ht : vm.Tracks s)
    (hr : vm.gen.requests = request :: rest) (hb : vm.gen.busy = true) {p : Nat}
    {finish : Option Bool}
    (hp : finish = none ∧ s.phase = .pausing p ∧ vm.gen.started = true ∧ vm.gen.done = false ∨
      finish = some true ∧ s.phase = .wrapping ∧ vm.gen.done = true) :
    (vm.awaitValue request p finish).Served := by
  have hn := ht.number_front hr
  rcases hp with ⟨rfl, hphase, hstarted, hdone⟩ | ⟨rfl, hphase, hdone⟩
  · have he : ∀ d, s.step (.awaited request.number d p) =
        some { s with phase := .waiting d p } := by
      intro d
      simp [Server.step, hphase, Server.guarded, hn]
    refine ⟨_, ht.next (he _) rfl rfl ht.started ht.finished rfl rfl, ?_⟩
    refine ⟨hb, rfl, ?_, hstarted, hdone⟩
    show vm.gen.requests ≠ []
    rw [hr]
    exact List.cons_ne_nil _ _
  · have he : ∀ d, s.step (.awaited request.number d p) =
        some { s with phase := .closing d p } := by
      intro d
      simp [Server.step, hphase, Server.guarded, hn]
    refine ⟨_, ht.next (he _) rfl rfl ht.started ht.finished rfl rfl, ?_⟩
    refine ⟨hb, rfl, ?_, hdone, rfl⟩
    show vm.gen.requests ≠ []
    rw [hr]
    exact List.cons_ne_nil _ _

/-- The body gives way. -/
theorem served_bodyEnds (ht : vm.Tracks s) (hr : vm.gen.requests = request :: rest)
    (hb : vm.gen.busy = true) (hp : s.phase = .running) (hstarted : vm.gen.started = true)
    (hdone : vm.gen.done = false) (outcome : BodyOutcome) :
    (vm.bodyEnds request outcome).Served := by
  have hn := ht.number_front hr
  have he : s.step (.ended request.number outcome) = some (s.bodyEnded outcome) := by
    simp [Server.step, hp, Server.guarded, hn]
  cases outcome with
  | awaits p =>
    have ht' : (vm.note (.ended request.number (.awaits p))).Tracks _ :=
      ht.next he rfl rfl ht.started ht.finished rfl rfl
    exact served_awaitValue ht' hr hb (.inl ⟨rfl, rfl, hstarted, hdone⟩)
  | yielded value =>
    have ht' : (vm.note (.ended request.number (.yielded value))).Tracks _ :=
      ht.next he rfl rfl ht.started ht.finished rfl rfl
    exact settleFront_spec ht' hr rfl hb
  | returned value =>
    have ht' : Tracks { vm.note (.ended request.number (.returned value)) with
        gen := { (vm.note (.ended request.number (.returned value))).gen with done := true } } _ :=
      ht.next he rfl rfl ht.started rfl rfl rfl
    exact settleFront_spec ht' hr rfl hb
  | threw reason =>
    have ht' : Tracks { vm.note (.ended request.number (.threw reason)) with
        gen := { (vm.note (.ended request.number (.threw reason))).gen with done := true } } _ :=
      ht.next he rfl rfl ht.started rfl rfl rfl
    exact settleFront_spec ht' hr rfl hb

/-- The reaction of an await runs. -/
theorem served_resume (ht : vm.Tracks s) (hr : vm.gen.requests = request :: rest)
    {derived p : Nat} {finish : Option Bool} (hmode : vm.gen.mode = .awaiting derived p finish)
    (hs : vm.Stable s) (state : PromiseState) (value : Value) (loop : EventLoop) :
    ((note { vm with loop := loop } (.woken request.number derived p state value)).resume request
      rest finish state value).Served := by
  have hn := ht.number_front hr
  unfold Stable at hs
  cases finish with
  | none =>
    rw [hmode] at hs
    obtain ⟨hb, hphase, -, hstarted, hdone⟩ := hs
    have he : s.step (.woken request.number derived p state value) =
        some { s with phase := .ready (.wake state value) } := by
      simp [Server.step, hphase, Server.guarded, hn]
    have hnumbers := ht.numbers
    have hcalls := ht.calls
    rw [hr] at hnumbers hcalls
    refine drive_spec (s := { s with phase := .ready (.wake state value) }) ?_ ?_
    · refine ⟨?_, ht.started, ht.finished, hnumbers, hcalls⟩
      show Server.initial.run (vm.gen.history ++ [_]) = some _
      rw [Server.run_append, ht.trace]
      exact he
    · refine ⟨rfl, rfl, .inr ⟨_, rest, rfl, rfl, ?_, hstarted, hdone⟩⟩
      intro v
      show (if state = .fulfilled then _ else _) ≠ _
      split <;> simp
  | some done =>
    rw [hmode] at hs
    obtain ⟨hb, hphase, -, hdone, rfl⟩ := hs
    have he : s.step (.woken request.number derived p state value) =
        some { s with phase := .ended (closeResult state value) } := by
      simp [Server.step, hphase, Server.guarded, hn]
    have ht' : (note { vm with loop := loop }
        (.woken request.number derived p state value)).Tracks _ :=
      ht.next he rfl rfl ht.started ht.finished rfl rfl
    exact settleFront_spec ht' hr rfl hb

/-- **Every move is one the server allows.** -/
theorem served_perform (h : vm.Served) {m : Move} (hm : vm.perform m = some vm') : vm'.Served := by
  cases m with
  | call completion =>
    cases hm
    exact served_enqueue h completion
  | other a =>
    simp only [perform] at hm
    split at hm
    · rename_i hforeign
      obtain ⟨loop, -, rfl⟩ := Option.map_eq_some_iff.1 hm
      clear hm hforeign
      have hsame : Served { vm with loop := loop } := h.of_gen rfl
      obtain ⟨s, ht, hs⟩ := h
      unfold after
      split
      · rename_i token token' outcome hmode
        split
        · unfold Stable at hs
          rw [hmode] at hs
          exact drive_spec ⟨ht.trace, ht.started, ht.finished, ht.numbers, ht.calls⟩
            ⟨rfl, rfl, .inl hs.2⟩
        · exact hsame
      · rename_i derived p finish hmode
        split
        · rename_i state value d request rest hnext hr
          split
          · exact served_resume ht hr hmode hs state value loop
          · exact hsame
        · exact hsame
      · exact hsame
    · cases hm
  | body outcome =>
    obtain ⟨s, ht, hs⟩ := h
    simp only [perform] at hm
    split at hm
    · rename_i request rest hmode hr
      unfold Stable at hs
      rw [hmode] at hs
      obtain ⟨hb, hphase, -, hstarted, hdone⟩ := hs
      have hserved := served_bodyEnds ht hr hb hphase hstarted hdone outcome
      split at hm
      · split at hm
        · cases hm
          exact hserved
        · cases hm
      · cases hm
        exact hserved
    · cases hm
  | wrapped outcome =>
    obtain ⟨s, ht, hs⟩ := h
    simp only [perform] at hm
    split at hm
    · rename_i value request rest hmode hr
      unfold Stable at hs
      rw [hmode] at hs
      obtain ⟨hb, hphase, -, hdone⟩ := hs
      cases outcome with
      | ok p =>
        simp only at hm
        split at hm
        · cases hm
          exact served_awaitValue ht hr hb (.inr ⟨rfl, hphase, hdone⟩)
        · cases hm
      | error reason =>
        cases hm
        have he : s.step (.unwrapped request.number reason) =
            some { s with phase := .ended (.error reason) } := by
          simp [Server.step, hphase, Server.guarded, ht.number_front hr]
        have ht' : (vm.note (.unwrapped request.number reason)).Tracks _ :=
          ht.next he rfl rfl ht.started ht.finished rfl rfl
        exact settleFront_spec ht' hr rfl hb
    · cases hm

theorem served_initial (loop : EventLoop) : (initial loop).Served :=
  ⟨.initial, ⟨rfl, rfl, rfl, rfl, rfl⟩, rfl, rfl, rfl⟩

end Vm

end NapiVm.AsyncGen
