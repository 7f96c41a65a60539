import Mathlib.Algebra.GroupWithZero.Nat
import NapiVm.Jobs.TimerQueue

/-!
# Timers of the job queue

Ids are minted below 2^53, and skip the live ones once they have wrapped.  An interval that has
fired is armed again under an id of its own.

* `JobQueue` — the timers and intervals, with `pushTimerJob` and `cancelTimer`.
* `Reachable` — the states that timers and intervals come to.
* `confined_iff` — when a cancellation touches its own timer only.
-/

namespace NapiVm.Jobs

open SortedList TimerQueue

/-- A job on the timer queue; `Other` are those of the runtime. -/
inductive Job (V Other : Type) where
  | callback (callback : V) (args : List V)
  | interval (id : Nat)
  | runtime (job : Other)

/-- Who put a job on the queue. -/
inductive Origin where
  | timer
  | firing (interval : Nat)
  | runtime
  deriving DecidableEq

/-- A job with its origin, which nothing reads. -/
structure Scheduled (V Other : Type) where
  job : Job V Other
  origin : Origin

structure Interval (V : Type) where
  delay : UInt64
  callback : V
  args : List V
  timerId : Nat

structure JobQueue (V Other : Type) where
  timers : TimerQueue (Scheduled V Other)
  intervals : PMap Nat (Interval V)
  nextTimerId : Nat
  timerIdsWrapped : Bool
  nextSequence : Nat

namespace JobQueue

variable {V Other : Type}

/-- `MAX_ID`. -/
def maxId : Nat := 2 ^ 53 - 1

/-- `default`. -/
def empty : JobQueue V Other := ⟨.empty, PMap.empty, 0, false, 0⟩

/-- The loop that mints an id, for a number of rounds. -/
def mint (occupied : Nat → Bool) : Nat → Nat → Bool → Option (Nat × Bool)
  | 0, _, _ => none
  | rounds + 1, last, wrapped =>
    let id := if maxId ≤ last then 1 else last + 1
    let wrapped := wrapped || maxId ≤ last
    if !wrapped || !occupied id then some (id, wrapped) else mint occupied rounds id wrapped

/-- `push_timer_job`.  The deadline is given by its bits, and the job may hold its id.  After
`maxId` rounds every id has been tried, and the loop of the source does not end. -/
def pushTimerJob (deadline : Nat) (job : Nat → Scheduled V Other) (q : JobQueue V Other) :
    Option (JobQueue V Other × Nat) :=
  match mint (fun id => q.timers.containsId id || (q.intervals id).isSome) (maxId + 1)
      q.nextTimerId q.timerIdsWrapped with
  | none => none
  | some (id, wrapped) =>
    if q.nextSequence + 1 < 2 ^ 128 then
      some ({ q with
        timers := q.timers.insert (toLex (deadline, q.nextSequence + 1)) id (job id)
        nextTimerId := id
        timerIdsWrapped := wrapped
        nextSequence := q.nextSequence + 1 }, id)
    else none

/-- `push_timer`. -/
def pushTimer (deadline : Nat) (callback : V) (args : List V) (q : JobQueue V Other) :
    Option (JobQueue V Other × Nat) :=
  q.pushTimerJob deadline fun _ => ⟨.callback callback args, .timer⟩

/-- `push_interval`. -/
def pushInterval (deadline : Nat) (delay : UInt64) (callback : V) (args : List V)
    (q : JobQueue V Other) : Option (JobQueue V Other × Nat) :=
  (q.pushTimerJob deadline fun id => ⟨.interval id, .firing id⟩).map fun r =>
    ({ r.1 with intervals := r.1.intervals.insert r.2 ⟨delay, callback, args, r.2⟩ }, r.2)

/-- `reschedule_interval`. -/
def rescheduleInterval (deadline id : Nat) (q : JobQueue V Other) : Option (JobQueue V Other) :=
  match q.intervals id with
  | none => some q
  | some i =>
    (q.pushTimerJob deadline fun _ => ⟨.interval id, .firing id⟩).map fun r =>
      { r.1 with intervals := r.1.intervals.insert id { i with timerId := r.2 } }

/-- `cancel_timer`; the flags are those of the queue. -/
def cancelTimer (id : Nat) (retain retain' : Bool) (q : JobQueue V Other) : JobQueue V Other :=
  match q.intervals id with
  | some i =>
    { q with
      intervals := q.intervals.erase id
      timers := (q.timers.cancel i.timerId retain).cancel id retain' }
  | none => { q with timers := q.timers.cancel id retain' }

/-- `take_timer`; `now` is the time by its bits, and none for the legacy clock. -/
def takeTimer (now : Option Nat) (retain : Bool) (q : JobQueue V Other) :
    JobQueue V Other × Option (Scheduled V Other) :=
  if q.timers.firstKey.any fun key => now.all fun now => (ofLex key).1 ≤ now then
    let r := q.timers.pop retain
    ({ q with timers := r.1 }, r.2)
  else (q, none)

end JobQueue

/-- The queue, with the ids that were returned, and the intervals that have fired. -/
structure TimerState (V Other : Type) where
  queue : JobQueue V Other
  returned : List Nat
  fired : List Nat

/-- The interval that a taken job fires. -/
def firedBy {V Other : Type} : Option (Scheduled V Other) → List Nat
  | some ⟨.interval id, _⟩ => [id]
  | _ => []

/-- The states that the operations come to. -/
inductive Reachable {V Other : Type} : TimerState V Other → Prop where
  | init : Reachable ⟨.empty, [], []⟩
  | pushTimer {s : TimerState V Other} {q : JobQueue V Other} {id : Nat} (deadline : Nat)
      (callback : V) (args : List V) : Reachable s →
      s.queue.pushTimer deadline callback args = some (q, id) →
      Reachable ⟨q, id :: s.returned, s.fired⟩
  | pushInterval {s : TimerState V Other} {q : JobQueue V Other} {id : Nat} (deadline : Nat)
      (delay : UInt64) (callback : V) (args : List V) : Reachable s →
      s.queue.pushInterval deadline delay callback args = some (q, id) →
      Reachable ⟨q, id :: s.returned, s.fired⟩
  | pushTimerJob {s : TimerState V Other} {q : JobQueue V Other} {id : Nat} (deadline : Nat)
      (job : Job V Other) : Reachable s →
      s.queue.pushTimerJob deadline (fun _ => ⟨job, .runtime⟩) = some (q, id) →
      Reachable ⟨q, s.returned, s.fired⟩
  | takeTimer {s : TimerState V Other} {q : JobQueue V Other} {job : Option (Scheduled V Other)}
      (now : Option Nat) (retain : Bool) : Reachable s →
      s.queue.takeTimer now retain = (q, job) →
      Reachable ⟨q, s.returned, firedBy job ++ s.fired⟩
  | rescheduleInterval {s : TimerState V Other} {q : JobQueue V Other} {id : Nat} (deadline : Nat) :
      Reachable s → id ∈ s.fired → s.queue.rescheduleInterval deadline id = some q →
      Reachable ⟨q, s.returned, s.fired.erase id⟩
  | cancelTimer {s : TimerState V Other} (id : Nat) (retain retain' : Bool) : Reachable s →
      Reachable ⟨s.queue.cancelTimer id retain retain', s.returned, s.fired⟩

/-! ## What the operations do -/

namespace JobQueue

variable {V Other : Type} {q q' : JobQueue V Other} {id deadline : Nat}
  {job : Nat → Scheduled V Other}

/-- The queue is a sorted list, later sequence numbers are free, and so are later ids until they
have wrapped. -/
structure Sound (q : JobQueue V Other) : Prop where
  agrees : Agrees q.timers q.timers.entries
  since : Since (some q.nextSequence) q.timers.entries
  bounded : q.timerIdsWrapped = false → ∀ e ∈ q.timers.entries, e.id ≤ q.nextTimerId

theorem sound_empty : Sound (empty : JobQueue V Other) where
  agrees := ⟨represents_empty, ascending_nil, List.nodup_nil⟩
  since := nofun
  bounded := nofun

/-- A minted id is the next one, or is free. -/
theorem mint_spec {occupied : Nat → Bool} {rounds last : Nat} {wrapped wrapped' : Bool}
    (h : mint occupied rounds last wrapped = some (id, wrapped')) :
    (wrapped' = false → wrapped = false ∧ id = last + 1) ∧
      (wrapped' = true → occupied id = false) := by
  induction rounds generalizing last wrapped with
  | zero => cases h
  | succ rounds ih =>
    rw [mint] at h
    by_cases hlast : maxId ≤ last
    · simp only [hlast, if_true, decide_true, Bool.or_true, Bool.not_true, Bool.false_or] at h
      split_ifs at h with hfree
      · cases h
        exact ⟨nofun, fun _ => by simpa using hfree⟩
      · obtain ⟨hnext, hoccupied⟩ := ih h
        exact ⟨fun hw => absurd (hnext hw).1 (by decide), hoccupied⟩
    · simp only [hlast, if_false, decide_false, Bool.or_false] at h
      cases wrapped with
      | false =>
        rw [Bool.not_false, Bool.true_or, if_pos rfl] at h
        cases h
        exact ⟨fun _ => ⟨rfl, rfl⟩, nofun⟩
      | true =>
        simp only [Bool.not_true, Bool.false_or] at h
        split_ifs at h with hfree
        · cases h
          exact ⟨nofun, fun _ => by simpa using hfree⟩
        · obtain ⟨hnext, hoccupied⟩ := ih h
          exact ⟨fun hw => absurd (hnext hw).1 (by decide), hoccupied⟩

/-- A push adds one timer, under a new id. -/
theorem push_spec (h : Sound q) (hpush : q.pushTimerJob deadline job = some (q', id)) :
    Sound q' ∧ q'.intervals = q.intervals ∧
      ∀ e, e ∈ q'.timers.entries ↔
        e = ⟨toLex (deadline, q.nextSequence + 1), id, job id⟩ ∨ e ∈ q.timers.entries := by
  rw [pushTimerJob] at hpush
  cases hmint : mint (fun id => q.timers.containsId id || (q.intervals id).isSome) (maxId + 1)
      q.nextTimerId q.timerIdsWrapped with
  | none =>
    rw [hmint] at hpush
    cases hpush
  | some minted =>
    obtain ⟨new, wrapped⟩ := minted
    rw [hmint] at hpush
    simp only at hpush
    split_ifs at hpush with hsequence
    cases hpush
    obtain ⟨hnext, hfree⟩ := mint_spec hmint
    have hid : ∀ e ∈ q.timers.entries, e.id ≠ id := by
      intro e he heid
      cases wrapped with
      | false =>
        obtain ⟨hw, hlast⟩ := hnext rfl
        have := h.bounded hw e he
        omega
      | true =>
        have hoccupied := hfree rfl
        rw [Bool.or_eq_false_iff, (represents_observe h.agrees.represents).2.2 id] at hoccupied
        have hany : (q.timers.entries.any fun e => e.id = id) = true :=
          List.any_eq_true.2 ⟨e, he, decide_eq_true heid⟩
        rw [hoccupied.1] at hany
        cases hany
    have hkey : ∀ e ∈ q.timers.entries,
        e.key ≠ (toLex (deadline, q.nextSequence + 1) : TimerKey) := by
      intro e he hkey
      obtain ⟨s, hs, hle⟩ := h.since e he
      cases hs
      rw [hkey] at hle
      exact absurd hle (Nat.not_succ_le_self _)
    have hrepresents := represents_insert (job id) h.agrees.represents h.agrees.tidy hkey hid
    have hentries := hrepresents.entries_eq
    have hmem : ∀ e, e ∈ (q.timers.insert (toLex (deadline, q.nextSequence + 1)) id
        (job id)).entries ↔
          e = ⟨toLex (deadline, q.nextSequence + 1), id, job id⟩ ∨ e ∈ q.timers.entries := by
      intro e
      rw [hentries]
      exact mem_place hkey
    refine ⟨⟨?_, fun e he => ⟨_, rfl, ?_⟩, fun hw e he => ?_⟩, rfl, hmem⟩
    · exact ⟨hentries ▸ hrepresents, hentries ▸ h.agrees.tidy.place (job id) hkey hid⟩
    · rcases (hmem e).1 he with rfl | he
      · exact le_rfl
      · obtain ⟨s, hs, hle⟩ := h.since e he
        cases hs
        exact hle.trans (Nat.le_succ _)
    · rcases (hmem e).1 he with rfl | he
      · exact le_rfl
      · obtain ⟨hold, hlast⟩ := hnext hw
        have := h.bounded hold e he
        simp only
        omega

/-- Fewer timers. -/
theorem Sound.of_represents {timers : TimerQueue (Scheduled V Other)}
    {l : List (TimerEntry (Scheduled V Other))} {intervals : PMap Nat (Interval V)} (h : Sound q)
    (hr : Represents timers l) (ht : Tidy l) (hsub : ∀ e ∈ l, e ∈ q.timers.entries) :
    Sound { q with timers := timers, intervals := intervals } := by
  have hentries := hr.entries_eq
  refine ⟨⟨hentries ▸ hr, hentries ▸ ht⟩, ?_, fun hw e he => ?_⟩
  · simp only [hentries]
    exact h.since.of_subset hsub
  · simp only [hentries] at he
    exact h.bounded hw e (hsub e he)

theorem take_spec (now : Option Nat) (retain : Bool) (h : Sound q) :
    Sound (q.takeTimer now retain).1 ∧ (q.takeTimer now retain).1.intervals = q.intervals ∧
      ∀ e ∈ (q.takeTimer now retain).1.timers.entries, e ∈ q.timers.entries := by
  rw [takeTimer]
  split_ifs with hdue
  · have hpop := (represents_pop retain h.agrees.represents h.agrees.tidy).1
    have hsub : ∀ e ∈ q.timers.entries.tail, e ∈ q.timers.entries :=
      fun e he => List.mem_of_mem_tail he
    refine ⟨h.of_represents hpop h.agrees.tidy.tail hsub, rfl, fun e he => ?_⟩
    simp only [hpop.entries_eq] at he
    exact hsub e he
  · exact ⟨h, rfl, fun e he => he⟩

/-- The ids of the timers that a cancellation removes. -/
def targets (q : JobQueue V Other) (x id : Nat) : Bool :=
  id = x || (q.intervals x).any fun i => i.timerId = id

theorem cancel_spec (x : Nat) (retain retain' : Bool) (h : Sound q) :
    Sound (q.cancelTimer x retain retain') ∧
      (q.cancelTimer x retain retain').timers.entries =
        q.timers.entries.filter (fun e => !q.targets x e.id) ∧
      (q.cancelTimer x retain retain').intervals = q.intervals.erase x := by
  have hsub : ∀ e ∈ q.timers.entries.filter fun e => !q.targets x e.id, e ∈ q.timers.entries :=
    fun e he => (List.mem_filter.1 he).1
  have htidy := h.agrees.tidy.filter fun e => !q.targets x e.id
  cases hi : q.intervals x with
  | none =>
    have hfilter : q.timers.entries.filter (fun e => e.id ≠ x) =
        q.timers.entries.filter fun e => !q.targets x e.id := by
      refine List.filter_congr fun e he => ?_
      simp [targets, hi]
    have hr := represents_cancel x retain' h.agrees.represents h.agrees.tidy
    rw [hfilter] at hr
    have herase : q.intervals.erase x = q.intervals := by
      funext y
      by_cases hy : y = x
      · rw [hy, PMap.erase_self, hi]
      · rw [PMap.erase_of_ne hy]
    rw [cancelTimer, hi]
    exact ⟨h.of_represents hr htidy hsub, hr.entries_eq, herase.symm⟩
  | some i =>
    have hfilter : (q.timers.entries.filter fun e => e.id ≠ i.timerId).filter
        (fun e => e.id ≠ x) = q.timers.entries.filter fun e => !q.targets x e.id := by
      rw [List.filter_filter]
      refine List.filter_congr fun e he => ?_
      simp only [targets, hi, Option.any_some]
      by_cases hx : e.id = x
      · simp [hx]
      · by_cases ht : e.id = i.timerId
        · simp [ht]
        · simp [hx, ht, Ne.symm ht]
    have hr := represents_cancel x retain'
      (represents_cancel i.timerId retain h.agrees.represents h.agrees.tidy)
      (h.agrees.tidy.filter _)
    rw [hfilter] at hr
    rw [cancelTimer, hi]
    exact ⟨h.of_represents hr htidy hsub, hr.entries_eq, rfl⟩

end JobQueue

namespace TimerState

variable {V Other : Type}

/-- Timers and intervals have the ids that were returned. -/
structure Good (s : TimerState V Other) : Prop where
  sound : s.queue.Sound
  timers : ∀ e ∈ s.queue.timers.entries, e.job.origin = .timer → e.id ∈ s.returned
  intervals : ∀ id, (s.queue.intervals id).isSome = true → id ∈ s.returned

end TimerState

open JobQueue TimerState

variable {V Other : Type}

theorem Reachable.good {s : TimerState V Other} (h : Reachable s) : s.Good := by
  induction h with
  | init => exact ⟨sound_empty, nofun, nofun⟩
  | pushTimer deadline callback args _ hpush ih =>
    obtain ⟨hsound, hintervals, hmem⟩ := push_spec ih.sound hpush
    refine ⟨hsound, fun e he horigin => ?_, fun id hid => ?_⟩
    · rcases (hmem e).1 he with rfl | he
      · exact List.mem_cons_self
      · exact List.mem_cons_of_mem _ (ih.timers e he horigin)
    · simp only [hintervals] at hid
      exact List.mem_cons_of_mem _ (ih.intervals id hid)
  | pushInterval deadline delay callback args _ hpush ih =>
    obtain ⟨⟨q, new⟩, hjob, hq⟩ := Option.map_eq_some_iff.1 hpush
    cases hq
    obtain ⟨hsound, hintervals, hmem⟩ := push_spec ih.sound hjob
    refine ⟨⟨hsound.agrees, hsound.since, hsound.bounded⟩, fun e he horigin => ?_, fun id hid => ?_⟩
    · rcases (hmem e).1 he with rfl | he
      · cases horigin
      · exact List.mem_cons_of_mem _ (ih.timers e he horigin)
    · by_cases hnew : id = new
      · rw [hnew]
        exact List.mem_cons_self
      · simp only [PMap.insert_of_ne hnew, hintervals] at hid
        exact List.mem_cons_of_mem _ (ih.intervals id hid)
  | pushTimerJob deadline job _ hpush ih =>
    obtain ⟨hsound, hintervals, hmem⟩ := push_spec ih.sound hpush
    refine ⟨hsound, fun e he horigin => ?_, fun id hid => ?_⟩
    · rcases (hmem e).1 he with rfl | he
      · cases horigin
      · exact ih.timers e he horigin
    · simp only [hintervals] at hid
      exact ih.intervals id hid
  | takeTimer now retain _ htake ih =>
    obtain ⟨hsound, hintervals, hsub⟩ := take_spec now retain ih.sound
    rw [htake] at hsound hintervals hsub
    refine ⟨hsound, fun e he horigin => ih.timers e (hsub e he) horigin, fun id hid => ?_⟩
    exact ih.intervals id (by rw [← hintervals]; exact hid)
  | @rescheduleInterval s q id deadline _ _ hpush ih =>
    rw [JobQueue.rescheduleInterval] at hpush
    cases hi : s.queue.intervals id with
    | none =>
      rw [hi] at hpush
      cases hpush
      exact ⟨ih.sound, ih.timers, ih.intervals⟩
    | some i =>
      rw [hi] at hpush
      obtain ⟨⟨q', new⟩, hjob, hq⟩ := Option.map_eq_some_iff.1 hpush
      cases hq
      obtain ⟨hsound, hintervals, hmem⟩ := push_spec ih.sound hjob
      refine ⟨⟨hsound.agrees, hsound.since, hsound.bounded⟩, fun e he horigin => ?_,
        fun id' hid => ?_⟩
      · rcases (hmem e).1 he with rfl | he
        · cases horigin
        · exact ih.timers e he horigin
      · by_cases hsame : id' = id
        · rw [hsame]
          exact ih.intervals id (by rw [hi]; rfl)
        · simp only [PMap.insert_of_ne hsame, hintervals] at hid
          exact ih.intervals id' hid
  | cancelTimer id retain retain' _ ih =>
    obtain ⟨hsound, hentries, hintervals⟩ := cancel_spec id retain retain' ih.sound
    refine ⟨hsound, fun e he horigin => ?_, fun id' hid => ?_⟩
    · simp only [hentries] at he
      exact ih.timers e (List.mem_filter.1 he).1 horigin
    · by_cases hsame : id' = id
      · simp only [hintervals, hsame, PMap.erase_self] at hid
        cases hid
      · simp only [hintervals, PMap.erase_of_ne hsame] at hid
        exact ih.intervals id' hid

/-! ## Confined cancellations -/

/-- The timer that has the id `x`, or a firing of the interval `x`. -/
def BelongsTo (q : JobQueue V Other) (x : Nat) (e : TimerEntry (Scheduled V Other)) : Prop :=
  e.job.origin = .timer ∧ e.id = x ∨
    e.job.origin = .firing x ∧ (q.intervals x).isSome = true

/-- What a cancellation of `x` does: its timer and its interval go, all others stay, and nothing
happens if `x` was not returned. -/
structure Confined (s : TimerState V Other) (x : Nat) (after : JobQueue V Other) : Prop where
  added : ∀ e ∈ after.timers.entries, e ∈ s.queue.timers.entries
  removed : ∀ e ∈ s.queue.timers.entries, e ∉ after.timers.entries → BelongsTo s.queue x e
  others : ∀ y, y ≠ x → after.intervals y = s.queue.intervals y
  cancelled : after.intervals x = none ∧
    ∀ e ∈ after.timers.entries, e.job.origin = .timer → e.id ≠ x
  noop : x ∉ s.returned → after.timers.entries = s.queue.timers.entries ∧
    after.intervals = s.queue.intervals

/-- The pending job with the id is a timer or the first firing of its interval, and the last id
under which the interval was armed is that of a firing of it, or free. -/
def Owned (q : JobQueue V Other) (x : Nat) : Prop :=
  (∀ e ∈ q.timers.entries, e.id = x → BelongsTo q x e) ∧
    ∀ i ∈ q.intervals x, ∀ e ∈ q.timers.entries, e.id = i.timerId → BelongsTo q x e

/-- **When a cancellation is confined to its id.** -/
theorem confined_iff {s : TimerState V Other} (h : Reachable s) (x : Nat) (retain retain' : Bool) :
    Confined s x (s.queue.cancelTimer x retain retain') ↔ Owned s.queue x := by
  have hgood := h.good
  obtain ⟨-, hentries, hintervals⟩ := cancel_spec x retain retain' hgood.sound
  have hgone : ∀ e ∈ s.queue.timers.entries, s.queue.targets x e.id = true →
      e ∉ (s.queue.cancelTimer x retain retain').timers.entries := by
    intro e _ htarget he
    rw [hentries, List.mem_filter, htarget] at he
    cases he.2
  constructor
  · intro hconfined
    refine ⟨fun e he hid => hconfined.removed e he (hgone e he ?_), fun i hi e he hid =>
      hconfined.removed e he (hgone e he ?_)⟩
    · simp [targets, hid]
    · simp [targets, hid, Option.mem_def.1 hi]
  · rintro ⟨howned, hfirings⟩
    have hremoved : ∀ e ∈ s.queue.timers.entries, s.queue.targets x e.id = true →
        BelongsTo s.queue x e := by
      intro e he htarget
      simp only [targets, Bool.or_eq_true, decide_eq_true_eq, Option.any_eq_true] at htarget
      rcases htarget with hid | ⟨i, hi, hid⟩
      · exact howned e he hid
      · exact hfirings i hi e he hid.symm
    refine ⟨fun e he => ?_, fun e he hgone => ?_, fun y hy => ?_, ⟨?_, fun e he _ hid => ?_⟩,
      fun hx => ?_⟩
    · rw [hentries] at he
      exact (List.mem_filter.1 he).1
    · refine hremoved e he ?_
      by_contra htarget
      exact hgone (by rw [hentries]; exact List.mem_filter.2 ⟨he, by simpa using htarget⟩)
    · rw [hintervals, PMap.erase_of_ne hy]
    · rw [hintervals, PMap.erase_self]
    · rw [hentries, List.mem_filter] at he
      simp [targets, hid] at he
    · -- An id that was not returned has neither a timer nor an interval.
      have hnone : s.queue.intervals x = none := by
        rw [← Option.not_isSome_iff_eq_none]
        exact fun hsome => hx (hgood.intervals x hsome)
      have hkept : ∀ e ∈ s.queue.timers.entries, s.queue.targets x e.id = false := by
        intro e he
        rw [← Bool.not_eq_true]
        intro htarget
        rcases hremoved e he htarget with ⟨horigin, rfl⟩ | ⟨-, hsome⟩
        · exact hx (hgood.timers e he horigin)
        · rw [hnone] at hsome
          cases hsome
      refine ⟨?_, ?_⟩
      · rw [hentries]
        exact List.filter_eq_self.2 fun e he => by rw [hkept e he]; rfl
      · rw [hintervals]
        funext y
        by_cases hy : y = x
        · rw [hy, PMap.erase_self, hnone]
        · rw [PMap.erase_of_ne hy]

theorem timer_confined : ∃ s : TimerState Unit Empty, Reachable s ∧ s.returned = [1] ∧
    Confined s 1 (s.queue.cancelTimer 1 true true) := by
  have hinit : Reachable (⟨.empty, [], []⟩ : TimerState Unit Empty) := .init
  have hpush := Reachable.pushTimer 0 () [] hinit rfl
  refine ⟨_, hpush, rfl, (confined_iff hpush 1 true true).2 ⟨fun e he hid => ?_, fun i hi => ?_⟩⟩
  · rcases List.mem_singleton.1 he with rfl
    exact .inl ⟨rfl, rfl⟩
  · cases hi

/-- An interval that is armed again, under the id 2, is cancelled by a number that was never
returned. -/
theorem firing_cancelled : ¬ ∀ s : TimerState Unit Empty, Reachable s → ∀ x retain retain',
    Confined s x (s.queue.cancelTimer x retain retain') := by
  intro h
  have hinit : Reachable (⟨.empty, [], []⟩ : TimerState Unit Empty) := .init
  have hpush := Reachable.pushInterval 0 0 () [] hinit rfl
  have htake := Reachable.takeTimer none true hpush rfl
  have harmed := Reachable.rescheduleInterval 0 htake List.mem_cons_self rfl
  have hnoop := (h _ harmed 2 true true).noop (by decide)
  exact absurd (congrArg List.length hnoop.1) (by decide)

end NapiVm.Jobs
