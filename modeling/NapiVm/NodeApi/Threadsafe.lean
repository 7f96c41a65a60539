import Mathlib.Algebra.Group.Nat.Defs
import Mathlib.Tactic.SplitIfs

/-!
# Thread-safe functions

Native threads queue data for the owner thread, which makes host events of them and
calls back with each.  A section under the lock is one move; the moves interleave as
they like, while the host runs and finds room for its callbacks.

* `Threadsafe.Sound` — where the data are, and who still has to look at them.
* `calls_delivered` — nothing is lost, nothing is stranded, the finalizer comes last.
-/

namespace NapiVm.NodeApi

/-- What a call answers. -/
inductive CallStatus where
  | ok
  | closing
  | queueFull

/-- A function, its notifications in the channel, the host's work for it and what has happened. -/
structure Threadsafe where
  values : List Nat := []
  threadCount : Nat
  inFlight : Nat := 0
  closing : Bool := false
  finalized : Bool := false
  notifications : Nat := 0
  /-- Notifications received, for which the queue is not taken yet. -/
  draining : Nat := 0
  /-- The data of the events that are not dispatched yet. -/
  events : List Nat := []
  /-- The callbacks that run. -/
  running : Nat := 0
  /-- The calls of `finalize_threadsafe_function` that have not looked yet. -/
  finalizing : Nat := 0
  accepted : List Nat := []
  delivered : List Nat := []
  finalizers : Nat := 0

namespace Threadsafe

/-- The loop of `api_call_threadsafe_function` between two waits, the last of which is `none`. -/
def call (maxQueueSize : Nat) (s : Threadsafe) (data : Nat) (blocking owner : Bool) :
    Option CallStatus × Threadsafe :=
  if s.closing ∨ s.threadCount = 0 ∨ s.finalized then (some .closing, s)
  else if maxQueueSize = 0 ∨ s.values.length < maxQueueSize then
    let notifications := if s.values.length + 1 = 1 then s.notifications + 1 else s.notifications
    (some .ok, { s with
      notifications, values := s.values ++ [data], accepted := s.accepted ++ [data] })
  else (if blocking && !owner then none else some .queueFull, s)

/-- `api_acquire_threadsafe_function`. -/
def acquire (s : Threadsafe) : Threadsafe :=
  if s.closing ∨ s.threadCount = 0 ∨ s.finalized ∨ s.threadCount + 1 = 2 ^ 64 then s
  else { s with threadCount := s.threadCount + 1 }

/-- `api_release_threadsafe_function`. -/
def release (s : Threadsafe) (abort : Bool) : Threadsafe :=
  if s.threadCount = 0 ∨ s.finalized then s
  else
    { s with
      closing := s.closing || abort || s.threadCount == 1
      threadCount := s.threadCount - 1
      notifications := s.notifications + 1 }

/-- `take_threadsafe_function_queue`, and the events that are made of what it takes. -/
def drain (s : Threadsafe) (limit : Nat) : Threadsafe :=
  let taken := s.values.take limit
  let rest := s.values.drop limit
  { s with
    draining := s.draining - 1
    values := rest
    notifications := if rest.isEmpty then s.notifications else s.notifications + 1
    inFlight := s.inFlight + taken.length
    events := s.events ++ taken
    finalizing := if taken.isEmpty then s.finalizing + 1 else s.finalizing }

/-- `finalize_threadsafe_function`. -/
def finalize (s : Threadsafe) : Threadsafe :=
  if s.finalized ∨ s.threadCount ≠ 0 ∨ s.values ≠ [] ∨ s.inFlight ≠ 0 then
    { s with finalizing := s.finalizing - 1 }
  else
    { s with
      finalizing := s.finalizing - 1, finalized := true, finalizers := s.finalizers + 1 }

/-- A section of a native thread, or of the host. -/
inductive Move where
  | call (data : Nat) (blocking owner : Bool)
  | acquire
  | release (abort : Bool)
  | receive
  | drain (limit : Nat)
  | dispatch
  | finish
  | finalize

def Move.byHost : Move → Bool
  | .call .. | .acquire | .release _ => false
  | _ => true

/-- Whether there is something to do. -/
def able (s : Threadsafe) : Move → Bool
  | .call .. | .acquire | .release _ => true
  | .receive => s.notifications != 0
  | .drain limit => s.draining != 0 && limit != 0
  | .dispatch => !s.events.isEmpty
  | .finish => s.running != 0
  | .finalize => s.finalizing != 0

/-- A section; the host does nothing where there is nothing to do. -/
def perform (maxQueueSize : Nat) (s : Threadsafe) (m : Move) : Threadsafe :=
  if s.able m then
    match m with
    | .call data blocking owner => (s.call maxQueueSize data blocking owner).2
    | .acquire => s.acquire
    | .release abort => s.release abort
    | .receive => { s with notifications := s.notifications - 1, draining := s.draining + 1 }
    | .drain limit => s.drain limit
    | .dispatch =>
      { s with
        events := s.events.tail
        delivered := s.delivered ++ s.events.head?.toList
        running := s.running + 1 }
    -- `finish_threadsafe_call`
    | .finish =>
      { s with
        running := s.running - 1, inFlight := s.inFlight - 1, finalizing := s.finalizing + 1 }
    | .finalize => s.finalize
  else s

/-- The state after some sections. -/
def run (maxQueueSize : Nat) (s : Threadsafe) (moves : List Move) : Threadsafe :=
  moves.foldl (perform maxQueueSize) s

/-- Each section has something to do when its turn comes. -/
def Able (maxQueueSize : Nat) (s : Threadsafe) : List Move → Prop
  | [] => True
  | m :: rest => s.able m = true ∧ (s.perform maxQueueSize m).Able maxQueueSize rest

/-- The invariant: where the data are, who will look at the queue, and who will finalize. -/
structure Sound (maxQueueSize : Nat) (s : Threadsafe) : Prop where
  conserved : s.accepted = s.delivered ++ s.events ++ s.values
  counted : s.inFlight = s.events.length + s.running
  bounded : maxQueueSize ≠ 0 → s.values.length ≤ maxQueueSize
  notified : s.values ≠ [] → 0 < s.notifications + s.draining
  once : s.finalizers = s.finalized.toNat
  done : s.finalized = true → s.threadCount = 0 ∧ s.values = [] ∧ s.inFlight = 0
  watched : s.threadCount = 0 → s.finalized = true ∨
    0 < s.notifications + s.draining + s.finalizing + s.inFlight

variable {maxQueueSize : Nat} {s t : Threadsafe}

theorem Sound.call (hs : s.Sound maxQueueSize) (data : Nat) (blocking owner : Bool) :
    (s.call maxQueueSize data blocking owner).2.Sound maxQueueSize := by
  obtain ⟨hconserved, hcounted, hbounded, hnotified, honce, hdone, hwatched⟩ := hs
  -- a call finds the queue empty, or notified
  unfold Threadsafe.call
  split_ifs <;> constructor <;> grind

theorem Sound.count (hs : s.Sound maxQueueSize) (abort : Bool) :
    s.acquire.Sound maxQueueSize ∧ (s.release abort).Sound maxQueueSize := by
  obtain ⟨hconserved, hcounted, hbounded, hnotified, honce, hdone, hwatched⟩ := hs
  unfold Threadsafe.acquire Threadsafe.release
  constructor <;> split_ifs <;> constructor <;> grind

theorem Sound.finalize (hs : s.Sound maxQueueSize) : s.finalize.Sound maxQueueSize := by
  obtain ⟨hconserved, hcounted, hbounded, hnotified, honce, hdone, hwatched⟩ := hs
  unfold Threadsafe.finalize
  split_ifs <;> constructor <;> grind

theorem Sound.drain (hs : s.Sound maxQueueSize) (limit : Nat) :
    (s.drain limit).Sound maxQueueSize := by
  obtain ⟨hconserved, hcounted, hbounded, hnotified, honce, hdone, hwatched⟩ := hs
  have hsplit := List.take_append_drop limit s.values
  unfold Threadsafe.drain
  generalize s.values.take limit = taken at hsplit ⊢
  generalize s.values.drop limit = rest at hsplit ⊢
  rw [← hsplit] at hconserved hbounded hnotified
  -- what is left is notified again, what is taken is in flight, of nothing a look remains
  cases taken <;> cases rest <;> constructor <;> grind

/-- **Every section keeps the invariant.** -/
theorem Sound.perform (hs : s.Sound maxQueueSize) (m : Move) :
    (s.perform maxQueueSize m).Sound maxQueueSize := by
  unfold Threadsafe.perform
  split_ifs with hm
  · cases m with
    | call data blocking owner => exact hs.call data blocking owner
    | acquire => exact (hs.count false).1
    | release abort => exact (hs.count abort).2
    | finalize => exact hs.finalize
    | drain limit => exact hs.drain limit
    | receive | finish =>
      obtain ⟨hconserved, hcounted, hbounded, hnotified, honce, hdone, hwatched⟩ := hs
      simp only [able] at hm
      constructor <;> grind
    | dispatch =>
      obtain ⟨hconserved, hcounted, hbounded, hnotified, honce, hdone, hwatched⟩ := hs
      cases hevents : s.events with
      | nil => simp [able, hevents] at hm
      | cons => constructor <;> grind
  · exact hs

theorem Sound.run (hs : s.Sound maxQueueSize) (moves : List Move) :
    (s.run maxQueueSize moves).Sound maxQueueSize := by
  induction moves generalizing s with
  | nil => exact hs
  | cons m rest ih => exact ih (hs.perform m)

/-- The host takes no data in, and nobody does once the function is finalized. -/
theorem perform_keeps {m : Move} (hm : m.byHost = true ∨ s.finalized = true) :
    (s.perform maxQueueSize m).accepted = s.accepted ∧
      (s.perform maxQueueSize m).threadCount = s.threadCount ∧
      (s.finalized = true → (s.perform maxQueueSize m).finalized = true) := by
  unfold perform
  split_ifs
  · cases m with
    | call | acquire | release =>
      have hf : s.finalized = true := hm.resolve_left nofun
      simp [call, acquire, release, hf]
    | receive | dispatch | drain | finish => exact ⟨rfl, rfl, id⟩
    | finalize =>
      simp only [finalize]
      split_ifs <;> simp
  · exact ⟨rfl, rfl, id⟩

theorem run_keeps {moves : List Move} (hm : (∀ m ∈ moves, m.byHost = true) ∨ s.finalized = true) :
    (s.run maxQueueSize moves).accepted = s.accepted ∧
      (s.run maxQueueSize moves).threadCount = s.threadCount ∧
      (s.finalized = true → (s.run maxQueueSize moves).finalized = true) := by
  induction moves generalizing s with
  | nil => exact ⟨rfl, rfl, id⟩
  | cons m rest ih =>
    obtain ⟨haccepted, hcount, hfinal⟩ : (s.perform maxQueueSize m).accepted = _ ∧ _ :=
      perform_keeps (hm.imp_left fun hm => hm m List.mem_cons_self)
    obtain ⟨haccepted', hcount', hfinal'⟩ :=
      ih (hm.imp (fun hm m' h => hm m' (List.mem_cons_of_mem _ h)) hfinal)
    exact ⟨haccepted'.trans haccepted, hcount'.trans hcount, hfinal' ∘ hfinal⟩

/-- How many sections the host has left, at most. -/
def work (s : Threadsafe) : Nat :=
  3 * s.notifications + 2 * s.draining + 5 * s.values.length + 3 * s.events.length +
    2 * s.running + s.finalizing

/-- **The host goes on**: each of its sections leaves less to do. -/
theorem work_perform {m : Move} (hm : m.byHost = true) (hable : s.able m = true) :
    (s.perform maxQueueSize m).work < s.work := by
  simp only [perform, hable, if_true]
  cases m with
  | call | acquire | release => cases hm
  | receive | finish =>
    simp only [able, bne_iff_ne, work] at hable ⊢
    omega
  | dispatch =>
    cases hevents : s.events with
    | nil => simp [able, hevents] at hable
    | cons =>
      simp [work, hevents]
      omega
  | drain limit =>
    simp only [able, Bool.and_eq_true, bne_iff_ne] at hable
    have hlength : (s.values.take limit).length + (s.values.drop limit).length = s.values.length := by
      rw [← List.length_append, List.take_append_drop]
    have htaken : (s.values.take limit).length = 0 → s.values.length = 0 := by
      rw [List.length_take]
      omega
    simp only [drain, work, List.length_append, List.isEmpty_iff_length_eq_zero]
    split_ifs <;> omega
  | finalize =>
    simp only [able, bne_iff_ne, finalize] at hable ⊢
    split_ifs <;> simp only [work] <;> omega

theorem work_run {moves : List Move} (hm : ∀ m ∈ moves, m.byHost = true)
    (hable : s.Able maxQueueSize moves) :
    (s.run maxQueueSize moves).work + moves.length ≤ s.work := by
  induction moves generalizing s with
  | nil => exact Nat.le_refl _
  | cons m rest ih =>
    have hless : (s.perform maxQueueSize m).work < s.work :=
      work_perform (hm m List.mem_cons_self) hable.1
    have hrest := ih (fun m' h => hm m' (List.mem_cons_of_mem _ h)) hable.2
    exact Nat.lt_of_le_of_lt hrest hless

/-- **Where the host stops, nothing is left to do.** -/
theorem Sound.stops (hs : s.Sound maxQueueSize)
    (hstop : ∀ m, Move.byHost m = true → s.able m = false) : s.work = 0 := by
  have hreceive := hstop .receive rfl
  have hdrain := hstop (.drain 1) rfl
  have hdispatch := hstop .dispatch rfl
  have hfinish := hstop .finish rfl
  have hfinalize := hstop .finalize rfl
  simp [able] at hreceive hdrain hdispatch hfinish hfinalize
  have hvalues : s.values = [] :=
    Decidable.byContradiction fun hne => absurd (hs.notified hne) (by omega)
  simp [work, *]

theorem Sound.eq_delivered (hs : s.Sound maxQueueSize) (hevents : s.events.length = 0)
    (hvalues : s.values.length = 0) : s.delivered = s.accepted := by
  rw [hs.conserved, List.eq_nil_of_length_eq_zero hevents, List.eq_nil_of_length_eq_zero hvalues,
    List.append_nil, List.append_nil]

/-- **Calls are delivered and the finalizer comes last.**  In every state of every run: the data
whose calls answered ok are, in their order, those delivered, those of events and those queued; the
queue keeps its bound, and a notification is there while it holds anything; the finalizer runs once
at most, when no thread and no datum is left, and no datum comes any more.  The host, left alone,
stops, and then has delivered all data, and finalized if no thread is left. -/
theorem calls_delivered (maxQueueSize threads : Nat) (moves : List Move) :
    let s := run maxQueueSize { threadCount := threads + 1 } moves
    s.accepted = s.delivered ++ s.events ++ s.values ∧
      (maxQueueSize ≠ 0 → s.values.length ≤ maxQueueSize) ∧
      (s.values ≠ [] → 0 < s.notifications + s.draining) ∧ s.finalizers ≤ 1 ∧
      (s.finalizers = 1 → s.threadCount = 0 ∧ s.running = 0 ∧ s.delivered = s.accepted ∧
        ∀ later, (s.run maxQueueSize later).accepted = s.accepted ∧
          (s.run maxQueueSize later).finalizers = 1) ∧
      ∀ rest, (∀ m ∈ rest, Move.byHost m = true) → s.Able maxQueueSize rest →
        rest.length ≤ s.work ∧
          ((∀ m, Move.byHost m = true → (s.run maxQueueSize rest).able m = false) →
            (s.run maxQueueSize rest).delivered = s.accepted ∧
              (s.threadCount = 0 → (s.run maxQueueSize rest).finalizers = 1)) := by
  intro s
  have hs : s.Sound maxQueueSize :=
    Sound.run ⟨rfl, rfl, fun _ => Nat.zero_le _, by simp, rfl, by simp, by simp⟩ moves
  refine ⟨hs.conserved, hs.bounded, hs.notified, ?_, fun hone => ?_, fun rest hrest hable => ?_⟩
  · rw [hs.once]
    exact Bool.toNat_le _
  · have hfinal : s.finalized = true := Bool.toNat_eq_one.1 (hs.once.symm.trans hone)
    obtain ⟨hthreads, hvalues, hflight⟩ := hs.done hfinal
    have hcounted := hs.counted
    refine ⟨hthreads, by omega, hs.eq_delivered (by omega) (by rw [hvalues]; rfl), fun later => ?_⟩
    obtain ⟨hsame, -, hstays⟩ := run_keeps (.inr hfinal)
    exact ⟨hsame, by rw [(hs.run later).once, hstays hfinal]; rfl⟩
  · have hwork := work_run hrest hable
    refine ⟨by omega, fun hstop => ?_⟩
    have hend := hs.run rest
    have hzero := hend.stops hstop
    simp only [work] at hzero
    obtain ⟨haccepted, hcount, -⟩ := run_keeps (.inl hrest)
    refine ⟨(hend.eq_delivered (by omega) (by omega)).trans haccepted, fun hthreads => ?_⟩
    have hcounted := hend.counted
    rcases hend.watched (hcount.trans hthreads) with hfinal | hleft
    · rw [hend.once, hfinal]
      rfl
    · omega

end Threadsafe

end NapiVm.NodeApi
