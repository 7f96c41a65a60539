import NapiVm.Lib.WaitQueue

/-!
# Waiting on shared memory

The waiters of a block are a list behind a lock, and each has a flag and a wake signal behind locks
of their own.  The steps below are the sections between two operations on a lock, so those of
different threads interleave.

* `SharedMemory` — the list of waiters, the signals, and where each thread is.
* `Step` — one section of `register_wait`, `notify`, `complete`, a drop or `set_owner_wake`.
* `Inv` — the list is the waiters that the history leaves, and a flag tells who was woken.
* `waits_exact` — no notification is lost or counted twice.
-/

namespace NapiVm.SharedWait

open WaitQueue

/-- `WaitSignal`. -/
structure WaitSignal (Owner : Type) where
  ownerWake : Option Owner
  notified : Bool

inductive SharedWaitResult where
  | cancelled
  | notEqual
  | timedOut
  | ok
  deriving DecidableEq

/-- Where a thread is; the lists are those of `retain`, and `woken` is read by nothing. -/
inductive Pc (Owner : Type) where
  | idle
  | registering (offset : Nat) (zero : Bool) (signal : Nat)
  | notifying (offset count notified : Nat) (kept rest : List (Nat × Nat)) (woken : List Nat)
  | waking (offset count notified : Nat) (kept rest : List (Nat × Nat)) (woken : List Nat)
      (signal : Nat)
  | completing (signal : Nat)
  | owning (signal : Nat) (wake : Owner)

/-- A block that threads share.  A signal is given by the order of allocation, `held` are those of
the registrations that were not dropped, and `log` is read by nothing. -/
structure SharedMemory (Thread Owner : Type) where
  waiters : List (Nat × Nat)
  signals : Nat → WaitSignal Owner
  allocated : Nat
  held : List Nat
  holder : Option Thread
  pc : Thread → Pc Owner
  pending : Owner → Bool
  log : List (WaitQueue.Event Nat Nat SharedWaitResult)

/-- The tests of `register_wait`: the memory has the expected value, and the timeout is 0. -/
def registerWait (equal zero : Bool) : Except SharedWaitResult Unit :=
  if !equal then .error .notEqual else if zero then .error .timedOut else .ok ()

/-- What `complete` returns. -/
def completeResult (notified : Bool) : SharedWaitResult := if notified then .ok else .timedOut

namespace SharedMemory

variable {Thread Owner : Type} [DecidableEq Thread] [DecidableEq Owner]

/-- `zeroed`. -/
def zeroed : SharedMemory Thread Owner :=
  ⟨[], fun _ => ⟨none, false⟩, 0, [], none, fun _ => .idle, fun _ => false, []⟩

/-- The thread `t` goes on at `pc`. -/
def goto (s : SharedMemory Thread Owner) (t : Thread) (pc : Pc Owner) : SharedMemory Thread Owner :=
  { s with pc := Function.update s.pc t pc }

/-- It takes the lock of the waiters. -/
def lock (s : SharedMemory Thread Owner) (t : Thread) (pc : Pc Owner) : SharedMemory Thread Owner :=
  { s.goto t pc with holder := some t }

/-- It returns, and gives the lock back. -/
def unlock (s : SharedMemory Thread Owner) (t : Thread) : SharedMemory Thread Owner :=
  { s.goto t .idle with holder := none }

/-- `WakeSignal::fire`. -/
def fire (s : SharedMemory Thread Owner) (wake : Owner) : SharedMemory Thread Owner :=
  { s with pending := Function.update s.pending wake true }

/-- One section of a thread. -/
inductive Step : SharedMemory Thread Owner → SharedMemory Thread Owner → Prop where
  | lockRegister {s : SharedMemory Thread Owner} {t : Thread} (offset : Nat) (zero : Bool) :
      s.holder = none → s.pc t = .idle →
      Step s { s.lock t (.registering offset zero s.allocated) with
        signals := Function.update s.signals s.allocated ⟨none, false⟩
        allocated := s.allocated + 1 }
  | refuse {s : SharedMemory Thread Owner} {t : Thread} {offset signal : Nat} {zero : Bool}
      {result : SharedWaitResult} (equal : Bool) :
      s.pc t = .registering offset zero signal → registerWait equal zero = .error result →
      Step s (s.unlock t)
  | register {s : SharedMemory Thread Owner} {t : Thread} {offset signal : Nat} {zero : Bool}
      (equal : Bool) :
      s.pc t = .registering offset zero signal → registerWait equal zero = .ok () →
      Step s { s.unlock t with
        waiters := s.waiters ++ [(offset, signal)]
        held := signal :: s.held
        log := .registered offset signal :: s.log }
  | lockNotify {s : SharedMemory Thread Owner} {t : Thread} (offset count : Nat) :
      s.holder = none → s.pc t = .idle →
      Step s (s.lock t (.notifying offset count 0 [] s.waiters []))
  | keep {s : SharedMemory Thread Owner} {t : Thread} {offset count notified : Nat}
      {kept rest : List (Nat × Nat)} {woken : List Nat} {e : Nat × Nat} :
      s.pc t = .notifying offset count notified kept (e :: rest) woken →
      e.1 ≠ offset ∨ notified = count →
      Step s (s.goto t (.notifying offset count notified (kept ++ [e]) rest woken))
  | wake {s : SharedMemory Thread Owner} {t : Thread} {offset count notified : Nat}
      {kept rest : List (Nat × Nat)} {woken : List Nat} {e : Nat × Nat} :
      s.pc t = .notifying offset count notified kept (e :: rest) woken →
      ¬ (e.1 ≠ offset ∨ notified = count) →
      Step s { s.goto t (.waking offset count notified kept rest woken e.2) with
        signals := Function.update s.signals e.2 { s.signals e.2 with notified := true } }
  | fireOwner {s : SharedMemory Thread Owner} {t : Thread} {offset count notified signal : Nat}
      {kept rest : List (Nat × Nat)} {woken : List Nat} {wake : Owner} :
      s.pc t = .waking offset count notified kept rest woken signal →
      (s.signals signal).ownerWake = some wake →
      Step s ((s.goto t (.notifying offset count (notified + 1) kept rest (woken ++ [signal]))).fire
        wake)
  -- There is no owner, or it is gone: the handle is a weak one.
  | skipOwner {s : SharedMemory Thread Owner} {t : Thread} {offset count notified signal : Nat}
      {kept rest : List (Nat × Nat)} {woken : List Nat} :
      s.pc t = .waking offset count notified kept rest woken signal →
      Step s (s.goto t (.notifying offset count (notified + 1) kept rest (woken ++ [signal])))
  | finishNotify {s : SharedMemory Thread Owner} {t : Thread} {offset count notified : Nat}
      {kept : List (Nat × Nat)} {woken : List Nat} :
      s.pc t = .notifying offset count notified kept [] woken →
      Step s { s.unlock t with
        waiters := kept
        log := .notified offset count woken notified :: s.log }
  | lockComplete {s : SharedMemory Thread Owner} {t : Thread} {signal : Nat} :
      s.holder = none → s.pc t = .idle → signal ∈ s.held →
      Step s { s.lock t (.completing signal) with
        waiters := s.waiters.filter fun e => e.2 ≠ signal }
  | dropRegistration {s : SharedMemory Thread Owner} {t : Thread} {signal : Nat} :
      s.holder = none → s.pc t = .idle → signal ∈ s.held →
      Step s { s.lock t (.completing signal) with
        waiters := s.waiters.filter fun e => e.2 ≠ signal
        held := s.held.erase signal }
  | finishComplete {s : SharedMemory Thread Owner} {t : Thread} {signal : Nat} :
      s.pc t = .completing signal →
      Step s { s.unlock t with
        log := .completed signal (completeResult (s.signals signal).notified) :: s.log }
  | setOwnerWake {s : SharedMemory Thread Owner} {t : Thread} {signal : Nat} (wake : Owner) :
      s.pc t = .idle → signal ∈ s.held →
      Step s { s.goto t (.owning signal wake) with
        signals := Function.update s.signals signal
          { s.signals signal with ownerWake := some wake } }
  | checkNotified {s : SharedMemory Thread Owner} {t : Thread} {signal : Nat} {wake : Owner} :
      s.pc t = .owning signal wake →
      Step s (if (s.signals signal).notified then (s.goto t .idle).fire wake else s.goto t .idle)
  -- The owner's thread waits for its wake signal.
  | consumeWake {s : SharedMemory Thread Owner} (wake : Owner) :
      Step s { s with pending := Function.update s.pending wake false }

/-- The states that the sections come to, in any order. -/
inductive Reachable : SharedMemory Thread Owner → Prop where
  | init : Reachable zeroed
  | step {s s' : SharedMemory Thread Owner} : Reachable s → Step s s' → Reachable s'

/-! ## The invariant -/

/-- Does a thread there hold the lock of the waiters? -/
def locked : Pc Owner → Bool
  | .idle => false
  | .owning _ _ => false
  | _ => true

/-- The signals that a notification there has set. -/
def wakes : Pc Owner → List Nat
  | .notifying _ _ _ _ _ woken => woken
  | .waking _ _ _ _ _ woken signal => woken ++ [signal]
  | _ => []

/-- Where the thread is that holds the lock. -/
def active (s : SharedMemory Thread Owner) : Pc Owner :=
  match s.holder with
  | none => .idle
  | some t => s.pc t

/-- The list, when the thread that holds the lock is at `pc`. -/
def listed (log : List (WaitQueue.Event Nat Nat SharedWaitResult)) : Pc Owner → List (Nat × Nat)
  | .completing signal => (waiting log).filter fun e => e.2 ≠ signal
  | _ => waiting log

/-- What is known there. -/
def Sensible (log : List (WaitQueue.Event Nat Nat SharedWaitResult)) (allocated : Nat) : Pc Owner → Prop
  | .registering _ _ signal => signal < allocated ∧ ∀ e ∈ registered log, e.2 ≠ signal
  | .notifying offset count notified kept rest woken =>
    Walk (waiting log) offset count kept rest woken ∧ notified = woken.length
  | .waking offset count notified kept rest woken signal =>
    Walk (waiting log) offset count kept ((offset, signal) :: rest) woken ∧
      notified = woken.length ∧ notified ≠ count
  | .completing signal => ∃ e ∈ registered log, e.2 = signal
  | _ => True

/-- The history is correct, one thread holds the lock, the list is what the history leaves, and a
flag is set if its waiter was woken; the thread that holds the lock is at `pc`. -/
structure InvAt (s : SharedMemory Thread Owner) (pc : Pc Owner) : Prop where
  correct : Correct completeResult s.log
  locks : ∀ t, locked (s.pc t) = true ↔ s.holder = some t
  below : ∀ e ∈ registered s.log, e.2 < s.allocated
  held : ∀ w ∈ s.held, ∃ e ∈ registered s.log, e.2 = w
  waiters : s.waiters = listed s.log pc
  flags : ∀ w, (s.signals w).notified = true ↔ w ∈ counted s.log ∨ w ∈ wakes pc
  sensible : Sensible s.log s.allocated pc

def Inv (s : SharedMemory Thread Owner) : Prop := InvAt s s.active

variable {s s' : SharedMemory Thread Owner} {t : Thread} {pc : Pc Owner}

omit [DecidableEq Thread] [DecidableEq Owner] in
theorem active_of_free (h : s.holder = none) : s.active = .idle := by rw [active, h]

omit [DecidableEq Thread] [DecidableEq Owner] in
theorem active_of_holder (h : s.holder = some t) : s.active = s.pc t := by rw [active, h]

omit [DecidableEq Thread] [DecidableEq Owner] in
theorem Inv.of_active (hactive : s.active = pc) (h : InvAt s pc) : Inv s := by
  rw [Inv, hactive]
  exact h

omit [DecidableEq Thread] [DecidableEq Owner] in
theorem Inv.free (h : Inv s) (hfree : s.holder = none) : InvAt s .idle := by
  rw [Inv, active_of_free hfree] at h
  exact h

omit [DecidableEq Thread] [DecidableEq Owner] in
/-- The thread at a place behind the lock is the one that holds it. -/
theorem Inv.behind (h : Inv s) (hpc : s.pc t = pc) (hlocked : locked pc = true) :
    s.holder = some t ∧ InvAt s pc := by
  have hholder := (InvAt.locks h t).1 (hpc ▸ hlocked)
  rw [Inv, active_of_holder hholder, hpc] at h
  exact ⟨hholder, h⟩

omit [DecidableEq Owner] in
@[simp] theorem goto_pc_self (s : SharedMemory Thread Owner) (t : Thread) (pc : Pc Owner) :
    (s.goto t pc).pc t = pc := Function.update_self ..

omit [DecidableEq Owner] in
theorem goto_pc_of_ne {t' : Thread} (h : t' ≠ t) : (s.goto t pc).pc t' = s.pc t' :=
  Function.update_of_ne h ..

section

variable {start : Pc Owner}

omit [DecidableEq Owner] in
/-- A free lock is taken. -/
theorem InvAt.locks_lock (h : InvAt s start) (hfree : s.holder = none) (hlocked : locked pc = true)
    (t' : Thread) : locked ((s.lock t pc).pc t') = true ↔ (s.lock t pc).holder = some t' := by
  show locked ((s.goto t pc).pc t') = true ↔ some t = some t'
  by_cases ht : t' = t
  · rw [ht, goto_pc_self]
    simp [hlocked]
  · rw [goto_pc_of_ne ht, h.locks, hfree]
    simp [Ne.symm ht]

omit [DecidableEq Owner] in
/-- The lock is given back. -/
theorem InvAt.locks_unlock (h : InvAt s start) (hholder : s.holder = some t) (t' : Thread) :
    locked ((s.unlock t).pc t') = true ↔ (s.unlock t).holder = some t' := by
  show locked ((s.goto t .idle).pc t') = true ↔ none = some t'
  by_cases ht : t' = t
  · rw [ht, goto_pc_self]
    simp [locked]
  · rw [goto_pc_of_ne ht, h.locks, hholder]
    simp [Ne.symm ht]

omit [DecidableEq Owner] in
/-- A thread goes on, with the lock or without it. -/
theorem InvAt.locks_goto (h : InvAt s start) (hsame : locked (s.pc t) = locked pc) (t' : Thread) :
    locked ((s.goto t pc).pc t') = true ↔ (s.goto t pc).holder = some t' := by
  show locked ((s.goto t pc).pc t') = true ↔ s.holder = some t'
  by_cases ht : t' = t
  · rw [ht, goto_pc_self, ← hsame, h.locks]
  · rw [goto_pc_of_ne ht, h.locks]

omit [DecidableEq Thread] [DecidableEq Owner] in
/-- Who waits has its own signal. -/
theorem InvAt.nodup_waiting (h : InvAt s start) : ((waiting s.log).map Prod.snd).Nodup :=
  h.correct.nodup_registered.sublist (List.filter_sublist.map _)

end

omit [DecidableEq Owner] in
/-- A thread without the lock goes on. -/
theorem Inv.active_goto (h : Inv s) (hfree : locked (s.pc t) = false) :
    (s.goto t pc).active = s.active := by
  cases hholder : s.holder with
  | none => rw [active_of_free hholder, active_of_free (s := s.goto t pc) hholder]
  | some t' =>
    have ht : t' ≠ t := by
      rintro rfl
      rw [(InvAt.locks h t').2 hholder] at hfree
      cases hfree
    rw [active_of_holder hholder, active_of_holder (s := s.goto t pc) hholder, goto_pc_of_ne ht]

omit [DecidableEq Owner] in
/-- The thread that holds the lock goes on. -/
theorem active_goto_holder (h : s.holder = some t) : (s.goto t pc).active = pc := by
  rw [active_of_holder (s := s.goto t pc) (t := t) h, goto_pc_self]

omit [DecidableEq Thread] [DecidableEq Owner] in
theorem inv_zeroed : Inv (zeroed : SharedMemory Thread Owner) where
  correct := trivial
  locks t := by simp [zeroed, locked]
  below e he := by cases he
  held w hw := by cases hw
  waiters := rfl
  flags w := by simp [zeroed, counted, active, wakes]
  sensible := trivial

/-! ## The sections keep it -/

omit [DecidableEq Owner] in
/-- With the lock and a signal of its own, a thread begins to register. -/
theorem Inv.lockRegister (h : Inv s) (hfree : s.holder = none) (offset : Nat) (zero : Bool) :
    Inv { s.lock t (.registering offset zero s.allocated) with
      signals := Function.update s.signals s.allocated ⟨none, false⟩
      allocated := s.allocated + 1 } := by
  have h := h.free hfree
  have hnew : ∀ e ∈ registered s.log, e.2 ≠ s.allocated := fun e he => Nat.ne_of_lt (h.below e he)
  refine Inv.of_active (goto_pc_self s t _) ⟨h.correct, h.locks_lock hfree rfl,
    fun e he => Nat.lt_succ_of_lt (h.below e he), h.held, h.waiters, fun w => ?_,
    Nat.lt_succ_self _, hnew⟩
  by_cases hw : w = s.allocated
  · subst hw
    have hnot : s.allocated ∉ counted s.log := by
      intro hmem
      obtain ⟨e, he, hew⟩ := h.correct.mem_registered (.inl hmem)
      exact hnew e he hew
    show (Function.update s.signals s.allocated ⟨none, false⟩ s.allocated).notified = true ↔
      s.allocated ∈ counted s.log ∨ s.allocated ∈ []
    simp [hnot]
  · simp only [Function.update_of_ne hw]
    exact h.flags w

omit [DecidableEq Owner] in
/-- The registration is refused. -/
theorem Inv.refuse {offset signal : Nat} {zero : Bool} (h : Inv s)
    (hpc : s.pc t = .registering offset zero signal) : Inv (s.unlock t) := by
  obtain ⟨hholder, h⟩ := h.behind hpc rfl
  exact ⟨h.correct, h.locks_unlock hholder, h.below, h.held, h.waiters, h.flags, trivial⟩

omit [DecidableEq Owner] in
/-- A waiter comes last in the list. -/
theorem Inv.register {offset signal : Nat} {zero : Bool} (h : Inv s)
    (hpc : s.pc t = .registering offset zero signal) :
    Inv { s.unlock t with
      waiters := s.waiters ++ [(offset, signal)]
      held := signal :: s.held
      log := .registered offset signal :: s.log } := by
  obtain ⟨hholder, h⟩ := h.behind hpc rfl
  obtain ⟨hlt, hnew⟩ := h.sensible
  refine ⟨⟨hnew, h.correct⟩, h.locks_unlock hholder, fun e he => ?_, fun w hw => ?_, ?_, h.flags,
    trivial⟩
  · rcases List.mem_append.1 he with he | he
    · exact h.below e he
    · rw [List.mem_singleton.1 he]
      exact hlt
  · rcases List.mem_cons.1 hw with rfl | hw
    · exact ⟨_, List.mem_append_right _ (List.mem_singleton.2 rfl), rfl⟩
    · obtain ⟨e, he, hew⟩ := h.held w hw
      exact ⟨e, List.mem_append_left _ he, hew⟩
  · show s.waiters ++ [(offset, signal)] = waiting (.registered offset signal :: s.log)
    rw [waiting_registered h.correct hnew, h.waiters, listed]
    nofun

omit [DecidableEq Owner] in
/-- A notification begins with the whole list. -/
theorem Inv.lockNotify (h : Inv s) (hfree : s.holder = none) (offset count : Nat) :
    Inv (s.lock t (.notifying offset count 0 [] s.waiters [])) := by
  have h := h.free hfree
  have hwalk := walk_start s.waiters offset count
  rw [h.waiters] at hwalk ⊢
  exact Inv.of_active (goto_pc_self s t _)
    ⟨h.correct, h.locks_lock hfree rfl, h.below, h.held, h.waiters, h.flags, hwalk, rfl⟩

section

variable {offset count notified signal : Nat} {kept rest : List (Nat × Nat)} {woken : List Nat}
  {e : Nat × Nat}

omit [DecidableEq Owner] in
/-- A notification passes a waiter. -/
theorem Inv.keep (h : Inv s)
    (hpc : s.pc t = .notifying offset count notified kept (e :: rest) woken)
    (hkeep : e.1 ≠ offset ∨ notified = count) :
    Inv (s.goto t (.notifying offset count notified (kept ++ [e]) rest woken)) := by
  obtain ⟨hholder, h⟩ := h.behind hpc rfl
  obtain ⟨hwalk, hnotified⟩ := h.sensible
  exact Inv.of_active (active_goto_holder hholder)
    ⟨h.correct, h.locks_goto (by rw [hpc]; rfl), h.below, h.held, h.waiters, h.flags,
      hwalk.keep h.nodup_waiting (hnotified ▸ hkeep), hnotified⟩

omit [DecidableEq Owner] in
/-- It sets the flag of a waiter. -/
theorem Inv.wake (h : Inv s)
    (hpc : s.pc t = .notifying offset count notified kept (e :: rest) woken)
    (hwake : ¬ (e.1 ≠ offset ∨ notified = count)) :
    Inv { s.goto t (.waking offset count notified kept rest woken e.2) with
      signals := Function.update s.signals e.2 { s.signals e.2 with notified := true } } := by
  obtain ⟨hholder, h⟩ := h.behind hpc rfl
  obtain ⟨hwalk, hnotified⟩ := h.sensible
  obtain ⟨hoffset, hcount⟩ := not_or.1 hwake
  obtain rfl := not_not.1 hoffset
  refine Inv.of_active (active_goto_holder hholder)
    ⟨h.correct, h.locks_goto (by rw [hpc]; rfl), h.below, h.held, h.waiters, fun w => ?_, hwalk,
      hnotified, hcount⟩
  show (Function.update s.signals e.2 { s.signals e.2 with notified := true } w).notified = true ↔
    w ∈ counted s.log ∨ w ∈ woken ++ [e.2]
  by_cases hw : w = e.2
  · simp [hw]
  · rw [Function.update_of_ne hw, h.flags w, List.mem_append]
    simp [wakes, hw]

omit [DecidableEq Owner] in
/-- It has woken the waiter. -/
theorem Inv.skipOwner (h : Inv s)
    (hpc : s.pc t = .waking offset count notified kept rest woken signal) :
    Inv (s.goto t (.notifying offset count (notified + 1) kept rest (woken ++ [signal]))) := by
  obtain ⟨hholder, h⟩ := h.behind hpc rfl
  obtain ⟨hwalk, hnotified, hcount⟩ := h.sensible
  refine Inv.of_active (active_goto_holder hholder)
    ⟨h.correct, h.locks_goto (by rw [hpc]; rfl), h.below, h.held, h.waiters, h.flags,
      hwalk.wake h.nodup_waiting rfl (hnotified ▸ hcount), ?_⟩
  rw [hnotified, List.length_append, List.length_singleton]

omit [DecidableEq Owner] in
/-- A notification returns. -/
theorem Inv.finishNotify (h : Inv s)
    (hpc : s.pc t = .notifying offset count notified kept [] woken) :
    Inv { s.unlock t with
      waiters := kept
      log := .notified offset count woken notified :: s.log } := by
  obtain ⟨hholder, h⟩ := h.behind hpc rfl
  obtain ⟨hwalk, hnotified⟩ := h.sensible
  obtain ⟨hkept, hwoken, hlength⟩ := hwalk.finish
  refine ⟨⟨hwoken, hnotified.trans hlength, h.correct⟩, h.locks_unlock hholder, h.below, h.held, ?_,
    fun w => ?_, trivial⟩
  · show kept = waiting (.notified offset count woken notified :: s.log)
    rw [waiting_notified, hkept]
  · show (s.signals w).notified = true ↔ w ∈ woken ++ counted s.log ∨ w ∈ []
    rw [h.flags w, List.mem_append, wakes]
    simp [or_comm]

omit [DecidableEq Owner] in
/-- A completion takes its waiter from the list. -/
theorem Inv.lockComplete (h : Inv s) (hfree : s.holder = none) (hheld : signal ∈ s.held) :
    Inv { s.lock t (.completing signal) with
      waiters := s.waiters.filter fun e => e.2 ≠ signal } := by
  have h := h.free hfree
  refine Inv.of_active (goto_pc_self s t _)
    ⟨h.correct, h.locks_lock hfree rfl, h.below, h.held, ?_, h.flags, h.held signal hheld⟩
  show (s.waiters.filter fun e => e.2 ≠ signal) = (waiting s.log).filter fun e => e.2 ≠ signal
  rw [h.waiters]
  rfl

omit [DecidableEq Thread] [DecidableEq Owner] in
/-- The registration is gone. -/
theorem Inv.drop (h : Inv s) : Inv { s with held := s.held.erase signal } :=
  ⟨h.correct, h.locks, h.below, fun w hw => InvAt.held h w (List.mem_of_mem_erase hw), h.waiters,
    h.flags, h.sensible⟩

omit [DecidableEq Owner] in
/-- A completion reads the flag. -/
theorem Inv.finishComplete (h : Inv s) (hpc : s.pc t = .completing signal) :
    Inv { s.unlock t with
      log := .completed signal (completeResult (s.signals signal).notified) :: s.log } := by
  obtain ⟨hholder, h⟩ := h.behind hpc rfl
  have hflag : (s.signals signal).notified = decide (signal ∈ counted s.log) := by
    rw [Bool.eq_iff_iff, h.flags, decide_eq_true_eq]
    simp [wakes]
  refine ⟨⟨h.sensible, by rw [hflag], h.correct⟩, h.locks_unlock hholder, h.below, h.held, ?_,
    h.flags, trivial⟩
  show s.waiters = waiting (.completed signal _ :: s.log)
  rw [waiting_completed, h.waiters, listed]

end

omit [DecidableEq Owner] in
/-- What the owner of a signal does is nothing to the waiters. -/
theorem Inv.goto_free (h : Inv s) (hfrom : locked (s.pc t) = false) (hto : locked pc = false) :
    Inv (s.goto t pc) :=
  Inv.of_active (h.active_goto hfrom)
    ⟨h.correct, InvAt.locks_goto h (by rw [hfrom, hto]), h.below, h.held, h.waiters, h.flags,
      h.sensible⟩

omit [DecidableEq Thread] in
theorem Inv.fire (h : Inv s) (wake : Owner) : Inv (s.fire wake) :=
  ⟨h.correct, h.locks, h.below, h.held, h.waiters, h.flags, h.sensible⟩

omit [DecidableEq Thread] [DecidableEq Owner] in
theorem Inv.setOwnerWake (h : Inv s) (signal : Nat) (wake : Owner) :
    Inv { s with
      signals := Function.update s.signals signal
        { s.signals signal with ownerWake := some wake } } := by
  refine ⟨h.correct, h.locks, h.below, h.held, h.waiters, fun w => ?_, h.sensible⟩
  have hflags := InvAt.flags h w
  show (Function.update s.signals signal
    { s.signals signal with ownerWake := some wake } w).notified = true ↔ _
  by_cases hw : w = signal
  · subst hw
    rw [Function.update_self]
    exact hflags
  · rw [Function.update_of_ne hw]
    exact hflags

theorem Inv.step (h : Inv s) (hstep : Step s s') : Inv s' := by
  cases hstep with
  | lockRegister offset zero hfree _ => exact h.lockRegister hfree offset zero
  | refuse equal hpc _ => exact h.refuse hpc
  | register equal hpc _ => exact h.register hpc
  | lockNotify offset count hfree _ => exact h.lockNotify hfree offset count
  | keep hpc hkeep => exact h.keep hpc hkeep
  | wake hpc hwake => exact h.wake hpc hwake
  | fireOwner hpc _ => exact (h.skipOwner hpc).fire _
  | skipOwner hpc => exact h.skipOwner hpc
  | finishNotify hpc => exact h.finishNotify hpc
  | lockComplete hfree _ hheld => exact h.lockComplete hfree hheld
  | dropRegistration hfree _ hheld => exact (h.lockComplete hfree hheld).drop
  | finishComplete hpc => exact h.finishComplete hpc
  | @setOwnerWake t signal wake hpc hheld =>
    have hfree : locked (s.pc t) = false := by rw [hpc]; rfl
    have howning : Inv (s.goto t (.owning signal wake)) := h.goto_free hfree rfl
    exact howning.setOwnerWake signal wake
  | @checkNotified t signal wake hpc =>
    have hfree : locked (s.pc t) = false := by rw [hpc]; rfl
    have hidle : Inv (s.goto t .idle) := h.goto_free hfree rfl
    split_ifs
    · exact hidle.fire _
    · exact hidle
  | consumeWake wake => exact ⟨h.correct, h.locks, h.below, h.held, h.waiters, h.flags, h.sensible⟩

omit [DecidableEq Thread] [DecidableEq Owner] in
/-- Who is in the list waits. -/
theorem Inv.waiters_sub (h : Inv s) (e : Nat × Nat) (he : e ∈ s.waiters) : e ∈ waiting s.log := by
  rw [InvAt.waiters h] at he
  cases hpc : s.active with
  | completing signal =>
    rw [hpc] at he
    exact List.mem_of_mem_filter he
  | _ => rwa [hpc] at he

theorem Reachable.inv (h : Reachable s) : Inv s := by
  induction h with
  | init => exact inv_zeroed
  | step _ hstep ih => exact ih.step hstep

end SharedMemory

open SharedMemory

/-- **Nothing is lost and nothing is counted twice.**  However the sections interleave, each
notification has woken the first `count` of the waiters that were registered at its offset and
neither woken nor complete, in order, and returned how many; their flags are set; no waiter is
counted twice; a completion has returned `ok` if some notification counted its waiter and `timedOut`
if none did; and its waiter is no longer in the list. -/
theorem waits_exact {Thread Owner : Type} [DecidableEq Thread] [DecidableEq Owner]
    {s : SharedMemory Thread Owner} (h : SharedMemory.Reachable s) :
    (∀ offset count woken result before,
      .notified offset count woken result :: before <:+ s.log →
        woken = (under offset (waiting before)).take count ∧
          result = min count (under offset (waiting before)).length ∧
          ∀ signal ∈ woken, (s.signals signal).notified = true) ∧
      (counted s.log).Nodup ∧
      (∀ signal result, .completed signal result ∈ s.log →
        (result = .ok ∧ signal ∈ counted s.log ∨ result = .timedOut ∧ signal ∉ counted s.log) ∧
          ∀ e ∈ s.waiters, e.2 ≠ signal) := by
  have hinv := h.inv
  refine ⟨fun offset count woken result before hsuffix => ?_, hinv.correct.nodup_counted,
    fun signal result hmem => ⟨?_, fun e he hsame => ?_⟩⟩
  · obtain ⟨hwoken, hresult, -⟩ := hinv.correct.of_suffix hsuffix
    refine ⟨hwoken, hresult, fun signal hsignal => (InvAt.flags hinv signal).2 (.inl ?_)⟩
    exact List.mem_flatMap.2 ⟨_, hsuffix.subset List.mem_cons_self, hsignal⟩
  · have hresult := hinv.correct.result hmem
    rw [hresult, completeResult]
    by_cases hcounted : signal ∈ counted s.log
    · simp [hcounted]
    · simp [hcounted]
  · have hwaits : e ∈ waiting s.log := hinv.waiters_sub e he
    refine (mem_waiting.1 hwaits).2.2 (hsame ▸ ?_)
    exact List.mem_flatMap.2 ⟨_, hmem, List.mem_cons_self⟩

/-- A waiter is woken, and its completion knows. -/
theorem waits_exact_woken : ∃ s : SharedMemory Unit Unit, SharedMemory.Reachable s ∧
    s.log = [.completed 0 .ok, .notified 8 1 [0] 1, .registered 8 0] ∧ s.waiters = [] ∧
      (s.signals 0).notified = true := by
  have hinit : SharedMemory.Reachable (zeroed : SharedMemory Unit Unit) := .init
  have hlock := hinit.step (.lockRegister (t := ()) 8 false rfl rfl)
  have hregister := hlock.step (.register (t := ()) true rfl rfl)
  have hnotify := hregister.step (.lockNotify (t := ()) 8 1 rfl rfl)
  have hwake := hnotify.step (.wake (t := ()) rfl (by decide))
  have hwoken := hwake.step (.skipOwner (t := ()) rfl)
  have hreturn := hwoken.step (.finishNotify (t := ()) rfl)
  have hcomplete := hreturn.step (.lockComplete (t := ()) rfl rfl List.mem_cons_self)
  have hend := hcomplete.step (.finishComplete (t := ()) rfl)
  refine ⟨_, hend, rfl, rfl, ?_⟩
  exact ((waits_exact hend).1 8 1 [0] 1 [.registered 8 0] (List.suffix_cons _ _)).2.2 0
    List.mem_cons_self

end NapiVm.SharedWait
