import Mathlib.Data.Set.Card
import Mathlib.Order.Interval.Finset.Nat
import NapiVm.Jobs.Cancel

/-!
# Ids of timers

Before the ids wrap, a new id is later than all others.  Afterwards the search passes over the ids
of pending timers and of live intervals, also of those that are executing.

* `mint_some` — the search ends if an id is free.
* `Minted` — what the ids of a queue have in common.
* `ids_distinct` — live ids never alias.
-/

namespace NapiVm.Jobs

namespace JobQueue

/-! ## The search -/

section

variable {occupied : Nat → Bool} {rounds last id : Nat} {wrapped wrapped' : Bool}

/-- The id that a round tries. -/
def nextId (last : Nat) : Nat := if maxId ≤ last then 1 else last + 1

theorem nextId_pos (last : Nat) : 1 ≤ nextId last := by
  rw [nextId]
  split_ifs <;> omega

theorem nextId_le (last : Nat) : nextId last ≤ maxId := by
  rw [nextId]
  split_ifs with h
  · decide
  · omega

/-- One round. -/
theorem mint_succ (occupied : Nat → Bool) (rounds last : Nat) (wrapped : Bool) :
    mint occupied (rounds + 1) last wrapped =
      if !(wrapped || decide (maxId ≤ last)) || !occupied (nextId last) then
        some (nextId last, wrapped || decide (maxId ≤ last))
      else mint occupied rounds (nextId last) (wrapped || decide (maxId ≤ last)) := rfl

/-- A minted id is in range. -/
theorem mint_range (h : mint occupied rounds last wrapped = some (id, wrapped')) :
    1 ≤ id ∧ id ≤ maxId := by
  induction rounds generalizing last wrapped with
  | zero => cases h
  | succ rounds ih =>
    rw [mint_succ] at h
    split_ifs at h
    · cases h
      exact ⟨nextId_pos last, nextId_le last⟩
    · exact ih h

/-- The rounds until an id is tried, the ids in a circle. -/
def distance (last id : Nat) : Nat := if last < id then id - last else maxId - last + id

/-- A round comes closer to every id but the one it tries. -/
theorem distance_nextId (hlast : last ≤ maxId) (hpos : 1 ≤ id) (hid : id ≤ maxId)
    (hne : nextId last ≠ id) : distance (nextId last) id + 1 = distance last id := by
  rw [nextId] at hne ⊢
  simp only [distance]
  split_ifs at hne ⊢ <;> omega

theorem distance_pos (hpos : 1 ≤ id) : 1 ≤ distance last id := by
  rw [distance]
  split_ifs <;> omega

theorem distance_le (hid : id ≤ maxId) : distance last id ≤ maxId := by
  rw [distance]
  split_ifs <;> omega

/-- The search comes to a free id. -/
theorem mint_some (hlast : last ≤ maxId) (hpos : 1 ≤ id) (hid : id ≤ maxId)
    (hfree : occupied id = false) (hrounds : distance last id ≤ rounds) :
    ∃ minted, mint occupied rounds last wrapped = some minted := by
  induction rounds generalizing last wrapped with
  | zero =>
    have : 1 ≤ distance last id := distance_pos hpos
    omega
  | succ rounds ih =>
    rw [mint_succ]
    split_ifs with hdone
    · exact ⟨_, rfl⟩
    · have hne : nextId last ≠ id := by
        intro h
        rw [h, hfree] at hdone
        simp at hdone
      have := distance_nextId hlast hpos hid hne
      exact ih (nextId_le last) (by omega)

end

variable {V Other : Type} {q q' : JobQueue V Other} {id deadline : Nat}
  {job : Nat → Scheduled V Other}

/-! ## Minted ids -/

/-- The search of `push_timer_job`. -/
def search (q : JobQueue V Other) : Option (Nat × Bool) :=
  mint (fun id => q.timers.containsId id || (q.intervals id).isSome) (maxId + 1)
    q.nextTimerId q.timerIdsWrapped

/-- The ids in use. -/
def live (q : JobQueue V Other) : Set Nat :=
  {id | (∃ e ∈ q.timers.entries, e.id = id) ∨ (q.intervals id).isSome = true}

/-- The last id is in range, and that of an interval is no later than it until the ids have
wrapped. -/
structure Minted (q : JobQueue V Other) : Prop where
  range : q.nextTimerId ≤ maxId
  intervals : q.timerIdsWrapped = false →
    ∀ id, (q.intervals id).isSome = true → id ≤ q.nextTimerId

theorem minted_empty : Minted (empty : JobQueue V Other) :=
  ⟨Nat.zero_le _, nofun⟩

/-- Fewer intervals. -/
theorem Minted.of_intervals (h : Minted q) (hnext : q'.nextTimerId = q.nextTimerId)
    (hwrapped : q'.timerIdsWrapped = q.timerIdsWrapped)
    (hsub : ∀ id, (q'.intervals id).isSome = true → (q.intervals id).isSome = true) :
    Minted q' := by
  refine ⟨hnext ▸ h.range, fun hw id hid => ?_⟩
  rw [hnext]
  exact h.intervals (hwrapped ▸ hw) id (hsub id hid)

/-- What a push takes from the search. -/
theorem push_search (hpush : q.pushTimerJob deadline job = some (q', id)) :
    ∃ wrapped, q.search = some (id, wrapped) ∧ q'.nextTimerId = id ∧
      q'.timerIdsWrapped = wrapped ∧ q'.intervals = q.intervals := by
  rw [pushTimerJob] at hpush
  rw [search]
  cases hmint : mint (fun id => q.timers.containsId id || (q.intervals id).isSome) (maxId + 1)
      q.nextTimerId q.timerIdsWrapped with
  | none =>
    rw [hmint] at hpush
    cases hpush
  | some minted =>
    obtain ⟨new, wrapped⟩ := minted
    rw [hmint] at hpush
    simp only at hpush
    split_ifs at hpush
    cases hpush
    exact ⟨wrapped, rfl, rfl, rfl, rfl⟩

/-- In range, and the id of no pending timer and of no interval. -/
structure New (q : JobQueue V Other) (id : Nat) : Prop where
  pos : 1 ≤ id
  le : id ≤ maxId
  timers : ∀ e ∈ q.timers.entries, e.id ≠ id
  intervals : q.intervals id = none

/-- The search finds a new id. -/
theorem search_new {wrapped : Bool} (h : Sound q) (hm : Minted q)
    (hsearch : q.search = some (id, wrapped)) : New q id := by
  obtain ⟨hnext, hfree⟩ := mint_spec hsearch
  obtain ⟨hpos, hle⟩ := mint_range hsearch
  have hlive : ∀ x ∈ q.live, x ≠ id := by
    rintro x hx rfl
    cases wrapped with
    | false =>
      -- The ids in use are no later than the last one.
      obtain ⟨hw, hlast⟩ := hnext rfl
      rcases hx with ⟨e, he, rfl⟩ | hi
      · have := h.bounded hw e he
        omega
      · have := hm.intervals hw x hi
        omega
    | true =>
      have hoccupied := hfree rfl
      rw [Bool.or_eq_false_iff, (TimerQueue.represents_observe h.agrees.represents).2.2 x]
        at hoccupied
      rcases hx with ⟨e, he, hid⟩ | hi
      · have hany : (q.timers.entries.any fun e => e.id = x) = true :=
          List.any_eq_true.2 ⟨e, he, decide_eq_true hid⟩
        rw [hoccupied.1] at hany
        cases hany
      · rw [hoccupied.2] at hi
        cases hi
  refine ⟨hpos, hle, fun e he hid => hlive e.id (.inl ⟨e, he, rfl⟩) hid, ?_⟩
  rw [← Option.not_isSome_iff_eq_none]
  exact fun hi => hlive id (.inr hi) rfl

/-- A push keeps the ids in order. -/
theorem push_minted (hm : Minted q) (hpush : q.pushTimerJob deadline job = some (q', id)) :
    Minted q' ∧ (q'.timerIdsWrapped = false → ∀ x, (q.intervals x).isSome = true → x ≤ id) := by
  obtain ⟨wrapped, hsearch, hnext, hwrapped, hintervals⟩ := push_search hpush
  have hle : q'.timerIdsWrapped = false → ∀ x, (q.intervals x).isSome = true → x ≤ id := by
    intro hw x hx
    rw [hwrapped] at hw
    obtain ⟨hold, hlast⟩ := (mint_spec hsearch).1 hw
    have := hm.intervals hold x hx
    omega
  refine ⟨⟨hnext ▸ (mint_range hsearch).2, fun hw x hx => ?_⟩, hle⟩
  rw [hnext]
  exact hle hw x (hintervals ▸ hx)

/-- An id is free if fewer than `maxId` are in use. -/
theorem exists_free (h : q.live.encard < maxId) : ∃ id, 1 ≤ id ∧ id ≤ maxId ∧ id ∉ q.live := by
  by_contra hall
  have hsub : (Finset.Icc 1 maxId : Set Nat) ⊆ q.live := by
    intro id hid
    rw [Finset.mem_coe, Finset.mem_Icc] at hid
    by_contra hfree
    exact hall ⟨id, hid.1, hid.2, hfree⟩
  have hcard := Set.encard_le_encard hsub
  rw [Set.encard_coe_eq_coe_finsetCard, Nat.card_Icc, Nat.add_sub_cancel] at hcard
  exact absurd h (not_lt.2 hcard)

/-- The search ends if fewer than `maxId` ids are in use. -/
theorem search_some (h : Sound q) (hm : Minted q) (hlive : q.live.encard < maxId) :
    ∃ minted, q.search = some minted := by
  obtain ⟨id, hpos, hid, hfree⟩ := exists_free hlive
  refine mint_some hm.range hpos hid ?_ (Nat.le_succ_of_le (distance_le hid))
  rw [Bool.or_eq_false_iff, (TimerQueue.represents_observe h.agrees.represents).2.2 id]
  obtain ⟨htimers, hintervals⟩ := not_or.1 hfree
  refine ⟨?_, by simpa using hintervals⟩
  rw [List.any_eq_false]
  intro e he hid
  exact htimers ⟨e, he, of_decide_eq_true hid⟩

end JobQueue

open JobQueue

variable {V Other : Type}

/-- The ids stay in order in every run. -/
theorem Reachable.minted {s : TimerState V Other} (h : Reachable s) : s.queue.Minted := by
  induction h with
  | init => exact minted_empty
  | pushTimer deadline callback args _ hpush ih => exact (push_minted ih hpush).1
  | pushInterval deadline delay callback args _ hpush ih =>
    obtain ⟨⟨q, new⟩, hjob, hq⟩ := Option.map_eq_some_iff.1 hpush
    cases hq
    obtain ⟨hminted, hle⟩ := push_minted ih hjob
    obtain ⟨wrapped, hsearch, hnext, hwrapped, hintervals⟩ := push_search hjob
    refine ⟨hminted.range, fun hw id hid => ?_⟩
    by_cases hsame : id = new
    · exact hsame.trans_le hnext.ge
    · simp only [PMap.insert_of_ne hsame, hintervals] at hid
      exact (hle hw id hid).trans hnext.ge
  | pushTimerJob deadline job _ hpush ih => exact (push_minted ih hpush).1
  | @takeTimer s q job now retain hreach htake ih =>
    have hintervals := (take_spec now retain hreach.good.sound).2.1
    rw [htake] at hintervals
    rw [JobQueue.takeTimer] at htake
    split_ifs at htake <;> cases htake <;>
      exact ih.of_intervals rfl rfl fun id hid => hintervals ▸ hid
  | @rescheduleInterval s q id deadline _ _ hpush ih =>
    rw [JobQueue.rescheduleInterval] at hpush
    cases hi : s.queue.intervals id with
    | none =>
      rw [hi] at hpush
      cases hpush
      exact ih
    | some i =>
      rw [hi] at hpush
      obtain ⟨⟨q', new⟩, hjob, hq⟩ := Option.map_eq_some_iff.1 hpush
      cases hq
      obtain ⟨hminted, hle⟩ := push_minted ih hjob
      obtain ⟨wrapped, hsearch, hnext, hwrapped, hintervals⟩ := push_search hjob
      refine ⟨hminted.range, fun hw id' hid => (hle hw id' ?_).trans hnext.ge⟩
      by_cases hsame : id' = id
      · rw [hsame, hi]
        rfl
      · simpa only [PMap.insert_of_ne hsame, hintervals] using hid
  | @cancelTimer s id retain retain' hreach ih =>
    obtain ⟨-, -, hintervals⟩ := cancel_spec id retain retain' hreach.good.sound
    have hkeep : (s.queue.cancelTimer id retain retain').nextTimerId = s.queue.nextTimerId ∧
        (s.queue.cancelTimer id retain retain').timerIdsWrapped = s.queue.timerIdsWrapped := by
      rw [JobQueue.cancelTimer]
      cases s.queue.intervals id <;> exact ⟨rfl, rfl⟩
    refine ih.of_intervals hkeep.1 hkeep.2 fun x hx => ?_
    simp only [hintervals] at hx
    by_cases hsame : x = id
    · rw [hsame, PMap.erase_self] at hx
      cases hx
    · rwa [PMap.erase_of_ne hsame] at hx

/-- **Live ids never alias.**  In every state that the operations come to, pending timers have
different ids, each push takes an id in range that no pending timer and no interval has, and the
search for it ends if fewer than `maxId` ids are in use. -/
theorem ids_distinct {s : TimerState V Other} (h : Reachable s) :
    (s.queue.timers.entries.map TimerEntry.id).Nodup ∧
      (∀ deadline callback args q id,
        s.queue.pushTimer deadline callback args = some (q, id) → New s.queue id) ∧
      (∀ deadline delay callback args q id,
        s.queue.pushInterval deadline delay callback args = some (q, id) → New s.queue id) ∧
      (∀ deadline job q id,
        s.queue.pushTimerJob deadline job = some (q, id) → New s.queue id) ∧
      (s.queue.live.encard < maxId → ∃ minted, s.queue.search = some minted) := by
  have hsound := h.good.sound
  have hpush : ∀ deadline job q id,
      s.queue.pushTimerJob deadline job = some (q, id) → New s.queue id := by
    intro deadline job q id hpush
    obtain ⟨wrapped, hsearch, -⟩ := push_search hpush
    exact search_new hsound h.minted hsearch
  refine ⟨hsound.agrees.tidy.nodup, fun deadline callback args q id => hpush deadline _ q id,
    fun deadline delay callback args q id hinterval => ?_, hpush,
    search_some hsound h.minted⟩
  obtain ⟨⟨q', new⟩, hjob, hq⟩ := Option.map_eq_some_iff.1 hinterval
  cases hq
  exact hpush deadline _ q' new hjob

theorem ids_distinct_pushed : ∃ (s : TimerState Unit Empty) (q : JobQueue Unit Empty),
    Reachable s ∧ s.returned = [2, 1] ∧ s.queue.pushTimer 0 () [] = some (q, 3) ∧
      New s.queue 3 := by
  have hinit : Reachable (⟨.empty, [], []⟩ : TimerState Unit Empty) := .init
  have hpush := Reachable.pushTimer 0 () [] hinit rfl
  have hinterval := Reachable.pushInterval 0 0 () [] hpush rfl
  exact ⟨_, _, hinterval, rfl, rfl, (ids_distinct hinterval).2.1 0 () [] _ 3 rfl⟩

end NapiVm.Jobs
