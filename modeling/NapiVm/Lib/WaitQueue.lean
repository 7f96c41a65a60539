import Mathlib.Data.List.Nodup

/-!
# Histories of a wait queue

Waiters register under a key, and a notification wakes the first of them.  A waiter completes with
a result that says whether it was woken.

* `waiting` — who is registered, and was neither woken nor has completed.
* `Correct` — the histories in which a notification wakes the first waiters, and a completion
  knows whether there was one.
* `Walk` — how far a notification has come that goes through the waiters one by one.
-/

namespace NapiVm.WaitQueue

open List

/-- What happens to a queue. -/
inductive Event (κ ω ρ : Type) where
  | registered (key : κ) (waiter : ω)
  | notified (key : κ) (count : Nat) (woken : List ω) (result : Nat)
  | completed (waiter : ω) (result : ρ)

section

variable {κ ω ρ : Type}

/-- The waiters that an event wakes. -/
def Event.woken : Event κ ω ρ → List ω
  | .notified _ _ woken _ => woken
  | _ => []

/-- The waiter that an event completes. -/
def Event.finished : Event κ ω ρ → List ω
  | .completed waiter _ => [waiter]
  | _ => []

/-- The registrations, in order.  A history has its last event first. -/
def registered : List (Event κ ω ρ) → List (κ × ω)
  | [] => []
  | .registered key waiter :: h => registered h ++ [(key, waiter)]
  | .notified _ _ _ _ :: h => registered h
  | .completed _ _ :: h => registered h

/-- The waiters that notifications have counted. -/
def counted (h : List (Event κ ω ρ)) : List ω := h.flatMap Event.woken

/-- The waiters that have completed. -/
def finished (h : List (Event κ ω ρ)) : List ω := h.flatMap Event.finished

variable [DecidableEq κ] [DecidableEq ω]

/-- The waiters that are registered, and neither counted nor complete. -/
def waiting (h : List (Event κ ω ρ)) : List (κ × ω) :=
  (registered h).filter fun e => e.2 ∉ counted h ∧ e.2 ∉ finished h

/-- Those under a key. -/
def under (key : κ) (l : List (κ × ω)) : List ω := (l.filter fun e => e.1 = key).map Prod.snd

/-- Each waiter registers once, a notification wakes the first `count` of those that wait under its
key, and a completion gives the outcome. -/
def Correct (outcome : Bool → ρ) : List (Event κ ω ρ) → Prop
  | [] => True
  | .registered _ waiter :: h => (∀ e ∈ registered h, e.2 ≠ waiter) ∧ Correct outcome h
  | .notified key count woken result :: h =>
    woken = (under key (waiting h)).take count ∧
      result = min count (under key (waiting h)).length ∧ Correct outcome h
  | .completed waiter result :: h =>
    (∃ e ∈ registered h, e.2 = waiter) ∧ result = outcome (waiter ∈ counted h) ∧
      Correct outcome h

variable {outcome : Bool → ρ} {h : List (Event κ ω ρ)} {key : κ} {w : ω} {l : List (κ × ω)}

omit [DecidableEq ω] in
theorem mem_under : w ∈ under key l ↔ (key, w) ∈ l := by
  simp only [under, mem_map, mem_filter, decide_eq_true_eq]
  constructor
  · rintro ⟨⟨k, w⟩, ⟨hmem, rfl⟩, rfl⟩
    exact hmem
  · intro hmem
    exact ⟨(key, w), ⟨hmem, rfl⟩, rfl⟩

omit [DecidableEq ω] in
theorem under_append (l l' : List (κ × ω)) : under key (l ++ l') = under key l ++ under key l' := by
  simp [under]

omit [DecidableEq κ] in
theorem mem_waiting {e : κ × ω} :
    e ∈ waiting h ↔ e ∈ registered h ∧ e.2 ∉ counted h ∧ e.2 ∉ finished h := by
  simp [waiting]

omit [DecidableEq κ] [DecidableEq ω] in
@[simp] theorem counted_cons (e : Event κ ω ρ) : counted (e :: h) = e.woken ++ counted h := rfl

omit [DecidableEq κ] [DecidableEq ω] in
@[simp] theorem finished_cons (e : Event κ ω ρ) :
    finished (e :: h) = e.finished ++ finished h := rfl

/-! ## Correct histories -/

theorem Correct.tail {e : Event κ ω ρ} (hc : Correct outcome (e :: h)) : Correct outcome h := by
  cases e with
  | registered key waiter => exact hc.2
  | notified key count woken result => exact hc.2.2
  | completed waiter result => exact hc.2.2

section

variable (hc : Correct outcome h)

include hc

theorem Correct.of_suffix {h' : List (Event κ ω ρ)} (hsuffix : h' <:+ h) : Correct outcome h' := by
  obtain ⟨later, rfl⟩ := hsuffix
  induction later with
  | nil => exact hc
  | cons e later ih => exact ih hc.tail

/-- Who was woken or has completed was registered. -/
theorem Correct.mem_registered (hw : w ∈ counted h ∨ w ∈ finished h) :
    ∃ e ∈ registered h, e.2 = w := by
  induction h with
  | nil => rcases hw with hw | hw <;> cases hw
  | cons e h ih =>
    cases e with
    | registered key waiter =>
      obtain ⟨e, he, hew⟩ := ih hc.2 hw
      exact ⟨e, mem_append_left _ he, hew⟩
    | notified key count woken result =>
      rcases hw with hw | hw
      · rcases mem_append.1 hw with hnew | hold
        · rw [Event.woken, hc.1] at hnew
          have hwait := mem_waiting.1 (mem_under.1 (mem_of_mem_take hnew))
          exact ⟨_, hwait.1, rfl⟩
        · exact ih hc.2.2 (.inl hold)
      · exact ih hc.2.2 (.inr hw)
    | completed waiter result =>
      rcases hw with hw | hw
      · exact ih hc.2.2 (.inl hw)
      · rcases mem_cons.1 hw with rfl | hold
        · exact hc.1
        · exact ih hc.2.2 (.inr hold)

theorem Correct.nodup_registered : ((registered h).map Prod.snd).Nodup := by
  induction h with
  | nil => exact nodup_nil
  | cons e h ih =>
    cases e with
    | registered key waiter =>
      rw [registered, map_append, nodup_append]
      refine ⟨ih hc.2, nodup_singleton _, fun a ha b hb => ?_⟩
      obtain ⟨e, he, rfl⟩ := mem_map.1 ha
      rcases mem_singleton.1 hb with rfl
      exact hc.1 e he
    | notified key count woken result => exact ih hc.2.2
    | completed waiter result => exact ih hc.2.2

theorem Correct.nodup_under (key : κ) : (under key (waiting h)).Nodup :=
  (hc.nodup_registered.sublist (filter_sublist.map _)).sublist (filter_sublist.map _)

/-- No waiter is counted twice. -/
theorem Correct.nodup_counted : (counted h).Nodup := by
  induction h with
  | nil => exact nodup_nil
  | cons e h ih =>
    cases e with
    | registered key waiter => exact ih hc.2
    | notified key count woken result =>
      obtain ⟨hwoken, -, hc⟩ := hc
      rw [counted_cons, nodup_append]
      refine ⟨?_, ih hc, fun a ha b hb hab => ?_⟩
      · rw [Event.woken, hwoken]
        exact (hc.nodup_under key).sublist (take_sublist _ _)
      · rw [Event.woken, hwoken] at ha
        exact (mem_waiting.1 (mem_under.1 (mem_of_mem_take ha))).2.1 (hab ▸ hb)
    | completed waiter result => exact ih hc.2.2

/-- Who has completed is never counted later. -/
theorem Correct.result {result : ρ} (hmem : Event.completed w result ∈ h) :
    result = outcome (w ∈ counted h) := by
  induction h with
  | nil => cases hmem
  | cons e h ih =>
    cases e with
    | registered key waiter =>
      obtain hmem := (mem_cons.1 hmem).resolve_left nofun
      exact ih hc.2 hmem
    | notified key count woken result' =>
      obtain hmem := (mem_cons.1 hmem).resolve_left nofun
      obtain ⟨hwoken, -, hc⟩ := hc
      have hnot : w ∉ woken := by
        rw [hwoken]
        intro hw
        refine (mem_waiting.1 (mem_under.1 (mem_of_mem_take hw))).2.2 ?_
        exact mem_flatMap.2 ⟨_, hmem, mem_cons_self⟩
      simp [ih hc hmem, Event.woken, hnot]
    | completed waiter result' =>
      rcases mem_cons.1 hmem with hsame | hmem
      · cases hsame
        exact hc.2.1
      · exact ih hc.2.2 hmem

end

/-! ## The waiters after an event -/

theorem waiting_registered (hc : Correct outcome h) (hnew : ∀ e ∈ registered h, e.2 ≠ w) :
    waiting (.registered key w :: h) = waiting h ++ [(key, w)] := by
  have hnot : w ∉ counted h ∧ w ∉ finished h := by
    rw [← not_or]
    intro hw
    obtain ⟨e, he, hew⟩ := hc.mem_registered hw
    exact hnew e he hew
  have hall : waiting (.registered key w :: h) = (registered h ++ [(key, w)]).filter
      fun e => e.2 ∉ counted h ∧ e.2 ∉ finished h := rfl
  rw [hall, filter_append, filter_cons_of_pos (by simpa using hnot), filter_nil]
  rfl

omit [DecidableEq κ] in
theorem waiting_notified (count : Nat) (woken : List ω) (result : Nat) :
    waiting (.notified key count woken result :: h) = (waiting h).filter fun e => e.2 ∉ woken := by
  rw [waiting, waiting, registered, filter_filter]
  refine filter_congr fun e _ => ?_
  simp [Event.woken, Event.finished, and_assoc]

omit [DecidableEq κ] in
theorem waiting_completed (result : ρ) :
    waiting (.completed w result :: h) = (waiting h).filter fun e => e.2 ≠ w := by
  rw [waiting, waiting, registered, filter_filter]
  refine filter_congr fun e _ => ?_
  simp [Event.woken, Event.finished, and_left_comm]

/-! ## One waiter after the other -/

/-- A notification has seen a part of the waiters: the first `count` under its key are woken, the
others kept. -/
structure Walk (l : List (κ × ω)) (key : κ) (count : Nat) (kept rest : List (κ × ω))
    (woken : List ω) : Prop where
  le : woken.length ≤ count
  seen : ∃ seen, l = seen ++ rest ∧ kept = seen.filter (fun e => e.2 ∉ woken) ∧
    woken = (under key seen).take count

variable {kept rest : List (κ × ω)} {woken : List ω} {count : Nat} {e : κ × ω}

theorem walk_start (l : List (κ × ω)) (key : κ) (count : Nat) : Walk l key count [] l [] :=
  ⟨Nat.zero_le _, [], rfl, rfl, by simp [under]⟩

/-- A waiter under another key, or one too many, is kept. -/
theorem Walk.keep (hw : Walk l key count kept (e :: rest) woken)
    (hnodup : (l.map Prod.snd).Nodup) (hkeep : e.1 ≠ key ∨ woken.length = count) :
    Walk l key count (kept ++ [e]) rest woken := by
  obtain ⟨hle, seen, rfl, rfl, hwoken⟩ := hw
  have hnot : e.2 ∉ woken := by
    rw [hwoken]
    intro hmem
    have hin := mem_under.1 (mem_of_mem_take hmem)
    rw [map_append, map_cons, nodup_append] at hnodup
    exact hnodup.2.2 e.2 (mem_map.2 ⟨_, hin, rfl⟩) e.2 mem_cons_self rfl
  refine ⟨hle, seen ++ [e], by simp, by simp [hnot], ?_⟩
  rw [under_append]
  rcases hkeep with hkey | hcount
  · have hnone : under key [e] = [] := by simp [under, hkey]
    rw [hnone, append_nil]
    exact hwoken
  · have hlong : count ≤ (under key seen).length := by
      rw [hwoken, length_take] at hcount
      omega
    rw [take_append_of_le_length hlong]
    exact hwoken

/-- A waiter under the key is woken. -/
theorem Walk.wake (hw : Walk l key count kept (e :: rest) woken)
    (hnodup : (l.map Prod.snd).Nodup) (hkey : e.1 = key) (hcount : woken.length ≠ count) :
    Walk l key count kept rest (woken ++ [e.2]) := by
  obtain ⟨hle, seen, rfl, rfl, hwoken⟩ := hw
  have hall : woken = under key seen := by
    have hlen := congrArg length hwoken
    rw [length_take] at hlen
    rw [hwoken]
    exact take_of_length_le (by omega)
  have hone : under key [e] = [e.2] := by simp [under, hkey]
  have hnew : ∀ d ∈ seen, d.2 ≠ e.2 := by
    intro d hd
    rw [map_append, map_cons, nodup_append] at hnodup
    exact hnodup.2.2 d.2 (mem_map.2 ⟨d, hd, rfl⟩) e.2 mem_cons_self
  refine ⟨by simp; omega, seen ++ [e], by simp, ?_, ?_⟩
  · rw [filter_append]
    have hgone : [e].filter (fun d => d.2 ∉ woken ++ [e.2]) = [] := by simp
    rw [hgone, append_nil]
    refine filter_congr fun d hd => ?_
    simp [hnew d hd]
  · rw [under_append, hone, ← hall]
    exact (take_of_length_le (by simp; omega)).symm

/-- At the end the first `count` have been woken. -/
theorem Walk.finish (hw : Walk l key count kept [] woken) :
    kept = l.filter (fun e => e.2 ∉ woken) ∧ woken = (under key l).take count ∧
      woken.length = min count (under key l).length := by
  obtain ⟨-, seen, rfl, rfl, hwoken⟩ := hw
  rw [append_nil]
  exact ⟨rfl, hwoken, by rw [hwoken, length_take]⟩

end

end NapiVm.WaitQueue
