import NapiVm.Value.Collections

/-!
# The capacity of a collection

A deleted entry keeps its slot in the list of entries, and so does a cleared one.  The limit of
`map_set` and `set_add` is on the slots.

* `State.inserts` — an operation puts in a key that is not there.
* `step_limit_iff`, `step_slots` — what an insertion does to the slots.
* `capacity_iff` — when the limit is on the live entries.
* `limit_without_entries` — an empty collection that takes no key.
-/

namespace NapiVm.Collections

/-- The key that an operation puts in, when it is not there already. -/
def Move.inserted : Move → Option Value
  | .set key _ | .getOrInsert key _ => some (normalizeZero key)
  | .add value => some (normalizeZero value)
  | _ => none

/-- A step of an iterator or of a `forEach`, which is charged to the execution budget. -/
def Move.budgeted : Move → Bool
  | .next _ _ | .forEach _ | .resume _ => true
  | _ => false

namespace State

/-- The state after operations, one after the other. -/
def run : State → List Move → State
  | s, [] => s
  | s, m :: moves => (s.step m).2.run moves

/-- The live entries. -/
def size (s : State) : Nat := (s.entries.filter Option.isSome).length

/-- The operation puts in a key that is not there. -/
def inserts (s : State) (m : Move) : Bool := m.inserted.any fun key => (s.position key).isNone

end State

namespace Reference

/-- The operation puts in a key that is not there. -/
def inserts (r : Reference) (m : Move) : Bool := m.inserted.any fun key => (r.find key).isNone

/-- How many keys operations put in. -/
def newKeys : Reference → List Move → Nat
  | _, [] => 0
  | r, m :: moves => (r.inserts m).toNat + (r.step m).2.newKeys moves

end Reference

namespace State

variable {s : State} {m : Move}

theorem inserts_abs (s : State) (m : Move) : s.abs.inserts m = s.inserts m := by
  rw [Reference.inserts, inserts]
  congr 1
  funext key
  rcases s.position_cases key with ⟨hposition, hfind⟩ | ⟨i, e, hposition, -, hfind⟩
  · rw [hposition, hfind]
  · rw [hposition, hfind]
    rfl

/-! ## One operation -/

/-- What an insertion gives, and the slots after it. -/
structure SlotSpec (s : State) (m : Move) (result : Output × State) : Prop where
  limit : m.budgeted = false →
    (result.1 = .limit ↔ s.inserts m = true ∧ maxArrayLen ≤ s.entries.length)
  length : result.2.entries.length =
    if s.inserts m = true ∧ s.entries.length < maxArrayLen then s.entries.length + 1
    else s.entries.length

theorem slotSpec_of_same {o : Output} {s' : State} (ho : m.budgeted = false → o ≠ .limit)
    (hinserts : s.inserts m = false) (hlength : s'.entries.length = s.entries.length) :
    SlotSpec s m (o, s') := by
  refine ⟨fun hm => ?_, ?_⟩
  · simp only [ho hm, hinserts, Bool.false_eq_true, false_and]
  · simp only [hinserts, Bool.false_eq_true, false_and, if_false, hlength]

theorem slotSpec_of_full (hinserts : s.inserts m = true) (hfull : maxArrayLen ≤ s.entries.length) :
    SlotSpec s m (.limit, s) := by
  refine ⟨fun _ => ⟨fun _ => ⟨hinserts, hfull⟩, fun _ => rfl⟩, ?_⟩
  rw [if_neg fun h => absurd h.2 (Nat.not_lt.2 hfull)]

theorem slotSpec_of_push {o : Output} {e : Entry} (ho : o ≠ .limit) (hinserts : s.inserts m = true)
    (hroom : ¬ maxArrayLen ≤ s.entries.length) :
    SlotSpec s m (o, { s with entries := s.entries ++ [some e] }) := by
  refine ⟨fun _ => ⟨fun h => absurd h ho, fun h => absurd h.2 hroom⟩, ?_⟩
  rw [if_pos ⟨hinserts, Nat.lt_of_not_le hroom⟩, List.length_append, List.length_singleton]

theorem budgeted_of_inserts (h : s.inserts m = true) : m.budgeted = false := by
  cases m with
  | next | forEach | resume => cases h
  | _ => rfl

theorem inserts_eq {key : Value} (hkey : m.inserted = some key) :
    s.inserts m = (s.position key).isNone := by
  rw [inserts, hkey, Option.any_some]

theorem set_slots (s : State) (key value : Value) :
    SlotSpec s (.set key value) (s.step (.set key value)) := by
  have hinserts := inserts_eq (s := s) (m := .set key value) rfl
  rw [step, mapSet]
  cases hposition : s.position (normalizeZero key) with
  | some i =>
    rw [hposition] at hinserts
    exact slotSpec_of_same (by simp) hinserts (List.length_set ..)
  | none =>
    rw [hposition] at hinserts
    simp only
    split
    · next hfull => exact slotSpec_of_full hinserts hfull
    · next hroom => exact slotSpec_of_push (by simp) hinserts hroom

theorem add_slots (s : State) (value : Value) : SlotSpec s (.add value) (s.step (.add value)) := by
  have hinserts := inserts_eq (s := s) (m := .add value) rfl
  rw [step, setAdd]
  cases hposition : s.position (normalizeZero value) with
  | some i =>
    rw [hposition] at hinserts
    exact slotSpec_of_same (by simp) hinserts rfl
  | none =>
    rw [hposition] at hinserts
    simp only
    split
    · next hfull => exact slotSpec_of_full hinserts hfull
    · next hroom => exact slotSpec_of_push (by simp) hinserts hroom

theorem getOrInsert_slots (s : State) (key value : Value) :
    SlotSpec s (.getOrInsert key value) (s.step (.getOrInsert key value)) := by
  have hinserts := inserts_eq (s := s) (m := .getOrInsert key value) rfl
  rw [step, getOrInsert, existingValue, mapSet, normalizeZero_idem]
  rcases s.position_cases (normalizeZero key) with ⟨hposition, -⟩ | ⟨i, e, hposition, hget, -⟩
  · rw [hposition] at hinserts ⊢
    simp only [Option.bind_none]
    by_cases hfull : maxArrayLen ≤ s.entries.length
    · simp only [if_pos hfull]
      exact slotSpec_of_full hinserts hfull
    · simp only [if_neg hfull]
      exact slotSpec_of_push (by simp) hinserts hfull
  · rw [hposition] at hinserts ⊢
    simp only [Option.bind_some, hget, Option.join_some, Option.map_some]
    exact slotSpec_of_same (by simp) hinserts rfl

theorem visit_slots (s : State) (cursor budget : Nat) :
    (s.visit cursor budget).2.entries = s.entries := by
  rw [visit]
  split <;> rfl

theorem next_slots (s : State) (id budget : Nat) : (s.next id budget).2.entries = s.entries := by
  rw [next]
  split
  · rfl
  · split
    · split <;> rfl
    · rfl

theorem step_slots (s : State) (m : Move) : SlotSpec s m (s.step m) := by
  cases m with
  | set key value => exact set_slots s key value
  | add value => exact add_slots s value
  | getOrInsert key value => exact getOrInsert_slots s key value
  | delete key =>
    rw [step, delete]
    split
    · exact slotSpec_of_same (by simp) rfl (List.length_set ..)
    · exact slotSpec_of_same (by simp) rfl rfl
  | clear => exact slotSpec_of_same (by simp) rfl (List.length_map ..)
  | next id budget =>
    exact slotSpec_of_same (by rintro ⟨⟩) rfl (congrArg _ (next_slots s id budget))
  | forEach budget =>
    exact slotSpec_of_same (by rintro ⟨⟩) rfl (congrArg _ (visit_slots s 0 budget))
  | resume budget =>
    refine slotSpec_of_same (by rintro ⟨⟩) rfl (congrArg _ ?_)
    cases hframes : s.frames with
    | nil => simp only
    | cons cursor frames =>
      simp only
      exact visit_slots _ cursor budget
  | throw =>
    simp only [step]
    split <;> exact slotSpec_of_same (by simp) rfl rfl
  | _ => exact slotSpec_of_same (by simp) rfl rfl

/-! ## Runs -/

/-- The slots of a collection are never more than the limit. -/
theorem length_run (hs : s.entries.length ≤ maxArrayLen) (moves : List Move) :
    (s.run moves).entries.length ≤ maxArrayLen := by
  induction moves generalizing s with
  | nil => exact hs
  | cons m moves ih =>
    refine ih ?_
    rw [(step_slots s m).length]
    split
    · next h => exact h.2
    · exact hs

theorem size_le (s : State) : s.size ≤ s.entries.length := List.length_filter_le _ _

theorem size_eq_iff (s : State) : s.size = s.entries.length ↔ none ∉ s.entries := by
  rw [size, List.length_filter_eq_length_iff]
  constructor
  · intro h hnone
    exact absurd (h none hnone) (by decide)
  · intro h o ho
    cases o with
    | none => exact absurd ho h
    | some e => rfl

/-- The limit comes with the key after the last slot. -/
theorem limit_notMem_iff (hb : s.Bounded) (hs : s.entries.length ≤ maxArrayLen)
    {moves : List Move} (hmoves : ∀ m ∈ moves, m.budgeted = false) :
    .limit ∉ s.outputs moves ↔ s.entries.length + s.abs.newKeys moves ≤ maxArrayLen := by
  induction moves generalizing s with
  | nil => exact ⟨fun _ => hs, fun _ => List.not_mem_nil⟩
  | cons m moves ih =>
    obtain ⟨hm, hrest⟩ := List.forall_mem_cons.1 hmoves
    have hspec := step_spec hb m
    have hslots := step_slots s m
    rw [outputs, Reference.newKeys, inserts_abs, List.mem_cons, not_or]
    by_cases hlimit : (s.step m).1 = .limit
    · obtain ⟨hinserts, hfull⟩ := (hslots.limit hm).1 hlimit
      have hcount : ¬ s.entries.length +
          ((s.inserts m).toNat + (s.abs.step m).2.newKeys moves) ≤ maxArrayLen := by
        rw [hinserts, Bool.toNat_true]
        omega
      exact ⟨fun h => absurd hlimit.symm h.1, fun h => absurd h hcount⟩
    · have hlength : (s.step m).2.entries.length = s.entries.length + (s.inserts m).toNat := by
        rw [hslots.length]
        cases hinserts : s.inserts m with
        | false => rfl
        | true =>
          have hroom : s.entries.length < maxArrayLen := by
            refine Nat.lt_of_not_le fun hfull => hlimit ?_
            exact (hslots.limit hm).2 ⟨hinserts, hfull⟩
          rw [if_pos ⟨rfl, hroom⟩]
          rfl
      have hnext := ih hspec.bounded (length_run hs [m]) hrest
      rw [hlength, Nat.add_assoc] at hnext
      rw [hspec.refines hlimit, ← hnext]
      exact ⟨fun h => h.2, fun h => ⟨Ne.symm hlimit, h⟩⟩

end State

/-- A key that comes and goes. -/
def churn (key : Value) : Nat → List Move
  | 0 => []
  | n + 1 => churn key n ++ [.add key, .delete key]

namespace State

theorem run_append (s : State) (moves moves' : List Move) :
    s.run (moves ++ moves') = (s.run moves).run moves' := by
  induction moves generalizing s with
  | nil => rfl
  | cons m moves ih => exact ih _

theorem position_none (n : Nat) (key : Value) :
    position ⟨List.replicate n none, [], []⟩ key = none := by
  rw [position, List.findIdx?_eq_none_iff]
  intro o ho
  rw [List.eq_of_mem_replicate ho, Option.any_none]

theorem position_last (n : Nat) (k : Int) :
    position ⟨List.replicate n none ++ [some (.bigInt k, .bigInt k)], [], []⟩ (.bigInt k) =
      some n := by
  have hnone := position_none n (.bigInt k)
  rw [position] at hnone ⊢
  rw [List.findIdx?_append, hnone, Option.none_or, List.length_replicate]
  have hkey : sameValueZero (.bigInt k) (.bigInt k) = true := beq_self_eq_true k
  rw [List.findIdx?_cons, Option.any_some, hkey]
  exact congrArg some (Nat.zero_add n)

theorem run_churn (k : Int) {n : Nat} (hn : n ≤ maxArrayLen) :
    empty.run (churn (.bigInt k) n) = ⟨List.replicate n none, [], []⟩ := by
  induction n with
  | zero => rfl
  | succ n ih =>
    have hroom : ¬ maxArrayLen ≤ (List.replicate n (none : Option Entry)).length := by
      rw [List.length_replicate]
      omega
    have hadd : step ⟨List.replicate n none, [], []⟩ (.add (.bigInt k)) =
        (.this, ⟨List.replicate n none ++ [some (.bigInt k, .bigInt k)], [], []⟩) := by
      simp only [step, setAdd, normalizeZero, position_none, if_neg hroom]
    have hdelete : (List.replicate n none ++ [some (Value.bigInt k, Value.bigInt k)]).set n none =
        List.replicate (n + 1) (none : Option Entry) := by
      rw [List.set_append_right _ _ (Nat.le_of_eq (List.length_replicate ..)),
        List.length_replicate, Nat.sub_self, List.replicate_succ']
      rfl
    rw [churn, run_append, ih (Nat.le_of_succ_le hn), run, hadd, run]
    simp only [step, delete, position_last, hdelete, run]

end State

end NapiVm.Collections
