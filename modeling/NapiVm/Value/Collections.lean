import NapiVm.Lib.Tombstones
import NapiVm.Value.Basic

/-!
# Maps and sets

The entries of a collection are a list in which a deleted entry leaves `undefined` behind.  Live
iterators, and the visits of `forEach`, are cursors into that list.

* `State`, `step` — a collection with its iterators, and one operation of the guest.
* `Reference`, `Reference.step` — an ordered list of entries.
* `collection_refines` — every run gives the results and the visits of the ordered list, up to limit
  errors.
-/

namespace NapiVm.Collections

open Tombstones List

/-! ## The collection -/

/-- A key with its value. -/
abbrev Entry : Type := Value × Value

/-- `MAX_ARRAY_LEN`. -/
def maxArrayLen : Nat := 262144

/-- `same_value_zero`. -/
def sameValueZero (a b : Value) : Bool :=
  match a, b with
  | .number x, .number y =>
    if Value.isNaNBits x && Value.isNaNBits y then true else Value.strictEquals a b
  | _, _ => Value.strictEquals a b

/-- `normalize_zero`. -/
def normalizeZero : Value → Value
  | .number bits => if Value.isZeroBits bits then .number 0 else .number bits
  | v => v

inductive Projection where
  | key
  | value
  | entry
  deriving DecidableEq

/-- `CollectionIteratorSlots`; `collection` says that there is one still. -/
structure IteratorSlots where
  collection : Bool
  cursor : Nat
  projection : Projection

/-- What an iterator gives: a value, or an array of a key and a value. -/
inductive Item where
  | one (v : Value)
  | pair (key value : Value)
  deriving DecidableEq

def project (e : Entry) : Projection → Item
  | .key => .one e.1
  | .value => .one e.2
  | .entry => .pair e.1 e.2

/-- What the guest sees of an operation. -/
inductive Output where
  | this
  | value (v : Value)
  | bool (b : Bool)
  | size (n : Nat)
  | iterator (id : Nat)
  | result (item : Option Item)
  | visit (value key : Value)
  | returned
  | threw
  | limit
  | unknown
  deriving DecidableEq

/-- An operation of the guest.  `forEach` calls a callback, in which there are further operations:
it goes on with `resume` when the callback returns, and ends with `throw` when it throws.  A budget
is what is left of the execution budget. -/
inductive Move where
  | set (key value : Value)
  | add (value : Value)
  | get (key : Value)
  | has (key : Value)
  | delete (key : Value)
  | clear
  | size
  | getOrInsert (key value : Value)
  | iterate (projection : Projection)
  | next (id budget : Nat)
  | forEach (budget : Nat)
  | resume (budget : Nat)
  | throw

namespace Move

/-- An operation without a limit error after fewer insertions than this. -/
def allowance : Move → Option Nat
  | .set _ _ | .add _ | .getOrInsert _ _ => some maxArrayLen
  | .next _ budget | .forEach budget | .resume budget => some (budget + 1)
  | _ => none

/-- How many entries an operation can add. -/
def insertions : Move → Nat
  | .set _ _ | .add _ | .getOrInsert _ _ => 1
  | _ => 0

/-- How many entries operations can add. -/
def totalInsertions : List Move → Nat
  | [] => 0
  | m :: moves => m.insertions + totalInsertions moves

end Move

/-- A collection, its iterators in the order they were made, and the cursors of the calls of
`forEach`, the innermost first. -/
structure State where
  entries : List (Option Entry)
  iterators : List IteratorSlots
  frames : List Nat

namespace State

/-- A new collection. -/
def empty : State := ⟨[], [], []⟩

/-- `position`. -/
def position (s : State) (key : Value) : Option Nat :=
  s.entries.findIdx? fun o => o.any fun e => sameValueZero e.1 key

/-- `map_set`. -/
def mapSet (s : State) (key value : Value) : Output × State :=
  let key := normalizeZero key
  match s.position key with
  | some i => (.this, { s with entries := s.entries.set i (some (key, value)) })
  | none =>
    if maxArrayLen ≤ s.entries.length then (.limit, s)
    else (.this, { s with entries := s.entries ++ [some (key, value)] })

/-- `set_add`. -/
def setAdd (s : State) (value : Value) : Output × State :=
  let value := normalizeZero value
  match s.position value with
  | some _ => (.this, s)
  | none =>
    if maxArrayLen ≤ s.entries.length then (.limit, s)
    else (.this, { s with entries := s.entries ++ [some (value, value)] })

/-- `existing_value`. -/
def existingValue (s : State) (key : Value) : Option Value :=
  (s.position key).bind fun i => (s.entries[i]?.join).map Prod.snd

/-- `get_or_insert`. -/
def getOrInsert (s : State) (key value : Value) : Output × State :=
  let key := normalizeZero key
  match s.existingValue key with
  | some v => (.value v, s)
  | none =>
    match s.mapSet key value with
    | (.limit, s) => (.limit, s)
    | (_, s) => (.value value, s)

/-- `collection_delete`. -/
def delete (s : State) (key : Value) : Output × State :=
  match s.position key with
  | some i => (.bool true, { s with entries := s.entries.set i none })
  | none => (.bool false, s)

/-- `collection_clear`. -/
def clear (s : State) : State := { s with entries := s.entries.map fun _ => none }

/-- `collection_iterator_next`. -/
def next (s : State) (id budget : Nat) : Output × State :=
  match s.iterators[id]? with
  | none => (.unknown, s)
  | some slots =>
    if slots.collection then
      match scan (s.entries.drop slots.cursor) budget slots.cursor with
      | (cursor, .item e) =>
        (.result (some (project e slots.projection)),
          { s with iterators := s.iterators.set id { slots with cursor := cursor } })
      | (cursor, .finished) =>
        (.result none, { s with
          iterators :=
            s.iterators.set id { slots with collection := false, cursor := cursor } })
      | (cursor, .exhausted) =>
        (.limit, { s with iterators := s.iterators.set id { slots with cursor := cursor } })
    else (.result none, s)

/-- The loop of `collection_for_each`, to the next call of the callback. -/
def visit (s : State) (cursor budget : Nat) : Output × State :=
  match scan (s.entries.drop cursor) budget cursor with
  | (cursor, .item e) => (.visit e.2 e.1, { s with frames := cursor :: s.frames })
  | (_, .finished) => (.returned, s)
  | (_, .exhausted) => (.limit, s)

/-- One operation. -/
def step (s : State) : Move → Output × State
  | .set key value => s.mapSet key value
  | .add value => s.setAdd value
  | .get key => (.value ((s.existingValue key).getD .undefined), s)
  | .has key => (.bool (s.position key).isSome, s)
  | .delete key => s.delete key
  | .clear => (.value .undefined, s.clear)
  | .size => (.size (s.entries.filter Option.isSome).length, s)
  | .getOrInsert key value => s.getOrInsert key value
  | .iterate projection =>
    (.iterator s.iterators.length,
      { s with iterators := s.iterators ++ [⟨true, 0, projection⟩] })
  | .next id budget => s.next id budget
  | .forEach budget => s.visit 0 budget
  | .resume budget =>
    match s.frames with
    | [] => (.unknown, s)
    | cursor :: frames => visit { s with frames := frames } cursor budget
  | .throw =>
    match s.frames with
    | [] => (.unknown, s)
    | _ :: frames => (.threw, { s with frames := frames })

end State

/-! ## The ordered list -/

/-- Entries in the order of insertion.  An iterator, or a call of `forEach`, knows how many of them
it has behind it; an iterator that has ended knows nothing. -/
structure Reference where
  entries : List Entry
  iterators : List (Option Nat × Projection)
  frames : List Nat

namespace Reference

def empty : Reference := ⟨[], [], []⟩

/-- The place of a key. -/
def find (r : Reference) (key : Value) : Option Nat :=
  r.entries.findIdx? fun e => sameValueZero e.1 key

/-- The value of a key. -/
def lookup (r : Reference) (key : Value) : Option Value :=
  (r.find key).bind fun i => r.entries[i]?.map Prod.snd

/-- The number of entries behind an iterator changes. -/
def shift (r : Reference) (f : Nat → Nat) : Reference :=
  { r with
    iterators := r.iterators.map fun i => (i.1.map f, i.2)
    frames := r.frames.map f }

/-- An entry keeps its place, or comes last. -/
def put (r : Reference) (key value : Value) : Reference :=
  match r.find key with
  | some i => { r with entries := r.entries.set i (key, value) }
  | none => { r with entries := r.entries ++ [(key, value)] }

/-- An entry goes, and so does it for those that have it behind them. -/
def remove (r : Reference) (i : Nat) : Reference :=
  { r.shift fun passed => if i < passed then passed - 1 else passed with
    entries := r.entries.eraseIdx i }

def next (r : Reference) (id : Nat) : Output × Reference :=
  match r.iterators[id]? with
  | none => (.unknown, r)
  | some (none, _) => (.result none, r)
  | some (some passed, projection) =>
    match r.entries[passed]? with
    | some e =>
      (.result (some (project e projection)),
        { r with iterators := r.iterators.set id (some (passed + 1), projection) })
    | none => (.result none, { r with iterators := r.iterators.set id (none, projection) })

def visit (r : Reference) (passed : Nat) : Output × Reference :=
  match r.entries[passed]? with
  | some e => (.visit e.2 e.1, { r with frames := (passed + 1) :: r.frames })
  | none => (.returned, r)

/-- One operation. -/
def step (r : Reference) : Move → Output × Reference
  | .set key value => (.this, r.put (normalizeZero key) value)
  | .add value =>
    (.this, if (r.find (normalizeZero value)).isSome then r
      else r.put (normalizeZero value) (normalizeZero value))
  | .get key => (.value ((r.lookup key).getD .undefined), r)
  | .has key => (.bool (r.find key).isSome, r)
  | .delete key =>
    match r.find key with
    | some i => (.bool true, r.remove i)
    | none => (.bool false, r)
  | .clear => (.value .undefined, { r.shift fun _ => 0 with entries := [] })
  | .size => (.size r.entries.length, r)
  | .getOrInsert key value =>
    match r.lookup (normalizeZero key) with
    | some v => (.value v, r)
    | none => (.value value, r.put (normalizeZero key) value)
  | .iterate projection =>
    (.iterator r.iterators.length, { r with iterators := r.iterators ++ [(some 0, projection)] })
  | .next id _ => r.next id
  | .forEach _ => r.visit 0
  | .resume _ =>
    match r.frames with
    | [] => (.unknown, r)
    | passed :: frames => visit { r with frames := frames } passed
  | .throw =>
    match r.frames with
    | [] => (.unknown, r)
    | _ :: frames => (.threw, { r with frames := frames })

/-- An operation that ends with a limit error does nothing but end the `forEach` that it is in. -/
def limited (r : Reference) : Move → Reference
  | .resume _ => { r with frames := r.frames.tail }
  | _ => r

end Reference

/-! ## The list without its tombstones -/

namespace State

/-- How many entries an iterator has behind it. -/
def passed (entries : List (Option Entry)) (i : IteratorSlots) : Option Nat × Projection :=
  (if i.collection then some (rank entries i.cursor) else none, i.projection)

/-- The ordered list that a collection stands for. -/
def abs (s : State) : Reference where
  entries := s.entries.reduceOption
  iterators := s.iterators.map (passed s.entries)
  frames := s.frames.map (rank s.entries)

/-- No cursor is past the end. -/
structure Bounded (s : State) : Prop where
  iterators : ∀ i ∈ s.iterators, i.cursor ≤ s.entries.length
  frames : ∀ cursor ∈ s.frames, cursor ≤ s.entries.length

theorem bounded_empty : empty.Bounded := ⟨by simp [empty], by simp [empty]⟩

@[simp] theorem abs_empty : empty.abs = Reference.empty := rfl

/-- A key is at a place of the one exactly when it is at its rank of the other. -/
theorem position_cases (s : State) (key : Value) :
    (s.position key = none ∧ s.abs.find key = none) ∨
      ∃ i e, s.position key = some i ∧ s.entries[i]? = some (some e) ∧
        s.abs.find key = some (rank s.entries i) :=
  findIdx?_eq fun e : Entry => sameValueZero e.1 key

theorem existingValue_eq (s : State) (key : Value) : s.existingValue key = s.abs.lookup key := by
  rcases s.position_cases key with ⟨hposition, hfind⟩ | ⟨i, e, hposition, hget, hfind⟩
  · rw [existingValue, Reference.lookup, hposition, hfind]
    rfl
  · have hrank : s.abs.entries[rank s.entries i]? = some e := getElem?_rank hget
    rw [existingValue, Reference.lookup, hposition, hfind, Option.bind_some, Option.bind_some, hget,
      hrank]
    rfl

theorem length_size (s : State) :
    (s.entries.filter Option.isSome).length = s.abs.entries.length := by
  show _ = s.entries.reduceOption.length
  induction s.entries with
  | nil => rfl
  | cons o l ih => cases o <;> simp [ih]

theorem passed_map {entries entries' : List (Option Entry)} {f : Nat → Nat} {i : IteratorSlots}
    (h : rank entries' i.cursor = f (rank entries i.cursor)) :
    passed entries' i = ((passed entries i).1.map f, (passed entries i).2) := by
  rw [passed, passed, h]
  cases i.collection <;> rfl

/-- Other entries, and the places behind the cursors with them. -/
theorem abs_entries (s : State) (hb : s.Bounded) {entries : List (Option Entry)} (f : Nat → Nat)
    (h : ∀ c ≤ s.entries.length, rank entries c = f (rank s.entries c)) :
    abs { s with entries := entries } = { s.abs.shift f with entries := entries.reduceOption } := by
  have hiterators : s.iterators.map (passed entries) =
      (s.iterators.map (passed s.entries)).map fun i => (i.1.map f, i.2) := by
    rw [map_map]
    exact map_congr_left fun i hi => passed_map (h _ (hb.iterators i hi))
  have hframes : s.frames.map (rank entries) = (s.frames.map (rank s.entries)).map f := by
    rw [map_map]
    exact map_congr_left fun c hc => h c (hb.frames c hc)
  simp only [abs, Reference.shift, hiterators, hframes]

theorem shift_id (r : Reference) : r.shift (fun n => n) = r := by
  have hiterators : (r.iterators.map fun i => (i.1.map (fun n => n), i.2)) = r.iterators := by
    simp only [Option.map_id', map_id']
  rw [Reference.shift, hiterators, map_id']

/-- Another entry at the place of one. -/
theorem abs_replace (s : State) (hb : s.Bounded) {i : Nat} {e : Entry}
    (hget : s.entries[i]? = some (some e)) (e' : Entry) :
    abs { s with entries := s.entries.set i (some e') } =
      { s.abs with entries := s.abs.entries.set (rank s.entries i) e' } := by
  rw [abs_entries s hb (fun n => n) fun c _ => rank_set hget e' c, shift_id, reduceOption_set hget]
  rfl

/-- An entry at the end. -/
theorem abs_push (s : State) (hb : s.Bounded) (e : Entry) :
    abs { s with entries := s.entries ++ [some e] } =
      { s.abs with entries := s.abs.entries ++ [e] } := by
  rw [abs_entries s hb (fun n => n) fun c hc => rank_push hc _, shift_id, reduceOption_push]
  rfl

/-- A tombstone at the place of an entry. -/
theorem abs_delete (s : State) (hb : s.Bounded) {i : Nat} {e : Entry}
    (hget : s.entries[i]? = some (some e)) :
    abs { s with entries := s.entries.set i none } = s.abs.remove (rank s.entries i) := by
  rw [abs_entries s hb (fun n => if rank s.entries i < n then n - 1 else n) fun c _ =>
    rank_set_none hget c, reduceOption_set_none hget]
  rfl

theorem abs_clear (s : State) (hb : s.Bounded) :
    s.clear.abs = { s.abs.shift fun _ => 0 with entries := [] } := by
  rw [clear, abs_entries s hb (fun _ => 0) fun c _ => rank_clear _ c, reduceOption_clear]

/-- An iterator goes on. -/
theorem abs_advance (s : State) (id : Nat) (slots : IteratorSlots) :
    abs { s with iterators := s.iterators.set id slots } =
      { s.abs with iterators := s.abs.iterators.set id (passed s.entries slots) } := by
  simp only [abs, map_set]

end State

/-! ## One operation -/

/-- What is known of an operation. -/
structure StepSpec (s : State) (m : Move) (result : Output × State) : Prop where
  refines : result.1 ≠ .limit → s.abs.step m = (result.1, result.2.abs)
  limited : result.1 = .limit → result.2.abs = s.abs.limited m ∧
    ∃ n, m.allowance = some n ∧ n ≤ s.entries.length
  bounded : result.2.Bounded
  length : result.2.entries.length ≤ s.entries.length + m.insertions

namespace State

variable {s s' : State} {m : Move} {o : Output}

theorem stepSpec_of_refines (hstep : s.abs.step m = (o, s'.abs)) (ho : o ≠ .limit)
    (hb : s'.Bounded) (hlength : s'.entries.length ≤ s.entries.length + m.insertions) :
    StepSpec s m (o, s') :=
  ⟨fun _ => hstep, fun h => absurd h ho, hb, hlength⟩

theorem stepSpec_of_limit (hlimited : s'.abs = s.abs.limited m) (hb : s'.Bounded)
    (hlength : s'.entries.length ≤ s.entries.length) {n : Nat} (hn : m.allowance = some n)
    (hle : n ≤ s.entries.length) : StepSpec s m (.limit, s') :=
  ⟨fun h => absurd rfl h, fun _ => ⟨hlimited, n, hn, hle⟩, hb, Nat.le_add_right_of_le hlength⟩

section

variable (hb : s.Bounded)

include hb

/-- The places of the entries may change what is at them, not how many there are. -/
theorem Bounded.of_length {entries : List (Option Entry)}
    (hlength : s.entries.length ≤ entries.length) : Bounded { s with entries := entries } :=
  ⟨fun i hi => Nat.le_trans (hb.iterators i hi) hlength,
    fun c hc => Nat.le_trans (hb.frames c hc) hlength⟩

theorem Bounded.advance (id : Nat) {slots : IteratorSlots}
    (hcursor : slots.cursor ≤ s.entries.length) :
    Bounded { s with iterators := s.iterators.set id slots } := by
  refine ⟨fun i hi => ?_, hb.frames⟩
  rcases mem_or_eq_of_mem_set hi with hi | rfl
  · exact hb.iterators i hi
  · exact hcursor

omit hb in
theorem normalizeZero_idem (v : Value) : normalizeZero (normalizeZero v) = normalizeZero v := by
  cases v with
  | number bits =>
    by_cases h : Value.isZeroBits bits = true
    · simp only [normalizeZero, h, if_true]
      rfl
    · simp only [normalizeZero, h, if_false, Bool.false_eq_true]
  | _ => rfl

/-- A key that is not there comes last. -/
theorem abs_push_new {key : Value} (value : Value) (hfind : s.abs.find key = none) :
    abs { s with entries := s.entries ++ [some (key, value)] } = s.abs.put key value := by
  rw [abs_push s hb, Reference.put, hfind]

theorem mapSet_cases (key value : Value) :
    s.mapSet key value = (.limit, s) ∧ maxArrayLen ≤ s.entries.length ∨
      ∃ s', s.mapSet key value = (.this, s') ∧ s'.abs = s.abs.put (normalizeZero key) value ∧
        s'.Bounded ∧ s'.entries.length ≤ s.entries.length + 1 := by
  rcases s.position_cases (normalizeZero key) with
    ⟨hposition, hfind⟩ | ⟨i, e, hposition, hget, hfind⟩
  · simp only [mapSet, hposition]
    split
    · next hfull => exact .inl ⟨rfl, hfull⟩
    · exact .inr ⟨_, rfl, abs_push_new hb value hfind, hb.of_length (by simp), by simp⟩
  · refine .inr ⟨{ s with entries := s.entries.set i (some (normalizeZero key, value)) },
      by simp only [mapSet, hposition], ?_, hb.of_length (by simp), by simp⟩
    rw [abs_replace s hb hget, Reference.put, hfind]

theorem set_spec (key value : Value) : StepSpec s (.set key value) (s.step (.set key value)) := by
  rw [step]
  rcases mapSet_cases hb key value with ⟨hset, hfull⟩ | ⟨s', hset, habs, hb', hlength⟩
  · rw [hset]
    exact stepSpec_of_limit rfl hb (Nat.le_refl _) rfl hfull
  · rw [hset]
    exact stepSpec_of_refines (by rw [habs]; rfl) nofun hb' hlength

theorem add_spec (value : Value) : StepSpec s (.add value) (s.step (.add value)) := by
  rcases s.position_cases (normalizeZero value) with
    ⟨hposition, hfind⟩ | ⟨i, e, hposition, hget, hfind⟩
  · simp only [step, setAdd, hposition]
    split
    · next hfull => exact stepSpec_of_limit rfl hb (Nat.le_refl _) rfl hfull
    · refine stepSpec_of_refines ?_ nofun (hb.of_length (by simp)) (by simp [Move.insertions])
      rw [abs_push_new hb _ hfind, Reference.step, hfind]
      rfl
  · simp only [step, setAdd, hposition]
    refine stepSpec_of_refines ?_ nofun hb (Nat.le_add_right _ _)
    rw [Reference.step, hfind]
    rfl

theorem getOrInsert_spec (key value : Value) :
    StepSpec s (.getOrInsert key value) (s.step (.getOrInsert key value)) := by
  rw [step, getOrInsert, existingValue_eq]
  cases hlookup : s.abs.lookup (normalizeZero key) with
  | some v =>
    refine stepSpec_of_refines ?_ nofun hb (Nat.le_add_right _ _)
    rw [Reference.step, hlookup]
  | none =>
    rcases mapSet_cases hb (normalizeZero key) value with
      ⟨hset, hfull⟩ | ⟨s', hset, habs, hb', hlength⟩
    · simp only [hset]
      exact stepSpec_of_limit rfl hb (Nat.le_refl _) rfl hfull
    · simp only [hset]
      refine stepSpec_of_refines ?_ nofun hb' hlength
      rw [Reference.step, hlookup, habs, normalizeZero_idem]

theorem delete_spec (key : Value) : StepSpec s (.delete key) (s.step (.delete key)) := by
  rcases s.position_cases key with ⟨hposition, hfind⟩ | ⟨i, e, hposition, hget, hfind⟩
  · simp only [step, delete, hposition]
    refine stepSpec_of_refines ?_ nofun hb (Nat.le_add_right _ _)
    rw [Reference.step, hfind]
  · simp only [step, delete, hposition]
    refine stepSpec_of_refines ?_ nofun (hb.of_length (by simp)) (by simp)
    rw [Reference.step, hfind, abs_delete s hb hget]

omit hb in
theorem set_same {α : Type} {l : List α} {i : Nat} {a : α} (h : l[i]? = some a) :
    l.set i a = l := by
  obtain ⟨hlt, rfl⟩ := List.getElem?_eq_some_iff.1 h
  exact set_getElem_self hlt

theorem next_spec (id budget : Nat) : StepSpec s (.next id budget) (s.step (.next id budget)) := by
  rw [step, next]
  cases hslots : s.iterators[id]? with
  | none =>
    refine stepSpec_of_refines ?_ nofun hb (Nat.le_refl _)
    simp only [Reference.step, Reference.next, abs, getElem?_map, hslots, Option.map_none]
  | some slots =>
    have habs : s.abs.iterators[id]? = some (passed s.entries slots) := by
      simp only [abs, getElem?_map, hslots, Option.map_some]
    by_cases hcollection : slots.collection = true
    · rw [passed, if_pos hcollection] at habs
      have hscan := scan_spec s.entries budget (hb.iterators slots (mem_of_getElem? hslots))
      simp only [hcollection, if_true]
      generalize hresult : scan (s.entries.drop slots.cursor) budget slots.cursor = result at hscan
      obtain ⟨cursor, found⟩ := result
      cases found with
      | item e =>
        obtain ⟨hget, hrank⟩ := hscan.item e rfl
        refine stepSpec_of_refines ?_ nofun (hb.advance id hscan.le) (Nat.le_refl _)
        have hget' : s.abs.entries[rank s.entries slots.cursor]? = some e := hget
        simp only [Reference.step, Reference.next, habs, hget', abs_advance]
        rw [passed, if_pos rfl, hrank]
      | finished =>
        have hget : s.abs.entries[rank s.entries slots.cursor]? = none :=
          getElem?_eq_none (Nat.le_of_eq (hscan.finished rfl))
        refine stepSpec_of_refines ?_ nofun (hb.advance id hscan.le) (Nat.le_refl _)
        simp only [Reference.step, Reference.next, habs, hget, abs_advance]
        rfl
      | exhausted =>
        obtain ⟨hrank, hbudget⟩ := hscan.exhausted rfl
        refine stepSpec_of_limit ?_ (hb.advance id hscan.le) (Nat.le_refl _) rfl (by omega)
        -- the cursor is past tombstones only
        simp only [abs_advance, Reference.limited]
        rw [passed, if_pos rfl, hrank, set_same habs]
    · rw [passed, if_neg hcollection] at habs
      simp only [hcollection, if_false, Bool.false_eq_true]
      refine stepSpec_of_refines ?_ nofun hb (Nat.le_refl _)
      simp only [Reference.step, Reference.next, habs]

/-- What is known of a loop of `forEach` up to its next call of the callback. -/
theorem visit_cases {cursor : Nat} (hcursor : cursor ≤ s.entries.length) (budget : Nat) :
    s.visit cursor budget = (.limit, s) ∧ budget + 1 ≤ s.entries.length ∨
      ∃ o s', s.visit cursor budget = (o, s') ∧ o ≠ .limit ∧
        s.abs.visit (rank s.entries cursor) = (o, s'.abs) ∧ s'.Bounded ∧
        s'.entries.length = s.entries.length := by
  have hscan := scan_spec s.entries budget hcursor
  rw [visit]
  generalize hresult : scan (s.entries.drop cursor) budget cursor = result at hscan
  obtain ⟨place, found⟩ := result
  cases found with
  | item e =>
    obtain ⟨hget, hrank⟩ := hscan.item e rfl
    have hget' : s.abs.entries[rank s.entries cursor]? = some e := hget
    refine .inr ⟨_, _, rfl, nofun, ?_, ⟨hb.iterators, ?_⟩, rfl⟩
    · simp only [Reference.visit, hget']
      simp only [abs, map_cons, hrank]
    · exact forall_mem_cons.2 ⟨hscan.le, hb.frames⟩
  | finished =>
    have hget : s.abs.entries[rank s.entries cursor]? = none :=
      getElem?_eq_none (Nat.le_of_eq (hscan.finished rfl))
    exact .inr ⟨_, s, rfl, nofun, by simp only [Reference.visit, hget], hb, rfl⟩
  | exhausted =>
    have hbudget := (hscan.exhausted rfl).2
    exact .inl ⟨rfl, by omega⟩

theorem forEach_spec (budget : Nat) : StepSpec s (.forEach budget) (s.step (.forEach budget)) := by
  rw [step]
  rcases visit_cases hb (Nat.zero_le _) budget with
    ⟨hvisit, hbudget⟩ | ⟨o, s', hvisit, ho, habs, hb', hlength⟩
  · rw [hvisit]
    exact stepSpec_of_limit rfl hb (Nat.le_refl _) rfl hbudget
  · rw [hvisit]
    exact stepSpec_of_refines habs ho hb' (Nat.le_of_eq hlength)

/-- One frame less. -/
theorem Bounded.tail {cursor : Nat} {frames : List Nat} (hframes : s.frames = cursor :: frames) :
    cursor ≤ s.entries.length ∧ Bounded { s with frames := frames } := by
  obtain ⟨hcursor, hrest⟩ := forall_mem_cons.1 (hframes ▸ hb.frames)
  exact ⟨hcursor, hb.iterators, hrest⟩

theorem resume_spec (budget : Nat) : StepSpec s (.resume budget) (s.step (.resume budget)) := by
  rw [step]
  cases hframes : s.frames with
  | nil =>
    refine stepSpec_of_refines ?_ nofun hb (Nat.le_refl _)
    simp only [Reference.step, abs, hframes, map_nil]
  | cons cursor frames =>
    obtain ⟨hcursor, htail⟩ := hb.tail hframes
    have habsframes : s.abs.frames = rank s.entries cursor :: frames.map (rank s.entries) := by
      simp only [abs, hframes, map_cons]
    rcases visit_cases htail hcursor budget with
      ⟨hvisit, hbudget⟩ | ⟨o, s', hvisit, ho, habs, hb', hlength⟩
    · simp only [hvisit]
      refine stepSpec_of_limit ?_ htail (Nat.le_refl _) rfl hbudget
      simp only [Reference.limited, habsframes, tail_cons]
      rfl
    · simp only [hvisit]
      refine stepSpec_of_refines ?_ ho hb' (Nat.le_of_eq hlength)
      simp only [Reference.step, habsframes]
      exact habs

theorem throw_spec : StepSpec s .throw (s.step .throw) := by
  rw [step]
  cases hframes : s.frames with
  | nil =>
    refine stepSpec_of_refines ?_ nofun hb (Nat.le_refl _)
    simp only [Reference.step, abs, hframes, map_nil]
  | cons cursor frames =>
    refine stepSpec_of_refines ?_ nofun (hb.tail hframes).2 (Nat.le_refl _)
    simp only [Reference.step, abs, hframes, map_cons]

theorem iterate_spec (projection : Projection) :
    StepSpec s (.iterate projection) (s.step (.iterate projection)) := by
  refine stepSpec_of_refines ?_ nofun ⟨fun i hi => ?_, hb.frames⟩ (Nat.le_refl _)
  · simp only [Reference.step, abs, length_map, map_append, map_cons, map_nil]
    rw [passed, if_pos rfl, rank_zero]
  · rcases mem_append.1 hi with hi | hi
    · exact hb.iterators i hi
    · rw [mem_singleton.1 hi]
      exact Nat.zero_le _

/-- Every operation does to the ordered list what it says, or ends with a limit error. -/
theorem step_spec (m : Move) : StepSpec s m (s.step m) := by
  cases m with
  | set key value => exact set_spec hb key value
  | add value => exact add_spec hb value
  | get key =>
    refine stepSpec_of_refines ?_ nofun hb (Nat.le_refl _)
    rw [Reference.step, existingValue_eq]
  | has key =>
    refine stepSpec_of_refines ?_ nofun hb (Nat.le_refl _)
    rw [Reference.step]
    rcases s.position_cases key with ⟨hposition, hfind⟩ | ⟨i, e, hposition, hget, hfind⟩
    · rw [hposition, hfind]
    · rw [hposition, hfind]
      rfl
  | delete key => exact delete_spec hb key
  | clear =>
    refine stepSpec_of_refines ?_ nofun (hb.of_length (by simp)) (by simp [clear])
    rw [Reference.step, abs_clear s hb]
  | size =>
    refine stepSpec_of_refines ?_ nofun hb (Nat.le_refl _)
    rw [Reference.step, length_size]
  | getOrInsert key value => exact getOrInsert_spec hb key value
  | iterate projection => exact iterate_spec hb projection
  | next id budget => exact next_spec hb id budget
  | forEach budget => exact forEach_spec hb budget
  | resume budget => exact resume_spec hb budget
  | throw => exact throw_spec hb

end

end State

/-! ## Runs -/

/-- What the guest sees of operations, one after the other. -/
def State.outputs : State → List Move → List Output
  | _, [] => []
  | s, m :: moves => (s.step m).1 :: (s.step m).2.outputs moves

/-- What the ordered list gives. -/
def Reference.outputs : Reference → List Move → List Output
  | _, [] => []
  | r, m :: moves => (r.step m).1 :: (r.step m).2.outputs moves

/-- The ordered list gives these outputs, when the operations with a limit error do nothing. -/
def Reference.Gives : Reference → List Move → List Output → Prop
  | _, [], [] => True
  | r, m :: moves, o :: outputs =>
    if o = .limit then (r.limited m).Gives moves outputs
    else (r.step m).1 = o ∧ (r.step m).2.Gives moves outputs
  | _, _, _ => False

theorem Reference.outputs_of_gives {r : Reference} {moves : List Move} {outputs : List Output}
    (h : r.Gives moves outputs) (hlimit : .limit ∉ outputs) : r.outputs moves = outputs := by
  induction moves generalizing r outputs with
  | nil =>
    cases outputs with
    | nil => rfl
    | cons o rest => exact h.elim
  | cons m moves ih =>
    cases outputs with
    | nil => exact h.elim
    | cons o rest =>
      obtain ⟨ho, hrest⟩ := ne_and_not_mem_of_not_mem_cons hlimit
      rw [Reference.Gives, if_neg (Ne.symm ho)] at h
      rw [Reference.outputs, h.1, ih h.2 hrest]

namespace State

variable {s : State}

theorem gives_outputs (hb : s.Bounded) (moves : List Move) :
    s.abs.Gives moves (s.outputs moves) := by
  induction moves generalizing s with
  | nil => trivial
  | cons m moves ih =>
    have hm := step_spec hb m
    have hrest := ih hm.bounded
    rw [outputs, Reference.Gives]
    by_cases ho : (s.step m).1 = .limit
    · rw [if_pos ho, ← (hm.limited ho).1]
      exact hrest
    · rw [if_neg ho, hm.refines ho]
      exact ⟨rfl, hrest⟩

/-- A limit error comes after as many insertions as the operation is allowed. -/
theorem allowance_of_limit (hb : s.Bounded) {pre rest : List Move} {m : Move}
    (hlimit : (s.outputs (pre ++ m :: rest))[pre.length]? = some .limit) :
    ∃ n, m.allowance = some n ∧ n ≤ s.entries.length + Move.totalInsertions pre := by
  induction pre generalizing s with
  | nil => exact ((step_spec hb m).limited (Option.some_inj.1 hlimit)).2
  | cons m' pre ih =>
    have hm := step_spec hb m'
    obtain ⟨n, hn, hle⟩ := ih hm.bounded hlimit
    have hlength := hm.length
    refine ⟨n, hn, ?_⟩
    rw [Move.totalInsertions]
    omega

end State

/-- So many numbers, one after the other. -/
def adds (n : Nat) : List Move := (List.range n).map fun k : Nat => .add (.bigInt k)

def stored (n : Nat) : List (Option Entry) :=
  (List.range n).map fun k : Nat => some (.bigInt k, .bigInt k)

theorem position_stored (n : Nat) : State.position ⟨stored n, [], []⟩ (.bigInt n) = none := by
  rw [State.position, findIdx?_eq_none_iff]
  intro o ho
  obtain ⟨k, hk, rfl⟩ := mem_map.1 ho
  have hne : (k : Int) ≠ n := by
    have := mem_range.1 hk
    omega
  rw [Option.any_some]
  exact beq_false_of_ne hne

theorem adds_succ (n : Nat) : adds (n + 1) = adds n ++ [.add (.bigInt n)] := by
  rw [adds, range_succ, map_append]
  rfl

theorem outputs_adds {n : Nat} (hn : n ≤ maxArrayLen) (moves : List Move) :
    State.empty.outputs (adds n ++ moves) =
      replicate n .this ++ State.outputs ⟨stored n, [], []⟩ moves := by
  induction n generalizing moves with
  | zero => rfl
  | succ n ih =>
    have hlength : ¬ maxArrayLen ≤ (stored n).length := by
      rw [stored, length_map, length_range]
      omega
    have hstored : stored n ++ [some (.bigInt n, .bigInt n)] = stored (n + 1) := by
      rw [stored, stored, range_succ, map_append]
      rfl
    have hstep : State.step ⟨stored n, [], []⟩ (.add (.bigInt n)) =
        (.this, ⟨stored (n + 1), [], []⟩) := by
      simp only [State.step, State.setAdd, normalizeZero, position_stored, if_neg hlength, hstored]
    rw [adds_succ, append_assoc, ih (Nat.le_of_succ_le hn), singleton_append,
      State.outputs, hstep, replicate_succ', append_assoc, singleton_append]

theorem limit_of_adds {n : Nat} (hn : n = maxArrayLen) :
    .limit ∈ State.empty.outputs (adds (n + 1)) := by
  have hlength : maxArrayLen ≤ (stored n).length := by
    rw [stored, length_map, length_range]
    exact Nat.le_of_eq hn.symm
  have hstep : State.step ⟨stored n, [], []⟩ (.add (.bigInt n)) = (.limit, ⟨stored n, [], []⟩) := by
    simp only [State.step, State.setAdd, normalizeZero, position_stored, if_pos hlength]
  rw [adds_succ, outputs_adds (Nat.le_of_eq hn), State.outputs, hstep]
  exact mem_append_right _ mem_cons_self

theorem Reference.step_ne_limit (r : Reference) (m : Move) : (r.step m).1 ≠ .limit := by
  have hnext : ∀ id, (r.next id).1 ≠ .limit := by
    intro id h
    rw [Reference.next] at h
    split at h
    · cases h
    · cases h
    · split at h <;> cases h
  have hvisit : ∀ (r : Reference) passed, (r.visit passed).1 ≠ .limit := by
    intro r passed h
    rw [Reference.visit] at h
    split at h <;> cases h
  intro h
  cases m with
  | next id budget => exact hnext id h
  | forEach budget => exact hvisit r 0 h
  | resume budget =>
    rw [Reference.step] at h
    split at h
    · cases h
    · exact hvisit _ _ h
  | delete key | getOrInsert key value | throw =>
    rw [Reference.step] at h
    split at h <;> cases h
  | _ => cases h

/-- The ordered list has no limit. -/
theorem Reference.limit_notMem (r : Reference) (moves : List Move) : .limit ∉ r.outputs moves := by
  induction moves generalizing r with
  | nil => exact not_mem_nil
  | cons m moves ih =>
    exact not_mem_cons_of_ne_of_not_mem (r.step_ne_limit m).symm (ih _)

end NapiVm.Collections
