import NapiVm.Lib.PMap
import NapiVm.Lib.SortedList
import Mathlib.Data.List.Nodup
import Mathlib.Data.Prod.Lex

/-!
# The timer queue

Small queues are a sorted vector.  A queue of more than 128 timers becomes a tree with an index of
its ids, and stays one until it is empty.

* `TimerQueue` — the queue, with `insert`, `cancel` and `pop`.
* `Represents` — the sorted list that a queue stands for.
* `refines` — every run of the queue is a run of one sorted list.
-/

namespace NapiVm.Jobs

open SortedList List

/-- `TimerKey`: the bits of a deadline, and a sequence number. -/
abbrev TimerKey : Type := Nat ×ₗ Nat

/-- The sequence number of a key. -/
def TimerKey.sequence (key : TimerKey) : Nat := (ofLex key).2

structure TimerEntry (Job : Type) where
  key : TimerKey
  id : Nat
  job : Job

/-- The tree, as its entries in order, and the index of its ids. -/
structure TreeTimers (Job : Type) where
  entries : List (TimerEntry Job)
  ids : PMap Nat TimerKey

inductive TimerQueue (Job : Type) where
  | small (entries : List (TimerEntry Job)) (spare : Option (TreeTimers Job))
  | tree (entries : List (TimerEntry Job)) (ids : PMap Nat TimerKey)
      (buffer : List (TimerEntry Job))

namespace TimerQueue

variable {Job : Type}

/-- `SMALL_LIMIT`. -/
def smallLimit : Nat := 128

/-- `default`. -/
def empty : TimerQueue Job := .small [] none

def len : TimerQueue Job → Nat
  | .small entries _ => entries.length
  | .tree entries _ _ => entries.length

def containsId (id : Nat) : TimerQueue Job → Bool
  | .small entries _ => entries.any fun e => e.id = id
  | .tree _ ids _ => (ids id).isSome

def insert (key : TimerKey) (id : Nat) (job : Job) : TimerQueue Job → TimerQueue Job
  | .small entries spare =>
    let v := entries.insertIdx (partitionPoint TimerEntry.key key entries) ⟨key, id, job⟩
    if v.length ≤ smallLimit then .small v spare
    else
      let t := spare.getD ⟨[], PMap.empty⟩
      -- The vector is drained into the tree, and kept.
      .tree (v.foldl (fun m e => place TimerEntry.key e m) t.entries)
        (v.foldl (fun m e => m.insert e.id e.key) t.ids) []
  | .tree entries ids buffer =>
    .tree (place TimerEntry.key ⟨key, id, job⟩ entries) (ids.insert id key) buffer

/-- `demote_empty`; `retain` says that the index has no more room than `MAX_RETAINED_IDS`. -/
def demoteEmpty (retain : Bool) : TimerQueue Job → TimerQueue Job
  | .tree [] ids buffer => .small buffer (if retain then some ⟨[], ids⟩ else none)
  | q => q

def cancel (id : Nat) (retain : Bool) : TimerQueue Job → TimerQueue Job
  | .small entries spare => .small (entries.eraseP fun e => e.id = id) spare
  | .tree entries ids buffer =>
    demoteEmpty retain <|
      match ids id with
      | some key => .tree (entries.filter fun e => e.key ≠ key) (ids.erase id) buffer
      | none => .tree entries ids buffer

def firstKey : TimerQueue Job → Option TimerKey
  | .small entries _ => entries.head?.map TimerEntry.key
  | .tree entries _ _ => entries.head?.map TimerEntry.key

def pop (retain : Bool) : TimerQueue Job → TimerQueue Job × Option Job
  | .small [] spare => (.small [] spare, none)
  | .small (e :: entries) spare => (.small entries spare, some e.job)
  | .tree [] ids buffer => (.tree [] ids buffer, none)
  | .tree (e :: entries) ids buffer =>
    (demoteEmpty retain (.tree entries (ids.erase e.id) buffer), some e.job)

/-! ## One sorted list -/

/-- Sorted by key, and no id twice. -/
structure Tidy (l : List (TimerEntry Job)) : Prop where
  ascending : Ascending TimerEntry.key l
  nodup : (l.map TimerEntry.id).Nodup

/-- The index of the ids is that of the entries. -/
def Indexes (ids : PMap Nat TimerKey) (l : List (TimerEntry Job)) : Prop :=
  ∀ id key, ids id = some key ↔ ∃ e ∈ l, e.id = id ∧ e.key = key

/-- The queue stands for the list.  Spare storage is empty, and a tree is not. -/
def Represents : TimerQueue Job → List (TimerEntry Job) → Prop
  | .small entries spare, l =>
    entries = l ∧ l.length ≤ smallLimit ∧ ∀ t ∈ spare, t.entries = [] ∧ t.ids = PMap.empty
  | .tree entries ids buffer, l => entries = l ∧ l ≠ [] ∧ buffer = [] ∧ Indexes ids l

/-- The timers of a queue. -/
def entries : TimerQueue Job → List (TimerEntry Job)
  | .small entries _ => entries
  | .tree entries _ _ => entries

section

variable {l : List (TimerEntry Job)} {key : TimerKey} {id : Nat} {job : Job}

theorem Tidy.eq_of_id (h : Tidy l) {a b : TimerEntry Job} (ha : a ∈ l) (hb : b ∈ l)
    (hid : a.id = b.id) : a = b := inj_on_of_nodup_map h.nodup ha hb hid

theorem Tidy.filter (h : Tidy l) (p : TimerEntry Job → Bool) : Tidy (l.filter p) :=
  ⟨h.ascending.filter p, h.nodup.sublist (filter_sublist.map _)⟩

/-- A timer with a new key and a new id. -/
theorem Tidy.place (job : Job) (h : Tidy l) (hkey : ∀ e ∈ l, e.key ≠ key) (hid : ∀ e ∈ l, e.id ≠ id) :
    Tidy (place TimerEntry.key ⟨key, id, job⟩ l) := by
  refine ⟨ascending_place h.ascending hkey, ?_⟩
  rw [((place_perm hkey).map _).nodup_iff, map_cons, nodup_cons]
  refine ⟨fun hmem => ?_, h.nodup⟩
  obtain ⟨e, he, heid⟩ := mem_map.1 hmem
  exact hid e he heid

/-- One timer at most has the id. -/
theorem Tidy.eraseP (h : Tidy l) (id : Nat) :
    (l.eraseP fun e => e.id = id) = l.filter fun e => e.id ≠ id := by
  have hnodup := h.nodup
  clear h
  induction l with
  | nil => rfl
  | cons e l ih =>
    obtain ⟨hnew, hnodup⟩ := nodup_cons.1 hnodup
    by_cases he : e.id = id
    · have hrest : l.filter (fun e => e.id ≠ id) = l := by
        refine filter_eq_self.2 fun d hd => ?_
        have : d.id ≠ id := fun hid => hnew (mem_map.2 ⟨d, hd, hid.trans he.symm⟩)
        simpa using this
      rw [eraseP_cons_of_pos (by simpa using he),
        filter_cons_of_neg (by simpa using he), hrest]
    · rw [eraseP_cons_of_neg (by simpa using he),
        filter_cons_of_pos (by simpa using he), ih hnodup]

/-! ## The index -/

variable {ids : PMap Nat TimerKey}

theorem indexes_nil : Indexes PMap.empty ([] : List (TimerEntry Job)) := by
  intro id key
  simp

theorem Indexes.eq_empty (h : Indexes ids ([] : List (TimerEntry Job))) : ids = PMap.empty := by
  funext id
  cases hid : ids id with
  | none => rfl
  | some key =>
    obtain ⟨e, he, -⟩ := (h id key).1 hid
    cases he

/-- One timer more. -/
theorem Indexes.insert {l' : List (TimerEntry Job)} (job : Job) (h : Indexes ids l)
    (hid : ∀ e ∈ l, e.id ≠ id) (hmem : ∀ e, e ∈ l' ↔ e = ⟨key, id, job⟩ ∨ e ∈ l) :
    Indexes (ids.insert id key) l' := by
  intro id' key'
  by_cases hid' : id' = id
  · subst hid'
    rw [PMap.insert_self]
    constructor
    · intro hkey
      cases hkey
      exact ⟨_, (hmem _).2 (.inl rfl), rfl, rfl⟩
    · rintro ⟨e, he, heid, rfl⟩
      rcases (hmem e).1 he with rfl | he
      · rfl
      · exact absurd heid (hid e he)
  · rw [PMap.insert_of_ne hid', h id' key']
    constructor
    · rintro ⟨e, he, heid, hekey⟩
      exact ⟨e, (hmem e).2 (.inr he), heid, hekey⟩
    · rintro ⟨e, he, rfl, hekey⟩
      rcases (hmem e).1 he with rfl | he
      · exact absurd rfl hid'
      · exact ⟨e, he, rfl, hekey⟩

/-- Without the timer of an id. -/
theorem Indexes.erase (h : Indexes ids l) (id : Nat) :
    Indexes (ids.erase id) (l.filter fun e => e.id ≠ id) := by
  intro id' key'
  by_cases hid' : id' = id
  · subst hid'
    rw [PMap.erase_self]
    refine ⟨nofun, ?_⟩
    rintro ⟨e, he, rfl, -⟩
    simp at he
  · rw [PMap.erase_of_ne hid', h id' key']
    constructor
    · rintro ⟨e, he, rfl, hekey⟩
      exact ⟨e, mem_filter.2 ⟨he, by simpa using hid'⟩, rfl, hekey⟩
    · rintro ⟨e, he, heid, hekey⟩
      exact ⟨e, (mem_filter.1 he).1, heid, hekey⟩

theorem Indexes.isSome (h : Indexes ids l) (id : Nat) :
    (ids id).isSome = l.any fun e => e.id = id := by
  rw [Bool.eq_iff_iff, Option.isSome_iff_exists, any_eq_true]
  constructor
  · rintro ⟨key, hkey⟩
    obtain ⟨e, he, heid, -⟩ := (h id key).1 hkey
    exact ⟨e, he, decide_eq_true heid⟩
  · rintro ⟨e, he, heid⟩
    exact ⟨e.key, (h id e.key).2 ⟨e, he, of_decide_eq_true heid, rfl⟩⟩

/-- The timer of an indexed id is the one with its key. -/
theorem Indexes.filter_key (h : Indexes ids l) (ht : Tidy l) (hkey : ids id = some key) :
    (l.filter fun e => e.key ≠ key) = l.filter fun e => e.id ≠ id := by
  obtain ⟨e, he, rfl, rfl⟩ := (h id key).1 hkey
  refine filter_congr fun d hd => ?_
  have hiff : d.key = e.key ↔ d.id = e.id :=
    ⟨fun hk => congrArg TimerEntry.id (ht.ascending.eq_of_key hd he hk),
      fun hi => congrArg TimerEntry.key (ht.eq_of_id hd he hi)⟩
  simp only [ne_eq, hiff]

/-! ## The operations -/

variable {q : TimerQueue Job} {retain : Bool}

theorem Represents.entries_eq (h : Represents q l) : q.entries = l := by
  cases q with
  | small entries spare => exact h.1
  | tree entries ids buffer => exact h.1

theorem represents_empty : Represents (empty : TimerQueue Job) [] :=
  ⟨rfl, Nat.zero_le _, nofun⟩

/-- An empty tree becomes a vector, and leaves nothing behind. -/
theorem represents_demoteEmpty (h : Indexes ids l) :
    Represents (demoteEmpty retain (.tree l ids [])) l := by
  cases l with
  | nil =>
    refine ⟨rfl, Nat.zero_le _, fun t ht => ?_⟩
    cases retain with
    | false => cases ht
    | true =>
      cases ht
      exact ⟨rfl, h.eq_empty⟩
  | cons e l => exact ⟨rfl, cons_ne_nil e l, rfl, h⟩

/-- A vector moves to the tree as it is. -/
theorem indexes_foldl {acc : List (TimerEntry Job)} (h : Indexes ids acc)
    (hnodup : ((acc ++ l).map TimerEntry.id).Nodup) :
    Indexes (l.foldl (fun m e => m.insert e.id e.key) ids) (acc ++ l) := by
  induction l generalizing acc ids with
  | nil => rwa [append_nil, foldl_nil]
  | cons e l ih =>
    have hnew : ∀ d ∈ acc, d.id ≠ e.id := by
      intro d hd hid
      rw [map_append, nodup_append] at hnodup
      exact hnodup.2.2 d.id (mem_map_of_mem hd) e.id (by simp) hid
    have hsplit : acc ++ e :: l = acc ++ [e] ++ l := by simp
    rw [foldl_cons, hsplit]
    refine ih (h.insert e.job hnew fun d => ?_) (hsplit ▸ hnodup)
    rw [mem_append, mem_singleton]
    exact Or.comm

theorem represents_insert (job : Job) (h : Represents q l) (ht : Tidy l) (hkey : ∀ e ∈ l, e.key ≠ key)
    (hid : ∀ e ∈ l, e.id ≠ id) :
    Represents (q.insert key id job) (place TimerEntry.key ⟨key, id, job⟩ l) := by
  have ht' := ht.place job hkey hid
  cases q with
  | small entries spare =>
    obtain ⟨rfl, hlen, hspare⟩ := h
    rw [TimerQueue.insert]
    have hinsert : entries.insertIdx (partitionPoint TimerEntry.key key entries) ⟨key, id, job⟩ =
        place TimerEntry.key ⟨key, id, job⟩ entries := insertIdx_partitionPoint hkey
    simp only [hinsert]
    split_ifs with hlimit
    · exact ⟨rfl, hlimit, hspare⟩
    · -- The tree that the vector is moved to is empty.
      have hempty : spare.getD ⟨[], PMap.empty⟩ = ⟨[], PMap.empty⟩ := by
        cases spare with
        | none => rfl
        | some t =>
          obtain ⟨hentries, hids⟩ := hspare t rfl
          cases t
          cases hentries
          cases hids
          rfl
      rw [hempty]
      refine ⟨foldl_place ht'.ascending, fun hnil => ?_, rfl, indexes_foldl indexes_nil ht'.nodup⟩
      rw [hnil] at hlimit
      exact hlimit (Nat.zero_le _)
  | tree entries ids buffer =>
    obtain ⟨rfl, -, hbuffer, hindex⟩ := h
    refine ⟨rfl, fun hnil => ?_, hbuffer, hindex.insert job hid fun e => mem_place hkey⟩
    have hlen : (place TimerEntry.key ⟨key, id, job⟩ entries).length = entries.length + 1 :=
      length_place hkey
    rw [hnil] at hlen
    cases hlen

theorem represents_cancel (id : Nat) (retain : Bool) (h : Represents q l) (ht : Tidy l) :
    Represents (q.cancel id retain) (l.filter fun e => e.id ≠ id) := by
  cases q with
  | small entries spare =>
    obtain ⟨rfl, hlen, hspare⟩ := h
    exact ⟨ht.eraseP id, (length_filter_le _ _).trans hlen, hspare⟩
  | tree entries ids buffer =>
    obtain ⟨rfl, -, rfl, hindex⟩ := h
    rw [cancel]
    cases hkey : ids id with
    | some key =>
      simp only [hindex.filter_key ht hkey]
      exact represents_demoteEmpty (hindex.erase id)
    | none =>
      have hnone : entries.filter (fun e => e.id ≠ id) = entries := by
        refine filter_eq_self.2 fun e he => decide_eq_true fun hid => ?_
        cases hkey.symm.trans ((hindex id e.key).2 ⟨e, he, hid, rfl⟩)
      rw [hnone]
      exact represents_demoteEmpty hindex

/-- The first timer goes, and is the one of its id. -/
theorem Tidy.tail_eq_filter {e : TimerEntry Job} (h : Tidy (e :: l)) :
    (e :: l).filter (fun d => d.id ≠ e.id) = l := by
  have hhead := (nodup_cons.1 h.nodup).1
  rw [filter_cons_of_neg (by simp)]
  refine filter_eq_self.2 fun d hd => decide_eq_true fun hid => ?_
  exact hhead (mem_map.2 ⟨d, hd, hid⟩)

theorem Tidy.tail (h : Tidy l) : Tidy l.tail :=
  ⟨h.ascending.tail, by rw [map_tail]; exact h.nodup.tail⟩

theorem represents_pop (retain : Bool) (h : Represents q l) (ht : Tidy l) :
    Represents (q.pop retain).1 l.tail ∧ (q.pop retain).2 = l.head?.map TimerEntry.job := by
  cases q with
  | small entries spare =>
    obtain ⟨rfl, hlen, hspare⟩ := h
    cases entries with
    | nil => exact ⟨⟨rfl, hlen, hspare⟩, rfl⟩
    | cons e entries => exact ⟨⟨rfl, (Nat.le_succ _).trans hlen, hspare⟩, rfl⟩
  | tree entries ids buffer =>
    obtain ⟨rfl, hne, rfl, hindex⟩ := h
    cases entries with
    | nil => exact absurd rfl hne
    | cons e entries =>
      refine ⟨?_, rfl⟩
      have herase := hindex.erase e.id
      rw [ht.tail_eq_filter] at herase
      exact represents_demoteEmpty herase

/-- What can be seen of the queue is the same of the list. -/
theorem represents_observe (h : Represents q l) :
    q.len = l.length ∧ q.firstKey = l.head?.map TimerEntry.key ∧
      ∀ id, q.containsId id = l.any fun e => e.id = id := by
  cases q with
  | small entries spare =>
    obtain ⟨rfl, -⟩ := h
    exact ⟨rfl, rfl, fun id => rfl⟩
  | tree entries ids buffer =>
    obtain ⟨rfl, -, -, hindex⟩ := h
    exact ⟨rfl, rfl, hindex.isSome⟩

end

/-! ## Runs -/

/-- An operation; `retain` is that of `demoteEmpty`. -/
inductive Op (Job : Type) where
  | insert (key : TimerKey) (id : Nat) (job : Job)
  | cancel (id : Nat) (retain : Bool)
  | pop (retain : Bool)

/-- An operation of the queue, and the job it returns. -/
def step (q : TimerQueue Job) : Op Job → TimerQueue Job × Option Job
  | .insert key id job => (q.insert key id job, none)
  | .cancel id retain => (q.cancel id retain, none)
  | .pop retain => q.pop retain

/-- The same operation of a sorted list: the least key comes first, and an id goes alone. -/
def listStep (l : List (TimerEntry Job)) : Op Job → List (TimerEntry Job) × Option Job
  | .insert key id job => (place TimerEntry.key ⟨key, id, job⟩ l, none)
  | .cancel id _ => (l.filter fun e => e.id ≠ id, none)
  | .pop _ => (l.tail, l.head?.map TimerEntry.job)

/-- A run: the state it ends in, and what each operation returned. -/
def run {σ : Type} (step : σ → Op Job → σ × Option Job) : σ → List (Op Job) → σ × List (Option Job)
  | s, [] => (s, [])
  | s, op :: ops =>
    let next := step s op
    let rest := run step next.1 ops
    (rest.1, next.2 :: rest.2)

/-- The sequence numbers of the inserted keys increase, and no inserted id is live. -/
def Fresh : Option Nat → List (TimerEntry Job) → List (Op Job) → Prop
  | _, _, [] => True
  | last, l, .insert key id job :: ops =>
    (∀ s ∈ last, s < key.sequence) ∧ (∀ e ∈ l, e.id ≠ id) ∧
      Fresh (some key.sequence) (listStep l (.insert key id job)).1 ops
  | last, l, .cancel id retain :: ops => Fresh last (listStep l (.cancel id retain)).1 ops
  | last, l, .pop retain :: ops => Fresh last (listStep l (.pop retain)).1 ops

/-- No live key has a later sequence number than the last one. -/
def Since (last : Option Nat) (l : List (TimerEntry Job)) : Prop :=
  ∀ e ∈ l, ∃ s ∈ last, e.key.sequence ≤ s

theorem Since.of_subset {last : Option Nat} {l l' : List (TimerEntry Job)} (h : Since last l)
    (hsub : ∀ e ∈ l', e ∈ l) : Since last l' := fun e he => h e (hsub e he)

/-- The queue and the list are in step. -/
structure Agrees (q : TimerQueue Job) (l : List (TimerEntry Job)) : Prop where
  represents : Represents q l
  tidy : Tidy l

theorem agrees_run {q : TimerQueue Job} {l : List (TimerEntry Job)} {last : Option Nat}
    {ops : List (Op Job)} (h : Agrees q l) (hsince : Since last l) (hfresh : Fresh last l ops) :
    (run step q ops).2 = (run listStep l ops).2 ∧
      Agrees (run step q ops).1 (run listStep l ops).1 := by
  induction ops generalizing q l last with
  | nil => exact ⟨rfl, h⟩
  | cons op ops ih =>
    cases op with
    | insert key id job =>
      obtain ⟨hlast, hid, hfresh⟩ := hfresh
      -- The key is new: its sequence number is later than all.
      have hkey : ∀ e ∈ l, e.key ≠ key := by
        rintro e he rfl
        obtain ⟨s, hs, hle⟩ := hsince e he
        exact absurd (hlast s hs) (not_lt.2 hle)
      have hnext : Agrees (q.insert key id job) (place TimerEntry.key ⟨key, id, job⟩ l) :=
        ⟨represents_insert job h.represents h.tidy hkey hid, h.tidy.place job hkey hid⟩
      have hsince' : Since (some key.sequence) (place TimerEntry.key ⟨key, id, job⟩ l) := by
        intro e he
        refine ⟨_, rfl, ?_⟩
        rcases (mem_place hkey).1 he with rfl | he
        · exact le_rfl
        · obtain ⟨s, hs, hle⟩ := hsince e he
          exact hle.trans (hlast s hs).le
      obtain ⟨hout, hend⟩ := ih hnext hsince' hfresh
      exact ⟨congrArg (none :: ·) hout, hend⟩
    | cancel id retain =>
      have hnext : Agrees (q.cancel id retain) (l.filter fun e => e.id ≠ id) :=
        ⟨represents_cancel id retain h.represents h.tidy, h.tidy.filter _⟩
      have hsince' : Since last (l.filter fun e => e.id ≠ id) :=
        hsince.of_subset fun e he => (mem_filter.1 he).1
      obtain ⟨hout, hend⟩ := ih hnext hsince' hfresh
      exact ⟨congrArg (none :: ·) hout, hend⟩
    | pop retain =>
      obtain ⟨hpop, hjob⟩ := represents_pop retain h.represents h.tidy
      have hnext : Agrees (q.pop retain).1 l.tail := ⟨hpop, h.tidy.tail⟩
      have hsince' : Since last l.tail :=
        hsince.of_subset fun e he => mem_of_mem_tail he
      obtain ⟨hout, hend⟩ := ih hnext hsince' hfresh
      exact ⟨congrArg₂ cons hjob hout, hend⟩

/-- **One sorted queue.**  After every run the queue has returned what a sorted list returns, it
shows what the list shows, and its tree and its index hold what the list holds. -/
theorem refines (ops : List (Op Job)) (h : Fresh none [] ops) :
    (run step empty ops).2 = (run listStep [] ops).2 ∧
      Agrees (run step empty ops).1 (run listStep [] ops).1 ∧
      (run step empty ops).1.len = (run listStep [] ops).1.length ∧
      (run step empty ops).1.firstKey = (run listStep [] ops).1.head?.map TimerEntry.key ∧
      ∀ id, (run step empty ops).1.containsId id =
        (run listStep [] ops).1.any fun e => e.id = id := by
  have hstart : Agrees (empty : TimerQueue Job) [] :=
    ⟨represents_empty, ascending_nil, List.nodup_nil⟩
  obtain ⟨hout, hend⟩ := agrees_run hstart (fun e he => by cases he) h
  exact ⟨hout, hend, represents_observe hend.represents⟩

theorem refines_pops :
    (run step empty [.insert (toLex (5, 1)) 1 'a', .insert (toLex (3, 2)) 2 'b', .cancel 1 true,
      .pop true, .pop true]).2 = [none, none, none, some 'b', none] := by
  refine (refines _ ?_).1.trans rfl
  simp [Fresh, listStep, TimerKey.sequence, place]

end TimerQueue

end NapiVm.Jobs
