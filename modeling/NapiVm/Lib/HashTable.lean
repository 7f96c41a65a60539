import Mathlib.Data.List.Nodup

/-!
# Hash tables

A hash map whose size and whose entries matter is the list of its entries, in no particular
order.  That no key is there twice is part of the table.

* `get`, `len`, `insert`, `remove`, `retain` — the operations of the standard collection.
* `get_insert`, `get_remove`, `get_retain` — what is found after them.
-/

namespace NapiVm

/-- A hash map, as its entries. -/
structure HashTable (κ β : Type) where
  entries : List (κ × β)
  nodup : (entries.map Prod.fst).Nodup

namespace HashTable

variable {κ β : Type}

/-- The table without entries. -/
def empty : HashTable κ β := ⟨[], List.nodup_nil⟩

/-- The number of entries. -/
def len (table : HashTable κ β) : Nat := table.entries.length

/-- Drop the entries that do not satisfy `keep`. -/
def retain (table : HashTable κ β) (keep : κ → β → Bool) : HashTable κ β where
  entries := table.entries.filter fun entry => keep entry.1 entry.2
  nodup := table.nodup.sublist (List.filter_sublist.map _)

variable [DecidableEq κ]

/-- What is stored under a key. -/
def get (table : HashTable κ β) (key : κ) : Option β :=
  (table.entries.find? fun entry => decide (entry.1 = key)).map Prod.snd

/-- Drop the entry of a key. -/
def remove (table : HashTable κ β) (key : κ) : HashTable κ β :=
  table.retain fun k _ => decide (k ≠ key)

theorem not_mem_remove (table : HashTable κ β) (key : κ) :
    key ∉ (table.remove key).entries.map Prod.fst := by
  intro h
  obtain ⟨entry, hentry, heq⟩ := List.mem_map.1 h
  exact of_decide_eq_true (List.mem_filter.1 hentry).2 heq

/-- Store a value under a key, in the place of the one that is there. -/
def insert (table : HashTable κ β) (key : κ) (value : β) : HashTable κ β where
  entries := (key, value) :: (table.remove key).entries
  nodup := List.nodup_cons.2 ⟨table.not_mem_remove key, (table.remove key).nodup⟩

section Get

variable {table : HashTable κ β} {key : κ} {value : β}

/-- A key is found where it stands. -/
theorem get_eq_some_iff : table.get key = some value ↔ (key, value) ∈ table.entries := by
  rw [get, Option.map_eq_some_iff]
  constructor
  · rintro ⟨entry, hfind, rfl⟩
    have hkey := List.find?_some hfind
    rw [decide_eq_true_eq] at hkey
    exact hkey ▸ List.mem_of_find?_eq_some hfind
  · intro hmem
    have hsome : (table.entries.find? fun entry => decide (entry.1 = key)).isSome = true :=
      List.find?_isSome.2 ⟨(key, value), hmem, decide_eq_true rfl⟩
    obtain ⟨entry, hentry⟩ := Option.isSome_iff_exists.1 hsome
    have hkey := List.find?_some hentry
    rw [decide_eq_true_eq] at hkey
    have hsame := List.inj_on_of_nodup_map table.nodup (List.mem_of_find?_eq_some hentry) hmem hkey
    exact ⟨entry, hentry, congrArg Prod.snd hsame⟩

theorem get_retain {keep : κ → β → Bool} : (table.retain keep).get key = some value ↔
    table.get key = some value ∧ keep key value = true := by
  rw [get_eq_some_iff, get_eq_some_iff, retain, List.mem_filter]

theorem get_remove {k : κ} : (table.remove key).get k = some value ↔
    table.get k = some value ∧ k ≠ key := by
  rw [remove, get_retain, decide_eq_true_eq]

theorem get_insert {k : κ} {v : β} : (table.insert key value).get k = some v ↔
    k = key ∧ v = value ∨ k ≠ key ∧ table.get k = some v := by
  rw [get_eq_some_iff, insert, List.mem_cons, Prod.mk.injEq, ← get_eq_some_iff, get_remove]
  exact or_congr_right and_comm

theorem get_insert_self : (table.insert key value).get key = some value :=
  get_insert.2 (.inl ⟨rfl, rfl⟩)

theorem get_insert_of_ne {k : κ} (hne : k ≠ key) :
    (table.insert key value).get k = table.get k := by
  refine Option.ext fun v => ?_
  rw [get_insert]
  exact ⟨fun h => (h.resolve_left fun h' => hne h'.1).2, fun h => .inr ⟨hne, h⟩⟩

end Get

end HashTable

end NapiVm
