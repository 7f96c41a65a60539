import Mathlib.Data.List.Basic

/-!
# Partial maps

A hash map is used by the engine only through its lookups, so it is modelled by
the lookup function itself.  The operations below are the ones the standard
collection offers: `insert` overwrites, `insertIfNew` is `entry(k).or_insert(v)`
and keeps the first value, `erase` is `remove`.
-/

namespace NapiVm

/-- A partial map, given by its lookup function. -/
abbrev PMap (κ β : Type) : Type := κ → Option β

namespace PMap

variable {κ β : Type} [DecidableEq κ]

/-- The map with no entry. -/
def empty : PMap κ β := fun _ => none

/-- Overwrite the entry of `k`. -/
def insert (m : PMap κ β) (k : κ) (b : β) : PMap κ β :=
  fun j => if j = k then some b else m j

/-- Add an entry for `k` unless there is one already. -/
def insertIfNew (m : PMap κ β) (k : κ) (b : β) : PMap κ β :=
  match m k with
  | none => m.insert k b
  | some _ => m

/-- Drop the entry of `k`. -/
def erase (m : PMap κ β) (k : κ) : PMap κ β :=
  fun j => if j = k then none else m j

/-- Every entry of the one map is one of the other. -/
def Le (m m' : PMap κ β) : Prop := ∀ k b, m k = some b → m' k = some b

/-- Does the map hold an entry for `k`? -/
def contains (m : PMap κ β) (k : κ) : Bool := (m k).isSome

omit [DecidableEq κ] in
@[simp] theorem empty_apply (j : κ) : (empty : PMap κ β) j = none := rfl

variable {m : PMap κ β} {k j : κ} {b c : β}

@[simp] theorem insert_self : m.insert k b k = some b := by
  simp [insert]

theorem insert_of_ne (h : j ≠ k) : m.insert k b j = m j := by
  simp [insert, h]

@[simp] theorem erase_self (m : PMap κ β) (k : κ) : m.erase k k = none := by simp [erase]

theorem erase_of_ne (h : j ≠ k) : m.erase k j = m j := by
  simp [erase, h]

/-- What is found is what was put there, or was there already. -/
theorem insert_cases (h : m.insert k b j = some c) : (j = k ∧ c = b) ∨ (j ≠ k ∧ m j = some c) := by
  by_cases hjk : j = k
  · subst hjk
    rw [insert_self] at h
    exact .inl ⟨rfl, (Option.some.inj h).symm⟩
  · exact .inr ⟨hjk, (insert_of_ne hjk).symm.trans h⟩

theorem of_erase (h : m.erase k j = some c) : j ≠ k ∧ m j = some c := by
  by_cases hjk : j = k
  · subst hjk
    rw [erase_self] at h
    cases h
  · exact ⟨hjk, (erase_of_ne hjk).symm.trans h⟩

theorem insertIfNew_apply (m : PMap κ β) (j k : κ) (b : β) :
    m.insertIfNew k b j = (m j).or (if j = k then some b else none) := by
  unfold insertIfNew
  cases hk : m k with
  | none =>
    by_cases h : j = k
    · subst h; simp [hk]
    · simp [insert_of_ne h, h]
  | some c =>
    by_cases h : j = k
    · subst h; simp [hk]
    · simp [h]

section Le

variable {m m' m'' : PMap κ β}

omit [DecidableEq κ]

theorem Le.trans (h : m.Le m') (h' : m'.Le m'') : m.Le m'' :=
  fun k b hk => h' k b (h k b hk)

theorem Le.antisymm (h : m.Le m') (h' : m'.Le m) : m = m' := by
  funext k
  cases hk : m k with
  | some b => exact (h k b hk).symm
  | none =>
    cases hk' : m' k with
    | none => rfl
    | some b => exact hk.symm.trans (h' k b hk')

end Le

theorem insert_eq_self {m : PMap κ β} {k : κ} {b : β} (h : m k = some b) : m.insert k b = m := by
  funext j
  by_cases hjk : j = k
  · subst hjk
    rw [insert_self, h]
  · exact insert_of_ne hjk

theorem le_insert {m : PMap κ β} {k : κ} (b : β) (h : ∀ b', m k = some b' → b' = b) :
    m.Le (m.insert k b) := by
  intro j b' hj
  by_cases hjk : j = k
  · subst hjk
    rw [insert_self, h b' hj]
  · rwa [insert_of_ne hjk]

theorem insert_le {m m' : PMap κ β} {k : κ} {b : β} (h : m.Le m') (hk : m' k = some b) :
    (m.insert k b).Le m' := by
  intro j b' hj
  by_cases hjk : j = k
  · subst hjk
    rw [insert_self] at hj
    rw [← hj, hk]
  · rw [insert_of_ne hjk] at hj
    exact h j b' hj

end PMap

end NapiVm
