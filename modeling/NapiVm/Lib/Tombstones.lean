import Mathlib.Data.List.ReduceOption

/-!
# Lists with tombstones

A list from which elements are deleted in place: `none` is left where one was, so that places stay
what they are.

* `rank` — how many elements there are before a place.
* `scan` — the next element from a place on, within a budget.
* The lemmas say what an operation on places does to the list without its tombstones.
-/

namespace NapiVm.Tombstones

variable {α : Type}

/-- How many elements there are before a place. -/
def rank (l : List (Option α)) (place : Nat) : Nat := (l.take place).reduceOption.length

/-- What a scan comes to. -/
inductive Found (α : Type) where
  | item (a : α)
  | finished
  | exhausted

/-- The next element of a list whose first place is `place`, and the place behind it. -/
def scan : List (Option α) → Nat → Nat → Nat × Found α
  | [], _, place => (place, .finished)
  | _ :: _, 0, place => (place, .exhausted)
  | none :: rest, budget + 1, place => scan rest budget (place + 1)
  | some a :: _, _ + 1, place => (place + 1, .item a)

variable {l : List (Option α)} {a b : α} {i c : Nat}

@[simp] theorem rank_zero (l : List (Option α)) : rank l 0 = 0 := rfl

@[simp] theorem rank_nil (c : Nat) : rank ([] : List (Option α)) c = 0 := by simp [rank]

@[simp] theorem rank_cons_none (l : List (Option α)) (c : Nat) :
    rank (none :: l) (c + 1) = rank l c := rfl

@[simp] theorem rank_cons_some (a : α) (l : List (Option α)) (c : Nat) :
    rank (some a :: l) (c + 1) = rank l c + 1 := rfl

theorem rank_length (l : List (Option α)) : rank l l.length = l.reduceOption.length := by
  rw [rank, List.take_length]

section

variable (h : l[i]? = some (some a))

include h

theorem rank_succ : rank l (i + 1) = rank l i + 1 := by
  induction l generalizing i with
  | nil => simp at h
  | cons o l ih =>
    cases i with
    | zero =>
      cases h
      simp
    | succ i =>
      have := ih (i := i) (by simpa using h)
      cases o <;> simp [this]

/-- The element at a place comes after those before it. -/
theorem getElem?_rank : l.reduceOption[rank l i]? = some a := by
  induction l generalizing i with
  | nil => simp at h
  | cons o l ih =>
    cases i with
    | zero =>
      cases h
      simp
    | succ i =>
      have := ih (i := i) (by simpa using h)
      cases o <;> simpa [List.reduceOption_cons_of_none, List.reduceOption_cons_of_some]

/-- Another element at the place of one. -/
theorem reduceOption_set (b : α) :
    (l.set i (some b)).reduceOption = l.reduceOption.set (rank l i) b := by
  induction l generalizing i with
  | nil => simp at h
  | cons o l ih =>
    cases i with
    | zero =>
      cases h
      simp
    | succ i =>
      have := ih (i := i) (by simpa using h)
      cases o <;> simpa [List.reduceOption_cons_of_none, List.reduceOption_cons_of_some]

theorem rank_set (b : α) (c : Nat) : rank (l.set i (some b)) c = rank l c := by
  induction l generalizing i c with
  | nil => simp at h
  | cons o l ih =>
    cases c with
    | zero => simp
    | succ c =>
      cases i with
      | zero =>
        cases h
        simp
      | succ i =>
        have := ih (i := i) (by simpa using h) c
        cases o <;> simpa

/-- A tombstone at the place of an element. -/
theorem reduceOption_set_none :
    (l.set i none).reduceOption = l.reduceOption.eraseIdx (rank l i) := by
  induction l generalizing i with
  | nil => simp at h
  | cons o l ih =>
    cases i with
    | zero =>
      cases h
      simp [List.reduceOption_cons_of_none, List.reduceOption_cons_of_some]
    | succ i =>
      have := ih (i := i) (by simpa using h)
      cases o <;> simpa [List.reduceOption_cons_of_none, List.reduceOption_cons_of_some]

/-- The places behind it lose one. -/
theorem rank_set_none (c : Nat) :
    rank (l.set i none) c = if rank l i < rank l c then rank l c - 1 else rank l c := by
  induction l generalizing i c with
  | nil => simp at h
  | cons o l ih =>
    cases c with
    | zero => simp
    | succ c =>
      cases i with
      | zero =>
        cases h
        simp
      | succ i =>
        have := ih (i := i) (by simpa using h) c
        cases o with
        | none => simpa
        | some d =>
          rw [List.set_cons_succ, rank_cons_some, rank_cons_some, rank_cons_some, this]
          by_cases hlt : rank l i < rank l c
          · rw [if_pos hlt, if_pos (by omega)]
            omega
          · rw [if_neg hlt, if_neg (by omega)]

end

/-- One element more, at the end. -/
theorem reduceOption_push (l : List (Option α)) (a : α) :
    (l ++ [some a]).reduceOption = l.reduceOption ++ [a] := by
  rw [List.reduceOption_append]
  rfl

theorem rank_push (hc : c ≤ l.length) (o : Option α) : rank (l ++ [o]) c = rank l c := by
  rw [rank, rank, List.take_append_of_le_length hc]

/-- Tombstones only. -/
theorem reduceOption_clear (l : List (Option α)) :
    (l.map fun _ => (none : Option α)).reduceOption = [] := by
  induction l with
  | nil => rfl
  | cons o l ih => exact ih

theorem rank_clear (l : List (Option α)) (c : Nat) :
    rank (l.map fun _ => (none : Option α)) c = 0 := by
  rw [rank, ← List.map_take, reduceOption_clear, List.length_nil]

/-- The first element with a property. -/
theorem findIdx?_eq (p : α → Bool) :
    (l.findIdx? (fun o => o.any p) = none ∧ l.reduceOption.findIdx? p = none) ∨
      ∃ i a, l.findIdx? (fun o => o.any p) = some i ∧ l[i]? = some (some a) ∧
        l.reduceOption.findIdx? p = some (rank l i) := by
  induction l with
  | nil => exact .inl ⟨rfl, rfl⟩
  | cons o l ih =>
    cases o with
    | none =>
      rw [List.reduceOption_cons_of_none]
      rcases ih with ⟨h, h'⟩ | ⟨i, a, h, hget, h'⟩
      · exact .inl ⟨by simp [List.findIdx?_cons, h], h'⟩
      · exact .inr ⟨i + 1, a, by simp [List.findIdx?_cons, h], by simpa using hget, h'⟩
    | some d =>
      rw [List.reduceOption_cons_of_some]
      by_cases hd : p d = true
      · exact .inr ⟨0, d, by simp [List.findIdx?_cons, hd], rfl,
          by simp [List.findIdx?_cons, hd]⟩
      · rcases ih with ⟨h, h'⟩ | ⟨i, a, h, hget, h'⟩
        · exact .inl ⟨by simp [List.findIdx?_cons, hd, h], by simp [List.findIdx?_cons, hd, h']⟩
        · exact .inr ⟨i + 1, a, by simp [List.findIdx?_cons, hd, h], by simpa using hget,
            by simp [List.findIdx?_cons, hd, h']⟩

/-! ## Scans -/

/-- What a scan of the rest finds, by the number of elements before it. -/
structure ScanSpec (l : List (Option α)) (budget place : Nat) (result : Nat × Found α) : Prop
    where
  le : result.1 ≤ l.length
  item : ∀ a, result.2 = .item a →
    l.reduceOption[rank l place]? = some a ∧ rank l result.1 = rank l place + 1
  finished : result.2 = .finished → l.reduceOption.length = rank l place
  exhausted : result.2 = .exhausted →
    rank l result.1 = rank l place ∧ budget + place < l.length

theorem drop_cons {rest : List (Option α)} {o : Option α} (h : l.drop c = o :: rest) :
    l[c]? = some o ∧ l.drop (c + 1) = rest := by
  have hhead : l[c]? = some o := by
    rw [← List.head?_drop, h]
    rfl
  refine ⟨hhead, ?_⟩
  rw [← List.drop_drop, h]
  rfl

/-- A place without an element does not count. -/
theorem rank_succ_none (h : l[c]? = some none) : rank l (c + 1) = rank l c := by
  induction l generalizing c with
  | nil => simp at h
  | cons o l ih =>
    cases c with
    | zero =>
      cases h
      simp
    | succ c =>
      have := ih (c := c) (by simpa using h)
      cases o <;> simp [this]

theorem scan_spec (l : List (Option α)) (budget : Nat) {place : Nat} (hplace : place ≤ l.length) :
    ScanSpec l budget place (scan (l.drop place) budget place) := by
  generalize hrest : l.drop place = rest
  induction rest generalizing budget place with
  | nil =>
    have hlen : place = l.length := by
      have := List.drop_eq_nil_iff.1 hrest
      omega
    refine ⟨hplace, ?_, fun _ => ?_, ?_⟩
    · nofun
    · rw [hlen, rank_length]
    · nofun
  | cons o rest ih =>
    obtain ⟨hget, hdrop⟩ := drop_cons hrest
    have hlt : place < l.length := (List.getElem?_eq_some_iff.1 hget).1
    cases budget with
    | zero =>
      refine ⟨hplace, ?_, ?_, fun _ => ⟨rfl, by omega⟩⟩
      · nofun
      · nofun
    | succ budget =>
      cases o with
      | some a =>
        refine ⟨hlt, ?_, ?_, ?_⟩
        · intro b hb
          cases hb
          exact ⟨getElem?_rank hget, rank_succ hget⟩
        · nofun
        · nofun
      | none =>
        have h := ih budget (Nat.succ_le_of_lt hlt) hdrop
        have hrank := rank_succ_none hget
        rw [scan]
        exact ⟨h.le, fun a ha => hrank ▸ h.item a ha, fun hf => hrank ▸ h.finished hf,
          fun he => ⟨hrank ▸ (h.exhausted he).1, by have := (h.exhausted he).2; omega⟩⟩

end NapiVm.Tombstones
