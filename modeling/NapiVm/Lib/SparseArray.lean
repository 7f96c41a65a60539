import NapiVm.Lib.PMap

/-!
# Sparse arrays

The array of the language, on its own: a partial map from indices to values plus
a length that bounds its domain.  Each entry says whether it may be deleted.
Shortening deletes from the highest index down and stops just above the first
entry that may not be deleted.

* `SparseArray` — the array; every operation carries the bound of its result.
* `IsStop` — where shortening stops, as a property of the entries alone;
  `IsStop.unique` says that it determines the length.
* `setLength_spec` — shortening stops there and keeps exactly what lies below.
-/

namespace NapiVm

/-- A sparse array over `β`; the flag of an entry says whether it is deletable. -/
structure SparseArray (β : Type) where
  entries : PMap Nat (β × Bool)
  length : Nat
  bounded : ∀ i, (entries i).isSome = true → i < length

namespace SparseArray

variable {β : Type}

/-- The array of a list: all its entries are deletable. -/
def ofList (xs : List β) : SparseArray β where
  entries := fun i => (xs[i]?).map fun x => (x, true)
  length := xs.length
  bounded := by
    intro i h
    rw [Option.isSome_map] at h
    obtain ⟨x, hx⟩ := Option.isSome_iff_exists.1 h
    exact (List.getElem?_eq_some_iff.1 hx).1

/-- Is the entry at `i` deletable?  A missing one would be created so. -/
def deletable (a : SparseArray β) (i : Nat) : Bool := ((a.entries i).map Prod.snd).getD true

/-- Store at `i`, raising the length above it. -/
def store (a : SparseArray β) (i : Nat) (x : β) : SparseArray β where
  entries := a.entries.insert i (x, a.deletable i)
  length := max a.length (i + 1)
  bounded := by
    intro j h
    by_cases hj : j = i
    · omega
    · rw [PMap.insert_of_ne hj] at h
      have := a.bounded j h
      omega

/-- Delete the entry at `i`. -/
def delete (a : SparseArray β) (i : Nat) : SparseArray β where
  entries := a.entries.erase i
  length := a.length
  bounded := by
    intro j h
    by_cases hj : j = i
    · subst hj; simp at h
    · rw [PMap.erase_of_ne hj] at h
      exact a.bounded j h

/-- Set whether the entry at `i` is deletable. -/
def mark (a : SparseArray β) (i : Nat) (deletable : Bool) : SparseArray β where
  entries := fun j => if j = i then (a.entries i).map fun p => (p.1, deletable) else a.entries j
  length := a.length
  bounded := by
    intro j h
    by_cases hj : j = i
    · subst hj
      simp only [if_true, Option.isSome_map] at h
      exact a.bounded j h
    · rw [if_neg hj] at h
      exact a.bounded j h

/-- Delete from `top` down to `target`, stopping at an entry that resists. -/
def shrink (entries : PMap Nat (β × Bool)) (target : Nat) : Nat → PMap Nat (β × Bool) × Nat
  | 0 => (entries, 0)
  | top + 1 =>
    if top + 1 ≤ target then (entries, top + 1)
    else
      match entries top with
      | some (_, false) => (entries, top + 1)
      | _ => shrink (entries.erase top) target top

/-- An entry that resists deletion. -/
def Blocked (entries : PMap Nat (β × Bool)) (i : Nat) : Prop := ∃ x, entries i = some (x, false)

/-- Where shortening to `target` stops. -/
structure IsStop (entries : PMap Nat (β × Bool)) (target stop : Nat) : Prop where
  le : target ≤ stop
  above : ∀ i, stop ≤ i → ¬ Blocked entries i
  blocker : target < stop → Blocked entries (stop - 1)

/-- **The stop is determined by the entries.** -/
theorem IsStop.unique {entries : PMap Nat (β × Bool)} {target m n : Nat}
    (hm : IsStop entries target m) (hn : IsStop entries target n) : m = n := by
  have key : ∀ {p q : Nat}, IsStop entries target p → IsStop entries target q → ¬ p < q := by
    intro p q hp hq hlt
    exact hp.above (q - 1) (by omega) (hq.blocker (Nat.lt_of_le_of_lt hp.le hlt))
  have h₁ := key hm hn
  have h₂ := key hn hm
  omega

/-- What one shrinking run leaves. -/
theorem shrink_spec (entries : PMap Nat (β × Bool)) (target top : Nat) (h : target ≤ top) :
    target ≤ (shrink entries target top).2 ∧ (shrink entries target top).2 ≤ top ∧
      (∀ i, (shrink entries target top).1 i =
        if (shrink entries target top).2 ≤ i ∧ i < top then none else entries i) ∧
      (∀ i, (shrink entries target top).2 ≤ i → i < top → ¬ Blocked entries i) ∧
      (target < (shrink entries target top).2 →
        Blocked entries ((shrink entries target top).2 - 1)) := by
  induction top generalizing entries with
  | zero =>
    obtain rfl : target = 0 := by omega
    simp [shrink]
  | succ top ih =>
    rw [shrink]
    split
    · next hstop =>
        obtain rfl : target = top + 1 := by omega
        refine ⟨Nat.le_refl _, Nat.le_refl _, ?_, ?_, ?_⟩
        · intro i
          rw [if_neg (by omega)]
        · intro i h₁ h₂; omega
        · intro h₁; exact absurd h₁ (Nat.lt_irrefl _)
    · next hmore =>
        split
        · next x hblock =>
            refine ⟨by omega, Nat.le_refl _, ?_, ?_, ?_⟩
            · intro i
              rw [if_neg (by omega)]
            · intro i h₁ h₂; omega
            · intro _; exact ⟨x, hblock⟩
        · next hfree =>
            obtain ⟨h₁, h₂, h₃, h₄, h₅⟩ := ih (entries.erase top) (by omega)
            have hnot : ¬ Blocked entries top := fun ⟨x, hx⟩ => hfree x hx
            have hsame : ∀ i, i ≠ top → (entries.erase top) i = entries i :=
              fun i hi => PMap.erase_of_ne hi
            refine ⟨h₁, by omega, ?_, ?_, ?_⟩
            · intro i
              rw [h₃ i]
              by_cases hi : i = top
              · subst hi
                rw [if_neg (by omega), PMap.erase_self, if_pos (by omega)]
              · rw [hsame i hi]
                by_cases hr : (shrink (entries.erase top) target top).2 ≤ i ∧ i < top
                · rw [if_pos hr, if_pos (by omega)]
                · rw [if_neg hr, if_neg (by omega)]
            · intro i hi hlt
              by_cases hit : i = top
              · rw [hit]; exact hnot
              · rintro ⟨x, hx⟩
                exact h₄ i hi (by omega) ⟨x, (hsame i hit).trans hx⟩
            · intro hlt
              obtain ⟨x, hx⟩ := h₅ hlt
              exact ⟨x, (hsame _ (by omega)).symm.trans hx⟩

/-- Set the length, deleting what lies at or above it as far as possible. -/
def setLength (a : SparseArray β) (target : Nat) : SparseArray β :=
  if h : a.length ≤ target then
    ⟨a.entries, target, fun i hi => Nat.lt_of_lt_of_le (a.bounded i hi) h⟩
  else
    { entries := (shrink a.entries target a.length).1
      length := (shrink a.entries target a.length).2
      bounded := by
        intro i hi
        obtain ⟨-, -, hentries, -, -⟩ := shrink_spec a.entries target a.length (by omega)
        by_contra hge
        rw [hentries i] at hi
        by_cases hlt : i < a.length
        · rw [if_pos ⟨by omega, hlt⟩] at hi
          exact absurd hi (by simp)
        · rw [if_neg (by omega)] at hi
          exact hlt (a.bounded i hi) }

theorem not_blocked_of_length_le (a : SparseArray β) {i : Nat} (h : a.length ≤ i) :
    ¬ Blocked a.entries i := by
  rintro ⟨x, hx⟩
  have := a.bounded i (by simp [hx])
  omega

/-- **Shortening** stops where it must and keeps exactly the entries below. -/
theorem setLength_spec (a : SparseArray β) (target : Nat) :
    IsStop a.entries target (a.setLength target).length ∧
      ∀ i, (a.setLength target).entries i =
        if i < (a.setLength target).length then a.entries i else none := by
  unfold setLength
  split
  · next h =>
      refine ⟨⟨Nat.le_refl _, ?_, fun hlt => absurd hlt (Nat.lt_irrefl _)⟩, ?_⟩
      · intro i hi
        exact a.not_blocked_of_length_le (Nat.le_trans h hi)
      · intro i
        dsimp only
        split
        · rfl
        · next hi =>
            cases he : a.entries i with
            | none => rfl
            | some p =>
              have := a.bounded i (by simp [he])
              omega
  · next h =>
      obtain ⟨h₁, h₂, h₃, h₄, h₅⟩ := shrink_spec a.entries target a.length (by omega)
      refine ⟨⟨h₁, ?_, h₅⟩, ?_⟩
      · intro i hi
        by_cases hlt : i < a.length
        · exact h₄ i hi hlt
        · exact a.not_blocked_of_length_le (by omega)
      · intro i
        dsimp only
        rw [h₃ i]
        by_cases hi : i < (shrink a.entries target a.length).2
        · rw [if_neg (by omega), if_pos hi]
        · rw [if_neg hi]
          by_cases hlt : i < a.length
          · rw [if_pos ⟨by omega, hlt⟩]
          · rw [if_neg (by omega)]
            cases he : a.entries i with
            | none => rfl
            | some p => exact absurd (a.bounded i (by simp [he])) hlt

end SparseArray

end NapiVm
