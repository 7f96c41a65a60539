import Mathlib.Tactic.Common

/-!
# Results

What a result of two parts says of its parts.
-/

namespace NapiVm

/-- Both parts of what succeeds succeed. -/
theorem ok_of_bind {ε α β : Type} {r : Except ε α} {next : α → Except ε β} {b : β}
    (h : r >>= next = .ok b) : ∃ a, r = .ok a ∧ next a = .ok b := by
  cases r with
  | error e => cases h
  | ok a => exact ⟨a, rfl, h⟩

end NapiVm
