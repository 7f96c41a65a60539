import Mathlib.Data.List.Infix

/-!
# Scanning for patterns

A list is read from left to right.  At each place the longest pattern that starts there is
taken, and the scan goes on behind it; an element where none starts is kept.

* `Scan` — the scan, with what it makes of the list: `none` for a pattern, `some a` for an element.
* `Scan.not_infix` — no pattern is left in what was kept.
-/

namespace NapiVm

section Scan

variable {α : Type} {patterns : Set (List α)}

/-- The scan of a list. -/
inductive Scan (patterns : Set (List α)) : List α → List (Option α) → Prop
  | nil : Scan patterns [] []
  | found {s r : List α} {marks : List (Option α)} (mem : s ∈ patterns)
      (longest : ∀ t ∈ patterns, t <+: s ++ r → t.length ≤ s.length) (rest : Scan patterns r marks) :
      Scan patterns (s ++ r) (none :: marks)
  | kept {a : α} {r : List α} {marks : List (Option α)}
      (clear : ∀ t ∈ patterns, ¬ t <+: a :: r) (rest : Scan patterns r marks) :
      Scan patterns (a :: r) (some a :: marks)

namespace Scan

variable {l t : List α} {marks : List (Option α)}

/-- There is one scan of a list. -/
theorem unique (hne : [] ∉ patterns) {marks' : List (Option α)} (h : Scan patterns l marks)
    (h' : Scan patterns l marks') : marks = marks' := by
  induction h generalizing marks' with
  | nil =>
    generalize hl : ([] : List α) = l at h'
    cases h' with
    | nil => rfl
    | found mem _ _ => exact absurd ((List.append_eq_nil_iff.1 hl.symm).1 ▸ mem) hne
    | kept _ _ => cases hl
  | @found s r marks mem longest rest ih =>
    generalize hl : s ++ r = l at h'
    cases h' with
    | nil => exact absurd ((List.append_eq_nil_iff.1 hl).1 ▸ mem) hne
    | @found s' r' marks' mem' longest' rest' =>
      -- either is a longest pattern at the start of the list
      have hle : s'.length ≤ s.length := longest s' mem' (hl ▸ List.prefix_append s' r')
      have hge : s.length ≤ s'.length := longest' s mem (hl ▸ List.prefix_append s r)
      obtain ⟨rfl, rfl⟩ := List.append_inj hl (le_antisymm hge hle)
      rw [ih rest']
    | kept clear _ => exact absurd (hl ▸ List.prefix_append s r) (clear s mem)
  | @kept a r marks clear rest ih =>
    generalize hl : a :: r = l at h'
    cases h' with
    | nil => cases hl
    | @found s' r' _ mem _ _ => exact absurd (hl ▸ List.prefix_append s' r') (clear s' mem)
    | kept _ rest' =>
      cases hl
      rw [ih rest']

theorem prefix_of_kept (h : Scan patterns l marks) (ht : t.map some <+: marks) : t <+: l := by
  induction h generalizing t with
  | nil =>
    rw [List.prefix_nil, List.map_eq_nil_iff] at ht
    rw [ht]
  | found _ _ _ _ =>
    cases t with
    | nil => exact List.nil_prefix
    | cons b t => cases (List.cons_prefix_cons.1 ht).1
  | kept _ _ ih =>
    cases t with
    | nil => exact List.nil_prefix
    | cons b t =>
      obtain ⟨hb, hrest⟩ := List.cons_prefix_cons.1 ht
      exact List.cons_prefix_cons.2 ⟨Option.some.inj hb, ih hrest⟩

/-- No pattern is left among the elements that are kept. -/
theorem not_infix (hne : [] ∉ patterns) (h : Scan patterns l marks) (ht : t ∈ patterns) :
    ¬ t.map some <:+: marks := by
  have hnil : t.map some ≠ [] := fun hmap => hne (List.map_eq_nil_iff.1 hmap ▸ ht)
  induction h with
  | nil => exact fun hin => hnil (List.infix_nil.1 hin)
  | found _ _ _ ih =>
    intro hin
    rcases List.infix_cons_iff.1 hin with hstart | hin
    · cases t with
      | nil => exact hnil rfl
      | cons b t => cases (List.cons_prefix_cons.1 hstart).1
    · exact ih hin
  | kept clear rest ih =>
    intro hin
    rcases List.infix_cons_iff.1 hin with hstart | hin
    · exact clear t ht (prefix_of_kept (kept clear rest) hstart)
    · exact ih hin

end Scan

end Scan

end NapiVm
