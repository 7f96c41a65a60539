import NapiVm.Text.JsString
import Mathlib.Data.List.Induction

/-!
# Where a string may be cut

* `decodeUtf16_append` — a cut that no surrogate pair lies across keeps the scalars.
* `decodeUtf16_append_iff` — no other cut does.
* `exists_split` — there is a cut after any number of scalars.
-/

namespace NapiVm.JsString

/-- A surrogate pair lies across the cut. -/
def Across (front back : List UInt16) : Prop :=
  front.getLast?.any isHigh = true ∧ back.head?.any isLow = true

instance (front back : List UInt16) : Decidable (Across front back) :=
  inferInstanceAs (Decidable (_ ∧ _))

/-- What a unit stands for by itself. -/
def single (u : UInt16) : Except UInt16 Char :=
  if isHigh u || isLow u then .error u else .ok (Char.ofNat u.toNat)

variable {u : UInt16} {front back : List UInt16}

theorem not_isLow_of_isHigh (h : isHigh u = true) : isLow u = false := by
  simp only [isHigh, Bool.and_eq_true, decide_eq_true_eq] at h
  simp only [isLow, Bool.and_eq_false_iff, decide_eq_false_iff_not]
  omega

theorem decodeUtf16_pair {l : UInt16} (hu : isHigh u = true) (hl : isLow l = true)
    (rest : List UInt16) :
    decodeUtf16 (u :: l :: rest) = .ok (pairScalar u l) :: decodeUtf16 rest := by
  rw [decodeUtf16, if_pos hu, if_pos hl]

/-- A unit that makes no pair with the next. -/
theorem decodeUtf16_single {rest : List UInt16} (h : ¬ Across [u] rest) :
    decodeUtf16 (u :: rest) = single u :: decodeUtf16 rest := by
  cases rest with
  | nil =>
    rw [decodeUtf16, single, decodeUtf16]
    split <;> rfl
  | cons l rest =>
    have hpair : ¬ (isHigh u = true ∧ isLow l = true) := h
    rw [decodeUtf16, single]
    cases hu : isHigh u with
    | true =>
      rw [if_pos rfl, if_neg fun hl => hpair ⟨hu, hl⟩]
      rfl
    | false =>
      rw [if_neg Bool.false_ne_true, Bool.false_or]
      split <;> rfl

/-- A longer front ends as the shorter one does. -/
theorem Across.cons (h : Across front back) : Across (u :: front) back := by
  cases front with
  | nil => cases h.1
  | cons l front => exact h

theorem decodeUtf16_append : ∀ {front back : List UInt16}, ¬ Across front back →
    decodeUtf16 (front ++ back) = decodeUtf16 front ++ decodeUtf16 back
  | [], _, _ => rfl
  | [u], back, h => by
      have halone : decodeUtf16 [u] = [single u] := decodeUtf16_single fun hpair => by cases hpair.2
      rw [List.singleton_append, decodeUtf16_single h, halone]
      rfl
  | u :: l :: front, back, h => by
      by_cases hpair : isHigh u = true ∧ isLow l = true
      · have hback : ¬ Across front back := fun hacross => h hacross.cons.cons
        rw [List.cons_append, List.cons_append, decodeUtf16_pair hpair.1 hpair.2,
          decodeUtf16_pair hpair.1 hpair.2, decodeUtf16_append hback]
        rfl
      · have halone : ¬ Across [u] (l :: front) := hpair
        have hsingle : ¬ Across [u] (l :: front ++ back) := hpair
        have hback : ¬ Across (l :: front) back := h
        rw [List.cons_append, decodeUtf16_single hsingle, decodeUtf16_single halone,
          decodeUtf16_append hback]
        rfl

theorem decodeUtf16_append_iff :
    decodeUtf16 (front ++ back) = decodeUtf16 front ++ decodeUtf16 back ↔ ¬ Across front back := by
  refine ⟨fun heq hacross => ?_, decodeUtf16_append⟩
  obtain ⟨hhigh, hlow⟩ := hacross
  obtain ⟨front, high, rfl⟩ : ∃ rest u, front = rest ++ [u] := by
    cases front using List.reverseRecOn with
    | nil => cases hhigh
    | append_singleton rest u => exact ⟨rest, u, rfl⟩
  obtain ⟨low, back, rfl⟩ : ∃ u rest, back = u :: rest := by
    cases back with
    | nil => cases hlow
    | cons u rest => exact ⟨u, rest, rfl⟩
  rw [List.getLast?_concat, Option.any_some] at hhigh
  rw [List.head?_cons, Option.any_some] at hlow
  -- before the pair nothing changes: a high surrogate ends no other pair
  have hfront (rest : List UInt16) : ¬ Across front (high :: rest) := fun h => by
    have hboth := h.2
    rw [List.head?_cons, Option.any_some, not_isLow_of_isHigh hhigh] at hboth
    cases hboth
  have halone : decodeUtf16 [high] = [.error high] := by
    rw [decodeUtf16, hhigh, Bool.true_or, if_pos rfl]
  rw [List.append_assoc, decodeUtf16_append (hfront []), List.append_assoc,
    List.singleton_append, decodeUtf16_append (hfront _), decodeUtf16_pair hhigh hlow, halone] at heq
  cases List.append_cancel_left heq

theorem exists_split : ∀ (string : List UInt16) (m : Nat), ∃ front back,
    string = front ++ back ∧ ¬ Across front back ∧ decodeUtf16 front = (decodeUtf16 string).take m
  | string, 0 => ⟨[], string, rfl, fun h => by (cases h.1), rfl⟩
  | [], m + 1 => ⟨[], [], rfl, fun h => by (cases h.1), rfl⟩
  | [u], m + 1 => by
      refine ⟨[u], [], rfl, fun h => by (cases h.2), ?_⟩
      rw [List.take_of_length_le]
      rw [decodeUtf16_single fun h => by (cases h.2)]
      exact Nat.succ_le_succ (Nat.zero_le m)
  | u :: l :: rest, m + 1 => by
      by_cases hpair : isHigh u = true ∧ isLow l = true
      · obtain ⟨front, back, hrest, hsplit, hfront⟩ := exists_split rest m
        refine ⟨u :: l :: front, back, by rw [hrest]; rfl, ?_, ?_⟩
        · intro hacross
          cases front with
          | nil =>
            have hhigh : isHigh l = true := hacross.1
            have hlow := not_isLow_of_isHigh hhigh
            rw [hpair.2] at hlow
            cases hlow
          | cons v front => exact hsplit hacross
        · rw [decodeUtf16_pair hpair.1 hpair.2, decodeUtf16_pair hpair.1 hpair.2,
            List.take_succ_cons, hfront]
      · obtain ⟨front, back, hrest, hsplit, hfront⟩ := exists_split (l :: rest) m
        refine ⟨u :: front, back, by rw [hrest]; rfl, ?_, ?_⟩
        · intro hacross
          cases front with
          | nil =>
            rw [List.nil_append] at hrest
            rw [← hrest] at hacross
            exact hpair hacross
          | cons v front => exact hsplit hacross
        · have hsingle : ¬ Across [u] front := by
            intro hacross
            cases front with
            | nil => cases hacross.2
            | cons v front =>
              obtain ⟨rfl, -⟩ := List.cons.inj hrest
              exact hpair hacross
          have halone : ¬ Across [u] (l :: rest) := hpair
          rw [decodeUtf16_single hsingle, decodeUtf16_single halone, List.take_succ_cons, hfront]

end NapiVm.JsString
