import Mathlib.Data.List.Induction

/-!
# Cutting what is written for a list

A writer gives output for each element of a list.  A cut of the output is clean
when it is the output for a prefix of the list.

* `flatMap_cut_iff` — when an element's output begins with a mark found nowhere else in it,
  the clean cuts are those before a mark.
* `exists_cut` — when no element gives more than one thing, every cut is clean.
-/

namespace Cut

variable {α β : Type}

section Marked

variable {f : α → List β} {mark : β → Prop}

/-- Every output begins with a mark and has no other. -/
def Marked (f : α → List β) (mark : β → Prop) : Prop :=
  ∀ a, ∃ b rest, f a = b :: rest ∧ mark b ∧ ∀ c ∈ rest, ¬ mark c

theorem flatMap_cut_iff (hmarked : Marked f mark) (xs : List α) (n : Nat) :
    (∃ m, (xs.take m).flatMap f = (xs.flatMap f).take n) ↔
      ∀ b, (xs.flatMap f)[n]? = some b → mark b := by
  induction xs generalizing n with
  | nil =>
    refine ⟨fun _ b hb => ?_, fun _ => ⟨0, ?_⟩⟩
    · cases hb
    · rw [List.flatMap_nil, List.take_nil, List.take_nil, List.flatMap_nil]
  | cons a xs ih =>
    obtain ⟨b, rest, hfa, hb, hrest⟩ := hmarked a
    cases n with
    | zero =>
      refine ⟨fun _ c hc => ?_, fun _ => ⟨0, rfl⟩⟩
      rw [List.flatMap_cons, hfa] at hc
      cases hc
      exact hb
    | succ n =>
      rw [List.flatMap_cons, hfa, List.cons_append, List.getElem?_cons_succ, List.take_succ_cons]
      by_cases hn : n < rest.length
      · -- inside the output of `a` there is no mark, and no clean cut
        rw [List.getElem?_append_left hn, List.take_append_of_le_length (Nat.le_of_lt hn)]
        constructor
        · rintro ⟨m, hm⟩
          have hlength := congrArg List.length hm
          cases m with
          | zero => cases hm
          | succ m =>
            rw [List.take_succ_cons, List.flatMap_cons, hfa, List.length_append,
              List.length_cons, List.length_cons, List.length_take] at hlength
            omega
        · intro h
          have hmark := h _ (List.getElem?_eq_getElem hn)
          exact absurd hmark (hrest _ (List.getElem_mem hn))
      · have hle := Nat.le_of_not_lt hn
        have htake : (rest ++ xs.flatMap f).take n =
            rest ++ (xs.flatMap f).take (n - rest.length) := by
          rw [List.take_append, List.take_of_length_le hle]
        rw [List.getElem?_append_right hle, ← ih (n - rest.length), htake]
        constructor
        · rintro ⟨m, hm⟩
          cases m with
          | zero => cases hm
          | succ m =>
            refine ⟨m, ?_⟩
            rw [List.take_succ_cons, List.flatMap_cons, hfa, List.cons_append] at hm
            exact List.append_cancel_left (List.cons.inj hm).2
        · rintro ⟨m, hm⟩
          refine ⟨m + 1, ?_⟩
          rw [List.take_succ_cons, List.flatMap_cons, hfa, hm, List.cons_append]

end Marked

section Steps

variable {F : List α → List β}

/-- What is written only grows, and by one thing at most for each element. -/
theorem exists_cut (hnil : F [] = []) (hmono : ∀ l l', F l <+: F (l ++ l'))
    (hstep : ∀ l a, (F (l ++ [a])).length ≤ (F l).length + 1) (xs : List α) (n : Nat) :
    ∃ m, F (xs.take m) = (F xs).take n := by
  induction xs using List.reverseRecOn with
  | nil => exact ⟨0, by rw [List.take_nil, hnil, List.take_nil]⟩
  | append_singleton xs a ih =>
    by_cases hn : n ≤ (F xs).length
    · obtain ⟨m, hm⟩ := ih
      obtain ⟨more, hmore⟩ := hmono xs [a]
      refine ⟨min m xs.length, ?_⟩
      rw [List.take_append_of_le_length (Nat.min_le_right ..), List.take_eq_take_min.symm, hm,
        ← hmore, List.take_append_of_le_length hn]
    · refine ⟨(xs ++ [a]).length, ?_⟩
      have hlength := hstep xs a
      rw [List.take_length, List.take_of_length_le (by omega)]

end Steps

end Cut
