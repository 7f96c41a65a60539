import NapiVm.Lib.Replace

/-!
# Templates

Lists with blanks, all of which stand for one and the same list.  Replacing a pattern in a filled
template is the same as replacing it in the template, as long as the pattern is not found where it
would take a part of what has been filled in.

* `fill` — puts a list into the blanks.
* `Intact` — a pattern is found outside the blanks only.
* `Unmistakable` — what has been filled in begins nowhere else.
-/

namespace NapiVm

open List

section Template

variable {α : Type}

/-- A list with blanks. -/
abbrev Template (α : Type) := List (Option α)

/-- The template of a list, without blanks. -/
def plain (l : List α) : Template α := l.map some

/-- Puts a list into the blanks. -/
def fill (t : List α) : Template α → List α
  | [] => []
  | some a :: w => a :: fill t w
  | none :: w => t ++ fill t w

/-- The pattern `s` is found outside the blanks only. -/
def Intact (t s : List α) (w : Template α) : Prop :=
  ∀ x y, fill t w = x ++ (s ++ y) → ∃ u v, w = u ++ (plain s ++ v) ∧ fill t u = x ∧ fill t v = y

/-- What has been filled in begins nowhere outside the blanks. -/
def Unmistakable (t : List α) (w : Template α) : Prop :=
  ∀ u a v, w = u ++ some a :: v → ¬ t <+: a :: fill t v

variable {t s : List α} {w : Template α}

attribute [local simp] fill in
@[simp] theorem fill_append (t : List α) (u v : Template α) :
    fill t (u ++ v) = fill t u ++ fill t v := by
  induction u with
  | nil => rfl
  | cons o u ih =>
    cases o with
    | some a => exact congrArg (a :: ·) ih
    | none => exact (congrArg (t ++ ·) ih).trans (append_assoc _ _ _).symm

@[simp] theorem fill_plain (t l : List α) : fill t (plain l) = l := by
  induction l with
  | nil => rfl
  | cons a l ih => exact congrArg (a :: ·) ih

theorem fill_eq_nil (ht : t ≠ []) (h : fill t w = []) : w = [] := by
  match w with
  | [] => rfl
  | some a :: w => cases h
  | none :: w => exact absurd (append_eq_nil_iff.1 h).1 ht

/-! ## A pattern outside the blanks -/

theorem Intact.suffix (ht : t ≠ []) {p r : Template α} (h : Intact t s (p ++ r)) :
    Intact t s r := by
  intro x y hr
  have hfill : fill t (p ++ r) = (fill t p ++ x) ++ (s ++ y) := by
    rw [fill_append, hr, append_assoc]
  obtain ⟨u, v, hw, hu, hv⟩ := h _ y hfill
  -- the occurrence is behind `p`, since nothing but nothing fills to nothing
  rcases append_eq_append_iff.1 hw with ⟨d, rfl, hrest⟩ | ⟨d, rfl, hrest⟩
  · rw [fill_append, append_cancel_left_eq] at hu
    exact ⟨d, v, hrest, hu, hv⟩
  · have hboth : fill t d ++ x = [] := by
      rw [fill_append, append_assoc] at hu
      exact self_eq_append_right.1 hu
    obtain ⟨hd, rfl⟩ := append_eq_nil_iff.1 hboth
    rw [fill_eq_nil ht hd, nil_append] at hrest
    exact ⟨[], v, hrest.symm, rfl, hv⟩

/-- Where the pattern is found, it is found in the template. -/
theorem Intact.starts (ht : t ≠ []) (h : Intact t s w) (hstarts : s <+: fill t w) :
    plain s <+: w := by
  obtain ⟨y, hy⟩ := hstarts
  obtain ⟨u, v, hw, hu, -⟩ := h [] y hy.symm
  rw [fill_eq_nil ht hu] at hw
  exact ⟨v, hw.symm⟩

/-- The pattern does not begin within a blank. -/
theorem Intact.clear (hs : s ≠ []) {w : Template α}
    (h : Intact t s (none :: w)) : Clear [s] t (fill t w) := by
  intro s' hs' p q hpq hq hstarts
  rw [mem_singleton.1 hs'] at hstarts
  obtain ⟨y, hy⟩ := hstarts
  have hfill : fill t (none :: w) = p ++ (s ++ y) := by
    rw [hy, ← append_assoc, ← hpq]
    rfl
  obtain ⟨u, v, hw, hu, -⟩ := h p y hfill
  cases u with
  | nil =>
    obtain ⟨a, s, rfl⟩ := exists_cons_of_ne_nil hs
    cases hw
  | cons o u =>
    obtain rfl := (cons.inj hw).1
    have hlength := congrArg length hu
    have htlength := congrArg length hpq
    have hpos := length_pos_iff.2 hq
    rw [fill, length_append] at hlength
    rw [length_append] at htlength
    omega

variable [DecidableEq α] (mark : List α)

/-- A pattern that is found outside the blanks only can be replaced in the template. -/
theorem replaceAll_fill (ht : t ≠ []) (hs : s ≠ []) (h : Intact t s w) :
    replaceAll mark s (fill t w) = fill t (replaceAll (plain mark) (plain s) w) := by
  have hplain : plain s ≠ [] := fun hnil => hs (map_eq_nil_iff.1 hnil)
  induction w using replace_induction (plain s) hplain with
  | nil => rfl
  | found r ih =>
    rw [fill_append, fill_plain, replaceAll_match hs, replaceAll_match hplain, fill_append,
      fill_plain, ih (h.suffix ht)]
  | cons o r hstarts ih =>
    have hrest : Intact t s r := Intact.suffix ht (p := [o]) h
    rw [replaceAll_cons hstarts]
    cases o with
    | some a =>
      rw [fill, replaceAll_cons fun hin => hstarts (h.starts ht hin), ih hrest, fill]
    | none => rw [fill, replaceAll_clear (h.clear hs), ih hrest, fill]

/-- What has been filled in is replaced. -/
theorem replaceAll_blank (ht : t ≠ []) (h : Unmistakable t w) :
    replaceAll mark t (fill t w) = fill mark w := by
  induction w with
  | nil => rfl
  | cons o w ih =>
    have hrest : Unmistakable t w := fun u a v hw => h (o :: u) a v (by rw [hw]; rfl)
    cases o with
    | some a => rw [fill, replaceAll_cons (h [] a w rfl), ih hrest, fill]
    | none => rw [fill, replaceAll_match ht, ih hrest, fill]

/-! ## Patterns that have nothing in common with what is filled in -/

omit [DecidableEq α] in
theorem prefix_of_disjoint (ht : t ≠ []) (h : ∀ a ∈ s, a ∉ t) (hstarts : s <+: fill t w) :
    plain s <+: w := by
  induction s generalizing w with
  | nil => exact List.nil_prefix
  | cons a s ih =>
    obtain ⟨ha, hs⟩ := forall_mem_cons.1 h
    match w, hstarts with
    | [], hstarts => cases prefix_nil.1 hstarts
    | some b :: w, hstarts =>
      obtain ⟨rfl, hrest⟩ := cons_prefix_cons.1 hstarts
      exact cons_prefix_cons.2 ⟨rfl, ih hs hrest⟩
    | none :: w, hstarts =>
      obtain ⟨b, t, rfl⟩ := exists_cons_of_ne_nil ht
      rw [fill, cons_append] at hstarts
      exact absurd (mem_cons.2 (.inl (cons_prefix_cons.1 hstarts).1)) ha

omit [DecidableEq α] in
/-- A pattern without an element of what is filled in. -/
theorem intact_of_disjoint (ht : t ≠ []) (hs : s ≠ []) (h : ∀ a ∈ s, a ∉ t) : Intact t s w := by
  induction w with
  | nil =>
    intro x y hfill
    exact absurd (append_eq_nil_iff.1 (append_eq_nil_iff.1 hfill.symm).2).1 hs
  | cons o w ih =>
    intro x y hfill
    by_cases hx : x = []
    · obtain ⟨v, hv⟩ := prefix_of_disjoint ht h ⟨y, (by rw [hfill, hx]; rfl)⟩
      have hy : fill t v = y := by
        rw [← hv, hx, fill_append, fill_plain, nil_append, append_cancel_left_eq] at hfill
        exact hfill
      exact ⟨[], v, hv.symm, hx.symm, hy⟩
    · cases o with
      | some a =>
        obtain ⟨b, x, rfl⟩ := exists_cons_of_ne_nil hx
        obtain ⟨rfl, hrest⟩ := cons.inj hfill
        obtain ⟨u, v, rfl, hu, hv⟩ := ih x y hrest
        exact ⟨some a :: u, v, rfl, congrArg (a :: ·) hu, hv⟩
      | none =>
        rcases append_eq_append_iff.1 hfill with ⟨x', rfl, hrest⟩ | ⟨q, ht', hrest⟩
        · obtain ⟨u, v, rfl, hu, hv⟩ := ih x' y hrest
          exact ⟨none :: u, v, rfl, congrArg (t ++ ·) hu, hv⟩
        · by_cases hq : q = []
          · rw [hq, append_nil] at ht'
            rw [hq, nil_append] at hrest
            obtain ⟨u, v, rfl, hu, hv⟩ := ih [] y hrest.symm
            exact ⟨none :: u, v, rfl, by rw [fill, hu, append_nil, ht'], hv⟩
          · -- the pattern would begin with an element of what is filled in
            obtain ⟨b, q, rfl⟩ := exists_cons_of_ne_nil hq
            obtain ⟨a, s, rfl⟩ := exists_cons_of_ne_nil hs
            obtain ⟨rfl, -⟩ := cons.inj hrest
            refine absurd ?_ (h a mem_cons_self)
            rw [ht']
            exact mem_append_right x mem_cons_self

end Template

end NapiVm
