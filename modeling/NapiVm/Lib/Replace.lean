import Mathlib.Data.List.Infix

/-!
# Replacing a pattern

Every occurrence of a pattern in a list is replaced by a mark, from left to right, and what has
been replaced is not looked at again.

* `replaceAll` — the replacement.
* `Apart` — no occurrence of the pattern overlaps a mark, and none is made by putting marks in.
* `replaceEach` — several patterns, one after the other.
* `Ordered` — no pattern ends in the middle of one that comes before it: then, and only then, a
  list can be replaced piece by piece.
-/

namespace NapiVm

open List

section Replace

variable {α : Type} [DecidableEq α] (mark pattern : List α)

/-- The replacement, after some elements that have been replaced already. -/
def replaceGo : Nat → List α → List α
  | _, [] => []
  | k + 1, _ :: rest => replaceGo k rest
  | 0, a :: rest =>
    if pattern.isPrefixOf (a :: rest) then mark ++ replaceGo (pattern.length - 1) rest
    else a :: replaceGo 0 rest

def replaceAll (l : List α) : List α := replaceGo mark pattern 0 l

/-- The pattern and the mark have nothing to do with each other. -/
structure Apart (mark pattern : List α) : Prop where
  notIn : ¬ pattern <:+: mark
  notAround : ¬ mark <:+: pattern
  notBefore : ∀ v w, pattern = v ++ w → v ≠ [] → w ≠ [] → ¬ w <+: mark
  notBehind : ∀ v w, pattern = v ++ w → v ≠ [] → w ≠ [] → ¬ v <:+ mark

variable {mark pattern}

/-! ## Unfolding -/

@[simp] theorem replaceAll_nil : replaceAll mark pattern [] = [] := rfl

theorem replaceGo_drop (k : Nat) (l : List α) :
    replaceGo mark pattern k l = replaceAll mark pattern (l.drop k) := by
  induction l generalizing k with
  | nil => cases k <;> rfl
  | cons a rest ih =>
    cases k with
    | zero => rfl
    | succ k => exact ih k

theorem replaceAll_match (hne : pattern ≠ []) (r : List α) :
    replaceAll mark pattern (pattern ++ r) = mark ++ replaceAll mark pattern r := by
  obtain ⟨a, rest, rfl⟩ := exists_cons_of_ne_nil hne
  have hstarts : (a :: rest).isPrefixOf (a :: (rest ++ r)) = true :=
    isPrefixOf_iff_prefix.2 (prefix_append (a :: rest) r)
  rw [cons_append, replaceAll, replaceGo, if_pos hstarts, replaceGo_drop]
  simp

theorem replaceAll_self (hne : pattern ≠ []) : replaceAll mark pattern pattern = mark := by
  have hmatch : replaceAll mark pattern (pattern ++ []) = mark ++ replaceAll mark pattern [] :=
    replaceAll_match hne []
  rwa [append_nil, replaceAll_nil, append_nil] at hmatch

theorem replaceAll_cons {a : α} {r : List α} (h : ¬ pattern <+: a :: r) :
    replaceAll mark pattern (a :: r) = a :: replaceAll mark pattern r := by
  rw [replaceAll, replaceGo, if_neg fun hstarts => h (List.isPrefixOf_iff_prefix.1 hstarts)]
  rfl

/-- Induction along the replacement. -/
@[elab_as_elim]
theorem replace_induction {motive : List α → Prop} (pattern : List α) (hne : pattern ≠ [])
    (nil : motive []) (found : ∀ r, motive r → motive (pattern ++ r))
    (cons : ∀ a r, ¬ pattern <+: a :: r → motive r → motive (a :: r)) (l : List α) : motive l := by
  induction hn : l.length using Nat.strong_induction_on generalizing l with
  | _ n ih =>
    by_cases hstarts : pattern <+: l
    · obtain ⟨r, rfl⟩ := hstarts
      have hpos := length_pos_iff.2 hne
      rw [length_append] at hn
      exact found r (ih r.length (by omega) r rfl)
    · cases l with
      | nil => exact nil
      | cons a r =>
        rw [length_cons] at hn
        exact cons a r hstarts (ih r.length (by omega) r rfl)

/-- Without an occurrence there is nothing to replace. -/
theorem replaceAll_eq_self {l : List α} (h : ¬ pattern <:+: l) : replaceAll mark pattern l = l := by
  induction l with
  | nil => rfl
  | cons a r ih =>
    rw [replaceAll_cons fun hstarts => h hstarts.isInfix,
      ih fun hwhole => h (hwhole.trans (suffix_cons a r).isInfix)]

variable (mark) in
/-- Either nothing has been replaced, or there is a mark. -/
theorem replaceAll_eq_or (hne : pattern ≠ []) (l : List α) :
    replaceAll mark pattern l = l ∨ ∃ u v, replaceAll mark pattern l = u ++ mark ++ v := by
  induction l using replace_induction pattern hne with
  | nil => exact .inl rfl
  | found r _ => exact .inr ⟨[], replaceAll mark pattern r, replaceAll_match hne r⟩
  | cons a r hstarts ih =>
    rw [replaceAll_cons hstarts]
    rcases ih with ih | ⟨u, v, ih⟩
    · exact .inl (by rw [ih])
    · exact .inr ⟨a :: u, v, by rw [ih]; rfl⟩

/-- A pattern of one element is replaced element by element. -/
theorem replaceAll_singleton_append (a : α) (x y : List α) :
    replaceAll mark [a] (x ++ y) = replaceAll mark [a] x ++ replaceAll mark [a] y := by
  induction x with
  | nil => rfl
  | cons b rest ih =>
    by_cases hab : a = b
    · subst hab
      have hmatch : ∀ r, replaceAll mark [a] (a :: r) = mark ++ replaceAll mark [a] r :=
        fun r => replaceAll_match (cons_ne_nil a []) r
      rw [cons_append, hmatch, hmatch, ih, append_assoc]
    · have hstarts : ∀ r, ¬ [a] <+: b :: r := by
        intro r h
        exact hab (cons_prefix_cons.1 h).1
      rw [cons_append, replaceAll_cons (hstarts _), replaceAll_cons (hstarts _), ih]
      rfl

/-! ## Where an occurrence can be -/

variable {s : List α}

omit [DecidableEq α] in
theorem prefix_append_cases {x y : List α} (h : s <+: x ++ y) :
    s <+: x ∨ ∃ w, s = x ++ w ∧ w ≠ [] ∧ w <+: y := by
  obtain ⟨z, hz⟩ := h
  rcases append_eq_append_iff.1 hz with ⟨w, hx, -⟩ | ⟨w, rfl, hy⟩
  · exact .inl ⟨w, hx.symm⟩
  · by_cases hw : w = []
    · subst hw
      exact .inl (by rw [append_nil])
    · exact .inr ⟨w, rfl, hw, z, hy.symm⟩

omit [DecidableEq α] in
theorem suffix_append_cases {x y : List α} (h : s <:+ x ++ y) :
    s <:+ y ∨ ∃ w, s = w ++ y ∧ w ≠ [] ∧ w <:+ x := by
  obtain ⟨z, hz⟩ := h
  rcases append_eq_append_iff.1 hz with ⟨w, hx, rfl⟩ | ⟨w, -, hy⟩
  · by_cases hw : w = []
    · subst hw
      exact .inl (by rw [nil_append])
    · exact .inr ⟨w, rfl, hw, z, hx.symm⟩
  · exact .inl ⟨w, hy.symm⟩

namespace Apart

omit [DecidableEq α]

theorem ne_nil (h : Apart mark s) : s ≠ [] := by
  rintro rfl
  exact h.notIn List.nil_infix

/-- Where a mark begins, or is under way, the pattern does not. -/
theorem not_prefix (h : Apart mark s) {m : List α} (hm : m <:+ mark) (hne : m ≠ [])
    (v : List α) : ¬ s <+: m ++ v := by
  intro hstarts
  rcases prefix_append_cases hstarts with hin | ⟨w, rfl, hw, -⟩
  · exact h.notIn (hin.isInfix.trans hm.isInfix)
  · exact h.notBehind m w rfl hne hw hm

/-- What is left of the pattern does not go on with a mark. -/
theorem rest_eq_nil (h : Apart mark s) {v t : List α} (hs : s = v ++ t) (hv : v ≠ [])
    {z : List α} (ht : t <+: mark ++ z) : t = [] := by
  by_contra hne
  rcases prefix_append_cases ht with hin | ⟨w, rfl, -, -⟩
  · exact h.notBefore v t hs hv hne hin
  · refine h.notAround ⟨v, w, ?_⟩
    rw [hs, append_assoc]

/-- An occurrence beside a mark is on one side of it. -/
theorem infix_or (h : Apart mark s) {u v : List α} (hin : s <:+: u ++ (mark ++ v)) :
    s <:+: u ∨ s <:+: v := by
  rcases infix_append_iff_ne_nil.1 hin with hu | hmv | ⟨l, r, hl, hr, hs, -, hrp⟩
  · exact .inl hu
  · rcases infix_append_iff_ne_nil.1 hmv with hm | hv | ⟨l, r, hl, hr, hs, hlm, -⟩
    · exact absurd hm h.notIn
    · exact .inr hv
    · exact absurd hlm (h.notBehind l r hs hl hr)
  · exact absurd (h.rest_eq_nil hs hl hrp) hr

end Apart

section

variable (h : Apart mark s)

include h

/-- A mark, whole or not, is left as it is. -/
theorem replaceAll_mark {m : List α} (hm : m <:+ mark) (v : List α) :
    replaceAll mark s (m ++ v) = m ++ replaceAll mark s v := by
  induction m with
  | nil => rfl
  | cons a rest ih =>
    have hstarts := h.not_prefix hm (cons_ne_nil _ _) v
    rw [cons_append] at hstarts ⊢
    rw [replaceAll_cons hstarts, ih ((suffix_cons a rest).trans hm)]
    rfl

/-- The two sides of a mark are replaced on their own. -/
theorem replaceAll_split (u v : List α) : replaceAll mark s (u ++ (mark ++ v)) =
      replaceAll mark s u ++ (mark ++ replaceAll mark s v) := by
  have hne := h.ne_nil
  induction u using replace_induction s hne with
  | nil => exact replaceAll_mark h (suffix_refl _) v
  | found r ih =>
    rw [append_assoc, replaceAll_match hne, ih, replaceAll_match hne, append_assoc]
  | cons a r hstarts ih =>
    have hlonger : ¬ s <+: a :: (r ++ (mark ++ v)) := by
      intro hlong
      rcases prefix_append_cases (x := a :: r) hlong with hin | ⟨w, hs, hw, hwp⟩
      · exact hstarts hin
      · exact hw (h.rest_eq_nil hs (cons_ne_nil _ _) hwp)
    rw [cons_append, replaceAll_cons hlonger, ih, replaceAll_cons hstarts]
    rfl

/-- The rest of a pattern that goes on with what another replacement has left was there before. -/
theorem prefix_of_replaceAll {v t : List α} (hs : s = v ++ t) (hv : v ≠ []) (hne : pattern ≠ [])
    {l z : List α} (ht : t <+: replaceAll mark pattern l ++ z) : t <+: l ++ z := by
  induction l using replace_induction pattern hne generalizing v t with
  | nil => exact ht
  | found r _ =>
    rw [replaceAll_match hne, append_assoc] at ht
    rw [h.rest_eq_nil hs hv ht]
    exact nil_prefix
  | cons a r hstarts ih =>
    rw [replaceAll_cons hstarts, cons_append] at ht
    cases t with
    | nil => exact nil_prefix
    | cons b rest =>
      obtain ⟨rfl, hrest⟩ := cons_prefix_cons.1 ht
      exact cons_prefix_cons.2 ⟨rfl, ih (v := v ++ [b]) (by simp [hs]) (by simp) hrest⟩

theorem prefix_of_cons_replaceAll (hne : pattern ≠ []) {a : α} {l : List α}
    (hp : s <+: a :: replaceAll mark pattern l) : s <+: a :: l := by
  obtain ⟨b, t, rfl⟩ := exists_cons_of_ne_nil h.ne_nil
  obtain ⟨rfl, ht⟩ := cons_prefix_cons.1 hp
  have hrest : t <+: l ++ [] := prefix_of_replaceAll h (v := [b]) rfl (by simp) hne
    (by rwa [append_nil])
  rw [append_nil] at hrest
  exact cons_prefix_cons.2 ⟨rfl, hrest⟩

/-- A replacement makes no occurrence. -/
theorem infix_of_replaceAll (hne : pattern ≠ []) {l : List α}
    (hin : s <:+: replaceAll mark pattern l) : s <:+: l := by
  induction l using replace_induction pattern hne with
  | nil => exact hin
  | found r ih =>
    rw [replaceAll_match hne] at hin
    rcases h.infix_or (u := []) hin with hnil | hr
    · exact absurd (infix_nil.1 hnil) h.ne_nil
    · exact (ih hr).trans (suffix_append pattern r).isInfix
  | cons a r hstarts ih =>
    rw [replaceAll_cons hstarts] at hin
    rcases infix_cons_iff.1 hin with hfirst | hr
    · exact (prefix_of_cons_replaceAll h hne hfirst).isInfix
    · exact (ih hr).trans (suffix_cons a r).isInfix

/-- Nothing is left of the pattern. -/
theorem not_infix_replaceAll (l : List α) : ¬ s <:+: replaceAll mark s l := by
  have hne := h.ne_nil
  induction l using replace_induction s hne with
  | nil => exact fun hin => hne (infix_nil.1 hin)
  | found r ih =>
    rw [replaceAll_match hne]
    intro hin
    rcases h.infix_or (u := []) hin with hnil | hr
    · exact hne (infix_nil.1 hnil)
    · exact ih hr
  | cons a r hstarts ih =>
    rw [replaceAll_cons hstarts]
    intro hin
    rcases infix_cons_iff.1 hin with hfirst | hr
    · exact hstarts (prefix_of_cons_replaceAll h hne hfirst)
    · exact ih hr

end

/-! ## One element more -/

variable (mark) in
/-- One element more is either kept, or ends an occurrence. -/
theorem replaceAll_concat (hne : s ≠ []) (y : List α) (b : α) :
    replaceAll mark s (y ++ [b]) = replaceAll mark s y ++ [b] ∨
      ∃ t, y ++ [b] = t ++ s ∧ replaceAll mark s (y ++ [b]) = replaceAll mark s t ++ mark ∧
        replaceAll mark s y = replaceAll mark s t ++ s.dropLast := by
  induction y using replace_induction s hne with
  | nil =>
    by_cases hs : s = [b]
    · subst hs
      exact .inr ⟨[], rfl, replaceAll_self hne, rfl⟩
    · have hstarts : ¬ s <+: [b] := by
        intro h
        rcases prefix_cons_iff.1 h with rfl | ⟨t, rfl, ht⟩
        · exact hne rfl
        · rw [prefix_nil.1 ht] at hs
          exact hs rfl
      exact .inl (replaceAll_cons hstarts)
  | found r ih =>
    rw [append_assoc, replaceAll_match hne, replaceAll_match hne]
    rcases ih with ih | ⟨t, ht, hrun, hrun'⟩
    · exact .inl (by rw [ih, append_assoc])
    · refine .inr ⟨s ++ t, ?_, ?_, ?_⟩
      · rw [ht, append_assoc]
      · rw [hrun, replaceAll_match hne, append_assoc]
      · rw [hrun', replaceAll_match hne, append_assoc]
  | cons a r hstarts ih =>
    by_cases hlonger : s <+: a :: (r ++ [b])
    · -- the whole of it is the occurrence
      have hwhole : s <+: a :: r ++ [b] := hlonger
      have hs : s = a :: r ++ [b] := by
        rcases prefix_concat_iff.1 hwhole with hs | hin
        · exact hs
        · exact absurd hin hstarts
      have hshort : ¬ s <:+: a :: r := by
        intro hin
        have hlength := hin.length_le
        rw [hs, length_append, length_singleton] at hlength
        omega
      refine .inr ⟨[], hs.symm, ?_, ?_⟩
      · rw [← hs, replaceAll_self hne]
        rfl
      · rw [replaceAll_eq_self hshort, hs, dropLast_concat]
        rfl
    · rw [cons_append, replaceAll_cons hlonger, replaceAll_cons hstarts]
      rcases ih with ih | ⟨t, ht, hrun, hrun'⟩
      · exact .inl (by rw [ih]; rfl)
      · have hshort : ¬ s <+: a :: t := by
          intro hin
          have hwhole : a :: t <+: a :: r ++ [b] := ⟨s, by rw [cons_append, ← ht]; rfl⟩
          rcases prefix_concat_iff.1 hwhole with heq | hin'
          · have hlength := congrArg length heq
            have hlength' := congrArg length ht
            have hpos := length_pos_iff.2 hne
            simp only [length_cons, length_append, length_nil] at hlength hlength'
            omega
          · exact hstarts (hin.trans hin')
        refine .inr ⟨a :: t, by rw [ht]; rfl, ?_, ?_⟩
        · rw [hrun, replaceAll_cons hshort]
          rfl
        · rw [hrun', replaceAll_cons hshort]
          rfl

/-- Elements at the end are kept if no occurrence ends among them. -/
theorem replaceAll_append_kept (hne : s ≠ []) (x p : List α)
    (h : ∀ v, v <+: p → v ≠ [] → ¬ v <:+ s ∧ ¬ s <:+ v) :
    replaceAll mark s (x ++ p) = replaceAll mark s x ++ p := by
  induction p using reverseRecOn with
  | nil => rw [append_nil, append_nil]
  | append_singleton p b ih =>
    have hp := ih fun v hv => h v (hv.trans (prefix_append _ _))
    rw [← append_assoc]
    rcases replaceAll_concat mark hne (x ++ p) b with hkept | ⟨t, ht, -⟩
    · rw [hkept, hp, append_assoc]
    · have hends : s <:+ x ++ p ++ [b] := ⟨t, ht.symm⟩
      have hends' : p ++ [b] <:+ x ++ p ++ [b] := ⟨x, by rw [append_assoc]⟩
      obtain ⟨hnot, hnot'⟩ := h (p ++ [b]) (prefix_refl _) (by simp)
      rcases suffix_or_suffix_of_suffix hends hends' with hs | hs
      · exact absurd hs hnot'
      · exact absurd hs hnot

/-- The pattern but for its last element, at the end of what another replacement has left, was
there before. -/
theorem suffix_of_replaceAll (h : Apart mark s) {p : List α} {b : α} (hs : s = p ++ [b])
    (hne : pattern ≠ []) {l : List α} (hp : p <:+ replaceAll mark pattern l) : p <:+ l := by
  induction l using replace_induction pattern hne with
  | nil => exact hp
  | found r ih =>
    rw [replaceAll_match hne] at hp
    rcases suffix_append_cases hp with hr | ⟨w, rfl, hw, hwm⟩
    · exact (ih hr).trans (suffix_append _ _)
    · exact absurd hwm (h.notBehind w _ (by rw [hs, append_assoc]) hw (by simp))
  | cons a r hstarts ih =>
    rw [replaceAll_cons hstarts] at hp
    rcases suffix_cons_iff.1 hp with rfl | hr
    · rcases replaceAll_eq_or mark hne r with heq | ⟨u, v, heq⟩
      · rw [heq]
      · refine absurd ⟨a :: u, v ++ [b], ?_⟩ h.notAround
        rw [hs, heq]
        simp
    · exact (ih hr).trans (suffix_cons a r)

/-- The first occurrence is replaced. -/
theorem replaceAll_first (hne : s ≠ []) {l : List α} (hin : s <:+: l) :
    ∃ t r, l = t ++ s ++ r ∧ replaceAll mark s l = t ++ mark ++ replaceAll mark s r := by
  induction l using replace_induction s hne with
  | nil => exact absurd (infix_nil.1 hin) hne
  | found r _ =>
    exact ⟨[], r, rfl, by rw [replaceAll_match hne]; rfl⟩
  | cons a l hstarts ih =>
    rcases infix_cons_iff.1 hin with hfirst | hrest
    · exact absurd hfirst hstarts
    · obtain ⟨t, r, ht, hrun⟩ := ih hrest
      exact ⟨a :: t, r, by rw [ht]; rfl, by rw [replaceAll_cons hstarts, hrun]; rfl⟩

/-! ## Several patterns -/

variable (mark) in
/-- One pattern after the other. -/
def replaceEach (patterns : List (List α)) (l : List α) : List α :=
  patterns.foldl (fun l pattern => replaceAll mark pattern l) l

/-- An occurrence of `Q` can end in the middle of one of `P`. -/
def Unfinished (P Q : List α) : Prop :=
  ∃ v w, P = v ++ w ∧ v ≠ [] ∧ w ≠ [] ∧ (v <:+ Q ∨ Q <:+ v)

/-- No pattern ends in the middle of one that comes before it. -/
def Ordered (patterns : List (List α)) : Prop :=
  ∀ a P c, patterns = a ++ P :: c → ∀ Q ∈ c, Q ∉ a → Q ≠ P → ¬ Unfinished P Q

variable {patterns : List (List α)} {l : List α}

@[simp] theorem replaceEach_cons (s : List α) (patterns : List (List α)) (l : List α) :
    replaceEach mark (s :: patterns) l = replaceEach mark patterns (replaceAll mark s l) := rfl

theorem replaceEach_append (ps qs : List (List α)) (l : List α) :
    replaceEach mark (ps ++ qs) l = replaceEach mark qs (replaceEach mark ps l) :=
  foldl_append

theorem replaceEach_eq_self (h : ∀ s ∈ patterns, ¬ s <:+: l) : replaceEach mark patterns l = l := by
  induction patterns with
  | nil => rfl
  | cons s rest ih =>
    rw [replaceEach_cons, replaceAll_eq_self (h s mem_cons_self)]
    exact ih fun s' hs' => h s' (mem_cons_of_mem _ hs')

section Apart

variable (hapart : ∀ s ∈ patterns, Apart mark s)

include hapart

theorem replaceEach_split (u v : List α) : replaceEach mark patterns (u ++ (mark ++ v)) =
    replaceEach mark patterns u ++ (mark ++ replaceEach mark patterns v) := by
  induction patterns generalizing u v with
  | nil => rfl
  | cons s rest ih =>
    rw [replaceEach_cons, replaceAll_split (hapart s mem_cons_self)]
    exact ih (fun s' hs' => hapart s' (mem_cons_of_mem _ hs')) _ _

theorem replaceEach_mark (u : List α) :
    replaceEach mark patterns (u ++ mark) = replaceEach mark patterns u ++ mark := by
  have hnil : replaceEach mark patterns [] = [] :=
    replaceEach_eq_self fun s hs hin => (hapart s hs).ne_nil (infix_nil.1 hin)
  have hsplit := replaceEach_split hapart u []
  rwa [hnil, append_nil] at hsplit

theorem replaceEach_eq_or (l : List α) : replaceEach mark patterns l = l ∨
    ∃ u v, replaceEach mark patterns l = u ++ (mark ++ v) := by
  induction patterns generalizing l with
  | nil => exact .inl rfl
  | cons s rest ih =>
    have hrest : ∀ s' ∈ rest, Apart mark s' := fun s' hs' => hapart s' (mem_cons_of_mem _ hs')
    rw [replaceEach_cons]
    rcases replaceAll_eq_or mark (hapart s mem_cons_self).ne_nil l with heq | ⟨u, v, heq⟩
    · rw [heq]
      exact ih hrest l
    · rw [heq, append_assoc]
      exact .inr ⟨_, _, replaceEach_split hrest u v⟩

theorem replaceEach_ne_nil (hmark : mark ≠ []) (hl : l ≠ []) :
    replaceEach mark patterns l ≠ [] := by
  rcases replaceEach_eq_or hapart l with heq | ⟨u, v, heq⟩
  · rwa [heq]
  · rw [heq]
    simp [hmark]

/-- The replacements make no occurrence. -/
theorem infix_of_replaceEach {s : List α} (hs : Apart mark s)
    (hin : s <:+: replaceEach mark patterns l) : s <:+: l := by
  induction patterns generalizing l with
  | nil => exact hin
  | cons s' rest ih =>
    have hnext := ih (fun s' hs' => hapart s' (mem_cons_of_mem _ hs')) hin
    exact infix_of_replaceAll hs (hapart s' mem_cons_self).ne_nil hnext

/-- Nothing is left of the patterns. -/
theorem not_infix_replaceEach {s : List α} (hs : s ∈ patterns) :
    ¬ s <:+: replaceEach mark patterns l := by
  induction patterns generalizing l with
  | nil => cases hs
  | cons s' rest ih =>
    have hrest : ∀ s' ∈ rest, Apart mark s' := fun s' hs' => hapart s' (mem_cons_of_mem _ hs')
    rcases mem_cons.1 hs with rfl | hs
    · exact fun hin => not_infix_replaceAll (hapart s mem_cons_self) l
        (infix_of_replaceEach hrest (hapart s mem_cons_self) hin)
    · exact ih hrest hs

theorem replaceEach_idem (l : List α) :
    replaceEach mark patterns (replaceEach mark patterns l) = replaceEach mark patterns l :=
  replaceEach_eq_self fun _ hs => not_infix_replaceEach hapart hs

theorem suffix_of_replaceEach {s p : List α} {b : α} (hs : Apart mark s) (heq : s = p ++ [b])
    (hp : p <:+ replaceEach mark patterns l) : p <:+ l := by
  induction patterns generalizing l with
  | nil => exact hp
  | cons s' rest ih =>
    have hnext := ih (fun s' hs' => hapart s' (mem_cons_of_mem _ hs')) hp
    exact suffix_of_replaceAll hs heq (hapart s' mem_cons_self).ne_nil hnext

theorem prefix_of_replaceEach {s v t z : List α} (hs : Apart mark s) (heq : s = v ++ t)
    (hv : v ≠ []) (ht : t <+: replaceEach mark patterns l ++ z) : t <+: l ++ z := by
  induction patterns generalizing l with
  | nil => exact ht
  | cons s' rest ih =>
    have hnext := ih (fun s' hs' => hapart s' (mem_cons_of_mem _ hs')) ht
    exact prefix_of_replaceAll hs heq hv (hapart s' mem_cons_self).ne_nil hnext

end Apart

/-! ## A part that is done with -/

/-- No pattern begins in a part. -/
def Clear (patterns : List (List α)) (o z : List α) : Prop :=
  ∀ s ∈ patterns, ∀ o₁ o₂, o = o₁ ++ o₂ → o₂ ≠ [] → ¬ s <+: o₂ ++ z

variable {o z x : List α}

theorem replaceAll_clear (h : Clear [pattern] o z) :
    replaceAll mark pattern (o ++ z) = o ++ replaceAll mark pattern z := by
  induction o with
  | nil => rfl
  | cons a rest ih =>
    have hfirst := h pattern mem_cons_self [] (a :: rest) rfl (cons_ne_nil _ _)
    rw [cons_append] at hfirst ⊢
    rw [replaceAll_cons hfirst, ih]
    · rfl
    · intro s hs o₁ o₂ ho
      exact h s hs (a :: o₁) o₂ (by rw [ho]; rfl)

/-- It stays so when patterns are replaced behind it. -/
theorem Clear.replaceEach {ps : List (List α)} (hps : ∀ s ∈ ps, Apart mark s)
    (hapart : ∀ s ∈ patterns, Apart mark s) (h : Clear patterns o (x ++ z)) :
    Clear patterns o (replaceEach mark ps x ++ z) := by
  intro s hs o₁ o₂ ho hne hstarts
  rcases prefix_append_cases hstarts with hin | ⟨t, rfl, ht, htp⟩
  · exact h s hs o₁ o₂ ho hne (hin.trans (prefix_append _ _))
  · have hbefore := prefix_of_replaceEach hps (hapart _ hs) rfl hne htp
    exact h _ hs o₁ o₂ ho hne ((prefix_append_right_inj o₂).2 hbefore)

theorem replaceEach_clear (hapart : ∀ s ∈ patterns, Apart mark s) (h : Clear patterns o z) :
    replaceEach mark patterns (o ++ z) = o ++ replaceEach mark patterns z := by
  induction patterns generalizing z with
  | nil => rfl
  | cons s rest ih =>
    have hrest : ∀ s' ∈ rest, Apart mark s' := fun s' hs' => hapart s' (mem_cons_of_mem _ hs')
    have hclear : Clear [s] o z := by
      intro s' hs'
      exact h s' (mem_singleton.1 hs' ▸ mem_cons_self)
    rw [replaceEach_cons, replaceAll_clear hclear, ih hrest, replaceEach_cons]
    have hnext : Clear rest o (z ++ []) := by
      intro s' hs'
      rw [append_nil]
      exact h s' (mem_cons_of_mem _ hs')
    have hs : ∀ s' ∈ [s], Apart mark s' :=
      fun s' hs' => hapart s' (mem_singleton.1 hs' ▸ mem_cons_self)
    have hdone : Clear rest o (replaceEach mark [s] z ++ []) := hnext.replaceEach hs hrest
    rwa [append_nil] at hdone

omit [DecidableEq α] in
theorem Clear.append {e : List α} (he : Clear patterns e (o ++ z)) (ho : Clear patterns o z) :
    Clear patterns (e ++ o) z := by
  intro s hs o₁ o₂ hsplit hne hstarts
  rcases append_eq_append_iff.1 hsplit with ⟨w, -, hw⟩ | ⟨w, hw, rfl⟩
  · exact ho s hs w o₂ hw hne hstarts
  · by_cases hwne : w = []
    · subst hwne
      exact ho s hs [] o rfl hne hstarts
    · exact he s hs o₁ w hw hwne (by rwa [← append_assoc])

omit [DecidableEq α] in
/-- An occurrence is behind a part that is clear. -/
theorem Clear.behind {s : List α} (h : Clear patterns o z) (hs : s ∈ patterns) (hne : s ≠ [])
    (hin : s <:+: o ++ z) : s <:+: z := by
  rcases infix_append_iff_ne_nil.1 hin with ⟨a, b, ho⟩ | hz | ⟨l, r, hl, -, rfl, ⟨a, ho⟩, hr⟩
  · refine absurd ?_ (h s hs a (s ++ b) (by rw [← ho, append_assoc]) (by simp [hne]))
    rw [append_assoc]
    exact prefix_append _ _
  · exact hz
  · exact absurd ((prefix_append_right_inj l).2 hr) (h _ hs a l ho.symm hl)

omit [DecidableEq α] in
/-- What has been replaced is done with but for the length of a pattern. -/
theorem clear_of_not_infix {w : List α} (hnot : ∀ s ∈ patterns, ¬ s <:+: o ++ w)
    (hlength : o = [] ∨ ∀ s ∈ patterns, s.length ≤ w.length + 1) (z : List α) :
    Clear patterns o (w ++ z) := by
  intro s hs o₁ o₂ ho hne hstarts
  rcases hlength with rfl | hlength
  · exact hne (append_eq_nil_iff.1 ho.symm).2
  · rw [← append_assoc] at hstarts
    have hshort : s.length ≤ (o₂ ++ w).length := by
      have hpos := length_pos_iff.2 hne
      have hle := hlength s hs
      rw [length_append]
      omega
    have hin := prefix_of_prefix_length_le hstarts (prefix_append _ z) hshort
    refine hnot s hs (hin.isInfix.trans ⟨o₁, [], ?_⟩)
    rw [ho, append_nil, append_assoc]

/-! ## Piece by piece -/

section

variable (hapart : ∀ s ∈ patterns, Apart mark s)

include hapart

/-- The patterns that come after one that has been found are not in what came before its end. -/
theorem replaceEach_lower {P p : List α} {b : α} (hP : P = p ++ [b])
    (h : ∀ Q ∈ patterns, ¬ Unfinished P Q ∨ ¬ Q <:+: x ++ p) :
    replaceEach mark patterns (x ++ p) = replaceEach mark patterns x ++ p := by
  induction patterns generalizing x with
  | nil => rfl
  | cons Q rest ih =>
    have hQ := hapart Q mem_cons_self
    have hstep : replaceAll mark Q (x ++ p) = replaceAll mark Q x ++ p := by
      rcases h Q mem_cons_self with hunfinished | hnot
      · refine replaceAll_append_kept hQ.ne_nil x p fun v hv hne => ?_
        obtain ⟨w, rfl⟩ := hv
        have hsplit : P = v ++ (w ++ [b]) := by rw [hP, append_assoc]
        exact ⟨fun hvQ => hunfinished ⟨v, w ++ [b], hsplit, hne, by simp, .inl hvQ⟩,
          fun hQv => hunfinished ⟨v, w ++ [b], hsplit, hne, by simp, .inr hQv⟩⟩
      · rw [replaceAll_eq_self hnot,
          replaceAll_eq_self fun hin => hnot (hin.trans (prefix_append x p).isInfix)]
    rw [replaceEach_cons, hstep, replaceEach_cons]
    refine ih (fun s hs => hapart s (mem_cons_of_mem _ hs)) fun Q' hQ' => ?_
    refine (h Q' (mem_cons_of_mem _ hQ')).imp_right fun hnot hin => hnot ?_
    rw [← hstep] at hin
    exact infix_of_replaceAll (hapart Q' (mem_cons_of_mem _ hQ')) hQ.ne_nil hin

/-- One element more: it is kept, or ends an occurrence of the first pattern that it ends one of. -/
theorem replaceEach_concat {b : α}
    (h : ∀ a P c, patterns = a ++ P :: c → ∀ Q ∈ c,
      ¬ Unfinished P Q ∨ Q ∈ a ∨ Q = P ∨ ¬ Q <:+: x ++ [b]) :
    replaceEach mark patterns (x ++ [b]) = replaceEach mark patterns x ++ [b] ∨
      ∃ a P c y, patterns = a ++ P :: c ∧
        replaceEach mark a (x ++ [b]) = replaceEach mark a x ++ [b] ∧
        replaceEach mark patterns x ++ [b] = y ++ P ∧
        replaceEach mark patterns (x ++ [b]) = y ++ mark := by
  induction patterns generalizing x with
  | nil => exact .inl rfl
  | cons P rest ih =>
    have hP := hapart P mem_cons_self
    have hrest : ∀ s ∈ rest, Apart mark s := fun s hs => hapart s (mem_cons_of_mem _ hs)
    rw [replaceEach_cons, replaceEach_cons]
    rcases replaceAll_concat mark hP.ne_nil x b with hkept | ⟨t, ht, hfound, hbefore⟩
    · rw [hkept]
      have hnext : ∀ a P' c, rest = a ++ P' :: c → ∀ Q ∈ c,
          ¬ Unfinished P' Q ∨ Q ∈ a ∨ Q = P' ∨ ¬ Q <:+: replaceAll mark P x ++ [b] := by
        intro a P' c hsplit Q hQ
        have hmem : Q ∈ rest := by
          rw [hsplit]
          exact mem_append_right _ (mem_cons_of_mem _ hQ)
        rcases h (P :: a) P' c (by rw [hsplit]; rfl) Q hQ with h | h | h | h
        · exact .inl h
        · rcases mem_cons.1 h with rfl | h
          · rw [← hkept]
            exact .inr (.inr (.inr (not_infix_replaceAll hP _)))
          · exact .inr (.inl h)
        · exact .inr (.inr (.inl h))
        · rw [← hkept]
          exact .inr (.inr (.inr fun hin =>
            h (infix_of_replaceAll (hrest Q hmem) hP.ne_nil hin)))
      refine (ih hrest hnext).imp_right ?_
      rintro ⟨a, P', c, y, rfl, ha, hy, hrun⟩
      exact ⟨P :: a, P', c, y, rfl, by rw [replaceEach_cons, hkept, ha]; rfl, hy, hrun⟩
    · -- the pattern is found, and those after it change what is before it only
      obtain ⟨p, b', rfl⟩ := eq_nil_or_concat P |>.resolve_left hP.ne_nil
      rw [concat_eq_append] at *
      obtain ⟨hx, hb⟩ := append_inj' (ht.trans (append_assoc t p [b']).symm) rfl
      cases hb
      rw [dropLast_concat] at hbefore
      have hlower := replaceEach_lower hrest rfl (x := replaceAll mark (p ++ [b]) t)
        (P := p ++ [b]) fun Q hQ => by
          rw [← hbefore]
          rcases h [] (p ++ [b]) rest rfl Q hQ with h | h | h | h
          · exact .inl h
          · cases h
          · rw [h]
            exact .inr (not_infix_replaceAll hP x)
          · exact .inr fun hin => h ((infix_of_replaceAll (hrest Q hQ) hP.ne_nil hin).trans
              (prefix_append _ _).isInfix)
      refine .inr ⟨[], p ++ [b], rest, replaceEach mark rest (replaceAll mark (p ++ [b]) t), rfl,
        rfl, ?_, ?_⟩
      · rw [hbefore, hlower, append_assoc]
      · rw [hfound, replaceEach_mark hrest]

/-- **Ordered patterns can be replaced one element at a time.** -/
theorem replaceEach_absorb_one (hordered : Ordered patterns) (x : List α) (b : α) :
    replaceEach mark patterns (x ++ [b]) =
      replaceEach mark patterns (replaceEach mark patterns x ++ [b]) := by
  have hconcat := replaceEach_concat hapart (x := x) (b := b) fun a P c hsplit Q hQ => by
    by_cases hQa : Q ∈ a
    · exact .inr (.inl hQa)
    · by_cases hQP : Q = P
      · exact .inr (.inr (.inl hQP))
      · exact .inl (hordered a P c hsplit Q hQ hQa hQP)
  rcases hconcat with hkept | ⟨a, P, c, y, rfl, ha, hy, hrun⟩
  · rw [← hkept, replaceEach_idem hapart]
  · have hin : ∀ s ∈ a, s ∈ a ++ P :: c := fun s hs => mem_append_left _ hs
    have hPin : P ∈ a ++ P :: c := mem_append_right _ mem_cons_self
    have hcin : ∀ s ∈ c, s ∈ a ++ P :: c :=
      fun s hs => mem_append_right _ (mem_cons_of_mem _ hs)
    have hleft : ∀ {s}, s ∈ a ++ P :: c → ¬ s <:+: replaceEach mark (a ++ P :: c) x :=
      fun hs => not_infix_replaceEach hapart hs
    have hstarts : y <+: replaceEach mark (a ++ P :: c) x := by
      have hpos := length_pos_iff.2 (hapart P hPin).ne_nil
      have hlength := congrArg length hy
      simp only [length_append, length_singleton] at hlength
      have hwhole : y <+: replaceEach mark (a ++ P :: c) x ++ [b] := by
        rw [hy]
        exact prefix_append _ _
      exact prefix_of_prefix_length_le hwhole (prefix_append _ _) (by omega)
    have hdone : ∀ s ∈ a ++ P :: c, ¬ s <:+: y :=
      fun s hs hsin => hleft hs (hsin.trans hstarts.isInfix)
    -- nothing is found before `P`
    have hbefore : replaceEach mark a (y ++ P) = y ++ P := by
      refine replaceEach_eq_self fun s hs hsin => ?_
      rw [← hy] at hsin
      rcases infix_concat_iff.1 hsin with hend | hsin
      · obtain ⟨p, b', rfl⟩ := eq_nil_or_concat s |>.resolve_left (hapart s (hin s hs)).ne_nil
        rw [concat_eq_append] at *
        obtain ⟨z, hz⟩ := hend
        rw [← append_assoc] at hz
        obtain ⟨hp, hb⟩ := append_inj' hz rfl
        cases hb
        have hends : p <:+ replaceEach mark a x := by
          have hpc : ∀ s ∈ P :: c, Apart mark s :=
            fun s hs => hapart s (mem_append_right _ hs)
          refine suffix_of_replaceEach hpc (hapart _ (hin _ hs)) rfl ?_
          rw [← replaceEach_append]
          exact ⟨z, hp⟩
        obtain ⟨u, hu⟩ := hends
        refine not_infix_replaceEach (fun s hs => hapart s (hin s hs)) hs (l := x ++ [b])
          ⟨u, [], ?_⟩
        rw [ha, ← hu]
        simp
      · exact hleft (hin s hs) hsin
    -- `P` is found at the end
    have hfound : replaceAll mark P (y ++ P) = y ++ mark := by
      have hPapart := hapart P hPin
      rw [← hy]
      rcases replaceAll_concat mark hPapart.ne_nil (replaceEach mark (a ++ P :: c) x) b with
        hkept | ⟨t, ht, hrun', -⟩
      · rw [replaceAll_eq_self (hleft hPin), hy] at hkept
        exact absurd ⟨y, [], by rw [append_nil, hkept]⟩ (not_infix_replaceAll hPapart (y ++ P))
      · obtain rfl := append_cancel_right (hy.symm.trans ht)
        rw [hrun', replaceAll_eq_self (hdone P hPin)]
    have hc : ∀ s ∈ c, Apart mark s := fun s hs => hapart s (hcin s hs)
    rw [hrun, hy, replaceEach_append, hbefore, replaceEach_cons, hfound, replaceEach_mark hc,
      replaceEach_eq_self fun s hs => hdone s (hcin s hs)]

/-- And in pieces of any length. -/
theorem replaceEach_absorb (hordered : Ordered patterns) (x c : List α) :
    replaceEach mark patterns (x ++ c) =
      replaceEach mark patterns (replaceEach mark patterns x ++ c) := by
  induction c using reverseRecOn with
  | nil => rw [append_nil, append_nil, replaceEach_idem hapart]
  | append_singleton c b ih =>
    rw [← append_assoc, replaceEach_absorb_one hapart hordered, ih,
      ← replaceEach_absorb_one hapart hordered, append_assoc]

end

/-! ## Patterns that are not ordered -/

section Sorted

variable (hapart : ∀ s ∈ patterns, Apart mark s)
  (hsorted : patterns.Pairwise fun P Q => Q.length ≤ P.length)

include hapart hsorted

/-- A pattern is replaced by one mark. -/
theorem replaceEach_pattern {s : List α} (hs : s ∈ patterns) :
    replaceEach mark patterns s = mark := by
  obtain ⟨a, c, rfl, ha⟩ := eq_append_cons_of_mem hs
  have hbefore : replaceEach mark a s = s := by
    refine replaceEach_eq_self fun P hP hin => ha ?_
    have hle := (pairwise_append.1 hsorted).2.2 P hP s mem_cons_self
    rwa [← hin.eq_of_length_le hle]
  have hc : ∀ s' ∈ c, Apart mark s' :=
    fun s' hs' => hapart s' (mem_append_right _ (mem_cons_of_mem _ hs'))
  have hmark := replaceEach_mark hc []
  rw [replaceEach_eq_self fun s' hs' hin => (hc s' hs').ne_nil (infix_nil.1 hin),
    nil_append] at hmark
  rw [replaceEach_append, hbefore, replaceEach_cons, replaceAll_self (hapart s hs).ne_nil, hmark]

variable (hmark : mark ≠ []) (habsorb : ∀ x c, x ≠ [] → c ≠ [] →
  replaceEach mark patterns (x ++ c) = replaceEach mark patterns (replaceEach mark patterns x ++ c))

include hmark habsorb

/-- If it can be done piece by piece, no pattern has another inside that ends before it. -/
theorem not_infix_of_absorb {s v w Q : List α} (hs : s ∈ patterns) (hsplit : s = v ++ w)
    (hw : w ≠ []) (hQ : Q ∈ patterns) : ¬ Q <:+: v := by
  intro hin
  have hv : v ≠ [] := by
    rintro rfl
    exact (hapart Q hQ).ne_nil (infix_nil.1 hin)
  have hrun := habsorb v w hv hw
  rw [← hsplit, replaceEach_pattern hapart hsorted hs] at hrun
  rcases replaceEach_eq_or hapart v with heq | ⟨a, b, heq⟩
  · refine not_infix_replaceEach hapart hQ (l := v) ?_
    rwa [heq]
  · rw [heq, append_assoc, append_assoc, replaceEach_split hapart] at hrun
    have hlength := congrArg length hrun
    have hpos := length_pos_iff.2 (replaceEach_ne_nil hapart hmark (l := b ++ w) (by simp [hw]))
    simp only [length_append] at hlength hpos
    omega

omit hmark habsorb in
/-- What becomes of `u ++ P` when `Q` ends in the middle of `P`. -/
theorem replaceEach_overlap
    (hinner : ∀ {s v w Q : List α}, s ∈ patterns → s = v ++ w → w ≠ [] → Q ∈ patterns → ¬ Q <:+: v)
    {a c : List (List α)} {P Q u v w : List α} (hpatterns : patterns = a ++ P :: c) (hQc : Q ∈ c)
    (hQa : Q ∉ a) (hsplit : P = v ++ w) (hv : v ≠ []) (hw : w ≠ []) (hu : u ++ v = Q)
    (hfirst : ∀ P' ∈ a, ¬ Unfinished P' Q) :
    ∃ t r r', t <+: u ∧ u ++ P = t ++ P ++ r ∧
      replaceEach mark patterns (u ++ P) = t ++ (mark ++ r') := by
  have hP : P ∈ patterns := by rw [hpatterns]; simp
  have hQ : Q ∈ patterns := by rw [hpatterns]; simp [hQc]
  subst hpatterns
  have hc : ∀ s ∈ c, Apart mark s :=
    fun s hs => hapart s (mem_append_right _ (mem_cons_of_mem _ hs))
  have hbefore : replaceEach mark a (u ++ P) = u ++ P := by
    refine replaceEach_eq_self fun P' hP' hin => ?_
    have hPP' := (pairwise_append.1 hsorted).2.2 P' hP' P mem_cons_self
    have hQP' := (pairwise_append.1 hsorted).2.2 P' hP' Q (mem_cons_of_mem _ hQc)
    have hnotQ : ¬ P' <:+: Q := by
      intro hin
      rw [hin.eq_of_length_le hQP'] at hP'
      exact hQa hP'
    rcases infix_append_iff_ne_nil.1 hin with hin | hin | ⟨l, r, hl, hr, rfl, hlu, hrP⟩
    · exact hnotQ (hin.trans ⟨[], v, by rw [← hu]; rfl⟩)
    · rw [hin.eq_of_length_le hPP'] at hP'
      exact hfirst P hP' ⟨v, w, hsplit, hv, hw, .inl ⟨u, hu⟩⟩
    · rw [hsplit] at hrP
      rcases prefix_append_cases hrP with hrv | ⟨w', rfl, hw', -⟩
      · refine hnotQ ?_
        rw [← hu]
        exact infix_append_iff.2 (.inr (.inr ⟨l, r, rfl, hlu, hrv⟩))
      · refine hfirst _ hP' ⟨l ++ v, w', (append_assoc _ _ _).symm, by simp [hl], hw', ?_⟩
        obtain ⟨z, rfl⟩ := hlu
        exact .inl ⟨z, by rw [← hu, append_assoc]⟩
  have hin : P <:+: u ++ P := (suffix_append u P).isInfix
  obtain ⟨t, r, ht, hrun⟩ := replaceAll_first (hapart P hP).ne_nil hin
  have htu : t <+: u := by
    have hwhole : t <+: u ++ P := by
      rw [ht, append_assoc]
      exact prefix_append _ _
    have hlength := congrArg length ht
    simp only [length_append] at hlength
    exact prefix_of_prefix_length_le hwhole (prefix_append _ _) (by omega)
  have hdone : ∀ s ∈ c, ¬ s <:+: t := fun s hs hin =>
    hinner hQ hu.symm hv (mem_append_right _ (mem_cons_of_mem _ hs))
      (hin.trans htu.isInfix)
  refine ⟨t, r, replaceEach mark c (replaceAll mark P r), htu, ht, ?_⟩
  rw [replaceEach_append, hbefore, replaceEach_cons, hrun, append_assoc,
    replaceEach_split hc, replaceEach_eq_self hdone]

/-- **Patterns that can be replaced piece by piece are ordered**, if marks do not overlap. -/
theorem ordered_of_absorb
    (hborder : ∀ t v, mark = t ++ v → t ≠ [] → v ≠ [] → ¬ v <+: mark) : Ordered patterns := by
  intro a P c hpatterns Q hQc hQa hQP hunfinished
  induction hn : a.length using Nat.strong_induction_on generalizing a P c with
  | _ n ih =>
    -- `P` is the first pattern that `Q` ends in the middle of
    have hfirst : ∀ P' ∈ a, ¬ Unfinished P' Q := by
      intro P' hP' hunfinished'
      obtain ⟨a₁, a₂, rfl⟩ := append_of_mem hP'
      have hlength : a₁.length < n := by
        rw [← hn, length_append, length_cons]
        omega
      refine ih a₁.length hlength a₁ P' (a₂ ++ P :: c) ?_ ?_ ?_ ?_ hunfinished' rfl
      · rw [hpatterns, append_assoc]
        rfl
      · exact mem_append_right _ (mem_cons_of_mem _ hQc)
      · exact fun hmem => hQa (mem_append_left _ hmem)
      · rintro rfl
        exact hQa hP'
    have hP : P ∈ patterns := by rw [hpatterns]; simp
    have hQ : Q ∈ patterns := by rw [hpatterns]; simp [hQc]
    have hinner := @not_infix_of_absorb _ _ _ _ hapart hsorted hmark habsorb
    obtain ⟨v, w, hsplit, hv, hw, hend⟩ := hunfinished
    rcases hend with ⟨u, hu⟩ | hQv
    · by_cases hune : u = []
      · subst hune
        exact hinner hP hsplit hw hQ ⟨[], [], by simpa using hu.symm⟩
      · have hrun := habsorb Q w (hapart Q hQ).ne_nil hw
        have hwhole : Q ++ w = u ++ P := by rw [← hu, hsplit, append_assoc]
        have hQrun : replaceEach mark patterns (Q ++ w) = mark ++ replaceEach mark patterns w := by
          have hmarked := replaceEach_split hapart [] w
          rw [replaceEach_eq_self fun s hs hin =>
            (hapart s hs).ne_nil (infix_nil.1 hin)] at hmarked
          rw [hrun, replaceEach_pattern hapart hsorted hQ]
          exact hmarked
        obtain ⟨t, r, r', htu, ht, htrun⟩ := replaceEach_overlap hapart hsorted hinner hpatterns
          hQc hQa hsplit hv hw hu hfirst
        rw [hwhole, htrun] at hQrun
        have htQ : t <:+: Q := htu.isInfix.trans ⟨[], v, by rw [← hu]; rfl⟩
        by_cases htne : t = []
        · -- then `Q` is the beginning of `P`
          subst htne
          have hPQ : P <+: Q ++ w := ⟨r, by rw [hwhole, ht]; rfl⟩
          have hle : Q.length ≤ P.length := by
            rw [hpatterns] at hsorted
            exact rel_of_pairwise_cons (pairwise_append.1 hsorted).2.1 hQc
          rcases prefix_append_cases hPQ with hin | ⟨w', hPw, hw', -⟩
          · exact hQP (hin.eq_of_length_le hle).symm
          · exact hinner hP hPw hw' hQ infix_rfl
        · -- then there are two marks in the place of one
          have hshort : ¬ mark <+: t := fun hin => (hapart Q hQ).notAround (hin.isInfix.trans htQ)
          have htmark : t <+: mark ++ replaceEach mark patterns w := ⟨mark ++ r', hQrun⟩
          rcases prefix_append_cases htmark with ⟨v', hv'⟩ | ⟨z, rfl, -, -⟩
          · have hv'ne : v' ≠ [] := by
              rintro rfl
              rw [append_nil] at hv'
              exact hshort ⟨[], by rw [append_nil, hv']⟩
            have hrest : mark ++ r' = v' ++ replaceEach mark patterns w := by
              refine append_cancel_left (hQrun.trans ?_)
              rw [← append_assoc, hv']
            have hlength := congrArg length hv'
            rw [length_append] at hlength
            have hborder' : v' <+: mark ++ r' := ⟨_, hrest.symm⟩
            exact hborder t v' hv'.symm htne hv'ne
              (prefix_of_prefix_length_le hborder' (prefix_append _ _) (by omega))
          · exact hshort (prefix_append _ _)
    · exact hinner hP hsplit hw hQ hQv.isInfix

end Sorted

end Replace

end NapiVm
