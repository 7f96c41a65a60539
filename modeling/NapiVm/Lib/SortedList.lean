import Mathlib.Order.Lattice

/-!
# Lists sorted by a key

An ordered map is the ascending list of its entries.  `place` puts an entry where its key belongs,
and replaces the one of the same key; on the entries of a vector this is an insertion at the
partition point.
-/

namespace NapiVm.SortedList

variable {α κ : Type} [LinearOrder κ] (key : α → κ)

/-- The keys increase. -/
def Ascending (l : List α) : Prop := l.Pairwise fun a b => key a < key b

/-- Put `a` where its key belongs. -/
def place (a : α) : List α → List α
  | [] => [a]
  | b :: l =>
    if key b < key a then b :: place a l
    else if key b = key a then a :: l
    else a :: b :: l

/-- How many entries are below a key, in a sorted vector. -/
def partitionPoint (k : κ) (l : List α) : Nat := (l.takeWhile fun b => key b < k).length

variable {key} {a b : α} {l : List α}

@[simp] theorem ascending_nil : Ascending key [] := List.Pairwise.nil

theorem ascending_cons : Ascending key (b :: l) ↔ (∀ c ∈ l, key b < key c) ∧ Ascending key l :=
  List.pairwise_cons

theorem Ascending.filter (p : α → Bool) (h : Ascending key l) : Ascending key (l.filter p) :=
  List.Pairwise.filter p h

/-- Entries of the same key are the same entry. -/
theorem Ascending.eq_of_key (h : Ascending key l) (ha : a ∈ l) (hb : b ∈ l)
    (hk : key a = key b) : a = b := by
  induction l with
  | nil => cases ha
  | cons c l ih =>
    obtain ⟨hhead, htail⟩ := ascending_cons.1 h
    rcases List.mem_cons.1 ha with rfl | hal
    · rcases List.mem_cons.1 hb with rfl | hbl
      · rfl
      · exact absurd hk (hhead b hbl).ne
    · rcases List.mem_cons.1 hb with rfl | hbl
      · exact absurd hk (hhead a hal).ne'
      · exact ih htail hal hbl

open List in
/-- With a new key, `a` is one entry more. -/
theorem place_perm (hnew : ∀ c ∈ l, key c ≠ key a) : place key a l ~ a :: l := by
  induction l with
  | nil => rfl
  | cons c l ih =>
    have ih := ih fun d hd => hnew d (List.mem_cons_of_mem c hd)
    rw [place, if_neg (hnew c List.mem_cons_self)]
    split_ifs with hlt
    · exact (ih.cons c).trans (List.Perm.swap a c l)
    · rfl

theorem mem_place (hnew : ∀ c ∈ l, key c ≠ key a) : b ∈ place key a l ↔ b = a ∨ b ∈ l :=
  (place_perm hnew).mem_iff.trans List.mem_cons

theorem length_place (hnew : ∀ c ∈ l, key c ≠ key a) :
    (place key a l).length = l.length + 1 := (place_perm hnew).length_eq

theorem ascending_place (h : Ascending key l) (hnew : ∀ c ∈ l, key c ≠ key a) :
    Ascending key (place key a l) := by
  induction l with
  | nil => exact List.pairwise_singleton _ a
  | cons c l ih =>
    obtain ⟨hhead, htail⟩ := ascending_cons.1 h
    have hc := hnew c List.mem_cons_self
    have hnew' : ∀ d ∈ l, key d ≠ key a := fun d hd => hnew d (List.mem_cons_of_mem c hd)
    rw [place, if_neg hc]
    split_ifs with hlt
    · refine ascending_cons.2 ⟨fun d hd => ?_, ih htail hnew'⟩
      rcases (mem_place hnew').1 hd with rfl | hd
      · exact hlt
      · exact hhead d hd
    · have hlt : key a < key c := lt_of_le_of_ne (not_lt.1 hlt) (Ne.symm hc)
      refine ascending_cons.2 ⟨fun d hd => ?_, h⟩
      rcases List.mem_cons.1 hd with rfl | hd
      · exact hlt
      · exact hlt.trans (hhead d hd)

/-- After all that is there. -/
theorem place_of_lt (h : ∀ c ∈ l, key c < key a) : place key a l = l ++ [a] := by
  induction l with
  | nil => rfl
  | cons c l ih =>
    rw [place, if_pos (h c List.mem_cons_self),
      ih fun d hd => h d (List.mem_cons_of_mem c hd), List.cons_append]

/-- A vector is inserted into at the partition point. -/
theorem insertIdx_partitionPoint (hnew : ∀ c ∈ l, key c ≠ key a) :
    l.insertIdx (partitionPoint key (key a) l) a = place key a l := by
  induction l with
  | nil => rfl
  | cons c l ih =>
    have ih := ih fun d hd => hnew d (List.mem_cons_of_mem c hd)
    rw [place, if_neg (hnew c List.mem_cons_self), partitionPoint]
    split_ifs with hlt
    · rw [List.takeWhile_cons_of_pos (by simpa using hlt), List.length_cons,
        List.insertIdx_succ_cons]
      rw [partitionPoint] at ih
      rw [ih]
    · rw [List.takeWhile_cons_of_neg (by simpa using hlt)]
      rfl

/-- Entries that are placed in order stand in that order. -/
theorem foldl_place {acc : List α} (h : Ascending key (acc ++ l)) :
    l.foldl (fun m c => place key c m) acc = acc ++ l := by
  induction l generalizing acc with
  | nil => rw [List.append_nil, List.foldl_nil]
  | cons c l ih =>
    have hlt : ∀ d ∈ acc, key d < key c := fun d hd =>
      (List.pairwise_append.1 h).2.2 d hd c List.mem_cons_self
    rw [List.foldl_cons, place_of_lt hlt, ih (by simpa using h), List.append_assoc]
    rfl

end NapiVm.SortedList
