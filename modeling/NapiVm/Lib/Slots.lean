import NapiVm.Lib.PMap
import Mathlib.Data.List.Nodup

/-!
# Insertion-ordered slot vectors

Property storage is a vector of key/value pairs searched from the front.  This
file develops that data structure on its own: the position of a key, the value
stored under it, and how both react to the four ways a vector is changed
(overwriting the value at a position, pushing a pair, dropping every pair of a
key, dropping one position).  `firstIndex` is the dictionary a scan from the
front builds, keeping the first position of every key.
-/

namespace NapiVm

/-- A vector of key/value pairs in insertion order. -/
abbrev Slots (κ β : Type) : Type := List (κ × β)

namespace Slots

variable {κ β : Type} [DecidableEq κ]

/-- The keys in insertion order. -/
def keys (s : Slots κ β) : List κ := s.map Prod.fst

/-- The first position holding `k`. -/
def position (s : Slots κ β) (k : κ) : Option Nat := s.findIdx? (fun p => decide (p.1 = k))

/-- The value at the first position holding `k`. -/
def get (s : Slots κ β) (k : κ) : Option β := (s.find? (fun p => decide (p.1 = k))).map Prod.snd

/-- Replace the value at position `i`, keeping its key. -/
def setValue (s : Slots κ β) (i : Nat) (b : β) : Slots κ β := s.modify i (fun p => (p.1, b))

/-- Drop every pair whose key is `k`. -/
def removeKey (s : Slots κ β) (k : κ) : Slots κ β := s.filter (fun p => decide (p.1 ≠ k))

/-- Overwrite the first value under `k`, or push a new pair. -/
def upsert (s : Slots κ β) (k : κ) (b : β) : Slots κ β :=
  match position s k with
  | some i => setValue s i b
  | none => s ++ [(k, b)]

/-- Apply `f` to the values under `k`. -/
def update (s : Slots κ β) (k : κ) (f : β → β) : Slots κ β :=
  s.map fun p => if p.1 = k then (p.1, f p.2) else p

omit [DecidableEq κ] in
@[simp] theorem keys_nil : keys ([] : Slots κ β) = [] := rfl

omit [DecidableEq κ] in
@[simp] theorem keys_cons (p : κ × β) (s : Slots κ β) : keys (p :: s) = p.1 :: keys s := rfl

omit [DecidableEq κ] in
@[simp] theorem keys_append (s t : Slots κ β) : keys (s ++ t) = keys s ++ keys t := by
  simp [keys]

omit [DecidableEq κ] in
@[simp] theorem length_keys (s : Slots κ β) : (keys s).length = s.length := by simp [keys]

omit [DecidableEq κ] in
@[simp] theorem keys_setValue (s : Slots κ β) (i : Nat) (b : β) :
    keys (setValue s i b) = keys s := by
  induction s generalizing i with
  | nil => simp [setValue]
  | cons p s ih =>
    cases i with
    | zero => simp [setValue]
    | succ i =>
      have := ih i
      simp only [setValue] at this
      simp [setValue, this]

@[simp] theorem position_nil (k : κ) : position ([] : Slots κ β) k = none := rfl

theorem position_cons (p : κ × β) (s : Slots κ β) (k : κ) :
    position (p :: s) k = if p.1 = k then some 0 else (position s k).map (· + 1) := by
  unfold position
  by_cases h : p.1 = k
  · simp [List.findIdx?_cons, h]
  · simp [List.findIdx?_cons, h]

variable {s : Slots κ β} {k j : κ} {i : Nat} {b : β}

@[simp] theorem position_eq_none : position s k = none ↔ k ∉ keys s := by
  induction s with
  | nil => simp
  | cons p s ih =>
    rw [position_cons]
    by_cases h : p.1 = k
    · simp [h]
    · have h' : ¬ k = p.1 := fun e => h e.symm
      simp [h, h', ih]

/-- The position of a key is the first index at which the key list holds it. -/
theorem position_eq_some :
    position s k = some i ↔ (keys s)[i]? = some k ∧ ∀ j < i, (keys s)[j]? ≠ some k := by
  induction s generalizing i with
  | nil => simp
  | cons p s ih =>
    rw [position_cons]
    by_cases h : p.1 = k
    · cases i with
      | zero => simp [h]
      | succ i =>
        simp only [h, if_true, keys_cons]
        constructor
        · intro h0; simp at h0
        · rintro ⟨-, h0⟩
          exact absurd (by simp) (h0 0 (Nat.succ_pos i))
    · cases i with
      | zero => simp [h]
      | succ i =>
        simp only [h, if_false, Option.map_eq_some_iff, keys_cons, List.getElem?_cons_succ]
        constructor
        · rintro ⟨j, hj, he⟩
          obtain rfl : j = i := by omega
          obtain ⟨h1, h2⟩ := ih.1 hj
          refine ⟨h1, ?_⟩
          intro j' hj'
          cases j' with
          | zero => simpa using h
          | succ j' => simpa using h2 j' (by omega)
        · rintro ⟨h1, h2⟩
          refine ⟨i, ih.2 ⟨h1, ?_⟩, rfl⟩
          intro j hj
          simpa using h2 (j + 1) (by omega)

/-- In a vector without repeated keys, any index holding the key is its position. -/
theorem position_of_getElem? (hs : (keys s).Nodup) (h : (keys s)[i]? = some k) :
    position s k = some i := by
  refine position_eq_some.2 ⟨h, ?_⟩
  intro j hj hjk
  have hi : i < (keys s).length := (List.getElem?_eq_some_iff.1 h).1
  have : j = i := (List.getElem?_inj (by omega) hs).1 (hjk.trans h.symm)
  omega

/-- A vector without repeated keys holds `k` at `i` exactly when `i` is its position. -/
theorem position_eq_some_iff (hs : (keys s).Nodup) :
    position s k = some i ↔ (keys s)[i]? = some k :=
  ⟨fun h => (position_eq_some.1 h).1, position_of_getElem? hs⟩

theorem position_congr {γ : Type} {t : Slots κ γ} (h : keys s = keys t) (k : κ) :
    position s k = position t k := by
  cases ht : position t k with
  | none => rw [position_eq_none, h, ← position_eq_none]; exact ht
  | some i => rw [position_eq_some, h, ← position_eq_some]; exact ht

theorem mem_of_get (h : get s k = some b) : (k, b) ∈ s := by
  obtain ⟨⟨k', b'⟩, hfind, rfl⟩ := Option.map_eq_some_iff.1 h
  have hk : k' = k := by simpa using List.find?_some hfind
  exact hk ▸ List.mem_of_find?_eq_some hfind

/-- Reading at the position of a key, with its key checked again, is a lookup. -/
theorem position_bind_get (s : Slots κ β) (k : κ) :
    ((position s k).bind fun i => (s[i]?).bind fun p => if p.1 = k then some p.2 else none) =
      get s k := by
  induction s with
  | nil => rfl
  | cons p s ih =>
    rw [position_cons]
    unfold get at ih ⊢
    by_cases h : p.1 = k
    · simp [h]
    · rw [List.find?_cons_of_neg (by simpa using h), ← ih]
      cases position s k with
      | none => simp [h]
      | some i => simp [h]

theorem position_push (s : Slots κ β) (k j : κ) (b : β) :
    position (s ++ [(k, b)]) j = (position s j).or (if j = k then some s.length else none) := by
  induction s with
  | nil =>
    by_cases h : k = j
    · subst h; simp [position_cons]
    · have h' : ¬ j = k := fun e => h e.symm
      simp [position_cons, h, h']
  | cons p s ih =>
    rw [List.cons_append, position_cons, position_cons, ih]
    by_cases h : p.1 = j
    · simp [h]
    · simp only [h, if_false, List.length_cons]
      cases position s j with
      | none => by_cases hj : j = k <;> simp [hj]
      | some i => simp

omit [DecidableEq κ] in
theorem nodup_push (b : β) (hs : (keys s).Nodup) (hk : k ∉ keys s) :
    (keys (s ++ [(k, b)])).Nodup := by
  rw [keys_append]
  refine List.Nodup.append hs (by simp) ?_
  intro j hj hj'
  simp only [keys_cons, keys_nil, List.mem_singleton] at hj'
  exact hk (hj' ▸ hj)

/-! ## Lookups -/

@[simp] theorem get_nil (k : κ) : get ([] : Slots κ β) k = none := rfl

theorem get_cons (p : κ × β) (s : Slots κ β) (k : κ) :
    get (p :: s) k = if p.1 = k then some p.2 else get s k := by
  unfold get
  by_cases h : p.1 = k
  · rw [List.find?_cons_of_pos (by simpa using h)]
    simp [h]
  · rw [List.find?_cons_of_neg (by simpa using h)]
    simp [h]

theorem get_append (s t : Slots κ β) (k : κ) : get (s ++ t) k = (get s k).or (get t k) := by
  induction s with
  | nil => simp
  | cons p s ih =>
    rw [List.cons_append, get_cons, get_cons, ih]
    by_cases h : p.1 = k <;> simp [h]

theorem get_eq_none : get s k = none ↔ k ∉ keys s := by
  induction s with
  | nil => simp
  | cons p s ih =>
    rw [get_cons]
    by_cases h : p.1 = k
    · simp [h]
    · have h' : ¬ k = p.1 := fun e => h e.symm
      simp [h, h', ih]

/-- A filter on keys hides the keys it rejects and nothing else. -/
theorem get_filter (q : κ → Bool) (s : Slots κ β) (k : κ) :
    get (s.filter fun p => q p.1) k = if q k then get s k else none := by
  induction s with
  | nil => simp
  | cons p s ih =>
    rw [List.filter_cons, get_cons]
    by_cases hq : q p.1 = true
    · rw [if_pos hq, get_cons, ih]
      by_cases h : p.1 = k
      · simp [h, h ▸ hq]
      · simp [h]
    · rw [if_neg hq, ih]
      by_cases h : p.1 = k
      · simp [h ▸ hq]
      · simp [h]

theorem get_removeKey (s : Slots κ β) (k j : κ) :
    get (removeKey s k) j = if j = k then none else get s j := by
  rw [removeKey, get_filter (fun j => decide (j ≠ k))]
  by_cases h : j = k <;> simp [h]

theorem get_setValue_position (h : position s k = some i) (b : β) (j : κ) :
    get (setValue s i b) j = if j = k then some b else get s j := by
  induction s generalizing i with
  | nil => simp at h
  | cons p s ih =>
    rw [position_cons] at h
    by_cases hp : p.1 = k
    · rw [if_pos hp] at h
      obtain rfl := Option.some.inj h
      simp only [setValue, List.modify_zero_cons, get_cons, hp]
      by_cases hj : k = j
      · simp [hj]
      · have hj' : ¬ j = k := fun e => hj e.symm
        simp [hj, hj']
    · rw [if_neg hp] at h
      obtain ⟨i', hi', rfl⟩ := Option.map_eq_some_iff.1 h
      have ih' := ih hi'
      simp only [setValue] at ih'
      simp only [setValue, List.modify_succ_cons, get_cons, ih']
      by_cases hj : p.1 = j
      · have hjk : ¬ j = k := fun e => hp (hj.trans e)
        simp [hj, hjk]
      · simp [hj]

/-- Storing the value that is there changes nothing. -/
theorem setValue_self (hp : position s k = some i) (hv : get s k = some b) :
    setValue s i b = s := by
  induction s generalizing i with
  | nil => simp at hp
  | cons p s ih =>
    rw [position_cons] at hp
    rw [get_cons] at hv
    by_cases h : p.1 = k
    · rw [if_pos h] at hp hv
      obtain rfl := Option.some.inj hp
      obtain rfl := Option.some.inj hv
      rfl
    · rw [if_neg h] at hp hv
      obtain ⟨i', hi', rfl⟩ := Option.map_eq_some_iff.1 hp
      show p :: setValue s i' b = p :: s
      rw [ih hi' hv]

/-- An upsert changes the value under its key and no other. -/
theorem get_upsert (s : Slots κ β) (k j : κ) (b : β) :
    get (upsert s k b) j = if j = k then some b else get s j := by
  unfold upsert
  split
  · next i hi => exact get_setValue_position hi b j
  · next hn =>
      have hk : get s k = none := get_eq_none.2 (position_eq_none.1 hn)
      rw [get_append, get_cons]
      by_cases hj : j = k
      · subst hj; simp [hk]
      · have hj' : ¬ k = j := fun e => hj e.symm
        simp [hj, hj']

theorem mem_keys_upsert (h : j ∈ keys (upsert s k b)) : j = k ∨ j ∈ keys s := by
  unfold upsert at h
  split at h
  · right; rwa [keys_setValue] at h
  · rw [keys_append, List.mem_append] at h
    rcases h with h | h
    · exact Or.inr h
    · left; simpa using h

theorem get_update (s : Slots κ β) (k j : κ) (f : β → β) :
    get (update s k f) j = if j = k then (get s j).map f else get s j := by
  induction s with
  | nil => simp [update]
  | cons p s ih =>
    simp only [update] at ih
    simp only [update, List.map_cons]
    rw [get_cons, ih, get_cons]
    by_cases hp : p.1 = k
    · by_cases hj : k = j
      · simp [hp, hj]
      · simp [hp, hj]
    · by_cases hj : p.1 = j
      · have hjk : ¬ j = k := fun e => hp (hj.trans e)
        simp [hj, hjk]
      · simp [hp, hj]

theorem get_push_of_ne (s : Slots κ β) (h : j ≠ k) (b : β) : get (s ++ [(k, b)]) j = get s j := by
  have hkj : ¬ k = j := fun e => h e.symm
  rw [get_append, get_cons]
  simp [hkj]

/-- Dropping the first pair of one key hides nothing of another. -/
theorem get_eraseFirst_of_ne (s : Slots κ β) (h : j ≠ k) :
    get (s.eraseP fun p => decide (p.1 = k)) j = get s j := by
  induction s with
  | nil => rfl
  | cons p s ih =>
    rw [List.eraseP_cons]
    by_cases hp : p.1 = k
    · have hkj : ¬ k = j := fun e => h e.symm
      simp [hp, get_cons, hkj]
    · simp [hp, get_cons, ih]

/-- Where keys are unique, searching from the end finds the same pair. -/
theorem get_reverse (hs : (keys s).Nodup) (k : κ) : get s.reverse k = get s k := by
  induction s with
  | nil => rfl
  | cons p s ih =>
    obtain ⟨hp, hn⟩ := List.nodup_cons.1 hs
    rw [List.reverse_cons, get_append, ih hn, get_cons, get_cons, get_nil]
    by_cases h : p.1 = k
    · have hk : get s k = none := get_eq_none.2 (h ▸ hp)
      simp [h, hk]
    · simp [h]

omit [DecidableEq κ] in
theorem nodup_filter (hs : (keys s).Nodup) (q : κ × β → Bool) : (keys (s.filter q)).Nodup :=
  List.Nodup.sublist (List.Sublist.map Prod.fst List.filter_sublist) hs

theorem nodup_upsert (hs : (keys s).Nodup) (k : κ) (b : β) : (keys (upsert s k b)).Nodup := by
  unfold upsert
  split
  · rwa [keys_setValue]
  · next hn => exact nodup_push b hs (position_eq_none.1 hn)

/-! ## The dictionary of a vector -/

/-- Index a key list from position `n` on, keeping the first position of every key. -/
def firstIndexFrom (m : PMap κ Nat) (n : Nat) : List κ → PMap κ Nat
  | [] => m
  | k :: ks => firstIndexFrom (m.insertIfNew k n) (n + 1) ks

/-- The dictionary built by scanning the keys from the front. -/
def firstIndex (ks : List κ) : PMap κ Nat := firstIndexFrom PMap.empty 0 ks

theorem firstIndexFrom_apply (s : Slots κ β) (m : PMap κ Nat) (n : Nat) (j : κ) :
    firstIndexFrom m n (keys s) j = (m j).or ((position s j).map (· + n)) := by
  induction s generalizing m n with
  | nil => simp [firstIndexFrom]
  | cons p s ih =>
    rw [keys_cons, firstIndexFrom, ih, PMap.insertIfNew_apply, position_cons]
    by_cases h : p.1 = j
    · subst h
      cases m p.1 <;> simp
    · have h' : ¬ j = p.1 := fun e => h e.symm
      cases m j with
      | some c => simp
      | none =>
        simp only [h, h', if_false, Option.or_none, Option.none_or, Option.map_map]
        congr 1
        funext i
        simp only [Function.comp_apply]
        omega

/-- **The dictionary answers like a scan.** -/
theorem firstIndex_keys (s : Slots κ β) (j : κ) : firstIndex (keys s) j = position s j := by
  unfold firstIndex
  rw [firstIndexFrom_apply]
  simp

omit [DecidableEq κ] in
/-- Every key list is the key list of some vector. -/
theorem keys_map_unit (ks : List κ) : keys (ks.map fun k => (k, ())) = ks := by
  simp [keys, Function.comp_def]

theorem firstIndex_push (ks : List κ) (k j : κ) :
    firstIndex (ks ++ [k]) j = (firstIndex ks j).or (if j = k then some ks.length else none) := by
  have h := position_push (ks.map fun k => (k, ())) k j ()
  rw [← firstIndex_keys, ← firstIndex_keys, keys_append, keys_map_unit] at h
  simpa using h

theorem firstIndex_eq_none {ks : List κ} : firstIndex ks k = none ↔ k ∉ ks := by
  have h := position_eq_none (s := ks.map fun k => (k, ())) (k := k)
  rwa [← firstIndex_keys, keys_map_unit] at h

end Slots

end NapiVm
