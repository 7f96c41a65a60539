import NapiVm.Value.ArrayRefinement

/-!
# Setting an array's length

`set_length` finds the last index it cannot delete in both storages, drops the
named slots, the metadata and the dense elements from there on, and records the
length.

* `settledLength_isStop` — the length it settles on is the one the sparse array
  stops at.
* `indexValue_setLength` — exactly the indices below survive.
* `setLength_sim` — so setting the length of a cell sets the length of the array
  it represents, and `array_refines` closes the refinement over whole runs.
-/

namespace NapiVm.ArrayCell

/-! ## Where it stops -/

variable {a : ArrayCell} {i : Nat}

theorem blocked_entry : SparseArray.Blocked a.entry i ↔ a.blocks i = true := by
  unfold SparseArray.Blocked blocks entry configurable
  rw [← isSome_indexValue]
  cases a.indexValue i with
  | none => simp
  | some v => simp

/-- The dense scan stops just above the last blocker it met. -/
theorem denseStop_spec (a : ArrayCell) (requested count : Nat) :
    requested ≤ a.denseStop requested count ∧
      (∀ i, a.denseStop requested count ≤ i → i < requested + count → a.blocks i = false) ∧
      (requested < a.denseStop requested count →
        a.blocks (a.denseStop requested count - 1) = true) := by
  induction count with
  | zero =>
    refine ⟨Nat.le_refl _, ?_, fun h => absurd h (Nat.lt_irrefl _)⟩
    intro i h₁ h₂
    simp only [denseStop] at h₁
    omega
  | succ count ih =>
    rw [denseStop]
    split
    · next hb =>
        refine ⟨by omega, ?_, fun _ => hb⟩
        intro i h₁ h₂
        omega
    · next hb =>
        obtain ⟨h₁, h₂, h₃⟩ := ih
        refine ⟨h₁, ?_, h₃⟩
        intro i hi hlt
        by_cases hlast : i = requested + count
        · rw [hlast]
          simpa using hb
        · exact h₂ i hi (by omega)

/-- The indices the sparse search considers are those of the named slots. -/
theorem mem_sparse_iff (h : Inv a) (requested : Nat) :
    i ∈ ((Slots.keys a.named).filterMap fun key =>
        (arrayIndex key).filter fun index => requested ≤ index).filter
          (fun index => !(a.metadata.attrsOf (indexKey index)).configurable) ↔
      requested ≤ i ∧ a.elements.length ≤ i ∧ a.blocks i = true := by
  rw [List.mem_filter, List.mem_filterMap]
  constructor
  · rintro ⟨⟨key, hkey, hfilter⟩, hconf⟩
    obtain ⟨hindex, hle⟩ := Option.filter_eq_some_iff.1 hfilter
    obtain ⟨j, rfl, hmax, hlen, hj, -⟩ := h.named key hkey
    rw [arrayIndex_indexKey hj] at hindex
    obtain rfl := Option.some.inj hindex
    refine ⟨by simpa using hle, hlen, ?_⟩
    have hsome : (a.indexValue j).isSome = true := by
      rw [indexValue_sparse hlen hmax, Option.isSome_iff_ne_none, Ne, Slots.get_eq_none, not_not]
      exact hkey
    rw [isSome_indexValue] at hsome
    simpa [blocks, hsome] using hconf
  · rintro ⟨hle, hlen, hblock⟩
    simp only [blocks, Bool.and_eq_true] at hblock
    obtain ⟨hhas, hconf⟩ := hblock
    have hmem : indexKey i ∈ Slots.keys a.named := by
      rw [← isSome_indexValue] at hhas
      by_cases hmax : maxArrayLen ≤ i
      · rw [indexValue_sparse hlen hmax] at hhas
        by_contra hout
        rw [Slots.get_eq_none.2 hout] at hhas
        exact absurd hhas (by simp)
      · rw [indexValue_gap hlen (by omega)] at hhas
        exact absurd hhas (by simp)
    obtain ⟨j, hj, -, -, hlt, -⟩ := h.named _ hmem
    obtain rfl := indexKey_injective hj
    refine ⟨⟨indexKey i, hmem, ?_⟩, hconf⟩
    rw [arrayIndex_indexKey hlt]
    simp [hle]

/-- **Both searches together find the stop.** -/
theorem settledLength_isStop (h : Inv a) (requested : Nat) :
    SparseArray.IsStop a.entry requested (a.settledLength requested) := by
  obtain ⟨l, hl, hle, habove, hblock⟩ : ∃ l, (if requested < a.elements.length then
        a.denseStop requested (a.elements.length - requested) else requested) = l ∧
      requested ≤ l ∧ (∀ i, l ≤ i → i < a.elements.length → a.blocks i = false) ∧
      (requested < l → a.blocks (l - 1) = true) := by
    refine ⟨_, rfl, ?_⟩
    split
    · next hlt =>
        obtain ⟨h₁, h₂, h₃⟩ := denseStop_spec a requested (a.elements.length - requested)
        exact ⟨h₁, fun i hi hi' => h₂ i hi (by omega), h₃⟩
    · next hge =>
        exact ⟨Nat.le_refl _, fun i hi hi' => by omega, fun hlt => absurd hlt (Nat.lt_irrefl _)⟩
  unfold settledLength
  simp only [hl]
  cases hs : a.sparseBlocker requested with
  | none =>
    rw [sparseBlocker, List.max?_eq_none_iff] at hs
    dsimp only
    refine ⟨hle, ?_, fun hlt => blocked_entry.2 (hblock hlt)⟩
    intro i hi hblocked
    have hb := blocked_entry.1 hblocked
    by_cases hdense : i < a.elements.length
    · rw [habove i hi hdense] at hb
      exact Bool.noConfusion hb
    · have hmem := (mem_sparse_iff h requested).2 ⟨by omega, Nat.le_of_not_lt hdense, hb⟩
      rw [hs] at hmem
      simp at hmem
  | some last =>
    rw [sparseBlocker, List.max?_eq_some_iff] at hs
    obtain ⟨hlast, hmax⟩ := hs
    obtain ⟨h₁, -, h₃⟩ := (mem_sparse_iff h requested).1 hlast
    dsimp only
    refine ⟨by omega, ?_, ?_⟩
    · intro i hi hblocked
      have hb := blocked_entry.1 hblocked
      by_cases hdense : i < a.elements.length
      · rw [habove i (by omega) hdense] at hb
        exact Bool.noConfusion hb
      · have hle' := hmax i ((mem_sparse_iff h requested).2 ⟨by omega, Nat.le_of_not_lt hdense, hb⟩)
        omega
    · intro hlt
      refine blocked_entry.2 ?_
      by_cases hcmp : last + 1 < l
      · rw [show max l (last + 1) = l by omega]
        exact hblock (by omega)
      · rw [show max l (last + 1) - 1 = last by omega]
        exact h₃

/-! ## What it drops -/

theorem keeps_indexKey {length : Nat} (h : i < length) : keeps length (indexKey i) = true := by
  unfold keeps
  cases hi : arrayIndex (indexKey i) with
  | none => rfl
  | some j =>
    obtain rfl := indexKey_injective (arrayIndex_eq_some hi)
    simpa using h

theorem not_keeps_indexKey {length : Nat} (h : length ≤ i) (hi : i < 2 ^ 32 - 1) :
    keeps length (indexKey i) = false := by
  unfold keeps
  rw [arrayIndex_indexKey hi]
  simpa using h

theorem attrs_forgetAll (m : ObjectMeta) (keys : List String) :
    (forgetAll m keys).attrs = m.attrs.filter fun p => decide (p.1 ∉ keys) := by
  induction keys generalizing m with
  | nil => simp [forgetAll]
  | cons key keys ih =>
    have hstep := ih (m.forget key)
    rw [forgetAll] at hstep
    rw [forgetAll, List.foldl_cons, hstep, attrs_forget_eq, List.filter_filter]
    congr 1
    funext p
    simp [Bool.and_comm]

/-- The named slots left over hold the indices below the length. -/
theorem get_dropNamed (h : Inv a) (length i : Nat) :
    Slots.get (a.dropNamed length).named (indexKey i) =
      if i < length then Slots.get a.named (indexKey i) else none := by
  have hfilter := Slots.get_filter
    (fun k => decide (k ∉ (a.removedKeys length).flatMap
      fun key => [key, "__setter:" ++ key ++ "__"])) a.named (indexKey i)
  simp only [dropNamed]
  rw [hfilter]
  by_cases hi : i < length
  · -- neither removed itself nor the setter half of a removed key
    have hkeep : indexKey i ∉ (a.removedKeys length).flatMap
        fun key => [key, "__setter:" ++ key ++ "__"] := by
      rw [List.mem_flatMap]
      rintro ⟨key, hkey, hmem⟩
      rcases List.mem_cons.1 hmem with rfl | hsetter
      · have := (List.mem_filter.1 hkey).2
        rw [keeps_indexKey hi] at this
        exact absurd this (by simp)
      · have heq : indexKey i = "_" ++ ("_setter:" ++ key ++ "__") := by
          rw [List.mem_singleton.1 hsetter]
          rw [← String.append_assoc, ← String.append_assoc]
          rfl
        exact indexKey_ne_underscore i _ heq
    simp [hkeep, hi]
  · rw [if_neg hi]
    by_cases hmem : indexKey i ∈ Slots.keys a.named
    · obtain ⟨j, hj, -, -, hlt, -⟩ := h.named _ hmem
      obtain rfl := indexKey_injective hj
      have hgone : indexKey i ∈ (a.removedKeys length).flatMap
          fun key => [key, "__setter:" ++ key ++ "__"] := by
        refine List.mem_flatMap.2 ⟨indexKey i, ?_, by simp⟩
        refine List.mem_filter.2 ⟨hmem, ?_⟩
        rw [not_keeps_indexKey (by omega) hlt]
        rfl
      simp [hgone]
    · rw [Slots.get_eq_none.2 hmem]
      simp

/-- What setting the length leaves behind, before the attributes are looked at. -/
structure Cut (a b : ArrayCell) (length : Nat) : Prop where
  named : b.named = (a.dropNamed length).named
  small : length ≤ maxArrayLen → b.elements.length = length
  large : maxArrayLen < length → b.elements.length = min length a.elements.length
  arrayLength : b.arrayLength = length
  bitmap : ∀ p, b.present = some p → p.length = b.elements.length
  dense : ∀ j < b.elements.length,
    b.dense j = if j < a.elements.length then a.dense j else none

/-- The vector and its bitmap are cut, or grown by holes. -/
theorem setLength_cut (h : Inv a) (requested : Nat) :
    Cut a (a.setLength requested) (a.settledLength requested) := by
  unfold setLength
  generalize a.settledLength requested = length
  obtain ⟨b, hb, hnamed, helements, hpresent⟩ : ∃ b : ArrayCell,
      (if length < a.elements.length then
        { a.dropNamed length with
          metadata := retainMeta (a.dropNamed length).metadata length a.elements.length }
      else a.dropNamed length) = b ∧ b.named = (a.dropNamed length).named ∧
      b.elements = a.elements ∧ b.present = a.present := by
    refine ⟨_, rfl, ?_⟩
    split <;> exact ⟨rfl, rfl, rfl⟩
  dsimp only
  rw [hb]
  split
  · next hlarge =>
      -- the length stays an override
      by_cases hlt : length < a.elements.length
      · rw [if_pos hlt]
        have htake : (b.elements.take length).length = length := by
          rw [List.length_take, helements]; omega
        refine ⟨hnamed, ?_, ?_, ?_, ?_, ?_⟩
        · intro hsmall; omega
        · intro _; simp [truncatePresence, helements]
        · simp [ArrayCell.arrayLength, truncatePresence]
        · intro p hp
          obtain ⟨q, hq, hn⟩ := Option.bind_eq_some_iff.1 hp
          rw [length_of_normalize hn]
          show (q.take length).length = (b.elements.take length).length
          rw [htake, List.length_take, h.bitmap q (hpresent ▸ hq)]
          omega
        · intro j hj
          have hj' : j < length := by
            simp only [truncatePresence, List.length_take] at hj
            omega
          have hja : j < a.elements.length := by omega
          have hbit : bit (b.present.bind fun p => normalize (p.take length)) j =
              bit a.present j := by
            rw [hpresent]
            cases a.present with
            | none => rfl
            | some p =>
              simp only [Option.bind_some, bit_normalize, List.getElem?_take, hj', if_true]
              rfl
          rw [if_pos hja]
          simp only [ArrayCell.dense, truncatePresence, hbit, helements, List.getElem?_take, hj',
            if_true]
      · rw [if_neg hlt]
        refine ⟨hnamed, ?_, ?_, ?_, ?_, ?_⟩
        · intro hsmall; omega
        · intro _
          show b.elements.length = _
          rw [helements]; omega
        · simp only [ArrayCell.arrayLength, helements, Option.getD_some]
          omega
        · intro p hp
          show p.length = b.elements.length
          rw [helements]
          exact h.bitmap p (hpresent ▸ hp)
        · intro j hj
          have hja : j < a.elements.length := helements ▸ hj
          rw [if_pos hja]
          simp only [ArrayCell.dense, hpresent, helements]
  · next hsmall =>
      -- the vector has the length itself
      obtain ⟨p', heq, hq, hbits⟩ := resizePresence_spec
        (a := { b with lengthOverride := none, elements := resize b.elements length .undefined })
        (o := a.elements.length) (by intro p hp; exact h.bitmap p (hpresent ▸ hp)) length
      rw [heq]
      refine ⟨hnamed, ?_, ?_, ?_, ?_, ?_⟩
      · intro _; simp
      · intro hlarge; omega
      · simp [ArrayCell.arrayLength]
      · intro p hp
        rw [length_resize]
        exact hq p hp
      · intro j hj
        rw [length_resize] at hj
        simp only [ArrayCell.dense, hbits j hj, getElem?_resize, hj, if_true, hpresent, helements]
        by_cases hja : j < a.elements.length <;> simp [hja]

/-- **Exactly the indices below the length survive.** -/
theorem indexValue_setLength (h : Inv a) (requested i : Nat) :
    (a.setLength requested).indexValue i =
      if i < a.settledLength requested then a.indexValue i else none := by
  have hc := setLength_cut h requested
  generalize hb : a.setLength requested = b at hc
  generalize a.settledLength requested = length at hc
  have hsmall := hc.small
  have hlarge := hc.large
  by_cases hi : i < b.elements.length
  · have hil : i < length := by omega
    rw [indexValue_dense hi, hc.dense i hi, if_pos hil]
    by_cases hia : i < a.elements.length
    · rw [if_pos hia, indexValue_dense hia]
    · rw [if_neg hia, indexValue_gap (by omega) (by omega)]
  · by_cases hm : maxArrayLen ≤ i
    · rw [indexValue_sparse (by omega) hm, hc.named, get_dropNamed h]
      by_cases hil : i < length
      · rw [if_pos hil, if_pos hil, indexValue_sparse (by omega) hm]
      · rw [if_neg hil, if_neg hil]
    · rw [indexValue_gap (by omega) (by omega)]
      by_cases hil : i < length
      · rw [if_pos hil, indexValue_gap (by omega) (by omega)]
      · rw [if_neg hil]

/-! ## What it forgets -/

/-- A key of the range is the key of an index in it. -/
theorem mem_keyRange {lo hi : Nat} : indexKey i ∈ keyRange lo hi ↔ lo ≤ i ∧ i < hi := by
  simp only [keyRange, List.mem_map, List.mem_range'_1]
  constructor
  · rintro ⟨j, hj, heq⟩
    obtain rfl := indexKey_injective heq
    omega
  · intro hi'
    exact ⟨i, by omega, rfl⟩

/-- The attributes left are those of the keys some test keeps: all indices below
the length pass it, no index that was dropped does. -/
theorem attrs_setLength (a : ArrayCell) (requested : Nat) :
    ∃ q : String → Bool,
      (a.setLength requested).metadata.attrs = a.metadata.attrs.filter (fun p => q p.1) ∧
      (∀ i < a.settledLength requested, q (indexKey i) = true) ∧
      ∀ i, a.settledLength requested ≤ i → i < 2 ^ 32 - 1 → a.indexValue i ≠ none →
        q (indexKey i) = false := by
  unfold setLength
  generalize a.settledLength requested = length
  have hremoved : ∀ i < length, indexKey i ∉ a.removedKeys length := by
    intro i hi hmem
    have := (List.mem_filter.1 hmem).2
    rw [keeps_indexKey hi] at this
    exact absurd this (by simp)
  by_cases hlt : length < a.elements.length
  · -- the vector shrinks: every index from the length on is forgotten
    have hretain : ∀ i, length ≤ i → i < 2 ^ 32 - 1 → keeps length (indexKey i) = false :=
      fun i hi hi' => not_keeps_indexKey hi hi'
    simp only [hlt, if_true]
    split
    · refine ⟨fun k => keeps length k && decide (k ∉ a.removedKeys length), ?_, ?_, ?_⟩
      · simp only [truncatePresence, retainMeta, dropNamed, attrs_forgetAll, List.filter_filter]
      · intro i hi
        simp [keeps_indexKey hi, hremoved i hi]
      · intro i hi hi' _
        simp [hretain i hi hi']
    · refine ⟨fun k => decide (k ∉ keyRange length a.elements.length) &&
        (keeps length k && decide (k ∉ a.removedKeys length)), ?_, ?_, ?_⟩
      · simp only [resizePresence, hlt, if_true, attrs_forgetAll, retainMeta, dropNamed,
          List.filter_filter]
      · intro i hi
        have hout : indexKey i ∉ keyRange length a.elements.length := by
          rw [mem_keyRange]; omega
        simp [keeps_indexKey hi, hremoved i hi, hout]
      · intro i hi hi' _
        simp [hretain i hi hi']
  · -- only named slots are dropped
    refine ⟨fun k => decide (k ∉ a.removedKeys length), ?_, ?_, ?_⟩
    · simp only [hlt, if_false]
      split
      · simp only [dropNamed, attrs_forgetAll]
      · simp only [resizePresence, hlt, if_false, dropNamed, attrs_forgetAll]
    · intro i hi
      simpa using hremoved i hi
    · intro i hi hi' hvalue
      have hmem : indexKey i ∈ a.removedKeys length := by
        refine List.mem_filter.2 ⟨?_, by rw [not_keeps_indexKey hi hi']; rfl⟩
        by_contra hout
        refine hvalue ?_
        by_cases hm : maxArrayLen ≤ i
        · rw [indexValue_sparse (by omega) hm]
          exact Slots.get_eq_none.2 hout
        · exact indexValue_gap (by omega) (by omega)
      simpa using hmem

/-- **Setting the length sets the length.** -/
theorem setLength_sim {r : SparseArray Value} (h : Sim a r) (requested : Nat) :
    Sim (a.setLength requested) (r.setLength requested) := by
  have hentries : r.entries = a.entry := funext fun i => (h.entries i).symm
  obtain ⟨hstop, hkept⟩ := r.setLength_spec requested
  rw [hentries] at hstop hkept
  have hlength : a.settledLength requested = (r.setLength requested).length :=
    (settledLength_isStop h.inv requested).unique hstop
  have hc := setLength_cut h.inv requested
  have hvalue := indexValue_setLength h.inv requested
  obtain ⟨q, hattrs, hbelow, habove⟩ := attrs_setLength a requested
  have hconf : ∀ i, (a.setLength requested).configurable i =
      (!q (indexKey i) || a.configurable i) := by
    intro i
    unfold configurable
    rw [ObjectMeta.attrsOf_filter q hattrs]
    by_cases hq : q (indexKey i) = true <;> simp [hq, PropAttrs.default]
  refine ⟨⟨hc.bitmap, ?_, ?_, ?_⟩, hc.arrayLength.trans hlength, ?_⟩
  · intro k hk
    have hk' : k ∈ Slots.keys a.named := by
      rw [hc.named] at hk
      exact (List.Sublist.map Prod.fst List.filter_sublist).subset hk
    obtain ⟨i, rfl, hm, hlen, hi, -⟩ := h.inv.named k hk'
    have hil : i < a.settledLength requested := by
      by_contra hge
      have hnone := get_dropNamed h.inv (a.settledLength requested) i
      rw [if_neg hge, Slots.get_eq_none, ← hc.named] at hnone
      exact hnone hk
    have hsmall := hc.small
    have hlarge := hc.large
    rw [hc.arrayLength]
    exact ⟨i, rfl, hm, by omega, hi, hil⟩
  · rw [hattrs]
    exact Slots.nodup_filter h.inv.attrs _
  · intro i hi habsent
    rw [hconf i]
    rw [hvalue i] at habsent
    by_cases hil : i < a.settledLength requested
    · rw [if_pos hil] at habsent
      simp [h.inv.absent i hi habsent]
    · by_cases hv : a.indexValue i = none
      · simp [h.inv.absent i hi hv]
      · simp [habove i (by omega) hi hv]
  · intro i
    rw [hkept i, ← hlength]
    simp only [entry, hvalue i, hconf i]
    by_cases hil : i < a.settledLength requested
    · simp [hil, hbelow i hil]
    · simp [hil]

/-! ## Runs -/

/-- The operations of the refinement. -/
inductive Op where
  | storeIndex (index : Nat) (value : Value)
  | setLength (length : Nat)
  | clearIndex (index : Nat)
  | setAttrs (index : Nat) (attrs : PropAttrs)

/-- The operands the language gives them: array indices, array lengths, and
attributes of properties that exist. -/
def Op.Allowed (a : ArrayCell) : Op → Prop
  | .storeIndex index _ => index < 2 ^ 32 - 1
  | .setLength length => length < 2 ^ 32
  | .clearIndex _ => True
  | .setAttrs index _ => a.hasIndex index = true

instance (a : ArrayCell) (op : Op) : Decidable (op.Allowed a) :=
  match op with
  | .storeIndex index _ => inferInstanceAs (Decidable (index < 2 ^ 32 - 1))
  | .setLength length => inferInstanceAs (Decidable (length < 2 ^ 32))
  | .clearIndex _ => inferInstanceAs (Decidable True)
  | .setAttrs index _ => inferInstanceAs (Decidable (a.hasIndex index = true))

/-- The operation on a cell. -/
def apply (a : ArrayCell) : Op → ArrayCell
  | .storeIndex index value => a.storeIndex index value
  | .setLength length => a.setLength length
  | .clearIndex index => a.setIndexPresence index false
  | .setAttrs index attrs => a.setAttrs index attrs

/-- The operation on a sparse array. -/
def Op.reference (r : SparseArray Value) : Op → SparseArray Value
  | .storeIndex index value => r.store index value
  | .setLength length => r.setLength length
  | .clearIndex index => r.delete index
  | .setAttrs index attrs => r.mark index attrs.configurable

/-- A new cell beside the sparse array of its elements. -/
def Initial (s : ArrayCell × SparseArray Value) : Prop :=
  ∃ proto elements, s = (ArrayCell.new proto elements, SparseArray.ofList elements)

/-- The same operation on both sides. -/
def Step (s t : ArrayCell × SparseArray Value) : Prop :=
  ∃ op : Op, op.Allowed s.1 ∧ t = (s.1.apply op, op.reference s.2)

theorem new_sim (proto : Option Value) (elements : List Value) :
    Sim (ArrayCell.new proto elements) (SparseArray.ofList elements) := by
  have hconf : ∀ i, (ArrayCell.new proto elements).configurable i = true := by
    intro i
    have hkey : ¬ "length" = indexKey i := by
      intro heq
      have hdigit : 'l'.isDigit = true := by
        refine Nat.isDigit_of_mem_toDigits (b := 10) (n := i) (by decide) (by decide) ?_
        rw [← Nat.toList_repr, show i.repr = "length" from heq.symm]
        decide
      exact absurd hdigit (by decide)
    simp [configurable, ArrayCell.new, arrayMeta, ObjectMeta.attrsOf, Slots.get_cons, hkey,
      PropAttrs.default]
  have hvalue : ∀ i, (ArrayCell.new proto elements).indexValue i = elements[i]? := by
    intro i
    by_cases hi : i < elements.length
    · rw [indexValue_dense hi]
      rfl
    · have hnone : elements[i]? = none := List.getElem?_eq_none (by omega)
      rw [hnone]
      by_cases hm : maxArrayLen ≤ i
      · rw [indexValue_sparse (Nat.le_of_not_lt hi) hm]
        rfl
      · exact indexValue_gap (Nat.le_of_not_lt hi) (by omega)
  refine ⟨⟨?_, ?_, ?_, fun i _ _ => hconf i⟩, ?_, ?_⟩
  · intro p hp
    simp [ArrayCell.new] at hp
  · intro k hk
    simp [ArrayCell.new] at hk
  · simp [ArrayCell.new, arrayMeta]
  · simp [ArrayCell.new, arrayLength, SparseArray.ofList]
  · intro i
    simp only [entry, hvalue i, hconf i]
    rfl

theorem sim_of_reachable {s : ArrayCell × SparseArray Value} (h : Reachable Initial Step s) :
    Sim s.1 s.2 := by
  refine Reachable.invariant (I := fun s => Sim s.1 s.2) ?_ ?_ h
  · rintro s ⟨proto, elements, rfl⟩
    exact new_sim proto elements
  · rintro s t hs ⟨op, hop, rfl⟩
    cases op with
    | storeIndex index value => exact storeIndex_sim hs hop value
    | setLength length => exact setLength_sim hs length
    | clearIndex index => exact delete_sim hs index
    | setAttrs index attrs => exact setAttrs_sim hs hop attrs

/-- **Hybrid arrays refine sparse arrays.**  After any sequence of stores, length
changes, deletions and attribute changes, a cell shows the length, the presence
and the values of the sparse array that went through the same operations. -/
theorem array_refines {a : ArrayCell} {r : SparseArray Value}
    (h : Reachable Initial Step (a, r)) :
    a.arrayLength = r.length ∧
      ∀ i, a.hasIndex i = (r.entries i).isSome ∧ a.indexValue i = (r.entries i).map Prod.fst := by
  have hs : Sim a r := sim_of_reachable h
  refine ⟨hs.length, fun i => ?_⟩
  rw [← isSome_indexValue, ← hs.entries i, entry, Option.isSome_map, Option.map_map]
  refine ⟨rfl, ?_⟩
  cases a.indexValue i <;> rfl

/-- A sparse element that may not be deleted, and a dense one. -/
def pinnedOps : List Op :=
  [.storeIndex 300000 (.bool true), .setAttrs 300000 ⟨true, true, false⟩,
    .storeIndex 5 (.bool false), .setLength 2]

/-- Shortening to 2 stops above the pinned element and keeps what lies below it. -/
theorem array_refines_pinned :
    let a := pinnedOps.foldl apply (ArrayCell.new none [])
    a.arrayLength = 300001 ∧ a.indexValue 5 = some (.bool false) ∧ a.hasIndex 3 = false := by
  have hreach : Reachable Initial Step
      (pinnedOps.foldl apply (ArrayCell.new none []),
        pinnedOps.foldl Op.reference (SparseArray.ofList [])) := by
    refine (((((Reachable.start ⟨none, [], rfl⟩).next ⟨.storeIndex 300000 (.bool true), ?_, rfl⟩).next
      ⟨.setAttrs 300000 ⟨true, true, false⟩, ?_, rfl⟩).next
      ⟨.storeIndex 5 (.bool false), ?_, rfl⟩).next ⟨.setLength 2, ?_, rfl⟩)
    all_goals decide +kernel
  obtain ⟨hlength, hvalues⟩ := array_refines hreach
  refine ⟨hlength.trans ?_, (hvalues 5).2.trans ?_, (hvalues 3).1.trans ?_⟩
  all_goals rfl

end NapiVm.ArrayCell
