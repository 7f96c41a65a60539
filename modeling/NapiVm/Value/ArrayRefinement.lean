import NapiVm.Lib.Run
import NapiVm.Lib.SparseArray
import NapiVm.Value.ArrayCell

/-!
# Arrays refine sparse arrays

The hybrid storage of `ArrayCell` behaves like one sparse array.  A state is read
through `index_value`, whose three regions are the dense vector, the gap between
it and 262144, and the named slots.

* `Inv` — how the parts of the storage fit together.
* `Sim` — a cell in good order represents a sparse array: the same length, and
  the same value and deletability at every index.
* `storeIndex_sim`, `delete_sim`, `setAttrs_sim`, `setLength_sim` — each
  operation is matched by the operation on the sparse array.
* `array_refines` — so the observables agree along every run.
-/

namespace NapiVm

/-! ## Vectors -/

theorem getElem?_resize {α : Type} (xs : List α) (n : Nat) (x : α) (j : Nat) :
    (resize xs n x)[j]? = if j < n then (if j < xs.length then xs[j]? else some x) else none := by
  unfold resize
  by_cases hn : j < n
  · by_cases hx : j < xs.length
    · rw [List.getElem?_append_left (by rw [List.length_take]; omega)]
      simp [hn, hx]
    · rw [List.getElem?_append_right (by rw [List.length_take]; omega), List.length_take]
      have hj : j - min n xs.length < n - xs.length := by omega
      simp [hn, hx, hj]
  · rw [if_neg hn]
    refine List.getElem?_eq_none ?_
    simp only [List.length_append, List.length_take, List.length_replicate]
    omega

namespace ArrayCell

/-! ## Reading a cell -/

/-- Is index `j` of the dense vector a value rather than a hole? -/
def bit (present : Option (List Bool)) (j : Nat) : Bool :=
  (present.bind fun p => p[j]?).getD true

/-- What the dense vector holds at `j`. -/
def dense (a : ArrayCell) (j : Nat) : Option Value :=
  if bit a.present j then a.elements[j]? else none

variable {a : ArrayCell} {i : Nat} {r : SparseArray Value}

theorem indexValue_dense (h : i < a.elements.length) : a.indexValue i = a.dense i := by
  have h' : ¬ a.elements.length ≤ i := by omega
  simp only [indexValue, hasIndex, h', and_false, false_and, if_false]
  rfl

theorem indexValue_gap (h₁ : a.elements.length ≤ i) (h₂ : i < maxArrayLen) :
    a.indexValue i = none := by
  have h' : ¬ maxArrayLen ≤ i := by omega
  simp [indexValue, hasIndex, h₁, h']

theorem indexValue_sparse (h₁ : a.elements.length ≤ i) (h₂ : maxArrayLen ≤ i) :
    a.indexValue i = Slots.get a.named (indexKey i) := by
  simp [indexValue, namedProp, h₁, h₂]

/-- Only the named slot of an index beyond the vector has changed, to `v`. -/
theorem indexValue_named {named : Slots String Value} {lengthOverride : Option Nat}
    {metadata : ObjectMeta} {v : Option Value} (hi : maxArrayLen ≤ i ∧ a.elements.length ≤ i)
    (hget : ∀ k, Slots.get named k = if k = indexKey i then v else Slots.get a.named k) (j : Nat) :
    indexValue { a with named, lengthOverride, metadata } j =
      if j = i then v else a.indexValue j := by
  by_cases hj : maxArrayLen ≤ j ∧ a.elements.length ≤ j
  · rw [indexValue_sparse hj.2 hj.1, indexValue_sparse (by exact hj.2) hj.1, hget]
    exact if_congr ⟨fun e => indexKey_injective e, congrArg indexKey⟩ rfl rfl
  · have hji : j ≠ i := by rintro rfl; exact hj hi
    simp only [if_neg hji, indexValue, hasIndex, if_neg hj, and_comm]

/-- `has_index` says whether `index_value` answers. -/
theorem isSome_indexValue (a : ArrayCell) (i : Nat) : (a.indexValue i).isSome = a.hasIndex i := by
  by_cases h : i < a.elements.length
  · have h' : ¬ a.elements.length ≤ i := by omega
    simp only [indexValue, h', false_and, if_false]
    cases a.hasIndex i <;> simp [h]
  · by_cases hm : maxArrayLen ≤ i
    · rw [indexValue_sparse (by omega) hm]
      simp [hasIndex, namedProp, hm, Nat.le_of_not_lt h]
    · rw [indexValue_gap (by omega) (by omega)]
      simp [hasIndex, hm, Nat.le_of_not_lt h]

theorem length_le_arrayLength (a : ArrayCell) : a.elements.length ≤ a.arrayLength :=
  Nat.le_max_left _ _

/-- The deletability recorded for an index. -/
def configurable (a : ArrayCell) (i : Nat) : Bool :=
  (a.metadata.attrsOf (indexKey i)).configurable

/-- The entry a cell represents at an index. -/
def entry (a : ArrayCell) (i : Nat) : Option (Value × Bool) :=
  (a.indexValue i).map fun v => (v, a.configurable i)

/-- The storage invariant: the bitmap has the length of the vector, named slots
hold indices the vector cannot, attributes are recorded once per key, and an
index without property can be created deletable. -/
structure Inv (a : ArrayCell) : Prop where
  bitmap : ∀ p, a.present = some p → p.length = a.elements.length
  named : ∀ k ∈ Slots.keys a.named, ∃ i, k = indexKey i ∧ maxArrayLen ≤ i ∧
    a.elements.length ≤ i ∧ i < 2 ^ 32 - 1 ∧ i < a.arrayLength
  attrs : (Slots.keys a.metadata.attrs).Nodup
  absent : ∀ i < 2 ^ 32 - 1, a.indexValue i = none → a.configurable i = true

/-- A cell in good order represents the sparse array `r`. -/
structure Sim (a : ArrayCell) (r : SparseArray Value) : Prop where
  inv : a.Inv
  length : a.arrayLength = r.length
  entries : ∀ i, a.entry i = r.entries i

/-- The deletability of the sparse array is the one recorded, holes included. -/
theorem Sim.deletable (h : Sim a r) (hi : i < 2 ^ 32 - 1) : r.deletable i = a.configurable i := by
  unfold SparseArray.deletable
  rw [← h.entries i, entry]
  cases hv : a.indexValue i with
  | none => exact (h.inv.absent i hi hv).symm
  | some v => rfl

/-! ## The bitmap -/

theorem bit_normalize (p : List Bool) (j : Nat) : bit (normalize p) j = (p[j]?).getD true := by
  unfold normalize
  split
  · next hall =>
      cases hj : p[j]? with
      | none => rfl
      | some b =>
        have hb := List.all_eq_true.1 hall b (List.mem_of_getElem? hj)
        simpa [bit] using hb.symm
  · rfl

theorem length_of_normalize {p q : List Bool} (h : normalize p = some q) : q = p := by
  unfold normalize at h
  split at h
  · simp at h
  · exact (Option.some.inj h).symm

/-- `resize_presence` without filling keeps the old bits and adds holes. -/
theorem resizePresence_spec {o : Nat} (hb : ∀ p, a.present = some p → p.length = o) (new : Nat) :
    ∃ p', resizePresence a o new false =
        { a with
          present := p'
          metadata := if new < o then forgetAll a.metadata (keyRange new o) else a.metadata } ∧
      (∀ q, p' = some q → q.length = new) ∧
      ∀ j < new, bit p' j = (decide (j < o) && bit a.present j) := by
  refine ⟨_, rfl, ?_, ?_⟩
  · intro q hq
    split at hq
    · have := length_of_normalize hq
      simp [this]
    · split at hq
      · simp at hq
      · split at hq
        · rw [← Option.some.inj hq, length_resize]
        · simp at hq
  · intro j hj
    cases hp : a.present with
    | some p =>
      have hlen := hb p hp
      simp only [bit_normalize, List.getElem?_take, getElem?_resize, hj, if_true, hlen]
      by_cases hjo : j < o <;> simp [hjo, bit]
    | none =>
      dsimp only
      by_cases h₁ : new < o
      · have hjo : j < o := by omega
        simp [h₁, hjo, bit]
      · rw [if_neg h₁]
        by_cases h₂ : o < new
        · simp only [h₂, decide_true, Bool.not_false, Bool.and_self, if_true, bit,
            Option.bind_some, getElem?_resize, hj, List.length_replicate]
          by_cases hjo : j < o <;> simp [hjo]
        · have hjo : j < o := by omega
          simp [h₂, hjo, bit]

/-- The bitmap a write starts from, made up if there is none. -/
theorem getElem?_bitmap (hb : ∀ p, a.present = some p → p.length = a.elements.length) {j : Nat}
    (hj : j < a.elements.length) :
    (a.present.getD (List.replicate a.elements.length true))[j]? = some (bit a.present j) := by
  cases hp : a.present with
  | none => simp [bit, hj]
  | some p => simp [bit, hb p hp, hj]

/-- Setting the bit of an index the vector holds. -/
theorem setIndexPresence_dense (hi : i < a.elements.length)
    (hb : ∀ p, a.present = some p → p.length = a.elements.length) (present : Bool) :
    ∃ p', setIndexPresence a i present =
        { a with
          present := p'
          metadata := if present then a.metadata else a.metadata.forget (indexKey i) } ∧
      (∀ q, p' = some q → q.length = a.elements.length) ∧
      ∀ j < a.elements.length, bit p' j = if j = i then present else bit a.present j := by
  have hi' : ¬ a.elements.length ≤ i := by omega
  simp only [setIndexPresence, hi', and_false, if_false]
  split
  · next hskip =>
      simp only [Bool.and_eq_true, Option.isNone_iff_eq_none] at hskip
      refine ⟨a.present, by simp [hskip.1], hb, ?_⟩
      intro j _
      by_cases hj : j = i <;> simp [hj, hskip.1, hskip.2, bit]
  · refine ⟨_, rfl, ?_, ?_⟩
    · intro q hq
      rw [← Option.some.inj hq, List.length_set, length_resize]
    · intro j hj
      have hold := getElem?_bitmap hb hj
      have hlen : j < (a.present.getD (List.replicate a.elements.length true)).length :=
        (List.getElem?_eq_some_iff.1 hold).1
      simp only [bit, Option.bind_some, List.getElem?_set, length_resize, getElem?_resize, hj,
        if_true, hlen, hold]
      by_cases hij : i = j
      · simp [hij, hj]
      · have hji : ¬ j = i := fun e => hij e.symm
        simp [hij, hji]

/-! ## Stores -/

/-- A store beyond the dense region. -/
theorem storeIndex_sparse (value : Value) (hi : maxArrayLen ≤ i ∧ a.elements.length ≤ i) :
    a.storeIndex i value =
      { a with
        named := Slots.upsert a.named (indexKey i) value
        lengthOverride := some (max a.arrayLength (i + 1)) } := by
  unfold storeIndex
  rw [if_pos hi]
  rfl

/-- What a store into the dense region leaves behind: the vector reaches the
index, holds the value there and what it held elsewhere. -/
structure DenseStore (a b : ArrayCell) (i : Nat) (value : Value) : Prop where
  named : b.named = a.named
  metadata : b.metadata = a.metadata
  override : b.lengthOverride = a.lengthOverride
  length : b.elements.length = max a.elements.length (i + 1)
  bitmap : ∀ p, b.present = some p → p.length = b.elements.length
  dense : ∀ j < b.elements.length,
    b.dense j = if j = i then some value else if j < a.elements.length then a.dense j else none

/-- The dense region ends where the vector and 262144 do. -/
theorem storeIndex_dense (h : Inv a) (value : Value)
    (hi : ¬ (maxArrayLen ≤ i ∧ a.elements.length ≤ i)) :
    DenseStore a (a.storeIndex i value) i value := by
  unfold storeIndex
  rw [if_neg hi]
  dsimp only
  split
  · -- appending: the bitmap, if any, grows by one value
    next heq =>
      subst heq
      refine ⟨rfl, rfl, rfl, ?_, ?_, ?_⟩
      · simp [appendPresent]
      · intro p hp
        obtain ⟨q, hq, rfl⟩ := Option.map_eq_some_iff.1 hp
        simp [appendPresent, h.bitmap q hq]
      · intro j hj
        have hj' : j < a.elements.length + 1 := by simpa [appendPresent] using hj
        have hbit : bit (a.present.map fun p => resize p (p.length + 1) true) j =
            (decide (j = a.elements.length) || bit a.present j) := by
          cases hp : a.present with
          | none => simp [bit]
          | some p =>
            have hlen := h.bitmap p hp
            simp only [bit, Option.map_some, Option.bind_some, getElem?_resize, hlen, hj', if_true]
            by_cases hlt : j < a.elements.length
            · have hne : j ≠ a.elements.length := by omega
              simp [hlt, hne]
            · have he : j = a.elements.length := by omega
              simp [he]
        simp only [ArrayCell.dense, appendPresent, hbit]
        by_cases hlt : j < a.elements.length
        · have hne : j ≠ a.elements.length := by omega
          simp [hne, hlt, List.getElem?_append_left hlt]
        · obtain rfl : j = a.elements.length := by omega
          simp
  · next hne =>
      -- growing leaves holes below the index, then the index itself is filled
      obtain ⟨b, hb, hlt, hnamed, hmeta, hover, hlen, hbit, hdense⟩ :
          ∃ b : ArrayCell, (if a.elements.length ≤ i then
              resizePresence { a with elements := resize a.elements (i + 1) .undefined }
                a.elements.length (i + 1) false
            else a) = b ∧ i < b.elements.length ∧ b.named = a.named ∧ b.metadata = a.metadata ∧
            b.lengthOverride = a.lengthOverride ∧
            b.elements.length = max a.elements.length (i + 1) ∧
            (∀ p, b.present = some p → p.length = b.elements.length) ∧
            ∀ j < b.elements.length, j ≠ i →
              b.dense j = if j < a.elements.length then a.dense j else none := by
        by_cases hgrow : a.elements.length ≤ i
        · rw [if_pos hgrow]
          obtain ⟨p', heq, hq, hbits⟩ := resizePresence_spec
            (a := { a with elements := resize a.elements (i + 1) .undefined })
            (o := a.elements.length) h.bitmap (i + 1)
          refine ⟨_, rfl, ?_⟩
          rw [heq]
          have hshort : ¬ i + 1 < a.elements.length := by omega
          refine ⟨by simp, rfl, by simp [hshort], rfl, ?_, ?_, ?_⟩
          · simp only [length_resize]; omega
          · intro p hp
            rw [length_resize]
            exact hq p hp
          · intro j hj hji
            rw [length_resize] at hj
            simp only [ArrayCell.dense, hbits j hj, getElem?_resize, hj, if_true]
            by_cases hlt : j < a.elements.length <;> simp [hlt]
        · rw [if_neg hgrow]
          refine ⟨a, rfl, by omega, rfl, rfl, rfl, by omega, h.bitmap, ?_⟩
          intro j hj _
          rw [if_pos hj]
      rw [hb]
      have hset : i < ({ b with elements := b.elements.set i value } : ArrayCell).elements.length := by
        simpa using hlt
      obtain ⟨p', heq, hq, hbits⟩ := setIndexPresence_dense hset
        (by intro p hp; rw [List.length_set]; exact hbit p hp) true
      rw [heq]
      refine ⟨hnamed, by simpa using hmeta, hover, by simpa using hlen, hq, ?_⟩
      intro j hj
      have hj' : j < b.elements.length := by simpa using hj
      simp only [ArrayCell.dense, hbits j hj]
      by_cases hji : j = i
      · subst hji
        simp [hlt]
      · have hij : ¬ i = j := fun e => hji e.symm
        have := hdense j hj' hji
        simp only [ArrayCell.dense] at this
        simp [hji, List.getElem?_set_ne hij, this]

/-- A store changes one index, whichever storage it lands in. -/
theorem indexValue_storeIndex (h : Inv a) (i : Nat) (value : Value) (j : Nat) :
    (a.storeIndex i value).indexValue j = if j = i then some value else a.indexValue j := by
  by_cases hi : maxArrayLen ≤ i ∧ a.elements.length ≤ i
  · rw [storeIndex_sparse value hi]
    exact indexValue_named hi (fun k => Slots.get_upsert _ _ k _) j
  · have hs := storeIndex_dense h value hi
    have hlen := hs.length
    by_cases hj : j < (a.storeIndex i value).elements.length
    · rw [indexValue_dense hj, hs.dense j hj]
      by_cases hji : j = i
      · simp [hji]
      · rw [if_neg hji, if_neg hji]
        by_cases hja : j < a.elements.length
        · rw [if_pos hja, indexValue_dense hja]
        · -- between the old vector and the index: a new hole, and nothing before
          rw [if_neg hja, indexValue_gap (by omega) (by omega)]
    · have hji : j ≠ i := by omega
      rw [if_neg hji]
      by_cases hm : maxArrayLen ≤ j
      · rw [indexValue_sparse (by omega) hm, indexValue_sparse (by omega) hm, hs.named]
      · rw [indexValue_gap (by omega) (by omega), indexValue_gap (by omega) (by omega)]

theorem arrayLength_storeIndex (h : Inv a) (i : Nat) (value : Value) :
    (a.storeIndex i value).arrayLength = max a.arrayLength (i + 1) := by
  by_cases hi : maxArrayLen ≤ i ∧ a.elements.length ≤ i
  · rw [storeIndex_sparse value hi]
    have hle := length_le_arrayLength a
    show max a.elements.length (max a.arrayLength (i + 1)) = _
    omega
  · have hs := storeIndex_dense h value hi
    unfold arrayLength
    rw [hs.length, hs.override]
    omega

theorem metadata_storeIndex (h : Inv a) (i : Nat) (value : Value) :
    (a.storeIndex i value).metadata = a.metadata := by
  by_cases hi : maxArrayLen ≤ i ∧ a.elements.length ≤ i
  · rw [storeIndex_sparse value hi]
  · exact (storeIndex_dense h value hi).metadata

theorem Inv.storeIndex (h : Inv a) (hi : i < 2 ^ 32 - 1) (value : Value) :
    Inv (a.storeIndex i value) := by
  have hlength := arrayLength_storeIndex h i value
  refine ⟨?_, ?_, ?_, ?_⟩
  · by_cases hs : maxArrayLen ≤ i ∧ a.elements.length ≤ i
    · rw [storeIndex_sparse value hs]
      exact h.bitmap
    · exact (storeIndex_dense h value hs).bitmap
  · intro k hk
    rw [hlength]
    by_cases hs : maxArrayLen ≤ i ∧ a.elements.length ≤ i
    · rw [storeIndex_sparse value hs] at hk ⊢
      rcases Slots.mem_keys_upsert hk with rfl | hold
      · exact ⟨i, rfl, hs.1, hs.2, hi, by omega⟩
      · obtain ⟨j, hj, h₁, h₂, h₃, h₄⟩ := h.named k hold
        exact ⟨j, hj, h₁, h₂, h₃, by omega⟩
    · have hd := storeIndex_dense h value hs
      rw [hd.named] at hk
      obtain ⟨j, hj, h₁, h₂, h₃, h₄⟩ := h.named k hk
      have := hd.length
      exact ⟨j, hj, h₁, by omega, h₃, by omega⟩
  · rw [metadata_storeIndex h]
    exact h.attrs
  · intro j hj habsent
    rw [indexValue_storeIndex h] at habsent
    unfold configurable
    rw [metadata_storeIndex h]
    by_cases hji : j = i
    · simp [hji] at habsent
    · rw [if_neg hji] at habsent
      exact h.absent j hj habsent

/-- **A store is a store.** -/
theorem storeIndex_sim (h : Sim a r) (hi : i < 2 ^ 32 - 1) (value : Value) :
    Sim (a.storeIndex i value) (r.store i value) := by
  refine ⟨h.inv.storeIndex hi value, ?_, ?_⟩
  · rw [arrayLength_storeIndex h.inv, h.length]
    rfl
  · intro j
    have hconf : (a.storeIndex i value).configurable j = a.configurable j := by
      unfold configurable
      rw [metadata_storeIndex h.inv]
    simp only [entry, indexValue_storeIndex h.inv, hconf]
    show _ = (r.entries.insert i (value, r.deletable i)) j
    by_cases hj : j = i
    · rw [hj, PMap.insert_self, h.deletable hi]
      simp
    · rw [PMap.insert_of_ne hj, ← h.entries j, if_neg hj]
      rfl

/-! ## Deletions and attributes -/

theorem attrs_forget_eq (m : ObjectMeta) (key : String) :
    (m.forget key).attrs = m.attrs.filter fun p => decide (p.1 ≠ key) := rfl

theorem configurable_forget (m : ObjectMeta) (i j : Nat) :
    ((m.forget (indexKey i)).attrsOf (indexKey j)).configurable =
      (decide (j = i) || (m.attrsOf (indexKey j)).configurable) := by
  rw [ObjectMeta.attrsOf_filter (fun k => decide (k ≠ indexKey i)) (attrs_forget_eq m _)]
  by_cases hj : j = i
  · simp [hj, PropAttrs.default]
  · have hkey : ¬ indexKey j = indexKey i := fun e => hj (indexKey_injective e)
    simp [hj, hkey]

/-- What clearing the presence of an index leaves behind. -/
structure Deleted (a b : ArrayCell) (i : Nat) : Prop where
  metadata : b.metadata = a.metadata.forget (indexKey i)
  override : b.lengthOverride = a.lengthOverride
  elements : b.elements = a.elements
  named : ∀ k ∈ Slots.keys b.named, k ∈ Slots.keys a.named
  bitmap : ∀ p, b.present = some p → p.length = b.elements.length
  value : ∀ j, b.indexValue j = if j = i then none else a.indexValue j

theorem setIndexPresence_false (h : Inv a) (i : Nat) :
    Deleted a (a.setIndexPresence i false) i := by
  by_cases hs : maxArrayLen ≤ i ∧ a.elements.length ≤ i
  · -- a named slot is dropped
    have heq : a.setIndexPresence i false =
        { a with
          named := Slots.removeKey a.named (indexKey i)
          metadata := a.metadata.forget (indexKey i) } := by
      simp [setIndexPresence, hs]
    rw [heq]
    refine ⟨rfl, rfl, rfl, ?_, h.bitmap, ?_⟩
    · intro k hk
      exact (List.Sublist.map Prod.fst List.filter_sublist).subset hk
    · exact indexValue_named hs fun k => Slots.get_removeKey _ _ k
  · by_cases hi : i < a.elements.length
    · obtain ⟨p', heq, hq, hbits⟩ := setIndexPresence_dense hi h.bitmap false
      rw [heq]
      refine ⟨rfl, rfl, rfl, fun k hk => hk, hq, ?_⟩
      intro j
      by_cases hj : j < a.elements.length
      · rw [indexValue_dense (a := a) hj, indexValue_dense (by exact hj)]
        simp only [ArrayCell.dense, hbits j hj]
        by_cases hji : j = i <;> simp [hji]
      · have hji : j ≠ i := by omega
        have hj' : a.elements.length ≤ j := by omega
        rw [if_neg hji]
        by_cases hm : maxArrayLen ≤ j
        · rw [indexValue_sparse (a := a) hj' hm, indexValue_sparse (by exact hj') hm]
        · rw [indexValue_gap (a := a) hj' (by omega), indexValue_gap (by exact hj') (by omega)]
    · -- an index in the gap has nothing to delete; only the bitmap is written out
      have hgap : i < maxArrayLen := by omega
      have heq : a.setIndexPresence i false =
          { a with
            present := some ((resize (a.present.getD (List.replicate a.elements.length true))
              a.elements.length true).set i false)
            metadata := a.metadata.forget (indexKey i) } := by
        simp [setIndexPresence, hs]
      rw [heq]
      refine ⟨rfl, rfl, rfl, fun k hk => hk, ?_, ?_⟩
      · intro p hp
        rw [← Option.some.inj hp]
        simp
      · intro j
        by_cases hj : j < a.elements.length
        · have hij : ¬ i = j := by omega
          have hji : j ≠ i := by omega
          rw [if_neg hji, indexValue_dense (a := a) hj, indexValue_dense (by exact hj)]
          have hold := getElem?_bitmap h.bitmap hj
          have hlen := (List.getElem?_eq_some_iff.1 hold).1
          simp only [ArrayCell.dense, bit, Option.bind_some, List.getElem?_set_ne hij,
            getElem?_resize, hj, hlen, if_true, hold, Option.getD_some]
          rfl
        · have hj' : a.elements.length ≤ j := by omega
          by_cases hm : maxArrayLen ≤ j
          · have hji : j ≠ i := by omega
            rw [if_neg hji, indexValue_sparse (a := a) hj' hm, indexValue_sparse (by exact hj') hm]
          · rw [indexValue_gap (a := a) hj' (by omega), indexValue_gap (by exact hj') (by omega)]
            simp

/-- **A deletion is a deletion.** -/
theorem delete_sim (h : Sim a r) (i : Nat) : Sim (a.setIndexPresence i false) (r.delete i) := by
  have hd := setIndexPresence_false h.inv i
  have hlength : (a.setIndexPresence i false).arrayLength = a.arrayLength := by
    unfold arrayLength
    rw [hd.elements, hd.override]
  have hconf : ∀ j, (a.setIndexPresence i false).configurable j =
      (decide (j = i) || a.configurable j) := by
    intro j
    unfold configurable
    rw [hd.metadata]
    exact configurable_forget a.metadata i j
  refine ⟨⟨hd.bitmap, ?_, ?_, ?_⟩, ?_, ?_⟩
  · intro k hk
    obtain ⟨j, hj⟩ := h.inv.named k (hd.named k hk)
    rw [hd.elements, hlength]
    exact ⟨j, hj⟩
  · rw [hd.metadata, attrs_forget_eq]
    exact Slots.nodup_filter h.inv.attrs _
  · intro j hj habsent
    rw [hconf j]
    rw [hd.value j] at habsent
    by_cases hji : j = i
    · simp [hji]
    · rw [if_neg hji] at habsent
      simp [h.inv.absent j hj habsent]
  · rw [hlength, h.length]
    rfl
  · intro j
    show _ = (r.entries.erase i) j
    simp only [entry, hd.value j, hconf j]
    by_cases hji : j = i
    · simp [hji]
    · rw [if_neg hji, PMap.erase_of_ne hji, ← h.entries j]
      simp [entry, hji]

/-- **Setting attributes marks the entry**, and must find one. -/
theorem setAttrs_sim (h : Sim a r) (hi : a.hasIndex i = true) (attrs : PropAttrs) :
    Sim (a.setAttrs i attrs) (r.mark i attrs.configurable) := by
  have hvalue : ∀ j, (a.setAttrs i attrs).indexValue j = a.indexValue j := fun _ => rfl
  have hconf : ∀ j, (a.setAttrs i attrs).configurable j =
      if j = i then attrs.configurable else a.configurable j := by
    intro j
    unfold configurable
    show ((a.metadata.setAttrs (indexKey i) attrs).attrsOf (indexKey j)).configurable = _
    rw [ObjectMeta.attrsOf_setAttrs h.inv.attrs]
    by_cases hj : j = i
    · simp [hj]
    · have hkey : ¬ indexKey j = indexKey i := fun e => hj (indexKey_injective e)
      simp [hj, hkey]
  refine ⟨⟨h.inv.bitmap, h.inv.named, ObjectMeta.nodup_setAttrs h.inv.attrs _ _, ?_⟩, h.length, ?_⟩
  · intro j hj habsent
    rw [hconf j]
    rw [hvalue j] at habsent
    by_cases hji : j = i
    · rw [← isSome_indexValue, ← hji, habsent] at hi
      exact absurd hi (by simp)
    · rw [if_neg hji]
      exact h.inv.absent j hj habsent
  · intro j
    show _ = if j = i then (r.entries i).map _ else r.entries j
    simp only [entry, hvalue j, hconf j]
    by_cases hji : j = i
    · rw [hji, if_pos rfl, if_pos rfl, ← h.entries i, entry, Option.map_map]
      rfl
    · rw [if_neg hji, if_neg hji, ← h.entries j]
      rfl

end ArrayCell

end NapiVm
