import NapiVm.Object.Define

/-!
# A definition that fails

A definition is checked before anything is written.  What can still stop it is the limit on the
number of properties, and that is asked before each slot: of the two slots of an accessor the
second may find no room.

* `defineOrdinaryIn_eq` — on slots that hold no binding it is the definition of ordinary storage.
* `HalfWrites` — the getter goes in and its setter does not.
* `defineProperty_unchanged_iff` — a definition that fails changes nothing, but for these.
-/

namespace NapiVm

/-! ## What the slots look like -/

namespace ObjectStore

variable {bindings : Bindings} {s seen : ObjectStore} {key : String} {d : Descriptor}

theorem ownSlot_deref (bindings : Bindings) (s : ObjectStore) (key : String) :
    (s.deref bindings).ownSlot key = (s.ownSlot key).map (Value.derefBinding bindings) := by
  simp only [ownSlot, deref, Slots.get, List.find?_map, Option.map_map]
  rfl

theorem deref_eq_self (h : ∀ p ∈ s.slots, ∀ cell, p.2 ≠ .binding cell) : s.deref bindings = s := by
  have hsame : s.slots.map (fun p => (p.1, p.2.derefBinding bindings)) = s.slots.map id := by
    refine List.map_congr_left fun p hp => ?_
    obtain ⟨name, value⟩ := p
    cases value with
    | binding cell => exact absurd rfl (h _ hp cell)
    | _ => rfl
  rw [deref, hsame, List.map_id]

/-- Without bindings this is the definition on ordinary storage. -/
theorem defineOrdinaryIn_eq (realm : Realm) (key : String) (d : Descriptor)
    (h : ∀ p ∈ s.slots, ∀ cell, p.2 ≠ .binding cell) :
    s.defineOrdinaryIn realm bindings key d = s.defineOrdinary realm key d := by
  have hseen : s.deref bindings = s := deref_eq_self h
  have hdescriptor : s.descriptorForIn bindings key = s.descriptorFor key := by
    rw [descriptorForIn, hseen]
    rfl
  have hcommit : commitIn s s key d = s.commit key d := rfl
  rw [defineOrdinaryIn, check, hdescriptor, hseen, hcommit, defineOrdinary]
  by_cases hns : (s.metadata.moduleNamespace && (s.metadata.symbolKey key).isNone) = true
  · rw [if_pos hns, if_pos hns]
    by_cases hrefuses : s.namespaceRefuses key d = true
    · rw [if_pos hrefuses, if_pos hrefuses]
    · rw [if_neg hrefuses, if_neg hrefuses]
  rw [if_neg hns, if_neg hns]
  by_cases hmixed : (d.isAccessor && d.isData) = true
  · rw [if_pos hmixed, if_pos hmixed]
  rw [if_neg hmixed, if_neg hmixed]
  by_cases hold : ((s.ownSlot key).isSome && !compatibleDescriptor (s.descriptorFor key) d) = true
  · rw [if_pos hold, if_pos hold]
  rw [if_neg hold, if_neg hold]
  by_cases hnew : ((s.ownSlot key).isNone && s.metadata.nonExtensible) = true
  · rw [if_pos hnew, if_pos hnew]
  rw [if_neg hnew, if_neg hnew]
  by_cases hhalves : (s.becomesAccessor key d &&
      !(callableField realm d.get && callableField realm d.set)) = true
  · rw [if_pos hhalves, if_pos hhalves]
  · rw [if_neg hhalves, if_neg hhalves]

/-! ## Where the limit stops the storing -/

variable {slots : Slots String Value}

/-- A key that is there is overwritten. -/
theorem storeValues_of_mem (h : key ∈ Slots.keys slots) (value : Value) :
    (storeValues slots [(key, value)]).1 = .ok () := by
  rw [storeValues]
  split
  · rfl
  · next hnone => exact absurd h (Slots.position_eq_none.1 hnone)

/-- A key that is not there is pushed, or nothing is changed. -/
theorem storeValues_of_not_mem (h : key ∉ Slots.keys slots) (value : Value) :
    (storeValues slots [(key, value)]).1 = .ok () ∨
      (storeValues slots [(key, value)]).2 = slots := by
  rw [storeValues, Slots.position_eq_none.2 h]
  dsimp only
  split
  · exact .inr rfl
  · exact .inl rfl

/-- The getter goes in and its setter does not: there is no room for the companion. -/
def NoRoom (s : ObjectStore) (key : String) (getter : Value) : Prop :=
  companion key ∉ Slots.keys s.slots ∧
    (key ∉ Slots.keys s.slots ∧ s.slots.length < maxObjectProps ∧
        maxObjectProps ≤ s.slots.length + 1 ∨
      key ∈ Slots.keys s.slots ∧ s.ownSlot key ≠ some getter ∧ maxObjectProps ≤ s.slots.length)

/-- Two slots are written, and only the first has room. -/
theorem storeValues_pair_iff (s : ObjectStore) (key : String) (getter setter : Value) :
    ((storeValues s.slots [(key, getter), (companion key, setter)]).1 ≠ .ok () →
        (storeValues s.slots [(key, getter), (companion key, setter)]).2 = s.slots) ↔
      ¬ s.NoRoom key getter := by
  rw [storeValues]
  cases hkey : Slots.position s.slots key with
  | some i =>
    have hmem : key ∈ Slots.keys s.slots := by
      by_contra hnot
      rw [Slots.position_eq_none.2 hnot] at hkey
      cases hkey
    dsimp only
    by_cases hcompanion : companion key ∈ Slots.keys s.slots
    · have hmem' : companion key ∈ Slots.keys (Slots.setValue s.slots i getter) := by
        rw [Slots.keys_setValue]
        exact hcompanion
      have hstored := storeValues_of_mem hmem' setter
      exact iff_of_true (fun h => absurd hstored h) fun h => h.1 hcompanion
    · have hposition : Slots.position (Slots.setValue s.slots i getter) (companion key) = none :=
        Slots.position_eq_none.2 (by rw [Slots.keys_setValue]; exact hcompanion)
      have hlength : (Slots.setValue s.slots i getter).length = s.slots.length := by
        rw [Slots.setValue, List.length_modify]
      rw [storeValues, hposition]
      dsimp only
      rw [hlength]
      by_cases hfull : maxObjectProps ≤ s.slots.length
      · rw [if_pos hfull]
        have hsame : Slots.setValue s.slots i getter = s.slots ↔ s.ownSlot key = some getter := by
          constructor
          · intro h
            have hget := Slots.get_setValue_position hkey getter key
            rw [h, if_pos rfl] at hget
            exact hget
          · exact fun h => Slots.setValue_self hkey h
        simp only [NoRoom, hcompanion, hmem, hfull, hsame]
        simp
      · rw [if_neg hfull]
        refine iff_of_true (fun h => absurd rfl h) ?_
        rintro ⟨-, ⟨hnot, -⟩ | ⟨-, -, hle⟩⟩
        · exact hnot hmem
        · exact hfull hle
  | none =>
    have hnot : key ∉ Slots.keys s.slots := Slots.position_eq_none.1 hkey
    dsimp only
    by_cases hfull : maxObjectProps ≤ s.slots.length
    · rw [if_pos hfull]
      refine iff_of_true (fun _ => rfl) ?_
      rintro ⟨-, ⟨-, hlt, -⟩ | ⟨hmem, -⟩⟩
      · omega
      · exact hnot hmem
    · rw [if_neg hfull]
      by_cases hcompanion : companion key ∈ Slots.keys s.slots
      · have hmem : companion key ∈ Slots.keys (s.slots ++ [(key, getter)]) := by
          rw [Slots.keys_append]
          exact List.mem_append_left _ hcompanion
        have hstored := storeValues_of_mem hmem setter
        exact iff_of_true (fun h => absurd hstored h) fun h => h.1 hcompanion
      · have hposition : Slots.position (s.slots ++ [(key, getter)]) (companion key) = none := by
          refine Slots.position_eq_none.2 fun hmem => ?_
          rw [Slots.keys_append, List.mem_append] at hmem
          rcases hmem with hmem | hmem
          · exact hcompanion hmem
          · exact companion_ne key (List.mem_singleton.1 hmem)
        rw [storeValues, hposition]
        dsimp only
        rw [List.length_append, List.length_singleton]
        by_cases hnext : maxObjectProps ≤ s.slots.length + 1
        · rw [if_pos hnext]
          refine iff_of_false (fun h => ?_) fun h => h ⟨hcompanion, .inl ⟨hnot, by omega, hnext⟩⟩
          have hlength := congrArg List.length (h (by simp))
          rw [List.length_append, List.length_singleton] at hlength
          omega
        · rw [if_neg hnext]
          refine iff_of_true (fun h => absurd rfl h) ?_
          rintro ⟨-, ⟨-, -, hle⟩ | ⟨hmem, -⟩⟩
          · exact hnext hle
          · exact hnot hmem

/-- Dropping the companion drops no other slot. -/
theorem mem_keys_removeCompanion (h : key ∈ Slots.keys slots) :
    key ∈ Slots.keys (Slots.removeKey slots (companion key)) := by
  have hget : Slots.get (Slots.removeKey slots (companion key)) key = Slots.get slots key := by
    rw [Slots.get_removeKey, if_neg (companion_ne key).symm]
  by_contra hnot
  rw [Slots.get_eq_none.2 hnot] at hget
  exact Slots.get_eq_none.1 hget.symm h

/-- Is it a new data property? -/
def Fresh (seen : ObjectStore) (key : String) (d : Descriptor) : Prop :=
  ((seen.ownSlot key).isNone && !seen.becomesAccessor key d &&
    !(seen.redefinition key d).dropCompanion) = true

/-- The slots that the values are stored over. -/
def cleared (seen s : ObjectStore) (key : String) (d : Descriptor) : Slots String Value :=
  if (seen.redefinition key d).dropCompanion then Slots.removeKey s.slots (companion key)
  else s.slots

/-- Whether something is left behind shows in the slots. -/
theorem commitIn_unchanged_of_stored (h : ¬ seen.Fresh key d) :
    ((commitIn seen s key d).1 ≠ .ok () → (commitIn seen s key d).2 = s) ↔
      ((storeValues (cleared seen s key d) (seen.redefinition key d).values).1 ≠ .ok () →
        (storeValues (cleared seen s key d) (seen.redefinition key d).values).2 = s.slots) := by
  rw [Fresh] at h
  rw [commitIn, cleared]
  dsimp only
  rw [if_neg h]
  cases storeValues _ _ with
  | mk r slots =>
    cases r with
    | ok u => exact iff_of_true (fun h => absurd rfl h) fun h => absurd rfl h
    | error e =>
      constructor
      · exact fun h _ => congrArg ObjectStore.slots (h nofun)
      · intro h _
        have hslots : slots = s.slots := h nofun
        rw [hslots]

theorem commitIn_fresh (h : seen.Fresh key d) :
    (commitIn seen s key d).1 ≠ .ok () → (commitIn seen s key d).2 = s := by
  have hcommit : commitIn seen s key d =
      if maxObjectProps ≤ s.slots.length then
        (.error (limitErr "Maximum object property count exceeded"), s)
      else
        (.ok (), { slots := s.slots ++ [(key, (d.value.getD .undefined))]
                   metadata :=
                     (s.metadata.setAttrs key (seen.newAttrs key d)).setExplicitData key true }) :=
    if_pos h
  rw [hcommit]
  split
  · exact fun _ => rfl
  · exact fun hfail => absurd rfl hfail

/-- Where one value is stored, nothing is left behind. -/
theorem commitIn_single (value : Value) (h : ¬ seen.Fresh key d)
    (hvalues : (seen.redefinition key d).values = [(key, value)])
    (hdrop : (seen.redefinition key d).dropCompanion = true → key ∈ Slots.keys s.slots) :
    (commitIn seen s key d).1 ≠ .ok () → (commitIn seen s key d).2 = s := by
  rw [commitIn_unchanged_of_stored h, hvalues]
  by_cases hdropped : (seen.redefinition key d).dropCompanion = true
  · rw [cleared, if_pos hdropped]
    exact fun hfail => absurd
      (storeValues_of_mem (mem_keys_removeCompanion (hdrop hdropped)) value) hfail
  · rw [cleared, if_neg hdropped]
    intro hfail
    by_cases hmem : key ∈ Slots.keys s.slots
    · exact absurd (storeValues_of_mem hmem value) hfail
    · exact (storeValues_of_not_mem hmem value).resolve_left hfail

theorem mem_keys_of_oldAccessorKind (h : ((s.deref bindings).oldAccessorKind key).isSome = true) :
    key ∈ Slots.keys s.slots := by
  by_contra hnot
  rw [oldAccessorKind, ownSlot_deref, ownSlot, Slots.get_eq_none.2 hnot] at h
  cases h

/-- The definition writes the getter and has no room for the setter. -/
def HalfStored (bindings : Bindings) (s : ObjectStore) (key : String) (d : Descriptor) : Prop :=
  (s.deref bindings).becomesAccessor key d = true ∧ ∃ getter setter,
    (s.deref bindings).newGetter key d = some getter ∧
      (s.deref bindings).newSetter key d = some setter ∧ s.NoRoom key getter

theorem commitIn_unchanged_iff (bindings : Bindings) (s : ObjectStore) (key : String)
    (d : Descriptor) :
    ((commitIn (s.deref bindings) s key d).1 ≠ .ok () →
        (commitIn (s.deref bindings) s key d).2 = s) ↔ ¬ s.HalfStored bindings key d := by
  by_cases hbecomes : (s.deref bindings).becomesAccessor key d = true
  · have hfresh : ¬ (s.deref bindings).Fresh key d := by simp [Fresh, hbecomes]
    have hdrop : (((s.deref bindings).redefinition key d).dropCompanion = true →
        key ∈ Slots.keys s.slots) := by
      intro h
      rw [redefinition, if_pos hbecomes] at h
      exact mem_keys_of_oldAccessorKind (Bool.and_eq_true_iff.1 h).1
    cases hgetter : (s.deref bindings).newGetter key d with
    | none =>
      refine iff_of_true ?_ ?_
      · cases hsetter : (s.deref bindings).newSetter key d with
        | none =>
          refine commitIn_single .undefined hfresh ?_ hdrop
          rw [redefinition, if_pos hbecomes, hgetter, hsetter]
          rfl
        | some setter =>
          refine commitIn_single setter hfresh ?_ hdrop
          rw [redefinition, if_pos hbecomes, hgetter, hsetter]
          rfl
      · rintro ⟨-, getter, setter, hsome, -⟩
        rw [hgetter] at hsome
        cases hsome
    | some getter =>
      cases hsetter : (s.deref bindings).newSetter key d with
      | none =>
        refine iff_of_true ?_ ?_
        · refine commitIn_single getter hfresh ?_ hdrop
          rw [redefinition, if_pos hbecomes, hgetter, hsetter]
          rfl
        · rintro ⟨-, getter, setter, -, hsome, -⟩
          rw [hsetter] at hsome
          cases hsome
      | some setter =>
        have hvalues : ((s.deref bindings).redefinition key d).values =
            [(key, getter), (companion key, setter)] := by
          rw [redefinition, if_pos hbecomes, hgetter, hsetter]
          rfl
        have hkeeps : ((s.deref bindings).redefinition key d).dropCompanion = false := by
          rw [redefinition, if_pos hbecomes, hgetter, hsetter]
          exact Bool.and_false _
        rw [commitIn_unchanged_of_stored hfresh, hvalues, cleared, hkeeps,
          if_neg Bool.false_ne_true, storeValues_pair_iff, not_iff_not]
        constructor
        · exact fun h => ⟨hbecomes, getter, setter, hgetter, hsetter, h⟩
        · rintro ⟨-, getter', setter', hgetter', -, h⟩
          rw [hgetter] at hgetter'
          cases hgetter'
          exact h
  · refine iff_of_true ?_ fun h => hbecomes h.1
    by_cases hfresh : (s.deref bindings).Fresh key d
    · exact commitIn_fresh hfresh
    · refine commitIn_single ((d.value.or
        (if ((s.deref bindings).oldAccessorKind key).isSome then none
          else (s.deref bindings).ownSlot key)).getD .undefined) hfresh ?_ fun h => ?_
      · rw [redefinition, if_neg hbecomes]
      · rw [redefinition, if_neg hbecomes] at h
        exact mem_keys_of_oldAccessorKind h

/-- The definition passes its checks, and stops between its two slots. -/
def HalfWrites (realm : Realm) (bindings : Bindings) (s : ObjectStore) (key : String)
    (d : Descriptor) : Prop :=
  s.check realm bindings key d = .ok true ∧ s.HalfStored bindings key d

theorem defineOrdinaryIn_unchanged_iff (realm : Realm) (bindings : Bindings) (s : ObjectStore)
    (key : String) (d : Descriptor) :
    ((s.defineOrdinaryIn realm bindings key d).1 ≠ .ok () →
        (s.defineOrdinaryIn realm bindings key d).2 = s) ↔
      ¬ s.HalfWrites realm bindings key d := by
  rw [defineOrdinaryIn, HalfWrites]
  cases hcheck : s.check realm bindings key d with
  | error e => exact iff_of_true (fun _ => rfl) fun h => by cases h.1
  | ok goes =>
    cases goes with
    | false => exact iff_of_true (fun _ => rfl) fun h => by cases h.1
    | true =>
      rw [commitIn_unchanged_iff, not_iff_not]
      exact (and_iff_right rfl).symm

/-- What is added to a descriptor for a bound slot changes nothing of this. -/
theorem halfWrites_mappedDescriptor (realm : Realm) (bindings : Bindings) (s : ObjectStore)
    (key : String) (cell : Nat) (d : Descriptor) :
    s.HalfWrites realm bindings key (mappedDescriptor bindings cell d) ↔
      s.HalfWrites realm bindings key d := by
  rw [mappedDescriptor]
  split
  · next h =>
      simp only [Bool.and_eq_true, Bool.not_eq_true', beq_iff_eq] at h
      obtain ⟨⟨haccessor, hwritable⟩, -⟩ := h
      have hdata : d.isData = true := by
        rw [Descriptor.isData, hwritable]
        exact Bool.or_true _
      refine iff_of_false (fun hhalf => ?_) fun hhalf => ?_
      · have hbecomes := hhalf.2.1
        rw [becomesAccessor] at hbecomes
        simp only [Descriptor.isAccessor, Descriptor.isData] at hbecomes haccessor
        simp [haccessor] at hbecomes
      · have hbecomes := hhalf.2.1
        rw [becomesAccessor, haccessor, hdata] at hbecomes
        cases hbecomes
  · exact Iff.rfl

theorem defineObject_unchanged_iff (realm : Realm) (bindings : Bindings) (s : ObjectStore)
    (key : String) (d : Descriptor) :
    ((s.defineObject realm bindings key d).1 ≠ .ok () →
        (s.defineObject realm bindings key d).2 = (s, bindings)) ↔
      ¬ s.HalfWrites realm bindings key d := by
  rw [defineObject]
  cases s.mappedCell key with
  | none =>
    rw [← defineOrdinaryIn_unchanged_iff]
    dsimp only
    rw [Prod.mk.injEq, and_iff_left rfl]
  | some cell =>
    rw [← halfWrites_mappedDescriptor realm bindings s key cell, ← defineOrdinaryIn_unchanged_iff]
    dsimp only
    cases s.defineOrdinaryIn realm bindings key (mappedDescriptor bindings cell d) with
    | mk r t =>
      cases r with
      | ok u => exact iff_of_true (fun h => absurd rfl h) fun h => absurd rfl h
      | error e =>
        dsimp only
        rw [Prod.mk.injEq, and_iff_left rfl]

end ObjectStore

/-! ## Arrays -/

/-- An array refuses before it writes. -/
theorem ArrayCell.defineArray_unchanged {realm : Realm} {a : ArrayCell} {key : String}
    {d : Descriptor} (hkey : key ≠ "length") (h : (a.defineArray realm key d).1 ≠ .ok ()) :
    (a.defineArray realm key d).2 = a := by
  rw [defineArray, if_neg hkey] at h ⊢
  cases hrefusal : a.refusal realm key d with
  | some e => rfl
  | none =>
    rw [hrefusal] at h
    exact absurd rfl h

/-! ## Every target -/

namespace DefineTarget

/-- The key is not the length of an array. -/
def Covers (key : String) : DefineTarget → Prop
  | .object _ => True
  | .array _ => key ≠ "length"

/-- The definition stops between its two slots. -/
def HalfWrites (realm : Realm) (bindings : Bindings) (key : String) (d : Descriptor) :
    DefineTarget → Prop
  | .object s => s.HalfWrites realm bindings key d
  | .array _ => False

end DefineTarget

/-- An object with so many properties. -/
def filled (count : Nat) : ObjectStore :=
  { slots := (List.range count).map fun i => (indexKey i, .undefined), metadata := {} }

/-- A getter and a setter. -/
def bothHalves : Descriptor := { get := some (.function 1 none), set := some (.function 2 none) }

/-- Every value can be called, and parameters are not bound. -/
def plainRealm : Realm := ⟨fun _ => true, none⟩

theorem notMem_filled {count : Nat} (hcount : count ≤ maxObjectProps) {key : String}
    (h : arrayIndex key = none) : key ∉ Slots.keys (filled count).slots := by
  rw [filled, Slots.keys, List.map_map]
  intro hmem
  obtain ⟨i, hi, rfl⟩ := List.mem_map.1 hmem
  have hindex : arrayIndex (indexKey i) = some i := by
    refine arrayIndex_indexKey (lt_of_lt_of_le (List.mem_range.1 hi) (le_trans hcount ?_))
    decide
  exact Option.some_ne_none i (hindex.symm.trans h)

/-- With one slot left, a pair of halves is written by half. -/
theorem halfWrites_filled {count : Nat} (hcount : count + 1 = maxObjectProps) :
    (filled count).HalfWrites plainRealm (fun _ => .undefined) "k" bothHalves := by
  have hle : count ≤ maxObjectProps := by omega
  have hkey : "k" ∉ Slots.keys (filled count).slots := notMem_filled hle (by decide)
  have hcompanion : companion "k" ∉ Slots.keys (filled count).slots :=
    notMem_filled hle (by decide)
  have hlength : (filled count).slots.length = count := by
    rw [filled, List.length_map, List.length_range]
  have hslot : ((filled count).deref fun _ => .undefined).ownSlot "k" = none := by
    rw [ObjectStore.ownSlot_deref, ObjectStore.ownSlot, Slots.get_eq_none.2 hkey]
    rfl
  have hmetadata : (filled count).metadata = {} := rfl
  have hcheck : (filled count).check plainRealm (fun _ => .undefined) "k" bothHalves =
      .ok true := by
    rw [ObjectStore.check, hslot, hmetadata]
    simp [bothHalves, plainRealm, ObjectStore.callableField, Descriptor.isData,
      Descriptor.isAccessor]
  refine ⟨hcheck, rfl, .function 1 none, .function 2 none, rfl, rfl, hcompanion, .inl ?_⟩
  rw [hlength]
  exact ⟨hkey, by omega, by omega⟩

/-- A definition that is written by half fails, and leaves another object. -/
theorem changed_of_halfWrites {realm : Realm} {bindings : Bindings} {s : ObjectStore}
    {key : String} {d : Descriptor} (h : s.HalfWrites realm bindings key d) :
    ∃ e, (defineProperty realm bindings key d (.object s)).1 = .error e ∧
      (defineProperty realm bindings key d (.object s)).2 ≠ (.object s, bindings) := by
  have hchanged := mt (s.defineObject_unchanged_iff realm bindings key d).1 (not_not.2 h)
  rw [Classical.not_imp] at hchanged
  obtain ⟨hfail, hchanged⟩ := hchanged
  rw [defineProperty]
  dsimp only
  cases hr : (s.defineObject realm bindings key d).1 with
  | ok u => exact absurd hr hfail
  | error e =>
    refine ⟨e, rfl, fun h => hchanged ?_⟩
    obtain ⟨hs, hb⟩ := Prod.mk.inj h
    exact Prod.ext (DefineTarget.object.inj hs) hb

end NapiVm
