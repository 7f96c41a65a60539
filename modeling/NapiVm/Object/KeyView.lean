import NapiVm.Object.Storage

/-!
# One key of an object

What storage knows of one key is its first slot and its entry in each of the
four metadata tables.  `ObjectStore.view` collects these.  The results below say
how each operation changes the view of a key, which for most of them is: not at
all, unless the operation is about that key or about the key whose companion
slot it is.

* `view_defineOwn_of_ne`, `view_deleteOwn_of_ne`, `view_storeMarked_of_ne` — an
  operation on one key leaves the others alone.
* `frame_defineOwn` — defining a property changes neither extensibility nor the
  prototype.
-/

namespace NapiVm

/-- The tables' entries for one key. -/
structure KeyView where
  value : Option Value
  attrs : PropAttrs
  kind : Option AccessorKind
  marked : Bool
  isEmpty : Bool
  deriving DecidableEq, Repr

namespace ObjectMeta

/-- What the metadata says about a key, beside the value of its slot. -/
def view (m : ObjectMeta) (value : Option Value) (k : String) : KeyView :=
  ⟨value, m.attrsOf k, m.explicitAccessorKind k, m.isExplicitData k, m.isEmptyAccessor k⟩

/-- The attribute table holds one entry for each key. -/
def Unique (m : ObjectMeta) : Prop := (Slots.keys m.attrs).Nodup

variable {m : ObjectMeta} {key k : String}

theorem view_setAttrs (hm : m.Unique) (a : PropAttrs) (value : Option Value) :
    (m.setAttrs key a).view value k =
      if k = key then { m.view value k with attrs := a } else m.view value k := by
  have hattrs := attrsOf_setAttrs hm key k a
  have hrest : (m.setAttrs key a).explicitAccessorKind k = m.explicitAccessorKind k ∧
      (m.setAttrs key a).isExplicitData k = m.isExplicitData k ∧
      (m.setAttrs key a).isEmptyAccessor k = m.isEmptyAccessor k := by
    unfold setAttrs
    split
    · exact ⟨rfl, rfl, rfl⟩
    · split <;> exact ⟨rfl, rfl, rfl⟩
  simp only [view, hattrs, hrest.1, hrest.2.1, hrest.2.2]
  split <;> rfl

theorem view_setExplicitData (data : Bool) (value : Option Value) :
    (m.setExplicitData key data).view value k =
      if k = key then
        { m.view value k with
          marked := data, kind := if data then none else (m.view value k).kind }
      else m.view value k := by
  have hdata : (m.setExplicitData key data).isExplicitData k =
      if k = key then data else m.isExplicitData k := by
    cases data with
    | true =>
      by_cases hmem : key ∈ m.dataPropertyKeys <;> by_cases hk : k = key <;>
        simp [setExplicitData, isExplicitData, hmem, hk]
    | false => by_cases hk : k = key <;> simp [setExplicitData, isExplicitData, hk]
  have hkind : (m.setExplicitData key data).explicitAccessorKind k =
      if data = true ∧ k = key then none else m.explicitAccessorKind k := by
    cases data <;> simp [setExplicitData, explicitAccessorKind, Slots.get_removeKey]
  have hrest : (m.setExplicitData key data).attrsOf k = m.attrsOf k ∧
      (m.setExplicitData key data).isEmptyAccessor k = m.isEmptyAccessor k := by
    cases data <;> exact ⟨rfl, rfl⟩
  simp only [view, hdata, hkind, hrest.1, hrest.2]
  by_cases hk : k = key <;> simp [hk]

theorem view_setEmptyAccessor (isEmpty : Bool) (value : Option Value) :
    (m.setEmptyAccessor key isEmpty).view value k =
      if k = key then { m.view value k with isEmpty := isEmpty } else m.view value k := by
  have hempty : (m.setEmptyAccessor key isEmpty).isEmptyAccessor k =
      if k = key then isEmpty else m.isEmptyAccessor k := by
    cases isEmpty <;> by_cases hk : k = key <;> simp [setEmptyAccessor, isEmptyAccessor, hk]
  have hrest : (m.setEmptyAccessor key isEmpty).view value k =
      { m.view value k with isEmpty := (m.setEmptyAccessor key isEmpty).isEmptyAccessor k } := rfl
  rw [hrest, hempty]
  split <;> rfl

theorem view_setExplicitAccessorKind (kind : Option AccessorKind) (value : Option Value) :
    (m.setExplicitAccessorKind key kind).view value k =
      if k = key then { m.view value k with kind := kind } else m.view value k := by
  have hkind : (m.setExplicitAccessorKind key kind).explicitAccessorKind k =
      if k = key then kind else m.explicitAccessorKind k := by
    cases kind with
    | none => simp [setExplicitAccessorKind, explicitAccessorKind, Slots.get_removeKey]
    | some kind =>
      by_cases hk : key = k
      · simp [setExplicitAccessorKind, explicitAccessorKind, Slots.get_append,
          Slots.get_removeKey, Slots.get_cons, hk]
      · have hk' : ¬ k = key := fun e => hk e.symm
        simp [setExplicitAccessorKind, explicitAccessorKind, Slots.get_append,
          Slots.get_removeKey, Slots.get_cons, hk, hk']
  have hrest : (m.setExplicitAccessorKind key kind).view value k =
      { m.view value k with
        kind := (m.setExplicitAccessorKind key kind).explicitAccessorKind k } := by
    cases kind <;> rfl
  rw [hrest, hkind]
  split <;> rfl

theorem view_forget (value : Option Value) :
    (m.forget key).view value k =
      if k = key then ⟨value, PropAttrs.default, none, false, false⟩ else m.view value k := by
  have hattrs : (m.forget key).attrsOf k =
      if decide (k ≠ key) then m.attrsOf k else PropAttrs.default :=
    attrsOf_filter (fun j => decide (j ≠ key)) (attrs_forget m key) k
  have hkind : (m.forget key).explicitAccessorKind k =
      if k = key then none else m.explicitAccessorKind k := by
    simp [forget, setExplicitData, setEmptyAccessor, explicitAccessorKind, Slots.get_removeKey]
  have hdata : (m.forget key).isExplicitData k = (decide (k ≠ key) && m.isExplicitData k) := by
    by_cases hk : k = key <;> simp [forget, setExplicitData, setEmptyAccessor, isExplicitData, hk]
  have hempty : (m.forget key).isEmptyAccessor k = (decide (k ≠ key) && m.isEmptyAccessor k) := by
    by_cases hk : k = key <;> simp [forget, setExplicitData, setEmptyAccessor, isEmptyAccessor, hk]
  simp only [view, hattrs, hkind, hdata, hempty]
  by_cases hk : k = key <;> simp [hk]

/-! ### Extensibility and prototype -/

/-- Extensibility and prototype are the same, and the attribute table stays unique. -/
structure SameFrame (m n : ObjectMeta) : Prop where
  nonExtensible : n.nonExtensible = m.nonExtensible
  proto : n.proto = m.proto
  usesDefaultPrototype : n.usesDefaultPrototype = m.usesDefaultPrototype
  unique : m.Unique → n.Unique

namespace SameFrame

theorem refl (m : ObjectMeta) : m.SameFrame m := ⟨rfl, rfl, rfl, id⟩

theorem trans {m n l : ObjectMeta} (h : m.SameFrame n) (h' : n.SameFrame l) : m.SameFrame l :=
  ⟨h'.nonExtensible.trans h.nonExtensible, h'.proto.trans h.proto,
    h'.usesDefaultPrototype.trans h.usesDefaultPrototype, fun hm => h'.unique (h.unique hm)⟩

theorem setAttrs (m : ObjectMeta) (key : String) (a : PropAttrs) :
    m.SameFrame (m.setAttrs key a) := by
  refine ⟨?_, ?_, ?_, fun hm => nodup_setAttrs hm key a⟩
  all_goals
    unfold ObjectMeta.setAttrs
    repeat' split
    all_goals rfl

theorem setExplicitData (m : ObjectMeta) (key : String) (data : Bool) :
    m.SameFrame (m.setExplicitData key data) := by
  cases data <;> exact ⟨rfl, rfl, rfl, id⟩

theorem setEmptyAccessor (m : ObjectMeta) (key : String) (isEmpty : Bool) :
    m.SameFrame (m.setEmptyAccessor key isEmpty) := ⟨rfl, rfl, rfl, id⟩

theorem setExplicitAccessorKind (m : ObjectMeta) (key : String) (kind : Option AccessorKind) :
    m.SameFrame (m.setExplicitAccessorKind key kind) := by
  cases kind <;> exact ⟨rfl, rfl, rfl, id⟩

theorem forget (m : ObjectMeta) (key : String) : m.SameFrame (m.forget key) :=
  ⟨rfl, rfl, rfl, fun hm => by
    have h := Slots.nodup_filter hm fun p => decide (p.1 ≠ key)
    rwa [Unique, attrs_forget]⟩

end SameFrame

end ObjectMeta

namespace ObjectStore

/-- What storage knows of one key. -/
def view (s : ObjectStore) (k : String) : KeyView := s.metadata.view (s.ownSlot k) k

/-! ## Definitions -/

theorem get_storeValues_of_notMem {values : List (String × Value)} {k : String}
    (h : ∀ p ∈ values, p.1 ≠ k) (slots : Slots String Value) :
    Slots.get (storeValues slots values).2 k = Slots.get slots k := by
  induction values generalizing slots with
  | nil => rfl
  | cons p rest ih =>
    have hp : k ≠ p.1 := fun e => h p List.mem_cons_self e.symm
    have hrest : ∀ q ∈ rest, q.1 ≠ k := fun q hq => h q (List.mem_cons_of_mem _ hq)
    simp only [storeValues]
    split
    · next i hi => rw [ih hrest, Slots.get_setValue_position hi, if_neg hp]
    · split
      · rfl
      · rw [ih hrest, Slots.get_push_of_ne _ hp]

/-- Is the slot beside `key` left alone?  It is not where the definition makes an
accessor or replaces one. -/
def SparesCompanion (s : ObjectStore) (key : String) (d : Descriptor) : Prop :=
  d.isAccessor = false ∧ s.oldAccessorKind key = none

variable {s : ObjectStore} {key : String} {d : Descriptor}

theorem SparesCompanion.becomesAccessor (h : s.SparesCompanion key d) :
    s.becomesAccessor key d = false := by
  simp [ObjectStore.becomesAccessor, h.1, h.2]

theorem SparesCompanion.redefinition (h : s.SparesCompanion key d) :
    (s.redefinition key d).dropCompanion = false ∧
      ∀ p ∈ (s.redefinition key d).values, p.1 = key := by
  simp [ObjectStore.redefinition, h.becomesAccessor, h.2]

/-- A definition stores under the key and its companion, and nowhere else. -/
theorem mem_values {p : String × Value} (h : p ∈ (s.redefinition key d).values) :
    p.1 = key ∨ p.1 = companion key := by
  unfold redefinition at h
  dsimp only at h
  split at h
  · simp only [accessorRedefinition] at h
    split at h
    · rcases List.mem_cons.1 h with rfl | h
      · exact Or.inl rfl
      · exact Or.inr (by rw [List.mem_singleton.1 h])
    all_goals exact Or.inl (by rw [List.mem_singleton.1 h])
  · exact Or.inl (by rw [List.mem_singleton.1 h])

section

variable {s : ObjectStore} {key k : String} {d : Descriptor}

theorem view_redefinedMeta (hm : s.metadata.Unique) (value : Option Value) :
    (s.redefinedMeta key d).view value k =
      if k = key then
        ⟨value, s.newAttrs key d, (s.redefinition key d).primaryKind, !s.becomesAccessor key d,
          (s.redefinition key d).emptyAccessor⟩
      else s.metadata.view value k := by
  have hflag : ∀ (m : ObjectMeta) (b : Bool),
      ({ m with hasAccessors := b } : ObjectMeta).view value k = m.view value k := fun _ _ => rfl
  simp only [redefinedMeta, hflag, ObjectMeta.view_setExplicitAccessorKind,
    ObjectMeta.view_setExplicitData, ObjectMeta.view_setEmptyAccessor, ObjectMeta.view_setAttrs hm]
  by_cases hk : k = key
  · simp [hk, ObjectMeta.view]
  · simp [hk]

/-- Storing under another key, with the companion slot spared if it is `k`. -/
theorem view_commit_of_ne (hm : s.metadata.Unique) (hk : k ≠ key)
    (hc : companion key = k → s.SparesCompanion key d) :
    (s.commit key d).2.view k = s.view k := by
  have hvalues : ∀ p ∈ (s.redefinition key d).values, p.1 ≠ k := by
    intro p hp
    rcases mem_values hp with h | h
    · exact fun e => hk (e.symm.trans h)
    · intro e
      have := (hc (h.symm.trans e)).redefinition.2 p hp
      exact hk (e.symm.trans this)
  have hdropped : Slots.get (if (s.redefinition key d).dropCompanion then
      Slots.removeKey s.slots (companion key) else s.slots) k = s.ownSlot k := by
    split
    · next hdrop =>
        have hne : k ≠ companion key := by
          rintro rfl
          rw [(hc rfl).redefinition.1] at hdrop
          exact Bool.noConfusion hdrop
        rw [Slots.get_removeKey, if_neg hne]
        rfl
    · rfl
  have hstored := get_storeValues_of_notMem hvalues
    (if (s.redefinition key d).dropCompanion then Slots.removeKey s.slots (companion key)
      else s.slots)
  rw [hdropped] at hstored
  unfold commit
  dsimp only
  split
  · split
    · rfl
    · simp only [view, ownSlot, Slots.get_push_of_ne _ hk, ObjectMeta.view_setExplicitData,
        ObjectMeta.view_setAttrs hm, if_neg hk]
  · split
    · next hs =>
        rw [hs] at hstored
        simp only [view, ownSlot, hstored]
    · next hs =>
        rw [hs] at hstored
        simp only [view, ownSlot, hstored, view_redefinedMeta hm, if_neg hk]

theorem view_noteSymbol (s : ObjectStore) (key : PropKey) (k : String) :
    (s.noteSymbol key).view k = s.view k := by
  cases key <;> rfl

/-- A definition that reaches storage passed these checks. -/
structure Accepts (s : ObjectStore) (key : String) (d : Descriptor) : Prop where
  compatible : compatibleDescriptor (s.descriptorFor key) d = true
  unmixed : (d.isAccessor && d.isData) = false
  extensible : s.ownSlot key = none → s.metadata.nonExtensible = false

theorem ownSlot_eq_none_iff : s.ownSlot key = none ↔ s.descriptorFor key = none := by
  unfold descriptorFor
  cases hv : s.ownSlot key with
  | none => simp
  | some v =>
    dsimp only
    repeat' split
    all_goals simp

/-- The ordinary definition is refused, or it passed every check and was stored
as far as the property limit let it. -/
theorem defineOrdinary_cases (realm : Realm) (s : ObjectStore) (key : String) (d : Descriptor) :
    (s.defineOrdinary realm key d).2 = s ∨
      s.Accepts key d ∧ s.defineOrdinary realm key d = s.commit key d := by
  unfold defineOrdinary
  repeat' split
  iterate 6 exact Or.inl rfl
  next hmixed hcompatible hextensible _ =>
    refine Or.inr ⟨⟨?_, by simpa using hmixed, ?_⟩, rfl⟩
    · cases hv : s.ownSlot key with
      | none => rw [ownSlot_eq_none_iff.1 hv]; rfl
      | some v => simpa [hv] using hcompatible
    · intro hv
      simpa [hv] using hextensible

/-- The whole definition: as above, with the symbol of the key noted at the end. -/
theorem defineOwn_cases (realm : Realm) (s : ObjectStore) (key : PropKey) (d : Descriptor) :
    ∃ t, (t = s ∨ s.Accepts key.slot d ∧ t = (s.commit key.slot d).2) ∧
      ((s.defineOwn realm key d).2 = t ∨ (s.defineOwn realm key d).2 = t.noteSymbol key) := by
  by_cases hrefused : ((s.descriptorFor key.slot).isNone && s.metadata.nonExtensible ||
      !compatibleDescriptor (s.descriptorFor key.slot) d) = true
  · refine ⟨s, Or.inl rfl, Or.inl ?_⟩
    rw [defineOwn, if_pos hrefused]
  · refine ⟨(s.defineOrdinary realm key.slot d).2, ?_, ?_⟩
    · rcases defineOrdinary_cases realm s key.slot d with h | ⟨ha, h⟩
      · exact Or.inl h
      · exact Or.inr ⟨ha, by rw [h]⟩
    · rw [defineOwn, if_neg hrefused]
      split
      · next h => right; rw [h]
      · next h => left; rw [h]; split <;> rfl
      · next h => left; rw [h]

/-- Defining one property leaves the view of the others alone. -/
theorem view_defineOwn_of_ne (realm : Realm) {key : PropKey} (hm : s.metadata.Unique)
    (hk : k ≠ key.slot) (hc : companion key.slot = k → s.SparesCompanion key.slot d) :
    (s.defineOwn realm key d).2.view k = s.view k := by
  obtain ⟨t, ht, h⟩ := defineOwn_cases realm s key d
  have hview : t.view k = s.view k := by
    rcases ht with rfl | ⟨-, rfl⟩
    · rfl
    · exact view_commit_of_ne hm hk hc
  rcases h with h | h
  · rw [h, hview]
  · rw [h, view_noteSymbol, hview]

/-! ## Extensibility and prototype -/

theorem frame_commit (s : ObjectStore) (key : String) (d : Descriptor) :
    s.metadata.SameFrame (s.commit key d).2.metadata := by
  have hredefined : s.metadata.SameFrame (s.redefinedMeta key d) :=
    ((((ObjectMeta.SameFrame.setAttrs _ _ _).trans (.setEmptyAccessor _ _ _)).trans
      (.setExplicitData _ _ _)).trans (.setExplicitAccessorKind _ _ _)).trans ⟨rfl, rfl, rfl, id⟩
  unfold commit
  dsimp only
  split
  · split
    · exact .refl _
    · exact (ObjectMeta.SameFrame.setAttrs _ key (s.newAttrs key d)).trans
        (.setExplicitData _ key true)
  · split
    · exact .refl _
    · exact hredefined

/-- Defining a property changes neither extensibility nor the prototype. -/
theorem frame_defineOwn (realm : Realm) (s : ObjectStore) (key : PropKey) (d : Descriptor) :
    s.metadata.SameFrame (s.defineOwn realm key d).2.metadata := by
  obtain ⟨t, ht, h⟩ := defineOwn_cases realm s key d
  have hframe : s.metadata.SameFrame t.metadata := by
    rcases ht with rfl | ⟨-, rfl⟩
    · exact .refl _
    · exact frame_commit s key.slot d
  rcases h with h | h
  · rwa [h]
  · rw [h]
    refine hframe.trans ?_
    cases key <;> exact ⟨rfl, rfl, rfl, id⟩

/-! ## Deletion and assignment -/

theorem deleteOwn_cases (s : ObjectStore) (key : String) :
    (s.deleteOwn key).2 = s ∨ (s.descriptorFor key).all Descriptor.isConfigurable = true ∧
      (s.metadata.attrsOf key).configurable = true ∧ (s.deleteOwn key).1 = true ∧
      (s.deleteOwn key).2 =
        ⟨s.slots.eraseP fun p => decide (p.1 = key), s.metadata.forget key⟩ := by
  unfold deleteOwn
  repeat' split
  · exact Or.inl rfl
  · exact Or.inl rfl
  · next hd hc hv =>
      refine Or.inr ⟨?_, ?_, rfl, rfl⟩
      · cases hdesc : s.descriptorFor key with
        | none => rfl
        | some d => simpa [hdesc] using hd
      · simpa [hv] using hc
  · exact Or.inl rfl

theorem view_deleteOwn_of_ne (hk : k ≠ key) : (s.deleteOwn key).2.view k = s.view k := by
  rcases deleteOwn_cases s key with h | ⟨-, -, -, h⟩
  · rw [h]
  · rw [h]
    simp only [view, ownSlot, Slots.get_eraseFirst_of_ne _ hk, ObjectMeta.view_forget, if_neg hk]

theorem frame_deleteOwn (s : ObjectStore) (key : String) :
    s.metadata.SameFrame (s.deleteOwn key).2.metadata := by
  rcases deleteOwn_cases s key with h | ⟨-, -, -, h⟩
  · rw [h]; exact .refl _
  · rw [h]; exact .forget _ _

/-- A marked store fails at the limit, or writes the first slot of its key. -/
theorem storeMarked_cases (s : ObjectStore) (key : String) (value : Value)
    (hw : s.ownSlot key ≠ none → (s.metadata.attrsOf key).writable = true)
    (he : s.ownSlot key = none → s.metadata.nonExtensible = false) :
    (s.storeMarked key value).2 = s ∨
      (s.storeMarked key value).2 =
        ⟨Slots.upsert s.slots key value, s.metadata.setExplicitData key true⟩ := by
  unfold storeMarked setCellProp Slots.upsert
  cases hp : Slots.position s.slots key with
  | some i =>
    have hv : s.ownSlot key ≠ none := by
      intro hn
      have := Slots.position_eq_none.2 (Slots.get_eq_none.1 hn)
      simp [hp] at this
    right
    simp [hw hv]
  | none =>
    have hne : s.metadata.nonExtensible = false :=
      he (Slots.get_eq_none.2 (Slots.position_eq_none.1 hp))
    by_cases hl : maxObjectProps ≤ s.slots.length
    · left
      simp [hne, hl]
    · right
      simp [hne, hl]

/-- The direct path of an assignment is not taken, refuses, or stores a marked value
over a writable property or beside an extensible object's properties. -/
theorem setIndexed_cases {value : Value} {clear : Bool} {r : Except VmErr Bool × ObjectStore}
    (h : s.setIndexed key value clear = some r) :
    r = (.ok false, s) ∨ s.metadata.mayHaveAccessor key = false ∧
      (s.ownSlot key ≠ none → (s.metadata.attrsOf key).writable = true) ∧
      (s.ownSlot key = none → s.metadata.nonExtensible = false) ∧ r = s.storeMarked key value := by
  unfold setIndexed at h
  split at h
  · exact absurd h (by simp)
  · next hguard =>
      have hacc : s.metadata.mayHaveAccessor key = false := by
        simpa using fun e : s.metadata.mayHaveAccessor key = true => hguard (by simp [e])
      split at h
      · next hv =>
          obtain rfl := Option.some.inj h
          split
          · exact Or.inl rfl
          · next hw =>
              exact Or.inr ⟨hacc, fun _ => by simpa using hw, fun e => absurd hv (by simp [e]), rfl⟩
      · next hv =>
          split at h
          · obtain rfl := Option.some.inj h
            split
            · exact Or.inl rfl
            · next hne =>
                exact Or.inr ⟨hacc, fun e => absurd (Option.isSome_iff_ne_none.2 e) hv,
                  fun _ => by simpa using hne, rfl⟩
          · exact absurd h (by simp)

end

end ObjectStore

end NapiVm
