import NapiVm.Object.KeyView

/-!
# What storage protects

Four facts about an object survive every operation on it, whoever performs it:

* `Frozen k v e` — key `k` is a data property with the value `v` that is neither
  writable nor configurable;
* `NonExtensible` — the object takes no new properties;
* `Sealed k` — it takes no new properties and has none under `k`;
* `PrototypeIs p` — it takes no new properties and its prototype is `p`.

The first and the third speak of one key, and they survive only as long as
nobody writes that key's slot as the companion of an accessor; `Spares k` is that
condition on a definition.  `Stable` lists the operations, and `Coherent k` is
the side condition under which a descriptor that says "frozen" can be believed.
-/

namespace NapiVm

/-- The same guest value. -/
def Value.Same (v w : Value) : Prop := v = w ∨ v.sameValue w = true

theorem Value.Same.refl (v : Value) : v.Same v := Or.inl rfl

theorem Value.Same.trans {u v w : Value} (h : u.Same v) (h' : v.Same w) : u.Same w := by
  rcases h with rfl | h
  · exact h'
  · rcases h' with rfl | h'
    · exact Or.inr h
    · exact Or.inr (Value.sameValue_trans h h')

theorem Value.Same.symm {v w : Value} (h : v.Same w) : w.Same v := by
  rcases h with rfl | h
  · exact .refl _
  · exact Or.inr (by rw [Value.sameValue_symm]; exact h)

/-! ## The view of a protected key -/

namespace KeyView

/-- No name of a function can turn the slot into an accessor. -/
def Solid (x : KeyView) : Prop :=
  x.marked = true ∨ x.isEmpty = false ∧ ∃ w, x.value = some w ∧ plainName w = true

/-- A slot that says it cannot be reconfigured, and is no accessor, is solid. -/
def Coherent (x : KeyView) : Prop := x.attrs.configurable = false → x.kind = none → x.Solid

/-- A data property that can be neither written nor reconfigured. -/
structure Frozen (v : Value) (e : Bool) (x : KeyView) : Prop where
  value : ∃ w, x.value = some w ∧ v.Same w
  attrs : x.attrs = ⟨false, e, false⟩
  kind : x.kind = none
  solid : x.Solid

end KeyView

theorem accessorKindNamed_of_plainName {value : Value} (h : plainName value = true) (key : String) :
    accessorKindNamed key value = none := by
  unfold accessorKindNamed
  cases hn : value.callableName with
  | none => rfl
  | some name =>
    simp only [plainName, hn, Bool.and_eq_true, Bool.not_eq_true'] at h
    have hget : name ≠ "get " ++ key := by
      rintro rfl
      rw [String.toList_append] at h
      simp at h
    have hset : name ≠ "set " ++ key := by
      rintro rfl
      rw [String.toList_append] at h
      simp at h
    simp [hget, hset]

namespace ObjectStore

variable {s : ObjectStore} {k : String}

variable {w v : Value} {e : Bool} {d : Descriptor}

/-- A solid slot without a marker for accessors is data, whatever is stored there. -/
theorem accessorKindFor_of_solid (hw : s.ownSlot k = some w) (hkind : (s.view k).kind = none)
    (hsolid : (s.view k).Solid) : accessorKindFor s.metadata k w = none := by
  have hkind' : s.metadata.explicitAccessorKind k = none := hkind
  rcases hsolid with hm | ⟨he, w', hw', hplain⟩
  · have hm' : s.metadata.isExplicitData k = true := hm
    simp [accessorKindFor, hm']
  · have hww : s.ownSlot k = some w' := hw'
    obtain rfl : w = w' := Option.some.inj (hw.symm.trans hww)
    have he' : s.metadata.isEmptyAccessor k = false := he
    have hnone := accessorKindNamed_of_plainName hplain
    unfold accessorKindFor accessorKindWithSymbol
    split
    · rfl
    · simp only [hkind', he', hnone, Bool.false_eq_true, if_false, Option.or_none]
      split <;> rfl

theorem descriptorFor_of_solid (hw : s.ownSlot k = some w) (hkind : (s.view k).kind = none)
    (hsolid : (s.view k).Solid) : s.descriptorFor k = some (.data w (s.metadata.attrsOf k)) := by
  have hkind' : s.metadata.explicitAccessorKind k = none := hkind
  simp [descriptorFor, hw, hkind', accessorKindFor_of_solid hw hkind hsolid]

theorem descriptorFor_of_frozen (h : (s.view k).Frozen v e) :
    ∃ w, s.ownSlot k = some w ∧ v.Same w ∧
      s.descriptorFor k = some (.data w ⟨false, e, false⟩) := by
  obtain ⟨w, hw, hsame⟩ := h.value
  have hattrs : s.metadata.attrsOf k = ⟨false, e, false⟩ := h.attrs
  exact ⟨w, hw, hsame, by rw [descriptorFor_of_solid hw h.kind h.solid, hattrs]⟩

/-- A descriptor that says "frozen" is right about the slot. -/
theorem frozen_of_descriptorFor (hc : (s.view k).Coherent)
    (h : s.descriptorFor k = some (.data v ⟨false, e, false⟩)) : (s.view k).Frozen v e := by
  unfold descriptorFor at h
  cases hv : s.ownSlot k with
  | none => simp [hv] at h
  | some w =>
    simp only [hv] at h
    cases hkind : s.metadata.explicitAccessorKind k with
    | some kind => cases kind <;> simp [hkind, Descriptor.accessor, Descriptor.data] at h
    | none =>
      simp only [hkind] at h
      split at h
      · simp [Descriptor.accessor, Descriptor.data] at h
      · obtain ⟨hvw, hw, he, hcfg⟩ : w = v ∧ (s.metadata.attrsOf k).writable = false ∧
            (s.metadata.attrsOf k).enumerable = e ∧
            (s.metadata.attrsOf k).configurable = false := by
          simpa [Descriptor.data] using h
        have hattrs : s.metadata.attrsOf k = ⟨false, e, false⟩ := by
          rcases ha : s.metadata.attrsOf k with ⟨w', e', c'⟩
          simp_all
        exact ⟨⟨w, hv, hvw ▸ .refl _⟩, hattrs, hkind, hc (by simp [view, ObjectMeta.view, hattrs])
          hkind⟩

/-! ## Definitions over data -/

/-- A definition that keeps a property data overwrites its slot. -/
theorem commit_over_data (hw : s.ownSlot k = some w) (hd : d.isAccessor = false)
    (hold : s.oldAccessorKind k = none) :
    s.commit k d = (.ok (), ⟨Slots.upsert s.slots k (d.value.getD w), s.redefinedMeta k d⟩) := by
  have hacc : s.becomesAccessor k d = false := by simp [becomesAccessor, hd, hold]
  obtain ⟨i, hi⟩ : ∃ i, Slots.position s.slots k = some i := by
    cases hp : Slots.position s.slots k with
    | none =>
      have hn := Slots.get_eq_none.2 (Slots.position_eq_none.1 hp)
      rw [ownSlot, hn] at hw
      cases hw
    | some i => exact ⟨i, rfl⟩
  simp [commit, hw, redefinition, hacc, hold, storeValues, hi, Slots.upsert]

theorem view_commit_over_data (hm : s.metadata.Unique) (hw : s.ownSlot k = some w)
    (hd : d.isAccessor = false) (hold : s.oldAccessorKind k = none) :
    (s.commit k d).2.view k = ⟨some (d.value.getD w), s.newAttrs k d, none, true, false⟩ := by
  have hacc : s.becomesAccessor k d = false := by simp [becomesAccessor, hd, hold]
  simp only [commit_over_data hw hd hold, view, ownSlot, Slots.get_upsert, if_true,
    view_redefinedMeta hm]
  simp [redefinition, hacc]

/-- After a definition that went through, a slot is marked data or has a kind. -/
theorem view_commit_self (hm : s.metadata.Unique) :
    ((s.commit k d).2.view k).marked = true ∨ ((s.commit k d).2.view k).kind ≠ none ∨
      (s.commit k d).1 ≠ .ok () ∧ (s.commit k d).2.metadata = s.metadata := by
  have hkind : s.becomesAccessor k d = true → (s.redefinition k d).primaryKind ≠ none := by
    intro h
    simp [redefinition, h, accessorRedefinition]
  unfold commit
  dsimp only
  split
  · split
    · exact Or.inr (Or.inr ⟨by simp, rfl⟩)
    · left
      simp [view, ObjectMeta.view_setExplicitData]
  · split
    · exact Or.inr (Or.inr ⟨by simp, rfl⟩)
    · by_cases hacc : s.becomesAccessor k d = true
      · right; left
        simpa [view, view_redefinedMeta hm] using hkind hacc
      · left
        simpa [view, view_redefinedMeta hm] using hacc

/-- A definition compatible with a protected data slot is a data definition. -/
theorem Accepts.isAccessor (h : s.Accepts k d) {a : PropAttrs}
    (hd : s.descriptorFor k = some (.data w a)) (hc : a.configurable = false) :
    d.isAccessor = false := by
  have hcompat := h.compatible
  have hmixed := h.unmixed
  rw [hd] at hcompat
  by_contra hne
  have hacc : d.isAccessor = true := by simpa using hne
  have hdata : d.isData = false := by simpa [hacc] using hmixed
  have hcur : (Descriptor.data w a).isData = true := rfl
  have hcfg : (Descriptor.data w a).isConfigurable = false := by
    simp [Descriptor.isConfigurable, Descriptor.data, hc]
  simp [compatibleDescriptor, hcur, hcfg, hacc, hdata] at hcompat

theorem oldAccessorKind_of_solid (hw : s.ownSlot k = some w) (hkind : (s.view k).kind = none)
    (hsolid : (s.view k).Solid) : s.oldAccessorKind k = none := by
  simp [oldAccessorKind, hw, accessorKindFor_of_solid hw hkind hsolid]

/-! ## Invariants of one object -/

/-- A frozen descriptor of the key can be believed. -/
def Coherent (k : String) (s : ObjectStore) : Prop := s.metadata.Unique ∧ (s.view k).Coherent

/-- The key is a frozen data property. -/
def Frozen (k : String) (v : Value) (e : Bool) (s : ObjectStore) : Prop :=
  s.metadata.Unique ∧ (s.view k).Frozen v e

/-- The object takes no new properties. -/
def NonExtensible (s : ObjectStore) : Prop := s.metadata.nonExtensible = true

/-- The object takes no new properties and has none under the key. -/
def Sealed (k : String) (s : ObjectStore) : Prop :=
  s.metadata.Unique ∧ s.NonExtensible ∧ s.ownSlot k = none

/-- The object takes no new properties and has this prototype. -/
def PrototypeIs (realm : Realm) (p : Option Value) (s : ObjectStore) : Prop :=
  s.NonExtensible ∧ s.prototypeOf realm = p

/-- The definition does not write `k` as the companion slot of an accessor. -/
def Spares (k : String) (s : ObjectStore) (key : PropKey) (d : Descriptor) : Prop :=
  companion key.slot = k → s.SparesCompanion key.slot d

/-- What a definition of the key itself does to a coherent view. -/
theorem Coherent.commit (h : s.Coherent k) (ha : s.Accepts k d) :
    ((s.commit k d).2.view k).Coherent := by
  intro hcfg hkind
  rcases view_commit_self (d := d) h.1 with hm | hk | ⟨herr, hmeta⟩
  · exact Or.inl hm
  · exact absurd hkind hk
  · -- the limit stopped the definition: the tables are those of before
    have hcfg' : (s.view k).attrs.configurable = false := by
      have he : (s.commit k d).2.metadata.attrsOf k = s.metadata.attrsOf k := by rw [hmeta]
      have hc : ((s.commit k d).2.metadata.attrsOf k).configurable = false := hcfg
      rw [he] at hc
      exact hc
    have hkind' : (s.view k).kind = none := by
      have hc : (s.commit k d).2.metadata.explicitAccessorKind k = none := hkind
      rw [hmeta] at hc
      exact hc
    have hsolid := h.2 hcfg' hkind'
    rcases h.2 hcfg' hkind' with hm | ⟨-, w, hw, -⟩
    · left
      have hm' : s.metadata.isExplicitData k = true := hm
      show (s.commit k d).2.metadata.isExplicitData k = true
      rw [hmeta, hm']
    · have hdata := descriptorFor_of_solid hw hkind' hsolid
      have hacc := ha.isAccessor hdata hcfg'
      have hold := oldAccessorKind_of_solid hw hkind' hsolid
      exact absurd (by rw [commit_over_data hw hacc hold]) herr

/-- A definition of a frozen key leaves it frozen. -/
theorem Frozen.commit (h : s.Frozen k v e) (ha : s.Accepts k d) :
    ((s.commit k d).2.view k).Frozen v e := by
  obtain ⟨w, hw, hsame, hdesc⟩ := descriptorFor_of_frozen h.2
  have hacc := ha.isAccessor hdesc rfl
  have hold := oldAccessorKind_of_solid hw h.2.kind h.2.solid
  have hcompat := ha.compatible
  rw [hdesc] at hcompat
  obtain ⟨hcfg, henum, -, hwr, hval⟩ := compatible_frozen hcompat
  have hattrs : s.metadata.attrsOf k = ⟨false, e, false⟩ := h.2.attrs
  rw [view_commit_over_data h.1 hw hacc hold]
  refine ⟨⟨d.value.getD w, rfl, ?_⟩, ?_, rfl, Or.inl rfl⟩
  · cases hv : d.value with
    | none => exact hsame
    | some x => exact hsame.trans (Or.inr (hval x hv))
  · have hbecomes : s.becomesAccessor k d = false := by simp [becomesAccessor, hacc, hold]
    have hw' : d.writable.getD false = false := by
      cases hd : d.writable with
      | none => rfl
      | some b => cases b with
        | false => rfl
        | true => exact absurd hd hwr
    have he' : d.enumerable.getD e = e := by
      cases hd : d.enumerable with
      | none => rfl
      | some b => exact henum b hd
    have hc' : d.configurable.getD false = false := by
      cases hd : d.configurable with
      | none => rfl
      | some b => cases b with
        | false => rfl
        | true => exact absurd hd hcfg
    simp [newAttrs, hbecomes, hw, hold, hattrs, hw', he', hc']

/-! ## Every operation -/

/-- `I` survives every operation on the object, definitions being those `permit` allows. -/
structure Stable (realm : Realm) (permit : ObjectStore → PropKey → Descriptor → Prop)
    (I : ObjectStore → Prop) : Prop where
  define : ∀ s key d, I s → permit s key d → I (s.defineOwn realm key d).2
  delete : ∀ s key, I s → I (s.deleteOwn key).2
  setIndexed : ∀ s key value clear r, I s → s.setIndexed key value clear = some r → I r.2
  preventExtensions : ∀ s, I s → I s.preventExtensions
  setProto : ∀ s p, I s → s.metadata.nonExtensible = false → I (s.setProto p)

/-- An assignment on the direct path, seen from one key: nothing changes there, or the
key was writable or addable and is marked data now. -/
theorem view_setIndexed {key : String} {value : Value} {clear : Bool}
    {r : Except VmErr Bool × ObjectStore} (h : s.setIndexed key value clear = some r) (k : String) :
    s.metadata.SameFrame r.2.metadata ∧
      (r.2.view k = s.view k ∨ k = key ∧ (r.2.view k).marked = true ∧
        (s.ownSlot k ≠ none → (s.metadata.attrsOf k).writable = true) ∧
        (s.ownSlot k = none → s.metadata.nonExtensible = false)) := by
  rcases setIndexed_cases h with rfl | ⟨-, hw, he, rfl⟩
  · exact ⟨.refl _, Or.inl rfl⟩
  · rcases storeMarked_cases s key value hw he with hs | hs
    · rw [hs]
      exact ⟨.refl _, Or.inl rfl⟩
    · rw [hs]
      refine ⟨.setExplicitData _ key true, ?_⟩
      by_cases hk : k = key
      · subst hk
        exact Or.inr ⟨rfl, by simp [view, ObjectMeta.view_setExplicitData], hw, he⟩
      · left
        simp only [view, ownSlot, Slots.get_upsert, ObjectMeta.view_setExplicitData, if_neg hk]

/-- A definition, seen from one key that it spares. -/
theorem view_defineOwn (realm : Realm) {key : PropKey} (hm : s.metadata.Unique)
    (hs : Spares k s key d) :
    (s.defineOwn realm key d).2.view k = s.view k ∨
      k = key.slot ∧ s.Accepts k d ∧
        (s.defineOwn realm key d).2.view k = (s.commit k d).2.view k := by
  by_cases hk : k = key.slot
  · obtain ⟨t, ht, h⟩ := defineOwn_cases realm s key d
    have hview : (s.defineOwn realm key d).2.view k = t.view k := by
      rcases h with h | h
      · rw [h]
      · rw [h, view_noteSymbol]
    rcases ht with rfl | ⟨ha, rfl⟩
    · exact Or.inl hview
    · subst hk
      exact Or.inr ⟨rfl, ha, hview⟩
  · exact Or.inl (view_defineOwn_of_ne realm hm hk hs)

theorem stable_coherent (realm : Realm) (k : String) : Stable realm (Spares k) (Coherent k) where
  define s key d h hs := by
    refine ⟨(frame_defineOwn realm s key d).unique h.1, ?_⟩
    rcases view_defineOwn realm h.1 hs with hv | ⟨rfl, ha, hv⟩
    · rw [hv]; exact h.2
    · rw [hv]; exact h.commit ha
  delete s key h := by
    refine ⟨(frame_deleteOwn s key).unique h.1, ?_⟩
    by_cases hk : k = key
    · subst hk
      rcases deleteOwn_cases s k with hd | ⟨-, -, -, hd⟩
      · rw [hd]; exact h.2
      · rw [hd]
        intro hc
        simp [view, ObjectMeta.view_forget, PropAttrs.default] at hc
    · rw [view_deleteOwn_of_ne hk]; exact h.2
  setIndexed s key value clear r h hr := by
    obtain ⟨hf, hv⟩ := view_setIndexed hr k
    refine ⟨hf.unique h.1, ?_⟩
    rcases hv with hv | ⟨-, hm, -, -⟩
    · rw [hv]; exact h.2
    · exact fun _ _ => Or.inl hm
  preventExtensions _ h := h
  setProto _ _ h _ := h

theorem stable_frozen (realm : Realm) (k : String) (v : Value) (e : Bool) :
    Stable realm (Spares k) (Frozen k v e) where
  define s key d h hs := by
    refine ⟨(frame_defineOwn realm s key d).unique h.1, ?_⟩
    rcases view_defineOwn realm h.1 hs with hv | ⟨rfl, ha, hv⟩
    · rw [hv]; exact h.2
    · rw [hv]; exact h.commit ha
  delete s key h := by
    refine ⟨(frame_deleteOwn s key).unique h.1, ?_⟩
    by_cases hk : k = key
    · subst hk
      rcases deleteOwn_cases s k with hd | ⟨-, hc, -, -⟩
      · rw [hd]; exact h.2
      · -- a frozen key is not configurable, so it is never deleted
        have hattrs : s.metadata.attrsOf k = ⟨false, e, false⟩ := h.2.attrs
        rw [hattrs] at hc
        exact absurd hc (by simp)
    · rw [view_deleteOwn_of_ne hk]; exact h.2
  setIndexed s key value clear r h hr := by
    obtain ⟨hf, hv⟩ := view_setIndexed hr k
    refine ⟨hf.unique h.1, ?_⟩
    rcases hv with hv | ⟨-, -, hw, -⟩
    · rw [hv]; exact h.2
    · obtain ⟨w, hslot, -⟩ := h.2.value
      have hslot' : s.ownSlot k = some w := hslot
      have hattrs : s.metadata.attrsOf k = ⟨false, e, false⟩ := h.2.attrs
      rw [hattrs] at hw
      exact absurd (hw (by simp [hslot'])) (by simp)
  preventExtensions _ h := h
  setProto _ _ h _ := h

theorem stable_nonExtensible (realm : Realm) (permit : ObjectStore → PropKey → Descriptor → Prop) :
    Stable realm permit NonExtensible where
  define s key d h _ := (frame_defineOwn realm s key d).nonExtensible.trans h
  delete s key h := (frame_deleteOwn s key).nonExtensible.trans h
  setIndexed _ key _ _ _ h hr := (view_setIndexed hr key).1.nonExtensible.trans h
  preventExtensions _ _ := rfl
  setProto _ _ h _ := h

theorem stable_sealed (realm : Realm) (k : String) : Stable realm (Spares k) (Sealed k) where
  define s key d h hs := by
    have hf := frame_defineOwn realm s key d
    refine ⟨hf.unique h.1, hf.nonExtensible.trans h.2.1, ?_⟩
    rcases view_defineOwn realm h.1 hs with hv | ⟨rfl, ha, -⟩
    · exact (congrArg KeyView.value hv).trans h.2.2
    · have hne : s.metadata.nonExtensible = true := h.2.1
      exact absurd (ha.extensible h.2.2) (by simp [hne])
  delete s key h := by
    have hf := frame_deleteOwn s key
    refine ⟨hf.unique h.1, hf.nonExtensible.trans h.2.1, ?_⟩
    by_cases hk : k = key
    · subst hk
      have hd : (s.deleteOwn k).2 = s := by
        simp [deleteOwn, h.2.2, ownSlot_eq_none_iff.1 h.2.2]
      rw [hd]; exact h.2.2
    · exact (congrArg KeyView.value (view_deleteOwn_of_ne hk)).trans h.2.2
  setIndexed s key value clear r h hr := by
    obtain ⟨hf, hv⟩ := view_setIndexed hr k
    refine ⟨hf.unique h.1, hf.nonExtensible.trans h.2.1, ?_⟩
    rcases hv with hv | ⟨-, -, -, he⟩
    · exact (congrArg KeyView.value hv).trans h.2.2
    · have hne : s.metadata.nonExtensible = true := h.2.1
      exact absurd (he h.2.2) (by simp [hne])
  preventExtensions _ h := ⟨h.1, rfl, h.2.2⟩
  setProto _ _ h _ := h

theorem SameFrame.prototypeOf {t : ObjectStore} (realm : Realm)
    (h : s.metadata.SameFrame t.metadata) : t.prototypeOf realm = s.prototypeOf realm := by
  simp only [ObjectStore.prototypeOf, h.proto, h.usesDefaultPrototype]

theorem stable_prototypeIs (realm : Realm) (permit : ObjectStore → PropKey → Descriptor → Prop)
    (p : Option Value) : Stable realm permit (PrototypeIs realm p) where
  define s key d h _ :=
    have hf := frame_defineOwn realm s key d
    ⟨hf.nonExtensible.trans h.1, (SameFrame.prototypeOf realm hf).trans h.2⟩
  delete s key h :=
    have hf := frame_deleteOwn s key
    ⟨hf.nonExtensible.trans h.1, (SameFrame.prototypeOf realm hf).trans h.2⟩
  setIndexed _ key _ _ _ h hr :=
    have hf := (view_setIndexed hr key).1
    ⟨hf.nonExtensible.trans h.1, (SameFrame.prototypeOf realm hf).trans h.2⟩
  preventExtensions _ h := ⟨rfl, h.2⟩
  setProto _ _ h hne := absurd h.1 (by simp [NonExtensible, hne])

end ObjectStore

end NapiVm
