import NapiVm.Proxy.Invariants

/-!
# What the levels can answer

With a key frozen at the bottom, every level reports it frozen, reads its value,
refuses to hide, delete or change it; with the object closed to new properties,
every level says so, reports no new key and one prototype.  And what a level
reports of this kind is the truth about the object at the bottom.  Each result is
an induction on the level: a level without a trap answers as its target does, and
a level with one is held to its target's answer by the check on the trap.
-/

namespace NapiVm

/-! ## Descriptors a trap may report -/

namespace Descriptor

/-- Over a frozen target property a trap can report nothing but that. -/
theorem eq_frozen_of_compatible {w : Value} {e : Bool} {d : Descriptor} (hd : d.Complete)
    (h : compatibleDescriptor (some (.data w ⟨false, e, false⟩)) d = true) :
    ∃ x, d = .data x ⟨false, e, false⟩ ∧ w.sameValue x = true := by
  obtain ⟨hc, he, hacc, hw, hv⟩ := compatible_frozen h
  rcases hd with ⟨x, ⟨b₁, b₂, b₃⟩, rfl⟩ | ⟨g, t, a, rfl⟩
  · refine ⟨x, ?_, hv x rfl⟩
    have h₁ : b₁ = false := by simpa [data] using hw
    have h₂ : b₂ = e := he b₂ rfl
    have h₃ : b₃ = false := by simpa [data] using hc
    rw [h₁, h₂, h₃]
  · exact absurd (hacc rfl) (by simp [accessor, isData])

/-- A trap that reports a frozen property has a frozen target property below it. -/
theorem frozen_of_report {previous : Option Descriptor} {v : Value} {e : Bool}
    (hp : ∀ p, previous = some p → p.Complete)
    (hcompat : compatibleDescriptor previous (.data v ⟨false, e, false⟩) = true)
    (hinvent : (previous.isNone || previous.any Descriptor.isConfigurable) = false)
    (hfreeze : previous.any Descriptor.isWritable = false) :
    ∃ w, previous = some (.data w ⟨false, e, false⟩) ∧ w.sameValue v = true := by
  cases previous with
  | none => simp at hinvent
  | some p =>
    have hcfg : p.isConfigurable = false := by simpa using hinvent
    have hwr : p.isWritable = false := by simpa using hfreeze
    rcases hp p rfl with ⟨w, ⟨b₁, b₂, b₃⟩, rfl⟩ | ⟨g, t, a, rfl⟩
    · have h₁ : b₁ = false := by simpa [isWritable, data] using hwr
      have h₃ : b₃ = false := by simpa [isConfigurable, data] using hcfg
      subst h₁ h₃
      obtain ⟨-, he, -, -, hv⟩ := compatible_frozen hcompat
      have h₂ : e = b₂ := he e rfl
      exact ⟨w, by rw [h₂], hv v rfl⟩
    · have hdata : (accessor g t a).isData = false := rfl
      have hdata' : (data v ⟨false, e, false⟩).isData = true := rfl
      simp [compatibleDescriptor, hcfg, hdata, hdata'] at hcompat

end Descriptor

namespace ObjectStore

variable {s : ObjectStore} {k : String} {v : Value} {e : Bool}

theorem descriptorFor_complete {d : Descriptor} (h : s.descriptorFor k = some d) : d.Complete := by
  unfold descriptorFor at h
  dsimp only at h
  repeat' split at h
  · cases h
  all_goals
    obtain rfl := Option.some.inj h
    first
      | exact Or.inl ⟨_, _, rfl⟩
      | exact Or.inr ⟨_, _, _, rfl⟩

theorem readOwn_of_frozen {key : PropKey} (h : s.Frozen key.slot v e) :
    ∃ w, s.readOwn key = .data w ∧ v.Same w := by
  obtain ⟨w, hw, hsame⟩ := h.2.value
  have hw' : s.ownSlot key.slot = some w := hw
  have hkind : s.metadata.explicitAccessorKind key.slot = none := h.2.kind
  refine ⟨w, ?_, hsame⟩
  rcases h.2.solid with hm | ⟨-, w', hww, hplain⟩
  · have hm' : s.metadata.isExplicitData key.slot = true := hm
    cases key with
    | name text =>
      have hm'' : s.metadata.isExplicitData text = true := hm
      simp [readOwn, hw', hkind, ObjectMeta.mayHaveAccessor, hm'']
    | symbol id description => simp [readOwn, hw', hkind, hm']
  · obtain rfl : w = w' := Option.some.inj (hw.symm.trans hww)
    have hnone := accessorKindNamed_of_plainName hplain
    simp [readOwn, hw', hkind, hnone]

theorem Frozen.same {w : Value} (h : s.Frozen k v e) (hvw : v.Same w) : s.Frozen k w e := by
  obtain ⟨x, hx, hsame⟩ := h.2.value
  exact ⟨h.1, ⟨x, hx, hvw.symm.trans hsame⟩, h.2.attrs, h.2.kind, h.2.solid⟩

end ObjectStore

namespace Proxy

open NapiVm.Nondet

section

variable {realm : Realm} {permit : ObjectStore → PropKey → Descriptor → Prop} {guest : Run Value}

/-! ## Checks -/

section

variable {P : ObjectStore → Prop}

theorem gives_toPropertyDescriptor (hg : Preserves P guest) :
    Gives P (toPropertyDescriptor realm guest) fun d s =>
      P s ∧ (d.isAccessor && d.isData) = false := by
  refine .bind (.of_keeps (keeps_descriptorFlag hg)) fun _ =>
    .bind (.of_keeps (keeps_descriptorFlag hg)) fun _ =>
    .bind (.of_keeps (keeps_descriptorField hg)) fun _ =>
    .bind (.of_keeps (keeps_descriptorFlag hg)) fun _ =>
    .bind (.of_keeps (keeps_descriptorAccessor hg)) fun _ =>
    .bind (.of_keeps (keeps_descriptorAccessor hg)) fun _ =>
    .bind .of_refuse fun _ => .ret fun s hs => hs

/-- A report that passed the checks. -/
theorem gives_validateReport (previous : Option Descriptor) (extensible : Bool) (d : Descriptor) :
    Gives P (validateReport previous extensible d) fun r s =>
      P s ∧ r = some d ∧ (previous.isNone && !extensible) = false ∧
        compatibleDescriptor previous d = true ∧
        (!d.isConfigurable && (previous.isNone || previous.any Descriptor.isConfigurable)) = false ∧
        (!d.isConfigurable && previous.any Descriptor.isWritable && d.writable == some false) =
          false := by
  refine .bind .of_refuse fun _ => .of_fact fun h₁ => .bind .of_refuse fun _ => .of_fact fun h₂ =>
    .bind .of_refuse fun _ => .of_fact fun h₃ => .bind .of_refuse fun _ => .of_fact fun h₄ =>
    .ret fun s hs => ⟨hs, rfl, h₁, by simpa using h₂, h₃, h₄⟩

end

/-! ## Extensibility -/

theorem gives_isExtensible (hg : Preserves ObjectStore.NonExtensible guest) (n : Nat) :
    Gives ObjectStore.NonExtensible (isExtensible realm guest n) fun b _ => b = false := by
  induction n with
  | zero =>
    refine (Gives.of_read _).post fun b s h => ?_
    have hne : s.metadata.nonExtensible = true := h.1
    rw [h.2, hne]
    rfl
  | succ n ih =>
    refine .bind (.of_keeps (keeps_enter hg _)) fun trap => ?_
    cases trap with
    | none => exact ih
    | some _ =>
      refine .bind (.of_keeps (keeps_guestTruthy hg)) fun result => .bind ih fun actual =>
        .bind .of_refuse fun _ => .ret fun s hs => ?_
      have hr : result = actual := by simpa using hs.2
      rw [hr, hs.1]

/-- The answer `false` is the truth about the object. -/
theorem reports_isExtensible (n : Nat) :
    Gives (fun _ => True) (isExtensible realm guest n) fun b s => b = false → s.NonExtensible := by
  induction n with
  | zero =>
    refine (Gives.of_read _).post fun b s h hb => ?_
    have hb' : (!s.metadata.nonExtensible) = false := h.2.symm.trans hb
    simpa [ObjectStore.NonExtensible] using hb'
  | succ n ih =>
    refine .bind .top fun trap => ?_
    cases trap with
    | none => exact ih
    | some _ =>
      refine .bind .top fun result =>
        .bind ih fun actual => .bind .of_refuse fun _ => .ret fun s hs hr => hs.1 ?_
      have he : result = actual := by simpa using hs.2
      exact he.symm.trans hr

/-- So is the answer `true` of a request to prevent extensions. -/
theorem reports_preventExtensions (n : Nat) :
    Gives (fun _ => True) (preventExtensions realm guest n) fun b s =>
      b = true → s.NonExtensible := by
  induction n with
  | zero => exact .of_perform fun s b _ _ _ => rfl
  | succ n ih =>
    refine .bind .top fun trap => ?_
    cases trap with
    | none => exact ih
    | some _ =>
      refine .bind .top fun accepted =>
        .ite (fun _ => .ret fun s _ h => absurd h (by simp)) fun _ =>
          .bind (reports_isExtensible n) fun extensible => .bind .of_refuse fun _ =>
            .ret fun s hs _ => hs.1 hs.2

/-! ## Own properties -/

/-- Every level reports complete descriptors. -/
theorem gives_getOwn_complete (n : Nat) (key : PropKey) :
    Gives (fun _ => True) (getOwn realm guest n key) fun r _ => ∀ d, r = some d → d.Complete := by
  induction n with
  | zero =>
    refine (Gives.of_read _).post fun r s h d hd => ?_
    exact ObjectStore.descriptorFor_complete (h.2.symm.trans hd)
  | succ n ih =>
    refine .bind .top fun trap => ?_
    cases trap with
    | none => exact ih
    | some _ =>
      refine .bind .top fun result => .bind .top fun _ => .bind .top fun previous =>
        .bind .top fun extensible => .ite (fun _ => ?_) fun _ => ?_
      · exact .bind .top fun _ => .ret fun s _ d hd => by cases hd
      · refine .bind (gives_toPropertyDescriptor fun _ _ _ _ _ => trivial) fun d =>
          .of_fact fun hmixed => (gives_validateReport previous extensible _).post
            fun r s h d' hd' => ?_
        obtain rfl := Option.some.inj (h.2.1.symm.trans hd')
        exact Descriptor.complete_complete hmixed

section

variable {key : PropKey} {v : Value} {e : Bool}

/-- A frozen key is reported frozen, with its value, by every level. -/
theorem gives_getOwn_frozen (hg : Preserves (ObjectStore.Frozen key.slot v e) guest) (n : Nat) :
    Gives (ObjectStore.Frozen key.slot v e) (getOwn realm guest n key) fun r _ =>
      ∃ w, r = some (.data w ⟨false, e, false⟩) ∧ v.Same w := by
  induction n with
  | zero =>
    refine (Gives.of_read _).post fun r s h => ?_
    obtain ⟨w, -, hsame, hd⟩ := ObjectStore.descriptorFor_of_frozen h.1.2
    exact ⟨w, h.2.trans hd, hsame⟩
  | succ n ih =>
    refine .bind (.of_keeps (keeps_enter hg _)) fun trap => ?_
    cases trap with
    | none => exact ih
    | some _ =>
      refine .bind (.of_keeps hg) fun result => .bind .of_refuse fun _ => .of_fact fun _ =>
        .bind (ih.and_keeps (keeps_getOwn hg n key)) fun previous => .of_fact ?_
      rintro ⟨w, rfl, hsame⟩
      refine .bind (.of_keeps (keeps_isExtensible hg n)) fun extensible =>
        .ite (fun _ => ?_) fun _ => ?_
      · -- a trap that hides the key is refused
        refine .bind .of_refuse fun _ => .of_fact fun hhide => ?_
        simp [Descriptor.isConfigurable, Descriptor.data] at hhide
      · refine .bind (gives_toPropertyDescriptor hg) fun d => .of_fact fun hmixed =>
          (gives_validateReport _ extensible _).post fun r s h => ?_
        obtain ⟨x, hx, hwx⟩ := Descriptor.eq_frozen_of_compatible
          (Descriptor.complete_complete hmixed) h.2.2.2.1
        exact ⟨x, h.2.1.trans (congrArg some hx), hsame.trans (Or.inr hwx)⟩

/-- A level that reports a frozen key tells the truth about the object. -/
theorem reports_getOwn_frozen (hc : Preserves (ObjectStore.Coherent key.slot) guest)
    (hf : ∀ v e, Preserves (ObjectStore.Frozen key.slot v e) guest) (n : Nat) :
    Gives (ObjectStore.Coherent key.slot) (getOwn realm guest n key) fun r s =>
      ∀ v e, r = some (.data v ⟨false, e, false⟩) → s.Frozen key.slot v e := by
  induction n with
  | zero =>
    refine (Gives.of_read _).post fun r s h v e hr => ?_
    exact ⟨h.1.1, ObjectStore.frozen_of_descriptorFor h.1.2 (h.2.symm.trans hr)⟩
  | succ n ih =>
    refine .bind (.of_keeps (keeps_enter hc _)) fun trap => ?_
    cases trap with
    | none => exact ih
    | some _ =>
      refine .bind (.of_keeps hc) fun result => .bind .of_refuse fun _ => .of_fact fun _ =>
        .bind (ih.and (gives_getOwn_complete n key).anywhere) fun previous =>
          .of_fact fun hcomplete => ?_
      by_cases hp : ∃ w e, previous = some (.data w ⟨false, e, false⟩)
      · obtain ⟨w, e, rfl⟩ := hp
        have hI := hf w e
        refine Gives.weaken (P := ObjectStore.Frozen key.slot w e) ?_
          (fun s hs => hs w e rfl) fun _ _ h => h
        refine .bind (.of_keeps (keeps_isExtensible hI n)) fun extensible =>
          .ite (fun _ => ?_) fun _ => ?_
        · exact .bind .of_refuse fun _ => .ret fun s _ v e hr => by cases hr
        · refine .bind (gives_toPropertyDescriptor hI) fun d => .of_fact fun _ =>
            (gives_validateReport _ extensible _).post fun r s h v' e' hr => ?_
          have hd : d.complete = .data v' ⟨false, e', false⟩ :=
            Option.some.inj (h.2.1.symm.trans hr)
          obtain ⟨hframe, -, -, hcompat, -, -⟩ := h
          rw [hd] at hcompat
          obtain ⟨-, he, -, -, hval⟩ := compatible_frozen hcompat
          obtain rfl : e' = e := he e' rfl
          exact hframe.same (Or.inr (hval v' rfl))
      · refine .bind .top fun extensible => .ite (fun _ => ?_) fun _ => ?_
        · exact .bind .of_refuse fun _ => .ret fun s _ v e hr => by cases hr
        · refine .bind .top fun d => (gives_validateReport previous extensible _).post
            fun r s h v' e' hr => ?_
          have hd : d.complete = .data v' ⟨false, e', false⟩ :=
            Option.some.inj (h.2.1.symm.trans hr)
          obtain ⟨-, -, -, hcompat, hinvent, hfreeze⟩ := h
          rw [hd] at hcompat hinvent hfreeze
          obtain ⟨w, hw, -⟩ := Descriptor.frozen_of_report hcomplete hcompat
            (by simpa [Descriptor.isConfigurable, Descriptor.data] using hinvent)
            (by simpa [Descriptor.isConfigurable, Descriptor.data] using hfreeze)
          exact absurd ⟨w, e', hw⟩ hp

section

variable (hg : Preserves (ObjectStore.Frozen key.slot v e) guest)

include hg

/-- A frozen key is read as its value. -/
theorem gives_get_frozen (n : Nat) :
    Gives (ObjectStore.Frozen key.slot v e) (get realm guest n key) fun w _ => v.Same w := by
  have hinit : ∀ w, v.Same w → Gives (ObjectStore.Frozen key.slot v e) (initialized key w)
      fun x _ => v.Same x := by
    intro w hw
    cases key with
    | name text => exact .ite (fun _ => .of_throw _) fun _ => .ret fun _ _ => hw
    | symbol _ _ => exact .ret fun _ _ => hw
  induction n with
  | zero =>
    refine .bind (.of_keeps keeps_propertyDepth) fun _ => .bind (.of_read _) fun own =>
      .bind (.of_read _) fun prototype => ?_
    refine .bind (Q := fun w s => ObjectStore.Frozen key.slot v e s ∧ v.Same w) ?_
      fun w => .of_fact fun hw => hinit w hw
    rintro s w t ⟨⟨hs, rfl⟩, -⟩ hr
    obtain ⟨x, hx, hsame⟩ := ObjectStore.readOwn_of_frozen hs
    rw [hx] at hr
    obtain ⟨hw, rfl⟩ := hr
    obtain rfl := Except.ok.inj hw
    exact ⟨hs, hsame⟩
  | succ n ih =>
    refine .bind (.of_keeps keeps_propertyDepth) fun _ =>
      .bind (.of_keeps (keeps_enter hg _)) fun trap => ?_
    refine .bind (Q := fun w s => ObjectStore.Frozen key.slot v e s ∧ v.Same w) ?_
      fun w => .of_fact fun hw => hinit w hw
    cases trap with
    | none => exact ih.and_keeps (keeps_get hg n key)
    | some _ =>
      refine .bind (.of_keeps hg) fun result =>
        .bind ((gives_getOwn_frozen hg n).and_keeps (keeps_getOwn hg n key)) fun descriptor =>
          .of_fact ?_
      rintro ⟨w, rfl, hsame⟩
      refine .bind .of_refuse fun _ => .of_fact fun hcheck => .ret fun s hs => ⟨hs, ?_⟩
      have hw : w.sameValue result = true := by
        simpa [Descriptor.isWritable, Descriptor.data] using hcheck
      exact hsame.trans (Or.inr hw)

/-- A frozen key is there. -/
theorem gives_has_frozen (n rounds : Nat) :
    Gives (ObjectStore.Frozen key.slot v e) (has realm guest n rounds key) fun b _ =>
      b = true := by
  induction n generalizing rounds with
  | zero =>
    cases rounds with
    | zero => exact .of_throw _
    | succ rounds =>
      refine .bind (.of_read _) fun own => .bind (.of_read _) fun _ => ?_
      rintro s b t ⟨⟨hs, rfl⟩, -⟩ hr
      obtain ⟨w, hw, -, -⟩ := ObjectStore.descriptorFor_of_frozen hs.2
      rw [hw] at hr
      exact Except.ok.inj hr.1
  | succ n ih =>
    cases rounds with
    | zero => exact .of_throw _
    | succ rounds =>
      refine .bind (.of_keeps (keeps_enter hg _)) fun trap => ?_
      cases trap with
      | none => exact ih rounds
      | some _ =>
        refine .bind (.of_keeps (keeps_guestTruthy hg)) fun accepted =>
          .ite (fun _ => .ret fun _ _ => rfl) fun _ =>
            .bind (gives_getOwn_frozen hg n) fun descriptor => ?_
        rintro s b t ⟨w, rfl, -⟩ hr
        exact (Gives.bind (P := fun _ => True) (R := fun b _ => b = true) .of_refuse
          fun _ => .of_fact fun h => by
            simp [Descriptor.isConfigurable, Descriptor.data] at h) trivial hr

/-- A frozen key is not deleted. -/
theorem gives_delete_frozen (n depth : Nat) :
    Gives (ObjectStore.Frozen key.slot v e) (delete realm guest n depth key) fun b _ =>
      b = false := by
  induction n generalizing depth with
  | zero =>
    cases depth with
    | zero => exact .of_throw _
    | succ depth =>
      refine .of_perform fun s b hs hb => ?_
      obtain ⟨w, -, -, hd⟩ := ObjectStore.descriptorFor_of_frozen hs.2
      obtain rfl := Except.ok.inj hb
      simp [ObjectStore.deleteOwn, hd, Descriptor.isConfigurable, Descriptor.data]
  | succ n ih =>
    cases depth with
    | zero => exact .of_throw _
    | succ depth =>
      refine .bind (.of_keeps (keeps_enter hg _)) fun trap => ?_
      cases trap with
      | none => exact ih depth
      | some _ =>
        refine .bind (.of_keeps (keeps_guestTruthy hg)) fun accepted =>
          .ite (fun _ => .ret fun _ _ => rfl) fun _ =>
            .bind (gives_getOwn_frozen hg n) fun descriptor => ?_
        rintro s b t ⟨w, rfl, -⟩ hr
        exact (Gives.bind (P := fun _ => True) (R := fun b _ => b = false) .of_refuse
          fun _ => .of_fact fun h => by
            simp [Descriptor.isConfigurable, Descriptor.data] at h) trivial hr

/-- A frozen key does not take another value. -/
theorem gives_setLoop_frozen (n rounds : Nat) {value : Value} (hne : ¬ v.Same value)
    (receiver : Receiver) :
    Gives (ObjectStore.Frozen key.slot v e)
      (setLoop realm permit guest n rounds key value receiver) fun b _ => b = false := by
  induction n generalizing rounds with
  | zero =>
    cases rounds with
    | zero => exact .of_throw _
    | succ rounds =>
      refine .bind (.of_read _) fun descriptor => .bind (.of_read _) fun _ => ?_
      rintro s b t ⟨⟨hs, rfl⟩, -⟩ hr
      obtain ⟨w, -, -, hd⟩ := ObjectStore.descriptorFor_of_frozen hs.2
      rw [hd] at hr
      exact Except.ok.inj hr.1
  | succ n ih =>
    cases rounds with
    | zero => exact .of_throw _
    | succ rounds =>
      refine .bind (.of_keeps (keeps_enter hg _)) fun trap => ?_
      cases trap with
      | none => exact ih rounds
      | some _ =>
        refine .bind (.of_keeps (keeps_guestTruthy hg)) fun accepted =>
          .ite (fun _ => .ret fun _ _ => rfl) fun _ =>
            .bind (gives_getOwn_frozen hg n) fun descriptor => ?_
        rintro s b t ⟨w, rfl, hsame⟩ hr
        refine (Gives.bind (P := fun _ => True) (R := fun b _ => b = false) .of_refuse
          fun _ => .of_fact fun h => ?_) trivial hr
        have hw : w.sameValue value = true := by
          simpa [Descriptor.isWritable, Descriptor.data] using h
        exact absurd (hsame.trans (Or.inr hw)) hne

theorem gives_set_frozen (hI : ObjectStore.Stable realm permit (ObjectStore.Frozen key.slot v e))
    (n : Nat) {value : Value} (hne : ¬ v.Same value) (receiver : Receiver) :
    Gives (ObjectStore.Frozen key.slot v e) (set realm permit guest n key value receiver)
      fun b _ => b = false := by
  unfold set
  split
  · refine .bind (.of_keeps .of_choose) fun clear =>
      .bind (Q := fun direct s => ObjectStore.Frozen key.slot v e s ∧ direct ≠ some true) ?_
        fun direct => .of_fact fun hd => ?_
    · refine Gives.and (.of_keeps (keeps_setDirect hI key value clear)) (.of_perform ?_)
      intro s direct hs hd
      cases hr : s.setIndexed key.slot value clear with
      | none =>
        simp only [hr] at hd
        obtain rfl := Except.ok.inj hd
        simp
      | some r =>
        -- the direct path finds the key there and not writable
        obtain ⟨w, hw, -, -⟩ := ObjectStore.descriptorFor_of_frozen hs.2
        have hattrs : s.metadata.attrsOf key.slot = ⟨false, e, false⟩ := hs.2.attrs
        rcases ObjectStore.setIndexed_cases hr with rfl | ⟨-, hwr, -, -⟩
        · simp only [hr] at hd
          obtain rfl := Except.ok.inj hd
          simp
        · rw [hattrs] at hwr
          exact absurd (hwr (by simp [hw])) (by simp)
    · cases direct with
      | none => exact gives_setLoop_frozen hg 0 _ hne _
      | some b =>
        refine .ret fun s _ => ?_
        cases b
        · rfl
        · exact absurd rfl hd
  · exact gives_setLoop_frozen hg _ _ hne _

end

end

/-! ## Absent keys and the prototype -/

/-- An object closed to new properties without the key: no level reports it. -/
theorem gives_getOwn_sealed {key : PropKey} (hg : Preserves (ObjectStore.Sealed key.slot) guest)
    (hn : Preserves ObjectStore.NonExtensible guest) (n : Nat) :
    Gives (ObjectStore.Sealed key.slot) (getOwn realm guest n key) fun r _ => r = none := by
  induction n with
  | zero =>
    refine (Gives.of_read _).post fun r s h => ?_
    exact h.2.trans (ObjectStore.ownSlot_eq_none_iff.1 h.1.2.2)
  | succ n ih =>
    refine .bind (.of_keeps (keeps_enter hg _)) fun trap => ?_
    cases trap with
    | none => exact ih
    | some _ =>
      refine .bind (.of_keeps hg) fun result => .bind .of_refuse fun _ => .of_fact fun _ =>
        .bind (ih.and_keeps (keeps_getOwn hg n key)) fun previous => .of_fact ?_
      rintro rfl
      refine .bind (((gives_isExtensible hn n).weaken (fun s hs => hs.2.1) fun _ _ h => h))
        fun extensible => ?_
      rintro s r t rfl hr
      refine (Gives.ite (P := fun _ => True) (Q := fun r _ => r = none) (fun _ => ?_)
        fun _ => ?_) trivial hr
      · exact .bind .of_refuse fun _ => .ret fun _ _ => rfl
      · refine .bind .top fun d => (gives_validateReport none false _).post fun r s h => ?_
        exact absurd h.2.2.1 (by simp)

/-- A level that reports an absent key of a closed object tells the truth. -/
theorem reports_getOwn_sealed {key : PropKey} (hg : Preserves (ObjectStore.Sealed key.slot) guest)
    (hn : Preserves ObjectStore.NonExtensible guest)
    (hc : Preserves (fun s => ObjectStore.Coherent key.slot s ∧ s.NonExtensible) guest) (n : Nat) :
    Gives (fun s => ObjectStore.Coherent key.slot s ∧ s.NonExtensible) (getOwn realm guest n key)
      fun r s => r = none → s.Sealed key.slot := by
  induction n with
  | zero =>
    refine (Gives.of_read _).post fun r s h hr => ?_
    exact ⟨h.1.1.1, h.1.2, ObjectStore.ownSlot_eq_none_iff.2 (h.2.symm.trans hr)⟩
  | succ n ih =>
    refine .bind (.of_keeps (keeps_enter hc _)) fun trap => ?_
    cases trap with
    | none => exact ih
    | some _ =>
      refine .bind (.of_keeps hc) fun result => .bind .of_refuse fun _ => .of_fact fun _ =>
        .bind (ih.and_keeps (keeps_getOwn hc n key)) fun previous => ?_
      cases previous with
      | none =>
        refine Gives.weaken (P := ObjectStore.Sealed key.slot) ?_ (fun s hs => hs.2 rfl)
          fun _ _ h => h
        refine Gives.post (.of_keeps ?_) fun _ _ h _ => h
        exact (keeps_isExtensible hg n).bind fun _ => .ite
          ((Preserves.of_refuse _ _).bind fun _ => .ret _)
          ((keeps_toPropertyDescriptor hg).bind fun _ => keeps_validateReport _ _ _)
      | some p =>
        refine .bind ((gives_isExtensible hn n).weaken (fun s hs => hs.1.2) fun _ _ h => h)
          fun extensible => ?_
        rintro s r t rfl hr hnone
        subst hnone
        refine absurd rfl ((Gives.ite (P := fun _ => True) (Q := fun r _ => r ≠ none)
          (fun _ => ?_) fun _ => ?_) trivial hr)
        · refine .bind .of_refuse fun _ => .of_fact fun h => ?_
          simp at h
        · exact .bind .top fun d => (gives_validateReport (some p) false _).post
            fun r s h => by rw [h.2.1]; simp

/-- The prototype of a closed object is the same at every level. -/
theorem gives_getPrototypeOf {p : Option Value}
    (hg : Preserves (ObjectStore.PrototypeIs realm p) guest) (hn : Preserves ObjectStore.NonExtensible guest)
    (n : Nat) :
    Gives (ObjectStore.PrototypeIs realm p) (getPrototypeOf realm guest n) fun v _ =>
      (p.getD .null).Same v := by
  induction n with
  | zero =>
    refine (Gives.of_read _).post fun v s h => ?_
    rw [h.2, h.1.2]
    exact .refl _
  | succ n ih =>
    refine .bind (.of_keeps (keeps_enter hg _)) fun trap => ?_
    cases trap with
    | none => exact ih
    | some _ =>
      refine .bind (.of_keeps hg) fun result => .bind .of_refuse fun _ =>
        .of_fact fun hobject => ?_
      refine .bind (((gives_isExtensible hn n).weaken (fun s hs => hs.1) fun _ _ h => h).and_keeps
        (keeps_isExtensible hg n)) fun extensible => .of_fact ?_
      rintro rfl
      refine .bind ih fun actual => .bind .of_refuse fun _ => .ret fun s hs => ?_
      have hsame : result.sameValue actual = true := by
        have hstrict : result.strictEquals actual = true := by simpa using hs.2
        cases result with
        | number b => simp [Value.isObject] at hobject
        | _ => simpa [Value.sameValue] using hstrict
      exact hs.1.trans (Value.Same.symm (Or.inr hsame))

end

end Proxy

end NapiVm
