import NapiVm.Proxy.Calls

/-!
# The invariants of the internal methods

No handler can break what the object below has promised.  The argument has three
parts.

* `keeps_*`: whatever survives the operations of the object (`Stable`) survives
  every internal method of every level, with any guest code in between; so it
  survives a whole run (`Trace.keeps`).
* `gives_*`: from a frozen key, a non-extensible object, an absent key or a
  settled prototype, each level of the stack can only answer accordingly.
* `reports_*`: conversely, an answer of that kind at any level tells what the
  object at the bottom is like.
-/

namespace NapiVm.Proxy

open NapiVm.Nondet Preserves

section

variable {realm : Realm} {permit : ObjectStore → PropKey → Descriptor → Prop} {guest : Run Value}
  {I : ObjectStore → Prop}

/-! ## What every method keeps -/

section

variable (hg : Preserves I guest)

include hg

theorem keeps_guestTruthy : Preserves I (guestTruthy guest) :=
  hg.bind fun _ => .of_choose

theorem keeps_enter (message : String) : Preserves I (enter realm guest message) :=
  (bind .of_choose fun _ => .of_refuse _ _).bind fun _ =>
    hg.bind fun _ => .ite (.ret _) (.ite (.ret _) (.of_throw _))

theorem keeps_descriptorField : Preserves I (descriptorField guest) :=
  (keeps_guestTruthy hg).bind fun _ => .ite (hg.bind fun _ => .ret _) (.ret _)

theorem keeps_descriptorFlag : Preserves I (descriptorFlag guest) := by
  refine (keeps_descriptorField hg).bind fun field => ?_
  cases field with
  | none => exact .ret _
  | some _ => exact bind .of_choose fun _ => .ret _

theorem keeps_descriptorAccessor : Preserves I (descriptorAccessor realm guest) :=
  (keeps_descriptorField hg).bind fun _ => (of_refuse _ _).bind fun _ => .ret _

theorem keeps_toPropertyDescriptor : Preserves I (toPropertyDescriptor realm guest) :=
  (keeps_descriptorFlag hg).bind fun _ => (keeps_descriptorFlag hg).bind fun _ =>
    (keeps_descriptorField hg).bind fun _ => (keeps_descriptorFlag hg).bind fun _ =>
      (keeps_descriptorAccessor hg).bind fun _ => (keeps_descriptorAccessor hg).bind fun _ =>
        (of_refuse _ _).bind fun _ => .ret _

theorem keeps_isExtensible (n : Nat) : Preserves I (isExtensible realm guest n) := by
  induction n with
  | zero => exact .of_read _
  | succ n ih =>
    refine (keeps_enter hg _).bind fun trap => ?_
    cases trap with
    | none => exact ih
    | some _ =>
      exact (keeps_guestTruthy hg).bind fun _ => ih.bind fun _ =>
        (of_refuse _ _).bind fun _ => .ret _

end

theorem keeps_validateReport (previous : Option Descriptor) (extensible : Bool) (d : Descriptor) :
    Preserves I (validateReport previous extensible d) :=
  (of_refuse _ _).bind fun _ => (of_refuse _ _).bind fun _ =>
    (of_refuse _ _).bind fun _ => (of_refuse _ _).bind fun _ => .ret _

theorem keeps_getOwn (hg : Preserves I guest) (n : Nat) (key : PropKey) :
    Preserves I (getOwn realm guest n key) := by
  induction n with
  | zero => exact .of_read _
  | succ n ih =>
    refine (keeps_enter hg _).bind fun trap => ?_
    cases trap with
    | none => exact ih
    | some _ =>
      refine hg.bind fun _ => (of_refuse _ _).bind fun _ => ih.bind fun _ =>
        (keeps_isExtensible hg n).bind fun _ => .ite ?_ ?_
      · exact (of_refuse _ _).bind fun _ => .ret _
      · exact (keeps_toPropertyDescriptor hg).bind fun _ => keeps_validateReport _ _ _

theorem keeps_validateDefine (current : Option Descriptor) (extensible : Bool) (d : Descriptor) :
    Preserves I (validateDefine current extensible d) :=
  (of_refuse _ _).bind fun _ => (of_refuse _ _).bind fun _ =>
    (of_refuse _ _).bind fun _ => (of_refuse _ _).bind fun _ => .ret _

theorem keeps_define (hI : ObjectStore.Stable realm permit I) (hg : Preserves I guest) (n : Nat)
    (key : PropKey) (d : Descriptor) : Preserves I (define realm permit guest n key d) := by
  induction n with
  | zero =>
    rintro s r t hs ⟨hp, hr⟩
    have ht : t = (s.defineOwn realm key d).2 := congrArg Prod.snd hr
    exact ht ▸ hI.define s key d hs hp
  | succ n ih =>
    refine (keeps_enter hg _).bind fun trap => ?_
    cases trap with
    | none => exact ih
    | some _ =>
      exact (keeps_guestTruthy hg).bind fun _ => .ite (.ret _)
        ((keeps_getOwn hg n key).bind fun _ => (keeps_isExtensible hg n).bind fun _ =>
          keeps_validateDefine _ _ _)

theorem keeps_preventExtensions (hI : ObjectStore.Stable realm permit I) (hg : Preserves I guest)
    (n : Nat) : Preserves I (preventExtensions realm guest n) := by
  induction n with
  | zero => exact .of_perform fun s hs => hI.preventExtensions s hs
  | succ n ih =>
    refine (keeps_enter hg _).bind fun trap => ?_
    cases trap with
    | none => exact ih
    | some _ =>
      exact (keeps_guestTruthy hg).bind fun _ => .ite (.ret _)
        ((keeps_isExtensible hg n).bind fun _ => (of_refuse _ _).bind fun _ => .ret _)

theorem keeps_getPrototypeOf (hg : Preserves I guest) (n : Nat) :
    Preserves I (getPrototypeOf realm guest n) := by
  induction n with
  | zero => exact .of_read _
  | succ n ih =>
    refine (keeps_enter hg _).bind fun trap => ?_
    cases trap with
    | none => exact ih
    | some _ =>
      exact hg.bind fun _ => (of_refuse _ _).bind fun _ =>
        (keeps_isExtensible hg n).bind fun _ => .ite (.ret _)
          (ih.bind fun _ => (of_refuse _ _).bind fun _ => .ret _)

theorem setPrototypeOfBase_cases (requested : Value) (walk : ChainWalk) (s : ObjectStore) :
    (setPrototypeOfBase realm requested walk s).2 = s ∨
      s.metadata.nonExtensible = false ∧
        ∃ p, (setPrototypeOfBase realm requested walk s).2 = s.setProto p := by
  unfold setPrototypeOfBase
  split
  · exact Or.inl rfl
  · split
    · exact Or.inl rfl
    · next hfree =>
        cases walk with
        | cycle => exact Or.inl rfl
        | tooDeep => exact Or.inl rfl
        | clear =>
          have hne : s.metadata.nonExtensible = false := by
            cases h : s.metadata.nonExtensible
            · rfl
            · simp [h] at hfree
          exact Or.inr ⟨hne, _, rfl⟩

theorem keeps_setPrototypeOf (hI : ObjectStore.Stable realm permit I) (hg : Preserves I guest)
    (n : Nat) (requested : Value) : Preserves I (setPrototypeOf realm guest n requested) := by
  induction n with
  | zero =>
    refine bind .of_choose fun walk => .of_perform fun s hs => ?_
    rcases setPrototypeOfBase_cases requested walk s with h | ⟨hne, p, h⟩
    · rw [h]; exact hs
    · rw [h]; exact hI.setProto s p hs hne
  | succ n ih =>
    refine (keeps_enter hg _).bind fun trap => ?_
    cases trap with
    | none => exact ih
    | some _ =>
      exact (keeps_guestTruthy hg).bind fun _ => .ite (.ret _)
        ((keeps_isExtensible hg n).bind fun _ => .ite (.ret _)
          ((keeps_getPrototypeOf hg n).bind fun _ => (of_refuse _ _).bind fun _ => .ret _))

theorem keeps_has (hg : Preserves I guest) (n rounds : Nat) (key : PropKey) :
    Preserves I (has realm guest n rounds key) := by
  induction n generalizing rounds with
  | zero =>
    cases rounds with
    | zero => exact .of_throw _
    | succ rounds =>
      exact (of_read _).bind fun _ => (of_read _).bind fun _ =>
        .ite (.ret _) (.ite (.ret _) (keeps_guestTruthy hg))
  | succ n ih =>
    cases rounds with
    | zero => exact .of_throw _
    | succ rounds =>
      refine (keeps_enter hg _).bind fun trap => ?_
      cases trap with
      | none => exact ih rounds
      | some _ =>
        refine (keeps_guestTruthy hg).bind fun _ => .ite (.ret _)
          ((keeps_getOwn hg n key).bind fun descriptor => ?_)
        cases descriptor with
        | none => exact .ret _
        | some d =>
          exact (of_refuse _ _).bind fun _ => (keeps_isExtensible hg n).bind fun _ =>
            (of_refuse _ _).bind fun _ => .ret _

theorem keeps_validateGet (descriptor : Option Descriptor) (result : Value) :
    Preserves I (validateGet descriptor result) := by
  unfold validateGet
  cases descriptor with
  | none => exact .ret _
  | some d =>
    refine .ite (.ret _) ?_
    cases d.value with
    | some _ => exact (of_refuse _ _).bind fun _ => .ret _
    | none => exact (of_refuse _ _).bind fun _ => .ret _

theorem keeps_initialized (key : PropKey) (v : Value) : Preserves I (initialized key v) := by
  cases key with
  | name _ => exact .ite (.of_throw _) (.ret _)
  | symbol _ _ => exact .ret _

theorem keeps_propertyDepth : Preserves I propertyDepth :=
  bind .of_choose fun _ => .of_refuse _ _

theorem keeps_get (hg : Preserves I guest) (n : Nat) (key : PropKey) :
    Preserves I (get realm guest n key) := by
  induction n with
  | zero =>
    refine keeps_propertyDepth.bind fun _ => (of_read _).bind fun own =>
      (of_read _).bind fun _ => bind ?_ fun _ => keeps_initialized key _
    cases own with
    | data v => exact .ret _
    | getter f => exact hg
    | noGetter => exact .ret _
    | absent => exact .ite (.ret _) hg
  | succ n ih =>
    refine keeps_propertyDepth.bind fun _ => (keeps_enter hg _).bind fun trap =>
      bind ?_ fun _ => keeps_initialized key _
    cases trap with
    | none => exact ih
    | some _ =>
      exact hg.bind fun _ => (keeps_getOwn hg n key).bind fun _ => keeps_validateGet _ _

theorem keeps_setReceiver (hI : ObjectStore.Stable realm permit I) (hg : Preserves I guest)
    (key : PropKey) (value : Value) (receiver : Receiver) :
    Preserves I (setReceiver realm permit guest key value receiver) := by
  cases receiver with
  | foreign => exact keeps_guestTruthy hg
  | level n =>
    refine (keeps_getOwn hg n key).bind fun existing => ?_
    cases existing with
    | none => exact keeps_define hI hg n key _
    | some d => exact .ite (.ret _) (keeps_define hI hg n key _)

theorem keeps_validateSet (descriptor : Option Descriptor) (value : Value) :
    Preserves I (validateSet descriptor value) := by
  unfold validateSet
  cases descriptor with
  | none => exact .ret _
  | some d =>
    refine .ite (.ret _) ?_
    cases d.value with
    | some _ => exact (of_refuse _ _).bind fun _ => .ret _
    | none => exact (of_refuse _ _).bind fun _ => .ret _

section

variable (hI : ObjectStore.Stable realm permit I)

include hI

section

variable (hg : Preserves I guest)

include hg

theorem keeps_setLoop (n rounds : Nat) (key : PropKey) (value : Value) (receiver : Receiver) :
    Preserves I (setLoop realm permit guest n rounds key value receiver) := by
  induction n generalizing rounds with
  | zero =>
    cases rounds with
    | zero => exact .of_throw _
    | succ rounds =>
      refine (of_read _).bind fun descriptor => (of_read _).bind fun _ => ?_
      cases descriptor with
      | none =>
        exact .ite (keeps_setReceiver hI hg key value receiver) (keeps_guestTruthy hg)
      | some d =>
        exact .ite (.ite (.ret _) (hg.bind fun _ => .ret _))
          (.ite (.ret _) (keeps_setReceiver hI hg key value receiver))
  | succ n ih =>
    cases rounds with
    | zero => exact .of_throw _
    | succ rounds =>
      refine (keeps_enter hg _).bind fun trap => ?_
      cases trap with
      | none => exact ih rounds
      | some _ =>
        exact (keeps_guestTruthy hg).bind fun _ => .ite (.ret _)
          ((keeps_getOwn hg n key).bind fun _ => keeps_validateSet _ _)

omit hg in
theorem keeps_setDirect (key : PropKey) (value : Value) (clear : Bool) :
    Preserves I (setDirect key value clear) := by
  refine .of_perform fun s hs => ?_
  split
  · next r t h => exact hI.setIndexed s key.slot value clear (r, t) hs h
  · exact hs

theorem keeps_set (n : Nat) (key : PropKey) (value : Value) (receiver : Receiver) :
    Preserves I (set realm permit guest n key value receiver) := by
  unfold set
  split
  · refine bind .of_choose fun clear => (keeps_setDirect hI key value clear).bind fun direct => ?_
    cases direct with
    | none => exact keeps_setLoop hI hg 0 _ key value _
    | some _ => exact .ret _
  · exact keeps_setLoop hI hg _ _ key value _

theorem keeps_delete (n depth : Nat) (key : PropKey) :
    Preserves I (delete realm guest n depth key) := by
  induction n generalizing depth with
  | zero =>
    cases depth with
    | zero => exact .of_throw _
    | succ depth => exact .of_perform fun s hs => hI.delete s key.slot hs
  | succ n ih =>
    cases depth with
    | zero => exact .of_throw _
    | succ depth =>
      refine (keeps_enter hg _).bind fun trap => ?_
      cases trap with
      | none => exact ih depth
      | some _ =>
        refine (keeps_guestTruthy hg).bind fun _ => .ite (.ret _)
          ((keeps_getOwn hg n key).bind fun descriptor => ?_)
        cases descriptor with
        | none => exact .ret _
        | some d =>
          exact (of_refuse _ _).bind fun _ => (keeps_isExtensible hg n).bind fun _ =>
            (of_refuse _ _).bind fun _ => .ret _

/-- One call keeps what is stable, given guest code that does. -/
theorem Call.keeps (call : Call) : Preserves I (call.run realm permit guest) := by
  cases call with
  | getOwn n key => exact (keeps_getOwn hg n key).bind fun _ => .ret _
  | define n key d => exact (keeps_define hI hg n key d).bind fun _ => .ret _
  | has n key => exact (keeps_has hg n _ key).bind fun _ => .ret _
  | get n key => exact (keeps_get hg n key).bind fun _ => .ret _
  | set n key value receiver => exact (keeps_set hI hg n key value receiver).bind fun _ => .ret _
  | delete n key => exact (keeps_delete hI hg n _ key).bind fun _ => .ret _
  | isExtensible n => exact (keeps_isExtensible hg n).bind fun _ => .ret _
  | preventExtensions n => exact (keeps_preventExtensions hI hg n).bind fun _ => .ret _
  | getPrototypeOf n => exact (keeps_getPrototypeOf hg n).bind fun _ => .ret _
  | setPrototypeOf n p => exact (keeps_setPrototypeOf hI hg n p).bind fun _ => .ret _
  | other => exact hg.bind fun _ => .ret _

end

/-- Guest code keeps what is stable: by induction on how deep its excursions nest. -/
theorem keeps_guestAt (depth : Nat) : Preserves I (guestAt realm permit depth) := by
  induction depth with
  | zero =>
    rintro s r t hs rfl
    exact hs
  | succ depth ih =>
    intro s r t hs hrun
    have hrun' : Relation.ReflTransGen (fun s t => ∃ (call : Call) (r : Except VmErr Reply),
      call.run realm permit (guestAt realm permit depth) s r t) s t := hrun
    induction hrun' with
    | refl => exact hs
    | tail hpre hstep ihrun =>
      obtain ⟨call, r', hcall⟩ := hstep
      exact call.keeps hI ih (ihrun hpre) hcall

/-- **What is stable survives a whole run.** -/
theorem Trace.keeps {s t : ObjectStore} {events : List Event} (h : Trace realm permit s events t)
    (hs : I s) : I t := by
  induction h with
  | nil => exact hs
  | cons depth hcall _ ih => exact ih (Call.keeps hI (keeps_guestAt hI depth) _ hs hcall)

end

end

end NapiVm.Proxy
