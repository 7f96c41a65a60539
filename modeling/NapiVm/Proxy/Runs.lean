import NapiVm.Proxy.Answers

/-!
# Whole runs through a stack of proxies

`InvariantsHold n key events` says of a list of internal methods and their
answers what the language promises about level `n`: once it has reported `key`
frozen it keeps to that, and once it has reported itself closed to new
properties it stays closed, keeps its prototype and gains no key it reported
absent.

* `invariants_hold` — every run keeps the promise, if no definition in it writes
  the slot of `key` as the companion of an accessor.
* `invariants_broken` — the condition cannot be dropped: a guest can name a
  property `__setter:x__`, and the accessor `x` then stores its setter there.
-/

namespace NapiVm.Proxy

open NapiVm.Nondet ObjectStore

/-- An ordinary object: no slot claims to be frozen without being marked as data. -/
structure Ordinary (s : ObjectStore) : Prop where
  unique : s.metadata.Unique
  coherent : ∀ k, (s.view k).Coherent
  moduleNamespace : s.metadata.moduleNamespace = false
  isArguments : s.metadata.isArguments = false

/-- The object a literal or a constructor makes, whatever its entries and prototype. -/
def freshObject (slots : Slots String Value) (proto : Option Value) (hasAccessors : Bool) :
    ObjectStore :=
  ⟨slots, { proto := proto, usesDefaultPrototype := proto.isNone, hasAccessors := hasAccessors }⟩

theorem ordinary_freshObject (slots : Slots String Value) (proto : Option Value)
    (hasAccessors : Bool) : Ordinary (freshObject slots proto hasAccessors) where
  unique := List.nodup_nil
  coherent k h := by
    have hd : (freshObject slots proto hasAccessors).metadata.attrsOf k = PropAttrs.default := rfl
    have hc : ((freshObject slots proto hasAccessors).metadata.attrsOf k).configurable = false := h
    rw [hd] at hc
    exact absurd hc (by simp [PropAttrs.default])
  moduleNamespace := rfl
  isArguments := rfl

/-! ## The promise -/

/-- The answer fits a key that was reported frozen with the value `v`. -/
structure Event.RespectsFrozen (n : Nat) (key : PropKey) (v : Value) (e : Bool) (ev : Event) :
    Prop where
  get : ∀ w, ev = ⟨.get n key, .ok (.value w)⟩ → v.Same w
  getOwn : ∀ r, ev = ⟨.getOwn n key, .ok (.descriptor r)⟩ →
    ∃ w, r = some (.data w ⟨false, e, false⟩) ∧ v.Same w
  has : ev ≠ ⟨.has n key, .ok (.accepted false)⟩
  delete : ev ≠ ⟨.delete n key, .ok (.accepted true)⟩
  set : ∀ value receiver, ev = ⟨.set n key value receiver, .ok (.accepted true)⟩ → v.Same value

/-- The level said that it takes no new properties. -/
def Event.ReportsClosed (n : Nat) (ev : Event) : Prop :=
  ev = ⟨.isExtensible n, .ok (.accepted false)⟩ ∨ ev = ⟨.preventExtensions n, .ok (.accepted true)⟩

/-- The promise of the internal methods of one level about one key. -/
structure InvariantsHold (n : Nat) (key : PropKey) (events : List Event) : Prop where
  frozen : ∀ (i j : Nat) (v : Value) (e : Bool) (ev : Event), i < j →
    events[i]? = some ⟨.getOwn n key, .ok (.descriptor (some (.data v ⟨false, e, false⟩)))⟩ →
    events[j]? = some ev → ev.RespectsFrozen n key v e
  closed : ∀ (i j : Nat) (ev : Event) (b : Bool), i < j →
    events[i]? = some ev → ev.ReportsClosed n →
    events[j]? = some ⟨.isExtensible n, .ok (.accepted b)⟩ → b = false
  prototype : ∀ (i j l : Nat) (ev : Event) (p q : Value), i < j → i < l →
    events[i]? = some ev → ev.ReportsClosed n →
    events[j]? = some ⟨.getPrototypeOf n, .ok (.value p)⟩ →
    events[l]? = some ⟨.getPrototypeOf n, .ok (.value q)⟩ → p.Same q
  absent : ∀ (i j l : Nat) (ev : Event) (r : Option Descriptor), i < j → j < l →
    events[i]? = some ev → ev.ReportsClosed n →
    events[j]? = some ⟨.getOwn n key, .ok (.descriptor none)⟩ →
    events[l]? = some ⟨.getOwn n key, .ok (.descriptor r)⟩ → r = none

/-! ## Cutting a run at an event -/

section

variable {realm : Realm} {permit : ObjectStore → PropKey → Descriptor → Prop}

variable {s u t : ObjectStore} {events : List Event} {i j : Nat} {ev : Event}

/-- The states around the event at position `i`, and the run after it. -/
theorem Trace.cut (h : Trace realm permit s events u) (hi : events[i]? = some ev) :
    ∃ t t' depth, Trace realm permit s (events.take i) t ∧
      ev.call.run realm permit (guestAt realm permit depth) t ev.reply t' ∧
      Trace realm permit t' (events.drop (i + 1)) u := by
  induction h generalizing i with
  | nil => simp at hi
  | cons depth hcall rest ih =>
    cases i with
    | zero =>
      obtain rfl := Option.some.inj hi
      exact ⟨_, _, depth, .nil _, hcall, rest⟩
    | succ i =>
      obtain ⟨t, t', depth', hpre, hev, hpost⟩ := ih hi
      exact ⟨t, t', depth', .cons depth hcall hpre, hev, hpost⟩

theorem getElem?_drop_of_lt {α : Type} {l : List α} (h : i < j) :
    (l.drop (i + 1))[j - (i + 1)]? = l[j]? := by
  rw [List.getElem?_drop]
  congr 1
  omega

/-- What an internal method returned is what the call answered. -/
theorem of_replying {α : Type} {answer : α → Reply} {m : Run α} {r : Reply}
    (h : replying answer m s (.ok r) t) : ∃ a, m s (.ok a) t ∧ r = answer a := by
  rcases h with ⟨e, he, -⟩ | ⟨a, u, hm, hr, rfl⟩
  · cases he
  · exact ⟨a, hm, Except.ok.inj hr⟩

/-- After a stable fact was established, each later event happens under it. -/
theorem Trace.later {I : ObjectStore → Prop} (hI : ObjectStore.Stable realm permit I)
    (h : Trace realm permit s events u) (hs : I s) (hj : events[j]? = some ev) :
    ∃ t t' depth, I t ∧ ev.call.run realm permit (guestAt realm permit depth) t ev.reply t' ∧
      Trace realm permit t' (events.drop (j + 1)) u := by
  obtain ⟨t, t', depth, hpre, hev, hpost⟩ := h.cut hj
  exact ⟨t, t', depth, hpre.keeps hI hs, hev, hpost⟩

/-- The event at `i` happens in an ordinary object's run; the one at `j > i` after it. -/
theorem Trace.cut_of_lt (h : Trace realm permit s events u) (hij : i < j) {ev' : Event}
    (hi : events[i]? = some ev) (hj : events[j]? = some ev') :
    ∃ t t' depth, Trace realm permit s (events.take i) t ∧
      ev.call.run realm permit (guestAt realm permit depth) t ev.reply t' ∧
      Trace realm permit t' (events.drop (i + 1)) u ∧
      (events.drop (i + 1))[j - (i + 1)]? = some ev' := by
  obtain ⟨t, t', depth, hpre, hev, hpost⟩ := h.cut hi
  exact ⟨t, t', depth, hpre, hev, hpost, by rw [getElem?_drop_of_lt hij, hj]⟩

/-- An event under a frozen key respects it. -/
theorem respectsFrozen_of_run {key : PropKey} {v : Value} {e : Bool}
    (hI : ObjectStore.Stable realm permit (ObjectStore.Frozen key.slot v e)) {depth : Nat}
    (hs : s.Frozen key.slot v e)
    (h : ev.call.run realm permit (guestAt realm permit depth) s ev.reply t) (n : Nat) :
    ev.RespectsFrozen n key v e := by
  have hg := keeps_guestAt hI depth
  refine ⟨?_, ?_, ?_, ?_, ?_⟩
  · rintro w rfl
    obtain ⟨a, ha, hr⟩ := of_replying h
    obtain rfl := Reply.value.inj hr
    exact gives_get_frozen hg n hs ha
  · rintro r rfl
    obtain ⟨a, ha, hr⟩ := of_replying h
    obtain rfl := Reply.descriptor.inj hr
    exact gives_getOwn_frozen hg n hs ha
  · rintro rfl
    obtain ⟨a, ha, hr⟩ := of_replying h
    have hb := gives_has_frozen hg n _ hs ha
    rw [hb] at hr
    cases hr
  · rintro rfl
    obtain ⟨a, ha, hr⟩ := of_replying h
    have hb := gives_delete_frozen hg n _ hs ha
    rw [hb] at hr
    cases hr
  · rintro value receiver rfl
    obtain ⟨a, ha, hr⟩ := of_replying h
    by_contra hne
    have hb := gives_set_frozen hg hI n hne receiver hs ha
    rw [hb] at hr
    cases hr

/-- A report of being closed tells the truth about the object. -/
theorem nonExtensible_of_report {guest : Run Value} {n : Nat} (hc : ev.ReportsClosed n)
    (h : ev.call.run realm permit guest s ev.reply t) : t.NonExtensible := by
  rcases hc with rfl | rfl
  · obtain ⟨a, ha, hr⟩ := of_replying h
    exact reports_isExtensible n trivial ha (Reply.accepted.inj hr).symm
  · obtain ⟨a, ha, hr⟩ := of_replying h
    exact reports_preventExtensions n trivial ha (Reply.accepted.inj hr).symm

end

/-! ## Every run -/

section

variable {realm : Realm} {key : PropKey}

/-- After a frozen report, the rest of the run starts in a frozen object. -/
theorem frozen_of_report {s t : ObjectStore} {depth n : Nat} {v : Value} {e : Bool}
    (hs : s.Coherent key.slot)
    (h : (Call.getOwn n key).run realm (ObjectStore.Spares key.slot)
      (guestAt realm (ObjectStore.Spares key.slot) depth) s
      (.ok (.descriptor (some (.data v ⟨false, e, false⟩)))) t) : t.Frozen key.slot v e := by
  obtain ⟨a, ha, hr⟩ := of_replying h
  have ha' := Reply.descriptor.inj hr
  exact reports_getOwn_frozen (keeps_guestAt (stable_coherent realm key.slot) depth)
    (fun v e => keeps_guestAt (stable_frozen realm key.slot v e) depth) n hs ha v e
    ha'.symm

/-- After an absent report of a closed object, the rest of the run starts without the key. -/
theorem sealed_of_report {s t : ObjectStore} {depth n : Nat} (hs : s.Coherent key.slot)
    (hn : s.NonExtensible)
    (h : (Call.getOwn n key).run realm (ObjectStore.Spares key.slot)
      (guestAt realm (ObjectStore.Spares key.slot) depth) s (.ok (.descriptor none)) t) :
    t.Sealed key.slot := by
  obtain ⟨a, ha, hr⟩ := of_replying h
  have ha' := Reply.descriptor.inj hr
  have hc := keeps_guestAt (stable_coherent realm key.slot) depth
  have hne := keeps_guestAt (stable_nonExtensible realm (ObjectStore.Spares key.slot)) depth
  exact reports_getOwn_sealed (keeps_guestAt (stable_sealed realm key.slot) depth) hne
    (fun _ _ _ hst hr => ⟨hc hst.1 hr, hne hst.2 hr⟩) n ⟨hs, hn⟩ ha ha'.symm

/-- **Proxies cannot break the object invariants**, as long as no definition writes the
slot of the key as the companion of an accessor. -/
theorem invariants_hold {s₀ s : ObjectStore} {events : List Event} (h₀ : Ordinary s₀)
    (h : Trace realm (ObjectStore.Spares key.slot) s₀ events s) (n : Nat) :
    InvariantsHold n key events := by
  have hcoherent := stable_coherent realm key.slot
  have hclosed := stable_nonExtensible realm (ObjectStore.Spares key.slot)
  have hc₀ : s₀.Coherent key.slot := ⟨h₀.unique, h₀.coherent key.slot⟩
  refine ⟨?_, ?_, ?_, ?_⟩
  · intro i j v e ev hij hi hj
    obtain ⟨t, t', depth, hpre, hev, hpost, hj'⟩ := h.cut_of_lt hij hi hj
    have hfrozen := frozen_of_report (hpre.keeps hcoherent hc₀) hev
    have hI := stable_frozen realm key.slot v e
    obtain ⟨u, u', depth', hu, hev', -⟩ := hpost.later hI hfrozen hj'
    exact respectsFrozen_of_run hI hu hev' n
  · intro i j ev b hij hi hreport hj
    obtain ⟨t, t', depth, -, hev, hpost, hj'⟩ := h.cut_of_lt hij hi hj
    obtain ⟨u, u', depth', hu, hev', -⟩ :=
      hpost.later hclosed (nonExtensible_of_report hreport hev) hj'
    obtain ⟨a, ha, hr⟩ := of_replying hev'
    rw [Reply.accepted.inj hr]
    exact gives_isExtensible (keeps_guestAt hclosed depth') n hu ha
  · intro i j l ev p q hij hil hi hreport hj hl
    obtain ⟨t, t', depth, -, hev, hpost, hj'⟩ := h.cut_of_lt hij hi hj
    have hl' : (events.drop (i + 1))[l - (i + 1)]? = some ⟨.getPrototypeOf n, .ok (.value q)⟩ := by
      rw [getElem?_drop_of_lt hil, hl]
    -- the prototype at the moment of the report is the one both readings are held to
    have hI := stable_prototypeIs realm (ObjectStore.Spares key.slot)
      (t'.prototypeOf realm)
    have ht' : ObjectStore.PrototypeIs realm (t'.prototypeOf realm) t' :=
      ⟨nonExtensible_of_report hreport hev, rfl⟩
    have hread : ∀ (m : Nat) (x : Value),
        (events.drop (i + 1))[m]? = some ⟨.getPrototypeOf n, .ok (.value x)⟩ →
        ((t'.prototypeOf realm).getD .null).Same x := by
      intro m x hm
      obtain ⟨u, u', depth', hu, hev', -⟩ := hpost.later hI ht' hm
      obtain ⟨a, ha, hr⟩ := of_replying hev'
      rw [Reply.value.inj hr]
      exact gives_getPrototypeOf (keeps_guestAt hI depth') (keeps_guestAt hclosed depth') n hu ha
    exact (hread _ p hj').symm.trans (hread _ q hl')
  · intro i j l ev r hij hjl hi hreport hj hl
    obtain ⟨t, t', depth, hpre, hev, hpost, hj'⟩ := h.cut_of_lt hij hi hj
    have hct : t'.Coherent key.slot :=
      Call.keeps hcoherent (keeps_guestAt hcoherent depth) _ (hpre.keeps hcoherent hc₀) hev
    obtain ⟨u, u', depth', hpre', hev', hpost'⟩ := hpost.cut hj'
    have hsealed := sealed_of_report (hpre'.keeps hcoherent hct)
      (hpre'.keeps hclosed (nonExtensible_of_report hreport hev)) hev'
    have hl' : ((events.drop (i + 1)).drop (j - (i + 1) + 1))[l - (j + 1)]? =
        some ⟨.getOwn n key, .ok (.descriptor r)⟩ := by
      rw [List.drop_drop, List.getElem?_drop, ← hl]
      congr 1
      omega
    have hI := stable_sealed realm key.slot
    obtain ⟨w, w', depth'', hw, hev'', -⟩ := hpost'.later hI hsealed hl'
    obtain ⟨a, ha, hr⟩ := of_replying hev''
    rw [Reply.descriptor.inj hr]
    exact gives_getOwn_sealed (keeps_guestAt hI depth'') (keeps_guestAt hclosed depth'') n hw ha

end

/-! ## A run that breaks the promise -/

section

variable {realm : Realm} {permit : ObjectStore → PropKey → Descriptor → Prop}

/-- A handler without the trap. -/
theorem enter_none (message : String) (s : ObjectStore) :
    enter realm (guestAt realm permit 0) message s (.ok none) s := by
  refine Or.inr ⟨(), s, Or.inr ⟨false, s, ⟨⟨_, rfl⟩, rfl⟩, rfl, rfl⟩, ?_⟩
  exact Or.inr ⟨.undefined, s, rfl, rfl, rfl⟩

/-- A definition on the object itself. -/
theorem run_define {key : PropKey} {d : Descriptor} {s t : ObjectStore} {b : Bool}
    (hp : permit s key d) (h : s.defineOwn realm key d = (.ok b, t)) :
    (Call.define 0 key d).run realm permit (guestAt realm permit 0) s (.ok (.accepted b)) t :=
  Or.inr ⟨b, t, ⟨hp, h.symm⟩, rfl, rfl⟩

/-- A descriptor read through a proxy without traps. -/
theorem run_getOwn {key : PropKey} {s : ObjectStore} {r : Option Descriptor}
    (h : s.descriptorFor key.slot = r) :
    (Call.getOwn 1 key).run realm permit (guestAt realm permit 0) s (.ok (.descriptor r)) s :=
  Or.inr ⟨r, s, Or.inr ⟨none, s, enter_none _ s, congrArg Except.ok h.symm, rfl⟩, rfl, rfl⟩

end

/-- A realm in which exactly the functions can be called. -/
def plainRealm : Realm :=
  { callable := fun v => v matches .function .. | .nativeFunction .. | .hostFunction ..
    defaultPrototype := some (.ref .object 0) }

/-- The number 1. -/
def one : Value := .number 0x3FF0000000000000

/-- The setter of `x`. -/
def setterOfX : Value := .function 2 (some "set x")

/-- A frozen property holding 1. -/
def frozenOne : Descriptor := .data one ⟨false, false, false⟩

/-- An accessor with both halves. -/
def pairOfX : Descriptor := { get := some (.function 1 (some "get x")), set := some setterOfX }

/-- `{}` after a frozen property called `__setter:x__` was defined on it. -/
def withFrozenSlot : ObjectStore :=
  ((freshObject [] none false).defineOwn plainRealm (.name "__setter:x__") frozenOne).2

/-- The same after the accessor `x`. -/
def withPair : ObjectStore := (withFrozenSlot.defineOwn plainRealm (.name "x") pairOfX).2

/-- The events: freeze, look, define the accessor, look again. -/
def companionEvents : List Event :=
  [⟨.define 0 (.name "__setter:x__") frozenOne, .ok (.accepted true)⟩,
    ⟨.getOwn 1 (.name "__setter:x__"), .ok (.descriptor (some frozenOne))⟩,
    ⟨.define 0 (.name "x") pairOfX, .ok (.accepted true)⟩,
    ⟨.getOwn 1 (.name "__setter:x__"),
      .ok (.descriptor (some (.data setterOfX ⟨false, false, false⟩)))⟩]

theorem companionEvents_run :
    Trace plainRealm (fun _ _ _ => True) (freshObject [] none false) companionEvents withPair := by
  refine .cons 0 (run_define (t := withFrozenSlot) trivial ?_)
    (.cons 0 (run_getOwn ?_) (.cons 0 (run_define (t := withPair) trivial ?_)
      (.cons 0 (run_getOwn ?_) (.nil _))))
  · rfl
  · rfl
  · rfl
  · rfl

/-- **A guest-visible slot called like a companion breaks the promise**: the frozen value 1
is read back as the setter of `x`. -/
theorem invariants_broken :
    Ordinary (freshObject [] none false) ∧
      Trace plainRealm (fun _ _ _ => True) (freshObject [] none false) companionEvents withPair ∧
      ¬ InvariantsHold 1 (.name "__setter:x__") companionEvents := by
  refine ⟨ordinary_freshObject _ _ _, companionEvents_run, fun h => ?_⟩
  have hlast := h.frozen 1 3 one false _ (by decide) rfl rfl
  obtain ⟨w, hw, hsame⟩ := hlast.getOwn _ rfl
  obtain rfl : setterOfX = w := by
    have hd := congrArg Descriptor.value (Option.some.inj hw)
    exact Option.some.inj hd
  rcases hsame with h | h
  · exact absurd h (by decide)
  · exact absurd h (by decide)

/-- `{ k: 1 }` with `k` frozen. -/
def frozenObject : ObjectStore :=
  ((freshObject [("k", one)] none false).defineOwn plainRealm (.name "k")
    { writable := some false, configurable := some false }).2

/-- Freeze `k`, look at it through a proxy, try to redefine it. -/
def frozenEvents : List Event :=
  [⟨.define 0 (.name "k") { writable := some false, configurable := some false },
      .ok (.accepted true)⟩,
    ⟨.getOwn 1 (.name "k"), .ok (.descriptor (some (.data one ⟨false, true, false⟩)))⟩,
    ⟨.define 0 (.name "k") { value := some .null }, .ok (.accepted false)⟩]

theorem frozenEvents_run :
    Trace plainRealm (ObjectStore.Spares (PropKey.name "k").slot)
      (freshObject [("k", one)] none false) frozenEvents frozenObject := by
  have hspares : ∀ s d, ObjectStore.Spares (PropKey.name "k").slot s (.name "k") d :=
    fun s d h => absurd h (companion_ne _)
  refine .cons 0 (run_define (t := frozenObject) (hspares _ _) ?_)
    (.cons 0 (run_getOwn ?_) (.cons 0 (run_define (t := frozenObject) (hspares _ _) ?_) (.nil _)))
  · rfl
  · rfl
  · rfl

theorem invariants_hold_frozen :
    Trace plainRealm (ObjectStore.Spares (PropKey.name "k").slot)
        (freshObject [("k", one)] none false) frozenEvents frozenObject ∧
      InvariantsHold 1 (.name "k") frozenEvents :=
  ⟨frozenEvents_run, invariants_hold (ordinary_freshObject _ _ _) frozenEvents_run 1⟩

end NapiVm.Proxy
