import NapiVm.Schema.Contract

/-!
# The places of schemas

A reference of the descriptor is a JSON pointer, and is only resolved; the checker comes to the
places where a schema is expected.

* `Accepted` — what the checker accepts, at some level.
* `Seat` — where a pointer leads.
* `refs_checked_iff` — when every reference leads to a schema that has been checked.
-/

namespace NapiVm.Schema

open Host Rpc

/-! ## Fewer levels, and a longer chain -/

/-- A chain of references that allows for more. -/
def Below (stack stack' : List String) : Prop :=
  stack.length ≤ stack'.length ∧ ∀ r ∈ stack, r ∈ stack'

theorem Below.cons {stack stack' : List String} (h : Below stack stack') (r : String) :
    Below (r :: stack) (r :: stack') := by
  refine ⟨Nat.succ_le_succ h.1, fun x hx => ?_⟩
  rcases List.mem_cons.1 hx with rfl | hx
  · exact List.mem_cons_self
  · exact List.mem_cons_of_mem _ (h.2 x hx)

section Weaken

variable {root : Json} {check check' : List String → Json → Except RpcError Unit}
  {stack stack' : List String} {o : List (String × Json)}
  (hcheck : ∀ stack stack' s, Below stack' stack → check stack s = .ok () →
    check' stack' s = .ok ())

include hcheck

section

variable (hb : Below stack' stack)

include hb

theorem checkReference_weaken {r : Json} (h : checkReference root check stack o r = .ok ()) :
    checkReference root check' stack' o r = .ok () := by
  unfold checkReference at h ⊢
  cases hr : asStr r with
  | none =>
    rw [hr] at h
    cases h
  | some r =>
    simp only [hr, bind_ok, demand_ok, decide_eq_true_eq, Bool.not_eq_true'] at h ⊢
    obtain ⟨hkeys, hlen, hnew, h⟩ := h
    refine ⟨hkeys, lt_of_le_of_lt hb.1 hlen, ?_, ?_⟩
    · rw [← Bool.not_eq_true, List.contains_iff_mem] at hnew ⊢
      exact fun hmem => hnew (hb.2 r hmem)
    · cases hres : resolve root r with
      | error e =>
        rw [hres] at h
        cases h
      | ok target =>
        rw [hres] at h
        exact hcheck _ _ _ (hb.cons r) h

theorem checkNullable_weaken {types : List Json} (h : checkNullable check stack o types = .ok ()) :
    checkNullable check' stack' o types = .ok () := by
  unfold checkNullable at h ⊢
  simp only [bind_ok, demand_ok] at h ⊢
  obtain ⟨hkeys, htypes, h⟩ := h
  refine ⟨hkeys, htypes, ?_⟩
  split at h
  next other hother => exact hcheck _ _ _ hb h
  next => exact h

theorem checkDefs_weaken (h : checkDefs check stack o = .ok ()) :
    checkDefs check' stack' o = .ok () := by
  unfold checkDefs at h ⊢
  split at h
  · exact h
  · split at h
    · cases h
    · rw [checkAll_ok] at h ⊢
      exact fun field hfield => hcheck _ _ _ hb (h field hfield)

theorem checkUnion_weaken {v : Json} (h : checkUnion check stack o v = .ok ()) :
    checkUnion check' stack' o v = .ok () := by
  unfold checkUnion at h ⊢
  simp only [bind_ok, demand_ok] at h ⊢
  refine ⟨h.1, ?_⟩
  have h := h.2
  split at h
  · cases h
  · simp only [bind_ok, demand_ok, checkAll_ok] at h ⊢
    refine ⟨h.1, fun s hs => ?_, h.2.2⟩
    have hs := h.2.1 s hs
    unfold checkVariant at hs ⊢
    simp only [bind_ok, demand_ok] at hs ⊢
    exact ⟨hs.1, hcheck _ _ _ hb hs.2.1, hs.2.2⟩

theorem checkObject_weaken (h : checkObject check stack o = .ok ()) :
    checkObject check' stack' o = .ok () := by
  unfold checkObject at h ⊢
  simp only [bind_ok, demand_ok] at h ⊢
  refine ⟨h.1, ?_⟩
  have h := h.2
  split at h
  · cases h
  · simp only [bind_ok, checkAll_ok] at h ⊢
    exact ⟨fun field hfield => hcheck _ _ _ hb (h.1 field hfield), h.2⟩

theorem checkType_weaken (h : checkType check stack o = .ok ()) :
    checkType check' stack' o = .ok () := by
  unfold checkType at h ⊢
  split at h
  · exact h
  · split at h
    · cases h
    · simp only [bind_ok, demand_ok] at h ⊢
      obtain ⟨hknown, hobject, harray, hkeys⟩ := h
      refine ⟨hknown, ?_, ?_, hkeys⟩
      · split
        next ht =>
          rw [if_pos ht] at hobject
          exact checkObject_weaken hcheck hb hobject
        next => rfl
      · split
        next ht =>
          rw [if_pos ht] at harray
          exact hcheck _ _ _ hb harray
        next => rfl

theorem checkNode_weaken {s : Json} (h : checkNode root check stack s = .ok ()) :
    checkNode root check' stack' s = .ok () := by
  unfold checkNode at h ⊢
  split at h
  · cases h
  · simp only [bind_ok] at h ⊢
    refine ⟨h.1, ?_⟩
    have h := h.2
    split at h
    · exact checkReference_weaken hcheck hb h
    · split at h
      · exact checkNullable_weaken hcheck hb h
      · simp only [bind_ok] at h ⊢
        obtain ⟨hbounds, hdefs, h⟩ := h
        refine ⟨hbounds, checkDefs_weaken hcheck hb hdefs, ?_⟩
        split at h
        · exact checkUnion_weaken hcheck hb h
        · simp only [bind_ok] at h ⊢
          exact ⟨checkType_weaken hcheck hb h.1, h.2⟩

end

end Weaken

variable {root s v : Json}

/-- What is accepted with fewer levels left and after a longer chain is accepted. -/
theorem checkSchema_weaken {levels levels' : Nat} {stack stack' : List String}
    (hl : levels ≤ levels') (hb : Below stack' stack)
    (h : checkSchema root levels stack s = .ok ()) :
    checkSchema root levels' stack' s = .ok () := by
  induction levels generalizing levels' stack stack' s with
  | zero => simp only [checkSchema, reduceCtorEq] at h
  | succ levels ih =>
    obtain ⟨levels', rfl⟩ : ∃ n, levels' = n + 1 := ⟨levels' - 1, by omega⟩
    rw [checkSchema] at h ⊢
    have hcheck : ∀ stack stack' s, Below stack' stack → checkSchema root levels stack s = .ok () →
        checkSchema root levels' stack' s = .ok () :=
      fun _ _ _ hb h => ih (Nat.le_of_succ_le_succ hl) hb h
    exact checkNode_weaken hcheck hb h

/-! ## What is accepted -/

/-- The checker accepts the value, at some level. -/
def Accepted (root s : Json) : Prop :=
  ∃ levels stack, levels ≤ maxLevels ∧ checkSchema root levels stack s = .ok ()

theorem Accepted.checked (h : Accepted root s) : checkSchema root maxLevels [] s = .ok () := by
  obtain ⟨levels, stack, hl, h⟩ := h
  exact checkSchema_weaken hl ⟨Nat.zero_le _, nofun⟩ h

/-- A value without an object in it: no array but one of strings. -/
structure Flat (v : Json) : Prop where
  object : isObject v = false
  items : ∀ items, v = .array items → ∀ item ∈ items, isString item = true

/-- An object whose values are accepted. -/
def Map (root v : Json) : Prop := ∃ fields, v = .object fields ∧ ∀ f ∈ fields, Accepted root f.2

theorem flat_string (h : isString v = true) : Flat v := by
  cases v with
  | string s => exact ⟨rfl, nofun⟩
  | _ => cases h

theorem flat_number (h : isNumber v = true) : Flat v := by
  cases v with
  | number n => exact ⟨rfl, nofun⟩
  | _ => cases h

theorem isString_of_asStr {s : String} (h : asStr v = some s) : isString v = true := by
  rw [asStr_eq_some h]
  rfl

/-- Nothing in a flat value is an object. -/
theorem Flat.follow {w : Json} {ts : List String} (h : Flat v) (hw : Schema.follow v ts = some w) :
    isObject w = false := by
  cases ts with
  | nil =>
    cases hw
    exact h.object
  | cons t ts =>
    obtain ⟨u, hu, hw⟩ := Option.bind_eq_some_iff.1 hw
    cases v with
    | object fields => cases h.object
    | array items =>
      obtain ⟨n, -, hn⟩ := Option.bind_eq_some_iff.1 hu
      have hstring := h.items items rfl u (List.mem_of_getElem? hn)
      cases u with
      | string s =>
        cases ts with
        | nil =>
          cases hw
          rfl
        | cons t ts => cases hw
      | _ => cases hstring
    | _ => cases hu

/-- The keywords of an accepted schema. -/
structure Shape (root : Json) (o : List (String × Json)) : Prop where
  known : ∀ key v, o.lookup key = some v → key ∈ keywords
  defs : ∀ v, o.lookup "$defs" = some v → Map root v
  properties : o.lookup "type" ≠ none → ∀ v, o.lookup "properties" = some v → Map root v
  items : o.lookup "type" ≠ none → ∀ v, o.lookup "items" = some v → Accepted root v
  oneOf : ∀ v, o.lookup "oneOf" = some v → ∃ a, v = .array a ∧ ∀ s ∈ a, Accepted root s
  flat : ∀ key v, o.lookup key = some v →
    key ∉ ["$defs", "properties", "items", "oneOf", "required", "additionalProperties"] → Flat v
  fields : o.lookup "type" ≠ none → ∀ key v, o.lookup key = some v →
    key ∈ ["required", "additionalProperties"] → Flat v
  kind : o.lookup "$ref" ≠ none ∨ o.lookup "type" ≠ none ∨ o.lookup "oneOf" ≠ none ∨
    o.lookup "$defs" ≠ none ∨ o.lookup "const" ≠ none

section Shape

variable {root : Json} {check : List String → Json → Except RpcError Unit}
  {stack : List String} {o : List (String × Json)}

variable {key : String} {v : Json}

theorem known_of_metadata (h : checkMetadata o = .ok ()) (hv : o.lookup key = some v) :
    key ∈ keywords := by
  simp only [checkMetadata, bind_ok, demand_ok, checkAll_ok] at h
  exact List.contains_iff_mem.1 (h.2.2.2 _ (mem_of_lookup hv))

theorem flat_of_metadata (h : checkMetadata o = .ok ()) (hv : o.lookup key = some v)
    (hkey : key ∈ ["$schema", "title", "description"]) : Flat v := by
  simp only [checkMetadata, bind_ok, demand_ok] at h
  obtain ⟨hdraft, htitle, hdescription, -⟩ := h
  simp only [List.mem_cons, List.not_mem_nil, or_false] at hkey
  rcases hkey with rfl | rfl | rfl
  · rw [hv] at hdraft
    exact flat_string (isString_of_asStr (of_decide_eq_true hdraft))
  · rw [hv] at htitle
    exact flat_string htitle
  · rw [hv] at hdescription
    exact flat_string hdescription

/-- Only metadata stands beside `key`. -/
theorem mem_of_onlyKeys (h : onlyKeys o key = true) {k : String} (hv : o.lookup k = some v) :
    k = key ∨ k = "title" ∨ k = "description" := by
  have hk := List.all_eq_true.1 h _ (mem_of_lookup hv)
  simpa using List.contains_iff_mem.1 hk

theorem flat_of_bounds (h : checkBounds o = .ok ()) (hv : o.lookup key = some v)
    (hkey : key ∈ ["minItems", "maxItems", "minLength", "maxLength", "minimum", "maximum"]) :
    Flat v := by
  simp only [checkBounds, bind_ok, checkAll_ok, demand_ok] at h
  obtain ⟨hlengths, hnumbers, -⟩ := h
  have hlength : key ∈ ["minItems", "maxItems", "minLength", "maxLength"] → Flat v := by
    intro hkey
    have hn := hlengths key hkey
    rw [hv] at hn
    obtain ⟨n, hn, -⟩ := (Option.any_eq_true _ _).1 hn
    refine flat_number ?_
    cases v with
    | number n => rfl
    | _ => cases hn
  have hnumber : key ∈ ["minimum", "maximum"] → Flat v := by
    intro hkey
    have hn := hnumbers key hkey
    rw [hv] at hn
    obtain ⟨n, hn, -⟩ := (Option.any_eq_true _ _).1 hn
    refine flat_number ?_
    cases v with
    | number n => rfl
    | _ => cases hn
  simp only [List.mem_cons, List.not_mem_nil, or_false] at hkey hlength hnumber
  tauto

theorem strings_of_distinct {seen : List String} {a : List Json}
    (h : distinctStrings seen a = true) (hv : v ∈ a) : isString v = true := by
  induction a generalizing seen with
  | nil => cases hv
  | cons b rest ih =>
    unfold distinctStrings at h
    cases hb : asStr b with
    | none =>
      rw [hb] at h
      cases h
    | some x =>
      rw [hb] at h
      rcases List.mem_cons.1 hv with rfl | hv
      · exact isString_of_asStr hb
      · exact ih (Bool.and_eq_true_iff.1 h).2 hv

theorem strings_of_required {p : List (String × Json)} {seen : List String} {a : List Json}
    (h : checkRequired p seen a = .ok ()) (hv : v ∈ a) : isString v = true := by
  induction a generalizing seen with
  | nil => cases hv
  | cons b rest ih =>
    unfold checkRequired at h
    cases hb : asStr b with
    | none =>
      rw [hb] at h
      cases h
    | some x =>
      simp only [hb, bind_ok] at h
      rcases List.mem_cons.1 hv with rfl | hv
      · exact isString_of_asStr hb
      · exact ih h.2 hv

theorem flat_strings {items : List Json} (h : ∀ v ∈ items, isString v = true) :
    Flat (.array items) := by
  refine ⟨rfl, fun items' heq => ?_⟩
  cases heq
  exact h

variable (haccept : ∀ stack s, check stack s = .ok () → Accepted root s)

theorem shape_reference {r : Json} (hmeta : checkMetadata o = .ok ())
    (hr : o.lookup "$ref" = some r) (h : checkReference root check stack o r = .ok ()) :
    Shape root o := by
  unfold checkReference at h
  cases hs : asStr r with
  | none =>
    rw [hs] at h
    cases h
  | some t =>
    simp only [hs, bind_ok, demand_ok] at h
    have honly : ∀ {k : String} {v : Json}, o.lookup k = some v →
        k = "$ref" ∨ k = "title" ∨ k = "description" := fun hv => mem_of_onlyKeys h.1 hv
    have hnot : ∀ {k : String} {v : Json} {p : Prop}, o.lookup k = some v →
        k ∉ ["$ref", "title", "description"] → p := by
      intro k v p hv hk
      exact absurd (by simpa using honly hv) hk
    exact
      { known := fun key v hv => known_of_metadata hmeta hv
        defs := fun v hv => hnot hv (by decide)
        properties := fun _ v hv => hnot hv (by decide)
        items := fun _ v hv => hnot hv (by decide)
        oneOf := fun v hv => hnot hv (by decide)
        flat := fun key v hv _ => by
          rcases honly hv with rfl | hk
          · rw [hr] at hv
            cases hv
            exact flat_string (isString_of_asStr hs)
          · exact flat_of_metadata hmeta hv (by rcases hk with rfl | rfl <;> decide)
        fields := fun _ key v hv hk => hnot hv (by
          rcases List.mem_pair.1 hk with rfl | rfl <;> decide)
        kind := .inl (by rw [hr]; simp) }

include haccept

theorem map_of_checkDefs (h : checkDefs check stack o = .ok ()) (hv : o.lookup "$defs" = some v) :
    Map root v := by
  unfold checkDefs at h
  rw [hv] at h
  cases hd : asObject v with
  | none =>
    simp only [hd] at h
    cases h
  | some fields =>
    simp only [hd, checkAll_ok] at h
    exact ⟨fields, asObject_eq_some hd, fun f hf => haccept _ _ (h f hf)⟩

theorem shape_union (hmeta : checkMetadata o = .ok ()) (hv : o.lookup "oneOf" = some v)
    (h : checkUnion check stack o v = .ok ()) : Shape root o := by
  unfold checkUnion at h
  simp only [bind_ok, demand_ok] at h
  obtain ⟨hkeys, h⟩ := h
  have hnot : ∀ {k : String} {v : Json} {p : Prop}, o.lookup k = some v →
      k ∉ ["oneOf", "title", "description"] → p := by
    intro k v p hv hk
    exact absurd (by simpa using mem_of_onlyKeys hkeys hv) hk
  exact
    { known := fun key v hv => known_of_metadata hmeta hv
      defs := fun v hv => hnot hv (by decide)
      properties := fun _ v hv => hnot hv (by decide)
      items := fun _ v hv => hnot hv (by decide)
      oneOf := fun w hw => by
        rw [hv] at hw
        cases hw
        cases ha : asArray v with
        | none =>
          rw [ha] at h
          cases h
        | some a =>
          simp only [ha, bind_ok, checkAll_ok] at h
          refine ⟨a, asArray_eq_some ha, fun s hs => ?_⟩
          have hvariant := h.2.1 s hs
          simp only [checkVariant, bind_ok] at hvariant
          exact haccept _ _ hvariant.2.1
      flat := fun key w hw hk => by
        rcases mem_of_onlyKeys hkeys hw with rfl | hk'
        · exact absurd (by decide) hk
        · exact flat_of_metadata hmeta hw (by rcases hk' with rfl | rfl <;> decide)
      fields := fun _ key v hv hk => hnot hv (by
        rcases List.mem_pair.1 hk with rfl | rfl <;> decide)
      kind := .inr (.inr (.inl (by rw [hv]; simp))) }

theorem map_of_checkObject (h : checkObject check stack o = .ok ())
    (hv : o.lookup "properties" = some v) : Map root v := by
  simp only [checkObject, hv, Option.bind_some, bind_ok, demand_ok] at h
  have h := h.2
  cases hp : asObject v with
  | none =>
    rw [hp] at h
    cases h
  | some fields =>
    simp only [hp, bind_ok, checkAll_ok] at h
    exact ⟨fields, asObject_eq_some hp, fun f hf => haccept _ _ (h.1 f hf)⟩

omit haccept in
theorem flat_of_checkObject (h : checkObject check stack o = .ok ()) (hv : o.lookup key = some v)
    (hkey : key ∈ ["required", "additionalProperties"]) : Flat v := by
  simp only [checkObject, bind_ok, demand_ok] at h
  obtain ⟨hadditional, h⟩ := h
  rcases List.mem_pair.1 hkey with rfl | rfl
  · split at h
    · cases h
    next p _ =>
      simp only [hv, bind_ok] at h
      cases ha : asArray v with
      | none =>
        simp only [ha] at h
        exact absurd h.2 (by simp)
      | some a =>
        rw [ha] at h
        rw [asArray_eq_some ha]
        exact flat_strings fun w hw => strings_of_required h.2 hw
  · rw [hv] at hadditional
    cases v with
    | bool b => exact ⟨rfl, (by simp)⟩
    | _ => cases hadditional

omit haccept in
/-- The type, when there is one. -/
theorem type_of_checkType (hv : o.lookup "type" = some v) (h : checkType check stack o = .ok ()) :
    ∃ t, asStr v = some t ∧ (t = "object" → checkObject check stack o = .ok ()) ∧
      (t = "array" → check stack ((o.lookup "items").getD .null) = .ok ()) ∧
      ∀ key ∈ typeKeywords t, hasKey o key.1 = true → key.2 = true := by
  unfold checkType at h
  simp only [hv] at h
  cases ht : asStr v with
  | none =>
    rw [ht] at h
    cases h
  | some t =>
    simp only [ht, bind_ok, demand_ok, checkAll_ok, Bool.or_eq_true, Bool.not_eq_true'] at h
    obtain ⟨-, hobject, harray, hkeys⟩ := h
    refine ⟨t, rfl, fun h => ?_, fun h => ?_, fun key hkey hhas => ?_⟩
    · rwa [if_pos h] at hobject
    · rwa [if_pos h] at harray
    · rcases hkeys key hkey with hno | hyes
      · cases hhas.symm.trans hno
      · exact hyes

omit haccept in
/-- A keyword that goes with one type. -/
theorem type_of_keyword {t t' : String} (hv : o.lookup key = some v)
    (hkeys : ∀ key ∈ typeKeywords t, hasKey o key.1 = true → key.2 = true)
    (hmem : (key, decide (t = t')) ∈ typeKeywords t) : t = t' := by
  have h := hkeys _ hmem (by rw [hasKey, hv]; rfl)
  exact of_decide_eq_true h

omit haccept in
theorem flat_of_literals (h : checkLiterals root o = .ok ()) (hv : o.lookup key = some v)
    (hkey : key ∈ ["enum", "x-wire-type", "const"]) : Flat v := by
  simp only [checkLiterals, bind_ok, demand_ok] at h
  obtain ⟨-, henum, hwire, hconst, -⟩ := h
  simp only [List.mem_cons, List.not_mem_nil, or_false] at hkey
  rcases hkey with rfl | rfl | rfl
  · unfold checkEnum at henum
    simp only [hv] at henum
    cases ha : asArray v with
    | none =>
      rw [ha] at henum
      cases henum
    | some a =>
      simp only [ha, demand_ok, Bool.and_eq_true] at henum
      rw [asArray_eq_some ha]
      exact flat_strings fun w hw => strings_of_distinct henum.2 hw
  · rw [hv] at hwire
    cases hs : asStr v with
    | some w => exact flat_string (isString_of_asStr hs)
    | none =>
      rw [Option.all_some, hs] at hwire
      exact absurd (Bool.and_eq_true_iff.1 hwire).2 (by decide)
  · unfold checkConst at hconst
    simp only [hv, bind_ok, demand_ok, Bool.not_eq_true', Bool.or_eq_false_iff] at hconst
    refine ⟨hconst.1.1, fun items heq => ?_⟩
    subst heq
    cases hconst.1.2

omit haccept in
/-- The keywords, by what checks them. -/
theorem keyword_cases (h : key ∈ keywords) :
    key ∈ ["$defs", "properties", "items", "oneOf", "required", "additionalProperties"] ∨
    key ∈ ["$schema", "title", "description"] ∨
    key ∈ ["minItems", "maxItems", "minLength", "maxLength", "minimum", "maximum"] ∨
    key ∈ ["enum", "x-wire-type", "const"] ∨ key = "$ref" ∨ key = "type" := by
  simp only [keywords, List.mem_cons, List.not_mem_nil, or_false] at h ⊢
  tauto

theorem shape_plain (hmeta : checkMetadata o = .ok ()) (href : o.lookup "$ref" = none)
    (hbounds : checkBounds o = .ok ()) (hdefs : checkDefs check stack o = .ok ())
    (hone : o.lookup "oneOf" = none) (htype : checkType check stack o = .ok ())
    (hliterals : checkLiterals root o = .ok ()) : Shape root o where
  known key v hv := known_of_metadata hmeta hv
  defs v hv := map_of_checkDefs haccept hdefs hv
  properties htyped v hv := by
    obtain ⟨tv, htv⟩ := Option.ne_none_iff_exists'.1 htyped
    obtain ⟨t, -, hobject, -, hkeys⟩ := type_of_checkType htv htype
    have ht : t = "object" := type_of_keyword hv hkeys (by simp [typeKeywords])
    exact map_of_checkObject haccept (hobject ht) hv
  items htyped v hv := by
    obtain ⟨tv, htv⟩ := Option.ne_none_iff_exists'.1 htyped
    obtain ⟨t, -, -, harray, hkeys⟩ := type_of_checkType htv htype
    have ht : t = "array" := type_of_keyword hv hkeys (by simp [typeKeywords])
    have h := harray ht
    rw [hv] at h
    exact haccept _ _ h
  oneOf v hv := by cases hone.symm.trans hv
  flat key v hv hkey := by
    have hknown := known_of_metadata hmeta hv
    rcases keyword_cases hknown with hk | hk | hk | hk | rfl | rfl
    · exact absurd hk hkey
    · exact flat_of_metadata hmeta hv hk
    · exact flat_of_bounds hbounds hv hk
    · exact flat_of_literals hliterals hv hk
    · cases href.symm.trans hv
    · obtain ⟨t, ht, -⟩ := type_of_checkType hv htype
      exact flat_string (isString_of_asStr ht)
  fields htyped key v hv hkey := by
    obtain ⟨tv, htv⟩ := Option.ne_none_iff_exists'.1 htyped
    obtain ⟨t, -, hobject, -, hkeys⟩ := type_of_checkType htv htype
    have ht : t = "object" := by
      rcases List.mem_pair.1 hkey with rfl | rfl
      · exact type_of_keyword hv hkeys (by simp [typeKeywords])
      · exact type_of_keyword hv hkeys (by simp [typeKeywords])
    exact flat_of_checkObject (hobject ht) hv hkey
  kind := by
    cases htv : o.lookup "type" with
    | some t => exact .inr (.inl nofun)
    | none =>
      simp only [checkType, htv, demand_ok, Bool.or_eq_true, hasKey] at htype
      rcases htype with (hdefs | hconst) | henum
      · exact .inr (.inr (.inr (.inl fun h => by rw [h] at hdefs; cases hdefs)))
      · exact .inr (.inr (.inr (.inr fun h => by rw [h] at hconst; cases hconst)))
      · simp only [checkLiterals, bind_ok, demand_ok, hasKey, htv] at hliterals
        rw [henum] at hliterals
        exact absurd hliterals.1 (by decide)

omit haccept in
theorem lookup_other (hne : key ≠ "type") (v : Json) :
    (setKey o "type" v).lookup key = o.lookup key := by
  rw [lookup_setKey, if_neg hne]

omit haccept in
/-- A type with null: the shape is that of the schema with the other type. -/
theorem shape_nullable {types : List Json} {other : Json} (hmeta : checkMetadata o = .ok ())
    (htypes : (o.lookup "type").bind asArray = some types)
    (hstrings : ∀ t ∈ types, isString t = true)
    (h : Shape root (setKey o "type" other))
    (htyped : (setKey o "type" other).lookup "type" ≠ none) : Shape root o where
  known key v hv := known_of_metadata hmeta hv
  defs v hv := h.defs v ((lookup_other (by decide) other).trans hv)
  properties _ v hv := h.properties htyped v ((lookup_other (by decide) other).trans hv)
  items _ v hv := h.items htyped v ((lookup_other (by decide) other).trans hv)
  oneOf v hv := h.oneOf v ((lookup_other (by decide) other).trans hv)
  flat key v hv hkey := by
    by_cases ht : key = "type"
    · subst ht
      rw [hv] at htypes
      rw [asArray_eq_some htypes]
      exact flat_strings hstrings
    · exact h.flat key v ((lookup_other ht other).trans hv) hkey
  fields _ key v hv hkey := by
    refine h.fields htyped key v ((lookup_other ?_ other).trans hv) hkey
    rintro rfl
    exact absurd hkey (by decide)
  kind := by
    refine .inr (.inl fun hnone => ?_)
    rw [hnone] at htypes
    cases htypes

end Shape

variable {root s : Json}

theorem shape_of_checkSchema {levels : Nat} {stack : List String} {o : List (String × Json)}
    (hl : levels ≤ maxLevels) (h : checkSchema root levels stack (.object o) = .ok ()) :
    Shape root o := by
  induction levels generalizing stack o with
  | zero => simp only [checkSchema, reduceCtorEq] at h
  | succ levels ih =>
    have hl' : levels ≤ maxLevels := Nat.le_of_succ_le hl
    have haccept : ∀ stack s, checkSchema root levels stack s = .ok () → Accepted root s :=
      fun stack s h => ⟨levels, stack, hl', h⟩
    rw [checkSchema] at h
    simp only [checkNode, asObject, bind_ok] at h
    obtain ⟨hmeta, h⟩ := h
    cases href : o.lookup "$ref" with
    | some r =>
      simp only [href] at h
      exact shape_reference hmeta href h
    | none =>
      simp only [href] at h
      cases htypes : (o.lookup "type").bind asArray with
      | some types =>
        simp only [htypes, checkNullable, bind_ok, demand_ok, Bool.and_eq_true] at h
        obtain ⟨-, ⟨⟨hlen, hnull⟩, hstrings⟩, h⟩ := h
        cases hother : types.find? fun t => asStr t ≠ some "null" with
        | some other =>
          rw [hother] at h
          refine shape_nullable hmeta htypes (List.all_eq_true.1 hstrings) (ih hl' h) ?_
          rw [lookup_setKey, if_pos rfl]
          simp
        | none =>
          -- Two types, of which one is null: there is another.
          have hall : types.filter (fun t => asStr t = some "null") = types := by
            refine List.filter_eq_self.2 fun t ht => ?_
            have := List.find?_eq_none.1 hother t ht
            simpa using this
          rw [hall] at hnull
          simp only [decide_eq_true_eq] at hlen hnull
          omega
      | none =>
        simp only [htypes, bind_ok] at h
        obtain ⟨hbounds, hdefs, h⟩ := h
        cases hone : o.lookup "oneOf" with
        | some v =>
          simp only [hone] at h
          exact shape_union haccept hmeta hone h
        | none =>
          simp only [hone, bind_ok] at h
          exact shape_plain haccept hmeta href hbounds hdefs hone h.1 h.2

/-- What is accepted is an object with the keywords of a schema. -/
theorem Accepted.shape (h : Accepted root s) : ∃ o, s = .object o ∧ Shape root o := by
  obtain ⟨levels, stack, hl, h⟩ := h
  cases levels with
  | zero => simp only [checkSchema, reduceCtorEq] at h
  | succ levels =>
    cases s with
    | object o => exact ⟨o, rfl, shape_of_checkSchema hl h⟩
    | _ =>
      rw [checkSchema] at h
      simp only [checkNode, asObject, reduceCtorEq] at h

theorem Accepted.isObject (h : Accepted root s) : isObject s = true := by
  obtain ⟨o, rfl, -⟩ := h.shape
  rfl

theorem Flat.not_accepted {v : Json} (h : Flat v) : ¬ Accepted root v := fun ha =>
  Bool.false_ne_true (h.object.symm.trans ha.isObject)

/-- A map of schemas is not a schema.  Its keywords would be schemas themselves, and the only one
that could be is `$defs`, whose value would again be both. -/
theorem Map.not_accepted {v : Json} (h : Map root v) : ¬ Accepted root v := by
  induction hn : sizeOf v using Nat.strong_induction_on generalizing v with
  | _ n ih =>
    obtain ⟨fields, rfl, hfields⟩ := h
    intro ha
    obtain ⟨o, ho, hshape⟩ := ha.shape
    cases ho
    have hvalue : ∀ key v, fields.lookup key = some v → Accepted root v :=
      fun key v hv => hfields _ (mem_of_lookup hv)
    have hnone : ∀ key, key ∉ ["$defs", "properties", "items", "oneOf", "required",
        "additionalProperties"] → fields.lookup key = none := by
      intro key hkey
      cases hv : fields.lookup key with
      | none => rfl
      | some v => exact absurd (hvalue key v hv) (hshape.flat key v hv hkey).not_accepted
    have hdefs : fields.lookup "$defs" = none := by
      cases hv : fields.lookup "$defs" with
      | none => rfl
      | some d =>
        have hlt : sizeOf d < n := by
          have hmem := List.sizeOf_lt_of_mem (mem_of_lookup hv)
          simp only [Prod.mk.sizeOf_spec] at hmem
          simp only [Json.object.sizeOf_spec] at hn
          omega
        exact absurd (hvalue _ d hv) (ih _ hlt (hshape.defs d hv) rfl)
    have hone : fields.lookup "oneOf" = none := by
      cases hv : fields.lookup "oneOf" with
      | none => rfl
      | some v =>
        obtain ⟨a, rfl, -⟩ := hshape.oneOf v hv
        cases (hvalue _ _ hv).isObject
    rcases hshape.kind with h | h | h | h | h
    · exact h (hnone "$ref" (by decide))
    · exact h (hnone "type" (by decide))
    · exact h hone
    · exact h hdefs
    · exact h (hnone "const" (by decide))

/-! ## Where a pointer leads -/

/-- A place for a schema, or below a keyword that a schema without a type leaves unread. -/
inductive Seat where
  | schema
  | unread
  deriving DecidableEq, Repr

/-- Where the tokens of a pointer lead, from a schema. -/
def seat : Json → List String → Option Seat
  | _, [] => some .schema
  | s, [key] =>
    if (get? s "type").isSome then if key = "items" then some .schema else none
    else if key ∈ ["properties", "items", "required", "additionalProperties"] then some .unread
    else none
  | s, key :: name :: rest =>
    if key = "$defs" ∨ key = "oneOf" ∨ key = "properties" ∧ (get? s "type").isSome then
      match child (get s key) name with
      | some v => seat v rest
      | none => none
    else if (get? s "type").isSome then
      if key = "items" then seat (get s key) (name :: rest) else none
    else if key ∈ ["properties", "items", "required", "additionalProperties"] then some .unread
    else none

/-- The reference leads to a place for a schema, or to a schema below an unread keyword. -/
def Seated (root : Json) (reference : String) : Prop :=
  seat root (tokens (reference.toList.drop 1)) = some .schema ∨
    seat root (tokens (reference.toList.drop 1)) = some .unread ∧
      ∃ s, resolve root reference = .ok s ∧ checkSchema root maxLevels [] s = .ok ()

theorem follow_of_resolve {r : String} (h : resolve root r = .ok s) :
    follow root (tokens (r.toList.drop 1)) = some s := by
  unfold resolve at h
  split at h
  · cases h
  · cases hv : follow root (tokens (r.toList.drop 1)) with
    | none =>
      rw [hv] at h
      cases h
    | some v =>
      rw [hv] at h
      cases h
      rfl

section Seat

variable {root : Json} {o : List (String × Json)}

variable {key name : String} {u w v : Json} {ts : List String}

/-- The keywords that hold no schemas. -/
theorem Shape.dead (h : Shape root o) (hu : o.lookup key = some u)
    (hdefs : key ≠ "$defs") (hone : key ≠ "oneOf")
    (htyped : (o.lookup "type").isSome = true → key ≠ "properties" ∧ key ≠ "items")
    (huntyped : (o.lookup "type").isSome = false →
      key ∉ ["properties", "items", "required", "additionalProperties"]) : Flat u := by
  by_cases hfields : key ∈ ["required", "additionalProperties"]
  · refine h.fields (fun hnone => ?_) key u hu hfields
    rw [hnone] at huntyped
    refine huntyped rfl ?_
    rcases List.mem_pair.1 hfields with rfl | rfl <;> decide
  · refine h.flat key u hu fun hmem => ?_
    simp only [List.mem_cons, List.not_mem_nil, or_false] at hmem hfields huntyped
    cases ht : (o.lookup "type").isSome with
    | true =>
      obtain ⟨hproperties, hitems⟩ := htyped ht
      tauto
    | false =>
      have := huntyped ht
      tauto

theorem Map.child (h : Map root u) (hw : Schema.child u name = some w) : Accepted root w := by
  obtain ⟨fields, rfl, hfields⟩ := h
  exact hfields _ (mem_of_lookup hw)

theorem accepted_of_variants {a : List Json} (h : ∀ s ∈ a, Accepted root s)
    (hw : child (.array a) name = some w) : Accepted root w := by
  obtain ⟨n, -, hn⟩ := Option.bind_eq_some_iff.1 hw
  exact h w (List.mem_of_getElem? hn)

theorem typed_of_isSome (h : (o.lookup "type").isSome = true) : o.lookup "type" ≠ none := by
  intro hnone
  rw [hnone] at h
  cases h

/-- Keywords without schemas lead to nothing that is accepted. -/
theorem Shape.closed (h : Shape root o)
    (hu : o.lookup key = some u) (hv : follow u ts = some v) (hdefs : key ≠ "$defs")
    (hone : key ≠ "oneOf")
    (htyped : (o.lookup "type").isSome = true → key ≠ "properties" ∧ key ≠ "items")
    (huntyped : (o.lookup "type").isSome = false →
      key ∉ ["properties", "items", "required", "additionalProperties"]) :
    ¬ Accepted root v := by
  intro ha
  have hflat := (h.dead hu hdefs hone htyped huntyped).follow hv
  exact Bool.false_ne_true (hflat.symm.trans ha.isObject)

/-- The value of a keyword itself is accepted at `items` only. -/
theorem Shape.last (h : Shape root o) (hu : o.lookup key = some u) :
    (Accepted root u → seat (.object o) [key] ≠ none) ∧
      (seat (.object o) [key] = some .schema → Accepted root u) := by
  have hself : follow u [] = some u := rfl
  rw [seat, get?_object]
  constructor
  · intro ha
    have hdefs : key ≠ "$defs" := by
      rintro rfl
      exact (h.defs u hu).not_accepted ha
    have hone : key ≠ "oneOf" := by
      rintro rfl
      obtain ⟨a, rfl, -⟩ := h.oneOf u hu
      cases ha.isObject
    split_ifs with ht hitems hunread
    · exact nofun
    · have hproperties : key ≠ "properties" := by
        rintro rfl
        exact (h.properties (typed_of_isSome ht) u hu).not_accepted ha
      exact absurd ha (h.closed hu hself hdefs hone (fun _ => ⟨hproperties, hitems⟩)
        fun hnone => absurd (hnone.symm.trans ht) (by decide))
    · exact nofun
    · exact absurd ha (h.closed hu hself hdefs hone (fun hsome => absurd hsome ht) fun _ => hunread)
  · intro hs
    split_ifs at hs with ht hitems hunread
    · exact h.items (typed_of_isSome ht) u (hitems ▸ hu)
    · cases hs

/-- What a pointer leads to is accepted at a place for schemas; elsewhere nothing is, but below
an unread keyword. -/
theorem seat_spec {s : Json} (hs : Accepted root s) (hv : follow s ts = some v) :
    (Accepted root v → seat s ts ≠ none) ∧ (seat s ts = some .schema → Accepted root v) := by
  induction hn : ts.length using Nat.strong_induction_on generalizing s ts with
  | _ n ih =>
    obtain ⟨o, rfl, hshape⟩ := hs.shape
    cases ts with
    | nil =>
      cases hv
      exact ⟨nofun, fun _ => hs⟩
    | cons key rest =>
      obtain ⟨u, hu, hv⟩ := Option.bind_eq_some_iff.1 hv
      have hlookup : o.lookup key = some u := hu
      have hget : get (.object o) key = u := by rw [get, get?_object, hlookup, Option.getD_some]
      cases rest with
      | nil =>
        cases hv
        exact hshape.last hlookup
      | cons name rest =>
        simp only [List.length_cons] at hn
        have hfollow := hv
        obtain ⟨w, hw, hv⟩ := Option.bind_eq_some_iff.1 hv
        rw [seat, get?_object, hget, hw]
        split_ifs with hmap ht hitems hunread
        · -- A schema of a map, or of a list.
          refine ih rest.length (by omega) ?_ hv rfl
          rcases hmap with rfl | rfl | ⟨rfl, ht⟩
          · exact (hshape.defs u hlookup).child hw
          · obtain ⟨a, rfl, ha⟩ := hshape.oneOf u hlookup
            exact accepted_of_variants ha hw
          · exact (hshape.properties (typed_of_isSome ht) u hlookup).child hw
        · have ha := hshape.items (typed_of_isSome ht) u (hitems ▸ hlookup)
          exact ih (rest.length + 1) (by omega) ha hfollow rfl
        · simp only [not_or, not_and] at hmap
          refine ⟨fun ha _ => ?_, nofun⟩
          exact hshape.closed hlookup hfollow hmap.1 hmap.2.1
            (fun _ => ⟨fun hp => hmap.2.2 hp ht, hitems⟩)
            (fun hnone => absurd (hnone.symm.trans ht) (by decide)) ha
        · exact ⟨nofun, nofun⟩
        · simp only [not_or, not_and] at hmap
          exact ⟨fun ha _ => hshape.closed hlookup hfollow hmap.1 hmap.2.1
            (fun hsome => absurd hsome ht) (fun _ => hunread) ha, nofun⟩

end Seat

/-! ## References of accepted contracts -/

namespace Contract

variable {c : Contract}

theorem resolves_of_checkRef {v : Json} {message r : String} (h : c.checkRef v message = .ok ())
    (hr : asStr v = some r) : ∃ s, resolve c.schemas r = .ok s := by
  rw [checkRef, hr] at h
  simp only at h
  cases hres : resolve c.schemas r with
  | ok s => exact ⟨s, rfl⟩
  | error e =>
    rw [hres] at h
    cases h

theorem resolves_of_checkRefs {category key message r : String}
    (h : c.checkRefs category key message = .ok ()) (hr : r ∈ c.memberRefs category key) :
    ∃ s, resolve c.schemas r = .ok s := by
  obtain ⟨member, hmem, hmember⟩ := List.mem_filterMap.1 hr
  exact resolves_of_checkRef (checkAll_ok.1 h member hmem) hmember

theorem refs_of_checkMethod {method : String × Json} (h : c.checkMethod method = .ok ()) :
    ∀ k ∈ ["input", "output"], c.checkRef (get method.2 k)
      "method input/output must be schema refs" = .ok () := by
  rw [checkMethod, bind_ok] at h
  cases ho : asObject method.2 with
  | none =>
    rw [ho] at h
    cases h.2
  | some o =>
    simp only [ho, bind_ok] at h
    cases herrors : (o.lookup "errors").bind asArray with
    | none =>
      simp only [herrors, reduceCtorEq, and_false] at h
    | some errors =>
      simp only [herrors, bind_ok] at h
      exact checkAll_ok.1 h.2.2.2.2.1

/-- What the checks of `from_value` say of methods, of references and of the schemas. -/
theorem check_parts (h : c.check = .ok ()) :
    (∀ method ∈ (asObject (get c.descriptor "methods")).getD [], c.checkMethod method = .ok ()) ∧
      c.checkRefs "errors" "data" "error data must be schema ref" = .ok () ∧
      c.checkRefs "events" "payload" "event payload must be schema ref" = .ok () ∧
      c.checkState = .ok () ∧ c.checkSchemas = .ok () := by
  rw [check, bind_ok] at h
  cases hd : asObject c.descriptor with
  | none =>
    rw [hd] at h
    cases h.2
  | some d =>
    simp only [hd, bind_ok] at h
    cases hm : asObject (get c.descriptor "methods") with
    | none => simp only [hm, reduceCtorEq, and_false] at h
    | some methods =>
      simp only [hm, bind_ok] at h
      exact ⟨checkAll_ok.1 h.2.2.2.2.1, h.2.2.2.2.2⟩

/-- Every reference of a checked descriptor resolves. -/
theorem refs_resolve (h : c.check = .ok ()) {r : String} (hr : r ∈ c.refs) :
    ∃ s, resolve c.schemas r = .ok s := by
  obtain ⟨hmethods, herrors, hevents, hstate, -⟩ := check_parts h
  have hmethod : ∀ k ∈ ["input", "output"], r ∈ c.memberRefs "methods" k →
      ∃ s, resolve c.schemas r = .ok s := by
    intro k hk hr
    obtain ⟨method, hmem, hmethod⟩ := List.mem_filterMap.1 hr
    exact resolves_of_checkRef (refs_of_checkMethod (hmethods method hmem) k hk) hmethod
  simp only [refs, List.mem_append, or_assoc] at hr
  rcases hr with hr | hr | hr | hr | hr
  · exact hmethod "input" (by simp) hr
  · exact hmethod "output" (by simp) hr
  · exact resolves_of_checkRefs herrors hr
  · exact resolves_of_checkRefs hevents hr
  · obtain ⟨s, hs, hr⟩ := Option.bind_eq_some_iff.1 (Option.mem_toList.1 hr)
    rw [checkState, hs] at hstate
    simp only [bind_ok] at hstate
    exact resolves_of_checkRef hstate.2.2 hr

theorem accepted_schemas (h : c.check = .ok ()) : Accepted c.schemas c.schemas := by
  obtain ⟨-, -, -, -, hschemas⟩ := check_parts h
  rw [checkSchemas] at hschemas
  cases hroot : asObject c.schemas with
  | none =>
    rw [hroot] at hschemas
    cases hschemas
  | some root =>
    simp only [hroot, bind_ok] at hschemas
    exact ⟨maxLevels, [], le_rfl, hschemas.2⟩

section FromValue

variable {canonicalize : Json → Except String (List UInt8)} {sha256 : List UInt8 → String}

/-- A step of `from_value` after another. -/
theorem bind_eq_ok {α β : Type} {x : Except RpcError α} {y : α → Except RpcError β} {b : β} :
    (x >>= y) = .ok b ↔ ∃ a, x = .ok a ∧ y a = .ok b := by
  cases x with
  | error e => simp [Bind.bind, Except.bind]
  | ok a => simp [Bind.bind, Except.bind]

theorem fromValue_parts {value : Json} (h : fromValue canonicalize sha256 value = .ok c) :
    decode value = .ok c ∧ c.check = .ok () := by
  rw [fromValue, bind_eq_ok] at h
  obtain ⟨c', hdecode, h⟩ := h
  rw [bind_eq_ok] at h
  obtain ⟨actual, -, h⟩ := h
  rw [bind_ok, bind_ok] at h
  obtain ⟨-, hcheck, hc⟩ := h
  cases hc
  exact ⟨hdecode, hcheck⟩

/-- A contract is accepted when its references resolve.  Each leads to a schema that has been
checked exactly if it leads to a place for a schema. -/
theorem refs_checked_iff {value : Json} (h : fromValue canonicalize sha256 value = .ok c) :
    (∀ r ∈ c.refs, ∃ s, resolve c.schemas r = .ok s ∧
      checkSchema c.schemas maxLevels [] s = .ok ()) ↔ ∀ r ∈ c.refs, Seated c.schemas r := by
  have hcheck := (fromValue_parts h).2
  refine forall₂_congr fun r hr => ?_
  obtain ⟨s, hs⟩ := refs_resolve hcheck hr
  have hfollow := follow_of_resolve hs
  obtain ⟨hsome, hschema⟩ := seat_spec (accepted_schemas hcheck) hfollow
  constructor
  · rintro ⟨s', hs', hchecked⟩
    cases hs.symm.trans hs'
    cases hseat : seat c.schemas (tokens (r.toList.drop 1)) with
    | none => exact absurd hseat (hsome ⟨maxLevels, [], le_rfl, hchecked⟩)
    | some place =>
      cases place with
      | schema => exact .inl hseat
      | unread => exact .inr ⟨hseat, s, hs, hchecked⟩
  · rintro (hseat | ⟨-, hchecked⟩)
    · exact ⟨s, hs, (hschema hseat).checked⟩
    · exact hchecked

/-- A contract with one event and one schema, whose digest is all zeros. -/
def eventContract (payload : String) : Contract where
  descriptor := .object [("descriptorVersion", .number (.int 1)), ("id", .string "a"),
    ("version", .string "1.0.0"), ("methods", .object []), ("errors", .object []),
    ("events", .object [("e", .object [("payload", .string payload)])])]
  schemas := .object [("$defs", .object [("a", .object [("type", .string "null")])])]
  digest := String.ofList (List.replicate 64 '0')

/-- The contract as a value. -/
def asValue (c : Contract) : Json :=
  .object [("descriptor", c.descriptor), ("schemas", c.schemas), ("digest", .string c.digest)]

theorem fromValue_asValue (h : (fromValue canonicalize sha256 c.asValue).isOk = true) :
    fromValue canonicalize sha256 c.asValue = .ok c := by
  cases hc : fromValue canonicalize sha256 c.asValue with
  | error e =>
    rw [hc] at h
    cases h
  | ok c' =>
    cases (fromValue_parts hc).1.symm.trans (rfl : decode c.asValue = .ok c)
    rfl

theorem refs_checked_event : ∃ s, resolve (eventContract "#/$defs/a").schemas "#/$defs/a" = .ok s ∧
    checkSchema (eventContract "#/$defs/a").schemas maxLevels [] s = .ok () := by
  have haccept : fromValue (fun _ => .ok []) (fun _ => (eventContract "").digest)
      (eventContract "#/$defs/a").asValue = .ok (eventContract "#/$defs/a") :=
    fromValue_asValue (by decide +kernel)
  refine (refs_checked_iff haccept).2 (fun r hr => .inl ?_) "#/$defs/a" List.mem_cons_self
  cases List.mem_singleton.1 hr
  decide +kernel

/-- A reference to the type of a schema: a string, which is no schema. -/
theorem type_reference : ¬ ∀ (canonicalize : Json → Except String (List UInt8))
    (sha256 : List UInt8 → String) (value : Json) (c : Contract),
    fromValue canonicalize sha256 value = .ok c → ∀ r ∈ c.refs, ∃ s,
      resolve c.schemas r = .ok s ∧ checkSchema c.schemas maxLevels [] s = .ok () := by
  intro h
  have haccept : fromValue (fun _ => .ok []) (fun _ => (eventContract "").digest)
      (eventContract "#/$defs/a/type").asValue = .ok (eventContract "#/$defs/a/type") :=
    fromValue_asValue (by decide +kernel)
  obtain ⟨s, hs, hchecked⟩ := h _ _ _ _ haccept "#/$defs/a/type" List.mem_cons_self
  have hfollow := follow_of_resolve hs
  rw [show tokens ("#/$defs/a/type".toList.drop 1) = ["$defs", "a", "type"] by decide +kernel]
    at hfollow
  cases hfollow
  exact (flat_string rfl).not_accepted ⟨maxLevels, [], le_rfl, hchecked⟩

end FromValue

end Contract

end NapiVm.Schema
