import NapiVm.Schema.Seats

/-!
# Tagged unions

`validate_at` asks that exactly one variant of a `oneOf` validates the value.  `check_schema` asks
for a key that every variant requires, with a constant string for it and no string twice.

* `tag` — the constant of a variant for a key.
* `union_tagged` — at most one variant validates a value, and the value has its tag.
-/

namespace NapiVm.Schema

open Host Rpc

/-! ## What stands beside a keyword -/

section Beside

variable {root : Json} {levels : Nat} {stack : List String} {o : List (String × Json)}

theorem checkSchema_object {s : Json} (h : checkSchema root levels stack s = .ok ()) :
    ∃ o, s = .object o := by
  cases levels with
  | zero => cases h
  | succ levels =>
    cases hs : asObject s with
    | none =>
      rw [checkSchema, checkNode, hs] at h
      cases h
    | some o => exact ⟨o, asObject_eq_some hs⟩

theorem onlyKeys_of_reference (h : checkSchema root levels stack (.object o) = .ok ()) {r : Json}
    (hr : o.lookup "$ref" = some r) : onlyKeys o "$ref" = true := by
  cases levels with
  | zero => cases h
  | succ levels =>
    simp only [checkSchema, checkNode, asObject, bind_ok, hr, checkReference] at h
    cases hstr : asStr r with
    | none =>
      rw [hstr] at h
      cases h.2
    | some r =>
      simp only [hstr, bind_ok, demand_ok] at h
      exact h.2.1

variable {u v : Json} {path : String}

theorem no_reference (h : checkSchema root levels stack (.object o) = .ok ()) {key : String}
    (hu : o.lookup key = some u) (hkey : key ∈ ["oneOf", "type", "const"]) :
    o.lookup "$ref" = none := by
  cases hr : o.lookup "$ref" with
  | none => rfl
  | some r =>
    have hbeside := mem_of_onlyKeys (onlyKeys_of_reference h hr) hu
    simp only [List.mem_cons, List.not_mem_nil, or_false] at hkey
    rcases hkey with rfl | rfl | rfl <;> exact absurd hbeside (by decide)

section

variable (h : checkSchema root (levels + 1) stack (.object o) = .ok ())

include h

/-- A type with null is checked again, without null. -/
theorem check_nullable {types : List Json} (hr : o.lookup "$ref" = none)
    (htypes : (o.lookup "type").bind asArray = some types) : (o.lookup "const" = none) ∧ ∃ name,
      types.find? (fun t => asStr t ≠ some "null") = some (.string name) ∧
        checkSchema root levels stack (.object (setKey o "type" (.string name))) = .ok () := by
  simp only [checkSchema, checkNode, asObject, bind_ok, hr, htypes, checkNullable, demand_ok,
    Bool.and_eq_true, Bool.not_eq_true', Bool.or_eq_false_iff, decide_eq_true_eq] at h
  obtain ⟨-, ⟨-, hconst⟩, ⟨⟨hlen, hnull⟩, hstrings⟩, h⟩ := h
  refine ⟨Option.isNone_iff_eq_none.1 (by simpa [hasKey] using hconst), ?_⟩
  cases hother : types.find? fun t => asStr t ≠ some "null" with
  | none =>
    -- both are "null", but only one may be
    rw [List.find?_eq_none] at hother
    have hall : types.filter (fun t => asStr t = some "null") = types :=
      List.filter_eq_self.2 fun t ht => by simpa using hother t ht
    rw [hall, hlen] at hnull
    cases hnull
  | some other =>
    rw [hother] at h
    have hstring := List.all_eq_true.1 hstrings _ (List.mem_of_find?_eq_some hother)
    cases other with
    | string name => exact ⟨name, rfl, h⟩
    | _ => cases hstring

/-- What `check_schema` comes to when it finds `oneOf`. -/
theorem check_oneOf (hu : o.lookup "oneOf" = some u)
    (htypes : (o.lookup "type").bind asArray = none) :
    checkUnion (checkSchema root levels) stack o u = .ok () := by
  simp only [checkSchema, checkNode, asObject, bind_ok, no_reference h hu (by simp), htypes,
    hu] at h
  exact h.2.2.2

end

section

variable (h : checkSchema root levels stack (.object o) = .ok ())

include h

/-- A schema with a type has no `oneOf`. -/
theorem no_oneOf_of_string {name : String} (hname : o.lookup "type" = some (.string name)) :
    o.lookup "oneOf" = none := by
  cases levels with
  | zero => cases h
  | succ levels =>
    cases hu : o.lookup "oneOf" with
    | none => rfl
    | some u =>
      have hunion := check_oneOf h hu (by rw [hname]; rfl)
      simp only [checkUnion, bind_ok, demand_ok] at hunion
      exact absurd (mem_of_onlyKeys hunion.1 hname) (by decide)

theorem union_of_oneOf (hu : o.lookup "oneOf" = some u) :
    ∃ below, levels = below + 1 ∧ checkUnion (checkSchema root below) stack o u = .ok () := by
  cases levels with
  | zero => cases h
  | succ levels =>
    refine ⟨levels, rfl, check_oneOf h hu ?_⟩
    cases htypes : (o.lookup "type").bind asArray with
    | none => rfl
    | some types =>
      obtain ⟨-, name, -, hname⟩ := check_nullable h (no_reference h hu (by simp)) htypes
      have hnone := no_oneOf_of_string hname (by rw [lookup_setKey, if_pos rfl])
      rw [lookup_setKey, if_neg (by decide), hu] at hnone
      cases hnone

/-- Neither `$ref`, nor `oneOf`, nor a type with null stands beside a constant. -/
theorem plain_of_const {c : Json} (hc : o.lookup "const" = some c) :
    o.lookup "$ref" = none ∧ o.lookup "oneOf" = none ∧ (o.lookup "type").bind asArray = none := by
  have hr := no_reference h hc (by simp)
  refine ⟨hr, ?_, ?_⟩
  · cases hu : o.lookup "oneOf" with
    | none => rfl
    | some u =>
      obtain ⟨below, rfl, hunion⟩ := union_of_oneOf h hu
      simp only [checkUnion, bind_ok, demand_ok] at hunion
      exact absurd (mem_of_onlyKeys hunion.1 hc) (by decide)
  · cases htypes : (o.lookup "type").bind asArray with
    | none => rfl
    | some types =>
      cases levels with
      | zero => cases h
      | succ levels =>
        rw [(check_nullable h hr htypes).1] at hc
        cases hc

theorem plain_of_string {name : String} (hname : o.lookup "type" = some (.string name)) :
    o.lookup "$ref" = none ∧ o.lookup "oneOf" = none ∧ (o.lookup "type").bind asArray = none :=
  ⟨no_reference h hname (by simp), no_oneOf_of_string h hname, by rw [hname]; rfl⟩

end

/-- With none of them, the validator looks at the constant and at the type. -/
theorem validateAt_plain
    (h : o.lookup "$ref" = none ∧ o.lookup "oneOf" = none ∧ (o.lookup "type").bind asArray = none) :
    validateAt root (levels + 1) path (.object o) v =
      validatePlain (validateAt root levels) path (.object o) v := by
  obtain ⟨hr, hu, htypes⟩ := h
  have harray : asArray (get (.object o) "type") = none := by
    rw [get, get?_object]
    cases ht : o.lookup "type" with
    | none => rfl
    | some t => simpa [ht] using htypes
  rw [validateAt, validateNode, get, get?_object, hr, get, get?_object, hu, harray]
  rfl

theorem lookup_of_get {key t : String} (h : asStr (get (.object o) key) = some t) :
    o.lookup key = some (.string t) := by
  rw [get, get?_object] at h
  cases hw : o.lookup key with
  | none =>
    rw [hw] at h
    cases h
  | some w =>
    rw [hw] at h
    rw [asStr_eq_some (show asStr w = some t from h)]

/-- The properties of an object schema have been checked. -/
theorem object_of_check (h : checkSchema root (levels + 1) stack (.object o) = .ok ())
    (hobject : o.lookup "type" = some (.string "object")) :
    ∃ p, o.lookup "properties" = some (.object p) ∧
      ∀ field ∈ p, checkSchema root levels stack field.2 = .ok () := by
  obtain ⟨hr, hu, htypes⟩ := plain_of_string h hobject
  simp only [checkSchema, checkNode, asObject, bind_ok, hr, htypes, hu] at h
  obtain ⟨-, -, -, h, -⟩ := h
  simp only [checkType, hobject, asStr, bind_ok, if_true, checkObject] at h
  obtain ⟨-, ⟨-, h⟩, -⟩ := h
  cases hp : o.lookup "properties" with
  | none =>
    rw [hp] at h
    cases h
  | some properties =>
    cases hfields : asObject properties with
    | none =>
      simp only [hp, Option.bind_some, hfields] at h
      cases h
    | some p =>
      simp only [hp, Option.bind_some, hfields, bind_ok, checkAll_ok] at h
      exact ⟨p, by rw [asObject_eq_some hfields], h.1⟩

/-- An object that is validated has the required keys, and its fields are validated. -/
theorem fields_of_validate {p : List (String × Json)}
    (hobject : o.lookup "type" = some (.string "object"))
    (hp : o.lookup "properties" = some (.object p))
    {validate : String → Json → Json → Except RpcError Unit}
    (h : validatePlain validate path (.object o) v = .ok ()) :
    ∃ fields, v = .object fields ∧
      (∀ k ∈ (asArray (get (.object o) "required")).getD [],
        hasKey fields ((asStr k).getD "") = true) ∧
      ∀ field ∈ fields, ∃ schema path, p.lookup field.1 = some schema ∧
        validate path schema field.2 = .ok () := by
  have ht : asStr (get (.object o) "type") = some "object" := by
    rw [get, get?_object, hobject]
    rfl
  have hprops : asObject (get (.object o) "properties") = some p := by
    rw [get, get?_object, hp]
    rfl
  simp only [validatePlain, bind_ok, ht, if_true, validateObject, hprops] at h
  cases hv : asObject v with
  | none =>
    simp only [hv] at h
    cases h.2.2
  | some fields =>
    simp only [hv, bind_ok, checkAll_ok, expect] at h
    obtain ⟨-, -, hrequired, hfields⟩ := h
    refine ⟨fields, asObject_eq_some hv, fun k hk => ?_, fun field hfield => ?_⟩
    · have hk := hrequired k hk
      split at hk
      next h => exact h
      next => cases hk
    · have hfield := hfields field hfield
      cases hschema : p.lookup field.1 with
      | none =>
        simp only [hschema] at hfield
        cases hfield
      | some schema =>
        simp only [hschema] at hfield
        exact ⟨schema, _, rfl, hfield⟩

/-- A constant string validates only itself. -/
theorem eq_of_validate_const (h : checkSchema root levels stack (.object o) = .ok ())
    {below : Nat} {t : String} (ht : o.lookup "const" = some (.string t))
    (hv : validateAt root below path (.object o) v = .ok ()) : v = .string t := by
  cases below with
  | zero => cases hv
  | succ below =>
    rw [validateAt_plain (plain_of_const h ht)] at hv
    simp only [validatePlain, bind_ok, get?_object, ht, expect, Option.all_some] at hv
    have hv := hv.1
    split at hv
    next heq =>
      cases v with
      | string t' =>
        simp only [literalEq, valueEq, asF64, Bool.or_false, decide_eq_true_eq] at heq
        rw [heq]
      | _ => cases heq
    next => cases hv

end Beside

/-! ## Tags -/

/-- The constant of a variant for a key. -/
def tag (k : String) (s : Json) : Option String := asStr (get (get (get s "properties") k) "const")

/-- A variant requires a key. -/
def requires (k : String) (s : Json) : Prop :=
  .string k ∈ (asArray (get s "required")).getD []

theorem discriminates_spec {k : String} {seen : List String} {a : List Json}
    (h : discriminates k seen a = true) :
    ∃ tags : List String, a.map (tag k) = tags.map some ∧ (∀ s ∈ a, requires k s) ∧
      tags.Nodup ∧ ∀ t ∈ tags, t ∉ seen := by
  induction a generalizing seen with
  | nil => exact ⟨[], rfl, by simp, List.nodup_nil, by simp⟩
  | cons s rest ih =>
    rw [discriminates, Bool.and_eq_true] at h
    obtain ⟨hrequired, h⟩ := h
    cases htag : asStr (get (get (get s "properties") k) "const") with
    | none =>
      rw [htag] at h
      cases h
    | some t =>
      simp only [htag, Bool.and_eq_true, Bool.not_eq_true', ← Bool.not_eq_true,
        List.contains_iff_mem] at h
      obtain ⟨hnew, h⟩ := h
      obtain ⟨tags, hmap, hrest, hnodup, hfresh⟩ := ih h
      refine ⟨t :: tags, ?_, ?_, ?_, ?_⟩
      · rw [List.map_cons, List.map_cons, hmap, tag, htag]
      · intro s' hs'
        rcases List.mem_cons.1 hs' with rfl | hs'
        · obtain ⟨items, hitems, hany⟩ := (Option.any_eq_true _ _).1 hrequired
          obtain ⟨item, hitem, hk⟩ := List.any_eq_true.1 hany
          rw [requires, hitems]
          rw [asStr_eq_some (of_decide_eq_true hk)] at hitem
          exact hitem
        · exact hrest s' hs'
      · exact List.nodup_cons.2 ⟨fun ht => hfresh t ht List.mem_cons_self, hnodup⟩
      · intro t' ht'
        rcases List.mem_cons.1 ht' with rfl | ht'
        · exact hnew
        · exact fun hmem => hfresh t' ht' (List.mem_cons_of_mem _ hmem)

/-- A value that a variant validates has the tag of the variant. -/
theorem tag_of_validate {root s v : Json} {levels below : Nat} {stack : List String}
    {k t path : String}
    (hcheck : checkVariant (checkSchema root levels) stack s = .ok ()) (hk : requires k s)
    (ht : tag k s = some t) (hv : validateAt root below path s v = .ok ()) :
    get? v k = some (.string t) := by
  simp only [checkVariant, bind_ok, demand_ok, decide_eq_true_eq] at hcheck
  obtain ⟨-, hcheck, htype⟩ := hcheck
  obtain ⟨o, rfl⟩ := checkSchema_object hcheck
  cases levels with
  | zero => cases hcheck
  | succ levels =>
  cases below with
  | zero => cases hv
  | succ below =>
    have hobject := lookup_of_get htype
    obtain ⟨p, hp, hprops⟩ := object_of_check hcheck hobject
    rw [validateAt_plain (plain_of_string hcheck hobject)] at hv
    obtain ⟨fields, rfl, hrequired, hfields⟩ := fields_of_validate hobject hp hv
    have hhas := hrequired _ hk
    obtain ⟨x, hx⟩ := Option.isSome_iff_exists.1 hhas
    obtain ⟨schema, path', hschema, hv⟩ := hfields _ (mem_of_lookup hx)
    have hchecked := hprops _ (mem_of_lookup hschema)
    obtain ⟨c, rfl⟩ := checkSchema_object hchecked
    have hschema : get (get (.object o) "properties") k = .object c := by
      rw [show get (.object o) "properties" = .object p by rw [get, get?_object, hp]; rfl, get,
        get?_object, show p.lookup k = some (.object c) from hschema]
      rfl
    rw [tag, hschema] at ht
    rw [get?_object, show fields.lookup k = some x from hx]
    exact congrArg some (eq_of_validate_const hchecked (lookup_of_get ht) hv)

/-! ## Unions -/

section Union

variable {root : Json} {levels : Nat} {stack : List String}

/-- The variants that validate a value. -/
def validating (root : Json) (levels : Nat) (path : String) (v : Json) (a : List Json) :
    List Json :=
  a.filter fun s => (validateAt root levels path s v).isOk

theorem isOk_iff {x : Except RpcError Unit} : x.isOk = true ↔ x = .ok () := by
  cases x with
  | error e => simp [Except.isOk, Except.toBool]
  | ok u => simp [Except.isOk, Except.toBool]

theorem length_le_one_of_nodup {α : Type} {l : List α} {x : α} (h : l.Nodup)
    (hx : ∀ y ∈ l, y = x) : l.length ≤ 1 := by
  match l, h, hx with
  | [], _, _ => exact Nat.zero_le 1
  | [_], _, _ => exact le_rfl
  | y :: z :: rest, h, hx =>
    have hyz : y = z := (hx y (by simp)).trans (hx z (by simp)).symm
    exact absurd (hyz ▸ List.mem_cons_self) (List.nodup_cons.1 h).1

theorem variants_of_check {o : List (String × Json)} {u : Json}
    (h : checkUnion (checkSchema root levels) stack o u = .ok ()) :
    ∃ a k, u = .array a ∧ (∀ s ∈ a, checkVariant (checkSchema root levels) stack s = .ok ()) ∧
      discriminates k [] a = true := by
  simp only [checkUnion, bind_ok, demand_ok] at h
  cases ha : asArray u with
  | none =>
    rw [ha] at h
    cases h.2
  | some a =>
    simp only [ha, bind_ok, checkAll_ok] at h
    obtain ⟨-, -, hvariants, h⟩ := h
    cases hprops : asObject (get (a.headD .null) "properties") with
    | none =>
      rw [hprops] at h
      cases h
    | some props =>
      simp only [hprops, demand_ok] at h
      obtain ⟨field, -, hfield⟩ := List.any_eq_true.1 h
      exact ⟨a, field.1, asArray_eq_some ha, hvariants, hfield⟩

theorem validateAt_union {o : List (String × Json)} {a : List Json} {below : Nat} {path : String}
    {v : Json} (hr : o.lookup "$ref" = none) (ha : o.lookup "oneOf" = some (.array a)) :
    validateAt root (below + 1) path (.object o) v = .ok () ↔
      (validating root below path v a).length = 1 := by
  rw [validateAt, validateNode, get, get?_object, hr, get, get?_object, ha]
  simp only [Option.getD_none, Option.getD_some, asStr, asArray, expect, validating]
  split
  next h => exact ⟨fun _ => of_decide_eq_true h, fun _ => rfl⟩
  next h =>
    refine ⟨fun herror => ?_, fun hone => absurd (decide_eq_true hone) h⟩
    cases herror

/-- A union that is accepted has a key that every variant requires, with a tag for it and no tag
twice.  At most one variant validates a value, and the value has its tag; so the union validates
what some variant does. -/
theorem union_tagged {s u : Json} (h : checkSchema root levels stack s = .ok ())
    (hu : get? s "oneOf" = some u) :
    ∃ a k, ∃ tags : List String, u = .array a ∧ a.map (tag k) = tags.map some ∧ tags.Nodup ∧
      (∀ w ∈ a, requires k w) ∧ ∀ below path v,
        (validating root below path v a).length ≤ 1 ∧
        (validateAt root (below + 1) path s v = .ok () ↔
          ∃ w ∈ a, validateAt root below path w v = .ok ()) ∧
        ∀ w ∈ a, validateAt root below path w v = .ok () →
          ∃ t, tag k w = some t ∧ get? v k = some (.string t) ∧
            ∀ w' ∈ a, tag k w' = some t → w' = w := by
  obtain ⟨o, rfl⟩ := checkSchema_object h
  have hr := no_reference h hu (by simp)
  obtain ⟨levels, rfl, hunion⟩ := union_of_oneOf h hu
  obtain ⟨a, k, rfl, hvariants, hk⟩ := variants_of_check hunion
  obtain ⟨tags, hmap, hrequires, hnodup, -⟩ := discriminates_spec hk
  have htags : (a.map (tag k)).Nodup := by
    rw [hmap]
    exact hnodup.map (Option.some_injective String)
  have htag : ∀ {below path v w}, w ∈ a → validateAt root below path w v = .ok () →
      ∃ t, tag k w = some t ∧ get? v k = some (.string t) := by
    intro below path v w hw hv
    have hmem : tag k w ∈ tags.map some := hmap ▸ List.mem_map_of_mem hw
    obtain ⟨t, -, ht⟩ := List.mem_map.1 hmem
    exact ⟨t, ht.symm, tag_of_validate (hvariants w hw) (hrequires w hw) ht.symm hv⟩
  refine ⟨a, k, tags, rfl, hmap, hnodup, hrequires, fun below path v => ?_⟩
  have hle : (validating root below path v a).length ≤ 1 := by
    have hsub : ((validating root below path v a).map (tag k)).Nodup :=
      htags.sublist (List.filter_sublist.map _)
    have heq : ∀ y ∈ (validating root below path v a).map (tag k), y = (get? v k).bind asStr := by
      intro y hy
      obtain ⟨w, hw, rfl⟩ := List.mem_map.1 hy
      obtain ⟨hw, hv⟩ := List.mem_filter.1 hw
      obtain ⟨t, ht, hget⟩ := htag hw (isOk_iff.1 hv)
      rw [ht, hget]
      rfl
    rw [← List.length_map (tag k)]
    exact length_le_one_of_nodup hsub heq
  refine ⟨hle, ?_, fun w hw hv => ?_⟩
  · rw [validateAt_union hr hu]
    constructor
    · intro hone
      obtain ⟨w, hw⟩ := List.length_pos_iff_exists_mem.1 (by omega :
        0 < (validating root below path v a).length)
      obtain ⟨hw, hv⟩ := List.mem_filter.1 hw
      exact ⟨w, hw, isOk_iff.1 hv⟩
    · rintro ⟨w, hw, hv⟩
      have hpos : 0 < (validating root below path v a).length :=
        List.length_pos_of_mem (List.mem_filter.2 ⟨hw, isOk_iff.2 hv⟩)
      omega
  · obtain ⟨t, ht, hget⟩ := htag hw hv
    exact ⟨t, ht, hget, fun w' hw' ht' =>
      List.inj_on_of_nodup_map htags hw' hw (ht'.trans ht.symm)⟩

/-- An object with a constant `kind` and nothing else. -/
def kindVariant (kind : String) : Json :=
  .object [("additionalProperties", .bool false),
    ("properties", .object [("kind", .object [("const", .string kind)])]),
    ("required", .array [.string "kind"]), ("type", .string "object")]

theorem union_tagged_kinds :
    (validating .null maxLevels "" (.object [("kind", .string "b")])
      [kindVariant "a", kindVariant "b"]).length ≤ 1 := by
  have hcheck : checkSchema .null maxLevels []
      (.object [("oneOf", .array [kindVariant "a", kindVariant "b"])]) = .ok () :=
    isOk_iff.1 (by decide +kernel)
  obtain ⟨a, k, tags, ha, -, -, -, h⟩ := union_tagged hcheck rfl
  cases ha
  exact (h maxLevels "" _).1

end Union

end NapiVm.Schema
