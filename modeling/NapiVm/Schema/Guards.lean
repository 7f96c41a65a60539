import NapiVm.Schema.Union

/-!
# The validator's own guards

`validate_at` has errors for values and errors for schemas that it cannot use.  After `check_schema`
only the first are left.

* `Fault` — the errors of the validator by what they are about.
* `faultAt` — the validator with such errors.
* `Reachable` — the schemas that a schema leads to.
* `guards_silent` — every rejection is about the value.
-/

namespace NapiVm.Schema

open Host Rpc

/-! ## The validator by its errors -/

/-- An error of the validator. -/
inductive Fault where
  | nesting (path : String)
  | objectSchema (path : String)
  | nullableType (path : String)
  | schemaType (path : String)
  | reference (error : RpcError)
  | value (error : RpcError)

/-- The error that is returned. -/
def Fault.error : Fault → RpcError
  | .nesting path => failure path "maximum nesting exceeded"
  | .objectSchema path => failure path "invalid object schema"
  | .nullableType path => failure path "invalid nullable type"
  | .schemaType path => failure path "unsupported schema type"
  | .reference error => error
  | .value error => error

/-- The checks of a value. -/
def aboutValue (x : Except RpcError Unit) : Except Fault Unit := x.mapError .value

/-- The same check of every element. -/
def faultAll {α : Type} (check : α → Except Fault Unit) : List α → Except Fault Unit
  | [] => .ok ()
  | a :: rest => do
      check a
      faultAll check rest

section

variable (root : Json) (validate : String → Json → Json → Except Fault Unit)

def faultObject (path : String) (s v : Json) : Except Fault Unit :=
  match asObject v with
  | none => aboutValue (.error (failure path "expected object"))
  | some o =>
    match asObject (get s "properties") with
    | none => .error (.objectSchema path)
    | some p => do
        aboutValue (checkAll (fun k => expect (hasKey o ((asStr k).getD "")) path
          ("missing required " ++ display k)) ((asArray (get s "required")).getD []))
        faultAll (fun field =>
          match p.lookup field.1 with
          | none => aboutValue (.error (failure path ("unknown property " ++ field.1)))
          | some schema => validate (path ++ "/" ++ escapeKey field.1) schema field.2) o

def faultArray (path : String) (s v : Json) : Except Fault Unit :=
  match asArray v with
  | none => aboutValue (.error (failure path "expected array"))
  | some a => do
      aboutValue (expect (lengthBounds s a.length "minItems" "maxItems") path
        "length bound exceeded")
      faultAll (fun item => validate (path ++ "/" ++ toString item.2) (get s "items") item.1)
        a.zipIdx

def faultPlain (path : String) (s v : Json) : Except Fault Unit := do
  aboutValue (expect ((get? s "const").all fun c => literalEq c v) path "const mismatch")
  aboutValue (expect ((asArray (get s "enum")).all fun e => e.any fun x => valueEq x v) path
    "enum mismatch")
  match asStr (get s "type") with
  | none => .ok ()
  | some t =>
    if t = "object" then faultObject validate path s v
    else if t = "array" then faultArray validate path s v
    else if t = "string" then aboutValue (validateString path s v)
    else if t = "integer" ∨ t = "number" then aboutValue (validateNumber path s v)
    else if t = "boolean" then aboutValue (expect (isBool v) path "expected boolean")
    else if t = "null" then aboutValue (expect (isNull v) path "expected null")
    else .error (.schemaType path)

def faultNode (path : String) (s v : Json) : Except Fault Unit :=
  match asStr (get s "$ref") with
  | some r =>
    match resolve root r with
    | .ok target => validate path target v
    | .error e => .error (.reference e)
  | none =>
    match asArray (get s "oneOf") with
    | some a =>
      aboutValue (expect ((a.filter fun s => (validate path s v).isOk).length = 1) path
        "union variant mismatch")
    | none =>
      match asArray (get s "type") with
      | some types =>
        if isNull v then .ok ()
        else
          match types.find? fun t => asStr t ≠ some "null" with
          | none => .error (.nullableType path)
          | some other => validate path (withType s other) v
      | none => faultPlain validate path s v

end

/-- `validate_at`, with the faults. -/
def faultAt (root : Json) : Nat → String → Json → Json → Except Fault Unit
  | 0, path, _, _ => .error (.nesting path)
  | levels + 1, path, s, v => faultNode root (faultAt root levels) path s v

/-! ### It is the same validator -/

theorem mapError_bind {α β γ δ : Type} (f : γ → δ) (x : Except γ α) (y : α → Except γ β) :
    (x >>= y).mapError f = x.mapError f >>= fun a => (y a).mapError f := by
  cases x <;> rfl

theorem mapError_aboutValue (x : Except RpcError Unit) :
    (aboutValue x).mapError Fault.error = x := by
  cases x <;> rfl

theorem mapError_faultAll {α : Type} (check : α → Except Fault Unit) (l : List α) :
    (faultAll check l).mapError Fault.error =
      checkAll (fun a => (check a).mapError Fault.error) l := by
  induction l with
  | nil => rfl
  | cons a l ih => rw [faultAll, mapError_bind, checkAll, ih]

theorem isOk_mapError {α β γ : Type} (f : β → γ) (x : Except β α) :
    (x.mapError f).isOk = x.isOk := by
  cases x <;> rfl

section

variable {root : Json} {faults : String → Json → Json → Except Fault Unit}
  {validate : String → Json → Json → Except RpcError Unit}

section

variable (h : ∀ path s v, (faults path s v).mapError Fault.error = validate path s v)
  (path : String) (s v : Json)

include h path s v

theorem mapError_faultObject :
    (faultObject faults path s v).mapError Fault.error = validateObject validate path s v := by
  rw [faultObject, validateObject]
  cases asObject v with
  | none => rfl
  | some o =>
    cases asObject (get s "properties") with
    | none => rfl
    | some p =>
      simp only [mapError_bind, mapError_aboutValue, mapError_faultAll]
      congr 1
      funext _
      congr 1
      funext field
      cases p.lookup field.1 with
      | none => rfl
      | some schema => exact h _ _ _

theorem mapError_faultArray :
    (faultArray faults path s v).mapError Fault.error = validateArray validate path s v := by
  rw [faultArray, validateArray]
  cases asArray v with
  | none => rfl
  | some a => simp only [mapError_bind, mapError_aboutValue, mapError_faultAll, h]

theorem mapError_faultPlain :
    (faultPlain faults path s v).mapError Fault.error = validatePlain validate path s v := by
  rw [faultPlain, validatePlain]
  simp only [mapError_bind, mapError_aboutValue]
  congr 1
  funext _
  congr 1
  funext _
  cases asStr (get s "type") with
  | none => rfl
  | some t =>
    simp only
    split_ifs
    · exact mapError_faultObject h path s v
    · exact mapError_faultArray h path s v
    all_goals first | exact mapError_aboutValue _ | rfl

theorem mapError_faultNode :
    (faultNode root faults path s v).mapError Fault.error =
      validateNode root validate path s v := by
  rw [faultNode, validateNode]
  cases asStr (get s "$ref") with
  | some r =>
    cases hr : resolve root r with
    | ok target => simp only [hr, h]
    | error e => simp only [hr]; rfl
  | none =>
    cases asArray (get s "oneOf") with
    | some a => simp only [mapError_aboutValue, ← h, isOk_mapError]
    | none =>
      cases asArray (get s "type") with
      | none => exact mapError_faultPlain h path s v
      | some types =>
        simp only
        split_ifs
        · rfl
        · cases types.find? fun t => asStr t ≠ some "null" with
          | none => rfl
          | some other => exact h _ _ _

end

end

/-- **The faults are the errors of `validate_at`.** -/
theorem mapError_faultAt (root : Json) (levels : Nat) (path : String) (s v : Json) :
    (faultAt root levels path s v).mapError Fault.error = validateAt root levels path s v := by
  induction levels generalizing path s v with
  | zero => rfl
  | succ levels ih => exact mapError_faultNode ih path s v

/-! ## Rejections of values -/

/-- The only faults are those of values. -/
def OfValue (x : Except Fault Unit) : Prop := ∀ f, x = .error f → ∃ e, f = .value e

theorem ofValue_ok : OfValue (.ok ()) := nofun

theorem ofValue_aboutValue (x : Except RpcError Unit) : OfValue (aboutValue x) := by
  intro f h
  cases x with
  | ok u => cases h
  | error e =>
    cases h
    exact ⟨e, rfl⟩

theorem OfValue.bind {x : Except Fault Unit} {y : Unit → Except Fault Unit} (hx : OfValue x)
    (hy : OfValue (y ())) : OfValue (x >>= y) := by
  cases x with
  | ok u => exact hy
  | error f =>
    intro f' h
    cases h
    exact hx f rfl

theorem ofValue_faultAll {α : Type} {check : α → Except Fault Unit} {l : List α}
    (h : ∀ a ∈ l, OfValue (check a)) : OfValue (faultAll check l) := by
  induction l with
  | nil => exact ofValue_ok
  | cons a l ih =>
    exact (h a List.mem_cons_self).bind (ih fun b hb => h b (List.mem_cons_of_mem _ hb))

section

variable {root : Json} {levels n : Nat} {stack : List String} {o : List (String × Json)}

section

variable (h : checkSchema root (levels + 1) stack (.object o) = .ok ())

include h

/-- The checker has gone to where a reference leads. -/
theorem check_reference {r : Json} (hr : o.lookup "$ref" = some r) :
    ∃ name target, r = .string name ∧ resolve root name = .ok target ∧
      checkSchema root levels (name :: stack) target = .ok () := by
  simp only [checkSchema, checkNode, asObject, bind_ok, hr, checkReference] at h
  cases hs : asStr r with
  | none =>
    rw [hs] at h
    cases h.2
  | some name =>
    simp only [hs, bind_ok] at h
    cases hresolve : resolve root name with
    | error e =>
      rw [hresolve] at h
      cases h.2.2.2.2
    | ok target =>
      rw [hresolve] at h
      exact ⟨name, target, asStr_eq_some hs, hresolve, h.2.2.2.2⟩

/-- What `check_schema` comes to when it finds neither a reference, nor two types, nor `oneOf`. -/
theorem check_plain (hr : o.lookup "$ref" = none) (htypes : (o.lookup "type").bind asArray = none)
    (hone : o.lookup "oneOf" = none) : checkType (checkSchema root levels) stack o = .ok () := by
  simp only [checkSchema, checkNode, asObject, bind_ok, hr, htypes, hone] at h
  exact h.2.2.2.1

/-- `oneOf` is an array. -/
theorem oneOf_array {u : Json} (hu : o.lookup "oneOf" = some u) : ∃ a, u = .array a := by
  obtain ⟨below, -, hunion⟩ := union_of_oneOf h hu
  rw [checkUnion] at hunion
  cases ha : asArray u with
  | none => simp [ha] at hunion
  | some a => exact ⟨a, asArray_eq_some ha⟩

end

theorem get_of_lookup {key : String} {v : Json} (h : o.lookup key = some v) :
    get (.object o) key = v := by
  rw [get, get?_object, h]
  rfl

theorem get_of_none {key : String} (h : o.lookup key = none) : get (.object o) key = .null := by
  rw [get, get?_object, h]
  rfl

end

section

variable {root : Json} {levels : Nat} {stack : List String} {o : List (String × Json)}
  {validate : String → Json → Json → Except Fault Unit}

/-- The schemas below are used with one level less. -/
theorem ofValue_plain (hcheck : checkType (checkSchema root levels) stack o = .ok ())
    (ih : ∀ stack s path v, checkSchema root levels stack s = .ok () →
      OfValue (validate path s v)) (path : String) (v : Json) :
    OfValue (faultPlain validate path (.object o) v) := by
  refine (ofValue_aboutValue _).bind ((ofValue_aboutValue _).bind ?_)
  cases ht : o.lookup "type" with
  | none =>
    rw [get_of_none ht]
    exact ofValue_ok
  | some tv =>
    obtain ⟨t, htv, hobject, harray, -⟩ := type_of_checkType ht hcheck
    rw [get_of_lookup ht, htv]
    simp only
    split_ifs with h1 h2 h3 h4 h5 h6
    · -- an object: its properties are an object, and were checked
      have hobj := hobject h1
      rw [faultObject]
      cases asObject v with
      | none => exact ofValue_aboutValue _
      | some fields =>
        simp only [checkObject, bind_ok] at hobj
        cases hp : (o.lookup "properties").bind asObject with
        | none =>
          rw [hp] at hobj
          cases hobj.2
        | some p =>
          obtain ⟨pv, hlookup, hasObject⟩ := Option.bind_eq_some_iff.1 hp
          simp only [hp, bind_ok, checkAll_ok] at hobj
          rw [get_of_lookup hlookup, hasObject]
          refine (ofValue_aboutValue _).bind (ofValue_faultAll fun field _ => ?_)
          cases hschema : p.lookup field.1 with
          | none => exact ofValue_aboutValue _
          | some schema => exact ih stack schema _ _ (hobj.2.1 _ (mem_of_lookup hschema))
    · -- an array: so was what it has for items
      have hitems : checkSchema root levels stack (get (.object o) "items") = .ok () := harray h2
      rw [faultArray]
      cases asArray v with
      | none => exact ofValue_aboutValue _
      | some items =>
        exact (ofValue_aboutValue _).bind (ofValue_faultAll fun item _ => ih stack _ _ _ hitems)
    · exact ofValue_aboutValue _
    · exact ofValue_aboutValue _
    · exact ofValue_aboutValue _
    · exact ofValue_aboutValue _
    · -- the checker knows no other type
      have hknown : t ∈ ["object", "array", "string", "integer", "number", "boolean", "null"] := by
        simp only [checkType, ht, htv, bind_ok, demand_ok] at hcheck
        simpa using hcheck.1
      simp only [List.mem_cons, List.not_mem_nil, or_false] at hknown
      tauto

end

/-- **A checked schema trips no guard**, on as many levels as it was checked on. -/
theorem ofValue_faultAt {root : Json} {levels n : Nat} {stack : List String} {s : Json}
    (hlevels : levels ≤ n) (h : checkSchema root levels stack s = .ok ()) (path : String)
    (v : Json) :
    OfValue (faultAt root n path s v) := by
  induction levels generalizing n stack s path v with
  | zero => cases h
  | succ levels ih =>
    obtain ⟨n, rfl⟩ : ∃ m, n = m + 1 := ⟨n - 1, by omega⟩
    have ih : ∀ stack s path v, checkSchema root levels stack s = .ok () →
        OfValue (faultAt root n path s v) :=
      fun stack s path v h => ih (Nat.le_of_succ_le_succ hlevels) h path v
    obtain ⟨o, rfl⟩ := checkSchema_object h
    rw [faultAt, faultNode]
    cases hr : o.lookup "$ref" with
    | some r =>
      obtain ⟨name, target, rfl, hresolve, htarget⟩ := check_reference h hr
      have href : asStr (get (.object o) "$ref") = some name := by rw [get_of_lookup hr]; rfl
      simp only [href, hresolve]
      exact ih _ target path v htarget
    | none =>
      have href : asStr (get (.object o) "$ref") = none := by rw [get_of_none hr]; rfl
      simp only [href]
      cases hone : o.lookup "oneOf" with
      | some u =>
        obtain ⟨a, rfl⟩ := oneOf_array h hone
        have ha : asArray (get (.object o) "oneOf") = some a := by
          rw [get_of_lookup hone]
          rfl
        simp only [ha]
        exact ofValue_aboutValue _
      | none =>
        have ha : asArray (get (.object o) "oneOf") = none := by rw [get_of_none hone]; rfl
        simp only [ha]
        cases htypes : (o.lookup "type").bind asArray with
        | some types =>
          obtain ⟨-, name, hfind, hother⟩ := check_nullable h hr htypes
          obtain ⟨tv, htv, harray⟩ := Option.bind_eq_some_iff.1 htypes
          rw [get_of_lookup htv]
          simp only [harray, hfind]
          split_ifs
          · exact ofValue_ok
          · exact ih _ _ path v hother
        | none =>
          have hplain := ofValue_plain (check_plain h hr htypes hone) ih path v
          have hnone : asArray (get (.object o) "type") = none := by
            cases ht : o.lookup "type" with
            | none =>
              rw [get_of_none ht]
              rfl
            | some tv =>
              rw [ht] at htypes
              rw [get_of_lookup ht]
              exact htypes
          simp only [hnone]
          exact hplain

/-! ## Reachable schemas -/

/-- The schemas that a schema leads to: definitions, and those that `validate_at` goes to. -/
inductive Reachable (root : Json) : Json → Prop where
  | root : Reachable root root
  | reference {s target : Json} {r : String} : Reachable root s →
      asStr (get s "$ref") = some r → resolve root r = .ok target → Reachable root target
  | variant {s t : Json} {a : List Json} : Reachable root s →
      asArray (get s "oneOf") = some a → t ∈ a → Reachable root t
  | nonnull {s other : Json} {types : List Json} : Reachable root s →
      asArray (get s "type") = some types →
      types.find? (fun t => asStr t ≠ some "null") = some other → Reachable root (withType s other)
  | property {s t : Json} {key : String} {p : List (String × Json)} : Reachable root s →
      (get? s "type").isSome = true → asObject (get s "properties") = some p → (key, t) ∈ p →
      Reachable root t
  | items {s t : Json} : Reachable root s → (get? s "type").isSome = true →
      get? s "items" = some t → Reachable root t
  | definition {s t : Json} {key : String} {defs : List (String × Json)} : Reachable root s →
      asObject (get s "$defs") = some defs → (key, t) ∈ defs → Reachable root t

section

variable {o : List (String × Json)}

theorem lookup_of_asArray {key : String} {a : List Json}
    (h : asArray (get (.object o) key) = some a) : o.lookup key = some (.array a) := by
  have hget := asArray_eq_some h
  cases hlookup : o.lookup key with
  | none =>
    rw [get_of_none hlookup] at hget
    cases hget
  | some v =>
    rw [get_of_lookup hlookup] at hget
    rw [hget]

theorem lookup_of_asObject {key : String} {fields : List (String × Json)}
    (h : asObject (get (.object o) key) = some fields) : o.lookup key = some (.object fields) := by
  have hget := asObject_eq_some h
  cases hlookup : o.lookup key with
  | none =>
    rw [get_of_none hlookup] at hget
    cases hget
  | some v =>
    rw [get_of_lookup hlookup] at hget
    rw [hget]

end

/-- The checker accepts what it comes to. -/
theorem Reachable.accepted {root s : Json} (hroot : checkSchema root maxLevels [] root = .ok ())
    (h : Reachable root s) : Accepted root s := by
  induction h with
  | root => exact ⟨maxLevels, [], le_rfl, hroot⟩
  | @reference s target r _ href hresolve ih =>
    obtain ⟨o, rfl, -⟩ := ih.shape
    have hlookup := lookup_of_get href
    obtain ⟨name, target', hname, hresolve', hcheck⟩ := check_reference ih.checked hlookup
    cases hname
    rw [hresolve] at hresolve'
    cases hresolve'
    exact ⟨64, _, by decide, hcheck⟩
  | variant _ hone ht ih =>
    obtain ⟨o, rfl, hshape⟩ := ih.shape
    obtain ⟨a', ha', hall⟩ := hshape.oneOf _ (lookup_of_asArray hone)
    cases ha'
    exact hall _ ht
  | @nonnull s other types _ htypes hfind ih =>
    obtain ⟨o, rfl, -⟩ := ih.shape
    have hlookup := lookup_of_asArray htypes
    have hbind : (o.lookup "type").bind asArray = some types := by rw [hlookup]; rfl
    obtain ⟨-, name, hname, hcheck⟩ :=
      check_nullable ih.checked (no_reference ih.checked hlookup (by simp)) hbind
    rw [hfind] at hname
    cases hname
    exact ⟨64, _, by decide, hcheck⟩
  | property _ htyped hp ht ih =>
    obtain ⟨o, rfl, hshape⟩ := ih.shape
    have htype : o.lookup "type" ≠ none := Option.isSome_iff_ne_none.1 htyped
    obtain ⟨fields, hfields, hall⟩ := hshape.properties htype _ (lookup_of_asObject hp)
    cases hfields
    exact hall _ ht
  | items _ htyped ht ih =>
    obtain ⟨o, rfl, hshape⟩ := ih.shape
    exact hshape.items (Option.isSome_iff_ne_none.1 htyped) _ ht
  | definition _ hdefs ht ih =>
    obtain ⟨o, rfl, hshape⟩ := ih.shape
    obtain ⟨fields, hfields, hall⟩ := hshape.defs _ (lookup_of_asObject hdefs)
    cases hfields
    exact hall _ ht

/-- **Checked schemas never trip the validator's own guards.**  From the root or any schema that it
leads to, the errors of `validate_at` are those of `faultAt`, and each is about the value. -/
theorem guards_silent {root s : Json} (hroot : checkSchema root maxLevels [] root = .ok ())
    (hs : Reachable root s) (path : String) (v : Json) :
    validateAt root maxLevels path s v = (faultAt root maxLevels path s v).mapError Fault.error ∧
      ∀ f, faultAt root maxLevels path s v = .error f → ∃ e, f = .value e :=
  ⟨(mapError_faultAt root maxLevels path s v).symm,
    ofValue_faultAt le_rfl (hs.accepted hroot).checked path v⟩

theorem guards_silent_string : ∃ e,
    faultAt (.object [("type", .string "string")]) maxLevels ""
      (.object [("type", .string "string")]) (.bool true) = .error (.value e) := by
  have hroot : checkSchema (.object [("type", .string "string")]) maxLevels []
      (.object [("type", .string "string")]) = .ok () := rfl
  obtain ⟨e, he⟩ := (guards_silent hroot .root "" (.bool true)).2 _ rfl
  exact ⟨e, congrArg Except.error he⟩

end NapiVm.Schema
