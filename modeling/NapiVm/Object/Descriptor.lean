import NapiVm.Value.Basic

/-!
# Property keys and descriptors

The normalized descriptor record of `object.rs`: a field is present or absent,
and the three flags have already been coerced.  `compatibleDescriptor` is
`IsCompatiblePropertyDescriptor` over it.
-/

namespace NapiVm

/-- A property key: a string by its slot text, or a symbol with its description. -/
inductive PropKey where
  | name (text : String)
  | symbol (id : Nat) (description : Option String)
  deriving DecidableEq, Repr

namespace PropKey

/-- `property_key`: the storage slot of a key (`symbol_slot_key` for a symbol). -/
def slot : PropKey → String
  | name text => text
  | symbol id _ => if id = 1 then "__symbol_iterator__" else "__symbol:" ++ toString id ++ "__"

/-- `property_function_name`. -/
def functionName : PropKey → String
  | name text => text
  | symbol _ none => ""
  | symbol _ (some description) => "[" ++ description ++ "]"

end PropKey

/-- The slot beside `key` that holds the setter of an accessor with a getter. -/
def companion (key : String) : String := "__setter:" ++ key ++ "__"

/-- The key lies strictly inside its companion, so it is never its own companion. -/
theorem companion_ne (key : String) : companion key ≠ key := by
  intro h
  have hl : (companion key).length = key.length := congrArg String.length h
  simp only [companion, String.length_append] at hl
  have h₁ : "__setter:".length = 9 := by decide
  omega

/-- A normalized property descriptor. -/
structure Descriptor where
  value : Option Value := none
  writable : Option Bool := none
  get : Option Value := none
  set : Option Value := none
  enumerable : Option Bool := none
  configurable : Option Bool := none
  deriving DecidableEq, Repr

namespace Descriptor

/-- Does it have a `get` or a `set` field? -/
def isAccessor (d : Descriptor) : Bool := d.get.isSome || d.set.isSome

/-- Does it have a `value` or a `writable` field? -/
def isData (d : Descriptor) : Bool := d.value.isSome || d.writable.isSome

/-- Is the `configurable` field present and true? -/
def isConfigurable (d : Descriptor) : Bool := d.configurable == some true

/-- Is the `writable` field present and true? -/
def isWritable (d : Descriptor) : Bool := d.writable == some true

/-- A complete data descriptor. -/
def data (value : Value) (attrs : PropAttrs) : Descriptor :=
  { value := some value, writable := some attrs.writable, enumerable := some attrs.enumerable
    configurable := some attrs.configurable }

/-- A complete accessor descriptor. -/
def accessor (get set : Value) (attrs : PropAttrs) : Descriptor :=
  { get := some get, set := some set, enumerable := some attrs.enumerable
    configurable := some attrs.configurable }

/-- Every field of its kind is present, and none of the other kind. -/
def Complete (d : Descriptor) : Prop :=
  (∃ v a, d = data v a) ∨ ∃ g s a, d = accessor g s a

/-- CompletePropertyDescriptor, as the Proxy `getOwnPropertyDescriptor` path does it. -/
def complete (d : Descriptor) : Descriptor :=
  let d := { d with
    enumerable := some (d.enumerable.getD false), configurable := some (d.configurable.getD false) }
  if d.isAccessor then
    { d with get := some (d.get.getD .undefined), set := some (d.set.getD .undefined) }
  else
    { d with value := some (d.value.getD .undefined), writable := some (d.writable.getD false) }

/-- The fields of both kinds never stand together in a converted descriptor. -/
theorem complete_complete {d : Descriptor} (h : (d.isAccessor && d.isData) = false) :
    d.complete.Complete := by
  obtain ⟨value, writable, get, set, enumerable, configurable⟩ := d
  unfold complete
  cases ha : (get.isSome || set.isSome) with
  | true =>
    have hd : (value.isSome || writable.isSome) = false := by
      simpa [isAccessor, isData, ha] using h
    obtain ⟨rfl, rfl⟩ : value = none ∧ writable = none := by simpa using hd
    right
    exact ⟨get.getD .undefined, set.getD .undefined,
      ⟨false, enumerable.getD false, configurable.getD false⟩, by simp [isAccessor, ha, accessor]⟩
  | false =>
    obtain ⟨rfl, rfl⟩ : get = none ∧ set = none := by simpa using ha
    left
    exact ⟨value.getD .undefined,
      ⟨writable.getD false, enumerable.getD false, configurable.getD false⟩,
      by simp [isAccessor, data]⟩

end Descriptor

/-- Does the present field agree with the current value of the property? -/
def agrees (current : Option Value) : Option Value → Bool
  | some v => (current.getD .undefined).sameValue v
  | none => true

/-- `compatible_descriptor`. -/
def compatibleDescriptor : Option Descriptor → Descriptor → Bool
  | none, _ => true
  | some current, d =>
    if current.isConfigurable then true
    else if d.isConfigurable ||
        d.enumerable.any (fun e => e != (current.enumerable == some true)) then false
    else if !d.isData && !d.isAccessor then true
    else if d.isData != current.isData then false
    else if d.isData then
      if !current.isWritable then
        if d.isWritable then false else agrees current.value d.value
      else true
    else agrees current.get d.get && agrees current.set d.set

/-! ## What an incompatible redefinition cannot be -/

/-- Over a frozen data property only the same value and attributes are compatible. -/
theorem compatible_frozen {v : Value} {e : Bool} {d : Descriptor}
    (h : compatibleDescriptor (some (.data v ⟨false, e, false⟩)) d = true) :
    d.configurable ≠ some true ∧ (∀ b, d.enumerable = some b → b = e) ∧
      (d.isAccessor = true → d.isData = true) ∧ d.writable ≠ some true ∧
      ∀ w, d.value = some w → v.sameValue w = true := by
  obtain ⟨value, writable, get, set, enumerable, configurable⟩ := d
  simp only [compatibleDescriptor, Descriptor.isConfigurable, Descriptor.data, Descriptor.isData,
    Descriptor.isAccessor, Descriptor.isWritable] at h
  have hc : configurable ≠ some true := by
    rintro rfl
    simp at h
  have he : ∀ b, enumerable = some b → b = e := by
    rintro b rfl
    cases b <;> cases e <;> simp_all
  have hacc : (get.isSome || set.isSome) = true → (value.isSome || writable.isSome) = true := by
    cases value <;> cases writable <;> simp_all
  refine ⟨hc, he, hacc, ?_, ?_⟩
  · rintro rfl
    simp_all
  · rintro w rfl
    simp_all [agrees]

end NapiVm
