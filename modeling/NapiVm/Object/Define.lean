import NapiVm.Lib.Binary64
import NapiVm.Object.Storage
import NapiVm.Value.ArrayCell

/-!
# Defining a property

`define_property` on an ordinary object, an arguments object or an array.  A slot may hold a
live binding: what is read of it is the value of the binding's cell, what is written over it
replaces the binding.  The slots of an arguments object that are bound to parameters get their
binding back.

* `ObjectStore.defineOrdinaryIn`, `ArrayCell.defineArray` — `define_ordinary_property`,
  `define_array_property`.
* `defineProperty` — `define_property`.
-/

namespace NapiVm

/-- What the cells of bindings hold. -/
abbrev Bindings : Type := Nat → Value

/-- `deref_binding`. -/
def Value.derefBinding (bindings : Bindings) : Value → Value
  | .binding cell => bindings cell
  | value => value

namespace ObjectStore

/-- The object as `own_slot` sees it. -/
def deref (bindings : Bindings) (s : ObjectStore) : ObjectStore :=
  { s with slots := s.slots.map fun p => (p.1, p.2.derefBinding bindings) }

/-- `descriptor_for`; a half that is found by its name is looked for in the slots themselves. -/
def descriptorForIn (bindings : Bindings) (s : ObjectStore) (key : String) : Option Descriptor :=
  match (s.deref bindings).ownSlot key with
  | none => none
  | some value =>
    let attrs := s.metadata.attrsOf key
    match s.metadata.explicitAccessorKind key with
    | some .get =>
      let setter := ((s.deref bindings).ownSlot (companion key)).getD .undefined
      some (.accessor value setter attrs)
    | some .set => some (.accessor .undefined value attrs)
    | some .empty => some (.accessor .undefined .undefined attrs)
    | none =>
      if s.metadata.mayHaveAccessor key && (accessorKindFor s.metadata key value).isSome then
        some (.accessor (s.findHalf key [key] .get) (s.findHalf key [key, companion key] .set)
          attrs)
      else some (.data value attrs)

/-- What `define_ordinary_property` asks before it writes: is there anything to write? -/
def check (realm : Realm) (bindings : Bindings) (s : ObjectStore) (key : String)
    (d : Descriptor) : Except VmErr Bool :=
  let seen := s.deref bindings
  if s.metadata.moduleNamespace && (s.metadata.symbolKey key).isNone then
    if seen.namespaceRefuses key d then
      .error (typeErr "Cannot redefine a module namespace export")
    else .ok false
  else if d.isAccessor && d.isData then .error (typeErr "Invalid property descriptor")
  else if (seen.ownSlot key).isSome &&
      !compatibleDescriptor (s.descriptorForIn bindings key) d then
    .error (typeErr ("Cannot redefine property: " ++ key))
  else if (seen.ownSlot key).isNone && s.metadata.nonExtensible then
    .error (typeErr ("Cannot define property " ++ key ++ ", object is not extensible"))
  else if seen.becomesAccessor key d &&
      !(callableField realm d.get && callableField realm d.set) then
    .error (typeErr "Getter and setter must be callable")
  else .ok true

/-- The storing half of `define_ordinary_property`, over the slots themselves.  What is stored
comes from the object as it is seen. -/
def commitIn (seen s : ObjectStore) (key : String) (d : Descriptor) :
    Except VmErr Unit × ObjectStore :=
  let r := seen.redefinition key d
  if (seen.ownSlot key).isNone && !seen.becomesAccessor key d && !r.dropCompanion then
    if maxObjectProps ≤ s.slots.length then
      (.error (limitErr "Maximum object property count exceeded"), s)
    else
      (.ok (), { slots := s.slots ++ [(key, (d.value.getD .undefined))]
                 metadata :=
                   (s.metadata.setAttrs key (seen.newAttrs key d)).setExplicitData key true })
  else
    let slots := if r.dropCompanion then Slots.removeKey s.slots (companion key) else s.slots
    match storeValues slots r.values with
    | (.error e, slots) => (.error e, { s with slots := slots })
    | (.ok (), slots) => (.ok (), { slots := slots, metadata := seen.redefinedMeta key d })

/-- `define_ordinary_property` on an object. -/
def defineOrdinaryIn (realm : Realm) (bindings : Bindings) (s : ObjectStore) (key : String)
    (d : Descriptor) : Except VmErr Unit × ObjectStore :=
  match s.check realm bindings key d with
  | .error e => (.error e, s)
  | .ok false => (.ok (), s)
  | .ok true => commitIn (s.deref bindings) s key d

/-- The parameter a slot of an arguments object is bound to. -/
def mappedCell (s : ObjectStore) (key : String) : Option Nat :=
  if s.metadata.isArguments then
    match s.ownSlot key with
    | some (.binding cell) => some cell
    | _ => none
  else none

/-- What is defined over a bound slot: one that becomes read-only keeps the parameter's value. -/
def mappedDescriptor (bindings : Bindings) (cell : Nat) (d : Descriptor) : Descriptor :=
  if !d.isAccessor && d.writable == some false && d.value.isNone then
    { d with value := some (bindings cell) }
  else d

/-- What becomes of the binding when the definition went through. -/
def rebind (s : ObjectStore) (bindings : Bindings) (cell : Nat) (key : String) (d : Descriptor) :
    ObjectStore × Bindings :=
  if d.isAccessor then (s, bindings)
  else
    let written : Bindings :=
      match d.value with
      | some value => fun c => if c = cell then value else bindings c
      | none => bindings
    if d.writable == some false then (s, written)
    else
      match Slots.position s.slots key with
      | some i => ({ s with slots := Slots.setValue s.slots i (.binding cell) }, written)
      | none => (s, written)

/-- `define_property` on an object. -/
def defineObject (realm : Realm) (bindings : Bindings) (s : ObjectStore) (key : String)
    (d : Descriptor) : Except VmErr Unit × ObjectStore × Bindings :=
  match s.mappedCell key with
  | none =>
    let (r, s) := s.defineOrdinaryIn realm bindings key d
    (r, s, bindings)
  | some cell =>
    match s.defineOrdinaryIn realm bindings key (mappedDescriptor bindings cell d) with
    | (.error e, s) => (.error e, s, bindings)
    | (.ok (), s) => (.ok (), s.rebind bindings cell key d)

end ObjectStore

namespace ArrayCell

/-- `array_property_value`, for a key that is not `length`. -/
def propertyValue (a : ArrayCell) (key : String) : Option Value :=
  match arrayIndex key with
  | some index => a.indexValue index
  | none => a.namedProp key

/-- `array_store_property`, for a key that is not `length`. -/
def storeProperty (a : ArrayCell) (key : String) (value : Value) : ArrayCell :=
  match arrayIndex key with
  | some index => a.storeIndex index value
  | none => a.setNamed key value

/-- `array_set_accessor_setter`. -/
def setAccessorSetter (a : ArrayCell) (key : String) : Option Value → ArrayCell
  | some setter => a.setNamed (companion key) setter
  | none => { a with named := Slots.removeKey a.named (companion key) }

/-- The accessor kind of the property that is there now. -/
def accessorKind (a : ArrayCell) (key : String) : Option AccessorKind :=
  if a.metadata.isExplicitData key then none
  else
    match a.metadata.explicitAccessorKind key with
    | some kind => some kind
    | none =>
      if a.metadata.isEmptyAccessor key then some .empty
      else (a.propertyValue key).bind (accessorKindNamed key)

/-- `descriptor_for_array_value`. -/
def descriptorForValue (a : ArrayCell) (key : String) (value : Value) (attrs : PropAttrs) :
    Descriptor :=
  if a.metadata.isEmptyAccessor key then .accessor .undefined .undefined attrs
  else
    let kind :=
      if a.metadata.isExplicitData key then none
      else (a.metadata.explicitAccessorKind key).or
        (accessorKindWithSymbol (a.metadata.symbolKey key) key value)
    match kind with
    | some .get => .accessor value ((a.namedProp (companion key)).getD .undefined) attrs
    | some .set => .accessor .undefined value attrs
    | _ => .data value attrs

/-- The length a descriptor asks for. -/
def requestedLength : Option Value → Except VmErr (Option Nat)
  | none => .ok none
  | some (.number bits) =>
    match Binary64.toInt? bits with
    | some n =>
      if 0 ≤ n ∧ n < 2 ^ 32 then .ok (some n.toNat)
      else .error (typeErr "Invalid array length")
    | none => .error (typeErr "Invalid array length")
  | some _ => .error (typeErr "Invalid array length")

/-- `define_array_property` for `length`. -/
def defineLength (a : ArrayCell) (d : Descriptor) : Except VmErr Unit × ArrayCell :=
  let old := a.metadata.attrsOf "length"
  if d.isAccessor then (.error (typeErr "Cannot redefine array length as an accessor"), a)
  else if d.enumerable == some true || d.configurable == some true then
    (.error (typeErr "Cannot redefine array length attributes"), a)
  else
    match requestedLength d.value with
    | .error e => (.error e, a)
    | .ok requested =>
      let writable := d.writable.getD old.writable
      if !old.writable && (writable || requested.any fun n => decide (n ≠ a.arrayLength)) then
        (.error (typeErr "Cannot redefine non-writable array length"), a)
      else
        let a :=
          match requested with
          | some length => a.setLength length
          | none => a
        -- an element that cannot be deleted stopped the new length
        if requested.any fun n => decide (a.arrayLength ≠ n) then
          let attrs := { a.metadata.attrsOf "length" with writable := false }
          (.error (typeErr "Cannot remove a non-configurable array element"),
            if writable then a else { a with metadata := a.metadata.setAttrs "length" attrs })
        else
          let attrs : PropAttrs := ⟨writable, false, false⟩
          (.ok (), { a with metadata := a.metadata.setAttrs "length" attrs })

/-- Will the property be an accessor after the definition? -/
def becomesAccessor (a : ArrayCell) (key : String) (d : Descriptor) : Bool :=
  d.isAccessor || !d.isData && (a.accessorKind key).isSome

/-- The attributes after the definition. -/
def newAttrs (a : ArrayCell) (key : String) (d : Descriptor) : PropAttrs :=
  let existing := (a.propertyValue key).isSome
  let old := a.metadata.attrsOf key
  { writable :=
      if a.becomesAccessor key d then false
      else d.writable.getD (existing && (a.accessorKind key).isNone && old.writable)
    enumerable := d.enumerable.getD (existing && old.enumerable)
    configurable := d.configurable.getD (existing && old.configurable) }

/-- What `define_array_property` refuses before it writes. -/
def refusal (realm : Realm) (a : ArrayCell) (key : String) (d : Descriptor) : Option VmErr :=
  let old := a.propertyValue key
  let current := a.descriptorForValue key (old.getD .undefined) (a.metadata.attrsOf key)
  if d.isAccessor && d.isData then some (typeErr "Invalid property descriptor")
  else if old.isSome && !compatibleDescriptor (some current) d then
    some (typeErr ("Cannot redefine property: " ++ key))
  else if old.isNone && a.metadata.nonExtensible then
    some (typeErr ("Cannot define property " ++ key ++ ", object is not extensible"))
  else if (arrayIndex key).any fun index =>
      decide (a.arrayLength ≤ index) && !(a.metadata.attrsOf "length").writable then
    some (typeErr "Cannot extend array with non-writable length")
  else if a.becomesAccessor key d &&
      !(ObjectStore.callableField realm d.get && ObjectStore.callableField realm d.set) then
    some (typeErr "Getter and setter must be callable")
  else none

/-- The getter and the setter after the definition. -/
def newHalves (a : ArrayCell) (key : String) (d : Descriptor) : Option Value × Option Value :=
  let old := a.propertyValue key
  let oldGetter := if a.accessorKind key = some .get then old else none
  let oldSetter :=
    match a.accessorKind key with
    | some .set => old
    | some _ => a.namedProp (companion key)
    | none => none
  (ObjectStore.half (d.get.getD (oldGetter.getD .undefined)),
    ObjectStore.half (d.set.getD (oldSetter.getD .undefined)))

/-- The value and the companion's setter that are stored, and the kind of the accessor. -/
def stored (a : ArrayCell) (key : String) (d : Descriptor) :
    Value × Option Value × Option AccessorKind :=
  if a.becomesAccessor key d then
    let (getter, setter) := a.newHalves key d
    ((getter.or setter).getD .undefined, getter.bind fun _ => setter,
      some (if getter.isSome then .get else if setter.isSome then .set else .empty))
  else
    let old := if (a.accessorKind key).isNone then a.propertyValue key else none
    ((d.value.or old).getD .undefined, none, none)

/-- `define_array_property`. -/
def defineArray (realm : Realm) (a : ArrayCell) (key : String) (d : Descriptor) :
    Except VmErr Unit × ArrayCell :=
  if key = "length" then
    if d.isAccessor && d.isData then (.error (typeErr "Invalid property descriptor"), a)
    else a.defineLength d
  else
    match a.refusal realm key d with
    | some e => (.error e, a)
    | none =>
      let (value, setter, kind) := a.stored key d
      let becomes := a.becomesAccessor key d
      let written := (a.storeProperty key value).setAccessorSetter key setter
      let m := { written.metadata with
        hasAccessors := written.metadata.hasAccessors || becomes }
      let m := m.setAttrs key (a.newAttrs key d)
      let m := m.setEmptyAccessor key (kind == some .empty)
      let m := m.setExplicitData key !becomes
      (.ok (), { written with metadata := m.setExplicitAccessorKind key kind })

end ArrayCell

/-- What a property is defined on. -/
inductive DefineTarget where
  | object (s : ObjectStore)
  | array (a : ArrayCell)

/-- `define_property`. -/
def defineProperty (realm : Realm) (bindings : Bindings) (key : String) (d : Descriptor) :
    DefineTarget → Except VmErr Unit × DefineTarget × Bindings
  | .object s =>
    let (r, s, bindings) := s.defineObject realm bindings key d
    (r, .object s, bindings)
  | .array a =>
    let (r, a) := a.defineArray realm key d
    (r, .array a, bindings)

end NapiVm
