import NapiVm.Object.Descriptor
import NapiVm.Value.ObjectIndex
import NapiVm.Value.ArrayIndex

/-!
# Own properties in storage

An ordinary object keeps its properties in one slot vector and five metadata
tables.  A data property is a slot.  An accessor is a slot holding the getter,
or the setter where there is no getter; with both, the setter sits in a second
slot called `__setter:k__`.  Which of the two a slot is, is told by an explicit
marker or, failing that, by the name of the function stored there.

The operations are those of `object.rs`, `proxy.rs` and `call.rs` on an object
that is neither a module namespace nor an arguments object.  The caches of the
cell are left out: `store_ownValue` and `store_setCellProp` say that they never
show.
-/

namespace NapiVm

/-- What storage asks of the rest of the heap. -/
structure Realm where
  /-- `is_callable_value`. -/
  callable : Value → Bool
  /-- The prototype of an object that has none of its own and uses the default. -/
  defaultPrototype : Option Value

/-- `type_err`. -/
def typeErr (text : String) : VmErr := .msg ("TypeError: " ++ text)

/-- The slots and the metadata of one object. -/
structure ObjectStore where
  slots : Slots String Value
  metadata : ObjectMeta
  deriving DecidableEq, Repr

/-! ## Recognizing accessors -/

/-- `accessor_kind`: the function is called `get k` or `set k`. -/
def accessorKindNamed (key : String) (value : Value) : Option AccessorKind :=
  match value.callableName with
  | some name =>
    if name = "get " ++ key then some .get
    else if name = "set " ++ key then some .set
    else none
  | none => none

/-- `accessor_kind_with_symbol`. -/
def accessorKindWithSymbol (symbol : Option (Option String)) (key : String) (value : Value) :
    Option AccessorKind :=
  match symbol with
  | some none => (accessorKindNamed "" value).or (accessorKindNamed key value)
  | some (some description) =>
    (accessorKindNamed ("[" ++ description ++ "]") value).or (accessorKindNamed key value)
  | none => accessorKindNamed key value

/-- `accessor_kind_for`. -/
def accessorKindFor (m : ObjectMeta) (key : String) (value : Value) : Option AccessorKind :=
  if m.isExplicitData key then none
  else
    match m.explicitAccessorKind key with
    | some kind => some kind
    | none =>
      if m.isEmptyAccessor key then some .empty
      else accessorKindWithSymbol (m.symbolKey key) key value

/-- Nothing but an accessor is called `get …` or `set …`. -/
def plainName (value : Value) : Bool :=
  match value.callableName with
  | some name => !("get ".toList.isPrefixOf name.toList) && !("set ".toList.isPrefixOf name.toList)
  | none => true

namespace ObjectStore

/-- `own_slot`. -/
def ownSlot (s : ObjectStore) (key : String) : Option Value := Slots.get s.slots key

/-- The first slot under one of `names` whose value is an accessor half of the kind. -/
def findHalf (s : ObjectStore) (key : String) (names : List String) (kind : AccessorKind) : Value :=
  ((s.slots.find? fun p =>
    decide (p.1 ∈ names) && accessorKindFor s.metadata key p.2 == some kind).map Prod.snd).getD
      .undefined

/-- `descriptor_for`. -/
def descriptorFor (s : ObjectStore) (key : String) : Option Descriptor :=
  match s.ownSlot key with
  | none => none
  | some value =>
    let attrs := s.metadata.attrsOf key
    match s.metadata.explicitAccessorKind key with
    | some .get =>
      some (.accessor value ((s.ownSlot (companion key)).getD .undefined) attrs)
    | some .set => some (.accessor .undefined value attrs)
    | some .empty => some (.accessor .undefined .undefined attrs)
    | none =>
      -- without a marker the function's name decides
      if s.metadata.mayHaveAccessor key && (accessorKindFor s.metadata key value).isSome then
        some (.accessor (s.findHalf key [key] .get) (s.findHalf key [key, companion key] .set)
          attrs)
      else some (.data value attrs)

/-! ## Defining -/

/-- The accessor kind of the property that is there now. -/
def oldAccessorKind (s : ObjectStore) (key : String) : Option AccessorKind :=
  (s.ownSlot key).bind (accessorKindFor s.metadata key)

/-- Will the property be an accessor after the definition? -/
def becomesAccessor (s : ObjectStore) (key : String) (d : Descriptor) : Bool :=
  d.isAccessor || !d.isData && (s.oldAccessorKind key).isSome

/-- The attributes after the definition: an absent field keeps the current one. -/
def newAttrs (s : ObjectStore) (key : String) (d : Descriptor) : PropAttrs :=
  let existing := (s.ownSlot key).isSome
  let old := s.metadata.attrsOf key
  { writable :=
      if s.becomesAccessor key d then false
      else d.writable.getD (existing && (s.oldAccessorKind key).isNone && old.writable)
    enumerable := d.enumerable.getD (existing && old.enumerable)
    configurable := d.configurable.getD (existing && old.configurable) }

/-- What a definition is about to store. -/
structure Redefinition where
  values : List (String × Value)
  dropCompanion : Bool
  emptyAccessor : Bool
  primaryKind : Option AccessorKind

/-- `undefined` stands for a missing accessor half. -/
def half (v : Value) : Option Value := if v = .undefined then none else some v

/-- The getter after the definition. -/
def newGetter (s : ObjectStore) (key : String) (d : Descriptor) : Option Value :=
  let old := if s.oldAccessorKind key = some .get then s.ownSlot key else none
  half (d.get.getD (old.getD .undefined))

/-- The setter after the definition. -/
def newSetter (s : ObjectStore) (key : String) (d : Descriptor) : Option Value :=
  let old :=
    match s.oldAccessorKind key with
    | some .set => s.ownSlot key
    | some _ => s.ownSlot (companion key)
    | none => none
  half (d.set.getD (old.getD .undefined))

/-- The slots and the kind of an accessor with these halves. -/
def accessorRedefinition (key : String) (wasAccessor : Bool) (getter setter : Option Value) :
    Redefinition :=
  { values :=
      match getter, setter with
      | some g, some t => [(key, g), (companion key, t)]
      | some g, none => [(key, g)]
      | none, some t => [(key, t)]
      | none, none => [(key, .undefined)]
    dropCompanion := wasAccessor && (getter.isNone || setter.isNone)
    emptyAccessor := getter.isNone && setter.isNone
    primaryKind := some (if getter.isSome then .get else if setter.isSome then .set else .empty) }

/-- What the definition stores. -/
def redefinition (s : ObjectStore) (key : String) (d : Descriptor) : Redefinition :=
  let wasAccessor := (s.oldAccessorKind key).isSome
  if s.becomesAccessor key d then
    accessorRedefinition key wasAccessor (s.newGetter key d) (s.newSetter key d)
  else
    let old := if wasAccessor then none else s.ownSlot key
    { values := [(key, (d.value.or old).getD .undefined)]
      dropCompanion := wasAccessor
      emptyAccessor := false
      primaryKind := none }

/-- Overwrite or push each of the values, stopping at the property limit. -/
def storeValues (slots : Slots String Value) :
    List (String × Value) → Except VmErr Unit × Slots String Value
  | [] => (.ok (), slots)
  | (slot, value) :: rest =>
    match Slots.position slots slot with
    | some i => storeValues (Slots.setValue slots i value) rest
    | none =>
      if maxObjectProps ≤ slots.length then
        (.error (limitErr "Maximum object property count exceeded"), slots)
      else storeValues (slots ++ [(slot, value)]) rest

/-- The metadata after a definition that went through. -/
def redefinedMeta (s : ObjectStore) (key : String) (d : Descriptor) : ObjectMeta :=
  let r := s.redefinition key d
  let isAccessor := s.becomesAccessor key d
  let m := s.metadata.setAttrs key (s.newAttrs key d)
  let m := m.setEmptyAccessor key r.emptyAccessor
  let m := m.setExplicitData key !isAccessor
  let m := m.setExplicitAccessorKind key r.primaryKind
  let legacy := m.legacyCallAccessors && (key == "caller" || key == "arguments")
  { m with hasAccessors := m.hasAccessors || isAccessor && !legacy }

/-- The storing half of `define_ordinary_property`.  Where the limit stops it,
what was stored before stays and no table is written. -/
def commit (s : ObjectStore) (key : String) (d : Descriptor) : Except VmErr Unit × ObjectStore :=
  let r := s.redefinition key d
  if (s.ownSlot key).isNone && !s.becomesAccessor key d && !r.dropCompanion then
    if maxObjectProps ≤ s.slots.length then
      (.error (limitErr "Maximum object property count exceeded"), s)
    else
      (.ok (), { slots := s.slots ++ [(key, (d.value.getD .undefined))]
                 metadata := (s.metadata.setAttrs key (s.newAttrs key d)).setExplicitData key true })
  else
    let slots := if r.dropCompanion then Slots.removeKey s.slots (companion key) else s.slots
    match storeValues slots r.values with
    | (.error e, slots) => (.error e, { s with slots := slots })
    | (.ok (), slots) => (.ok (), { slots := slots, metadata := s.redefinedMeta key d })

/-- Does a module namespace refuse the definition? -/
def namespaceRefuses (s : ObjectStore) (key : String) (d : Descriptor) : Bool :=
  let old := s.ownSlot key
  let same :=
    match old, d.value with
    | _, none => true
    | some a, some b => a.sameValue b
    | none, some _ => false
  old.isNone || d.isAccessor || d.isConfigurable || d.enumerable == some false ||
    d.writable == some false || !same

/-- Is the field absent, `undefined` or callable? -/
def callableField (realm : Realm) (field : Option Value) : Bool :=
  field.all fun v => v == .undefined || realm.callable v

/-- `define_ordinary_property`. -/
def defineOrdinary (realm : Realm) (s : ObjectStore) (key : String) (d : Descriptor) :
    Except VmErr Unit × ObjectStore :=
  if s.metadata.moduleNamespace && (s.metadata.symbolKey key).isNone then
    if s.namespaceRefuses key d then
      (.error (typeErr "Cannot redefine a module namespace export"), s)
    else (.ok (), s)
  else if d.isAccessor && d.isData then (.error (typeErr "Invalid property descriptor"), s)
  else if (s.ownSlot key).isSome && !compatibleDescriptor (s.descriptorFor key) d then
    (.error (typeErr ("Cannot redefine property: " ++ key)), s)
  else if (s.ownSlot key).isNone && s.metadata.nonExtensible then
    (.error (typeErr ("Cannot define property " ++ key ++ ", object is not extensible")), s)
  else if s.becomesAccessor key d &&
      !(callableField realm d.get && callableField realm d.set) then
    (.error (typeErr "Getter and setter must be callable"), s)
  else s.commit key d

/-- The symbol table after a definition under a symbol. -/
def noteSymbol (s : ObjectStore) (key : PropKey) : ObjectStore :=
  match key with
  | .symbol _ description =>
    { s with metadata := s.metadata.setSymbolKey key.slot description }
  | .name _ => s

/-- `define_own_property` on an ordinary object. -/
def defineOwn (realm : Realm) (s : ObjectStore) (key : PropKey) (d : Descriptor) :
    Except VmErr Bool × ObjectStore :=
  let current := s.descriptorFor key.slot
  if current.isNone && s.metadata.nonExtensible || !compatibleDescriptor current d then
    (.ok false, s)
  else
    match s.defineOrdinary realm key.slot d with
    | (.ok (), s) => (.ok true, s.noteSymbol key)
    | (.error (.msg text), s) =>
      if "TypeError:".toList.isPrefixOf text.toList then (.ok false, s)
      else (.error (.msg text), s)
    | (.error e, s) => (.error e, s)

/-! ## The other operations -/

/-- `delete_member_inner` on an ordinary object: the first slot of the key goes. -/
def deleteOwn (s : ObjectStore) (key : String) : Bool × ObjectStore :=
  if (s.descriptorFor key).any (fun d => !d.isConfigurable) then (false, s)
  else if !(s.metadata.attrsOf key).configurable && (s.ownSlot key).isSome then (false, s)
  else if (s.ownSlot key).isSome then
    (true, { slots := s.slots.eraseP fun p => decide (p.1 = key)
             metadata := s.metadata.forget key })
  else (true, s)

/-- `set_cell_prop`. -/
def setCellProp (s : ObjectStore) (key : String) (value : Value) :
    Except VmErr Unit × ObjectStore :=
  match Slots.position s.slots key with
  | some i =>
    (.ok (), if (s.metadata.attrsOf key).writable then
      { s with slots := Slots.setValue s.slots i value } else s)
  | none =>
    if s.metadata.nonExtensible then (.ok (), s)
    else if maxObjectProps ≤ s.slots.length then
      (.error (limitErr "Maximum object property count exceeded"), s)
    else (.ok (), { s with slots := s.slots ++ [(key, value)] })

/-- Store through `set_cell_prop` and mark the key as data. -/
def storeMarked (s : ObjectStore) (key : String) (value : Value) : Except VmErr Bool × ObjectStore :=
  match s.setCellProp key value with
  | (.ok (), s) => (.ok true, { s with metadata := s.metadata.setExplicitData key true })
  | (.error e, s) => (.error e, s)

/-- The direct path of `set_member_with_receiver` for an array-index key of a
plain object that is its own receiver; `clear` says that no prototype has the
key.  `none` where the general path takes over. -/
def setIndexed (s : ObjectStore) (key : String) (value : Value) (clear : Bool) :
    Option (Except VmErr Bool × ObjectStore) :=
  if (arrayIndex key).isNone || s.metadata.moduleNamespace || s.metadata.mayHaveAccessor key then
    none
  else if (s.ownSlot key).isSome then
    some (if !(s.metadata.attrsOf key).writable then (.ok false, s) else s.storeMarked key value)
  else if clear then
    some (if s.metadata.nonExtensible then (.ok false, s) else s.storeMarked key value)
  else none

/-- What an own property answers to a read. -/
inductive OwnRead where
  | absent
  | data (v : Value)
  | getter (f : Value)
  | noGetter
  deriving DecidableEq, Repr

/-- The getter of the descriptor, as a read uses it. -/
def readGetter (s : ObjectStore) (key : String) : OwnRead :=
  match (s.descriptorFor key).bind Descriptor.get with
  | some g => if g = .undefined then .noGetter else .getter g
  | none => .noGetter

/-- The reading half of `get_prop_value_str_inner` and, for a symbol, of
`get_prop_value_with_receiver_inner`. -/
def readOwn (s : ObjectStore) (key : PropKey) : OwnRead :=
  match s.ownSlot key.slot with
  | none => .absent
  | some v =>
    match s.metadata.explicitAccessorKind key.slot with
    | some .get => .getter v
    | some _ => .noGetter
    | none =>
      let data :=
        match key with
        | .name text => !s.metadata.mayHaveAccessor text
        | .symbol _ _ => s.metadata.isExplicitData key.slot
      if data then .data v
      else
        match (accessorKindNamed key.slot v).or (accessorKindNamed key.functionName v) with
        | some .get => .getter v
        | some _ => s.readGetter key.slot
        | none => .data v

/-- `prototype_of`. -/
def prototypeOf (realm : Realm) (s : ObjectStore) : Option Value :=
  match s.metadata.proto with
  | some p => some p
  | none => if s.metadata.usesDefaultPrototype then realm.defaultPrototype else none

/-- `set_proto`. -/
def setProto (s : ObjectStore) (proto : Option Value) : ObjectStore :=
  { s with metadata := { s.metadata with proto := proto, usesDefaultPrototype := false } }

/-- The base case of `prevent_extensions`. -/
def preventExtensions (s : ObjectStore) : ObjectStore :=
  { s with metadata := { s.metadata with nonExtensible := true } }

end ObjectStore

/-! ## The cell behind the storage -/

namespace CellState

/-- The storage of a cell, without its caches. -/
def store (c : CellState) : ObjectStore := ⟨c.cell.slots, c.cell.metadata⟩

/-- Reading through the caches is reading the storage. -/
theorem store_ownValue {c : CellState} (h : Coherent c) (key : String) :
    (c.ownValue key).1 = c.store.ownSlot key := ownValue_eq_get h key

theorem metadata_ownIndex (c : CellState) (key : String) :
    (c.ownIndex key).2.cell.metadata = c.cell.metadata := by
  unfold ownIndex
  dsimp only
  repeat' split
  all_goals rfl

theorem metadata_writeIndex (c : CellState) (key : String) :
    (c.writeIndex key).2.cell.metadata = c.cell.metadata := by
  unfold writeIndex
  split
  · exact metadata_ownIndex c key
  · rfl

theorem metadata_noteKeyAdded (c : CellState) (shared : Bool) (key : String) :
    (c.noteKeyAdded shared key).cell.metadata = c.cell.metadata := by
  unfold noteKeyAdded
  repeat' split
  all_goals rfl

/-- Writing through the caches is writing the storage, unless slots are bindings. -/
theorem store_setCellProp {c : CellState} (h : Coherent c)
    (ha : c.cell.metadata.isArguments = false) (shared : Bool) (key : String) (value : Value) :
    ((c.setCellProp shared key value).1, (c.setCellProp shared key value).2.store) =
      c.store.setCellProp key value := by
  obtain ⟨hpos, hslots, -⟩ := writeIndex_spec h key
  have hmeta := metadata_writeIndex c key
  simp only [setCellProp, ObjectStore.setCellProp, hpos, hmeta, hslots, store]
  cases hp : Slots.position c.cell.slots key with
  | some i =>
    by_cases hw : (c.cell.metadata.attrsOf key).writable = true
    · simp [hw, storeSlot, hmeta, ha, hslots]
    · simp [hw, hmeta, hslots]
  | none =>
    by_cases hne : c.cell.metadata.nonExtensible = true
    · simp [hne, hmeta, hslots]
    · by_cases hl : maxObjectProps ≤ c.cell.slots.length
      · simp [hne, hl, hmeta, hslots]
      · simp only [hne, hl, if_false, Bool.false_eq_true]
        rw [metadata_noteKeyAdded, (noteKeyAdded_frame _ shared key).1]
        simp [pushSlot, hmeta, hslots]

/-- **The caches never show.**  In every state of every run, reading a key through the caches
reads the storage and leaves it, and writing one writes the storage, unless slots are bindings. -/
theorem store_access {c : CellState} (h : Reachable Initial Step c) (key : String) :
    (c.ownValue key).1 = c.store.ownSlot key ∧ (c.ownValue key).2.store = c.store ∧
      (c.cell.metadata.isArguments = false → ∀ shared value,
        ((c.setCellProp shared key value).1, (c.setCellProp shared key value).2.store) =
          c.store.setCellProp key value) := by
  have hc : Coherent c := coherent_of_reachable h
  refine ⟨store_ownValue hc key, ?_, fun ha shared => store_setCellProp hc ha shared key⟩
  exact congrArg₂ ObjectStore.mk (ownIndex_slots c key) (metadata_ownIndex c key)

theorem store_access_warmed : (warmed.setCellProp false "q" .null).2.store =
    ⟨[("p", .bool true), ("q", .null)], {}⟩ :=
  congrArg Prod.snd ((store_access (((Reachable.start ⟨ShapeTree.wf_initial, _, _, rfl⟩).next
    ⟨.ownIndex "p", trivial, rfl⟩).next ⟨.ownIndex "p", trivial, rfl⟩) "q").2.2 rfl false .null)

end CellState

end NapiVm
