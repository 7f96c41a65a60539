import NapiVm.Value.ArrayIndex
import NapiVm.Value.Basic

/-!
# The array cell

`ArrayCell` stores an array in two ways at once.  Indices below the length of the
dense vector live there, with an optional bitmap for holes; indices from 262144
on that the vector does not reach are named slots under their decimal key, and a
length beyond the vector is kept as an override.  The operations below are those
of `value.rs`, with the metadata tables they clean up.
-/

namespace NapiVm

/-- `ArrayCell`. -/
structure ArrayCell where
  elements : List Value
  lengthOverride : Option Nat
  present : Option (List Bool)
  named : Slots String Value
  metadata : ObjectMeta

/-- `array_meta`; the prototype is the realm's. -/
def arrayMeta (proto : Option Value) : ObjectMeta :=
  { usesDefaultPrototype := true, proto := proto, attrs := [("length", ⟨true, false, false⟩)] }

namespace ArrayCell

/-- `ArrayCell::new`. -/
def new (proto : Option Value) (elements : List Value) : ArrayCell :=
  ⟨elements, none, none, [], arrayMeta proto⟩

/-- `array_length`. -/
def arrayLength (a : ArrayCell) : Nat := max a.elements.length (a.lengthOverride.getD 0)

/-- `named_prop`. -/
def namedProp (a : ArrayCell) (key : String) : Option Value := Slots.get a.named key

/-- `set_named`. -/
def setNamed (a : ArrayCell) (key : String) (value : Value) : ArrayCell :=
  { a with named := Slots.upsert a.named key value }

/-- `has_index`. -/
def hasIndex (a : ArrayCell) (index : Nat) : Bool :=
  if maxArrayLen ≤ index ∧ a.elements.length ≤ index then (a.namedProp (indexKey index)).isSome
  else if a.elements.length ≤ index then false
  else (a.present.bind fun present => present[index]?).getD true

/-- `index_value`. -/
def indexValue (a : ArrayCell) (index : Nat) : Option Value :=
  if a.elements.length ≤ index ∧ maxArrayLen ≤ index then a.namedProp (indexKey index)
  else if a.hasIndex index then a.elements[index]? else none

/-- Drop a bitmap that marks no hole. -/
def normalize (present : List Bool) : Option (List Bool) :=
  if present.all id then none else some present

/-- Forget several keys, in order. -/
def forgetAll (m : ObjectMeta) (keys : List String) : ObjectMeta := keys.foldl ObjectMeta.forget m

/-- The keys of the indices `lo .. hi`. -/
def keyRange (lo hi : Nat) : List String := (List.range' lo (hi - lo)).map indexKey

/-- `resize_presence`. -/
def resizePresence (a : ArrayCell) (oldLength length : Nat) (fillPresent : Bool) : ArrayCell :=
  let present := match a.present with
    | some present => normalize ((resize present length fillPresent).take length)
    | none =>
      if length < oldLength then none
      else if oldLength < length && !fillPresent then
        some (resize (List.replicate oldLength true) length false)
      else none
  { a with
    present := present
    metadata := if length < oldLength then forgetAll a.metadata (keyRange length oldLength)
      else a.metadata }

/-- `append_present`. -/
def appendPresent (a : ArrayCell) (count : Nat) : ArrayCell :=
  { a with present := a.present.map fun present => resize present (present.length + count) true }

/-- `truncate_presence`. -/
def truncatePresence (a : ArrayCell) (length : Nat) : ArrayCell :=
  { a with present := a.present.bind fun present => normalize (present.take length) }

/-- `set_index_presence`. -/
def setIndexPresence (a : ArrayCell) (index : Nat) (present : Bool) : ArrayCell :=
  if maxArrayLen ≤ index ∧ a.elements.length ≤ index then
    if present then a
    else
      { a with
        named := Slots.removeKey a.named (indexKey index)
        metadata := a.metadata.forget (indexKey index) }
  else if present && a.present.isNone then a
  else
    let length := a.elements.length
    let indices := resize (a.present.getD (List.replicate length true)) length true
    { a with
      present := some (indices.set index present)
      metadata := if present then a.metadata else a.metadata.forget (indexKey index) }

/-- `store_index`. -/
def storeIndex (a : ArrayCell) (index : Nat) (value : Value) : ArrayCell :=
  if maxArrayLen ≤ index ∧ a.elements.length ≤ index then
    let a := a.setNamed (indexKey index) value
    { a with lengthOverride := some (max a.arrayLength (index + 1)) }
  else
    let oldLength := a.elements.length
    if index = oldLength then
      appendPresent { a with elements := a.elements ++ [value] } 1
    else
      let a :=
        if oldLength ≤ index then
          resizePresence { a with elements := resize a.elements (index + 1) .undefined }
            oldLength (index + 1) false
        else a
      setIndexPresence { a with elements := a.elements.set index value } index true

/-- Does the index hold a property that cannot be deleted? -/
def blocks (a : ArrayCell) (index : Nat) : Bool :=
  a.hasIndex index && !(a.metadata.attrsOf (indexKey index)).configurable

/-- The dense scan of `set_length`: from `requested + count` down, the length just
above the first index that cannot be deleted. -/
def denseStop (a : ArrayCell) (requested : Nat) : Nat → Nat
  | 0 => requested
  | count + 1 =>
    let index := requested + count
    if a.blocks index then index + 1 else denseStop a requested count

/-- The highest named index from `requested` on that cannot be deleted. -/
def sparseBlocker (a : ArrayCell) (requested : Nat) : Option Nat :=
  let indices := (Slots.keys a.named).filterMap fun key =>
    (arrayIndex key).filter fun index => requested ≤ index
  (indices.filter fun index => !(a.metadata.attrsOf (indexKey index)).configurable).max?

/-- The length `set_length` settles on. -/
def settledLength (a : ArrayCell) (requested : Nat) : Nat :=
  let oldLength := a.elements.length
  let length := if requested < oldLength then a.denseStop requested (oldLength - requested)
    else requested
  match a.sparseBlocker requested with
  | some index => max length (index + 1)
  | none => length

/-- The test `retain` uses on metadata keys: no index, or one below `length`. -/
def keeps (length : Nat) (key : String) : Bool :=
  match arrayIndex key with
  | none => true
  | some index => decide (index < length)

/-- The metadata clean-up of `set_length` when the dense vector shrinks.  The two
hash tables are emptied key by key or scanned, whichever is the shorter walk. -/
def retainMeta (m : ObjectMeta) (length oldLength : Nat) : ObjectMeta :=
  let gone := keyRange length oldLength
  { m with
    dataPropertyKeys :=
      if oldLength - length < m.dataPropertyKeys.length then
        m.dataPropertyKeys.filter fun key => decide (key ∉ gone)
      else m.dataPropertyKeys.filter (keeps length)
    accessorKinds :=
      if oldLength - length < m.accessorKinds.length then
        m.accessorKinds.filter fun p => decide (p.1 ∉ gone)
      else m.accessorKinds.filter fun p => keeps length p.1
    emptyAccessors := m.emptyAccessors.filter (keeps length)
    attrs := m.attrs.filter fun p => keeps length p.1 }

/-- The named indices `set_length` removes. -/
def removedKeys (a : ArrayCell) (length : Nat) : List String :=
  (Slots.keys a.named).filter fun key => !keeps length key

/-- Drop the named indices from `length` on, with the setter halves beside them. -/
def dropNamed (a : ArrayCell) (length : Nat) : ArrayCell :=
  let removed := a.removedKeys length
  let removedSlots := removed.flatMap fun key => [key, "__setter:" ++ key ++ "__"]
  { a with
    named := a.named.filter fun p => decide (p.1 ∉ removedSlots)
    metadata := forgetAll a.metadata removed }

/-- `set_length`. -/
def setLength (a : ArrayCell) (requested : Nat) : ArrayCell :=
  let oldLength := a.elements.length
  let length := a.settledLength requested
  let a := a.dropNamed length
  let a :=
    if length < oldLength then { a with metadata := retainMeta a.metadata length oldLength } else a
  if maxArrayLen < length then
    let a :=
      if length < oldLength then
        truncatePresence { a with elements := a.elements.take length } length
      else a
    { a with lengthOverride := some length }
  else
    resizePresence
      { a with lengthOverride := none, elements := resize a.elements length .undefined }
      oldLength length false

/-- `set_attrs` on the cell's metadata. -/
def setAttrs (a : ArrayCell) (index : Nat) (attrs : PropAttrs) : ArrayCell :=
  { a with metadata := a.metadata.setAttrs (indexKey index) attrs }

end ArrayCell

end NapiVm
