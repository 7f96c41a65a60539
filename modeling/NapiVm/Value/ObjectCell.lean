import NapiVm.Value.Shape

/-!
# The object cell

`ObjectCell` keeps the slot vector as the source of truth and three caches
beside it: a dictionary for 64 slots and more, a shape, and the `read_once` mark
that delays building a shape.  The operations below are those of `value.rs`,
over a state that also holds the shape tree and the live binding cells a write
can go through.
-/

namespace NapiVm

/-- `ObjectCell`. -/
structure ObjectCell where
  slots : Slots String Value
  index : Option (PMap String Nat)
  indexDisabled : Bool
  metadata : ObjectMeta
  shape : Option Nat
  readOnce : Bool

/-- `ObjectCell::new`. -/
def ObjectCell.new (props : Slots String Value) (metadata : ObjectMeta) : ObjectCell :=
  ⟨props, none, false, metadata, none, false⟩

/-- One cell together with what its operations reach: the shape tree and the
cells of live bindings. -/
structure CellState where
  cell : ObjectCell
  tree : ShapeTree
  bindings : Nat → Value

namespace CellState

/-- Rebuild the cached shape from the slots. -/
def rebuildShape (s : CellState) : CellState :=
  let (shape, tree) := s.tree.rebuild (Slots.keys s.cell.slots)
  { s with cell := { s.cell with shape := some shape }, tree := tree }

/-- What the cached shape says about `key`. -/
def shapeSlot (s : CellState) (key : String) : Option Nat :=
  s.cell.shape.bind fun shape => s.tree.slotOf shape key

/-- `own_index`. -/
def ownIndex (s : CellState) (key : String) : Option Nat × CellState :=
  let slots := s.cell.slots
  if 64 ≤ slots.length && !s.cell.indexDisabled then
    let dictionary := s.cell.index.getD (Slots.firstIndex (Slots.keys slots))
    (dictionary key, { s with cell := { s.cell with index := some dictionary } })
  else
    -- the shape is a cache: its answer counts only if the slot still holds the key
    match (s.shapeSlot key).filter (fun i => (Slots.keys slots)[i]? == some key) with
    | some i => (some i, s)
    | none =>
      let found := Slots.position slots key
      match s.cell.shape with
      | none =>
        let second := s.cell.readOnce
        let s := { s with cell := { s.cell with readOnce := true } }
        (found, if second && found.isSome then s.rebuildShape else s)
      | some _ =>
        let agree := (s.shapeSlot key).isNone && found.isNone
        (found, if agree then s else s.rebuildShape)

/-- `slot_verified`. -/
def slotVerified (s : CellState) (i : Nat) (key : String) : Option Value :=
  (s.cell.slots[i]?).bind fun p => if p.1 = key then some p.2 else none

/-- `own_value`. -/
def ownValue (s : CellState) (key : String) : Option Value × CellState :=
  let (i, s) := s.ownIndex key
  (i.bind fun i => s.slotVerified i key, s)

/-- Store at a slot, through the live binding a mapped arguments object keeps there. -/
def storeSlot (s : CellState) (i : Nat) (value : Value) : CellState :=
  match s.cell.metadata.isArguments, (s.cell.slots[i]?).map Prod.snd with
  | true, some (.binding c) =>
    { s with bindings := fun d => if d = c then value else s.bindings d }
  | _, _ => { s with cell := { s.cell with slots := Slots.setValue s.cell.slots i value } }

/-- `set_slot_verified`: the value comes back when the slot has another key. -/
def setSlotVerified (s : CellState) (i : Nat) (key : String) (value : Value) :
    Except Value Unit × CellState :=
  match s.cell.slots[i]? with
  | none => (.error value, s)
  | some p => if p.1 = key then (.ok (), s.storeSlot i value) else (.error value, s)

/-- `note_key_added`; `shared` tells whether another cell holds the cached shape. -/
def noteKeyAdded (s : CellState) (shared : Bool) (key : String) : CellState :=
  match s.cell.shape with
  | none => s
  | some shape =>
    if (s.tree.slotOf shape key).isSome then s.rebuildShape
    else
      let (shape, tree) := s.tree.append shape shared key
      { s with cell := { s.cell with shape := some shape }, tree := tree }

/-- Push a new slot and keep the dictionary current. -/
def pushSlot (s : CellState) (key : String) (value : Value) : CellState :=
  { s with
    cell :=
      { s.cell with
        slots := s.cell.slots ++ [(key, value)]
        index := s.cell.index.map fun d => d.insert key s.cell.slots.length } }

/-- `append_new_slot`. -/
def appendNewSlot (s : CellState) (shared : Bool) (key : String) (value : Value) :
    Except VmErr Unit × CellState :=
  if maxObjectProps ≤ s.cell.slots.length then
    (.error (limitErr "Maximum object property count exceeded"), s)
  else (.ok (), (s.pushSlot key value).noteKeyAdded shared key)

/-- `note_mutated`. -/
def noteMutated (s : CellState) : CellState :=
  { s with cell := { s.cell with shape := none, index := none } }

/-- `borrow_mut` followed by a rewrite of the slot vector. -/
def borrowMut (s : CellState) (slots : Slots String Value) : CellState :=
  { s with cell := { s.cell with index := none, slots := slots } }

/-- `borrow_mut`, a push and `note_key_added`, as ordinary assignment adds a key. -/
def borrowPush (s : CellState) (shared : Bool) (key : String) (value : Value) : CellState :=
  (s.borrowMut (s.cell.slots ++ [(key, value)])).noteKeyAdded shared key

/-- `Deref`: raw storage escapes, so the dictionary is given up for good. -/
def deref (s : CellState) : CellState :=
  { s with cell := { s.cell with indexDisabled := true, index := none } }

/-- A write through an escaped storage reference, which no cache learns of. -/
def rawWrite (s : CellState) (slots : Slots String Value) : CellState :=
  { s with cell := { s.cell with slots := slots } }

/-- The lookup of `set_cell_prop`: cold objects scan without touching the caches. -/
def writeIndex (s : CellState) (key : String) : Option Nat × CellState :=
  if s.cell.shape.isSome || 64 ≤ s.cell.slots.length then s.ownIndex key
  else (Slots.position s.cell.slots key, s)

/-- `set_cell_prop`. -/
def setCellProp (s : CellState) (shared : Bool) (key : String) (value : Value) :
    Except VmErr Unit × CellState :=
  let writable := (s.cell.metadata.attrsOf key).writable
  let (index, s) := s.writeIndex key
  match index with
  | some i => (.ok (), if writable then s.storeSlot i value else s)
  | none =>
    if s.cell.metadata.nonExtensible then (.ok (), s)
    else if maxObjectProps ≤ s.cell.slots.length then
      (.error (limitErr "Maximum object property count exceeded"), s)
    else (.ok (), (s.pushSlot key value).noteKeyAdded shared key)

/-- `clear_edges`: the collector empties an unreachable object. -/
def clearEdges (s : CellState) : CellState :=
  { s with
    cell :=
      { s.cell with
        slots := []
        index := none
        metadata := { s.cell.metadata with proto := none }
        shape := none
        readOnce := false } }

end CellState

end NapiVm
