import NapiVm.Value.Basic

/-!
# Object shapes

A shape describes one key layout: the keys in insertion order and an index from
keys to slots.  Shapes form a tree of memoised `add` transitions from the
canonical empty layout.  Nodes are shared by reference counting, so the tree is
a store of nodes and a shape is a reference into it.

An unshared layout of 128 or more keys is extended in place instead of being
cloned.  Whether a node is shared is decided by its owners: the root, the
transitions of other nodes and the object cells.  The cells lie outside the
tree, so `append` takes their verdict as an argument.
-/

namespace NapiVm

/-- One node of the shape tree. -/
structure Shape where
  id : UInt32
  keys : List String
  index : PMap String UInt32
  transitions : Slots String Nat

/-- The thread-local shape state: the nodes, the canonical root and the id counter. -/
structure ShapeTree where
  nodes : List Shape
  root : Nat
  nextShapeId : UInt32

namespace ShapeTree

/-- The state a thread starts with: the root and nothing else. -/
def initial : ShapeTree := ⟨[⟨1, [], PMap.empty, []⟩], 0, 2⟩

/-- Take the next shape id; the counter skips zero when it wraps. -/
def takeId (t : ShapeTree) : UInt32 × ShapeTree :=
  (t.nextShapeId, { t with nextShapeId := max (t.nextShapeId + 1) 1 })

/-- The index of a key list: slots are stored as 32-bit values, first occurrence wins. -/
def indexOf (keys : List String) : PMap String UInt32 :=
  fun k => (Slots.firstIndex keys k).map UInt32.ofNat

/-- `Shape::fresh`. -/
def fresh (t : ShapeTree) (keys : List String) : Nat × ShapeTree :=
  let (id, t) := t.takeId
  (t.nodes.length, { t with nodes := t.nodes ++ [⟨id, keys, indexOf keys, []⟩] })

/-- `Shape::slot_of`. -/
def slotOf (t : ShapeTree) (shape : Nat) (key : String) : Option Nat :=
  (t.nodes[shape]?).bind fun s => (s.index key).map UInt32.toNat

/-- The id of a shape. -/
def idOf (t : ShapeTree) (shape : Nat) : Option UInt32 := (t.nodes[shape]?).map Shape.id

/-- `Shape::add`: the memoised child, or a fresh one that small layouts remember. -/
def add (t : ShapeTree) (shape : Nat) (key : String) : Nat × ShapeTree :=
  match t.nodes[shape]? with
  | none => (shape, t)
  | some s =>
    match Slots.get s.transitions key with
    | some child => (child, t)
    | none =>
      let (child, t) := t.fresh (s.keys ++ [key])
      if s.keys.length < 128 then
        let memo := { s with transitions := s.transitions ++ [(key, child)] }
        (child, { t with nodes := t.nodes.set shape memo })
      else (child, t)

/-- Does the tree itself own `shape`, as its root or as somebody's child? -/
def owned (t : ShapeTree) (shape : Nat) : Bool :=
  t.root == shape || t.nodes.any fun s => s.transitions.any fun p => p.2 == shape

/-- `Shape::append`: extend an unshared dictionary-sized layout in place under a
new id, otherwise follow `add`.  `shared` says that another cell owns it too. -/
def append (t : ShapeTree) (shape : Nat) (shared : Bool) (key : String) : Nat × ShapeTree :=
  match t.nodes[shape]? with
  | none => (shape, t)
  | some s =>
    if 128 ≤ s.keys.length && !shared && !t.owned shape then
      let (id, t) := t.takeId
      let layout := Shape.mk id (s.keys ++ [key])
        (s.index.insertIfNew key (UInt32.ofNat s.keys.length)) s.transitions
      (shape, { t with nodes := t.nodes.set shape layout })
    else t.add shape key

/-- Replay keys from `shape` on, skipping the ones the layout already has. -/
def replay (t : ShapeTree) (shape : Nat) : List String → Nat × ShapeTree
  | [] => (shape, t)
  | key :: keys =>
    if (t.slotOf shape key).isSome then replay t shape keys
    else
      let (child, t) := t.add shape key
      replay t child keys

/-- `Shape::rebuild`: dictionary-sized layouts are detached, small ones canonical. -/
def rebuild (t : ShapeTree) (keys : List String) : Nat × ShapeTree :=
  if 128 < keys.length then t.fresh keys else t.replay t.root keys

end ShapeTree

end NapiVm
