import NapiVm.Heap.Basic

/-!
# The marker

`Marker` walks the heap with an explicit work list.  Weak maps are set aside
while the work list drains; `drain_ephemerons` then indexes each of their entries
once, by key, and wakes the entries of every identity that gets marked.

The loops of the source that are not bounded by a list in hand run on fuel here;
`none` means that the fuel ran out.
-/

namespace NapiVm

/-- `Marker`.  The vectors used as stacks have their top first. -/
structure Marker where
  marked : Finset HeapId := ∅
  work : List HeapId := []
  hostCalls : Finset Nat := ∅
  opaqueStack : Bool := false
  borrowed : Bool := false
  weakCells : List Nat := []
  newlyMarked : List HeapId := []
  deriving DecidableEq

namespace Marker

/-- `mark`: record an identity, and say whether it is new. -/
def mark (m : Marker) (id : HeapId) : Bool × Marker :=
  if id ∈ m.marked then (false, m)
  else (true, { m with marked := insert id m.marked, newlyMarked := id :: m.newlyMarked })

/-- Mark a container and queue it if it is new. -/
def markItem (m : Marker) (id : HeapId) : Marker :=
  let (new, m) := m.mark id
  if new then { m with work := id :: m.work } else m

/-- `mark_value`. -/
def markValue (h : Heap) (m : Marker) (value : GcValue) : Marker :=
  let m := match h.exoticProperties value with
    | some properties => m.markItem (.object properties)
    | none => m
  match value with
  | .inert => m
  | .realmGlobal env => m.markItem (.env env)
  | .hostPending id => { m with hostCalls := insert id m.hostCalls }
  | .object props => m.markItem (.object props)
  | .array cell => m.markItem (.array cell)
  | .function data => m.markItem (.function data)
  | .hostFunction properties => m.markItem (.object properties)
  | .classValue constructor prototype statics =>
    let m := markValue h m constructor
    let m := markValue h m prototype
    m.markItem (.object statics)
  | .promise inner => m.markItem (.promise inner)
  | .generator inner => m.markItem (.generator inner)
  | .proxy data => m.markItem (.proxy data)
  | .binding cell => m.markItem (.binding cell)
  | .asyncTask inner => m.markItem (.asyncTask inner)
  | .view data _ buffer bufferProperties =>
    -- the buffer is marked as the value it wraps
    let m := (m.mark (.other data)).2
    let m := m.markItem (.object bufferProperties)
    (m.mark (.other buffer)).2
  | .stringIterator inner _ => (m.mark (.other inner)).2
  | .exotic addr _ => (m.mark (.other addr)).2
  | .identity addr => (m.mark (.other addr)).2

/-- Follow one reference. -/
def markRef (h : Heap) (m : Marker) : Ref → Marker
  | .value v => m.markValue h v
  | .env addr => m.markItem (.env addr)
  | .cell addr => m.markItem (.object addr)
  | .promise addr => m.markItem (.promise addr)

/-- What `drain` records about an item besides its references: weak storage to
come back to, and stacks it cannot see into. -/
def note (h : Heap) (m : Marker) : HeapId → Marker
  | .object a => if h.weakOf a = .none then m else { m with weakCells := m.weakCells ++ [a] }
  | .generator a =>
    { m with opaqueStack := m.opaqueStack ||
        ((Slots.get h.generators a).map GeneratorNode.suspendsValues).getD false }
  | .asyncTask a =>
    { m with opaqueStack := m.opaqueStack ||
        ((Slots.get h.asyncTasks a).map AsyncTaskNode.suspendsValues).getD false }
  | _ => m

/-- Look inside a container: note it and follow its references. -/
def follow (h : Heap) (m : Marker) (item : HeapId) : Marker :=
  (h.refs item).foldl (markRef h) (m.note h item)

/-- One turn of `drain`: a container borrowed elsewhere is not looked into.  A
function has no cell to borrow. -/
def visit (h : Heap) (m : Marker) (item : HeapId) : Marker :=
  if h.isBorrowed item then
    match item with
    | .function _ => m.follow h item
    | .asyncTask _ => { m with opaqueStack := true }
    | _ => { m with borrowed := true }
  else m.follow h item

/-- `drain`: empty the work list. -/
def drain (h : Heap) : Nat → Marker → Option Marker
  | 0, _ => none
  | fuel + 1, m =>
    match m.work with
    | [] => some m
    | item :: work => drain h fuel (visit h { m with work := work } item)

/-- The entries that wait for their key. -/
abbrev Waiting := PMap HeapId (List GcValue)

/-- Index one entry of a weak map. -/
def indexEntry (h : Heap) (s : Marker × Waiting) (entry : HeapId × GcValue) : Marker × Waiting :=
  if entry.1 ∈ s.1.marked then (s.1.markValue h entry.2, s.2)
  else (s.1, s.2.insert entry.1 ((s.2 entry.1).getD [] ++ [entry.2]))

/-- Index one weak cell. -/
def indexCell (h : Heap) (s : Marker × Waiting) (cell : Nat) : Marker × Waiting :=
  (h.entries cell).foldl (indexEntry h) s

/-- Pop the newly marked identities and wake what waits for them. -/
def wake (h : Heap) : Nat → Marker × Waiting → Option (Marker × Waiting)
  | 0, _ => none
  | fuel + 1, (m, waiting) =>
    match m.newlyMarked with
    | [] => some (m, waiting)
    | id :: rest =>
      let m := { m with newlyMarked := rest }
      match waiting id with
      | none => wake h fuel (m, waiting)
      | some values => wake h fuel (values.foldl (markValue h) m, waiting.erase id)

/-- One round: drain, index the weak cells found meanwhile, wake. -/
def round (h : Heap) (fuel : Nat) (indexed : Nat) (s : Marker × Waiting) :
    Option (Marker × Waiting) :=
  match drain h fuel s.1 with
  | none => none
  | some m => wake h fuel ((m.weakCells.drop indexed).foldl (indexCell h) (m, s.2))

/-- The loop of `drain_ephemerons`.  Indexing adds no weak cell, so after a round
all of them are indexed. -/
def rounds (h : Heap) (limit : Nat) : Nat → Nat → Marker × Waiting → Option Marker
  | 0, _, _ => none
  | fuel + 1, indexed, s =>
    match round h limit indexed s with
    | none => none
    | some (m, waiting) =>
      if m.work.isEmpty then some m else rounds h limit fuel m.weakCells.length (m, waiting)

/-- `drain_ephemerons`. -/
def drainEphemerons (h : Heap) (fuel : Nat) (m : Marker) : Option Marker :=
  rounds h fuel fuel 0 (m, PMap.empty)

/-- The marker of `collect` once every root is marked. -/
def markRoots (h : Heap) (roots : List Ref) : Marker := roots.foldl (markRef h) {}

end Marker

end NapiVm
