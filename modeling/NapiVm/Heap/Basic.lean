import NapiVm.Lib.Slots
import Mathlib.Data.Finset.Basic

/-!
# The traced heap

The heap as the cycle collector sees it: which containers a value refers to, and
what each container holds.  A container is identified by the address of its
allocation.  Addresses of live allocations are distinct, so an identity here is
an address together with the type allocated there.

Collections that the source enumerates in hash order are lists, and every result
is about every such list.
-/

namespace NapiVm

/-- `HeapId`: the identity of an allocation.  `other` is an allocation that holds
no values of its own, such as a symbol or the data of a date. -/
inductive HeapId where
  | object (addr : Nat)
  | array (addr : Nat)
  | env (addr : Nat)
  | function (addr : Nat)
  | promise (addr : Nat)
  | generator (addr : Nat)
  | proxy (addr : Nat)
  | binding (addr : Nat)
  | asyncTask (addr : Nat)
  | other (addr : Nat)
  deriving DecidableEq, Repr

/-- Is the identity one of a container, which a `MarkItem` can hold? -/
def HeapId.traced : HeapId → Bool
  | .other _ => false
  | _ => true

/-- A guest value, by what it keeps alive. -/
inductive GcValue where
  /-- A primitive, or the global object of the running realm. -/
  | inert
  | realmGlobal (env : Nat)
  | hostPending (id : Nat)
  | object (props : Nat)
  | array (cell : Nat)
  | function (data : Nat)
  | hostFunction (properties : Nat)
  | classValue (constructor prototype : GcValue) (statics : Nat)
  | promise (inner : Nat)
  | generator (inner : Nat)
  | proxy (data : Nat)
  | binding (cell : Nat)
  | asyncTask (inner : Nat)
  /-- A typed array or data view over a buffer; both have property storage. -/
  | view (data properties buffer bufferProperties : Nat)
  | stringIterator (inner properties : Nat)
  /-- An error, date, regular expression or buffer: an identity with property storage. -/
  | exotic (addr properties : Nat)
  /-- A symbol or native function: an identity and nothing else. -/
  | identity (addr : Nat)
  deriving DecidableEq, Repr

/-! ## Containers -/

/-- A cell registered with a `FinalizationRegistry`. -/
structure FinalizationRecord where
  target : HeapId
  held : GcValue
  deriving DecidableEq, Repr

/-- `WeakStorage`.  A registry knows its job queue weakly; `queued` tells whether
the queue is still there. -/
inductive WeakStorage where
  | none
  | map (entries : List (HeapId × GcValue))
  | ref (target : Option HeapId)
  | registry (callback : GcValue) (records : List FinalizationRecord) (queued : Bool)
  deriving DecidableEq, Repr

/-- `strong_values`. -/
def WeakStorage.strongValues : WeakStorage → List GcValue
  | .registry callback records _ => callback :: records.map FinalizationRecord.held
  | _ => []

/-- An object cell.  `links` are the values its metadata refers to: private
elements, internal slots of built-ins, the prototype and the realm. -/
structure ObjectNode where
  slots : List GcValue
  links : List GcValue
  boxedSymbol : Option Nat
  symbolKeys : List Nat
  weak : WeakStorage
  deriving DecidableEq, Repr

/-- `ObjectCell::trace_children`. -/
def ObjectNode.traceChildren (n : ObjectNode) : List GcValue :=
  n.slots ++ n.links ++ (n.boxedSymbol.toList.map .identity) ++ (n.symbolKeys.map .identity) ++
    n.weak.strongValues

/-- An array cell. -/
structure ArrayNode where
  elements : List GcValue
  named : List GcValue
  links : List GcValue
  symbolKeys : List Nat
  deriving DecidableEq, Repr

/-- `ArrayCell::trace_children`. -/
def ArrayNode.traceChildren (n : ArrayNode) : List GcValue :=
  n.elements ++ n.named ++ n.links ++ (n.symbolKeys.map .identity)

/-- What a module record keeps alive. -/
structure ModuleRecord where
  moduleNamespace : Option GcValue
  exports : List GcValue
  defaultExport : Option GcValue
  importMeta : Option GcValue
  sourceObject : Option GcValue
  scope : Option Nat
  deriving DecidableEq, Repr

/-- The roots a realm publishes. -/
structure RealmRoots where
  modules : List (List ModuleRecord)
  values : List GcValue
  jobs : List (List GcValue)
  deriving DecidableEq, Repr

/-- An environment frame. -/
structure EnvNode where
  moduleRealm : Option RealmRoots
  values : List GcValue
  parent : Option Nat
  deriving DecidableEq, Repr

/-- A function: its property cell, its captured frame and what it is bound to. -/
structure FunctionNode where
  properties : Nat
  closure : Option Nat
  bound : List GcValue
  deriving DecidableEq, Repr

/-- A promise reaction. -/
structure Reaction where
  capability : Option (GcValue × GcValue)
  onFulfilled : GcValue
  onRejected : GcValue
  derived : Nat
  deriving DecidableEq, Repr

/-- A promise. -/
structure PromiseNode where
  properties : Nat
  value : GcValue
  reactions : List Reaction
  deriving DecidableEq, Repr

/-- A generator object. -/
structure GeneratorNode where
  properties : Nat
  realm : RealmRoots
  asyncState : List GcValue
  closure : Option Nat
  args : List GcValue
  returnValue : Option GcValue
  buffered : List GcValue
  suspendsValues : Bool
  deriving DecidableEq, Repr

/-- A proxy: target and handler unless revoked, and its private storage. -/
structure ProxyNode where
  slots : Option (GcValue × GcValue)
  privateStorage : Option Nat
  deriving DecidableEq, Repr

/-- `ProxyData::trace_children`. -/
def ProxyNode.traceChildren (n : ProxyNode) : List GcValue :=
  (n.slots.toList.flatMap fun s => [s.1, s.2]) ++ (n.privateStorage.toList.map .object)

/-- An async task. -/
structure AsyncTaskNode where
  suspendsValues : Bool
  resultPromise : Nat
  owner : Option Nat
  deriving DecidableEq, Repr

/-- A finite heap: the containers by address, and the cells some host code has
borrowed mutably. -/
structure Heap where
  objects : Slots Nat ObjectNode
  arrays : Slots Nat ArrayNode
  envs : Slots Nat EnvNode
  functions : Slots Nat FunctionNode
  promises : Slots Nat PromiseNode
  generators : Slots Nat GeneratorNode
  proxies : Slots Nat ProxyNode
  bindings : Slots Nat GcValue
  asyncTasks : Slots Nat AsyncTaskNode
  borrowed : List HeapId
  deriving DecidableEq, Repr

/-! ## References -/

/-- The ways a container is handed to the marker. -/
inductive Ref where
  | value (v : GcValue)
  | env (addr : Nat)
  | cell (addr : Nat)
  | promise (addr : Nat)
  deriving DecidableEq, Repr

/-- The references of a module map, in the order `mark_modules` visits them. -/
def ModuleRecord.refs (m : ModuleRecord) : List Ref :=
  (m.moduleNamespace.toList ++ m.exports ++ m.defaultExport.toList ++ m.importMeta.toList ++
    m.sourceObject.toList).map .value ++ m.scope.toList.map .env

/-- The references of a realm's modules. -/
def moduleRefs (modules : List (List ModuleRecord)) : List Ref :=
  modules.flatMap fun map => map.flatMap ModuleRecord.refs

/-- The references of a reaction. -/
def Reaction.refs (r : Reaction) : List Ref :=
  (r.capability.toList.flatMap fun c => [.value c.1, .value c.2]) ++
    [.value r.onFulfilled, .value r.onRejected, .promise r.derived]

namespace Heap

/-- The references each container holds, in the order `drain` visits them. -/
def refs (h : Heap) : HeapId → List Ref
  | .object a => ((Slots.get h.objects a).toList.flatMap ObjectNode.traceChildren).map .value
  | .array a => ((Slots.get h.arrays a).toList.flatMap ArrayNode.traceChildren).map .value
  | .env a => (Slots.get h.envs a).toList.flatMap fun n =>
    (n.moduleRealm.toList.flatMap fun r => moduleRefs r.modules ++ r.values.map .value) ++
      n.values.map .value ++ n.parent.toList.map .env
  | .function a => (Slots.get h.functions a).toList.flatMap fun n =>
    .cell n.properties :: n.closure.toList.map .env ++ n.bound.map .value
  | .promise a => (Slots.get h.promises a).toList.flatMap fun n =>
    .value n.value :: n.reactions.flatMap Reaction.refs
  | .generator a => (Slots.get h.generators a).toList.flatMap fun n =>
    moduleRefs n.realm.modules ++ n.realm.values.map .value ++
      (n.realm.jobs.flatMap fun queue => queue.map .value) ++ n.asyncState.map .value ++
      n.closure.toList.map .env ++ n.args.map .value ++ n.returnValue.toList.map .value ++
      n.buffered.map .value
  | .proxy a => ((Slots.get h.proxies a).toList.flatMap ProxyNode.traceChildren).map .value
  | .binding a => (Slots.get h.bindings a).toList.map .value
  | .asyncTask a => (Slots.get h.asyncTasks a).toList.flatMap fun n =>
    .value (.promise n.resultPromise) :: n.owner.toList.map .env
  | .other _ => []

/-- The weak storage of an object cell. -/
def weakOf (h : Heap) (a : Nat) : WeakStorage :=
  ((Slots.get h.objects a).map ObjectNode.weak).getD .none

/-- The entries of a weak map cell. -/
def entries (h : Heap) (a : Nat) : List (HeapId × GcValue) :=
  match h.weakOf a with
  | .map entries => entries
  | _ => []

/-- Is the cell borrowed mutably? -/
def isBorrowed (h : Heap) (id : HeapId) : Bool := decide (id ∈ h.borrowed)

/-- `exotic_properties`: the property cell of a value that is not a plain object. -/
def exoticProperties (h : Heap) : GcValue → Option Nat
  | .generator a =>
    if h.isBorrowed (.generator a) then none
    else (Slots.get h.generators a).map GeneratorNode.properties
  | .promise a =>
    if h.isBorrowed (.promise a) then none
    else (Slots.get h.promises a).map PromiseNode.properties
  | .stringIterator a properties => if h.isBorrowed (.other a) then none else some properties
  | .view _ properties _ _ => some properties
  | .exotic _ properties => some properties
  | _ => none

end Heap

end NapiVm
