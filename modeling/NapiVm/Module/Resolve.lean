import Mathlib.Data.Finset.Prod
import NapiVm.Lib.UniqueSearch
import NapiVm.Module.Graph

/-!
# Resolution of exports

`resolve_export` of `module_link.rs` looks for what a module exports under a name: it follows
explicit entries, and goes through the modules of `export *` only where there is none.

* `resolveExport` — the search of the code.
* `Leads` — what the entries of a graph say, in no order.
* `resolveExport_leads` — the search finds what the entries say.
-/

namespace NapiVm.Linking

open UniqueSearch List

/-! ## Programs -/

/-- A specifier of a program, with its import attributes. -/
structure Request where
  specifier : List UInt16
  attributes : List (String × List UInt16)
  deriving DecidableEq

/-- A statement, as far as linking reads it. -/
inductive Statement where
  | importFrom (request : Request) (phase : Modules.ImportPhase) (default : Option String)
      (named : List (String × String)) (ns : Option String)
  | exportNamed (specifiers : List (String × String)) (source : Option Request)
  | exportDefault
  | exportAll (request : Request) (asName : Option String)
  | declarations (inner : List Statement)
  | other

mutual

def flatOne : Statement → List Statement
  | .declarations inner => flat inner
  | stmt => [stmt]

/-- `flat`. -/
def flat : List Statement → List Statement
  | [] => []
  | stmt :: rest => flatOne stmt ++ flat rest

end

/-- The request of a statement. -/
def Statement.request? : Statement → Option Request
  | .importFrom request _ _ _ _ => some request
  | .exportNamed _ source => source
  | .exportAll request _ => some request
  | _ => none

/-- The names a statement exports explicitly. -/
def Statement.exportedNames : Statement → List String
  | .exportNamed specifiers _ => specifiers.map Prod.snd
  | .exportDefault => ["default"]
  | .exportAll _ (some asName) => [asName]
  | _ => []

/-- The names a statement imports. -/
def Statement.importedNames : Statement → List String
  | .importFrom _ _ default named ns => default.toList ++ named.map Prod.snd ++ ns.toList
  | _ => []

/-- A source module that has been discovered: its requests are resolved, and neither an export nor
an import occurs twice. -/
structure LinkedModule where
  program : List Statement
  requests : List (Request × String)
  resolved : ∀ stmt ∈ flat program, ∀ request, stmt.request? = some request →
    (requests.lookup request).isSome
  exportsOnce : ((flat program).flatMap Statement.exportedNames).Nodup
  importsOnce : ((flat program).flatMap Statement.importedNames).Nodup

/-! ## Modules -/

/-- A value of a module record: a binding cell or an object.  `Rc::ptr_eq` and `strict_equals`
both compare what these are known by. -/
inductive Value where
  | binding (cell : Nat)
  | namespaceOf (id : String)
  | deferredNamespaceOf (id : String)
  | object (ref : Nat)
  deriving DecidableEq

/-- `Module`; a namespace object is known by its module, whether it has been made or not. -/
structure Module where
  default : Option Value
  exports : List (String × Value)
  sourceObject : Option Value
  namespaceMade : Bool
  deferredMade : Bool
  exportsOnce : (exports.map Prod.fst).Nodup

/-- The module graph, and the table of the modules. -/
structure Graph where
  records : List (String × LinkedModule)
  modules : List (String × Module)

inductive LinkErr where
  /-- "Maximum namespace size exceeded". -/
  | namespaceTooLarge
  /-- The panic of an `expect`. -/
  | unresolved

/-- `MAX_OBJECT_PROPS`. -/
def maxObjectProps : Nat := 262144

/-- `namespace_object`, and `deferred_namespace_object`, which leaves out `then`. -/
def namespaceObject (m : Module) (id : String) (deferred : Bool) : Except LinkErr Value :=
  let value := if deferred then Value.deferredNamespaceOf id else .namespaceOf id
  let exports := if deferred then m.exports.filter fun e => e.1 ≠ "then" else m.exports
  if if deferred then m.deferredMade else m.namespaceMade then .ok value
  else if maxObjectProps < exports.length + m.default.toList.length then .error .namespaceTooLarge
  else .ok value

/-- What a module record holds under a name. -/
def Module.exported (m : Module) (name : String) : Option Value :=
  if name = "default" then m.default else m.exports.lookup name

namespace Graph

variable (g : Graph)

def exported (id name : String) : Option Value :=
  (g.modules.lookup id).bind fun m => m.exported name

/-- The namespace object of a module, if there is such a module. -/
def namespaceOf (id : String) (deferred : Bool) : Except LinkErr (Option Value) :=
  match g.modules.lookup id with
  | none => .ok none
  | some m => (namespaceObject m id deferred).map some

end Graph

/-! ## The search -/

/-- A module and a name. -/
abbrev Node := String × String

abbrev Step := Expansion Node Value LinkErr

/-- What is done with the module of a request; a request is always resolved. -/
def LinkedModule.withTarget (record : LinkedModule) (request : Request) (k : String → Step) :
    Step :=
  match record.requests.lookup request with
  | some target => k target
  | none => .leaf (.error .unresolved)

namespace Graph

variable (g : Graph)

/-- What a statement imports under a local name. -/
def imported (record : LinkedModule) (name : String) : Statement → Option Step
  | .importFrom request phase default named ns =>
    if default = some name then
      some (record.withTarget request fun target =>
        if phase = .source then .leaf (.ok ((g.modules.lookup target).bind Module.sourceObject))
        else .next (target, "default"))
    else
      match named.find? fun specifier => specifier.2 = name with
      | some (remote, _) => some (record.withTarget request fun target => .next (target, remote))
      | none =>
        if ns = some name then
          some (record.withTarget request fun target =>
            .leaf (g.namespaceOf target (phase = .deferred)))
        else none
  | _ => none

/-- A local export, which can name an import. -/
def localExport (record : LinkedModule) (id name localName : String) : Step :=
  ((flat record.program).findSome? (g.imported record localName)).getD
    (.leaf (.ok (g.exported id name)))

/-- What a statement exports explicitly under a name. -/
def explicit (record : LinkedModule) (id name : String) : Statement → Option Step
  | .exportDefault =>
    if name = "default" then some (.leaf (.ok ((g.modules.lookup id).bind Module.default)))
    else none
  | .exportNamed specifiers source =>
    match specifiers.find? fun specifier => specifier.2 = name with
    | none => none
    | some (localName, _) =>
      match source with
      | some request => some (record.withTarget request fun target => .next (target, localName))
      | none => some (g.localExport record id name localName)
  | .exportAll request (some asName) =>
    if asName = name then
      some (record.withTarget request fun target => .leaf (g.namespaceOf target false))
    else none
  | _ => none

/-- The request of an `export *`. -/
def starRequest : Statement → Option Request
  | .exportAll request none => some request
  | _ => none

/-- The modules whose exports are a module's own. -/
def stars (record : LinkedModule) (name : String) : Step :=
  match ((flat record.program).filterMap starRequest).mapM
      fun request => record.requests.lookup request with
  | some targets => .all (targets.map fun target => (target, name))
  | none => .leaf (.error .unresolved)

/-- What is done at a module and a name. -/
def expand (node : Node) : Step :=
  match g.records.lookup node.1 with
  | none => .leaf (.ok (g.exported node.1 node.2))
  | some record =>
    match (flat record.program).findSome? (g.explicit record node.1 node.2) with
    | some step => step
    | none => if node.2 = "default" then .leaf (.ok none) else stars record node.2

/-- `resolve_export`, with nothing seen before; `depth` bounds the nesting of the calls. -/
def resolveExport (depth : Nat) (id name : String) :
    Option (Except LinkErr (Answer Value)) :=
  (search g.expand depth [] (id, name)).map Prod.snd

/-! ## What the entries say -/

/-- A module exports something explicitly under a name. -/
def Exports (record : LinkedModule) (name : String) : Prop :=
  ∃ stmt ∈ flat record.program, name ∈ stmt.exportedNames

/-- A module imports something under a local name. -/
def Imports (record : LinkedModule) (name : String) : Prop :=
  ∃ stmt ∈ flat record.program, name ∈ stmt.importedNames

/-- What the entries of a graph lead to from a module and a name: a value, or the error that a
namespace object is too large. -/
inductive Leads : String → String → Except LinkErr Value → Prop where
  /-- A module without a record. -/
  | host {id name c} : g.records.lookup id = none → g.exported id name = some c →
      Leads id name (.ok c)
  | exportDefault {id record c} : g.records.lookup id = some record →
      .exportDefault ∈ flat record.program → g.exported id "default" = some c →
      Leads id "default" (.ok c)
  /-- `export { localName as name }` -/
  | exportLocal {id name record specifiers localName c} : g.records.lookup id = some record →
      .exportNamed specifiers none ∈ flat record.program → (localName, name) ∈ specifiers →
      ¬ Imports record localName → g.exported id name = some c → Leads id name (.ok c)
  /-- `export { remote as name } from request` -/
  | reexport {id name record specifiers remote request target o} :
      g.records.lookup id = some record →
      .exportNamed specifiers (some request) ∈ flat record.program → (remote, name) ∈ specifiers →
      record.requests.lookup request = some target → Leads target remote o → Leads id name o
  /-- `import localName from request`, `export { localName as name }` -/
  | importDefault {id name record specifiers localName request phase named ns target o} :
      g.records.lookup id = some record → .exportNamed specifiers none ∈ flat record.program →
      (localName, name) ∈ specifiers →
      .importFrom request phase (some localName) named ns ∈ flat record.program →
      phase ≠ .source → record.requests.lookup request = some target →
      Leads target "default" o → Leads id name o
  /-- `import source localName from request`, `export { localName as name }` -/
  | importSource {id name record specifiers localName request named ns target m c} :
      g.records.lookup id = some record → .exportNamed specifiers none ∈ flat record.program →
      (localName, name) ∈ specifiers →
      .importFrom request .source (some localName) named ns ∈ flat record.program →
      record.requests.lookup request = some target → g.modules.lookup target = some m →
      m.sourceObject = some c → Leads id name (.ok c)
  /-- `import { remote as localName } from request`, `export { localName as name }` -/
  | importNamed {id name record specifiers localName request phase default named ns remote target
      o} : g.records.lookup id = some record →
      .exportNamed specifiers none ∈ flat record.program → (localName, name) ∈ specifiers →
      .importFrom request phase default named ns ∈ flat record.program →
      (remote, localName) ∈ named → record.requests.lookup request = some target →
      Leads target remote o → Leads id name o
  /-- `import * as localName from request`, `export { localName as name }` -/
  | importNamespace {id name record specifiers localName request phase default named target m} :
      g.records.lookup id = some record → .exportNamed specifiers none ∈ flat record.program →
      (localName, name) ∈ specifiers →
      .importFrom request phase default named (some localName) ∈ flat record.program →
      record.requests.lookup request = some target → g.modules.lookup target = some m →
      Leads id name (namespaceObject m target (phase = .deferred))
  /-- `export * as name from request` -/
  | exportNamespace {id name record request target m} : g.records.lookup id = some record →
      .exportAll request (some name) ∈ flat record.program →
      record.requests.lookup request = some target → g.modules.lookup target = some m →
      Leads id name (namespaceObject m target false)
  /-- `export * from request` -/
  | star {id name record request target o} : g.records.lookup id = some record →
      ¬ Exports record name → name ≠ "default" →
      .exportAll request none ∈ flat record.program →
      record.requests.lookup request = some target → Leads target name o → Leads id name o

/-! ## Statements -/

variable {α β : Type} {specifiers named : List (String × String)}
  {name id target localName : String} {record : LinkedModule} {stmt : Statement}
  {o : Except LinkErr Value} {request : Request} {step : Step} {phase : Modules.ImportPhase}
  {default ns : Option String} {node : Node} {r : Except LinkErr (Answer Value)}

variable {f : α → Option β} {l : List α} {b : β} {a remote : String} {m : Module} {depth : Nat}

/-- The only element with a key is the first that has something for it. -/
theorem findSome?_of_nodup {κ : Type} {keys : α → List κ} {k : κ}
    (hf : ∀ a, (f a).isSome → k ∈ keys a) (h : (l.flatMap keys).Nodup) {a : α} (ha : a ∈ l)
    (hb : f a = some b) : l.findSome? f = some b := by
  induction l with
  | nil => cases ha
  | cons a' l ih =>
    rw [flatMap_cons] at h
    rw [findSome?_cons]
    rcases mem_cons.1 ha with rfl | ha
    · rw [hb]
    · cases ha' : f a' with
      | none => exact ih (nodup_append.1 h).2.1 ha
      | some b' =>
        have hk : k ∈ keys a' := hf a' (by rw [ha']; rfl)
        have hk' : k ∈ l.flatMap keys :=
          mem_flatMap.2 ⟨a, ha, hf a (by rw [hb]; rfl)⟩
        exact absurd rfl ((nodup_append.1 h).2.2 k hk k hk')

theorem find?_of_nodup (h : (specifiers.map Prod.snd).Nodup) (ha : (a, name) ∈ specifiers) :
    specifiers.find? (fun specifier => specifier.2 = name) = some (a, name) := by
  induction specifiers with
  | nil => cases ha
  | cons specifier rest ih =>
    rw [map_cons, nodup_cons] at h
    rcases mem_cons.1 ha with rfl | ha
    · exact find?_cons_of_pos (decide_eq_true rfl)
    · have hne : specifier.2 ≠ name := fun heq =>
        h.1 (heq ▸ mem_map_of_mem (f := Prod.snd) ha)
      rw [find?_cons_of_neg (by simpa using hne)]
      exact ih h.2 ha

theorem mem_of_find? {b : String}
    (h : specifiers.find? (fun specifier => specifier.2 = name) = some (a, b)) :
    (a, name) ∈ specifiers := by
  have hfound := find?_some h
  obtain rfl : b = name := of_decide_eq_true hfound
  exact mem_of_find?_eq_some h

theorem isSome_find? :
    (specifiers.find? fun specifier => specifier.2 = name).isSome ↔
      name ∈ specifiers.map Prod.snd := by
  simp

theorem isSome_explicit : (g.explicit record id name stmt).isSome ↔ name ∈ stmt.exportedNames := by
  cases stmt with
  | exportDefault => by_cases h : name = "default" <;> simp [explicit, Statement.exportedNames, h]
  | exportNamed specifiers source =>
    rw [Statement.exportedNames, ← isSome_find?, explicit]
    cases hfind : specifiers.find? fun specifier => specifier.2 = name with
    | none => rfl
    | some specifier => cases source <;> rfl
  | exportAll request asName =>
    cases asName with
    | none => simp [explicit, Statement.exportedNames]
    | some asName =>
      by_cases h : asName = name
      · simp [explicit, Statement.exportedNames, h]
      · simp [explicit, Statement.exportedNames, h, Ne.symm h]
  | _ => simp [explicit, Statement.exportedNames]

theorem isSome_imported : (g.imported record name stmt).isSome ↔ name ∈ stmt.importedNames := by
  cases stmt with
  | importFrom request phase default named ns =>
    rw [Statement.importedNames, mem_append, mem_append, ← isSome_find?, imported]
    by_cases hdefault : default = some name
    · simp [hdefault]
    · cases hfind : named.find? fun specifier => specifier.2 = name with
      | none => by_cases hns : ns = some name <;> simp [hdefault, hns]
      | some specifier => simp [hdefault]
  | _ => simp [imported, Statement.importedNames]

/-! ## What a step says -/

variable {g}

/-- The names a statement uses for what other modules export. -/
def remoteNames : Statement → List String
  | .exportNamed specifiers _ => specifiers.map Prod.fst
  | .importFrom _ _ _ named _ => named.map Prod.fst
  | _ => []

/-- A node that a module refers to. -/
def Near (g : Graph) (id name : String) (node : Node) : Prop :=
  ∃ record, g.records.lookup id = some record ∧
    (∃ request, record.requests.lookup request = some node.1) ∧
    (node.2 = name ∨ node.2 = "default" ∨
      ∃ stmt ∈ flat record.program, node.2 ∈ remoteNames stmt)

/-- What a step leads to, its module and name lead to; and the module refers to where it goes. -/
structure Sound (id name : String) (step : Step) : Prop where
  leaf : ∀ o, step = .leaf (Except.map some o) → g.Leads id name o
  next : ∀ node ∈ step.children, ∀ o, g.Leads node.1 node.2 o → g.Leads id name o
  near : ∀ node ∈ step.children, Near g id name node

theorem ok_of_map {v : Option Value} (h : Except.ok v = Except.map some o) :
    ∃ c, v = some c ∧ o = .ok c := by
  cases o with
  | error e => cases h
  | ok c => exact ⟨c, Except.ok.inj h, rfl⟩

/-- A leaf that holds what is led to. -/
theorem sound_leaf {value : Except LinkErr (Option Value)}
    (h : ∀ o, value = Except.map some o → g.Leads id name o) :
    Sound (g := g) id name (.leaf value) :=
  ⟨fun o ho => h o (Expansion.leaf.inj ho), fun _ hnode => absurd hnode not_mem_nil,
    fun _ hnode => absurd hnode not_mem_nil⟩

/-- The step of a request. -/
theorem sound_withTarget {k : String → Step} (hstmt : stmt ∈ flat record.program)
    (hrequest : stmt.request? = some request)
    (h : ∀ target, record.requests.lookup request = some target →
      Sound (g := g) id name (k target)) :
    Sound (g := g) id name (record.withTarget request k) := by
  obtain ⟨target, htarget⟩ := Option.isSome_iff_exists.1
    (record.resolved stmt hstmt request hrequest)
  rw [LinkedModule.withTarget, htarget]
  exact h target htarget

theorem sound_next (hnear : Near g id name (target, remote))
    (h : ∀ o, g.Leads target remote o → g.Leads id name o) :
    Sound (g := g) id name (.next (target, remote)) := by
  refine ⟨nofun, fun node hnode o ho => ?_, fun node hnode => ?_⟩
  · rw [mem_singleton.1 hnode] at ho
    exact h o ho
  · rw [mem_singleton.1 hnode]
    exact hnear

theorem sound_namespaceOf {deferred : Bool}
    (h : ∀ m, g.modules.lookup target = some m →
      g.Leads id name (namespaceObject m target deferred)) :
    Sound (g := g) id name (.leaf (g.namespaceOf target deferred)) := by
  refine sound_leaf fun o ho => ?_
  rw [namespaceOf] at ho
  split at ho
  · cases o <;> cases ho
  next m hm =>
    have heq : namespaceObject m target deferred = o := by
      cases hn : namespaceObject m target deferred <;> rw [hn] at ho <;> cases o <;> cases ho <;>
        rfl
    exact heq ▸ h m hm

section

variable (hrecord : g.records.lookup id = some record)

include hrecord

/-- What a local export leads to through an import. -/
theorem sound_imported (hexport : .exportNamed specifiers none ∈ flat record.program)
    (hspecifier : (localName, name) ∈ specifiers) (hstmt : stmt ∈ flat record.program)
    (hstep : g.imported record localName stmt = some step) : Sound (g := g) id name step := by
  cases stmt with
  | importFrom request phase default named ns =>
    rw [imported] at hstep
    split at hstep
    next hdefault =>
      cases hstep
      subst hdefault
      refine sound_withTarget hstmt rfl fun target htarget => ?_
      split
      next hphase =>
        subst hphase
        refine sound_leaf fun o ho => ?_
        obtain ⟨c, hc, rfl⟩ := ok_of_map ho
        obtain ⟨m, hm, hsource⟩ := Option.bind_eq_some_iff.1 hc
        exact .importSource hrecord hexport hspecifier hstmt htarget hm hsource
      next hphase =>
        exact sound_next ⟨record, hrecord, ⟨request, htarget⟩, .inr (.inl rfl)⟩ fun o ho =>
          .importDefault hrecord hexport hspecifier hstmt hphase htarget ho
    next =>
      split at hstep
      next remote name' hfind =>
        cases hstep
        refine sound_withTarget hstmt rfl fun target htarget => ?_
        have hnamed := mem_of_find? hfind
        have hremote : remote ∈ named.map Prod.fst := mem_map_of_mem (f := Prod.fst) hnamed
        exact sound_next ⟨record, hrecord, ⟨request, htarget⟩, .inr (.inr ⟨_, hstmt, hremote⟩)⟩
          fun o ho => .importNamed hrecord hexport hspecifier hstmt hnamed htarget ho
      next =>
        split at hstep
        next hns =>
          cases hstep
          subst hns
          refine sound_withTarget hstmt rfl fun target htarget => ?_
          exact sound_namespaceOf fun m hm =>
            .importNamespace hrecord hexport hspecifier hstmt htarget hm
        next => cases hstep
  | _ => cases hstep

omit hrecord in
/-- Where nothing is imported under a local name. -/
theorem not_imports :
    (flat record.program).findSome? (g.imported record localName) = none ↔
      ¬ Imports record localName := by
  rw [findSome?_eq_none_iff]
  refine ⟨fun h ⟨stmt, hstmt, hname⟩ => ?_, fun h stmt hstmt => ?_⟩
  · have hsome : (g.imported record localName stmt).isSome := (isSome_imported g).2 hname
    rw [h stmt hstmt] at hsome
    cases hsome
  · by_contra hne
    exact h ⟨stmt, hstmt, (isSome_imported g).1 (Option.isSome_iff_ne_none.2 hne)⟩

theorem sound_localExport (hexport : .exportNamed specifiers none ∈ flat record.program)
    (hspecifier : (localName, name) ∈ specifiers) :
    Sound (g := g) id name (g.localExport record id name localName) := by
  rw [localExport]
  cases hfind : (flat record.program).findSome? (g.imported record localName) with
  | some step =>
    obtain ⟨stmt, hstmt, hstep⟩ := exists_of_findSome?_eq_some hfind
    exact sound_imported hrecord hexport hspecifier hstmt hstep
  | none =>
    refine sound_leaf fun o ho => ?_
    obtain ⟨c, hc, rfl⟩ := ok_of_map ho
    exact .exportLocal hrecord hexport hspecifier (not_imports.1 hfind) hc

/-- What an explicit export leads to. -/
theorem sound_explicit (hstmt : stmt ∈ flat record.program)
    (hstep : g.explicit record id name stmt = some step) : Sound (g := g) id name step := by
  cases stmt with
  | exportDefault =>
    rw [explicit] at hstep
    split at hstep
    next hname =>
      cases hstep
      subst hname
      refine sound_leaf fun o ho => ?_
      obtain ⟨c, hc, rfl⟩ := ok_of_map ho
      exact .exportDefault hrecord hstmt hc
    next => cases hstep
  | exportNamed specifiers source =>
    rw [explicit] at hstep
    split at hstep
    next => cases hstep
    next localName name' hfind =>
      have hspecifier := mem_of_find? hfind
      cases source with
      | none =>
        cases hstep
        exact sound_localExport hrecord hstmt hspecifier
      | some request =>
        cases hstep
        refine sound_withTarget hstmt rfl fun target htarget => ?_
        have hremote : localName ∈ specifiers.map Prod.fst :=
          mem_map_of_mem (f := Prod.fst) hspecifier
        exact sound_next ⟨record, hrecord, ⟨request, htarget⟩, .inr (.inr ⟨_, hstmt, hremote⟩)⟩
          fun o ho => .reexport hrecord hstmt hspecifier htarget ho
  | exportAll request asName =>
    cases asName with
    | none => cases hstep
    | some asName =>
      rw [explicit] at hstep
      split at hstep
      next hname =>
        cases hstep
        subst hname
        refine sound_withTarget hstmt rfl fun target htarget => ?_
        exact sound_namespaceOf fun m hm => .exportNamespace hrecord hstmt htarget hm
      next => cases hstep
  | _ => cases hstep

end

/-- Where nothing is exported explicitly under a name. -/
theorem not_exports :
    (flat record.program).findSome? (g.explicit record id name) = none ↔ ¬ Exports record name := by
  rw [findSome?_eq_none_iff]
  refine ⟨fun h ⟨stmt, hstmt, hname⟩ => ?_, fun h stmt hstmt => ?_⟩
  · have hsome : (g.explicit record id name stmt).isSome := (isSome_explicit g).2 hname
    rw [h stmt hstmt] at hsome
    cases hsome
  · by_contra hne
    exact h ⟨stmt, hstmt, (isSome_explicit g).1 (Option.isSome_iff_ne_none.2 hne)⟩

theorem mem_starRequests :
    request ∈ (flat record.program).filterMap starRequest ↔
      .exportAll request none ∈ flat record.program := by
  rw [mem_filterMap]
  constructor
  · rintro ⟨stmt, hstmt, hrequest⟩
    match stmt, hrequest with
    | .exportAll _ none, hrequest => exact Option.some.inj hrequest ▸ hstmt
  · exact fun h => ⟨_, h, rfl⟩

theorem exists_mapM (h : ∀ a ∈ l, (f a).isSome) :
    ∃ bs, l.mapM f = some bs ∧ ∀ b, b ∈ bs ↔ ∃ a ∈ l, f a = some b := by
  induction l with
  | nil => exact ⟨[], rfl, by simp⟩
  | cons a l ih =>
    obtain ⟨ha, hl⟩ := forall_mem_cons.1 h
    obtain ⟨b, hb⟩ := Option.isSome_iff_exists.1 ha
    obtain ⟨bs, hbs, hmem⟩ := ih hl
    refine ⟨b :: bs, by rw [mapM_cons, hb, hbs]; rfl, fun b' => ?_⟩
    simp only [mem_cons, exists_eq_or_imp, hb, Option.some.injEq, hmem]
    exact or_congr_left eq_comm

/-- All stars of a module have a target. -/
theorem stars_eq (record : LinkedModule) (name : String) :
    ∃ targets : List String, stars record name = .all (targets.map fun target => (target, name)) ∧
      ∀ target, target ∈ targets ↔ ∃ request, .exportAll request none ∈ flat record.program ∧
        record.requests.lookup request = some target := by
  have hresolved : ∀ request ∈ (flat record.program).filterMap starRequest,
      (record.requests.lookup request).isSome := fun request hrequest =>
    record.resolved _ (mem_starRequests.1 hrequest) request rfl
  obtain ⟨targets, htargets, hmem⟩ := exists_mapM hresolved
  refine ⟨targets, by rw [stars, htargets], fun target => (hmem target).trans ?_⟩
  simp only [mem_starRequests]

theorem sound_expand (id name : String) : Sound (g := g) id name (g.expand (id, name)) := by
  rw [expand]
  dsimp only
  split
  next hrecord =>
    refine sound_leaf fun o ho => ?_
    obtain ⟨c, hc, rfl⟩ := ok_of_map ho
    exact .host hrecord hc
  next record hrecord =>
    split
    next step hfind =>
      obtain ⟨stmt, hstmt, hstep⟩ := exists_of_findSome?_eq_some hfind
      exact sound_explicit hrecord hstmt hstep
    next hfind =>
      split
      next =>
        refine sound_leaf fun o ho => ?_
        obtain ⟨c, hc, -⟩ := ok_of_map ho
        cases hc
      next hname =>
        obtain ⟨targets, heq, htargets⟩ := stars_eq record name
        rw [heq]
        refine ⟨nofun, fun node hnode o ho => ?_, fun node hnode => ?_⟩
        · obtain ⟨target, htarget, rfl⟩ := mem_map.1 hnode
          obtain ⟨request, hstmt, hlookup⟩ := (htargets target).1 htarget
          exact .star hrecord (not_exports.1 hfind) hname hstmt hlookup ho
        · obtain ⟨target, htarget, rfl⟩ := mem_map.1 hnode
          obtain ⟨request, -, hlookup⟩ := (htargets target).1 htarget
          exact ⟨record, hrecord, ⟨request, hlookup⟩, .inl rfl⟩

/-! ## What the entries lead to -/

/-- The step of an explicit export. -/
theorem expand_explicit (hrecord : g.records.lookup id = some record)
    (hstmt : stmt ∈ flat record.program) (hstep : g.explicit record id name stmt = some step) :
    g.expand (id, name) = step := by
  have hfind := findSome?_of_nodup (fun _ => (isSome_explicit g).1) record.exportsOnce hstmt hstep
  rw [expand]
  dsimp only
  rw [hrecord]
  dsimp only
  rw [hfind]

/-- The step of an import that is exported. -/
theorem localExport_imported (hstmt : stmt ∈ flat record.program)
    (hstep : g.imported record localName stmt = some step) :
    g.localExport record id name localName = step := by
  have hfind := findSome?_of_nodup (fun _ => (isSome_imported g).1) record.importsOnce hstmt hstep
  rw [localExport, hfind]
  rfl

theorem specifiersOnce {source : Option Request}
    (h : .exportNamed specifiers source ∈ flat record.program) : (specifiers.map Prod.snd).Nodup :=
  (nodup_flatMap.1 record.exportsOnce).1 _ h

theorem namedOnce (h : .importFrom request phase default named ns ∈ flat record.program) :
    (default.toList ++ named.map Prod.snd ++ ns.toList).Nodup :=
  (nodup_flatMap.1 record.importsOnce).1 _ h

/-- The step of `export { localName as name }`. -/
theorem expand_local (hrecord : g.records.lookup id = some record)
    (hexport : .exportNamed specifiers none ∈ flat record.program)
    (hspecifier : (localName, name) ∈ specifiers) :
    g.expand (id, name) = g.localExport record id name localName := by
  refine expand_explicit hrecord hexport ?_
  rw [explicit, find?_of_nodup (specifiersOnce hexport) hspecifier]

theorem withTarget_eq (h : record.requests.lookup request = some target) (k : String → Step) :
    record.withTarget request k = k target := by
  rw [LinkedModule.withTarget, h]

/-- A node is reached at which something stands. -/
def Ends (g : Graph) (node : Node) (o : Except LinkErr Value) : Prop :=
  ∃ last, Reaches g.expand node last ∧ g.expand last = .leaf (o.map some)

theorem Ends.child {child : Node} (h : child ∈ (g.expand node).children) (hends : Ends g child o) :
    Ends g node o := by
  obtain ⟨last, hreach, hlast⟩ := hends
  exact ⟨last, hreach.head h, hlast⟩

theorem Ends.next {child : Node} (h : g.expand node = .next child) (hends : Ends g child o) :
    Ends g node o :=
  hends.child (by rw [h]; exact mem_singleton.2 rfl)

theorem Ends.leaf (h : g.expand node = .leaf (o.map some)) : Ends g node o := ⟨node, .refl, h⟩

theorem namespaceOf_eq (h : g.modules.lookup target = some m) (deferred : Bool) :
    g.namespaceOf target deferred = (namespaceObject m target deferred).map some := by
  rw [namespaceOf, h]

theorem imported_default (h : record.requests.lookup request = some target) :
    g.imported record localName (.importFrom request phase (some localName) named ns) =
      some (if phase = .source then
        .leaf (.ok ((g.modules.lookup target).bind Module.sourceObject))
      else .next (target, "default")) := by
  rw [imported, if_pos rfl, withTarget_eq h]

theorem imported_named (honce : (default.toList ++ named.map Prod.snd ++ ns.toList).Nodup)
    (hspecifier : (remote, localName) ∈ named) (h : record.requests.lookup request = some target) :
    g.imported record localName (.importFrom request phase default named ns) =
      some (.next (target, remote)) := by
  have hnodup := (nodup_append.1 honce).1
  have hmem : localName ∈ named.map Prod.snd := mem_map_of_mem (f := Prod.snd) hspecifier
  have hdefault : default ≠ some localName := fun heq =>
    (nodup_append.1 hnodup).2.2 localName (by simp [heq]) localName hmem rfl
  rw [imported, if_neg hdefault, find?_of_nodup (nodup_append.1 hnodup).2.1 hspecifier]
  exact congrArg some (withTarget_eq h _)

theorem imported_namespace
    (honce : (default.toList ++ named.map Prod.snd ++ (some localName).toList).Nodup)
    (h : record.requests.lookup request = some target) :
    g.imported record localName (.importFrom request phase default named (some localName)) =
      some (.leaf (g.namespaceOf target (phase = .deferred))) := by
  have hnot : localName ∉ default.toList ++ named.map Prod.snd := fun hmem =>
    (nodup_append.1 honce).2.2 localName hmem localName (by simp) rfl
  rw [mem_append, not_or] at hnot
  have hdefault : default ≠ some localName := fun heq => hnot.1 (by simp [heq])
  have hfind : named.find? (fun specifier => specifier.2 = localName) = none := by
    rw [← Option.not_isSome_iff_eq_none, isSome_find?]
    exact hnot.2
  rw [imported, if_neg hdefault, hfind, if_pos rfl, withTarget_eq h]

/-- What the entries lead to is found. -/
theorem ends_of_leads (h : g.Leads id name o) : Ends g (id, name) o := by
  induction h with
  | host hrecord hc =>
    refine .leaf ?_
    rw [expand]
    dsimp only
    rw [hrecord, hc]
    rfl
  | exportDefault hrecord hstmt hc =>
    refine .leaf (expand_explicit hrecord hstmt ?_)
    rw [explicit, if_pos rfl]
    exact congrArg (fun v => some (Expansion.leaf (.ok v))) hc
  | exportLocal hrecord hstmt hspecifier hnot hc =>
    refine .leaf ?_
    rw [expand_local hrecord hstmt hspecifier, localExport, not_imports.2 hnot, hc]
    rfl
  | reexport hrecord hstmt hspecifier htarget _ ih =>
    refine ih.next (expand_explicit hrecord hstmt ?_)
    rw [explicit, find?_of_nodup (specifiersOnce hstmt) hspecifier]
    exact congrArg some (withTarget_eq htarget _)
  | importDefault hrecord hexport hspecifier himport hphase htarget _ ih =>
    refine ih.next ?_
    rw [expand_local hrecord hexport hspecifier,
      localExport_imported himport (imported_default htarget), if_neg hphase]
  | importSource hrecord hexport hspecifier himport htarget hm hc =>
    refine .leaf ?_
    rw [expand_local hrecord hexport hspecifier,
      localExport_imported himport (imported_default htarget), if_pos rfl, hm]
    exact congrArg (fun v => Expansion.leaf (.ok v)) hc
  | importNamed hrecord hexport hspecifier himport hnamed htarget _ ih =>
    refine ih.next ?_
    rw [expand_local hrecord hexport hspecifier,
      localExport_imported himport (imported_named (namedOnce himport) hnamed htarget)]
  | importNamespace hrecord hexport hspecifier himport htarget hm =>
    refine .leaf ?_
    rw [expand_local hrecord hexport hspecifier,
      localExport_imported himport (imported_namespace (namedOnce himport) htarget),
      namespaceOf_eq hm]
  | exportNamespace hrecord hstmt htarget hm =>
    refine .leaf (expand_explicit hrecord hstmt ?_)
    rw [explicit, if_pos rfl, withTarget_eq htarget, namespaceOf_eq hm]
  | star hrecord hnot hname hstmt htarget _ ih =>
    refine ih.child ?_
    obtain ⟨targets, heq, htargets⟩ := stars_eq _ _
    rw [expand]
    dsimp only
    rw [hrecord]
    dsimp only
    rw [not_exports.2 hnot]
    dsimp only
    rw [if_neg hname, heq]
    exact mem_map.2 ⟨_, (htargets _).2 ⟨_, hstmt, htarget⟩, rfl⟩

/-- What the entries lead to is exactly what stands where the search can come. -/
theorem leads_iff : g.Leads id name o ↔ Ends g (id, name) o := by
  refine ⟨ends_of_leads, fun ⟨last, hreach, hlast⟩ => ?_⟩
  have hall : ∀ node, Reaches g.expand node last → g.Leads node.1 node.2 o := by
    intro node hreach
    induction hreach using Relation.ReflTransGen.head_induction_on with
    | refl => exact (sound_expand last.1 last.2).leaf o hlast
    | head hchild _ ih => exact (sound_expand _ _).next _ hchild o ih
  exact hall _ hreach

/-! ## How far a search goes -/

/-- The nodes that can be come by from a module and a name. -/
def nodes (g : Graph) (id name : String) : Finset Node :=
  (id :: g.records.flatMap fun entry => entry.2.requests.map Prod.snd).toFinset ×ˢ
    (name :: "default" ::
      g.records.flatMap fun entry => (flat entry.2.program).flatMap remoteNames).toFinset

theorem mem_of_lookup [DecidableEq α] {l : List (α × β)} {a : α} (h : l.lookup a = some b) :
    (a, b) ∈ l := by
  obtain ⟨before, behind, rfl, -⟩ := lookup_eq_some_iff.1 h
  exact mem_append_right before mem_cons_self

theorem mem_nodes_self (id name : String) : (id, name) ∈ nodes g id name := by
  simp [nodes]

theorem nodes_closed {child : Node} (hnode : node ∈ nodes g id name)
    (hchild : child ∈ children g.expand node) : child ∈ nodes g id name := by
  obtain ⟨record, hrecord, ⟨request, htarget⟩, hname⟩ := (sound_expand _ _).near child hchild
  have hmem := mem_of_lookup hrecord
  rw [nodes, Finset.mem_product, mem_toFinset, mem_toFinset] at hnode ⊢
  refine ⟨mem_cons_of_mem _ (mem_flatMap.2 ⟨_, hmem, ?_⟩), ?_⟩
  · exact mem_map_of_mem (f := Prod.snd) (mem_of_lookup htarget)
  · rcases hname with hname | hname | ⟨stmt, hstmt, hremote⟩
    · rw [hname]
      exact hnode.2
    · rw [hname]
      exact mem_cons_of_mem _ mem_cons_self
    · exact mem_cons_of_mem _ (mem_cons_of_mem _ (mem_flatMap.2
        ⟨_, hmem, mem_flatMap.2 ⟨stmt, hstmt, hremote⟩⟩))

/-- As deep as a search from a module and a name can be. -/
def depthBound (g : Graph) (id name : String) : Nat := (nodes g id name).card + 1

theorem resolveExport_isSome (h : g.depthBound id name ≤ depth) :
    ∃ r, g.resolveExport depth id name = some r := by
  have hsome : (search g.expand depth [] (id, name)).isSome := by
    refine search_isSome (fun _ hv _ hw => nodes_closed hv hw) (mem_nodes_self id name) ?_
    rw [toFinset_nil, Finset.sdiff_empty]
    exact h
  obtain ⟨⟨seen, r⟩, hr⟩ := Option.isSome_iff_exists.1 hsome
  exact ⟨r, by rw [resolveExport, hr]; rfl⟩

/-! ## The answer -/

/-- What the answer of a search says about the entries. -/
structure Resolves (g : Graph) (id name : String) (r : Except LinkErr (Answer Value)) : Prop where
  binding : ∀ c, r = .ok (.found c) ↔
    g.Leads id name (.ok c) ∧ ∀ c', g.Leads id name (.ok c') → c' = c
  ambiguous : r = .ok .ambiguous ↔
    ∃ c c', c ≠ c' ∧ g.Leads id name (.ok c) ∧ g.Leads id name (.ok c')
  notFound : r = .ok .nothing ↔ ∀ c, ¬ g.Leads id name (.ok c)

/-- The only error is that a namespace object is too large. -/
theorem leads_error {e : LinkErr} (h : g.Leads id name (.error e)) : e = .namespaceTooLarge := by
  have hnamespace : ∀ m target deferred, namespaceObject m target deferred = .error e →
      e = .namespaceTooLarge := by
    intro m target deferred h
    rw [namespaceObject] at h
    split_ifs at h <;> cases h <;> rfl
  generalize ho : Except.error e = o at h
  induction h with
  | host | exportDefault | exportLocal | importSource => cases ho
  | reexport _ _ _ _ _ ih | importDefault _ _ _ _ _ _ _ ih | importNamed _ _ _ _ _ _ _ ih
  | star _ _ _ _ _ _ ih => exact ih ho
  | importNamespace | exportNamespace => exact hnamespace _ _ _ ho.symm

theorem resolves_of_answer (h : Says g.expand (id, name) r)
    (hfits : ∀ e, ¬ g.Leads id name (.error e)) : Resolves g id name r := by
  have hok : ∀ c, g.Leads id name (.ok c) ↔ ∃ w, Reaches g.expand (id, name) w ∧
      Holds g.expand w c := fun c => leads_iff
  have hunique : ∀ b, r = .ok (.found b) →
      g.Leads id name (.ok b) ∧ ∀ c, g.Leads id name (.ok c) → c = b := by
    intro b hr
    obtain ⟨hfound, honly⟩ := h.found b hr
    refine ⟨(hok b).2 hfound, fun c hc => ?_⟩
    obtain ⟨w, hreach, hholds⟩ := (hok c).1 hc
    exact honly w hreach c hholds
  have hnone : r = .ok .nothing → ∀ c, ¬ g.Leads id name (.ok c) := by
    intro hr c hc
    obtain ⟨w, hreach, hholds⟩ := (hok c).1 hc
    exact h.nothing hr w hreach c hholds
  have htwo : r = .ok .ambiguous →
      ∃ c c', c ≠ c' ∧ g.Leads id name (.ok c) ∧ g.Leads id name (.ok c') := by
    intro hr
    obtain ⟨w, w', hw, hw', a, b, hne, ha, hb⟩ := h.ambiguous hr
    exact ⟨a, b, hne, (hok a).2 ⟨w, hw, ha⟩, (hok b).2 ⟨w', hw', hb⟩⟩
  have herror : ∀ e, r ≠ .error e := by
    intro e hr
    obtain ⟨w, hreach, hfails⟩ := h.error e hr
    exact hfits e (leads_iff.2 ⟨w, hreach, hfails⟩)
  match r with
  | .error e => exact absurd rfl (herror e)
  | .ok (.found b) =>
    obtain ⟨hb, honly⟩ := hunique b rfl
    refine ⟨fun c => ⟨fun hr => ?_, fun hc => ?_⟩, ⟨fun hr => ?_, fun hc => ?_⟩,
      ⟨fun hr => ?_, fun hc => absurd hb (hc b)⟩⟩
    · cases hr
      exact ⟨hb, honly⟩
    · rw [hc.2 b hb]
    · cases hr
    · obtain ⟨c, c', hne, hleft, hright⟩ := hc
      exact absurd ((honly c hleft).trans (honly c' hright).symm) hne
    · cases hr
  | .ok .nothing =>
    have hno := hnone rfl
    refine ⟨fun c => ⟨fun hr => ?_, fun hc => absurd hc.1 (hno c)⟩,
      ⟨fun hr => ?_, fun ⟨c, _, _, hc, _⟩ => absurd hc (hno c)⟩, ⟨fun _ => hno, fun _ => rfl⟩⟩
    · cases hr
    · cases hr
  | .ok .ambiguous =>
    obtain ⟨c, c', hne, hc, hc'⟩ := htwo rfl
    refine ⟨fun b => ⟨fun hr => ?_, fun hb => ?_⟩, ⟨fun _ => ⟨c, c', hne, hc, hc'⟩, fun _ => rfl⟩,
      ⟨fun hr => ?_, fun hno => absurd hc (hno c)⟩⟩
    · cases hr
    · exact absurd ((hb.2 c hc).trans (hb.2 c' hc').symm) hne
    · cases hr

theorem says_of_resolveExport (h : g.resolveExport depth id name = some r) :
    Says g.expand (id, name) r := by
  obtain ⟨⟨seen, r⟩, hsearch, rfl⟩ := Option.map_eq_some_iff.1 h
  exact search_spec hsearch

/-! ## The order of the entries -/

/-- The same graph with the statements of its programs in another order. -/
structure Reordered (g g' : Graph) : Prop where
  modules : g'.modules = g.modules
  records : List.Forall₂ (fun a b => a.1 = b.1 ∧ a.2.requests = b.2.requests ∧
    (flat a.2.program).Perm (flat b.2.program)) g.records g'.records

variable {g' : Graph}

section

variable (h : Reordered g g')

include h

theorem Reordered.lookup (id : String) :
    (g.records.lookup id = none → g'.records.lookup id = none) ∧
    ∀ record, g.records.lookup id = some record → ∃ record', g'.records.lookup id = some record' ∧
      record'.requests = record.requests ∧ (flat record.program).Perm (flat record'.program) := by
  have hrecords := h.records
  generalize g.records = l at hrecords
  generalize g'.records = l' at hrecords
  induction hrecords with
  | nil => exact ⟨fun _ => rfl, fun _ h => nomatch h⟩
  | @cons a b l l' hab _ ih =>
    obtain ⟨a, record⟩ := a
    obtain ⟨b, record'⟩ := b
    obtain ⟨rfl, hrequests, hperm⟩ := hab
    by_cases hid : id = a
    · subst hid
      rw [lookup_cons_self, lookup_cons_self]
      refine ⟨nofun, fun _ heq => ?_⟩
      cases heq
      exact ⟨record', rfl, hrequests.symm, hperm⟩
    · rw [lookup_cons, lookup_cons, beq_eq_false_iff_ne.2 hid]
      exact ih

/-- What the entries lead to does not depend on their order. -/
theorem Reordered.leads (hleads : g.Leads id name o) : g'.Leads id name o := by
  have hexported : ∀ id name, g'.exported id name = g.exported id name := fun id name => by
    rw [exported, exported, h.modules]
  induction hleads with
  | host hrecord hc => exact .host ((h.lookup _).1 hrecord) ((hexported _ _).trans hc)
  | exportDefault hrecord hstmt hc =>
    obtain ⟨record', hrecord', -, hperm⟩ := (h.lookup _).2 _ hrecord
    exact .exportDefault hrecord' (hperm.mem_iff.1 hstmt) ((hexported _ _).trans hc)
  | exportLocal hrecord hstmt hspecifier hnot hc =>
    obtain ⟨record', hrecord', -, hperm⟩ := (h.lookup _).2 _ hrecord
    refine .exportLocal hrecord' (hperm.mem_iff.1 hstmt) hspecifier ?_ ((hexported _ _).trans hc)
    exact fun ⟨stmt, himport, hname⟩ => hnot ⟨stmt, hperm.mem_iff.2 himport, hname⟩
  | reexport hrecord hstmt hspecifier htarget _ ih =>
    obtain ⟨record', hrecord', hrequests, hperm⟩ := (h.lookup _).2 _ hrecord
    exact .reexport hrecord' (hperm.mem_iff.1 hstmt) hspecifier (hrequests ▸ htarget) ih
  | importDefault hrecord hexport hspecifier himport hphase htarget _ ih =>
    obtain ⟨record', hrecord', hrequests, hperm⟩ := (h.lookup _).2 _ hrecord
    exact .importDefault hrecord' (hperm.mem_iff.1 hexport) hspecifier
      (hperm.mem_iff.1 himport) hphase (hrequests ▸ htarget) ih
  | importSource hrecord hexport hspecifier himport htarget hm hc =>
    obtain ⟨record', hrecord', hrequests, hperm⟩ := (h.lookup _).2 _ hrecord
    exact .importSource hrecord' (hperm.mem_iff.1 hexport) hspecifier
      (hperm.mem_iff.1 himport) (hrequests ▸ htarget) (h.modules ▸ hm) hc
  | importNamed hrecord hexport hspecifier himport hnamed htarget _ ih =>
    obtain ⟨record', hrecord', hrequests, hperm⟩ := (h.lookup _).2 _ hrecord
    exact .importNamed hrecord' (hperm.mem_iff.1 hexport) hspecifier
      (hperm.mem_iff.1 himport) hnamed (hrequests ▸ htarget) ih
  | importNamespace hrecord hexport hspecifier himport htarget hm =>
    obtain ⟨record', hrecord', hrequests, hperm⟩ := (h.lookup _).2 _ hrecord
    exact .importNamespace hrecord' (hperm.mem_iff.1 hexport) hspecifier
      (hperm.mem_iff.1 himport) (hrequests ▸ htarget) (h.modules ▸ hm)
  | exportNamespace hrecord hstmt htarget hm =>
    obtain ⟨record', hrecord', hrequests, hperm⟩ := (h.lookup _).2 _ hrecord
    exact .exportNamespace hrecord' (hperm.mem_iff.1 hstmt) (hrequests ▸ htarget) (h.modules ▸ hm)
  | star hrecord hnot hname hstmt htarget _ ih =>
    obtain ⟨record', hrecord', hrequests, hperm⟩ := (h.lookup _).2 _ hrecord
    refine .star hrecord' ?_ hname (hperm.mem_iff.1 hstmt) (hrequests ▸ htarget) ih
    exact fun ⟨stmt, hstmt, hname⟩ => hnot ⟨stmt, hperm.mem_iff.2 hstmt, hname⟩

theorem Reordered.symm : Reordered g' g where
  modules := h.modules.symm
  records := (h.records.flip).imp fun _ _ ⟨hid, hrequests, hperm⟩ =>
    ⟨hid.symm, hrequests.symm, hperm.symm⟩

theorem Reordered.leads_iff : g'.Leads id name o ↔ g.Leads id name o :=
  ⟨h.symm.leads, h.leads⟩

omit h in
/-- An answer is determined by what it says. -/
theorem Resolves.unique {r' : Except LinkErr (Answer Value)} (h : Resolves g id name r)
    (h' : Resolves g id name r') : r = r' := by
  by_cases hsome : ∃ c, g.Leads id name (.ok c)
  · obtain ⟨c, hc⟩ := hsome
    by_cases honly : ∀ c', g.Leads id name (.ok c') → c' = c
    · exact ((h.binding c).2 ⟨hc, honly⟩).trans ((h'.binding c).2 ⟨hc, honly⟩).symm
    · simp only [not_forall] at honly
      obtain ⟨c', hc', hne⟩ := honly
      have htwo : ∃ a b, a ≠ b ∧ g.Leads id name (.ok a) ∧ g.Leads id name (.ok b) :=
        ⟨c', c, hne, hc', hc⟩
      exact (h.ambiguous.2 htwo).trans (h'.ambiguous.2 htwo).symm
  · have hnone : ∀ c, ¬ g.Leads id name (.ok c) := fun c hc => hsome ⟨c, hc⟩
    exact (h.notFound.2 hnone).trans (h'.notFound.2 hnone).symm

theorem Reordered.resolves (hr : Resolves g' id name r) : Resolves g id name r := by
  obtain ⟨hbinding, hambiguous, hnotFound⟩ := hr
  simp only [h.leads_iff] at hbinding hambiguous hnotFound
  exact ⟨hbinding, hambiguous, hnotFound⟩

end

/-- The search ends, and its answer says what the entries lead to, in whatever order they stand;
it fails only where a namespace object is too large. -/
theorem resolveExport_leads (g : Graph) (id name : String) :
    ∃ bound, ∀ depth, bound ≤ depth → ∃ r, g.resolveExport depth id name = some r ∧
      (∀ e, r = .error e → e = .namespaceTooLarge ∧ g.Leads id name (.error e)) ∧
      ((∀ e, ¬ g.Leads id name (.error e)) → Resolves g id name r ∧
        ∀ g', Reordered g g' → ∃ bound', ∀ depth', bound' ≤ depth' →
          g'.resolveExport depth' id name = some r) := by
  refine ⟨g.depthBound id name, fun depth hdepth => ?_⟩
  obtain ⟨r, hr⟩ := resolveExport_isSome hdepth
  have hsays := says_of_resolveExport hr
  refine ⟨r, hr, fun e he => ?_, fun hfits => ⟨resolves_of_answer hsays hfits, fun g' hg' => ?_⟩⟩
  · obtain ⟨w, hreach, hfails⟩ := hsays.error e he
    have hends : Ends g (id, name) (.error e) := ⟨w, hreach, hfails⟩
    have hleads := leads_iff.2 hends
    exact ⟨leads_error hleads, hleads⟩
  · refine ⟨g'.depthBound id name, fun depth' hdepth' => ?_⟩
    obtain ⟨r', hr'⟩ := resolveExport_isSome hdepth'
    have hfits' : ∀ e, ¬ g'.Leads id name (.error e) := fun e he => hfits e (hg'.symm.leads he)
    have hresolves' := resolves_of_answer (says_of_resolveExport hr') hfits'
    rw [hr', (resolves_of_answer hsays hfits).unique (hg'.resolves hresolves')]

theorem namespaceObject_tooLarge (hmade : m.namespaceMade = false)
    (hlength : maxObjectProps < m.exports.length) :
    namespaceObject m id false = .error .namespaceTooLarge := by
  have htoo : maxObjectProps < m.exports.length + m.default.toList.length :=
    hlength.trans_le (Nat.le_add_right _ _)
  simp [namespaceObject, hmade, htoo]

/-- A module with one export more than an object may have. -/
def wideModule : Module where
  default := none
  exports := (List.range (maxObjectProps + 1)).map fun i =>
    (String.ofList (List.replicate i 'x'), .binding i)
  sourceObject := none
  namespaceMade := false
  deferredMade := false
  exportsOnce := by
    rw [List.map_map]
    refine List.Nodup.map (fun i j h => ?_) List.nodup_range
    have hlists := congrArg List.length (String.ofList_injective h)
    simpa using hlists

def wideRequest : Request := ⟨[], []⟩

/-- `export * as ns from` that module. -/
def wideGraph : Graph where
  records := [("a", ⟨[.exportAll wideRequest (some "ns")], [(wideRequest, "b")],
    by
      intro stmt hstmt request hrequest
      obtain rfl := List.mem_singleton.1 hstmt
      cases hrequest
      rfl,
    by decide, by decide⟩)]
  modules := [("b", wideModule)]

theorem resolveExport_wide :
    wideGraph.resolveExport (wideGraph.depthBound "a" "ns" + 1) "a" "ns" =
      some (.error .namespaceTooLarge) := by
  have hlength : maxObjectProps < wideModule.exports.length := by
    rw [wideModule, List.length_map, List.length_range]
    exact Nat.lt_succ_self maxObjectProps
  have htoo : namespaceObject wideModule "b" false = .error .namespaceTooLarge :=
    namespaceObject_tooLarge rfl hlength
  have hexpand : wideGraph.expand ("a", "ns") = .leaf (.error .namespaceTooLarge) := by
    refine expand_explicit List.lookup_cons_self (List.mem_singleton.2 rfl) ?_
    rw [explicit, if_pos rfl, withTarget_eq List.lookup_cons_self,
      namespaceOf_eq List.lookup_cons_self, htoo]
    rfl
  rw [resolveExport, search, if_neg List.not_mem_nil, hexpand]
  rfl

end Graph

end NapiVm.Linking
