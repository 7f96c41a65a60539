import NapiVm.Value.Basic

/-!
# The module graph

The records of `module_link.rs` and the parts of `asynchronous.rs` that only read or
rewrite them: which asynchronous modules a deferred import has to start, and the cycle
roots that back edges give to the modules on the way.  Modules are known by number; the
engine uses their names for nothing but equality.
-/

namespace NapiVm.Modules

/-- `ImportPhase`. -/
inductive ImportPhase where
  | evaluation
  | deferred
  | source
  deriving DecidableEq, Repr

/-- `ModuleState`. -/
inductive ModuleState where
  | linked
  | evaluating
  | evaluated
  | failed (value : Value)
  deriving DecidableEq, Repr

/-- What a module asks for, as far as evaluation reads it. -/
abbrev ModuleRequest := Nat × ImportPhase

/-- `LinkedModule`, with how often its body was started. -/
structure LinkedModule where
  requests : List ModuleRequest
  hasTla : Bool
  cycleRoot : Option Nat
  state : ModuleState
  evaluation : Option Nat
  started : Nat
  deriving DecidableEq, Repr

/-- The records, by module. -/
abbrev Records := PMap Nat LinkedModule

/-- A module that was just linked. -/
def freshModule (requests : List ModuleRequest) (hasTla : Bool) : LinkedModule where
  requests := requests
  hasTla := hasTla
  cycleRoot := none
  state := .linked
  evaluation := none
  started := 0

namespace Records

/-- Change one record. -/
def modify (records : Records) (id : Nat) (f : LinkedModule → LinkedModule) : Records :=
  match records id with
  | some record => records.insert id (f record)
  | none => records

theorem modify_self (records : Records) (id : Nat) (f : LinkedModule → LinkedModule) :
    records.modify id f id = (records id).map f := by
  unfold modify
  cases h : records id with
  | none => exact h
  | some record => simp

theorem modify_of_ne (records : Records) {id id' : Nat} (f : LinkedModule → LinkedModule)
    (h : id' ≠ id) : records.modify id f id' = records id' := by
  unfold modify
  cases records id with
  | none => rfl
  | some record => exact PMap.insert_of_ne h

/-- The cycle root of a module. -/
def cycleRoot (records : Records) (id : Nat) : Option Nat :=
  (records id).bind LinkedModule.cycleRoot

/-- The evaluation promise of a module. -/
def evaluation (records : Records) (id : Nat) : Option Nat :=
  (records id).bind LinkedModule.evaluation

/-- The root of a completed module's cycle, while the cycle is under way. -/
def activeRoot (records : Records) (record : LinkedModule) : Option Nat :=
  if record.state = .evaluated then
    record.cycleRoot.filter fun root =>
      (records root).any fun r => decide (r.state = .evaluating)
  else none

/-- `gather_async_dependencies`, which adds to the modules seen and to those found; the
fuel bounds the depth, which the number of records does too. -/
def gatherAsyncDependencies (records : Records) :
    Nat → Nat → List Nat × List Nat → List Nat × List Nat
  | 0, _, acc => acc
  | fuel + 1, id, (seen, out) =>
    if id ∈ seen then (seen, out)
    else
      let seen := id :: seen
      match records id with
      | none => (seen, out)
      | some record =>
        match record.state, records.activeRoot record with
        | .failed _, _ => (seen, out)
        | _, some root => (seen, out ++ [root])
        | state, none =>
          if record.hasTla && (state = .linked || state = .evaluating) then
            (seen, out ++ [id])
          else
            record.requests.foldl
              (fun acc request =>
                if request.2 = .source then acc
                else gatherAsyncDependencies records fuel request.1 acc)
              (seen, out)

/-- Where a back edge to `dependency` makes the cycle start on the path: at the module it
goes to, or at an earlier one that a cycle on the way already reaches. -/
def cycleStart (records : Records) (ancestors : List Nat) (dependency : Nat) : Nat :=
  let start := ancestors.idxOf dependency
  (ancestors.drop start).foldl
    (fun start id =>
      match records.cycleRoot id with
      | some root => if root ∈ ancestors then min start (ancestors.idxOf root) else start
      | none => start)
    start

/-- The modules of a cycle, and those that share a root with one, get its root. -/
def joinCycle (records : Records) (members : List Nat) (root : Nat) : Records :=
  fun id => (records id).map fun record =>
    if id ∈ members ∨ (record.cycleRoot.any fun root => decide (root ∈ members)) = true then
      { record with cycleRoot := some root }
    else record

/-- `record_async_cycle`, for a path from the module that was started on. -/
def recordAsyncCycle (records : Records) (ancestors : List Nat) (dependency : Nat) : Records :=
  let start := records.cycleStart ancestors dependency
  let cycle := ancestors.drop start
  records.joinCycle (cycle ++ cycle.filterMap records.cycleRoot) (ancestors.getD start dependency)

end Records

end NapiVm.Modules
