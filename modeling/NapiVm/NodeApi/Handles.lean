import NapiVm.Lib.Action
import NapiVm.Lib.HashTable
import Mathlib.Algebra.Group.Nat.Defs

/-!
# Handles of native addons

An addon holds values by opaque tokens.  A token stands for a slot of the arena and for the
generation the slot was in; slots are used again, generations are not.  Scopes say how long
handles live: closing one gives its slots back.

* `NapiHandleArena` — slots, scopes, and the tables of tokens.
* `createInScope`, `get`, `openScope`, `closeScope`, `escapeHandle` — its operations, over the
  process, which hands out the tokens.
-/

namespace NapiVm.NodeApi

/-- The statuses that the operations return. -/
inductive Status where
  | invalidArg
  | genericFailure
  | escapeCalledTwice
  | handleScopeMismatch
  deriving DecidableEq, Repr

def Status.code : Status → Nat
  | .invalidArg => 1
  | .genericFailure => 9
  | .escapeCalledTwice => 12
  | .handleScopeMismatch => 13

/-- `MAX_LOCAL_HANDLES`. -/
def maxLocalHandles : Nat := 1048576

structure HandleRef where
  slot : Nat
  generation : Nat
  deriving DecidableEq, Repr

structure HandleSlot (α : Type) where
  generation : Nat
  value : Option α

structure HandleScope where
  id : Nat
  slots : List Nat
  escapable : Bool
  escapeUsed : Bool

/-- The arena.  The free slot that is used next comes first, and so does the outermost scope. -/
structure NapiHandleArena (α : Type) where
  slots : List (HandleSlot α)
  freeSlots : List Nat
  scopes : List HandleScope
  nextScopeId : Nat
  handles : HashTable Nat HandleRef
  scopeHandles : HashTable Nat (Nat × Bool)

/-- An arena, and `NEXT_OPAQUE_HANDLE_ID`, which it shares with the rest of the process. -/
structure Process (α : Type) where
  arena : NapiHandleArena α
  nextOpaqueHandleId : Nat

/-- `default`, in a process that has handed out some tokens. -/
def Process.initial (α : Type) (nextOpaqueHandleId : Nat) : Process α where
  arena :=
    { slots := [], freeSlots := [], scopes := [⟨0, [], false, false⟩], nextScopeId := 1,
      handles := .empty, scopeHandles := .empty }
  nextOpaqueHandleId

namespace NapiHandleArena

variable {α : Type}

/-- A free slot, or a new one. -/
def takeSlot (arena : NapiHandleArena α) : Nat × NapiHandleArena α :=
  match arena.freeSlots with
  | index :: freeSlots => (index, { arena with freeSlots })
  | [] => (arena.slots.length, { arena with slots := arena.slots ++ [⟨1, none⟩] })

/-- Put a value into a slot, and the slot into a scope.  There is no such slot where the source
panics. -/
def fill (arena : NapiHandleArena α) (index : Nat) (value : α) (scopeIndex pointer : Nat) :
    Option (NapiHandleArena α) :=
  arena.slots[index]?.map fun slot =>
    { arena with
      slots := arena.slots.set index ⟨slot.generation, some value⟩
      scopes := arena.scopes.modify scopeIndex fun scope =>
        { scope with slots := scope.slots ++ [index] }
      handles := arena.handles.insert pointer ⟨index, slot.generation⟩ }

/-- `get`. -/
def get (arena : NapiHandleArena α) (pointer : Nat) : Outcome Status α :=
  match arena.handles.get pointer with
  | none => .err .invalidArg
  | some handle =>
    match arena.slots[handle.slot]? with
    | none => .err .invalidArg
    | some slot =>
      if slot.generation ≠ handle.generation then .err .invalidArg
      else
        match slot.value with
        | none => .err .invalidArg
        | some value => .ok value

/-- What `close_scope` does with a slot: its handles are dropped, and it is free again unless its
generations are used up. -/
def release (arena : NapiHandleArena α) (index : Nat) : Option (NapiHandleArena α) :=
  arena.slots[index]?.map fun slot =>
    let handles := arena.handles.retain fun _ handle =>
      decide (handle.slot ≠ index) || decide (handle.generation ≠ slot.generation)
    if slot.generation + 1 < 2 ^ 64 then
      { arena with
        handles
        slots := arena.slots.set index ⟨slot.generation + 1, none⟩
        freeSlots := index :: arena.freeSlots }
    else { arena with handles, slots := arena.slots.set index ⟨slot.generation, none⟩ }

/-- A change of the innermost scope. -/
def modifyTop (arena : NapiHandleArena α) (f : HandleScope → HandleScope) : NapiHandleArena α :=
  { arena with scopes := arena.scopes.modify (arena.scopes.length - 1) f }

end NapiHandleArena

open NapiHandleArena

variable {α : Type}

/-- `new_opaque_handle`. -/
def newOpaqueHandle : Action (Process α) Status Nat := fun process =>
  if process.nextOpaqueHandleId + 1 < 2 ^ 64 then
    (.ok process.nextOpaqueHandleId,
      { process with nextOpaqueHandleId := process.nextOpaqueHandleId + 1 })
  else (.err .genericFailure, process)

/-- `create_in_scope`. -/
def createInScope (value : α) (scopeIndex : Nat) : Action (Process α) Status Nat := fun process =>
  if maxLocalHandles ≤ process.arena.handles.len then (.err .genericFailure, process)
  else if process.arena.scopes.length ≤ scopeIndex then (.err .handleScopeMismatch, process)
  else newOpaqueHandle.andThen (fun pointer process =>
    let (index, arena) := process.arena.takeSlot
    match arena.fill index value scopeIndex pointer with
    | none => (.panic, process)
    | some arena => (.ok pointer, { process with arena })) process

/-- `create`. -/
def create (value : α) : Action (Process α) Status Nat := fun process =>
  createInScope value (process.arena.scopes.length - 1) process

/-- `open_scope`. -/
def openScope : Action (Process α) Status Nat := fun process =>
  let id := process.arena.nextScopeId
  if id + 1 < 2 ^ 64 then
    (.ok id, { process with
      arena := { process.arena with
        nextScopeId := id + 1
        scopes := process.arena.scopes ++ [⟨id, [], false, false⟩] } })
  else (.err .genericFailure, process)

/-- `open_escapable_scope`. -/
def openEscapableScope : Action (Process α) Status Nat :=
  openScope.andThen fun id process =>
    (.ok id, { process with
      arena := process.arena.modifyTop fun scope => { scope with escapable := true } })

/-- `create_scope_handle`. -/
def createScopeHandle (id : Nat) (escapable : Bool) : Action (Process α) Status Nat :=
  fun process =>
    if maxLocalHandles ≤ process.arena.scopeHandles.len then (.err .genericFailure, process)
    else newOpaqueHandle.andThen (fun pointer process =>
      (.ok pointer, { process with
        arena := { process.arena with
          scopeHandles := process.arena.scopeHandles.insert pointer (id, escapable) } })) process

/-- `close_scope`. -/
def closeScope (id : Nat) : Action (Process α) Status Unit := fun process =>
  match process.arena.scopes.getLast? with
  | none => (.err .invalidArg, process)
  | some scope =>
    if process.arena.scopes.length ≤ 1 ∨ scope.id ≠ id then (.err .invalidArg, process)
    else
      match scope.slots.foldlM release
        { process.arena with scopes := process.arena.scopes.dropLast } with
      | none => (.panic, process)
      | some arena => (.ok (), { process with arena })

/-- `close_scope_handle_with_kind`. -/
def closeScopeHandleWithKind (pointer : Nat) (escapable : Bool) :
    Action (Process α) Status Unit := fun process =>
  match process.arena.scopeHandles.get pointer with
  | none => (.err .invalidArg, process)
  | some (id, actualEscapable) =>
    if actualEscapable ≠ escapable then (.err .handleScopeMismatch, process)
    else (closeScope id).andThen (fun _ process =>
      (.ok (), { process with
        arena := { process.arena with
          scopeHandles := process.arena.scopeHandles.remove pointer } })) process

/-- `close_scope_handle`. -/
def closeScopeHandle (pointer : Nat) : Action (Process α) Status Unit :=
  closeScopeHandleWithKind pointer false

/-- `close_escapable_scope_handle`. -/
def closeEscapableScopeHandle (pointer : Nat) : Action (Process α) Status Unit :=
  closeScopeHandleWithKind pointer true

/-- `escape_handle`. -/
def escapeHandle (scopePointer escapee : Nat) : Action (Process α) Status Nat := fun process =>
  match process.arena.scopeHandles.get scopePointer, process.arena.scopes.getLast? with
  | none, _ => (.err .invalidArg, process)
  | some _, none => (.err .handleScopeMismatch, process)
  | some (id, escapable), some scope =>
    if !escapable || decide (process.arena.scopes.length ≤ 1) then
      (.err .handleScopeMismatch, process)
    else if decide (scope.id ≠ id) || !scope.escapable then
      (.err .handleScopeMismatch, process)
    else if scope.escapeUsed then (.err .escapeCalledTwice, process)
    else
      match process.arena.handles.get escapee with
      | none => (.err .invalidArg, process)
      | some handle =>
        if !scope.slots.contains handle.slot then (.err .handleScopeMismatch, process)
        else
          match process.arena.get escapee with
          | .err status => (.err status, process)
          | .panic => (.panic, process)
          | .ok value =>
            (createInScope value (process.arena.scopes.length - 2)).andThen
              (fun escaped process =>
                (.ok escaped, { process with
                  arena := process.arena.modifyTop fun scope =>
                    { scope with escapeUsed := true } })) process

end NapiVm.NodeApi
