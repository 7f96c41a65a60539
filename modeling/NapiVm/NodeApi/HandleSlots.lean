import NapiVm.NodeApi.Handles
import Mathlib.Data.List.Perm.Basic
import Mathlib.Data.List.Range

/-!
# Slots of handles

* `takeSlot_spec` — the slot that a handle gets.
* `flatMap_push`, `modify_concat`, `modifyTop_eq` — scopes that change.
* `Released`, `foldlM_release_spec` — what becomes of an arena when slots are given back.
-/

namespace NapiVm.NodeApi

open List

variable {α : Type}

/-! ## Slots -/

section Slots

variable {arena : NapiHandleArena α}

namespace NapiHandleArena

theorem takeSlot_spec {others : List Nat}
    (hperm : (arena.freeSlots ++ others).Perm (List.range arena.slots.length)) :
    ∃ index slots freeSlots, arena.takeSlot = (index, { arena with slots, freeSlots }) ∧
      (∃ slot, slots[index]? = some slot) ∧
      (index :: (freeSlots ++ others)).Perm (List.range slots.length) ∧
      ∀ (j : Nat) (slot : HandleSlot α), arena.slots[j]? = some slot → slots[j]? = some slot := by
  rw [takeSlot]
  cases hfree : arena.freeSlots with
  | cons index freeSlots =>
    rw [hfree] at hperm
    have hlt : index < arena.slots.length :=
      mem_range.1 (hperm.subset mem_cons_self)
    exact ⟨index, arena.slots, freeSlots, rfl, ⟨_, getElem?_eq_getElem hlt⟩, hperm, fun _ _ h => h⟩
  | nil =>
    rw [hfree] at hperm
    refine ⟨arena.slots.length, arena.slots ++ [⟨1, none⟩], [], rfl, ?_, ?_, ?_⟩
    · exact ⟨_, getElem?_concat_length⟩
    · rw [length_append, length_singleton, range_succ]
      exact (hperm.cons _).trans (perm_append_singleton _ _).symm
    · intro j slot h
      rw [getElem?_append_left (List.getElem?_eq_some_iff.1 h).1]
      exact h

end NapiHandleArena

variable {scopes : List HandleScope} {i : Nat} {scope : HandleScope}

theorem flatMap_push (hi : i < scopes.length) (index : Nat) :
    ((scopes.modify i fun scope => { scope with slots := scope.slots ++ [index] }).flatMap
      HandleScope.slots).Perm (index :: scopes.flatMap HandleScope.slots) := by
  induction scopes generalizing i with
  | nil => exact absurd hi (Nat.not_lt_zero i)
  | cons scope scopes ih =>
    cases i with
    | zero =>
      rw [modify_zero_cons, flatMap_cons, flatMap_cons, append_assoc]
      exact perm_middle
    | succ i =>
      rw [modify_succ_cons, flatMap_cons, flatMap_cons]
      exact ((ih (Nat.lt_of_succ_lt_succ hi)).append_left _).trans perm_middle

variable {f : HandleScope → HandleScope} {outer : List HandleScope}

/-- What a changed scope comes from. -/
theorem mem_modify (h : scope ∈ scopes.modify i f) :
    ∃ j old, scopes[j]? = some old ∧ scope = if i = j then f old else old := by
  obtain ⟨j, hj⟩ := mem_iff_getElem?.1 h
  rw [getElem?_modify] at hj
  obtain ⟨old, hold, rfl⟩ := Option.map_eq_some_iff.1 hj
  exact ⟨j, old, hold, rfl⟩

theorem ids_modify (hf : ∀ scope, (f scope).id = scope.id) :
    (scopes.modify i f).map HandleScope.id = scopes.map HandleScope.id := by
  refine ext_getElem? fun j => ?_
  rw [getElem?_map, getElem?_map, getElem?_modify]
  cases scopes[j]? with
  | none => rfl
  | some scope =>
    change some (if i = j then f scope else scope).id = some scope.id
    split
    · rw [hf]
    · rfl

/-- A change of a scope that is not the innermost one. -/
theorem modify_concat (hi : i < outer.length) (f : HandleScope → HandleScope) :
    (outer ++ [scope]).modify i f = outer.modify i f ++ [scope] := by
  induction outer generalizing i with
  | nil => exact absurd hi (Nat.not_lt_zero i)
  | cons first outer ih =>
    cases i with
    | zero => rfl
    | succ i =>
      rw [cons_append, modify_succ_cons, ih (Nat.lt_of_succ_lt_succ hi),
        modify_succ_cons, cons_append]

theorem modifyTop_eq (hscopes : arena.scopes = outer ++ [scope]) (f : HandleScope → HandleScope) :
    arena.modifyTop f = { arena with scopes := outer ++ [f scope] } := by
  rw [NapiHandleArena.modifyTop, hscopes, length_append, length_singleton,
    Nat.add_sub_cancel, modify_eq_take_drop, take_left, drop_left]
  rfl

end Slots
/-! ## Giving slots back -/

/-- The slots among these that are in their last generation. -/
def NapiHandleArena.usedUp (arena : NapiHandleArena α) (indices : List Nat) : List Nat :=
  indices.filter fun index =>
    arena.slots[index]?.any fun slot => decide (2 ^ 64 ≤ slot.generation + 1)

namespace NapiHandleArena

/-- What becomes of an arena when these slots are given back. -/
structure Released (arena after : NapiHandleArena α) (indices : List Nat) : Prop where
  scopes : after.scopes = arena.scopes
  nextScopeId : after.nextScopeId = arena.nextScopeId
  scopeHandles : after.scopeHandles = arena.scopeHandles
  length : after.slots.length = arena.slots.length
  others : ∀ j ∉ indices, after.slots[j]? = arena.slots[j]?
  handles : ∀ pointer handle, after.handles.get pointer = some handle ↔
    arena.handles.get pointer = some handle ∧
      (handle.slot ∈ indices →
        ∀ slot, arena.slots[handle.slot]? = some slot → handle.generation ≠ slot.generation)
  slots_perm : (after.freeSlots ++ arena.usedUp indices).Perm (indices ++ arena.freeSlots)

variable {arena : NapiHandleArena α}

theorem get_ne_panic (arena : NapiHandleArena α) (pointer : Nat) : arena.get pointer ≠ .panic := by
  intro h
  rw [get] at h
  split at h
  · cases h
  · split at h
    · cases h
    · split at h
      · cases h
      · split at h <;> cases h

theorem release_spec {index : Nat} (hindex : index < arena.slots.length) :
    ∃ after, arena.release index = some after ∧ Released arena after [index] := by
  have hslot := getElem?_eq_getElem hindex
  generalize arena.slots[index] = slot at hslot
  have hhandles (pointer : Nat) (handle : HandleRef) :
      (arena.handles.retain fun _ handle =>
        decide (handle.slot ≠ index) || decide (handle.generation ≠ slot.generation)).get pointer =
          some handle ↔ arena.handles.get pointer = some handle ∧
            (handle.slot ∈ [index] → ∀ slot, arena.slots[handle.slot]? = some slot →
              handle.generation ≠ slot.generation) := by
    rw [HashTable.get_retain, Bool.or_eq_true, decide_eq_true_eq, decide_eq_true_eq, mem_singleton]
    refine and_congr_right fun _ => ?_
    constructor
    · rintro hkeep rfl other hother
      rw [hslot] at hother
      cases hother
      exact hkeep.resolve_left fun hne => hne rfl
    · intro hall
      by_cases hsame : handle.slot = index
      · exact .inr (hall hsame slot (hsame ▸ hslot))
      · exact .inl hsame
  have hothers {value : HandleSlot α} (j : Nat) (hj : j ∉ [index]) :
      (arena.slots.set index value)[j]? = arena.slots[j]? :=
    getElem?_set_ne fun heq => hj (mem_singleton.2 heq.symm)
  rw [release, hslot, Option.map_some]
  refine ⟨_, rfl, ?_⟩
  dsimp only
  split
  · next hmore =>
      refine ⟨rfl, rfl, rfl, length_set, hothers, hhandles, ?_⟩
      have hnone : arena.usedUp [index] = [] := by
        rw [usedUp, filter_cons_of_neg, filter_nil]
        rw [hslot, Option.any_some, decide_eq_true_eq]
        omega
      rw [hnone, append_nil]
      exact .refl _
  · next hlast =>
      refine ⟨rfl, rfl, rfl, length_set, hothers, hhandles, ?_⟩
      have hone : arena.usedUp [index] = [index] := by
        rw [usedUp, filter_cons_of_pos, filter_nil]
        rw [hslot, Option.any_some, decide_eq_true_eq]
        omega
      rw [hone]
      exact perm_append_comm

/-- The slots of a scope are given back one by one; none of them is there twice. -/
theorem foldlM_release_spec {indices : List Nat} (hnodup : indices.Nodup) :
    ∀ {arena : NapiHandleArena α}, (∀ index ∈ indices, index < arena.slots.length) →
      ∃ after, indices.foldlM release arena = some after ∧ Released arena after indices := by
  induction indices with
  | nil =>
    intro arena _
    refine ⟨arena, rfl, rfl, rfl, rfl, rfl, fun _ _ => rfl, fun pointer handle => ?_, ?_⟩
    · exact ⟨fun h => ⟨h, fun hmem => absurd hmem not_mem_nil⟩, fun h => h.1⟩
    · rw [usedUp, filter_nil, append_nil, nil_append]
  | cons index indices ih =>
    intro arena hlt
    obtain ⟨hnotin, hnodup⟩ := nodup_cons.1 hnodup
    obtain ⟨middle, hmiddle, hone⟩ := release_spec (hlt index mem_cons_self)
    obtain ⟨after, hafter, hrest⟩ := ih hnodup fun j hj => by
      rw [hone.length]
      exact hlt j (mem_cons_of_mem _ hj)
    have hsame (j : Nat) (hj : j ∈ indices) : middle.slots[j]? = arena.slots[j]? :=
      hone.others j fun hmem => hnotin (mem_singleton.1 hmem ▸ hj)
    refine ⟨after, ?_, ?_⟩
    · rw [foldlM_cons, hmiddle]
      exact hafter
    · refine ⟨hrest.scopes.trans hone.scopes, hrest.nextScopeId.trans hone.nextScopeId,
        hrest.scopeHandles.trans hone.scopeHandles, hrest.length.trans hone.length, ?_, ?_, ?_⟩
      · intro j hj
        rw [mem_cons, not_or] at hj
        rw [hrest.others j hj.2, hone.others j (by rw [mem_singleton]; exact hj.1)]
      · intro pointer handle
        rw [hrest.handles, hone.handles, and_assoc, mem_singleton, mem_cons]
        refine and_congr_right fun _ => ?_
        constructor
        · rintro ⟨hfirst, hothers⟩ (heq | hmem)
          · exact hfirst heq
          · rw [← hsame _ hmem]
            exact hothers hmem
        · intro hall
          refine ⟨fun heq => hall (.inl heq), fun hmem => ?_⟩
          rw [hsame _ hmem]
          exact hall (.inr hmem)
      · have hused : middle.usedUp indices = arena.usedUp indices :=
          filter_congr fun j hj => by rw [hsame j hj]
        have hsplit : arena.usedUp (index :: indices) =
            arena.usedUp [index] ++ arena.usedUp indices := by
          rw [usedUp, usedUp, usedUp, ← filter_append]
          rfl
        have hrest' := hrest.slots_perm
        rw [hused] at hrest'
        rw [hsplit]
        calc after.freeSlots ++ (arena.usedUp [index] ++ arena.usedUp indices)
            |>.Perm (after.freeSlots ++ (arena.usedUp indices ++ arena.usedUp [index])) :=
              perm_append_comm.append_left _
          _ |>.Perm (indices ++ middle.freeSlots ++ arena.usedUp [index]) := by
              rw [← append_assoc]
              exact hrest'.append_right _
          _ |>.Perm (indices ++ ([index] ++ arena.freeSlots)) := by
              rw [append_assoc]
              exact hone.slots_perm.append_left _
          _ |>.Perm (index :: indices ++ arena.freeSlots) := perm_middle

end NapiHandleArena

end NapiVm.NodeApi
