import NapiVm.NodeApi.HandleSlots

/-!
# What an arena has to do with its history

* `Made` — a handle that was made, with its scope and its value.
* `Coherent` — what the arena has to do with the handles that were made.
* `Coherent.get_eq` — what a token stands for.
* `createInScope_cases`, `closeScope_cases`, `escapeHandle_cases` — an operation fails without a
  trace, or keeps the invariant.
-/

namespace NapiVm.NodeApi

open List

variable {α : Type}

/-- A handle that was made: its token, the scope it was made in, and its value. -/
structure Made (α : Type) where
  token : Nat
  scope : Nat
  value : α

/-! ## The invariant -/

/-- What an arena has to do with what has happened. -/
structure Coherent (arena : NapiHandleArena α) (next : Nat) (made : List (Made α))
    (escaped retired : List Nat) : Prop where
  scopes_ne : arena.scopes ≠ []
  ids_nodup : (arena.scopes.map HandleScope.id).Nodup
  ids_lt : ∀ scope ∈ arena.scopes, scope.id < arena.nextScopeId
  /-- Every slot is free, in one scope or retired. -/
  slots_perm : (arena.freeSlots ++ (arena.scopes.flatMap HandleScope.slots ++ retired)).Perm
    (List.range arena.slots.length)
  tokens_nodup : (made.map Made.token).Nodup
  tokens_lt : ∀ m ∈ made, m.token < next
  scopes_lt : ∀ m ∈ made, m.scope < arena.nextScopeId
  /-- Every handle was made in a scope that is open. -/
  known : ∀ pointer handle, arena.handles.get pointer = some handle →
    ∃ m ∈ made, m.token = pointer ∧ m.scope ∈ arena.scopes.map HandleScope.id
  /-- What was made in a scope that is open has its handle, a slot of the scope. -/
  live : ∀ m ∈ made, ∀ scope ∈ arena.scopes, scope.id = m.scope →
    ∃ handle, arena.handles.get m.token = some handle ∧ handle.slot ∈ scope.slots ∧
      arena.slots[handle.slot]? = some ⟨handle.generation, some m.value⟩
  escaped_nodup : escaped.Nodup
  escaped_lt : ∀ id ∈ escaped, id < arena.nextScopeId
  escaped_used : ∀ scope ∈ arena.scopes, scope.id ∈ escaped → scope.escapeUsed = true

namespace Coherent

variable {arena : NapiHandleArena α} {next : Nat} {made : List (Made α)}
  {escaped retired : List Nat} (h : Coherent arena next made escaped retired)
include h

/-- Other parts of the process take tokens. -/
theorem later {next' : Nat} (hnext : next ≤ next') :
    Coherent arena next' made escaped retired :=
  { h with tokens_lt := fun m hm => Nat.lt_of_lt_of_le (h.tokens_lt m hm) hnext }

theorem withScopeHandles (scopeHandles : HashTable Nat (Nat × Bool)) :
    Coherent { arena with scopeHandles } next made escaped retired :=
  ⟨h.scopes_ne, h.ids_nodup, h.ids_lt, h.slots_perm, h.tokens_nodup, h.tokens_lt, h.scopes_lt,
    h.known, h.live, h.escaped_nodup, h.escaped_lt, h.escaped_used⟩

/-- A token stands for what it was made with. -/
theorem get_eq (pointer : Nat) :
    arena.get pointer = match made.find? fun m => decide (m.token = pointer) with
      | some m => if m.scope ∈ arena.scopes.map HandleScope.id then .ok m.value
          else .err .invalidArg
      | none => .err .invalidArg := by
  rw [NapiHandleArena.get]
  cases hfind : made.find? fun m => decide (m.token = pointer) with
  | none =>
    have hnone : arena.handles.get pointer = none := by
      refine Option.eq_none_iff_forall_not_mem.2 fun handle hhandle => ?_
      obtain ⟨m, hm, htoken, -⟩ := h.known pointer handle hhandle
      exact find?_eq_none.1 hfind m hm (decide_eq_true htoken)
    rw [hnone]
  | some m =>
    have hm := mem_of_find?_eq_some hfind
    have htoken : m.token = pointer := by
      have := find?_some hfind
      rwa [decide_eq_true_eq] at this
    dsimp only
    by_cases hopen : m.scope ∈ arena.scopes.map HandleScope.id
    · obtain ⟨scope, hscope, hid⟩ := mem_map.1 hopen
      obtain ⟨handle, hget, -, hslot⟩ := h.live m hm scope hscope hid
      rw [if_pos hopen, ← htoken, hget]
      dsimp only
      rw [hslot]
      dsimp only
      rw [if_neg (fun hne => hne rfl)]
    · have hnone : arena.handles.get pointer = none := by
        refine Option.eq_none_iff_forall_not_mem.2 fun handle hhandle => ?_
        obtain ⟨m', hm', htoken', hopen'⟩ := h.known pointer handle hhandle
        have heq := inj_on_of_nodup_map h.tokens_nodup hm hm' (htoken.trans htoken'.symm)
        exact hopen (heq ▸ hopen')
      rw [if_neg hopen, hnone]

/-- Opening a scope. -/
theorem push (escapable : Bool) :
    Coherent { arena with
      nextScopeId := arena.nextScopeId + 1
      scopes := arena.scopes ++ [⟨arena.nextScopeId, [], escapable, false⟩] }
      next made escaped retired := by
  have hfresh (scope : HandleScope) (hscope : scope ∈ arena.scopes) :
      scope.id ≠ arena.nextScopeId := Nat.ne_of_lt (h.ids_lt scope hscope)
  constructor
  · exact append_ne_nil_of_right_ne_nil _ (cons_ne_nil _ _)
  · rw [map_append, nodup_append]
    refine ⟨h.ids_nodup, nodup_singleton _, ?_⟩
    intro id hid other hother
    obtain ⟨scope, hscope, rfl⟩ := mem_map.1 hid
    rw [map_singleton, mem_singleton] at hother
    exact hother ▸ hfresh scope hscope
  · intro scope hscope
    rcases mem_append.1 hscope with hold | hnew
    · exact Nat.lt_succ_of_lt (h.ids_lt scope hold)
    · rw [mem_singleton.1 hnew]
      exact Nat.lt_succ_self _
  · rw [flatMap_append, flatMap_singleton, append_nil]
    exact h.slots_perm
  · exact h.tokens_nodup
  · exact h.tokens_lt
  · exact fun m hm => Nat.lt_succ_of_lt (h.scopes_lt m hm)
  · intro pointer handle hget
    obtain ⟨m, hm, htoken, hopen⟩ := h.known pointer handle hget
    refine ⟨m, hm, htoken, ?_⟩
    rw [map_append]
    exact mem_append_left _ hopen
  · intro m hm scope hscope hid
    rcases mem_append.1 hscope with hold | hnew
    · exact h.live m hm scope hold hid
    · rw [mem_singleton.1 hnew] at hid
      exact absurd hid.symm (Nat.ne_of_lt (h.scopes_lt m hm))
  · exact h.escaped_nodup
  · exact fun id hid => Nat.lt_succ_of_lt (h.escaped_lt id hid)
  · intro scope hscope hid
    rcases mem_append.1 hscope with hold | hnew
    · exact h.escaped_used scope hold hid
    · rw [mem_singleton.1 hnew] at hid
      exact absurd (h.escaped_lt _ hid) (Nat.lt_irrefl _)

variable {scope : HandleScope} {outer : List HandleScope}

/-- Making a handle.  Its slot was in no scope before. -/
theorem make (value : α) {scopeIndex : Nat} (hscope : arena.scopes[scopeIndex]? = some scope) :
    ∃ after, arena.takeSlot.2.fill arena.takeSlot.1 value scopeIndex next = some after ∧
      (∃ index, after.scopes = arena.scopes.modify scopeIndex fun scope =>
        { scope with slots := scope.slots ++ [index] }) ∧
      Coherent after (next + 1) (⟨next, scope.id, value⟩ :: made) escaped retired := by
  obtain ⟨index, slots, freeSlots, htake, ⟨slot, hslot⟩, hperm, hslots⟩ :=
    NapiHandleArena.takeSlot_spec h.slots_perm
  have hlt : scopeIndex < arena.scopes.length := (List.getElem?_eq_some_iff.1 hscope).1
  have hids : (arena.scopes.modify scopeIndex fun scope =>
      { scope with slots := scope.slots ++ [index] }).map HandleScope.id =
        arena.scopes.map HandleScope.id := ids_modify fun _ => rfl
  -- no scope had the slot
  have hnew : index ∉ arena.scopes.flatMap HandleScope.slots := by
    intro hmem
    have hnodup := hperm.nodup_iff.2 nodup_range
    refine (nodup_cons.1 hnodup).1 ?_
    exact mem_append_right _ (mem_append_left _ hmem)
  rw [htake]
  dsimp only
  rw [NapiHandleArena.fill, hslot, Option.map_some]
  refine ⟨_, rfl, ⟨index, rfl⟩, ?_⟩
  constructor
  · intro hnil
    have hlength := congrArg length hnil
    rw [length_modify] at hlength
    exact h.scopes_ne (length_eq_zero_iff.1 hlength)
  · exact hids ▸ h.ids_nodup
  · intro changed hchanged
    obtain ⟨j, old, hold, rfl⟩ := mem_modify hchanged
    have hid := h.ids_lt old (mem_of_getElem? hold)
    split <;> exact hid
  · rw [length_set]
    refine List.Perm.trans ?_ hperm
    calc freeSlots ++ ((arena.scopes.modify scopeIndex fun scope =>
          { scope with slots := scope.slots ++ [index] }).flatMap HandleScope.slots ++ retired)
        |>.Perm (freeSlots ++ (index :: arena.scopes.flatMap HandleScope.slots ++ retired)) :=
          ((flatMap_push hlt index).append_right _).append_left _
      _ |>.Perm (index :: (freeSlots ++ (arena.scopes.flatMap HandleScope.slots ++ retired))) :=
          perm_middle
  · rw [map_cons, nodup_cons]
    refine ⟨fun hmem => ?_, h.tokens_nodup⟩
    obtain ⟨m, hm, htoken⟩ := mem_map.1 hmem
    exact Nat.ne_of_lt (h.tokens_lt m hm) htoken
  · intro m hm
    rcases mem_cons.1 hm with rfl | hm
    · exact Nat.lt_succ_self _
    · exact Nat.lt_succ_of_lt (h.tokens_lt m hm)
  · intro m hm
    rcases mem_cons.1 hm with rfl | hm
    · exact h.ids_lt scope (mem_of_getElem? hscope)
    · exact h.scopes_lt m hm
  · intro pointer handle hget
    rw [hids]
    rcases HashTable.get_insert.1 hget with ⟨rfl, -⟩ | ⟨-, hold⟩
    · exact ⟨_, mem_cons_self, rfl, mem_map_of_mem (mem_of_getElem? hscope)⟩
    · obtain ⟨m, hm, htoken, hopen⟩ := h.known pointer handle hold
      exact ⟨m, mem_cons_of_mem _ hm, htoken, hopen⟩
  · intro m hm changed hchanged hid
    obtain ⟨j, old, hold, rfl⟩ := mem_modify hchanged
    have hsame : old.id = m.scope := by
      rw [← hid]
      split <;> rfl
    rcases mem_cons.1 hm with rfl | hm
    · have hj : scopeIndex = j := by
        refine (getElem?_inj ?_ h.ids_nodup).1 ?_
        · rw [length_map]
          exact hlt
        · rw [getElem?_map, getElem?_map, hscope, hold]
          exact congrArg some hsame.symm
      rw [if_pos hj]
      exact ⟨_, HashTable.get_insert_self, mem_append_right _ mem_cons_self,
        getElem?_set_self (List.getElem?_eq_some_iff.1 hslot).1⟩
    · obtain ⟨handle, hget, hmem, hthere⟩ := h.live m hm old (mem_of_getElem? hold) hsame
      have hne : index ≠ handle.slot := fun heq =>
        hnew (mem_flatMap.2 ⟨old, mem_of_getElem? hold, heq ▸ hmem⟩)
      refine ⟨handle, ?_, ?_, ?_⟩
      · exact (HashTable.get_insert_of_ne (Nat.ne_of_lt (h.tokens_lt m hm))).trans hget
      · split
        · exact mem_append_left _ hmem
        · exact hmem
      · rw [getElem?_set_ne hne]
        exact hslots _ _ hthere
  · exact h.escaped_nodup
  · exact h.escaped_lt
  · intro changed hchanged hid
    obtain ⟨j, old, hold, rfl⟩ := mem_modify hchanged
    have hused := h.escaped_used old (mem_of_getElem? hold)
    by_cases hj : scopeIndex = j
    · rw [if_pos hj] at hid ⊢
      exact hused hid
    · rw [if_neg hj] at hid ⊢
      exact hused hid

/-- Escaping marks the innermost scope. -/
theorem mark (hscopes : arena.scopes = outer ++ [scope]) (hused : scope.escapeUsed = false) :
    Coherent (arena.modifyTop fun scope => { scope with escapeUsed := true }) next made
      (scope.id :: escaped) retired := by
  have hids : (outer ++ [{ scope with escapeUsed := true }]).map HandleScope.id =
      arena.scopes.map HandleScope.id := by
    rw [hscopes, map_append, map_append]
    rfl
  have hscope : scope ∈ arena.scopes := by
    rw [hscopes]
    exact mem_append_right _ mem_cons_self
  have hold (s : HandleScope) (hs : s ∈ outer) : s ∈ arena.scopes := by
    rw [hscopes]
    exact mem_append_left _ hs
  have hnew : scope.id ∉ escaped := fun hid => by
    rw [h.escaped_used scope hscope hid] at hused
    cases hused
  rw [modifyTop_eq hscopes]
  constructor
  · exact append_ne_nil_of_right_ne_nil _ (cons_ne_nil _ _)
  · exact hids ▸ h.ids_nodup
  · intro s hs
    rcases mem_append.1 hs with hs | hs
    · exact h.ids_lt s (hold s hs)
    · rw [mem_singleton.1 hs]
      exact h.ids_lt scope hscope
  · have hperm := h.slots_perm
    rw [hscopes, flatMap_append] at hperm
    rw [flatMap_append]
    exact hperm
  · exact h.tokens_nodup
  · exact h.tokens_lt
  · exact h.scopes_lt
  · exact hids ▸ h.known
  · intro m hm s hs hid
    rcases mem_append.1 hs with hs | hs
    · exact h.live m hm s (hold s hs) hid
    · rw [mem_singleton.1 hs] at hid ⊢
      exact h.live m hm scope hscope hid
  · exact nodup_cons.2 ⟨hnew, h.escaped_nodup⟩
  · intro id hid
    rcases mem_cons.1 hid with rfl | hid
    · exact h.ids_lt scope hscope
    · exact h.escaped_lt id hid
  · intro s hs hid
    rcases mem_append.1 hs with hs | hs
    · rcases mem_cons.1 hid with heq | hid
      · have hnodup := h.ids_nodup
        rw [hscopes, map_append] at hnodup
        exact absurd heq ((nodup_append.1 hnodup).2.2 s.id (mem_map_of_mem hs) scope.id
          mem_cons_self)
      · exact h.escaped_used s (hold s hs) hid
    · rw [mem_singleton.1 hs]

/-- Closing the innermost scope. -/
theorem pop (hscopes : arena.scopes = outer ++ [scope]) (hne : outer ≠ []) :
    ∃ after, scope.slots.foldlM NapiHandleArena.release { arena with scopes := outer } =
        some after ∧ after.scopes = outer ∧ after.scopeHandles = arena.scopeHandles ∧
      Coherent after next made escaped (arena.usedUp scope.slots ++ retired) := by
  have hperm := h.slots_perm
  rw [hscopes, flatMap_append, flatMap_singleton] at hperm
  have hnodup := hperm.nodup_iff.2 nodup_range
  have hscope : scope ∈ arena.scopes := by
    rw [hscopes]
    exact mem_append_right _ mem_cons_self
  have hold (s : HandleScope) (hs : s ∈ outer) : s ∈ arena.scopes := by
    rw [hscopes]
    exact mem_append_left _ hs
  have hslots : (outer.flatMap HandleScope.slots ++ scope.slots).Nodup :=
    (nodup_append.1 (nodup_append.1 hnodup).2.1).1
  have hlt : ∀ index ∈ scope.slots,
      index < ({ arena with scopes := outer } : NapiHandleArena α).slots.length := fun index hindex =>
    mem_range.1 (hperm.subset
      (mem_append_right _ (mem_append_left _ (mem_append_right _ hindex))))
  obtain ⟨after, hafter, hrel⟩ := NapiHandleArena.foldlM_release_spec
    (nodup_append.1 hslots).2.1 hlt
  refine ⟨after, hafter, hrel.scopes, hrel.scopeHandles, ?_⟩
  constructor
  · exact hrel.scopes ▸ hne
  · have hids := h.ids_nodup
    rw [hscopes, map_append] at hids
    rw [hrel.scopes]
    exact (nodup_append.1 hids).1
  · rw [hrel.scopes, hrel.nextScopeId]
    exact fun s hs => h.ids_lt s (hold s hs)
  · rw [hrel.scopes, hrel.length]
    refine List.Perm.trans (perm_iff_count.2 fun index => ?_) hperm
    have hcount := hrel.slots_perm.count_eq index
    simp only [count_append] at hcount ⊢
    change count index after.freeSlots + count index (arena.usedUp scope.slots) =
      count index scope.slots + count index arena.freeSlots at hcount
    omega
  · exact h.tokens_nodup
  · exact h.tokens_lt
  · rw [hrel.nextScopeId]
    exact h.scopes_lt
  · intro pointer handle hget
    obtain ⟨hget, hkept⟩ := (hrel.handles pointer handle).1 hget
    obtain ⟨m, hm, htoken, hopen⟩ := h.known pointer handle hget
    refine ⟨m, hm, htoken, ?_⟩
    rw [hscopes, map_append] at hopen
    rw [hrel.scopes]
    refine (mem_append.1 hopen).resolve_right fun hlast => ?_
    -- the handles of the scope itself are dropped
    have hid : scope.id = m.scope := (mem_singleton.1 hlast).symm
    obtain ⟨own, hown, hmem, hthere⟩ := h.live m hm scope hscope hid
    rw [htoken] at hown
    obtain rfl := Option.some.inj (hown.symm.trans hget)
    exact hkept hmem _ hthere rfl
  · intro m hm s hs hid
    rw [hrel.scopes] at hs
    obtain ⟨handle, hget, hmem, hthere⟩ := h.live m hm s (hold s hs) hid
    have hout : handle.slot ∉ scope.slots := fun hin =>
      (nodup_append.1 hslots).2.2 _ (mem_flatMap.2 ⟨s, hs, hmem⟩) _ hin rfl
    refine ⟨handle, (hrel.handles _ _).2 ⟨hget, fun hin => absurd hin hout⟩, hmem, ?_⟩
    rw [hrel.others _ hout]
    exact hthere
  · exact h.escaped_nodup
  · rw [hrel.nextScopeId]
    exact h.escaped_lt
  · rw [hrel.scopes]
    exact fun s hs => h.escaped_used s (hold s hs)

end Coherent

/-! ## Operations -/

section Operations

variable {process : Process α} {made : List (Made α)} {escaped retired : List Nat}
  (h : Coherent process.arena process.nextOpaqueHandleId made escaped retired)

theorem newOpaqueHandle_cases (process : Process α) :
    (∃ status, newOpaqueHandle process = (.err status, process)) ∨
      newOpaqueHandle process = (.ok process.nextOpaqueHandleId,
        { process with nextOpaqueHandleId := process.nextOpaqueHandleId + 1 }) := by
  rw [newOpaqueHandle]
  split
  · exact .inr rfl
  · exact .inl ⟨_, rfl⟩

theorem openScope_cases (process : Process α) :
    (∃ status, openScope process = (.err status, process)) ∨
      openScope process = (.ok process.arena.nextScopeId, { process with
        arena := { process.arena with
          nextScopeId := process.arena.nextScopeId + 1
          scopes := process.arena.scopes ++ [⟨process.arena.nextScopeId, [], false, false⟩] } }) := by
  rw [openScope]
  dsimp only
  split
  · exact .inr rfl
  · exact .inl ⟨_, rfl⟩

include h

theorem Coherent.createInScope_cases (value : α) (scopeIndex : Nat) :
    (∃ status, createInScope value scopeIndex process = (.err status, process)) ∨
      ∃ scope arena, process.arena.scopes[scopeIndex]? = some scope ∧
        createInScope value scopeIndex process =
          (.ok process.nextOpaqueHandleId, ⟨arena, process.nextOpaqueHandleId + 1⟩) ∧
        (∃ index, arena.scopes = process.arena.scopes.modify scopeIndex fun scope =>
          { scope with slots := scope.slots ++ [index] }) ∧
        Coherent arena (process.nextOpaqueHandleId + 1)
          (⟨process.nextOpaqueHandleId, scope.id, value⟩ :: made) escaped retired := by
  rw [createInScope]
  split
  · exact .inl ⟨_, rfl⟩
  · split
    · exact .inl ⟨_, rfl⟩
    · next hlt =>
        rcases newOpaqueHandle_cases process with ⟨status, hfail⟩ | htoken
        · exact .inl ⟨status, Action.andThen_err hfail⟩
        · have hscope := getElem?_eq_getElem (Nat.lt_of_not_le hlt)
          obtain ⟨arena, hfill, hscopes, hcoherent⟩ := h.make value hscope
          right
          refine ⟨_, arena, hscope, (Action.andThen_ok htoken).trans ?_, hscopes, hcoherent⟩
          dsimp only
          rw [hfill]

theorem Coherent.closeScope_cases (id : Nat) :
    (∃ status, closeScope id process = (.err status, process)) ∨
      ∃ outer scope arena, process.arena.scopes = outer ++ [scope] ∧ scope.id = id ∧
        closeScope id process = (.ok (), { process with arena }) ∧ arena.scopes = outer ∧
        arena.scopeHandles = process.arena.scopeHandles ∧
        Coherent arena process.nextOpaqueHandleId made escaped
          (process.arena.usedUp scope.slots ++ retired) := by
  obtain ⟨outer, scope, hscopes⟩ : ∃ outer scope, process.arena.scopes = outer ++ [scope] :=
    ⟨_, _, (dropLast_append_getLast h.scopes_ne).symm⟩
  rw [closeScope, hscopes, getLast?_concat]
  dsimp only
  split
  · exact .inl ⟨_, rfl⟩
  · next hopen =>
      rw [not_or, not_not, length_append, length_singleton] at hopen
      have hne : outer ≠ [] := fun hnil => hopen.1 (by rw [hnil]; exact Nat.le_refl 1)
      obtain ⟨arena, harena, houter, hhandles, hcoherent⟩ := h.pop hscopes hne
      right
      refine ⟨outer, scope, arena, rfl, hopen.2, ?_, houter, hhandles, hcoherent⟩
      rw [dropLast_concat, harena]

/-- Escaping, when nothing speaks against it: a handle is made in the scope around the innermost
one. -/
theorem Coherent.escape {outer : List HandleScope} {scope : HandleScope} (value : α)
    (hscopes : process.arena.scopes = outer ++ [scope]) (hne : outer ≠ [])
    (hused : scope.escapeUsed = false) :
    (∃ status, createInScope value (outer.length - 1) process = (.err status, process)) ∨
      ∃ parent arena, outer.getLast? = some parent ∧
        createInScope value (outer.length - 1) process =
          (.ok process.nextOpaqueHandleId, ⟨arena, process.nextOpaqueHandleId + 1⟩) ∧
        (arena.modifyTop fun scope => { scope with escapeUsed := true }).scopes.map
          HandleScope.id = process.arena.scopes.map HandleScope.id ∧
        Coherent (arena.modifyTop fun scope => { scope with escapeUsed := true })
          (process.nextOpaqueHandleId + 1)
          (⟨process.nextOpaqueHandleId, parent.id, value⟩ :: made) (scope.id :: escaped)
            retired := by
  rcases h.createInScope_cases value (outer.length - 1) with
    hfail | ⟨parent, arena, hparent, hmade, ⟨index, hchanged⟩, hcoherent⟩
  · exact .inl hfail
  · have hlt : outer.length - 1 < outer.length :=
      Nat.sub_lt (length_pos_iff.2 hne) Nat.one_pos
    rw [hscopes, getElem?_append_left hlt, ← getLast?_eq_getElem?] at hparent
    rw [hscopes, modify_concat hlt] at hchanged
    refine .inr ⟨parent, arena, hparent, hmade, ?_, hcoherent.mark hchanged hused⟩
    rw [modifyTop_eq hchanged, hscopes]
    dsimp only
    rw [map_append, map_append]
    exact congrArg (· ++ [scope.id]) (ids_modify fun _ => rfl)

theorem Coherent.escapeHandle_cases (scopePointer escapee : Nat) :
    (∃ status, escapeHandle scopePointer escapee process = (.err status, process)) ∨
      ∃ outer scope parent value arena, process.arena.scopes = outer ++ [scope] ∧
        outer.getLast? = some parent ∧ process.arena.get escapee = .ok value ∧
        escapeHandle scopePointer escapee process =
          (.ok process.nextOpaqueHandleId, ⟨arena, process.nextOpaqueHandleId + 1⟩) ∧
        arena.scopes.map HandleScope.id = process.arena.scopes.map HandleScope.id ∧
        Coherent arena (process.nextOpaqueHandleId + 1)
          (⟨process.nextOpaqueHandleId, parent.id, value⟩ :: made) (scope.id :: escaped)
            retired := by
  obtain ⟨outer, scope, hscopes⟩ : ∃ outer scope, process.arena.scopes = outer ++ [scope] :=
    ⟨_, _, (dropLast_append_getLast h.scopes_ne).symm⟩
  have hlength : process.arena.scopes.length = outer.length + 1 := by
    rw [hscopes, length_append, length_singleton]
  rw [escapeHandle, hlength]
  rw [show process.arena.scopes.getLast? = some scope by rw [hscopes, getLast?_concat]]
  cases process.arena.scopeHandles.get scopePointer with
  | none => exact .inl ⟨_, rfl⟩
  | some pair =>
    obtain ⟨id, escapable⟩ := pair
    dsimp only
    split
    · exact .inl ⟨_, rfl⟩
    · next hsome =>
        split
        · exact .inl ⟨_, rfl⟩
        · split
          · exact .inl ⟨_, rfl⟩
          · next hused =>
              cases process.arena.handles.get escapee with
              | none => exact .inl ⟨_, rfl⟩
              | some handle =>
                dsimp only
                split
                · exact .inl ⟨_, rfl⟩
                · cases hget : process.arena.get escapee with
                  | err status => exact .inl ⟨_, rfl⟩
                  | panic => exact absurd hget (process.arena.get_ne_panic escapee)
                  | ok value =>
                    have hne : outer ≠ [] := by
                      rintro rfl
                      exact hsome (Bool.or_eq_true_iff.2 (.inr rfl))
                    rcases h.escape value hscopes hne (Bool.eq_false_iff.2 hused) with
                      ⟨status, hfail⟩ | ⟨parent, arena, hparent, hmade, hids, hcoherent⟩
                    · exact .inl ⟨status, Action.andThen_err hfail⟩
                    · exact .inr ⟨outer, scope, parent, value, _, hscopes, hparent, rfl,
                        Action.andThen_ok hmade, hids, hcoherent⟩

theorem Coherent.closeScopeHandleWithKind_cases (pointer : Nat) (escapable : Bool) :
    (∃ status, closeScopeHandleWithKind pointer escapable process = (.err status, process)) ∨
      ∃ outer scope arena, process.arena.scopes = outer ++ [scope] ∧
        (process.arena.scopeHandles.get pointer).map Prod.fst = some scope.id ∧
        closeScopeHandleWithKind pointer escapable process = (.ok (), { process with arena }) ∧
        arena.scopes = outer ∧
        Coherent arena process.nextOpaqueHandleId made escaped
          (process.arena.usedUp scope.slots ++ retired) := by
  rw [closeScopeHandleWithKind]
  cases process.arena.scopeHandles.get pointer with
  | none => exact .inl ⟨_, rfl⟩
  | some pair =>
    obtain ⟨id, kind⟩ := pair
    dsimp only
    split
    · exact .inl ⟨_, rfl⟩
    · rcases h.closeScope_cases id with
        ⟨status, hfail⟩ | ⟨outer, scope, arena, hscopes, hid, hclose, houter, -, hcoherent⟩
      · exact .inl ⟨status, Action.andThen_err hfail⟩
      · exact .inr ⟨outer, scope,
          { arena with scopeHandles := arena.scopeHandles.remove pointer }, hscopes,
          congrArg some hid.symm, Action.andThen_ok hclose, houter,
          hcoherent.withScopeHandles _⟩

end Operations

end NapiVm.NodeApi
