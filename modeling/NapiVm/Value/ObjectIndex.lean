import NapiVm.Lib.Run
import NapiVm.Value.ObjectCell
import NapiVm.Value.ShapeTree

/-!
# The property index is sound

`own_index` answers from one of three tiers: the dictionary, the cached shape or
a scan.  A dictionary that exists is trusted, so it has to be the position
function of the vector.  The shape's answer is checked against the vector.  While
keys are unique nothing more has to be known about it: any stale or foreign shape
is harmless.  A literal may create a cell with repeated keys, and there the check
alone could accept a later occurrence; such a cell's layout must fit its keys.

* `Coherent` — the invariant; `ownIndex_coherent` — under it the tiers agree.
* `Op`, `Step` — every operation on a cell, and what the rest of the engine may
  do to the state between two of them.
* `ownIndex_sound` — the index answers right in every state of every run.
-/

namespace NapiVm.CellState

open Slots

/-- What the checked shape tier needs: unique keys, or a layout that fits them. -/
def ShapeOk (s : CellState) : Prop :=
  (keys s.cell.slots).Nodup ∨
    s.tree.Wf ∧ ∀ shape, s.cell.shape = some shape →
      ∃ ks, s.tree.keysOf shape = some ks ∧ ShapeTree.Fits ks (keys s.cell.slots)

/-- The index invariant. -/
structure Coherent (s : CellState) : Prop where
  shapeOk : ShapeOk s
  dictionary : ∀ d, s.cell.index = some d → ∀ k, d k = position s.cell.slots k
  disabled : s.cell.indexDisabled = true → s.cell.index = none

variable {s t : CellState} {key : String}

/-- The dictionary's half reads the keys, the dictionary and its switch, nothing else. -/
theorem Coherent.congr (h : Coherent s) (hshape : ShapeOk t)
    (hk : keys t.cell.slots = keys s.cell.slots) (hi : t.cell.index = s.cell.index)
    (hd : t.cell.indexDisabled = s.cell.indexDisabled) : Coherent t := by
  refine ⟨hshape, ?_, ?_⟩
  · intro d hsome k
    rw [h.dictionary d (hi ▸ hsome) k]
    exact position_congr hk.symm k
  · intro hdis
    rw [hi]
    exact h.disabled (hd ▸ hdis)

/-- A state without dictionary only has its shape to answer for. -/
theorem Coherent.of_index_none (hs : ShapeOk s) (hi : s.cell.index = none) : Coherent s :=
  ⟨hs, fun d hd => by simp [hi] at hd, fun _ => hi⟩

theorem ShapeOk.congr (h : ShapeOk s) (hk : keys t.cell.slots = keys s.cell.slots)
    (ht : t.tree = s.tree) (hshape : t.cell.shape = s.cell.shape) : ShapeOk t := by
  unfold ShapeOk
  rw [hk, ht, hshape]
  exact h

/-- A rebuilt shape fits, whatever the slots hold. -/
theorem ShapeOk.rebuildShape (h : ShapeOk s) : ShapeOk s.rebuildShape := by
  rcases h with hn | ⟨hw, -⟩
  · exact Or.inl hn
  · obtain ⟨hw', hfit⟩ := ShapeTree.rebuild_spec hw (keys s.cell.slots)
    refine Or.inr ⟨hw', ?_⟩
    intro shape hshape
    obtain rfl := Option.some.inj hshape
    exact hfit

/-! ## Reads -/

/-- The shape's answer, once checked against the slots, is the position. -/
theorem shapeSlot_verified (h : ShapeOk s) {i : Nat}
    (hi : (s.shapeSlot key).filter (fun i => (keys s.cell.slots)[i]? == some key) = some i) :
    position s.cell.slots key = some i := by
  obtain ⟨hslot, hheld⟩ := Option.filter_eq_some_iff.1 hi
  have hheld : (keys s.cell.slots)[i]? = some key := beq_iff_eq.1 hheld
  rcases h with hn | ⟨hw, hfits⟩
  · exact position_of_getElem? hn hheld
  · -- with repeated keys: not past the first occurrence, and an occurrence
    obtain ⟨shape, hshape, hslot⟩ := Option.bind_eq_some_iff.1 hslot
    obtain ⟨ks, hks, hfit⟩ := hfits shape hshape
    rw [ShapeTree.slotOf_eq hw hks] at hslot
    obtain ⟨i₀, hi₀, rfl⟩ := Option.map_eq_some_iff.1 hslot
    cases hp : position s.cell.slots key with
    | none => exact absurd (List.mem_of_getElem? hheld) (position_eq_none.1 hp)
    | some j =>
      have hle : i₀ ≤ j := by
        refine hfit.below key i₀ j hi₀ ?_
        rw [firstIndex_keys, hp]
      have hmod : i₀ % 2 ^ 32 ≤ i₀ := Nat.mod_le _ _
      have hge : ¬ i₀ % 2 ^ 32 < j := fun hlt => (position_eq_some.1 hp).2 _ hlt hheld
      rw [show j = i₀ % 2 ^ 32 by omega]

/-- The answer of the dictionary tier, built on demand. -/
theorem dictionary_eq_position (h : Coherent s) (key : String) :
    (s.cell.index.getD (firstIndex (keys s.cell.slots))) key =
      position s.cell.slots key := by
  cases hi : s.cell.index with
  | none => exact firstIndex_keys s.cell.slots key
  | some d => exact h.dictionary d hi key

/-- **The three tiers agree**: in a coherent state `own_index` is the position. -/
theorem ownIndex_coherent (h : Coherent s) (key : String) :
    (s.ownIndex key).1 = position s.cell.slots key := by
  unfold ownIndex
  dsimp only
  split
  · exact dictionary_eq_position h key
  · split
    · next i hi => exact (shapeSlot_verified h.shapeOk hi).symm
    · cases s.cell.shape <;> rfl

theorem ownIndex_slots (s : CellState) (key : String) :
    (s.ownIndex key).2.cell.slots = s.cell.slots := by
  unfold ownIndex
  dsimp only
  repeat' split
  all_goals rfl

/-- A read keeps the invariant: it fills the dictionary or touches the shape. -/
theorem Coherent.ownIndex (h : Coherent s) (key : String) : Coherent (s.ownIndex key).2 := by
  unfold CellState.ownIndex
  dsimp only
  split
  · next hlen =>
      have henabled : s.cell.indexDisabled = false := by
        simpa using (Bool.and_eq_true_iff.1 hlen).2
      refine ⟨h.shapeOk.congr rfl rfl rfl, ?_, ?_⟩
      · intro d hd k
        obtain rfl := Option.some.inj hd
        exact dictionary_eq_position h k
      · intro hdis
        rw [show s.cell.indexDisabled = true from hdis] at henabled
        exact Bool.noConfusion henabled
  · have hmarked : ShapeOk { s with cell := { s.cell with readOnce := true } } :=
      h.shapeOk.congr rfl rfl rfl
    repeat' split
    · exact h
    · exact h.congr hmarked.rebuildShape rfl rfl rfl
    · exact h.congr hmarked rfl rfl rfl
    · exact h
    · exact h.congr h.shapeOk.rebuildShape rfl rfl rfl

theorem Coherent.ownValue (h : Coherent s) (key : String) :
    Coherent (s.ownValue key).2 := h.ownIndex key

/-- `own_value` reads the slot of the key: its second check never misses. -/
theorem ownValue_eq_get (h : Coherent s) (key : String) :
    (s.ownValue key).1 = get s.cell.slots key := by
  have hslot : ∀ i, (s.ownIndex key).2.slotVerified i key = s.slotVerified i key := by
    intro i
    simp only [slotVerified, ownIndex_slots]
  simp only [ownValue, hslot, ownIndex_coherent h key]
  exact position_bind_get s.cell.slots key

/-! ## Writes -/

theorem keys_storeSlot (s : CellState) (i : Nat) (value : Value) :
    keys (s.storeSlot i value).cell.slots = keys s.cell.slots := by
  unfold storeSlot
  split
  · rfl
  · exact keys_setValue s.cell.slots i value

section

variable (h : Coherent s)

include h

theorem Coherent.storeSlot (i : Nat) (value : Value) : Coherent (s.storeSlot i value) := by
  have hkeys := keys_storeSlot s i value
  refine h.congr (h.shapeOk.congr hkeys ?_ ?_) hkeys ?_ ?_
  all_goals
    unfold CellState.storeSlot
    split <;> rfl

theorem Coherent.setSlotVerified (i : Nat) (key : String) (value : Value) :
    Coherent (s.setSlotVerified i key value).2 := by
  unfold CellState.setSlotVerified
  split
  · exact h
  · split
    · exact h.storeSlot i value
    · exact h

omit h in
/-- `note_key_added` right after its key was pushed: the layout follows the slots. -/
theorem ShapeOk.noteKeyAdded (h : ShapeOk s) (hk : key ∉ keys s.cell.slots)
    (hkeys : keys t.cell.slots = keys s.cell.slots ++ [key]) (ht : t.tree = s.tree)
    (hshape : t.cell.shape = s.cell.shape) (shared : Bool) :
    ShapeOk (t.noteKeyAdded shared key) := by
  rcases h with hn | ⟨hw, hfits⟩
  · left
    have hslots : (t.noteKeyAdded shared key).cell.slots = t.cell.slots := by
      unfold CellState.noteKeyAdded
      repeat' split
      all_goals rfl
    rw [hslots, hkeys]
    exact List.Nodup.append hn (List.nodup_singleton key)
      (fun k hk' hkey => hk (List.mem_singleton.1 hkey ▸ hk'))
  · rw [← ht] at hw hfits
    rw [← hshape] at hfits
    unfold CellState.noteKeyAdded
    split
    · next hnone =>
        refine Or.inr ⟨hw, ?_⟩
        intro shape hsome
        rw [hnone] at hsome
        exact absurd hsome (by simp)
    · next shape hsome =>
        obtain ⟨ks, hks, hfit⟩ := hfits shape hsome
        split
        · -- the layout knows the key already: it is rebuilt from the slots
          obtain ⟨hw', hfit'⟩ := ShapeTree.rebuild_spec hw (keys t.cell.slots)
          refine Or.inr ⟨hw', ?_⟩
          intro shape' hshape'
          obtain rfl := Option.some.inj hshape'
          exact hfit'
        · next hnew =>
            have hkks : key ∉ ks := by
              rw [ShapeTree.slotOf_eq hw hks, Option.isSome_map] at hnew
              simpa [firstIndex_eq_none] using hnew
            obtain ⟨hw', hks'⟩ := ShapeTree.append_spec hw hks shared key
            refine Or.inr ⟨hw', ?_⟩
            intro shape' hshape'
            obtain rfl := Option.some.inj hshape'
            refine ⟨_, hks', ?_⟩
            show ShapeTree.Fits _ (keys t.cell.slots)
            rw [hkeys]
            exact hfit.push hk hkks

omit h in
theorem noteKeyAdded_frame (s : CellState) (shared : Bool) (key : String) :
    (s.noteKeyAdded shared key).cell.slots = s.cell.slots ∧
      (s.noteKeyAdded shared key).cell.index = s.cell.index ∧
      (s.noteKeyAdded shared key).cell.indexDisabled = s.cell.indexDisabled := by
  unfold noteKeyAdded
  repeat' split
  all_goals exact ⟨rfl, rfl, rfl⟩

/-- Pushing an absent key: the dictionary is patched with the new position. -/
theorem Coherent.pushNoted (value : Value) (hk : key ∉ keys s.cell.slots) (shared : Bool) :
    Coherent ((s.pushSlot key value).noteKeyAdded shared key) := by
  obtain ⟨hslots, hindex, hdisabled⟩ := noteKeyAdded_frame (s.pushSlot key value) shared key
  have hkeys : keys (s.pushSlot key value).cell.slots = keys s.cell.slots ++ [key] :=
    keys_append s.cell.slots [(key, value)]
  refine ⟨h.shapeOk.noteKeyAdded hk hkeys rfl rfl shared, ?_, ?_⟩
  · intro d hd k
    rw [hindex] at hd
    obtain ⟨d₀, hd₀, rfl⟩ := Option.map_eq_some_iff.1 hd
    rw [hslots]
    show d₀.insert key s.cell.slots.length k = position (s.cell.slots ++ [(key, value)]) k
    rw [position_push]
    by_cases hkk : k = key
    · subst hkk
      rw [position_eq_none.2 hk]
      simp
    · rw [PMap.insert_of_ne hkk, h.dictionary d₀ hd₀ k]
      simp [hkk]
  · intro hdis
    rw [hdisabled] at hdis
    rw [hindex]
    show s.cell.index.map _ = none
    rw [h.disabled hdis]
    rfl

theorem Coherent.appendNewSlot (shared : Bool) (value : Value) (hk : key ∉ keys s.cell.slots) :
    Coherent (s.appendNewSlot shared key value).2 := by
  unfold CellState.appendNewSlot
  split
  · exact h
  · exact h.pushNoted value hk shared

theorem Coherent.borrowPush (shared : Bool) (value : Value) (hk : key ∉ keys s.cell.slots) :
    Coherent (s.borrowPush shared key value) := by
  have hkeys : keys (s.borrowMut (s.cell.slots ++ [(key, value)])).cell.slots =
      keys s.cell.slots ++ [key] := keys_append s.cell.slots [(key, value)]
  refine .of_index_none (h.shapeOk.noteKeyAdded hk hkeys rfl rfl shared) ?_
  rw [CellState.borrowPush, (noteKeyAdded_frame _ shared key).2.1]
  rfl

/-- The lookup of a write is the position too, and keeps the slots. -/
theorem writeIndex_spec (key : String) : (s.writeIndex key).1 = position s.cell.slots key ∧
      (s.writeIndex key).2.cell.slots = s.cell.slots ∧ Coherent (s.writeIndex key).2 := by
  unfold writeIndex
  split
  · exact ⟨ownIndex_coherent h key, ownIndex_slots s key, h.ownIndex key⟩
  · exact ⟨rfl, rfl, h⟩

theorem Coherent.setCellProp (shared : Bool) (key : String) (value : Value) :
    Coherent (s.setCellProp shared key value).2 := by
  obtain ⟨hpos, hslots, hc⟩ := writeIndex_spec h key
  simp only [CellState.setCellProp]
  rw [hpos]
  split
  · next i _ =>
      dsimp only
      split
      · exact hc.storeSlot i value
      · exact hc
  · next habsent =>
      have hk : key ∉ keys (s.writeIndex key).2.cell.slots := by
        rw [hslots]
        exact position_eq_none.1 habsent
      split
      · exact hc
      · split
        · exact hc
        · exact hc.pushNoted value hk shared

end

/-! ## Runs -/

/-- What can happen to a cell.  `shared` is whether another cell holds the same
cached shape at that moment. -/
inductive Op where
  | ownIndex (key : String)
  | ownValue (key : String)
  | setCellProp (shared : Bool) (key : String) (value : Value)
  | appendNewSlot (shared : Bool) (key : String) (value : Value)
  | setSlotVerified (i : Nat) (key : String) (value : Value)
  | noteMutated
  | borrowMut (slots : Slots String Value)
  | borrowPush (shared : Bool) (key : String) (value : Value)
  | deref
  /-- A write through storage that a `Deref` let escape earlier. -/
  | rawWrite (slots : Slots String Value)
  | clearEdges
  /-- The object's metadata is changed. -/
  | editMeta (metadata : ObjectMeta)
  /-- The rest of the engine runs: other cells grow the shape tree and extend
  layouts in place, bindings are assigned. -/
  | foreign (tree : ShapeTree) (bindings : Nat → Value)

/-- What an operation's callers promise.  Rewrites keep keys unique, an added key
is new, and raw storage is only written after it escaped.  Other cells may do
anything to the tree while this cell's keys are unique; beside a cell with
repeated keys they keep the tree well formed and, as they cannot extend a layout
that this cell holds too, its layout. -/
def Op.Allowed (s : CellState) : Op → Prop
  | .appendNewSlot _ key _ => key ∉ keys s.cell.slots
  | .borrowPush _ key _ => key ∉ keys s.cell.slots
  | .borrowMut slots => (keys slots).Nodup
  | .rawWrite slots => s.cell.indexDisabled = true ∧ (keys slots).Nodup
  | .foreign tree _ => (keys s.cell.slots).Nodup ∨
      tree.Wf ∧ ∀ shape, s.cell.shape = some shape → tree.keysOf shape = s.tree.keysOf shape
  | _ => True

/-- The state after an operation. -/
def apply (s : CellState) : Op → CellState
  | .ownIndex key => (s.ownIndex key).2
  | .ownValue key => (s.ownValue key).2
  | .setCellProp shared key value => (s.setCellProp shared key value).2
  | .appendNewSlot shared key value => (s.appendNewSlot shared key value).2
  | .setSlotVerified i key value => (s.setSlotVerified i key value).2
  | .noteMutated => s.noteMutated
  | .borrowMut slots => s.borrowMut slots
  | .borrowPush shared key value => s.borrowPush shared key value
  | .deref => s.deref
  | .rawWrite slots => s.rawWrite slots
  | .clearEdges => s.clearEdges
  | .editMeta metadata => { s with cell := { s.cell with metadata := metadata } }
  | .foreign tree bindings => { s with tree := tree, bindings := bindings }

/-- A new cell with any slots, repeated keys included, and any metadata, in any
state of the rest of the engine. -/
def Initial (s : CellState) : Prop :=
  s.tree.Wf ∧ ∃ props metadata, s.cell = ObjectCell.new props metadata

/-- One operation whose contract is met. -/
def Step (s t : CellState) : Prop := ∃ op : Op, op.Allowed s ∧ t = s.apply op

/-- Other cells' steps leave this cell's layout alone, or it does not matter. -/
theorem ShapeOk.foreign (h : ShapeOk s) {tree : ShapeTree} {bindings : Nat → Value}
    (hop : (Op.foreign tree bindings).Allowed s) :
    ShapeOk { s with tree := tree, bindings := bindings } := by
  rcases hop with hn | ⟨hw, hsame⟩
  · exact Or.inl hn
  · rcases h with hn | ⟨-, hfits⟩
    · exact Or.inl hn
    · refine Or.inr ⟨hw, ?_⟩
      intro shape hshape
      obtain ⟨ks, hks, hfit⟩ := hfits shape hshape
      exact ⟨ks, (hsame shape hshape).trans hks, hfit⟩

/-- Every operation keeps the invariant. -/
theorem Coherent.apply (h : Coherent s) {op : Op} (hop : op.Allowed s) : Coherent (s.apply op) := by
  cases op with
  | ownIndex key => exact h.ownIndex key
  | ownValue key => exact h.ownValue key
  | setCellProp shared key value => exact h.setCellProp shared key value
  | appendNewSlot shared key value => exact h.appendNewSlot shared value hop
  | setSlotVerified i key value => exact h.setSlotVerified i key value
  | noteMutated =>
    refine .of_index_none ?_ rfl
    rcases h.shapeOk with hn | ⟨hw, -⟩
    · exact Or.inl hn
    · exact Or.inr ⟨hw, fun shape hshape => absurd hshape (by simp [CellState.apply, noteMutated])⟩
  | borrowMut slots => exact .of_index_none (Or.inl hop) rfl
  | borrowPush shared key value => exact h.borrowPush shared value hop
  | deref => exact .of_index_none (h.shapeOk.congr rfl rfl rfl) rfl
  | rawWrite slots => exact .of_index_none (Or.inl hop.2) (h.disabled hop.1)
  | clearEdges =>
    exact .of_index_none (Or.inl (by simp [CellState.apply, CellState.clearEdges])) rfl
  | editMeta metadata => exact h.congr (h.shapeOk.congr rfl rfl rfl) rfl rfl rfl
  | foreign tree bindings => exact h.congr (h.shapeOk.foreign hop) rfl rfl rfl

theorem Initial.coherent (h : Initial s) : Coherent s := by
  obtain ⟨hw, props, metadata, hcell⟩ := h
  refine .of_index_none (Or.inr ⟨hw, ?_⟩) ?_
  · intro shape hshape
    rw [hcell] at hshape
    exact absurd hshape (by simp [ObjectCell.new])
  · rw [hcell]; rfl

theorem coherent_of_reachable (h : Reachable Initial Step s) : Coherent s := by
  refine Reachable.invariant (I := Coherent) (fun s hs => hs.coherent) ?_ h
  rintro s t hs ⟨op, hop, rfl⟩
  exact hs.apply hop

/-- **The index is sound in every run.**  Whatever caches a cell has accumulated,
`own_index` answers with the first slot that holds the key, and misses exactly
when no slot does; where keys are unique, that is the only slot holding it. -/
theorem ownIndex_sound {s : CellState} (h : Reachable Initial Step s) (key : String) :
    (s.ownIndex key).1 = position s.cell.slots key ∧
      ((s.ownIndex key).1 = none ↔ key ∉ keys s.cell.slots) ∧
      ((keys s.cell.slots).Nodup →
        ∀ i, (s.ownIndex key).1 = some i ↔ (keys s.cell.slots)[i]? = some key) := by
  rw [ownIndex_coherent (coherent_of_reachable h) key]
  exact ⟨rfl, position_eq_none, fun hn i => position_eq_some_iff hn⟩

/-- The object `{p: 1, q: 2}` whose shape two reads have built … -/
def warmed : CellState :=
  let cell := ObjectCell.new [("p", .bool true), ("q", .bool false)] {}
  let s := CellState.mk cell ShapeTree.initial (fun _ => .undefined)
  (s.apply (.ownIndex "p")).apply (.ownIndex "p")

/-- … and then a host bridge replaces its slots. -/
def bypassed : CellState := warmed.apply (.borrowMut [("z", .null)])

/-- The stale shape heals: the index misses the old key and finds the new one. -/
theorem ownIndex_sound_bypassed :
    (bypassed.ownIndex "p").1 = none ∧ (bypassed.ownIndex "z").1 = some 0 ∧
      bypassed.shapeSlot "p" = some 0 := by
  have hreach : Reachable Initial Step bypassed := by
    have hwarmed : Reachable Initial Step warmed :=
      ((Reachable.start ⟨ShapeTree.wf_initial, _, _, rfl⟩).next
        ⟨.ownIndex "p", trivial, rfl⟩).next ⟨.ownIndex "p", trivial, rfl⟩
    exact hwarmed.next ⟨.borrowMut [("z", .null)], by simp [Op.Allowed], rfl⟩
  refine ⟨?_, ?_, by decide⟩
  · rw [(ownIndex_sound hreach "p").2.1]
    decide
  · rw [(ownIndex_sound hreach "z").1]
    decide

end NapiVm.CellState
