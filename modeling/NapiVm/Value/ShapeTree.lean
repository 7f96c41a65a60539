import Mathlib.Algebra.Group.Nat.Defs
import NapiVm.Value.Shape

/-!
# Well-formed shape trees

The nodes of a shape tree agree with each other: the root is the empty layout,
every index is the index of its key list, a memoised transition leads to the
layout with one more key, and dictionary-sized layouts remember no transition.

* `Wf` — that agreement, kept by `fresh`, `add`, `append` and `rebuild`.
* `Fits` — a layout fits a key list when it never points past the first
  occurrence of a key; `rebuild_spec` says that a rebuilt layout fits the keys it
  was rebuilt from, repeated keys included.
-/

namespace NapiVm.ShapeTree

/-- The key list of a shape. -/
def keysOf (t : ShapeTree) (shape : Nat) : Option (List String) := (t.nodes[shape]?).map Shape.keys

/-- The tree's nodes agree with each other. -/
structure Wf (t : ShapeTree) : Prop where
  root : t.keysOf t.root = some []
  index : ∀ (i : Nat) (s : Shape), t.nodes[i]? = some s → s.index = indexOf s.keys
  child : ∀ (i : Nat) (s : Shape), t.nodes[i]? = some s → ∀ k c, (k, c) ∈ s.transitions →
    t.keysOf c = some (s.keys ++ [k])
  large : ∀ (i : Nat) (s : Shape), t.nodes[i]? = some s → 128 ≤ s.keys.length → s.transitions = []

theorem wf_initial : Wf initial := by
  have hnode : ∀ (i : Nat) (s : Shape), initial.nodes[i]? = some s → s = ⟨1, [], PMap.empty, []⟩ := by
    intro i s h
    cases i with
    | zero => exact (Option.some.inj h).symm
    | succ i => simp [initial] at h
  refine ⟨rfl, ?_, ?_, ?_⟩
  · intro i s h
    obtain rfl := hnode i s h
    rfl
  · intro i s h k c hc
    obtain rfl := hnode i s h
    simp at hc
  · intro i s h _
    obtain rfl := hnode i s h
    rfl

variable {t : ShapeTree} {shape i : Nat} {ks js : List String} {s : Shape} {key : String}

/-- In a well-formed tree a shape answers with the first position in its key list. -/
theorem slotOf_eq (hw : Wf t) (hks : t.keysOf shape = some ks) (key : String) :
    t.slotOf shape key = (Slots.firstIndex ks key).map (fun i => i % 2 ^ 32) := by
  obtain ⟨s, hs, rfl⟩ := Option.map_eq_some_iff.1 hks
  simp only [slotOf, hs, Option.bind_some, hw.index shape s hs, indexOf, Option.map_map]
  congr 1

/-! ## Fresh nodes and transitions -/

theorem fresh_keysOf (t : ShapeTree) (ks : List String) :
    (t.fresh ks).2.keysOf (t.fresh ks).1 = some ks := by
  simp [fresh, keysOf, takeId]

theorem fresh_old (ks : List String) (hs : t.nodes[i]? = some s) :
    (t.fresh ks).2.nodes[i]? = some s := by
  have hi := (List.getElem?_eq_some_iff.1 hs).1
  simpa [fresh, takeId, List.getElem?_append_left hi] using hs

theorem fresh_keysOf_old (ks : List String) (h : t.keysOf i = some js) :
    (t.fresh ks).2.keysOf i = some js := by
  obtain ⟨s, hs, rfl⟩ := Option.map_eq_some_iff.1 h
  exact congrArg (Option.map Shape.keys) (fresh_old ks hs)

theorem fresh_node (h : (t.fresh ks).2.nodes[i]? = some s) :
    t.nodes[i]? = some s ∨ (s.keys = ks ∧ s.index = indexOf ks ∧ s.transitions = []) := by
  simp only [fresh, takeId] at h
  by_cases hi : i < t.nodes.length
  · left
    rwa [List.getElem?_append_left hi] at h
  · right
    rw [List.getElem?_append_right (by omega)] at h
    cases hj : i - t.nodes.length with
    | zero =>
      rw [hj] at h
      obtain rfl := (Option.some.inj h).symm
      exact ⟨rfl, rfl, rfl⟩
    | succ j =>
      rw [hj] at h
      simp at h

theorem Wf.fresh (hw : Wf t) (ks : List String) : Wf (t.fresh ks).2 := by
  refine ⟨fresh_keysOf_old ks hw.root, ?_, ?_, ?_⟩
  · intro i s h
    rcases fresh_node h with h | ⟨hk, hi, -⟩
    · exact hw.index i s h
    · rw [hi, hk]
  · intro i s h k c hc
    rcases fresh_node h with h | ⟨-, -, ht⟩
    · exact fresh_keysOf_old ks (hw.child i s h k c hc)
    · simp [ht] at hc
  · intro i s h hlen
    rcases fresh_node h with h | ⟨-, -, ht⟩
    · exact hw.large i s h hlen
    · exact ht

/-- Overwriting a node by one with the same `f` changes no `f`. -/
theorem map_set {β : Type} (f : Shape → β) {s' : Shape} (hs : t.nodes[shape]? = some s)
    (hf : f s' = f s) (i : Nat) :
    ((t.nodes.set shape s')[i]?).map f = (t.nodes[i]?).map f := by
  by_cases h : shape = i
  · subst h
    rw [List.getElem?_set_self (List.getElem?_eq_some_iff.1 hs).1, hs]
    simp [hf]
  · simp [h]

theorem set_node {nodes : List Shape} {s' : Shape} (h : (nodes.set shape s')[i]? = some s) :
    s = s' ∧ shape = i ∨ nodes[i]? = some s := by
  by_cases hi : shape = i
  · subst hi
    by_cases hlt : shape < nodes.length
    · rw [List.getElem?_set_self hlt] at h
      exact Or.inl ⟨(Option.some.inj h).symm, rfl⟩
    · simp [hlt] at h
  · rw [List.getElem?_set_ne hi] at h
    exact Or.inr h

/-- Remembering a child of a small layout. -/
theorem remember_spec (hw : Wf t) {child : Nat} (hs : t.nodes[shape]? = some s)
    (hc : t.keysOf child = some (s.keys ++ [key])) (hlen : s.keys.length < 128) :
    let memo := { s with transitions := s.transitions ++ [(key, child)] }
    let t' : ShapeTree := { t with nodes := t.nodes.set shape memo }
    Wf t' ∧ t'.keysOf child = some (s.keys ++ [key]) := by
  intro memo t'
  have hkeys : ∀ i, t'.keysOf i = t.keysOf i := map_set Shape.keys hs rfl
  refine ⟨⟨(hkeys _).trans hw.root, ?_, ?_, ?_⟩, (hkeys child).trans hc⟩
  · intro i s' h
    rcases set_node h with ⟨rfl, -⟩ | h
    · exact hw.index shape s hs
    · exact hw.index i s' h
  · intro i s' h k c hkc
    rw [hkeys]
    rcases set_node h with ⟨rfl, -⟩ | h
    · rcases List.mem_append.1 hkc with hold | hnew
      · exact hw.child shape s hs k c hold
      · obtain ⟨rfl, rfl⟩ := Prod.mk.inj (List.mem_singleton.1 hnew)
        exact hc
    · exact hw.child i s' h k c hkc
  · intro i s' h hbig
    rcases set_node h with ⟨rfl, -⟩ | h
    · exact absurd hbig (by simpa [memo] using hlen)
    · exact hw.large i s' h hbig

/-- **A transition adds one key**, whether it is followed or created. -/
theorem add_spec (hw : Wf t) (hks : t.keysOf shape = some ks) (key : String) :
    Wf (t.add shape key).2 ∧ (t.add shape key).2.keysOf (t.add shape key).1 = some (ks ++ [key]) := by
  obtain ⟨s, hs, rfl⟩ := Option.map_eq_some_iff.1 hks
  unfold add
  rw [hs]
  dsimp only
  split
  · next child hchild => exact ⟨hw, hw.child shape s hs key child (Slots.mem_of_get hchild)⟩
  · have hchild := fresh_keysOf t (s.keys ++ [key])
    split
    · next hlen =>
        exact remember_spec (hw.fresh _) (fresh_old _ hs) hchild hlen
    · exact ⟨hw.fresh _, hchild⟩

/-- Extending an index in place indexes the longer list. -/
theorem indexOf_push (ks : List String) (key : String) :
    (indexOf ks).insertIfNew key (UInt32.ofNat ks.length) = indexOf (ks ++ [key]) := by
  funext j
  rw [PMap.insertIfNew_apply]
  simp only [indexOf, Slots.firstIndex_push]
  cases Slots.firstIndex ks j with
  | some i => simp
  | none => by_cases h : j = key <;> simp [h]

theorem not_owned (h : t.owned shape = false) :
    t.root ≠ shape ∧ ∀ (i : Nat) (s : Shape), t.nodes[i]? = some s → ∀ k, (k, shape) ∉ s.transitions := by
  simp only [owned, Bool.or_eq_false_iff, beq_eq_false_iff_ne, List.any_eq_false,
    Bool.not_eq_true] at h
  refine ⟨h.1, ?_⟩
  intro i s hs k hk
  exact h.2 s (List.mem_of_getElem? hs) (k, shape) hk rfl

/-- Growing an unowned large layout in place leaves the other layouts alone. -/
theorem append_in_place (hw : Wf t) (hs : t.nodes[shape]? = some s) (hlen : 128 ≤ s.keys.length)
    (ho : t.owned shape = false) (id : UInt32) (next : UInt32) :
    let layout := Shape.mk id (s.keys ++ [key])
      (s.index.insertIfNew key (UInt32.ofNat s.keys.length)) s.transitions
    let t' : ShapeTree := { t with nextShapeId := next, nodes := t.nodes.set shape layout }
    Wf t' ∧ t'.keysOf shape = some (s.keys ++ [key]) := by
  intro layout t'
  obtain ⟨hroot, hnochild⟩ := not_owned ho
  have hlt : shape < t.nodes.length := (List.getElem?_eq_some_iff.1 hs).1
  have hother : ∀ i, i ≠ shape → t'.keysOf i = t.keysOf i := by
    intro i hi
    simp [t', keysOf, List.getElem?_set_ne (Ne.symm hi)]
  refine ⟨⟨(hother _ hroot).trans hw.root, ?_, ?_, ?_⟩, ?_⟩
  · intro i s' h
    rcases set_node h with ⟨rfl, -⟩ | h
    · show s.index.insertIfNew _ _ = indexOf (s.keys ++ [key])
      rw [hw.index shape s hs, indexOf_push]
    · exact hw.index i s' h
  · intro i s' h k c hkc
    rcases set_node h with ⟨rfl, -⟩ | hold
    · have hnone : s.transitions = [] := hw.large shape s hs hlen
      have hmem : (k, c) ∈ s.transitions := hkc
      simp [hnone] at hmem
    · have hne : c ≠ shape := by
        rintro rfl
        exact hnochild i s' hold k hkc
      rw [hother c hne]
      exact hw.child i s' hold k c hkc
  · intro i s' h hbig
    rcases set_node h with ⟨rfl, -⟩ | h
    · exact hw.large shape s hs hlen
    · exact hw.large i s' h hbig
  · simp [t', layout, keysOf, hlt]

/-- **`append` adds one key**, in place or by a transition. -/
theorem append_spec (hw : Wf t) (hks : t.keysOf shape = some ks) (shared : Bool) (key : String) :
    Wf (t.append shape shared key).2 ∧
      (t.append shape shared key).2.keysOf (t.append shape shared key).1 = some (ks ++ [key]) := by
  obtain ⟨s, hs, rfl⟩ := Option.map_eq_some_iff.1 hks
  unfold append
  rw [hs]
  dsimp only
  split
  · next hcond =>
      simp only [Bool.and_eq_true, decide_eq_true_eq, Bool.not_eq_true'] at hcond
      exact append_in_place hw hs hcond.1.1 hcond.2 _ _
  · exact add_spec hw hks key

/-! ## Layouts that fit a key list -/

/-- `ks` never points past the first occurrence of a key in `js`. -/
structure Fits (ks js : List String) : Prop where
  length : ks.length ≤ js.length
  below : ∀ k i j, Slots.firstIndex ks k = some i → Slots.firstIndex js k = some j → i ≤ j

theorem Fits.refl (ks : List String) : Fits ks ks :=
  ⟨Nat.le_refl _, fun k i j hi hj => by rw [hi] at hj; exact Nat.le_of_eq (Option.some.inj hj)⟩

/-- Both lists grow by a key that is new to them. -/
theorem Fits.push (h : Fits ks js) (hj : key ∉ js) (hk : key ∉ ks) :
    Fits (ks ++ [key]) (js ++ [key]) := by
  refine ⟨by simpa using h.length, ?_⟩
  intro k i j hi hj'
  rw [Slots.firstIndex_push] at hi hj'
  by_cases hkey : k = key
  · subst hkey
    rw [Slots.firstIndex_eq_none.2 hk] at hi
    rw [Slots.firstIndex_eq_none.2 hj] at hj'
    have hlen := h.length
    simp only [Option.none_or, if_true, Option.some.injEq] at hi hj'
    omega
  · simp only [hkey, if_false, Option.or_none] at hi hj'
    exact h.below k i j hi hj'

/-- The first position survives appending. -/
theorem firstIndex_append_of_some {k : String} {j : Nat} (h : Slots.firstIndex js k = some j)
    (key : String) : Slots.firstIndex (js ++ [key]) k = some j := by
  rw [Slots.firstIndex_push, h]
  rfl

/-- The list grows by a key it has already. -/
theorem Fits.skip (h : Fits ks js) (hsub : ks ⊆ js) (key : String) : Fits ks (js ++ [key]) := by
  refine ⟨Nat.le_trans h.length (by simp), ?_⟩
  intro k i j hi hj
  have hmem : k ∈ ks := by
    by_contra hk
    rw [Slots.firstIndex_eq_none.2 hk] at hi
    exact absurd hi (by simp)
  cases hjs : Slots.firstIndex js k with
  | none => exact absurd (hsub hmem) (Slots.firstIndex_eq_none.1 hjs)
  | some j' =>
    rw [firstIndex_append_of_some hjs key] at hj
    obtain rfl := Option.some.inj hj
    exact h.below k i _ hi hjs

/-- The replay loop: with `done` behind it, the layout holds exactly the keys seen
so far and fits them. -/
theorem replay_spec (hw : Wf t) (hks : t.keysOf shape = some ks) (done rest : List String)
    (hfit : Fits ks done) (hsub : ks ⊆ done) (hsup : done ⊆ ks) :
    Wf (t.replay shape rest).2 ∧
      ∃ ks', (t.replay shape rest).2.keysOf (t.replay shape rest).1 = some ks' ∧
        Fits ks' (done ++ rest) := by
  induction rest generalizing t shape ks done with
  | nil =>
    refine ⟨hw, ks, hks, ?_⟩
    rwa [List.append_nil]
  | cons key rest ih =>
    unfold replay
    have hassoc : done ++ key :: rest = (done ++ [key]) ++ rest := by simp
    have hsome : (t.slotOf shape key).isSome = true ↔ key ∈ ks := by
      rw [slotOf_eq hw hks, Option.isSome_map, Option.isSome_iff_ne_none, Ne,
        Slots.firstIndex_eq_none, not_not]
    split
    · next hin =>
        have hkey : key ∈ ks := hsome.1 hin
        rw [hassoc]
        refine ih hw hks _ (hfit.skip hsub key) ?_ ?_
        · exact fun k hk => List.mem_append_left _ (hsub hk)
        · intro k hk
          rcases List.mem_append.1 hk with hk | hk
          · exact hsup hk
          · rwa [List.mem_singleton.1 hk]
    · next hout =>
        have hkey : key ∉ ks := fun h => hout (hsome.2 h)
        obtain ⟨hw', hks'⟩ := add_spec hw hks key
        rw [hassoc]
        refine ih hw' hks' _ (hfit.push (fun h => hkey (hsup h)) hkey) ?_ ?_
        · exact List.append_subset.2
            ⟨fun k hk => List.mem_append_left _ (hsub hk), List.subset_append_right _ _⟩
        · exact List.append_subset.2
            ⟨fun k hk => List.mem_append_left _ (hsup hk), List.subset_append_right _ _⟩

/-- **A rebuilt layout fits its keys.** -/
theorem rebuild_spec (hw : Wf t) (keys : List String) :
    Wf (t.rebuild keys).2 ∧
      ∃ ks, (t.rebuild keys).2.keysOf (t.rebuild keys).1 = some ks ∧ Fits ks keys := by
  unfold rebuild
  split
  · exact ⟨hw.fresh keys, keys, fresh_keysOf t keys, Fits.refl keys⟩
  · exact replay_spec hw hw.root [] keys (Fits.refl []) (List.Subset.refl _) (List.Subset.refl _)

end NapiVm.ShapeTree
