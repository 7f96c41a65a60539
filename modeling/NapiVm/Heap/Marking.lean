import NapiVm.Heap.Marker
import NapiVm.Lib.Ephemeron
import Mathlib.Data.Finset.Card

/-!
# Marking is ephemeron reachability

* `ids` — the identities a reference reaches at once; `graph` — the heap as a
  graph with ephemerons over identities.
* `Touches` — what every marking operation does to a marker: it adds identities,
  queues the new containers and reports the new identities.
-/

namespace NapiVm

/-! ## The heap as a graph -/

/-- The identities `mark_value` marks. -/
def GcValue.ids (h : Heap) (v : GcValue) : List HeapId :=
  ((h.exoticProperties v).toList.map .object) ++
    match v with
    | .inert => []
    | .realmGlobal env => [.env env]
    | .hostPending _ => []
    | .object props => [.object props]
    | .array cell => [.array cell]
    | .function data => [.function data]
    | .hostFunction properties => [.object properties]
    | .classValue constructor prototype statics =>
      constructor.ids h ++ prototype.ids h ++ [.object statics]
    | .promise inner => [.promise inner]
    | .generator inner => [.generator inner]
    | .proxy data => [.proxy data]
    | .binding cell => [.binding cell]
    | .asyncTask inner => [.asyncTask inner]
    | .view data _ buffer bufferProperties =>
      [.other data, .object bufferProperties, .other buffer]
    | .stringIterator inner _ => [.other inner]
    | .exotic addr _ => [.other addr]
    | .identity addr => [.other addr]

/-- The identities a reference reaches at once. -/
def Ref.ids (h : Heap) : Ref → List HeapId
  | .value v => v.ids h
  | .env addr => [.env addr]
  | .cell addr => [.object addr]
  | .promise addr => [.promise addr]

/-- The heap as a graph: strong edges as the tracer reports them, and an
ephemeron for every entry of a weak map. -/
def Heap.graph (h : Heap) (roots : List Ref) : EphemeronGraph HeapId where
  roots := {i | ∃ r ∈ roots, i ∈ r.ids h}
  strong := fun i => {j | ∃ r ∈ h.refs i, j ∈ r.ids h}
  ephemeron := fun map key => {j | ∃ a v, map = .object a ∧ (key, v) ∈ h.entries a ∧ j ∈ v.ids h}

/-- Every reference held somewhere in the heap. -/
def Heap.allRefs (h : Heap) : List Ref :=
  (h.objects.flatMap fun p => h.refs (.object p.1)) ++
    (h.arrays.flatMap fun p => h.refs (.array p.1)) ++
    (h.envs.flatMap fun p => h.refs (.env p.1)) ++
    (h.functions.flatMap fun p => h.refs (.function p.1)) ++
    (h.promises.flatMap fun p => h.refs (.promise p.1)) ++
    (h.generators.flatMap fun p => h.refs (.generator p.1)) ++
    (h.proxies.flatMap fun p => h.refs (.proxy p.1)) ++
    (h.bindings.flatMap fun p => h.refs (.binding p.1)) ++
    (h.asyncTasks.flatMap fun p => h.refs (.asyncTask p.1)) ++
    (h.objects.flatMap fun p => (h.entries p.1).map fun e => .value e.2)

/-- The identities a collection can ever mark. -/
def Heap.universe (h : Heap) (roots : List Ref) : Finset HeapId :=
  ((roots ++ h.allRefs).flatMap (Ref.ids h)).toFinset

theorem mem_universe {h : Heap} {roots : List Ref} {r : Ref} (hr : r ∈ roots ++ h.allRefs)
    {i : HeapId} (hi : i ∈ r.ids h) : i ∈ h.universe roots :=
  List.mem_toFinset.2 (List.mem_flatMap.2 ⟨r, hr, hi⟩)

/-- A container that holds a reference is in the tables. -/
theorem mem_flatMap_of_get {β γ : Type} {s : Slots Nat β} {a : Nat} {f : β → List γ} {x : γ}
    (h : x ∈ (Slots.get s a).toList.flatMap f) : ∃ b, (a, b) ∈ s := by
  obtain ⟨b, hb, -⟩ := List.mem_flatMap.1 h
  exact ⟨b, Slots.mem_of_get (Option.mem_toList.1 hb)⟩

theorem refs_subset_allRefs {h : Heap} {id : HeapId} {r : Ref} (hr : r ∈ h.refs id) :
    r ∈ h.allRefs := by
  have hin : ∀ (tag : Nat → HeapId) {β : Type} {s : Slots Nat β} {a : Nat} {b : β},
      (a, b) ∈ s → r ∈ h.refs (tag a) → r ∈ s.flatMap fun p => h.refs (tag p.1) :=
    fun _ _ _ _ _ hab hr => List.mem_flatMap.2 ⟨_, hab, hr⟩
  simp only [Heap.allRefs, List.mem_append]
  cases id with
  | object a =>
    obtain ⟨v, hv, -⟩ := List.mem_map.1 hr
    obtain ⟨b, hb⟩ := mem_flatMap_of_get hv
    have := hin .object hb hr
    tauto
  | array a =>
    obtain ⟨v, hv, -⟩ := List.mem_map.1 hr
    obtain ⟨b, hb⟩ := mem_flatMap_of_get hv
    have := hin .array hb hr
    tauto
  | env a =>
    obtain ⟨b, hb⟩ := mem_flatMap_of_get hr
    have := hin .env hb hr
    tauto
  | function a =>
    obtain ⟨b, hb⟩ := mem_flatMap_of_get hr
    have := hin .function hb hr
    tauto
  | promise a =>
    obtain ⟨b, hb⟩ := mem_flatMap_of_get hr
    have := hin .promise hb hr
    tauto
  | generator a =>
    obtain ⟨b, hb⟩ := mem_flatMap_of_get hr
    have := hin .generator hb hr
    tauto
  | proxy a =>
    obtain ⟨v, hv, -⟩ := List.mem_map.1 hr
    obtain ⟨b, hb⟩ := mem_flatMap_of_get hv
    have := hin .proxy hb hr
    tauto
  | binding a =>
    obtain ⟨b, hb, -⟩ := List.mem_map.1 hr
    have := hin .binding (Slots.mem_of_get (Option.mem_toList.1 hb)) hr
    tauto
  | asyncTask a =>
    obtain ⟨b, hb⟩ := mem_flatMap_of_get hr
    have := hin .asyncTask hb hr
    tauto
  | other a => simp [Heap.refs] at hr

theorem entry_mem_allRefs {h : Heap} {a : Nat} {e : HeapId × GcValue} (he : e ∈ h.entries a) :
    Ref.value e.2 ∈ h.allRefs := by
  have hcell : ∃ n, (a, n) ∈ h.objects := by
    cases hn : Slots.get h.objects a with
    | none => simp [Heap.entries, Heap.weakOf, hn] at he
    | some n => exact ⟨n, Slots.mem_of_get hn⟩
  obtain ⟨n, hn⟩ := hcell
  simp only [Heap.allRefs, List.mem_append]
  right
  exact List.mem_flatMap.2 ⟨_, hn, List.mem_map.2 ⟨e, he, rfl⟩⟩

namespace Marker

/-! ## Marking operations -/

/-- `m'` is `m` after marking `ids`: the new ones are reported, the new containers
queued. -/
def Touches (m m' : Marker) (ids : List HeapId) : Prop :=
  ∃ added : List HeapId, added.Nodup ∧ (∀ i, i ∈ added ↔ i ∈ ids ∧ i ∉ m.marked) ∧
    m'.marked = m.marked ∪ ids.toFinset ∧ m'.newlyMarked = added ++ m.newlyMarked ∧
    m'.work = added.filter HeapId.traced ++ m.work ∧
    (m'.weakCells = m.weakCells ∧ m'.borrowed = m.borrowed)

variable {m m' : Marker} {i : HeapId}

/-- Nothing that concerns the loop changed. -/
theorem Touches.of_eq (h₁ : m'.marked = m.marked) (h₂ : m'.work = m.work)
    (h₃ : m'.newlyMarked = m.newlyMarked)
    (h₄ : m'.weakCells = m.weakCells ∧ m'.borrowed = m.borrowed) : Touches m m' [] :=
  ⟨[], by simp, by simp, by simp [h₁], by simp [h₃], by simp [h₂], h₄⟩

theorem Touches.refl (m : Marker) : Touches m m [] := .of_eq rfl rfl rfl ⟨rfl, rfl⟩

theorem Touches.trans {m'' : Marker} {xs ys : List HeapId} (h₁ : Touches m m' xs)
    (h₂ : Touches m' m'' ys) : Touches m m'' (xs ++ ys) := by
  obtain ⟨as, hn₁, hm₁, hk₁, hr₁, hw₁, hc₁⟩ := h₁
  obtain ⟨bs, hn₂, hm₂, hk₂, hr₂, hw₂, hc₂⟩ := h₂
  have hmem : ∀ i, i ∈ m'.marked ↔ i ∈ m.marked ∨ i ∈ xs := by
    intro i
    rw [hk₁, Finset.mem_union, List.mem_toFinset]
  refine ⟨bs ++ as, ?_, ?_, ?_, ?_, ?_, hc₂.1.trans hc₁.1, hc₂.2.trans hc₁.2⟩
  · refine List.Nodup.append hn₂ hn₁ ?_
    intro i hb ha
    have hfresh := ((hm₂ i).1 hb).2
    rw [hmem] at hfresh
    exact hfresh (Or.inr ((hm₁ i).1 ha).1)
  · intro i
    rw [List.mem_append, hm₁, hm₂, hmem, List.mem_append]
    tauto
  · rw [hk₂, hk₁, List.toFinset_append, Finset.union_assoc]
  · rw [hr₂, hr₁, List.append_assoc]
  · rw [hw₂, hw₁, List.filter_append, List.append_assoc]

theorem touches_known (h : i ∈ m.marked) : Touches m m [i] := by
  refine ⟨[], by simp, ?_, ?_, rfl, rfl, rfl, rfl⟩
  · intro j
    simp only [List.mem_singleton, List.not_mem_nil, false_iff, not_and, not_not]
    rintro rfl
    exact h
  · simp [Finset.insert_eq_of_mem h]

theorem touches_new (h : i ∉ m.marked) (hk : m'.marked = insert i m.marked)
    (hr : m'.newlyMarked = i :: m.newlyMarked) (hw : m'.work = [i].filter HeapId.traced ++ m.work)
    (hc : m'.weakCells = m.weakCells ∧ m'.borrowed = m.borrowed) : Touches m m' [i] := by
  refine ⟨[i], by simp, ?_, by simp [hk], hr, hw, hc⟩
  intro j
  simp only [List.mem_singleton]
  constructor
  · rintro rfl; exact ⟨rfl, h⟩
  · exact fun hj => hj.1

theorem touches_mark (m : Marker) (h : i.traced = false) : Touches m (m.mark i).2 [i] := by
  unfold mark
  split
  · next hin => exact touches_known hin
  · next hout => exact touches_new hout rfl rfl (by simp [h]) ⟨rfl, rfl⟩

theorem touches_markItem (m : Marker) (h : i.traced = true) : Touches m (m.markItem i) [i] := by
  unfold markItem mark
  by_cases hin : i ∈ m.marked
  · simp only [hin, if_true]
    exact touches_known hin
  · simp only [hin, if_false, if_true]
    exact touches_new hin rfl rfl (by simp [h]) ⟨rfl, rfl⟩

theorem touches_exotic (h : Heap) (m : Marker) (v : GcValue) :
    Touches m (match h.exoticProperties v with
      | some properties => m.markItem (.object properties)
      | none => m) ((h.exoticProperties v).toList.map .object) := by
  cases h.exoticProperties v with
  | none => exact .refl m
  | some p => exact touches_markItem m rfl

/-- **`mark_value` marks the identities of its value.** -/
theorem touches_markValue (h : Heap) (m : Marker) (v : GcValue) :
    Touches m (m.markValue h v) (v.ids h) := by
  induction v generalizing m with
  | classValue c p s ihc ihp =>
    refine (touches_exotic h m _).trans ?_
    exact ((ihc _).trans (ihp _)).trans (touches_markItem _ (i := .object s) rfl)
  | inert => exact (touches_exotic h m _).trans (.refl _)
  | hostPending id => exact (touches_exotic h m _).trans (.of_eq rfl rfl rfl ⟨rfl, rfl⟩)
  | view d p b bp =>
    refine (touches_exotic h m _).trans ?_
    exact ((touches_mark _ (i := .other d) rfl).trans
      (touches_markItem _ (i := .object bp) rfl)).trans (touches_mark _ (i := .other b) rfl)
  | stringIterator | exotic | identity =>
    exact (touches_exotic h m _).trans (touches_mark _ rfl)
  | realmGlobal | object | array | function | hostFunction | promise | generator | proxy |
      binding | asyncTask =>
      exact (touches_exotic h m _).trans (touches_markItem _ rfl)

theorem touches_markRef (h : Heap) (m : Marker) (r : Ref) :
    Touches m (m.markRef h r) (r.ids h) := by
  cases r with
  | value v => exact touches_markValue h m v
  | env a | cell a | promise a => exact touches_markItem m rfl

theorem touches_markRefs (h : Heap) (m : Marker) (rs : List Ref) :
    Touches m (rs.foldl (markRef h) m) (rs.flatMap (Ref.ids h)) := by
  induction rs generalizing m with
  | nil => exact .refl m
  | cons r rs ih => exact (touches_markRef h m r).trans (ih _)

theorem touches_markValues (h : Heap) (m : Marker) (vs : List GcValue) :
    Touches m (vs.foldl (markValue h) m) (vs.flatMap (GcValue.ids h)) := by
  induction vs generalizing m with
  | nil => exact .refl m
  | cons v vs ih => exact (touches_markValue h m v).trans (ih _)

end Marker

end NapiVm
