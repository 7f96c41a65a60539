import NapiVm.Lib.Run
import NapiVm.Value.ShapeTree

/-!
# Shape ids name layouts

Many cells of a thread hold a shape of one tree.  Their operations interleave, and a
layout that nobody else holds grows in place.  Inline caches compare ids only.

* `Later` — what a tree may become: an id keeps the layout it was minted for.
* `ids_name_layouts` — over whole runs, no holder sees another one's keys, and two
  shapes with one id have one layout, however far apart in time they are seen.
-/

namespace NapiVm

namespace ShapeTree

variable {t t' t'' : ShapeTree} {past : PMap UInt32 (List String)} {shape n m : Nat} {s : Shape}

/-- `past` knows the layout of every id that was minted. -/
structure Named (past : PMap UInt32 (List String)) (t : ShapeTree) : Prop where
  now : ∀ x ∈ t.nodes, past x.id = some x.keys
  below : ∀ id ks, past id = some ks → id < t.nextShapeId

/-- Minted ids keep their layouts. -/
def Later (t t' : ShapeTree) : Prop :=
  ∀ past, Named past t → ∃ past', past.Le past' ∧ Named past' t'

theorem Later.refl (t : ShapeTree) : Later t t := fun past h => ⟨past, fun _ _ => id, h⟩

theorem Later.trans (h : Later t t') (h' : Later t' t'') : Later t t'' := by
  intro past hn
  obtain ⟨past', hold, hn'⟩ := h past hn
  obtain ⟨past'', hold', hn''⟩ := h' past' hn'
  exact ⟨past'', fun id ks hid => hold' id ks (hold id ks hid), hn''⟩

theorem named_initial : Named (PMap.empty.insert 1 []) initial where
  now x hx := by
    obtain rfl := List.mem_singleton.1 hx
    rfl
  below id ks hid := by
    rcases PMap.insert_cases hid with ⟨rfl, -⟩ | ⟨-, hid⟩
    · decide
    · cases hid

theorem next_takeId (hroom : t.nextShapeId.toNat + 1 < 2 ^ 32) :
    t.takeId.2.nextShapeId.toNat = t.nextShapeId.toNat + 1 := by
  have hnext : (t.nextShapeId + 1).toNat = t.nextShapeId.toNat + 1 := by
    rw [UInt32.toNat_add]
    exact Nat.mod_eq_of_lt hroom
  show (if t.nextShapeId + 1 ≤ 1 then 1 else t.nextShapeId + 1).toNat = _
  split
  · next h =>
    rw [UInt32.le_iff_toNat_le, hnext] at h
    exact Nat.le_antisymm (Nat.le_add_left ..) h
  · exact hnext

/-- A new id, for one new layout. -/
theorem later_mint {nodes : List Shape} (ks : List String)
    (hroom : t.nextShapeId.toNat + 1 < 2 ^ 32)
    (hnodes : ∀ x ∈ nodes, x ∈ t.nodes ∨ x.id = t.nextShapeId ∧ x.keys = ks) :
    Later t { t.takeId.2 with nodes := nodes } := by
  intro past h
  have hlt : t.nextShapeId < t.takeId.2.nextShapeId := by
    rw [UInt32.lt_iff_toNat_lt, next_takeId hroom]
    exact Nat.lt_succ_self _
  have hold : past.Le (past.insert t.nextShapeId ks) := by
    intro id js hid
    rw [PMap.insert_of_ne (by rintro rfl; exact UInt32.lt_irrefl _ (h.below _ _ hid)), hid]
  refine ⟨past.insert t.nextShapeId ks, hold, fun x hx => ?_, fun id js hid => ?_⟩
  · rcases hnodes x hx with hx | ⟨hid, hks⟩
    · exact hold _ _ (h.now x hx)
    · rw [hid, hks, PMap.insert_self]
  · rcases PMap.insert_cases hid with ⟨rfl, -⟩ | ⟨-, hid⟩
    · exact hlt
    · exact UInt32.lt_trans (h.below id js hid) hlt

/-- What minting at most `n` ids may do. -/
structure Grows (n : Nat) (t t' : ShapeTree) : Prop where
  minted : t'.nextShapeId.toNat ≤ t.nextShapeId.toNat + n
  keeps : ∀ i ks, t.keysOf i = some ks → t'.keysOf i = some ks
  later : Later t t'

theorem Grows.refl (n : Nat) (t : ShapeTree) : Grows n t t :=
  ⟨Nat.le_add_right .., fun _ _ => id, .refl t⟩

theorem Grows.mono (h : Grows n t t') (hle : n ≤ m) : Grows m t t' :=
  ⟨Nat.le_trans h.minted (Nat.add_le_add_left hle _), h.keeps, h.later⟩

theorem Grows.trans (h : Grows n t t') (h' : Grows m t' t'') : Grows (n + m) t t'' :=
  ⟨by have := h.minted; have := h'.minted; omega,
    fun i ks hi => h'.keeps i ks (h.keeps i ks hi), h.later.trans h'.later⟩

theorem grows_fresh (hroom : t.nextShapeId.toNat + 1 < 2 ^ 32) (ks : List String) :
    Grows 1 t (t.fresh ks).2 := by
  refine ⟨Nat.le_of_eq (next_takeId hroom), fun i js => fresh_keysOf_old ks, later_mint ks hroom ?_⟩
  intro x hx
  rcases List.mem_append.1 hx with hx | hx
  · exact .inl hx
  · obtain rfl := List.mem_singleton.1 hx
    exact .inr ⟨rfl, rfl⟩

theorem grows_remember (hs : t.nodes[shape]? = some s) (transitions : Slots String Nat) :
    Grows 0 t { t with nodes := t.nodes.set shape { s with transitions := transitions } } := by
  have hkeys : ∀ i, ((t.nodes.set shape { s with transitions := transitions })[i]?).map
      Shape.keys = t.keysOf i := map_set Shape.keys hs rfl
  refine ⟨Nat.le_refl _, fun i ks hi => (hkeys i).trans hi, fun past h =>
    ⟨past, fun _ _ => id, fun x hx => ?_, h.below⟩⟩
  rcases List.mem_or_eq_of_mem_set hx with hx | rfl
  · exact h.now x hx
  · exact h.now s (List.mem_of_getElem? hs)

theorem grows_add (hroom : t.nextShapeId.toNat + 1 < 2 ^ 32) (shape : Nat) (key : String) :
    Grows 1 t (t.add shape key).2 := by
  unfold add
  split
  · exact .refl 1 t
  · next s hs =>
    split
    · exact .refl 1 t
    · have hfresh := grows_fresh hroom (s.keys ++ [key])
      dsimp only
      split
      · exact hfresh.trans (grows_remember (fresh_old _ hs) _)
      · exact hfresh

theorem grows_replay {keys : List String} (hroom : t.nextShapeId.toNat + keys.length < 2 ^ 32) :
    Grows keys.length t (t.replay shape keys).2 := by
  induction keys generalizing t shape with
  | nil => exact .refl 0 t
  | cons key rest ih =>
    unfold replay
    rw [List.length_cons] at hroom ⊢
    split
    · have hrest : Grows rest.length t (t.replay shape rest).2 := ih (by omega)
      exact hrest.mono (Nat.le_succ _)
    · have hlt : t.nextShapeId.toNat + 1 < 2 ^ 32 := by omega
      have hadd : Grows 1 t (t.add shape key).2 := grows_add hlt shape key
      have hminted := hadd.minted
      have hrest : Grows rest.length _ ((t.add shape key).2.replay (t.add shape key).1 rest).2 :=
        ih (by omega)
      exact (hadd.trans hrest).mono (by omega)

theorem grows_rebuild (hroom : t.nextShapeId.toNat + 128 < 2 ^ 32) (keys : List String) :
    Grows 128 t (t.rebuild keys).2 := by
  unfold rebuild
  have hlt : t.nextShapeId.toNat + 1 < 2 ^ 32 := by omega
  split
  · exact (grows_fresh hlt keys).mono (by decide)
  · next hkeys =>
    have hle : keys.length ≤ 128 := Nat.not_lt.1 hkeys
    have hroom' : t.nextShapeId.toNat + keys.length < 2 ^ 32 := by omega
    exact (grows_replay hroom').mono hle

/-- Appending in place is for a layout that nobody else holds. -/
theorem append_keeps (hroom : t.nextShapeId.toNat + 1 < 2 ^ 32) (shape : Nat) (shared : Bool)
    (key : String) : Later t (t.append shape shared key).2 ∧ ∀ i ks, (shared = false → i ≠ shape) →
      t.keysOf i = some ks → (t.append shape shared key).2.keysOf i = some ks := by
  unfold append
  split
  · exact ⟨.refl t, fun _ _ _ => id⟩
  · next s hs =>
    split
    · next hcond =>
      simp only [Bool.and_eq_true, Bool.not_eq_true'] at hcond
      refine ⟨later_mint (s.keys ++ [key]) hroom fun x hx => ?_, fun i ks hi h => ?_⟩
      · exact (List.mem_or_eq_of_mem_set hx).imp_right (by rintro rfl; exact ⟨rfl, rfl⟩)
      · rw [← h]
        exact congrArg _ (List.getElem?_set_ne (hi hcond.1.2).symm)
    · have hadd := grows_add hroom shape key
      exact ⟨hadd.later, fun i ks _ => hadd.keeps i ks⟩

end ShapeTree

/-- The shapes of a thread, and what the cells hold: a shape each, with the keys it had when
the cell built it and those added since. -/
structure Layouts where
  tree : ShapeTree
  held : List (Nat × List String)

namespace Layouts

open ShapeTree

variable {w w' : Layouts}

/-- A cell builds its layout from its slots, notes a new key, or drops its layout. -/
inductive Move where
  | rebuild (keys : List String)
  | append (k : Nat) (key : String)
  | drop (k : Nat)

def perform (w : Layouts) : Move → Option Layouts
  | .rebuild keys =>
    let (shape, tree) := w.tree.rebuild keys
    (tree.keysOf shape).map fun keys => ⟨tree, (shape, keys) :: w.held⟩
  | .append k key => (w.held[k]?).map fun (shape, keys) =>
    let shared := (w.held.eraseIdx k).any (·.1 == shape)
    let (shape, tree) := w.tree.append shape shared key
    ⟨tree, (shape, keys ++ [key]) :: w.held.eraseIdx k⟩
  | .drop k => some { w with held := w.held.eraseIdx k }

/-- A step while the counter of ids has room: no move mints more than 128. -/
def Step (w w' : Layouts) : Prop :=
  w.tree.nextShapeId.toNat + 128 < 2 ^ 32 ∧ ∃ m, w.perform m = some w'

/-- Every holder has the layout it made. -/
structure Sound (w : Layouts) : Prop where
  wf : w.tree.Wf
  held : ∀ h ∈ w.held, w.tree.keysOf h.1 = some h.2

theorem Sound.step (h : Sound w) (hs : Step w w') : Sound w' ∧ Later w.tree w'.tree := by
  obtain ⟨hroom, m, hm⟩ := hs
  cases m with
  | rebuild keys =>
    obtain ⟨ks, hks, rfl⟩ := Option.map_eq_some_iff.1 hm
    have hgrows := grows_rebuild hroom keys
    exact ⟨⟨(rebuild_spec h.wf keys).1,
      List.forall_mem_cons.2 ⟨hks, fun x hx => hgrows.keeps _ _ (h.held x hx)⟩⟩, hgrows.later⟩
  | append k key =>
    obtain ⟨⟨shape, keys⟩, hk, rfl⟩ := Option.map_eq_some_iff.1 hm
    have hlt : w.tree.nextShapeId.toNat + 1 < 2 ^ 32 := by omega
    obtain ⟨hwf, hks⟩ := append_spec h.wf (h.held _ (List.mem_of_getElem? hk)) _ key
    obtain ⟨hlater, hkeeps⟩ := append_keeps hlt shape _ key
    refine ⟨⟨hwf, List.forall_mem_cons.2 ⟨hks, fun x hx => ?_⟩⟩, hlater⟩
    refine hkeeps _ _ (fun hshared => ?_) (h.held x (List.mem_of_mem_eraseIdx hx))
    simpa using List.any_eq_false.1 hshared x hx
  | drop k =>
    cases hm
    exact ⟨⟨h.wf, fun x hx => h.held x (List.mem_of_mem_eraseIdx hx)⟩, .refl _⟩

theorem Sound.run (h : Sound w) (hrun : Relation.ReflTransGen Step w w') :
    Sound w' ∧ Later w.tree w'.tree := by
  induction hrun with
  | refl => exact ⟨h, .refl _⟩
  | tail _ hs ih =>
    obtain ⟨hsound, hlater⟩ := ih.1.step hs
    exact ⟨hsound, ih.2.trans hlater⟩

/-- **A shape id names one layout.**  In every run of the cells of a thread, each cell's layout
is the one it built with the keys it added, whatever the other cells do to shapes they share or
grow in place; and a shape that is seen later under the id of an earlier one has its keys. -/
theorem ids_name_layouts (h : Relation.ReflTransGen Step ⟨initial, []⟩ w)
    (hrun : Relation.ReflTransGen Step w w') :
    (∀ shape ks, (shape, ks) ∈ w'.held → w'.tree.keysOf shape = some ks ∧
      ∀ key, w'.tree.slotOf shape key = (Slots.firstIndex ks key).map (· % 2 ^ 32)) ∧
    ∀ x ∈ w.tree.nodes, ∀ y ∈ w'.tree.nodes, x.id = y.id → x.keys = y.keys := by
  have hinitial : Sound ⟨initial, []⟩ := ⟨wf_initial, fun _ h => nomatch h⟩
  obtain ⟨hsound, hlater⟩ := hinitial.run h
  obtain ⟨hsound', hlater'⟩ := hsound.run hrun
  refine ⟨fun shape ks hheld => ?_, fun x hx y hy hid => ?_⟩
  · have hks := hsound'.held _ hheld
    exact ⟨hks, slotOf_eq hsound'.wf hks⟩
  · obtain ⟨past, -, hnow⟩ := hlater _ named_initial
    obtain ⟨past', hold, hnow'⟩ := hlater' past hnow
    have hpast : past' x.id = some x.keys := hold _ _ (hnow.now x hx)
    rw [hid, hnow'.now y hy] at hpast
    exact (Option.some.inj hpast).symm

/-- Two cells share a layout until one of them adds a key. -/
theorem ids_name_layouts_shared :
    ∃ w : Layouts, w.held = [(2, ["a", "b"]), (1, ["a"])] ∧ w.tree.keysOf 1 = some ["a"] :=
  ⟨_, rfl, ((ids_name_layouts .refl
    (.tail (.tail (.single ⟨by decide, .rebuild ["a"], rfl⟩) ⟨by decide, .rebuild ["a"], rfl⟩)
      ⟨by decide, .append 0 "b", rfl⟩)).1 1 ["a"] (by decide)).1⟩

end Layouts

end NapiVm
