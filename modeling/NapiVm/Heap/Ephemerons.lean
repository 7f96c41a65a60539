import NapiVm.Heap.Marking

/-!
# The ephemeron loop

`drain_ephemerons` indexes each entry of a weak map once and wakes it when its
key is marked.  `Inv` says where every obligation of the closure is kept while
the loop runs, and `Bounded` that the identities still unmarked pay for the work
queued and the identities reported.

* `drain_spec`, `index_spec`, `wake_spec` — each part keeps the invariant and,
  given fuel for the universe, ends.
* `drainEphemerons_spec` — the loop ends with exactly the reachable identities.
-/

namespace NapiVm.Marker

open List

section Loop

variable {h : Heap} {roots : List Ref} {rooted held : List HeapId}
variable {indexed : List (HeapId × GcValue)} {waiting : Waiting}

/-! ## The invariant -/

/-- The invariant of the loop.  `rooted` lists what has been marked as a root,
`indexed` the entries indexed so far, and `held` the item taken from the work list
whose references are being marked. -/
structure Inv (h : Heap) (roots : List Ref) (rooted : List HeapId)
    (indexed : List (HeapId × GcValue)) (held : List HeapId) (m : Marker) (waiting : Waiting) :
    Prop where
  sound : ∀ i ∈ m.marked, (h.graph roots).Reach i
  roots : ∀ i ∈ rooted, i ∈ m.marked
  work : ∀ i ∈ m.work, i ∈ m.marked
  newly : ∀ i ∈ m.newlyMarked, i ∈ m.marked
  strong : ∀ i ∈ m.marked,
    i ∈ m.work ∨ i ∈ held ∨ ∀ r ∈ h.refs i, ∀ j ∈ r.ids h, j ∈ m.marked
  cells : ∀ a, .object a ∈ m.marked →
    .object a ∈ m.work ∨ .object a ∈ held ∨ h.weakOf a = .none ∨ a ∈ m.weakCells
  cellsMarked : ∀ a ∈ m.weakCells, .object a ∈ m.marked
  waits : ∀ k vs, waiting k = some vs → ∀ v ∈ vs, ∃ a, .object a ∈ m.marked ∧ (k, v) ∈ h.entries a
  entries : ∀ k v, (k, v) ∈ indexed → (∀ i ∈ v.ids h, i ∈ m.marked) ∨
    v ∈ (waiting k).getD [] ∧ (k ∉ m.marked ∨ k ∈ m.newlyMarked)
  calm : m.borrowed = false

variable {m m' : Marker} {ids : List HeapId} {item k : HeapId} {a : Nat}

variable {i : HeapId} {U : Finset HeapId} {work rest : List HeapId} {v : GcValue} {limit n : Nat}

theorem Touches.subset (ht : Touches m m' ids) (hi : i ∈ m.marked) : i ∈ m'.marked := by
  obtain ⟨added, -, -, hk, -⟩ := ht
  rw [hk]
  exact Finset.mem_union_left _ hi

theorem Touches.marks (ht : Touches m m' ids) (hi : i ∈ ids) : i ∈ m'.marked := by
  obtain ⟨added, -, -, hk, -⟩ := ht
  rw [hk]
  exact Finset.mem_union_right _ (mem_toFinset.2 hi)

/-- A marking operation is covered by the invariant as soon as what it marks is
reachable: new containers are queued and new identities reported. -/
theorem Inv.touches (hi : Inv h roots rooted indexed held m waiting) (ht : Touches m m' ids)
    (hr : ∀ i ∈ ids, (h.graph roots).Reach i) : Inv h roots rooted indexed held m' waiting := by
  have hsub : ∀ i ∈ m.marked, i ∈ m'.marked := fun i hi => ht.subset hi
  obtain ⟨added, -, hadd, hk, hn, hw, hc, hcalm⟩ := ht
  have hnew : ∀ i ∈ m'.marked, i ∈ m.marked ∨ i ∈ added := by
    intro i hi'
    rw [hk, Finset.mem_union, mem_toFinset] at hi'
    by_cases him : i ∈ m.marked
    · exact Or.inl him
    · exact Or.inr ((hadd i).2 ⟨hi'.resolve_left him, him⟩)
  have hadded : ∀ i ∈ added, i ∈ m'.marked := by
    intro i ha
    rw [hk]
    exact Finset.mem_union_right _ (mem_toFinset.2 ((hadd i).1 ha).1)
  have hqueued : ∀ i ∈ added, i.traced = true → i ∈ m'.work := by
    intro i ha htr
    rw [hw]
    exact mem_append_left _ (mem_filter.2 ⟨ha, htr⟩)
  refine ⟨?_, ?_, ?_, ?_, ?_, ?_, ?_, ?_, ?_, hcalm.trans hi.calm⟩
  · intro i hi'
    rcases hnew i hi' with hold | ha
    · exact hi.sound i hold
    · exact hr i ((hadd i).1 ha).1
  · exact fun i hi' => hsub i (hi.roots i hi')
  · intro i hi'
    rw [hw, mem_append] at hi'
    rcases hi' with ha | hold
    · exact hadded i (mem_filter.1 ha).1
    · exact hsub i (hi.work i hold)
  · intro i hi'
    rw [hn, mem_append] at hi'
    rcases hi' with ha | hold
    · exact hadded i ha
    · exact hsub i (hi.newly i hold)
  · intro i hi'
    rcases hnew i hi' with hold | ha
    · rcases hi.strong i hold with hwork | hheld | hrefs
      · exact Or.inl (hw ▸ mem_append_right _ hwork)
      · exact Or.inr (Or.inl hheld)
      · exact Or.inr (Or.inr fun r hr' j hj => hsub j (hrefs r hr' j hj))
    · cases htr : i.traced with
      | true => exact Or.inl (hqueued i ha htr)
      | false =>
        right
        right
        cases i <;> simp [HeapId.traced] at htr
        intro r hr'
        simp [Heap.refs] at hr'
  · intro a hi'
    rcases hnew _ hi' with hold | ha
    · rcases hi.cells a hold with hwork | hcell
      · exact Or.inl (hw ▸ mem_append_right _ hwork)
      · exact Or.inr (hc ▸ hcell)
    · exact Or.inl (hqueued _ ha rfl)
  · intro a ha
    rw [hc] at ha
    exact hsub _ (hi.cellsMarked a ha)
  · intro k vs hvs v hv
    obtain ⟨a, ha, he⟩ := hi.waits k vs hvs v hv
    exact ⟨a, hsub _ ha, he⟩
  · intro k v hkv
    rcases hi.entries k v hkv with hdone | ⟨hv, hkey⟩
    · exact Or.inl fun i hi' => hsub i (hdone i hi')
    · right
      refine ⟨hv, ?_⟩
      by_cases hk' : k ∈ m'.marked
      · right
        rw [hn, mem_append]
        rcases hkey with hout | hnewly
        · exact Or.inl ((hnew k hk').resolve_left hout)
        · exact Or.inr hnewly
      · exact Or.inl hk'

/-! ## Fuel -/

/-- The identities left in `U` pay for what is queued and for what is reported. -/
structure Bounded (U : Finset HeapId) (m : Marker) : Prop where
  work : m.work.length + (U \ m.marked).card ≤ U.card
  newly : m.newlyMarked.length + (U \ m.marked).card ≤ U.card

/-- Marking moves identities out of the unmarked ones, each at most once. -/
theorem Touches.card (ht : Touches m m' ids) (hU : ∀ i ∈ ids, i ∈ U) :
    ∃ n, (U \ m'.marked).card + n = (U \ m.marked).card ∧
      m'.work.length ≤ m.work.length + n ∧ m'.newlyMarked.length = m.newlyMarked.length + n := by
  obtain ⟨added, hnodup, hadd, hk, hn, hw, -⟩ := ht
  refine ⟨added.length, ?_, ?_, ?_⟩
  · have hsplit : U \ m.marked = (U \ m'.marked) ∪ added.toFinset := by
      ext i
      rw [Finset.mem_union, Finset.mem_sdiff, Finset.mem_sdiff, mem_toFinset, hadd, hk,
        Finset.mem_union, mem_toFinset]
      have := hU i
      tauto
    have hdisj : Disjoint (U \ m'.marked) added.toFinset := by
      rw [Finset.disjoint_left]
      intro i hi ha
      rw [mem_toFinset, hadd] at ha
      rw [Finset.mem_sdiff, hk, Finset.mem_union, mem_toFinset] at hi
      exact hi.2 (Or.inr ha.1)
    rw [hsplit, Finset.card_union_of_disjoint hdisj, toFinset_card_of_nodup hnodup]
  · rw [hw, length_append]
    have := length_filter_le HeapId.traced added
    omega
  · rw [hn, length_append]
    omega

theorem Bounded.touches (hb : Bounded U m) (ht : Touches m m' ids) (hU : ∀ i ∈ ids, i ∈ U) :
    Bounded U m' := by
  obtain ⟨n, hcard, hwork, hnewly⟩ := ht.card hU
  have h₁ := hb.work
  have h₂ := hb.newly
  exact ⟨by omega, by omega⟩

/-! ## Draining -/

/-- Taking an item off the work list holds it. -/
theorem Inv.pop (hi : Inv h roots rooted indexed [] m waiting) (hw : m.work = item :: work) :
    Inv h roots rooted indexed [item] { m with work := work } waiting := by
  have hsplit : ∀ {i}, i ∈ m.work → i ∈ work ∨ i ∈ [item] := by
    intro i hi'
    rw [hw] at hi'
    rcases mem_cons.1 hi' with rfl | hrest
    · exact Or.inr (mem_singleton.2 rfl)
    · exact Or.inl hrest
  refine { hi with work := ?_, strong := ?_, cells := ?_ }
  · exact fun i hi' => hi.work i (by rw [hw]; exact mem_cons_of_mem _ hi')
  · intro i hi'
    have := hi.strong i hi'
    have := hsplit (i := i)
    simp only [not_mem_nil, false_or] at *
    tauto
  · intro a hi'
    have := hi.cells a hi'
    have := hsplit (i := .object a)
    simp only [not_mem_nil, false_or] at *
    tauto

/-- Noting an item only records weak storage, the item's own. -/
theorem Inv.note (hi : Inv h roots rooted indexed [item] m waiting) (hm : item ∈ m.marked) :
    Inv h roots rooted indexed [item] (m.note h item) waiting ∧
      ∀ a, item = .object a → h.weakOf a = .none ∨ a ∈ (m.note h item).weakCells := by
  cases item with
  | object b =>
    simp only [Marker.note]
    split
    · next hnone =>
        refine ⟨hi, ?_⟩
        rintro a ⟨rfl⟩
        exact Or.inl hnone
    · refine ⟨{ hi with cells := ?_, cellsMarked := ?_ }, ?_⟩
      · intro a ha
        have := hi.cells a ha
        simp only [mem_append]
        tauto
      · intro a ha
        rcases mem_append.1 ha with hold | hnew
        · exact hi.cellsMarked a hold
        · rw [mem_singleton.1 hnew]
          exact hm
      · rintro a ⟨rfl⟩
        exact Or.inr (mem_append_right _ (mem_singleton.2 rfl))
  | _ => exact ⟨{ hi with }, by rintro a ⟨⟩⟩

/-- An item is released once its references are marked and its cell is noted. -/
theorem Inv.release (hi : Inv h roots rooted indexed [item] m waiting)
    (hrefs : ∀ r ∈ h.refs item, ∀ j ∈ r.ids h, j ∈ m.marked)
    (hcell : ∀ a, item = .object a → h.weakOf a = .none ∨ a ∈ m.weakCells) :
    Inv h roots rooted indexed [] m waiting := by
  refine { hi with strong := ?_, cells := ?_ }
  · intro i hi'
    rcases hi.strong i hi' with hwork | hheld | hdone
    · exact Or.inl hwork
    · obtain rfl := mem_singleton.1 hheld
      exact Or.inr (Or.inr hrefs)
    · exact Or.inr (Or.inr hdone)
  · intro a hi'
    rcases hi.cells a hi' with hwork | hheld | hdone
    · exact Or.inl hwork
    · exact Or.inr (Or.inr (hcell a (mem_singleton.1 hheld).symm))
    · exact Or.inr (Or.inr hdone)

/-- What a container refers to is reachable and in the universe. -/
theorem reach_refs (hi : Inv h roots rooted indexed held m waiting) (hm : item ∈ m.marked) :
    ∀ i ∈ (h.refs item).flatMap (Ref.ids h), (h.graph roots).Reach i ∧ i ∈ h.universe roots := by
  intro i hi'
  obtain ⟨r, hr, hir⟩ := mem_flatMap.1 hi'
  exact ⟨.strong (hi.sound item hm) ⟨r, hr, hir⟩,
    mem_universe (mem_append_right _ (refs_subset_allRefs hr)) hir⟩

/-- Besides weak storage, noting an item changes nothing the loop looks at. -/
theorem note_frame (h : Heap) (m : Marker) (item : HeapId) :
    (m.note h item).marked = m.marked ∧ (m.note h item).work = m.work ∧
      (m.note h item).newlyMarked = m.newlyMarked ∧
      ∃ cells, (m.note h item).weakCells = m.weakCells ++ cells := by
  cases item with
  | object a =>
    unfold Marker.note
    dsimp only
    split
    · exact ⟨rfl, rfl, rfl, [], by simp⟩
    · exact ⟨rfl, rfl, rfl, [a], rfl⟩
  | _ => exact ⟨rfl, rfl, rfl, [], by simp [Marker.note]⟩

/-- One turn of `drain` keeps the invariant and uses up budget. -/
theorem visit_spec (hfree : h.borrowed = []) (hi : Inv h roots rooted indexed [] m waiting)
    (hb : Bounded (h.universe roots) m) (hw : m.work = item :: work) :
    let m' := visit h { m with work := work } item
    Inv h roots rooted indexed [] m' waiting ∧ Bounded (h.universe roots) m' ∧
      m'.work.length + (h.universe roots \ m'.marked).card <
        m.work.length + (h.universe roots \ m.marked).card ∧
      (h.universe roots \ m'.marked).card ≤ (h.universe roots \ m.marked).card ∧
      ∃ cells, m'.weakCells = m.weakCells ++ cells := by
  intro m'
  have hitem : item ∈ m.marked := hi.work item (by rw [hw]; exact mem_cons_self)
  have hvisit : m' = follow h { m with work := work } item := by
    simp [m', visit, Heap.isBorrowed, hfree]
  obtain ⟨hn, hcell⟩ := (hi.pop hw).note hitem
  have hreach := reach_refs hi hitem
  have ht := touches_markRefs h (note h { m with work := work } item) (h.refs item)
  rw [hvisit]
  have hinv := hn.touches ht fun i hi' => (hreach i hi').1
  obtain ⟨hk, hq, hr, cells, hcells⟩ := note_frame h { m with work := work } item
  obtain ⟨n, hcard, hlen, hnewly⟩ := ht.card fun i hi' => (hreach i hi').2
  rw [hk] at hcard
  rw [hq] at hlen
  rw [hr] at hnewly
  have hlong : m.work.length = work.length + 1 := by rw [hw]; rfl
  have h₁ := hb.work
  have h₂ := hb.newly
  dsimp only at hcard hlen hnewly
  unfold follow
  have hkeep : ((h.refs item).foldl (markRef h) (note h { m with work := work } item)).weakCells =
      (note h { m with work := work } item).weakCells := by
    obtain ⟨-, -, -, -, -, -, hc, -⟩ := ht
    exact hc
  refine ⟨?_, ⟨by omega, by omega⟩, by omega, by omega, cells, hkeep.trans hcells⟩
  refine hinv.release (fun r hr' j hj => ht.marks (mem_flatMap.2 ⟨r, hr', hj⟩)) ?_
  intro a ha
  rw [hkeep]
  exact hcell a ha

/-- **Draining** empties the work list. -/
theorem drain_spec (hfree : h.borrowed = []) (fuel : Nat)
    (hi : Inv h roots rooted indexed [] m waiting) (hb : Bounded (h.universe roots) m)
    (hfuel : m.work.length + (h.universe roots \ m.marked).card < fuel) :
    ∃ m', drain h fuel m = some m' ∧ Inv h roots rooted indexed [] m' waiting ∧
      Bounded (h.universe roots) m' ∧ m'.work = [] ∧
      (h.universe roots \ m'.marked).card ≤ (h.universe roots \ m.marked).card ∧
      ∃ cells, m'.weakCells = m.weakCells ++ cells := by
  induction fuel generalizing m with
  | zero => omega
  | succ fuel ih =>
    rw [drain]
    split
    · next hw => exact ⟨m, rfl, hi, hb, hw, Nat.le_refl _, [], by simp⟩
    · next item work hw =>
        obtain ⟨hi', hb', hless, hcard, cells, hcells⟩ := visit_spec hfree hi hb hw
        obtain ⟨m', hm', hinv, hbound, hdone, hcard', cells', hcells'⟩ := ih hi' hb' (by omega)
        refine ⟨m', hm', hinv, hbound, hdone, Nat.le_trans hcard' hcard, cells ++ cells', ?_⟩
        rw [hcells', hcells, append_assoc]

/-! ## Indexing -/

/-- An entry of a marked map whose key is marked leads to reachable identities. -/
theorem reach_entry (hi : Inv h roots rooted indexed held m waiting) (ha : .object a ∈ m.marked)
    (he : (k, v) ∈ h.entries a) (hk : k ∈ m.marked) : ∀ i ∈ v.ids h, (h.graph roots).Reach i :=
  fun _ hi' => .ephemeron (hi.sound _ ha) (hi.sound k hk) ⟨a, v, rfl, he, hi'⟩

theorem universe_entry (he : (k, v) ∈ h.entries a) : ∀ i ∈ v.ids h, i ∈ h.universe roots :=
  fun _ hi' => mem_universe (mem_append_right _ (entry_mem_allRefs he)) hi'

section

variable (hi : Inv h roots rooted indexed [] m waiting)

include hi

/-- Indexing one entry: it fires at once, or waits for its unmarked key. -/
theorem indexEntry_spec {e : HeapId × GcValue} (ha : .object a ∈ m.marked) (he : e ∈ h.entries a) :
    ∃ ids, Touches m (indexEntry h (m, waiting) e).1 ids ∧ (∀ i ∈ ids, i ∈ h.universe roots) ∧
      Inv h roots rooted (e :: indexed) [] (indexEntry h (m, waiting) e).1
        (indexEntry h (m, waiting) e).2 := by
  obtain ⟨k, v⟩ := e
  by_cases hk : k ∈ m.marked
  · have heq : indexEntry h (m, waiting) (k, v) = (m.markValue h v, waiting) := by
      simp [indexEntry, hk]
    rw [heq]
    have ht := touches_markValue h m v
    refine ⟨v.ids h, ht, universe_entry he, ?_⟩
    have hinv := hi.touches ht (reach_entry hi ha he hk)
    refine { hinv with entries := ?_ }
    intro k' v' hmem
    rcases mem_cons.1 hmem with heq' | hold
    · obtain ⟨-, rfl⟩ := Prod.mk.inj heq'
      exact Or.inl fun i hi' => ht.marks hi'
    · exact hinv.entries k' v' hold
  · have heq : indexEntry h (m, waiting) (k, v) =
        (m, waiting.insert k ((waiting k).getD [] ++ [v])) := by
      simp [indexEntry, hk]
    rw [heq]
    refine ⟨[], Touches.refl m, by simp, { hi with waits := ?_, entries := ?_ }⟩
    · intro k' vs hvs v' hv'
      dsimp only at hvs
      by_cases hkk : k' = k
      · subst hkk
        rw [PMap.insert_self] at hvs
        obtain rfl := Option.some.inj hvs
        rcases mem_append.1 hv' with hold | hnew
        · cases hw : waiting k' with
          | none => simp [hw] at hold
          | some ws =>
            rw [hw] at hold
            exact hi.waits k' ws hw v' hold
        · obtain rfl := mem_singleton.1 hnew
          exact ⟨a, ha, he⟩
      · rw [PMap.insert_of_ne hkk] at hvs
        exact hi.waits k' vs hvs v' hv'
    · intro k' v' hmem
      rcases mem_cons.1 hmem with heq' | hold
      · obtain ⟨rfl, rfl⟩ := Prod.mk.inj heq'
        exact Or.inr ⟨by simp, Or.inl hk⟩
      · rcases hi.entries k' v' hold with hdone | ⟨hv, hkey⟩
        · exact Or.inl hdone
        · refine Or.inr ⟨?_, hkey⟩
          dsimp only
          by_cases hkk : k' = k
          · subst hkk
            rw [PMap.insert_self]
            exact mem_append_left _ hv
          · rwa [PMap.insert_of_ne hkk]

/-- Indexing the entries of one cell. -/
theorem indexEntries_spec (ha : .object a ∈ m.marked) (es : List (HeapId × GcValue))
    (hes : ∀ e ∈ es, e ∈ h.entries a) :
    ∃ ids, Touches m (es.foldl (indexEntry h) (m, waiting)).1 ids ∧
      (∀ i ∈ ids, i ∈ h.universe roots) ∧
      ∃ indexed', (∀ e, e ∈ es ∨ e ∈ indexed → e ∈ indexed') ∧
        Inv h roots rooted indexed' [] (es.foldl (indexEntry h) (m, waiting)).1
          (es.foldl (indexEntry h) (m, waiting)).2 := by
  induction es generalizing m waiting indexed with
  | nil => exact ⟨[], Touches.refl m, by simp, indexed, by simp, hi⟩
  | cons e es ih =>
    obtain ⟨ids, ht, hU, hinv⟩ := indexEntry_spec hi ha (hes e mem_cons_self)
    obtain ⟨ids', ht', hU', indexed', hsub, hinv'⟩ :=
      ih hinv (ht.subset ha) fun e' he' => hes e' (mem_cons_of_mem _ he')
    refine ⟨ids ++ ids', ht.trans ht', ?_, indexed', ?_, hinv'⟩
    · intro i hi'
      rcases mem_append.1 hi' with hi' | hi'
      · exact hU i hi'
      · exact hU' i hi'
    · intro e' he'
      refine hsub e' ?_
      simp only [mem_cons] at he' ⊢
      tauto

/-- **Indexing** the cells found since the last round. -/
theorem index_spec (cells : List Nat) (hc : ∀ a ∈ cells, .object a ∈ m.marked) :
    ∃ ids, Touches m (cells.foldl (indexCell h) (m, waiting)).1 ids ∧
      (∀ i ∈ ids, i ∈ h.universe roots) ∧
      ∃ indexed', (∀ e ∈ indexed, e ∈ indexed') ∧ (∀ a ∈ cells, ∀ e ∈ h.entries a, e ∈ indexed') ∧
        Inv h roots rooted indexed' [] (cells.foldl (indexCell h) (m, waiting)).1
          (cells.foldl (indexCell h) (m, waiting)).2 := by
  induction cells generalizing m waiting indexed with
  | nil => exact ⟨[], Touches.refl m, by simp, indexed, fun e he => he, by simp, hi⟩
  | cons a cells ih =>
    obtain ⟨ids, ht, hU, indexed₁, hsub, hinv⟩ :=
      indexEntries_spec hi (hc a mem_cons_self) (h.entries a) fun e he => he
    obtain ⟨ids', ht', hU', indexed₂, hsub₁, hsub₂, hinv'⟩ :=
      ih hinv fun b hb => ht.subset (hc b (mem_cons_of_mem _ hb))
    refine ⟨ids ++ ids', ht.trans ht', ?_, indexed₂, ?_, ?_, hinv'⟩
    · intro i hi'
      rcases mem_append.1 hi' with hi' | hi'
      · exact hU i hi'
      · exact hU' i hi'
    · exact fun e he => hsub₁ e (hsub e (Or.inr he))
    · intro b hb e he
      rcases mem_cons.1 hb with rfl | hb
      · exact hsub₁ e (hsub e (Or.inl he))
      · exact hsub₂ b hb e he

end

/-! ## Waking -/

/-- Popping a reported identity and firing what waited for it. -/
theorem wake_step (hi : Inv h roots rooted indexed [] m waiting) (hn : m.newlyMarked = k :: rest)
    {vs : List GcValue} (hvs : waiting k = some vs) :
    ∃ ids, Touches { m with newlyMarked := rest }
        (vs.foldl (markValue h) { m with newlyMarked := rest }) ids ∧
      (∀ i ∈ ids, i ∈ h.universe roots) ∧
      Inv h roots rooted indexed [] (vs.foldl (markValue h) { m with newlyMarked := rest })
        (waiting.erase k) := by
  have hk : k ∈ m.marked := hi.newly k (by rw [hn]; exact mem_cons_self)
  have ht := touches_markValues h { m with newlyMarked := rest } vs
  have hvals : ∀ i ∈ vs.flatMap (GcValue.ids h),
      (h.graph roots).Reach i ∧ i ∈ h.universe roots := by
    intro i hi'
    obtain ⟨v, hv, hiv⟩ := mem_flatMap.1 hi'
    obtain ⟨a, ha, he⟩ := hi.waits k vs hvs v hv
    exact ⟨reach_entry hi ha he hk i hiv, universe_entry he i hiv⟩
  refine ⟨_, ht, fun i hi' => (hvals i hi').2, ?_⟩
  -- the invariant is restored for the other keys first, then by the marking for `k`
  have hother : ∀ k' v, (k', v) ∈ indexed → k' ≠ k → (∀ i ∈ v.ids h, i ∈ m.marked) ∨
      v ∈ ((waiting.erase k) k').getD [] ∧ (k' ∉ m.marked ∨ k' ∈ rest) := by
    intro k' v hkv hne
    rw [PMap.erase_of_ne hne]
    rcases hi.entries k' v hkv with hdone | ⟨hv, hkey⟩
    · exact Or.inl hdone
    · refine Or.inr ⟨hv, hkey.imp_right ?_⟩
      intro hmem
      rw [hn] at hmem
      exact (mem_cons.1 hmem).resolve_left hne
  have hbase : Inv h roots rooted (indexed.filter fun e => decide (e.1 ≠ k)) []
      { m with newlyMarked := rest } (waiting.erase k) := by
    refine { hi with newly := ?_, waits := ?_, entries := ?_ }
    · exact fun i hi' => hi.newly i (by rw [hn]; exact mem_cons_of_mem _ hi')
    · intro k' ws hws v hv
      have hne : k' ≠ k := by
        rintro rfl
        simp at hws
      rw [PMap.erase_of_ne hne] at hws
      exact hi.waits k' ws hws v hv
    · intro k' v hkv
      obtain ⟨hmem, hne⟩ := mem_filter.1 hkv
      exact hother k' v hmem (by simpa using hne)
  have hinv := hbase.touches ht fun i hi' => (hvals i hi').1
  refine { hinv with entries := ?_ }
  intro k' v hkv
  by_cases hkk : k' = k
  · left
    subst hkk
    intro i hiv
    rcases hi.entries k' v hkv with hdone | ⟨hv, -⟩
    · exact ht.subset (hdone i hiv)
    · rw [hvs] at hv
      exact ht.marks (mem_flatMap.2 ⟨v, hv, hiv⟩)
  · exact hinv.entries k' v (mem_filter.2 ⟨hkv, by simpa using hkk⟩)

/-- Nobody waits for the popped identity. -/
theorem wake_skip (hi : Inv h roots rooted indexed [] m waiting) (hn : m.newlyMarked = k :: rest)
    (hvs : waiting k = none) :
    Inv h roots rooted indexed [] { m with newlyMarked := rest } waiting := by
  refine { hi with newly := ?_, entries := ?_ }
  · exact fun i hi' => hi.newly i (by rw [hn]; exact mem_cons_of_mem _ hi')
  · intro k' v hkv
    rcases hi.entries k' v hkv with hdone | ⟨hv, hkey⟩
    · exact Or.inl hdone
    · refine Or.inr ⟨hv, hkey.imp_right ?_⟩
      intro hmem
      rw [hn] at hmem
      rcases mem_cons.1 hmem with rfl | hrest
      · simp [hvs] at hv
      · exact hrest

/-- **Waking** ends with nothing left to report.  What it queues it has marked. -/
theorem wake_spec (fuel : Nat) (hi : Inv h roots rooted indexed [] m waiting)
    (hb : Bounded (h.universe roots) m)
    (hfuel : m.newlyMarked.length + (h.universe roots \ m.marked).card < fuel) :
    ∃ m' waiting', wake h fuel (m, waiting) = some (m', waiting') ∧
      Inv h roots rooted indexed [] m' waiting' ∧ Bounded (h.universe roots) m' ∧
      m'.newlyMarked = [] ∧ m'.weakCells = m.weakCells ∧
      m'.work.length + (h.universe roots \ m'.marked).card ≤
        m.work.length + (h.universe roots \ m.marked).card := by
  induction fuel generalizing m waiting with
  | zero => omega
  | succ fuel ih =>
    rw [wake]
    split
    · next hn => exact ⟨m, waiting, rfl, hi, hb, hn, rfl, Nat.le_refl _⟩
    · next k rest hn =>
        have hlong : m.newlyMarked.length = rest.length + 1 := by rw [hn]; rfl
        have h₁ := hb.work
        have h₂ := hb.newly
        split
        · next hvs =>
            refine ih (wake_skip hi hn hvs) ⟨hb.work, ?_⟩ ?_
            · dsimp only; omega
            · dsimp only; omega
        · next vs hvs =>
            obtain ⟨ids, ht, hU, hinv⟩ := wake_step hi hn hvs
            obtain ⟨n, hcard, hwork, hnewly⟩ := ht.card hU
            dsimp only at hcard hwork hnewly
            obtain ⟨m', waiting', hm', hinv', hb', hdone, hcells, hless⟩ :=
              ih hinv ⟨by omega, by omega⟩ (by omega)
            refine ⟨m', waiting', hm', hinv', hb', hdone, hcells.trans ?_, by omega⟩
            obtain ⟨-, -, -, -, -, -, hc, -⟩ := ht
            exact hc

/-! ## The loop -/

/-- Every entry of the first `n` weak cells is indexed. -/
def Indexes (h : Heap) (indexed : List (HeapId × GcValue)) (cells : List Nat) : Prop :=
  ∀ a ∈ cells, ∀ e ∈ h.entries a, e ∈ indexed

/-- With nothing queued or reported and all cells indexed, the marked set is closed. -/
theorem Inv.closed (hi : Inv h roots (roots.flatMap (Ref.ids h)) indexed [] m waiting)
    (hw : m.work = []) (hn : m.newlyMarked = []) (hc : Indexes h indexed m.weakCells) :
    (h.graph roots).Closed {i | i ∈ m.marked} := by
  refine ⟨?_, ?_, ?_⟩
  · rintro i ⟨r, hr, hir⟩
    exact hi.roots i (mem_flatMap.2 ⟨r, hr, hir⟩)
  · rintro i hm j ⟨r, hr, hj⟩
    rcases hi.strong i hm with hwork | hheld | hdone
    · simp [hw] at hwork
    · simp at hheld
    · exact hdone r hr j hj
  · rintro _ hm k hk j ⟨a, v, rfl, he, hj⟩
    have hcell : a ∈ m.weakCells := by
      rcases hi.cells a hm with hwork | hheld | hnone | hcell
      · simp [hw] at hwork
      · simp at hheld
      · simp [Heap.entries, hnone] at he
      · exact hcell
    rcases hi.entries k v (hc a hcell (k, v) he) with hdone | ⟨-, hout | hnewly⟩
    · exact hdone j hj
    · exact absurd hk hout
    · simp [hn] at hnewly

/-- One round keeps the invariant, indexes every cell found, and leaves work only
for newly marked containers. -/
theorem round_spec (hfree : h.borrowed = []) (hlimit : (h.universe roots).card < limit)
    (hi : Inv h roots rooted indexed [] m waiting) (hb : Bounded (h.universe roots) m)
    (hn : n ≤ m.weakCells.length) (hc : Indexes h indexed (m.weakCells.take n)) :
    ∃ m' waiting' indexed', round h limit n (m, waiting) = some (m', waiting') ∧
      Inv h roots rooted indexed' [] m' waiting' ∧ Bounded (h.universe roots) m' ∧
      m'.newlyMarked = [] ∧ Indexes h indexed' m'.weakCells ∧
      m'.work.length + (h.universe roots \ m'.marked).card ≤
        (h.universe roots \ m.marked).card := by
  have hwork := hb.work
  obtain ⟨m₁, hdrain, hi₁, hb₁, hw₁, hcard₁, cells, hcells⟩ :=
    drain_spec hfree limit hi hb (by omega)
  obtain ⟨ids, ht, hU, indexed', hsub, hnew, hi₂⟩ :=
    index_spec hi₁ (m₁.weakCells.drop n) fun a ha => hi₁.cellsMarked a (mem_of_mem_drop ha)
  have hb₂ := hb₁.touches ht hU
  have hnewly := hb₂.newly
  obtain ⟨k, hcard₂, hlen₂, -⟩ := ht.card hU
  obtain ⟨m₃, waiting₃, hwake, hi₃, hb₃, hdone, hcells₃, hless⟩ :=
    wake_spec limit hi₂ hb₂ (by omega)
  refine ⟨m₃, waiting₃, indexed', ?_, hi₃, hb₃, hdone, ?_, ?_⟩
  · simp only [round, hdrain]
    exact hwake
  · intro a ha e he
    obtain ⟨-, -, -, -, -, -, hcells₂, -⟩ := ht
    rw [hcells₃, hcells₂, ← take_append_drop n m₁.weakCells, mem_append] at ha
    rcases ha with hold | hfound
    · rw [hcells, take_append_of_le_length hn] at hold
      exact hsub e (hc a hold e he)
    · exact hnew a hfound e he
  · rw [hw₁] at hlen₂
    simp only [length_nil] at hlen₂
    omega

/-- The loop ends with nothing queued or reported and every cell indexed. -/
theorem rounds_spec (hfree : h.borrowed = []) {fuel : Nat}
    (hlimit : (h.universe roots).card < limit) (hfuel : (h.universe roots \ m.marked).card < fuel)
    (hi : Inv h roots (roots.flatMap (Ref.ids h)) indexed [] m waiting)
    (hb : Bounded (h.universe roots) m) (hn : n ≤ m.weakCells.length)
    (hc : Indexes h indexed (m.weakCells.take n)) :
    ∃ m' waiting' indexed', rounds h limit fuel n (m, waiting) = some m' ∧
      Inv h roots (roots.flatMap (Ref.ids h)) indexed' [] m' waiting' ∧ m'.work = [] ∧
      m'.newlyMarked = [] ∧ Indexes h indexed' m'.weakCells := by
  induction fuel generalizing m waiting indexed n with
  | zero => omega
  | succ fuel ih =>
    obtain ⟨m', waiting', indexed', hround, hi', hb', hnew, hc', hless⟩ :=
      round_spec hfree hlimit hi hb hn hc
    rw [rounds, hround]
    dsimp only
    split
    · next hempty =>
        have hw : m'.work = [] := List.isEmpty_iff.1 hempty
        exact ⟨m', waiting', indexed', rfl, hi', hw, hnew, hc'⟩
    · next hmore =>
        -- the round queued something, so it marked something
        have hpos : 0 < m'.work.length := by
          rw [length_pos_iff]
          simpa using hmore
        refine ih (by omega) hi' hb' (Nat.le_refl _) ?_
        rw [take_length]
        exact hc'

theorem inv_markRoots (h : Heap) (roots : List Ref) :
    Inv h roots (roots.flatMap (Ref.ids h)) [] [] (markRoots h roots) PMap.empty ∧
      Bounded (h.universe roots) (markRoots h roots) := by
  have ht : Touches {} (markRoots h roots) (roots.flatMap (Ref.ids h)) :=
    touches_markRefs h {} roots
  have hbase : Inv h roots [] [] [] ({} : Marker) PMap.empty :=
    ⟨by simp, by simp, by simp, by simp, by simp, by simp, by simp, by simp, by simp, rfl⟩
  have hbound : Bounded (h.universe roots) ({} : Marker) := ⟨by simp, by simp⟩
  refine ⟨{ hbase.touches ht ?_ with roots := fun i hi => ht.marks hi }, hbound.touches ht ?_⟩
  · intro i hi
    obtain ⟨r, hr, hir⟩ := mem_flatMap.1 hi
    exact .root ⟨r, hr, hir⟩
  · intro i hi
    obtain ⟨r, hr, hir⟩ := mem_flatMap.1 hi
    exact mem_universe (mem_append_left _ hr) hir

end Loop

/-- **The marked set.**  The loop ends; what it marked is exactly what is
reachable, the weak cells it set aside are exactly the marked ones with weak
storage, and it met no borrowed cell. -/
theorem drainEphemerons_spec (h : Heap) (hfree : h.borrowed = []) (roots : List Ref)
    {fuel : Nat} (hfuel : (h.universe roots).card < fuel) :
    ∃ m, drainEphemerons h fuel (markRoots h roots) = some m ∧
      IsLeast {S | (h.graph roots).Closed S} {i | i ∈ m.marked} ∧ m.borrowed = false ∧
      (∀ a ∈ m.weakCells, .object a ∈ m.marked) ∧
      ∀ a, .object a ∈ m.marked → h.weakOf a = .none ∨ a ∈ m.weakCells := by
  obtain ⟨hi, hb⟩ := inv_markRoots h roots
  have hless : (h.universe roots \ (markRoots h roots).marked).card < fuel := by
    have := hb.work
    omega
  obtain ⟨m, waiting, indexed, hm, hinv, hw, hn, hc⟩ :=
    rounds_spec hfree hfuel hless hi hb (Nat.zero_le _) (by simp [Indexes])
  refine ⟨m, hm, (hinv.closed hw hn hc).isLeast _ hinv.sound, hinv.calm, hinv.cellsMarked, ?_⟩
  intro a ha
  have := hinv.cells a ha
  simpa [hw] using this

end NapiVm.Marker
