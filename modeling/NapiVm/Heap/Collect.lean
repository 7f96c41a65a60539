import NapiVm.Heap.Ephemerons

/-!
# Collection

`collect` marks from the roots, prunes the weak storage it met and sweeps the
registries: an entry whose container was not marked has its edges cleared and
leaves its registry.

* `sweepVec_swept` — a sweep clears the unmarked containers it finds registered
  and touches nothing else.
* `collect_exact` — a collection of a heap nobody has borrowed ends, marks exactly
  what is reachable, keeps every reachable container and clears every registered
  unreachable one.
-/

namespace NapiVm

/-! ## Containers, uniformly -/

/-- A container of any kind. -/
inductive Node where
  | object (n : ObjectNode)
  | array (n : ArrayNode)
  | env (n : EnvNode)
  | function (n : FunctionNode)
  | promise (n : PromiseNode)
  | generator (n : GeneratorNode)
  | proxy (n : ProxyNode)
  | binding (v : GcValue)
  | asyncTask (n : AsyncTaskNode)
  deriving DecidableEq, Repr

/-- The container an identity names. -/
def Heap.contents (h : Heap) : HeapId → Option Node
  | .object a => (Slots.get h.objects a).map .object
  | .array a => (Slots.get h.arrays a).map .array
  | .env a => (Slots.get h.envs a).map .env
  | .function a => (Slots.get h.functions a).map .function
  | .promise a => (Slots.get h.promises a).map .promise
  | .generator a => (Slots.get h.generators a).map .generator
  | .proxy a => (Slots.get h.proxies a).map .proxy
  | .binding a => (Slots.get h.bindings a).map .binding
  | .asyncTask a => (Slots.get h.asyncTasks a).map .asyncTask
  | .other _ => none

/-! ## Clearing -/

/-- `ObjectCell::clear_edges`: a boxed symbol stays. -/
def ObjectNode.clear (n : ObjectNode) : ObjectNode := ⟨[], [], n.boxedSymbol, [], .none⟩

/-- `ArrayCell::clear_edges`: symbol keys stay. -/
def ArrayNode.clear (n : ArrayNode) : ArrayNode := ⟨[], [], [], n.symbolKeys⟩

/-- `Environment::clear_edges`. -/
def EnvNode.clear (_ : EnvNode) : EnvNode := ⟨none, [], none⟩

/-- What the sweep does to a promise. -/
def PromiseNode.clear (n : PromiseNode) : PromiseNode := ⟨n.properties, .inert, []⟩

/-- What the sweep does to a generator. -/
def GeneratorNode.clear (n : GeneratorNode) : GeneratorNode :=
  { n with args := [], returnValue := none, closure := none, buffered := [] }

/-- What the sweep does to a container.  Functions, proxies and async tasks are
immutable payloads: they break on the side of the cells that refer to them. -/
def Node.clear : Node → Node
  | .object n => .object n.clear
  | .array n => .array n.clear
  | .env n => .env n.clear
  | .promise n => .promise n.clear
  | .generator n => .generator n.clear
  | .binding _ => .binding .inert
  | n => n

/-- The clearing closures of `collect`; one on a cell fails if it is borrowed. -/
def Heap.clear (h : Heap) (id : HeapId) : Option Heap :=
  match id with
  | .function _ => some h
  | .proxy _ => some h
  | .asyncTask _ => some h
  | .other _ => some h
  | .object a =>
    if h.isBorrowed id then none
    else some { h with objects := Slots.update h.objects a ObjectNode.clear }
  | .array a =>
    if h.isBorrowed id then none
    else some { h with arrays := Slots.update h.arrays a ArrayNode.clear }
  | .env a =>
    if h.isBorrowed id then none
    else some { h with envs := Slots.update h.envs a EnvNode.clear }
  | .promise a =>
    if h.isBorrowed id then none
    else some { h with promises := Slots.update h.promises a PromiseNode.clear }
  | .generator a =>
    if h.isBorrowed id then none
    else some { h with generators := Slots.update h.generators a GeneratorNode.clear }
  | .binding a =>
    if h.isBorrowed id then none
    else some { h with bindings := Slots.update h.bindings a fun _ => .inert }

/-- A weak registry entry, with whether it upgrades when its turn comes. -/
structure WeakEntry where
  id : HeapId
  upgrades : Bool
  deriving DecidableEq, Repr

/-- `sweep_vec`: the entries kept, the heap left, and how many were reclaimed. -/
def sweepVec (marked : Finset HeapId) : List WeakEntry → Heap → List WeakEntry × Heap × Nat
  | [], h => ([], h, 0)
  | e :: es, h =>
    if e.upgrades then
      if e.id ∈ marked then
        let (kept, h, n) := sweepVec marked es h
        (e :: kept, h, n)
      else
        match h.clear e.id with
        | some h =>
          let (kept, h, n) := sweepVec marked es h
          (kept, h, n + 1)
        | none =>
          let (kept, h, n) := sweepVec marked es h
          (e :: kept, h, n)
    else sweepVec marked es h

/-- The registries of `HeapInner`. -/
structure Registry where
  objects : List WeakEntry
  arrays : List WeakEntry
  envs : List WeakEntry
  functions : List WeakEntry
  promises : List WeakEntry
  generators : List WeakEntry
  proxies : List WeakEntry
  bindings : List WeakEntry
  asyncTasks : List WeakEntry
  deriving DecidableEq, Repr

/-- All entries, in the order they are swept. -/
def Registry.entries (r : Registry) : List WeakEntry :=
  r.objects ++ r.arrays ++ r.envs ++ r.functions ++ r.promises ++ r.generators ++ r.proxies ++
    r.bindings ++ r.asyncTasks

/-- The sweep of `collect`. -/
def sweep (marked : Finset HeapId) (r : Registry) (h : Heap) : Registry × Heap × Nat :=
  let (objects, h, n₁) := sweepVec marked r.objects h
  let (arrays, h, n₂) := sweepVec marked r.arrays h
  let (envs, h, n₃) := sweepVec marked r.envs h
  let (functions, h, n₄) := sweepVec marked r.functions h
  let (promises, h, n₅) := sweepVec marked r.promises h
  let (generators, h, n₆) := sweepVec marked r.generators h
  let (proxies, h, n₇) := sweepVec marked r.proxies h
  let (bindings, h, n₈) := sweepVec marked r.bindings h
  let (asyncTasks, h, n₉) := sweepVec marked r.asyncTasks h
  (⟨objects, arrays, envs, functions, promises, generators, proxies, bindings, asyncTasks⟩, h,
    n₁ + n₂ + n₃ + n₄ + n₅ + n₆ + n₇ + n₈ + n₉)

/-! ## Pruning -/

/-- What pruning leaves of a weak storage. -/
def WeakStorage.prune (marked : Finset HeapId) : WeakStorage → WeakStorage
  | .none => .none
  | .map entries => .map (entries.filter fun e => decide (e.1 ∈ marked))
  | .ref target => .ref (target.filter fun id => decide (id ∈ marked))
  | .registry callback records queued =>
    .registry callback (records.filter fun r => decide (r.target ∈ marked)) queued

/-- The finalization callbacks pruning schedules. -/
def WeakStorage.eligible (marked : Finset HeapId) : WeakStorage → List (GcValue × GcValue)
  | .registry callback records true =>
    (records.filter fun r => decide (r.target ∉ marked)).map fun r => (callback, r.held)
  | _ => []

/-- Pruning a container: only an object cell has weak storage. -/
def Node.prune (marked : Finset HeapId) : Node → Node
  | .object n => .object { n with weak := n.weak.prune marked }
  | n => n

/-- `prune_weak`: the heap left and the jobs scheduled. -/
def pruneWeak (marked : Finset HeapId) (cells : List Nat) (h : Heap) :
    Heap × List (GcValue × GcValue) :=
  cells.foldl
    (fun s a =>
      ({ s.1 with
          objects := Slots.update s.1.objects a fun n => { n with weak := n.weak.prune marked } },
        s.2 ++ (s.1.weakOf a).eligible marked))
    (h, [])

/-! ## The collector -/

/-- `SkipReason`. -/
inductive SkipReason where
  | executing | suspendedTasks | borrowedCells
  deriving DecidableEq, Repr

/-- What a collection leaves: heap, registries, scheduled jobs and statistics. -/
structure Collection where
  heap : Heap
  registry : Registry
  jobs : List (GcValue × GcValue)
  tracked : Nat
  marked : Nat
  collected : Nat
  skipped : Option SkipReason

/-- `collect`, with the two barriers it checks first; `none` when fuel ran out. -/
def collect (fuel : Nat) (suspended executing : Bool) (roots : List Ref) (r : Registry) (h : Heap) :
    Option Collection :=
  if suspended then some ⟨h, r, [], 0, 0, 0, some .suspendedTasks⟩
  else if executing then some ⟨h, r, [], 0, 0, 0, some .executing⟩
  else
    match Marker.drainEphemerons h fuel (Marker.markRoots h roots) with
    | none => none
    | some m =>
      if m.borrowed then some ⟨h, r, [], 0, 0, 0, some .borrowedCells⟩
      else
        let (pruned, jobs) := pruneWeak m.marked m.weakCells h
        let (kept, swept, n) := sweep m.marked r pruned
        some ⟨swept, kept, jobs, r.entries.length, m.marked.card, n, none⟩

/-! ## What each part does -/

theorem Node.clear_clear (n : Node) : n.clear.clear = n.clear := by
  cases n <;> rfl

variable {h : Heap} {marked : Finset HeapId} {i : HeapId}

theorem Heap.clear_spec (hfree : h.borrowed = []) (id : HeapId) :
    ∃ h', h.clear id = some h' ∧ h'.borrowed = [] ∧
      ∀ i, h'.contents i = if i = id then (h.contents i).map Node.clear else h.contents i := by
  have hmap : ∀ {β : Type} (o : Option β) (f : β → β) (tag : β → Node)
      (_ : ∀ b, tag (f b) = (tag b).clear), (o.map f).map tag = (o.map tag).map Node.clear := by
    intro β o f tag hf
    cases o <;> simp [hf]
  have hid : ∀ {β : Type} (o : Option β) (tag : β → Node)
      (_ : ∀ b, tag b = (tag b).clear), o.map tag = (o.map tag).map Node.clear := by
    intro β o tag hf
    cases o with
    | none => rfl
    | some b => simpa using hf b
  cases id with
  | object a | array a | env a | promise a | generator a | binding a =>
    refine ⟨_, if_neg (by simp [Heap.isBorrowed, hfree]), hfree, ?_⟩
    intro i
    cases i with
    | object b | array b | env b | promise b | generator b | binding b =>
      simp only [Heap.contents, Slots.get_update, reduceCtorEq, if_false,
        HeapId.object.injEq, HeapId.array.injEq, HeapId.env.injEq, HeapId.promise.injEq,
        HeapId.generator.injEq, HeapId.binding.injEq]
      try
        by_cases hab : b = a
        · simp only [hab, if_true]
          exact hmap _ _ _ fun _ => rfl
        · simp only [hab, if_false]
    | _ => rfl
  | function a | proxy a | asyncTask a =>
    refine ⟨h, rfl, hfree, ?_⟩
    intro i
    split
    · next he =>
        subst he
        exact hid _ _ fun _ => rfl
    · rfl
  | other a =>
    refine ⟨h, rfl, hfree, ?_⟩
    intro i
    split
    · next he =>
        subst he
        rfl
    · rfl

/-- `h'` is `h` with the unmarked live entries of `es` cleared. -/
def Swept (marked : Finset HeapId) (es : List WeakEntry) (h h' : Heap) : Prop :=
  ∀ i, h'.contents i =
    if (∃ e ∈ es, e.id = i ∧ e.upgrades = true) ∧ i ∉ marked then (h.contents i).map Node.clear
    else h.contents i

open Classical in
/-- Sweeps compose; a container registered twice is cleared twice, to no effect. -/
theorem Swept.trans {es es' : List WeakEntry} {h' h'' : Heap} (h₁ : Swept marked es h h')
    (h₂ : Swept marked es' h' h'') : Swept marked (es ++ es') h h'' := by
  intro i
  rw [h₂ i, h₁ i]
  have hboth : (∃ e ∈ es ++ es', e.id = i ∧ e.upgrades = true) ↔
      (∃ e ∈ es, e.id = i ∧ e.upgrades = true) ∨ ∃ e ∈ es', e.id = i ∧ e.upgrades = true := by
    simp only [List.mem_append, or_and_right, exists_or]
  by_cases hm : i ∈ marked
  · simp [hm]
  · by_cases ha : ∃ e ∈ es, e.id = i ∧ e.upgrades = true
    · by_cases hb : ∃ e ∈ es', e.id = i ∧ e.upgrades = true
      · rw [if_pos ⟨hb, hm⟩, if_pos ⟨ha, hm⟩, if_pos ⟨hboth.2 (Or.inl ha), hm⟩, Option.map_map]
        congr 1
        funext n
        exact n.clear_clear
      · rw [if_neg (fun hc => hb hc.1), if_pos ⟨ha, hm⟩, if_pos ⟨hboth.2 (Or.inl ha), hm⟩]
    · by_cases hb : ∃ e ∈ es', e.id = i ∧ e.upgrades = true
      · rw [if_pos ⟨hb, hm⟩, if_neg (fun hc => ha hc.1), if_pos ⟨hboth.2 (Or.inr hb), hm⟩]
      · rw [if_neg (fun hc => hb hc.1), if_neg (fun hc => ha hc.1),
          if_neg (fun hc => (hboth.1 hc.1).elim ha hb)]

theorem Swept.nil (marked : Finset HeapId) (h : Heap) : Swept marked [] h h := by
  intro i
  simp

/-- An entry that is dead or marked changes nothing. -/
theorem Swept.skip {e : WeakEntry} (h : Heap) (he : e.upgrades = false ∨ e.id ∈ marked) :
    Swept marked [e] h h := by
  intro i
  rw [if_neg]
  rintro ⟨⟨e', hmem, rfl, hup⟩, hm⟩
  obtain rfl := List.mem_singleton.1 hmem
  rcases he with hdead | hmarked
  · rw [hdead] at hup
    exact Bool.noConfusion hup
  · exact hm hmarked

/-- **A sweep** clears the unmarked containers it finds registered, nothing else. -/
theorem sweepVec_swept (marked : Finset HeapId) (es : List WeakEntry) (hfree : h.borrowed = []) :
    Swept marked es h (sweepVec marked es h).2.1 ∧ (sweepVec marked es h).2.1.borrowed = [] := by
  induction es generalizing h with
  | nil => exact ⟨.nil marked h, hfree⟩
  | cons e es ih =>
    rw [sweepVec]
    by_cases hup : e.upgrades = true
    · rw [if_pos hup]
      by_cases hm : e.id ∈ marked
      · rw [if_pos hm]
        obtain ⟨hs, hb⟩ := ih hfree
        exact ⟨(Swept.skip h (Or.inr hm)).trans hs, hb⟩
      · rw [if_neg hm]
        obtain ⟨h', hclear, hfree', hcontents⟩ := h.clear_spec hfree e.id
        rw [hclear]
        obtain ⟨hs, hb⟩ := ih hfree'
        have hone : Swept marked [e] h h' := by
          intro i
          rw [hcontents i]
          by_cases hi : i = e.id
          · rw [if_pos hi, if_pos ⟨⟨e, List.mem_singleton.2 rfl, hi.symm, hup⟩, hi ▸ hm⟩]
          · rw [if_neg hi, if_neg]
            rintro ⟨⟨e', hmem, hid, -⟩, -⟩
            rw [List.mem_singleton.1 hmem] at hid
            exact hi hid.symm
        exact ⟨hone.trans hs, hb⟩
    · rw [if_neg hup]
      obtain ⟨hs, hb⟩ := ih hfree
      exact ⟨(Swept.skip h (Or.inl (by simpa using hup))).trans hs, hb⟩

theorem sweep_swept (marked : Finset HeapId) (r : Registry) (hfree : h.borrowed = []) :
    Swept marked r.entries h (sweep marked r h).2.1 := by
  obtain ⟨s₁, f₁⟩ := sweepVec_swept marked r.objects hfree
  obtain ⟨s₂, f₂⟩ := sweepVec_swept marked r.arrays f₁
  obtain ⟨s₃, f₃⟩ := sweepVec_swept marked r.envs f₂
  obtain ⟨s₄, f₄⟩ := sweepVec_swept marked r.functions f₃
  obtain ⟨s₅, f₅⟩ := sweepVec_swept marked r.promises f₄
  obtain ⟨s₆, f₆⟩ := sweepVec_swept marked r.generators f₅
  obtain ⟨s₇, f₇⟩ := sweepVec_swept marked r.proxies f₆
  obtain ⟨s₈, f₈⟩ := sweepVec_swept marked r.bindings f₇
  obtain ⟨s₉, -⟩ := sweepVec_swept marked r.asyncTasks f₈
  exact ((((((((s₁.trans s₂).trans s₃).trans s₄).trans s₅).trans s₆).trans s₇).trans s₈).trans s₉)

theorem WeakStorage.prune_prune (marked : Finset HeapId) (w : WeakStorage) :
    (w.prune marked).prune marked = w.prune marked := by
  cases w with
  | none => rfl
  | map entries | registry callback records queued => simp [WeakStorage.prune, List.filter_filter]
  | ref target => simp [WeakStorage.prune, Option.filter_filter]

theorem Node.prune_prune (marked : Finset HeapId) (n : Node) :
    (n.prune marked).prune marked = n.prune marked := by
  cases n with
  | object n => simp [Node.prune, WeakStorage.prune_prune]
  | _ => rfl

/-- Pruning rewrites the weak storage of the cells it is given. -/
theorem contents_pruneWeak (marked : Finset HeapId) (cells : List Nat) (h : Heap) (i : HeapId) :
    (pruneWeak marked cells h).1.contents i =
        (if ∃ a ∈ cells, i = .object a then (h.contents i).map (Node.prune marked)
          else h.contents i) ∧
      (pruneWeak marked cells h).1.borrowed = h.borrowed := by
  unfold pruneWeak
  generalize ([] : List (GcValue × GcValue)) = jobs
  induction cells generalizing h jobs with
  | nil => simp
  | cons a cells ih =>
    rw [List.foldl_cons]
    obtain ⟨hcontents, hborrowed⟩ := ih
      { h with
        objects := Slots.update h.objects a fun n => { n with weak := n.weak.prune marked } }
      (jobs ++ (h.weakOf a).eligible marked)
    refine ⟨?_, hborrowed⟩
    rw [hcontents]
    have hone : Heap.contents { h with
        objects := Slots.update h.objects a fun n => { n with weak := n.weak.prune marked } } i =
        if i = .object a then (h.contents i).map (Node.prune marked) else h.contents i := by
      cases i with
      | object b =>
        simp only [Heap.contents, Slots.get_update, HeapId.object.injEq]
        by_cases hb : b = a
        · simp only [hb, if_true, Option.map_map]
          rfl
        · simp only [hb, if_false]
      | _ => rfl
    rw [hone]
    by_cases hi : i = .object a
    · have hhead : ∃ b ∈ a :: cells, i = .object b := ⟨a, List.mem_cons_self, hi⟩
      rw [if_pos hi, if_pos (c := ∃ b ∈ a :: cells, i = .object b) hhead, Option.map_map]
      split
      · congr 1
        funext n
        exact n.prune_prune marked
      · rfl
    · rw [if_neg hi]
      have hiff : (∃ b ∈ a :: cells, i = .object b) ↔ ∃ b ∈ cells, i = .object b := by
        simp [hi]
      simp only [hiff]

/-- Without weak storage there is nothing to prune. -/
theorem prune_of_weakOf_none (hi : ∀ a, i = .object a → h.weakOf a = .none) :
    (h.contents i).map (Node.prune marked) = h.contents i := by
  cases i with
  | object a =>
    have hweak := hi a rfl
    unfold Heap.weakOf at hweak
    show ((Slots.get h.objects a).map Node.object).map (Node.prune marked) =
      (Slots.get h.objects a).map Node.object
    cases hn : Slots.get h.objects a with
    | none => rfl
    | some n =>
      rw [hn] at hweak
      have hw : n.weak.prune marked = n.weak := by
        rw [show n.weak = .none from hweak]
        rfl
      simp only [Option.map_some, Node.prune, hw]
  | array a | env a | function a | promise a | generator a | proxy a | binding a | asyncTask a =>
    simp only [Heap.contents, Option.map_map]
    rfl
  | other a => rfl

/-- The containers whose edges the sweep cuts entirely. -/
def HeapId.emptied : HeapId → Bool
  | .object _ | .array _ | .env _ | .promise _ | .binding _ => true
  | _ => false

/-- A cleared cell refers to no container. -/
theorem refs_of_cleared {n : Node} (hi : i.emptied = true) (hn : h.contents i = some n.clear) :
    ∀ r ∈ h.refs i, ∀ j ∈ r.ids h, j.traced = false := by
  cases i with
  | object a =>
    obtain ⟨o, ho, heq⟩ := Option.map_eq_some_iff.1 hn
    cases n <;> simp [Node.clear] at heq
    subst heq
    intro r hr j hj
    simp only [Heap.refs, ho, Option.toList_some, List.flatMap_singleton, List.mem_map,
      ObjectNode.traceChildren, ObjectNode.clear, WeakStorage.strongValues, List.map_nil,
      List.nil_append, List.append_nil] at hr
    obtain ⟨_, ⟨s, -, rfl⟩, rfl⟩ := hr
    simp only [Ref.ids, GcValue.ids, Heap.exoticProperties, Option.toList_none, List.map_nil,
      List.nil_append, List.mem_singleton] at hj
    rw [hj]
    rfl
  | array a =>
    obtain ⟨o, ho, heq⟩ := Option.map_eq_some_iff.1 hn
    cases n <;> simp [Node.clear] at heq
    subst heq
    intro r hr j hj
    simp only [Heap.refs, ho, Option.toList_some, List.flatMap_singleton, List.mem_map,
      ArrayNode.traceChildren, ArrayNode.clear, List.nil_append] at hr
    obtain ⟨_, ⟨s, -, rfl⟩, rfl⟩ := hr
    simp only [Ref.ids, GcValue.ids, Heap.exoticProperties, Option.toList_none, List.map_nil,
      List.nil_append, List.mem_singleton] at hj
    rw [hj]
    rfl
  | env a =>
    obtain ⟨o, ho, heq⟩ := Option.map_eq_some_iff.1 hn
    cases n <;> simp [Node.clear] at heq
    subst heq
    intro r hr
    simp [Heap.refs, ho, EnvNode.clear] at hr
  | promise a =>
    obtain ⟨o, ho, heq⟩ := Option.map_eq_some_iff.1 hn
    cases n <;> simp [Node.clear] at heq
    subst heq
    intro r hr j hj
    simp only [Heap.refs, ho, Option.toList_some, List.flatMap_singleton, PromiseNode.clear,
      List.flatMap_nil, List.mem_singleton] at hr
    subst hr
    simp [Ref.ids, GcValue.ids, Heap.exoticProperties] at hj
  | binding a =>
    obtain ⟨o, ho, heq⟩ := Option.map_eq_some_iff.1 hn
    cases n <;> simp [Node.clear] at heq
    subst heq
    intro r hr j hj
    simp only [Heap.refs, ho, Option.toList_some, List.map_cons, List.map_nil,
      List.mem_singleton] at hr
    subst hr
    simp [Ref.ids, GcValue.ids, Heap.exoticProperties] at hj
  | _ => simp [HeapId.emptied] at hi

theorem refs_of_contents_none (hn : h.contents i = none) : h.refs i = [] := by
  cases i <;> simp_all [Heap.contents, Heap.refs]

/-- **Collection is exact.**  On a heap nobody has borrowed, with fuel for the
identities in it, marking ends with the least set that holds the roots and is
closed under strong edges and ephemerons.  The sweep then leaves every reachable
container as pruning left it, and clears every registered unreachable one that is
still there when its turn comes; a cleared cell refers to no container any more. -/
theorem collect_exact (h : Heap) (hfree : h.borrowed = []) (roots : List Ref) (r : Registry)
    (fuel : Nat) (hfuel : (h.universe roots).card < fuel) :
    ∃ m c, Marker.drainEphemerons h fuel (Marker.markRoots h roots) = some m ∧
      IsLeast {S | (h.graph roots).Closed S} {i | i ∈ m.marked} ∧
      collect fuel false false roots r h = some c ∧ c.skipped = none ∧
      (∀ i ∈ m.marked, c.heap.contents i = (h.contents i).map (Node.prune m.marked)) ∧
      ∀ e ∈ r.entries, e.upgrades = true → e.id ∉ m.marked →
        c.heap.contents e.id = (h.contents e.id).map Node.clear ∧
        (e.id.emptied = true → ∀ ref ∈ c.heap.refs e.id, ∀ j ∈ ref.ids c.heap,
          j.traced = false) := by
  obtain ⟨m, hm, hleast, hcalm, hcells, hweak⟩ := Marker.drainEphemerons_spec h hfree roots hfuel
  have hcollect : collect fuel false false roots r h =
      some ⟨(sweep m.marked r (pruneWeak m.marked m.weakCells h).1).2.1,
        (sweep m.marked r (pruneWeak m.marked m.weakCells h).1).1,
        (pruneWeak m.marked m.weakCells h).2, r.entries.length, m.marked.card,
        (sweep m.marked r (pruneWeak m.marked m.weakCells h).1).2.2, none⟩ := by
    simp [collect, hm, hcalm]
  have hpfree : (pruneWeak m.marked m.weakCells h).1.borrowed = [] :=
    (contents_pruneWeak m.marked m.weakCells h (.other 0)).2.trans hfree
  have hswept := sweep_swept m.marked r hpfree
  refine ⟨m, _, hm, hleast, hcollect, rfl, ?_, ?_⟩
  · intro i hi
    refine (hswept i).trans ?_
    rw [if_neg (fun hc => hc.2 hi), (contents_pruneWeak m.marked m.weakCells h i).1]
    split
    · rfl
    · next hout =>
        -- a marked cell that was not set aside has no weak storage
        refine (prune_of_weakOf_none ?_).symm
        intro a ha
        rcases hweak a (ha ▸ hi) with hnone | hmem
        · exact hnone
        · exact absurd ⟨a, hmem, ha⟩ hout
  · intro e he hup hout
    have hclear : (sweep m.marked r (pruneWeak m.marked m.weakCells h).1).2.1.contents e.id =
        (h.contents e.id).map Node.clear := by
      rw [hswept e.id, if_pos ⟨⟨e, he, rfl, hup⟩, hout⟩,
        (contents_pruneWeak m.marked m.weakCells h e.id).1, if_neg]
      rintro ⟨a, ha, heq⟩
      exact hout (heq ▸ hcells a ha)
    refine ⟨hclear, ?_⟩
    intro hempty
    cases hn : h.contents e.id with
    | none =>
      rw [hn] at hclear
      intro ref href
      rw [refs_of_contents_none hclear] at href
      simp at href
    | some n =>
      rw [hn] at hclear
      exact refs_of_cleared hempty hclear

/-- A weak map (0) whose entry for the rooted key 1 leads to object 2, and the
cycle of 3 and 4 that nothing refers to. -/
def sampleHeap : Heap where
  objects :=
    [(0, ⟨[], [], none, [], .map [(.object 1, .object 2), (.object 3, .object 4)]⟩),
      (1, ⟨[], [], none, [], .none⟩), (2, ⟨[.object 0], [], none, [], .none⟩),
      (3, ⟨[.object 4], [], none, [], .none⟩), (4, ⟨[.object 3], [], none, [], .none⟩)]
  arrays := []
  envs := []
  functions := []
  promises := []
  generators := []
  proxies := []
  bindings := []
  asyncTasks := []
  borrowed := []

/-- Every object of the sample is registered and alive. -/
def sampleRegistry : Registry :=
  ⟨[⟨.object 0, true⟩, ⟨.object 1, true⟩, ⟨.object 2, true⟩, ⟨.object 3, true⟩, ⟨.object 4, true⟩],
    [], [], [], [], [], [], [], []⟩

/-- The entry's value survives with its edge, the cycle is cut. -/
theorem collect_exact_sample :
    ∃ c, collect 10 false false [.value (.object 0), .value (.object 1)] sampleRegistry
        sampleHeap = some c ∧
      c.heap.contents (.object 2) = some (.object ⟨[.object 0], [], none, [], .none⟩) ∧
      c.heap.contents (.object 3) = some (.object ⟨[], [], none, [], .none⟩) := by
  obtain ⟨m, c, hm, -, hc, -, hkept, hcleared⟩ :=
    collect_exact sampleHeap rfl [.value (.object 0), .value (.object 1)] sampleRegistry 10
      (by decide)
  have hmarked : m.marked = {.object 0, .object 1, .object 2} := by
    have heval : (Marker.drainEphemerons sampleHeap 10
        (Marker.markRoots sampleHeap [.value (.object 0), .value (.object 1)])).map Marker.marked =
        some {.object 0, .object 1, .object 2} := by decide
    rw [hm] at heval
    exact Option.some.inj heval
  refine ⟨c, hc, ?_, ?_⟩
  · rw [hkept (.object 2) (by rw [hmarked]; decide)]
    rfl
  · rw [(hcleared ⟨.object 3, true⟩ (by decide) rfl (by rw [hmarked]; decide)).1]
    rfl

end NapiVm
