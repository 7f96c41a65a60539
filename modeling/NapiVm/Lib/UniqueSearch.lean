import Mathlib.Data.Finset.Card

/-!
# Search for the only value

A depth-first search through a graph some of whose nodes hold values.  A node that has been seen
before is passed over, whatever its own answer has been or will be, and two different values end
the search.  All the same the answer is about everything that can be reached.

* `search` — the search, with a bound on its depth.
* `search_spec` — what the answer says.
* `search_isSome` — when the nodes are finitely many, some bound is enough.
-/

namespace NapiVm.UniqueSearch

open List

variable {ν β ε : Type}

/-- What stands at a node: its value, if it has one, or the nodes to go to. -/
inductive Expansion (ν β ε : Type) where
  | leaf (value : Except ε (Option β))
  | next (v : ν)
  | all (vs : List ν)

inductive Answer (β : Type) where
  | found (b : β)
  | nothing
  | ambiguous

def Answer.ofOption : Option β → Answer β
  | some b => .found b
  | none => .nothing

section Search

variable [DecidableEq ν] [DecidableEq β] (expand : ν → Expansion ν β ε)

/-- The nodes in order, until two of them have different values. -/
def searchAll (visit : List ν → ν → Option (List ν × Except ε (Answer β))) :
    Option β → List ν → List ν → Option (List ν × Except ε (Answer β))
  | resolved, seen, [] => some (seen, .ok (.ofOption resolved))
  | resolved, seen, v :: vs =>
    match visit seen v with
    | none => none
    | some (seen, .error e) => some (seen, .error e)
    | some (seen, .ok .nothing) => searchAll visit resolved seen vs
    | some (seen, .ok .ambiguous) => some (seen, .ok .ambiguous)
    | some (seen, .ok (.found candidate)) =>
      match resolved with
      | none => searchAll visit (some candidate) seen vs
      | some previous =>
        if previous = candidate then searchAll visit (some candidate) seen vs
        else some (seen, .ok .ambiguous)

/-- The search, and the nodes it has seen. -/
def search : Nat → List ν → ν → Option (List ν × Except ε (Answer β))
  | 0, _, _ => none
  | depth + 1, seen, v =>
    if v ∈ seen then some (seen, .ok .nothing)
    else
      match expand v with
      | .leaf value => some (v :: seen, value.map .ofOption)
      | .next w => search depth (v :: seen) w
      | .all vs => searchAll (search depth) none (v :: seen) vs

end Search

/-! ## What can be reached -/

def Expansion.children : Expansion ν β ε → List ν
  | .leaf _ => []
  | .next w => [w]
  | .all vs => vs

variable (expand : ν → Expansion ν β ε)

def children (v : ν) : List ν := (expand v).children

def Reaches : ν → ν → Prop := Relation.ReflTransGen fun v w => w ∈ children expand v

/-- The value of a node. -/
def Holds (v : ν) (b : β) : Prop := expand v = .leaf (.ok (some b))

/-- The error of a node. -/
def Fails (v : ν) (e : ε) : Prop := expand v = .leaf (.error e)

/-- What has been seen is done with, and `o` is the only value in it. -/
structure Settled (base seen : List ν) (o : Option β) : Prop where
  closed : ∀ v ∈ seen, v ∉ base → ∀ w ∈ children expand v, w ∈ seen
  holds : ∀ v ∈ seen, v ∉ base → ∀ b, Holds expand v b → o = some b
  fails : ∀ v ∈ seen, v ∉ base → ∀ e, ¬ Fails expand v e
  value : ∀ b, o = some b → ∃ v ∈ seen, v ∉ base ∧ Holds expand v b

/-- What an answer says about what has been seen since `base`. -/
structure Explored (base seen vs seen' : List ν) (r : Except ε (Answer β)) : Prop where
  grows : ∀ v ∈ seen, v ∈ seen'
  reached : ∀ w ∈ seen', w ∈ seen ∨ ∃ v ∈ vs, Reaches expand v w
  settled : ∀ o, r = .ok (.ofOption o) → (∀ v ∈ vs, v ∈ seen') ∧ Settled expand base seen' o
  ambiguous : r = .ok .ambiguous → ∃ v ∈ seen', ∃ w ∈ seen', v ∉ base ∧ w ∉ base ∧
    ∃ a b, a ≠ b ∧ Holds expand v a ∧ Holds expand w b
  error : ∀ e, r = .error e → ∃ v ∈ seen', v ∉ base ∧ Fails expand v e

variable {expand}

variable {o : Option β} {base seen seen' vs : List ν} {v : ν} {r : Except ε (Answer β)}
  {depth : Nat}

variable {o' : Option β} {visit : List ν → ν → Option (List ν × Except ε (Answer β))}

theorem ofOption_injective (h : Answer.ofOption o = Answer.ofOption o') : o = o' := by
  cases o <;> cases o' <;> cases h <;> rfl

theorem settled_self (base : List ν) : Settled expand base base none where
  closed _ hv hnot := absurd hv hnot
  holds _ hv hnot := absurd hv hnot
  fails _ hv hnot := absurd hv hnot
  value _ h := nomatch h

/-- One exploration behind the other. -/
theorem Settled.trans (h : Settled expand base seen o) (h' : Settled expand seen seen' o')
    (hbase : ∀ v ∈ base, v ∈ seen) (hgrows : ∀ v ∈ seen, v ∈ seen')
    (hsame : ∀ a b, o = some a → o' = some b → a = b) :
    Settled expand base seen' (o'.or o) where
  closed v hv hnot w hw := by
    by_cases hseen : v ∈ seen
    · exact hgrows w (h.closed v hseen hnot w hw)
    · exact h'.closed v hv hseen w hw
  holds v hv hnot b hb := by
    by_cases hseen : v ∈ seen
    · have ho := h.holds v hseen hnot b hb
      cases ho' : o' with
      | none => exact ho
      | some b' => rw [hsame b b' ho ho']; rfl
    · rw [h'.holds v hv hseen b hb]
      rfl
  fails v hv hnot e := by
    by_cases hseen : v ∈ seen
    · exact h.fails v hseen hnot e
    · exact h'.fails v hv hseen e
  value b hb := by
    cases ho' : o' with
    | none =>
      rw [ho'] at hb
      obtain ⟨v, hv, hnot, hholds⟩ := h.value b hb
      exact ⟨v, hgrows v hv, hnot, hholds⟩
    | some b' =>
      rw [ho'] at hb
      obtain ⟨v, hv, hnot, hholds⟩ := h'.value b' ho'
      exact ⟨v, hv, fun hin => hnot (hbase v hin), Option.some.inj hb ▸ hholds⟩

/-- One node, and the others behind it. -/
theorem Explored.cons {seen₁ : List ν} {r₁ : Except ε (Answer β)}
    (hfirst : Explored expand seen seen [v] seen₁ r₁) (hv : v ∈ seen₁)
    (hrest : Explored expand base seen₁ vs seen' r) :
    Explored expand base seen (v :: vs) seen' r where
  grows w hw := hrest.grows w (hfirst.grows w hw)
  reached w hw := by
    rcases hrest.reached w hw with hw | ⟨u, hu, hreach⟩
    · rcases hfirst.reached w hw with hw | ⟨u, hu, hreach⟩
      · exact .inl hw
      · rw [mem_singleton.1 hu] at hreach
        exact .inr ⟨v, mem_cons_self, hreach⟩
    · exact .inr ⟨u, mem_cons_of_mem _ hu, hreach⟩
  settled o ho := by
    obtain ⟨hvs, hsettled⟩ := hrest.settled o ho
    exact ⟨forall_mem_cons.2 ⟨hrest.grows v hv, hvs⟩, hsettled⟩
  ambiguous := hrest.ambiguous
  error := hrest.error

/-- An exploration that ends with two values or an error. -/
theorem Explored.stop (h : Explored expand seen seen [v] seen' r) (hbase : ∀ v ∈ base, v ∈ seen)
    (hstop : ∀ o, r ≠ .ok (.ofOption o)) : Explored expand base seen (v :: vs) seen' r where
  grows := h.grows
  reached w hw := by
    rcases h.reached w hw with hw | ⟨u, hu, hreach⟩
    · exact .inl hw
    · rw [mem_singleton.1 hu] at hreach
      exact .inr ⟨v, mem_cons_self, hreach⟩
  settled o ho := absurd ho (hstop o)
  ambiguous hr := by
    obtain ⟨x, hx, y, hy, hxnot, hynot, hvalues⟩ := h.ambiguous hr
    exact ⟨x, hx, y, hy, fun hin => hxnot (hbase x hin), fun hin => hynot (hbase y hin), hvalues⟩
  error e hr := by
    obtain ⟨x, hx, hnot, hfails⟩ := h.error e hr
    exact ⟨x, hx, fun hin => hnot (hbase x hin), hfails⟩

variable [DecidableEq β]

/-- Nodes in order, when each of them is explored. -/
theorem searchAll_explored
    (hvisit : ∀ seen v seen' r, visit seen v = some (seen', r) →
      Explored expand seen seen [v] seen' r)
    (hbase : ∀ v ∈ base, v ∈ seen) (hsettled : Settled expand base seen o)
    (h : searchAll visit o seen vs = some (seen', r)) : Explored expand base seen vs seen' r := by
  induction vs generalizing seen o with
  | nil =>
    cases h
    refine ⟨fun _ hv => hv, fun _ hw => .inl hw, fun o' ho' => ?_, fun hr => ?_, fun e he => ?_⟩
    · rw [← ofOption_injective (Except.ok.inj ho')]
      exact ⟨fun _ hv => absurd hv not_mem_nil, hsettled⟩
    · cases o <;> cases hr
    · cases he
  | cons v vs ih =>
    rw [searchAll] at h
    split at h
    · cases h
    next seen₁ e hv =>
      cases h
      exact (hvisit _ _ _ _ hv).stop hbase fun _ => nofun
    next seen₁ hv =>
      have hfirst := hvisit _ _ _ _ hv
      obtain ⟨hvs, hnew⟩ := hfirst.settled none rfl
      have hall := hsettled.trans hnew hbase hfirst.grows nofun
      exact hfirst.cons (hvs v mem_cons_self)
        (ih (fun w hw => hfirst.grows w (hbase w hw)) hall h)
    next seen₁ hv =>
      cases h
      exact (hvisit _ _ _ _ hv).stop hbase fun o => by cases o <;> nofun
    next seen₁ candidate hv =>
      have hfirst := hvisit _ _ _ _ hv
      obtain ⟨hvs, hnew⟩ := hfirst.settled (some candidate) rfl
      have hgrows := fun w hw => hfirst.grows w (hbase w hw)
      split at h
      · have hall := hsettled.trans hnew hbase hfirst.grows nofun
        exact hfirst.cons (hvs v mem_cons_self) (ih hgrows hall h)
      next previous =>
        by_cases hsame : previous = candidate
        · rw [if_pos hsame] at h
          have hall := hsettled.trans hnew hbase hfirst.grows
            fun a b ha hb => by cases ha; cases hb; exact hsame
          exact hfirst.cons (hvs v mem_cons_self) (ih hgrows hall h)
        · rw [if_neg hsame] at h
          cases h
          obtain ⟨x, hx, hxnot, hxholds⟩ := hsettled.value previous rfl
          obtain ⟨y, hy, hynot, hyholds⟩ := hnew.value candidate rfl
          refine ⟨hfirst.grows, fun w hw => ?_, fun o ho => ?_, fun _ => ?_, fun e he => ?_⟩
          · rcases hfirst.reached w hw with hw | ⟨u, hu, hreach⟩
            · exact .inl hw
            · rw [mem_singleton.1 hu] at hreach
              exact .inr ⟨v, mem_cons_self, hreach⟩
          · cases o <;> cases ho
          · exact ⟨x, hfirst.grows x hx, y, hy, hxnot, fun hin => hynot (hbase y hin), previous,
              candidate, hsame, hxholds, hyholds⟩
          · cases he

omit [DecidableEq β] in
/-- A node that is not a leaf, when its children are explored. -/
theorem Explored.enter (hnew : v ∉ seen) (hleaf : ∀ value, expand v ≠ .leaf value)
    (h : Explored expand (v :: seen) (v :: seen) (children expand v) seen' r) :
    Explored expand seen seen [v] seen' r where
  grows w hw := h.grows w (mem_cons_of_mem v hw)
  reached w hw := by
    rcases h.reached w hw with hw | ⟨u, hu, hreach⟩
    · rcases mem_cons.1 hw with rfl | hw
      · exact .inr ⟨w, mem_singleton.2 rfl, .refl⟩
      · exact .inl hw
    · exact .inr ⟨v, mem_singleton.2 rfl, hreach.head hu⟩
  settled o ho := by
    obtain ⟨hchildren, hsettled⟩ := h.settled o ho
    have hv := h.grows v mem_cons_self
    have hcases : ∀ w ∉ seen, w = v ∨ w ∉ v :: seen := fun w hw =>
      (Classical.em (w = v)).imp_right fun hne hin => (mem_cons.1 hin).elim hne hw
    refine ⟨forall_mem_singleton.2 hv, ⟨fun w hw hnot => ?_, fun w hw hnot b hb => ?_,
      fun w hw hnot e he => ?_, fun b hb => ?_⟩⟩
    · rcases hcases w hnot with rfl | hnot
      · exact hchildren
      · exact hsettled.closed w hw hnot
    · rcases hcases w hnot with rfl | hnot
      · exact absurd hb (hleaf _)
      · exact hsettled.holds w hw hnot b hb
    · rcases hcases w hnot with rfl | hnot
      · exact absurd he (hleaf _)
      · exact hsettled.fails w hw hnot e he
    · obtain ⟨w, hw, hnot, hholds⟩ := hsettled.value b hb
      exact ⟨w, hw, fun hin => hnot (mem_cons_of_mem v hin), hholds⟩
  ambiguous hr := by
    obtain ⟨x, hx, y, hy, hxnot, hynot, hvalues⟩ := h.ambiguous hr
    exact ⟨x, hx, y, hy, fun hin => hxnot (mem_cons_of_mem v hin),
      fun hin => hynot (mem_cons_of_mem v hin), hvalues⟩
  error e hr := by
    obtain ⟨x, hx, hnot, hfails⟩ := h.error e hr
    exact ⟨x, hx, fun hin => hnot (mem_cons_of_mem v hin), hfails⟩

omit [DecidableEq β] in
/-- A leaf. -/
theorem explored_leaf {value : Except ε (Option β)} (hnew : v ∉ seen)
    (hleaf : expand v = .leaf value) :
    Explored expand seen seen [v] (v :: seen) (value.map .ofOption) := by
  have hreached : ∀ w ∈ v :: seen, w ∈ seen ∨ ∃ u ∈ [v], Reaches expand u w := fun w hw =>
    (mem_cons.1 hw).elim (fun heq => .inr ⟨v, mem_singleton.2 rfl, heq ▸ .refl⟩) .inl
  have honly : ∀ w ∈ v :: seen, w ∉ seen → w = v := fun w hw hnot =>
    (mem_cons.1 hw).resolve_right hnot
  have hv : v ∈ v :: seen := mem_cons_self
  refine ⟨fun w hw => mem_cons_of_mem v hw, hreached, fun o ho => ?_, fun hr => ?_,
    fun e he => ?_⟩
  · cases value with
    | error e => cases ho
    | ok o' =>
      obtain rfl := ofOption_injective (Except.ok.inj ho)
      refine ⟨forall_mem_singleton.2 hv, ⟨fun w hw hnot => ?_, fun w hw hnot b hb => ?_,
        fun w hw hnot e he => ?_, fun b hb => ⟨v, hv, hnew, (by rw [Holds, hleaf, hb])⟩⟩⟩
      · rw [honly w hw hnot, children, hleaf]
        exact fun _ hin => absurd hin not_mem_nil
      · rw [Holds, honly w hw hnot, hleaf] at hb
        exact Except.ok.inj (Expansion.leaf.inj hb)
      · rw [Fails, honly w hw hnot, hleaf] at he
        cases Expansion.leaf.inj he
  · cases value with
    | error e => cases hr
    | ok o' => cases o' <;> cases hr
  · cases value with
    | error e' =>
      cases he
      exact ⟨v, hv, hnew, hleaf⟩
    | ok o' => cases he

variable [DecidableEq ν]

theorem search_explored (h : search expand depth seen v = some (seen', r)) :
    Explored expand seen seen [v] seen' r := by
  induction depth generalizing seen seen' v r with
  | zero => cases h
  | succ depth ih =>
    rw [search] at h
    split at h
    next hin =>
      cases h
      refine ⟨fun _ hw => hw, fun _ hw => .inl hw, fun o ho => ?_, nofun, nofun⟩
      rw [← ofOption_injective (o := none) (Except.ok.inj ho)]
      exact ⟨forall_mem_singleton.2 hin, settled_self seen⟩
    next hnew =>
      split at h
      next value hleaf =>
        cases h
        exact explored_leaf hnew hleaf
      next w hnext =>
        refine Explored.enter hnew (fun value hleaf => ?_) ?_
        · rw [hnext] at hleaf
          cases hleaf
        · rw [children, hnext]
          exact ih h
      next vs hall =>
        refine Explored.enter hnew (fun value hleaf => ?_) ?_
        · rw [hall] at hleaf
          cases hleaf
        · rw [children, hall]
          exact searchAll_explored (fun _ _ _ _ => ih) (fun _ hv => hv) (settled_self (v :: seen)) h

/-! ## The answer -/

/-- What an answer says about everything that can be reached. -/
structure Says (expand : ν → Expansion ν β ε) (v : ν) (r : Except ε (Answer β)) : Prop where
  found : ∀ b, r = .ok (.found b) → (∃ w, Reaches expand v w ∧ Holds expand w b) ∧
    ∀ w, Reaches expand v w → ∀ a, Holds expand w a → a = b
  nothing : r = .ok .nothing → ∀ w, Reaches expand v w → ∀ a, ¬ Holds expand w a
  ambiguous : r = .ok .ambiguous → ∃ w w', Reaches expand v w ∧ Reaches expand v w' ∧
    ∃ a b, a ≠ b ∧ Holds expand w a ∧ Holds expand w' b
  error : ∀ e, r = .error e → ∃ w, Reaches expand v w ∧ Fails expand w e

theorem search_spec (h : search expand depth [] v = some (seen, r)) : Says expand v r := by
  have hexplored := search_explored h
  have hreached : ∀ w ∈ seen, Reaches expand v w := by
    intro w hw
    rcases hexplored.reached w hw with hw | ⟨u, hu, hreach⟩
    · cases hw
    · rwa [mem_singleton.1 hu] at hreach
  have hall : ∀ o, r = .ok (.ofOption o) → ∀ w, Reaches expand v w → w ∈ seen := by
    intro o ho w hreach
    obtain ⟨hv, hsettled⟩ := hexplored.settled o ho
    induction hreach with
    | refl => exact hv v (mem_singleton.2 rfl)
    | tail _ hchild ih => exact hsettled.closed _ ih not_mem_nil _ hchild
  refine ⟨fun b hr => ?_, fun hr w hreach a ha => ?_, fun hr => ?_, fun e hr => ?_⟩
  · have hsettled := (hexplored.settled (some b) hr).2
    obtain ⟨w, hw, -, hholds⟩ := hsettled.value b rfl
    refine ⟨⟨w, hreached w hw, hholds⟩, fun w hreach a ha => ?_⟩
    have heq := hsettled.holds w (hall (some b) hr w hreach) not_mem_nil a ha
    exact (Option.some.inj heq).symm
  · have hsettled := (hexplored.settled none hr).2
    cases hsettled.holds w (hall none hr w hreach) not_mem_nil a ha
  · obtain ⟨x, hx, y, hy, -, -, hvalues⟩ := hexplored.ambiguous hr
    exact ⟨x, y, hreached x hx, hreached y hy, hvalues⟩
  · obtain ⟨x, hx, -, hfails⟩ := hexplored.error e hr
    exact ⟨x, hreached x hx, hfails⟩

/-! ## Depth -/

omit [DecidableEq ν] in
theorem searchAll_isSome
    (hgrows : ∀ seen v seen' r, visit seen v = some (seen', r) → ∀ w ∈ seen, w ∈ seen')
    (hvisit : ∀ seen', (∀ w ∈ seen, w ∈ seen') → ∀ v ∈ vs, (visit seen' v).isSome) :
    (searchAll visit o seen vs).isSome := by
  induction vs generalizing seen o with
  | nil => rfl
  | cons v vs ih =>
    have hnext : ∀ seen₁ r, visit seen v = some (seen₁, r) → ∀ o,
        (searchAll visit o seen₁ vs).isSome := fun seen₁ r hv o =>
      ih fun seen' hseen' w hw => hvisit seen'
        (fun u hu => hseen' u (hgrows _ _ _ _ hv u hu)) w (mem_cons_of_mem v hw)
    have hsome := hvisit seen (fun _ hw => hw) v mem_cons_self
    rw [searchAll]
    split
    next hv => rw [hv] at hsome; exact hsome
    next => rfl
    next hv => exact hnext _ _ hv _
    next => rfl
    next hv =>
      split
      · exact hnext _ _ hv _
      · split
        · exact hnext _ _ hv _
        · rfl

/-- When the nodes are finitely many, a search is never deeper than they are many. -/
theorem search_isSome {U : Finset ν} (hU : ∀ v ∈ U, ∀ w ∈ children expand v, w ∈ U) (hv : v ∈ U)
    (hdepth : (U \ seen.toFinset).card < depth) : (search expand depth seen v).isSome := by
  induction depth generalizing seen v with
  | zero => exact absurd hdepth (Nat.not_lt_zero _)
  | succ depth ih =>
    rw [search]
    split
    · rfl
    next hnew =>
      have hfewer : ∀ seen' : List ν, (∀ w ∈ v :: seen, w ∈ seen') →
          (U \ seen'.toFinset).card < depth := by
        intro seen' hseen'
        have hlt : (U \ seen'.toFinset).card < (U \ seen.toFinset).card := by
          refine Finset.card_lt_card (Finset.ssubset_iff_subset_ne.2
            ⟨fun w hw => ?_, fun heq => ?_⟩)
          · rw [Finset.mem_sdiff, mem_toFinset] at hw ⊢
            exact ⟨hw.1, fun hin => hw.2 (hseen' w (mem_cons_of_mem v hin))⟩
          · have hin : v ∈ U \ seen.toFinset := by
              rw [Finset.mem_sdiff, mem_toFinset]
              exact ⟨hv, hnew⟩
            rw [← heq, Finset.mem_sdiff, mem_toFinset] at hin
            exact hin.2 (hseen' v mem_cons_self)
        omega
      split
      · rfl
      next w hnext =>
        refine ih (hU v hv w ?_) (hfewer _ fun _ hw => hw)
        rw [children, hnext]
        exact mem_singleton.2 rfl
      next vs hall =>
        refine searchAll_isSome (fun _ _ _ _ h => (search_explored h).grows) ?_
        intro seen' hseen' w hw
        refine ih (hU v hv w ?_) (hfewer seen' hseen')
        rw [children, hall]
        exact hw

end NapiVm.UniqueSearch
