import Mathlib.Data.Nat.Init

/-!
# Occurrences in a tree

The nodes of a syntax tree have children, reached along labelled edges.  Something occurs below a
node when a path of edges that are followed leads to a node that is hit; a recursive walk that
looks at the node itself and goes down the same edges finds what occurs.
-/

namespace NapiVm.Occurrence

variable {Node Edge : Type}

/-- A path along followed edges, to a node that is hit. -/
inductive Occurs (children : Node → List (Edge × Node)) (follow : Edge → Prop)
    (hit : Node → Prop) : Node → Prop where
  | here {n : Node} : hit n → Occurs children follow hit n
  | child {n m : Node} {e : Edge} : (e, m) ∈ children n → follow e →
      Occurs children follow hit m → Occurs children follow hit n

variable {children : Node → List (Edge × Node)} {follow follow' : Edge → Prop}
  {hit hit' : Node → Prop} {n : Node}

/-- **A walk finds what occurs.** -/
theorem walk_iff (walk : Node → Prop) (size : Node → Nat)
    (hsize : ∀ n, ∀ c ∈ children n, size c.2 < size n)
    (hwalk : ∀ n, walk n ↔ hit n ∨ ∃ c ∈ children n, follow c.1 ∧ walk c.2) :
    walk n ↔ Occurs children follow hit n := by
  constructor
  · intro h
    induction hn : size n using Nat.strong_induction_on generalizing n with
    | _ k ih =>
      rcases (hwalk n).1 h with hhit | ⟨⟨e, m⟩, hm, he, h⟩
      · exact .here hhit
      · exact .child hm he (ih _ (hn ▸ hsize n _ hm) h rfl)
  · intro h
    induction h with
    | here hhit => exact (hwalk _).2 (.inl hhit)
    | child hm he _ ih => exact (hwalk _).2 (.inr ⟨_, hm, he, ih⟩)

end NapiVm.Occurrence
