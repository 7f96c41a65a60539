import Mathlib.Order.Bounds.Basic

/-!
# Graphs with ephemerons

A graph whose edges are of two kinds.  A strong edge leads from a reached node to
its target.  An ephemeron belongs to a map and has a key: it leads to its target
once both the map and the key are reached.

`Closed` is what a set of reached nodes must satisfy and `Reach` the least such
set, so "exactly the reachable nodes" is `IsLeast` of the closed sets.
-/

namespace NapiVm

/-- A rooted graph with strong edges and ephemerons. -/
structure EphemeronGraph (α : Type) where
  roots : Set α
  strong : α → Set α
  ephemeron : α → α → Set α

namespace EphemeronGraph

variable {α : Type} (G : EphemeronGraph α)

/-- A set that contains the roots and everything its members lead to. -/
structure Closed (S : Set α) : Prop where
  roots : G.roots ⊆ S
  strong : ∀ a ∈ S, G.strong a ⊆ S
  ephemeron : ∀ m ∈ S, ∀ k ∈ S, G.ephemeron m k ⊆ S

/-- The reachable nodes. -/
inductive Reach : α → Prop where
  | root {a : α} : a ∈ G.roots → Reach a
  | strong {a b : α} : Reach a → b ∈ G.strong a → Reach b
  | ephemeron {m k b : α} : Reach m → Reach k → b ∈ G.ephemeron m k → Reach b

theorem Closed.reach {S : Set α} (h : G.Closed S) {a : α} (ha : G.Reach a) : a ∈ S := by
  induction ha with
  | root ha => exact h.roots ha
  | strong _ hb ih => exact h.strong _ ih hb
  | ephemeron _ _ hb ihm ihk => exact h.ephemeron _ ihm _ ihk hb

/-- A closed set of reachable nodes is the set of reachable nodes. -/
theorem Closed.isLeast {S : Set α} (h : G.Closed S) (hs : ∀ a ∈ S, G.Reach a) :
    IsLeast {S | G.Closed S} S :=
  ⟨h, fun _ hT a ha => Closed.reach G hT (hs a ha)⟩

end EphemeronGraph

end NapiVm
