import Mathlib.Logic.Relation

/-!
# Runs of a transition system

A system is given by its initial states and its step relation.  `Reachable` is
the set of states its runs visit, and `Reachable.invariant` is the rule every
safety result uses: what holds initially and survives each step holds in every
state of every run.
-/

namespace NapiVm

/-- The states visited by the runs of `step` from an initial state. -/
def Reachable {σ : Type} (init : σ → Prop) (step : σ → σ → Prop) (s : σ) : Prop :=
  ∃ s₀, init s₀ ∧ Relation.ReflTransGen step s₀ s

namespace Reachable

variable {σ : Type} {init : σ → Prop} {step : σ → σ → Prop}

theorem start {s : σ} (h : init s) : Reachable init step s := ⟨s, h, .refl⟩

theorem next {s t : σ} (h : Reachable init step s) (hst : step s t) : Reachable init step t := by
  obtain ⟨s₀, h₀, hrun⟩ := h
  exact ⟨s₀, h₀, hrun.tail hst⟩

/-- **The invariant rule.** -/
theorem invariant {I : σ → Prop} (h₀ : ∀ s, init s → I s)
    (hstep : ∀ s t, I s → step s t → I t) {s : σ} (h : Reachable init step s) : I s := by
  obtain ⟨s₀, hs₀, hrun⟩ := h
  induction hrun with
  | refl => exact h₀ s₀ hs₀
  | tail _ hst ih => exact hstep _ _ ih hst

theorem steps {s t : σ} (h : Reachable init step s) (hst : Relation.ReflTransGen step s t) :
    Reachable init step t :=
  h.imp fun _ h => ⟨h.1, h.2.trans hst⟩

end Reachable

/-- **Acts in a row are steps in a row.** -/
theorem steps_of_all {σ α : Type} {step : σ → σ → Prop} {act : σ → α → Option σ}
    {all : σ → List α → Option σ} {s t : σ} {l : List α} (h : all s l = some t)
    (hnil : ∀ s, all s [] = some s) (hcons : ∀ s a l, all s (a :: l) = (act s a).bind (all · l))
    (hstep : ∀ a ∈ l, ∀ s t, act s a = some t → step s t) : Relation.ReflTransGen step s t := by
  induction l generalizing s with
  | nil =>
    cases (hnil s).symm.trans h
    exact .refl
  | cons a rest ih =>
    obtain ⟨u, hu, hrest⟩ := Option.bind_eq_some_iff.1 ((hcons s a rest).symm.trans h)
    exact .head (hstep a List.mem_cons_self s u hu)
      (ih hrest fun b hb => hstep b (List.mem_cons_of_mem _ hb))

end NapiVm
