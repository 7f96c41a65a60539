import Mathlib.Logic.Basic

/-!
# Stateful code with errors and panics

`Action σ ε α` is code over a state `σ` that returns an `α`, returns an error
`ε`, or panics.  The state outlives an error: what ran before the error keeps
its effect, as in a function that mutates through a reference and then returns
early.

`Safe I m Q` is the judgement used to reason about such code: started in a state
of the invariant `I`, `m` does not panic, ends in a state of `I` whether it
returns or fails, and a returned value satisfies `Q`.  `Preserves I m Q` says the
same without forbidding the panic.
-/

namespace NapiVm

/-- How a computation ends. -/
inductive Outcome (ε α : Type) where
  | ok (a : α)
  | err (e : ε)
  | panic
  deriving DecidableEq, Repr

/-- No panic, and a returned value satisfies `Q`. -/
def Outcome.Meets {ε α : Type} (Q : α → Prop) : Outcome ε α → Prop
  | .ok a => Q a
  | .err _ => True
  | .panic => False

/-- A returned value satisfies `Q`. -/
def Outcome.Gives {ε α : Type} (Q : α → Prop) : Outcome ε α → Prop
  | .ok a => Q a
  | .err _ | .panic => True

/-- Code over a state `σ`. -/
def Action (σ ε α : Type) : Type := σ → Outcome ε α × σ

namespace Action

variable {σ ε α β : Type}

/-- Run one computation after another, stopping at the first error or panic. -/
def andThen (m : Action σ ε α) (k : α → Action σ ε β) : Action σ ε β := fun s =>
  match m s with
  | (.ok a, s') => k a s'
  | (.err e, s') => (.err e, s')
  | (.panic, s') => (.panic, s')

section AndThen

variable {m : Action σ ε α} {k : α → Action σ ε β} {s s' : σ}

theorem andThen_ok {a : α} (h : m s = (.ok a, s')) : m.andThen k s = k a s' := by
  unfold andThen
  rw [h]

theorem andThen_err {e : ε} (h : m s = (.err e, s')) : m.andThen k s = (.err e, s') := by
  unfold andThen
  rw [h]

end AndThen

instance : Monad (Action σ ε) where
  pure a := fun s => (.ok a, s)
  bind := andThen

/-- Read the state. -/
def get : Action σ ε σ := fun s => (.ok s, s)

/-- Change the state. -/
def modify (f : σ → σ) : Action σ ε Unit := fun s => (.ok (), f s)

/-- Return early with an error. -/
def throw (e : ε) : Action σ ε α := fun s => (.err e, s)

/-- An abort that no caller can catch. -/
def abort : Action σ ε α := fun s => (.panic, s)

/-- `Safe I m Q`: from a state of `I`, `m` ends in a state of `I` without a
panic, and what it returns satisfies `Q`. -/
def Safe (I : σ → Prop) (m : Action σ ε α) (Q : α → Prop) : Prop :=
  ∀ s, I s → I (m s).2 ∧ (m s).1.Meets Q

namespace Safe

variable {I : σ → Prop} {Q Q' : α → Prop} {R : β → Prop}

theorem ret {a : α} (h : Q a) : Safe I (pure a : Action σ ε α) Q := fun _ hs => ⟨hs, h⟩

variable {m : Action σ ε α} {k : α → Action σ ε β}

theorem bind (hm : Safe I m Q) (hk : ∀ a, Q a → Safe I (k a) R) : Safe I (m >>= k) R := by
  intro s hs
  have h := hm s hs
  have hb : (m >>= k) s = andThen m k s := rfl
  rw [hb, andThen]
  rcases hms : m s with ⟨o, s'⟩
  rw [hms] at h
  cases o with
  | ok a => exact hk a h.2 s' h.1
  | err e => exact h
  | panic => exact h

/-- Sequencing when the second part does not depend on what the first returned. -/
theorem seq (hm : Safe I m Q) (hk : ∀ a, Safe I (k a) R) : Safe I (m >>= k) R :=
  hm.bind fun a _ => hk a

theorem weaken (hm : Safe I m Q) (h : ∀ a, Q a → Q' a) : Safe I m Q' := by
  intro s hs
  have hr := hm s hs
  rcases hms : m s with ⟨o, s'⟩
  rw [hms] at hr
  cases o with
  | ok a => exact ⟨hr.1, h a hr.2⟩
  | err e => exact hr
  | panic => exact hr

theorem of_throw (e : ε) : Safe I (throw e : Action σ ε α) Q := fun _ hs => ⟨hs, trivial⟩

theorem of_get : Safe I (get : Action σ ε σ) I := fun _ hs => ⟨hs, hs⟩

theorem of_modify {f : σ → σ} (h : ∀ s, I s → I (f s)) :
    Safe I (modify f : Action σ ε Unit) fun _ => True := fun s hs => ⟨h s hs, trivial⟩

theorem ite {p : Prop} [Decidable p] {n : Action σ ε α} (hm : Safe I m Q) (hn : Safe I n Q) :
    Safe I (if p then m else n) Q := by
  split
  · exact hm
  · exact hn

/-- A loop with an accumulator is safe when each of its rounds is. -/
theorem foldlM {γ : Type} {l : List γ} {f : β → γ → Action σ ε β}
    (h : ∀ b, ∀ x ∈ l, Safe I (f b x) fun _ => True) (b : β) :
    Safe I (l.foldlM f b) fun _ => True := by
  induction l generalizing b with
  | nil => exact ret trivial
  | cons x rest ih =>
    rw [List.foldlM_cons]
    exact (h b x List.mem_cons_self).seq fun b' =>
      ih (fun c y hy => h c y (List.mem_cons_of_mem _ hy)) b'

end Safe

/-- `Preserves I m Q`: from a state of `I`, `m` ends in a state of `I`, and what it
returns satisfies `Q`. -/
def Preserves (I : σ → Prop) (m : Action σ ε α) (Q : α → Prop) : Prop :=
  ∀ s, I s → I (m s).2 ∧ (m s).1.Gives Q

namespace Preserves

variable {I : σ → Prop} {Q Q' : α → Prop} {R : β → Prop}

theorem ret {a : α} (h : Q a) : Preserves I (pure a : Action σ ε α) Q := fun _ hs => ⟨hs, h⟩

theorem bind {m : Action σ ε α} {k : α → Action σ ε β} (hm : Preserves I m Q)
    (hk : ∀ a, Q a → Preserves I (k a) R) : Preserves I (m >>= k) R := by
  intro s hs
  have h := hm s hs
  have hb : (m >>= k) s = andThen m k s := rfl
  rw [hb, andThen]
  rcases hms : m s with ⟨o, s'⟩
  rw [hms] at h
  cases o with
  | ok a => exact hk a h.2 s' h.1
  | err e => exact ⟨h.1, trivial⟩
  | panic => exact ⟨h.1, trivial⟩

theorem weaken {m : Action σ ε α} (hm : Preserves I m Q) (h : ∀ a, Q a → Q' a) :
    Preserves I m Q' := by
  intro s hs
  have hr := hm s hs
  rcases hms : m s with ⟨o, s'⟩
  rw [hms] at hr
  cases o with
  | ok a => exact ⟨hr.1, h a hr.2⟩
  | err e => exact hr
  | panic => exact hr

theorem of_throw (e : ε) : Preserves I (throw e : Action σ ε α) Q := fun _ hs => ⟨hs, trivial⟩

theorem of_abort : Preserves I (abort : Action σ ε α) Q := fun _ hs => ⟨hs, trivial⟩

theorem of_get : Preserves I (get : Action σ ε σ) I := fun _ hs => ⟨hs, hs⟩

theorem of_modify {f : σ → σ} (h : ∀ s, I s → I (f s)) :
    Preserves I (modify f : Action σ ε Unit) fun _ => True := fun s hs => ⟨h s hs, trivial⟩

/-- A loop with an accumulator keeps the invariant when each of its rounds does. -/
theorem foldlM {γ : Type} {l : List γ} {f : β → γ → Action σ ε β}
    (h : ∀ b, ∀ x ∈ l, Preserves I (f b x) fun _ => True) (b : β) :
    Preserves I (l.foldlM f b) fun _ => True := by
  induction l generalizing b with
  | nil => exact ret trivial
  | cons x rest ih =>
    rw [List.foldlM_cons]
    exact (h b x List.mem_cons_self).bind fun b' _ =>
      ih (fun c y hy => h c y (List.mem_cons_of_mem _ hy)) b'

end Preserves

end Action

end NapiVm
