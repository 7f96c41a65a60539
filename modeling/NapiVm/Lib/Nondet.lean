/-!
# Code that calls into unknown code

`Nondet σ ε α` is code over a state `σ` that hands control to parties nobody
can see the source of.  It is given by its runs: `m s r t` says that a run of
`m` from `s` can end with the result `r` in the state `t`.  An error keeps the
state it was raised in.

Two judgements are used.  `Preserves I m`: every run from a state of `I` ends in a
state of `I`, whether it returns or fails.  `Gives P m Q`: a run from a state of
`P` that returns `a` ends in a state of `Q a`; nothing is said of a run that
fails.
-/

namespace NapiVm

/-- Code over a state `σ`, by the results and final states its runs can have. -/
def Nondet (σ ε α : Type) : Type := σ → Except ε α → σ → Prop

namespace Nondet

variable {σ ε α β : Type}

/-- Run one piece of code after another, stopping at the first error. -/
def andThen (m : Nondet σ ε α) (k : α → Nondet σ ε β) : Nondet σ ε β := fun s r t =>
  (∃ e, r = .error e ∧ m s (.error e) t) ∨ ∃ a u, m s (.ok a) u ∧ k a u r t

instance : Monad (Nondet σ ε) where
  pure a := fun s r t => r = .ok a ∧ t = s
  bind := andThen

/-- Return early with an error. -/
def throw (e : ε) : Nondet σ ε α := fun s r t => r = .error e ∧ t = s

/-- Fail with `e` when the condition holds. -/
def refuse (c : Bool) (e : ε) : Nondet σ ε Unit := if c then throw e else pure ()

/-- A value nothing is known about. -/
def choose : Nondet σ ε α := fun s r t => (∃ a, r = .ok a) ∧ t = s

/-- Read the state. -/
def read (f : σ → α) : Nondet σ ε α := fun s r t => r = .ok (f s) ∧ t = s

/-- A step of code whose result and effect the state decides. -/
def perform (f : σ → Except ε α × σ) : Nondet σ ε α := fun s r t => (r, t) = f s

/-- A step that is taken only in the states where it is permitted. -/
def when (p : σ → Prop) (m : Nondet σ ε α) : Nondet σ ε α := fun s r t => p s ∧ m s r t

/-! ## What runs keep -/

/-- Every run from a state of `I` ends in a state of `I`. -/
def Preserves (I : σ → Prop) (m : Nondet σ ε α) : Prop := ∀ ⦃s r t⦄, I s → m s r t → I t

/-- A run from a state of `P` that returns `a` ends in a state of `Q a`. -/
def Gives (P : σ → Prop) (m : Nondet σ ε α) (Q : α → σ → Prop) : Prop :=
  ∀ ⦃s a t⦄, P s → m s (.ok a) t → Q a t

namespace Preserves

variable {I : σ → Prop}

theorem ret (a : α) : Preserves I (pure a : Nondet σ ε α) := by
  rintro s r t hs ⟨-, rfl⟩
  exact hs

theorem bind {m : Nondet σ ε α} {k : α → Nondet σ ε β} (hm : Preserves I m)
    (hk : ∀ a, Preserves I (k a)) : Preserves I (m >>= k) := by
  rintro s r t hs (⟨e, -, h⟩ | ⟨a, u, h, h'⟩)
  · exact hm hs h
  · exact hk a (hm hs h) h'

theorem of_throw (e : ε) : Preserves I (throw e : Nondet σ ε α) := by
  rintro s r t hs ⟨-, rfl⟩
  exact hs

theorem of_refuse (c : Bool) (e : ε) : Preserves I (refuse c e : Nondet σ ε Unit) := by
  cases c
  · exact ret ()
  · exact of_throw e

theorem of_choose : Preserves I (choose : Nondet σ ε α) := by
  rintro s r t hs ⟨-, rfl⟩
  exact hs

theorem of_read (f : σ → α) : Preserves I (read f : Nondet σ ε α) := by
  rintro s r t hs ⟨-, rfl⟩
  exact hs

theorem of_perform {f : σ → Except ε α × σ} (h : ∀ s, I s → I (f s).2) :
    Preserves I (perform f) := by
  intro s r t hs hr
  have ht : t = (f s).2 := congrArg Prod.snd hr
  exact ht ▸ h s hs

theorem ite {c : Prop} [Decidable c] {m n : Nondet σ ε α} (hm : Preserves I m) (hn : Preserves I n) :
    Preserves I (if c then m else n) := by
  split
  · exact hm
  · exact hn

end Preserves

namespace Gives

variable {P P' : σ → Prop} {Q Q' : α → σ → Prop} {R : β → σ → Prop}

theorem ret {a : α} (h : ∀ s, P s → Q a s) : Gives P (pure a : Nondet σ ε α) Q := by
  rintro s b t hs ⟨hb, rfl⟩
  obtain rfl := Except.ok.inj hb
  exact h t hs

variable {m : Nondet σ ε α}

theorem bind {k : α → Nondet σ ε β} (hm : Gives P m Q) (hk : ∀ a, Gives (Q a) (k a) R) :
    Gives P (m >>= k) R := by
  rintro s b t hs (⟨e, he, -⟩ | ⟨a, u, h, h'⟩)
  · cases he
  · exact hk a (hm hs h) h'

theorem of_throw (e : ε) : Gives P (throw e : Nondet σ ε α) Q := by
  rintro s a t - ⟨h, -⟩
  cases h

/-- A check that did not fail tells that its condition was false. -/
theorem of_refuse {c : Bool} {e : ε} :
    Gives P (refuse c e : Nondet σ ε Unit) fun _ s => P s ∧ c = false := by
  cases c
  · exact ret fun s hs => ⟨hs, rfl⟩
  · exact of_throw e

theorem of_read (f : σ → α) : Gives P (read f : Nondet σ ε α) fun a s => P s ∧ a = f s := by
  rintro s a t hs ⟨h, rfl⟩
  exact ⟨hs, Except.ok.inj h⟩

theorem of_perform {f : σ → Except ε α × σ}
    (h : ∀ s a, P s → (f s).1 = .ok a → Q a (f s).2) : Gives P (perform f) Q := by
  intro s a t hs hr
  have ha : (f s).1 = .ok a := (congrArg Prod.fst hr).symm
  have ht : t = (f s).2 := congrArg Prod.snd hr
  exact ht ▸ h s a hs ha

theorem of_keeps (h : Preserves P m) : Gives P m fun _ => P :=
  fun _ _ _ hs hr => h hs hr

theorem top : Gives P m fun _ _ => True := fun _ _ _ _ _ => trivial

theorem and (h : Gives P m Q) (h' : Gives P m Q') :
    Gives P m fun a s => Q a s ∧ Q' a s := fun _ _ _ hs hr => ⟨h hs hr, h' hs hr⟩

/-- A postcondition may be added to what a run keeps. -/
theorem and_keeps (h : Gives P m Q) (hk : Preserves P m) :
    Gives P m fun a s => P s ∧ Q a s := fun _ _ _ hs hr => ⟨hk hs hr, h hs hr⟩

theorem weaken (h : Gives P m Q) (hP : ∀ s, P' s → P s) (hQ : ∀ a s, Q a s → Q' a s) :
    Gives P' m Q' := fun _ _ _ hs hr => hQ _ _ (h (hP _ hs) hr)

theorem anywhere (h : Gives (fun _ => True) m Q) : Gives P m Q :=
  h.weaken (fun _ _ => trivial) fun _ _ hq => hq

theorem post (h : Gives P m Q) (hQ : ∀ a s, Q a s → Q' a s) : Gives P m Q' :=
  h.weaken (fun _ hs => hs) hQ

/-- A precondition that is a fact about the returned value of an earlier step. -/
theorem of_fact {c : Prop} (h : c → Gives P m Q) :
    Gives (fun s => P s ∧ c) m Q := fun _ _ _ hs hr => h hs.2 hs.1 hr

theorem ite {c : Prop} [Decidable c] {n : Nondet σ ε α} (hm : c → Gives P m Q)
    (hn : ¬ c → Gives P n Q) : Gives P (if c then m else n) Q := by
  split
  · next h => exact hm h
  · next h => exact hn h

end Gives

end Nondet

end NapiVm
