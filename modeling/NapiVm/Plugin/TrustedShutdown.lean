import NapiVm.Plugin.Trusted

/-!
# Shutting the trusted host down

A load does not take the lock of its instance, so that an unload or a shutdown can come between
its start and the spawn of its process.  Where that and a few other encounters do not happen, an
instance is worked on by one operation at a time, which ends with its process gone.

* `Allowed` — the encounters that are left out.
* `Sound` — what holds at all times where they are.
* `shutdown_leaves_nothing` — then a shutdown leaves no process, and nothing that spawns one.
-/

namespace NapiVm.Plugin.Trusted

namespace Stage

def ended : Stage → Bool
  | .returned _ => true
  | _ => false

end Stage

namespace Op

/-- The stages that an operation comes to. -/
def admits : Op → Stage → Bool
  | _, .returned _ => true
  | .load, .listen _ | .load, .handshake _ _ _ | .load, .terminate .start _
  | .load, .terminate .fail _ | .load, .rejected | .load, .started => true
  | .reload _, .preflight | .reload _, .quiesce | .reload _, .snapshot | .reload _, .shutdown
  | .reload _, .terminate .stop _ | .reload _, .terminate .start _
  | .reload _, .terminate .fail _ | .reload _, .stopped | .reload _, .listen _
  | .reload _, .handshake _ _ _ | .reload _, .rejected | .reload _, .started => true
  | .unload, .quiesce | .unload, .shutdown | .unload, .terminate .stop _ | .unload, .stopped => true
  | .part, .quiesce | .part, .shutdown | .part, .terminate .stop _ | .part, .stopped
  | .part, .waiting | .part, .notified | .part, .terminate .late _ => true
  | .auto, .terminate .auto _ => true
  | _, _ => false

/-- The operation has its instance for itself. -/
def owns : Op → Stage → Bool
  | _, .returned _ => false
  | .part, .waiting | .part, .notified | .part, .terminate .late _ => false
  | .load, .terminate .fail _ | .load, .started => false
  | .load, _ | .reload _, _ | .unload, _ | .part, _ => true
  | .auto, _ => false

/-- A load or a reload. -/
def spawns : Op → Bool
  | .load | .reload _ => true
  | _ => false

end Op

namespace Host

/-- A load of the instance is under way, and has neither started it nor failed. -/
def Loading (w : Host) (i : Nat) : Prop :=
  ∃ key stage, w.calls key = some (.work i .load stage) ∧ Op.load.owns stage = true

/-- A reload of the instance is under way. -/
def Reloading (w : Host) (i : Nat) : Prop :=
  ∃ key force stage, w.calls key = some (.work i (.reload force) stage) ∧
    (Op.reload force).owns stage = true

/-- A process of the instance runs. -/
def Alive (w : Host) (i : Nat) : Prop := ∃ p, w.processes p = some i

/-- What is left out: an unload or a reload that meets a load of the instance, and a shutdown that
meets any load; an unload that finds the instance stopped in the course of a reload, unless the
host is closing; a reload that begins when the host is closing, or that finds the instance failed
and its process running; and a shutdown that, after it has waited, finds the instance under an
operation still. -/
def Allowed (w : Host) : Move → Prop
  | .unload i =>
    match w.handles i with
    | none => w.closing = false → ∀ k, w.calls (k, none) ≠ some (.load i)
    | some h => ¬ w.Loading i ∧ (h.status = .stopped → w.closing = false → ¬ w.Reloading i)
  | .reload i _ =>
    ∀ h, w.handles i = some h → h.operation = false → w.closing = false ∧ ¬ w.Loading i
  | .shutdown => ∀ i, ¬ w.Loading i
  | .run key _ =>
    ∀ i op stage h, w.calls key = some (.work i op stage) → w.handles i = some h →
      (stage = .preflight → h.status = .failed → ¬ w.Alive i) ∧
        (stage = .notified ∨ stage = .terminate .late .done → h.operation = false)
  | _ => True

end Host

/-- What an operation that has come to a stage knows of its instance. -/
def Fits (h : Handle) (alive : Prop) : Op → Stage → Prop
  | _, .terminate .stop (.last _ p) => h.exitPromise = some p
  | _, .terminate .stop (.drain _) => ¬ alive
  | _, .terminate .stop .done => ¬ alive
  | _, .stopped => ¬ alive ∧ h.status = .stopped
  | _, .listen _ => ¬ alive ∧ h.status ≠ .stopped
  | .part, .returned _ => h.status = .stopped ∧ h.operation = false
  | _, _ => True

/-- What holds of the host. -/
structure Sound (w : Host) : Prop where
  known : ∀ {key i op stage}, w.calls key = some (.work i op stage) →
    op.owns stage = true ∨ op = .part → ∃ h, w.handles i = some h
  admits : ∀ {key i op stage}, w.calls key = some (.work i op stage) → op.admits stage = true
  fits : ∀ {key i op stage h}, w.calls key = some (.work i op stage) → w.handles i = some h →
    Fits h (w.Alive i) op stage
  owner : ∀ {key i op stage h}, w.calls key = some (.work i op stage) → op.owns stage = true →
    w.handles i = some h →
      if op = .load then h.operation = false ∧ w.closing = false else h.operation = true
  unique : ∀ {key key' i op op' stage stage'}, w.calls key = some (.work i op stage) →
    w.calls key' = some (.work i op' stage') → op.owns stage = true → op'.owns stage' = true →
      key = key'
  parts : ∀ {k i call}, w.calls (k, some i) = some call →
    w.closing = true ∧ ∃ stage, call = .work i .part stage
  alone : ∀ {k i op stage}, w.calls (k, none) = some (.work i op stage) → op ≠ .part
  complete : ∀ {k}, w.calls (k, none) = some .shutdown →
    w.closing = true ∧ ∀ i h, w.handles i = some h → ∃ call, w.calls (k, some i) = some call
  alive : ∀ {p i}, w.processes p = some i →
    ∃ h, w.handles i = some h ∧ h.exitPromise = some p ∧ h.status ≠ .stopped
  fresh : ∀ {key call}, w.calls key = some call → key.1 < w.fresh
  order : ∀ {u k i op stage stage'}, w.calls (u, none) = some (.work i .unload stage) →
    stage ≠ .returned false → w.calls (k, none) = some (.work i op stage') → op.spawns = true →
      op.owns stage' = true → u < k ∨ (w.closing = true ∧ ∀ session, stage' ≠ .listen session)
  orderLoad : ∀ {u k i stage}, w.calls (u, none) = some (.work i .unload stage) →
    stage ≠ .returned false → w.calls (k, none) = some (.load i) →
      u < k ∨ (w.handles i).isSome ∨ w.closing = true

/-! ## One section -/

/-- The instance is left as it was, for any other operation. -/
structure Quiet (h h' : Handle) : Prop where
  exit : h'.exitPromise = h.exitPromise
  status : h'.status = .stopped ↔ h.status = .stopped
  operation : h.status = .stopped → h'.operation = h.operation

theorem Quiet.refl (h : Handle) : Quiet h h := ⟨rfl, .rfl, fun _ => rfl⟩

theorem Fits.quiet {h h' : Handle} {alive alive' : Prop} {op : Op} {stage : Stage}
    (hf : Fits h alive op stage) (hq : Quiet h h') (ha : alive' → alive) :
    Fits h' alive' op stage := by
  unfold Fits at hf ⊢
  split at hf
  · exact hq.exit.trans hf
  · exact fun h => hf (ha h)
  · exact fun h => hf (ha h)
  · exact ⟨fun h => hf.1 (ha h), hq.status.2 hf.2⟩
  · exact ⟨fun h => hf.1 (ha h), fun h => hf.2 (hq.status.1 h)⟩
  · exact ⟨hq.status.2 hf.1, (hq.operation hf.1).trans hf.2⟩
  · trivial

/-- Nothing is known at a stage that neither owns the instance nor is the end of a part. -/
theorem fits_free {h : Handle} {alive : Prop} {op : Op} {stage : Stage}
    (ho : op.owns stage = false) (hadmits : op.admits stage = true)
    (hpart : op = .part → stage.ended = false) : Fits h alive op stage := by
  unfold Fits
  split
  · cases op <;> simp_all [Op.owns, Op.admits]
  · cases op <;> simp_all [Op.owns, Op.admits]
  · cases op <;> simp_all [Op.owns, Op.admits]
  · cases op <;> simp_all [Op.owns, Op.admits]
  · cases op <;> simp_all [Op.owns, Op.admits]
  · cases hpart rfl
  · trivial

namespace Host

/-- An operation has the instance for itself. -/
def Owned (w : Host) (i : Nat) : Prop :=
  ∃ key op stage, w.calls key = some (.work i op stage) ∧ op.owns stage = true

/-- Nothing that is under way will spawn a process of the instance. -/
def Barred (w : Host) (i : Nat) : Prop :=
  ∀ key op stage, w.calls key = some (.work i op stage) → op.spawns = true →
    op.owns stage = true → w.closing = true ∧ ∀ session, stage ≠ .listen session

end Host

variable {w : Host} {i : Nat}

/-- An instance that is neither locked nor loading has no owner. -/
theorem Sound.free (hs : Sound w) {h : Handle} (hi : w.handles i = some h)
    (hop : h.operation = false) (hload : ¬ w.Loading i) : ¬ w.Owned i := by
  rintro ⟨key, op, stage, hc, ho⟩
  have howner := hs.owner hc ho hi
  by_cases hop' : op = .load
  · subst hop'
    exact hload ⟨key, stage, hc, ho⟩
  · rw [if_neg hop'] at howner
    cases hop.symm.trans howner

theorem Host.Barred.of_free (hfree : ¬ w.Owned i) : w.Barred i :=
  fun key op stage hc _ ho => absurd ⟨key, op, stage, hc, ho⟩ hfree

/-- A stopped instance whose reloads, if there are any, meet a host that is closing. -/
theorem Sound.barred (hs : Sound w) {h : Handle} (hi : w.handles i = some h)
    (hst : h.status = .stopped) (hload : ¬ w.Loading i)
    (hreload : w.closing = false → ¬ w.Reloading i) : w.Barred i := by
  intro key op stage hc hop hown
  cases op with
  | load => exact absurd ⟨key, stage, hc, hown⟩ hload
  | reload force =>
    have hclosing : w.closing = true := by
      by_contra hopen
      exact hreload (by simpa using hopen) ⟨key, force, stage, hc, hown⟩
    refine ⟨hclosing, ?_⟩
    rintro session rfl
    exact (hs.fits hc hi).2 hst
  | _ => cases hop

theorem Sound.closing_of_part (hs : Sound w) {key : Key} {stage : Stage}
    (hc : w.calls key = some (.work i .part stage)) : w.closing = true := by
  obtain ⟨k, x⟩ := key
  cases x with
  | none => exact absurd rfl (hs.alone hc)
  | some j => exact (hs.parts hc).1

/-- What a section of the call `key` changes: the instance, the call, and the parts that wait. -/
structure Section (w w' : Host) (key : Key) (i : Nat) (op : Op) (stage : Stage)
    (h h' : Handle) : Prop where
  handle : w.handles i = some h
  closing : w'.closing = w.closing
  handles : w'.handles = w.handles.insert i h'
  self : w'.calls key = some (.work i op stage)
  others : ∀ key', key' ≠ key → w'.calls key' = w.calls key' ∨
    (w.calls key' = some (.work i .part .waiting) ∧
      w'.calls key' = some (.work i .part .notified))
  fresh : w.fresh ≤ w'.fresh ∧ key.1 < w'.fresh
  processes : ∀ p j, j ≠ i → w'.processes p = some j → w.processes p = some j
  /-- The call goes on, or is new. -/
  before : (∃ stage₀, w.calls key = some (.work i op stage₀) ∧ stage₀.ended = false ∧
      (op.spawns = true → op.owns stage = true → op.owns stage₀ = true)) ∨
    (w.calls key = none ∧ key = (w.fresh, none) ∧ op ≠ .part ∧
      (op = .unload → stage = .returned false ∨ ¬ w.Owned i))
  /-- It has the instance for itself, or leaves it as it was, or there is no one else. -/
  acts : (∃ stage₀, w.calls key = some (.work i op stage₀) ∧ op.owns stage₀ = true) ∨
    (Quiet h h' ∧ (∀ p, w'.processes p = some i → w.processes p = some i) ∧
      (op.owns stage = true ∨ h'.operation ≠ h.operation → ¬ w.Owned i)) ∨
    (w.closing = false ∧ ¬ w.Owned i)
  fits : op.admits stage = true ∧ Fits h' (w'.Alive i) op stage
  listen : ∀ session, stage = .listen session → w.closing = false
  owner : op.owns stage = true →
    if op = .load then h'.operation = false ∧ w.closing = false else h'.operation = true
  alive : ∀ p, w'.processes p = some i → h'.exitPromise = some p ∧ h'.status ≠ .stopped

namespace Section

variable {w w' : Host} {key : Key} {i : Nat} {op : Op} {stage : Stage} {h h' : Handle}

variable {key' : Key} {j : Nat} {op' : Op} {stage' : Stage}

section

variable (hc : Section w w' key i op stage h h')

include hc

/-- Another call was there before, or is a part that hears of the end of the operation. -/
theorem other {call : Call} (hne : key' ≠ key) (hcall : w'.calls key' = some call) :
    w.calls key' = some call ∨
      (w.calls key' = some (.work i .part .waiting) ∧ call = .work i .part .notified) := by
  rcases hc.others key' hne with h | ⟨h, h'⟩
  · exact .inl (h ▸ hcall)
  · exact .inr ⟨h, Option.some.inj (hcall.symm.trans h')⟩

/-- Another owner was one before. -/
theorem other_owner (hne : key' ≠ key) (hcall : w'.calls key' = some (.work j op' stage'))
    (ho : op'.owns stage' = true) : w.calls key' = some (.work j op' stage') := by
  rcases hc.other hne hcall with h | ⟨-, h⟩
  · exact h
  · cases h
    cases ho

/-- No other call owns the instance when this one does, or comes to. -/
theorem sole (hs : Sound w) (hne : key' ≠ key) (hcall : w.calls key' = some (.work i op' stage'))
    (ho : op'.owns stage' = true) (hown : op.owns stage = true ∨ h'.operation ≠ h.operation) :
    False := by
  rcases hc.acts with ⟨stage₀, h₀, ho₀⟩ | ⟨-, -, hfree⟩ | ⟨-, hfree⟩
  · exact hne (hs.unique hcall h₀ ho ho₀)
  · exact hfree hown ⟨key', op', stage', hcall, ho⟩
  · exact hfree ⟨key', op', stage', hcall, ho⟩

theorem handle_self : w'.handles i = some h' := by
  rw [hc.handles, PMap.insert_self]

theorem handle_of_ne (hj : j ≠ i) : w'.handles j = w.handles j := by
  rw [hc.handles, PMap.insert_of_ne hj]

theorem alive_of_ne (hj : j ≠ i) :
    w'.Alive j → w.Alive j := fun ⟨p, hp⟩ => ⟨p, hc.processes p j hj hp⟩

/-- What another call knows of the instance still holds. -/
theorem other_fits (hs : Sound w) (hcall : w.calls key' = some (.work i op' stage'))
    (hne : key' ≠ key) : Fits h' (w'.Alive i) op' stage' := by
  have hadmits := hs.admits hcall
  have hfits := hs.fits hcall hc.handle
  have hpart : op' = .part → w.closing = true := by
    rintro rfl
    exact hs.closing_of_part hcall
  rcases hc.acts with ⟨stage₀, h₀, ho₀⟩ | ⟨hq, hrun, -⟩ | ⟨hopen, hfree⟩
  · -- The section is of the owner, so that the other call is not, nor a part that is over.
    refine fits_free (Bool.eq_false_iff.2 fun ho => hne (hs.unique hcall h₀ ho ho₀)) hadmits ?_
    rintro rfl
    have howner := hs.owner h₀ ho₀ hc.handle
    have hclosing := hpart rfl
    cases stage' with
    | returned ok =>
      have hidle : h.status = .stopped ∧ h.operation = false := hfits
      split at howner
      · cases hclosing.symm.trans howner.2
      · cases hidle.2.symm.trans howner
    | _ => rfl
  · exact hfits.quiet hq fun ⟨p, hp⟩ => ⟨p, hrun p hp⟩
  · refine fits_free (Bool.eq_false_iff.2 fun ho => hfree ⟨key', op', stage', hcall, ho⟩) hadmits
      fun hop => ?_
    cases hopen.symm.trans (hpart hop)

/-- **A section keeps what holds of the host.** -/
theorem sound (hs : Sound w) : Sound w' where
  known {key' j op' stage'} hcall hown := by
    by_cases hj : j = i
    · subst hj
      exact ⟨h', hc.handle_self⟩
    · rw [hc.handle_of_ne hj]
      have hne : key' ≠ key := by
        rintro rfl
        cases hc.self.symm.trans hcall
        exact hj rfl
      rcases hc.other hne hcall with h | ⟨-, h⟩
      · exact hs.known h hown
      · cases h
        exact absurd rfl hj
  admits {key' j op' stage'} hcall := by
    by_cases hk : key' = key
    · subst hk
      cases hc.self.symm.trans hcall
      exact hc.fits.1
    · rcases hc.other hk hcall with h | ⟨-, h⟩
      · exact hs.admits h
      · cases h
        rfl
  fits {key' j op' stage' g} hcall hg := by
    by_cases hk : key' = key
    · subst hk
      cases hc.self.symm.trans hcall
      cases hc.handle_self.symm.trans hg
      exact hc.fits.2
    · by_cases hj : j = i
      · subst hj
        cases hc.handle_self.symm.trans hg
        rcases hc.other hk hcall with h | ⟨-, h⟩
        · exact hc.other_fits hs h hk
        · cases h
          trivial
      · rw [hc.handle_of_ne hj] at hg
        rcases hc.other hk hcall with h | ⟨-, h⟩
        · exact (hs.fits h hg).quiet (.refl g) (hc.alive_of_ne hj)
        · cases h
          exact absurd rfl hj
  owner {key' j op' stage' g} hcall ho hg := by
    by_cases hk : key' = key
    · subst hk
      cases hc.self.symm.trans hcall
      cases hc.handle_self.symm.trans hg
      rw [hc.closing]
      exact hc.owner ho
    · have hold := hc.other_owner hk hcall ho
      rw [hc.closing]
      by_cases hj : j = i
      · subst hj
        cases hc.handle_self.symm.trans hg
        have howner := hs.owner hold ho hc.handle
        by_cases hsame : h'.operation = h.operation
        · rw [hsame]
          exact howner
        · exact (hc.sole hs hk hold ho (.inr hsame)).elim
      · rw [hc.handle_of_ne hj] at hg
        exact hs.owner hold ho hg
  unique {key₁ key₂ j op₁ op₂ stage₁ stage₂} h₁ h₂ ho₁ ho₂ := by
    by_cases hk₁ : key₁ = key
    · by_cases hk₂ : key₂ = key
      · exact hk₁.trans hk₂.symm
      · subst hk₁
        cases hc.self.symm.trans h₁
        exact (hc.sole hs hk₂ (hc.other_owner hk₂ h₂ ho₂) ho₂ (.inl ho₁)).elim
    · by_cases hk₂ : key₂ = key
      · subst hk₂
        cases hc.self.symm.trans h₂
        exact (hc.sole hs hk₁ (hc.other_owner hk₁ h₁ ho₁) ho₁ (.inl ho₂)).elim
      · exact hs.unique (hc.other_owner hk₁ h₁ ho₁) (hc.other_owner hk₂ h₂ ho₂) ho₁ ho₂
  parts {k j call} hcall := by
    rw [hc.closing]
    by_cases hk : (k, some j) = key
    · subst hk
      cases hc.self.symm.trans hcall
      rcases hc.before with ⟨stage₀, h₀, -, -⟩ | ⟨-, hkey, -⟩
      · obtain ⟨hclosing, stage₁, h₁⟩ := hs.parts h₀
        cases h₁
        exact ⟨hclosing, stage, rfl⟩
      · cases hkey
    · rcases hc.other hk hcall with h | ⟨h, rfl⟩
      · exact hs.parts h
      · obtain ⟨hclosing, stage₁, h₁⟩ := hs.parts h
        cases h₁
        exact ⟨hclosing, .notified, rfl⟩
  alone {k j op' stage'} hcall := by
    by_cases hk : (k, none) = key
    · subst hk
      cases hc.self.symm.trans hcall
      rcases hc.before with ⟨stage₀, h₀, -⟩ | ⟨-, -, hpart, -⟩
      · exact hs.alone h₀
      · exact hpart
    · rcases hc.other hk hcall with h | ⟨h, -⟩
      · exact hs.alone h
      · exact absurd rfl (hs.alone h)
  complete {k} hcall := by
    have hk : (k, none) ≠ key := by
      rintro rfl
      cases hc.self.symm.trans hcall
    rcases hc.other hk hcall with h | ⟨-, h⟩
    · obtain ⟨hclosing, hall⟩ := hs.complete h
      refine ⟨hc.closing.trans hclosing, fun j g hg => ?_⟩
      have hold : ∃ g', w.handles j = some g' := by
        by_cases hj : j = i
        · exact ⟨_, hj ▸ hc.handle⟩
        · exact ⟨g, hc.handle_of_ne hj ▸ hg⟩
      obtain ⟨g', hg'⟩ := hold
      obtain ⟨call, hcall'⟩ := hall j g' hg'
      by_cases hself : (k, some j) = key
      · exact ⟨_, hself ▸ hc.self⟩
      · rcases hc.others _ hself with h | ⟨-, h⟩
        · exact ⟨call, h.trans hcall'⟩
        · exact ⟨_, h⟩
    · cases h
  alive {p j} hp := by
    by_cases hj : j = i
    · subst hj
      exact ⟨h', hc.handle_self, hc.alive p hp⟩
    · rw [hc.handle_of_ne hj]
      exact hs.alive (hc.processes p j hj hp)
  fresh {key' call} hcall := by
    by_cases hk : key' = key
    · exact hk ▸ hc.fresh.2
    · rcases hc.other hk hcall with h | ⟨h, -⟩
      · exact (hs.fresh h).trans_le hc.fresh.1
      · exact (hs.fresh h).trans_le hc.fresh.1
  order {u k j op' stage₁ stage₂} hu hstage hk hop hown := by
    rw [hc.closing]
    by_cases hku : (u, none) = key
    · subst hku
      cases hc.self.symm.trans hu
      have hne : ((k, none) : Key) ≠ (u, none) := by
        intro heq
        cases (heq ▸ hk).symm.trans hu
        cases hop
      have hold := hc.other_owner hne hk hown
      rcases hc.before with ⟨stage₀, h₀, h₁, -⟩ | ⟨-, -, -, hfree⟩
      · exact hs.order h₀ (by rintro rfl; cases h₁) hold hop hown
      · rcases hfree rfl with h | h
        · exact absurd h hstage
        · exact .inr (Host.Barred.of_free h _ _ _ hold hop hown)
    · have hold : w.calls (u, none) = some (.work j .unload stage₁) := by
        rcases hc.other hku hu with h | ⟨-, h⟩
        · exact h
        · cases h
      by_cases hkk : (k, none) = key
      · subst hkk
        cases hc.self.symm.trans hk
        rcases hc.before with ⟨stage₀, h₀, -, h₁⟩ | ⟨-, hkey, -⟩
        · refine (hs.order hold hstage h₀ hop (h₁ hop hown)).imp_right fun h => ⟨h.1, ?_⟩
          rintro session rfl
          cases h.1.symm.trans (hc.listen session rfl)
        · rw [(Prod.mk.inj hkey).1]
          exact .inl (hs.fresh hold)
      · exact hs.order hold hstage (hc.other_owner hkk hk hown) hop hown
  orderLoad {u k j stage₁} hu hstage hk := by
    have hkk : (k, none) ≠ key := by
      rintro rfl
      cases hc.self.symm.trans hk
    have hload : w.calls (k, none) = some (.load j) := by
      rcases hc.other hkk hk with h | ⟨-, h⟩
      · exact h
      · cases h
    have hold : j = i ∨ w.calls (u, none) = some (.work j .unload stage₁) := by
      by_cases hku : (u, none) = key
      · subst hku
        cases hc.self.symm.trans hu
        exact .inl rfl
      · rcases hc.other hku hu with h | ⟨-, h⟩
        · exact .inr h
        · cases h
    by_cases hj : j = i
    · subst hj
      rw [hc.handle_self]
      exact .inr (.inl rfl)
    · rw [hc.handle_of_ne hj, hc.closing]
      exact hs.orderLoad (hold.resolve_left hj) hstage hload

end

end Section

/-! ## What a section of an operation does -/

/-- The status, the lock and the promise of the exit are the same. -/
structure Same (h h' : Handle) : Prop where
  status : h'.status = h.status
  operation : h'.operation = h.operation
  exit : h'.exitPromise = h.exitPromise

theorem Same.quiet {h h' : Handle} (hs : Same h h') : Quiet h h' :=
  ⟨hs.exit, by rw [hs.status], fun _ => hs.operation⟩

section Terminate

variable {running : Nat → Bool} {h : Handle} {alive : Prop} {op : Op}

theorem fits_returned {ok : Bool} (hop : op ≠ .part) : Fits h alive op (.returned ok) := by
  cases op with
  | part => exact absurd rfl hop
  | _ => trivial

theorem same_reap (child : Option Nat) : Same h (h.reap child).1 := by
  unfold Handle.reap
  split
  all_goals exact ⟨rfl, rfl, rfl⟩

section

variable (hexit : alive → ∃ p, h.exitPromise = some p ∧ running p = true)

include hexit

/-- Without a promise there is no process. -/
theorem fits_reap (child : Option Nat) :
    Fits (h.reap child).1 alive op (.terminate .stop (h.reap child).2) := by
  have hnone : h.exitPromise = none → ¬ alive := fun hn ha => by
    obtain ⟨p, hp, -⟩ := hexit ha
    cases hn.symm.trans hp
  unfold Handle.reap
  split
  next hp => exact hp
  next hn => exact hnone hn
  next hn => exact hnone hn

omit hexit in
theorem same_terminate : Same h (h.terminate running).1 := by
  unfold Handle.terminate
  split
  · split
    · exact ⟨rfl, rfl, rfl⟩
    · exact ⟨(same_reap _).status, (same_reap _).operation, (same_reap _).exit⟩
  · exact ⟨(same_reap _).status, (same_reap _).operation, (same_reap _).exit⟩

theorem fits_terminate :
    Fits (h.terminate running).1 alive op (.terminate .stop (h.terminate running).2) := by
  unfold Handle.terminate
  split
  · split
    · trivial
    · exact fits_reap (h := { h with peer := false }) hexit _
  · exact fits_reap (h := { h with peer := false }) hexit _

/-- One section of `terminate`. -/
theorem terminate_step {a : Answer} {t : Terminating} {r : Handle × Terminating}
    (hr : t.step running h a = some r) : Same h r.1 ∧
      (Fits h alive op (.terminate .stop t) → Fits r.1 alive op (.terminate .stop r.2)) := by
  have hgone : ∀ p, h.exitPromise = some p → running p ≠ true → ¬ alive := fun p hp hrun ha => by
    obtain ⟨p', hp', hrun'⟩ := hexit ha
    cases hp.symm.trans hp'
    exact hrun hrun'
  cases t with
  | grace c exit =>
    simp only [Terminating.step] at hr
    split at hr
    · split at hr
      · cases hr
      · cases hr
        exact ⟨same_reap _, fun _ => fits_reap hexit _⟩
    · cases hr
      exact ⟨⟨rfl, rfl, rfl⟩, fun _ => trivial⟩
  | killed c exit =>
    simp only [Terminating.step] at hr
    split at hr
    · cases hr
    · cases hr
      exact ⟨same_reap _, fun _ => fits_reap hexit _⟩
  | last child p =>
    cases child with
    | none =>
      simp only [Terminating.step] at hr
      split at hr
      · cases hr
      next hrun =>
        cases hr
        exact ⟨⟨rfl, rfl, rfl⟩, fun hf => hgone p hf hrun⟩
    | some c =>
      simp only [Terminating.step] at hr
      split at hr
      · cases hr
      next hrun =>
        split at hr
        · cases hr
          exact ⟨⟨rfl, rfl, rfl⟩, fun hf => hgone p hf hrun⟩
        · cases hr
          exact ⟨⟨rfl, rfl, rfl⟩, fun hf => hgone p hf hrun⟩
  | drain c =>
    cases hr
    exact ⟨⟨rfl, rfl, rfl⟩, fun hf => hf⟩
  | done => cases hr

end

theorem admits_terminate (context : Context) (t t' : Terminating) :
    op.admits (.terminate context t) = op.admits (.terminate context t') := by
  cases op <;> cases context <;> rfl

theorem owns_terminate (context : Context) (t t' : Terminating) :
    op.owns (.terminate context t) = op.owns (.terminate context t') := by
  cases op <;> cases context <;> rfl

end Terminate

/-- What a section of an operation leaves of the instance. -/
structure Keeps (h : Handle) (alive : Prop) (fresh : Nat) (op : Op) (stage : Stage)
    (o : Outcome) : Prop where
  acts : op.owns stage = true ∨ (Quiet h o.handle ∧ o.spawns = false ∧
    (op.owns o.stage = true ∨ o.handle.operation ≠ h.operation →
      op = .part ∧ h.operation = false))
  admits : op.admits o.stage = true
  owner : op.owns o.stage = true →
    if op = .load then o.handle.operation = false else o.handle.operation = true
  quiet : o.spawns = false → o.handle.exitPromise = h.exitPromise ∧
    (o.handle.status = .stopped → h.status = .stopped ∨ ¬ alive) ∧ Fits o.handle alive op o.stage
  spawned : o.spawns = true → ¬ alive ∧ o.handle.exitPromise = some fresh ∧
    o.handle.status ≠ .stopped ∧ ∃ session, o.stage = .handshake session false false
  done : o.done = true → ∃ ok, o.stage = .returned ok

variable {fresh : Nat} {h : Handle} {op : Op}

variable {closing : Bool} {running : Nat → Bool} {a : Answer} {stage : Stage} {o : Outcome}

theorem step_terminate {context : Context} {t : Terminating} (ht : t ≠ .done) :
    (Stage.terminate context t).step closing running fresh h op a =
      (t.step running h a).map fun r => Stage.next (r.1, .terminate context r.2) := by
  cases t with
  | done => exact absurd rfl ht
  | _ => rfl

/-- Only a part comes to own its instance. -/
theorem Keeps.owns {alive : Prop} (hk : Keeps h alive fresh op stage o) (hop : op ≠ .part)
    (hown : op.owns o.stage = true) : op.owns stage = true := by
  rcases hk.acts with h | ⟨-, -, hacq⟩
  · exact h
  · exact absurd (hacq (.inl hown)).1 hop

/-- `start` looks whether the host is closing. -/
theorem closing_of_listen (hstep : stage.step closing running fresh h op a = some o)
    {session : Nat} (ho : o.stage = .listen session) : closing = false := by
  have hstart : ∀ h : Handle, (h.beginStart closing fresh).2 = .listen session →
      closing = false := by
    intro h hl
    unfold Handle.beginStart at hl
    split at hl
    · cases hl
    next hopen => simpa using hopen
  have hstop : ∀ h : Handle, (h.beginStop running a.live).2 ≠ .listen session := by
    intro h hl
    unfold Handle.beginStop at hl
    split at hl <;> cases hl
  have hproceed : (h.proceed running).2 ≠ .listen session := by
    intro hl
    unfold Handle.proceed at hl
    split at hl
    · cases hl
    · split at hl <;> cases hl
  cases stage with
  | terminate context t =>
    by_cases ht : t = .done
    · subst ht
      cases hstep
      cases context with
      | late => exact absurd ho hproceed
      | fail => cases op <;> cases ho
      | _ => cases ho
    · rw [step_terminate ht] at hstep
      obtain ⟨r, -, rfl⟩ := Option.map_eq_some_iff.1 hstep
      cases ho
  | _ =>
    simp only [Stage.step] at hstep
    grind [Stage.next, Stage.release, Handle.terminateIn]

section Step

variable {running : Nat → Bool} {h : Handle} {alive : Prop} {fresh : Nat} {op : Op}
  {stage : Stage}

/-- A section that spawns nothing and whose instance stays owned. -/
theorem keeps_next {r : Handle × Stage} (hown : op.owns stage = true)
    (hadmits : op.admits r.2 = true)
    (howner : if op = .load then h.operation = false else h.operation = true)
    (hoperation : r.1.operation = h.operation) (hexit : r.1.exitPromise = h.exitPromise)
    (hstatus : r.1.status = .stopped → h.status = .stopped ∨ ¬ alive)
    (hfits : Fits r.1 alive op r.2) :
    Keeps h alive fresh op stage (Stage.next r) where
  acts := .inl hown
  admits := hadmits
  owner _ := by
    show if op = .load then r.1.operation = false else r.1.operation = true
    rw [hoperation]
    exact howner
  quiet _ := ⟨hexit, hstatus, hfits⟩
  spawned h := by cases h
  done h := by cases h

/-- The end of an operation. -/
theorem keeps_release {ok : Bool} {h' : Handle} (hown : op.owns stage = true)
    (hexit : h'.exitPromise = h.exitPromise)
    (hstatus : h'.status = .stopped → h.status = .stopped ∨ ¬ alive)
    (hpart : op = .part → h'.status = .stopped) :
    Keeps h alive fresh op stage (Stage.release h' ok) where
  acts := .inl hown
  admits := by cases op <;> rfl
  owner h := by cases op <;> cases h
  quiet _ := by
    refine ⟨hexit, hstatus, ?_⟩
    by_cases hop : op = .part
    · subst hop
      exact ⟨hpart rfl, rfl⟩
    · exact fits_returned hop
  spawned h := by cases h
  done _ := ⟨ok, rfl⟩

/-- A section of an operation that does not own the instance. -/
theorem keeps_idle {r : Handle × Stage} (hsame : Same h r.1) (hadmits : op.admits r.2 = true)
    (hown : op.owns r.2 = false) (hfits : Fits r.1 alive op r.2) :
    Keeps h alive fresh op stage (Stage.next r) where
  acts := .inr ⟨hsame.quiet, rfl, fun hor => by
    rcases hor with h | h
    · cases hown.symm.trans h
    · exact absurd hsame.operation h⟩
  admits := hadmits
  owner h := by cases hown.symm.trans h
  quiet _ := ⟨hsame.exit, fun hst => .inl (hsame.status ▸ hst), hfits⟩
  spawned h := by cases h
  done h := by cases h

variable (hexit : alive → ∃ p, h.exitPromise = some p ∧ running p = true)
include hexit

theorem fits_terminateIn {h₁ : Handle} (hpromise : h₁.exitPromise = h.exitPromise)
    (context : Context) : Fits (h₁.terminate running).1 alive op
      (.terminate context (h₁.terminate running).2) := by
  have hexit₁ : alive → ∃ p, h₁.exitPromise = some p ∧ running p = true := hpromise ▸ hexit
  cases context with
  | stop => exact fits_terminate hexit₁
  | _ => cases op <;> trivial

/-- The owner calls `terminate`. -/
theorem keeps_terminate (h₁ : Handle) {context : Context} (hown : op.owns stage = true)
    (hadmits : op.admits (.terminate context .done) = true)
    (howner : if op = .load then h.operation = false else h.operation = true)
    (hoperation : h₁.operation = h.operation) (hpromise : h₁.exitPromise = h.exitPromise)
    (hstatus : h₁.status = .stopped → h.status = .stopped ∨ ¬ alive) :
    Keeps h alive fresh op stage (Stage.next (h₁.terminateIn running context)) := by
  have hsame : Same h₁ (h₁.terminate running).1 := same_terminate
  refine keeps_next hown (admits_terminate context _ _ ▸ hadmits) howner
    (hsame.operation.trans hoperation) (hsame.exit.trans hpromise) (fun hst => ?_)
    (fits_terminateIn hexit hpromise context)
  exact hstatus (hsame.status ▸ hst)

/-- The owner calls `stop`. -/
theorem keeps_stop (h₁ : Handle) {live : Bool} (hown : op.owns stage = true)
    (hshutdown : op.admits .shutdown = true) (hadmits : op.admits (.terminate .stop .done) = true)
    (howner : if op = .load then h.operation = false else h.operation = true)
    (hoperation : h₁.operation = h.operation) (hpromise : h₁.exitPromise = h.exitPromise) :
    Keeps h alive fresh op stage (Stage.next (h₁.beginStop running live)) := by
  unfold Handle.beginStop
  split
  · refine keeps_next hown hshutdown howner hoperation hpromise nofun ?_
    cases op <;> trivial
  · exact keeps_terminate hexit { h₁ with status := .stopping } hown hadmits howner
      hoperation hpromise nofun

omit hexit in
/-- The owner calls `start`. -/
theorem keeps_start {closing : Bool} (hown : op.owns stage = true)
    (hlisten : op.admits (.listen fresh) = true) (hrejected : op.admits .rejected = true)
    (howner : if op = .load then h.operation = false else h.operation = true) (hgone : ¬ alive) :
    Keeps h alive fresh op stage (Stage.next (h.beginStart closing fresh)) := by
  unfold Handle.beginStart
  split
  · refine keeps_next hown hrejected howner rfl rfl .inl ?_
    cases op <;> trivial
  · refine keeps_next hown hlisten howner rfl rfl nofun ?_
    cases op <;> exact ⟨hgone, nofun⟩

omit hexit in
/-- A shutdown goes on to an instance that is free. -/
theorem keeps_proceed (hop : h.operation = false) :
    Keeps h alive fresh .part stage (Stage.next (h.proceed running)) := by
  unfold Handle.proceed
  rw [if_neg (by simp [hop])]
  split
  next hst => exact keeps_idle ⟨rfl, rfl, rfl⟩ rfl rfl ⟨hst, hop⟩
  next hst =>
    exact
      { acts := .inr ⟨⟨rfl, ⟨nofun, fun h => absurd h hst⟩, fun h => absurd h hst⟩,
          rfl, fun _ => ⟨rfl, hop⟩⟩
        admits := rfl
        owner := fun _ => rfl
        quiet := fun _ => ⟨rfl, nofun, trivial⟩
        spawned := nofun
        done := fun h => by cases h }

/-- **What one section of an operation leaves of the instance.** -/
theorem keeps_step {closing : Bool} {a : Answer} {o : Outcome} (hadmits : op.admits stage = true)
    (hfits : Fits h alive op stage)
    (howner : op.owns stage = true → if op = .load then h.operation = false else h.operation = true)
    (hstopped : alive → h.status ≠ .stopped)
    (hfailed : stage = .preflight → h.status = .failed → ¬ alive)
    (hfree : stage = .notified ∨ stage = .terminate .late .done → h.operation = false)
    (hstep : stage.step closing running fresh h op a = some o) :
    Keeps h alive fresh op stage o := by
  cases stage with
  | preflight =>
    cases op with
    | reload force =>
      have hlock := howner rfl
      simp only [Stage.step] at hstep
      split at hstep
      · cases hstep
        exact keeps_release rfl rfl .inl nofun
      split at hstep
      next hst =>
        cases hstep
        refine keeps_start rfl rfl rfl hlock ?_
        rcases hst with hst | hst
        · exact hfailed rfl hst
        · exact fun ha => hstopped ha hst
      split at hstep
      · cases hstep
        exact keeps_stop hexit { h with status := .draining } rfl rfl rfl hlock rfl rfl
      split at hstep
      · cases hstep
        exact keeps_next rfl rfl hlock rfl rfl nofun trivial
      · cases hstep
        exact keeps_release rfl rfl nofun nofun
    | _ => cases hstep
  | quiesce =>
    cases op with
    | reload force =>
      have hlock := howner rfl
      simp only [Stage.step] at hstep
      split at hstep
      · cases hstep
        exact keeps_next rfl rfl hlock rfl rfl .inl trivial
      · cases hstep
        exact keeps_release rfl rfl .inl nofun
    | unload =>
      cases hstep
      exact keeps_stop hexit h rfl rfl rfl (howner rfl) rfl rfl
    | part =>
      cases hstep
      exact keeps_stop hexit h rfl rfl rfl (howner rfl) rfl rfl
    | load => cases hadmits
    | auto => cases hadmits
  | snapshot =>
    cases op with
    | reload force =>
      have hlock := howner rfl
      simp only [Stage.step] at hstep
      split at hstep
      · cases hstep
        exact keeps_stop hexit h rfl rfl rfl hlock rfl rfl
      · cases hstep
        exact keeps_release rfl rfl .inl nofun
    | _ => cases hadmits
  | shutdown =>
    cases hstep
    have hown : op.owns .shutdown = true := by cases op <;> first | rfl | cases hadmits
    refine keeps_terminate hexit h hown ?_ (howner hown) rfl rfl .inl
    cases op <;> first | rfl | cases hadmits
  | terminate context t =>
    by_cases ht : t = .done
    · subst ht
      cases hstep
      cases context with
      | stop =>
        have hown : op.owns (.terminate .stop .done) = true := by
          cases op <;> first | rfl | cases hadmits
        have hgone : ¬ alive := by cases op <;> exact hfits
        refine keeps_next hown ?_ (howner hown) rfl rfl (fun _ => .inr hgone) ?_
        · cases op <;> first | rfl | cases hadmits
        · cases op <;> exact ⟨hgone, rfl⟩
      | start =>
        have hown : op.owns (.terminate .start .done) = true := by
          cases op <;> first | rfl | cases hadmits
        refine keeps_next hown ?_ (howner hown) rfl rfl .inl ?_
        · cases op <;> first | rfl | cases hadmits
        · cases op <;> trivial
      | fail =>
        cases op with
        | load => exact keeps_idle ⟨rfl, rfl, rfl⟩ rfl rfl trivial
        | reload force => exact keeps_release rfl rfl .inl nofun
        | _ => cases hadmits
      | late =>
        cases op with
        | part => exact keeps_proceed (hfree (.inr rfl))
        | _ => cases hadmits
      | forced => cases op <;> cases hadmits
      | auto =>
        cases op with
        | auto => exact keeps_idle ⟨rfl, rfl, rfl⟩ rfl rfl trivial
        | _ => cases hadmits
    · rw [step_terminate ht] at hstep
      obtain ⟨r, hr, rfl⟩ := Option.map_eq_some_iff.1 hstep
      obtain ⟨hsame, hkeep⟩ : Same h r.1 ∧ (Fits h alive op (.terminate .stop t) →
          Fits r.1 alive op (.terminate .stop r.2)) := terminate_step hexit hr
      have hadmits' : op.admits (.terminate context r.2) = true :=
        admits_terminate context t r.2 ▸ hadmits
      have hfits' : Fits r.1 alive op (.terminate context r.2) := by
        cases context with
        | stop => exact hkeep hfits
        | _ => cases op <;> trivial
      cases hown : op.owns (.terminate context t) with
      | true =>
        exact keeps_next hown hadmits' (howner hown) hsame.operation hsame.exit
          (fun hst => .inl (hsame.status ▸ hst)) hfits'
      | false =>
        exact keeps_idle hsame hadmits' (owns_terminate context t r.2 ▸ hown) hfits'
  | stopped =>
    have hgone : ¬ alive := by cases op <;> exact hfits.1
    have hst : h.status = .stopped := by cases op <;> exact hfits.2
    cases op with
    | reload force =>
      have hlock := howner rfl
      simp only [Stage.step] at hstep
      split at hstep
      · cases hstep
        exact keeps_start rfl rfl rfl hlock hgone
      · cases hstep
        exact keeps_release rfl rfl .inl nofun
    | unload =>
      cases hstep
      exact keeps_release rfl rfl .inl nofun
    | part =>
      cases hstep
      exact keeps_release rfl rfl .inl fun _ => hst
    | load => cases hadmits
    | auto => cases hadmits
  | listen session =>
    have hown : op.owns (.listen session) = true := by
      cases op <;> first | rfl | cases hadmits
    have hgone : ¬ alive ∧ h.status ≠ .stopped := by cases op <;> exact hfits
    simp only [Stage.step] at hstep
    split at hstep
    · cases hstep
      exact
        { acts := .inl hown
          admits := by cases op <;> first | rfl | cases hadmits
          owner := fun _ => howner hown
          quiet := nofun
          spawned := fun _ => ⟨hgone.1, rfl, hgone.2, session, rfl⟩
          done := fun h => by cases h }
    · cases hstep
      refine keeps_terminate hexit h hown ?_ (howner hown) rfl rfl .inl
      cases op <;> first | rfl | cases hadmits
  | handshake session accepted initialized =>
    have hown : op.owns (.handshake session accepted initialized) = true := by
      cases op <;> first | rfl | cases hadmits
    have hfail : Keeps h alive fresh op (.handshake session accepted initialized)
        (Stage.next (h.terminateIn running .start)) := by
      refine keeps_terminate hexit h hown ?_ (howner hown) rfl rfl .inl
      cases op <;> first | rfl | cases hadmits
    simp only [Stage.step] at hstep
    split at hstep
    · split at hstep
      · split at hstep
        · cases hstep
          refine keeps_next hown ?_ (howner hown) rfl rfl .inl ?_
          · cases op <;> first | rfl | cases hadmits
          · cases op <;> trivial
        · cases hstep
          exact hfail
      · cases hstep
    · cases hstep
      exact hfail
  | rejected =>
    cases hstep
    have hown : op.owns .rejected = true := by cases op <;> first | rfl | cases hadmits
    refine keeps_terminate hexit { h with status := .failed } hown ?_ (howner hown) rfl rfl nofun
    cases op <;> first | rfl | cases hadmits
  | started =>
    cases op with
    | load =>
      cases hstep
      exact keeps_idle ⟨rfl, rfl, rfl⟩ rfl rfl trivial
    | reload force =>
      cases hstep
      exact keeps_release rfl rfl .inl nofun
    | _ => cases hadmits
  | waiting =>
    cases hstep
    cases op with
    | part =>
      exact keeps_idle same_terminate (admits_terminate .late .done _ ▸ rfl)
        (owns_terminate .late .done _ ▸ rfl) trivial
    | _ => cases hadmits
  | notified =>
    cases hstep
    cases op with
    | part => exact keeps_proceed (hfree (.inl rfl))
    | _ => cases hadmits
  | returned ok => cases hstep

end Step

/-! ## Moves -/

namespace Host

section Apply

variable (w : Host) (key : Key) (i : Nat) (op : Op) (o : Outcome)

@[simp] theorem apply_closing : (w.apply key i op o).closing = w.closing := by
  unfold apply
  dsimp only
  split <;> split <;> rfl

@[simp] theorem apply_handles : (w.apply key i op o).handles = w.handles.insert i o.handle := by
  unfold apply
  dsimp only
  split <;> split <;> rfl

@[simp] theorem apply_fresh : (w.apply key i op o).fresh = w.fresh + 1 := by
  unfold apply
  dsimp only
  split <;> split <;> rfl

theorem apply_processes : (w.apply key i op o).processes =
    if o.spawns then w.processes.insert w.fresh i else w.processes := by
  unfold apply
  dsimp only
  split <;> split <;> rfl

theorem apply_calls (key' : Key) : (w.apply key i op o).calls key' =
    if o.done = true ∧ w.calls.insert key (.work i op o.stage) key' =
      some (.work i .part .waiting) then some (.work i .part .notified)
    else w.calls.insert key (.work i op o.stage) key' := by
  unfold apply
  dsimp only
  split
  · cases o.spawns <;> simp [notify, tick, setCall, setHandle, *]
  · cases o.spawns <;> simp [tick, setCall, setHandle, *]

end Apply

end Host

section Moves

variable {w : Host} {key : Key} {i : Nat} {op : Op} {stage : Stage} {h : Handle}

/-- No load is under way when the host is closing. -/
theorem Sound.not_loading (hs : Sound w) (hclosing : w.closing = true) : ¬ w.Loading i := by
  rintro ⟨key, stage, hc, hown⟩
  obtain ⟨h, hi⟩ := hs.known hc (.inl hown)
  cases hclosing.symm.trans (hs.owner hc hown hi).2

/-- A section of an operation. -/
theorem section_apply (hs : Sound w) (hc : w.calls key = some (.work i op stage))
    (hended : stage.ended = false) (hi : w.handles i = some h) {o : Outcome}
    (hk : Keeps h (w.Alive i) w.fresh op stage o)
    (hlisten : ∀ session, o.stage = .listen session → w.closing = false) :
    Section w (w.apply key i op o) key i op o.stage h o.handle where
  handle := hi
  closing := by simp
  handles := by simp
  self := by
    rw [Host.apply_calls, PMap.insert_self, if_neg]
    rintro ⟨hdone, hwait⟩
    obtain ⟨ok, hstage⟩ := hk.done hdone
    rw [hstage] at hwait
    cases hwait
  others key' hne := by
    rw [Host.apply_calls, PMap.insert_of_ne hne]
    split
    next h => exact .inr ⟨h.2, rfl⟩
    next => exact .inl rfl
  fresh := by
    rw [Host.apply_fresh]
    exact ⟨Nat.le_succ _, (hs.fresh hc).trans (Nat.lt_succ_self _)⟩
  processes p j hj hp := by
    rw [Host.apply_processes] at hp
    split at hp
    · by_cases hpf : p = w.fresh
      · rw [hpf, PMap.insert_self] at hp
        exact absurd (Option.some.inj hp).symm hj
      · rwa [PMap.insert_of_ne hpf] at hp
    · exact hp
  before := by
    refine .inl ⟨stage, hc, hended, fun hop hown => hk.owns ?_ hown⟩
    rintro rfl
    cases hop
  listen := hlisten
  acts := by
    rcases hk.acts with hown | ⟨hq, hspawns, hacq⟩
    · exact .inl ⟨stage, hc, hown⟩
    · refine .inr (.inl ⟨hq, fun p hp => ?_, fun hor => ?_⟩)
      · rwa [Host.apply_processes, if_neg (by simp [hspawns])] at hp
      · obtain ⟨rfl, hop⟩ := hacq hor
        exact hs.free hi hop (hs.not_loading (hs.closing_of_part hc))
  fits := by
    refine ⟨hk.admits, ?_⟩
    cases hspawns : o.spawns with
    | true =>
      obtain ⟨-, -, -, session, hstage⟩ := hk.spawned hspawns
      rw [hstage]
      cases op <;> trivial
    | false =>
      have hsame : (w.apply key i op o).Alive i ↔ w.Alive i := by
        unfold Host.Alive
        rw [Host.apply_processes, if_neg (by simp [hspawns])]
      exact (hk.quiet hspawns).2.2.quiet (.refl _) hsame.1
  owner hown := by
    have howner := hk.owner hown
    split
    next hop =>
      subst hop
      exact ⟨howner, (hs.owner hc (hk.owns (by rintro ⟨⟩) hown) hi).2⟩
    next hop => rwa [if_neg hop] at howner
  alive p hp := by
    rw [Host.apply_processes] at hp
    split at hp
    next hspawns =>
      obtain ⟨hgone, hpromise, hstatus, -⟩ := hk.spawned hspawns
      by_cases hpf : p = w.fresh
      · exact ⟨hpf ▸ hpromise, hstatus⟩
      · rw [PMap.insert_of_ne hpf] at hp
        exact absurd ⟨p, hp⟩ hgone
    next hspawns =>
      obtain ⟨hpromise, hstatus, -⟩ := hk.quiet (by simpa using hspawns)
      obtain ⟨h', hi', hexit, hst⟩ := hs.alive hp
      cases hi.symm.trans hi'
      refine ⟨hpromise.trans hexit, fun hstopped => ?_⟩
      rcases hstatus hstopped with h | h
      · exact hst h
      · exact h ⟨p, hp⟩

theorem Sound.run (hs : Sound w) {a : Answer} {o : Outcome}
    (hc : w.calls key = some (.work i op stage)) (hi : w.handles i = some h)
    (hallowed : w.Allowed (.run key a))
    (hstep : stage.step w.closing w.running w.fresh h op a = some o) :
    Sound (w.apply key i op o) := by
  have hended : stage.ended = false := by
    cases stage with
    | returned ok => cases hstep
    | _ => rfl
  obtain ⟨hfailed, hfree⟩ := hallowed i op stage h hc hi
  have hadmits := hs.admits hc
  have hfits := hs.fits hc hi
  have hexit : w.Alive i → ∃ p, h.exitPromise = some p ∧ w.running p = true := by
    rintro ⟨p, hp⟩
    obtain ⟨h', hi', hexit, -⟩ := hs.alive hp
    cases hi.symm.trans hi'
    exact ⟨p, hexit, by rw [Host.running, hp]; rfl⟩
  have hstopped : w.Alive i → h.status ≠ .stopped := by
    rintro ⟨p, hp⟩
    obtain ⟨h', hi', -, hst⟩ := hs.alive hp
    cases hi.symm.trans hi'
    exact hst
  refine (section_apply hs hc hended hi (keeps_step hexit hadmits hfits (fun hown => ?_) hstopped
    hfailed hfree hstep) fun session => closing_of_listen hstep).sound hs
  have howner := hs.owner hc hown hi
  split at howner
  next hop => rw [if_pos hop]; exact howner.1
  next hop => rw [if_neg hop]; exact howner

variable {h' : Handle} {w' : Host}

section

variable (hs : Sound w)

include hs

/-- A handle changes during a handshake, which goes on. -/
theorem Sound.handshake {session : Nat} {accepted initialized accepted' initialized' : Bool}
    (hc : w.calls key = some (.work i op (.handshake session accepted initialized)))
    (hi : w.handles i = some h) (hexit : h'.exitPromise = h.exitPromise)
    (hoperation : h'.operation = h.operation)
    (hstatus : h'.status = .stopped → h.status = .stopped) :
    Sound ((w.setHandle i h').setCall key
      (.work i op (.handshake session accepted' initialized'))) := by
  have hadmits := hs.admits hc
  have hfits := hs.fits hc hi
  have hown : op.owns (.handshake session accepted initialized) = true := by
    cases op <;> first | rfl | cases hadmits
  have hsection : Section w ((w.setHandle i h').setCall key
      (.work i op (.handshake session accepted' initialized'))) key i op
      (.handshake session accepted' initialized') h h' :=
    { handle := hi
      closing := rfl
      handles := rfl
      self := PMap.insert_self
      others := fun key' hne => .inl (PMap.insert_of_ne hne)
      fresh := ⟨Nat.le_refl _, hs.fresh hc⟩
      processes := fun p j _ hp => hp
      before := .inl ⟨_, hc, rfl, fun _ _ => hown⟩
      listen := nofun
      acts := .inl ⟨_, hc, hown⟩
      fits := by
        refine ⟨(by cases op <;> first | rfl | cases hadmits), ?_⟩
        cases op <;> trivial
      owner := fun _ => by
        rw [hoperation]
        exact hs.owner hc hown hi
      alive := fun p hp => by
        obtain ⟨g, hg, hpromise, hst⟩ := hs.alive hp
        cases hi.symm.trans hg
        exact ⟨hexit.trans hpromise, fun h => hst (hstatus h)⟩ }
  exact hsection.sound hs

/-- A new operation begins on an instance. -/
theorem Sound.begin (hi : w.handles i = some h) (hpart : op ≠ .part)
    (hadmits : op.admits stage = true) (hfits : Fits h' (w.Alive i) op stage)
    (hexit : h'.exitPromise = h.exitPromise) (hstatus : h'.status = .stopped → h.status = .stopped)
    (hacts : (Quiet h h' ∧ (op.owns stage = true ∨ h'.operation ≠ h.operation → ¬ w.Owned i)) ∨
      (w.closing = false ∧ ¬ w.Owned i))
    (hunload : op = .unload → ¬ w.Owned i) (hlisten : ∀ session, stage ≠ .listen session)
    (howner : op.owns stage = true → op ≠ .load ∧ h'.operation = true) :
    Sound ((w.setHandle i h').addCall (.work i op stage)) := by
  have hsection : Section w ((w.setHandle i h').addCall (.work i op stage)) (w.fresh, none) i op
      stage h h' :=
    { handle := hi
      closing := rfl
      handles := rfl
      self := PMap.insert_self
      others := fun key' hne => .inl (PMap.insert_of_ne hne)
      fresh := ⟨Nat.le_succ _, Nat.lt_succ_self _⟩
      processes := fun p j _ hp => hp
      before := by
        cases hnew : w.calls (w.fresh, none) with
        | none => exact .inr ⟨rfl, rfl, hpart, fun hop => .inr (hunload hop)⟩
        | some call => exact absurd (hs.fresh hnew) (Nat.lt_irrefl _)
      acts := by
        rcases hacts with ⟨hquiet, hfree⟩ | hfree
        · exact .inr (.inl ⟨hquiet, fun p hp => hp, hfree⟩)
        · exact .inr (.inr hfree)
      fits := ⟨hadmits, hfits⟩
      listen := fun session h => absurd h (hlisten session)
      owner := fun hown => by
        rw [if_neg (howner hown).1]
        exact (howner hown).2
      alive := fun p hp => by
        obtain ⟨g, hg, hpromise, hst⟩ := hs.alive hp
        cases hi.symm.trans hg
        exact ⟨hexit.trans hpromise, fun h => hst (hstatus h)⟩ }
  exact hsection.sound hs

/-- An instance settles when a process has exited. -/
theorem Sound.settle {processes : PMap Nat Nat} (hi : w.handles i = some h)
    (hsame : h'.exitPromise = h.exitPromise) (hoperation : h'.operation = h.operation)
    (hstatus : h'.status = .stopped ↔ h.status = .stopped)
    (hle : ∀ p j, processes p = some j → w.processes p = some j) :
    Sound { w.setHandle i h' with processes := processes } := by
  have hquiet : Quiet h h' := ⟨hsame, hstatus, fun _ => hoperation⟩
  have hold : ∀ {j g}, w.handles.insert i h' j = some g →
      ∃ g₀, w.handles j = some g₀ ∧ Quiet g₀ g ∧ g.operation = g₀.operation := by
    intro j g hg
    rcases PMap.insert_cases hg with ⟨rfl, rfl⟩ | ⟨-, hg⟩
    · exact ⟨h, hi, hquiet, hoperation⟩
    · exact ⟨g, hg, .refl g, rfl⟩
  have hnew : ∀ {j g₀}, w.handles j = some g₀ → ∃ g, w.handles.insert i h' j = some g ∧
      Quiet g₀ g := by
    intro j g₀ hg
    by_cases hj : j = i
    · subst hj
      cases hi.symm.trans hg
      exact ⟨h', PMap.insert_self, hquiet⟩
    · exact ⟨g₀, (PMap.insert_of_ne hj).trans hg, .refl g₀⟩
  exact
    { known := fun hc hown => by
        obtain ⟨g₀, hg⟩ := hs.known hc hown
        obtain ⟨g, hg', -⟩ := hnew hg
        exact ⟨g, hg'⟩
      admits := hs.admits
      fits := fun hc hg => by
        obtain ⟨g₀, hg₀, hq, -⟩ := hold hg
        exact (hs.fits hc hg₀).quiet hq fun ⟨p, hp⟩ => ⟨p, hle p _ hp⟩
      owner := fun hc hown hg => by
        obtain ⟨g₀, hg₀, -, hop⟩ := hold hg
        rw [hop]
        exact hs.owner hc hown hg₀
      unique := hs.unique
      parts := hs.parts
      alone := hs.alone
      complete := fun hc => by
        obtain ⟨hclosing, hall⟩ := hs.complete hc
        refine ⟨hclosing, fun j g hg => ?_⟩
        obtain ⟨g₀, hg₀, -⟩ := hold hg
        exact hall j g₀ hg₀
      alive := fun {p j} hp => by
        obtain ⟨g₀, hg, hexit, hst⟩ := hs.alive (hle p j hp)
        obtain ⟨g, hg', hq⟩ := hnew hg
        exact ⟨g, hg', hq.exit.trans hexit, fun h => hst (hq.status.1 h)⟩
      fresh := hs.fresh
      order := hs.order
      orderLoad := fun hu hstage hk => by
        rcases hs.orderLoad hu hstage hk with h | h | h
        · exact .inl h
        · obtain ⟨g₀, hg⟩ := Option.isSome_iff_exists.1 h
          obtain ⟨g, hg', -⟩ := hnew hg
          exact .inr (.inl (Option.isSome_iff_exists.2 ⟨g, hg'⟩))
        · exact .inr (.inr h) }

/-- A call that is over at once, or a load in its `preflight`. -/
theorem Sound.call {k : Nat} {call : Call} (hclosing : w'.closing = w.closing)
    (hhandles : w'.handles = w.handles) (hprocesses : w'.processes = w.processes)
    (hcalls : w'.calls = w.calls.insert (k, none) call) (hfresh : w.fresh ≤ w'.fresh ∧ k < w'.fresh)
    (hcall : (∃ j, call = .load j ∧ k = w.fresh) ∨
      ∃ j op ok, call = .work j op (.returned ok) ∧ op ≠ .part ∧
        (op = .unload → ok = false ∨ (w.Barred j ∧
          ∀ k', w.calls (k', none) = some (.load j) → (w.handles j).isSome ∨ w.closing = true))) :
    Sound w' := by
  have hother : ∀ {key' c}, w'.calls key' = some c → w.calls key' = some c ∨
      (key' = (k, none) ∧ c = call) := by
    intro key' c hc
    rw [hcalls] at hc
    rcases PMap.insert_cases hc with hk | ⟨-, hc⟩
    · exact .inr hk
    · exact .inl hc
  -- Work that is new is over.
  have hwork : ∀ {key' j op stage}, w'.calls key' = some (.work j op stage) →
      w.calls key' = some (.work j op stage) ∨ (key' = (k, none) ∧ op ≠ .part ∧
        ∃ ok, stage = .returned ok ∧ (op = .unload → ok = false ∨ (w.Barred j ∧
          ∀ k', w.calls (k', none) = some (.load j) →
            (w.handles j).isSome ∨ w.closing = true))) := by
    intro key' j op stage hc
    rcases hother hc with h | ⟨hk, h⟩
    · exact .inl h
    · rcases hcall with ⟨j', h', -⟩ | ⟨j', op', ok, h', hpart, hunload⟩
      · cases h.trans h'
      · cases h.trans h'
        exact .inr ⟨hk, hpart, ok, rfl, hunload⟩
  have howned : ∀ {key' j op stage}, w'.calls key' = some (.work j op stage) →
      op.owns stage = true → w.calls key' = some (.work j op stage) := by
    intro key' j op stage hc hown
    rcases hwork hc with h | ⟨-, -, ok, rfl, -⟩
    · exact h
    · cases op <;> cases hown
  have halive : ∀ j, w'.Alive j ↔ w.Alive j := fun j => by
    unfold Host.Alive
    rw [hprocesses]
  exact
    { known := fun hc hown => by
        rw [hhandles]
        rcases hwork hc with h | ⟨-, hpart, ok, rfl, -⟩
        · exact hs.known h hown
        · rcases hown with hown | hop
          · exact hs.known (howned hc hown) (.inl hown)
          · exact absurd hop hpart
      admits := fun {key' j op stage} hc => by
        rcases hwork hc with h | ⟨-, -, ok, rfl, -⟩
        · exact hs.admits h
        · cases op <;> rfl
      fits := fun {key' j op stage g} hc hg => by
        rw [hhandles] at hg
        rcases hwork hc with h | ⟨-, hpart, ok, rfl, -⟩
        · exact (hs.fits h hg).quiet (.refl g) (halive j).1
        · exact fits_returned hpart
      owner := fun hc hown hg => by
        rw [hhandles] at hg
        rw [hclosing]
        exact hs.owner (howned hc hown) hown hg
      unique := fun h₁ h₂ ho₁ ho₂ => hs.unique (howned h₁ ho₁) (howned h₂ ho₂) ho₁ ho₂
      parts := fun hc => by
        rw [hclosing]
        rcases hother hc with h | ⟨h, -⟩
        · exact hs.parts h
        · cases h
      alone := fun hc => by
        rcases hwork hc with h | ⟨-, hpart, -⟩
        · exact hs.alone h
        · exact hpart
      complete := fun {k'} hc => by
        rcases hother hc with h | ⟨-, h⟩
        · obtain ⟨h₁, hall⟩ := hs.complete h
          refine ⟨hclosing.trans h₁, fun j g hg => ?_⟩
          obtain ⟨c, hc'⟩ := hall j g (hhandles ▸ hg)
          exact ⟨c, by rw [hcalls, PMap.insert_of_ne (by rintro ⟨⟩)]; exact hc'⟩
        · rcases hcall with ⟨j', h', -⟩ | ⟨j', op', ok, h', -⟩
          · cases h.trans h'
          · cases h.trans h'
      alive := fun hp => by
        rw [hhandles]
        exact hs.alive (hprocesses ▸ hp)
      fresh := fun hc => by
        rcases hother hc with h | ⟨h, -⟩
        · exact (hs.fresh h).trans_le hfresh.1
        · exact h ▸ hfresh.2
      order := fun {u k' j op stage stage'} hu hstage hk hop hown => by
        rw [hclosing]
        have hold := howned hk hown
        rcases hwork hu with h | ⟨-, -, ok, rfl, hunload⟩
        · exact hs.order h hstage hold hop hown
        · rcases hunload rfl with rfl | ⟨hbarred, -⟩
          · exact absurd rfl hstage
          · exact .inr (hbarred _ _ _ hold hop hown)
      orderLoad := fun {u k' j stage} hu hstage hk => by
        rw [hhandles, hclosing]
        rcases hother hk with hload | ⟨hk', hload⟩
        · rcases hwork hu with h | ⟨-, -, ok, rfl, hunload⟩
          · exact hs.orderLoad h hstage hload
          · rcases hunload rfl with rfl | ⟨-, hall⟩
            · exact absurd rfl hstage
            · exact .inr (hall k' hload)
        · rcases hcall with ⟨j', -, hk''⟩ | ⟨j', op', ok, h', -⟩
          · rcases hwork hu with h | ⟨hu', -, ok, rfl, hunload⟩
            · refine .inl ?_
              rw [(Prod.mk.inj hk').1, hk'']
              exact hs.fresh h
            · subst hload
              rw [hcalls, ← hu', hu'] at hu
              cases PMap.insert_self.symm.trans hu
          · cases hload.trans h' }

/-- A load enters, with an instance that is new. -/
theorem Sound.enter {k : Nat} (hc : w.calls (k, none) = some (.load i)) (hi : w.handles i = none)
    (hclosing : w.closing = false) :
    Sound ((w.setHandle i ⟨.starting, w.fresh, false, none, none, false⟩).setCall (k, none)
      (.work i .load (.listen w.fresh))).tick := by
  have hgone : ¬ w.Alive i := by
    rintro ⟨p, hp⟩
    obtain ⟨h, hh, -⟩ := hs.alive hp
    cases hi.symm.trans hh
  have hother : ∀ {key' c}, (w.calls.insert (k, none) (.work i .load (.listen w.fresh))) key' =
      some c → (key' ≠ (k, none) ∧ w.calls key' = some c) ∨
        (key' = (k, none) ∧ c = .work i .load (.listen w.fresh)) := by
    intro key' c h
    exact (PMap.insert_cases h).symm
  -- Before, no operation owned the instance, and no shutdown had begun.
  have hidle : ∀ {key' op stage}, w.calls key' = some (.work i op stage) →
      op.owns stage = false ∧ op ≠ .part := by
    intro key' op stage h
    refine ⟨Bool.eq_false_iff.2 fun hown => ?_, ?_⟩
    · obtain ⟨g, hg⟩ := hs.known h (.inl hown)
      cases hi.symm.trans hg
    · rintro rfl
      cases hclosing.symm.trans (hs.closing_of_part h)
  exact
    { known := fun {key' j op stage} h hown => by
        by_cases hj : j = i
        · subst hj
          exact ⟨_, PMap.insert_self⟩
        · rcases hother h with ⟨-, h⟩ | ⟨-, h⟩
          · obtain ⟨g, hg⟩ := hs.known h hown
            exact ⟨g, (PMap.insert_of_ne hj).trans hg⟩
          · cases h
            exact absurd rfl hj
      admits := fun h => by
        rcases hother h with ⟨-, h⟩ | ⟨-, h⟩
        · exact hs.admits h
        · cases h
          rfl
      fits := fun {key' j op stage g} h hg => by
        rcases hother h with ⟨-, hold⟩ | ⟨-, hnew⟩
        · by_cases hj : j = i
          · subst hj
            obtain ⟨hfree, hpart⟩ := hidle hold
            exact fits_free hfree (hs.admits hold) fun hop => absurd hop hpart
          · exact hs.fits hold ((PMap.insert_of_ne hj).symm.trans hg)
        · cases hnew
          cases PMap.insert_self.symm.trans hg
          exact ⟨hgone, nofun⟩
      owner := fun {key' j op stage g} h hown hg => by
        rcases hother h with ⟨-, hold⟩ | ⟨-, hnew⟩
        · by_cases hj : j = i
          · subst hj
            cases (hidle hold).1.symm.trans hown
          · exact hs.owner hold hown ((PMap.insert_of_ne hj).symm.trans hg)
        · cases hnew
          cases PMap.insert_self.symm.trans hg
          exact ⟨rfl, hclosing⟩
      unique := fun {key₁ key₂ j op₁ op₂ stage₁ stage₂} h₁ h₂ ho₁ ho₂ => by
        rcases hother h₁ with ⟨-, h₁⟩ | ⟨hk₁, h₁⟩
        · rcases hother h₂ with ⟨-, h₂⟩ | ⟨-, h₂⟩
          · exact hs.unique h₁ h₂ ho₁ ho₂
          · cases h₂
            cases (hidle h₁).1.symm.trans ho₁
        · rcases hother h₂ with ⟨-, h₂⟩ | ⟨hk₂, -⟩
          · cases h₁
            cases (hidle h₂).1.symm.trans ho₂
          · exact hk₁.trans hk₂.symm
      parts := fun h => by
        rcases hother h with ⟨-, h⟩ | ⟨h, -⟩
        · exact hs.parts h
        · cases h
      alone := fun h => by
        rcases hother h with ⟨-, h⟩ | ⟨-, h⟩
        · exact hs.alone h
        · cases h
          nofun
      complete := fun h => by
        rcases hother h with ⟨-, h⟩ | ⟨-, h⟩
        · cases hclosing.symm.trans (hs.complete h).1
        · cases h
      alive := fun {p j} hp => by
        obtain ⟨g, hg, hexit⟩ := hs.alive hp
        have hj : j ≠ i := by
          rintro rfl
          cases hi.symm.trans hg
        exact ⟨g, (PMap.insert_of_ne hj).trans hg, hexit⟩
      fresh := fun h => by
        rcases hother h with ⟨-, h⟩ | ⟨rfl, -⟩
        · exact (hs.fresh h).trans (Nat.lt_succ_self _)
        · exact (hs.fresh hc).trans (Nat.lt_succ_self _)
      order := fun {u k' j op stage stage'} hu hstage hk hop hended => by
        have hu' : w.calls (u, none) = some (.work j .unload stage) := by
          rcases hother hu with ⟨-, h⟩ | ⟨-, h⟩
          · exact h
          · cases h
        rcases hother hk with ⟨-, h⟩ | ⟨hk', h⟩
        · exact hs.order hu' hstage h hop hended
        · cases h
          rw [(Prod.mk.inj hk').1]
          -- The unload was called when the instance was not there.
          rcases hs.orderLoad hu' hstage hc with h | h | h
          · exact .inl h
          · rw [hi] at h
            cases h
          · cases hclosing.symm.trans h
      orderLoad := fun {u k' j stage} hu hstage hk => by
        rcases hother hk with ⟨-, hk⟩ | ⟨-, h⟩
        · by_cases hj : j = i
          · subst hj
            refine .inr (.inl ?_)
            show (w.handles.insert j _ j).isSome
            rw [PMap.insert_self]
            rfl
          · rcases hother hu with ⟨-, hu⟩ | ⟨-, h⟩
            · rcases hs.orderLoad hu hstage hk with h | h | h
              · exact .inl h
              · refine .inr (.inl ?_)
                show (w.handles.insert i _ j).isSome
                rwa [PMap.insert_of_ne hj]
              · exact .inr (.inr h)
            · cases h
        · cases h }

omit hs in
/-- The first section of a shutdown on an instance. -/
theorem beginPart_spec (h : Handle) (alive : Prop) :
    Quiet h h.beginPart.1 ∧ Op.part.admits h.beginPart.2 = true ∧
      Fits h.beginPart.1 alive .part h.beginPart.2 ∧
      (h.operation = true → h.beginPart.1.operation = true) ∧
      (Op.part.owns h.beginPart.2 = true →
        h.operation = false ∧ h.beginPart.1.operation = true) := by
  unfold Handle.beginPart
  split
  next hop => exact ⟨.refl h, rfl, trivial, fun _ => hop, nofun⟩
  next hop =>
    have hop' : h.operation = false := by simpa using hop
    split
    next hst => exact ⟨.refl h, rfl, ⟨hst, hop'⟩, fun h => absurd h hop, nofun⟩
    next hst =>
      refine ⟨⟨rfl, ⟨nofun, fun h => absurd h hst⟩, fun h => absurd h hst⟩, rfl, trivial,
        fun _ => rfl, fun _ => ⟨hop', rfl⟩⟩

/-- The host begins to close. -/
theorem Sound.shutdown (hallowed : w.Allowed .shutdown) : Sound w.shutdown := by
  have hold : ∀ {key c}, w.calls key = some c → w.shutdown.calls key = some c := by
    intro key c hc
    show (if key.1 = w.fresh then _ else w.calls key) = some c
    rw [if_neg (hs.fresh hc).ne, hc]
  have hpart : ∀ {i g}, w.handles i = some g →
      w.shutdown.calls (w.fresh, some i) = some (.work i .part g.beginPart.2) := by
    intro i g hg
    show (if w.fresh = w.fresh then (w.handles i).map _ else _) = _
    rw [if_pos rfl, hg]
    rfl
  have hcalls : ∀ {key c}, w.shutdown.calls key = some c → w.calls key = some c ∨
      (key = (w.fresh, none) ∧ c = .shutdown) ∨
        ∃ i g, key = (w.fresh, some i) ∧ w.handles i = some g ∧
          c = .work i .part g.beginPart.2 := by
    rintro ⟨k, x⟩ c hc
    change (if k = w.fresh then _ else w.calls (k, x)) = some c at hc
    split at hc
    next hk =>
      subst hk
      cases x with
      | none => exact .inr (.inl ⟨rfl, (Option.some.inj hc).symm⟩)
      | some i =>
        obtain ⟨g, hg, hc⟩ := Option.map_eq_some_iff.1 hc
        exact .inr (.inr ⟨i, g, rfl, hg, hc.symm⟩)
    next hk => exact .inl hc
  have hwork : ∀ {key i op stage}, w.shutdown.calls key = some (.work i op stage) →
      w.calls key = some (.work i op stage) ∨
        ∃ g, key = (w.fresh, some i) ∧ w.handles i = some g ∧ op = .part ∧
          stage = g.beginPart.2 := by
    intro key i op stage hc
    rcases hcalls hc with h | ⟨-, h⟩ | ⟨j, g, hk, hg, h⟩
    · exact .inl h
    · cases h
    · cases h
      exact .inr ⟨g, hk, hg, rfl, rfl⟩
  have hhandle : ∀ {i g}, w.handles i = some g → w.shutdown.handles i = some g.beginPart.1 :=
    fun hg => Option.map_eq_some_iff.2 ⟨_, hg, rfl⟩
  have hmap : ∀ {i g'}, w.shutdown.handles i = some g' →
      ∃ g, w.handles i = some g ∧ g' = g.beginPart.1 := by
    intro i g' hg'
    obtain ⟨g, hg, rfl⟩ := Option.map_eq_some_iff.1 hg'
    exact ⟨g, hg, rfl⟩
  -- No load is under way, so that an owner has locked its instance.
  have howned : ∀ {key i op stage g}, w.calls key = some (.work i op stage) →
      op.owns stage = true → w.handles i = some g → op ≠ .load ∧ g.operation = true := by
    intro key i op stage g hc hown hg
    have hop : op ≠ .load := by
      rintro rfl
      exact hallowed i ⟨key, stage, hc, hown⟩
    have howner := hs.owner hc hown hg
    rw [if_neg hop] at howner
    exact ⟨hop, howner⟩
  have hfree : ∀ {key i op stage g}, w.calls key = some (.work i op stage) →
      op.owns stage = true → w.handles i = some g → Op.part.owns g.beginPart.2 ≠ true := by
    intro key i op stage g hc hown hg hnew
    cases (howned hc hown hg).2.symm.trans ((beginPart_spec g True).2.2.2.2 hnew).1
  exact
    { known := fun hc hown => by
        rcases hwork hc with h | ⟨g, -, hg, -⟩
        · obtain ⟨g, hg⟩ := hs.known h hown
          exact ⟨_, hhandle hg⟩
        · exact ⟨_, hhandle hg⟩
      admits := fun hc => by
        rcases hwork hc with h | ⟨g, -, -, rfl, rfl⟩
        · exact hs.admits h
        · exact (beginPart_spec g True).2.1
      fits := fun {key i op stage g'} hc hg' => by
        obtain ⟨g, hg, rfl⟩ := hmap hg'
        rcases hwork hc with h | ⟨g₁, -, hg₁, rfl, rfl⟩
        · exact (hs.fits h hg).quiet (beginPart_spec g True).1 id
        · cases hg.symm.trans hg₁
          exact (beginPart_spec g _).2.2.1
      owner := fun {key i op stage g'} hc hown hg' => by
        obtain ⟨g, hg, rfl⟩ := hmap hg'
        rcases hwork hc with h | ⟨g₁, -, hg₁, rfl, rfl⟩
        · obtain ⟨hop, hlocked⟩ := howned h hown hg
          rw [if_neg hop]
          exact (beginPart_spec g True).2.2.2.1 hlocked
        · cases hg.symm.trans hg₁
          rw [if_neg nofun]
          exact ((beginPart_spec g True).2.2.2.2 hown).2
      unique := fun {key key' i op op' stage stage'} h₁ h₂ ho₁ ho₂ => by
        rcases hwork h₁ with h₁ | ⟨g₁, hk₁, hg₁, rfl, rfl⟩ <;>
          rcases hwork h₂ with h₂ | ⟨g₂, hk₂, hg₂, rfl, rfl⟩
        · exact hs.unique h₁ h₂ ho₁ ho₂
        · exact absurd ho₂ (hfree h₁ ho₁ hg₂)
        · exact absurd ho₁ (hfree h₂ ho₂ hg₁)
        · exact hk₁.trans hk₂.symm
      parts := fun hc => by
        refine ⟨rfl, ?_⟩
        rcases hcalls hc with h | ⟨h, -⟩ | ⟨j, g, h, -, hcall⟩
        · exact (hs.parts h).2
        · cases h
        · cases h
          exact ⟨_, hcall⟩
      alone := fun hc => by
        rcases hwork hc with h | ⟨g, h, -⟩
        · exact hs.alone h
        · cases h
      complete := fun {k} hc => by
        refine ⟨rfl, fun i g' hg' => ?_⟩
        obtain ⟨g, hg, rfl⟩ := hmap hg'
        rcases hcalls hc with h | ⟨h, -⟩ | ⟨j, g₁, h, -⟩
        · obtain ⟨call, hcall⟩ := (hs.complete h).2 i g hg
          exact ⟨call, hold hcall⟩
        · cases h
          exact ⟨_, hpart hg⟩
        · cases h
      alive := fun {p i} hp => by
        obtain ⟨g, hg, hexit, hst⟩ := hs.alive hp
        have hq := (beginPart_spec g True).1
        exact ⟨_, hhandle hg, hq.exit.trans hexit, fun h => hst (hq.status.1 h)⟩
      fresh := fun {key call} hc => by
        show key.1 < w.fresh + 1
        rcases hcalls hc with h | ⟨rfl, -⟩ | ⟨i, g, rfl, -⟩
        · exact (hs.fresh h).trans (Nat.lt_succ_self _)
        · exact Nat.lt_succ_self _
        · exact Nat.lt_succ_self _
      order := fun hu hstage hk hop hended => by
        rcases hwork hu with h₁ | ⟨g, h, -⟩
        · rcases hwork hk with h₂ | ⟨g, h, -⟩
          · exact (hs.order h₁ hstage h₂ hop hended).imp_right fun h => ⟨rfl, h.2⟩
          · cases h
        · cases h
      orderLoad := fun _ _ _ => .inr (.inr rfl) }

theorem Sound.unload (hallowed : w.Allowed (.unload i)) : Sound (w.unload i) := by
  unfold Host.unload
  unfold Host.Allowed at hallowed
  cases hi : w.handles i with
  | none =>
    simp only [hi] at hallowed ⊢
    refine hs.call rfl rfl rfl rfl ⟨Nat.le_succ _, Nat.lt_succ_self _⟩
      (.inr ⟨i, .unload, true, rfl, nofun, fun _ => .inr ⟨.of_free ?_, fun k hk => .inr ?_⟩⟩)
    · rintro ⟨key, op, stage, hc, hown⟩
      obtain ⟨h, hh⟩ := hs.known hc (.inl hown)
      cases hi.symm.trans hh
    · by_contra hopen
      exact hallowed (by simpa using hopen) k hk
  | some h =>
    simp only [hi] at hallowed ⊢
    obtain ⟨hload, hstop⟩ := hallowed
    split
    next hst =>
      refine hs.call rfl rfl rfl rfl ⟨Nat.le_succ _, Nat.lt_succ_self _⟩
        (.inr ⟨i, .unload, true, rfl, nofun, fun _ => .inr ⟨?_, fun k hk => .inl ?_⟩⟩)
      · exact hs.barred hi hst hload (hstop hst)
      · rw [hi]
        rfl
    next hst =>
      split
      · exact hs.call rfl rfl rfl rfl ⟨Nat.le_succ _, Nat.lt_succ_self _⟩
          (.inr ⟨i, .unload, false, rfl, nofun, fun _ => .inl rfl⟩)
      next hop =>
        have hfree := hs.free hi (by simpa using hop) hload
        have hquiet : Quiet h h.beginUnload.1 :=
          ⟨rfl, ⟨nofun, fun h => absurd h hst⟩, fun h => absurd h hst⟩
        exact hs.begin hi nofun rfl trivial rfl nofun (.inl ⟨hquiet, fun _ => hfree⟩)
          (fun _ => hfree) nofun fun _ => ⟨nofun, rfl⟩

theorem Sound.reload {force : Bool} (hallowed : w.Allowed (.reload i force)) :
    Sound (w.reload i force) := by
  unfold Host.reload
  cases hi : w.handles i with
  | none =>
    exact hs.call rfl rfl rfl rfl ⟨Nat.le_succ _, Nat.lt_succ_self _⟩
      (.inr ⟨i, .reload force, false, rfl, nofun, nofun⟩)
  | some h =>
    dsimp only
    split
    · exact hs.call rfl rfl rfl rfl ⟨Nat.le_succ _, Nat.lt_succ_self _⟩
        (.inr ⟨i, .reload force, false, rfl, nofun, nofun⟩)
    next hop =>
      have hop' : h.operation = false := by simpa using hop
      obtain ⟨hclosing, hload⟩ := hallowed h hi hop'
      have hfree := hs.free hi hop' hload
      exact hs.begin hi nofun rfl trivial rfl id (.inr ⟨hclosing, hfree⟩) nofun nofun
        fun _ => ⟨nofun, rfl⟩

/-- A connection is lost. -/
theorem Sound.lost (hstep : w.perform (.lost i) = some w') : Sound w' := by
  simp only [Host.perform] at hstep
  cases hi : w.handles i with
  | none =>
    rw [hi] at hstep
    cases hstep
  | some h =>
    simp only [hi] at hstep
    split at hstep
    next hguard =>
      cases hstep
      have hst : h.status ≠ .stopped := fun hst => by
        rw [hst] at hguard
        cases hguard.2
      have hsame : Same { h with status := .failed }
          ({ h with status := .failed }.terminate w.running).1 := same_terminate
      have hquiet : Quiet h ({ h with status := .failed }.terminate w.running).1 :=
        ⟨hsame.exit, ⟨fun h' => (nomatch hsame.status.symm.trans h'), fun h' => absurd h' hst⟩,
          fun _ => hsame.operation⟩
      refine hs.begin hi nofun rfl trivial hsame.exit hquiet.status.1
        (.inl ⟨hquiet, ?_⟩) nofun nofun nofun
      rintro (h' | h')
      · cases h'
      · exact absurd hsame.operation h'
    next => cases hstep

/-- **Whatever runs next keeps what holds of the host.** -/
theorem Sound.perform {move : Move} (hallowed : w.Allowed move) (hstep : w.perform move = some w') :
    Sound w' := by
  cases move with
  | load i =>
    cases hstep
    by_cases hclosing : w.closing = true
    · rw [if_pos hclosing]
      exact hs.call rfl rfl rfl rfl ⟨Nat.le_succ _, Nat.lt_succ_self _⟩
        (.inr ⟨i, .load, false, rfl, (by rintro ⟨⟩), (by rintro ⟨⟩)⟩)
    · rw [if_neg hclosing]
      exact hs.call rfl rfl rfl rfl ⟨Nat.le_succ _, Nat.lt_succ_self _⟩ (.inl ⟨i, rfl, rfl⟩)
  | enter k ok =>
    simp only [Host.perform] at hstep
    split at hstep
    next i hc =>
      cases hstep
      unfold Host.enter
      split
      · exact hs.call rfl rfl rfl rfl ⟨Nat.le_refl _, hs.fresh hc⟩
          (.inr ⟨i, .load, false, rfl, (by rintro ⟨⟩), (by rintro ⟨⟩)⟩)
      next hopen =>
        refine hs.enter hc ?_ ?_
        · simpa using (not_or.1 (not_or.1 hopen).2).2
        · simpa using (not_or.1 (not_or.1 hopen).2).1
    next => cases hstep
  | reload i force =>
    cases hstep
    exact hs.reload hallowed
  | unload i =>
    cases hstep
    exact hs.unload hallowed
  | shutdown =>
    cases hstep
    exact hs.shutdown hallowed
  | run key a =>
    simp only [Host.perform] at hstep
    split at hstep
    next i op stage hc =>
      split at hstep
      next h hi =>
        obtain ⟨o, ho, rfl⟩ := Option.map_eq_some_iff.1 hstep
        exact hs.run hc hi hallowed ho
      next => cases hstep
    next => cases hstep
  | hello key =>
    simp only [Host.perform] at hstep
    split at hstep
    next i op session initialized hc =>
      split at hstep
      next h hi =>
        cases hstep
        exact hs.handshake hc hi rfl rfl id
      next => cases hstep
    next => cases hstep
  | initialized key =>
    simp only [Host.perform] at hstep
    split at hstep
    next i op session hc =>
      split at hstep
      next h hi =>
        split at hstep
        · cases hstep
          exact hs.handshake hc hi rfl rfl (by rintro ⟨⟩)
        · cases hstep
      next => cases hstep
    next => cases hstep
  | exit p spawned =>
    simp only [Host.perform] at hstep
    split at hstep
    next i hp =>
      split at hstep
      next h hi =>
        cases hstep
        refine hs.settle hi ?_ ?_ ?_ fun q j hq => ?_
        · split <;> rfl
        · split <;> rfl
        · split
          next hguard =>
            refine ⟨(by rintro ⟨⟩), fun hst => ?_⟩
            rw [hst] at hguard
            cases hguard.2
          next => rfl
        · by_cases hqp : q = p
          · subst hqp
            cases (PMap.erase_self _ _).symm.trans hq
          · exact (PMap.erase_of_ne hqp).symm.trans hq
      next => cases hstep
    next => cases hstep
  | lost i => exact hs.lost hstep

end

end Moves

theorem sound_new : Sound .new :=
  { known := nofun
    admits := nofun
    fits := nofun
    owner := nofun
    unique := nofun
    parts := nofun
    alone := nofun
    complete := nofun
    alive := nofun
    fresh := nofun
    order := nofun
    orderLoad := nofun }

/-! ## The main result -/

/-- One section, or an event, that is allowed. -/
def Host.Step (w w' : Host) : Prop := ∃ move, w.Allowed move ∧ w.perform move = some w'

theorem sound_of_reachable {w : Host} (hw : Reachable (· = .new) Host.Step w) : Sound w :=
  hw.invariant (fun _ h => h ▸ sound_new) fun _ _ hs ⟨_, hallowed, hstep⟩ =>
    hs.perform hallowed hstep

section Resolved

variable {w : Host} {k i : Nat}

/-- A part that has returned has left its instance stopped. -/
theorem Sound.stopped (hs : Sound w) (hdown : w.ShutDown k) {h : Handle}
    (hi : w.handles i = some h) : h.status = .stopped := by
  obtain ⟨call, hcall⟩ := (hs.complete hdown.1).2 i h hi
  obtain ⟨ok, rfl⟩ := hdown.2 i call hcall
  exact (hs.fits hcall hi).1

theorem Sound.no_process (hs : Sound w) (hdown : w.ShutDown k) (p : Nat) :
    w.processes p = none := by
  by_contra hp
  obtain ⟨i, hi⟩ := Option.ne_none_iff_exists'.1 hp
  obtain ⟨h, hh, -, hst⟩ := hs.alive hi
  exact hst (hs.stopped hdown hh)

/-- What awaits the listener is a load or a reload. -/
theorem spawns_of_listen {op : Op} {session : Nat} (hadmits : op.admits (.listen session) = true) :
    op.spawns = true ∧ op.owns (.listen session) = true := by
  cases op <;> first | exact ⟨rfl, rfl⟩ | cases hadmits

theorem Sound.no_spawn (hs : Sound w) (hdown : w.ShutDown k) {move : Move} {k' : Nat} :
    ¬ w.Spawns move k' i := by
  rintro ⟨key, a, op, session, -, -, hc, -⟩
  have hown := (spawns_of_listen (hs.admits hc)).2
  obtain ⟨h, hi⟩ := hs.known hc (.inl hown)
  have hst : h.status ≠ .stopped := by
    have hfits := hs.fits hc hi
    cases op <;> exact hfits.2
  exact hst (hs.stopped hdown hi)

end Resolved

/-- **A shutdown leaves nothing.**  In every run whose steps are allowed: once a shutdown has
resolved, every instance is stopped, no process runs and nothing spawns one; and what spawns a
process of an instance after an unload of it has resolved was called after the unload. -/
theorem shutdown_leaves_nothing (w : Host) (hw : Reachable (· = .new) Host.Step w) :
    (∀ k, w.ShutDown k →
      (∀ i h, w.handles i = some h → h.status = .stopped) ∧ (∀ p, w.processes p = none) ∧
        ∀ move k' i, ¬ w.Spawns move k' i) ∧
      ∀ u i move k, w.calls (u, none) = some (.work i .unload (.returned true)) →
        w.Spawns move k i → u < k := by
  have hs := sound_of_reachable hw
  refine ⟨fun k hdown => ⟨fun i h => hs.stopped hdown, hs.no_process hdown,
    fun move k' i => hs.no_spawn hdown⟩, fun u i move k hu hspawns => ?_⟩
  obtain ⟨⟨k', x⟩, a, op, session, -, rfl, hc, -⟩ := hspawns
  obtain ⟨hop, hown⟩ := spawns_of_listen (hs.admits hc)
  have hx : x = none := by
    cases x with
    | none => rfl
    | some j =>
      obtain ⟨-, stage, hcall⟩ := hs.parts hc
      cases hcall
      cases hop
  subst hx
  rcases hs.order hu nofun hc hop hown with h | ⟨-, h⟩
  · exact h
  · exact absurd rfl (h session)

variable {w : Host} {key : Key} {i : Nat} {op : Op}

theorem Host.Allowed.run {a : Answer} {stage : Stage} (hc : w.calls key = some (.work i op stage))
    (hstage : stage ≠ .preflight ∧ stage ≠ .notified ∧ stage ≠ .terminate .late .done) :
    w.Allowed (.run key a) := by
  intro i' op' stage' h hc' _
  cases hc.symm.trans hc'
  exact ⟨fun h => absurd h hstage.1, fun h => (h.elim hstage.2.1 hstage.2.2).elim⟩

/-- A load that starts its plugin, and then a shutdown. -/
theorem shutdown_leaves_nothing_after_load : ∃ w : Host, w.ShutDown 5 ∧
    (∀ i h, w.handles i = some h → h.status = .stopped) ∧ ∀ p, w.processes p = none := by
  have hstart : Reachable (· = .new) Host.Step .new := .start rfl
  have hload := hstart.next ⟨.load 0, trivial, rfl⟩
  have henter := hload.next ⟨.enter 0 true, trivial, rfl⟩
  have hspawn := henter.next ⟨.run (0, none) ⟨true, true⟩, .run rfl (by decide), rfl⟩
  have hhello := hspawn.next ⟨.hello (0, none), trivial, rfl⟩
  have hready := hhello.next ⟨.initialized (0, none), trivial, rfl⟩
  have hstarted := hready.next ⟨.run (0, none) ⟨true, true⟩, .run rfl (by decide), rfl⟩
  have hloaded := hstarted.next ⟨.run (0, none) ⟨true, true⟩, .run rfl (by decide), rfl⟩
  have hclosing := hloaded.next ⟨.shutdown, (by
    rintro i ⟨key, stage, hc, hown⟩
    by_cases hk : key = (0, none)
    · subst hk
      cases hc
      cases hown
    · change (((((((PMap.empty.insert (0, none) _).insert (0, none) _).insert (0, none) _).insert
        (0, none) _).insert (0, none) _).insert (0, none) _).insert (0, none) _) key = _ at hc
      simp [PMap.insert_of_ne, hk] at hc), rfl⟩
  have hquiet := hclosing.next ⟨.run (5, some 0) ⟨true, true⟩, .run rfl (by decide), rfl⟩
  have hasked := hquiet.next ⟨.run (5, some 0) ⟨true, true⟩, .run rfl (by decide), rfl⟩
  have hexit := hasked.next ⟨.exit 2 true, trivial, rfl⟩
  have hgrace := hexit.next ⟨.run (5, some 0) ⟨true, false⟩, .run rfl (by decide), rfl⟩
  have hlast := hgrace.next ⟨.run (5, some 0) ⟨true, false⟩, .run rfl (by decide), rfl⟩
  have hdone := hlast.next ⟨.run (5, some 0) ⟨true, false⟩, .run rfl (by decide), rfl⟩
  have hstopped := hdone.next ⟨.run (5, some 0) ⟨true, false⟩, .run rfl (by decide), rfl⟩
  have hresult : ∀ w : Host, Reachable (· = .new) Host.Step w → w.ShutDown 5 → ∃ w : Host,
      w.ShutDown 5 ∧ (∀ i h, w.handles i = some h → h.status = .stopped) ∧
        ∀ p, w.processes p = none := fun w hw hdown =>
    have h := (shutdown_leaves_nothing w hw).1 5 hdown
    ⟨w, hdown, h.1, h.2.1⟩
  refine hresult _ hstopped ⟨rfl, fun i call hcall => ?_⟩
  obtain ⟨-, stage, rfl⟩ := (sound_of_reachable hstopped).parts hcall
  obtain ⟨h, hi⟩ := (sound_of_reachable hstopped).known hcall (.inr rfl)
  by_cases hi' : i = 0
  · subst hi'
    cases hcall
    exact ⟨true, rfl⟩
  · simp [PMap.insert_of_ne, hi', Host.shutdown, Host.setHandle, Host.enter, Host.addCall,
      Host.setCall, Host.tick, Host.new] at hi

theorem Host.apply_none {o : Outcome} {key' : Key} (hne : key' ≠ key)
    (hnone : w.calls key' = none) : (w.apply key i op o).calls key' = none := by
  rw [Host.apply_calls, PMap.insert_of_ne hne, hnone, if_neg nofun]

theorem Host.ShutDown.apply {k : Nat} (hd : w.ShutDown k) {o : Outcome} (hkey : key.1 ≠ k)
    (hdone : o.done = false) : (w.apply key i op o).ShutDown k := by
  have hsame : ∀ x, (w.apply key i op o).calls (k, x) = w.calls (k, x) := by
    intro x
    rw [Host.apply_calls, PMap.insert_of_ne (by rintro rfl; exact hkey rfl), if_neg]
    simp [hdone]
  exact ⟨(hsame none).trans hd.1, fun i call hc => hd.2 i call ((hsame _).symm.trans hc)⟩

/-- Any section, or event. -/
def Host.Any (w w' : Host) : Prop := ∃ move, w.perform move = some w'

/-- A shutdown that comes while a load waits for its listener resolves, and then the load spawns
its process. -/
theorem process_after_shutdown : ∃ w w' : Host, Reachable (· = .new) Host.Any w ∧
    w.ShutDown 2 ∧ w.perform (.run (0, none) ⟨true, true⟩) = some w' ∧ w'.ShutDown 2 ∧
    ∃ p, w'.processes p = some 0 := by
  have hstart : Reachable (· = .new) Host.Any .new := .start rfl
  have hload := hstart.next ⟨.load 0, rfl⟩
  have henter := hload.next ⟨.enter 0 true, rfl⟩
  have hclosing := henter.next ⟨.shutdown, rfl⟩
  have hquiet := hclosing.next ⟨.run (2, some 0) ⟨true, true⟩, rfl⟩
  have hgone := hquiet.next ⟨.run (2, some 0) ⟨true, true⟩, rfl⟩
  have hstopped := hgone.next ⟨.run (2, some 0) ⟨true, true⟩, rfl⟩
  have hparts : ∀ i ≠ 0, (Host.enter (.addCall .new (.load 0)) 0 0 true).shutdown.calls
      (2, some i) = none := by
    intro i hi
    show (((PMap.empty.insert 0 _) i).map _ : Option Call) = none
    rw [PMap.insert_of_ne hi]
    rfl
  have hne : ∀ i ≠ 0, ((2, some i) : Key) ≠ (2, some 0) := fun i hi h => by
    cases h
    exact hi rfl
  refine ⟨_, _, hstopped, ?down, rfl, Host.ShutDown.apply ?down nofun rfl, 6, rfl⟩
  refine ⟨rfl, fun i call hcall => ?_⟩
  by_cases hi : i = 0
  · subst hi
    cases hcall
    exact ⟨true, rfl⟩
  · cases (Host.apply_none (hne i hi) (Host.apply_none (hne i hi) (Host.apply_none (hne i hi)
      (hparts i hi)))).symm.trans hcall

end NapiVm.Plugin.Trusted
