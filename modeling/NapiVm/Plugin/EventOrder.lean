import Mathlib.Algebra.Order.BigOperators.Group.List
import NapiVm.Plugin.EventQueues

/-!
# Isolation and order

Once an activation has returned, and until another begins, the queues hold events of its
session only.  They are in the order of their numbers as long as a number that has been
checked is not forgotten: `activate_session` and `close` clear the last numbers without
regard to the calls of `accept` that are past the check, and to what was delivered.

* `Hub.Harmless` — a section that forgets no number that still matters.
* `Hub.delivered_in_order` — the queues, in every run of harmless sections.
-/

namespace NapiVm.Plugin

open Host Rpc

namespace Hub

variable {serialize : Serializer} {w w' : Hub} {session : String}

/-- The latest activation. -/
def Latest (w : Hub) (k : Nat) (a : Activation) : Prop :=
  w.current = some k ∧ w.activations k = some a

/-- The latest activation has returned. -/
def Settled (w : Hub) (session : String) : Prop := ∃ k, w.Latest k ⟨session, .returned⟩

/-- What is known of the activations, and of the events after the latest. -/
structure Isolated (w : Hub) : Prop where
  fresh : ∀ k a, w.activations k = some a → k < w.activated
  active : ∀ k, w.current = some k → ∃ a, w.activations k = some a ∧ w.active = some a.session
  walking : ∀ k remaining, w.holder = .purging k remaining →
    ∃ session, w.activations k = some ⟨session, .walking⟩
  purged : ∀ k remaining, w.holder = .purging k remaining →
    ∀ x ∈ w.table, x ∉ remaining → ∀ s, w.subs x = some s → s.given = []
  delivering : ∀ session, w.Settled session → ∀ other e size remaining,
    w.holder = .delivering other e size remaining → other = session
  queues : ∀ session, w.Settled session → ∀ x s, w.subs x = some s → s.reader ≠ .removing →
    ∀ p ∈ s.queue, p.1.session = session
  given : ∀ session, w.Settled session → ∀ x ∈ w.table, ∀ s, w.subs x = some s →
    ∀ e ∈ s.given, e.session = session

/-- What a settled hub has active. -/
theorem Isolated.active_settled (h : w.Isolated) (hsettled : w.Settled session) :
    w.active = some session := by
  obtain ⟨k, hcurrent, hactivation⟩ := hsettled
  obtain ⟨a, ha, hactive⟩ := h.active k hcurrent
  cases hactivation.symm.trans ha
  exact hactive

theorem settled_congr (hcurrent : w'.current = w.current)
    (hactivations : w'.activations = w.activations) : w'.Settled session ↔ w.Settled session := by
  unfold Settled Latest
  rw [hcurrent, hactivations]

variable {x : Nat} {s s' : Subscription} {m : Move}

/-- Nothing given means nothing in the queue, for a subscription in the table. -/
theorem Sound.queue_of_given (h : w.Sound) (hx : x ∈ w.table) (hs : w.subs x = some s)
    (hgiven : s.given = []) : s.queue = [] := by
  have hexact := (h.exact hx hs).1.exact
  rw [hgiven, List.append_eq_nil_iff] at hexact
  exact List.map_eq_nil_iff.1 hexact.2

/-! ## Isolation -/

section

variable (h : w.Isolated)
  (hsame : w'.activations = w.activations ∧ w'.activated = w.activated ∧ w'.current = w.current ∧ w'.active = w.active)

include h hsame

/-- A section that leaves the activations alone. -/
theorem Isolated.of_same
    (hwalking : ∀ k remaining, w'.holder = .purging k remaining →
      ∃ session, w.activations k = some ⟨session, .walking⟩)
    (hpurged : ∀ k remaining, w'.holder = .purging k remaining →
      ∀ x ∈ w'.table, x ∉ remaining → ∀ s, w'.subs x = some s → s.given = [])
    (hdelivering : ∀ session, w.Settled session → ∀ other e size remaining,
      w'.holder = .delivering other e size remaining → other = session)
    (hqueues : ∀ session, w.Settled session → ∀ x s, w'.subs x = some s →
      s.reader ≠ .removing → ∀ p ∈ s.queue, p.1.session = session)
    (hgiven : ∀ session, w.Settled session → ∀ x ∈ w'.table, ∀ s, w'.subs x = some s →
      ∀ e ∈ s.given, e.session = session) : w'.Isolated := by
  obtain ⟨hactivations, hactivated, hcurrent, hactive⟩ := hsame
  have hsettled (session : String) : w'.Settled session ↔ w.Settled session :=
    settled_congr hcurrent hactivations
  refine ⟨?_, ?_, ?_, hpurged, fun session hs => hdelivering session ((hsettled session).1 hs),
    fun session hs => hqueues session ((hsettled session).1 hs),
    fun session hs => hgiven session ((hsettled session).1 hs)⟩
  · rw [hactivations, hactivated]
    exact h.fresh
  · rw [hactivations, hcurrent, hactive]
    exact h.active
  · rw [hactivations]
    exact hwalking

/-- A section that leaves the holder, the table and the subscriptions alone as well. -/
theorem Isolated.of_calls (hquiet : w'.table = w.table ∧ w'.subs = w.subs ∧ w'.holder = w.holder) :
    w'.Isolated := by
  obtain ⟨htable, hsubs, hholder⟩ := hquiet
  refine h.of_same hsame ?_ ?_ ?_ ?_ ?_
  · rw [hholder]
    exact h.walking
  · rw [hholder, htable, hsubs]
    exact h.purged
  · rw [hholder]
    exact h.delivering
  · rw [hsubs]
    exact h.queues
  · rw [htable, hsubs]
    exact h.given

/-- A section after which nobody purges or delivers. -/
theorem Isolated.release (hquiet : w'.table = w.table ∧ w'.subs = w.subs)
    (hholder : ∀ k remaining, w'.holder ≠ .purging k remaining)
    (hdelivering : ∀ other e size remaining, w'.holder ≠ .delivering other e size remaining) :
    w'.Isolated := by
  obtain ⟨htable, hsubs⟩ := hquiet
  refine h.of_same hsame (fun k remaining hk => absurd hk (hholder k remaining))
    (fun k remaining hk => absurd hk (hholder k remaining))
    (fun _ _ other e size remaining hd => absurd hd (hdelivering other e size remaining)) ?_ ?_
  · rw [hsubs]
    exact h.queues
  · rw [htable, hsubs]
    exact h.given

end

section

variable (h : w.Isolated)

include h

theorem Isolated.acceptStep (hsound : w.Sound) (hstep : AcceptStep serialize w w') :
    w'.Isolated := by
  cases hstep with
  | refuse session e hfree | enter session contracts value hfree
  | invalid session contracts value e hcall | number session contracts value e hcall hread
  | disorder session e hcall hlast | unsized session e err hcall hlast
  | record session e data hcall hlast hsize =>
    exact h.of_calls ⟨rfl, rfl, rfl, rfl⟩ ⟨rfl, rfl, rfl⟩
  | lock session e size hcall hholder | stale session e size hholder hactive
  | finish session e size hholder =>
    exact h.release ⟨rfl, rfl, rfl, rfl⟩ ⟨rfl, rfl⟩ nofun nofun
  | recheck session e size hholder hactive =>
    refine h.of_same ⟨rfl, rfl, rfl, rfl⟩ nofun nofun ?_ h.queues h.given
    intro active hsettled other e' size' remaining heq
    cases heq
    have hkept := h.active_settled hsettled
    rw [replaced, hkept] at hactive
    simp only [Option.any_some, ne_eq, decide_eq_false_iff_not, not_not] at hactive
    exact hactive.symm
  | deliver session e size x rest s hholder hsub =>
    have hsession : e.session = session :=
      (hsound.accepting session e (by rw [hholder]; rfl)).2
    have hx : x ∈ w.table := hsound.walk.1 x (by rw [hholder]; exact List.mem_cons_self)
    unfold offer
    by_cases hwants : s.wants e = false
    · rw [if_pos hwants]
      exact h.of_same ⟨rfl, rfl, rfl, rfl⟩ nofun nofun
        (fun active hsettled other e' size' remaining heq => by
          cases heq
          exact h.delivering active hsettled _ _ _ _ hholder) h.queues h.given
    rw [if_neg hwants]
    by_cases hfull : w.full s size = true
    · rw [if_pos hfull]
      refine h.of_same ⟨rfl, rfl, rfl, rfl⟩ nofun nofun
        (fun active hsettled other e' size' remaining heq => ?_) ?_ ?_
      · cases heq
        exact h.delivering active hsettled _ _ _ _ hholder
      · intro active hsettled y t ht hreader p hp
        rcases PMap.insert_cases ht with ⟨-, rfl⟩ | ⟨-, hold⟩
        · cases hp
        · exact h.queues active hsettled y t hold hreader p hp
      · intro active hsettled y hy t ht e' he'
        have hne := (hsound.nodup.mem_erase_iff).1 hy
        rcases PMap.insert_cases ht with ⟨rfl, -⟩ | ⟨-, hold⟩
        · exact absurd rfl hne.1
        · exact h.given active hsettled y hne.2 t hold e' he'
    · rw [if_neg hfull]
      have hactive (active : String) (hsettled : w.Settled active) : e.session = active :=
        hsession.trans (h.delivering active hsettled _ _ _ _ hholder)
      refine h.of_same ⟨rfl, rfl, rfl, rfl⟩ nofun nofun
        (fun active hsettled other e' size' remaining heq => ?_) ?_ ?_
      · cases heq
        exact h.delivering active hsettled _ _ _ _ hholder
      · intro active hsettled y t ht hreader p hp
        rcases PMap.insert_cases ht with ⟨rfl, rfl⟩ | ⟨-, hold⟩
        · rcases List.mem_append.1 hp with hp | hp
          · exact h.queues active hsettled _ s hsub hreader p hp
          · cases List.mem_singleton.1 hp
            exact hactive active hsettled
        · exact h.queues active hsettled y t hold hreader p hp
      · intro active hsettled y hy t ht e' he'
        rcases PMap.insert_cases ht with ⟨rfl, rfl⟩ | ⟨-, hold⟩
        · rcases List.mem_append.1 he' with he' | he'
          · exact h.given active hsettled _ hx s hsub e' he'
          · cases List.mem_singleton.1 he'
            exact hactive active hsettled
        · exact h.given active hsettled y hy t hold e' he'

/-- A call of `activate_session` goes on, and nothing else changes but the holder and the last
numbers. -/
theorem Isolated.advance {k : Nat} {before : Activation} (stage : ActivationStage)
    (hcall : w.activations k = some before) (hstage : stage ≠ .returned)
    (hsame : w'.activations = w.activations.insert k ⟨before.session, stage⟩ ∧
      w'.activated = w.activated ∧ w'.current = w.current ∧ w'.active = w.active)
    (hquiet : w'.table = w.table ∧ w'.subs = w.subs)
    (hwalking : ∀ j remaining, w'.holder = .purging j remaining →
      (j = k ∧ stage = .walking) ∨ (j ≠ k ∧ w.holder = .purging j remaining))
    (hpurged : ∀ j remaining, w'.holder = .purging j remaining →
      ∀ x ∈ w.table, x ∉ remaining → ∀ s, w.subs x = some s → s.given = [])
    (hdelivering : ∀ other e size remaining, w'.holder = .delivering other e size remaining →
      w.holder = .delivering other e size remaining) :
    w'.Isolated := by
  obtain ⟨hactivations, hactivated, hcurrent, hactive⟩ := hsame
  obtain ⟨htable, hsubs⟩ := hquiet
  have hsettled (session : String) (hs : w'.Settled session) : w.Settled session := by
    obtain ⟨j, hj, hja⟩ := hs
    rw [hactivations] at hja
    rcases PMap.insert_cases hja with ⟨-, heq⟩ | ⟨-, hold⟩
    · exact absurd (congrArg Activation.stage heq).symm hstage
    · exact ⟨j, hcurrent ▸ hj, hold⟩
  refine ⟨?_, ?_, ?_, ?_, ?_, ?_, ?_⟩
  · intro j a ha
    rw [hactivations] at ha
    rw [hactivated]
    rcases PMap.insert_cases ha with ⟨rfl, -⟩ | ⟨-, hold⟩
    · exact h.fresh _ _ hcall
    · exact h.fresh j a hold
  · intro j hj
    rw [hcurrent] at hj
    obtain ⟨a, ha, hkept⟩ := h.active j hj
    rw [hactivations, hactive]
    by_cases heq : j = k
    · subst heq
      cases hcall.symm.trans ha
      exact ⟨_, PMap.insert_self, hkept⟩
    · exact ⟨a, (PMap.insert_of_ne heq).trans ha, hkept⟩
  · intro j remaining hj
    rw [hactivations]
    rcases hwalking j remaining hj with ⟨rfl, rfl⟩ | ⟨hne, hold⟩
    · exact ⟨_, PMap.insert_self⟩
    · obtain ⟨session, hsession⟩ := h.walking j remaining hold
      exact ⟨session, (PMap.insert_of_ne hne).trans hsession⟩
  · rw [htable, hsubs]
    exact hpurged
  · intro session hs other e size remaining heq
    exact h.delivering session (hsettled session hs) other e size remaining
      (hdelivering other e size remaining heq)
  · rw [hsubs]
    exact fun session hs => h.queues session (hsettled session hs)
  · rw [htable, hsubs]
    exact fun session hs => h.given session (hsettled session hs)

theorem Isolated.activateStep (hsound : w.Sound) (hstep : ActivateStep w m w') : w'.Isolated := by
  cases hstep with
  | write session =>
    have hne (k : Nat) (a : Activation) (ha : w.activations k = some a) : k ≠ w.activated :=
      Nat.ne_of_lt (h.fresh k a ha)
    have hunsettled (other : String) : ¬ ({ w.setActivation w.activated ⟨session, .written⟩ with
        active := some session, activated := w.activated + 1,
        current := some w.activated } : Hub).Settled other := by
      rintro ⟨k, hk, ha⟩
      cases hk
      rw [show ({ w.setActivation w.activated ⟨session, .written⟩ with
        active := some session, activated := w.activated + 1,
        current := some w.activated } : Hub).activations w.activated =
          some ⟨session, .written⟩ from PMap.insert_self] at ha
      cases ha
    refine ⟨?_, ?_, ?_, h.purged, fun other hs => absurd hs (hunsettled other),
      fun other hs => absurd hs (hunsettled other), fun other hs => absurd hs (hunsettled other)⟩
    · intro k a ha
      rcases PMap.insert_cases ha with ⟨rfl, -⟩ | ⟨-, hold⟩
      · exact Nat.lt_succ_self _
      · exact Nat.lt_succ_of_lt (h.fresh k a hold)
    · intro k hk
      cases hk
      exact ⟨_, PMap.insert_self, rfl⟩
    · intro k remaining hk
      obtain ⟨other, hother⟩ := h.walking k remaining hk
      exact ⟨other, (PMap.insert_of_ne (hne k _ hother)).trans hother⟩
  | clear k session hcall =>
    refine h.advance .cleared hcall nofun ⟨rfl, rfl, rfl, rfl⟩ ⟨rfl, rfl⟩
      (fun j remaining hj => .inr ⟨?_, hj⟩) h.purged fun _ _ _ _ heq => heq
    rintro rfl
    obtain ⟨other, hother⟩ := h.walking j remaining hj
    cases hcall.symm.trans hother
  | lock k session hcall hholder =>
    refine h.advance .walking hcall nofun ⟨rfl, rfl, rfl, rfl⟩ ⟨rfl, rfl⟩
      (fun j remaining hj => ?_) (fun j remaining hj x hx hout => ?_) nofun
    · cases hj
      exact .inl ⟨rfl, rfl⟩
    · cases hj
      exact absurd hx hout
  | purge k x rest s hholder hsub =>
    have hx : x ∈ w.table := hsound.walk.1 x (by rw [hholder]; exact List.mem_cons_self)
    refine h.of_same ⟨rfl, rfl, rfl, rfl⟩ (fun j remaining hj => ?_)
      (fun j remaining hj y hy hout t ht => ?_) nofun ?_ ?_
    · cases hj
      exact h.walking _ _ hholder
    · cases hj
      rcases PMap.insert_cases ht with ⟨-, rfl⟩ | ⟨hyx, hold⟩
      · rfl
      · refine h.purged _ _ hholder y hy ?_ t hold
        simpa only [List.mem_cons, hyx, false_or] using hout
    · intro active hsettled y t ht hreader p hp
      rcases PMap.insert_cases ht with ⟨-, rfl⟩ | ⟨-, hold⟩
      · cases hp
      · exact h.queues active hsettled y t hold hreader p hp
    · intro active hsettled y hy t ht e he
      rcases PMap.insert_cases ht with ⟨-, rfl⟩ | ⟨-, hold⟩
      · cases he
      · exact h.given active hsettled y hy t hold e he
  | finish k a hholder hcall =>
    -- what is in the table was given nothing, and what is not has nothing in its queue
    have hgiven (x : Nat) (hx : x ∈ w.table) (s : Subscription) (hs : w.subs x = some s) :
        s.given = [] := h.purged _ _ hholder x hx List.not_mem_nil s hs
    have hqueue (x : Nat) (s : Subscription) (hs : w.subs x = some s)
        (hreader : s.reader ≠ .removing) : s.queue = [] := by
      by_cases hx : x ∈ w.table
      · exact hsound.queue_of_given hx hs (hgiven x hx s hs)
      · rcases hsound.gone x s hs hx with hqueue | hremoving | hclosed
        · exact hqueue
        · exact absurd hremoving hreader
        · rw [hholder] at hclosed
          cases hclosed
    refine ⟨?_, ?_, nofun, nofun, nofun, ?_, ?_⟩
    · intro j b hb
      rcases PMap.insert_cases hb with ⟨rfl, -⟩ | ⟨-, hold⟩
      · exact h.fresh _ _ hcall
      · exact h.fresh j b hold
    · intro j hj
      obtain ⟨b, hb, hactive⟩ := h.active j hj
      by_cases heq : j = k
      · subst heq
        cases hcall.symm.trans hb
        exact ⟨_, PMap.insert_self, hactive⟩
      · exact ⟨b, (PMap.insert_of_ne heq).trans hb, hactive⟩
    · intro active hsettled x s hs hreader p hp
      rw [hqueue x s hs hreader] at hp
      cases hp
    · intro active hsettled x hx s hs e he
      rw [hgiven x hx s hs] at he
      cases he

theorem Isolated.subStep (hsound : w.Sound) (hstep : SubStep w w') : w'.Isolated := by
  cases hstep with
  | subscribe s hholder hfresh =>
    obtain ⟨hqueue, -, -, -, hgiven, -⟩ := hfresh
    refine h.of_same ⟨rfl, rfl, rfl, rfl⟩ h.walking ?_ h.delivering ?_ ?_
    · intro k remaining hk
      rw [show w.holder = .purging k remaining from hk] at hholder
      cases hholder
    · intro active hsettled y t ht hreader p hp
      rcases PMap.insert_cases ht with ⟨-, rfl⟩ | ⟨-, hold⟩
      · rw [hqueue] at hp
        cases hp
      · exact h.queues active hsettled y t hold hreader p hp
    · intro active hsettled y hy t ht e he
      rcases PMap.insert_cases ht with ⟨-, rfl⟩ | ⟨hne, hold⟩
      · rw [hgiven] at he
        cases he
      · refine h.given active hsettled y ?_ t hold e he
        exact (List.mem_append.1 hy).resolve_right fun hmem => hne (List.mem_singleton.1 hmem)
  | own x s s' r hsub hown =>
    obtain ⟨hgiven, -, -, hempty, hqueue⟩ := Subscription.owner_frame hown
    refine h.of_same ⟨rfl, rfl, rfl, rfl⟩ h.walking ?_ h.delivering ?_ ?_
    · intro k remaining hk y hy hout t ht
      rcases PMap.insert_cases ht with ⟨rfl, rfl⟩ | ⟨-, hold⟩
      · rw [hgiven]
        exact h.purged k remaining hk _ hy hout s hsub
      · exact h.purged k remaining hk y hy hout t hold
    · intro active hsettled y t ht hreader p hp
      rcases PMap.insert_cases ht with ⟨rfl, rfl⟩ | ⟨-, hold⟩
      · by_cases hremoving : s.reader = .removing
        · rw [hempty (.inr hremoving)] at hp
          cases hp
        · exact h.queues active hsettled _ s hsub hremoving p (hqueue p hp)
      · exact h.queues active hsettled y t hold hreader p hp
    · intro active hsettled y hy t ht e he
      rcases PMap.insert_cases ht with ⟨rfl, rfl⟩ | ⟨-, hold⟩
      · rw [hgiven] at he
        exact h.given active hsettled _ hy s hsub e he
      · exact h.given active hsettled y hy t hold e he
  | unsubscribe x s hsub hholder hidle =>
    refine h.of_same ⟨rfl, rfl, rfl, rfl⟩ h.walking ?_ h.delivering ?_ ?_
    · intro k remaining hk
      rw [show w.holder = .purging k remaining from hk] at hholder
      cases hholder
    · intro active hsettled y t ht hreader p hp
      rcases PMap.insert_cases ht with ⟨-, rfl⟩ | ⟨-, hold⟩
      · exact absurd rfl hreader
      · exact h.queues active hsettled y t hold hreader p hp
    · intro active hsettled y hy t ht e he
      have hne := (hsound.nodup.mem_erase_iff).1 hy
      rcases PMap.insert_cases ht with ⟨rfl, -⟩ | ⟨-, hold⟩
      · exact absurd rfl hne.1
      · exact h.given active hsettled y hne.2 t hold e he

theorem Isolated.closeStep (hsound : w.Sound) (hstep : CloseStep w m w') : w'.Isolated := by
  cases hstep with
  | take hholder =>
    exact h.of_same ⟨rfl, rfl, rfl, rfl⟩ nofun nofun nofun h.queues fun _ _ x hx => nomatch hx
  | next x rest s hholder hsub =>
    have hx : x ∉ w.table := hsound.emptied x (by rw [hholder]; exact List.mem_cons_self)
    refine h.of_same ⟨rfl, rfl, rfl, rfl⟩ nofun nofun nofun ?_ ?_
    · intro active hsettled y t ht hreader p hp
      rcases PMap.insert_cases ht with ⟨-, rfl⟩ | ⟨-, hold⟩
      · cases hp
      · exact h.queues active hsettled y t hold hreader p hp
    · intro active hsettled y hy t ht e he
      rcases PMap.insert_cases ht with ⟨rfl, -⟩ | ⟨-, hold⟩
      · exact absurd hy hx
      · exact h.given active hsettled y hy t hold e he
  | finish hholder => exact h.release ⟨rfl, rfl, rfl, rfl⟩ ⟨rfl, rfl⟩ nofun nofun
  | clear n hclearing | tighten limits => exact h.of_calls ⟨rfl, rfl, rfl, rfl⟩ ⟨rfl, rfl, rfl⟩

theorem Isolated.next (hsound : w.Sound) (hm : w.perform serialize m = some w') : w'.Isolated := by
  rcases perform_cases hm with hstep | hstep | hstep | hstep
  · exact h.acceptStep hsound hstep
  · exact h.activateStep hsound hstep
  · exact h.subStep hsound hstep
  · exact h.closeStep hsound hstep

end

theorem isolated_new (maxEvents maxBytes : Nat) : (new maxEvents maxBytes).Isolated where
  fresh _ _ h := nomatch h
  active _ h := nomatch h
  walking _ _ h := nomatch h
  purged _ _ h := nomatch h
  delivering _ _ _ _ _ _ h := nomatch h
  queues _ _ _ _ hs := nomatch hs
  given _ _ _ hx := nomatch hx

/-! ## Order -/

/-- An event of the session is past the check of its number, and still to come to this
subscription. -/
def Coming (w : Hub) (session : String) (x : Nat) (e : Event) : Prop :=
  (∃ size, w.accepts session = some (.recorded e size)) ∨
    (∃ size, w.holder = .locked session e size) ∨
      ∃ size remaining, w.holder = .delivering session e size remaining ∧ x ∈ remaining

/-- What a subscription was given is in order, up to the last number, and before what comes. -/
structure InOrder (w : Hub) (session : String) (x : Nat) (s : Subscription) : Prop where
  sorted : s.given.Pairwise fun e e' => e.sequence < e'.sequence
  bounded : ∀ e ∈ s.given, ∃ n, w.last session = some n ∧ e.sequence ≤ n
  ahead : ∀ e ∈ s.given, ∀ e', w.Coming session x e' → e.sequence < e'.sequence

/-- The last numbers are those of the events past the check. -/
structure Ordered (w : Hub) : Prop where
  recorded : ∀ k a, w.Latest k a → a.stage ≠ .written → ∀ e size,
    w.accepts a.session = some (.recorded e size) → w.last a.session = some e.sequence
  accepting : ∀ session, w.Settled session → ∀ e, w.holder.accepting = some (session, e) →
    w.last session = some e.sequence
  order : ∀ session, w.Settled session → ∀ x ∈ w.table, ∀ s, w.subs x = some s →
    w.InOrder session x s

/-- The last numbers may be forgotten: once the latest activation has done so itself, or does
it now, no event of its session is between the check of its number and the table; and when it
has returned none is on its way, and none was delivered since. -/
def Quiet (w : Hub) (own : Option Nat) : Prop :=
  ∀ k a, w.Latest k a → a.stage ≠ .written ∨ own = some k →
    (∀ e size, w.accepts a.session ≠ some (.recorded e size)) ∧
      (a.stage = .returned → (∀ e, w.holder.accepting ≠ some (a.session, e)) ∧
        ∀ x ∈ w.table, ∀ s, w.subs x = some s → s.given = [])

/-- A section that forgets no number that still matters. -/
def Harmless (w : Hub) : Move → Prop
  | .clear k => w.Quiet (some k)
  | .closeClear => w.Quiet none
  | _ => True

theorem inOrder_of_nil (h : s.given = []) : w.InOrder session x s := by
  refine ⟨h ▸ List.Pairwise.nil, fun e he => ?_, fun e he => ?_⟩ <;> rw [h] at he <;> cases he

/-- The numbers stay, nothing is given, and what comes came before. -/
theorem InOrder.frame (h : w.InOrder session x s) (hgiven : s'.given = s.given)
    (hlast : w'.last session = w.last session)
    (hcoming : ∀ e, w'.Coming session x e → w.Coming session x e) : w'.InOrder session x s' where
  sorted := hgiven ▸ h.sorted
  bounded e he := hlast ▸ h.bounded e (hgiven ▸ he)
  ahead e he e' he' := h.ahead e (hgiven ▸ he) e' (hcoming e' he')

section

variable (h : w.Ordered)

include h

/-- A section that leaves the activations and the last numbers alone. -/
theorem Ordered.of_same (hactivations : w'.activations = w.activations)
    (hcurrent : w'.current = w.current) (hlast : w'.last = w.last)
    (hrecorded : ∀ session e size, w'.accepts session = some (.recorded e size) →
      w.accepts session = some (.recorded e size))
    (haccepting : ∀ session e, w'.holder.accepting = some (session, e) →
      w.holder.accepting = some (session, e) ∨ ∃ size, w.accepts session = some (.recorded e size))
    (hcoming : ∀ session x e, x ∈ w'.table → w'.Coming session x e → w.Coming session x e)
    (hgiven : ∀ x ∈ w'.table, ∀ s, w'.subs x = some s → s.given = [] ∨
      (x ∈ w.table ∧ ∃ t, w.subs x = some t ∧ s.given = t.given)) :
    w'.Ordered := by
  have hlatest (k : Nat) (a : Activation) (ha : w'.Latest k a) : w.Latest k a := by
    simpa only [Latest, hactivations, hcurrent] using ha
  have hsettled (session : String) (hs : w'.Settled session) : w.Settled session :=
    (settled_congr hcurrent hactivations).1 hs
  refine ⟨fun k a ha hstage e size hcall => ?_, fun session hs e he => ?_,
    fun session hs x hx s hsub => ?_⟩
  · rw [hlast]
    exact h.recorded k a (hlatest k a ha) hstage e size (hrecorded a.session e size hcall)
  · rw [hlast]
    rcases haccepting session e he with hold | ⟨size, hcall⟩
    · exact h.accepting session (hsettled session hs) e hold
    · obtain ⟨k, hk⟩ := hsettled session hs
      exact h.recorded k _ hk nofun e size hcall
  · rcases hgiven x hx s hsub with hnil | ⟨hmem, t, ht, heq⟩
    · exact inOrder_of_nil hnil
    · exact (h.order session (hsettled session hs) x hmem t ht).frame heq (by rw [hlast])
        fun e he => hcoming session x e hx he

/-- A section that does not lock the table, and gives nothing. -/
theorem Ordered.of_answer
    (hsame : w'.activations = w.activations ∧
      w'.current = w.current ∧ w'.last = w.last ∧ w'.holder = w.holder)
    (hrecorded : ∀ session e size, w'.accepts session = some (.recorded e size) →
      w.accepts session = some (.recorded e size))
    (hgiven : ∀ x ∈ w'.table, ∀ s, w'.subs x = some s → s.given = [] ∨
      (x ∈ w.table ∧ ∃ t, w.subs x = some t ∧ s.given = t.given)) :
    w'.Ordered := by
  obtain ⟨hactivations, hcurrent, hlast, hholder⟩ := hsame
  refine h.of_same hactivations hcurrent hlast hrecorded (fun session e he => ?_)
    (fun session x e _ he => ?_) hgiven
  · exact .inl (hholder ▸ he)
  · unfold Coming at he ⊢
    rw [hholder] at he
    rcases he with ⟨size, hcall⟩ | he
    · exact .inl ⟨size, hrecorded session e size hcall⟩
    · exact .inr he

omit h in
theorem given_self (hx : x ∈ w.table) (hs : w.subs x = some s) :
    s.given = [] ∨ (x ∈ w.table ∧ ∃ t, w.subs x = some t ∧ s.given = t.given) :=
  .inr ⟨hx, s, hs, rfl⟩

omit h in
theorem recorded_setAccept {other : String} {stage : AcceptStage}
    (hstage : ∀ e size, stage ≠ .recorded e size) {e : Event} {size : Nat}
    (h : (w.setAccept other stage).accepts session = some (.recorded e size)) :
    w.accepts session = some (.recorded e size) := by
  rcases PMap.insert_cases h with ⟨-, heq⟩ | ⟨-, hold⟩
  · exact absurd heq.symm (hstage e size)
  · exact hold

/-- A number passes the check. -/
theorem Ordered.of_record (hsound : w.Sound) {own : String} {e : Event}
    (hcall : w.accepts own = some (.numbered e))
    (hcheck : (w.last own).any (fun n => decide (e.sequence ≤ n)) = false)
    (hsame : w'.activations = w.activations ∧ w'.current = w.current ∧ w'.holder = w.holder ∧
      w'.table = w.table ∧ w'.subs = w.subs)
    (hlast : w'.last = w.last.insert own e.sequence)
    (hown : ∀ e' size, w'.accepts own = some (.recorded e' size) → e' = e)
    (hother : ∀ other, other ≠ own → w'.accepts other = w.accepts other) : w'.Ordered := by
  obtain ⟨hactivations, hcurrent, hholder, htable, hsubs⟩ := hsame
  have hself : w'.last own = some e.sequence := by rw [hlast, PMap.insert_self]
  have hrest (other : String) (hne : other ≠ own) : w'.last other = w.last other := by
    rw [hlast, PMap.insert_of_ne hne]
  have hfree (other : String) (e' : Event) (he : w.holder.accepting = some (other, e')) :
      other ≠ own :=
    hsound.not_accepting (by rw [hcall]; nofun) he
  refine ⟨fun k a ha hstage e' size hrecorded => ?_, fun session hs e' he => ?_,
    fun session hs x hx s hsub => ?_⟩
  · have hold : w.Latest k a := by simpa only [Latest, hactivations, hcurrent] using ha
    by_cases heq : a.session = own
    · rw [heq] at hrecorded ⊢
      rw [hown e' size hrecorded]
      exact hself
    · rw [hrest _ heq]
      exact h.recorded k a hold hstage e' size ((hother _ heq).symm.trans hrecorded)
  · rw [hholder] at he
    rw [hrest _ (hfree session e' he)]
    exact h.accepting session ((settled_congr hcurrent hactivations).1 hs) e' he
  · have hold := h.order session ((settled_congr hcurrent hactivations).1 hs) x (htable ▸ hx) s
      (hsubs ▸ hsub)
    by_cases heq : session = own
    · subst heq
      have hbefore (e' : Event) (he : e' ∈ s.given) : e'.sequence < e.sequence := by
        obtain ⟨n, hn, hle⟩ := hold.bounded e' he
        rw [hn] at hcheck
        simp only [Option.any_some, decide_eq_false_iff_not, Nat.not_le] at hcheck
        exact Nat.lt_of_le_of_lt hle hcheck
      refine ⟨hold.sorted, fun e' he => ⟨_, hself, Nat.le_of_lt (hbefore e' he)⟩,
        fun e' he next hnext => ?_⟩
      rcases hnext with ⟨size, hrecorded⟩ | ⟨size, hlocked⟩ | ⟨size, remaining, hdelivering, -⟩
      · rw [hown next size hrecorded]
        exact hbefore e' he
      · rw [hholder] at hlocked
        exact absurd rfl (hfree session next (by rw [hlocked]; rfl))
      · rw [hholder] at hdelivering
        exact absurd rfl (hfree session next (by rw [hdelivering]; rfl))
    · refine hold.frame rfl (hrest _ heq) fun e' he => ?_
      unfold Coming at he ⊢
      rwa [hother _ heq, hholder] at he

theorem Ordered.acceptStep (hsound : w.Sound) (hisolated : w.Isolated)
    (hstep : AcceptStep serialize w w') : w'.Ordered := by
  cases hstep with
  | refuse session e hfree | invalid session contracts value e hcall
  | disorder session e hcall hlast =>
    exact h.of_answer ⟨rfl, rfl, rfl, rfl⟩ (fun _ _ _ hold => (PMap.of_erase hold).2)
      fun _ hx _ hs => given_self hx hs
  | enter session contracts value hfree | number session contracts value e hcall hread =>
    exact h.of_answer ⟨rfl, rfl, rfl, rfl⟩
      (fun _ _ _ => recorded_setAccept fun _ _ heq => by cases heq)
      fun _ hx _ hs => given_self hx hs
  | unsized session e err hcall hlast =>
    refine h.of_record hsound hcall hlast ⟨rfl, rfl, rfl, rfl, rfl⟩ rfl (fun e' size hrec => ?_)
      fun other hne => PMap.erase_of_ne hne
    exact absurd ((PMap.erase_self _ _).symm.trans hrec) nofun
  | record session e data hcall hlast hsize =>
    refine h.of_record hsound hcall hlast ⟨rfl, rfl, rfl, rfl, rfl⟩ rfl (fun e' size hrec => ?_)
      fun other hne => PMap.insert_of_ne hne
    rcases PMap.insert_cases hrec with ⟨-, heq⟩ | ⟨-, hold⟩
    · cases heq
      rfl
    · exact nomatch hcall.symm.trans hold
  | lock session e size hcall hholder =>
    refine h.of_same rfl rfl rfl
      (fun _ _ _ => recorded_setAccept fun _ _ heq => by cases heq) (fun other e' he => ?_)
      (fun other x e' _ he => ?_) fun _ hx _ hs => given_self hx hs
    · cases he
      exact .inr ⟨size, hcall⟩
    · rcases he with ⟨size', hrecorded⟩ | ⟨size', hlocked⟩ | ⟨_, _, hdelivering, -⟩
      · exact .inl ⟨size', recorded_setAccept (fun _ _ heq => by cases heq) hrecorded⟩
      · cases hlocked
        exact .inl ⟨size, hcall⟩
      · cases hdelivering
  | stale session e size hholder hactive | finish session e size hholder =>
    refine h.of_same rfl rfl rfl (fun _ _ _ hold => (PMap.of_erase hold).2)
      nofun (fun other x e' _ he => ?_) fun _ hx _ hs => given_self hx hs
    rcases he with ⟨size', hrecorded⟩ | ⟨_, hlocked⟩ | ⟨_, _, hdelivering, -⟩
    · exact .inl ⟨size', (PMap.of_erase hrecorded).2⟩
    · cases hlocked
    · cases hdelivering
  | recheck session e size hholder hactive =>
    refine h.of_same rfl rfl rfl (fun _ _ _ hold => hold) (fun other e' he => ?_)
      (fun other x e' _ he => ?_) fun _ hx _ hs => given_self hx hs
    · cases he
      exact .inl (by rw [hholder]; rfl)
    · rcases he with hrecorded | ⟨_, hlocked⟩ | ⟨_, _, hdelivering, -⟩
      · exact .inl hrecorded
      · cases hlocked
      · cases hdelivering
        exact .inr (.inl ⟨size, hholder⟩)
  | deliver session e size x rest s hholder hsub =>
    have hcoming (v : Hub) (other : String) (y : Nat) (e' : Event) (he : v.Coming other y e')
        (haccepts : v.accepts = w.accepts) (hnext : v.holder = .delivering session e size rest) :
        w.Coming other y e' := by
      unfold Coming at he ⊢
      rw [haccepts, hnext] at he
      rcases he with hrecorded | ⟨_, hlocked⟩ | ⟨size', remaining, hdelivering, hmem⟩
      · exact .inl hrecorded
      · cases hlocked
      · cases hdelivering
        exact .inr (.inr ⟨size, x :: rest, hholder, List.mem_cons_of_mem _ hmem⟩)
    have haccepting (other : String) (e' : Event)
        (he : (Holder.delivering session e size rest).accepting = some (other, e')) :
        w.holder.accepting = some (other, e') := by
      rw [hholder]
      exact he
    have hx : x ∈ w.table := hsound.walk.1 x (by rw [hholder]; exact List.mem_cons_self)
    unfold offer
    by_cases hwants : s.wants e = false
    · rw [if_pos hwants]
      exact h.of_same rfl rfl rfl (fun _ _ _ hold => hold)
        (fun other e' he => .inl (haccepting other e' he))
        (fun other y e' _ he => hcoming _ other y e' he rfl rfl) fun _ hx _ hs => given_self hx hs
    rw [if_neg hwants]
    by_cases hfull : w.full s size = true
    · rw [if_pos hfull]
      refine h.of_same rfl rfl rfl (fun _ _ _ hold => hold)
        (fun other e' he => .inl (haccepting other e' he))
        (fun other y e' _ he => hcoming _ other y e' he rfl rfl) fun y hy t ht => ?_
      have hne := (hsound.nodup.mem_erase_iff).1 hy
      rcases PMap.insert_cases ht with ⟨rfl, -⟩ | ⟨-, hold⟩
      · exact absurd rfl hne.1
      · exact given_self hne.2 hold
    · rw [if_neg hfull]
      have hcall : w.accepts session = some .walking :=
        (hsound.accepting session e (by rw [hholder]; rfl)).1
      have hnotin : x ∉ rest := by
        have hnodup := hsound.walk.2
        rw [hholder] at hnodup
        exact (List.nodup_cons.1 hnodup).1
      refine ⟨fun k a ha hstage e' size' => h.recorded k a ha hstage e' size',
        fun active hsettled e' he => h.accepting active hsettled e' (haccepting active e' he),
        fun active hsettled y hy t ht => ?_⟩
      have hactive : session = active := hisolated.delivering active hsettled _ _ _ _ hholder
      subst hactive
      rcases PMap.insert_cases ht with ⟨rfl, rfl⟩ | ⟨-, hold⟩
      · have hold := h.order session hsettled y hx s hsub
        have hnew (e' : Event) (he : e' ∈ s.given) : e'.sequence < e.sequence :=
          hold.ahead e' he e (.inr (.inr ⟨size, y :: rest, hholder, List.mem_cons_self⟩))
        have hlast : w.last session = some e.sequence :=
          h.accepting session hsettled e (by rw [hholder]; rfl)
        refine ⟨?_, fun e' he => ?_, fun e' he next hnext => ?_⟩
        · refine List.pairwise_append.2 ⟨hold.sorted, List.pairwise_singleton _ _, ?_⟩
          intro e' he next hmem
          cases List.mem_singleton.1 hmem
          exact hnew e' he
        · rcases List.mem_append.1 he with he | he
          · exact hold.bounded e' he
          · cases List.mem_singleton.1 he
            exact ⟨_, hlast, Nat.le_refl _⟩
        · -- nothing of this session can be on its way to this subscription now
          rcases hnext with ⟨_, hrecorded⟩ | ⟨_, hlocked⟩ | ⟨_, _, hdelivering, hmem⟩
          · exact nomatch hcall.symm.trans hrecorded
          · cases hlocked
          · cases hdelivering
            exact absurd hmem hnotin
      · exact (h.order session hsettled y hy t hold).frame rfl rfl
          fun e' he => hcoming _ session y e' he rfl rfl

omit h in
/-- The last numbers are forgotten, quietly. -/
theorem Ordered.of_clear {own : Option Nat} (hquiet : w.Quiet own)
    (hsame : w'.holder = w.holder ∧ w'.table = w.table ∧ w'.subs = w.subs ∧ w'.accepts = w.accepts)
    (hlatest : ∀ k a, w'.Latest k a → a.stage ≠ .written → ∃ b, w.Latest k b ∧
      b.session = a.session ∧ (b.stage ≠ .written ∨ own = some k) ∧
        (a.stage = .returned → b.stage = .returned)) : w'.Ordered := by
  obtain ⟨hholder, htable, hsubs, haccepts⟩ := hsame
  have hkept (k : Nat) (a : Activation) (ha : w'.Latest k a) (hstage : a.stage ≠ .written) :
      (∀ e size, w.accepts a.session ≠ some (.recorded e size)) ∧
        (a.stage = .returned → (∀ e, w.holder.accepting ≠ some (a.session, e)) ∧
          ∀ x ∈ w.table, ∀ s, w.subs x = some s → s.given = []) := by
    obtain ⟨b, hb, hsession, hpast, hreturned⟩ := hlatest k a ha hstage
    obtain ⟨hrecorded, hrest⟩ := hquiet k b hb hpast
    rw [hsession] at hrecorded hrest
    exact ⟨hrecorded, fun hr => hrest (hreturned hr)⟩
  refine ⟨fun k a ha hstage e size hcall => ?_, fun session hs e he => ?_,
    fun session hs x hx s hsub => ?_⟩
  · rw [haccepts] at hcall
    exact absurd hcall ((hkept k a ha hstage).1 e size)
  · obtain ⟨k, hk⟩ := hs
    rw [hholder] at he
    exact absurd he (((hkept k _ hk nofun).2 rfl).1 e)
  · obtain ⟨k, hk⟩ := hs
    rw [hsubs] at hsub
    exact inOrder_of_nil (((hkept k _ hk nofun).2 rfl).2 x (htable ▸ hx) s hsub)

theorem Ordered.activateStep (hisolated : w.Isolated) (hharmless : w.Harmless m)
    (hstep : ActivateStep w m w') : w'.Ordered := by
  cases hstep with
  | write session =>
    have hunsettled (k : Nat) (a : Activation)
        (ha : ({ w.setActivation w.activated ⟨session, .written⟩ with
          active := some session, activated := w.activated + 1,
          current := some w.activated } : Hub).Latest k a) : a.stage = .written := by
      obtain ⟨hk, ha⟩ := ha
      cases hk
      cases PMap.insert_self.symm.trans ha
      rfl
    refine ⟨fun k a ha hstage => absurd (hunsettled k a ha) hstage, fun _ hs => ?_,
      fun _ hs => ?_⟩ <;>
    · obtain ⟨k, hk⟩ := hs
      cases hunsettled k _ hk
  | clear k session hcall =>
    refine Ordered.of_clear hharmless ⟨rfl, rfl, rfl, rfl⟩ fun j a ha hstage => ?_
    obtain ⟨hj, ha⟩ := ha
    rcases PMap.insert_cases ha with ⟨rfl, rfl⟩ | ⟨-, hold⟩
    · exact ⟨_, ⟨hj, hcall⟩, rfl, .inr rfl, nofun⟩
    · exact ⟨a, ⟨hj, hold⟩, rfl, .inl hstage, fun hr => hr⟩
  | lock k session hcall hholder =>
    refine ⟨fun j a ha hstage e size hrecorded => ?_, (fun _ _ _ he => nomatch he),
      fun other hs x hx s hsub => ?_⟩
    · obtain ⟨hj, ha⟩ := ha
      rcases PMap.insert_cases ha with ⟨rfl, rfl⟩ | ⟨-, hold⟩
      · exact h.recorded j _ ⟨hj, hcall⟩ nofun e size hrecorded
      · exact h.recorded j a ⟨hj, hold⟩ hstage e size hrecorded
    · obtain ⟨j, hj, ha⟩ := hs
      rcases PMap.insert_cases ha with ⟨-, heq⟩ | ⟨-, hold⟩
      · cases heq
      · refine (h.order other ⟨j, hj, hold⟩ x hx s hsub).frame rfl rfl fun e he => ?_
        rcases he with hrecorded | ⟨_, hlocked⟩ | ⟨_, _, hdelivering, -⟩
        · exact .inl hrecorded
        · cases hlocked
        · cases hdelivering
  | purge k x rest s hholder hsub =>
    refine h.of_same rfl rfl rfl (fun _ _ _ hold => hold) nofun
      (fun other y e _ he => ?_) fun y hy t ht => ?_
    · rcases he with hrecorded | ⟨_, hlocked⟩ | ⟨_, _, hdelivering, -⟩
      · exact .inl hrecorded
      · cases hlocked
      · cases hdelivering
    · rcases PMap.insert_cases ht with ⟨-, rfl⟩ | ⟨-, hold⟩
      · exact .inl rfl
      · exact given_self hy hold
  | finish k a hholder hcall =>
    obtain ⟨session, hwalking⟩ := hisolated.walking k [] hholder
    refine ⟨fun j b hb hstage e size hrecorded => ?_, (fun _ _ _ he => nomatch he),
      fun other hs x hx s hsub => ?_⟩
    · obtain ⟨hj, hb⟩ := hb
      rcases PMap.insert_cases hb with ⟨rfl, rfl⟩ | ⟨-, hold⟩
      · refine h.recorded j a ⟨hj, hcall⟩ ?_ e size hrecorded
        cases hcall.symm.trans hwalking
        nofun
      · exact h.recorded j b ⟨hj, hold⟩ hstage e size hrecorded
    · exact inOrder_of_nil (hisolated.purged k [] hholder x hx List.not_mem_nil s hsub)

theorem Ordered.subStep (hsound : w.Sound) (hstep : SubStep w w') : w'.Ordered := by
  cases hstep with
  | subscribe s hholder hfresh =>
    refine h.of_answer ⟨rfl, rfl, rfl, rfl⟩ (fun _ _ _ hold => hold) fun x hx t ht => ?_
    rcases PMap.insert_cases ht with ⟨-, rfl⟩ | ⟨hne, hold⟩
    · exact .inl hfresh.2.2.2.2.1
    · exact given_self ((List.mem_append.1 hx).resolve_right fun hmem =>
        hne (List.mem_singleton.1 hmem)) hold
  | own x s s' r hsub hown =>
    refine h.of_answer ⟨rfl, rfl, rfl, rfl⟩ (fun _ _ _ hold => hold) fun y hy t ht => ?_
    rcases PMap.insert_cases ht with ⟨rfl, rfl⟩ | ⟨-, hold⟩
    · exact .inr ⟨hy, s, hsub, (Subscription.owner_frame hown).1⟩
    · exact given_self hy hold
  | unsubscribe x s hsub hholder hidle =>
    refine h.of_answer ⟨rfl, rfl, rfl, rfl⟩ (fun _ _ _ hold => hold) fun y hy t ht => ?_
    have hne := (hsound.nodup.mem_erase_iff).1 hy
    rcases PMap.insert_cases ht with ⟨rfl, -⟩ | ⟨-, hold⟩
    · exact absurd rfl hne.1
    · exact given_self hne.2 hold

theorem Ordered.closeStep (hsound : w.Sound) (hharmless : w.Harmless m) (hstep : CloseStep w m w') :
    w'.Ordered := by
  have hcoming (v : Hub) (other : String) (x : Nat) (e : Event) (he : v.Coming other x e)
      (haccepts : v.accepts = w.accepts)
      (hholder : v.holder = .nobody ∨ ∃ remaining, v.holder = .closing remaining) :
      w.Coming other x e := by
    rcases he with hrecorded | ⟨_, hlocked⟩ | ⟨_, _, hdelivering, -⟩
    · exact .inl (haccepts ▸ hrecorded)
    · rw [hlocked] at hholder
      rcases hholder with hholder | ⟨_, hholder⟩ <;> cases hholder
    · rw [hdelivering] at hholder
      rcases hholder with hholder | ⟨_, hholder⟩ <;> cases hholder
  cases hstep with
  | take hholder =>
    exact h.of_same rfl rfl rfl (fun _ _ _ hold => hold) nofun
      (fun _ _ _ hx => nomatch hx) fun _ hx => nomatch hx
  | next x rest s hholder hsub =>
    have hx : x ∉ w.table := hsound.emptied x (by rw [hholder]; exact List.mem_cons_self)
    refine h.of_same rfl rfl rfl (fun _ _ _ hold => hold) nofun
      (fun other y e _ he => hcoming _ other y e he rfl (.inr ⟨rest, rfl⟩)) fun y hy t ht => ?_
    rcases PMap.insert_cases ht with ⟨rfl, -⟩ | ⟨-, hold⟩
    · exact absurd hy hx
    · exact given_self hy hold
  | finish hholder =>
    exact h.of_same rfl rfl rfl (fun _ _ _ hold => hold) nofun
      (fun other y e _ he => hcoming _ other y e he rfl (.inl rfl))
      fun _ hx _ hs => given_self hx hs
  | clear n hclearing =>
    exact Ordered.of_clear hharmless ⟨rfl, rfl, rfl, rfl⟩ fun k a ha hstage =>
      ⟨a, ha, rfl, .inl hstage, fun hr => hr⟩
  | tighten limits =>
    exact h.of_answer ⟨rfl, rfl, rfl, rfl⟩ (fun _ _ _ hold => hold)
      fun _ hx _ hs => given_self hx hs

/-- **A harmless section keeps the order.** -/
theorem Ordered.next (hsound : w.Sound) (hisolated : w.Isolated) (hharmless : w.Harmless m)
    (hm : w.perform serialize m = some w') : w'.Ordered := by
  rcases perform_cases hm with hstep | hstep | hstep | hstep
  · exact h.acceptStep hsound hisolated hstep
  · exact h.activateStep hisolated hharmless hstep
  · exact h.subStep hsound hstep
  · exact h.closeStep hsound hharmless hstep

end

theorem ordered_new (maxEvents maxBytes : Nat) : (new maxEvents maxBytes).Ordered where
  recorded _ _ h := nomatch h.1
  accepting _ _ _ h := nomatch h
  order _ _ _ hx := nomatch hx

/-! ## Main results -/

/-- The runs of a hub, whose sections are all of one kind. -/
def Runs (serialize : Serializer) (Allowed : Hub → Move → Prop) (w : Hub) : Prop :=
  Reachable (fun w => ∃ maxEvents maxBytes, w = new maxEvents maxBytes)
    (fun w w' => ∃ m, Allowed w m ∧ w.perform serialize m = some w') w

variable {Allowed : Hub → Move → Prop}

theorem Runs.sound (h : w.Runs serialize Allowed) : w.Sound ∧ w.Isolated ∧ w.Sized serialize := by
  refine Reachable.invariant (I := fun w => w.Sound ∧ w.Isolated ∧ w.Sized serialize)
    (fun w hw => ?_) (fun w w' hw hstep => ?_) h
  · obtain ⟨maxEvents, maxBytes, rfl⟩ := hw
    exact ⟨sound_new _ _, isolated_new _ _, sized_new _ _⟩
  · obtain ⟨m, -, hm⟩ := hstep
    obtain ⟨hsound, hisolated, hsized⟩ := hw
    exact ⟨hsound.next hm, hisolated.next hsound hm, hsized.next hm⟩

theorem Runs.ordered (h : w.Runs serialize Harmless) : w.Ordered := by
  have hall : w.Sound ∧ w.Isolated ∧ w.Ordered := by
    refine Reachable.invariant (I := fun w => w.Sound ∧ w.Isolated ∧ w.Ordered) (fun w hw => ?_)
      (fun w w' hw hstep => ?_) h
    · obtain ⟨maxEvents, maxBytes, rfl⟩ := hw
      exact ⟨sound_new _ _, isolated_new _ _, ordered_new _ _⟩
    · obtain ⟨m, hharmless, hm⟩ := hstep
      obtain ⟨hsound, hisolated, hordered⟩ := hw
      exact ⟨hsound.next hm, hisolated.next hsound hm, hordered.next hsound hisolated hharmless hm⟩
  exact hall.2.2

/-- What a call of `recv` returns is the front of the queue, or that it overflowed. -/
theorem returned (hm : w.perform serialize m = some w') {r : Except RpcError (Option Event)}
    (hreturns : w'.returns = w.returns ++ [(x, r)]) :
    ∃ s, w.subs x = some s ∧ s.reader ≠ .removing ∧
      ((∃ e size rest, s.queue = (e, size) :: rest ∧ r = .ok (some e)) ∨
        (s.reader = .overflowed ∧ r = .error overflowErr) ∨ r = .ok none) := by
  have hsilent : w'.returns ≠ w.returns := by
    rw [hreturns]
    simp
  rcases perform_cases hm with hstep | hstep | hstep | hstep
  · cases hstep with
    | deliver session e size y rest s hholder hsub =>
      refine absurd ?_ hsilent
      unfold offer
      split
      · rfl
      · split <;> rfl
    | _ => exact absurd rfl hsilent
  · cases hstep <;> exact absurd rfl hsilent
  · cases hstep with
    | subscribe s hholder hfresh => exact absurd rfl hsilent
    | unsubscribe y s hsub hholder hidle => exact absurd rfl hsilent
    | own y s s' o hsub hown =>
      cases o with
      | none => exact absurd (List.append_nil _) hsilent
      | some o =>
        have heq : (y, o) = (x, r) := by
          simpa using List.append_cancel_left hreturns
        cases heq
        refine ⟨s, hsub, ?_⟩
        cases hown with
        | terminate hreader =>
          exact ⟨by rw [hreader]; nofun, .inr (.inl ⟨hreader, rfl⟩)⟩
        | pop e size rest hreader hqueue =>
          exact ⟨by rw [hreader]; nofun, .inl ⟨e, size, rest, hqueue, rfl⟩⟩
        | ended hreader hclosed => exact ⟨by rw [hreader]; nofun, .inr (.inr rfl)⟩
  · cases hstep <;> exact absurd rfl hsilent

/-- A subscription is terminated for an event that does not fit. -/
theorem terminated (hm : w.perform serialize m = some w') (hs : w.subs x = some s)
    (hs' : w'.subs x = some s') (hbefore : s.overflow = false) (hafter : s'.overflow = true) :
    ∃ session e size rest, w.holder = .delivering session e size (x :: rest) ∧
      s.wants e = true ∧ w.full s size = true := by
  have hinsert {v : Hub} {y : Nat} {t : Subscription} (hv : v.subs x = some s')
      (h : v.subs = w.subs.insert y t)
      (hflag : t.overflow = true → ∃ r, w.subs y = some r ∧ r.overflow = true) : False := by
    rw [h] at hv
    rcases PMap.insert_cases hv with ⟨rfl, rfl⟩ | ⟨-, hold⟩
    · obtain ⟨r, hr, hflag⟩ := hflag hafter
      cases hs.symm.trans hr
      exact nomatch hbefore.symm.trans hflag
    · cases hs.symm.trans hold
      exact nomatch hbefore.symm.trans hafter
  have hsame (hold : w.subs x = some s') : False := by
    cases hs.symm.trans hold
    exact nomatch hbefore.symm.trans hafter
  rcases perform_cases hm with hstep | hstep | hstep | hstep
  · cases hstep with
    | deliver session e size y rest t hholder hsub =>
      unfold offer at hs'
      by_cases hwants : t.wants e = false
      · rw [if_pos hwants] at hs'
        exact (hsame hs').elim
      rw [if_neg hwants] at hs'
      by_cases hfull : w.full t size = true
      · rw [if_pos hfull] at hs'
        rcases PMap.insert_cases hs' with ⟨rfl, -⟩ | ⟨-, hold⟩
        · cases hs.symm.trans hsub
          exact ⟨session, e, size, rest, hholder, (Bool.not_eq_false _).mp hwants, hfull⟩
        · exact (hsame hold).elim
      · rw [if_neg hfull] at hs'
        exact (hinsert hs' rfl fun hflag => ⟨t, hsub, hflag⟩).elim
    | _ => exact (hsame hs').elim
  · cases hstep with
    | purge k y rest t hholder hsub =>
      exact (hinsert hs' rfl fun hflag => ⟨t, hsub, hflag⟩).elim
    | _ => exact (hsame hs').elim
  · cases hstep with
    | subscribe t hholder hfresh =>
      exact (hinsert hs' rfl fun hflag => nomatch hfresh.2.2.1.symm.trans hflag).elim
    | own y t t' r hsub hown =>
      refine (hinsert hs' rfl fun hflag => ⟨t, hsub, ?_⟩).elim
      cases hown <;> exact hflag
    | unsubscribe y t hsub hholder hidle =>
      exact (hinsert hs' rfl fun hflag => ⟨t, hsub, hflag⟩).elim
  · cases hstep with
    | next y rest t hholder hsub =>
      exact (hinsert hs' rfl fun hflag => ⟨t, hsub, hflag⟩).elim
    | _ => exact (hsame hs').elim

/-- A subscription that has left the table is given nothing any more. -/
theorem given_of_not_mem (h : w.Sound) (hm : w.perform serialize m = some w') (hx : x ∉ w.table)
    (hs : w.subs x = some s) (hs' : w'.subs x = some s') : s'.given = s.given := by
  have hsame (hold : w.subs x = some s') : s'.given = s.given := by
    cases hs.symm.trans hold
    rfl
  have hinsert {v : Hub} {y : Nat} {t : Subscription} (hv : v.subs x = some s')
      (hsubs : v.subs = w.subs.insert y t)
      (hgiven : x = y → t.given = s.given) : s'.given = s.given := by
    rw [hsubs] at hv
    rcases PMap.insert_cases hv with ⟨heq, rfl⟩ | ⟨-, hold⟩
    · exact hgiven heq
    · exact hsame hold
  rcases perform_cases hm with hstep | hstep | hstep | hstep
  · cases hstep with
    | deliver session e size y rest t hholder hsub =>
      have hy : y ∈ w.table := h.walk.1 y (by rw [hholder]; exact List.mem_cons_self)
      have hne : x ≠ y := fun heq => hx (heq ▸ hy)
      unfold offer at hs'
      by_cases hwants : t.wants e = false
      · rw [if_pos hwants] at hs'
        exact hsame hs'
      rw [if_neg hwants] at hs'
      by_cases hfull : w.full t size = true
      · rw [if_pos hfull] at hs'
        exact hinsert hs' rfl fun heq => absurd heq hne
      · rw [if_neg hfull] at hs'
        exact hinsert hs' rfl fun heq => absurd heq hne
    | _ => exact hsame hs'
  · cases hstep with
    | purge k y rest t hholder hsub =>
      have hy : y ∈ w.table := h.walk.1 y (by rw [hholder]; exact List.mem_cons_self)
      exact hinsert hs' rfl fun heq => absurd (heq ▸ hy) hx
    | _ => exact hsame hs'
  · cases hstep with
    | subscribe t hholder hfresh =>
      exact hinsert hs' rfl fun heq => absurd heq (Nat.ne_of_lt (h.fresh x s hs))
    | own y t t' r hsub hown =>
      refine hinsert hs' rfl fun heq => ?_
      subst heq
      cases hs.symm.trans hsub
      exact (Subscription.owner_frame hown).1
    | unsubscribe y t hsub hholder hidle =>
      refine hinsert hs' rfl fun heq => ?_
      subst heq
      cases hs.symm.trans hsub
      rfl
  · cases hstep with
    | next y rest t hholder hsub =>
      refine hinsert hs' rfl fun heq => ?_
      subst heq
      cases hs.symm.trans hsub
      rfl
    | _ => exact hsame hs'

/-- **Delivery is isolated, ordered and exactly once**, as long as no number that still matters
is forgotten: in a settled hub `recv` returns events of the active session only; a subscription
in the table was given exactly the accepted events that it wants, in the order of their
numbers, of which it has taken the first and the others are in its queue; the byte counters are
right, and a subscription overflows only when an event really does not fit. -/
theorem delivered_in_order (h : w.Runs serialize Harmless) :
    (∀ session, w.Settled session → ∀ m w' x e, w.perform serialize m = some w' →
      w'.returns = w.returns ++ [(x, .ok (some e))] → e.session = session) ∧
    (∀ x ∈ w.table, ∃ s, w.subs x = some s ∧ s.taken ++ s.queued = s.given ∧ w.Exact x s ∧
      ∀ session, w.Settled session → (∀ e ∈ s.given, e.session = session) ∧
        s.given.Pairwise fun e e' => e.sequence < e'.sequence) ∧
    (∀ x s, w.subs x = some s → s.taken ++ s.queued <+: s.given ∧
      s.bytes = (s.queue.map Prod.snd).sum ∧
      (∀ p ∈ s.queue, Measures serialize p.1 p.2 ∧ p.2 ≤ s.bytes) ∧
      (x ∉ w.table → ∀ m w' s', w.perform serialize m = some w' → w'.subs x = some s' →
        s'.given = s.given)) ∧
    (∀ m w' x s s', w.perform serialize m = some w' → w.subs x = some s → w'.subs x = some s' →
      s.overflow = false → s'.overflow = true → ∃ session e size rest,
        w.holder = .delivering session e size (x :: rest) ∧ s.wants e = true ∧
        Measures serialize e size ∧ (min s.capacity w.maxEvents ≤ s.queue.length ∨
          w.maxBytes < (s.queue.map Prod.snd).sum + size)) ∧
    (∀ m w' x e, w.perform serialize m = some w' →
      w'.returns = w.returns ++ [(x, .error e)] → e = overflowErr ∧
        ∃ s, w.subs x = some s ∧ s.overflow = true) := by
  obtain ⟨hsound, hisolated, hsized⟩ := h.sound
  have hordered := h.ordered
  refine ⟨fun session hsettled m w' x e hm hreturns => ?_, fun x hx => ?_, fun x s hs => ?_,
    fun m w' x s s' hm hs hs' hbefore hafter => ?_, fun m w' x e hm hreturns => ?_⟩
  · obtain ⟨s, hs, hreader, hcase⟩ := returned hm hreturns
    rcases hcase with ⟨e', size, rest, hqueue, heq⟩ | ⟨-, heq⟩ | heq
    · cases heq
      exact hisolated.queues session hsettled x s hs hreader (e, size)
        (hqueue ▸ List.mem_cons_self)
    · cases heq
    · cases heq
  · obtain ⟨s, hs, hlive, hexact⟩ := hsound.listed x hx
    exact ⟨s, hs, hlive.exact, hexact, fun session hsettled =>
      ⟨hisolated.given session hsettled x hx s hs,
        (hordered.order session hsettled x hx s hs).sorted⟩⟩
  · obtain ⟨hbytes, hfollows, -⟩ := hsound.counted x s hs
    refine ⟨hfollows, hbytes, fun p hp => ?_, fun hx m w' s' hm hs' =>
      given_of_not_mem hsound hm hx hs hs'⟩
    refine ⟨hsized.queued x s hs p hp, ?_⟩
    rw [hbytes]
    exact List.single_le_sum (fun _ _ => Nat.zero_le _) _ (List.mem_map_of_mem hp)
  · obtain ⟨session, e, size, rest, hholder, hwants, hfull⟩ := terminated hm hs hs' hbefore hafter
    refine ⟨session, e, size, rest, hholder, hwants,
      hsized.holder e size (by rw [hholder]; rfl), ?_⟩
    rw [← (hsound.counted x s hs).bytes]
    simpa only [full, Bool.or_eq_true, decide_eq_true_eq] using hfull
  · obtain ⟨s, hs, -, hcase⟩ := returned hm hreturns
    rcases hcase with ⟨_, _, _, -, heq⟩ | ⟨hreader, heq⟩ | heq
    · cases heq
    · cases heq
      exact ⟨rfl, s, hs, (hsound.counted x s hs).reader hreader⟩
    · cases heq

/-! ## Two runs -/

theorem runs_performAll {moves : List Move} (h : w.Runs serialize Allowed)
    (hallowed : ∀ m ∈ moves, ∀ v, Allowed v m) (hall : w.performAll serialize moves = some w') :
    w'.Runs serialize Allowed :=
  h.steps (steps_of_all hall (fun _ => rfl) (fun _ _ _ => rfl)
    fun m hm _ _ h => ⟨m, hallowed m hm _, h⟩)

/-- An interface with one event. -/
def counter : Contract where
  id := "example.counter"
  version := "1.0.0"
  events := ["changed"]
  event name _ :=
    if name = "changed" then .ok () else .error ⟨"INVALID_ARGUMENT", "undeclared event"⟩

/-- What a session has negotiated. -/
def counters : String → Option Contract := fun id => if id = counter.id then some counter else none

/-- An event of session `s`. -/
def changed (sequence : String) : Json :=
  .object [("interface", .string "example.counter"), ("version", .string "1.0.0"),
    ("event", .string "changed"), ("sessionId", .string "s"), ("sequence", .string sequence),
    ("payload", .object [("count", .string "1")])]

/-- A whole activation of session `s`, with one subscription in the table. -/
def activation (k : Nat) : List Move :=
  [.activate "s", .clear k, .startPurge k, .purge, .purge]

/-- `accept`, up to the check of the number, and from there. -/
def checking (sequence : String) : List Move :=
  [.accept "s" counters (changed sequence), .validate "s", .record "s"]

def delivery : List Move := [.lock "s", .recheck, .deliver, .deliver]

/-- The session is activated again while its second event is past the check, and then an event
comes whose number is lower. -/
def reactivated : List Move :=
  [.subscribe counter "changed" 8] ++ activation 0 ++ checking "2" ++ activation 1 ++ delivery ++
    checking "1" ++ delivery ++ [.recv 1, .pop 1, .recv 1, .pop 1]

/-- The numbers that subscription 1 has received. -/
def received (w : Hub) : List Nat :=
  ((w.subs 1).map fun s => s.taken.map Event.sequence).getD []

/-- Is the session active, and its activation over? -/
def settled (w : Hub) (session : String) : Bool :=
  decide (w.current.bind w.activations = some ⟨session, .returned⟩)

theorem settled_iff : w.settled session = true ↔ w.Settled session := by
  simp only [settled, decide_eq_true_eq, Option.bind_eq_some_iff, Settled, Latest]

/-- A number that was checked is forgotten. -/
theorem number_forgotten : ¬ ∀ (serialize : Serializer) (w : Hub),
    w.Runs serialize (fun _ _ => True) → ∀ session, w.Settled session → ∀ x ∈ w.table, ∀ s,
      w.subs x = some s → s.taken.Pairwise fun e e' => e.sequence < e'.sequence := by
  intro h
  have hrun : ((new 256 16777216).performAll compactValue reactivated).any (fun w =>
      w.table == [1] && w.settled "s" && w.received == [2, 1]) = true := by
    decide +kernel
  obtain ⟨w, hw, hfound⟩ := (Option.any_eq_true _ _).1 hrun
  simp only [Bool.and_eq_true, beq_iff_eq, settled_iff] at hfound
  obtain ⟨⟨htable, hsettled⟩, hreceived⟩ := hfound
  have hruns : w.Runs compactValue (fun _ _ => True) :=
    runs_performAll (.start ⟨256, 16777216, rfl⟩) (fun _ _ _ => trivial) hw
  cases hs : w.subs 1 with
  | none =>
    rw [received, hs] at hreceived
    cases hreceived
  | some s =>
    have horder := h compactValue w hruns "s" hsettled 1 (by rw [htable]; decide) s hs
    have hnumbers : s.taken.map Event.sequence = [2, 1] := by
      rw [received, hs] at hreceived
      exact hreceived
    have hpairs : (s.taken.map Event.sequence).Pairwise (· < ·) := List.pairwise_map.2 horder
    rw [hnumbers] at hpairs
    revert hpairs
    decide

/-- The rest of an activation, and two events. -/
def delivered : List Move :=
  [.startPurge 0, .purge, .subscribe counter "changed" 8] ++ checking "1" ++ delivery ++
    checking "2" ++ delivery ++ [.recv 1, .pop 1, .recv 1, .pop 1]

theorem delivered_in_order_twice : ∃ w : Hub, w.Settled "s" ∧ w.received = [1, 2] ∧
    ∀ x ∈ w.table, ∃ s, w.subs x = some s ∧
      s.given.Pairwise fun e e' => e.sequence < e'.sequence := by
  have hfirst : ∃ v, (new 256 16777216).perform compactValue (.activate "s") = some v ∧
      v.accepts = PMap.empty ∧ v.current = some 0 ∧
        v.activations 0 = some ⟨"s", .written⟩ := ⟨_, rfl, rfl, rfl, rfl⟩
  obtain ⟨v, hv, haccepts, hcurrent, hactivation⟩ := hfirst
  have hruns : v.Runs compactValue Harmless :=
    Reachable.next (.start ⟨256, 16777216, rfl⟩) ⟨.activate "s", trivial, hv⟩
  have hquiet : v.Harmless (.clear 0) := by
    intro k a ha _
    obtain ⟨hk, ha⟩ := ha
    cases hcurrent.symm.trans hk
    cases hactivation.symm.trans ha
    refine ⟨fun e size hcall => ?_, nofun⟩
    rw [haccepts] at hcall
    cases hcall
  have hrun : ((new 256 16777216).performAll compactValue
      (.activate "s" :: .clear 0 :: delivered)).any (fun w =>
        w.settled "s" && w.received == [1, 2]) = true := by
    decide +kernel
  obtain ⟨w, hw, hfound⟩ := (Option.any_eq_true _ _).1 hrun
  simp only [Bool.and_eq_true, beq_iff_eq, settled_iff] at hfound
  rw [performAll, hv, Option.bind_some] at hw
  obtain ⟨next, hnext, hrest⟩ := Option.bind_eq_some_iff.1 hw
  have hcleared : next.Runs compactValue Harmless := hruns.next ⟨.clear 0, hquiet, hnext⟩
  have hall : w.Runs compactValue Harmless := by
    refine runs_performAll hcleared (fun m hm v => ?_) hrest
    cases m with
    | clear k | closeClear => simp [delivered, checking, delivery] at hm
    | _ => trivial
  refine ⟨w, hfound.1, hfound.2, fun x hx => ?_⟩
  obtain ⟨s, hs, -, -, horder⟩ := (delivered_in_order hall).2.1 x hx
  exact ⟨s, hs, (horder "s" hfound.1).2⟩

end Hub

end NapiVm.Plugin
