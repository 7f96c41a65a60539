import NapiVm.Plugin.EventHub

/-!
# What is in the queues

The invariant of a hub that holds in every run: the byte counters, who is in the table,
and that a subscription in the table has been given exactly the accepted events it asked
for, in order, of which it has taken some and the others are in its queue.

* `Hub.Sound.next` — every section keeps it.
-/

namespace NapiVm.Plugin

open Host Rpc List

namespace Subscription

/-- The events in the queue. -/
def queued (s : Subscription) : List Event := s.queue.map Prod.fst

/-- The counter is the sum of the sizes, and what was taken was given, in order. -/
structure Counted (s : Subscription) : Prop where
  bytes : s.bytes = (s.queue.map Prod.snd).sum
  follows : s.taken ++ s.queued <+: s.given
  reader : s.reader = .overflowed → s.overflow = true

/-- A subscription in the table: nothing it was given is lost. -/
structure Live (s : Subscription) : Prop where
  exact : s.taken ++ s.queued = s.given
  overflow : s.overflow = false
  reader : s.reader ≠ .overflowed ∧ s.reader ≠ .removing

variable {s s' : Subscription} {r : Option (Except RpcError (Option Event))}

theorem Counted.clear (h : s.Counted) {reader : Reader} {overflow : Bool} (closed : Bool)
    (hreader : reader = .overflowed → overflow = true) :
    ({ s with queue := [], bytes := 0, reader := reader, overflow := overflow,
              closed := closed } : Subscription).Counted where
  bytes := rfl
  follows := by
    simp only [queued, map_nil, append_nil]
    exact List.IsPrefix.trans (prefix_append _ _) h.follows
  reader := hreader

theorem Counted.owner (h : s.Counted) (hstep : Hub.OwnerStep s s' r) : s'.Counted := by
  cases hstep with
  | recv hidle =>
    refine ⟨h.bytes, h.follows, fun hreader => ?_⟩
    by_contra hne
    simp only [hne, if_false] at hreader
    cases hreader
  | terminate hreader => exact h.clear s.closed nofun
  | nothing hreader hqueue | ended hreader hclosed | wait hreader => exact ⟨h.bytes, h.follows, nofun⟩
  | pop e size rest hreader hqueue =>
    refine ⟨?_, ?_, nofun⟩
    · have hbytes := h.bytes
      simp only [hqueue, map_cons, sum_cons] at hbytes ⊢
      omega
    · have hfollows := h.follows
      simpa only [queued, hqueue, map_cons, append_assoc, cons_append, nil_append] using hfollows
  | drain hreader => exact h.clear s.closed nofun

theorem Live.owner (h : s.Live) (hstep : Hub.OwnerStep s s' r) : s'.Live := by
  cases hstep with
  | recv hidle =>
    refine ⟨h.exact, h.overflow, ?_⟩
    simp only [h.overflow, Bool.false_eq_true, if_false]
    exact ⟨nofun, nofun⟩
  | terminate hreader => exact absurd hreader h.reader.1
  | nothing hreader hqueue | ended hreader hclosed | wait hreader => exact ⟨h.exact, h.overflow, nofun, nofun⟩
  | pop e size rest hreader hqueue =>
    refine ⟨?_, h.overflow, nofun, nofun⟩
    have hexact := h.exact
    simpa only [queued, hqueue, map_cons, append_assoc, cons_append, nil_append] using hexact
  | drain hreader => exact absurd hreader h.reader.2

/-- What an owner's section leaves alone. -/
theorem owner_frame (hstep : Hub.OwnerStep s s' r) :
    s'.given = s.given ∧ s'.since = s.since ∧ s'.wants = s.wants ∧
      (s.queue = [] ∨ s.reader = .removing → s'.queue = []) ∧
      (∀ p ∈ s'.queue, p ∈ s.queue) := by
  cases hstep with
  | recv hidle =>
    refine ⟨rfl, rfl, rfl, fun h => h.resolve_right ?_, fun p hp => hp⟩
    rw [hidle]
    nofun
  | terminate hreader | drain hreader => exact ⟨rfl, rfl, rfl, fun _ => rfl, nofun⟩
  | nothing hreader hqueue => exact ⟨rfl, rfl, rfl, fun _ => hqueue, fun p hp => hp⟩
  | pop e size rest hreader hqueue =>
    refine ⟨rfl, rfl, rfl, fun h => ?_, fun p hp => hqueue ▸ mem_cons_of_mem _ hp⟩
    rw [hqueue, hreader] at h
    rcases h with h | h <;> cases h
  | ended hreader hclosed | wait hreader =>
    refine ⟨rfl, rfl, rfl, fun h => h.resolve_right ?_, fun p hp => hp⟩
    rw [hreader]
    nofun

end Subscription

namespace Holder

/-- What a walk of `retain` still has to give to a subscription. -/
def owed (h : Holder) (x : Nat) (s : Subscription) : List Event :=
  match h with
  | delivering _ e _ remaining => if x ∈ remaining ∧ s.wants e = true then [e] else []
  | _ => []

/-- The subscribers to come in a walk over the table. -/
def remaining : Holder → List Nat
  | delivering _ _ _ remaining => remaining
  | purging _ remaining => remaining
  | _ => []

/-- The event of a call of `accept` that has locked the table. -/
def accepting : Holder → Option (String × Event)
  | locked session e _ => some (session, e)
  | delivering session e _ _ => some (session, e)
  | _ => none

/-- Its event, with the size of its text. -/
def sized : Holder → Option (Event × Nat)
  | locked _ e size => some (e, size)
  | delivering _ e size _ => some (e, size)
  | _ => none

/-- The subscribers that `close` has taken and not yet cleared. -/
def closed : Holder → List Nat
  | closing remaining => remaining
  | _ => []

end Holder

/-- The event of a call of `accept`, once its number is read. -/
def AcceptStage.event : AcceptStage → Option Event
  | numbered e => some e
  | recorded e _ => some e
  | _ => none

namespace Hub

variable {serialize : Serializer} {w w' : Hub}

/-- A subscription has been given the accepted events it wants, but for one that is on its
way to it. -/
def Exact (w : Hub) (x : Nat) (s : Subscription) : Prop :=
  s.since ≤ w.accepted.length ∧
    s.given ++ w.holder.owed x s = (w.accepted.drop s.since).filter s.wants

/-- The invariant of a hub. -/
structure Sound (w : Hub) : Prop where
  nodup : w.table.Nodup
  fresh : ∀ x s, w.subs x = some s → x < w.next
  listed : ∀ x ∈ w.table, ∃ s, w.subs x = some s ∧ s.Live ∧ w.Exact x s
  counted : ∀ x s, w.subs x = some s → s.Counted
  gone : ∀ x s, w.subs x = some s → x ∉ w.table →
    s.queue = [] ∨ s.reader = .removing ∨ x ∈ w.holder.closed
  walk : (∀ x ∈ w.holder.remaining, x ∈ w.table) ∧ w.holder.remaining.Nodup
  emptied : ∀ x ∈ w.holder.closed, x ∉ w.table
  accepting : ∀ session e, w.holder.accepting = some (session, e) →
    w.accepts session = some .walking ∧ e.session = session
  session : ∀ session stage e, w.accepts session = some stage → stage.event = some e →
    e.session = session

variable {x : Nat} {s s' : Subscription} {session other : String} {stage : AcceptStage} {m : Move}

section

variable (h : w.Sound)

include h

theorem Sound.exact (hx : x ∈ w.table) (hs : w.subs x = some s) : s.Live ∧ w.Exact x s := by
  obtain ⟨s', hs', hlive, hexact⟩ := h.listed x hx
  cases hs.symm.trans hs'
  exact ⟨hlive, hexact⟩

section

variable (hsame : w'.table = w.table ∧ w'.subs = w.subs ∧ w'.next = w.next ∧ w'.accepted =
  w.accepted)

include hsame

/-- A section that leaves the table, the subscriptions and the accepted events alone. -/
theorem Sound.of_holder (howed : ∀ x s, w'.holder.owed x s = w.holder.owed x s)
    (hclosed : w'.holder.closed = w.holder.closed)
    (hwalk : (∀ x ∈ w'.holder.remaining, x ∈ w.table) ∧ w'.holder.remaining.Nodup)
    (haccepting : ∀ session e, w'.holder.accepting = some (session, e) →
      w'.accepts session = some .walking ∧ e.session = session)
    (hsession : ∀ session stage e, w'.accepts session = some stage → stage.event = some e →
      e.session = session) :
    w'.Sound := by
  obtain ⟨htable, hsubs, hnext, haccepted⟩ := hsame
  obtain ⟨hnodup, hfresh, hlisted, hcounted, hgone, -, hemptied, -, -⟩ := h
  refine ⟨?_, ?_, ?_, ?_, ?_, ?_, ?_, haccepting, hsession⟩
  · rwa [htable]
  · rwa [hsubs, hnext]
  · simpa only [Exact, htable, hsubs, howed, haccepted] using hlisted
  · rwa [hsubs]
  · rwa [hsubs, htable, hclosed]
  · rwa [htable]
  · rwa [hclosed, htable]

/-- A section that only moves calls along. -/
theorem Sound.of_calls (hholder : w'.holder = w.holder)
    (haccepting : ∀ session e, w.holder.accepting = some (session, e) →
      w'.accepts session = some .walking)
    (hsession : ∀ session stage e, w'.accepts session = some stage → stage.event = some e →
      e.session = session) :
    w'.Sound := by
  refine h.of_holder hsame (fun x s => by rw [hholder]) (by rw [hholder]) (hholder ▸ h.walk)
    (fun session e haccepts => ?_) hsession
  rw [hholder] at haccepts
  exact ⟨haccepting session e haccepts, (h.accepting session e haccepts).2⟩

end

section

variable (hcall : w.accepts session ≠ some .walking)

include hcall

/-- A call that has not locked the table. -/
theorem Sound.not_accepting {e : Event} (haccepts : w.holder.accepting = some (other, e)) :
    other ≠ session := by
  rintro rfl
  exact hcall (h.accepting other e haccepts).1

theorem Sound.answer (r : Except RpcError Unit) : (w.answer session r).Sound := by
  refine h.of_calls ⟨rfl, rfl, rfl, rfl⟩ rfl (fun other e haccepts => ?_)
    fun other stage e hstage => h.session other stage e ((PMap.of_erase hstage).2)
  exact (PMap.erase_of_ne (h.not_accepting hcall haccepts)).trans (h.accepting other e haccepts).1

theorem Sound.setAccept (hevent : ∀ e, stage.event = some e → e.session = session) :
    (w.setAccept session stage).Sound := by
  refine h.of_calls ⟨rfl, rfl, rfl, rfl⟩ rfl (fun other e haccepts => ?_)
    fun other stage' e hstage he => ?_
  · exact (PMap.insert_of_ne (h.not_accepting hcall haccepts)).trans
      (h.accepting other e haccepts).1
  · rcases PMap.insert_cases hstage with ⟨rfl, rfl⟩ | ⟨-, hold⟩
    · exact hevent e he
    · exact h.session other stage' e hold he

end

theorem Sound.setLast (last : PMap String Nat) : ({ w with last := last }).Sound :=
  h.of_calls ⟨rfl, rfl, rfl, rfl⟩ rfl (fun other e haccepts => (h.accepting other e haccepts).1)
    h.session

end

/-- The session of an event is the one that `accept` was called with. -/
theorem session_readEvent {contracts : String → Option Contract} {value : Json} {e : Event}
    (h : readEvent session contracts value = .ok e) : e.session = session := by
  unfold readEvent at h
  dsimp only at h
  split at h
  · cases h
  · split at h
    · cases h
    · split at h
      · cases h
      · split at h
        · cases h
        · cases h
          rfl

/-! ## Changing one subscription -/

/-- A section that changes one subscription, which may leave the table, and maybe the holder. -/
theorem Sound.of_change (h : w.Sound) (hsub : w.subs x = some s)
    (hsame : w'.next = w.next ∧ w'.accepted = w.accepted ∧ w'.accepts = w.accepts)
    (hnodup : w'.table.Nodup) (hmem : ∀ y ∈ w'.table, y ∈ w.table)
    (hkept : ∀ y, y ≠ x → y ∈ w.table → y ∈ w'.table) (hsubs : w'.subs = w.subs.insert x s')
    (hcounted : s'.Counted) (hlive : x ∈ w'.table → s'.Live ∧ w'.Exact x s')
    (hgone : x ∉ w'.table → s'.queue = [] ∨ s'.reader = .removing ∨ x ∈ w'.holder.closed)
    (howed : ∀ y s, y ≠ x → w'.holder.owed y s = w.holder.owed y s)
    (hclosed : ∀ y, y ≠ x → y ∈ w.holder.closed → y ∈ w'.holder.closed)
    (hemptied : ∀ y ∈ w'.holder.closed, y ∉ w'.table)
    (hwalk : (∀ y ∈ w'.holder.remaining, y ∈ w'.table) ∧ w'.holder.remaining.Nodup)
    (haccepting : w'.holder.accepting = w.holder.accepting) : w'.Sound := by
  obtain ⟨hnext, haccepted, haccepts⟩ := hsame
  refine ⟨hnodup, fun y t ht => ?_, fun y hy => ?_, fun y t ht => ?_, fun y t ht hy => ?_, hwalk,
    hemptied, fun session e hsession => ?_, haccepts ▸ h.session⟩
  · rw [hsubs] at ht
    rw [hnext]
    rcases PMap.insert_cases ht with ⟨rfl, rfl⟩ | ⟨-, hold⟩
    · exact h.fresh y s hsub
    · exact h.fresh y t hold
  · rw [hsubs]
    by_cases hyx : y = x
    · subst hyx
      exact ⟨s', PMap.insert_self, hlive hy⟩
    · obtain ⟨t, ht, htlive, hsince, htexact⟩ := h.listed y (hmem y hy)
      refine ⟨t, (PMap.insert_of_ne hyx).trans ht, htlive, haccepted ▸ hsince, ?_⟩
      rw [howed y t hyx, haccepted]
      exact htexact
  · rw [hsubs] at ht
    rcases PMap.insert_cases ht with ⟨-, rfl⟩ | ⟨-, hold⟩
    · exact hcounted
    · exact h.counted y t hold
  · rw [hsubs] at ht
    rcases PMap.insert_cases ht with ⟨rfl, rfl⟩ | ⟨hyx, hold⟩
    · exact hgone hy
    · have hout : y ∉ w.table := fun hin => hy (hkept y hyx hin)
      exact (h.gone y t hold hout).imp_right (Or.imp_right (hclosed y hyx))
  · rw [haccepting] at hsession
    rw [haccepts]
    exact h.accepting session e hsession

/-- A subscription leaves the table. -/
theorem Sound.of_erase (h : w.Sound) (hsub : w.subs x = some s)
    (hsame : w'.next = w.next ∧ w'.accepted = w.accepted ∧ w'.accepts = w.accepts)
    (htable : w'.table = w.table.erase x) (hsubs : w'.subs = w.subs.insert x s')
    (hcounted : s'.Counted) (hgone : s'.queue = [] ∨ s'.reader = .removing)
    (howed : ∀ y s, y ≠ x → w'.holder.owed y s = w.holder.owed y s)
    (hclosed : w'.holder.closed = w.holder.closed)
    (hwalk : (∀ y ∈ w'.holder.remaining, y ∈ w.table ∧ y ≠ x) ∧ w'.holder.remaining.Nodup)
    (haccepting : w'.holder.accepting = w.holder.accepting) : w'.Sound := by
  have hmem : ∀ y, y ∈ w'.table ↔ y ≠ x ∧ y ∈ w.table := fun y => by
    rw [htable, h.nodup.mem_erase_iff]
  refine h.of_change hsub hsame (htable ▸ h.nodup.erase x) (fun y hy => ((hmem y).1 hy).2)
    (fun y hyx hy => (hmem y).2 ⟨hyx, hy⟩) hsubs hcounted
    (fun hx => absurd rfl ((hmem x).1 hx).1) (fun _ => hgone.imp_right .inl) howed
    (fun y _ hy => hclosed ▸ hy) (fun y hy hin => ?_)
    ⟨fun y hy => (hmem y).2 (hwalk.1 y hy).symm, hwalk.2⟩ haccepting
  rw [hclosed] at hy
  exact h.emptied y hy ((hmem y).1 hin).2

/-! ## The sections -/

theorem Sound.acceptStep (h : w.Sound) (hstep : AcceptStep serialize w w') : w'.Sound := by
  cases hstep with
  | refuse session e hfree => exact h.answer (by rw [hfree]; nofun) _
  | enter session contracts value hfree => exact h.setAccept (by rw [hfree]; nofun) nofun
  | invalid session contracts value e hcall | disorder session e hcall hlast => exact h.answer (by rw [hcall]; nofun) _
  | number session contracts value e hcall hread =>
    refine h.setAccept (by rw [hcall]; nofun) fun e' he => ?_
    cases he
    exact session_readEvent hread
  | unsized session e err hcall hlast =>
    exact (h.setLast _).answer (by rw [hcall]; nofun) _
  | record session e data hcall hlast hsize =>
    refine (h.setLast _).setAccept (by rw [hcall]; nofun) fun e' he => ?_
    cases he
    exact h.session session _ e hcall rfl
  | lock session e size hcall hholder =>
    have hset : (w.setAccept session .walking).Sound :=
      h.setAccept (by rw [hcall]; nofun) nofun
    refine hset.of_holder ⟨rfl, rfl, rfl, rfl⟩ (fun x s => ?_) ?_ ⟨nofun, nodup_nil⟩
      (fun other e' haccepts => ?_) hset.session
    · rw [show (w.setAccept session .walking).holder = .nobody from hholder]
      rfl
    · rw [show (w.setAccept session .walking).holder = .nobody from hholder]
      rfl
    · cases haccepts
      exact ⟨PMap.insert_self, h.session session _ e hcall rfl⟩
  | stale session e size hholder hactive =>
    refine h.of_holder ⟨rfl, rfl, rfl, rfl⟩ (fun x s => by rw [hholder]; rfl)
      (by rw [hholder]; rfl) ⟨nofun, nodup_nil⟩ nofun
      fun other stage e' hstage => h.session other stage e' ((PMap.of_erase hstage).2)
  | recheck session e size hholder hactive =>
    obtain ⟨hnodup, hfresh, hlisted, hcounted, hgone, -, hemptied, hacc, hsession⟩ := h
    rw [hholder] at hgone hemptied hacc
    refine ⟨hnodup, hfresh, fun x hx => ?_, hcounted, hgone, ⟨fun x hx => hx, hnodup⟩,
      hemptied, fun other e' haccepts => hacc other e' haccepts, hsession⟩
    obtain ⟨s, hs, hlive, hsince, hexact⟩ := hlisted x hx
    refine ⟨s, hs, hlive, ?_, ?_⟩
    · rw [length_append]
      exact Nat.le_add_right_of_le hsince
    · rw [hholder] at hexact
      simp only [Holder.owed, append_nil] at hexact
      rw [drop_append_of_le_length hsince, filter_append, ← hexact]
      simp only [Holder.owed, hx, true_and, filter_cons, filter_nil]
  | deliver session e size x rest s hholder hsub =>
    have hwalk := h.walk
    rw [hholder] at hwalk
    have hx : x ∈ w.table := hwalk.1 x mem_cons_self
    have hnotin : x ∉ rest := (nodup_cons.1 hwalk.2).1
    have hrest : ∀ y ∈ rest, y ∈ w.table := fun y hy => hwalk.1 y (mem_cons_of_mem _ hy)
    have howed (y : Nat) (t : Subscription) (hyx : y ≠ x) :
        (Holder.delivering session e size rest).owed y t = w.holder.owed y t := by
      rw [hholder]
      simp only [Holder.owed, mem_cons, hyx, false_or]
    obtain ⟨hlive, hsince, hexact⟩ := h.exact hx hsub
    have hnone (t : Subscription) : (Holder.delivering session e size rest).owed x t = [] := by
      simp only [Holder.owed, hnotin, false_and, if_false]
    have hclosed (y : Nat) (hy : y ∈ w.holder.closed) : y ∈ ([] : List Nat) := by
      rw [hholder] at hy
      exact hy
    rw [hholder] at hexact
    unfold offer
    by_cases hwants : s.wants e = false
    · rw [if_pos hwants]
      refine h.of_change hsub ⟨rfl, rfl, rfl⟩ h.nodup (fun _ hy => hy) (fun _ _ hy => hy)
        ?_ (h.counted x s hsub)
        (fun _ => ⟨hlive, hsince, ?_⟩) (fun hout => absurd hx hout) howed
        (fun y _ hy => hclosed y hy) nofun ⟨hrest, (nodup_cons.1 hwalk.2).2⟩
        (by rw [hholder]; rfl)
      · funext y
        by_cases hyx : y = x
        · rw [hyx, PMap.insert_self]
          exact hsub
        · exact (PMap.insert_of_ne hyx).symm
      · rw [hnone]
        simpa only [Holder.owed, hwants, Bool.false_eq_true, and_false, if_false] using hexact
    rw [if_neg hwants]
    rw [Bool.not_eq_false] at hwants
    by_cases hfull : w.full s size = true
    · rw [if_pos hfull]
      refine h.of_erase hsub ⟨rfl, rfl, rfl⟩ rfl rfl
        ((h.counted x s hsub).clear true fun _ => rfl) (.inl rfl) howed ?_
        ⟨fun y hy => ⟨hrest y hy, fun hyx => hnotin (hyx ▸ hy)⟩,
          (nodup_cons.1 hwalk.2).2⟩ (by rw [hholder]; rfl)
      rw [hholder]
      rfl
    · rw [if_neg hfull]
      obtain ⟨hbytes, -, hreader⟩ := h.counted x s hsub
      have hgiven : s.taken ++ (s.queue ++ [(e, size)]).map Prod.fst = s.given ++ [e] := by
        rw [map_append, ← append_assoc]
        exact congrArg (· ++ [e]) hlive.exact
      refine h.of_change hsub ⟨rfl, rfl, rfl⟩ h.nodup (fun _ hy => hy) (fun _ _ hy => hy)
        rfl ⟨?_, ?_, hreader⟩
        (fun _ => ⟨⟨hgiven, hlive.overflow, hlive.reader⟩, hsince, ?_⟩)
        (fun hout => absurd hx hout) howed (fun y _ hy => hclosed y hy) nofun
        ⟨hrest, (nodup_cons.1 hwalk.2).2⟩ (by rw [hholder]; rfl)
      · simp only [hbytes, map_append, map_cons, map_nil, sum_append,
          sum_cons, sum_nil, Nat.add_zero]
      · exact hgiven ▸ prefix_rfl
      · rw [hnone, append_nil]
        have hthis : s.given ++ [e] = (w.accepted.drop s.since).filter s.wants := by
          simpa only [Holder.owed, mem_cons_self, hwants, and_self, if_true] using hexact
        exact hthis
  | finish session e size hholder =>
    refine h.of_holder ⟨rfl, rfl, rfl, rfl⟩ (fun x s => ?_)
      (by rw [hholder]; rfl) ⟨nofun, nodup_nil⟩ nofun
      fun other stage e' hstage => h.session other stage e' ((PMap.of_erase hstage).2)
    rw [hholder]
    simp [Holder.owed]

theorem Sound.activateStep (h : w.Sound) (hstep : ActivateStep w m w') : w'.Sound := by
  cases hstep with
  | write session | clear k session hcall =>
    exact h.of_calls ⟨rfl, rfl, rfl, rfl⟩ rfl
      (fun other e haccepts => (h.accepting other e haccepts).1) h.session
  | lock k session hcall hholder =>
    exact h.of_holder ⟨rfl, rfl, rfl, rfl⟩ (fun x s => by rw [hholder]; rfl)
      (by rw [hholder]; rfl) ⟨fun x hx => hx, h.nodup⟩ nofun h.session
  | purge k x rest s hholder hsub =>
    have hwalk := h.walk
    rw [hholder] at hwalk
    have hx : x ∈ w.table := hwalk.1 x mem_cons_self
    obtain ⟨hlive, hsince, -⟩ := h.exact hx hsub
    refine h.of_change hsub ⟨rfl, rfl, rfl⟩ h.nodup (fun _ hy => hy) (fun _ _ hy => hy) rfl
      ⟨rfl, prefix_rfl, (h.counted x s hsub).reader⟩
      (fun _ => ⟨⟨rfl, hlive.overflow, hlive.reader⟩, Nat.le_refl _, ?_⟩)
      (fun hout => absurd hx hout) (fun y t _ => by rw [hholder]; rfl)
      (fun y _ hy => by rw [hholder] at hy; exact hy) nofun
      ⟨fun y hy => hwalk.1 y (mem_cons_of_mem _ hy), (nodup_cons.1 hwalk.2).2⟩
      (by rw [hholder]; rfl)
    show [] = (w.accepted.drop w.accepted.length).filter (w.purged s).wants
    rw [drop_length, filter_nil]
  | finish k a hholder hcall =>
    exact h.of_holder ⟨rfl, rfl, rfl, rfl⟩ (fun x s => by rw [hholder]; rfl)
      (by rw [hholder]; rfl) ⟨nofun, nodup_nil⟩ nofun h.session

theorem Sound.subStep (h : w.Sound) (hstep : SubStep w w') : w'.Sound := by
  cases hstep with
  | subscribe s hholder hfresh =>
    obtain ⟨hqueue, hbytes, hoverflow, hreader, hgiven, htaken, hsince⟩ := hfresh
    have hnext (x : Nat) (t : Subscription) (ht : w.subs x = some t) : x ≠ w.next :=
      Nat.ne_of_lt (h.fresh x t ht)
    have hnew : w.next ∉ w.table := fun hmem => by
      obtain ⟨t, ht, -⟩ := h.listed w.next hmem
      exact hnext w.next t ht rfl
    refine ⟨?_, ?_, ?_, ?_, ?_, ⟨?_, h.walk.2⟩, ?_, h.accepting, h.session⟩
    · exact h.nodup.append (nodup_singleton _) (by simpa using hnew)
    · intro x t ht
      rcases PMap.insert_cases ht with ⟨rfl, -⟩ | ⟨-, hold⟩
      · exact Nat.lt_succ_self _
      · exact Nat.lt_succ_of_lt (h.fresh x t hold)
    · intro x hx
      rcases mem_append.1 hx with hx | hx
      · obtain ⟨t, ht, htlive, htexact⟩ := h.listed x hx
        exact ⟨t, (PMap.insert_of_ne (hnext x t ht)).trans ht, htlive, htexact⟩
      · cases mem_singleton.1 hx
        refine ⟨s, PMap.insert_self, ⟨?_, hoverflow, ?_⟩, ?_, ?_⟩
        · rw [Subscription.queued, hqueue, htaken, hgiven]
          rfl
        · rw [hreader]
          exact ⟨nofun, nofun⟩
        · exact Nat.le_of_eq hsince
        · show s.given ++ w.holder.owed w.next s = (w.accepted.drop s.since).filter s.wants
          rw [hholder, hgiven, hsince]
          simp [Holder.owed]
    · intro x t ht
      rcases PMap.insert_cases ht with ⟨-, rfl⟩ | ⟨-, hold⟩
      · refine ⟨?_, ?_, fun hx => ?_⟩
        · rw [hbytes, hqueue]
          rfl
        · rw [Subscription.queued, hqueue, htaken, hgiven]
          exact prefix_rfl
        · rw [hreader] at hx
          cases hx
      · exact h.counted x t hold
    · intro x t ht hx
      rcases PMap.insert_cases ht with ⟨rfl, rfl⟩ | ⟨-, hold⟩
      · exact .inl hqueue
      · exact h.gone x t hold fun hmem => hx (mem_append_left _ hmem)
    · intro x hx
      exact mem_append_left _ (h.walk.1 x hx)
    · intro x hx
      rw [show ({ w.setSub w.next s with
        table := w.table ++ [w.next], next := w.next + 1 } : Hub).holder = .nobody from hholder]
        at hx
      cases hx
  | own x s s' r hsub hstep =>
    obtain ⟨hgiven, hsince, hwants, hempty, -⟩ := Subscription.owner_frame hstep
    refine h.of_change hsub ⟨rfl, rfl, rfl⟩ h.nodup (fun _ hy => hy) (fun _ _ hy => hy)
      rfl ((h.counted x s hsub).owner hstep)
      (fun hx => ?_) (fun hx => ?_) (fun _ _ _ => rfl) (fun _ _ hy => hy) h.emptied h.walk rfl
    · obtain ⟨hlive, hle, hexact⟩ := h.exact hx hsub
      refine ⟨hlive.owner hstep, hsince ▸ hle, ?_⟩
      have howed : w.holder.owed x s' = w.holder.owed x s := by
        unfold Holder.owed
        rw [hwants]
      show s'.given ++ w.holder.owed x s' = (w.accepted.drop s'.since).filter s'.wants
      rw [howed, hgiven, hsince, hwants]
      exact hexact
    · rcases h.gone x s hsub hx with hqueue | hreader | hclosed
      · exact .inl (hempty (.inl hqueue))
      · exact .inl (hempty (.inr hreader))
      · exact .inr (.inr hclosed)
  | unsubscribe x s hsub hholder hidle =>
    obtain ⟨hbytes, hfollows, -⟩ := h.counted x s hsub
    refine h.of_erase hsub ⟨rfl, rfl, rfl⟩ rfl rfl ⟨hbytes, hfollows, nofun⟩ (.inr rfl)
      (fun _ _ _ => rfl) rfl ⟨fun y hy => ?_, h.walk.2⟩ rfl
    rw [show ({ w.setSub x { s with reader := .removing, closed := true } with
      table := w.table.erase x } : Hub).holder = .nobody from hholder] at hy
    cases hy

theorem Sound.closeStep (h : w.Sound) (hstep : CloseStep w m w') : w'.Sound := by
  cases hstep with
  | take hholder =>
    refine ⟨nodup_nil, h.fresh, nofun, h.counted, fun x s hs _ => ?_,
      ⟨nofun, nodup_nil⟩, fun x _ => not_mem_nil, nofun, h.session⟩
    by_cases hx : x ∈ w.table
    · exact .inr (.inr hx)
    · have hgone := h.gone x s hs hx
      rw [hholder] at hgone
      exact hgone.imp_right (Or.imp_right fun hmem => nomatch hmem)
  | next x rest s hholder hsub =>
    have hx : x ∉ w.table := h.emptied x (by rw [hholder]; exact mem_cons_self)
    refine h.of_change hsub ⟨rfl, rfl, rfl⟩ h.nodup (fun _ hy => hy) (fun _ _ hy => hy) rfl
      ((h.counted x s hsub).clear true (h.counted x s hsub).reader) (fun hmem => absurd hmem hx)
      (fun _ => .inl rfl) (fun y t _ => by rw [hholder]; rfl) (fun y hyx hy => ?_)
      (fun y hy => h.emptied y (by rw [hholder]; exact mem_cons_of_mem _ hy))
      ⟨nofun, nodup_nil⟩ (by rw [hholder]; rfl)
    rw [hholder] at hy
    exact (mem_cons.1 hy).resolve_left hyx
  | finish hholder =>
    exact h.of_holder ⟨rfl, rfl, rfl, rfl⟩ (fun x s => by rw [hholder]; rfl)
      (by rw [hholder]; rfl) ⟨nofun, nodup_nil⟩ nofun h.session
  | clear n hclearing | tighten limits =>
    exact h.of_calls ⟨rfl, rfl, rfl, rfl⟩ rfl
      (fun other e haccepts => (h.accepting other e haccepts).1) h.session

/-- **Every section keeps the invariant.** -/
theorem Sound.next (h : w.Sound) (hm : w.perform serialize m = some w') : w'.Sound := by
  rcases perform_cases hm with hstep | hstep | hstep | hstep
  · exact h.acceptStep hstep
  · exact h.activateStep hstep
  · exact h.subStep hstep
  · exact h.closeStep hstep

theorem sound_new (maxEvents maxBytes : Nat) : (new maxEvents maxBytes).Sound where
  nodup := nodup_nil
  fresh _ _ hs := nomatch hs
  listed _ hx := nomatch hx
  counted _ _ hs := nomatch hs
  gone _ _ hs := nomatch hs
  walk := ⟨nofun, nodup_nil⟩
  emptied _ hx := nomatch hx
  accepting _ _ h := nomatch h
  session _ _ _ h := nomatch h

/-! ## Sizes -/

/-- The size of an event is the length of its text. -/
def Measures (serialize : Serializer) (e : Event) (size : Nat) : Prop :=
  ∃ data, serialize e.value = .ok data ∧ data.length = size

/-- Every event goes with its size. -/
structure Sized (serialize : Serializer) (w : Hub) : Prop where
  recorded : ∀ session e size, w.accepts session = some (.recorded e size) →
    Measures serialize e size
  holder : ∀ e size, w.holder.sized = some (e, size) → Measures serialize e size
  queued : ∀ x s, w.subs x = some s → ∀ p ∈ s.queue, Measures serialize p.1 p.2

theorem Sized.of_same (h : w.Sized serialize)
    (hrecorded : ∀ session e size, w'.accepts session = some (.recorded e size) →
      w.accepts session = some (.recorded e size) ∨ Measures serialize e size)
    (hholder : ∀ e size, w'.holder.sized = some (e, size) →
      w.holder.sized = some (e, size) ∨ Measures serialize e size)
    (hqueued : ∀ x s, w'.subs x = some s → w.subs x = some s ∨
      ∀ p ∈ s.queue, Measures serialize p.1 p.2) : w'.Sized serialize where
  recorded session e size hcall := (hrecorded session e size hcall).elim
    (h.recorded session e size) id
  holder e size he := (hholder e size he).elim (h.holder e size) id
  queued x s hs := (hqueued x s hs).elim (h.queued x s) id

theorem Sized.next (h : w.Sized serialize) (hm : w.perform serialize m = some w') :
    w'.Sized serialize := by
  have herase {session other : String} {e : Event} {size : Nat}
      (hcall : w.accepts.erase session other = some (.recorded e size)) :
      w.accepts other = some (.recorded e size) ∨ Measures serialize e size :=
    .inl ((PMap.of_erase hcall).2)
  have hsub {x y : Nat} {s t : Subscription} (hs : w.subs.insert x t y = some s)
      (ht : ∀ p ∈ t.queue, Measures serialize p.1 p.2) : w.subs y = some s ∨
        ∀ p ∈ s.queue, Measures serialize p.1 p.2 := by
    rcases PMap.insert_cases hs with ⟨-, rfl⟩ | ⟨-, hold⟩
    · exact .inr ht
    · exact .inl hold
  rcases perform_cases hm with hstep | hstep | hstep | hstep
  · cases hstep with
    | refuse session e hfree | invalid session contracts value e hcall
    | disorder session e hcall hlast | unsized session e err hcall hlast =>
      exact h.of_same (fun _ _ _ => herase) (fun _ _ he => .inl he) fun _ _ hs => .inl hs
    | enter session contracts value hfree | number session contracts value e hcall hread =>
      refine h.of_same (fun other e' size hrecorded => ?_) (fun _ _ he => .inl he)
        fun _ _ hs => .inl hs
      rcases PMap.insert_cases hrecorded with ⟨-, heq⟩ | ⟨-, hold⟩
      · cases heq
      · exact .inl hold
    | record session e data hcall hlast hsize =>
      refine h.of_same (fun other e' size hrecorded => ?_) (fun _ _ he => .inl he)
        fun _ _ hs => .inl hs
      rcases PMap.insert_cases hrecorded with ⟨-, heq⟩ | ⟨-, hold⟩
      · cases heq
        exact .inr ⟨data, hsize, rfl⟩
      · exact .inl hold
    | lock session e size hcall hholder =>
      refine h.of_same (fun other e' size' hrecorded => ?_) (fun e' size' he => ?_)
        fun _ _ hs => .inl hs
      · rcases PMap.insert_cases hrecorded with ⟨-, heq⟩ | ⟨-, hold⟩
        · cases heq
        · exact .inl hold
      · cases he
        exact .inr (h.recorded session e size hcall)
    | stale session e size hholder hactive | finish session e size hholder =>
      exact h.of_same (fun _ _ _ => herase) (fun _ _ he => nomatch he) fun _ _ hs => .inl hs
    | recheck session e size hholder hactive =>
      refine h.of_same (fun _ _ _ hold => .inl hold) (fun e' size' he => ?_) fun _ _ hs => .inl hs
      exact .inl (by rw [hholder]; exact he)
    | deliver session e size x rest s hholder hmem =>
      have hthis : Measures serialize e size := h.holder e size (by rw [hholder]; rfl)
      have hkeep (e' : Event) (size' : Nat)
          (he : (Holder.delivering session e size rest).sized = some (e', size')) :
          w.holder.sized = some (e', size') ∨ Measures serialize e' size' :=
        .inl (by rw [hholder]; exact he)
      unfold offer
      by_cases hwants : s.wants e = false
      · rw [if_pos hwants]
        exact h.of_same (fun _ _ _ hold => .inl hold) hkeep fun _ _ hs => .inl hs
      rw [if_neg hwants]
      by_cases hfull : w.full s size = true
      · rw [if_pos hfull]
        exact h.of_same (fun _ _ _ hold => .inl hold) hkeep fun _ _ hs => hsub hs nofun
      · rw [if_neg hfull]
        refine h.of_same (fun _ _ _ hold => .inl hold) hkeep fun _ _ hs =>
          hsub hs fun p hp => ?_
        rcases mem_append.1 hp with hp | hp
        · exact h.queued x s hmem p hp
        · cases mem_singleton.1 hp
          exact hthis
  · cases hstep with
    | write session | clear k session hcall =>
      exact h.of_same (fun _ _ _ hold => .inl hold) (fun _ _ he => .inl he) fun _ _ hs => .inl hs
    | lock k session hcall hholder | finish k a hholder hcall =>
      exact h.of_same (fun _ _ _ hold => .inl hold) (fun _ _ he => nomatch he) fun _ _ hs => .inl hs
    | purge k x rest s hholder hmem =>
      exact h.of_same (fun _ _ _ hold => .inl hold) (fun _ _ he => nomatch he)
        fun _ _ hs => hsub hs nofun
  · cases hstep with
    | subscribe s hholder hfresh =>
      exact h.of_same (fun _ _ _ hold => .inl hold) (fun _ _ he => .inl he)
        fun _ _ hs => hsub hs fun p hp => by rw [hfresh.1] at hp; cases hp
    | own x s s' r hmem hown =>
      exact h.of_same (fun _ _ _ hold => .inl hold) (fun _ _ he => .inl he)
        fun _ _ hs => hsub hs fun p hp =>
          h.queued x s hmem p ((Subscription.owner_frame hown).2.2.2.2 p hp)
    | unsubscribe x s hmem hholder hidle =>
      exact h.of_same (fun _ _ _ hold => .inl hold) (fun _ _ he => .inl he)
        fun _ _ hs => hsub hs (h.queued x s hmem)
  · cases hstep with
    | take hholder | finish hholder =>
      exact h.of_same (fun _ _ _ hold => .inl hold) (fun _ _ he => nomatch he) fun _ _ hs => .inl hs
    | next x rest s hholder hmem =>
      exact h.of_same (fun _ _ _ hold => .inl hold) (fun _ _ he => nomatch he)
        fun _ _ hs => hsub hs nofun
    | clear n hclearing | tighten limits =>
      exact h.of_same (fun _ _ _ hold => .inl hold) (fun _ _ he => .inl he) fun _ _ hs => .inl hs

theorem sized_new (maxEvents maxBytes : Nat) : (new maxEvents maxBytes).Sized serialize where
  recorded _ _ _ h := nomatch h
  holder _ _ h := nomatch h
  queued _ _ hs := nomatch hs

end Hub

end NapiVm.Plugin
