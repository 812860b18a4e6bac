import Bourse.Proofs.Engine.Calls

/-!
# The numbers of events

Events take their numbers from one counter while they are made, and they are put on the
list of the desk at once. So whatever a desk has been used for, what it `Adds` to its list
has the next numbers, in order and with none left out. Nothing is asked here of the book
or of the matching rule: neither can reach the counter. Work that stops at a fault may
have taken numbers too. Its events are not sent, and as the counter never goes back, those
numbers are lost.

What an operation does is followed through its text: a few rules, of which `numbers_bind`
is the one at work everywhere, say of each way to put attempts together that the whole
`Numbers` its events if the parts do.
-/

namespace Bourse

namespace Desk

/-- The events have been put on the list of the desk under the next numbers, and no other number
has been taken. -/
structure Adds (events : List Event) (d d' : Desk) : Prop where
  emitted_eq : d'.emitted = d.emitted ++ events
  numbers_eq : events.map Event.sequence = List.range' (d.counters.events + 1) events.length
  events_eq : d'.counters.events = d.counters.events + events.length

/-- Neither the list of events nor their counter has changed. -/
structure Silent (d d' : Desk) : Prop where
  emitted_eq : d'.emitted = d.emitted
  events_eq : d'.counters.events = d.counters.events

/-- Work that has come to its end `Adds` events to the list, and work that has not has at most taken
numbers. -/
def Numbers {α : Type} (act : Attempt Desk α) : Prop :=
  ∀ d, match act d with
    | .ok _ d' => ∃ events, Adds events d d'
    | .error _ d' => d.counters.events ≤ d'.counters.events

theorem Silent.adds {d d' : Desk} (h : Silent d d') : Adds [] d d' :=
  ⟨by simp [h.emitted_eq], rfl, h.events_eq⟩

theorem Adds.trans {xs ys : List Event} {d₁ d₂ d₃ : Desk} (h : Adds xs d₁ d₂)
    (k : Adds ys d₂ d₃) : Adds (xs ++ ys) d₁ d₃ where
  emitted_eq := by rw [k.emitted_eq, h.emitted_eq, List.append_assoc]
  numbers_eq := by
    have hnext : d₁.counters.events + 1 + xs.length = d₂.counters.events + 1 := by
      have := h.events_eq
      omega
    rw [List.map_append, h.numbers_eq, k.numbers_eq, List.length_append, ← hnext,
      ← List.range'_append_1]
  events_eq := by rw [k.events_eq, h.events_eq, List.length_append, Nat.add_assoc]

theorem adds_told {e : Event} (d : Desk) (h : e.sequence = d.counters.events + 1) :
    Adds [e] d (d.stamped.told e) :=
  ⟨rfl, by simp [h], rfl⟩

/-! ## Rules -/

section Rules

variable {α β : Type}

theorem numbers_of_silent {act : Attempt Desk α}
    (h : ∀ d, Silent d (Attempt.outcome act d).2) : Numbers act := by
  intro d
  have hd := h d
  cases hrun : act d with
  | ok a d' =>
      rw [Attempt.outcome_ok hrun] at hd
      exact ⟨[], hd.adds⟩
  | error f d' =>
      rw [Attempt.outcome_error hrun] at hd
      exact Nat.le_of_eq hd.events_eq.symm

theorem numbers_pure (a : α) : Numbers (pure a) := fun _ => ⟨[], Silent.adds ⟨rfl, rfl⟩⟩

theorem numbers_bind {act : Attempt Desk α} {next : α → Attempt Desk β} (h : Numbers act)
    (k : ∀ a, Numbers (next a)) : Numbers (act >>= next) := by
  intro d
  have hd := h d
  rw [Attempt.run_bind]
  cases hrun : act d with
  | error f d' =>
      rw [hrun] at hd
      exact hd
  | ok a d₁ =>
      rw [hrun] at hd
      obtain ⟨xs, hxs⟩ := hd
      have hle := hxs.events_eq
      have hd₁ := k a d₁
      dsimp only
      cases hnext : next a d₁ with
      | error f d' =>
          rw [hnext] at hd₁
          dsimp only at hd₁ ⊢
          omega
      | ok b d' =>
          rw [hnext] at hd₁
          obtain ⟨ys, hys⟩ := hd₁
          exact ⟨xs ++ ys, hxs.trans hys⟩

theorem numbers_get : Numbers (get : Attempt Desk Desk) :=
  numbers_of_silent fun _ => ⟨rfl, rfl⟩

theorem numbers_modify {change : Desk → Desk} (h : ∀ d, Silent d (change d)) :
    Numbers (modify change : Attempt Desk PUnit) := numbers_of_silent h

theorem numbers_release (id : OrderId) : Numbers (modify (release id) : Attempt Desk PUnit) :=
  numbers_modify fun _ => ⟨rfl, rfl⟩

theorem numbers_violate (v : Violation) : Numbers (Attempt.violate v : Attempt Desk α) :=
  fun _ => Nat.le_refl _

theorem numbers_focus {σ : Type} (part : σ) {put : σ → Desk} (act : Attempt σ α) {d : Desk}
    (h : ∀ s, Silent d (put s)) :
    Silent d (Attempt.outcome (Attempt.focus part put act) d).2 := by
  unfold Attempt.outcome
  rw [Attempt.run_focus]
  cases act part with
  | ok a s => exact h s
  | error f s => exact h s

theorem numbers_onBook (act : Attempt Book α) : Numbers (onBook act) := by
  refine numbers_of_silent fun d => ?_
  exact numbers_focus d.book act fun _ => ⟨rfl, rfl⟩

theorem numbers_orViolate (r : Except Violation Order) : Numbers (orViolate r) := by
  cases r with
  | ok o => exact numbers_pure o
  | error v => exact numbers_violate v

theorem numbers_mapM {act : β → Attempt Desk α} (h : ∀ b, Numbers (act b)) (bs : List β) :
    Numbers (bs.mapM act) := by
  induction bs with
  | nil => exact numbers_pure []
  | cons b bs ih =>
      rw [List.mapM_cons]
      exact numbers_bind (h b) fun a => numbers_bind ih fun as => numbers_pure _

end Rules

/-! ## Operations -/

section Operations

variable {rule : MatchingRule} {world : Surroundings}

theorem numbers_emitUpdate (world : Surroundings) (o : Order) : Numbers (emitUpdate world o) := by
  intro d
  rw [emitUpdate_run]
  cases hu : OrderUpdate.ofOrder o world.now (d.counters.events + 1) with
  | error f => exact Nat.le_succ _
  | ok u =>
      obtain ⟨f, -, rfl⟩ := map_eq_ok.mp hu
      exact ⟨_, adds_told d rfl⟩

theorem numbers_emitRejected (world : Surroundings) (o : Order) (reason : RejectReason) :
    Numbers (emitRejected world o reason) := by
  intro d
  rw [emitRejected_run]
  cases hu : OrderUpdate.rejected o reason world.now (d.counters.events + 1) with
  | error f => exact Nat.le_succ _
  | ok u =>
      obtain ⟨v, hv, rfl⟩ := map_eq_ok.mp hu
      obtain ⟨f, -, rfl⟩ := map_eq_ok.mp hv
      exact ⟨_, adds_told d rfl⟩

theorem numbers_report (world : Surroundings) (taker : Order) (fill : Fill) :
    Numbers (report world taker fill) := by
  refine numbers_bind (fun d => ⟨_, adds_told d rfl⟩) fun trade => ?_
  refine numbers_bind (numbers_emitUpdate world fill.maker) fun _ => ?_
  split
  · exact numbers_bind (numbers_release _) fun _ => numbers_pure trade
  · exact numbers_pure trade

theorem numbers_matchOrder (rule : MatchingRule) (o : Order) : Numbers (matchOrder rule o) := by
  refine numbers_of_silent fun d => ?_
  exact numbers_focus (⟨o, d.book⟩ : Encounter) _ fun _ => ⟨rfl, rfl⟩

theorem numbers_settle (o : Order) : Numbers (settle o) := by
  unfold settle
  split
  · split
    · exact numbers_bind (numbers_onBook _) fun _ => numbers_pure o
    · exact numbers_orViolate _
  · exact numbers_pure o

theorem numbers_execute (rule : MatchingRule) (world : Surroundings) (o : Order) :
    Numbers (execute rule world o) := by
  refine numbers_bind numbers_get fun d => ?_
  split
  · refine numbers_bind (numbers_orViolate _) fun o' => ?_
    refine numbers_bind (numbers_release _) fun _ => ?_
    exact numbers_bind (numbers_emitUpdate world o') fun _ => numbers_pure _
  · refine numbers_bind (numbers_matchOrder rule o) fun matched => ?_
    refine numbers_bind (numbers_mapM (numbers_report world matched.1) matched.2) fun trades => ?_
    refine numbers_bind (numbers_settle matched.1) fun o' => ?_
    have hlast : Numbers (do emitUpdate world o'; return (⟨o', trades⟩ : OrderResult)) :=
      numbers_bind (numbers_emitUpdate world o') fun _ => numbers_pure _
    split
    · exact numbers_bind (numbers_release _) fun _ => hlast
    · exact hlast

theorem numbers_refuse (world : Surroundings) (o : Order) (reason : RejectReason) :
    Numbers (refuse world o reason) := by
  refine numbers_bind (numbers_orViolate _) fun o' => ?_
  exact numbers_bind (numbers_emitRejected world o' reason) fun _ => numbers_pure _

theorem numbers_cancel (world : Surroundings) (id : OrderId) : Numbers (cancel world id) := by
  refine numbers_bind (numbers_onBook _) fun found => ?_
  cases found with
  | none => exact numbers_pure _
  | some o =>
      refine numbers_bind (numbers_release id) fun _ => ?_
      exact numbers_bind (numbers_emitUpdate world o) fun _ => numbers_pure _

theorem numbers_lessen (world : Surroundings) (id : OrderId) (q : Quantity) :
    Numbers (lessen world id q) := by
  refine numbers_bind (numbers_onBook _) fun o => ?_
  exact numbers_bind (numbers_emitUpdate world o) fun _ => numbers_pure _

theorem numbers_reenter (rule : MatchingRule) (world : Surroundings) (id : OrderId)
    (price : Option Price) (q : Quantity) : Numbers (reenter rule world id price q) := by
  intro d
  rw [reenter_run]
  cases Book.take id d.book with
  | error f b => exact Nat.le_refl _
  | ok found b =>
      cases found with
      | none => exact Nat.le_refl _
      | some o =>
          dsimp only
          cases Order.setRemaining q { o with price } with
          | error f o' => exact Nat.le_refl _
          | ok _ o' =>
              have hsilent : Silent d (d.rearrived b) := ⟨rfl, rfl⟩
              have hexec := numbers_execute rule world
                { o' with sequence := d.counters.arrivals + 1 } (d.rearrived b)
              dsimp only
              cases hrun : execute rule world
                  { o' with sequence := d.counters.arrivals + 1 } (d.rearrived b) with
              | error f d' =>
                  rw [hrun] at hexec
                  exact hexec
              | ok r d' =>
                  rw [hrun] at hexec
                  obtain ⟨events, hadds⟩ := hexec
                  exact ⟨_, hsilent.adds.trans hadds⟩

theorem numbers_modifyOrder (rule : MatchingRule) (world : Surroundings) (id : OrderId)
    (request : ModifyRequest) : Numbers (modifyOrder rule world id request) := by
  refine numbers_bind numbers_get fun d => ?_
  cases d.book.get? id with
  | none => exact numbers_pure _
  | some current =>
      dsimp only
      split
      · exact numbers_pure _
      · split
        · exact numbers_bind (numbers_lessen world id _) fun _ => numbers_pure _
        · exact numbers_bind (numbers_reenter rule world id _ _) fun _ => numbers_pure _

end Operations

end Desk

namespace Engine

/-- The events of a reply have the next numbers. If it has come to a fault there are none, and
numbers may have been lost. -/
structure Numbered {ε α : Type} (e : Engine) (r : Reply ε α) : Prop where
  numbers_eq : r.events.map Event.sequence =
    List.range' (e.counters.events + 1) r.events.length
  events_le : e.counters.events + r.events.length ≤ r.engine.counters.events
  answered : ∀ a, r.answer = .ok a →
    r.engine.counters.events = e.counters.events + r.events.length
  stopped : ∀ f, r.answer = .error f → r.events = []

variable {ε α : Type} {e e' : Engine} {i : Nat} {slot : Slot} {id : OrderId}
  {world : Surroundings}

theorem numbered_silent {r : Reply ε α} (hevents : r.events = [])
    (hc : r.engine.counters.events = e.counters.events) : Numbered e r := by
  constructor <;> simp [hevents, hc]

theorem numbered_stopped {r : Reply ε α} {f : ε} (ha : r.answer = .error f)
    (hevents : r.events = []) (hle : e.counters.events ≤ r.engine.counters.events) :
    Numbered e r := by
  constructor <;> simp [hevents, hle, ha]

/-- A reply that sends what has been put on a desk is `Numbered`. -/
theorem numbered_desk {r : Reply ε α} {d : Desk} {book : Book} {events : List Event}
    (hadds : Desk.Adds events (e.desk book) d) (hevents : r.events = d.emitted)
    (hc : r.engine.counters = d.counters) (ha : ∀ f, r.answer ≠ .error f) : Numbered e r := by
  have hsent : r.events = events := hevents.trans hadds.emitted_eq
  have hnext : r.engine.counters.events = e.counters.events + events.length := by
    rw [hc]
    exact hadds.events_eq
  refine ⟨?_, ?_, fun _ _ => ?_, fun f hf => absurd hf (ha f)⟩
  · rw [hsent]
    exact hadds.numbers_eq
  · rw [hsent]
    exact Nat.le_of_eq hnext.symm
  · rw [hsent]
    exact hnext

/-- What is said beside the events, and how the answer is put, does not matter. -/
theorem Numbered.of_eq {β : Type} {r : Reply ε α} {r' : Reply ε β} (h : Numbered e r)
    (hevents : r'.events = r.events)
    (hc : r'.engine.counters = r.engine.counters)
    (hok : ∀ b, r'.answer = .ok b → ∃ a, r.answer = .ok a)
    (herror : ∀ f, r'.answer = .error f → r.answer = .error f)
    (he : e'.counters.events = e.counters.events) : Numbered e' r' := by
  refine ⟨?_, ?_, fun b hb => ?_, fun f hf => ?_⟩
  · rw [hevents, he]
    exact h.numbers_eq
  · rw [hevents, hc, he]
    exact h.events_le
  · obtain ⟨a, ha⟩ := hok b hb
    rw [hevents, hc, he]
    exact h.answered a ha
  · rw [hevents]
    exact h.stopped f (herror f hf)

theorem numbered_exclusive {act : Attempt Desk α} (h : Desk.Numbers act) :
    Numbered e (e.exclusive i slot act) := by
  have hact := h (e.desk slot.book)
  rw [exclusive_run]
  cases hrun : act (e.desk slot.book) with
  | error f d =>
      rw [hrun] at hact
      exact numbered_stopped rfl (events_faultNotices f) hact
  | ok a d =>
      rw [hrun] at hact
      obtain ⟨events, hadds⟩ := hact
      dsimp only
      split
      · refine numbered_stopped rfl rfl ?_
        have : d.counters.events = e.counters.events + events.length := hadds.events_eq
        show e.counters.events ≤ d.counters.events
        omega
      · exact numbered_desk hadds (events_of_desk _ (.ok a) d) rfl nofun

theorem numbered_guarded {act : Attempt Desk α} (h : Desk.Numbers act) :
    Numbered e (e.guarded i slot id act) := by
  have hact := h (e.desk slot.book)
  have hspared (d : Desk) : (e.leave i (spared id d)).counters = d.counters := (spared_same id d).2
  rw [guarded_run]
  cases hrun : act (e.desk slot.book) with
  | error f d =>
      rw [hrun] at hact
      refine numbered_stopped rfl ?_ ?_
      · show List.filterMap Output.event? (faultNotices f ++ _) = []
        rw [List.filterMap_append, events_faultNotices]
        rfl
      · rw [hspared]
        exact hact
  | ok a d =>
      rw [hrun] at hact
      obtain ⟨events, hadds⟩ := hact
      dsimp only
      split
      · refine numbered_stopped rfl rfl ?_
        have : d.counters.events = e.counters.events + events.length := hadds.events_eq
        rw [hspared]
        omega
      · exact numbered_desk hadds (events_of_desk _ (.ok a) d) rfl nofun

/-! ## Calls -/

theorem addInstrument_numbered (e : Engine) (config : InstrumentConfig) :
    Numbered e (e.addInstrument config) :=
  numbered_silent (addInstrument_events e config)
    (congrArg Counters.events (addInstrument_keeps e config).2.2.1)

theorem rejectUnlisted_numbered (e : Engine) (world : Surroundings) (o : Order) :
    Numbered e (e.rejectUnlisted world o) := by
  have hact := Desk.numbers_refuse world o (.unknownSymbol o.symbol) (e.desk (.empty o.symbol))
  unfold rejectUnlisted
  dsimp only
  cases hrun : Desk.refuse world o (.unknownSymbol o.symbol) (e.desk (.empty o.symbol)) with
  | error f d =>
      rw [hrun] at hact
      exact numbered_stopped rfl (events_faultNotices f) hact
  | ok r d =>
      rw [hrun] at hact
      obtain ⟨events, hadds⟩ := hact
      exact numbered_desk hadds (events_eventsOf d) rfl nofun

theorem rejectListed_numbered (e : Engine) (world : Surroundings) (i : Nat) (slot : Slot)
    (o : Order) (reason : RejectReason) :
    Numbered e (e.rejectListed world i slot o reason) := by
  have h : Numbered e (e.exclusive i slot (Desk.refuse world o reason)) :=
    numbered_exclusive (Desk.numbers_refuse world o reason)
  refine h.of_eq rfl rfl (fun r hr => ?_) (fun f hf => map_eq_error.mp hf) rfl
  obtain ⟨a, ha, -⟩ := map_eq_ok.mp hr
  exact ⟨a, ha⟩

theorem enter_numbered (e : Engine) (world : Surroundings) (i : Nat) (slot : Slot) (o : Order) :
    Numbered e (e.enter world i slot o) := by
  by_cases hfree : e.routes.get? o.id = none
  · obtain ⟨r, rfl, hengine, hanswer, hevents⟩ := enter_run e world i slot o hfree
    have h : Numbered (e.received i o.id) ((e.received i o.id).guarded i slot o.id
        (Desk.execute e.rule world { o with sequence := e.counters.arrivals + 1 })) :=
      numbered_guarded (Desk.numbers_execute e.rule world _)
    refine h.of_eq hevents (by rw [hengine]) (fun r hr => ?_) (fun f hf => ?_) rfl
    · obtain ⟨a, ha, -⟩ := map_eq_ok.mp (hanswer.symm.trans hr)
      exact ⟨a, ha⟩
    · exact map_eq_error.mp (hanswer.symm.trans hf)
  · have hlive : e.routes.contains o.id = true := Option.isSome_iff_ne_none.mpr hfree
    unfold enter
    dsimp only
    rw [if_pos hlive]
    exact numbered_silent rfl rfl

theorem submit_numbered (e : Engine) (world : Surroundings) (intent : OrderIntent) :
    Numbered e (e.submit world intent) := by
  unfold submit
  dsimp only
  split
  · exact rejectUnlisted_numbered e world _
  · split
    · exact numbered_silent rfl rfl
    · exact rejectListed_numbered e world _ _ _ _
    · exact enter_numbered e world _ _ _

theorem cancel_numbered (e : Engine) (world : Surroundings) (id : OrderId) :
    Numbered e (e.cancel world id) := by
  cases hl : e.locate? id with
  | none =>
      rw [cancel_not_found hl]
      exact numbered_silent rfl rfl
  | some place =>
      obtain ⟨r, rfl, hengine, hanswer, hevents⟩ := cancel_run world hl
      have h : Numbered e (e.exclusive place.1 place.2 (Desk.cancel world id)) :=
        numbered_exclusive (Desk.numbers_cancel world id)
      exact h.of_eq hevents (by rw [hengine]) (fun r hr => ⟨r, hanswer.symm.trans hr⟩)
        (fun f hf => hanswer.symm.trans hf) rfl

theorem modify_numbered (e : Engine) (world : Surroundings) (id : OrderId)
    (request : ModifyRequest) : Numbered e (e.modify world id request) := by
  unfold modify
  split
  · exact numbered_silent rfl rfl
  · split
    · exact numbered_silent rfl rfl
    · exact numbered_silent rfl rfl
    · exact numbered_guarded (Desk.numbers_modifyOrder e.rule world id request)

end Engine

end Bourse
