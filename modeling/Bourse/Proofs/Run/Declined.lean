import Bourse.Proofs.Run.Stream

/-!
# What a declined call leaves behind

A call is declined at many depths: before `lookup?` has found its instrument, by the
checks of its rules, once its identity has been found to be live, or at the desk of a book
that does not have the order. Whichever it is, the turn is `Intact`: the instruments, the
books and the routes are left as they were found. All that moves is a counter. An identity
that is live costs an arrival number and is passed over in silence; an intent that is
refused for anything else is told of by one update. No other call that is declined counts
or tells anything. `Turn.Declined` lists these cases.
-/

namespace Bourse

/-- The answer declines what was asked. -/
def Answer.declines : Answer → Bool
  | .added (.error _) | .submitted (.ok (.error _)) | .cancelled (.ok .notFound)
  | .modified (.ok .notFound) | .modified (.ok (.rejected _)) => true
  | .added (.ok _) | .submitted _ | .cancelled _ | .modified _ => false

/-- The instruments, the books and the routes are as they were. -/
structure Turn.Intact (t : Turn) : Prop where
  rule_eq : t.after.rule = t.before.rule
  slots_eq : t.after.slots = t.before.slots
  routes_eq : t.after.routes = t.before.routes

/-- What a declined call counts and tells. -/
inductive Turn.Declined (t : Turn) : Prop
  | duplicate {world : Surroundings} {intent : OrderIntent} {id : OrderId} :
      t.call = .submit world intent → t.before.Valid intent → t.before.routes.get? id ≠ none →
      t.answer = .submitted (.ok (.error ⟨id, .duplicateOrderId id⟩)) →
      t.after.counters =
        { t.before.counters with arrivals := t.before.counters.arrivals + 1 } →
      t.events = [] → Declined t
  | invalid {world : Surroundings} {intent : OrderIntent} {id : OrderId} {reason : RejectReason}
      {u : OrderUpdate} :
      t.call = .submit world intent → ¬ t.before.Valid intent → reason.isDuplicate = false →
      t.answer = .submitted (.ok (.error ⟨id, reason⟩)) →
      t.after.counters = { t.before.counters with events := t.before.counters.events + 1 } →
      t.events = [.update u] → u.Rejects id reason → u.symbol = intent.symbol →
      u.remaining = intent.quantity → u.filled.SameValue 0 →
      u.sequence = t.before.counters.events + 1 → Declined t
  | unasked : (∀ world intent, t.call ≠ .submit world intent) →
      t.after.counters = t.before.counters → t.events = [] → Declined t

/-- A turn that moves counters at most is `Intact`. -/
theorem Turn.intact_of_counted {t : Turn} {c : Counters}
    (h : t.after = { t.before with counters := c }) : t.Intact ∧ t.after.counters = c := by
  refine ⟨⟨?_, ?_, ?_⟩, ?_⟩ <;> rw [h]

namespace Engine

variable {e : Engine} {world : Surroundings}

theorem addInstrument_declined {config : InstrumentConfig} {err : ConfigError}
    (ha : (e.addInstrument config).answer = .error err) : (e.addInstrument config).engine = e := by
  unfold addInstrument at ha ⊢
  split
  · rfl
  · next hv =>
      rw [hv] at ha
      split
      · rfl
      · next hunlisted =>
          dsimp only at ha
          rw [if_neg hunlisted] at ha
          cases ha

theorem submit_declined {intent : OrderIntent} {why : Rejection} (hl : e.Listed)
    (ha : (e.submit world intent).answer = .ok (.error why)) :
    (e.perform (.submit world intent)).Intact ∧ (e.perform (.submit world intent)).Declined := by
  by_cases hvalid : e.Valid intent
  · have hlive : e.routes.get? (e.entering world intent).id ≠ none := by
      obtain ⟨i, slot, hfound, hchecked⟩ := hvalid
      intro hfree
      exact not_admits_of_rejected ha i slot ⟨hfound, hchecked, hfree⟩
    obtain ⟨hengine, hevents, hanswer⟩ := submit_duplicate world hvalid hlive
    obtain ⟨hintact, hcounters⟩ :=
      Turn.intact_of_counted (t := e.perform (.submit world intent)) hengine
    exact ⟨hintact, .duplicate rfl hvalid hlive (congrArg _ hanswer) hcounters hevents⟩
  · obtain ⟨hengine, reason, u, hreason, hu, hsaid⟩ := submit_invalid world hl.slot_valid hvalid
    obtain ⟨hintact, hcounters⟩ :=
      Turn.intact_of_counted (t := e.perform (.submit world intent)) hengine
    rcases hsaid with ⟨hevents, hanswer⟩ | ⟨-, _, _, -, -, hanswer⟩
    · exact ⟨hintact, .invalid rfl hvalid hreason (congrArg _ hanswer) hcounters hevents
        hu.toRejects hu.symbol_eq hu.remaining_eq hu.filled_zero hu.sequence_eq⟩
    · rw [ha] at hanswer
      cases hanswer

/-- A `cancel` that finds no order works at no desk, or finds the book at its desk without it: an
order that rests is live, so none is lost on the way. -/
theorem cancel_declined {id : OrderId} (hs : e.Sound) (hlive : e.Live)
    (ha : (e.cancel world id).answer = .ok .notFound) :
    (e.cancel world id).engine = e ∧ (e.cancel world id).events = [] := by
  rcases cancel_of_ok hs ha with ⟨hengine, hevents, -⟩ | ⟨i, slot, d, hl, hd, hengine, hevents⟩
  · exact ⟨hengine, hevents⟩
  · have hslot := (route_of_locate? hl).1
    cases hd with
    | absent _ => exact ⟨hengine.trans (leave_same hslot rfl), hevents⟩
    | dead ho _ hdead _ =>
        rw [hlive ⟨slot, hslot, ho⟩] at hdead
        cases hdead

/-- What a call that is declined has been answered. -/
theorem declined_answer {call : Call} (h : (e.perform call).answer.declines = true) :
    match call with
    | .addInstrument config => ∃ err, (e.addInstrument config).answer = .error err
    | .submit world intent => ∃ why, (e.submit world intent).answer = .ok (.error why)
    | .cancel world id => (e.cancel world id).answer = .ok .notFound
    | .modify world id request => ∃ r, (e.modify world id request).answer = .ok r ∧
        ∀ result, r ≠ .modified result := by
  cases call with
  | addInstrument config =>
      change (Answer.added (e.addInstrument config).answer).declines = true at h
      cases ha : (e.addInstrument config).answer with
      | error err => exact ⟨err, ha⟩
      | ok u => rw [ha] at h; cases h
  | submit world intent =>
      change (Answer.submitted (e.submit world intent).answer).declines = true at h
      cases ha : (e.submit world intent).answer with
      | error f => rw [ha] at h; cases h
      | ok res =>
          rw [ha] at h
          cases res with
          | error why => exact ⟨why, ha⟩
          | ok r => cases h
  | cancel world id =>
      change (Answer.cancelled (e.cancel world id).answer).declines = true at h
      cases ha : (e.cancel world id).answer with
      | error f => rw [ha] at h; cases h
      | ok res =>
          rw [ha] at h
          cases res with
          | cancelled o => cases h
          | notFound => exact ha
  | modify world id request =>
      change (Answer.modified (e.modify world id request).answer).declines = true at h
      cases ha : (e.modify world id request).answer with
      | error f => rw [ha] at h; cases h
      | ok res =>
          rw [ha] at h
          refine ⟨res, ha, fun result hres => ?_⟩
          rw [hres] at h
          cases h

/-- Whatever is declined leaves all but the counters as it was. -/
theorem perform_declined (hs : e.Sound) (hl : e.Listed) (hlive : e.Live) (call : Call)
    (hdeclines : (e.perform call).answer.declines = true) :
    (e.perform call).Intact ∧ (e.perform call).Declined := by
  have hsilent (hcall : ∀ world intent, call ≠ .submit world intent)
      (hafter : (e.perform call).after = e) (hevents : (e.perform call).events = []) :
      (e.perform call).Intact ∧ (e.perform call).Declined := by
    obtain ⟨hintact, hcounters⟩ :=
      Turn.intact_of_counted (hafter.trans (before_perform e call).symm)
    refine ⟨hintact, .unasked ?_ hcounters hevents⟩
    rw [call_perform]
    exact hcall
  have hanswer := declined_answer hdeclines
  cases call with
  | addInstrument config =>
      obtain ⟨err, ha⟩ := hanswer
      exact hsilent (fun _ _ => Call.noConfusion) (addInstrument_declined ha)
        (addInstrument_events e config)
  | submit world intent =>
      obtain ⟨why, ha⟩ := hanswer
      exact submit_declined hl ha
  | cancel world id =>
      obtain ⟨hengine, hevents⟩ := cancel_declined hs hlive hanswer
      exact hsilent (fun _ _ => Call.noConfusion) hengine hevents
  | modify world id request =>
      obtain ⟨r, ha, hnot⟩ := hanswer
      obtain ⟨hengine, hevents⟩ := modify_unmodified hs ha hnot
      exact hsilent (fun _ _ => Call.noConfusion) hengine hevents

end Engine

/-- After fewer than ten thousand million calls every further one is answered. If it is declined,
for whatever reason, the turn is `Intact`; an intent that is refused for its identity takes an
arrival number in silence, any other refused intent is told of by one update that shows all of it
left, and nothing else is counted or told. -/
theorem declined_calls_leave_no_trace {past : List Turn} {e : Engine} (h : Run past e)
    (hlen : past.length < 10000000000) (call : Call) :
    (e.perform call).answer.fault? = none ∧
      ((e.perform call).answer.declines = true →
        (e.perform call).Intact ∧ (e.perform call).Declined) := by
  obtain ⟨-, hsteady⟩ := h.steady hlen
  refine ⟨(hsteady.next hlen call).1, ?_⟩
  intro hdeclines
  exact Engine.perform_declined hsteady.sound h.listed hsteady.live call hdeclines

/-- Calls in vain while one is offered at 1 under the first identity: for an instrument that is
listed already and one without a symbol, for an unknown instrument, for nothing, without a price,
under the identity that is live, and about an order that never came. -/
def inVain : List Call :=
  [.addInstrument (.plain "X"), .addInstrument (.plain " "),
    .submit (.handing 2) (.limit "Y" .buy 1 1),
    .submit (.handing 2) (.limit "X" .buy 1 0),
    .submit (.handing 2) { OrderIntent.limit "X" .buy 1 1 with price := none },
    .submit (.handing 1) (.limit "X" .buy 1 1),
    .cancel (.handing 2) ⟨.ofNat 2⟩,
    .modify (.handing 2) ⟨.ofNat 2⟩ ⟨none, 1⟩,
    .modify (.handing 2) ⟨.ofNat 1⟩ ⟨none, 0⟩]

theorem declined_calls_leave_no_trace_inVain :
    (∀ call ∈ inVain,
        (((Engine.empty .priceTime).follow [] offering).2.perform call).Intact ∧
          (((Engine.empty .priceTime).follow [] offering).2.perform call).Declined) ∧
      inVain.map (fun call =>
          let t := ((Engine.empty .priceTime).follow [] offering).2.perform call
          (t.after.counters.arrivals, t.after.counters.events, t.events.length)) =
        [(1, 1, 0), (1, 1, 0), (1, 2, 1), (1, 2, 1), (1, 2, 1), (2, 1, 0), (1, 1, 0), (1, 1, 0),
          (1, 1, 0)] := by
  have hall : ∀ call ∈ inVain,
      (((Engine.empty .priceTime).follow [] offering).2.perform call).answer.declines = true := by
    decide +kernel
  constructor
  · intro call hcall
    exact (declined_calls_leave_no_trace (History.start.follow offering) (by decide +kernel) call).2
      (hall call hcall)
  · decide +kernel

end Bourse
