import Bourse.Engine.Desk
import Bourse.Proofs.Attempt

/-!
# What a desk reports

Reports number events, put them on the list and take the routes of filled makers back.
They never touch the book, which is part of what `Noted` says. `Narrates` is the story a
list of fills makes: of each fill first the trade and then how the maker stands after it.
-/

namespace Bourse

namespace Desk

/-- The desk with one more event numbered. -/
def stamped (d : Desk) : Desk :=
  { d with counters := { d.counters with events := d.counters.events + 1 } }

/-- The desk with one more event on its list. -/
def told (d : Desk) (e : Event) : Desk := { d with emitted := d.emitted ++ [e] }

/-- No arrival has been numbered and the matching rule has been asked so often, and every event that
has been numbered is on the list. -/
structure Counted (asked : Nat) (d d' : Desk) : Prop where
  arrivals_eq : d'.counters.arrivals = d.counters.arrivals
  matchings_eq : d'.counters.matchings = d.counters.matchings + asked
  events_eq : d'.counters.events + d.emitted.length = d.counters.events + d'.emitted.length

theorem Counted.of_eq {d d' : Desk} (hc : d'.counters = d.counters)
    (he : d'.emitted = d.emitted) : Counted 0 d d' := by
  constructor
  · rw [hc]
  · rw [hc, Nat.add_zero]
  · rw [hc, he]

theorem Counted.trans {m n : Nat} {d₁ d₂ d₃ : Desk} (h : Counted m d₁ d₂) (k : Counted n d₂ d₃) :
    Counted (m + n) d₁ d₃ where
  arrivals_eq := k.arrivals_eq.trans h.arrivals_eq
  matchings_eq := by rw [k.matchings_eq, h.matchings_eq, Nat.add_assoc]
  events_eq := by
    have hfirst := h.events_eq
    have hsecond := k.events_eq
    omega

theorem counted_told (d : Desk) (e : Event) : Counted 0 d (d.stamped.told e) where
  arrivals_eq := rfl
  matchings_eq := rfl
  events_eq := by
    change d.counters.events + 1 + d.emitted.length = d.counters.events + (d.emitted ++ [e]).length
    rw [List.length_append, List.length_singleton]
    omega

/-- The trade that a `Fill` of an incoming order makes. -/
def tradeOf (world : Surroundings) (taker : Order) (fill : Fill) (sequence : Nat) : Trade where
  id := world.tradeId sequence
  symbol := taker.symbol
  price := fill.price
  quantity := fill.quantity
  maker := fill.maker.id
  taker := taker.id
  takerSide := taker.side
  sequence := sequence
  timestamp := world.now

theorem emitUpdate_run (world : Surroundings) (o : Order) (d : Desk) :
    emitUpdate world o d =
      match OrderUpdate.ofOrder o world.now (d.counters.events + 1) with
      | .error f => .error f d.stamped
      | .ok u => .ok ⟨⟩ (d.stamped.told (.update u)) := by
  unfold emitUpdate nextEvent
  rw [Attempt.run_bind, Attempt.run_modifyGet]
  dsimp only
  rw [Attempt.run_bind]
  cases OrderUpdate.ofOrder o world.now (d.counters.events + 1) <;> rfl

theorem emitRejected_run (world : Surroundings) (o : Order) (reason : RejectReason) (d : Desk) :
    emitRejected world o reason d =
      match OrderUpdate.rejected o reason world.now (d.counters.events + 1) with
      | .error f => .error f d.stamped
      | .ok u => .ok ⟨⟩ (d.stamped.told (.update u)) := by
  unfold emitRejected nextEvent
  rw [Attempt.run_bind, Attempt.run_modifyGet]
  dsimp only
  rw [Attempt.run_bind]
  cases OrderUpdate.rejected o reason world.now (d.counters.events + 1) <;> rfl

theorem emitTrade_run (world : Surroundings) (taker : Order) (fill : Fill) (d : Desk) :
    emitTrade world taker fill d =
      .ok (tradeOf world taker fill (d.counters.events + 1))
        (d.stamped.told (.trade (tradeOf world taker fill (d.counters.events + 1)))) := rfl

/-- The desk without the route of an order that has been filled. -/
def retired (d : Desk) (maker : Order) : Desk :=
  if maker.status = .filled then d.release maker.id else d

theorem report_run (world : Surroundings) (taker : Order) (fill : Fill) (d : Desk) :
    report world taker fill d =
      match OrderUpdate.ofOrder fill.maker world.now (d.counters.events + 2) with
      | .error f => .error f
          ((d.stamped.told (.trade (tradeOf world taker fill (d.counters.events + 1)))).stamped)
      | .ok u => .ok (tradeOf world taker fill (d.counters.events + 1))
          ((((d.stamped.told
            (.trade (tradeOf world taker fill (d.counters.events + 1)))).stamped).told
            (.update u)).retired fill.maker) := by
  unfold report
  rw [Attempt.run_bind, emitTrade_run]
  dsimp only
  rw [Attempt.run_bind, emitUpdate_run]
  have hnext (e : Event) : (d.stamped.told e).counters.events + 1 = d.counters.events + 2 := rfl
  rw [hnext]
  cases OrderUpdate.ofOrder fill.maker world.now (d.counters.events + 2) with
  | error f => rfl
  | ok u =>
      dsimp only
      unfold retired
      split <;> rfl

/-- An update made by `ofOrder` says what the order says of itself. -/
theorem ofOrder_eq_ok {o : Order} {now : Timestamp} {n : Nat} {u : OrderUpdate}
    (h : OrderUpdate.ofOrder o now n = .ok u) :
    u.orderId = o.id ∧ u.remaining = o.remaining ∧ o.filled = .ok u.filled ∧
      u.rejectReason = none := by
  unfold OrderUpdate.ofOrder at h
  cases hf : o.filled with
  | error f =>
      rw [hf] at h
      cases h
  | ok f =>
      rw [hf] at h
      cases h
      exact ⟨rfl, rfl, rfl, rfl⟩

/-- The story of fills, told of an incoming order. -/
inductive Narrates (world : Surroundings) (taker : Order) :
    List Fill → List Trade → List Event → Prop
  | none : Narrates world taker [] [] []
  | some {fill : Fill} {fills : List Fill} {trades : List Trade} {events : List Event} {n m : Nat}
      {u : OrderUpdate} :
      OrderUpdate.ofOrder fill.maker world.now m = .ok u →
      Narrates world taker fills trades events →
      Narrates world taker (fill :: fills) (tradeOf world taker fill n :: trades)
        (.trade (tradeOf world taker fill n) :: .update u :: events)

/-- Reports leave a desk as it was but for events and for routes of orders that are filled. -/
structure Noted (fills : List Fill) (d d' : Desk) : Prop where
  book_eq : d'.book = d.book
  arrivals_eq : d'.counters.arrivals = d.counters.arrivals
  route_eq : ∀ id, (∀ fill ∈ fills, fill.maker.status = .filled → fill.maker.id ≠ id) →
    d'.routes.get? id = d.routes.get? id

section Reports

variable {world : Surroundings} {taker : Order} {fills : List Fill} {d d' : Desk}

theorem report_noted (world : Surroundings) (taker : Order) (fill : Fill) (d : Desk) :
    Noted [fill] d (Attempt.outcome (report world taker fill) d).2 := by
  unfold Attempt.outcome
  rw [report_run]
  cases OrderUpdate.ofOrder fill.maker world.now (d.counters.events + 2) with
  | error f => exact ⟨rfl, rfl, fun _ _ => rfl⟩
  | ok u =>
      dsimp only [retired]
      split
      · next hs =>
          refine ⟨rfl, rfl, fun id hne => ?_⟩
          exact Table.get?_erase_of_ne _ (Ne.symm (hne fill List.mem_cons_self hs))
      · exact ⟨rfl, rfl, fun _ _ => rfl⟩

theorem reports_run (fill : Fill) (fills : List Fill) (d : Desk) :
    (fill :: fills).mapM (report world taker) d =
      match report world taker fill d with
      | .error f d' => .error f d'
      | .ok t d₁ =>
        match fills.mapM (report world taker) d₁ with
        | .error f d' => .error f d'
        | .ok trades d' => .ok (t :: trades) d' := by
  rw [List.mapM_cons, Attempt.run_bind]
  cases report world taker fill d with
  | error f d' => rfl
  | ok t d₁ =>
      dsimp only
      rw [Attempt.run_bind]
      cases fills.mapM (report world taker) d₁ <;> rfl

theorem reports_noted (world : Surroundings) (taker : Order) (fills : List Fill) (d : Desk) :
    Noted fills d (Attempt.outcome (fills.mapM (report world taker)) d).2 := by
  induction fills generalizing d with
  | nil => exact ⟨rfl, rfl, fun _ _ => rfl⟩
  | cons fill fills ih =>
      have hone := report_noted world taker fill d
      have hmore {d₁ : Desk} (h₁ : Noted [fill] d d₁) : Noted (fill :: fills) d d₁ :=
        ⟨h₁.book_eq, h₁.arrivals_eq, fun id hne => h₁.route_eq id fun x hx hs =>
          hne x (by rw [List.mem_singleton.mp hx]; exact List.mem_cons_self) hs⟩
      cases hr : report world taker fill d with
      | error f d₁ =>
          rw [Attempt.outcome_error hr] at hone
          rw [Attempt.outcome_error (by rw [reports_run, hr])]
          exact hmore hone
      | ok t d₁ =>
          rw [Attempt.outcome_ok hr] at hone
          have hrest := ih d₁
          have hboth {d₂ : Desk} (h₂ : Noted fills d₁ d₂) : Noted (fill :: fills) d d₂ :=
            ⟨h₂.book_eq.trans hone.book_eq, h₂.arrivals_eq.trans hone.arrivals_eq,
              fun id hne => (h₂.route_eq id fun x hx => hne x (List.mem_cons_of_mem _ hx)).trans
                ((hmore hone).route_eq id hne)⟩
          cases hm : fills.mapM (report world taker) d₁ with
          | error f d₂ =>
              rw [Attempt.outcome_error hm] at hrest
              rw [Attempt.outcome_error (by rw [reports_run, hr]; dsimp only; rw [hm])]
              exact hboth hrest
          | ok trades d₂ =>
              rw [Attempt.outcome_ok hm] at hrest
              rw [Attempt.outcome_ok (by rw [reports_run, hr]; dsimp only; rw [hm])]
              exact hboth hrest

/-- What reports that come to their end have told `Narrates` the fills. -/
theorem narrates_of_reports {trades : List Trade}
    (h : fills.mapM (report world taker) d = .ok trades d') :
    ∃ events, d'.emitted = d.emitted ++ events ∧ Narrates world taker fills trades events := by
  induction fills generalizing d trades with
  | nil =>
      cases h
      exact ⟨[], (List.append_nil _).symm, .none⟩
  | cons fill fills ih =>
      rw [reports_run, report_run] at h
      cases hu : OrderUpdate.ofOrder fill.maker world.now (d.counters.events + 2) with
      | error f => rw [hu] at h; cases h
      | ok u =>
          rw [hu] at h
          dsimp only at h
          split at h
          · cases h
          · next rest d₂ hm =>
              cases h
              obtain ⟨events, he, hstory⟩ := ih hm
              refine ⟨_, ?_, .some hu hstory⟩
              rw [he]
              unfold retired
              split <;> simp [release, told, stamped]

theorem counted_retired (d : Desk) (maker : Order) : Counted 0 d (d.retired maker) := by
  unfold retired
  split <;> exact .of_eq rfl rfl

theorem report_counted {trade : Trade} {fill : Fill}
    (h : report world taker fill d = .ok trade d') : Counted 0 d d' := by
  rw [report_run] at h
  split at h
  · cases h
  · cases h
    exact ((counted_told d _).trans (counted_told _ _)).trans (counted_retired _ fill.maker)

/-- Reports that come to their end have put what they have numbered on the list. -/
theorem reports_counted {trades : List Trade}
    (h : fills.mapM (report world taker) d = .ok trades d') : Counted 0 d d' := by
  induction fills generalizing d trades with
  | nil =>
      cases h
      exact .of_eq rfl rfl
  | cons fill fills ih =>
      rw [reports_run] at h
      split at h
      · cases h
      · next hr =>
          split at h
          · cases h
          · next hm =>
              cases h
              exact (report_counted hr).trans (ih hm)

theorem report_released {trade : Trade} {fill : Fill} {id : OrderId}
    (h : report world taker fill d = .ok trade d')
    (hid : d.routes.get? id = none ∨ (fill.maker.status = .filled ∧ fill.maker.id = id)) :
    d'.routes.get? id = none := by
  rw [report_run] at h
  split at h
  · cases h
  · cases h
    unfold retired
    split
    · rcases hid with hnone | ⟨-, rfl⟩
      · exact Table.get?_erase_of_none hnone _
      · exact Table.get?_erase_self _ _
    · next hstatus => exact hid.resolve_right fun hfilled => hstatus hfilled.1

/-- Once all is reported, no maker that is filled has a route. -/
theorem reports_released {trades : List Trade} {id : OrderId}
    (h : fills.mapM (report world taker) d = .ok trades d')
    (hid : d.routes.get? id = none ∨
      ∃ fill ∈ fills, fill.maker.status = .filled ∧ fill.maker.id = id) :
    d'.routes.get? id = none := by
  induction fills generalizing d trades with
  | nil =>
      cases h
      exact hid.resolve_right fun ⟨_, hf, _⟩ => (by cases hf)
  | cons fill fills ih =>
      rw [reports_run] at h
      split at h
      · cases h
      · next t d₁ hr =>
          split at h
          · cases h
          · next rest d₂ hm =>
              cases h
              refine ih hm ?_
              rcases hid with hnone | ⟨x, hx, hfilled⟩
              · exact Or.inl (report_released hr (Or.inl hnone))
              · rcases List.mem_cons.mp hx with rfl | hx
                · exact Or.inl (report_released hr (Or.inr hfilled))
                · exact Or.inr ⟨x, hx, hfilled⟩

/-- Nothing but a maker whose `filled` quantity cannot be told stops the reports. -/
theorem reports_isOk (world : Surroundings) (taker : Order)
    (h : ∀ fill ∈ fills, ∃ q, fill.maker.filled = .ok q) (d : Desk) :
    ∃ trades d', fills.mapM (report world taker) d = .ok trades d' := by
  induction fills generalizing d with
  | nil => exact ⟨[], d, rfl⟩
  | cons fill fills ih =>
      obtain ⟨q, hq⟩ := h fill List.mem_cons_self
      rw [reports_run, report_run]
      unfold OrderUpdate.ofOrder
      rw [hq]
      dsimp only [Except.map]
      obtain ⟨trades, d', hm⟩ := ih (fun x hx => h x (List.mem_cons_of_mem _ hx))
        ((((d.stamped.told
          (.trade (tradeOf world taker fill (d.counters.events + 1)))).stamped).told
          (.update _)).retired fill.maker)
      exact ⟨_, d', by rw [hm]⟩

end Reports

end Desk

end Bourse
