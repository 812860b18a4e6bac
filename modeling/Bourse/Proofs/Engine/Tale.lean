import Bourse.Proofs.Engine.Told

/-!
# The order of what is told

An execution tells its story in a fixed order, a `Tale`. Each trade is followed at once by
how its maker stands after it, and how the order itself stands comes last, after
everything that has happened to it. A cancellation and a modification that keeps the order
in its place tell of the order once, or not at all if nothing changes; `Order.Amended` has
the cases of a modification.
-/

namespace Bourse

/-- What is told of an order and of its trades: each trade and after it the maker, which does not
come again, and at last the order, as it stands then. -/
inductive Tale (o : Order) : List Trade → List Event → Prop
  | last {u : OrderUpdate} : u.Shows o → Tale o [] [.update u]
  | trade {t : Trade} {u : OrderUpdate} {trades : List Trade} {events : List Event} :
      t.taker = o.id → t.maker ≠ o.id → (∀ t' ∈ trades, t'.maker ≠ t.maker) →
      u.orderId = t.maker → (u.status = .filled ∨ u.status = .partiallyFilled) →
      Tale o trades events → Tale o (t :: trades) (.trade t :: .update u :: events)

/-- A maker that has traded is gone, or the matching is over. -/
theorem Encounter.Trades.makers_distinct {e e' : Encounter} {moments : List (Encounter × Fill)}
    (h : Trades e moments e') (hs : e.book.Sound) :
    moments.Pairwise fun m m' => m'.2.maker.id ≠ m.2.maker.id := by
  induction h with
  | none => exact .nil
  | some hstep htail ih =>
      obtain ⟨_, _, _, _, _, hdeal⟩ := hstep.deal hs
      have hsound := (hdeal.worn hs).sound
      refine List.pairwise_cons.mpr ⟨fun m hm hid => ?_, ih hsound⟩
      rcases hdeal.maker_cases with ⟨-, hgone⟩ | ⟨hz, -, -⟩
      · obtain ⟨x, hx, hfilled⟩ := htail.makers hsound hm
        exact hgone ⟨x, hx, hfilled.same.id_eq.symm.trans hid⟩
      · cases htail with
        | none => cases hm
        | some hstep' _ => exact absurd hstep'.left (Int.not_lt.mpr (Int.le_of_eq hz))

namespace Desk

variable {world : Surroundings} {o : Order} {d d' : Desk} {id : OrderId}

theorem Narrates.makers_eq {taker : Order} {fills : List Fill} {trades : List Trade}
    {events : List Event} (h : Narrates world taker fills trades events) :
    trades.map Trade.maker = fills.map fun fill => fill.maker.id := by
  induction h with
  | none => rfl
  | some _ _ ih =>
      simp only [List.map_cons, ih]
      rfl

theorem Narrates.tale {taker : Order} {fills : List Fill} {trades : List Trade}
    {events : List Event} {u : OrderUpdate} (h : Narrates world taker fills trades events)
    (hid : taker.id = o.id)
    (hmakers : ∀ fill ∈ fills, fill.maker.id ≠ o.id ∧
      (fill.maker.status = .filled ∨ fill.maker.status = .partiallyFilled))
    (hdistinct : fills.Pairwise fun fill fill' => fill'.maker.id ≠ fill.maker.id)
    (hu : u.Shows o) : Tale o trades (events ++ [.update u]) := by
  induction h with
  | none => exact .last hu
  | @some fill fills trades events n m v hv hrest ih =>
      have hshows := OrderUpdate.shows_of_ofOrder hv
      obtain ⟨hne, hstatus⟩ := hmakers fill List.mem_cons_self
      obtain ⟨hfirst, hothers⟩ := List.pairwise_cons.mp hdistinct
      refine .trade hid hne (fun t ht => ?_) hshows.id_eq ?_
        (ih (fun x hx => hmakers x (List.mem_cons_of_mem _ hx)) hothers)
      · have hmem := List.mem_map_of_mem (f := Trade.maker) ht
        rw [hrest.makers_eq] at hmem
        obtain ⟨fill', hfill', heq⟩ := List.mem_map.mp hmem
        rw [← heq]
        exact hfirst fill' hfill'
      · rw [hshows.status_eq]
        exact hstatus

/-- An `Executed` order is told of by a `Tale` of its trades and then of the order as it is answered
with. -/
theorem Executed.tale {r : OrderResult} (h : Executed world o d r d') (hs : d.book.Sound)
    (hfree : ¬ d.book.Has o.id) (he : d.emitted = []) : Tale r.order r.trades d'.emitted := by
  cases h with
  | killed _ _ _ hu hemitted =>
      rw [hemitted, he]
      exact .last (OrderUpdate.shows_of_ofOrder hu)
  | matched _ hm _ hstory hset hu hemitted =>
      rw [hemitted, he]
      refine hstory.tale hset.same.id_eq.symm (fun fill hf => ?_)
        (List.pairwise_map.mpr (hm.makers_distinct hs)) (OrderUpdate.shows_of_ofOrder hu)
      obtain ⟨m, hm', rfl⟩ := List.mem_map.mp hf
      refine ⟨fun hid => hfree ?_, hm.maker_status hs hm'⟩
      obtain ⟨x, hx, hfilled⟩ := hm.makers hs hm'
      have hown := hset.same.id_eq.trans (hm.filled hs).same.id_eq
      exact ⟨x, hx, hfilled.same.id_eq.symm.trans (hid.trans hown)⟩

/-- `Cancelled` work that has found its order tells of it once. -/
theorem Cancelled.tale {r : CancelResult} (h : Cancelled world id d r d') (he : d.emitted = []) :
    match r with
    | .cancelled x =>
      x.id = id ∧ x.status = .cancelled ∧ ∃ u : OrderUpdate, d'.emitted = [.update u] ∧ u.Shows x
    | .notFound => d'.emitted = [] := by
  cases h with
  | absent _ => exact he
  | dead _ _ _ _ => exact he
  | @found x u _ _ _ hid _ _ hu hemitted =>
      refine ⟨hid, rfl, u, ?_, OrderUpdate.shows_of_ofOrder hu⟩
      rw [hemitted, he]
      rfl

end Desk

/-- What a modification tells of an order that rests. An order that is queued anew has a `Tale` of
its own, as if it had just come in; one that is only lessened is told of once, and nothing is told
of one that stays as it is. -/
inductive Order.Amended (o : Order) (request : ModifyRequest) : OrderResult → List Event → Prop
  | requeued {r : OrderResult} {events : List Event} :
      ¬ (Desk.SamePrice (request.price.or o.price) o.price ∧ request.quantity ≤ o.remaining) →
      r.order.id = o.id → Tale r.order r.trades events → o.Amended request r events
  | lessened {o' : Order} {u : OrderUpdate} :
      Desk.SamePrice (request.price.or o.price) o.price → request.quantity < o.remaining →
      o'.id = o.id → u.Shows o' → o.Amended request ⟨o', []⟩ [.update u]
  | same : Desk.SamePrice (request.price.or o.price) o.price →
      request.quantity.SameValue o.remaining → o.Amended request ⟨o, []⟩ []

theorem Desk.Modified.tale {world : Surroundings} {id : OrderId} {request : ModifyRequest}
    {d d' : Desk} {r : ModifyResult} (h : Modified world id request d r d') (he : d.emitted = []) :
    match r with
    | .modified res => ∃ o, d.book.Holds o ∧ o.id = id ∧ o.Amended request res d'.emitted
    | .notFound | .rejected _ => d'.emitted = [] := by
  cases h with
  | absent _ => exact he
  | @same o ho hid hprice hquantity =>
      refine ⟨o, ho, hid, ?_⟩
      rw [he]
      exact .same hprice hquantity
  | @lessened o o' u _ _ ho hid hprice hless _ hset _ hu hemitted _ _ =>
      refine ⟨o, ho, hid, ?_⟩
      rw [hemitted, he]
      exact .lessened hprice hless (Order.same_of_setRemaining hset).id_eq
        (OrderUpdate.shows_of_ofOrder hu)
  | @requeued o o' b res _ ho hid hnot _ hdep hset hexec =>
      have hexecuted := executed_of_ok (d := d.rearrived b) hdep.sound hexec
      have hown : o'.id = o.id := (Order.same_of_setRemaining hset).id_eq
      refine ⟨o, ho, hid, .requeued hnot ?_ (hexecuted.tale hdep.sound (fun hhas => ?_) he)⟩
      · exact (hexecuted.same hdep.sound).id_eq.trans hown
      · exact (hdep.has_iff.mp hhas).2 hown

end Bourse
