import Bourse.Proofs.Engine.Parted
import Bourse.Proofs.Matching.Liquidity
import Bourse.Proofs.Table

/-!
# Orders that must trade as a whole

Before an order that must trade as a whole is matched, the liquidity across is counted
(`Order.count`). Where the count falls short of what the order wants, the order is
`Killed`, and the engine is as if it had never come. Otherwise it trades `AtOnce` what it
can, as an order does that may not wait, and what is left of it is cancelled.

It is the count that decides and the line that is traded with, of which `Order.offered`
tells how much suits. The order trades as a whole or not at all just when the two agree
(`all_or_nothing_iff`), and in an `Exact` book they do.
-/

namespace Bourse

open Decimal (Precision)

/-- The order is filled, and its trades add up to a quantity. -/
structure OrderResult.Whole (r : OrderResult) (quantity : Quantity) : Prop where
  filled : r.status = .filled
  spent : r.order.remaining.SameValue 0
  sum_eq : exactSum (r.trades.map Trade.quantity) = quantity.atoms

/-- How much `crossingLiquidity` counts across for an order. -/
def Order.count (o : Order) (b : Book) : Quantity := b.crossingLiquidity o.side o.price o.remaining

/-- How much is left across of the orders that suit an order, its `supply`. -/
def Order.offered (o : Order) (b : Book) : Int := o.supply (b.lines o.side.opposite)

namespace Desk

variable {world : Surroundings} {o : Order} {d d' : Desk} {r : OrderResult} {before after : Book}
  {fills : List Fill} {e' : Encounter}

theorem mustKill_iff (h : o.timeInForce = .fillOrKill) :
    d.MustKill o ↔ o.count d.book < o.remaining := and_iff_right h

/-- An order has traded at once what it could: it has been matched as by a walk down the line
across, its trades tell of the fills, and what was left of it has been cancelled. -/
structure AtOnce (o : Order) (before : Book) (r : OrderResult) (after : Book) (fills : List Fill)
    (e' : Encounter) : Prop where
  walked : Encounter.Walked o before fills e'
  trades_eq : r.trades.map (fun t => (t.maker, t.taker, t.price, t.quantity)) =
    fills.map fun f => (f.maker.id, o.id, f.price, f.quantity)
  order_eq : r.order = if 0 < e'.incoming.remaining then { e'.incoming with status := .cancelled }
    else e'.incoming
  book_eq : after = e'.book

namespace AtOnce

theorem quantities_eq (h : AtOnce o before r after fills e') :
    r.trades.map Trade.quantity = fills.map Fill.quantity := by
  have hterms := congrArg (List.map fun t : OrderId × OrderId × Price × Quantity => t.2.2.2)
    h.trades_eq
  simpa only [List.map_map, Function.comp_def] using hterms

theorem remaining_eq (h : AtOnce o before r after fills e') :
    r.order.remaining = e'.incoming.remaining := by
  rw [h.order_eq]
  split <;> rfl

/-- An order that the first in line suits has traded. -/
theorem trades_ne_nil {maker : Order} {line : List Order} (h : AtOnce o before r after fills e')
    (hpos : 0 < o.remaining) (hline : before.lines o.side.opposite = maker :: line)
    (hmeets : o.Meets maker) : r.trades ≠ [] := by
  intro hnil
  have hquantities := h.quantities_eq
  rw [hnil] at hquantities
  exact h.walked.fills_ne_nil hpos hline hmeets (List.map_eq_nil_iff.mp hquantities.symm)

end AtOnce

/-- What is left of an order that may not wait is cancelled, and the book stays. -/
theorem Settled.of_not_waits {o' : Order} {b : Book} (h : Settled e' o' b)
    (hw : ¬ Waits e'.incoming) :
    b = e'.book ∧ o' = if 0 < e'.incoming.remaining then { e'.incoming with status := .cancelled }
      else e'.incoming := by
  cases h with
  | done hle => exact ⟨rfl, (if_neg (Int.not_lt.mpr hle)).symm⟩
  | dropped hleft _ _ => exact ⟨rfl, (if_pos hleft).symm⟩
  | rests _ hwaits _ => exact absurd hwaits hw

/-- An order that is not killed and may not wait trades `AtOnce`. -/
theorem Executed.atOnce (h : Executed world o d r d') (hnot : ¬ d.MustKill o) (hw : ¬ Waits o)
    (hs : d.book.Sound) (hp : d.book.Packed) :
    ∃ moments e', Encounter.Trades ⟨o, d.book⟩ moments e' ∧ e'.Stops ∧
      AtOnce o d.book r d'.book (moments.map Prod.snd) e' := by
  cases h with
  | killed hkill _ _ _ _ _ _ => exact absurd hkill hnot
  | @matched moments e' _ _ _ _ _ _ _ hm hstop hstory hset _ _ _ _ _ _ =>
      have hsame := (hm.filled hs).same
      have hwaits : ¬ Waits e'.incoming := by
        simp only [Waits, hsame.orderType_eq, hsame.timeInForce_eq]
        exact hw
      have hterms := hstory.trades_eq.2
      rw [hsame.id_eq] at hterms
      obtain ⟨hbook, horder⟩ := hset.of_not_waits hwaits
      exact ⟨moments, e', hm, hstop, hm.walked hs hp hstop, hterms, horder, hbook⟩

/-- In an `Exact` book an order is filled as a whole by what is counted for it, if that is enough.
-/
theorem AtOnce.whole {p : Precision} {moments : List (Encounter × Fill)}
    (h : AtOnce o before r after (moments.map Prod.snd) e')
    (hm : Encounter.Trades ⟨o, before⟩ moments e') (hstop : e'.Stops) (hb : before.Exact p)
    (hp : p.slack = 0) (ho : o.OnGrid p) (hcap : o.remaining.atoms ≤ p.cap)
    (hle : o.remaining ≤ o.count before) : r.Whole o.remaining := by
  have hforetold := hm.foretold hstop hb hp ho hcap
  have hsum : exactSum (r.trades.map Trade.quantity) = o.remaining.atoms := by
    have henough : o.remaining.atoms ≤ (o.count before).atoms := hle
    rw [h.quantities_eq, hforetold.sum_eq]
    exact Int.min_eq_left henough
  have hleft := hforetold.left_eq
  rw [← h.quantities_eq, hsum, Int.sub_self] at hleft
  refine ⟨?_, ?_, hsum⟩
  · rw [OrderResult.status, h.order_eq, if_neg]
    · exact hforetold.filled_iff.mp hle
    · exact Int.not_lt.mpr (Int.le_of_eq hleft)
  · rw [h.remaining_eq]
    exact hleft

/-- An order that may not wait and finds nobody across is cancelled as it is. -/
theorem execute_alone (world : Surroundings) (hlive : o.status.isLive = true) (hsized : o.Sized)
    (hpos : 0 < o.remaining) (hw : ¬ Waits o) (hnot : ¬ d.MustKill o)
    (hline : d.book.lines o.side.opposite = []) :
    ∃ u, OrderUpdate.ofOrder { o with status := .cancelled } world.now (d.counters.events + 1) =
        .ok u ∧
      execute .priceTime world o d = .ok ⟨{ o with status := .cancelled }, []⟩
        (((d.matched d.book).release o.id).stamped.told (.update u)) := by
  have hmatch : Encounter.priceTime ⟨o, d.book⟩ = .ok [] ⟨o, d.book⟩ := by
    have hacross : (⟨o, d.book⟩ : Encounter).across.orders = [] := hline
    rw [Encounter.priceTime_run, hacross]
    rfl
  have hcancelled : Order.Sized { o with status := .cancelled } := ⟨hsized.nonneg, hsized.le⟩
  obtain ⟨u, hof, hu⟩ := emitUpdate_isOk world hcancelled ((d.matched d.book).release o.id)
  refine ⟨u, hof, ?_⟩
  have hreports : ([] : List Fill).mapM (report world o) (d.matched d.book) =
      .ok [] (d.matched d.book) := rfl
  have hclosed : (d.matched d.book).closed { o with status := .cancelled } =
      (d.matched d.book).release o.id := rfl
  rw [execute_run, if_neg hnot, matchOrder_priceTime, hmatch]
  dsimp only
  rw [hreports]
  dsimp only
  rw [settle_run, if_pos hpos, if_neg hw, orViolate_cancel_run, if_pos hlive]
  dsimp only
  rw [hclosed, hu]

end Desk

namespace Engine

variable {e : Engine} {world : Surroundings} {intent : OrderIntent} {i : Nat} {slot : Slot}
  {r : OrderResult}

/-- An order has been killed: it was cancelled before it traded, books and routes are as they were
before it came, its identity is free, and one update tells of it. -/
structure Killed (before : Engine) (o : Order) (r : OrderResult)
    (reply : Reply Fault (Except Rejection OrderResult)) : Prop where
  result : r = ⟨{ o with status := .cancelled }, []⟩
  unmoved : Unmoved before reply.engine
  free : reply.engine.routes.get? o.id = none
  told : ∃ u : OrderUpdate, reply.events = [.update u] ∧ u.Shows r.order

/-- An admitted order whose `execute` cancels it and does nothing else is `Killed`. -/
theorem killed_of_execute {d : Desk} {u : OrderUpdate} {n : Nat}
    (ha : e.Admits world intent i slot) (hcross : slot.book.isCrossed = false)
    (hbook : d.book = slot.book)
    (hroutes : d.routes = (e.received i (e.entering world intent).id).routes)
    (harrivals : d.counters.arrivals = e.counters.arrivals + 1) (hemitted : d.emitted = [])
    (hu : OrderUpdate.ofOrder { e.entering world intent with status := .cancelled } world.now n =
      .ok u)
    (hrun : Desk.execute e.rule world (e.entering world intent)
        ((e.received i (e.entering world intent).id).desk slot.book) =
      .ok ⟨{ e.entering world intent with status := .cancelled }, []⟩
        ((d.release (e.entering world intent).id).stamped.told (.update u))) :
    ∃ r, (e.submit world intent).answer = .ok (.ok r) ∧
      Killed e (e.entering world intent) r (e.submit world intent) := by
  have hslot := slot_of_lookup? ha.found
  have hdesk : ((d.release (e.entering world intent).id).stamped.told (.update u)).book =
      slot.book := hbook
  obtain ⟨reply, hreply, hengine, hanswer, hevents⟩ := submit_of_admits ha
  rw [guarded_of_uncrossed hrun (hdesk ▸ hcross)] at hreply
  have herased : d.routes.erase (e.entering world intent).id = e.routes := by
    rw [hroutes]
    exact Table.erase_insert ha.free _
  refine ⟨_, by rw [hanswer, hreply]; rfl, rfl, ?_, ?_, u, ?_, OrderUpdate.shows_of_ofOrder hu⟩
  · rw [hengine, hreply]
    refine ⟨rfl, slots_leave_same (e := e.received i _) hslot hdesk, herased, ?_⟩
    exact Nat.le_trans (Nat.le_succ _) (Nat.le_of_eq harrivals.symm)
  · rw [hengine, hreply]
    exact Table.get?_erase_self _ _
  · rw [hevents, hreply, events_of_desk]
    show d.emitted ++ [.update u] = _
    rw [hemitted, List.nil_append]

/-- An admitted order that must trade as a whole is killed if the count falls short. -/
theorem submit_killed (h : e.Sound) (ha : e.Admits world intent i slot)
    (hcross : slot.book.isCrossed = false) (hfok : intent.timeInForce = .fillOrKill)
    (hshort : (e.entering world intent).count slot.book < intent.quantity) :
    ∃ r, (e.submit world intent).answer = .ok (.ok r) ∧
      Killed e (e.entering world intent) r (e.submit world intent) := by
  have hent := ha.enters h.toInOrder
  have hkill : ((e.received i (e.entering world intent).id).desk slot.book).MustKill
      (e.entering world intent) := (Desk.mustKill_iff hfok).mpr hshort
  obtain ⟨u, hu, hrun⟩ := Desk.kill_isOk world hent.live hent.sized
    ((e.received i (e.entering world intent).id).desk slot.book)
  have hexec := (Desk.execute_run e.rule world _ _).trans ((if_pos hkill).trans hrun)
  exact killed_of_execute ha hcross rfl rfl rfl rfl hu hexec

/-- An admitted order that may not wait and finds nobody across fares as if it had been `Killed`. -/
theorem submit_alone (h : e.Sound) (ha : e.Admits world intent i slot)
    (hcross : slot.book.isCrossed = false) (hw : ¬ Desk.Waits (e.entering world intent))
    (htif : intent.timeInForce ≠ .fillOrKill)
    (hline : slot.book.lines intent.side.opposite = []) :
    ∃ r, (e.submit world intent).answer = .ok (.ok r) ∧
      Killed e (e.entering world intent) r (e.submit world intent) := by
  have hent := ha.enters h.toInOrder
  have hpos := (passed_of_checkIntent ha.checked).pos
  obtain ⟨u, hu, hrun⟩ := Desk.execute_alone world hent.live hent.sized hpos hw
    (fun hkill => htif hkill.1) (d := (e.received i (e.entering world intent).id).desk slot.book)
    hline
  rw [← h.rule_eq] at hrun
  exact killed_of_execute ha hcross rfl rfl rfl rfl hu hrun

/-- An admitted order that may not wait and is not killed trades `AtOnce` in the book of its slot,
and other books stay. -/
theorem submit_atOnce (h : e.Sound) (hadm : e.Admits world intent i slot)
    (ha : (e.submit world intent).answer = .ok (.ok r)) (hp : slot.book.Packed)
    (hw : ¬ Desk.Waits (e.entering world intent))
    (hnot : intent.timeInForce = .fillOrKill →
      intent.quantity ≤ (e.entering world intent).count slot.book) :
    ∃ moments e', Encounter.Trades ⟨e.entering world intent, slot.book⟩ moments e' ∧ e'.Stops ∧
      Desk.AtOnce (e.entering world intent) slot.book r e'.book (moments.map Prod.snd) e' ∧
      ∀ j, (e.submit world intent).engine.slots[j]? =
        if j = i then some { slot with book := e'.book } else e.slots[j]? := by
  have hent := hadm.enters h.toInOrder
  obtain ⟨d, hexec, hengine, -⟩ := submit_of_admits_ok h hadm ha
  have hspared : ¬ ((e.received i (e.entering world intent).id).desk slot.book).MustKill
      (e.entering world intent) := fun hkill => Int.not_lt.mpr (hnot hkill.1) hkill.2
  obtain ⟨moments, e', hm, hstop, honce⟩ :=
    (Desk.executed_of_ok hent.sound hexec).atOnce hspared hw hent.sound hp
  have hbook := honce.book_eq
  refine ⟨moments, e', hm, hstop, hbook ▸ honce, fun j => ?_⟩
  rw [hengine, ← hbook]
  exact slots_leave (e := e.received i _) (slot_of_lookup? hadm.found) d j

/-- An order that must trade as a whole has done so, if enough suits it, and else was `Killed`. -/
structure AllOrNothing (before : Engine) (o : Order) (b : Book) (r : OrderResult)
    (reply : Reply Fault (Except Rejection OrderResult)) : Prop where
  whole : o.remaining.atoms ≤ o.offered b → r.Whole o.remaining
  nothing : o.offered b < o.remaining.atoms → Killed before o r reply

/-- An order that must trade as a whole has been `Killed` if too little was counted for it, and has
traded `AtOnce` otherwise. -/
structure FillsOrKills (before : Engine) (o : Order) (i : Nat) (slot : Slot) (r : OrderResult)
    (reply : Reply Fault (Except Rejection OrderResult)) : Prop where
  killed : o.count slot.book < o.remaining → Killed before o r reply
  traded : o.remaining ≤ o.count slot.book → r.trades ≠ [] ∧
    ∃ fills e', Desk.AtOnce o slot.book r e'.book fills e' ∧
      ∀ j, reply.engine.slots[j]? =
        if j = i then some { slot with book := e'.book } else before.slots[j]?

namespace FillsOrKills

variable {before : Engine} {o : Order} {reply : Reply Fault (Except Rejection OrderResult)}

/-- It was `AllOrNothing` just when the count has told rightly whether enough suits, and the order
has traded as a whole wherever the count was enough. -/
theorem all_or_nothing_iff (h : before.FillsOrKills o i slot r reply) :
    before.AllOrNothing o slot.book r reply ↔
      (o.remaining ≤ o.count slot.book ↔ o.remaining.atoms ≤ o.offered slot.book) ∧
        (o.remaining ≤ o.count slot.book → r.Whole o.remaining) := by
  constructor
  · intro hall
    have hiff : o.remaining ≤ o.count slot.book ↔ o.remaining.atoms ≤ o.offered slot.book := by
      constructor
      · intro henough
        by_contra hshort
        have hkilled := hall.nothing (Int.not_le.mp hshort)
        refine (h.traded henough).1 ?_
        rw [hkilled.result]
      · intro henough
        by_contra hshort
        have hkilled := h.killed (Int.not_le.mp hshort)
        have hfilled := (hall.whole henough).filled
        rw [hkilled.result] at hfilled
        cases hfilled
    exact ⟨hiff, fun henough => hall.whole (hiff.mp henough)⟩
  · rintro ⟨hiff, hwhole⟩
    refine ⟨fun henough => hwhole (hiff.mpr henough), fun hshort => h.killed ?_⟩
    exact Int.not_le.mp fun henough => Int.not_le.mpr hshort (hiff.mp henough)

end FillsOrKills

end Engine

end Bourse
