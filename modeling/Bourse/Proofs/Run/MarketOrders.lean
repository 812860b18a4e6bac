import Bourse.Proofs.Engine.Retimed
import Bourse.Proofs.Run.FillOrKill

/-!
# Market orders trade at once

A market order fills what it can, and what is left of it is cancelled (`Spent`). Whether
it was meant to wait or not makes no difference at all. If it must trade as a whole it
fares the same, but for one case, `FallsShort`: where less is counted across than it
wants, and somebody is there to trade with, it is killed and has not traded, although
another market order would have.
-/

namespace Bourse

/-- How an order has ended: its trades, its status and what is left of it. -/
def OrderResult.ending (r : OrderResult) : List Trade × OrderStatus × Quantity :=
  (r.trades, r.status, r.order.remaining)

/-- Two submissions have ended in the same way, and left the same books and routes. -/
structure Reply.Agrees (s s' : Reply Fault (Except Rejection OrderResult)) : Prop where
  answer_eq : s'.answer.map (Except.map OrderResult.ending) =
    s.answer.map (Except.map OrderResult.ending)
  slots_eq : s'.engine.slots = s.engine.slots
  routes_eq : s'.engine.routes = s.engine.routes

theorem Reply.agrees_retimed (t : TimeInForce) (s : Reply Fault (Except Rejection OrderResult)) :
    s.Agrees (s.retimed t) := by
  obtain ⟨engine, answer, output⟩ := s
  refine ⟨?_, rfl, rfl⟩
  cases answer with
  | error f => rfl
  | ok res => cases res <;> rfl

/-- Where one of two submissions that agree (`Reply.Agrees`) has been accepted the other has, and
has ended so. -/
theorem Reply.Agrees.answer_ok {s s' : Reply Fault (Except Rejection OrderResult)} {r : OrderResult}
    (h : s.Agrees s') (hr : s'.answer = .ok (.ok r)) :
    ∃ r', s.answer = .ok (.ok r') ∧ r'.ending = r.ending := by
  have heq := h.answer_eq
  rw [hr] at heq
  obtain ⟨res, hres, hending⟩ := map_eq_ok.mp heq.symm
  obtain ⟨r', rfl, hending'⟩ := map_eq_ok.mp hending
  exact ⟨r', hres, hending'⟩

namespace Engine

variable {e : Engine} {world : Surroundings} {intent : OrderIntent} {i : Nat} {slot : Slot}
  {r : OrderResult}

/-- The intent is admitted, there is somebody across, but less is counted than it wants. -/
def FallsShort (e : Engine) (world : Surroundings) (intent : OrderIntent) : Prop :=
  ∃ i slot, e.Admits world intent i slot ∧
    (e.entering world intent).count slot.book < intent.quantity ∧
    slot.book.lines intent.side.opposite ≠ []

theorem Admits.retimed (h : e.Admits world intent i slot) (t : TimeInForce) :
    e.Admits world (intent.retimed t) i slot := ⟨h.found, h.checked, h.free⟩

/-- Two orders that were `Killed` have ended in the same way. -/
theorem Killed.agrees {o o' : Order} {r r' : OrderResult}
    {s s' : Reply Fault (Except Rejection OrderResult)} (h : Killed e o r s)
    (h' : Killed e o' r' s') (hr : s.answer = .ok (.ok r)) (hr' : s'.answer = .ok (.ok r'))
    (hleft : o'.remaining = o.remaining) : s.Agrees s' where
  answer_eq := by
    rw [hr, hr', h.result, h'.result]
    simp only [Except.map, OrderResult.ending, OrderResult.status, hleft]
  slots_eq := h'.unmoved.slots_eq.trans h.unmoved.slots_eq.symm
  routes_eq := h'.unmoved.routes_eq.trans h.unmoved.routes_eq.symm

/-- A market order has traded at once: what it could not get is cancelled, and nobody is left
across, or it is filled. -/
structure Spent (before : Engine) (o : Order) (r : OrderResult)
    (reply : Reply Fault (Except Rejection OrderResult)) (i : Nat) (slot : Slot)
    (fills : List Fill) (e' : Encounter) : Prop where
  atOnce : Desk.AtOnce o slot.book r e'.book fills e'
  slots_eq : ∀ j, reply.engine.slots[j]? =
    if j = i then some { slot with book := e'.book } else before.slots[j]?
  unrested : r.isResting = false
  status_eq : r.status = if 0 < r.order.remaining then .cancelled else .filled
  emptied : 0 < r.order.remaining → e'.book.lines o.side.opposite = []

theorem submit_spent (h : e.Sound) (hb : slot.book.Parted) (ha : e.Admits world intent i slot)
    (hr : (e.submit world intent).answer = .ok (.ok r)) (hmarket : intent.orderType = .market)
    (htif : intent.timeInForce ≠ .fillOrKill) :
    ∃ fills e', Spent e (e.entering world intent) r (e.submit world intent) i slot fills e' := by
  have hpassed := passed_of_checkIntent ha.checked
  obtain ⟨moments, e', hm, -, honce, hslots⟩ := submit_atOnce h ha hr hb.packed
    (Desk.not_waits_of_market hmarket) fun hfok => absurd hfok htif
  have hw := hm.worn hb.sound
  have hstatus : r.status = if 0 < r.order.remaining then .cancelled else .filled := by
    rw [honce.remaining_eq, OrderResult.status, honce.order_eq]
    by_cases hleft : 0 < e'.incoming.remaining
    · rw [if_pos hleft, if_pos hleft]
    · rw [if_neg hleft, if_neg hleft]
      exact (hm.filled hb.sound).status_of_used_up hpassed.pos (Int.not_lt.mp hleft)
  refine ⟨_, e', honce, hslots, ?_, hstatus, fun hleft => ?_⟩
  · rw [OrderResult.isResting, show r.order.status = _ from hstatus]
    split <;> rfl
  · rw [honce.remaining_eq] at hleft
    have hnone := honce.walked.ends.resolve_left (Int.not_le.mpr hleft)
    refine List.eq_nil_iff_forall_not_mem.mpr fun x hx => ?_
    obtain ⟨price, hprice, -⟩ := hw.sound.standsAt (hw.sound.holds_of_mem hx)
    exact hnone x hx price hprice (Order.Crosses.of_unpriced (hpassed.unpriced hmarket) price)

/-- A market order that need not trade as a whole has traded at once, where it is accepted. -/
theorem submit_at_once (h : e.Sound) (hparted : e.Parted)
    (hr : (e.submit world intent).answer = .ok (.ok r)) (hmarket : intent.orderType = .market)
    (htif : intent.timeInForce ≠ .fillOrKill) :
    ∃ i slot fills e', e.lookup? intent.symbol = some (i, slot) ∧
      Spent e (e.entering world intent) r (e.submit world intent) i slot fills e' := by
  obtain ⟨i, slot, d, hadm, -⟩ := submit_of_ok h hr
  have hb := hparted i slot (slot_of_lookup? hadm.found)
  obtain ⟨fills, e', hspent⟩ := submit_spent h hb hadm hr hmarket htif
  exact ⟨i, slot, fills, e', hadm.found, hspent⟩

/-- Who `FallsShort` and must trade as a whole is killed; who need not has traded. -/
theorem submit_falls_short (h : e.Sound) (hparted : e.Parted) (hmarket : intent.orderType = .market)
    (hshort : e.FallsShort world intent) :
    (∃ r, (e.submit world (intent.retimed .fillOrKill)).answer = .ok (.ok r) ∧
      Killed e (e.entering world (intent.retimed .fillOrKill)) r
        (e.submit world (intent.retimed .fillOrKill))) ∧
    ∀ r, (e.submit world (intent.retimed .immediateOrCancel)).answer = .ok (.ok r) →
      r.trades ≠ [] := by
  obtain ⟨i, slot, ha, hcount, hline⟩ := hshort
  have hb := hparted i slot (slot_of_lookup? ha.found)
  have hpassed := passed_of_checkIntent ha.checked
  refine ⟨submit_killed h (ha.retimed _) hb.isCrossed_eq rfl hcount, fun r hr => ?_⟩
  obtain ⟨fills, e', hspent⟩ := submit_spent h hb (ha.retimed _) hr hmarket nofun
  obtain ⟨maker, line, hline⟩ := List.exists_cons_of_ne_nil hline
  have hmem : maker ∈ slot.book.lines intent.side.opposite := by
    rw [hline]
    exact List.mem_cons_self
  obtain ⟨price, hprice, -⟩ := hb.sound.standsAt (hb.sound.holds_of_mem hmem)
  exact hspent.atOnce.trades_ne_nil hpassed.pos hline
    ⟨price, hprice, .of_unpriced (hpassed.unpriced hmarket) price⟩

/-- Who does not fall short, or finds nobody across, fares the same if it must trade as a whole. -/
theorem submit_agrees (h : e.Sound) (hparted : e.Parted) (hmarket : intent.orderType = .market)
    (hnot : ¬ e.FallsShort world intent) :
    (e.submit world (intent.retimed .immediateOrCancel)).Agrees
      (e.submit world (intent.retimed .fillOrKill)) := by
  by_cases hcount : ∃ i slot, e.Admits world intent i slot ∧
      (e.entering world intent).count slot.book < intent.quantity
  · obtain ⟨i, slot, ha, hcount⟩ := hcount
    have hb := hparted i slot (slot_of_lookup? ha.found)
    have hline : slot.book.lines intent.side.opposite = [] := by
      by_contra hsome
      exact hnot ⟨i, slot, ha, hcount, hsome⟩
    obtain ⟨r, hr, hkilled⟩ := submit_killed h (ha.retimed .fillOrKill) hb.isCrossed_eq rfl hcount
    obtain ⟨r', hr', hvain⟩ := submit_alone h (ha.retimed .immediateOrCancel) hb.isCrossed_eq
      (Desk.not_waits_of_market hmarket) nofun hline
    exact hvain.agrees hkilled hr' hr rfl
  · have hretimed : e.submit world (intent.retimed .fillOrKill) = _ :=
      submit_retimed h (intent.retimed .immediateOrCancel) hmarket
        fun i slot ha hshort => absurd ⟨i, slot, ⟨ha.found, ha.checked, ha.free⟩, hshort⟩ hcount
    rw [hretimed]
    exact Reply.agrees_retimed _ _

end Engine

/-- How a market intent fares, whatever its time in force. -/
structure TradesAtOnce (e : Engine) (world : Surroundings) (intent : OrderIntent) : Prop where
  waiting : e.submit world (intent.retimed .goodTillCancel) =
    (e.submit world (intent.retimed .immediateOrCancel)).retimed .goodTillCancel
  spent : ∀ t, t ≠ .fillOrKill → ∀ r, (e.submit world (intent.retimed t)).answer = .ok (.ok r) →
    ∃ i slot fills e', e.lookup? intent.symbol = some (i, slot) ∧
      Engine.Spent e (e.entering world (intent.retimed t)) r (e.submit world (intent.retimed t))
        i slot fills e'
  whole_iff : (e.submit world (intent.retimed .immediateOrCancel)).Agrees
    (e.submit world (intent.retimed .fillOrKill)) ↔ ¬ e.FallsShort world intent
  killed : e.FallsShort world intent →
    (∃ r, (e.submit world (intent.retimed .fillOrKill)).answer = .ok (.ok r) ∧
      Engine.Killed e (e.entering world (intent.retimed .fillOrKill)) r
        (e.submit world (intent.retimed .fillOrKill))) ∧
    ∀ r, (e.submit world (intent.retimed .immediateOrCancel)).answer = .ok (.ok r) → r.trades ≠ []

/-- A market order trades at once what it can, after any `Faultless` run, and whether it may wait
makes no difference. If it must trade as a whole it fares the same, unless it `FallsShort` with
somebody across: then it is killed. -/
theorem market_orders_trade_at_once {past : List Turn} {e : Engine} (h : Run past e)
    (hok : Faultless past) (world : Surroundings) {intent : OrderIntent}
    (hmarket : intent.orderType = .market) : TradesAtOnce e world intent := by
  obtain ⟨hs, -, -⟩ := h.orderly hok
  have hparted := h.parted hok
  refine
    { waiting := Engine.submit_retimed hs (intent.retimed .immediateOrCancel) hmarket
        fun _ _ _ _ => iff_of_false nofun nofun
      spent := fun _ ht _ hr => Engine.submit_at_once hs hparted hr hmarket ht
      whole_iff := ⟨fun hagrees hshort => ?_, Engine.submit_agrees hs hparted hmarket⟩
      killed := Engine.submit_falls_short hs hparted hmarket }
  obtain ⟨⟨r, hr, hkilled⟩, htrades⟩ := Engine.submit_falls_short hs hparted hmarket hshort
  obtain ⟨r', hr', hending⟩ := hagrees.answer_ok hr
  refine htrades r' hr' ?_
  rw [show r'.trades = r.trades from congrArg Prod.fst hending, hkilled.result]

/-- Someone asks 1 for one. -/
def single : List Call :=
  [.addInstrument (.plain "X"), .submit (.handing 1) (.limit "X" .sell 1 1)]

/-- What becomes of a market order for so many at a single ask, with each time in force. -/
def singleEndings (quantity : Quantity) : List (Option (OrderStatus × Nat)) :=
  [TimeInForce.goodTillCancel, .immediateOrCancel, .fillOrKill].map fun t =>
    (((Engine.empty .priceTime).follow [] single).2.accepted? (.handing 2)
      ((OrderIntent.market "X" .buy quantity).retimed t)).map fun r => (r.status, r.trades.length)

/-- One can be had, two cannot. -/
theorem market_orders_trade_at_once_single :
    (∀ quantity ∈ [1, Decimal.scaled 2 0],
        TradesAtOnce ((Engine.empty .priceTime).follow [] single).2 (.handing 2)
          (.market "X" .buy quantity)) ∧
      [1, Decimal.scaled 2 0].map singleEndings =
        [[some (.filled, 1), some (.filled, 1), some (.filled, 1)],
          [some (.cancelled, 1), some (.cancelled, 1), some (.cancelled, 0)]] :=
  ⟨fun _ _ => market_orders_trade_at_once (History.start.follow single) (by decide +kernel) _ rfl,
    by decide +kernel⟩

/-- A market order does not always fare the same: one that must trade as a whole is killed where
another takes what there is. -/
theorem killed_market_order_single :
    ¬ ∀ past e, Run past e → Faultless past → ∀ world (intent : OrderIntent),
      intent.orderType = .market →
      (e.submit world (intent.retimed .immediateOrCancel)).Agrees
        (e.submit world (intent.retimed .fillOrKill)) := by
  intro h
  have hagrees := h _ _ (History.start.follow single) (by decide +kernel) (.handing 2)
    (.market "X" .buy (.scaled 2 0)) rfl
  have hkilled : (((Engine.empty .priceTime).follow [] single).2.accepted? (.handing 2)
      ((OrderIntent.market "X" .buy (.scaled 2 0)).retimed .fillOrKill)).any
        (fun r => r.trades.isEmpty) = true := by decide +kernel
  have htraded : (((Engine.empty .priceTime).follow [] single).2.accepted? (.handing 2)
      ((OrderIntent.market "X" .buy (.scaled 2 0)).retimed .immediateOrCancel)).all
        (fun r => !r.trades.isEmpty) = true := by decide +kernel
  obtain ⟨r, hr, hnone⟩ := (Option.any_eq_true _ _).mp hkilled
  obtain ⟨r', hr', hending⟩ := hagrees.answer_ok (Engine.accepted?_eq_some.mp hr)
  have hsame : r'.trades = r.trades := congrArg Prod.fst hending
  rw [Engine.accepted?_eq_some.mpr hr', Option.all_some, hsame, hnone] at htraded
  cases htraded

end Bourse
