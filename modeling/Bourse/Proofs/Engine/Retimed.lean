import Bourse.Proofs.Engine.FillOrKill

/-!
# The time in force of a market order

A market order never waits, so what is done with what is left of it does not go by its
time in force, and neither does a matching. Only the count before the matching may, in
`MustKill`. Where that makes no difference, two submissions that differ in nothing else
come to the same, faults included; all that tells them apart is the time in force that the
order keeps.

This is said function by function, from a fill (`fill_retimed`) to a submission
(`submit_retimed`): to work on the order with another time in force is to work on the
order and to change it afterwards, which is what `recast` does to the end of an attempt.
-/

namespace Bourse

namespace Attempt

variable {σ τ α β γ δ : Type} {f : α → β} {g : σ → τ} {h : γ → δ}

/-- The same end of an attempt, with its answer and its state told in another way. -/
def recast (f : α → β) (g : σ → τ) : EStateM.Result Fault σ α → EStateM.Result Fault τ β
  | .ok a s => .ok (f a) (g s)
  | .error x s => .error x (g s)

@[simp] theorem recast_id (r : EStateM.Result Fault σ α) : recast id id r = r := by
  cases r <;> rfl

/-- Two attempts come to the same but for a `recast`, if what they begin with does, and what they go
on with. -/
theorem recast_bind {act : Attempt σ α} {act' : Attempt τ β} {next : α → Attempt σ γ}
    {next' : β → Attempt τ δ} {s : σ} {s' : τ} (hact : act' s' = recast f g (act s))
    (hnext : ∀ a s₁, act s = .ok a s₁ → next' (f a) (g s₁) = recast h g (next a s₁)) :
    (act' >>= next') s' = recast h g ((act >>= next) s) := by
  rw [run_bind, run_bind, hact]
  cases hrun : act s with
  | error x s₁ => rfl
  | ok a s₁ => exact hnext a s₁ hrun

end Attempt

open Attempt (recast recast_bind recast_id)

variable {t : TimeInForce} {o : Order} {d : Desk}

/-- The order with another time in force. -/
def Order.retimed (t : TimeInForce) (o : Order) : Order := { o with timeInForce := t }

/-- The intent with another time in force. -/
def OrderIntent.retimed (t : TimeInForce) (intent : OrderIntent) : OrderIntent :=
  { intent with timeInForce := t }

/-- The answer about an order, with another time in force. -/
def OrderResult.retimed (t : TimeInForce) (r : OrderResult) : OrderResult :=
  { r with order := r.order.retimed t }

theorem Order.fill_retimed (q : Quantity) : (o.retimed t).fill q = (o.fill q).map (retimed t) := by
  have hleft : (o.retimed t).remaining = o.remaining := rfl
  have hstatus : (o.retimed t).status = o.status := rfl
  rw [fill_eq, fill_eq, hleft, hstatus]
  by_cases hq : q ≤ 0 ∨ o.remaining < q
  · rw [if_pos hq, if_pos hq]
    rfl
  · rw [if_neg hq, if_neg hq]
    by_cases hlive : o.status.isLive = true
    · rw [if_pos hlive, if_pos hlive]
      cases orFault (o.remaining.sub q) <;> rfl
    · rw [if_neg hlive, if_neg hlive]
      rfl

namespace Encounter

variable {e : Encounter}

/-- The encounter of the `retimed` order. -/
def retimed (t : TimeInForce) (e : Encounter) : Encounter :=
  { e with incoming := e.incoming.retimed t }

theorem trade_retimed (price : Price) (maker : Order) :
    trade price maker (e.retimed t) = recast id (retimed t) (trade price maker e) := by
  have hdealt : (e.retimed t).dealt maker = e.dealt maker := rfl
  have hside : (e.retimed t).incoming.side = e.incoming.side := rfl
  have hbook : (e.retimed t).book = e.book := rfl
  have hfill : (e.retimed t).incoming.fill (e.dealt maker) =
      (e.incoming.fill (e.dealt maker)).map (Order.retimed t) := Order.fill_retimed _
  rw [trade_run, trade_run, hdealt, hside, hbook, hfill]
  cases Book.fillBest e.incoming.side.opposite (e.dealt maker) e.book with
  | error f b => rfl
  | ok maker' b => cases e.incoming.fill (e.dealt maker) <;> rfl

theorem tradeUpTo_retimed (n : Nat) :
    tradeUpTo n (e.retimed t) = recast id (retimed t) (tradeUpTo n e) := by
  induction n generalizing e with
  | zero => rfl
  | succ n ih =>
      have hleft : (e.retimed t).incoming.remaining = e.incoming.remaining := rfl
      have hnext : (e.retimed t).nextMaker? = e.nextMaker? := rfl
      rw [tradeUpTo_run, tradeUpTo_run, hleft, hnext]
      by_cases hspent : e.incoming.remaining ≤ 0
      · rw [if_pos hspent, if_pos hspent]
        rfl
      · rw [if_neg hspent, if_neg hspent]
        cases e.nextMaker? with
        | none => rfl
        | some next =>
            have hcrosses : (e.retimed t).incoming.Crosses next.1 ↔ e.incoming.Crosses next.1 :=
              Iff.rfl
            dsimp only
            by_cases hcross : e.incoming.Crosses next.1
            · rw [if_pos hcross, if_pos (hcrosses.mpr hcross), trade_retimed]
              cases trade next.1 next.2 e with
              | error f e' => rfl
              | ok fill e₁ =>
                  simp only [recast, ih]
                  cases tradeUpTo n e₁ <;> rfl
            · rw [if_neg hcross, if_neg (mt hcrosses.mp hcross)]
              rfl

theorem priceTime_retimed : priceTime (e.retimed t) = recast id (retimed t) (priceTime e) := by
  rw [priceTime_run, priceTime_run]
  exact tradeUpTo_retimed _

end Encounter

namespace Desk

variable {world : Surroundings}

theorem matchOrder_retimed : matchOrder .priceTime (o.retimed t) d =
    recast (Prod.map (Order.retimed t) id) id (matchOrder .priceTime o d) := by
  have hmatch : Encounter.priceTime ⟨o.retimed t, d.book⟩ = _ :=
    Encounter.priceTime_retimed (e := ⟨o, d.book⟩)
  rw [matchOrder_priceTime, matchOrder_priceTime, hmatch]
  cases Encounter.priceTime ⟨o, d.book⟩ <;> rfl

/-- `matchOrder` does not change the type of an order. -/
theorem orderType_of_matchOrder {a : Order × List Fill} {d' : Desk} (hs : d.book.Sound)
    (h : matchOrder .priceTime o d = .ok a d') : a.1.orderType = o.orderType := by
  rw [matchOrder_priceTime] at h
  cases hp : Encounter.priceTime ⟨o, d.book⟩ with
  | error f e' => rw [hp] at h; cases h
  | ok fills e' =>
      rw [hp] at h
      cases h
      obtain ⟨moments, hm, -, -⟩ := Encounter.trades_of_priceTime hp hs
      exact (hm.filled hs).same.orderType_eq

theorem cancel_retimed :
    orViolate (o.retimed t).cancel d = recast (Order.retimed t) id (orViolate o.cancel d) := by
  have hstatus : (o.retimed t).status = o.status := rfl
  rw [orViolate_cancel_run, orViolate_cancel_run, hstatus]
  by_cases hlive : o.status.isLive = true
  · rw [if_pos hlive, if_pos hlive]
    rfl
  · rw [if_neg hlive, if_neg hlive]
    rfl

theorem not_waits_of_market (h : o.orderType = .market) : ¬ Waits o := by
  rintro ⟨hlimit, -⟩
  rw [h] at hlimit
  cases hlimit

/-- `settle` cancels what is left of a market order, whatever its time in force. -/
theorem settle_retimed (h : o.orderType = .market) :
    settle (o.retimed t) d = recast (Order.retimed t) id (settle o d) := by
  have hleft : (o.retimed t).remaining = o.remaining := rfl
  have hwaits : ¬ Waits (o.retimed t) := not_waits_of_market h
  rw [settle_run, settle_run, hleft, if_neg hwaits, if_neg (not_waits_of_market h)]
  by_cases hpos : 0 < o.remaining
  · rw [if_pos hpos, if_pos hpos]
    exact cancel_retimed
  · rw [if_neg hpos, if_neg hpos]
    rfl

/-- The time in force of an order is not told by `emitUpdate`. -/
theorem emitUpdate_retimed :
    emitUpdate world (o.retimed t) d = recast id id (emitUpdate world o d) := by
  rw [recast_id]
  rfl

theorem reports_retimed (fills : List Fill) :
    fills.mapM (report world (o.retimed t)) d = recast id id (fills.mapM (report world o) d) := by
  rw [recast_id]
  rfl

/-- An order is told of and given back. -/
theorem closing_retimed (trades : List Trade) :
    (do emitUpdate world (o.retimed t); return ⟨o.retimed t, trades⟩ : Attempt Desk OrderResult) d =
      recast (OrderResult.retimed t) id
        ((do emitUpdate world o; return ⟨o, trades⟩ : Attempt Desk OrderResult) d) :=
  recast_bind emitUpdate_retimed fun _ _ _ => rfl

theorem kill_retimed :
    kill world (o.retimed t) d = recast (OrderResult.retimed t) id (kill world o d) := by
  refine recast_bind cancel_retimed fun o' d₁ _ => ?_
  exact recast_bind (f := id) rfl fun _ d₂ _ => closing_retimed []

/-- A market order that is `retimed` is executed alike, unless the count before the matching makes a
difference. -/
theorem execute_retimed (h : o.orderType = .market) (hs : d.book.Sound)
    (hkill : d.MustKill (o.retimed t) ↔ d.MustKill o) :
    execute .priceTime world (o.retimed t) d =
      recast (OrderResult.retimed t) id (execute .priceTime world o d) := by
  refine recast_bind (f := id) rfl fun _ _ hget => ?_
  cases hget
  by_cases hk : d.MustKill o
  · simp only [id_eq, if_pos hk, if_pos (hkill.mpr hk)]
    exact kill_retimed
  · simp only [id_eq, if_neg hk, if_neg (mt hkill.mp hk)]
    refine recast_bind matchOrder_retimed fun taker d₁ hmatch => ?_
    refine recast_bind (reports_retimed taker.2) fun trades d₂ _ => ?_
    have htype : taker.1.orderType = .market := (orderType_of_matchOrder hs hmatch).trans h
    refine recast_bind (settle_retimed htype) fun o' d₃ _ => ?_
    have hstatus : (o'.retimed t).status = o'.status := rfl
    rw [hstatus]
    by_cases hterminal : o'.status.isTerminal = true
    · rw [if_pos hterminal, if_pos hterminal]
      exact recast_bind (f := id) rfl fun _ d₄ _ => closing_retimed trades
    · rw [if_neg hterminal, if_neg hterminal]
      exact closing_retimed trades

end Desk

/-- The reply about an order, with another time in force. -/
def Reply.retimed (t : TimeInForce) (r : Reply Fault (Except Rejection OrderResult)) :
    Reply Fault (Except Rejection OrderResult) :=
  { r with answer := r.answer.map (Except.map (OrderResult.retimed t)) }

namespace Engine

variable {e : Engine} {world : Surroundings} {intent : OrderIntent} {i : Nat} {slot : Slot}

theorem guarded_recast {α β : Type} {f : α → β} {act : Attempt Desk α} {act' : Attempt Desk β}
    {x : OrderId} (h : act' (e.desk slot.book) = recast f id (act (e.desk slot.book))) :
    e.guarded i slot x act' =
      { engine := (e.guarded i slot x act).engine
        answer := (e.guarded i slot x act).answer.map f
        output := (e.guarded i slot x act).output } := by
  rw [guarded_run, guarded_run, h]
  cases act (e.desk slot.book) with
  | error x d => rfl
  | ok a d =>
      simp only [recast]
      by_cases hcross : d.book.isCrossed = true <;> simp [hcross, Except.map]

theorem processed_retimed {act act' : Attempt Desk OrderResult} {symbol : String} {x : OrderId}
    (h : act' (e.desk slot.book) = recast (OrderResult.retimed t) id (act (e.desk slot.book))) :
    processed symbol x (e.guarded i slot x act') =
      (processed symbol x (e.guarded i slot x act)).retimed t := by
  rw [guarded_recast h]
  generalize e.guarded i slot x act = r
  obtain ⟨engine, answer, output⟩ := r
  cases answer <;> rfl

/-- A market order that is `retimed` is entered alike, unless the count before the matching makes a
difference. -/
theorem enter_retimed (h : e.Sound) (hslot : e.slots[i]? = some slot)
    (hmarket : o.orderType = .market)
    (hcount : e.routes.get? o.id = none → o.count slot.book < o.remaining →
      (t = .fillOrKill ↔ o.timeInForce = .fillOrKill)) :
    e.enter world i slot (o.retimed t) = (e.enter world i slot o).retimed t := by
  have hid : (o.retimed t).id = o.id := rfl
  by_cases hfree : e.routes.get? o.id = none
  · rw [enter_eq e world i slot (o.retimed t) hfree, enter_eq e world i slot o hfree, h.rule_eq]
    exact processed_retimed (Desk.execute_retimed
      (o := { o with sequence := e.counters.arrivals + 1 }) hmarket (h.book hslot)
      (and_congr_left (hcount hfree)))
  · have hlive : e.routes.contains o.id = true := Option.isSome_iff_ne_none.mpr hfree
    unfold enter
    dsimp only
    rw [hid, if_pos hlive, if_pos hlive]
    rfl

/-- `refuse` does not go by the time in force of the order. -/
theorem refuse_retimed (x : OrderId) (reason : RejectReason) :
    Desk.refuse world (Order.ofIntent x world.now (intent.retimed t)) reason =
      Desk.refuse world (Order.ofIntent x world.now intent) reason := rfl

theorem rejectListed_retimed (x : OrderId) (reason : RejectReason) :
    e.rejectListed world i slot (Order.ofIntent x world.now (intent.retimed t)) reason =
      (e.rejectListed world i slot (Order.ofIntent x world.now intent) reason).retimed t := by
  unfold rejectListed
  rw [refuse_retimed]
  generalize e.exclusive i slot _ = r
  obtain ⟨engine, answer, output⟩ := r
  cases answer <;> rfl

theorem rejectUnlisted_retimed (x : OrderId) :
    e.rejectUnlisted world (Order.ofIntent x world.now (intent.retimed t)) =
      (e.rejectUnlisted world (Order.ofIntent x world.now intent)).retimed t := by
  have hsymbol (intent : OrderIntent) :
      (Order.ofIntent x world.now intent).symbol = intent.symbol := rfl
  have hretimed : (intent.retimed t).symbol = intent.symbol := rfl
  unfold rejectUnlisted
  dsimp only
  rw [refuse_retimed, hsymbol, hsymbol, hretimed]
  cases Desk.refuse world (Order.ofIntent x world.now intent) (.unknownSymbol intent.symbol)
    (e.desk (.empty intent.symbol)) <;> rfl

/-- A market intent that is `retimed` is answered alike, unless the count before the matching makes
a difference. -/
theorem submit_retimed (h : e.Sound) (intent : OrderIntent) (hmarket : intent.orderType = .market)
    (hcount : ∀ i slot, e.Admits world intent i slot →
      (e.entering world intent).count slot.book < intent.quantity →
      (t = .fillOrKill ↔ intent.timeInForce = .fillOrKill)) :
    e.submit world (intent.retimed t) = (e.submit world intent).retimed t := by
  have hsymbol : (intent.retimed t).symbol = intent.symbol := rfl
  have hchecks (config : InstrumentConfig) :
      checkIntent config (intent.retimed t) = checkIntent config intent := rfl
  unfold submit
  rw [hsymbol]
  cases hl : e.lookup? intent.symbol with
  | none => exact rejectUnlisted_retimed _
  | some place =>
      obtain ⟨i, slot⟩ := place
      dsimp only
      rw [hchecks]
      cases hc : checkIntent slot.config intent with
      | error x =>
          cases x with
          | fault f => rfl
          | refusal reason => exact rejectListed_retimed _ reason
      | ok u =>
          exact enter_retimed h (slot_of_lookup? hl) hmarket
            (o := Order.ofIntent (intent.orderId.getD world.orderId) world.now intent)
            fun hfree => hcount i slot ⟨hl, hc, hfree⟩

end Engine

end Bourse
