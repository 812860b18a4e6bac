import Bourse.Proofs.Book.Queue
import Bourse.Proofs.Engine.Steady
import Bourse.Proofs.Engine.Told

/-!
# How an accepted order ends

An execution ends with an order in one of three ways: it is filled, it rests, or what is
left of it is cancelled. Which of them it is can be told from the terms of the order and
what is left of it, and from nothing else (`Trades.incoming_status`). The order that is
given back and the one that rests are two copies; `Settles` says that they are one order,
and that its own side of the book is what it was but for it.
-/

namespace Bourse

namespace Encounter

variable {e e' : Encounter} {fill : Fill} {level : Level} {post : List Level} {maker : Order}
  {ys : List Order} {total : Quantity} {moments : List (Encounter × Fill)}

theorem Deal.own_side (h : Deal e fill e' level post maker ys total) :
    e'.book.ladder e.incoming.side = e.book.ladder e.incoming.side := by
  have hne : e.incoming.side ≠ e.incoming.side.opposite := by
    cases e.incoming.side <;> exact nofun
  have hbook := h.book
  split at hbook
  · obtain ⟨_, -, hx, -⟩ := hbook
    exact hx.ladder_of_ne hne
  · exact hbook.1.ladder_of_ne hne

/-- Who trades is across, so the own side of the incoming order does not change. -/
theorem Trades.own_side (h : Trades e moments e') (hs : e.book.Sound) :
    e'.book.ladder e.incoming.side = e.book.ladder e.incoming.side := by
  induction h with
  | none => rfl
  | some hstep _ ih =>
      obtain ⟨_, _, _, _, _, hdeal⟩ := hstep.deal hs
      have hrest := ih (hdeal.worn hs).sound
      rw [(Order.fill_same hdeal.incoming_fill).side_eq] at hrest
      exact hrest.trans hdeal.own_side

theorem Deal.packed (h : Deal e fill e' level post maker ys total) (hp : e.book.Packed) :
    e'.book.Packed := by
  have hbook := h.book
  split at hbook
  · obtain ⟨_, -, hx, -⟩ := hbook
    exact hp.exchanged hx fun l hl => Level.kept_ne_nil hl
  · refine hp.exchanged hbook.1 fun l hl => ?_
    rw [List.mem_singleton.mp hl]
    exact List.cons_ne_nil _ _

theorem Trades.packed (h : Trades e moments e') (hs : e.book.Sound) (hp : e.book.Packed) :
    e'.book.Packed := by
  induction h with
  | none => exact hp
  | some hstep _ ih =>
      obtain ⟨_, _, _, _, _, hdeal⟩ := hstep.deal hs
      exact ih (hdeal.worn hs).sound (hdeal.packed hp)

/-- The status of the incoming order tells whether it has traded, and whether that was all of
it. -/
theorem Trades.incoming_status (h : Trades e moments e') (hs : e.book.Sound) :
    e'.incoming.status =
      if moments = [] then e.incoming.status
      else if e'.incoming.remaining.SameValue 0 then .filled
      else .partiallyFilled := by
  induction h with
  | none => rfl
  | @some e e₁ e' fill rest hstep htail ih =>
      obtain ⟨_, _, _, _, _, hdeal⟩ := hstep.deal hs
      have hlater := ih (hdeal.worn hs).sound
      rw [if_neg (List.cons_ne_nil _ _)]
      cases htail with
      | none => exact Order.fill_status hdeal.incoming_fill
      | some _ _ =>
          rw [if_neg (List.cons_ne_nil _ _)] at hlater
          exact hlater

end Encounter

namespace Desk

variable {world : Surroundings} {o : Order} {d d' : Desk} {r : OrderResult}

/-- An order has been settled: how it is given back, what the book has of it, and what it has left
of either side. -/
structure Settles (o : Order) (before : Book) (r : OrderResult) (after : Book) : Prop where
  same : o.Same r.order
  quantity_eq : r.order.quantity = o.quantity
  nonneg : 0 ≤ r.order.remaining
  filled_iff : r.status = .filled ↔ r.order.remaining.SameValue 0
  waiting : Waits o → 0 < r.order.remaining →
    r.isResting = true ∧ r.status = if r.trades = [] then .new else .partiallyFilled
  dropped : ¬ Waits o → 0 < r.order.remaining → r.isResting = false ∧ r.status = .cancelled
  sound : after.Sound
  bears : after.Bears r.order
  own_side : (after.ladder o.side).orders =
    if r.isResting then
      (before.ladder o.side).orders.orderedInsert (Order.Before o.side) r.order
    else (before.ladder o.side).orders
  across : 0 < r.order.remaining →
    ∀ x ∈ (after.ladder o.side.opposite).orders, ∀ p, x.price = some p → ¬ o.Crosses p

/-- An order without a limit that something is left of has emptied the other side. -/
theorem Settles.emptied {before after : Book} (h : Settles o before r after)
    (hpacked : after.Packed) (hprice : o.price = none) (hleft : 0 < r.order.remaining) :
    (after.ladder o.side.opposite).levels = [] := by
  cases hl : (after.ladder o.side.opposite).levels with
  | nil => rfl
  | cons level post =>
      have hlevel : level ∈ (after.ladder o.side.opposite).levels := by
        rw [hl]
        exact List.mem_cons_self
      obtain ⟨x, hx⟩ := List.exists_mem_of_ne_nil _ (hpacked _ level hlevel)
      have hmem : x ∈ (after.ladder o.side.opposite).orders :=
        List.mem_flatMap.mpr ⟨level, hlevel, hx⟩
      obtain ⟨price, hp, -⟩ := (h.sound.ladder _).standsAt hmem
      exact absurd (.of_unpriced hprice price) (h.across hleft x hmem price hp)

/-- What `Narrates` fills has as many trades as fills. -/
theorem Narrates.trades_nil_iff {taker : Order} {fills : List Fill} {trades : List Trade}
    {events : List Event} (h : Narrates world taker fills trades events) :
    trades = [] ↔ fills = [] := by
  cases h with
  | none => exact iff_of_true rfl rfl
  | some _ _ => exact iff_of_false (List.cons_ne_nil _ _) (List.cons_ne_nil _ _)

/-- If the matching `Stops`, what is left of an order finds nothing across that suits it, by the
terms it came with. -/
theorem not_crosses_of_stops {e : Encounter} (hstop : e.Stops) (hs : e.book.Sound)
    (hpacked : e.book.Packed) (hsame : o.Same e.incoming) (hleft : 0 < e.incoming.remaining) :
    ∀ x ∈ (e.book.ladder o.side.opposite).orders, ∀ p, x.price = some p → ¬ o.Crosses p := by
  have hnone := hstop.not_crosses hs hpacked hleft
  unfold Encounter.across Order.Crosses at hnone
  rw [hsame.side_eq, hsame.price_eq] at hnone
  exact hnone

/-- An order that comes in new and need not trade as a whole `Settles`. -/
theorem Executed.settles (h : Executed world o d r d') (hent : Enters o d) (hnew : o.status = .new)
    (hpos : 0 < o.remaining) (htif : o.timeInForce ≠ .fillOrKill) (hpacked : d.book.Packed) :
    Settles o d.book r d'.book := by
  have hs := hent.sound
  cases h with
  | killed hkill _ _ _ _ _ _ => exact absurd hkill.1 htif
  | @matched moments e' o' trades events _ _ d' _ hm hstop hstory hset _ _ _ _ _ _ =>
      have hfilled := hm.filled hs
      have hw := hm.worn hs
      have hown : (e'.book.ladder o.side).orders = (d.book.ladder o.side).orders :=
        congrArg Ladder.orders (hm.own_side hs)
      have hwaits : Waits e'.incoming ↔ Waits o := by
        unfold Waits
        rw [hfilled.same.orderType_eq, hfilled.same.timeInForce_eq]
      have hbears := (hset.bears hent hpos hfilled hw).2.1
      have hnonneg : 0 ≤ e'.incoming.remaining := hfilled.remaining_nonneg (Int.le_of_lt hpos)
      have hacross := not_crosses_of_stops hstop hw.sound (hm.packed hs hpacked) hfilled.same
      have hsome (hleft : 0 < e'.incoming.remaining) : ¬ e'.incoming.remaining.SameValue 0 :=
        fun hz => Int.ne_of_gt hleft hz
      have htraded : trades = [] ↔ moments = [] :=
        hstory.trades_nil_iff.trans List.map_eq_nil_iff
      generalize d'.book = b at hset hbears
      cases hset with
      | done hle =>
          have hnot : ¬ 0 < e'.incoming.remaining := Int.not_lt.mpr hle
          have hstatus := hfilled.status_of_used_up hpos hle
          exact
            { same := hfilled.same
              quantity_eq := hfilled.quantity_eq
              nonneg := hnonneg
              filled_iff := iff_of_true hstatus (Int.le_antisymm hle hnonneg)
              waiting := fun _ hleft => absurd hleft hnot
              dropped := fun _ hleft => absurd hleft hnot
              sound := hw.sound
              bears := hbears
              own_side := by
                rw [hown, OrderResult.isResting, hstatus]
                rfl
              across := fun hleft => absurd hleft hnot }
      | dropped hleft hnot _ =>
          exact
            { same := { hfilled.same with }
              quantity_eq := hfilled.quantity_eq
              nonneg := hnonneg
              filled_iff := iff_of_false nofun (hsome hleft)
              waiting := fun hw' => absurd (hwaits.mpr hw') hnot
              dropped := fun _ _ => ⟨rfl, rfl⟩
              sound := hw.sound
              bears := hbears
              own_side := hown
              across := hacross }
      | rests hleft hwait hins =>
          have harr := hent.arrived hfilled hw hwait.1 hleft hins
          have hlive := hfilled.isLive hent.live hleft
          have hside : e'.incoming.side = o.side := hfilled.same.side_eq
          have hfree : ¬ e'.book.Has e'.incoming.id := by
            rw [hfilled.same.id_eq]
            exact fun hx => hent.free (hw.has hx)
          have hopposite : o.side.opposite ≠ e'.incoming.side := by
            rw [hside]
            cases o.side <;> exact nofun
          exact
            { same := hfilled.same
              quantity_eq := hfilled.quantity_eq
              nonneg := hnonneg
              filled_iff := by
                refine iff_of_false (fun hstatus => ?_) (hsome hleft)
                rw [show e'.incoming.status = .filled from hstatus] at hlive
                cases hlive
              waiting := by
                intro _ _
                refine ⟨hlive, ?_⟩
                rw [OrderResult.status, hm.incoming_status hs, if_neg (hsome hleft)]
                simp only [htraded, hnew]
              dropped := fun hnot _ => absurd (hwaits.mp hwait) hnot
              sound := harr.sound
              bears := hbears
              own_side := by
                have hline := harr.line_eq hw.sound hfree
                rw [hside, hown] at hline
                rw [OrderResult.isResting, hlive, if_pos rfl]
                exact hline
              across := by
                intro _
                rw [harr.line_of_ne hw.sound hopposite]
                exact hacross hleft }

end Desk

end Bourse
