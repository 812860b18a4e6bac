import Bourse.Matching
import Bourse.Proofs.Book.Operations

/-!
# The course of a matching

Price-time priority is a loop, and the loop is looked at once, here: what it does is a
sequence of `Trades`, each at the state the one before has left, and it comes to its end
when the incoming order is used up or nothing in line suits it (`Stops`). The bound on its
length is never what ends it. Each trade uses up the order in line or the incoming one
(`Deal.shortens`); the first shortens the other side of the book by an order, the second
ends the matching.

A matching that breaks off has made some trades and failed at the next (`Breaks`). Either
way all that has happened to the book is that orders in it were filled, and that those
with nothing left are gone: it is `Worn`.
-/

namespace Bourse

namespace Book

/-- A book after some of its orders have been filled. -/
structure Worn (before after : Book) : Prop where
  sound : after.Sound
  from_fills : ∀ o', after.Holds o' → ∃ o, before.Holds o ∧ o.Filled o'

namespace Worn

variable {b b₁ b₂ b' : Book} {o o' : Order}

theorem refl (h : b.Sound) : Worn b b := ⟨h, fun o ho => ⟨o, ho, .none⟩⟩

theorem trans (h : Worn b b₁) (k : Worn b₁ b₂) : Worn b b₂ where
  sound := k.sound
  from_fills o₂ h₂ := by
    obtain ⟨o₁, h₁, hf₁⟩ := k.from_fills o₂ h₂
    obtain ⟨o, ho, hf⟩ := h.from_fills o₁ h₁
    exact ⟨o, ho, hf.trans hf₁⟩

theorem has (h : Worn b b') {id : OrderId} (hid : b'.Has id) : b.Has id := by
  obtain ⟨o', ho', rfl⟩ := hid
  obtain ⟨o, ho, hf⟩ := h.from_fills o' ho'
  exact ⟨o, ho, hf.same.id_eq.symm⟩

theorem of_departed (h : Departed o b b') : Worn b b' :=
  ⟨h.sound, fun x hx => ⟨x, ((h.holds_iff x).mp hx).1, .none⟩⟩

theorem of_kept (h : Kept b b') : Worn b b' :=
  ⟨h.sound, fun x hx => ⟨x, (h.holds_iff x).mp hx, .none⟩⟩

theorem of_rewritten (h : Rewritten o o' b b') (ho : b.Holds o) (hf : o.Filled o') : Worn b b' := by
  refine ⟨h.sound, fun x hx => ?_⟩
  rcases (h.holds_iff x).mp hx with rfl | ⟨hx, -⟩
  · exact ⟨o, ho, hf⟩
  · exact ⟨x, hx, .none⟩

end Worn

end Book

namespace Encounter

/-- The levels opposite the incoming order. -/
def across (e : Encounter) : Ladder := e.book.ladder e.incoming.side.opposite

/-- The incoming order trades once with the order in line, which suits it. -/
structure Step (e : Encounter) (fill : Fill) (e' : Encounter) : Prop where
  left : 0 < e.incoming.remaining
  crosses : e.incoming.Crosses fill.price
  run : ∃ maker, e.nextMaker? = some (fill.price, maker) ∧ trade fill.price maker e = .ok fill e'

/-- Trades, one `Step` upon the other, each with the state it was made in. -/
inductive Trades : Encounter → List (Encounter × Fill) → Encounter → Prop
  | none {e : Encounter} : Trades e [] e
  | some {e e₁ e' : Encounter} {fill : Fill} {rest : List (Encounter × Fill)} :
      Step e fill e₁ → Trades e₁ rest e' → Trades e ((e, fill) :: rest) e'

/-- The incoming order is used up, or nothing in line suits it. -/
def Stops (e : Encounter) : Prop :=
  e.incoming.remaining ≤ 0 ∨
    ∀ price maker, e.nextMaker? = some (price, maker) → ¬ e.incoming.Crosses price

/-- The trade with the order in line breaks off. -/
def Breaks (e : Encounter) (f : Fault) (e' : Encounter) : Prop :=
  ∃ price maker, e.nextMaker? = some (price, maker) ∧ trade price maker e = .error f e'

/-- How much an incoming order trades with an order in line. -/
def dealt (e : Encounter) (maker : Order) : Quantity :=
  e.incoming.remaining.smaller maker.remaining

theorem trade_run (price : Price) (maker : Order) (e : Encounter) :
    trade price maker e =
      match Book.fillBest e.incoming.side.opposite (e.dealt maker) e.book with
      | .error f b => .error f { e with book := b }
      | .ok maker' b =>
        match e.incoming.fill (e.dealt maker) with
        | .error f => .error f { e with book := b }
        | .ok incoming => .ok ⟨maker', price, e.dealt maker⟩ ⟨incoming, b⟩ := by
  unfold trade onBook dealt
  simp only [Attempt.run_bind, Attempt.run_get, Attempt.run_focus]
  cases Book.fillBest e.incoming.side.opposite (e.incoming.remaining.smaller maker.remaining)
    e.book with
  | error f b => rfl
  | ok maker' b =>
      dsimp only
      cases e.incoming.fill (e.incoming.remaining.smaller maker.remaining) <;> rfl

theorem tradeUpTo_run (n : Nat) (e : Encounter) :
    tradeUpTo (n + 1) e =
      if e.incoming.remaining ≤ 0 then .ok [] e
      else
        match e.nextMaker? with
        | none => .ok [] e
        | some (price, maker) =>
          if e.incoming.Crosses price then
            match trade price maker e with
            | .error f e' => .error f e'
            | .ok fill e₁ =>
              match tradeUpTo n e₁ with
              | .error f e' => .error f e'
              | .ok fills e' => .ok (fill :: fills) e'
          else .ok [] e := by
  rw [tradeUpTo, Attempt.run_bind, Attempt.run_get]
  dsimp only
  split
  · rfl
  · cases e.nextMaker? with
    | none => rfl
    | some next =>
        dsimp only
        split
        · rw [Attempt.run_bind]
          cases trade next.1 next.2 e with
          | error f e' => rfl
          | ok fill e₁ =>
              dsimp only
              rw [Attempt.run_bind]
              cases tradeUpTo n e₁ <;> rfl
        · rfl

theorem price_of_trade {price : Price} {maker : Order} {e e' : Encounter} {fill : Fill}
    (h : trade price maker e = .ok fill e') : fill.price = price := by
  rw [trade_run] at h
  split at h
  · cases h
  · split at h
    · cases h
    · cases h
      rfl

theorem priceTime_run (e : Encounter) :
    priceTime e = tradeUpTo e.across.orders.length e := by
  unfold priceTime
  rw [Attempt.run_bind, Attempt.run_get]
  rfl

/-- What `tradeUpTo` does is a sequence of `Trades`. -/
theorem trades_of_tradeUpTo {n : Nat} {e e' : Encounter} {fills : List Fill}
    (h : tradeUpTo n e = .ok fills e') :
    ∃ moments, Trades e moments e' ∧ fills = moments.map Prod.snd ∧
      (Stops e' ∨ moments.length = n) := by
  induction n generalizing e fills with
  | zero =>
      cases h
      exact ⟨[], .none, rfl, Or.inr rfl⟩
  | succ n ih =>
      rw [tradeUpTo_run] at h
      split at h
      · next hle =>
          cases h
          exact ⟨[], .none, rfl, Or.inl (Or.inl hle)⟩
      · next hle =>
          split at h
          · next hnone =>
              cases h
              refine ⟨[], .none, rfl, Or.inl (Or.inr fun price maker hsome => ?_)⟩
              rw [hnone] at hsome
              cases hsome
          · next price maker hsome =>
              split at h
              · next hcross =>
                  cases ht : trade price maker e with
                  | error f e₁ => rw [ht] at h; cases h
                  | ok fill e₁ =>
                      rw [ht] at h
                      dsimp only at h
                      cases hr : tradeUpTo n e₁ with
                      | error f e₂ => rw [hr] at h; cases h
                      | ok rest e₂ =>
                          rw [hr] at h
                          cases h
                          obtain ⟨moments, hm, hfills, hend⟩ := ih hr
                          have hstep : Step e fill e₁ := by
                            have hprice := price_of_trade ht
                            exact ⟨Int.not_le.mp hle, hprice ▸ hcross, maker,
                              hprice ▸ hsome, hprice ▸ ht⟩
                          refine ⟨(e, fill) :: moments, .some hstep hm, ?_, ?_⟩
                          · rw [List.map_cons, hfills]
                          · rw [List.length_cons]
                            exact hend.imp_right (congrArg Nat.succ)
              · next hcross =>
                  cases h
                  refine ⟨[], .none, rfl, Or.inl (Or.inr fun p m hsome' => ?_)⟩
                  rw [hsome] at hsome'
                  cases hsome'
                  exact hcross

/-- A loop that `Breaks` off has made some trades before. -/
theorem trades_of_tradeUpTo_error {n : Nat} {e e' : Encounter} {f : Fault}
    (h : tradeUpTo n e = .error f e') :
    ∃ moments e₁, Trades e moments e₁ ∧ Breaks e₁ f e' := by
  induction n generalizing e with
  | zero => cases h
  | succ n ih =>
      rw [tradeUpTo_run] at h
      split at h
      · cases h
      · next hle =>
          split at h
          · cases h
          · next price maker hsome =>
              split at h
              · next hcross =>
                  cases ht : trade price maker e with
                  | error f e₁ =>
                      rw [ht] at h
                      cases h
                      exact ⟨[], e, .none, price, maker, hsome, ht⟩
                  | ok fill e₁ =>
                      rw [ht] at h
                      dsimp only at h
                      cases hr : tradeUpTo n e₁ with
                      | ok rest e₂ => rw [hr] at h; cases h
                      | error f e₂ =>
                          rw [hr] at h
                          cases h
                          obtain ⟨moments, e₂, hm, hb⟩ := ih hr
                          have hprice := price_of_trade ht
                          have hstep : Step e fill e₁ := ⟨Int.not_le.mp hle, hprice ▸ hcross,
                            maker, hprice ▸ hsome, hprice ▸ ht⟩
                          exact ⟨(e, fill) :: moments, e₂, .some hstep hm, hb⟩
              · cases h

/-! ## A single trade -/

/-- A `Step` spelled out: the order in line stands first at the first level, both orders are filled,
and the level loses the quantity. -/
structure Deal (e : Encounter) (fill : Fill) (e' : Encounter) (level : Level) (post : List Level)
    (maker : Order) (ys : List Order) (total : Quantity) : Prop where
  levels_eq : e.across.levels = level :: post
  orders_eq : level.orders = maker :: ys
  price_eq : fill.price = level.price
  quantity_eq : fill.quantity = e.dealt maker
  maker_fill : maker.fill fill.quantity = .ok fill.maker
  incoming_fill : e.incoming.fill fill.quantity = .ok e'.incoming
  total_eq : level.total.sub fill.quantity = .ok total
  book : if fill.maker.remaining.SameValue 0 then
      ∃ total', total'.atoms = total.atoms ∧
        Book.Exchanged e.incoming.side.opposite [level] (Level.kept ⟨level.price, ys, total'⟩)
          e.book e'.book ∧
        Book.Departed maker e.book e'.book
    else
      Book.Exchanged e.incoming.side.opposite [level] [⟨level.price, fill.maker :: ys, total⟩]
          e.book e'.book ∧
        Book.Rewritten maker fill.maker e.book e'.book

theorem nextMaker?_eq_some {e : Encounter} {price : Price} {maker : Order} :
    e.nextMaker? = some (price, maker) ↔
      ∃ level post ys, e.across.levels = level :: post ∧ level.price = price ∧
        level.orders = maker :: ys := by
  unfold nextMaker? Book.bestOpposite? Ladder.best? Level.front? across
  cases (e.book.ladder e.incoming.side.opposite).levels with
  | nil => simp
  | cons level post =>
      cases hx : level.orders with
      | nil => simp [hx]
      | cons x ys => simp [hx]

section Deal

variable {e e' : Encounter} {fill : Fill} {level : Level} {post : List Level} {maker : Order}
  {ys : List Order} {total : Quantity}

theorem Step.deal (h : Step e fill e') (hs : e.book.Sound) :
    ∃ level post maker ys total, Deal e fill e' level post maker ys total := by
  obtain ⟨maker, hnext, hrun⟩ := h.run
  obtain ⟨level, post, ys, hl, hprice, hx⟩ := nextMaker?_eq_some.mp hnext
  have hbook := Book.fillBest_cases hs hl hx (e.dealt maker)
  rw [trade_run] at hrun
  cases hm : maker.fill (e.dealt maker) with
  | error f =>
      rw [hm] at hbook
      rw [hbook] at hrun
      cases hrun
  | ok maker' =>
      rw [hm] at hbook
      dsimp only at hbook
      cases ht : level.total.sub (e.dealt maker) with
      | error f =>
          rw [ht] at hbook
          obtain ⟨b', -, -, hfill⟩ := hbook
          rw [hfill] at hrun
          cases hrun
      | ok total =>
          rw [ht] at hbook
          dsimp only [orFault] at hbook
          have hend {b' : Book}
              (hfill : Book.fillBest e.incoming.side.opposite (e.dealt maker) e.book =
                .ok maker' b') :
              fill = ⟨maker', fill.price, e.dealt maker⟩ ∧
                e.incoming.fill (e.dealt maker) = .ok e'.incoming ∧ e'.book = b' := by
            rw [hfill] at hrun
            dsimp only at hrun
            cases hi : e.incoming.fill (e.dealt maker) with
            | error f => rw [hi] at hrun; cases hrun
            | ok incoming =>
                rw [hi] at hrun
                injection hrun with h₁ h₂
                exact ⟨h₁.symm, by rw [← h₂], by rw [← h₂]⟩
          split at hbook
          · next hz =>
              obtain ⟨total', b', hta, hx', hdep, hfill⟩ := hbook
              obtain ⟨hf, hi, rfl⟩ := hend hfill
              obtain ⟨m, p, q⟩ := fill
              injection hf with hm' _ hq'
              subst hm' hq'
              exact ⟨level, post, maker, ys, total, hl, hx, hprice.symm, rfl, hm, hi, ht,
                by rw [if_pos hz]; exact ⟨total', hta, hx', hdep⟩⟩
          · next hz =>
              obtain ⟨b', hx', hrew, hfill⟩ := hbook
              obtain ⟨hf, hi, rfl⟩ := hend hfill
              obtain ⟨m, p, q⟩ := fill
              injection hf with hm' _ hq'
              subst hm' hq'
              exact ⟨level, post, maker, ys, total, hl, hx, hprice.symm, rfl, hm, hi, ht,
                by rw [if_neg hz]; exact ⟨hx', hrew⟩⟩

theorem Deal.holds (h : Deal e fill e' level post maker ys total) (hs : e.book.Sound) :
    e.book.Holds maker := by
  have hmem : maker ∈ e.across.orders := by
    rw [Ladder.orders, h.levels_eq]
    exact List.mem_append_left _ (by rw [h.orders_eq]; exact List.mem_cons_self)
  exact hs.holds_of_mem hmem

theorem Deal.worn (h : Deal e fill e' level post maker ys total) (hs : e.book.Sound) :
    Book.Worn e.book e'.book := by
  have hbook := h.book
  split at hbook
  · obtain ⟨_, -, -, hdep⟩ := hbook
    exact .of_departed hdep
  · exact .of_rewritten hbook.2 (h.holds hs) (.fill .none h.maker_fill)

/-- What rests after a `Deal` is the maker as it is then, or has not been touched. -/
theorem Deal.rest (h : Deal e fill e' level post maker ys total) {x : Order}
    (hx : e'.book.Holds x) : x = fill.maker ∨ (e.book.Holds x ∧ x.id ≠ maker.id) := by
  have hbook := h.book
  split at hbook
  · obtain ⟨_, -, -, hdep⟩ := hbook
    exact Or.inr ((hdep.holds_iff x).mp hx)
  · exact (hbook.2.holds_iff x).mp hx

theorem Deal.lively (h : Deal e fill e' level post maker ys total) (hl : e.book.Lively) :
    e'.book.Lively := by
  intro x hx
  have hbook := h.book
  split at hbook
  · obtain ⟨_, -, -, hdep⟩ := hbook
    exact hl x ((hdep.holds_iff x).mp hx).1
  · next hz =>
      rcases (hbook.2.holds_iff x).mp hx with rfl | ⟨hx, -⟩
      · have hne : fill.maker.remaining.atoms ≠ 0 := hz
        have hnonneg : (0 : Int) ≤ fill.maker.remaining.atoms :=
          Order.fill_remaining_nonneg h.maker_fill
        rw [Order.fill_status h.maker_fill, if_neg hz]
        exact ⟨rfl, show (0 : Int) < fill.maker.remaining.atoms by omega⟩
      · exact hl x hx

/-- The order in line is before all others of its side, and its price is the price of the trade. -/
theorem Deal.first (h : Deal e fill e' level post maker ys total) (hs : e.book.Sound) :
    maker.side = e.incoming.side.opposite ∧
      ∃ limit, maker.price = some limit ∧ fill.price.SameValue limit ∧
        ∀ o, e.book.Holds o → o.side = maker.side → o ≠ maker →
          Order.Before maker.side maker o := by
  have hsound := hs.ladder e.incoming.side.opposite
  have horders : e.across.orders = maker :: (ys ++ post.flatMap Level.orders) := by
    rw [Ladder.orders, h.levels_eq, List.flatMap_cons, h.orders_eq, List.cons_append]
  have hline : e.across.orders.Pairwise (Order.Before e.across.side) := hsound.before
  have hside : maker.side = e.incoming.side.opposite := by
    refine hs.side_of_mem ?_
    change maker ∈ e.across.orders
    rw [horders]
    exact List.mem_cons_self
  have hfront : e.across.levels = [] ++ level :: post := h.levels_eq
  have hmem : maker ∈ level.orders := by rw [h.orders_eq]; exact List.mem_cons_self
  obtain ⟨limit, hlimit, hv⟩ := ((hsound.at hfront).placed maker hmem).price_eq
  refine ⟨hside, limit, hlimit, by rw [h.price_eq]; exact hv.symm, fun o ho hos hne => ?_⟩
  have ho : o ∈ e.across.orders := by
    unfold across
    rw [← hside, ← hos]
    exact ho
  have hacross : e.across.side = maker.side := by rw [hside]; exact hs.side_eq _
  rw [horders] at ho hline
  rw [hacross] at hline
  rcases List.mem_cons.mp ho with rfl | ho
  · exact absurd rfl hne
  · exact (List.pairwise_cons.mp hline).1 o ho

/-- A `Deal` uses up the incoming order, or the other side loses an order. -/
theorem Deal.shortens (h : Deal e fill e' level post maker ys total) :
    e'.incoming.remaining.SameValue 0 ∨ e.across.orders.length = e'.across.orders.length + 1 := by
  have hbook := h.book
  split at hbook
  · obtain ⟨total', -, hx, -⟩ := hbook
    obtain ⟨front, back, hb, ha⟩ := hx.here.orders
    refine Or.inr ?_
    unfold across
    rw [(Order.fill_same h.incoming_fill).side_eq, hb, ha, Level.kept_orders]
    simp [h.orders_eq]
    omega
  · next hz =>
      -- What is left of the maker was more than was dealt, so that was all of the other.
      refine Or.inl ((Order.fill_used_up_iff h.incoming_fill).mpr ?_)
      have hm := mt (Order.fill_used_up_iff h.maker_fill).mpr hz
      rw [h.quantity_eq] at hm ⊢
      unfold dealt Decimal.smaller at hm ⊢
      by_cases hlt : maker.remaining < e.incoming.remaining
      · rw [if_pos hlt] at hm
        exact absurd (Decimal.SameValue.refl _) hm
      · rw [if_neg hlt]
        exact Decimal.SameValue.refl _

/-- What the incoming order does not take as a whole uses it up. -/
theorem Deal.used_up_or_whole (h : Deal e fill e' level post maker ys total) :
    e'.incoming.remaining.SameValue 0 ∨ fill.quantity = maker.remaining := by
  by_cases hlt : maker.remaining < e.incoming.remaining
  · exact Or.inr (by rw [h.quantity_eq, dealt, Decimal.smaller, if_pos hlt])
  · refine Or.inl ((Order.fill_used_up_iff h.incoming_fill).mpr ?_)
    rw [h.quantity_eq, dealt, Decimal.smaller, if_neg hlt]
    exact Decimal.SameValue.refl _

end Deal

theorem Breaks.worn {e e' : Encounter} {f : Fault} (h : Breaks e f e') (hs : e.book.Sound) :
    e'.incoming = e.incoming ∧ Book.Worn e.book e'.book := by
  obtain ⟨price, maker, hnext, hrun⟩ := h
  obtain ⟨level, post, ys, hl, hprice, hx⟩ := nextMaker?_eq_some.mp hnext
  have hmem : maker ∈ e.across.orders := by
    rw [Ladder.orders, hl]
    exact List.mem_append_left _ (by rw [hx]; exact List.mem_cons_self)
  have hholds := hs.holds_of_mem hmem
  have hbook := Book.fillBest_cases hs hl hx (e.dealt maker)
  rw [trade_run] at hrun
  -- The fault is the book's, or it is the incoming order's once the book has done its part.
  have hafter (b' : Book) (hw : Book.Worn e.book b')
      (hfill :
        (∃ f', Book.fillBest e.incoming.side.opposite (e.dealt maker) e.book = .error f' b') ∨
        ∃ m, Book.fillBest e.incoming.side.opposite (e.dealt maker) e.book = .ok m b') :
      e'.incoming = e.incoming ∧ Book.Worn e.book e'.book := by
    rcases hfill with ⟨f', hfill⟩ | ⟨m, hfill⟩
    · rw [hfill] at hrun
      cases hrun
      exact ⟨rfl, hw⟩
    · rw [hfill] at hrun
      dsimp only at hrun
      cases hi : e.incoming.fill (e.dealt maker) with
      | ok incoming => rw [hi] at hrun; cases hrun
      | error f' =>
          rw [hi] at hrun
          cases hrun
          exact ⟨rfl, hw⟩
  cases hm : maker.fill (e.dealt maker) with
  | error f' =>
      rw [hm] at hbook
      exact hafter _ (.refl hs) (Or.inl ⟨f', hbook⟩)
  | ok maker' =>
      rw [hm] at hbook
      dsimp only at hbook
      split at hbook
      · obtain ⟨b', -, hrew, hfill⟩ := hbook
        exact hafter b' (.of_rewritten hrew hholds (.fill .none hm)) (Or.inl ⟨_, hfill⟩)
      · split at hbook
        · obtain ⟨total', b', -, -, hdep, hfill⟩ := hbook
          exact hafter b' (.of_departed hdep) (Or.inr ⟨_, hfill⟩)
        · obtain ⟨b', -, hrew, hfill⟩ := hbook
          exact hafter b' (.of_rewritten hrew hholds (.fill .none hm)) (Or.inr ⟨_, hfill⟩)

/-! ## The whole matching -/

section Trades

variable {e e' : Encounter} {moments : List (Encounter × Fill)}

theorem Trades.worn (h : Trades e moments e') (hs : e.book.Sound) : Book.Worn e.book e'.book := by
  induction h with
  | none => exact .refl hs
  | some hstep _ ih =>
      obtain ⟨_, _, _, _, _, hdeal⟩ := hstep.deal hs
      have hw := hdeal.worn hs
      exact hw.trans (ih hw.sound)

theorem Trades.lively (h : Trades e moments e') (hs : e.book.Sound) (hl : e.book.Lively) :
    e'.book.Lively := by
  induction h with
  | none => exact hl
  | some hstep _ ih =>
      obtain ⟨_, _, _, _, _, hdeal⟩ := hstep.deal hs
      exact ih (hdeal.worn hs).sound (hdeal.lively hl)

theorem Trades.filled (h : Trades e moments e') (hs : e.book.Sound) :
    e.incoming.Filled e'.incoming := by
  induction h with
  | none => exact .none
  | some hstep _ ih =>
      obtain ⟨_, _, _, _, _, hdeal⟩ := hstep.deal hs
      exact (Order.Filled.fill .none hdeal.incoming_fill).trans (ih (hdeal.worn hs).sound)

/-- Makers that are `filled` rested before and rest no more. -/
theorem Trades.retired (h : Trades e moments e') (hs : e.book.Sound) {m : Encounter × Fill}
    (hm : m ∈ moments) (hfilled : m.2.maker.status = .filled) :
    e.book.Has m.2.maker.id ∧ ¬ e'.book.Has m.2.maker.id := by
  induction h with
  | none => cases hm
  | some hstep htail ih =>
      obtain ⟨_, _, maker, _, _, hdeal⟩ := hstep.deal hs
      have hw := hdeal.worn hs
      rcases List.mem_cons.mp hm with rfl | hm
      · have hid := (Order.fill_same hdeal.maker_fill).id_eq
        refine ⟨⟨maker, hdeal.holds hs, hid.symm⟩, fun hlater => ?_⟩
        have hbook := hdeal.book
        rw [if_pos ((Order.fill_filled_iff hdeal.maker_fill).mp hfilled)] at hbook
        obtain ⟨_, -, -, hdep⟩ := hbook
        obtain ⟨x, hx, hxid⟩ := (htail.worn hw.sound).has hlater
        exact ((hdep.holds_iff x).mp hx).2 (hxid.trans hid)
      · obtain ⟨hbefore, hafter⟩ := ih hw.sound hm
        exact ⟨hw.has hbefore, hafter⟩

/-- What is known of the state in which a trade was made. -/
theorem Trades.moment (h : Trades e moments e') (hs : e.book.Sound) {m : Encounter × Fill}
    (hm : m ∈ moments) :
    Book.Worn e.book m.1.book ∧ e.incoming.Filled m.1.incoming ∧ ∃ next, Step m.1 m.2 next := by
  induction h with
  | none => cases hm
  | some hstep _ ih =>
      obtain ⟨_, _, _, _, _, hdeal⟩ := hstep.deal hs
      have hw := hdeal.worn hs
      rcases List.mem_cons.mp hm with rfl | hm
      · exact ⟨.refl hs, .none, _, hstep⟩
      · obtain ⟨hbook, hfilled, hnext⟩ := ih hw.sound hm
        exact ⟨hw.trans hbook, (Order.Filled.fill .none hdeal.incoming_fill).trans hfilled, hnext⟩

/-- The makers of a matching are orders that rested, `Filled`. -/
theorem Trades.makers (h : Trades e moments e') (hs : e.book.Sound) {m : Encounter × Fill}
    (hm : m ∈ moments) : ∃ o, e.book.Holds o ∧ o.Filled m.2.maker := by
  obtain ⟨hw, -, next, hstep⟩ := h.moment hs hm
  obtain ⟨_, _, maker, _, _, hdeal⟩ := hstep.deal hw.sound
  obtain ⟨o, ho, hf⟩ := hw.from_fills maker (hdeal.holds hw.sound)
  exact ⟨o, ho, hf.fill hdeal.maker_fill⟩

theorem Trades.length_eq (h : Trades e moments e') (hs : e.book.Sound) :
    e'.incoming.remaining ≤ 0 ∨
      e.across.orders.length = e'.across.orders.length + moments.length := by
  induction h with
  | none => exact Or.inr rfl
  | some hstep htail ih =>
      obtain ⟨_, _, _, _, _, hdeal⟩ := hstep.deal hs
      have hsound := (hdeal.worn hs).sound
      rcases hdeal.shortens with hz | hlen
      · -- The tail is empty: nothing is left to trade.
        cases htail with
        | none => exact Or.inl (Int.le_of_eq hz)
        | some hstep' _ =>
            have hpos : (0 : Int) < _ := hstep'.left
            rw [show Decimal.atoms _ = 0 from hz] at hpos
            exact absurd hpos (Int.lt_irrefl 0)
      · rcases ih hsound with hz | hrest
        · exact Or.inl hz
        · refine Or.inr ?_
          rw [List.length_cons]
          omega

/-- There are no more trades than orders across. -/
theorem Trades.length_le (h : Trades e moments e') (hs : e.book.Sound) :
    moments.length ≤ e.across.orders.length := by
  induction h with
  | none => exact Nat.zero_le _
  | some hstep htail ih =>
      obtain ⟨_, _, _, _, _, hdeal⟩ := hstep.deal hs
      rw [List.length_cons]
      rcases hdeal.shortens with hz | hlen
      · cases htail with
        | none =>
            refine List.length_pos_iff.mpr fun hnone => ?_
            rw [Ladder.orders, hdeal.levels_eq, List.flatMap_cons, hdeal.orders_eq] at hnone
            cases hnone
        | some hstep' _ => exact absurd hstep'.left (Int.not_lt.mpr (Int.le_of_eq hz))
      · have := ih (hdeal.worn hs).sound
        omega

/-- `priceTime` makes `Trades` until it `Stops` for a reason of its own. -/
theorem trades_of_priceTime {fills : List Fill} (h : priceTime e = .ok fills e')
    (hs : e.book.Sound) :
    ∃ moments, Trades e moments e' ∧ fills = moments.map Prod.snd ∧ Stops e' := by
  rw [priceTime_run] at h
  obtain ⟨moments, hm, hfills, hend⟩ := trades_of_tradeUpTo h
  refine ⟨moments, hm, hfills, ?_⟩
  rcases hend with hstop | hlen
  · exact hstop
  · rcases hm.length_eq hs with hz | hall
    · exact Or.inl hz
    · -- As many trades as there were orders have left none.
      refine Or.inr fun price maker hnext => ?_
      have hempty : e'.across.orders = [] := List.eq_nil_of_length_eq_zero (by omega)
      obtain ⟨level, post, ys, hl, -, hx⟩ := nextMaker?_eq_some.mp hnext
      rw [Ladder.orders, hl, List.flatMap_cons, hx] at hempty
      cases hempty

/-- However `priceTime` ends, the incoming order and those in the book have been filled, and nothing
else. -/
theorem priceTime_outcome (e : Encounter) (hs : e.book.Sound) :
    e.incoming.Filled (Attempt.outcome priceTime e).2.incoming ∧
      Book.Worn e.book (Attempt.outcome priceTime e).2.book := by
  cases h : priceTime e with
  | ok fills e' =>
      rw [Attempt.outcome_ok h]
      obtain ⟨moments, hm, -, -⟩ := trades_of_priceTime h hs
      exact ⟨hm.filled hs, hm.worn hs⟩
  | error f e' =>
      rw [Attempt.outcome_error h]
      rw [priceTime_run] at h
      obtain ⟨moments, e₁, hm, hb⟩ := trades_of_tradeUpTo_error h
      have hw := hm.worn hs
      obtain ⟨hi, hw'⟩ := hb.worn hw.sound
      exact ⟨hi ▸ hm.filled hs, hw.trans hw'⟩

end Trades

/-! ## Matchings that come to their end -/

section Ends

variable {e : Encounter} {maker : Order} {price : Price}

/-- The order in line can be traded with if its level's sum can do without what is `dealt`. -/
theorem trade_isOk_of_sub (hs : e.book.Sound) (hlive : e.incoming.status.isLive = true)
    (hleft : 0 < e.incoming.remaining) (hnext : e.nextMaker? = some (price, maker))
    (hmaker : maker.status.isLive = true ∧ 0 < maker.remaining)
    (hsub : ∀ level ∈ e.across.levels, ∀ ys, level.orders = maker :: ys → 0 < e.dealt maker →
      e.dealt maker ≤ maker.remaining → ∃ total, level.total.sub (e.dealt maker) = .ok total) :
    ∃ fill e', trade price maker e = .ok fill e' := by
  obtain ⟨level, post, ys, hl, -, hx⟩ := nextMaker?_eq_some.mp hnext
  have hpos : 0 < e.dealt maker := by
    unfold dealt Decimal.smaller
    split
    · exact hmaker.2
    · exact hleft
  obtain ⟨incoming, hincoming⟩ :=
    Order.fill_isOk hpos (Decimal.smaller_le_left _ maker.remaining) hlive
  have hqle : e.dealt maker ≤ maker.remaining := Decimal.smaller_le_right _ _
  obtain ⟨maker', hfill⟩ := Order.fill_isOk hpos hqle hmaker.1
  obtain ⟨total, htotal⟩ := hsub level (by rw [hl]; exact List.mem_cons_self) ys hx hpos hqle
  have hbook := Book.fillBest_cases hs hl hx (e.dealt maker)
  rw [hfill] at hbook
  dsimp only at hbook
  rw [htotal] at hbook
  dsimp only [orFault] at hbook
  rw [trade_run]
  split at hbook
  · obtain ⟨_, b', -, -, -, hrun⟩ := hbook
    rw [hrun]
    dsimp only
    rw [hincoming]
    exact ⟨_, _, rfl⟩
  · obtain ⟨b', -, -, hrun⟩ := hbook
    rw [hrun]
    dsimp only
    rw [hincoming]
    exact ⟨_, _, rfl⟩

/-- `tradeUpTo` comes to its end if something that lets a trade be made is kept by every trade after
which there is more to trade. -/
theorem tradeUpTo_isOk_of {P : Nat → Encounter → Prop}
    (htrade : ∀ {n : Nat} {e : Encounter} {price : Price} {maker : Order}, P (n + 1) e →
      0 < e.incoming.remaining → e.nextMaker? = some (price, maker) →
      ∃ fill e', trade price maker e = .ok fill e')
    (hstep : ∀ {n : Nat} {e : Encounter} {fill : Fill} {e' : Encounter}, P (n + 1) e →
      Step e fill e' → 0 < e'.incoming.remaining → P n e')
    {n : Nat} (h : P n e) : ∃ fills e', tradeUpTo n e = .ok fills e' := by
  induction n generalizing e with
  | zero => exact ⟨[], e, rfl⟩
  | succ n ih =>
      rw [tradeUpTo_run]
      by_cases hleft : e.incoming.remaining ≤ 0
      · exact ⟨[], e, by rw [if_pos hleft]⟩
      · have hpos : 0 < e.incoming.remaining := Int.not_le.mp hleft
        rw [if_neg hleft]
        cases hnext : e.nextMaker? with
        | none => exact ⟨[], e, rfl⟩
        | some next =>
            obtain ⟨price, maker⟩ := next
            dsimp only
            by_cases hcross : e.incoming.Crosses price
            · rw [if_pos hcross]
              obtain ⟨fill, e₁, ht⟩ := htrade h hpos hnext
              have hprice := price_of_trade ht
              have hmade : Step e fill e₁ :=
                ⟨hpos, hprice ▸ hcross, maker, hprice ▸ hnext, hprice ▸ ht⟩
              have hrest : ∃ fills e', tradeUpTo n e₁ = .ok fills e' := by
                by_cases hdone : e₁.incoming.remaining ≤ 0
                · cases n with
                  | zero => exact ⟨[], e₁, rfl⟩
                  | succ n => exact ⟨[], e₁, by rw [tradeUpTo_run, if_pos hdone]⟩
                · exact ih (hstep h hmade (Int.not_le.mp hdone))
              obtain ⟨fills, e', hr⟩ := hrest
              rw [ht]
              dsimp only
              rw [hr]
              exact ⟨_, _, rfl⟩
            · exact ⟨[], e, by rw [if_neg hcross]⟩

end Ends

end Encounter

/-! ## Rules -/

namespace MatchingRule

/-- A rule that does nothing but fill orders. Where it comes to its end it has made `Trades` in
price-time priority, be they none, and tells of all of them. -/
def Fills (rule : MatchingRule) : Prop :=
  ∀ (call : Nat) (e : Encounter), e.book.Sound →
    match rule.run call e with
    | .ok fills e' => ∃ moments, Encounter.Trades e moments e' ∧ fills = moments.map Prod.snd
    | .error _ e' => Book.Worn e.book e'.book

theorem fills_priceTime : MatchingRule.priceTime.Fills := by
  intro call e hs
  change match Encounter.priceTime e with
    | .ok fills e' => ∃ moments, Encounter.Trades e moments e' ∧ fills = moments.map Prod.snd
    | .error _ e' => Book.Worn e.book e'.book
  cases h : Encounter.priceTime e with
  | ok fills e' =>
      obtain ⟨moments, hm, hfills, -⟩ := Encounter.trades_of_priceTime h hs
      exact ⟨moments, hm, hfills⟩
  | error f e' =>
      have hout := Encounter.priceTime_outcome e hs
      rw [Attempt.outcome_error h] at hout
      exact hout.2

end MatchingRule

end Bourse
