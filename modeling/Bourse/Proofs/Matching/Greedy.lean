import Bourse.Proofs.Book.Packed
import Bourse.Proofs.Engine.Settlement
import Bourse.Proofs.Engine.Tale
import Bourse.Proofs.Matching.Solvent

/-!
# Price-time priority is a walk down a line

The loop looks at the best level anew for each trade, and a trade changes the order in
line, the sum of its level, the index and the incoming order. What comes of it can be told
without any of these, and `Order.walk` does: the incoming order walks down the line of the
other side, as it was before the first trade, and trades with each order as much as both
have left, until it has nothing left or the next order does not suit it.

The walk knows no levels and cannot fail. It is the loop that may, where a sum falls
short, and in a book of a size that occurs it does not. That a single trade is the first
step of the walk is `Deal.walk`, from which `Trades.walk` follows by induction.
-/

namespace Bourse

open Decimal (halfUnit greatestAtoms)

/-- The order after a trade of a quantity of it. -/
def Order.traded (o : Order) (q : Quantity) : Order :=
  let left := o.remaining.saturatingAdd (-q)
  { o with
    remaining := left
    status := if left.SameValue 0 then .filled else .partiallyFilled }

/-- What a walk comes to: the fills, and the incoming order and the line as they are afterwards. -/
structure Walk where
  fills : List Fill
  incoming : Order
  line : List Order
deriving DecidableEq

/-- The `Walk` that begins with a fill and goes on as another. A maker with nothing left leaves the
line. -/
def Walk.after (fill : Fill) (w : Walk) : Walk where
  fills := fill :: w.fills
  incoming := w.incoming
  line := if fill.maker.remaining.SameValue 0 then w.line else fill.maker :: w.line

/-- The order trades with the orders of a line, one after the other, as long as it has something
left and the next one suits it, each time at the price of that order and as much as both have
left. -/
def Order.walk (o : Order) : List Order → Walk
  | [] => ⟨[], o, []⟩
  | maker :: line =>
    match maker.price with
    | none => ⟨[], o, maker :: line⟩
    | some price =>
      if 0 < o.remaining ∧ o.Crosses price then
        let quantity := o.remaining.smaller maker.remaining
        ((o.traded quantity).walk line).after ⟨maker.traded quantity, price, quantity⟩
      else ⟨[], o, maker :: line⟩

/-- Two fills are the same, but that their price may be written in two ways. -/
structure Fill.Agrees (f g : Fill) : Prop where
  maker_eq : f.maker = g.maker
  price_eq : f.price.SameValue g.price
  quantity_eq : f.quantity = g.quantity

namespace Order

variable {o o' maker : Order} {q : Quantity} {line : List Order} {price : Price}

theorem traded_of_fill (h : o.fill q = .ok o') : o' = o.traded q := by
  have hstatus := fill_status h
  obtain ⟨-, -, -, r, hr, rfl⟩ := fill_eq_ok h
  have hleft : o.remaining.saturatingAdd (-q) = r := by
    rw [Decimal.saturatingAdd, Decimal.sub_eq_ok.mp hr]
    rfl
  unfold traded
  rw [hleft]
  dsimp only at hstatus ⊢
  rw [hstatus]

/-- An order with nothing left goes nowhere. -/
theorem walk_spent (h : o.remaining ≤ 0) (line : List Order) : o.walk line = ⟨[], o, line⟩ := by
  cases line with
  | nil => rfl
  | cons maker line =>
      unfold walk
      cases maker.price with
      | none => rfl
      | some price => exact if_neg fun hgo => Int.not_lt.mpr h hgo.1

/-- An order that is suited by no order of a line goes nowhere. -/
theorem walk_unsuited (h : ∀ x ∈ line, ∀ p, x.price = some p → ¬ o.Crosses p) :
    o.walk line = ⟨[], o, line⟩ := by
  cases line with
  | nil => rfl
  | cons maker line =>
      unfold walk
      cases hprice : maker.price with
      | none => rfl
      | some price => exact if_neg fun hgo => h maker List.mem_cons_self price hprice hgo.2

theorem walk_cons (hprice : maker.price = some price) (hleft : 0 < o.remaining)
    (hcross : o.Crosses price) (hq : o.remaining.smaller maker.remaining = q) :
    o.walk (maker :: line) =
      ((o.traded q).walk line).after ⟨maker.traded q, price, q⟩ := by
  rw [walk, hprice, ← hq]
  exact if_pos ⟨hleft, hcross⟩

end Order

namespace Encounter

section Walk

variable {e e₁ e' : Encounter} {fill : Fill} {level : Level} {post : List Level} {maker : Order}
  {ys : List Order} {total : Quantity} {moments : List (Encounter × Fill)}

/-- A `Deal` takes place at the head of the line. -/
theorem Deal.line (h : Deal e fill e' level post maker ys total) (hs : e.book.Sound) :
    ∃ rest, e.across.orders = maker :: rest ∧
      e'.across.orders = if fill.maker.remaining.SameValue 0 then rest else fill.maker :: rest := by
  have hline : e.book.lines e.incoming.side.opposite =
      maker :: (ys ++ post.flatMap Level.orders) := by
    change e.across.orders = _
    rw [Ladder.orders, h.levels_eq, List.flatMap_cons, h.orders_eq, List.cons_append]
  refine ⟨_, hline, ?_⟩
  have hbook := h.book
  change e'.book.lines e'.incoming.side.opposite = _
  rw [(Order.fill_same h.incoming_fill).side_eq]
  split at hbook
  · next hz =>
      obtain ⟨_, -, -, hdep⟩ := hbook
      rw [if_pos hz, hdep.lines_head hs hline]
      exact if_pos rfl
  · next hz =>
      rw [if_neg hz, hbook.2.lines_head hs (Order.fill_same h.maker_fill) hline]
      exact if_pos rfl

/-- A `Deal` is the first step of the walk. -/
theorem Deal.walk (h : Deal e fill e' level post maker ys total) (hs : e.book.Sound)
    (hstep : Step e fill e') (rest : List Order) :
    ∃ price, fill.price.SameValue price ∧
      e.incoming.walk (maker :: rest) =
        (e'.incoming.walk rest).after ⟨fill.maker, price, fill.quantity⟩ := by
  obtain ⟨-, price, hprice, hv, -⟩ := h.first hs
  refine ⟨price, hv, ?_⟩
  rw [Order.walk_cons hprice hstep.left (hstep.crosses.congr hv) h.quantity_eq.symm,
    ← Order.traded_of_fill h.incoming_fill, ← Order.traded_of_fill h.maker_fill]

/-- Where the loop `Stops` the walk does not begin. -/
theorem Stops.walk (h : e.Stops) (hs : e.book.Sound) (hp : e.book.Packed) :
    e.incoming.walk e.across.orders = ⟨[], e.incoming, e.across.orders⟩ := by
  by_cases hleft : 0 < e.incoming.remaining
  · exact Order.walk_unsuited (h.not_crosses hs hp hleft)
  · exact Order.walk_spent (Int.not_lt.mp hleft) _

/-- A maker that has something left is the last. -/
theorem Deal.last (h : Deal e fill e₁ level post maker ys total)
    (hz : ¬ fill.maker.remaining.SameValue 0) (htail : Trades e₁ moments e') :
    e₁.incoming.remaining ≤ 0 ∧ moments = [] ∧ e' = e₁ := by
  have hspent : e₁.incoming.remaining ≤ 0 := by
    rcases h.used_up_or_whole with hspent | hwhole
    · exact Int.le_of_eq hspent
    · refine absurd ((Order.fill_used_up_iff h.maker_fill).mpr ?_) hz
      rw [hwhole]
      exact Decimal.SameValue.refl _
  cases htail with
  | none => exact ⟨hspent, rfl, rfl⟩
  | some hstep _ => exact absurd hstep.left (Int.not_lt.mpr hspent)

/-- `Trades` upon which the loop `Stops` are a walk. -/
theorem Trades.walk (h : Trades e moments e') (hs : e.book.Sound) (hp : e.book.Packed)
    (hstop : e'.Stops) :
    List.Forall₂ Fill.Agrees (moments.map Prod.snd) (e.incoming.walk e.across.orders).fills ∧
      e'.incoming = (e.incoming.walk e.across.orders).incoming ∧
      e'.across.orders = (e.incoming.walk e.across.orders).line := by
  induction h with
  | none =>
      rw [hstop.walk hs hp]
      exact ⟨.nil, rfl, rfl⟩
  | @some e e₁ e' fill rest hstep htail ih =>
      obtain ⟨level, post, maker, ys, total, hdeal⟩ := hstep.deal hs
      obtain ⟨behind, hline, hnext⟩ := hdeal.line hs
      obtain ⟨price, hv, hwalk⟩ := hdeal.walk hs hstep behind
      rw [hline, hwalk]
      unfold Walk.after
      dsimp only
      by_cases hz : fill.maker.remaining.SameValue 0
      · obtain ⟨hfills, hincoming, hleft⟩ := ih (hdeal.worn hs).sound (hdeal.packed hp) hstop
        rw [if_pos hz] at hnext ⊢
        rw [hnext] at hfills hincoming hleft
        exact ⟨.cons ⟨rfl, hv, rfl⟩ hfills, hincoming, hleft⟩
      · obtain ⟨hspent, rfl, rfl⟩ := hdeal.last hz htail
        rw [if_neg hz] at hnext ⊢
        rw [Order.walk_spent hspent]
        exact ⟨.cons ⟨rfl, hv, rfl⟩ .nil, rfl, hnext⟩

/-- All makers but the last are used up. -/
theorem Trades.used_up (h : Trades e moments e') (hs : e.book.Sound) :
    ∀ m ∈ moments.dropLast, m.2.maker.remaining.SameValue 0 := by
  induction h with
  | none => exact fun m hm => by cases hm
  | @some e e₁ e' fill rest hstep htail ih =>
      obtain ⟨level, post, maker, ys, total, hdeal⟩ := hstep.deal hs
      intro m hm
      cases rest with
      | nil => cases hm
      | cons next rest =>
          rw [List.dropLast_cons_cons] at hm
          rcases List.mem_cons.mp hm with rfl | hm
          · by_contra hz
            exact absurd (hdeal.last hz htail).2.1 (List.cons_ne_nil _ _)
          · exact ih (hdeal.worn hs).sound m hm

end Walk

/-- An order has been matched with a book as by `Order.walk` down the line of the other side, which
stands best price first and by number at each price. No order trades twice and all but the last are
used up. The own side of the order is as it was, and if something is left of the order, what stands
on the other side does not suit it. -/
structure Walked (o : Order) (b : Book) (fills : List Fill) (e' : Encounter) : Prop where
  sorted : (b.lines o.side.opposite).Pairwise (Order.Before o.side.opposite)
  agrees : List.Forall₂ Fill.Agrees fills (o.walk (b.lines o.side.opposite)).fills
  incoming_eq : e'.incoming = (o.walk (b.lines o.side.opposite)).incoming
  line_eq : e'.book.lines o.side.opposite = (o.walk (b.lines o.side.opposite)).line
  own_side : e'.book.ladder o.side = b.ladder o.side
  length_le : fills.length ≤ (b.lines o.side.opposite).length
  makers : (fills.map fun fill => fill.maker.id).Nodup
  used_up : ∀ fill ∈ fills.dropLast, fill.maker.remaining.SameValue 0
  ends : e'.incoming.remaining ≤ 0 ∨
    ∀ x ∈ e'.book.lines o.side.opposite, ∀ p, x.price = some p → ¬ o.Crosses p

theorem Trades.walked {o : Order} {b : Book} {moments : List (Encounter × Fill)} {e' : Encounter}
    (h : Trades ⟨o, b⟩ moments e') (hs : b.Sound) (hp : b.Packed) (hstop : e'.Stops) :
    Walked o b (moments.map Prod.snd) e' := by
  have hsame := (h.filled hs).same
  obtain ⟨hfills, hincoming, hline⟩ := h.walk hs hp hstop
  unfold across at hline
  rw [hsame.side_eq] at hline
  exact
    { sorted := hs.line o.side.opposite
      agrees := hfills
      incoming_eq := hincoming
      line_eq := hline
      own_side := h.own_side hs
      length_le := by
        rw [List.length_map]
        exact h.length_le hs
      makers := by
        rw [List.map_map]
        exact List.pairwise_map.mpr ((h.makers_distinct hs).imp Ne.symm)
      used_up := by
        rw [← List.map_dropLast]
        intro fill hfill
        obtain ⟨m, hm, rfl⟩ := List.mem_map.mp hfill
        exact h.used_up hs m hm
      ends := by
        by_cases hleft : 0 < e'.incoming.remaining
        · exact Or.inr (Desk.not_crosses_of_stops hstop (h.worn hs).sound (h.packed hs hp) hsame
            hleft)
        · exact Or.inl (Int.not_lt.mp hleft) }

/-- In a book that fewer than ten thousand million requests have made of an empty one, no insertion
among them refused, `priceTime` comes to its end for every order that can trade, and it is a walk.
-/
theorem priceTime_walks {symbol : String} {n : Nat} {b : Book} (h : b.Grown symbol n)
    (hn : n < 10000000000) {o : Order} (hlive : o.status.isLive = true) :
    ∃ fills e', priceTime ⟨o, b⟩ = .ok fills e' ∧ Walked o b fills e' := by
  have hs := h.reached.sound
  have hsolvent := (h.reached.roomy (Nat.le_of_lt hn)).solvent
  obtain ⟨_, e', -, hrun⟩ :=
    priceTime_of_solvent (e := ⟨o, b⟩) hs hsolvent hlive (Book.reach_le hn).1
  obtain ⟨moments, hm, hfills, hstop⟩ := trades_of_priceTime hrun hs
  rw [hfills] at hrun
  exact ⟨_, e', hrun, hm.walked hs (h.packed (Nat.le_of_lt hn)) hstop⟩

/-- Two asks at one number, written in two ways, and one at the next; half of the first is
filled. -/
def asked : List Book.Request :=
  [.insert (Book.lot 1 .sell (.scaled 10 1) (.scaled 2 0) 3),
    .insert (Book.lot 2 .sell (.scaled 100 2) (.scaled 4 0) 5),
    .insert (Book.lot 3 .sell (.scaled 2 0) 1 4),
    .fillBest .sell 1]

/-- A bid for three at the number of the first two asks. -/
def bidding : Order := Book.lot 4 .buy 1 (.scaled 3 0) 6

/-- The bid takes what is left of the one ask and a part of the other. -/
theorem priceTime_walks_asked :
    ((Book.afterAll "X" asked).Grown "X" 4 ∧ 4 < 10000000000 ∧ bidding.status.isLive = true) ∧
      (∃ fills e', priceTime ⟨bidding, Book.afterAll "X" asked⟩ = .ok fills e' ∧
        Walked bidding (Book.afterAll "X" asked) fills e') ∧
      ((bidding.walk ((Book.afterAll "X" asked).lines .sell)).fills.map
          fun f => (f.maker.id.uuid.toNat, f.quantity)) = [(1, 1), (2, .scaled 2 0)] := by
  have hgrown : (Book.afterAll "X" asked).Grown "X" 4 :=
    (((Book.Grown.empty.ask _ (by decide +kernel) (by decide +kernel)).ask _ (by decide +kernel)
      (by decide +kernel)).ask _ (by decide +kernel) (by decide +kernel)).ask _ (by decide +kernel)
      (by decide +kernel)
  have hfew : 4 < 10000000000 := by decide
  have hlive : bidding.status.isLive = true := rfl
  exact ⟨⟨hgrown, hfew, hlive⟩, priceTime_walks hgrown hfew hlive, by decide +kernel⟩

end Encounter

end Bourse
