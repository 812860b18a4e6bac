import Bourse.Proofs.Book.Depth
import Bourse.Proofs.Book.Lines
import Bourse.Proofs.Run.Requeue

/-!
# Who asks for less keeps the place in line

A request that `Lessens` an order leaves the price as it is and asks for no more than what
is left. The order is not sent in again. It is rewritten where it stands: the lines of its
book hold the same orders under the same prices and numbers (`Order.standing`), and the
index knows of no change. Outside of the book it has taken one number for the update that
tells of it, and nothing else. If it asks for just what is left, there is nothing to tell
either.
-/

namespace Bourse

/-- What an order's place in line goes by: its identity, its price and its number. -/
def Order.standing (o : Order) : OrderId × Option Price × Nat := (o.id, o.price, o.sequence)

theorem Order.Same.standing_eq {o o' : Order} (h : o.Same o') : o'.standing = o.standing := by
  unfold standing
  rw [h.id_eq, h.price_eq, h.sequence_eq]

/-- The request leaves the price of an order as it is, and asks for no more of it than is left. -/
structure ModifyRequest.Lessens (request : ModifyRequest) (o : Order) : Prop where
  price : ∀ p, request.price = some p → o.RestsAt p
  quantity : request.quantity ≤ o.remaining

namespace Book

/-- An order of a book has become another in its place, and all else is as it was. -/
structure Lessened (o o' : Order) (b b' : Book) : Prop where
  symbol_eq : b'.symbol = b.symbol
  index_eq : b'.index = b.index
  other_side : b'.ladder o.side.opposite = b.ladder o.side.opposite
  lines_eq : b'.lines = b.lines.replace o'
  standing_eq : ∀ side, (b'.lines side).map Order.standing = (b.lines side).map Order.standing
  get?_eq : b'.get? o.id = some o'

variable {b b' : Book} {o o' : Order} {q : Quantity}

/-- `reduce` is work on the order's own side. -/
theorem Sound.reduce_side (h : b.Sound) (ho : b.Holds o) (hrun : reduce o.id q b = .ok o' b') :
    ∃ l, b' = b.setLadder l o.side := by
  obtain ⟨price, hprice, -⟩ := h.standsAt ho
  rw [reduce_run h ho hprice] at hrun
  split at hrun
  · cases hrun
  · rw [onSide_run] at hrun
    cases hact : Ladder.reduce price o.sequence q (b.ladder o.side) with
    | error f l =>
        rw [hact] at hrun
        cases hrun
    | ok r l =>
        rw [hact] at hrun
        cases r with
        | none => cases hrun
        | some x =>
            cases hrun
            exact ⟨l, rfl⟩

/-- An order that is `Rewritten` under its name and number stands where it stood. -/
theorem Rewritten.standing_eq (hw : Rewritten o o' b b') (h : b.Sound) (ho : b.Holds o)
    (hsame : o.Same o') (side : Side) :
    (b'.lines side).map Order.standing = (b.lines side).map Order.standing := by
  rw [show b'.lines side = _ from hw.line_eq h ho hsame side, List.map_map]
  refine List.map_congr_left fun x hx => ?_
  show Order.standing (if x.id = o.id then o' else x) = x.standing
  split
  · next hid =>
      rw [h.eq_of_id (h.holds_of_mem hx) ho hid]
      exact hsame.standing_eq
  · rfl

theorem Sound.lessened (h : b.Sound) (ho : b.Holds o) (hrun : reduce o.id q b = .ok o' b') :
    Lessened o o' b b' ∧ Order.setRemaining q o = .ok ⟨⟩ o' := by
  have hout := reduce_outcome h ho q
  rw [hrun] at hout
  obtain ⟨-, -, hset, hw⟩ := hout
  have hsame := Order.same_of_setRemaining hset
  obtain ⟨l, hl⟩ := h.reduce_side ho hrun
  have hget := hw.sound.get?_eq ((hw.holds_iff o').mpr (Or.inl rfl))
  rw [hsame.id_eq] at hget
  refine ⟨⟨?_, ?_, ?_, hw.lines_eq h ho hsame, hw.standing_eq h ho hsame, hget⟩, hset⟩
  · rw [hl]
    cases o.side <;> rfl
  · rw [hl, index_setLadder]
  · rw [hl, ladder_setLadder_opposite]

end Book

namespace Desk

/-- `lessen` takes one event and nothing else at the desk. -/
theorem lessen_told {world : Surroundings} {o : Order} {q : Quantity} {r : OrderResult}
    {d d' : Desk} (h : lessen world o.id q d = .ok r d') :
    ∃ o' b u, Book.reduce o.id q d.book = .ok o' b ∧
      OrderUpdate.ofOrder o' world.now (d.counters.events + 1) = .ok u ∧ r = ⟨o', []⟩ ∧
      d' = ({ d with book := b } : Desk).stamped.told (.update u) := by
  rw [lessen_run] at h
  cases hred : Book.reduce o.id q d.book with
  | error f b => rw [hred] at h; cases h
  | ok o' b =>
      rw [hred] at h
      dsimp only at h
      rw [emitUpdate_run] at h
      dsimp only at h
      cases hu : OrderUpdate.ofOrder o' world.now (d.counters.events + 1) with
      | error f => rw [hu] at h; cases h
      | ok u =>
          rw [hu] at h
          cases h
          exact ⟨o', b, u, rfl, hu, rfl, rfl⟩

end Desk

namespace Engine

/-- The reply to `modify` that has left so much of a resting order. What was filled of it stays
filled, so it is an order for that and for what is left now. -/
structure Lessened (e : Engine) (i : Nat) (slot : Slot) (o : Order) (now : Timestamp)
    (q : Quantity) (reply : Reply Fault ModifyResult) (o' : Order) (u : OrderUpdate) : Prop where
  answer : reply.answer = .ok (.modified ⟨o', []⟩)
  order_eq : o' = { o with remaining := q, quantity := o'.quantity }
  asked : ∃ filled, o.filled = .ok filled ∧ filled.add q = .ok o'.quantity
  output : reply.output = [.event (.update u)]
  told : OrderUpdate.ofOrder o' now (e.counters.events + 1) = .ok u
  shown : u.Shows o'
  rule_eq : reply.engine.rule = e.rule
  routes_eq : reply.engine.routes = e.routes
  counters_eq : reply.engine.counters = { e.counters with events := e.counters.events + 1 }
  other_slots : ∀ j, j ≠ i → reply.engine.slots[j]? = e.slots[j]?
  slot : ∃ b, reply.engine.slots[i]? = some { slot with book := b } ∧ slot.book.Lessened o o' b

variable {n : Nat} {e : Engine} {i : Nat} {slot : Slot} {o : Order} {request : ModifyRequest}

/-- What is asked of a resting order within its price is asked at the `SamePrice`. -/
theorem Placed.samePrice (h : Placed n e i slot o) (hless : request.Lessens o) :
    Desk.SamePrice (request.price.or o.price) o.price := by
  obtain ⟨price, hprice, -⟩ := h.sound.standsAt h.holds
  cases hp : request.price with
  | none =>
      rw [Option.none_or, hprice]
      exact Decimal.SameValue.refl _
  | some p =>
      obtain ⟨p', hp', hv⟩ := hless.price p hp
      rw [Option.some_or, hp']
      exact hv.symm

/-- What `Lessens` an order is carried out where the order stands. -/
theorem Placed.lessened (h : Placed n e i slot o) (world : Surroundings)
    (hchecked : checkRequest slot.config request = .ok ()) (hless : request.Lessens o)
    (hlt : request.quantity < o.remaining) :
    ∃ o' u, Lessened e i slot o world.now request.quantity (e.modify world o.id request) o' u := by
  obtain ⟨r, d, hrun, hmodify⟩ := h.modified world hchecked
  have hne : ¬ request.quantity.SameValue o.remaining := Int.ne_of_lt hlt
  have hget : (e.desk slot.book).book.get? o.id = some o := h.sound.get?_eq h.holds
  rw [Desk.modifyOrder_run, hget] at hrun
  dsimp only at hrun
  rw [if_neg fun hsame => hne hsame.2, if_pos ⟨h.samePrice hless, hlt⟩] at hrun
  obtain ⟨result, hlessen, rfl⟩ := Desk.modified_eq_ok hrun
  obtain ⟨o', b, u, hred, hu, rfl, rfl⟩ := Desk.lessen_told hlessen
  obtain ⟨hbook, hset⟩ := h.sound.lessened h.holds hred
  obtain ⟨filled, quantity, hfilled, hsum, rfl⟩ := Order.setRemaining_eq_ok hset
  rw [hmodify]
  exact
    ⟨_, u,
      { answer := rfl
        order_eq := rfl
        asked := ⟨filled, hfilled, hsum⟩
        output := rfl
        told := hu
        shown := OrderUpdate.shows_of_ofOrder hu
        rule_eq := rfl
        routes_eq := rfl
        counters_eq := rfl
        other_slots := fun j hj => by rw [slots_leave h.slot_eq, if_neg hj]
        slot := ⟨b, by rw [slots_leave h.slot_eq, if_pos rfl]; rfl, hbook⟩ }⟩

/-- What asks for just what is left changes nothing. -/
theorem Placed.unmodified (h : Placed n e i slot o) (world : Surroundings)
    (hchecked : checkRequest slot.config request = .ok ()) (hless : request.Lessens o)
    (hsame : request.quantity.SameValue o.remaining) :
    e.modify world o.id request = ⟨e, .ok (.modified ⟨o, []⟩), []⟩ := by
  obtain ⟨r, d, hrun, hmodify⟩ := h.modified world hchecked
  have hget : (e.desk slot.book).book.get? o.id = some o := h.sound.get?_eq h.holds
  rw [Desk.modifyOrder_run, hget] at hrun
  dsimp only at hrun
  rw [if_pos ⟨h.samePrice hless, hsame⟩] at hrun
  cases hrun
  rw [hmodify, leave_same h.slot_eq rfl]
  rfl

end Engine

/-- A modification that `Lessens` a resting order lets nothing trade and consumes no arrival number.
The order keeps its place in line and its status, every other order, the index, the routes and all
other books are as they were, and the one update that is sent tells of the order. A modification
that asks for just what is left changes nothing and sends nothing. -/
theorem lessening_keeps_place {past : List Turn} {e : Engine} {id : OrderId} {o : Order}
    (h : Run past e) (hlen : past.length < 10000000000) (ho : e.order? id = some o)
    {request : ModifyRequest} {i : Nat} {slot : Slot} (hrev : e.Revises id request i slot)
    (hless : request.Lessens o) (world : Surroundings) :
    (request.quantity < o.remaining →
      ∃ o' u, e.Lessened i slot o world.now request.quantity (e.modify world id request) o' u) ∧
    (request.quantity.SameValue o.remaining →
      e.modify world id request = ⟨e, .ok (.modified ⟨o, []⟩), []⟩) := by
  obtain ⟨j, slot', rfl, hplaced⟩ := h.placed hlen ho
  have hfound := hrev.found
  rw [hplaced.located] at hfound
  cases hfound
  exact ⟨hplaced.lessened world hrev.checked hless, hplaced.unmodified world hrev.checked hless⟩

/-- Three sellers ask for the same number, which the second writes in another way. All of the first
order and half a unit of the second have been bought. -/
def queued : List Call :=
  [.addInstrument (.plain "X"),
    .submit (.handing 1) (.limit "X" .sell (.scaled 2 0) 1),
    .submit (.handing 2) (.limit "X" .sell (.scaled 20 1) (.scaled 5 0)),
    .submit (.handing 3) (.limit "X" .sell (.scaled 2 0) (.scaled 4 0)),
    .submit (.handing 4) (.market "X" .buy (.scaled 15 1))]

/-- What the calls have led to. -/
def queuedUp : Engine := ((Engine.empty .priceTime).follow [] queued).2

/-- The identity of the second seller. -/
def secondSeller : OrderId := ⟨.ofNat 2⟩

/-- The second seller asks for two only, and writes the price in a third way. -/
def withdrawal : ModifyRequest := ⟨some (.scaled 200 2), .scaled 2 0⟩

/-- The second seller stays before the third, and two are left of its order. -/
theorem lessening_keeps_place_queued :
    (∃ o i slot o' u, queuedUp.order? secondSeller = some o ∧
        queuedUp.Lessened i slot o midnight.now withdrawal.quantity
          (queuedUp.modify midnight secondSeller withdrawal) o' u) ∧
      (queuedUp.perform (.modify midnight secondSeller withdrawal)).after.slots.map
          (fun s => (s.book.lines .sell).map fun o =>
            (o.id.uuid.toNat, o.sequence, o.status, o.remaining)) =
        [[(2, 2, .partiallyFilled, .scaled 2 0), (3, 3, .new, .scaled 4 0)]] := by
  have hrun : Run ((Engine.empty .priceTime).follow [] queued).1 queuedUp :=
    History.start.follow queued
  have hlen : ((Engine.empty .priceTime).follow [] queued).1.length = 5 := by decide +kernel
  have hlocated : (queuedUp.locate? secondSeller).map
      (fun place => Engine.checkRequest place.2.config withdrawal) = some (.ok ()) := by
    decide +kernel
  have hshown : (queuedUp.order? secondSeller).map (fun o => decide (o.RestsAt (.scaled 200 2) ∧
      withdrawal.quantity < o.remaining)) = some true := by
    decide +kernel
  refine ⟨?_, by decide +kernel⟩
  generalize queuedUp = e at hrun hlocated hshown ⊢
  obtain ⟨place, hfound, hchecked⟩ := Option.map_eq_some_iff.mp hlocated
  obtain ⟨o, ho, hdecided⟩ := Option.map_eq_some_iff.mp hshown
  obtain ⟨hprice, hlt⟩ := of_decide_eq_true hdecided
  have hless : withdrawal.Lessens o :=
    ⟨fun p hp => by cases hp; exact hprice, Int.le_of_lt hlt⟩
  have hrev : e.Revises secondSeller withdrawal place.1 place.2 := ⟨hfound, hchecked⟩
  obtain ⟨o', u, hlessened⟩ :=
    (lessening_keeps_place hrun (by rw [hlen]; decide) ho hrev hless midnight).1 hlt
  exact ⟨o, place.1, place.2, o', u, ho, hlessened⟩

end Bourse
