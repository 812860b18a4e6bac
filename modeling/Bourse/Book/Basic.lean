import Bourse.Book.Ladder
import Bourse.Table

/-!
# Order books

The `Book` of an instrument: a ladder of bids, a ladder of asks, and an index that says of
every resting order where it is. The index is consulted first by every operation on a
given order; it is what `contains` and `size` report. Only `fillBest` goes by the ladder
instead, as it is for whoever stands first.
-/

namespace Bourse

/-- Where an order rests. -/
structure Place where
  side : Side
  price : Price
  sequence : Nat
deriving DecidableEq

/-- The resting orders of an instrument. -/
structure Book where
  symbol : String
  bids : Ladder
  asks : Ladder
  index : Table OrderId Place
deriving DecidableEq

namespace Book

/-- A book without orders. -/
def empty (symbol : String) : Book := ⟨symbol, .empty .buy, .empty .sell, .empty⟩

/-- One side of the book. -/
def ladder (b : Book) : Side → Ladder
  | .buy => b.bids
  | .sell => b.asks

/-- The book with one of its sides replaced. -/
def setLadder (b : Book) (l : Ladder) : Side → Book
  | .buy => { b with bids := l }
  | .sell => { b with asks := l }

/-- Runs an attempt on one side. -/
def onSide {α : Type} (side : Side) (act : Attempt Ladder α) : Attempt Book α := do
  let book ← get
  Attempt.focus (book.ladder side) (book.setLadder · side) act

/-! ## Queries -/

/-- The order with an identity. -/
def get? (b : Book) (id : OrderId) : Option Order := do
  let place ← b.index.get? id
  let level ← (b.ladder place.side).level? place.price
  level.find? place.sequence

/-- Whether an order rests here. -/
def contains (b : Book) (id : OrderId) : Bool := b.index.contains id

/-- The number of resting orders. -/
def size (b : Book) : Nat := b.index.size

/-- The best level an order of a side can trade against. -/
def bestOpposite? (b : Book) (side : Side) : Option Level := (b.ladder side.opposite).best?

/-- The highest price bid. -/
def bestBid? (b : Book) : Option Price := b.bids.bestPrice?

/-- The lowest price asked. -/
def bestAsk? (b : Book) : Option Price := b.asks.bestPrice?

/-- Someone bids at least what another asks. A book is crossed only while it is being
matched. -/
def isCrossed (b : Book) : Bool :=
  match b.bestBid?, b.bestAsk? with
  | some bid, some ask => ask ≤ bid
  | _, _ => false

/-- What separates the best prices. -/
def spread (b : Book) : Except Fault (Option Price) :=
  match b.bestBid?, b.bestAsk? with
  | some bid, some ask => (orFault (ask.sub bid)).map some
  | _, _ => .ok none

/-- The sum over leading levels that a limit crosses; adding stops at `cap`. -/
def reachable (side : Side) (limit : Option Price) (cap available : Quantity) :
    List Level → Quantity
  | [] => available
  | level :: rest =>
    if side.Crosses limit level.price then
      let available := available.saturatingAdd level.total
      if cap ≤ available then available else reachable side limit cap available rest
    else available

/-- The quantity that an order of a side could trade against; counting stops once `cap` is met. -/
def crossingLiquidity (b : Book) (side : Side) (limit : Option Price) (cap : Quantity) :
    Quantity :=
  reachable side limit cap 0 (b.ladder side.opposite).levels

/-! ## Changes -/

/-- Adds a limit order to the back of its level. -/
def insert (order : Order) : Attempt Book Unit := do
  let book ← get
  if book.contains order.id then Attempt.violate (.duplicateOrderId order.id)
  else
    match order.orderType, order.price with
    | .limit, some price =>
      onSide order.side (Ladder.push price order)
      modify fun b =>
        { b with index := b.index.insert order.id ⟨order.side, price, order.sequence⟩ }
    | _, _ => Attempt.violate (.notRestable order.id)

/-- Takes an order out as it stands. -/
def take (id : OrderId) : Attempt Book (Option Order) := do
  let book ← get
  match book.index.get? id with
  | none => return none
  | some place =>
    modify fun b => { b with index := b.index.erase id }
    onSide place.side (Ladder.remove place.price place.sequence)

/-- Takes an order out that has nothing left. -/
def removeFilled (id : OrderId) : Attempt Book Order := do
  let book ← get
  match book.get? id with
  | none => Attempt.violate (.unknownOrder id)
  | some order =>
    if 0 < order.remaining then Attempt.violate (.notFilled id)
    else
      match ← take id with
      | some order => return order
      | none => Attempt.violate (.unknownOrder id)

/-- Fills a quantity of the first order in line on a side and gives the order as it stands
then. If nothing of it is left, it leaves the book. -/
def fillBest (side : Side) (quantity : Quantity) : Attempt Book Order := do
  let maker ← onSide side (Ladder.fillBest quantity)
  if maker.remaining.SameValue 0 then
    let _ ← removeFilled maker.id
  return maker

/-- Cancels an order. An order that can no longer be cancelled is not found, though it
leaves the book. -/
def cancel (id : OrderId) : Attempt Book (Option Order) := do
  match ← take id with
  | none => return none
  | some order => return order.cancel.toOption

/-- Lessens what is left of an order, which keeps its place in line. -/
def reduce (id : OrderId) (remaining : Quantity) : Attempt Book Order := do
  let book ← get
  match book.index.get? id, book.get? id with
  | some place, some order =>
    if remaining ≤ 0 ∨ order.remaining < remaining then
      Attempt.violate (.overfill id order.remaining remaining)
    else
      match ← onSide place.side (Ladder.reduce place.price place.sequence remaining) with
      | some order => return order
      | none => Attempt.violate (.unknownOrder id)
  | _, _ => Attempt.violate (.unknownOrder id)

end Book

end Bourse
