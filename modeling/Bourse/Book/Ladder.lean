import Bourse.Book.Level

/-!
# The ladder of a side

All levels of one side of a book, the best price first: bids from the highest down, asks
from the lowest up, as `Side.Better` ranks them. No two levels stand at the same number,
whatever its scale; a level keeps the price of the order that opened it.

A level is opened before its first order is put in (`pushAt`), so an order that is refused
at a price of its own leaves an empty level behind. An order that is taken out takes its
level along if that was its last (`dropIfEmpty`).
-/

namespace Bourse

/-- The levels of a side, best first. -/
structure Ladder where
  side : Side
  levels : List Level
deriving DecidableEq

namespace Ladder

/-- A side without orders. -/
def empty (side : Side) : Ladder := ⟨side, []⟩

/-- The best level. -/
def best? (l : Ladder) : Option Level := l.levels.head?

/-- The best price. -/
def bestPrice? (l : Ladder) : Option Price := l.best?.map Level.price

/-- The level at a price. -/
def level? (l : Ladder) (price : Price) : Option Level :=
  l.levels.find? fun level => level.price.SameValue price

/-- All orders, in the order in which they are to trade. -/
def orders (l : Ladder) : List Order := l.levels.flatMap Level.orders

/-- Prices and sums of the first `n` levels. -/
def depth (l : Ladder) (n : Nat) : List (Price × Quantity) :=
  (l.levels.take n).map fun level => (level.price, level.total)

/-- Adds an order to the level at a price, opening it at its place if it is not there. -/
def pushAt (side : Side) (price : Price) (order : Order) : List Level → Attempt (List Level) Unit
  | [] => Attempt.focus (Level.empty price) ([·]) (Level.push order)
  | level :: rest =>
    if level.price.SameValue price then
      Attempt.focus level (· :: rest) (Level.push order)
    else if side.Better price level.price then
      Attempt.focus (Level.empty price) (· :: level :: rest) (Level.push order)
    else
      Attempt.focus rest (level :: ·) (pushAt side price order rest)

/-- Adds an order at a price. -/
def push (price : Price) (order : Order) : Attempt Ladder Unit := do
  let ladder ← get
  Attempt.focus ladder.levels (fun levels => { ladder with levels })
    (pushAt ladder.side price order ladder.levels)

/-- Runs an attempt on the level at a price, if there is one. -/
def atLevel {α : Type} (price : Price) (act : Attempt Level (Option α)) :
    List Level → Attempt (List Level) (Option α)
  | [] => return none
  | level :: rest =>
    if level.price.SameValue price then Attempt.focus level (· :: rest) act
    else Attempt.focus rest (level :: ·) (atLevel price act rest)

/-- Runs an attempt on the level at a price, if there is one. -/
def onLevel {α : Type} (price : Price) (act : Attempt Level (Option α)) :
    Attempt Ladder (Option α) := do
  let ladder ← get
  Attempt.focus ladder.levels (fun levels => { ladder with levels })
    (atLevel price act ladder.levels)

/-- Drops the level at a price if it has no orders. -/
def dropIfEmpty (price : Price) (l : Ladder) : Ladder :=
  { l with levels := l.levels.filter fun level =>
      !(level.orders.isEmpty && decide (level.price.SameValue price)) }

/-- Takes an order out, and its level if that was its last. -/
def remove (price : Price) (sequence : Nat) : Attempt Ladder (Option Order) := do
  let removed ← onLevel price (Level.remove sequence)
  if removed.isSome then modify (dropIfEmpty price)
  return removed

/-- Fills a quantity of the first order in line. -/
def fillBest (quantity : Quantity) : Attempt Ladder Order := do
  let ladder ← get
  match ladder.levels with
  | [] => Attempt.violate (.emptyLevel 0)
  | level :: rest =>
    Attempt.focus level (fun level => { ladder with levels := level :: rest })
      (Level.fillFront quantity)

/-- Lessens what is left of an order. -/
def reduce (price : Price) (sequence : Nat) (remaining : Quantity) :
    Attempt Ladder (Option Order) :=
  onLevel price (Level.reduce sequence remaining)

end Ladder

end Bourse
