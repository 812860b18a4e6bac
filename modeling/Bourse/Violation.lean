import Bourse.Order.Terms
import Bourse.Order.Status
import Bourse.Decimal.Text
import Bourse.Decimal.Arithmetic

/-!
# What can go wrong inside

A `Violation` is a broken rule of the book or of an order's life. It never arises from
what a caller asks, only from a book that is out of step with its orders or from a
matching rule that misbehaves. A `Fault` is anything that stops an operation in the
middle: a violation, an arithmetic operation without a result, or a book that is crossed
once it has come to rest.
-/

namespace Bourse

/-- A broken rule of a book or an order. -/
inductive Violation where
  | duplicateOrderId (id : OrderId)
  /-- Market orders, and orders with nothing left, cannot rest. -/
  | notRestable (id : OrderId)
  | unknownOrder (id : OrderId)
  /-- Only an order with nothing left leaves the book as filled. -/
  | notFilled (id : OrderId)
  | emptyLevel (price : Price)
  | quantityOverflow (price : Price)
  | overfill (id : OrderId) (remaining requested : Quantity)
  | illegalTransition (status : OrderStatus) (transition : OrderTransition)
deriving DecidableEq

namespace Violation

/-- The kind of a violation, by name. -/
def name : Violation → String
  | .duplicateOrderId _ => "DuplicateOrderId"
  | .notRestable _ => "NotRestable"
  | .unknownOrder _ => "UnknownOrder"
  | .notFilled _ => "NotFilled"
  | .emptyLevel _ => "EmptyLevel"
  | .quantityOverflow _ => "QuantityOverflow"
  | .overfill _ _ _ => "Overfill"
  | .illegalTransition _ _ => "IllegalTransition"

/-- The words in which a violation is reported. -/
def message : Violation → String
  | .duplicateOrderId id => "order " ++ id.text ++ " is already in the book"
  | .notRestable id => "order " ++ id.text ++ " cannot rest in the book"
  | .unknownOrder id => "order " ++ id.text ++ " is not in the book"
  | .notFilled id => "order " ++ id.text ++ " is not fully filled"
  | .emptyLevel price => "price level " ++ price.text ++ " has no orders"
  | .quantityOverflow price => "aggregate quantity at level " ++ price.text ++ " overflows"
  | .overfill id remaining requested =>
    "fill of " ++ requested.text ++ " exceeds remaining " ++ remaining.text ++
      " on order " ++ id.text
  | .illegalTransition status transition =>
    "invalid transition from " ++ nameOf status ++ " via " ++ nameOf transition

end Violation

/-- What stops an operation in the middle. -/
inductive Fault where
  | violation (v : Violation)
  | arithmetic (e : ArithmeticError)
  /-- The best bid of the book has reached its best ask. -/
  | crossedAtRest (symbol : String)
deriving DecidableEq

namespace Fault

/-- The words in which a fault is reported. -/
def message : Fault → String
  | .violation v => "matching invariant violated: " ++ v.message
  | .arithmetic e => e.message
  | .crossedAtRest symbol => "book " ++ symbol ++ " crossed at rest"

end Fault

/-- An arithmetic result as a step that may stop at a fault. -/
def orFault {α : Type} : Except ArithmeticError α → Except Fault α
  | .ok a => .ok a
  | .error e => .error (.arithmetic e)

/-- The status after a transition, or the violation that forbids it. -/
def OrderStatus.advance (s : OrderStatus) (t : OrderTransition) : Except Violation OrderStatus :=
  match s.after? t with
  | some s => .ok s
  | none => .error (.illegalTransition s t)

end Bourse
