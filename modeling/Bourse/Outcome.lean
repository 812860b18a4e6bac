import Bourse.Event

/-!
# Outcomes

What the caller of an operation is told. An accepted order comes back as it stands after
matching, with the trades it produced in their order (`OrderResult`).
-/

namespace Bourse

/-- An accepted order after matching, and its trades. -/
structure OrderResult where
  order : Order
  trades : List Trade
deriving DecidableEq

namespace OrderResult

/-- The status the order has reached. -/
def status (r : OrderResult) : OrderStatus := r.order.status

/-- The order rests in the book. -/
def isResting (r : OrderResult) : Bool := r.order.status.isLive

/-- The quantity the trades add up to. -/
def filled (r : OrderResult) : Except Fault Quantity :=
  orFault (Decimal.sum (r.trades.map Trade.quantity))

/-- What the trades cost in all, if every step fits. -/
def notional? (r : OrderResult) : Option Price :=
  r.trades.foldlM (fun sum t => t.notional?.bind sum.add?) 0

/-- The average price of the trades by quantity; none without trades or if `notional?` does not fit.
-/
def averagePrice (r : OrderResult) : Except Fault (Option Price) := do
  let filled ← r.filled
  if filled.SameValue 0 then return none
  match r.notional? with
  | none => return none
  | some cost => return some (← orFault (cost.div filled))

end OrderResult

/-- What becomes of a request to cancel. -/
inductive CancelResult where
  /-- The order as it left the book. -/
  | cancelled (order : Order)
  /-- No such order is live. -/
  | notFound
deriving DecidableEq

/-- The order was cancelled. -/
def CancelResult.isCancelled : CancelResult → Bool
  | .cancelled _ => true
  | .notFound => false

/-- A new remaining quantity for a resting order and, if given, a new price. -/
structure ModifyRequest where
  price : Option Price
  quantity : Quantity
deriving DecidableEq

/-- What becomes of a request to modify. -/
inductive ModifyResult where
  /-- The order as it stands afterwards, with any trades on re-entry. -/
  | modified (result : OrderResult)
  | notFound
  | rejected (reason : RejectReason)
deriving DecidableEq

/-- The order was modified. -/
def ModifyResult.isModified : ModifyResult → Bool
  | .modified _ => true
  | .notFound | .rejected _ => false

end Bourse
