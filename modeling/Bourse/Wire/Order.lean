import Bourse.Wire.Basic
import Bourse.Order.Basic
import Bourse.Rejection

/-!
# Intents, orders and refusals on the wire

A refusal that names a grid or a bound has two decimals for its content.
-/

namespace Bourse.Wire

instance : Wire OrderStatus := ⟨fun a => .string (nameOf a), decodeNamed⟩
instance : Wire OrderTransition := ⟨fun a => .string (nameOf a), decodeNamed⟩

instance : Wire OrderIntent where
  encode i := .object [
    ("symbol", encode i.symbol),
    ("side", encode i.side),
    ("order_type", encode i.orderType),
    ("price", encode i.price),
    ("quantity", encode i.quantity),
    ("time_in_force", encode i.timeInForce),
    ("order_id", encode i.orderId)]
  decode j := do
    match ← fieldsOf ["symbol", "side", "order_type", "price", "quantity", "time_in_force",
      "order_id"] j with
    | [symbol, side, orderType, price, quantity, timeInForce, orderId] =>
      return {
        symbol := ← required symbol
        side := ← required side
        orderType := ← required orderType
        price := ← optional price
        quantity := ← required quantity
        timeInForce := ← orDefault .goodTillCancel decode timeInForce
        orderId := ← orDefault none decodeOption orderId }
    | _ => none

instance : Wire Order where
  encode o := .object [
    ("id", encode o.id),
    ("symbol", encode o.symbol),
    ("side", encode o.side),
    ("order_type", encode o.orderType),
    ("time_in_force", encode o.timeInForce),
    ("price", encode o.price),
    ("quantity", encode o.quantity),
    ("timestamp", encode o.timestamp),
    ("remaining_quantity", encode o.remaining),
    ("status", encode o.status),
    ("sequence", encode o.sequence)]
  decode j := do
    match ← fieldsOf ["id", "symbol", "side", "order_type", "time_in_force", "price", "quantity",
      "timestamp", "remaining_quantity", "status", "sequence"] j with
    | [id, symbol, side, orderType, timeInForce, price, quantity, timestamp, remaining, status,
        sequence] =>
      return {
        id := ← required id
        symbol := ← required symbol
        side := ← required side
        orderType := ← required orderType
        timeInForce := ← required timeInForce
        price := ← optional price
        quantity := ← required quantity
        timestamp := ← required timestamp
        remaining := ← required remaining
        status := ← required status
        sequence := ← required sequence }
    | _ => none

/-- Reads the two decimals of a refusal. Whether they may also be given in order, as an array,
is up to the caller. -/
def decodePair (ordered : Bool) (first second : String) (make : Decimal → Decimal → RejectReason) :
    Option Json → Option RejectReason
  | none => none
  | some (.array items) => if ordered then pair (.array items) else none
  | some j => pair j
where
  pair (j : Json) : Option RejectReason := do
    match ← fieldsOf [first, second] j with
    | [a, b] => return make (← required a) (← required b)
    | _ => none

/-- Reads a refusal. -/
def decodeReason (ordered : Bool) (j : Json) : Option RejectReason := do
  let (name, content) ← caseOf j
  match name with
  | "UnknownSymbol" => holding .unknownSymbol content
  | "NonPositiveQuantity" => bare .nonPositiveQuantity content
  | "NonPositivePrice" => bare .nonPositivePrice content
  | "MissingLimitPrice" => bare .missingLimitPrice content
  | "MarketOrderWithPrice" => bare .marketOrderWithPrice content
  | "TickSizeViolation" => decodePair ordered "price" "tick_size" .tickSizeViolation content
  | "LotSizeViolation" => decodePair ordered "quantity" "lot_size" .lotSizeViolation content
  | "QuantityBelowMinimum" =>
    decodePair ordered "quantity" "minimum" .quantityBelowMinimum content
  | "QuantityAboveMaximum" =>
    decodePair ordered "quantity" "maximum" .quantityAboveMaximum content
  | "DuplicateOrderId" => holding .duplicateOrderId content
  | _ => none

/-- The content of a refusal, if it has any. -/
def reasonContent : RejectReason → Option Json
  | .unknownSymbol symbol => some (encode symbol)
  | .nonPositiveQuantity | .nonPositivePrice | .missingLimitPrice | .marketOrderWithPrice => none
  | .tickSizeViolation price tickSize =>
    some (.object [("price", encode price), ("tick_size", encode tickSize)])
  | .lotSizeViolation quantity lotSize =>
    some (.object [("quantity", encode quantity), ("lot_size", encode lotSize)])
  | .quantityBelowMinimum quantity minimum =>
    some (.object [("quantity", encode quantity), ("minimum", encode minimum)])
  | .quantityAboveMaximum quantity maximum =>
    some (.object [("quantity", encode quantity), ("maximum", encode maximum)])
  | .duplicateOrderId id => some (encode id)

instance : Wire RejectReason where
  encode r :=
    match reasonContent r with
    | none => .string r.name
    | some content => encodeCase r.name content
  decode := decodeReason true

instance : Wire Rejection where
  encode r := .object [("order_id", encode r.orderId), ("reason", encode r.reason)]
  decode j := do
    match ← fieldsOf ["order_id", "reason"] j with
    | [orderId, reason] => return ⟨← required orderId, ← required reason⟩
    | _ => none

end Bourse.Wire
