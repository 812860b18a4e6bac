import Bourse.Order.Terms
import Bourse.Decimal.Text

/-!
# Refusals

Why an intent, or a request to modify an order, is refused. A `RejectReason` is told to
the caller at once; each has a stable `code` beside its words.
-/

namespace Bourse

/-- Why an intent or a request is refused. -/
inductive RejectReason where
  | unknownSymbol (symbol : String)
  | nonPositiveQuantity
  | nonPositivePrice
  | missingLimitPrice
  | marketOrderWithPrice
  | tickSizeViolation (price tickSize : Price)
  | lotSizeViolation (quantity lotSize : Quantity)
  | quantityBelowMinimum (quantity minimum : Quantity)
  | quantityAboveMaximum (quantity maximum : Quantity)
  | duplicateOrderId (id : OrderId)
deriving DecidableEq

namespace RejectReason

/-- The kind of a refusal, by name. -/
def name : RejectReason → String
  | .unknownSymbol _ => "UnknownSymbol"
  | .nonPositiveQuantity => "NonPositiveQuantity"
  | .nonPositivePrice => "NonPositivePrice"
  | .missingLimitPrice => "MissingLimitPrice"
  | .marketOrderWithPrice => "MarketOrderWithPrice"
  | .tickSizeViolation _ _ => "TickSizeViolation"
  | .lotSizeViolation _ _ => "LotSizeViolation"
  | .quantityBelowMinimum _ _ => "QuantityBelowMinimum"
  | .quantityAboveMaximum _ _ => "QuantityAboveMaximum"
  | .duplicateOrderId _ => "DuplicateOrderId"

/-- The stable code of a refusal. -/
def code : RejectReason → String
  | .unknownSymbol _ => "UNKNOWN_SYMBOL"
  | .nonPositiveQuantity => "NON_POSITIVE_QUANTITY"
  | .nonPositivePrice => "NON_POSITIVE_PRICE"
  | .missingLimitPrice => "MISSING_LIMIT_PRICE"
  | .marketOrderWithPrice => "MARKET_ORDER_WITH_PRICE"
  | .tickSizeViolation _ _ => "TICK_SIZE_VIOLATION"
  | .lotSizeViolation _ _ => "LOT_SIZE_VIOLATION"
  | .quantityBelowMinimum _ _ => "QUANTITY_BELOW_MINIMUM"
  | .quantityAboveMaximum _ _ => "QUANTITY_ABOVE_MAXIMUM"
  | .duplicateOrderId _ => "DUPLICATE_ORDER_ID"

/-- The words in which a refusal is reported. -/
def message : RejectReason → String
  | .unknownSymbol symbol => "unknown symbol: " ++ symbol
  | .nonPositiveQuantity => "quantity must be positive"
  | .nonPositivePrice => "price must be positive"
  | .missingLimitPrice => "limit orders must have a price"
  | .marketOrderWithPrice => "market orders must not carry a price"
  | .tickSizeViolation price tickSize =>
    "price " ++ price.text ++ " is not a multiple of tick size " ++ tickSize.text
  | .lotSizeViolation quantity lotSize =>
    "quantity " ++ quantity.text ++ " is not a multiple of lot size " ++ lotSize.text
  | .quantityBelowMinimum quantity minimum =>
    "quantity " ++ quantity.text ++ " is below minimum " ++ minimum.text
  | .quantityAboveMaximum quantity maximum =>
    "quantity " ++ quantity.text ++ " is above maximum " ++ maximum.text
  | .duplicateOrderId id => "order id " ++ id.text ++ " is already live"

end RejectReason

/-- An intent that was refused. -/
structure Rejection where
  orderId : OrderId
  reason : RejectReason
deriving DecidableEq

/-- The words in which a refused intent is reported. -/
def Rejection.message (r : Rejection) : String :=
  "order " ++ r.orderId.text ++ " rejected: " ++ r.reason.message

end Bourse
