import Bourse.Wire.Order
import Bourse.Outcome
import Bourse.Book.Snapshot

/-!
# Events, outcomes and snapshots on the wire
-/

namespace Bourse.Wire

instance : Wire Trade where
  encode t := .object [
    ("id", encode t.id),
    ("symbol", encode t.symbol),
    ("price", encode t.price),
    ("quantity", encode t.quantity),
    ("maker_order_id", encode t.maker),
    ("taker_order_id", encode t.taker),
    ("taker_side", encode t.takerSide),
    ("sequence", encode t.sequence),
    ("timestamp", encode t.timestamp)]
  decode j := do
    match ← fieldsOf ["id", "symbol", "price", "quantity", "maker_order_id", "taker_order_id",
      "taker_side", "sequence", "timestamp"] j with
    | [id, symbol, price, quantity, maker, taker, takerSide, sequence, timestamp] =>
      return {
        id := ← required id
        symbol := ← required symbol
        price := ← required price
        quantity := ← required quantity
        maker := ← required maker
        taker := ← required taker
        takerSide := ← required takerSide
        sequence := ← required sequence
        timestamp := ← required timestamp }
    | _ => none

instance : Wire OrderUpdate where
  encode u := .object [
    ("order_id", encode u.orderId),
    ("symbol", encode u.symbol),
    ("status", encode u.status),
    ("remaining_quantity", encode u.remaining),
    ("filled_quantity", encode u.filled),
    ("reject_reason", encode u.rejectReason),
    ("timestamp", encode u.timestamp),
    ("sequence", encode u.sequence)]
  decode j := do
    match ← fieldsOf ["order_id", "symbol", "status", "remaining_quantity", "filled_quantity",
      "reject_reason", "timestamp", "sequence"] j with
    | [orderId, symbol, status, remaining, filled, rejectReason, timestamp, sequence] =>
      return {
        orderId := ← required orderId
        symbol := ← required symbol
        status := ← required status
        remaining := ← required remaining
        filled := ← required filled
        rejectReason := ← optional rejectReason
        timestamp := ← required timestamp
        sequence := ← required sequence }
    | _ => none

instance : Wire OrderResult where
  encode r := .object [("order", encode r.order), ("trades", encode r.trades)]
  decode j := do
    match ← fieldsOf ["order", "trades"] j with
    | [order, trades] => return ⟨← required order, ← required trades⟩
    | _ => none

instance : Wire CancelResult where
  encode
    | .cancelled order => encodeCase "Cancelled" (encode order)
    | .notFound => .string "NotFound"
  decode j := do
    let (name, content) ← caseOf j
    match name with
    | "Cancelled" => holding .cancelled content
    | "NotFound" => bare .notFound content
    | _ => none

instance : Wire ModifyRequest where
  encode r := .object [("price", encode r.price), ("quantity", encode r.quantity)]
  decode j := do
    match ← fieldsOf ["price", "quantity"] j with
    | [price, quantity] => return ⟨← optional price, ← required quantity⟩
    | _ => none

instance : Wire ModifyResult where
  encode
    | .modified result => encodeCase "Modified" (encode result)
    | .notFound => .string "NotFound"
    | .rejected reason => encodeCase "Rejected" (encode reason)
  decode j := do
    let (name, content) ← caseOf j
    match name with
    | "Modified" => holding .modified content
    | "NotFound" => bare .notFound content
    | "Rejected" => holding .rejected content
    | _ => none

instance : Wire BookSnapshot where
  encode s := .object [
    ("symbol", encode s.symbol),
    ("bids", encode s.bids),
    ("asks", encode s.asks),
    ("spread", encode s.spread),
    ("mid_price", encode s.mid)]
  decode j := do
    match ← fieldsOf ["symbol", "bids", "asks", "spread", "mid_price"] j with
    | [symbol, bids, asks, spread, mid] =>
      return {
        symbol := ← required symbol
        bids := ← required bids
        asks := ← required asks
        spread := ← optional spread
        mid := ← optional mid }
    | _ => none

end Bourse.Wire
