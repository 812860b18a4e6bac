import Bourse.Config.Engine
import Bourse.Event

/-!
# Notices

What an engine and its sinks write to a log. Each `Notice` has a level, a message and
named fields; the fields are texts.
-/

namespace Bourse

/-- How much a notice matters. -/
inductive NoticeLevel where
  | debug
  | info
  | warn
  | error
deriving DecidableEq

instance : Named NoticeLevel where
  values := [.debug, .info, .warn, .error]
  name
    | .debug => "DEBUG"
    | .info => "INFO"
    | .warn => "WARN"
    | .error => "ERROR"

/-- An entry of the log. -/
inductive Notice where
  | instrumentRegistered (symbol : String) (index : Nat) (rule : String)
  | engineBuilt (instruments : Nat) (rule : String)
  | orderRejected (symbol : String) (id : OrderId) (reason : RejectReason)
  | orderProcessed (symbol : String) (id : OrderId) (status : OrderStatus) (trades : Nat)
  | orderCancelled (symbol : String) (id : OrderId)
  | modifyRejected (id : OrderId) (reason : RejectReason)
  | invariantViolated (v : Violation)
  | operationAborted (symbol : String) (id : OrderId)
  | eventDropped (e : Event)
  | workerStarted (sink : String) (delivery : DeliveryConfig)
  | queueFull (sink : String)
  | mailboxFull
  | logged (e : Event)
deriving DecidableEq

namespace Notice

/-- How much a notice matters. -/
def level : Notice → NoticeLevel
  | .instrumentRegistered _ _ _ | .engineBuilt _ _ | .workerStarted _ _ => .info
  | .orderRejected _ _ _ | .modifyRejected _ _ | .queueFull _ | .mailboxFull => .warn
  | .orderProcessed _ _ _ _ | .orderCancelled _ _ | .logged _ => .debug
  | .invariantViolated _ | .operationAborted _ _ | .eventDropped _ => .error

/-- What a notice says. -/
def message : Notice → String
  | .instrumentRegistered _ _ _ => "instrument registered"
  | .engineBuilt _ _ => "matching engine built"
  | .orderRejected _ _ _ => "order rejected"
  | .orderProcessed _ _ _ _ => "order processed"
  | .orderCancelled _ _ => "order cancelled"
  | .modifyRejected _ _ => "modify rejected"
  | .invariantViolated _ => "matching invariant violated"
  | .operationAborted _ _ => "order operation aborted"
  | .eventDropped _ => "event sink panicked; event dropped"
  | .workerStarted _ _ => "delivery worker started"
  | .queueFull _ => "delivery queue full, event dropped"
  | .mailboxFull => "async delivery channel full, event dropped"
  | .logged (.update _) => "order update"
  | .logged (.trade _) => "trade"

/-- The words for a refusal that a notice carries. A duplicate identity speaks for itself. -/
def reasonFields : RejectReason → List (String × String)
  | .duplicateOrderId _ => []
  | reason => [("reason", reason.message)]

/-- The named fields of a notice. -/
def fields : Notice → List (String × String)
  | .instrumentRegistered symbol index rule =>
    [("symbol", symbol), ("index", toString index), ("algorithm", rule)]
  | .engineBuilt instruments rule =>
    [("instruments", toString instruments), ("algorithm", rule)]
  | .orderRejected symbol id reason =>
    [("symbol", symbol), ("order_id", id.text), ("code", reason.code)] ++ reasonFields reason
  | .orderProcessed symbol id status trades =>
    [("symbol", symbol), ("order_id", id.text), ("status", nameOf status),
      ("trades", toString trades)]
  | .orderCancelled symbol id => [("symbol", symbol), ("order_id", id.text)]
  | .modifyRejected id reason => [("order_id", id.text), ("reason", reason.message)]
  | .invariantViolated v => [("violation", v.message)]
  | .operationAborted symbol id => [("symbol", symbol), ("order_id", id.text)]
  | .eventDropped e => [("kind", nameOf e.kind), ("sequence", toString e.sequence)]
  | .workerStarted sink delivery =>
    [("sink", sink), ("capacity", toString delivery.capacity),
      ("policy", nameOf delivery.overflowPolicy)]
  | .queueFull sink => [("sink", sink)]
  | .mailboxFull => []
  | .logged (.update u) =>
    [("order_id", u.orderId.text), ("symbol", u.symbol), ("status", nameOf u.status),
      ("remaining", u.remaining.text), ("sequence", toString u.sequence)]
  | .logged (.trade t) =>
    [("symbol", t.symbol), ("price", t.price.text), ("quantity", t.quantity.text),
      ("maker", t.maker.text), ("taker", t.taker.text), ("sequence", toString t.sequence)]

end Notice

end Bourse
