import Bourse.Engine.Desk
import Bourse.Book.Snapshot
import Bourse.Notice

/-!
# The engine

An engine keeps a book for each of its instruments and matches the orders sent
to it. Which book a live order is in is kept by the engine as its route, so an
order is cancelled and modified by its identity alone, and an identity can be
live only once.

An instrument is found by its symbol. `Engine.lookup?` searches the slots, which stands
for a map from symbols to places that is written at each listing and at no other time.
`Engine.addInstrument` refuses a symbol that is listed already and slots are never taken
off, so symbols are distinct on every engine that is ever reached, and the search finds
the one slot that such a map would name (`Engine.Listed.lookup?_eq`).

An operation answers with the engine as it is afterwards, with what it tells its
caller, and with its output: events for the sinks and notices for the log, in
the order in which they come about. An operation that stops at a fault sends no
events. An order that was to be entered or changed then keeps its route only if
it rests in the book, so that no identity stays taken by nothing.
-/

namespace Bourse

/-- An instrument and its book. -/
structure Slot where
  config : InstrumentConfig
  book : Book
deriving DecidableEq

/-- A matching engine for any number of instruments. -/
structure Engine where
  rule : MatchingRule
  slots : List Slot
  routes : Table OrderId Route
  counters : Counters

/-- What an operation puts out. -/
inductive Output where
  | notice (n : Notice)
  | event (e : Event)
deriving DecidableEq

/-- What an operation comes to. -/
structure Reply (ε α : Type) where
  engine : Engine
  answer : Except ε α
  output : List Output

namespace Engine

/-- An engine without instruments. -/
def empty (rule : MatchingRule) : Engine := ⟨rule, [], .empty, ⟨0, 0, 0⟩⟩

/-! ## Instruments -/

/-- The place and the slot of a symbol, found by a search of the slots. -/
def lookup? (e : Engine) (symbol : String) : Option (Nat × Slot) := do
  let index ← e.slots.findIdx? fun slot => slot.config.symbol = symbol
  let slot ← e.slots[index]?
  return (index, slot)

/-- The place and the slot of a live order. -/
def locate? (e : Engine) (id : OrderId) : Option (Nat × Slot) := do
  let route ← e.routes.get? id
  let slot ← e.slots[route.slot]?
  return (route.slot, slot)

/-- Lists an instrument with an empty book. Instruments are never taken off again. -/
def addInstrument (e : Engine) (config : InstrumentConfig) : Reply ConfigError Unit :=
  match config.validate with
  | .error err => ⟨e, .error err, []⟩
  | .ok () =>
    if (e.lookup? config.symbol).isSome then
      ⟨e, .error (.duplicateSymbol config.symbol), []⟩
    else
      { engine := { e with slots := e.slots ++ [⟨config, .empty config.symbol⟩] }
        answer := .ok ()
        output := [.notice (.instrumentRegistered config.symbol e.slots.length e.rule.name)] }

/-- The symbols in the order of their listing. -/
def symbols (e : Engine) : List String := e.slots.map (·.config.symbol)

/-! ## Checks of what a caller asks -/

/-- Checks the price of an order against its type. -/
def checkTerms (config : InstrumentConfig) : OrderType → Option Price → Except Objection Unit
  | .limit, none => .error (.refusal .missingLimitPrice)
  | .limit, some price =>
    if price ≤ 0 then .error (.refusal .nonPositivePrice) else config.checkPrice price
  | .market, some _ => .error (.refusal .marketOrderWithPrice)
  | .market, none => .ok ()

/-- Checks an intent: the sign of its quantity, its price, its quantity. -/
def checkIntent (config : InstrumentConfig) (intent : OrderIntent) : Except Objection Unit := do
  if intent.quantity ≤ 0 then throw (.refusal .nonPositiveQuantity)
  checkTerms config intent.orderType intent.price
  config.checkQuantity intent.quantity

/-- Checks a request to modify in the same order as `checkIntent`. -/
def checkRequest (config : InstrumentConfig) (request : ModifyRequest) :
    Except Objection Unit := do
  if request.quantity ≤ 0 then throw (.refusal .nonPositiveQuantity)
  if let some price := request.price then
    if price ≤ 0 then throw (.refusal .nonPositivePrice)
    config.checkPrice price
  config.checkQuantity request.quantity

/-! ## Work at a desk -/

/-- A desk with a book on it. -/
def desk (e : Engine) (book : Book) : Desk := ⟨book, e.routes, e.counters, []⟩

/-- The engine with a book put back into its slot. -/
def setBook (e : Engine) (index : Nat) (book : Book) : Engine :=
  { e with slots := e.slots.modify index fun slot => { slot with book } }

/-- The engine after work at a desk. -/
def leave (e : Engine) (index : Nat) (d : Desk) : Engine :=
  { e.setBook index d.book with routes := d.routes, counters := d.counters }

/-- What a fault puts on the log. -/
def faultNotices : Fault → List Output
  | .violation v => [.notice (.invariantViolated v)]
  | .arithmetic _ | .crossedAtRest _ => []

/-- The events of a desk, as output. -/
def eventsOf (d : Desk) : List Output := d.emitted.map .event

/-- Gives an operation a book to itself. Its events are sent if it comes to its end and
leaves the book uncrossed. -/
def exclusive {α : Type} (e : Engine) (index : Nat) (slot : Slot) (act : Attempt Desk α) :
    Reply Fault α :=
  match Desk.atRest act (e.desk slot.book) with
  | .ok a d => ⟨e.leave index d, .ok a, eventsOf d⟩
  | .error f d => ⟨e.leave index d, .error f, faultNotices f⟩

/-- `exclusive` for an operation on behalf of an order that holds a route. If the operation stops at
a fault, the route goes unless the order rests in the book. -/
def guarded {α : Type} (e : Engine) (index : Nat) (slot : Slot) (id : OrderId)
    (act : Attempt Desk α) : Reply Fault α :=
  match Desk.atRest act (e.desk slot.book) with
  | .ok a d => ⟨e.leave index d, .ok a, eventsOf d⟩
  | .error f d =>
    { engine := e.leave index (if d.book.contains id then d else d.release id)
      answer := .error f
      output := faultNotices f ++ [.notice (.operationAborted slot.config.symbol id)] }

/-! ## Operations -/

/-- Rejects an order for an instrument that is not listed. -/
def rejectUnlisted (e : Engine) (world : Surroundings) (order : Order) :
    Reply Fault (Except Rejection OrderResult) :=
  let reason : RejectReason := .unknownSymbol order.symbol
  let notice : Output := .notice (.orderRejected order.symbol order.id reason)
  match Desk.refuse world order reason (e.desk (.empty order.symbol)) with
  | .ok r d => ⟨{ e with counters := d.counters }, .ok (.error r), notice :: eventsOf d⟩
  | .error f d => ⟨{ e with counters := d.counters }, .error f, notice :: faultNotices f⟩

/-- Rejects an order that breaks a rule of its instrument. -/
def rejectListed (e : Engine) (world : Surroundings) (index : Nat) (slot : Slot) (order : Order)
    (reason : RejectReason) : Reply Fault (Except Rejection OrderResult) :=
  let r := e.exclusive index slot (Desk.refuse world order reason)
  { engine := r.engine
    answer := r.answer.map .error
    output := .notice (.orderRejected order.symbol order.id reason) :: r.output }

/-- Enters an order that has been checked: it takes its identity and an arrival number and
is matched. If the identity is live already the order is refused, and no event is sent,
for the events of that identity belong to the live order. -/
def enter (e : Engine) (world : Surroundings) (index : Nat) (slot : Slot) (order : Order) :
    Reply Fault (Except Rejection OrderResult) :=
  let arrival := e.counters.arrivals + 1
  let e := { e with counters := { e.counters with arrivals := arrival } }
  let symbol := slot.config.symbol
  if e.routes.contains order.id then
    let reason : RejectReason := .duplicateOrderId order.id
    { engine := e
      answer := .ok (.error ⟨order.id, reason⟩)
      output := [.notice (.orderRejected symbol order.id reason)] }
  else
    let e := { e with routes := e.routes.insert order.id ⟨index, arrival⟩ }
    let r := e.guarded index slot order.id
      (Desk.execute e.rule world { order with sequence := arrival })
    match r.answer with
    | .error f => ⟨r.engine, .error f, r.output⟩
    | .ok result =>
      let notice : Output :=
        .notice (.orderProcessed symbol order.id result.status result.trades.length)
      ⟨r.engine, .ok (.ok result), r.output ++ [notice]⟩

/-- Sends an intent in. -/
def submit (e : Engine) (world : Surroundings) (intent : OrderIntent) :
    Reply Fault (Except Rejection OrderResult) :=
  let order := Order.ofIntent (intent.orderId.getD world.orderId) world.now intent
  match e.lookup? intent.symbol with
  | none => e.rejectUnlisted world order
  | some (index, slot) =>
    match checkIntent slot.config intent with
    | .error (.fault f) => ⟨e, .error f, []⟩
    | .error (.refusal reason) => e.rejectListed world index slot order reason
    | .ok () => e.enter world index slot order

/-- Cancels an order. -/
def cancel (e : Engine) (world : Surroundings) (id : OrderId) : Reply Fault CancelResult :=
  match e.locate? id with
  | none => ⟨e, .ok .notFound, []⟩
  | some (index, slot) =>
    let r := e.exclusive index slot (Desk.cancel world id)
    match r.answer with
    | .ok (.cancelled order) =>
      let notice : Output := .notice (.orderCancelled slot.config.symbol id)
      ⟨r.engine, .ok (.cancelled order), r.output ++ [notice]⟩
    | _ => r

/-- Modifies an order. -/
def modify (e : Engine) (world : Surroundings) (id : OrderId) (request : ModifyRequest) :
    Reply Fault ModifyResult :=
  match e.locate? id with
  | none => ⟨e, .ok .notFound, []⟩
  | some (index, slot) =>
    match checkRequest slot.config request with
    | .error (.fault f) => ⟨e, .error f, []⟩
    | .error (.refusal reason) =>
      ⟨e, .ok (.rejected reason), [.notice (.modifyRejected id reason)]⟩
    | .ok () => e.guarded index slot id (Desk.modifyOrder e.rule world id request)

/-! ## Queries -/

/-- The leading levels of an instrument's book. -/
def snapshot (e : Engine) (symbol : String) (n : Nat) : Except Fault (Option BookSnapshot) :=
  match e.lookup? symbol with
  | none => .ok none
  | some (_, slot) => (slot.book.snapshot n).map some

/-- A resting order. -/
def order? (e : Engine) (id : OrderId) : Option Order := do
  let (_, slot) ← e.locate? id
  slot.book.get? id

/-- The best bid and the best ask of an instrument. -/
def bestPrices? (e : Engine) (symbol : String) : Option (Option Price × Option Price) := do
  let (_, slot) ← e.lookup? symbol
  return (slot.book.bestBid?, slot.book.bestAsk?)

end Engine

end Bourse
