import Bourse.Delivery.Sink

/-!
# Venues

A `Venue` is an engine at work with its sinks and its log. An operation sends its events
itself: when its work at the desk is done, the book has been found uncrossed and is back
in its slot, the sinks are called with the events one after the other (`deliver`), and
only then does the operation come to its end.

A sink that fails unwinds its caller, as a fault does. An operation on behalf of an order
takes the route of the order back when it is unwound (`letGo`), whatever the reason, so a
failure that came through to it would take the route of an order that has just been filled
or has come to rest. What keeps it away is that every call of a sink is made for itself:
its failure ends that call and goes to the log, and the next call is made.

`Engine` tells of the same operations without their deliveries, which are its `Output`.
-/

namespace Bourse

/-- What unwinds an operation. -/
inductive Halt where
  | fault (f : Fault)
  /-- A sink has failed on an event. -/
  | sink (e : Event)
deriving DecidableEq

/-- An engine with its sinks, the events that they have been called with, and the log. -/
structure Venue where
  engine : Engine
  sinks : Sinks
  handed : List Event
  log : List Notice

namespace Sink

/-- Calls a sink with an event. There is no answer if the sink fails on it. -/
def call? (s : Sink) (e : Event) : Option (Sink × List Notice) :=
  match s with
  | .failing fails kept => if fails e then none else some (.failing fails (kept ++ [e]), [])
  | .ignore | .log | .memory _ | .channel _ => some (s.accept e)

end Sink

namespace Sinks

/-- Calls the sink of its stream with an event. -/
def call? (s : Sinks) (e : Event) : Option (Sinks × List Notice) :=
  match e with
  | .update _ => (s.updates.call? e).map fun (updates, notices) => ({ s with updates }, notices)
  | .trade _ => (s.trades.call? e).map fun (trades, notices) => ({ s with trades }, notices)

end Sinks

/-- What is done at a venue. If it is unwound, what has been done by then stays done. -/
abbrev Work := EStateM Halt Venue

namespace Venue

variable {α : Type}

/-- An engine without instruments at its sinks. -/
def opened (rule : MatchingRule) (sinks : Sinks) : Venue := ⟨.empty rule, sinks, [], []⟩

/-- Puts a notice on the log. -/
def note (n : Notice) : Work Unit := modify fun v => { v with log := v.log ++ [n] }

/-- Puts the engine as it has become. -/
def setEngine (engine : Engine) : Work Unit := modify fun v => { v with engine }

/-- Calls the sink of its stream with an event. -/
def hand (e : Event) : Work Unit := fun v =>
  let v := { v with handed := v.handed ++ [e] }
  match v.sinks.call? e with
  | none => .error (.sink e) v
  | some (sinks, notices) => .ok () { v with sinks, log := v.log ++ notices }

/-- Calls the sinks with events, one after the other, each call for itself. -/
def deliver : List Event → Work Unit
  | [] => return
  | e :: rest => do
    tryCatch (hand e) fun _ => note (.eventDropped e)
    deliver rest

/-- Is unwound by a fault. -/
def unwind (f : Fault) : Work α := do
  match f with
  | .violation v => note (.invariantViolated v)
  | .arithmetic _ | .crossedAtRest _ => pure ()
  throw (.fault f)

/-- Gives an operation a book to itself and sends its events. -/
def exclusive (index : Nat) (slot : Slot) (act : Attempt Desk α) : Work α := do
  let engine := (← get).engine
  match Desk.atRest act (engine.desk slot.book) with
  | .ok a d =>
    setEngine (engine.leave index d)
    deliver d.emitted
    return a
  | .error f d =>
    setEngine (engine.leave index d)
    unwind f

/-- Takes the route of an order back unless the order rests in the book of a slot. -/
def letGo (index : Nat) (id : OrderId) : Work Unit := do
  let engine := (← get).engine
  match engine.slots[index]? with
  | none => return
  | some slot =>
    if slot.book.contains id then return
    else setEngine { engine with routes := engine.routes.erase id }

/-- `exclusive` for an operation on behalf of an order that holds a route. The order must not keep
it for nothing if the operation is unwound. -/
def guarded (index : Nat) (slot : Slot) (id : OrderId) (act : Attempt Desk α) : Work α :=
  tryCatch (exclusive index slot act) fun h => do
    letGo index id
    note (.operationAborted slot.config.symbol id)
    throw h

/-- Lists an instrument, which sends no event. -/
def addInstrument (config : InstrumentConfig) (v : Venue) : Except ConfigError Unit × Venue :=
  let r := v.engine.addInstrument config
  (r.answer, { v with engine := r.engine, log := v.log ++ (v.sinks.absorb r.output).2 })

/-- Rejects an order for an instrument that is not listed. -/
def rejectUnlisted (world : Surroundings) (order : Order) :
    Work (Except Rejection OrderResult) := do
  let reason : RejectReason := .unknownSymbol order.symbol
  note (.orderRejected order.symbol order.id reason)
  let engine := (← get).engine
  match Desk.refuse world order reason (engine.desk (.empty order.symbol)) with
  | .ok r d =>
    setEngine { engine with counters := d.counters }
    deliver d.emitted
    return .error r
  | .error f d =>
    setEngine { engine with counters := d.counters }
    unwind f

/-- Rejects an order that breaks a rule of its instrument. -/
def rejectListed (world : Surroundings) (index : Nat) (slot : Slot) (order : Order)
    (reason : RejectReason) : Work (Except Rejection OrderResult) := do
  note (.orderRejected order.symbol order.id reason)
  return .error (← exclusive index slot (Desk.refuse world order reason))

/-- Enters an order that has been checked. -/
def enter (world : Surroundings) (index : Nat) (slot : Slot) (order : Order) :
    Work (Except Rejection OrderResult) := do
  let engine := (← get).engine
  let arrival := engine.counters.arrivals + 1
  let engine := { engine with counters := { engine.counters with arrivals := arrival } }
  let symbol := slot.config.symbol
  if engine.routes.contains order.id then
    let reason : RejectReason := .duplicateOrderId order.id
    setEngine engine
    note (.orderRejected symbol order.id reason)
    return .error ⟨order.id, reason⟩
  else
    setEngine { engine with routes := engine.routes.insert order.id ⟨index, arrival⟩ }
    let result ← guarded index slot order.id
      (Desk.execute engine.rule world { order with sequence := arrival })
    note (.orderProcessed symbol order.id result.status result.trades.length)
    return .ok result

/-- Sends an intent in. -/
def submit (world : Surroundings) (intent : OrderIntent) :
    Work (Except Rejection OrderResult) := do
  let order := Order.ofIntent (intent.orderId.getD world.orderId) world.now intent
  match (← get).engine.lookup? intent.symbol with
  | none => rejectUnlisted world order
  | some (index, slot) =>
    match Engine.checkIntent slot.config intent with
    | .error (.fault f) => throw (.fault f)
    | .error (.refusal reason) => rejectListed world index slot order reason
    | .ok () => enter world index slot order

/-- Cancels an order. -/
def cancel (world : Surroundings) (id : OrderId) : Work CancelResult := do
  match (← get).engine.locate? id with
  | none => return .notFound
  | some (index, slot) =>
    match ← exclusive index slot (Desk.cancel world id) with
    | .notFound => return .notFound
    | .cancelled order =>
      note (.orderCancelled slot.config.symbol id)
      return .cancelled order

/-- Modifies an order. -/
def modify (world : Surroundings) (id : OrderId) (request : ModifyRequest) :
    Work ModifyResult := do
  let engine := (← get).engine
  match engine.locate? id with
  | none => return .notFound
  | some (index, slot) =>
    match Engine.checkRequest slot.config request with
    | .error (.fault f) => throw (.fault f)
    | .error (.refusal reason) =>
      note (.modifyRejected id reason)
      return .rejected reason
    | .ok () => guarded index slot id (Desk.modifyOrder engine.rule world id request)

end Venue

end Bourse
