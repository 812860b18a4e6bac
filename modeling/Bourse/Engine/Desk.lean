import Bourse.Matching
import Bourse.Outcome

/-!
# The desk

While an operation has a book to itself it works at a `Desk`: on that book, on the routes
and the counters that all books share, and on the list of events it is about to send.
Nothing of what it does can touch another book. The operations are `execute`, `cancel` and
`modifyOrder`, and `refuse` for what is not let in.

Events are numbered as they are made (`nextEvent`). If the operation stops at a fault its
events are never sent, but their numbers stay used.
-/

namespace Bourse

/-- Which book a live order is in, and the arrival that took its identity. -/
structure Route where
  slot : Nat
  arrival : Nat
deriving DecidableEq

/-- How many arrivals and events have been numbered, and how often the matching rule has
been asked. -/
@[ext]
structure Counters where
  arrivals : Nat
  events : Nat
  matchings : Nat
deriving DecidableEq

/-- What the world outside supplies to a call: the time, an identity for an order that
brings none, and identities for trades by their event number. -/
structure Surroundings where
  now : Timestamp
  orderId : OrderId
  tradeId : Nat → Uuid

/-- What an operation works on while it has a book to itself. -/
structure Desk where
  book : Book
  routes : Table OrderId Route
  counters : Counters
  emitted : List Event
deriving DecidableEq

namespace Desk

/-- Runs an attempt on the book. -/
def onBook {α : Type} (act : Attempt Book α) : Attempt Desk α := do
  let desk ← get
  Attempt.focus desk.book (fun book => { desk with book }) act

/-- Takes the route of an order back, so that its identity is free again. -/
def release (id : OrderId) (d : Desk) : Desk := { d with routes := d.routes.erase id }

/-- The number of the next arrival. -/
def nextArrival : Attempt Desk Nat :=
  modifyGet fun d =>
    (d.counters.arrivals + 1,
      { d with counters := { d.counters with arrivals := d.counters.arrivals + 1 } })

/-- The number of the next event. -/
def nextEvent : Attempt Desk Nat :=
  modifyGet fun d =>
    (d.counters.events + 1,
      { d with counters := { d.counters with events := d.counters.events + 1 } })

/-- Puts an event on the list. -/
def emit (e : Event) : Attempt Desk Unit :=
  modify fun d => { d with emitted := d.emitted ++ [e] }

/-- Tells how an order stands. -/
def emitUpdate (world : Surroundings) (order : Order) : Attempt Desk Unit := do
  let sequence ← nextEvent
  let update ← Attempt.lift (OrderUpdate.ofOrder order world.now sequence)
  emit (.update update)

/-- Tells why an order was rejected. -/
def emitRejected (world : Surroundings) (order : Order) (reason : RejectReason) :
    Attempt Desk Unit := do
  let sequence ← nextEvent
  let update ← Attempt.lift (OrderUpdate.rejected order reason world.now sequence)
  emit (.update update)

/-- Tells of a trade of an incoming order. -/
def emitTrade (world : Surroundings) (taker : Order) (fill : Fill) : Attempt Desk Trade := do
  let sequence ← nextEvent
  let trade : Trade :=
    { id := world.tradeId sequence
      symbol := taker.symbol
      price := fill.price
      quantity := fill.quantity
      maker := fill.maker.id
      taker := taker.id
      takerSide := taker.side
      sequence
      timestamp := world.now }
  emit (.trade trade)
  return trade

/-- Tells of a trade and of how the maker stands after it. A maker with nothing left gives
its identity back. -/
def report (world : Surroundings) (taker : Order) (fill : Fill) : Attempt Desk Trade := do
  let trade ← emitTrade world taker fill
  emitUpdate world fill.maker
  if fill.maker.status = .filled then modify (release fill.maker.id)
  return trade

/-- Lets an order trade by a matching rule and gives it as it stands then, with its fills. -/
def matchOrder (rule : MatchingRule) (order : Order) : Attempt Desk (Order × List Fill) := do
  let desk ← get
  let call := desk.counters.matchings + 1
  let desk := { desk with counters := { desk.counters with matchings := call } }
  Attempt.focus (⟨order, desk.book⟩ : Encounter) (fun e => { desk with book := e.book }) do
    let fills ← rule.run call
    return ((← get).incoming, fills)

/-- A step that a broken rule may stop. -/
def orViolate (r : Except Violation Order) : Attempt Desk Order :=
  match r with
  | .ok o => pure o
  | .error v => Attempt.violate v

/-- Settles what is left of an order after matching: a limit order that may wait rests in the
book, any other is cancelled. -/
def settle (order : Order) : Attempt Desk Order := do
  if 0 < order.remaining then
    if order.orderType = .limit ∧ order.timeInForce = .goodTillCancel then
      onBook (Book.insert order)
      return order
    else orViolate order.cancel
  else return order

/-- An order that must trade as a whole, but cannot. -/
def MustKill (d : Desk) (order : Order) : Prop :=
  order.timeInForce = .fillOrKill ∧
    d.book.crossingLiquidity order.side order.price order.remaining < order.remaining

instance (d : Desk) (order : Order) : Decidable (d.MustKill order) := by
  unfold MustKill
  infer_instance

/-- Cancels an order before it trades. -/
def kill (world : Surroundings) (order : Order) : Attempt Desk OrderResult := do
  let order ← orViolate order.cancel
  modify (release order.id)
  emitUpdate world order
  return ⟨order, []⟩

/-- Matches an order and settles what is left of it. Each fill brings one trade and one
update of the maker; one update of the order itself comes last. -/
def execute (rule : MatchingRule) (world : Surroundings) (order : Order) :
    Attempt Desk OrderResult := do
  if (← get).MustKill order then kill world order
  else
    let (order, fills) ← matchOrder rule order
    let trades ← fills.mapM (report world order)
    let order ← settle order
    if order.status.isTerminal then modify (release order.id)
    emitUpdate world order
    return ⟨order, trades⟩

/-- Rejects an order and tells why. -/
def refuse (world : Surroundings) (order : Order) (reason : RejectReason) :
    Attempt Desk Rejection := do
  let order ← orViolate order.reject
  emitRejected world order reason
  return ⟨order.id, reason⟩

/-- Cancels a resting order. -/
def cancel (world : Surroundings) (id : OrderId) : Attempt Desk CancelResult := do
  match ← onBook (Book.cancel id) with
  | none => return .notFound
  | some order =>
    modify (release id)
    emitUpdate world order
    return .cancelled order

/-- Two optional prices are both absent or mean the same number. -/
def SamePrice : Option Price → Option Price → Prop
  | none, none => True
  | some p, some q => p.SameValue q
  | _, _ => False

instance (p q : Option Price) : Decidable (SamePrice p q) :=
  match p, q with
  | none, none => isTrue trivial
  | some p, some q => inferInstanceAs (Decidable (p.SameValue q))
  | none, some _ | some _, none => isFalse id

/-- Lessens a resting order in its place. -/
def lessen (world : Surroundings) (id : OrderId) (quantity : Quantity) :
    Attempt Desk OrderResult := do
  let order ← onBook (Book.reduce id quantity)
  emitUpdate world order
  return ⟨order, []⟩

/-- Takes a resting order out and sends it in again with a new price and quantity, as a
late arrival. -/
def reenter (rule : MatchingRule) (world : Surroundings) (id : OrderId) (price : Option Price)
    (quantity : Quantity) : Attempt Desk OrderResult := do
  match ← onBook (Book.take id) with
  | none => Attempt.violate (.unknownOrder id)
  | some order =>
    let desk ← get
    let order ← Attempt.focus { order with price } (fun _ => desk) do
      Order.setRemaining quantity
      get
    let sequence ← nextArrival
    execute rule world { order with sequence }

/-- Modifies a resting order. A smaller quantity at the same price keeps its place in line;
another price or a larger quantity does not. -/
def modifyOrder (rule : MatchingRule) (world : Surroundings) (id : OrderId)
    (request : ModifyRequest) : Attempt Desk ModifyResult := do
  match (← get).book.get? id with
  | none => return .notFound
  | some current =>
    let price := request.price.or current.price
    if SamePrice price current.price ∧ request.quantity.SameValue current.remaining then
      return .modified ⟨current, []⟩
    else if SamePrice price current.price ∧ request.quantity < current.remaining then
      return .modified (← lessen world id request.quantity)
    else
      return .modified (← reenter rule world id price request.quantity)

/-- Runs an operation, which must not leave the book crossed. -/
def atRest {α : Type} (act : Attempt Desk α) : Attempt Desk α := do
  let a ← act
  let book := (← get).book
  if book.isCrossed then throw (.crossedAtRest book.symbol)
  return a

end Desk

end Bourse
