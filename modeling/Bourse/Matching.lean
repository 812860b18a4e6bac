import Bourse.Book.Basic

/-!
# Matching

A `MatchingRule` lets an incoming order trade against a book. Price-time priority is the
rule of most exchanges: the best price first and the oldest order first at each price,
every `Fill` at the resting order's price, until the incoming order is used up or nothing
that is left suits its limit.

The rule works on the incoming order and the book together, an `Encounter`, and what it
has done to them stays done if it stops at a fault.
-/

namespace Bourse

/-- One execution: the resting order as it stands afterwards, at which price, and how much. -/
structure Fill where
  maker : Order
  price : Price
  quantity : Quantity
deriving DecidableEq

/-- An incoming order at a book. -/
structure Encounter where
  incoming : Order
  book : Book
deriving DecidableEq

namespace Encounter

/-- Runs an attempt on the book. -/
def onBook {α : Type} (act : Attempt Book α) : Attempt Encounter α := do
  let e ← get
  Attempt.focus e.book (fun book => { e with book }) act

/-- The price and the first order of the best level opposite the incoming order. -/
def nextMaker? (e : Encounter) : Option (Price × Order) := do
  let level ← e.book.bestOpposite? e.incoming.side
  let maker ← level.front?
  return (level.price, maker)

/-- Lets the incoming order trade once with the order in line. -/
def trade (price : Price) (maker : Order) : Attempt Encounter Fill := do
  let e ← get
  let quantity := e.incoming.remaining.smaller maker.remaining
  let maker ← onBook (Book.fillBest e.incoming.side.opposite quantity)
  let incoming ← Attempt.lift (e.incoming.fill quantity)
  modify fun e => { e with incoming }
  return ⟨maker, price, quantity⟩

/-- Trades in price-time priority, at most `n` times. -/
def tradeUpTo : Nat → Attempt Encounter (List Fill)
  | 0 => return []
  | n + 1 => do
    let e ← get
    if e.incoming.remaining ≤ 0 then return []
    match e.nextMaker? with
    | none => return []
    | some (price, maker) =>
      if e.incoming.Crosses price then
        let fill ← trade price maker
        let fills ← tradeUpTo n
        return fill :: fills
      else return []

/-- Trades in price-time priority. Each trade uses up the order in line or the incoming one,
so there are no more trades than orders on the other side. -/
def priceTime : Attempt Encounter (List Fill) := do
  let e ← get
  tradeUpTo (e.book.ladder e.incoming.side.opposite).orders.length

end Encounter

/-- A way of matching. It is told how often it has been asked, counting from one. -/
structure MatchingRule where
  name : String
  run : Nat → Attempt Encounter (List Fill)

namespace MatchingRule

/-- Price-time priority. -/
def priceTime : MatchingRule := ⟨"PriceTime", fun _ => Encounter.priceTime⟩

/-! ## Rules by script

A script says how a rule conducts itself each time it is asked. With a script one can see what
an engine makes of a rule that breaks off or leaves a book crossed. -/

/-- What a rule does when it is asked. -/
inductive Conduct where
  /-- It trades in price-time priority. -/
  | priceTime
  /-- It lets nothing trade. -/
  | idle
  /-- It reports a violation by the incoming order and has not traded. -/
  | failBefore (report : Order → Violation)
  /-- It trades in price-time priority and then reports a violation by the incoming order. -/
  | failAfter (report : Order → Violation)

/-- Carries a conduct out. -/
def Conduct.run : Conduct → Attempt Encounter (List Fill)
  | .priceTime => Encounter.priceTime
  | .idle => return []
  | .failBefore report => do Attempt.violate (report (← get).incoming)
  | .failAfter report => do
    let _ ← Encounter.priceTime
    Attempt.violate (report (← get).incoming)

/-- The rule that goes by a script. -/
def scripted (name : String) (script : Nat → Conduct) : MatchingRule :=
  ⟨name, fun call => (script call).run⟩

/-- The script that departs once from price-time priority. -/
def once (call : Nat) (conduct : Conduct) (n : Nat) : Conduct :=
  if n = call then conduct else .priceTime

end MatchingRule

end Bourse
