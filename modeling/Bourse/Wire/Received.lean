import Bourse.Wire.Config
import Bourse.Wire.Outcome

/-!
# What is received

A value that is sent is received as it was, but for three things. A count is sent with as
many digits as it has, and received only if it has 64 bits. A decimal zero is received
without a minus, as `Decimal.plain`. And a time in a leap second is received as the second
after, as `Timestamp.shown`, unless it ends a minute.
-/

namespace Bourse

namespace Wire

/-- What becomes of the values of a type on their way. Without counts, decimals and times they
are all received as they were. -/
class Travels (α : Type) where
  /-- The counts in the value have 64 bits. -/
  Fits : α → Prop := fun _ => True
  /-- The value as it is received. -/
  received : α → α := id

export Travels (Fits received)

instance : Travels String := {}
instance : Travels Uuid := {}
instance : Travels OrderId := {}
instance : Travels Side := {}
instance : Travels OrderType := {}
instance : Travels TimeInForce := {}
instance : Travels OrderStatus := {}
instance : Travels OverflowPolicy := {}

instance : Travels Nat where
  Fits n := n < Json.wordBound

instance : Travels Decimal where
  received := Decimal.plain

instance : Travels Timestamp where
  received := Timestamp.shown

section

variable {α β : Type} [Travels α] [Travels β]

instance : Travels (Option α) := ⟨fun o => ∀ a ∈ o, Fits a, Option.map received⟩

instance : Travels (List α) := ⟨fun l => ∀ a ∈ l, Fits a, List.map received⟩

instance : Travels (α × β) := ⟨fun p => Fits p.1 ∧ Fits p.2, fun p => (received p.1, received p.2)⟩

end

/-! ## Records and unions -/

instance : Travels OrderIntent where
  received i := { i with price := received i.price, quantity := received i.quantity }

instance : Travels Order where
  Fits o := Fits o.sequence
  received o := { o with
    price := received o.price
    quantity := received o.quantity
    timestamp := received o.timestamp
    remaining := received o.remaining }

instance : Travels RejectReason where
  received
    | .tickSizeViolation price tickSize => .tickSizeViolation (received price) (received tickSize)
    | .lotSizeViolation quantity lotSize => .lotSizeViolation (received quantity) (received lotSize)
    | .quantityBelowMinimum quantity minimum =>
      .quantityBelowMinimum (received quantity) (received minimum)
    | .quantityAboveMaximum quantity maximum =>
      .quantityAboveMaximum (received quantity) (received maximum)
    | r => r

instance : Travels Rejection where
  received r := { r with reason := received r.reason }

instance : Travels Trade where
  Fits t := Fits t.sequence
  received t := { t with
    price := received t.price
    quantity := received t.quantity
    timestamp := received t.timestamp }

instance : Travels OrderUpdate where
  Fits u := Fits u.sequence
  received u := { u with
    remaining := received u.remaining
    filled := received u.filled
    rejectReason := received u.rejectReason
    timestamp := received u.timestamp }

instance : Travels OrderResult where
  Fits r := Fits r.order ∧ Fits r.trades
  received r := ⟨received r.order, received r.trades⟩

instance : Travels CancelResult where
  Fits
    | .cancelled order => Fits order
    | .notFound => True
  received
    | .cancelled order => .cancelled (received order)
    | .notFound => .notFound

instance : Travels ModifyRequest where
  received r := ⟨received r.price, received r.quantity⟩

instance : Travels ModifyResult where
  Fits
    | .modified result => Fits result
    | .notFound | .rejected _ => True
  received
    | .modified result => .modified (received result)
    | .notFound => .notFound
    | .rejected reason => .rejected (received reason)

instance : Travels BookSnapshot where
  received s := { s with
    bids := received s.bids
    asks := received s.asks
    spread := received s.spread
    mid := received s.mid }

instance : Travels InstrumentConfig where
  received i := { i with
    tickSize := received i.tickSize
    lotSize := received i.lotSize
    minQuantity := received i.minQuantity
    maxQuantity := received i.maxQuantity }

instance : Travels DeliveryConfig where
  Fits d := Fits d.capacity

instance : Travels EngineConfig where
  Fits c := Fits c.delivery
  received c := { c with instruments := received c.instruments }

end Wire

end Bourse
