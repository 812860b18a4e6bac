import Bourse.Decimal.Basic
import Bourse.Uuid
import Bourse.Named

/-!
# The terms of an order

Who an order belongs to (`OrderId`), on which `Side` of the market it stands, whether it
names a price of its own (`OrderType`), and how long it may wait (`TimeInForce`).
-/

namespace Bourse

/-- What is paid for one unit. -/
abbrev Price := Decimal

/-- How much is bought or sold. -/
abbrev Quantity := Decimal

/-- The identity of an order. -/
structure OrderId where
  uuid : Uuid
deriving DecidableEq

instance : Inhabited OrderId := ⟨⟨default⟩⟩

/-- The written form of an identity. -/
def OrderId.text (id : OrderId) : String := id.uuid.text

/-- The two sides of a market. -/
inductive Side where
  | buy
  | sell
deriving DecidableEq

namespace Side

instance : Named Side where
  values := [.buy, .sell]
  name
    | .buy => "Buy"
    | .sell => "Sell"

/-- The side one trades against. -/
def opposite : Side → Side
  | .buy => .sell
  | .sell => .buy

/-- The price `p` is strictly better than `q` for whoever trades against this side: higher
among buyers, lower among sellers. -/
def Better : Side → Price → Price → Prop
  | .buy, p, q => q < p
  | .sell, p, q => p < q

instance (s : Side) (p q : Price) : Decidable (s.Better p q) := by
  cases s <;> unfold Better <;> infer_instance

/-- An order on this side with the limit `limit` may trade at the price `p`. Without a
limit it may trade at any. -/
def Crosses : Side → Option Price → Price → Prop
  | _, none, _ => True
  | .buy, some limit, p => p ≤ limit
  | .sell, some limit, p => limit ≤ p

instance (s : Side) (limit : Option Price) (p : Price) : Decidable (s.Crosses limit p) := by
  cases s <;> cases limit <;> unfold Crosses <;> infer_instance

end Side

/-- Whether an order names a price. -/
inductive OrderType where
  | limit
  | market
deriving DecidableEq

instance : Named OrderType where
  values := [.limit, .market]
  name
    | .limit => "Limit"
    | .market => "Market"

/-- What becomes of the part of an order that does not trade at once. -/
inductive TimeInForce where
  /-- It rests in the book until it trades or is cancelled. -/
  | goodTillCancel
  /-- It is cancelled. -/
  | immediateOrCancel
  /-- There is no such part: the order trades as a whole or is cancelled untouched. -/
  | fillOrKill
deriving DecidableEq

instance : Inhabited TimeInForce := ⟨.goodTillCancel⟩

instance : Named TimeInForce where
  values := [.goodTillCancel, .immediateOrCancel, .fillOrKill]
  name
    | .goodTillCancel => "GoodTillCancel"
    | .immediateOrCancel => "ImmediateOrCancel"
    | .fillOrKill => "FillOrKill"

end Bourse
